import OrIsyVra.Container.Encryption
import OrIsyVra.Library.FolderTree
import OrIsyVra.Library.TextLines
import Mathlib.Data.List.Pairwise

/-!
# Encrypting and decrypting folders

`process_directory` collects the files of a folder and gives each its place in a temporary folder:
the folders on the way keep their names, the file name gets the suffix of a container, or loses it.
The temporary becomes the output when every file is done, and is removed otherwise.

A file that is done stands in the way of a later one whose target it is, or whose target is below
it, and a folder that was made stands in the way of a file.  So a batch gets through exactly when no
target is at or below another one (`processAll_ok`, `processAll_of_separate`).  The targets of a
decryption are the files of a tree, which are apart.  Those of an encryption are not when a folder
is named as the container of a file next to it; that is the only case in which the round trip fails
(`folder_round_trip`, `shadowed_folder`).
-/

namespace OrIsyVra
namespace Batches

open ByteString FaultProgram FileSystem FolderTree TextLines Container

/-! ## Names -/

/-- A path relative to the folder: its names. -/
abbrev RelPath := List Text

abbrev Tree := Folder Text Bytes

inductive Operation where
  | encrypt
  | decrypt
  deriving DecidableEq

def containerSuffix : Text := ".orisyvra".toList
def keySuffix : Text := ".orisyvra-key".toList

def stripSuffix (name suffix : Text) : Option Text :=
  if suffix <:+ name then some (name.take (name.length - suffix.length)) else none

def autoFileName (path : RelPath) (operation : Operation) : Text :=
  let name := path.getLast?.getD "output".toList
  match operation with
  | .encrypt => name ++ containerSuffix
  | .decrypt =>
    let stripped := (stripSuffix name containerSuffix).getD name
    if stripped = [] then "decrypted".toList else stripped

/-- Whether the file name ends in the suffix, in letters of either case. -/
def endsWith (suffix : Text) (path : RelPath) : Bool :=
  path.getLast?.any fun name => decide (suffix <:+ name.map Char.toLower)

def isOrisyvraFile (path : RelPath) : Bool := endsWith containerSuffix path

def isLegacyKeyfile (path : RelPath) : Bool := endsWith keySuffix path

/-! ## Files -/

/-- A file that was found, with its contents. -/
abbrev Source := RelPath × Bytes

def collectRegularFiles (root : Tree) : List Source := root.files

/-- The order of paths: name by name, and in a name character by character. -/
def pathOrder (p q : Source) : Bool :=
  !List.lex q.1 p.1 fun n m => List.lex n m fun a b => decide (a < b)

/-- What the run goes by to leave out keys: whether a file is a visual key, and the selected key, if
it is in the folder. -/
structure Keys where
  isVisualKey : Bytes → Bool
  selected : Option RelPath

/-- Whether a file is processed. -/
def selects (keys : Keys) (operation : Operation) (source : Source) : Bool :=
  match operation with
  | .encrypt => !(keys.selected == some source.1 || isOrisyvraFile source.1 ||
      isLegacyKeyfile source.1 || keys.isVisualKey source.2)
  | .decrypt => isOrisyvraFile source.1

inductive BatchError where
  /-- No processable files were found. -/
  | noFiles
  | io
  | file (error : Error)
  /-- The output already exists. -/
  | outputExists
  deriving DecidableEq

/-- Which calls of the system fail.  Whether the removal of the temporary does is not asked: the
source drops the result of `remove_dir_all`. -/
structure Failures where
  collect : Bool
  temporary : Bool
  directory : ℕ → Bool
  rename : Bool

def Failures.none : Failures := ⟨false, false, fun _ => false, false⟩

/-- Where the run works: the input, and the output and the temporary next to it. -/
structure Places where
  input : Tree
  output : Option Tree
  temporary : Option Tree

def Places.removeTemporary (places : Places) : Places := { places with temporary := .none }

/-! ## The batch -/

def destination (operation : Operation) (path : RelPath) : RelPath :=
  path.dropLast ++ [autoFileName path operation]

/-- `work` is what `encrypt_file` or `decrypt_file` makes of the contents of the file with the
number, and `display` shows a path below the temporary. -/
structure Batch where
  operation : Operation
  keys : Keys
  work : ℕ → Bytes → Except Error Bytes
  display : RelPath → String
  failures : Failures

def processFile (batch : Batch) (index : ℕ) (source : Source) (tree : Tree) :
    Except BatchError Tree :=
  let target := destination batch.operation source.1
  if batch.failures.directory index then .error .io
  else
    match tree.createDirAll target.dropLast with
    | none => .error .io
    | some tree =>
      if (tree.get target).isSome then .error (.file (.outputExists (batch.display target)))
      else
        match batch.work index source.2 with
        | .error e => .error (.file e)
        | .ok bytes =>
          match tree.createFile bytes target with
          | none => .error .io
          | some tree => .ok tree

def processAll (batch : Batch) : ℕ → List Source → Tree → Except BatchError Tree
  | _, [], tree => .ok tree
  | index, source :: sources, tree => do
    let tree ← processFile batch index source tree
    processAll batch (index + 1) sources tree

/-- The files of the input, in their order. -/
def sorted (input : Tree) : List Source := (collectRegularFiles input).mergeSort pathOrder

def selection (batch : Batch) (input : Tree) : List Source :=
  (sorted input).filter (selects batch.keys batch.operation)

def skipped (batch : Batch) (input : Tree) : List Source :=
  (sorted input).filter fun source => !selects batch.keys batch.operation source

/-- A batch that fails takes its temporary away, and `remove_dir_all` is taken to do its work. -/
def processDirectory (batch : Batch) (places : Places) : Except BatchError (ℕ × ℕ) × Places :=
  if batch.failures.collect then (.error .io, places)
  else if selection batch places.input = [] then (.error .noFiles, places)
  else if batch.failures.temporary then (.error .io, places)
  else
    match processAll batch 0 (selection batch places.input) (places.temporary.getD .nil) with
    | .error e => (.error e, places.removeTemporary)
    | .ok tree =>
      if places.output.isSome then (.error .outputExists, places.removeTemporary)
      else if batch.failures.rename then (.error .io, places.removeTemporary)
      else
        (.ok ((selection batch places.input).length, (skipped batch places.input).length),
          { places with output := some tree, temporary := .none })

/-! ## What a batch leaves when it fails -/

/-- **A batch that fails changes nothing.** -/
theorem processDirectory_error {batch : Batch} {places places' : Places} {e : BatchError}
    (hfresh : places.temporary = .none) (h : processDirectory batch places = (.error e, places')) :
    places' = places := by
  have hremoved : places.removeTemporary = places := by
    rw [Places.removeTemporary, ← hfresh]
  unfold processDirectory at h
  split at h
  · exact (Prod.mk.inj h).2.symm
  split at h
  · exact (Prod.mk.inj h).2.symm
  split at h
  · exact (Prod.mk.inj h).2.symm
  split at h
  · exact (Prod.mk.inj h).2.symm.trans hremoved
  split at h
  · exact (Prod.mk.inj h).2.symm.trans hremoved
  split at h
  · exact (Prod.mk.inj h).2.symm.trans hremoved
  · exact absurd (Prod.mk.inj h).1 (by simp)

/-! ## What is in the temporary -/

/-- Neither path is at or below the other. -/
def Separate (p q : RelPath) : Prop := ¬p <+: q ∧ ¬q <+: p

theorem Separate.symm {p q : RelPath} (h : Separate p q) : Separate q p := ⟨h.2, h.1⟩

/-- The tree has the files that are done, the folders on the way to them, and nothing else. -/
structure Built (tree : Tree) (done : List Source) : Prop where
  distinct : tree.Distinct
  file : ∀ q b, tree.get q = some (.file b) ↔ (q, b) ∈ done
  dir : ∀ q, tree.get q = some .dir ↔ q = [] ∨ ∃ d ∈ done, q <+: d.1 ∧ q ≠ d.1
  other : ∀ q, tree.get q ≠ some .other

theorem built_nil : Built .nil [] := by
  refine ⟨trivial, fun q b => ?_, fun q => ?_, fun q => ?_⟩
  all_goals
    rcases q with _ | ⟨n, q⟩
    · simp
    · simp [Folder.get]

theorem destination_ne_nil (operation : Operation) (path : RelPath) :
    destination operation path ≠ [] :=
  List.concat_ne_nil _ _

theorem prefix_iff_dropLast {p t : RelPath} (ht : t ≠ []) : p <+: t ↔ p = t ∨ p <+: t.dropLast := by
  obtain ⟨start, last, rfl⟩ := (List.eq_nil_or_concat t).resolve_left ht
  rw [List.concat_eq_append, List.dropLast_concat, List.prefix_concat_iff]

theorem not_prefix_dropLast {t : RelPath} (ht : t ≠ []) : ¬t <+: t.dropLast := by
  intro h
  have hle := h.length_le
  have hpos := List.length_pos_iff.mpr ht
  rw [List.length_dropLast] at hle
  omega

section

variable {tree tree' : Tree} {done : List Source} {t : RelPath} {b : Bytes}

/-- Nothing is where a file is to be put that is apart from those that are done. -/
theorem Built.free (h : Built tree done) (ht : t ≠ []) (hapart : ∀ d ∈ done, Separate d.1 t) :
    tree.get t = none := by
  rcases hget : tree.get t with _ | ⟨b | _ | _⟩
  · rfl
  · exact absurd List.prefix_rfl (hapart _ ((h.file t b).mp hget)).1
  · exact absurd hget (h.other t)
  · rcases (h.dir t).mp hget with hnil | ⟨d, hd, hbelow, -⟩
    · exact absurd hnil ht
    · exact absurd hbelow (hapart d hd).2

/-- **A file more.** -/
theorem Built.add {tree₁ : Tree} (h : Built tree done) (ht : t ≠ [])
    (hapart : ∀ d ∈ done, Separate d.1 t) (hdirs : tree.createDirAll t.dropLast = some tree₁)
    (hfile : tree₁.createFile b t = some tree') : Built tree' (done ++ [(t, b)]) := by
  have hget : ∀ q, tree'.get q = if q = t then some (.file b) else
      if q <+: t.dropLast then some .dir else tree.get q := fun q => by
    rw [Folder.get_createFile hfile, Folder.get_createDirAll hdirs]
  have hnot : ∀ q c, (q, c) ∈ done → ¬q <+: t.dropLast := fun q c hmem hbelow =>
    (hapart _ hmem).1 ((prefix_iff_dropLast ht).mpr (Or.inr hbelow))
  refine ⟨Folder.distinct_createFile hfile (Folder.distinct_createDirAll hdirs h.distinct),
    fun q c => ?_, fun q => ?_, fun q => ?_⟩
  · rw [hget, List.mem_append, List.mem_singleton, Prod.mk.injEq]
    rcases eq_or_ne q t with rfl | hq
    · have hnew : (q, c) ∉ done := fun hmem => (hapart _ hmem).1 List.prefix_rfl
      rw [if_pos rfl]
      simp [hnew, eq_comm]
    · rw [if_neg hq]
      by_cases hbelow : q <+: t.dropLast
      · have hold : (q, c) ∉ done := fun hmem => hnot q c hmem hbelow
        rw [if_pos hbelow]
        simp [hq, hold]
      · rw [if_neg hbelow, h.file]
        simp [hq]
  · rw [hget]
    by_cases hq : q = t
    · rw [if_pos hq]
      refine ⟨fun hdir => absurd hdir (by simp), fun hdir => ?_⟩
      rcases hdir with hnil | ⟨d, hd, hbelow, hne⟩
      · exact absurd (hq.symm.trans hnil) ht
      rcases List.mem_append.mp hd with hold | hnew
      · exact absurd (hq ▸ hbelow) (hapart d hold).2
      · rw [List.mem_singleton.mp hnew] at hne
        exact absurd hq hne
    · rw [if_neg hq]
      by_cases hbelow : q <+: t.dropLast
      · rw [if_pos hbelow]
        refine ⟨fun _ =>
          Or.inr ⟨(t, b), List.mem_append_right _ (List.mem_singleton_self _), ?_, hq⟩,
          fun _ => rfl⟩
        exact (prefix_iff_dropLast ht).mpr (Or.inr hbelow)
      · rw [if_neg hbelow, h.dir]
        refine or_congr_right ⟨?_, ?_⟩
        · rintro ⟨d, hd, hd'⟩
          exact ⟨d, List.mem_append_left _ hd, hd'⟩
        · rintro ⟨d, hd, hbelow', hne⟩
          rcases List.mem_append.mp hd with hold | hnew
          · exact ⟨d, hold, hbelow', hne⟩
          · rw [List.mem_singleton.mp hnew] at hbelow' hne
            exact absurd (((prefix_iff_dropLast ht).mp hbelow').resolve_left hne) hbelow
  · rw [hget]
    split
    · simp
    · split
      · simp
      · exact h.other q

/-- The folders on the way can be made when no file is there. -/
theorem Built.createDirAll_iff (h : Built tree done) :
    (tree.createDirAll t.dropLast).isSome = true ↔ ∀ d ∈ done, ¬d.1 <+: t.dropLast := by
  rw [Folder.createDirAll_isSome_iff]
  constructor
  · intro hfree d hd hbelow
    rcases hfree d.1 hbelow with hnone | hdir
    · exact absurd (((h.file d.1 d.2).mpr hd).symm.trans hnone) (by simp)
    · exact absurd (((h.file d.1 d.2).mpr hd).symm.trans hdir) (by simp)
  · intro hfree q hbelow
    rcases hget : tree.get q with _ | ⟨b | _ | _⟩
    · exact Or.inl rfl
    · exact absurd hbelow (hfree _ ((h.file q b).mp hget))
    · exact absurd hget (h.other q)
    · exact Or.inr rfl

/-! ## One file, and all of them -/

variable {batch : Batch} {index : ℕ} {source : Source} {sources : List Source}

/-- What a source becomes. -/
def Made (batch : Batch) (source result : Source) : Prop :=
  result.1 = destination batch.operation source.1 ∧ ∃ i, batch.work i source.2 = .ok result.2

/-- A file that gets through has its place to itself. -/
theorem processFile_ok (h : Built tree done)
    (hrun : processFile batch index source tree = .ok tree') :
    (∀ d ∈ done, Separate d.1 (destination batch.operation source.1)) ∧
      ∃ result, Made batch source result ∧ Built tree' (done ++ [result]) := by
  unfold processFile at hrun
  generalize htarget : destination batch.operation source.1 = t at hrun
  have ht : t ≠ [] := htarget ▸ destination_ne_nil _ _
  dsimp only at hrun
  split at hrun
  · exact absurd hrun (by simp)
  split at hrun
  · exact absurd hrun (by simp)
  next tree₁ hdirs =>
  split at hrun
  · exact absurd hrun (by simp)
  next hfree =>
  split at hrun
  · exact absurd hrun (by simp)
  next bytes hwork =>
  split at hrun
  · exact absurd hrun (by simp)
  next tree₂ hfile =>
  obtain rfl := Except.ok.inj hrun
  have hnone : tree.get t = none := by
    have hget := Folder.get_createDirAll hdirs t
    rw [if_neg (not_prefix_dropLast ht)] at hget
    rw [← hget]
    simpa using hfree
  have hdirs' := h.createDirAll_iff.mp (Option.isSome_iff_exists.mpr ⟨tree₁, hdirs⟩)
  have hapart : ∀ d ∈ done, Separate d.1 t := by
    intro d hd
    constructor
    · intro hbelow
      rcases (prefix_iff_dropLast ht).mp hbelow with rfl | habove
      · exact absurd (((h.file d.1 d.2).mpr hd).symm.trans hnone) (by simp)
      · exact hdirs' d hd habove
    · intro hbelow
      by_cases hsame : t = d.1
      · rw [hsame] at hnone
        exact absurd (((h.file d.1 d.2).mpr hd).symm.trans hnone) (by simp)
      · exact absurd (((h.dir t).mpr (Or.inr ⟨d, hd, hbelow, hsame⟩)).symm.trans hnone) (by simp)
  exact ⟨hapart, (t, bytes), ⟨htarget.symm, index, hwork⟩, h.add ht hapart hdirs hfile⟩

/-- A file whose place is free gets through. -/
theorem processFile_of_separate (h : Built tree done)
    (hapart : ∀ d ∈ done, Separate d.1 (destination batch.operation source.1))
    (hworks : ∃ bytes, batch.work index source.2 = .ok bytes)
    (hfails : batch.failures.directory index = false) :
    ∃ tree', processFile batch index source tree = .ok tree' := by
  have ht := destination_ne_nil batch.operation source.1
  unfold processFile
  generalize destination batch.operation source.1 = t at *
  obtain ⟨bytes, hwork⟩ := hworks
  obtain ⟨tree₁, hdirs⟩ := Option.isSome_iff_exists.mp (h.createDirAll_iff.mpr fun d hd hbelow =>
    (hapart d hd).1 ((prefix_iff_dropLast ht).mpr (Or.inr hbelow)))
  have hfree : tree₁.get t = none := by
    rw [Folder.get_createDirAll hdirs, if_neg (not_prefix_dropLast ht)]
    exact h.free ht hapart
  have hfolder : tree₁.get t.dropLast = some .dir := by
    rw [Folder.get_createDirAll hdirs, if_pos List.prefix_rfl]
  obtain ⟨tree₂, hfile⟩ :=
    Option.isSome_iff_exists.mp (Folder.createFile_isSome_iff (b := bytes).mpr
    ⟨hfree, hfolder⟩)
  refine ⟨tree₂, ?_⟩
  simp only [hfails, Bool.false_eq_true, if_false, hdirs, hfree, Option.isSome_none, hwork, hfile]

/-- **A batch that gets through** has the targets of its files apart, and has made every file. -/
theorem processAll_ok (h : Built tree done)
    (hrun : processAll batch index sources tree = .ok tree') :
    (∀ s ∈ sources, ∀ d ∈ done, Separate d.1 (destination batch.operation s.1)) ∧
      sources.Pairwise (fun s s' => Separate (destination batch.operation s.1)
        (destination batch.operation s'.1)) ∧
      ∃ results, List.Forall₂ (Made batch) sources results ∧ Built tree' (done ++ results) := by
  induction sources generalizing index tree done with
  | nil =>
    obtain rfl := Except.ok.inj hrun
    exact ⟨fun _ hs => absurd hs List.not_mem_nil, .nil, [], .nil, by rwa [List.append_nil]⟩
  | cons source sources ih =>
    obtain ⟨tree₁, hfirst, hrest⟩ := except_bind_eq_ok.mp hrun
    obtain ⟨hapart, result, hmade, hbuilt⟩ := processFile_ok h hfirst
    obtain ⟨hothers, hpairwise, results, hall, hbuilt'⟩ := ih hbuilt hrest
    refine ⟨fun s hs d hd => ?_, List.pairwise_cons.mpr ⟨fun s hs => ?_, hpairwise⟩,
      result :: results, .cons hmade hall, ?_⟩
    · rcases List.mem_cons.mp hs with rfl | hs
      · exact hapart d hd
      · exact hothers s hs d (List.mem_append_left _ hd)
    · rw [← hmade.1]
      exact hothers s hs result (List.mem_append_right _ (List.mem_singleton_self _))
    · rw [List.append_assoc] at hbuilt'
      exact hbuilt'

/-- **Targets that are apart get through**, when nothing fails. -/
theorem processAll_of_separate (h : Built tree done)
    (hothers : ∀ s ∈ sources, ∀ d ∈ done, Separate d.1 (destination batch.operation s.1))
    (hpairwise : sources.Pairwise fun s s' => Separate (destination batch.operation s.1)
      (destination batch.operation s'.1))
    (hworks : ∀ i, ∀ s ∈ sources, ∃ bytes, batch.work i s.2 = .ok bytes)
    (hfails : ∀ i, batch.failures.directory i = false) :
    ∃ tree', processAll batch index sources tree = .ok tree' := by
  induction sources generalizing index tree done with
  | nil => exact ⟨tree, rfl⟩
  | cons source sources ih =>
    obtain ⟨tree₁, hfirst⟩ := processFile_of_separate h (hothers source List.mem_cons_self)
      (hworks index source List.mem_cons_self) (hfails index)
    obtain ⟨-, result, hmade, hbuilt⟩ := processFile_ok h hfirst
    obtain ⟨hhead, htail⟩ := List.pairwise_cons.mp hpairwise
    have hnext : ∀ s ∈ sources, ∀ d ∈ done ++ [result],
        Separate d.1 (destination batch.operation s.1) := by
      intro s hs d hd
      rcases List.mem_append.mp hd with hold | hnew
      · exact hothers s (List.mem_cons_of_mem _ hs) d hold
      · rw [List.mem_singleton.mp hnew, hmade.1]
        exact hhead s hs
    obtain ⟨tree₂, hrest⟩ : ∃ tree₂, processAll batch (index + 1) sources tree₁ = .ok tree₂ :=
      ih hbuilt hnext htail fun i s hs => hworks i s (List.mem_cons_of_mem _ hs)
    exact ⟨tree₂, except_bind_eq_ok.mpr ⟨tree₁, hfirst, hrest⟩⟩

end

/-! ## A whole batch -/

section

variable {batch : Batch} {input : Tree} {source : Source}

theorem mem_selection : source ∈ selection batch input ↔
    source ∈ input.files ∧ selects batch.keys batch.operation source = true := by
  rw [selection, List.mem_filter, sorted, List.mem_mergeSort, collectRegularFiles]

theorem nodup_selection (hdistinct : input.Distinct) : (selection batch input).Nodup := by
  refine List.Nodup.filter _ ?_
  exact (List.mergeSort_perm _ _).nodup_iff.mpr (Folder.nodup_files hdistinct)

/-- A batch that leaves nothing out. -/
theorem selection_eq (h : ∀ s ∈ input.files, selects batch.keys batch.operation s = true) :
    selection batch input = sorted input ∧ skipped batch input = [] := by
  have hall : ∀ s ∈ sorted input, selects batch.keys batch.operation s = true := fun s hs =>
    h s (List.mem_mergeSort.mp hs)
  exact ⟨List.filter_eq_self.mpr hall, List.filter_eq_nil_iff.mpr fun s hs => by simp [hall s hs]⟩

theorem length_sorted (tree : Tree) : (sorted tree).length = tree.files.length :=
  (List.mergeSort_perm _ _).length_eq

/-- The targets of a batch, each apart from the others. -/
def TargetsApart (batch : Batch) (input : Tree) : Prop :=
  (selection batch input).Pairwise fun s s' =>
    Separate (destination batch.operation s.1) (destination batch.operation s'.1)

/-- **A batch that returns** has its targets apart, and puts what it has made at the output. -/
theorem processDirectory_ok {counts : ℕ × ℕ} {places : Places}
    (h : processDirectory batch ⟨input, .none, .none⟩ = (.ok counts, places)) :
    counts = ((selection batch input).length, (skipped batch input).length) ∧
      TargetsApart batch input ∧ ∃ tree results, places = ⟨input, some tree, .none⟩ ∧
        List.Forall₂ (Made batch) (selection batch input) results ∧ Built tree results := by
  unfold processDirectory at h
  split at h
  · exact absurd (Prod.mk.inj h).1 (by simp)
  split at h
  · exact absurd (Prod.mk.inj h).1 (by simp)
  split at h
  · exact absurd (Prod.mk.inj h).1 (by simp)
  split at h
  · exact absurd (Prod.mk.inj h).1 (by simp)
  next tree hrun =>
  split at h
  · exact absurd (Prod.mk.inj h).1 (by simp)
  split at h
  · exact absurd (Prod.mk.inj h).1 (by simp)
  obtain ⟨hcounts, rfl⟩ := Prod.mk.inj h
  obtain ⟨-, hapart, results, hall, hbuilt⟩ := processAll_ok built_nil hrun
  exact ⟨(Except.ok.inj hcounts).symm, hapart, tree, results, rfl, hall, hbuilt⟩

/-- **A batch with its targets apart returns**, when nothing fails. -/
theorem processDirectory_of_apart (hfails : batch.failures = .none)
    (hsome : selection batch input ≠ []) (hapart : TargetsApart batch input)
    (hworks : ∀ i, ∀ s ∈ selection batch input, ∃ bytes, batch.work i s.2 = .ok bytes) :
    ∃ counts places, processDirectory batch ⟨input, .none, .none⟩ = (.ok counts, places) := by
  obtain ⟨tree, hrun⟩ : ∃ tree, processAll batch 0 (selection batch input) .nil = .ok tree :=
    processAll_of_separate built_nil (fun _ _ _ hd => absurd hd List.not_mem_nil) hapart hworks
      fun i => by rw [hfails]; rfl
  refine ⟨((selection batch input).length, (skipped batch input).length),
    ⟨input, some tree, .none⟩, ?_⟩
  unfold processDirectory
  rw [hfails]
  simp only [Failures.none, Bool.false_eq_true, if_false, hsome, Option.getD_none, hrun,
    Option.isSome_none]

/-- What a batch was given, of what it has made. -/
theorem source_of_result {sources results : List Source}
    (hall : List.Forall₂ (Made batch) sources results) {result : Source}
    (hresult : result ∈ results) : ∃ s ∈ sources, Made batch s result := by
  induction hall with
  | nil => exact absurd hresult List.not_mem_nil
  | cons hmade _ ih =>
    rcases List.mem_cons.mp hresult with rfl | hrest
    · exact ⟨_, List.mem_cons_self, hmade⟩
    · obtain ⟨s, hs, hmade'⟩ := ih hrest
      exact ⟨s, List.mem_cons_of_mem _ hs, hmade'⟩

/-- The targets are those of the sources. -/
theorem map_fst_of_made {sources results : List Source}
    (hall : List.Forall₂ (Made batch) sources results) :
    results.map Prod.fst = sources.map fun s => destination batch.operation s.1 := by
  induction hall with
  | nil => rfl
  | cons hmade _ ih => rw [List.map_cons, List.map_cons, ih, hmade.1]

/-- What is made stands at different places. -/
theorem nodup_results (hapart : TargetsApart batch input) {results : List Source}
    (hall : List.Forall₂ (Made batch) (selection batch input) results) : results.Nodup := by
  refine List.Nodup.of_map Prod.fst ?_
  rw [map_fst_of_made hall]
  refine List.pairwise_map.mpr (List.Pairwise.imp (fun hseparate hsame => ?_) hapart)
  exact hseparate.1 (hsame ▸ List.prefix_rfl)

/-- What a batch has made, of what it was given. -/
theorem result_of_source {sources results : List Source}
    (hall : List.Forall₂ (Made batch) sources results) {s : Source} (hs : s ∈ sources) :
    ∃ result ∈ results, Made batch s result := by
  induction hall with
  | nil => exact absurd hs List.not_mem_nil
  | cons hmade _ ih =>
    rcases List.mem_cons.mp hs with rfl | hrest
    · exact ⟨_, List.mem_cons_self, hmade⟩
    · obtain ⟨result, hresult, hmade'⟩ := ih hrest
      exact ⟨result, List.mem_cons_of_mem _ hresult, hmade'⟩

end

/-! ## The names of a round trip -/

theorem destination_encrypt (start : RelPath) (name : Text) :
    destination .encrypt (start ++ [name]) = start ++ [name ++ containerSuffix] := by
  simp [destination, autoFileName]

theorem stripSuffix_append (name suffix : Text) :
    stripSuffix (name ++ suffix) suffix = some name := by
  rw [stripSuffix, if_pos (List.suffix_append _ _), List.length_append, Nat.add_sub_cancel,
    List.take_left]

/-- **Decryption gives the name back.** -/
theorem destination_decrypt (start : RelPath) {name : Text} (h : name ≠ []) :
    destination .decrypt (start ++ [name ++ containerSuffix]) = start ++ [name] := by
  simp [destination, autoFileName, stripSuffix_append, h]

theorem isOrisyvraFile_append (start : RelPath) (name : Text) :
    isOrisyvraFile (start ++ [name ++ containerSuffix]) = true := by
  have hlower : containerSuffix.map Char.toLower = containerSuffix := by decide
  simp [isOrisyvraFile, endsWith, hlower]

/-- A tree as the file system keeps it: no folder has a name twice, and no name is empty. -/
structure Proper (tree : Tree) : Prop where
  distinct : tree.Distinct
  names : ∀ source ∈ tree.files, [] ∉ source.1

section

variable {tree : Tree} {s s' : Source}

/-- The name of a file, and the folders on the way to it. -/
theorem Proper.name (h : Proper tree) (hs : s ∈ tree.files) :
    ∃ start name, s.1 = start ++ [name] ∧ name ≠ [] := by
  obtain ⟨start, name, hname⟩ :=
    (List.eq_nil_or_concat s.1).resolve_left (Folder.ne_nil_of_mem_files hs)
  rw [List.concat_eq_append] at hname
  refine ⟨start, name, hname, fun hnil => h.names s hs ?_⟩
  rw [hname, hnil]
  exact List.mem_append_right _ (List.mem_singleton_self _)

/-- A file comes back to its place. -/
theorem Proper.decrypt_encrypt (h : Proper tree) (hs : s ∈ tree.files) :
    destination .decrypt (destination .encrypt s.1) = s.1 := by
  obtain ⟨start, name, hname, hne⟩ := h.name hs
  rw [hname, destination_encrypt, destination_decrypt start hne]

theorem Proper.isOrisyvraFile (h : Proper tree) (hs : s ∈ tree.files) :
    isOrisyvraFile (destination .encrypt s.1) = true := by
  obtain ⟨start, name, hname, -⟩ := h.name hs
  rw [hname, destination_encrypt, isOrisyvraFile_append]

theorem Proper.dropLast_encrypt (h : Proper tree) (hs : s ∈ tree.files) :
    (destination .encrypt s.1).dropLast = s.1.dropLast := by
  obtain ⟨start, name, hname, -⟩ := h.name hs
  rw [hname, destination_encrypt, List.dropLast_concat, List.dropLast_concat]

/-- **The files of a tree are apart.** -/
theorem Proper.separate (h : Proper tree) (hs : s ∈ tree.files)
    (hs' : s' ∈ tree.files) (hne : s ≠ s') :
    Separate s.1 s'.1 := by
  have hget := (Folder.mem_files h.distinct (p := s.1) (b := s.2)).mp hs
  have hget' := (Folder.mem_files h.distinct (p := s'.1) (b := s'.2)).mp hs'
  have hpaths : s.1 ≠ s'.1 := by
    intro hpath
    rw [hpath, hget'] at hget
    exact hne (Prod.ext hpath (Node.file.inj (Option.some.inj hget)).symm)
  constructor
  · intro hbelow
    exact absurd (hget'.symm.trans (Folder.get_below_file hget hbelow hpaths)) (by simp)
  · intro hbelow
    exact absurd (hget.symm.trans (Folder.get_below_file hget' hbelow (Ne.symm hpaths))) (by simp)

/-- A folder with a file in it is named as the container of a file next to it. -/
def Shadowed (tree : Tree) : Prop :=
  ∃ s ∈ tree.files, ∃ s' ∈ tree.files, destination .encrypt s.1 <+: s'.1

end

/-! ## Containers in a batch -/

def defaultChunkSize : ℕ := 1024 * 1024

section

variable [Crypto]

omit [Crypto] in
/-- What a command makes of an input with these contents, when its output is free. -/
def onHost {α : Type} (run : FileProg α) (contents : Bytes) : Except Error Bytes :=
  match run (hostWith contents) with
  | (.ok _, t) => .ok ((t.files ["out"]).elim [] Contents.bytes)
  | (.error e, _) => .error e
  | (.crash, _) => .error (.io .device)

/-- `draws` are the salts and the file ids of the random generator. -/
def encryptContents (master : MasterKey) (mode : Mode) (draws : ℕ → FixedBytes 32 × FixedBytes 32)
    (index : ℕ) (contents : Bytes) : Except Error Bytes :=
  onHost (encryptFile "tmp" (draws index).1 (draws index).2 ["in"] ["out"] master
    ⟨mode, defaultChunkSize, false⟩) contents

def decryptContents (master : MasterKey) (contents : Bytes) : Except Error Bytes :=
  onHost (decryptFile "tmp" ["in"] ["out"] master false) contents

def encryption (master : MasterKey) (mode : Mode) (draws : ℕ → FixedBytes 32 × FixedBytes 32)
    (keys : Keys) (display : RelPath → String) : Batch :=
  ⟨.encrypt, keys, encryptContents master mode draws, display, .none⟩

def decryption (master : MasterKey) (keys : Keys) (display : RelPath → String) : Batch :=
  ⟨.decrypt, keys, fun _ => decryptContents master, display, .none⟩

variable {master : MasterKey} {mode : Mode} {draws : ℕ → FixedBytes 32 × FixedBytes 32}
  {keys : Keys} {display : RelPath → String} {tree tree' : Tree}

omit [Crypto] in
theorem validateChunkSize_default : validateChunkSize defaultChunkSize = .ok () := by decide

/-- What `encryptContents` is. -/
theorem encryptContents_cases [LawfulCrypto]
    (hhkdf : ∀ salt ikm info : Bytes, (Crypto.hkdfSha384 salt ikm info).isSome) (index : ℕ)
    (contents : Bytes) :
    (∃ c, encryptContents master mode draws index contents = .ok c ∧
      decryptContents master c = .ok contents) ∨
    maxRecords * defaultChunkSize < contents.length ∧
      ∃ message, encryptContents master mode draws index contents =
        .error (.limitExceeded message) := by
  obtain ⟨header, hheader, -, hchunk, -, -⟩ :=
    Header.new_eq_ok mode (draws index).1 (draws index).2 validateChunkSize_default
  have hsize : 0 < defaultChunkSize := by decide
  have hcount : (Blocks.pieces defaultChunkSize contents).length ≤ maxRecords ↔
      contents.length ≤ maxRecords * defaultChunkSize := Blocks.length_pieces_le_iff hsize
  have hspec := @encryptFile_ok _ _ _ hhkdf master "tmp" (draws index).1 (draws index).2 ["in"]
    ["out"] ⟨mode, defaultChunkSize, false⟩ header contents (ready_hostWith contents) hheader
    validateChunkSize_default hchunk
  unfold encryptContents onHost
  rcases hrun : encryptFile "tmp" (draws index).1 (draws index).2 ["in"] ["out"] master
    ⟨mode, defaultChunkSize, false⟩ (hostWith contents) with ⟨_ | e | _, t⟩
  · obtain ⟨hfit, file, hbuilt, hfiles⟩ := hspec.ok hrun
    refine Or.inl ⟨file, ?_, ?_⟩
    · simp only [hfiles, put_self, Option.elim_some]
    · have hsizes : ∀ p ∈ Blocks.pieces defaultChunkSize contents, p.length ≤
        header.chunkSize.toNat :=
        fun p hp => hchunk.symm ▸ Blocks.length_le_of_mem_pieces hp
      obtain ⟨t', hdecrypt, hplaced⟩ := decryptFile_accepted (ready_hostWith file)
        (acceptedFile_of_build hbuilt hsizes hfit)
      unfold decryptContents onHost
      rw [hdecrypt]
      simp only [hplaced, put_self, Option.elim_some, Blocks.flatten_pieces hsize]
  · obtain ⟨hover, ⟨message, rfl⟩, -⟩ := hspec.error hrun
    exact Or.inr ⟨Nat.lt_of_not_le fun hle =>
      absurd (hcount.mpr hle) (Nat.not_le_of_lt hover), message, rfl⟩
  · exact (hspec.crash hrun).elim

theorem decryptContents_of_encrypt [LawfulCrypto]
    (hhkdf : ∀ salt ikm info : Bytes, (Crypto.hkdfSha384 salt ikm info).isSome) {index : ℕ}
    {contents c : Bytes} (h : encryptContents master mode draws index contents = .ok c) :
    decryptContents master c = .ok contents := by
  rcases encryptContents_cases hhkdf index contents with ⟨c', hencrypt, hdecrypt⟩ |
    ⟨-, message, hrefused⟩
  · rwa [Except.ok.inj (h.symm.trans hencrypt)]
  · exact absurd (h.symm.trans hrefused) (by simp)

/-! ## The round trip -/

/-- Everything there is to a round trip of a tree. -/
def RoundTrips (master : MasterKey) (mode : Mode) (draws : ℕ → FixedBytes 32 × FixedBytes 32)
    (keys : Keys) (display : RelPath → String) (tree : Tree) : Prop :=
  ∃ tree' tree'' : Tree,
    processDirectory (encryption master mode draws keys display) ⟨tree, .none, .none⟩ =
      (.ok (tree.files.length, 0), ⟨tree, some tree', .none⟩) ∧
    processDirectory (decryption master keys display) ⟨tree', .none, .none⟩ =
      (.ok (tree.files.length, 0), ⟨tree', some tree'', .none⟩) ∧
    (∀ p b, tree''.get p = some (.file b) ↔ tree.get p = some (.file b)) ∧
    TargetsApart (encryption master mode draws keys display) tree ∧
    TargetsApart (decryption master keys display) tree'

/-- **The targets of an encryption are apart** when no folder is named as a container next to it. -/
theorem targetsApart_encrypt_iff (hproper : Proper tree)
    (hselects : ∀ s ∈ tree.files, selects keys .encrypt s = true) :
    TargetsApart (encryption master mode draws keys display) tree ↔ ¬Shadowed tree := by
  have hmem : ∀ s, s ∈ selection (encryption master mode draws keys display) tree ↔
    s ∈ tree.files :=
    fun s => mem_selection.trans ⟨And.left, fun hs => ⟨hs, hselects s hs⟩⟩
  have hplain : ∀ s ∈ tree.files, ∀ s' ∈ tree.files, destination .encrypt s.1 ≠ s'.1 := by
    intro s hs s' hs' hsame
    have hcontainer := hproper.isOrisyvraFile hs
    have hchosen := hselects s' hs'
    rw [hsame] at hcontainer
    simp [selects, hcontainer] at hchosen
  constructor
  · rintro hapart ⟨s, hs, s', hs', hbelow⟩
    have hdiffer : s ≠ s' := by
      rintro rfl
      have hshorter := (prefix_iff_dropLast (Folder.ne_nil_of_mem_files hs)).mp hbelow
      rcases hshorter with hsame | habove
      · exact hplain s hs s hs hsame
      · have hlength := habove.length_le
        rw [← hproper.dropLast_encrypt hs] at hlength
        rw [List.length_dropLast] at hlength
        have hpos := List.length_pos_iff.mpr (destination_ne_nil .encrypt s.1)
        omega
    have hsymm : Std.Symm fun s s' : Source =>
        Separate (destination .encrypt s.1) (destination .encrypt s'.1) := ⟨fun _ _ h => h.symm⟩
    have hpairwise : (selection (encryption master mode draws keys display) tree).Pairwise
      fun s s' =>
        Separate (destination .encrypt s.1) (destination .encrypt s'.1) := hapart
    have hseparate : Separate (destination .encrypt s.1) (destination .encrypt s'.1) :=
      hpairwise.forall ((hmem s).mpr hs) ((hmem s').mpr hs') hdiffer
    refine hseparate.1 ?_
    rcases (prefix_iff_dropLast (Folder.ne_nil_of_mem_files hs')).mp hbelow with hsame | habove
    · exact absurd hsame (hplain s hs s' hs')
    · rw [← hproper.dropLast_encrypt hs'] at habove
      exact (prefix_iff_dropLast (destination_ne_nil _ _)).mpr (Or.inr habove)
  · intro hclear
    refine (nodup_selection hproper.distinct).pairwise_of_forall_ne fun s hs s' hs' hdiffer => ?_
    rw [hmem] at hs hs'
    -- a target at or below another one lies below the folder of its name
    have hone : ∀ s ∈ tree.files, ∀ s' ∈ tree.files, s ≠ s' →
        ¬destination .encrypt s.1 <+: destination .encrypt s'.1 := by
      intro s hs s' hs' hne hbelow
      rcases (prefix_iff_dropLast (destination_ne_nil _ _)).mp hbelow with hsame | habove
      · have hpath : s.1 = s'.1 := by
          rw [← hproper.decrypt_encrypt hs, hsame, hproper.decrypt_encrypt hs']
        exact (hproper.separate hs hs' hne).1 (hpath ▸ List.prefix_rfl)
      · rw [hproper.dropLast_encrypt hs'] at habove
        exact hclear ⟨s, hs, s', hs', habove.trans (List.dropLast_prefix _)⟩
    exact ⟨hone s hs s' hs' hdiffer, hone s' hs' s hs (Ne.symm hdiffer)⟩

/-- **The round trip goes through** when no folder is named as a container next to it, and the
encryption fails when one is. -/
theorem roundTrips_iff [LawfulCrypto]
    (hhkdf : ∀ salt ikm info : Bytes, (Crypto.hkdfSha384 salt ikm info).isSome)
    (hproper : Proper tree) (hsome : tree.files ≠ [])
    (hselects : ∀ s ∈ tree.files, selects keys .encrypt s = true)
    (hworks : ∀ i, ∀ s ∈ tree.files, ∃ c, encryptContents master mode draws i s.2 = .ok c) :
    RoundTrips master mode draws keys display tree ↔ ¬Shadowed tree := by
  have hiff : TargetsApart (encryption master mode draws keys display) tree ↔ ¬Shadowed tree :=
    targetsApart_encrypt_iff hproper hselects
  refine ⟨fun ⟨_, _, _, _, _, hapart, _⟩ => hiff.mp hapart, fun hclear => ?_⟩
  have hapart := hiff.mpr hclear
  obtain ⟨hall, hnone⟩ : selection (encryption master mode draws keys display) tree = sorted tree ∧
    skipped (encryption master mode draws keys display) tree = [] := selection_eq hselects
  have hmem : ∀ s, s ∈ selection (encryption master mode draws keys display) tree ↔
    s ∈ tree.files :=
    fun s => mem_selection.trans ⟨And.left, fun hs => ⟨hs, hselects s hs⟩⟩
  have hselected : selection (encryption master mode draws keys display) tree ≠ [] := by
    obtain ⟨s, hs⟩ := List.exists_mem_of_ne_nil _ hsome
    exact List.ne_nil_of_mem ((hmem s).mpr hs)
  -- the encryption
  obtain ⟨counts, places, hencrypt⟩ := processDirectory_of_apart rfl hselected hapart
    fun i s hs => hworks i s ((hmem s).mp hs)
  obtain ⟨rfl, -, tree', results, rfl, hmade, hbuilt⟩ := processDirectory_ok hencrypt
  have hfiles : ∀ s, s ∈ tree'.files ↔ s ∈ results := fun s =>
    (Folder.mem_files hbuilt.distinct).trans (hbuilt.file s.1 s.2)
  have horigin : ∀ s ∈ tree'.files, ∃ o ∈ tree.files,
      Made (encryption master mode draws keys display) o s := fun s hs => by
    obtain ⟨o, ho, hmade'⟩ := source_of_result hmade ((hfiles s).mp hs)
    exact ⟨o, (hmem o).mp ho, hmade'⟩
  have hlength : tree'.files.length = tree.files.length := by
    have hperm : tree'.files.Perm results := (List.perm_ext_iff_of_nodup
      (Folder.nodup_files hbuilt.distinct) (nodup_results hapart hmade)).mpr hfiles
    rw [hperm.length_eq, ← hmade.length_eq, hall, length_sorted]
  -- the decryption
  have hselects' : ∀ s ∈ tree'.files, selects keys .decrypt s = true := fun s hs => by
    obtain ⟨o, ho, hpath, -⟩ := horigin s hs
    show isOrisyvraFile s.1 = true
    rw [hpath]
    exact hproper.isOrisyvraFile ho
  obtain ⟨hall', hnone'⟩ : selection (decryption master keys display) tree' = sorted tree' ∧
    skipped (decryption master keys display) tree' = [] := selection_eq hselects'
  have hmem' : ∀ s, s ∈ selection (decryption master keys display) tree' ↔ s ∈ tree'.files :=
    fun s => mem_selection.trans ⟨And.left, fun hs => ⟨hs, hselects' s hs⟩⟩
  have hback : ∀ o ∈ tree.files, ∀ s, Made (encryption master mode draws keys display) o s →
      destination .decrypt s.1 = o.1 ∧ decryptContents master s.2 = .ok o.2 := by
    rintro o ho s ⟨hpath, i, hwork⟩
    refine ⟨?_, decryptContents_of_encrypt hhkdf hwork⟩
    rw [hpath]
    exact hproper.decrypt_encrypt ho
  have hapart' : TargetsApart (decryption master keys display) tree' := by
    refine (nodup_selection hbuilt.distinct).pairwise_of_forall_ne fun s hs s' hs' hdiffer => ?_
    obtain ⟨o, ho, hmade₁⟩ := horigin s ((hmem' s).mp hs)
    obtain ⟨o', ho', hmade₂⟩ := horigin s' ((hmem' s').mp hs')
    have horigins : o ≠ o' := by
      rintro rfl
      have hpath : s.1 = s'.1 := hmade₁.1.trans hmade₂.1.symm
      have hget := (Folder.mem_files hbuilt.distinct).mp ((hmem' s).mp hs)
      have hget' := (Folder.mem_files hbuilt.distinct).mp ((hmem' s').mp hs')
      rw [hpath, hget'] at hget
      exact hdiffer (Prod.ext hpath (Node.file.inj (Option.some.inj hget)).symm)
    show Separate (destination .decrypt s.1) (destination .decrypt s'.1)
    rw [(hback o ho s hmade₁).1, (hback o' ho' s' hmade₂).1]
    exact hproper.separate ho ho' horigins
  have hselected' : selection (decryption master keys display) tree' ≠ [] := by
    rw [hall', ← List.length_pos_iff, length_sorted, hlength]
    exact List.length_pos_iff.mpr hsome
  obtain ⟨counts, places, hdecrypt⟩ :=
    processDirectory_of_apart rfl hselected' hapart' fun i s hs => by
      obtain ⟨o, ho, hmade'⟩ := horigin s ((hmem' s).mp hs)
      exact ⟨o.2, (hback o ho s hmade').2⟩
  obtain ⟨rfl, -, tree'', results', rfl, hmade', hbuilt'⟩ := processDirectory_ok hdecrypt
  have hend : ∀ o s r, o ∈ tree.files → Made (encryption master mode draws keys display) o s →
      Made (decryption master keys display) s r → r = o := by
    rintro o s r ho hmade₁ ⟨hpath, i, hwork⟩
    obtain ⟨hplace, hopen⟩ := hback o ho s hmade₁
    exact Prod.ext (hpath.trans hplace) (Except.ok.inj (hwork.symm.trans hopen))
  refine ⟨tree', tree'', ?_, ?_, fun p b => ?_, hapart, hapart'⟩
  · rw [hencrypt, hall, length_sorted, hnone, List.length_nil]
  · rw [hdecrypt, hall', length_sorted, hlength, hnone', List.length_nil]
  · rw [hbuilt'.file, ← Folder.mem_files hproper.distinct]
    constructor
    · intro hresult
      obtain ⟨s, hs, hmade₂⟩ := source_of_result hmade' hresult
      obtain ⟨o, ho, hmade₁⟩ := horigin s ((hmem' s).mp hs)
      rw [hend o s _ ho hmade₁ hmade₂]
      exact ho
    · intro ho
      obtain ⟨s, hs, hmade₁⟩ := result_of_source hmade ((hmem _).mpr ho)
      obtain ⟨r, hr, hmade₂⟩ := result_of_source hmade' ((hmem' s).mpr ((hfiles s).mpr hs))
      rw [← hend _ s r ho hmade₁ hmade₂]
      exact hr

/-- **Folder encryption and back.**  A tree comes back, with the targets of both batches apart,
exactly when no folder with a file in it is named as the container of a file next to it; the
encryption of a tree that has such a folder fails.  Whenever a batch fails, nothing is at the output
and the temporary is gone. -/
theorem folder_round_trip [LawfulCrypto]
    (hhkdf : ∀ salt ikm info : Bytes, (Crypto.hkdfSha384 salt ikm info).isSome)
    (hproper : Proper tree) (hsome : tree.files ≠ [])
    (hselects : ∀ s ∈ tree.files, selects keys .encrypt s = true)
    (hworks : ∀ i, ∀ s ∈ tree.files, ∃ c, encryptContents master mode draws i s.2 = .ok c) :
    (RoundTrips master mode draws keys display tree ↔ ¬Shadowed tree) ∧
    (Shadowed tree →
      ∃ e, processDirectory (encryption master mode draws keys display) ⟨tree, .none, .none⟩ =
      (.error e, ⟨tree, .none, .none⟩)) ∧
    ∀ batch places places' e, places.temporary = .none →
      processDirectory batch places = (.error e, places') → places' = places := by
  refine ⟨roundTrips_iff hhkdf hproper hsome hselects hworks, fun hshadowed => ?_,
    fun _ _ _ _ => processDirectory_error⟩
  rcases hrun :
    processDirectory (encryption master mode draws keys display) ⟨tree, .none, .none⟩ with
    ⟨e | counts, places⟩
  · exact ⟨e, by rw [processDirectory_error rfl hrun]⟩
  · have hapart := (processDirectory_ok hrun).2.1
    exact absurd hshadowed ((targetsApart_encrypt_iff hproper hselects).mp hapart)

/-- Short contents are encrypted. -/
theorem encryptContents_of_length_le [LawfulCrypto]
    (hhkdf : ∀ salt ikm info : Bytes, (Crypto.hkdfSha384 salt ikm info).isSome) {index : ℕ}
    {contents : Bytes} (h : contents.length ≤ maxRecords * defaultChunkSize) :
    ∃ c, encryptContents master mode draws index contents = .ok c := by
  rcases encryptContents_cases hhkdf index contents with ⟨c, hencrypt, -⟩ | ⟨hover, -⟩
  · exact ⟨c, hencrypt⟩
  · exact absurd hover (Nat.not_lt_of_le h)

end

/-! ## Two folders -/

/-- The run has no key among the files. -/
def noKeys : Keys := ⟨fun _ => false, .none⟩

/-- The file `x` in the folder `d`, and the file `y`. -/
def plainTree : Tree :=
  .folder "d".toList (.file "x".toList [1] .nil) (.file "y".toList [2, 3] .nil)

/-- The file `a`, and the file `b` in the folder `a.orisyvra`. -/
def shadowedTree : Tree :=
  .file "a".toList [1] (.folder "a.orisyvra".toList (.file "b".toList [2] .nil) .nil)

instance (tree : Tree) : Decidable (Shadowed tree) := by
  unfold Shadowed
  infer_instance

theorem proper_plainTree : Proper plainTree := by
  refine ⟨⟨?_, ⟨?_, trivial⟩, ?_, trivial⟩, by decide⟩ <;> decide

theorem proper_shadowedTree : Proper shadowedTree := by
  refine ⟨⟨?_, ?_, ⟨?_, trivial⟩, trivial⟩, by decide⟩ <;> decide

/-- The same salt and file id for every file. -/
def sameDraws : ℕ → FixedBytes 32 × FixedBytes 32 := fun _ => (.of 32 [], .of 32 [7])

/-- A file in a folder comes back, and one beside it. -/
theorem folder_round_trip_plain :
    let _ := tableCrypto []
    RoundTrips (.of 48 []) .guarded sameDraws noKeys (fun _ => "out") plainTree := by
  let _ := tableCrypto []
  have _ := tableCrypto_lawful []
  have hhkdf : ∀ salt ikm info : Bytes, (Crypto.hkdfSha384 salt ikm info).isSome := fun _ _ _ => rfl
  have hshort : ∀ s ∈ plainTree.files, s.2.length ≤ maxRecords * defaultChunkSize := by decide
  exact (folder_round_trip hhkdf proper_plainTree (by decide) (by decide) fun _ s hs =>
    encryptContents_of_length_le hhkdf (hshort s hs)).1.mpr (by decide)

/-- **A folder that does not come back**: its file `a` becomes `a.orisyvra`, where the folder of `b`
has to be. -/
theorem shadowed_folder :
    let _ := tableCrypto []
    Proper shadowedTree ∧ shadowedTree.files ≠ [] ∧
      (∀ s ∈ shadowedTree.files, selects noKeys .encrypt s = true) ∧
      (∀ i, ∀ s ∈ shadowedTree.files, ∃ c,
        encryptContents (.of 48 []) .guarded sameDraws i s.2 = .ok c ∧
          decryptContents (.of 48 []) c = .ok s.2) ∧
      ¬RoundTrips (.of 48 []) .guarded sameDraws noKeys (fun _ => "out") shadowedTree := by
  let _ := tableCrypto []
  have _ := tableCrypto_lawful []
  have hhkdf : ∀ salt ikm info : Bytes, (Crypto.hkdfSha384 salt ikm info).isSome := fun _ _ _ => rfl
  have hshort : ∀ s ∈ shadowedTree.files, s.2.length ≤ maxRecords * defaultChunkSize := by decide
  have hworks : ∀ i, ∀ s ∈ shadowedTree.files, ∃ c,
      encryptContents (.of 48 []) .guarded sameDraws i s.2 = .ok c := fun _ s hs =>
    encryptContents_of_length_le hhkdf (hshort s hs)
  have hselects : ∀ s ∈ shadowedTree.files, selects noKeys .encrypt s = true := by decide
  refine ⟨proper_shadowedTree, by decide, hselects, fun i s hs => ?_, fun hround => ?_⟩
  · obtain ⟨c, hencrypt⟩ := hworks i s hs
    exact ⟨c, hencrypt, decryptContents_of_encrypt hhkdf hencrypt⟩
  · exact (roundTrips_iff hhkdf proper_shadowedTree (by decide) hselects hworks).mp
      hround (by decide)

end Batches
end OrIsyVra
