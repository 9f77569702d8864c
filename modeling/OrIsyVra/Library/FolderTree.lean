import Mathlib.Data.List.Infix
import Mathlib.Data.List.Nodup
import Mathlib.Tactic.Common

/-!
# Trees of folders and files

A `Folder` is the list of its entries: files with their contents, other things that are neither a
file nor a folder, and folders in turn.  A path is the list of the names on the way to an entry, and
`get` says what is there.

`files` walks the tree and lists its files; in a tree whose folders have no name twice that is what
`get` finds (`mem_files`).  `createDirAll` makes the folders on a path, and `createFile` a file in a
folder that is there, both unless something is in the way; what they do to `get` says all about them
(`get_createDirAll`, `get_createFile`).
-/

namespace FolderTree

variable {ν β : Type}

/-- The entries of a folder, one after the other. -/
inductive Folder (ν β : Type) where
  | nil
  | file (name : ν) (contents : β) (rest : Folder ν β)
  | other (name : ν) (rest : Folder ν β)
  | folder (name : ν) (inner rest : Folder ν β)
  deriving DecidableEq

/-- What is at a path. -/
inductive Node (β : Type) where
  | file (contents : β)
  | other
  | dir
  deriving DecidableEq

namespace Folder

def names : Folder ν β → List ν
  | nil => []
  | file name _ rest => name :: rest.names
  | other name rest => name :: rest.names
  | folder name _ rest => name :: rest.names

/-- No folder has a name twice. -/
def Distinct : Folder ν β → Prop
  | nil => True
  | file name _ rest => name ∉ rest.names ∧ rest.Distinct
  | other name rest => name ∉ rest.names ∧ rest.Distinct
  | folder name inner rest => name ∉ rest.names ∧ inner.Distinct ∧ rest.Distinct

/-- All files below the folder, each with its path. -/
def files : Folder ν β → List (List ν × β)
  | nil => []
  | file name contents rest => ([name], contents) :: rest.files
  | other _ rest => rest.files
  | folder name inner rest => inner.files.map (fun f => (name :: f.1, f.2)) ++ rest.files

theorem mem_names_of_mem_files {f : Folder ν β} {p : List ν} {b : β} (h : (p, b) ∈ f.files) :
    ∃ n q, p = n :: q ∧ n ∈ f.names := by
  induction f with
  | nil => exact absurd h List.not_mem_nil
  | file name contents rest ih =>
    rcases List.mem_cons.mp h with hfile | hrest
    · exact ⟨name, [], (Prod.mk.inj hfile).1, List.mem_cons_self⟩
    · obtain ⟨n, q, hp, hn⟩ := ih hrest
      exact ⟨n, q, hp, List.mem_cons_of_mem _ hn⟩
  | other name rest ih =>
    obtain ⟨n, q, hp, hn⟩ := ih h
    exact ⟨n, q, hp, List.mem_cons_of_mem _ hn⟩
  | folder name inner rest _ ih =>
    rcases List.mem_append.mp h with hinner | hrest
    · obtain ⟨found, -, hfound⟩ := List.mem_map.mp hinner
      exact ⟨name, found.1, (Prod.mk.inj hfound).1.symm, List.mem_cons_self⟩
    · obtain ⟨n, q, hp, hn⟩ := ih hrest
      exact ⟨n, q, hp, List.mem_cons_of_mem _ hn⟩

theorem not_mem_files {f : Folder ν β} {n : ν} (h : n ∉ f.names) (p : List ν) (b : β) :
    (n :: p, b) ∉ f.files := by
  intro hmem
  obtain ⟨n', q, hp, hn⟩ := mem_names_of_mem_files hmem
  rw [← (List.cons.inj hp).1] at hn
  exact h hn

theorem ne_nil_of_mem_files {f : Folder ν β} {p : List ν} {b : β} (h : (p, b) ∈ f.files) :
    p ≠ [] := by
  obtain ⟨n, q, rfl, -⟩ := mem_names_of_mem_files h
  exact List.cons_ne_nil n q

section

variable [DecidableEq ν]

/-- What is at a path below the folder; the folder itself is at the empty path. -/
def get : Folder ν β → List ν → Option (Node β)
  | _, [] => some .dir
  | nil, _ :: _ => none
  | file name contents rest, n :: p =>
    if n = name then if p = [] then some (.file contents) else none else rest.get (n :: p)
  | other name rest, n :: p =>
    if n = name then if p = [] then some .other else none else rest.get (n :: p)
  | folder name inner rest, n :: p => if n = name then inner.get p else rest.get (n :: p)

/-- One folder in the other, with the names of the path. -/
def chain : List ν → Folder ν β
  | [] => nil
  | n :: p => folder n (chain p) nil

/-- Make the folders on the path that are not there. -/
def createDirAll : Folder ν β → List ν → Option (Folder ν β)
  | f, [] => some f
  | nil, n :: p => some (folder n (chain p) nil)
  | file name contents rest, n :: p =>
    if n = name then none else (rest.createDirAll (n :: p)).map (file name contents)
  | other name rest, n :: p =>
    if n = name then none else (rest.createDirAll (n :: p)).map (other name)
  | folder name inner rest, n :: p =>
    if n = name then (inner.createDirAll p).map fun inner => folder name inner rest
    else (rest.createDirAll (n :: p)).map (folder name inner)

/-- Make a file at a path where there is nothing, in a folder that is there. -/
def createFile (contents : β) : Folder ν β → List ν → Option (Folder ν β)
  | _, [] => none
  | nil, n :: p => if p = [] then some (file n contents nil) else none
  | file name old rest, n :: p =>
    if n = name then none else (rest.createFile contents (n :: p)).map (file name old)
  | other name rest, n :: p =>
    if n = name then none else (rest.createFile contents (n :: p)).map (other name)
  | folder name inner rest, n :: p =>
    if n = name then (inner.createFile contents p).map fun inner => folder name inner rest
    else (rest.createFile contents (n :: p)).map (folder name inner)

variable {f f' : Folder ν β} {p q : List ν} {n : ν}

/-! ## Looking -/

@[simp] theorem get_nil_path (f : Folder ν β) : f.get [] = some .dir := by
  cases f <;> rfl

/-- **The walk finds what is there.** -/
theorem mem_files (hdistinct : f.Distinct) {b : β} :
    (p, b) ∈ f.files ↔ f.get p = some (.file b) := by
  rcases p with _ | ⟨n, p⟩
  · rw [get_nil_path]
    exact ⟨fun h => absurd rfl (ne_nil_of_mem_files h), fun h => absurd h (by simp)⟩
  induction f generalizing n p with
  | nil => simp [files, get]
  | file name contents rest ih =>
    obtain ⟨hname, hrest⟩ := hdistinct
    simp only [files, List.mem_cons, get, Prod.mk.injEq, List.cons.injEq]
    by_cases hn : n = name
    · have hnot : (n :: p, b) ∉ rest.files := not_mem_files (hn ▸ hname) p b
      rw [if_pos hn]
      by_cases hp : p = []
      · simp [hn, hp, hn ▸ hp ▸ hnot, eq_comm]
      · simp [hn, hp, hn ▸ hnot]
    · rw [if_neg hn, ← ih hrest]
      simp [hn]
  | other name rest ih =>
    obtain ⟨hname, hrest⟩ := hdistinct
    simp only [files, get]
    by_cases hn : n = name
    · rw [if_pos hn]
      refine ⟨fun hmem => absurd hmem (not_mem_files (hn ▸ hname) p b), fun h => ?_⟩
      split at h <;> exact absurd h (by simp)
    · rw [if_neg hn, ← ih hrest]
  | folder name inner rest ihInner ih =>
    obtain ⟨hname, hinner, hrest⟩ := hdistinct
    simp only [files, get, List.mem_append, List.mem_map, Prod.mk.injEq, List.cons.injEq]
    by_cases hn : n = name
    · have hnot : (n :: p, b) ∉ rest.files := not_mem_files (hn ▸ hname) p b
      have hwalk : (p, b) ∈ inner.files ↔ inner.get p = some (.file b) := by
        rcases p with _ | ⟨m, p⟩
        · rw [get_nil_path]
          exact ⟨fun h => absurd rfl (ne_nil_of_mem_files h), fun h => absurd h (by simp)⟩
        · exact ihInner hinner m p
      rw [if_pos hn, ← hwalk]
      constructor
      · rintro (⟨⟨q, c⟩, hmem, ⟨-, rfl⟩, rfl⟩ | hmem)
        · exact hmem
        · exact absurd hmem hnot
      · exact fun hmem => Or.inl ⟨(p, b), hmem, ⟨hn.symm, rfl⟩, rfl⟩
    · rw [if_neg hn, ← ih hrest]
      constructor
      · rintro (⟨found, -, ⟨hsame, -⟩, -⟩ | hmem)
        · exact absurd hsame.symm hn
        · exact hmem
      · exact Or.inr

omit [DecidableEq ν] in
/-- The walk finds nothing twice. -/
theorem nodup_files (hdistinct : f.Distinct) : f.files.Nodup := by
  induction f with
  | nil => exact List.nodup_nil
  | file name contents rest ih =>
    exact List.nodup_cons.mpr ⟨not_mem_files hdistinct.1 [] contents, ih hdistinct.2⟩
  | other name rest ih => exact ih hdistinct.2
  | folder name inner rest ihInner ih =>
    obtain ⟨hname, hinner, hrest⟩ := hdistinct
    refine List.nodup_append.mpr ⟨(ihInner hinner).map ?_, ih hrest, ?_⟩
    · intro found other heq
      obtain ⟨hpath, hcontents⟩ := Prod.mk.inj heq
      exact Prod.ext (List.cons.inj hpath).2 hcontents
    · rintro found hfound other hother rfl
      obtain ⟨⟨p, b⟩, -, rfl⟩ := List.mem_map.mp hfound
      exact not_mem_files hname p b hother

/-- **Nothing is below a file.** -/
theorem get_below_file {b : β} (h : f.get p = some (.file b)) (hstarts : p <+: q) (hne : p ≠ q) :
    f.get q = none := by
  induction f generalizing p q with
  | nil =>
    cases p with
    | nil => exact absurd h (by simp)
    | cons n p => exact absurd h (by simp [get])
  | file name contents rest ih | other name rest ih =>
    cases p with
    | nil => exact absurd h (by simp)
    | cons n p =>
      obtain ⟨q', rfl⟩ : ∃ q', q = n :: q' := by
        obtain ⟨more, rfl⟩ := hstarts
        exact ⟨p ++ more, rfl⟩
      simp only [get] at h ⊢
      by_cases hn : n = name
      · rw [if_pos hn] at h ⊢
        split at h
        · next hnil =>
          rw [if_neg]
          rintro rfl
          exact hne (by rw [hnil])
        · exact absurd h (by simp)
      · rw [if_neg hn] at h ⊢
        exact ih h hstarts hne
  | folder name inner rest ihInner ih =>
    cases p with
    | nil => exact absurd h (by simp)
    | cons n p =>
      obtain ⟨q', rfl⟩ : ∃ q', q = n :: q' := by
        obtain ⟨more, rfl⟩ := hstarts
        exact ⟨p ++ more, rfl⟩
      simp only [get] at h ⊢
      by_cases hn : n = name
      · rw [if_pos hn] at h ⊢
        exact ihInner h ((List.prefix_cons_inj n).mp hstarts) fun heq => hne (by rw [heq])
      · rw [if_neg hn] at h ⊢
        exact ih h hstarts hne

/-! ## Making folders -/

@[simp] theorem createDirAll_nil_path (f : Folder ν β) : f.createDirAll [] = some f := by
  cases f <;> rfl

theorem get_chain (p q : List ν) :
    (chain p : Folder ν β).get q = if q <+: p then some .dir else none := by
  induction p generalizing q with
  | nil =>
    cases q with
    | nil => simp
    | cons n q => simp [chain, get]
  | cons m p ih =>
    cases q with
    | nil => simp
    | cons n q =>
      by_cases hn : n = m
      · simp [chain, get, ih, hn, List.cons_prefix_cons]
      · simp [chain, get, hn, List.cons_prefix_cons]

omit [DecidableEq ν] in
theorem distinct_chain (p : List ν) : (chain p : Folder ν β).Distinct := by
  induction p with
  | nil => trivial
  | cons n p ih => exact ⟨List.not_mem_nil, ih, trivial⟩

/-- What making folders does to the names. -/
theorem names_createDirAll (h : f.createDirAll (n :: p) = some f') {m : ν} :
    m ∈ f'.names ↔ m ∈ f.names ∨ m = n := by
  induction f generalizing f' with
  | nil =>
    obtain rfl := Option.some.inj h
    simp [names]
  | file name contents rest ih =>
    rw [createDirAll] at h
    split at h
    · exact absurd h (by simp)
    · obtain ⟨rest', hrest, rfl⟩ := Option.map_eq_some_iff.mp h
      simp only [names, List.mem_cons, ih hrest, or_assoc]
  | other name rest ih =>
    rw [createDirAll] at h
    split at h
    · exact absurd h (by simp)
    · obtain ⟨rest', hrest, rfl⟩ := Option.map_eq_some_iff.mp h
      simp only [names, List.mem_cons, ih hrest, or_assoc]
  | folder name inner rest _ ih =>
    rw [createDirAll] at h
    split at h
    · next hn =>
      obtain ⟨inner', -, rfl⟩ := Option.map_eq_some_iff.mp h
      simp only [names, List.mem_cons, hn]
      tauto
    · obtain ⟨rest', hrest, rfl⟩ := Option.map_eq_some_iff.mp h
      simp only [names, List.mem_cons, ih hrest, or_assoc]

/-- **What making folders does**, when nothing is in the way. -/
theorem get_createDirAll (h : f.createDirAll p = some f') (q : List ν) :
    f'.get q = if q <+: p then some .dir else f.get q := by
  rcases q with _ | ⟨m, q⟩
  · simp
  rcases p with _ | ⟨n, p⟩
  · obtain rfl := Option.some.inj ((createDirAll_nil_path f).symm.trans h)
    simp
  rw [if_congr List.cons_prefix_cons rfl rfl]
  induction f generalizing f' m n p q with
  | nil =>
    obtain rfl := Option.some.inj h
    by_cases hm : m = n
    · simp [get, get_chain, hm]
    · simp [get, hm]
  | file name contents rest ih | other name rest ih =>
    rw [createDirAll] at h
    split at h
    · exact absurd h (by simp)
    next hn =>
    obtain ⟨rest', hrest, rfl⟩ := Option.map_eq_some_iff.mp h
    by_cases hm : m = name
    · have hmn : ¬m = n := fun heq => hn (heq ▸ hm)
      simp [get, hm, hm ▸ hmn]
    · rw [get, if_neg hm, ih m q n p hrest, get, if_neg hm]
  | folder name inner rest ihInner ih =>
    rw [createDirAll] at h
    split at h
    · next hn =>
      obtain ⟨inner', hinner, rfl⟩ := Option.map_eq_some_iff.mp h
      have hget : inner'.get q = if q <+: p then some .dir else inner.get q := by
        rcases q with _ | ⟨m', q⟩
        · simp
        rcases p with _ | ⟨n', p⟩
        · obtain rfl := Option.some.inj ((createDirAll_nil_path inner).symm.trans hinner)
          simp
        rw [if_congr List.cons_prefix_cons rfl rfl]
        exact ihInner m' q n' p hinner
      by_cases hm : m = name
      · simp [get, hm, hn, hget]
      · have hmn : ¬m = n := fun heq => hm (heq.trans hn)
        simp [get, hm, hmn]
    next hn =>
    obtain ⟨rest', hrest, rfl⟩ := Option.map_eq_some_iff.mp h
    by_cases hm : m = name
    · have hmn : ¬m = n := fun heq => hn (heq ▸ hm)
      simp [get, hm, hm ▸ hmn]
    · rw [get, if_neg hm, ih m q n p hrest, get, if_neg hm]

theorem distinct_createDirAll (h : f.createDirAll p = some f') (hdistinct : f.Distinct) :
    f'.Distinct := by
  rcases p with _ | ⟨n, p⟩
  · obtain rfl := Option.some.inj ((createDirAll_nil_path f).symm.trans h)
    exact hdistinct
  induction f generalizing f' n p with
  | nil =>
    obtain rfl := Option.some.inj h
    exact ⟨List.not_mem_nil, distinct_chain p, trivial⟩
  | file name contents rest ih | other name rest ih =>
    rw [createDirAll] at h
    split at h
    · exact absurd h (by simp)
    next hn =>
    obtain ⟨rest', hrest, rfl⟩ := Option.map_eq_some_iff.mp h
    refine ⟨fun hmem => ?_, ih hdistinct.2 n p hrest⟩
    rcases (names_createDirAll hrest).mp hmem with hold | hnew
    · exact hdistinct.1 hold
    · exact hn hnew.symm
  | folder name inner rest ihInner ih =>
    obtain ⟨hname, hinnerDistinct, hrestDistinct⟩ := hdistinct
    rw [createDirAll] at h
    split at h
    · obtain ⟨inner', hinner, rfl⟩ := Option.map_eq_some_iff.mp h
      refine ⟨hname, ?_, hrestDistinct⟩
      rcases p with _ | ⟨n', p⟩
      · obtain rfl := Option.some.inj ((createDirAll_nil_path inner).symm.trans hinner)
        exact hinnerDistinct
      · exact ihInner hinnerDistinct n' p hinner
    next hn =>
    obtain ⟨rest', hrest, rfl⟩ := Option.map_eq_some_iff.mp h
    refine ⟨fun hmem => ?_, hinnerDistinct, ih hrestDistinct n p hrest⟩
    rcases (names_createDirAll hrest).mp hmem with hold | hnew
    · exact hname hold
    · exact hn hnew.symm

/-- **When folders can be made**: when only folders are on the path. -/
theorem createDirAll_isSome_iff : (f.createDirAll p).isSome = true ↔
    ∀ q, q <+: p → f.get q = none ∨ f.get q = some .dir := by
  induction f generalizing p with
  | nil =>
    rcases p with _ | ⟨n, p⟩
    · simp
    · refine ⟨fun _ q _ => ?_, fun _ => rfl⟩
      rcases q with _ | ⟨m, q⟩
      · simp
      · exact Or.inl rfl
  | file name contents rest ih | other name rest ih =>
    rcases p with _ | ⟨n, p⟩
    · simp
    by_cases hn : n = name
    · refine ⟨fun h => absurd h (by simp [createDirAll, hn]), fun h => ?_⟩
      rcases h [n] (List.cons_prefix_cons.mpr ⟨rfl, List.nil_prefix⟩) with hnone | hdir
      · exact absurd hnone (by simp [get, hn])
      · exact absurd hdir (by simp [get, hn])
    · rw [createDirAll, if_neg hn, Option.isSome_map, ih]
      refine forall_congr' fun q => imp_congr_right fun hstarts => ?_
      rcases q with _ | ⟨m, q⟩
      · simp
      · obtain ⟨rfl, -⟩ := List.cons_prefix_cons.mp hstarts
        rw [get, if_neg hn]
  | folder name inner rest ihInner ih =>
    rcases p with _ | ⟨n, p⟩
    · simp
    by_cases hn : n = name
    · rw [createDirAll, if_pos hn, Option.isSome_map, ihInner]
      constructor
      · intro h q hstarts
        rcases q with _ | ⟨m, q⟩
        · simp
        · obtain ⟨rfl, hq⟩ := List.cons_prefix_cons.mp hstarts
          rw [get, if_pos hn]
          exact h q hq
      · intro h q hq
        have hbelow := h (n :: q) (List.cons_prefix_cons.mpr ⟨rfl, hq⟩)
        rwa [get, if_pos hn] at hbelow
    · rw [createDirAll, if_neg hn, Option.isSome_map, ih]
      refine forall_congr' fun q => imp_congr_right fun hstarts => ?_
      rcases q with _ | ⟨m, q⟩
      · simp
      · obtain ⟨rfl, -⟩ := List.cons_prefix_cons.mp hstarts
        rw [get, if_neg hn]

/-! ## Making files -/

variable {b : β}

@[simp] theorem createFile_nil_path (b : β) (f : Folder ν β) : f.createFile b [] = none := by
  cases f <;> rfl

/-- What making a file does to the names. -/
theorem names_createFile (h : f.createFile b (n :: p) = some f') {m : ν} :
    m ∈ f'.names ↔ m ∈ f.names ∨ m = n := by
  induction f generalizing f' with
  | nil =>
    rw [createFile] at h
    split at h
    · obtain rfl := Option.some.inj h
      simp [names]
    · exact absurd h (by simp)
  | file name old rest ih | other name rest ih =>
    rw [createFile] at h
    split at h
    · exact absurd h (by simp)
    · obtain ⟨rest', hrest, rfl⟩ := Option.map_eq_some_iff.mp h
      simp only [names, List.mem_cons, ih hrest, or_assoc]
  | folder name inner rest _ ih =>
    rw [createFile] at h
    split at h
    · next hn =>
      obtain ⟨inner', -, rfl⟩ := Option.map_eq_some_iff.mp h
      simp only [names, List.mem_cons, hn]
      tauto
    · obtain ⟨rest', hrest, rfl⟩ := Option.map_eq_some_iff.mp h
      simp only [names, List.mem_cons, ih hrest, or_assoc]

/-- **What making a file does.** -/
theorem get_createFile (h : f.createFile b p = some f') (q : List ν) :
    f'.get q = if q = p then some (.file b) else f.get q := by
  rcases p with _ | ⟨n, p⟩
  · exact absurd h (by simp)
  rcases q with _ | ⟨m, q⟩
  · simp
  induction f generalizing f' m n p q with
  | nil =>
    rw [createFile] at h
    split at h
    · next hp =>
      obtain rfl := Option.some.inj h
      by_cases hm : m = n
      · simp [get, hm, hp]
      · simp [get, hm]
    · exact absurd h (by simp)
  | file name old rest ih | other name rest ih =>
    rw [createFile] at h
    split at h
    · exact absurd h (by simp)
    next hn =>
    obtain ⟨rest', hrest, rfl⟩ := Option.map_eq_some_iff.mp h
    by_cases hm : m = name
    · have hmn : ¬m = n := fun heq => hn (heq ▸ hm)
      simp [get, hm, hm ▸ hmn]
    · rw [get, if_neg hm, ih n p hrest m q, get, if_neg hm]
  | folder name inner rest ihInner ih =>
    rw [createFile] at h
    split at h
    · next hn =>
      obtain ⟨inner', hinner, rfl⟩ := Option.map_eq_some_iff.mp h
      have hget : inner'.get q = if q = p then some (.file b) else inner.get q := by
        rcases p with _ | ⟨n', p⟩
        · exact absurd hinner (by simp)
        rcases q with _ | ⟨m', q⟩
        · simp
        exact ihInner n' p hinner m' q
      by_cases hm : m = name
      · simp [get, hm, hn, hget]
      · have hmn : ¬m = n := fun heq => hm (heq.trans hn)
        simp [get, hm, hmn]
    next hn =>
    obtain ⟨rest', hrest, rfl⟩ := Option.map_eq_some_iff.mp h
    by_cases hm : m = name
    · have hmn : ¬m = n := fun heq => hn (heq ▸ hm)
      simp [get, hm, hm ▸ hmn]
    · rw [get, if_neg hm, ih n p hrest m q, get, if_neg hm]

theorem distinct_createFile (h : f.createFile b p = some f') (hdistinct : f.Distinct) :
    f'.Distinct := by
  rcases p with _ | ⟨n, p⟩
  · exact absurd h (by simp)
  induction f generalizing f' n p with
  | nil =>
    rw [createFile] at h
    split at h
    · obtain rfl := Option.some.inj h
      exact ⟨List.not_mem_nil, trivial⟩
    · exact absurd h (by simp)
  | file name old rest ih | other name rest ih =>
    rw [createFile] at h
    split at h
    · exact absurd h (by simp)
    next hn =>
    obtain ⟨rest', hrest, rfl⟩ := Option.map_eq_some_iff.mp h
    refine ⟨fun hmem => ?_, ih hdistinct.2 n p hrest⟩
    rcases (names_createFile hrest).mp hmem with hold | hnew
    · exact hdistinct.1 hold
    · exact hn hnew.symm
  | folder name inner rest ihInner ih =>
    obtain ⟨hname, hinnerDistinct, hrestDistinct⟩ := hdistinct
    rw [createFile] at h
    split at h
    · obtain ⟨inner', hinner, rfl⟩ := Option.map_eq_some_iff.mp h
      refine ⟨hname, ?_, hrestDistinct⟩
      rcases p with _ | ⟨n', p⟩
      · exact absurd hinner (by simp)
      · exact ihInner hinnerDistinct n' p hinner
    next hn =>
    obtain ⟨rest', hrest, rfl⟩ := Option.map_eq_some_iff.mp h
    refine ⟨fun hmem => ?_, hinnerDistinct, ih hrestDistinct n p hrest⟩
    rcases (names_createFile hrest).mp hmem with hold | hnew
    · exact hname hold
    · exact hn hnew.symm

/-- **When a file can be made**: when there is nothing, in a folder. -/
theorem createFile_isSome_iff : (f.createFile b p).isSome = true ↔
    f.get p = none ∧ f.get p.dropLast = some .dir := by
  rcases p with _ | ⟨n, p⟩
  · simp
  induction f generalizing n p with
  | nil =>
    rcases p with _ | ⟨n', p⟩
    · simp [createFile, get]
    · simp [createFile, get]
  | file name old rest ih | other name rest ih =>
    by_cases hn : n = name
    · rcases p with _ | ⟨n', p⟩
      · simp [createFile, get, hn]
      · simp [createFile, get, hn]
    · rw [createFile, if_neg hn, Option.isSome_map, ih n p, get, if_neg hn]
      rcases p with _ | ⟨n', p⟩
      · simp
      · rw [List.dropLast_cons_cons, get, if_neg hn]
  | folder name inner rest ihInner ih =>
    by_cases hn : n = name
    · rw [createFile, if_pos hn, Option.isSome_map, get, if_pos hn]
      rcases p with _ | ⟨n', p⟩
      · simp
      · rw [List.dropLast_cons_cons, get, if_pos hn]
        exact ihInner n' p
    · rw [createFile, if_neg hn, Option.isSome_map, ih n p, get, if_neg hn]
      rcases p with _ | ⟨n', p⟩
      · simp
      · rw [List.dropLast_cons_cons, get, if_neg hn]

end

end Folder

end FolderTree
