import OrIsyVra.Library.FileSystem

/-!
# Putting an output file in place

What every command that writes a file ends with: the contents go to a temporary file next to the
output, the temporary is synced, a file at the output is removed when it may be overwritten, and the
temporary is moved to the output.  `create_output_temp` and `persist_output` are the two halves of
it around the work of a container; the key capsule, the key card and the PIN card have their own
copies, written here from the same pieces.

A path is the list of its components, and the name of a temporary, which the source draws at random,
is an argument.  A `NamedTempFile` that is dropped on an error is removed (`dropping`).
-/

namespace OrIsyVra

open ByteString FaultProgram FileSystem
open DurableFile (IoFailure IoError)

/-! ## Paths and errors -/

/-- A path: its components. -/
abbrev Path := List String

namespace Path

def parent (path : Path) : Path := path.dropLast

def join (path : Path) (name : String) : Path := path ++ [name]

def display (path : Path) : String := "/".intercalate path

end Path

inductive Error where
  | io (failure : IoFailure)
  | invalidFormat (message : String)
  | invalidInput (message : String)
  | authenticationFailed
  | crypto (message : String)
  | image (message : String)
  | keyCardDecode
  | outputExists (path : String)
  | limitExceeded (message : String)
  deriving DecidableEq, Repr

instance : IoError Error := ⟨.io⟩

/-- The programs of the library. -/
abbrev FileProg := Prog (Host Path) Error

/-! ## The pieces -/

section

variable {ε : Type}

/-- The test every writer begins with. -/
def refuseExisting (refusal : ε) (path : Path) (overwrite : Bool) : Prog (Host Path) ε Unit := do
  let found ← pathExists path
  if found && !overwrite then Prog.fail refusal else pure ()

variable [IoError ε]

/-- `NamedTempFile::new_in`.  It draws names until it finds one at which there is no file; `name` is
the one it settles on. -/
def newIn (name : String) (parent : Path) : Prog (Host Path) ε Path := do
  createNew (parent.join name)
  pure (parent.join name)

/-- A new temporary is empty, and not the file at the path. -/
theorem wp_newIn {h : Host Path} {name : String} {parent : Path} {Q : Post (Host Path) ε Path}
    (hok : h.fault = .none → h.files (parent.join name) = none →
      Q.ok (parent.join name) (h.tick (put h.files (parent.join name) (some ⟨[], false⟩))))
    (hexists : h.fault = .none → h.files (parent.join name) ≠ none →
      Q.error (IoError.io .alreadyExists) (h.tick h.files))
    (herror : h.fault ≠ .none → Q.error (IoError.io .device) (h.tick h.files))
    (hkept : h.fault ≠ .none → Q.crash (h.tick h.files))
    (hdone : h.fault ≠ .none → h.files (parent.join name) = none →
      Q.crash (h.tick (put h.files (parent.join name) (some ⟨[], false⟩)))) :
    wp (newIn name parent) Q h := by
  unfold newIn
  rw [wp_bind]
  exact wp_createNew (fun hf hfree => (wp_pure _ Q _).mpr (hok hf hfree)) hexists herror hkept hdone

/-- The step before the last: what is at the output goes, if it may be overwritten. -/
def clearOutput (path : Path) (overwrite : Bool) : Prog (Host Path) ε Unit := do
  let found ← pathExists path
  if found && overwrite then remove path else pure ()

/-- What is left to do with a temporary file that has its contents. -/
def settleTemporary (temporary path : Path) (overwrite : Bool) : Prog (Host Path) ε Unit := do
  sync temporary
  clearOutput path overwrite
  rename temporary path

/-- The copy of the key capsule and of the key card. -/
def writeThroughTemporary (refusal : ε) (name : String) (bytes : Bytes) (path : Path)
    (overwrite : Bool) : Prog (Host Path) ε Unit := do
  refuseExisting refusal path overwrite
  makeDirs
  let temporary ← newIn name path.parent
  dropping temporary do
    write temporary bytes
    settleTemporary temporary path overwrite

end

/-! ## The halves around a container -/

def createOutputTemp (name : String) (path : Path) (overwrite : Bool) : FileProg Path := do
  refuseExisting (.outputExists path.display) path overwrite
  makeDirs
  newIn name path.parent

def persistOutput (temporary path : Path) (overwrite : Bool) : FileProg Unit :=
  dropping temporary (settleTemporary temporary path overwrite)

/-! ## What the pieces do -/

section

variable {ε : Type} {h : Host Path} {path temporary : Path} {overwrite : Bool} {bytes : Bytes}

/-- The test lets through or refuses, and looks only. -/
theorem wp_refuseExisting {refusal : ε} {Q : Post (Host Path) ε Unit}
    (hok : Q.ok () (h.tick h.files)) (hrefused : Q.error refusal (h.tick h.files))
    (hcrash : Q.crash (h.tick h.files)) : wp (refuseExisting refusal path overwrite) Q h := by
  have hbranch : ∀ found :
    Bool, wp (if (found && !overwrite) = true then Prog.fail refusal else pure ())
      Q (h.tick h.files) := by
    intro found
    split
    · exact (wp_fail _ Q _).mpr hrefused
    · exact (wp_pure _ Q _).mpr hok
  unfold refuseExisting
  rw [wp_bind]
  exact wp_pathExists (fun _ => hbranch _) (fun _ => hbranch _) fun _ => hcrash

variable [IoError ε]

/-- **A temporary that has been settled is at the path, and on the disk.** -/
theorem wp_settleTemporary (hhas : h.Has temporary bytes) :
    wp (settleTemporary temporary path overwrite : Prog (Host Path) ε Unit)
      (.ifOk fun _ t => t.files path = some ⟨bytes, true⟩) h := by
  obtain ⟨synced, hc⟩ := hhas
  have hmove : ∀ t : Host Path, t.files temporary = some ⟨bytes, true⟩ ∨ t.files temporary = none →
      wp (rename temporary path : Prog (Host Path) ε Unit)
        (.ifOk fun _ t => t.files path = some ⟨bytes, true⟩) t := by
    rintro t (htemp | hgone)
    · exact wp_rename htemp (fun _ => put_self _ _ _) (fun _ _ => trivial) (fun _ _ => trivial)
        fun _ _ => trivial
    · exact wp_rename_none hgone (fun _ => trivial) fun _ => trivial
  unfold settleTemporary
  rw [wp_bind]
  refine wp_sync hc (fun _ => ?_) (fun _ => trivial) (fun _ => trivial) fun _ => trivial
  generalize htemp : put h.files temporary (some ⟨bytes, true⟩) = files
  have htemp : files temporary = some ⟨bytes, true⟩ := by rw [← htemp, put_self]
  refine (wp_bind _ _ _ _).mpr ?_
  unfold clearOutput
  rw [wp_bind]
  refine wp_pathExists (fun _ => ?_) (fun _ => ?_) fun _ => trivial
  · show wp (if ((files path).isSome && overwrite) = true then remove path else pure ()) _ _
    split
    · rcases hold : files path with _ | old
      · exact wp_remove_none hold (fun _ => trivial) fun _ => trivial
      · refine wp_remove hold (fun _ => hmove _ ?_) (fun _ _ => trivial) (fun _ _ => trivial)
          fun _ _ => trivial
        by_cases hsame : temporary = path
        · right
          rw [hsame]
          exact put_self _ _ _
        · left
          rw [Host.files_tick, put_of_ne hsame]
          exact htemp
    · exact (wp_pure _ _ _).mpr (hmove _ (Or.inl htemp))
  · exact (wp_pure _ _ _).mpr (hmove _ (Or.inl htemp))

theorem wp_dropping_ifOk {α : Type} {body : Prog (Host Path) ε α} {P : α → Host Path → Prop}
    (hbody : wp body (.ifOk P) h) : wp (dropping temporary body) (.ifOk P) h :=
  wp_dropping (wp_mono hbody (fun _ _ ha => ha) (fun _ _ _ _ _ => ⟨trivial, trivial⟩)
    fun _ _ => trivial)

/-- The temporary of a container: one new file, or none. -/
theorem wp_createOutputTemp {name : String} {Q : Post (Host Path) Error Path}
    (hok : ∀ t : Host Path, h.files (path.parent.join name) = none → t.faults = h.faults →
      t.files = put h.files (path.parent.join name) (some ⟨[], false⟩) →
      Q.ok (path.parent.join name) t)
    (hkept : ∀ t : Host Path, t.files = h.files → (∀ e, Q.error e t) ∧ Q.crash t)
    (hdone : ∀ t : Host Path,
      t.files = put h.files (path.parent.join name) (some ⟨[], false⟩) → Q.crash t) :
    wp (createOutputTemp name path overwrite) Q h := by
  have hhere := hkept (h.tick h.files) rfl
  have hdirs := hkept ((h.tick h.files).tick h.files) rfl
  have hnew := hkept (((h.tick h.files).tick h.files).tick h.files) rfl
  unfold createOutputTemp
  rw [wp_bind]
  refine wp_refuseExisting ?_ (hhere.1 _) hhere.2
  refine (wp_bind _ _ _ _).mpr ?_
  refine wp_makeDirs (fun _ => ?_) (fun _ => hdirs.1 _) fun _ => hdirs.2
  exact wp_newIn (fun _ hfree => hok _ hfree rfl rfl) (fun _ _ => hnew.1 _) (fun _ => hnew.1 _)
    (fun _ => hnew.2) fun _ _ => hdone _ rfl

/-! ## What a writer that returned has done -/

section

variable {ε : Type} {t : Host Path} {u : Unit}

theorem refuseExisting_eq_ok {refusal : ε}
    (hrun : refuseExisting refusal path overwrite h = (.ok u, t)) : t.files = h.files := by
  obtain ⟨found, t₁, hprobe, hrest⟩ := bind_eq_ok.mp hrun
  rw [← pathExists_eq_ok hprobe]
  split at hrest
  · exact absurd hrest fail_ne_ok
  · rw [(pure_eq_ok.mp hrest).2]

variable [IoError ε]

theorem clearOutput_eq_ok
    (hrun : (clearOutput path overwrite : Prog (Host Path) ε Unit) h = (.ok u, t)) :
    t.files = h.files ∨ t.files = put h.files path none := by
  obtain ⟨found, t₁, hprobe, hrest⟩ := bind_eq_ok.mp hrun
  rw [← pathExists_eq_ok hprobe]
  split at hrest
  · exact Or.inr (remove_eq_ok hrest)
  · exact Or.inl (by rw [(pure_eq_ok.mp hrest).2])

/-- A temporary that is moved to the path is gone from where it was, whether or not what was at the
path has been removed before. -/
theorem clearThenRename_eq_ok {t₁ : Host Path} {c : Contents} {u' : Unit}
    (hc : h.files temporary = some c)
    (hclear : (clearOutput path overwrite : Prog (Host Path) ε Unit) h = (.ok u, t₁))
    (hmove : (rename temporary path : Prog (Host Path) ε Unit) t₁ = (.ok u', t)) :
    t.files = put (put h.files temporary none) path (some c) := by
  obtain ⟨c', hc', hmoved⟩ := rename_eq_ok hmove
  rw [hmoved]
  rcases clearOutput_eq_ok hclear with hfiles | hfiles <;> rw [hfiles] at hc' ⊢
  · rw [← hc.symm.trans hc']
  · have hne : temporary ≠ path := by
      rintro rfl
      rw [put_self] at hc'
      exact absurd hc' (by simp)
    rw [put_of_ne hne] at hc'
    rw [← hc.symm.trans hc']
    refine put_congr _ fun p hp => ?_
    by_cases htemp : p = temporary
    · rw [htemp, put_self, put_self]
    · rw [put_of_ne htemp, put_of_ne htemp, put_of_ne hp]

theorem settleTemporary_eq_ok {c : Contents} (hc : h.files temporary = some c)
    (hrun : (settleTemporary temporary path overwrite : Prog (Host Path) ε Unit) h = (.ok u, t)) :
    t.files = put (put h.files temporary none) path (some ⟨c.bytes, true⟩) := by
  obtain ⟨_, t₁, hsync, hrest⟩ := bind_eq_ok.mp hrun
  obtain ⟨_, t₂, hclear, hmove⟩ := bind_eq_ok.mp hrest
  have hsynced := sync_eq_ok hc hsync
  have htemp : t₁.files temporary = some ⟨c.bytes, true⟩ := by rw [hsynced, put_self]
  rw [clearThenRename_eq_ok htemp hclear hmove, hsynced, put_put]

/-- **A writer that returned has put its bytes at the path**, and nothing else. -/
theorem writeThroughTemporary_eq_ok {refusal : ε} {name : String}
    (hrun : writeThroughTemporary refusal name bytes path overwrite h = (.ok u, t)) :
    t.files = put h.files path (some ⟨bytes, true⟩) := by
  obtain ⟨_, t₁, hrefuse, hrest⟩ := bind_eq_ok.mp hrun
  obtain ⟨_, t₂, hdirs, hrest⟩ := bind_eq_ok.mp hrest
  obtain ⟨temporary, t₃, hnew, hrest⟩ := bind_eq_ok.mp hrest
  obtain ⟨_, t₄, hwrite, hsettle⟩ := bind_eq_ok.mp (dropping_eq_ok hrest)
  obtain ⟨_, t₅, hcreate, hpure⟩ := bind_eq_ok.mp hnew
  obtain ⟨rfl, rfl⟩ := pure_eq_ok.mp hpure
  have hstart : t₂.files = h.files := (makeDirs_eq_ok hdirs).trans (refuseExisting_eq_ok hrefuse)
  obtain ⟨hfree, hcreated⟩ := createNew_eq_ok hcreate
  have hempty : t₅.files (path.parent.join name) = some ⟨[], false⟩ := by rw [hcreated, put_self]
  have hwritten := write_eq_ok hwrite
  rw [append_eq hempty, List.nil_append] at hwritten
  have hfilled : t₄.files (path.parent.join name) = some ⟨bytes, false⟩ := by
    rw [hwritten, put_self]
  rw [settleTemporary_eq_ok hfilled hsettle, hwritten, put_put, hcreated, put_put,
    put_eq_self hfree, hstart]

end

/-! ## When nothing fails -/

theorem refuseExisting_ok {ε : Type} {refusal : ε} (hq : h.Quiet)
    (hfree : overwrite = true ∨ h.files path = none) :
    refuseExisting refusal path overwrite h = (.ok (), h.tick h.files) := by
  unfold refuseExisting
  rw [bind_ok (pathExists_ok hq.fault), if_neg]
  · rfl
  · rcases hfree with rfl | hnone
    · rw [Bool.not_true, Bool.and_false]
      exact Bool.false_ne_true
    · rw [hnone, Option.isSome_none, Bool.false_and]
      exact Bool.false_ne_true

theorem createOutputTemp_ok {name : String} (hq : h.Quiet)
    (hfree : overwrite = true ∨ h.files path = none)
    (hfresh : h.files (path.parent.join name) = none) :
    wp (createOutputTemp name path overwrite) (.only fun temporary t =>
      temporary = path.parent.join name ∧ t.faults = h.faults ∧
        t.files = put h.files (path.parent.join name) (some ⟨[], false⟩)) h := by
  unfold createOutputTemp newIn
  rw [wp_bind]
  refine wp_of_ok (refuseExisting_ok hq hfree) ?_
  refine (wp_bind _ _ _ _).mpr ?_
  refine wp_of_ok (change_ok (hq.tick _).fault rfl) ?_
  refine (wp_bind _ _ _ _).mpr ?_
  refine wp_of_ok (createNew_ok ((hq.tick _).tick _).fault hfresh) ?_
  exact (wp_pure _ _ _).mpr ⟨rfl, rfl, rfl⟩

/-- A temporary next to the path is moved there, and nothing else changes. -/
theorem settleTemporary_ok (hq : h.Quiet) (hne : path ≠ temporary) (hhas : h.Has temporary bytes) :
    wp (settleTemporary temporary path overwrite : Prog (Host Path) ε Unit) (.only fun _ t =>
      t.files = put (put h.files temporary none) path (some ⟨bytes, true⟩)) h := by
  obtain ⟨synced, hc⟩ := hhas
  have hmove : ∀ t : Host Path, t.Quiet → t.files temporary = some ⟨bytes, true⟩ →
      (∀ p, p ≠ path → p ≠ temporary → t.files p = h.files p) →
      wp (rename temporary path : Prog (Host Path) ε Unit) (.only fun _ t =>
        t.files = put (put h.files temporary none) path (some ⟨bytes, true⟩)) t := by
    intro t hqt htemp hothers
    refine wp_rename htemp (fun _ => ?_) (fun hf => absurd hqt.fault hf)
      (fun hf => absurd hqt.fault hf) fun hf => absurd hqt.fault hf
    refine put_congr _ fun p hp => ?_
    by_cases hp' : p = temporary
    · rw [hp', put_self, put_self]
    · rw [put_of_ne hp', put_of_ne hp', hothers p hp hp']
  unfold settleTemporary clearOutput
  rw [wp_bind]
  refine wp_sync hc (fun _ => ?_) (fun hf => absurd hq.fault hf) (fun hf => absurd hq.fault hf)
    fun hf => absurd hq.fault hf
  generalize hsynced : put h.files temporary (some ⟨bytes, true⟩) = files
  have htemp : files temporary = some ⟨bytes, true⟩ := by rw [← hsynced, put_self]
  have hothers : ∀ p, p ≠ temporary → files p = h.files p := fun p hp => by
    rw [← hsynced, put_of_ne hp]
  refine (wp_bind _ _ _ _).mpr ?_
  rw [wp_bind]
  refine wp_of_ok (pathExists_ok (hq.tick files).fault) ?_
  show wp (if ((files path).isSome && overwrite) = true then remove path else pure ()) _ _
  split
  · next hgo =>
    obtain ⟨old, hold⟩ := Option.isSome_iff_exists.mp (Bool.and_eq_true_iff.mp hgo).1
    refine wp_remove hold (fun _ => hmove _ (hq.tick files) ?_ fun p hp hp' => ?_)
      (fun hf => absurd (hq _) hf) (fun hf => absurd (hq _) hf) fun hf => absurd (hq _) hf
    · rw [Host.files_tick, put_of_ne (Ne.symm hne)]
      exact htemp
    · rw [Host.files_tick, put_of_ne hp]
      exact hothers p hp'
  · exact (wp_pure _ _ _).mpr (hmove _ (hq.tick files) htemp fun p _ hp' => hothers p hp')

theorem dropping_ok {α : Type} {body : Prog (Host Path) ε α} {P : α → Host Path → Prop}
    (hbody : wp body (.only P) h) : wp (dropping temporary body) (.only P) h :=
  wp_dropping (wp_mono hbody (fun _ _ ha => ha) (fun _ _ hfalse => hfalse.elim)
    fun _ hfalse => hfalse)

/-- A call finds what it needs: an input, an output that may be written elsewhere, and a free name
for the temporary. -/
structure Ready (name : String) (input output : Path) (overwrite : Bool) (h : Host Path)
    (bytes : Bytes) : Prop where
  quiet : h.Quiet
  has : h.Has input bytes
  differ : input ≠ output
  free : overwrite = true ∨ h.files output = none
  fresh : h.files (output.parent.join name) = none
  apart : output ≠ output.parent.join name

end

/-! ## What the writers spare -/

section

variable {ε : Type} [IoError ε] {files : Files Path} {kept : Set Path} {path temporary : Path}
  {overwrite : Bool}

omit [IoError ε] in
theorem maintains_refuseExisting (refusal : ε) :
    Maintains (Spared files kept) (refuseExisting refusal path overwrite) := by
  refine .bind (maintains_pathExists path) fun found => ?_
  split
  · exact .fail _
  · exact .pure _

theorem maintains_newIn {name : String} (hkept : ∀ p ∈ kept, files p ≠ none) :
    Maintains (Spared files kept) (newIn name path : Prog (Host Path) ε Path) :=
  .bind (maintains_createNew hkept) fun _ => .pure _

theorem not_mem_of_newIn {name : String} {h t : Host Path} (hkept : ∀ p ∈ kept, files p ≠ none)
    (hs : Spared files kept h)
    (hrun : (newIn name path : Prog (Host Path) ε Path) h = (.ok temporary, t)) :
    temporary ∉ kept := by
  obtain ⟨_, t₁, hcreate, hpure⟩ := bind_eq_ok.mp hrun
  rw [← (pure_eq_ok.mp hpure).1]
  exact not_mem_of_createNew hkept hs hcreate

theorem maintains_settleTemporary (htemporary : temporary ∉ kept) (hpath : path ∉ kept) :
    Maintains (Spared files kept)
      (settleTemporary temporary path overwrite : Prog (Host Path) ε Unit) := by
  refine .bind (maintains_sync htemporary) fun _ => .bind ?_ fun _ =>
    maintains_rename htemporary hpath
  refine .bind (maintains_pathExists path) fun found => ?_
  split
  · exact maintains_remove hpath
  · exact .pure _

/-- **A writer spares every file that was there, but for the one it writes.** -/
theorem maintains_writeThroughTemporary (hkept : ∀ p ∈ kept, files p ≠ none) (hpath : path ∉ kept)
    (refusal : ε) (name : String) (bytes : Bytes) :
    Maintains (Spared files kept) (writeThroughTemporary refusal name bytes path overwrite) := by
  refine .bind (maintains_refuseExisting refusal) fun _ => .bind maintains_makeDirs fun _ => ?_
  refine .bind_ok (maintains_newIn hkept) (fun _ _ _ hs hrun => not_mem_of_newIn hkept hs hrun)
    fun temporary htemporary => maintains_dropping htemporary ?_
  exact .bind (maintains_write htemporary bytes) fun _ => maintains_settleTemporary htemporary hpath

theorem maintains_createOutputTemp {name : String} (hkept : ∀ p ∈ kept, files p ≠ none) :
    Maintains (Spared files kept) (createOutputTemp name path overwrite) :=
  .bind (maintains_refuseExisting _) fun _ => .bind maintains_makeDirs fun _ =>
    maintains_newIn hkept

theorem not_mem_of_createOutputTemp {name : String} {h t : Host Path}
    (hkept : ∀ p ∈ kept, files p ≠ none) (hs : Spared files kept h)
    (hrun : createOutputTemp name path overwrite h = (.ok temporary, t)) : temporary ∉ kept := by
  obtain ⟨_, t₁, hrefuse, hrest⟩ := bind_eq_ok.mp hrun
  obtain ⟨_, t₂, hdirs, hnew⟩ := bind_eq_ok.mp hrest
  refine not_mem_of_newIn hkept ?_ hnew
  show Set.EqOn t₂.files files kept
  rw [makeDirs_eq_ok hdirs, refuseExisting_eq_ok hrefuse]
  exact hs

end

end OrIsyVra
