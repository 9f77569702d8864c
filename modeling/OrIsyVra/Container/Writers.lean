import OrIsyVra.Container.Encryption
import OrIsyVra.Files.Keyfile
import OrIsyVra.Library.Runs

/-!
# Several writers of one path

`encrypt_file`, `decrypt_file` and `write_keyfile_bytes` without `overwrite` have three parts: they
look whether there is a file at the output, they fill a temporary next to it, and they move the
temporary to the output.  The parts are cut out of the programs here, and put together again they
are the programs (`encryptFile_eq`, `decryptFile_eq`, `writeKeyfileBytes_eq`).

Any number of calls go through their parts in any order, and other processes create files at the
output.  The look is not repeated when the temporary is moved, and moving replaces what is there.
So what has appeared since the look is lost, and two calls return without an error
(`replaced_output`).  As long as no call comes to its move while there is a file, a file at the
output stays, and at most one call returns (`nothing_replaced`).
-/

namespace OrIsyVra
namespace Writers

open ByteString MachineWord FaultProgram FileSystem Container Runs
open DurableFile (IoFailure)

/-! ## The three parts -/

/-- What is to be written to a temporary, whichever it is. -/
structure Filling where
  run : Path → FileProg Unit
  leaves : ∀ temporary, Leaves (outside temporary) (run temporary)

/-- What a call is asked to write; the output is the same for all. -/
inductive Request where
  | encrypt (salt fileId : FixedBytes 32) (input : Path) (master : MasterKey) (mode : Mode)
      (chunkSize : ℕ)
  | decrypt (input : Path) (master : MasterKey)
  | writeKeyfile (bytes : Bytes)

def writeFilling (bytes : Bytes) : Filling :=
  ⟨fun temporary => write temporary bytes, fun temporary => leaves_write temporary bytes⟩

/-- The temporary is made and filled. -/
def prepare (name : String) (output : Path) (filling : Filling) : FileProg Path := do
  makeDirs
  let temporary ← newIn name output.parent
  dropping temporary (filling.run temporary)
  pure temporary

section

variable [Crypto]

def encryptFilling (suite : Suite) (chunkSize : ℕ) (rest : Bytes) : Filling :=
  ⟨fun temporary => encryptTo suite chunkSize temporary rest,
    fun temporary => leaves_encryptTo suite chunkSize temporary rest⟩

def decryptFilling (suite : Suite) (rest : Bytes) : Filling :=
  ⟨fun temporary => decryptTo suite temporary rest, fun temporary =>
    leaves_decryptTo suite temporary rest⟩

/-- Everything up to the look, and the look. -/
def Request.opening (output : Path) : Request → FileProg Filling
  | .encrypt salt fileId input master mode chunkSize => do
    Prog.ofExcept (validateChunkSize chunkSize)
    if input = output then
      Prog.fail (.invalidInput "input and output paths must be different")
    else do
      let header ← Prog.ofExcept (Header.new mode chunkSize salt fileId)
      let suite ← Prog.ofExcept (deriveSuite master header header.encode)
      let rest ← readFile input
      refuseExisting (.outputExists output.display) output false
      pure (encryptFilling suite chunkSize rest)
  | .decrypt input master =>
    if input = output then
      Prog.fail (.invalidInput "input and output paths must be different")
    else do
      let bytes ← readFile input
      let (headerBytes, rest) ← readExact bytes headerSize
      let header ← Prog.ofExcept (Header.decode headerBytes)
      let suite ← Prog.ofExcept (deriveSuite master header headerBytes)
      refuseExisting (.outputExists output.display) output false
      pure (decryptFilling suite rest)
  | .writeKeyfile bytes => do
    Prog.ofExcept (validateKeyfileBytes bytes)
    refuseExisting (.outputExists output.display) output false
    pure (writeFilling bytes)

/-- One part after the other. -/
def Request.whole (name : String) (output : Path) (r : Request) : FileProg Unit := do
  let filling ← r.opening output
  let temporary ← prepare name output filling
  persistOutput temporary output false

theorem encryptFile_eq (name : String) (salt fileId : FixedBytes 32) (input output : Path)
    (master : MasterKey) (mode : Mode) (chunkSize : ℕ) :
    encryptFile name salt fileId input output master ⟨mode, chunkSize, false⟩ =
      (Request.encrypt salt fileId input master mode chunkSize).whole name output := by
  unfold encryptFile Request.whole Request.opening createOutputTemp prepare encryptFilling
  by_cases hsame : input = output
  · simp only [if_pos hsame, bind_assoc]
    rfl
  · simp only [if_neg hsame, bind_assoc, pure_bind]

theorem decryptFile_eq (name : String) (input output : Path) (master : MasterKey) :
    (do let _ ← decryptFile name input output master false) =
      (Request.decrypt input master).whole name output := by
  unfold decryptFile Request.whole Request.opening createOutputTemp prepare decryptFilling
  by_cases hsame : input = output
  · simp only [if_pos hsame]
    rfl
  simp only [if_neg hsame, bind_assoc, pure_bind]
  refine congrArg (readFile input >>= ·) (funext fun bytes => ?_)
  refine congrArg (readExact bytes headerSize >>= ·) (funext fun parts => ?_)
  obtain ⟨headerBytes, rest⟩ := parts
  simp only [bind_pure_unit]

omit [Crypto] in
/-- Filling and moving are one program on the temporary. -/
theorem dropping_settle (temporary output : Path) (bytes : Bytes) :
    (dropping temporary (do
      write temporary bytes
      settleTemporary temporary output false) : FileProg Unit) =
      dropping temporary (write temporary bytes) >>= fun _ =>
        persistOutput temporary output false :=
  dropping_bind temporary (write temporary bytes) fun _ => settleTemporary temporary output false

theorem writeKeyfileBytes_eq (name : String) (output : Path) (bytes : Bytes) :
    writeKeyfileBytes name output bytes false = (Request.writeKeyfile bytes).whole name output := by
  unfold writeKeyfileBytes writeThroughTemporary Request.whole Request.opening prepare writeFilling
  simp only [bind_assoc, pure_bind, dropping_settle]

/-! ## What a part does to the files -/

omit [Crypto] in
theorem leaves_refuseExisting {refusal : Error} (path : Path) :
    Leaves Host.files (refuseExisting refusal path false : FileProg Unit) := by
  refine .bind (fun h => ?_) fun found => .ite (.fail _) (.pure _)
  unfold pathExists
  split <;> rfl

omit [Crypto] in
theorem leaves_inspect_files {α : Type} (look : Host Path → Except IoFailure α) :
    Leaves Host.files (inspect look : FileProg α) := by
  intro h
  unfold inspect
  split <;> rfl

/-- **The look changes nothing**, nor what is done before it. -/
theorem leaves_opening (output : Path) (r : Request) : Leaves Host.files (r.opening output) := by
  cases r with
  | encrypt =>
    refine .bind (.ofExcept _) fun _ => .ite (.fail _) (.bind (.ofExcept _) fun _ => ?_)
    refine .bind (.ofExcept _) fun _ => .bind (leaves_inspect_files _) fun _ => ?_
    exact .bind (leaves_refuseExisting output) fun _ => .pure _
  | decrypt =>
    refine .ite (.fail _) (.bind (leaves_inspect_files _) fun _ => ?_)
    refine .bind (leaves_inspect_files _) fun _ => .bind (.ofExcept _) fun _ => ?_
    refine .bind (.ofExcept _) fun _ => ?_
    exact .bind (leaves_refuseExisting output) fun _ => .pure _
  | writeKeyfile =>
    refine .bind (.ofExcept _) fun _ => ?_
    exact .bind (leaves_refuseExisting output) fun _ => .pure _

section

variable {h t : Host Path} {output : Path}

omit [Crypto] in
theorem refuseExisting_found_none {refusal : Error} {u : Unit} (hquiet : h.Quiet)
    (hrun : (refuseExisting refusal output false : FileProg Unit) h = (.ok u, t)) :
    h.files output = none := by
  rcases hc : h.files output with _ | c
  · rfl
  · unfold refuseExisting at hrun
    rw [bind_ok (pathExists_ok hquiet.fault), hc] at hrun
    exact absurd hrun fail_ne_ok

omit [Crypto] in
theorem inspect_quiet {α : Type} {look : Host Path → Except IoFailure α} {a : α} (hquiet : h.Quiet)
    (hrun : (inspect look : FileProg α) h = (.ok a, t)) : t.Quiet ∧ t.files = h.files := by
  refine ⟨?_, (inspect_eq_ok hrun).2⟩
  rcases hlook : look h with e | b
  · unfold inspect at hrun
    rw [hquiet.fault, hlook] at hrun
    exact nomatch hrun
  · rw [inspect_ok hquiet.fault hlook] at hrun
    obtain ⟨-, rfl⟩ := Prod.mk.inj hrun
    exact hquiet.tick _

/-- **A call that gets past its look has found no file**, where the look works. -/
theorem opening_found_none {r : Request} {filling : Filling} (hquiet : h.Quiet)
    (hrun : r.opening output h = (.ok filling, t)) : h.files output = none := by
  cases r with
  | encrypt salt fileId input master mode chunkSize =>
    obtain ⟨_, _, hsize, hrest⟩ := bind_eq_ok.mp hrun
    obtain ⟨-, rfl⟩ := ofExcept_eq_ok.mp hsize
    split at hrest
    · exact absurd hrest fail_ne_ok
    obtain ⟨_, _, hheader, hrest⟩ := bind_eq_ok.mp hrest
    obtain ⟨-, rfl⟩ := ofExcept_eq_ok.mp hheader
    obtain ⟨_, _, hsuite, hrest⟩ := bind_eq_ok.mp hrest
    obtain ⟨-, rfl⟩ := ofExcept_eq_ok.mp hsuite
    obtain ⟨_, t₁, hread, hrest⟩ := bind_eq_ok.mp hrest
    obtain ⟨hquiet₁, hfiles₁⟩ := inspect_quiet hquiet hread
    obtain ⟨_, _, hlook, -⟩ := bind_eq_ok.mp hrest
    rw [← hfiles₁]
    exact refuseExisting_found_none hquiet₁ hlook
  | decrypt input master =>
    unfold Request.opening at hrun
    dsimp only at hrun
    split at hrun
    · exact absurd hrun fail_ne_ok
    obtain ⟨_, t₁, hread, hrest⟩ := bind_eq_ok.mp hrun
    obtain ⟨hquiet₁, hfiles₁⟩ := inspect_quiet hquiet hread
    obtain ⟨⟨_, _⟩, t₂, hexact, hrest⟩ := bind_eq_ok.mp hrest
    obtain ⟨hquiet₂, hfiles₂⟩ := inspect_quiet hquiet₁ hexact
    obtain ⟨_, _, hheader, hrest⟩ := bind_eq_ok.mp hrest
    obtain ⟨-, rfl⟩ := ofExcept_eq_ok.mp hheader
    obtain ⟨_, _, hsuite, hrest⟩ := bind_eq_ok.mp hrest
    obtain ⟨-, rfl⟩ := ofExcept_eq_ok.mp hsuite
    obtain ⟨_, _, hlook, -⟩ := bind_eq_ok.mp hrest
    rw [← hfiles₁, ← hfiles₂]
    exact refuseExisting_found_none hquiet₂ hlook
  | writeKeyfile bytes =>
    obtain ⟨_, _, hvalid, hrest⟩ := bind_eq_ok.mp hrun
    obtain ⟨-, rfl⟩ := ofExcept_eq_ok.mp hvalid
    obtain ⟨_, _, hlook, -⟩ := bind_eq_ok.mp hrest
    exact refuseExisting_found_none hquiet hlook

end

end

section

variable {name : String} {output temporary : Path} {filling : Filling} {h t : Host Path}

/-- A file that is there is not the temporary, which is new. -/
structure Fills (temporary : Path) (h t : Host Path) : Prop where
  others : ∀ p, p ≠ temporary → t.files p = h.files p
  kept : h.files temporary ≠ none → t.files temporary = h.files temporary

theorem fills_of_files (hfiles : t.files = h.files) : Fills temporary h t :=
  ⟨fun _ _ => by rw [hfiles], fun _ => by rw [hfiles]⟩

theorem fills_of_free (hfree : h.files temporary = none)
    (hothers : ∀ p, p ≠ temporary → t.files p = h.files p) : Fills temporary h t :=
  ⟨hothers, fun hsome => absurd hfree hsome⟩

theorem wp_prepare : wp (prepare name output filling)
    ⟨fun path t => Fills (output.parent.join name) h t ∧ path = output.parent.join name ∧
        h.files path = none ∧ t.files path ≠ none,
      fun _ t => Fills (output.parent.join name) h t, fun t =>
        Fills (output.parent.join name) h t⟩ h := by
  generalize htemporary : output.parent.join name = temporary
  unfold prepare
  rw [wp_bind]
  refine wp_makeDirs (fun _ => ?_) (fun _ => fills_of_files rfl) fun _ => fills_of_files rfl
  refine (wp_bind _ _ _ _).mpr ?_
  have hput : ∀ {c : Option Contents} (p : Path), p ≠ temporary →
    put h.files temporary c p = h.files p :=
    fun p hp => put_of_ne hp
  refine wp_newIn (fun _ hfree => ?_) (fun _ _ => fills_of_files rfl) (fun _ => fills_of_files rfl)
    (fun _ => fills_of_files rfl) fun _ hfree => ?_
  all_goals rw [htemporary] at *
  · refine (wp_bind _ _ _ _).mpr ?_
    refine wp_dropping (wp_mono ((filling.leaves temporary).wp _) (fun _ t ht => ?_)
      (fun e t ht => ?_) fun t ht => ?_)
    · obtain ⟨hothers, hsome, -⟩ := of_outside_eq ht
      refine (wp_pure _ _ _).mpr ⟨fills_of_free hfree fun p hp => ?_, rfl, hfree, ?_⟩
      · rw [hothers p hp]
        exact hput p hp
      · rw [← Option.isSome_iff_ne_none, hsome]
        show (put h.files temporary (some ⟨[], false⟩) temporary).isSome = true
        rw [put_self]
        rfl
    · obtain ⟨hothers, -, -⟩ := of_outside_eq ht
      rintro files (rfl | rfl)
      · have hfills : Fills temporary h (t.tick t.files) :=
          fills_of_free hfree fun p hp => (hothers p hp).trans (hput p hp)
        exact ⟨hfills, hfills⟩
      · have hfills : Fills temporary h (t.tick (put t.files temporary none)) :=
          fills_of_free hfree fun p hp => (put_of_ne hp).trans ((hothers p hp).trans (hput p hp))
        exact ⟨hfills, hfills⟩
    · obtain ⟨hothers, -, -⟩ := of_outside_eq ht
      exact fills_of_free hfree fun p hp => (hothers p hp).trans (hput p hp)
  · exact fills_of_free hfree fun p hp => hput p hp

/-- The files but for two paths. -/
def beside (p q : Path) (h : Host Path) : Files Path := fun path =>
  if path = p ∨ path = q then none else h.files path

theorem leaves_change_beside {p q : Path} {effect : Files Path → Except IoFailure (Files Path)}
    (heffect : ∀ files files', effect files = .ok files' →
      ∀ path, path ≠ p → path ≠ q → files' path = files path) :
    Leaves (beside p q) (change effect : FileProg Unit) := by
  intro h
  have htick : ∀ files, (∀ path, path ≠ p → path ≠ q → files path = h.files path) →
      beside p q (h.tick files) = beside p q h := by
    intro files hfiles
    funext path
    unfold beside
    split
    · rfl
    · next hpath => exact hfiles path (fun hp => hpath (Or.inl hp)) fun hq => hpath (Or.inr hq)
  have hsame := htick h.files fun _ _ _ => rfl
  unfold change
  rcases hresult : effect h.files with e | files
  · split <;> first | exact hsame | exact absurd ‹_› (by simp)
  · have hdone := htick files (heffect _ _ hresult)
    split
    · obtain rfl := Except.ok.inj ‹_›
      exact hdone
    · exact hsame
    · exact hsame
    · obtain rfl := Except.ok.inj ‹_›
      exact hdone
    · exact hsame

theorem leaves_remove (p q : Path) : Leaves (beside p q) (remove p : FileProg Unit) := by
  refine leaves_change_beside fun files files' hfiles path hp _ => ?_
  split at hfiles
  · exact absurd hfiles (by simp)
  · rw [← Except.ok.inj hfiles, put_of_ne hp]

/-- **The move touches two paths**, the temporary and the output. -/
theorem leaves_persistOutput (temporary output : Path) :
    Leaves (beside temporary output) (persistOutput temporary output false) := by
  have hsync : Leaves (beside temporary output) (sync temporary : FileProg Unit) := by
    refine leaves_change_beside fun files files' hfiles path hp _ => ?_
    split at hfiles
    · rw [← Except.ok.inj hfiles]
    · rw [← Except.ok.inj hfiles, put_of_ne hp]
  have hrename : Leaves (beside temporary output) (rename temporary output : FileProg Unit) := by
    refine leaves_change_beside fun files files' hfiles path hp hq => ?_
    split at hfiles
    · exact absurd hfiles (by simp)
    · rw [← Except.ok.inj hfiles, put_of_ne hq, put_of_ne hp]
  have hclear : Leaves (beside temporary output) (clearOutput output false : FileProg Unit) := by
    refine .bind (fun h => ?_) fun found => ?_
    · unfold pathExists
      split <;> rfl
    · rw [Bool.and_false]
      exact .pure _
  have hsettle : Leaves (beside temporary output)
    (settleTemporary temporary output false : FileProg Unit) :=
    .bind hsync fun _ => .bind hclear fun _ => hrename
  refine .bind hsettle.attempt fun r => ?_
  rcases r with e | ⟨⟩
  · exact .bind (leaves_remove temporary output).attempt fun _ => .fail e
  · exact .pure _

theorem persistOutput_files {c : Contents} {o : Outcome Error Unit}
    (hc : h.files temporary = some c) (hrun : persistOutput temporary output false h = (o, t)) :
    (∀ p, p ≠ temporary → p ≠ output → t.files p = h.files p) ∧
      (o = .ok () → t.files output = some ⟨c.bytes, true⟩) := by
  constructor
  · intro p hp hq
    have hbeside := congrFun (leaves_persistOutput temporary output h) p
    rw [hrun] at hbeside
    have hnot : ¬(p = temporary ∨ p = output) := fun hor => hor.elim hp hq
    unfold beside at hbeside
    rwa [if_neg hnot, if_neg hnot] at hbeside
  · rintro rfl
    rw [settleTemporary_eq_ok hc (dropping_eq_ok hrun), put_self]

end

/-! ## Calls and other processes -/

/-- How far a call is.  What has been moved to the output is kept with the end of the call. -/
inductive Phase where
  | ready
  | opened (filling : Filling)
  | prepared (temporary : Path) (bytes : Bytes)
  | returned (result : Except Error Bytes)
  | dead

def afterOpening : Outcome Error Filling → Phase
  | .ok filling => .opened filling
  | .error e => .returned (.error e)
  | .crash => .dead

def afterPreparing (files : Files Path) : Outcome Error Path → Phase
  | .ok temporary => .prepared temporary (((files temporary).map Contents.bytes).getD [])
  | .error e => .returned (.error e)
  | .crash => .dead

def afterPersisting (bytes : Bytes) : Outcome Error Unit → Phase
  | .ok () => .returned (.ok bytes)
  | .error e => .returned (.error e)
  | .crash => .dead

variable {ι : Type} [DecidableEq ι]

/-- The files, and the calls. -/
structure World (ι : Type) where
  files : Files Path
  phase : ι → Phase

def World.start (ι : Type) (files : Files Path) : World ι := ⟨files, fun _ => .ready⟩

def World.with (w : World ι) (i : ι) (files : Files Path) (phase : Phase) : World ι :=
  ⟨files, Function.update w.phase i phase⟩

inductive Event (ι : Type) where
  | quiet
  /-- Another process has created a file at the output. -/
  | appeared
  /-- A call has come to its move. -/
  | persisted (i : ι)

/-- One part of a call is done, with any faults, or another process creates a file.  The name drawn
for a temporary is not that of the output. -/
inductive Step [Crypto] (requests : ι → Request) (output : Path) (w : World ι) :
    Event ι → World ι → Prop
  | opens {i : ι} {h t : Host Path} {o : Outcome Error Filling} (hfiles : h.files = w.files)
      (hphase : w.phase i = .ready) (hrun : (requests i).opening output h = (o, t)) :
      Step requests output w .quiet (w.with i t.files (afterOpening o))
  | prepares {i : ι} {filling : Filling} {name : String} {h t : Host Path} {o : Outcome Error Path}
      (hfiles : h.files = w.files) (hphase : w.phase i = .opened filling)
      (hname : output.parent.join name ≠ output) (hrun : prepare name output filling h = (o, t)) :
      Step requests output w .quiet (w.with i t.files (afterPreparing t.files o))
  | persists {i : ι} {temporary : Path} {bytes : Bytes} {h t : Host Path} {o : Outcome Error Unit}
      (hfiles : h.files = w.files) (hphase : w.phase i = .prepared temporary bytes)
      (hrun : persistOutput temporary output false h = (o, t)) :
      Step requests output w (.persisted i) (w.with i t.files (afterPersisting bytes o))
  | dies {i : ι} (hphase : ∀ result, w.phase i ≠ .returned result) :
      Step requests output w .quiet (w.with i w.files .dead)
  | appears {c : Contents} (hfree : w.files output = none) :
      Step requests output w .appeared ⟨put w.files output (some c), w.phase⟩

/-- A call comes to its move only while there is no file. -/
def Timely (output : Path) (w : World ι) : Event ι → Prop
  | .quiet | .appeared => True
  | .persisted _ => w.files output = none

/-! ## What is kept -/

/-- **The invariant**: every temporary is there, for one call only, and so is what a call has
returned. -/
structure Sound (output : Path) (w : World ι) : Prop where
  temporary : ∀ i path b, w.phase i = .prepared path b →
    path ≠ output ∧ ∃ c, w.files path = some c ∧ c.bytes = b
  apart : ∀ i j path b b', w.phase i = .prepared path b → w.phase j = .prepared path b' → i = j
  written : ∀ i b, w.phase i = .returned (.ok b) → ∃ c, w.files output = some c ∧ c.bytes = b
  once : ∀ i j b b', w.phase i = .returned (.ok b) → w.phase j = .returned (.ok b') → i = j

section

variable {output : Path} {w w' : World ι} {e : Event ι} {requests : ι → Request}

omit [DecidableEq ι] in
theorem sound_start (output : Path) (files : Files Path) : Sound output (World.start ι files) :=
  ⟨fun _ _ _ h => absurd h (by simp [World.start]), fun _ _ _ _ _ h =>
    absurd h (by simp [World.start]), fun _ _ h => absurd h (by simp [World.start]),
      fun _ _ _ _ h => absurd h (by simp [World.start])⟩

theorem phase_with {i j : ι} {files : Files Path} {phase phase' : Phase}
    (h : (w.with i files phase).phase j = phase') :
    j = i ∧ phase = phase' ∨ j ≠ i ∧ w.phase j = phase' := by
  change Function.update w.phase i phase j = phase' at h
  by_cases hj : j = i
  · subst hj
    rw [Function.update_self] at h
    exact Or.inl ⟨rfl, h⟩
  · rw [Function.update_of_ne hj] at h
    exact Or.inr ⟨hj, h⟩

/-- One call goes on: a new temporary was free, and so was the output of a call that returns. -/
theorem Sound.with (h : Sound output w) {i : ι} {files : Files Path} {phase : Phase}
    (hprepared : ∀ path b, phase = .prepared path b → path ≠ output ∧ w.files path = none ∧
      ∃ c, files path = some c ∧ c.bytes = b)
    (hreturned : ∀ b, phase = .returned (.ok b) → w.files output = none ∧
      ∃ c, files output = some c ∧ c.bytes = b)
    (hkept : ∀ j path b, j ≠ i → w.phase j = .prepared path b → files path = w.files path)
    (hout : w.files output ≠ none → files output = w.files output) :
    Sound output (w.with i files phase) := by
  have hfresh : ∀ {j path b b'}, phase = .prepared path b → w.phase j ≠ .prepared path b' := by
    intro j path b b' hnew hold
    obtain ⟨-, c, hc, -⟩ := h.temporary _ _ _ hold
    rw [(hprepared _ _ hnew).2.1] at hc
    exact absurd hc (by simp)
  have hfirst : ∀ {j b b'}, phase = .returned (.ok b) → w.phase j ≠ .returned (.ok b') := by
    intro j b b' hnew hold
    obtain ⟨c, hc, -⟩ := h.written _ _ hold
    rw [(hreturned _ hnew).1] at hc
    exact absurd hc (by simp)
  refine ⟨fun j path b hj => ?_, fun j k path b b' hj hk => ?_, fun j b hj =>
    ?_, fun j k b b' hj hk => ?_⟩
  · rcases phase_with hj with ⟨rfl, hphase⟩ | ⟨hne, hphase⟩
    · exact ⟨(hprepared _ _ hphase).1, (hprepared _ _ hphase).2.2⟩
    · obtain ⟨hpath, c, hc, hbytes⟩ := h.temporary _ _ _ hphase
      exact ⟨hpath, c, (hkept _ _ _ hne hphase).trans hc, hbytes⟩
  · rcases phase_with hj with ⟨rfl, hphase⟩ | ⟨-, hphase⟩ <;>
      rcases phase_with hk with ⟨rfl, hphase'⟩ | ⟨-, hphase'⟩
    · rfl
    · exact absurd hphase' (hfresh hphase)
    · exact absurd hphase (hfresh hphase')
    · exact h.apart _ _ _ _ _ hphase hphase'
  · rcases phase_with hj with ⟨rfl, hphase⟩ | ⟨-, hphase⟩
    · exact (hreturned _ hphase).2
    · obtain ⟨c, hc, hbytes⟩ := h.written _ _ hphase
      exact ⟨c, (hout (by rw [hc]; simp)).trans hc, hbytes⟩
  · rcases phase_with hj with ⟨rfl, hphase⟩ | ⟨-, hphase⟩ <;>
      rcases phase_with hk with ⟨rfl, hphase'⟩ | ⟨-, hphase'⟩
    · rfl
    · exact absurd hphase' (hfirst hphase)
    · exact absurd hphase (hfirst hphase')
    · exact h.once _ _ _ _ hphase hphase'

omit [DecidableEq ι] in
/-- What another process creates is no temporary, and no call has returned before it. -/
theorem Sound.appears (h : Sound output w) {c : Contents} (hfree : w.files output = none) :
    Sound output ⟨put w.files output (some c), w.phase⟩ := by
  refine ⟨fun i path b hi => ?_, h.apart, fun i b hi => ?_, h.once⟩
  · obtain ⟨hpath, c', hc', hbytes⟩ := h.temporary i path b hi
    exact ⟨hpath, c', (put_of_ne hpath).trans hc', hbytes⟩
  · obtain ⟨c', hc', -⟩ := h.written i b hi
    rw [hfree] at hc'
    exact absurd hc' (by simp)

variable [Crypto]

omit [DecidableEq ι] [Crypto] in
/-- However the filling ends. -/
theorem prepare_fills {name : String} {filling : Filling} {h t : Host Path} {o : Outcome Error Path}
    (hrun : prepare name output filling h = (o, t)) : Fills (output.parent.join name) h t := by
  rcases o with path | e | _
  · exact (wp_prepare.ok hrun).1
  · exact wp_prepare.error hrun
  · exact wp_prepare.crash hrun

/-- **A file at the output stays**, where no call comes to its move. -/
theorem Step.kept (hstep : Step requests output w e w') (htimely : Timely output w e)
    (hsome : w.files output ≠ none) : w'.files output = w.files output := by
  cases hstep with
  | @opens i h t o hfiles hphase hrun =>
    have hsame := leaves_opening output (requests i) h
    rw [hrun] at hsame
    exact congrFun (hsame.trans hfiles) output
  | @prepares i filling name h t o hfiles hphase hname hrun =>
    exact ((prepare_fills hrun).others output (Ne.symm hname)).trans (congrFun hfiles output)
  | persists _ _ _ => exact absurd htimely hsome
  | dies _ => rfl
  | appears hfree => exact absurd hfree hsome

/-- A file appears at the output only when another process creates it or a call comes to its
move. -/
theorem Step.free (hstep : Step requests output w e w') (hquiet : e = .quiet)
    (hfree : w.files output = none) : w'.files output = none := by
  cases hstep with
  | @opens i h t o hfiles hphase hrun =>
    have hsame := leaves_opening output (requests i) h
    rw [hrun] at hsame
    exact (congrFun (hsame.trans hfiles) output).trans hfree
  | @prepares i filling name h t o hfiles hphase hname hrun =>
    exact (((prepare_fills hrun).others output (Ne.symm hname)).trans
      (congrFun hfiles output)).trans hfree
  | persists => exact nomatch hquiet
  | dies => exact hfree
  | appears => exact nomatch hquiet

/-- **What a call has found when it looked** still holds when it comes to its move, if no process
has created a file at the output and no other call has come to its move since. -/
theorem timely_of_look {i : ι} {filling : Filling} {host t : Host Path} {es : List (Event ι)}
    {u : World ι} (hquiet : host.Quiet)
    (hlook : (requests i).opening output host = (.ok filling, t))
    (hrun : Run (Step requests output) (w.with i t.files (.opened filling)) es u)
    (hes : ∀ e ∈ es, e = .quiet) : Timely output u (.persisted i) := by
  have hsame := leaves_opening output (requests i) host
  rw [hlook] at hsame
  have hfree : (w.with i t.files (.opened filling)).files output = none :=
    (congrFun hsame output).trans (opening_found_none hquiet hlook)
  exact hrun.frame hfree hes fun _ _ _ hnone he hstep => hstep.free he hnone

theorem Sound.step (h : Sound output w) (hstep : Step requests output w e w')
    (htimely : Timely output w e) : Sound output w' := by
  have hout := hstep.kept htimely
  cases hstep with
  | @opens i host t o hfiles hphase hrun =>
    have hsame := leaves_opening output (requests i) host
    rw [hrun] at hsame
    refine h.with (fun _ _ hnew => ?_) (fun _ hnew => ?_) (fun _ path _ _ _ => ?_) hout
    · rcases o with filling | e | _ <;> exact absurd hnew (by simp [afterOpening])
    · rcases o with filling | e | _ <;> exact absurd hnew (by simp [afterOpening])
    · exact congrFun (hsame.trans hfiles) path
  | @prepares i filling name host t o hfiles hphase hname hrun =>
    have hfills := prepare_fills hrun
    refine h.with (fun path b hnew => ?_) (fun _ hnew => ?_) (fun j path b _ hj => ?_) hout
    · rcases o with temporary | e | _
      · obtain ⟨rfl, rfl⟩ := Phase.prepared.inj hnew
        obtain ⟨-, rfl, hfree, hsome⟩ := wp_prepare.ok hrun
        obtain ⟨c, hc⟩ := Option.ne_none_iff_exists'.mp hsome
        exact ⟨hname, (congrFun hfiles _).symm.trans hfree, c, hc, by rw [hc]; rfl⟩
      · exact absurd hnew (by simp [afterPreparing])
      · exact absurd hnew (by simp [afterPreparing])
    · rcases o with filling | e | _ <;> exact absurd hnew (by simp [afterPreparing])
    · obtain ⟨-, c, hc, -⟩ := h.temporary j path b hj
      rw [← hfiles] at hc ⊢
      by_cases hpath : path = output.parent.join name
      · rw [hpath] at hc ⊢
        exact hfills.kept (by rw [hc]; simp)
      · exact hfills.others path hpath
  | @persists i temporary bytes host t o hfiles hphase hrun =>
    obtain ⟨-, c, hc, hbytes⟩ := h.temporary i temporary bytes hphase
    rw [← hfiles] at hc
    obtain ⟨hothers, hmoved⟩ := persistOutput_files hc hrun
    refine h.with (fun _ _ hnew => ?_) (fun b hnew => ?_) (fun j path b hne hj => ?_) hout
    · rcases o with ⟨⟩ | e | _ <;> exact absurd hnew (by simp [afterPersisting])
    · rcases o with ⟨⟩ | e | _
      · refine ⟨htimely, _, hmoved rfl, ?_⟩
        rw [← Except.ok.inj (Phase.returned.inj hnew)]
        exact hbytes
      · exact absurd hnew (by simp [afterPersisting])
      · exact absurd hnew (by simp [afterPersisting])
    · have hpath : path ≠ temporary := by
        rintro rfl
        exact hne (h.apart j i path b bytes hj hphase)
      exact (hothers path hpath (h.temporary j path b hj).1).trans (congrFun hfiles path)
  | @dies i hphase =>
    refine h.with (fun _ _ hnew => absurd hnew (by simp)) (fun _ hnew => absurd hnew (by simp))
      (fun _ _ _ _ _ => rfl) hout
  | appears hfree => exact h.appears hfree

/-! ## When nothing fails -/

def calmHost (files : Files Path) : Host Path := ⟨files, fun _ => .none, fun _ => 1, 0⟩

omit [Crypto] in
theorem quiet_calmHost (files : Files Path) : (calmHost files).Quiet := fun _ => rfl

/-- A call of `write_keyfile_bytes` gets past its look where there is no file. -/
theorem keyfile_opening {bytes : Bytes} {files : Files Path}
    (hvalid : validateKeyfileBytes bytes = .ok ()) (hfree : files output = none) :
    (Request.writeKeyfile bytes).opening output (calmHost files) =
      (.ok (writeFilling bytes), (calmHost files).tick files) := by
  show (Prog.ofExcept (validateKeyfileBytes bytes) >>= _) _ = _
  rw [hvalid]
  exact bind_ok (refuseExisting_ok (quiet_calmHost files) (Or.inr hfree))

theorem Step.keyfileOpens {i : ι} {bytes : Bytes} (hrequest : requests i = .writeKeyfile bytes)
    (hvalid : validateKeyfileBytes bytes = .ok ()) (hready : w.phase i = .ready)
    (hfree : w.files output = none) :
    Step requests output w .quiet (w.with i w.files (.opened (writeFilling bytes))) := by
  have hrun : (requests i).opening output (calmHost w.files) =
      (.ok (writeFilling bytes), (calmHost w.files).tick w.files) := by
    rw [hrequest]
    exact keyfile_opening hvalid hfree
  exact .opens rfl hready hrun

/-- It is refused where there is a file. -/
theorem Step.keyfileRefused {i : ι} {bytes : Bytes} {c : Contents}
    (hrequest : requests i = .writeKeyfile bytes) (hvalid : validateKeyfileBytes bytes = .ok ())
    (hready : w.phase i = .ready) (hhas : w.files output = some c) :
    Step requests output w .quiet
      (w.with i w.files (.returned (.error (.outputExists output.display)))) := by
  have hrun : (requests i).opening output (calmHost w.files) =
      (.error (.outputExists output.display), (calmHost w.files).tick w.files) := by
    rw [hrequest]
    show (Prog.ofExcept (validateKeyfileBytes bytes) >>= _) _ = _
    rw [hvalid]
    show (refuseExisting (.outputExists output.display) output false >>= fun _ =>
      pure (writeFilling bytes) : FileProg Filling) (calmHost w.files) = _
    refine bind_error ?_
    unfold refuseExisting
    rw [bind_ok (pathExists_ok (quiet_calmHost w.files).fault)]
    change (if ((w.files output).isSome && !false) = true then _ else _ : FileProg Unit) _ = _
    rw [hhas]
    rfl
  exact .opens rfl hready hrun

/-- It fills a temporary under a name that is free. -/
theorem Step.keyfilePrepares {i : ι} {bytes : Bytes} (name : String)
    (hopened : w.phase i = .opened (writeFilling bytes)) (hname : output.parent.join name ≠ output)
    (hfree : w.files (output.parent.join name) = none) :
    Step requests output w .quiet
      (w.with i (put w.files (output.parent.join name) (some ⟨bytes, false⟩))
      (.prepared (output.parent.join name) bytes)) := by
  have hquiet := quiet_calmHost w.files
  have hfills : wp (prepare name output (writeFilling bytes)) (.only fun path t =>
      path = output.parent.join name ∧
        t.files = put w.files (output.parent.join name) (some ⟨bytes, false⟩))
          (calmHost w.files) := by
    unfold prepare newIn
    rw [wp_bind]
    refine wp_of_ok (change_ok hquiet.fault rfl) ?_
    refine (wp_bind _ _ _ _).mpr ((wp_bind _ _ _ _).mpr ?_)
    refine wp_of_ok (createNew_ok (hquiet.tick _).fault hfree) ((wp_pure _ _ _).mpr ?_)
    refine (wp_bind _ _ _ _).mpr (wp_mono (dropping_ok (P := fun _ t => t.files =
      put w.files (output.parent.join name) (some ⟨bytes, false⟩)) ?_) (fun _ t ht => ?_)
      (fun _ _ hfalse => hfalse) fun _ hfalse => hfalse)
    · refine wp_of_ok (write_ok ((hquiet.tick _).tick _).fault) ?_
      show append (put w.files (output.parent.join name) (some ⟨[], false⟩)) _ bytes = _
      rw [append_eq (put_self _ _ _), put_put]
      rfl
    · exact (wp_pure _ _ _).mpr ⟨rfl, ht⟩
  obtain ⟨_, t, hrun, rfl, hfiles⟩ := wp_only.mp hfills
  have hstep : Step requests output w .quiet _ := .prepares rfl hopened hname hrun
  rwa [afterPreparing, hfiles, put_self] at hstep

/-- It moves the temporary to the output, whatever is there. -/
theorem Step.keyfilePersists {i : ι} {bytes : Bytes} {temporary : Path} {synced : Bool}
    (hprepared : w.phase i = .prepared temporary bytes) (hne : output ≠ temporary)
    (hhas : w.files temporary = some ⟨bytes, synced⟩) :
    Step requests output w (.persisted i)
      (w.with i (put (put w.files temporary none) output (some ⟨bytes, true⟩))
        (.returned (.ok bytes))) := by
  have hmoves : wp (persistOutput temporary output false) (.only fun _ t =>
      t.files = put (put w.files temporary none) output (some ⟨bytes, true⟩)) (calmHost w.files) :=
    dropping_ok (settleTemporary_ok (quiet_calmHost w.files) hne ⟨synced, hhas⟩)
  obtain ⟨_, t, hrun, hfiles⟩ := wp_only.mp hmoves
  have hstep : Step requests output w (.persisted i) _ := .persists rfl hprepared hrun
  rwa [hfiles] at hstep

end

/-! ## Two calls -/

def outputPath : Path := ["key.orykey"]

/-- What each of the two is asked to write. -/
def sampleCall (first : Bool) : Bytes :=
  encodeKeyfileHeader default (.of 16 [if first then 1 else 2]) (.of 24 []) ++
    List.replicate wrappedKeySize 0

def sampleRequests (first : Bool) : Request := .writeKeyfile (sampleCall first)

theorem sampleCall_valid (first : Bool) : validateKeyfileBytes (sampleCall first) = .ok () := by
  cases first <;> decide +kernel

def sampleTemporary (first : Bool) : Path := [if first then "first.tmp" else "second.tmp"]

/-- The call has looked, has filled its temporary, has moved it. -/
def World.look (w : World Bool) (first : Bool) : World Bool :=
  w.with first w.files (.opened (writeFilling (sampleCall first)))

def World.fill (w : World Bool) (first : Bool) : World Bool :=
  w.with first (put w.files (sampleTemporary first) (some ⟨sampleCall first, false⟩))
    (.prepared (sampleTemporary first) (sampleCall first))

def World.move (w : World Bool) (first : Bool) : World Bool :=
  w.with first
    (put (put w.files (sampleTemporary first) none) outputPath (some ⟨sampleCall first, true⟩))
    (.returned (.ok (sampleCall first)))

section

variable {w : World Bool} {first : Bool}

theorem fill_self : (w.fill first).files (sampleTemporary first) = some ⟨sampleCall first, false⟩ :=
  put_self _ _ _

theorem fill_of_ne {p : Path} (h : p ≠ sampleTemporary first) :
    (w.fill first).files p = w.files p :=
  put_of_ne h

theorem move_self : (w.move first).files outputPath = some ⟨sampleCall first, true⟩ :=
  put_self (put w.files (sampleTemporary first) none) outputPath (some ⟨sampleCall first, true⟩)

theorem move_of_ne {p : Path} (h : p ≠ sampleTemporary first) (hout : p ≠ outputPath) :
    (w.move first).files p = w.files p :=
  (put_of_ne hout).trans (put_of_ne h)

variable [Crypto]

theorem look_step (hready : w.phase first = .ready) (hfree : w.files outputPath = none) :
    Step sampleRequests outputPath w .quiet (w.look first) :=
  .keyfileOpens rfl (sampleCall_valid first) hready hfree

theorem fill_step (hopened : w.phase first = .opened (writeFilling (sampleCall first)))
    (hfree : w.files (sampleTemporary first) = none) :
    Step sampleRequests outputPath w .quiet (w.fill first) := by
  cases first
  · exact .keyfilePrepares "second.tmp" hopened (by decide) hfree
  · exact .keyfilePrepares "first.tmp" hopened (by decide) hfree

theorem move_step {synced : Bool}
    (hprepared : w.phase first = .prepared (sampleTemporary first) (sampleCall first))
    (hhas : w.files (sampleTemporary first) = some ⟨sampleCall first, synced⟩) :
    Step sampleRequests outputPath w (.persisted first) (w.move first) :=
  .keyfilePersists hprepared (by cases first <;> decide) hhas

end

/-- **Without overwriting nothing is replaced**, in every run in which calls come to their move only
while there is no file at the output: at most one call returns without an error, what it has written
is there, and a file that is there stays. -/
theorem nothing_replaced [Crypto] {requests : ι → Request} {output : Path} {files : Files Path}
    {es : List (Event ι)} {w : World ι}
    (hrun : Run (fun w e w' => Step requests output w e w' ∧ Timely output w e)
      (.start ι files) es w) :
    (∀ i j b b', w.phase i = .returned (.ok b) → w.phase j = .returned (.ok b') → i = j) ∧
      (∀ i b, w.phase i = .returned (.ok b) → ∃ c, w.files output = some c ∧ c.bytes = b) ∧
      ∀ es' w', Run (fun w e w' => Step requests output w e w' ∧ Timely output w e) w es' w' →
        w.files output ≠ none → w'.files output = w.files output := by
  have hsound : Sound output w :=
    hrun.invariant (sound_start output files) fun _ _ _ h hstep => h.step hstep.1 hstep.2
  refine ⟨hsound.once, hsound.written, fun es' w' hrest hsome => ?_⟩
  refine hrest.invariant (P := fun w' => w'.files output = w.files output) rfl
    fun u e v hu hstep => ?_
  rw [hstep.1.kept hstep.2 (by rwa [hu]), hu]

/-- One call after the other: the first goes through, and the second is refused. -/
theorem nothing_replaced_refused :
    let _ := tableCrypto []
    ∃ es w, Run (fun w e w' => Step sampleRequests outputPath w e w' ∧ Timely outputPath w e)
        (.start Bool fun _ => none) es w ∧
      w.phase true = .returned (.ok (sampleCall true)) ∧
      w.phase false = .returned (.error (.outputExists outputPath.display)) ∧
      ∃ c, w.files outputPath = some c ∧ c.bytes = sampleCall true := by
  let _ := tableCrypto []
  generalize hlooked : (World.start Bool fun _ => none).look true = looked
  have hopened : looked.phase true = .opened (writeFilling (sampleCall true)) := by
    rw [← hlooked]
    rfl
  have hnone : looked.files = fun _ => none := by
    rw [← hlooked]
    rfl
  have hlook : Step sampleRequests outputPath (.start Bool fun _ => none) .quiet looked := by
    rw [← hlooked]
    exact look_step rfl rfl
  have hfill := fill_step hopened (congrFun hnone _)
  have hmove : Step sampleRequests outputPath (looked.fill true) (.persisted true)
      ((looked.fill true).move true) := move_step rfl fill_self
  -- nothing has appeared since the look
  have htimely : Timely outputPath (looked.fill true) (.persisted true) := by
    have hopening : (sampleRequests true).opening outputPath (calmHost fun _ => none) =
        (.ok (writeFilling (sampleCall true)), (calmHost fun _ => none).tick fun _ => none) :=
      keyfile_opening (sampleCall_valid true) rfl
    have hafter : Run (Step sampleRequests outputPath) ((World.start Bool fun _ => none).look true)
        [.quiet] (looked.fill true) := by
      rw [hlooked]
      exact Run.refl.step hfill
    exact timely_of_look (quiet_calmHost _) hopening hafter fun e he => List.mem_singleton.mp he
  have hready : ((looked.fill true).move true).phase false = .ready := by
    rw [← hlooked]
    rfl
  have hrefused : Step sampleRequests outputPath ((looked.fill true).move true) .quiet
      (((looked.fill true).move true).with false ((looked.fill true).move true).files
        (.returned (.error (.outputExists outputPath.display)))) :=
    .keyfileRefused rfl (sampleCall_valid false) hready move_self
  have hrun : Run (fun w e w' => Step sampleRequests outputPath w e w' ∧ Timely outputPath w e)
      (.start Bool fun _ => none) [.quiet, .quiet, .persisted true, .quiet] _ :=
    (((Run.refl.step ⟨hlook, trivial⟩).step ⟨hfill, trivial⟩).step ⟨hmove, htimely⟩).step
      ⟨hrefused, trivial⟩
  exact ⟨_, _, hrun, rfl, rfl, (nothing_replaced hrun).2.1 true _ rfl⟩

/-- Two calls look one after the other, and then both go on: both return, and the second has
replaced what the first has written. -/
theorem replaced_output :
    let _ := tableCrypto []
    ∃ es w w', Run (Step sampleRequests outputPath) (.start Bool fun _ => none) es w ∧
      Step sampleRequests outputPath w (.persisted false) w' ∧
      w.files outputPath = some ⟨sampleCall true, true⟩ ∧
      w'.files outputPath = some ⟨sampleCall false, true⟩ ∧ sampleCall true ≠ sampleCall false ∧
      ∀ first, w'.phase first = .returned (.ok (sampleCall first)) := by
  let _ := tableCrypto []
  generalize hlooked : ((World.start Bool fun _ => none).look true).look false = looked
  have hopened : ∀ first, looked.phase first = .opened (writeFilling (sampleCall first)) := by
    rw [← hlooked]
    rintro (_ | _) <;> rfl
  have hnone : looked.files = fun _ => none := by
    rw [← hlooked]
    rfl
  have hrun : Run (Step sampleRequests outputPath) (.start Bool fun _ => none)
    [.quiet, .quiet] looked := by
    rw [← hlooked]
    exact (Run.refl.step (look_step rfl rfl)).step (look_step rfl rfl)
  have hfirst := fill_step (hopened true) (congrFun hnone _)
  have hsecond :
    Step sampleRequests outputPath (looked.fill true) .quiet ((looked.fill true).fill false) :=
    fill_step (hopened false) ((fill_of_ne (by decide)).trans (congrFun hnone _))
  have hmove : Step sampleRequests outputPath ((looked.fill true).fill false) (.persisted true)
      (((looked.fill true).fill false).move true) :=
    move_step rfl ((fill_of_ne (by decide)).trans fill_self)
  have hreplace : Step sampleRequests outputPath (((looked.fill true).fill false).move true)
      (.persisted false) ((((looked.fill true).fill false).move true).move false) :=
    move_step rfl ((move_of_ne (by decide) (by decide)).trans fill_self)
  refine ⟨_, _, _, ((hrun.step hfirst).step hsecond).step hmove, hreplace, move_self, move_self,
    by decide +kernel, ?_⟩
  rintro (_ | _) <;> rfl

end Writers
end OrIsyVra
