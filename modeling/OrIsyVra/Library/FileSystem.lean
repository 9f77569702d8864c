import OrIsyVra.Library.DurableFile

/-!
# Files under their paths

The part of a file system a program sees that creates, fills, replaces and removes whole files.  A
`Host` has a file or nothing at each path; directories are not represented.  A file carries its
bytes and whether they have been synced: a crash leaves a file wherever one was, with the bytes of a
synced one and with any bytes in the others (`Survives`).

Every call takes one tick of the clock, and `faults` says what becomes of the call of each tick: it
goes through, it returns an error, or the process dies in it.  Creating, syncing, removing and
renaming happen as a whole or not at all (`change`), and renaming replaces what is at its target; of
a write that is cut short a first part is done.  `pathExists` answers `false` when the call fails,
as the test it models does.  A read takes as many bytes as `reads` grants, at least one.

The rules `wp_change`, `wp_write`, `wp_inspect`, … say what a call can do, each case with what the
script has at the tick of the call.  `outside` is the frame of a program that has one file open:
reading, and writing to that file, leave everything else as it is.  A program that creates files
keeps all that were there and that it is not to write (`Spared`).
-/

namespace FileSystem

open ByteString FaultProgram
open DurableFile (IoFailure IoError)

/-! ## Files -/

/-- A file: its bytes, and whether they are on the disk. -/
structure Contents where
  bytes : Bytes
  synced : Bool
  deriving DecidableEq, Repr

/-- What a crash may leave at a path: a file where there was one, and its bytes if they were
synced. -/
def Survives : Option Contents → Option Bytes → Prop
  | none, found => found = none
  | some c, found => ∃ bs, found = some bs ∧ (c.synced = true → bs = c.bytes)

theorem Survives.of_synced {c : Contents} {found : Option Bytes} (h : Survives (some c) found)
    (hc : c.synced = true) : found = some c.bytes := by
  obtain ⟨bs, rfl, hbs⟩ := h
  rw [hbs hc]

/-- The files, by path. -/
abbrev Files (π : Type) := π → Option Contents

section

variable {π : Type} [DecidableEq π]

/-- The files with another entry at a path. -/
def put (files : Files π) (path : π) (c : Option Contents) : Files π := fun p =>
  if p = path then c else files p

@[simp] theorem put_self (files : Files π) (path : π) (c : Option Contents) :
    put files path c path = c := if_pos rfl

theorem put_of_ne {files : Files π} {path p : π} {c : Option Contents} (h : p ≠ path) :
    put files path c p = files p := if_neg h

/-- What is put at a path hides what was there. -/
theorem put_congr {files files' : Files π} {path : π} (c : Option Contents)
    (h : ∀ p, p ≠ path → files p = files' p) : put files path c = put files' path c := by
  funext p
  by_cases hp : p = path
  · rw [hp, put_self, put_self]
  · rw [put_of_ne hp, put_of_ne hp, h p hp]

/-- Files that differ at a path only become the same when the entry is put there. -/
theorem put_eq {files files' : Files π} {path : π} {c : Option Contents} (h : files path = c)
    (hothers : ∀ p, p ≠ path → files' p = files p) : put files' path c = files := by
  funext p
  by_cases hp : p = path
  · rw [hp, put_self, h]
  · rw [put_of_ne hp, hothers p hp]

theorem put_eq_self {files : Files π} {path : π} {c : Option Contents} (h : files path = c) :
    put files path c = files :=
  put_eq h fun _ _ => rfl

theorem put_put (files : Files π) (path : π) (c c' : Option Contents) :
    put (put files path c) path c' = put files path c' :=
  put_congr c' fun _ hp => put_of_ne hp

/-- The files with bytes added to the one at a path.  The writer has it open: if it is gone from the
path, nothing is to be seen of the write. -/
def append (files : Files π) (path : π) (bs : Bytes) : Files π :=
  match files path with
  | none => files
  | some c => put files path (some ⟨c.bytes ++ bs, false⟩)

theorem append_eq {files : Files π} {path : π} {c : Contents}
    (h : files path = some c) (bs : Bytes) :
    append files path bs = put files path (some ⟨c.bytes ++ bs, false⟩) := by
  rw [append, h]

theorem append_of_ne {files : Files π} {path p : π} (h : p ≠ path) (bs : Bytes) :
    append files path bs p = files p := by
  rcases hc : files path with _ | c
  · rw [append, hc]
  · rw [append_eq hc, put_of_ne h]

end

/-! ## Hosts -/

/-- What becomes of a call. -/
inductive Fault where
  /-- It goes through. -/
  | none
  /-- It returns an error; of a write the first `part` bytes are done. -/
  | fail (part : ℕ)
  /-- The process dies in it; of a write the first `part` bytes are done, any other call is done
  when `part` is not zero. -/
  | kill (part : ℕ)
  deriving DecidableEq, Repr

/-- The call is done, whether or not the program gets to know. -/
def Fault.done : Fault → Bool
  | none => true
  | fail _ => false
  | kill part => part != 0

/-- The files, what becomes of the call of each tick, how much a read takes, and the time. -/
structure Host (π : Type) where
  files : Files π
  faults : ℕ → Fault
  reads : ℕ → ℕ
  clock : ℕ

variable {π ε α : Type}

namespace Host

/-- What becomes of the next call. -/
def fault (h : Host π) : Fault := h.faults h.clock

/-- One call later, with these files. -/
def tick (h : Host π) (files : Files π) : Host π := { h with files := files, clock := h.clock + 1 }

/-- After `n` calls that changed nothing. -/
def wait (h : Host π) (n : ℕ) : Host π := { h with clock := h.clock + n }

@[simp] theorem files_tick (h : Host π) (files : Files π) : (h.tick files).files = files := rfl

@[simp] theorem faults_tick (h : Host π) (files : Files π) : (h.tick files).faults = h.faults := rfl

@[simp] theorem clock_tick (h : Host π) (files : Files π) :
    (h.tick files).clock = h.clock + 1 := rfl

@[simp] theorem fault_tick (h : Host π) (files : Files π) :
    (h.tick files).fault = h.faults (h.clock + 1) := rfl

@[simp] theorem files_wait (h : Host π) (n : ℕ) : (h.wait n).files = h.files := rfl

@[simp] theorem faults_wait (h : Host π) (n : ℕ) : (h.wait n).faults = h.faults := rfl

/-- Every call goes through from now on. -/
def Quiet (h : Host π) : Prop := ∀ n, h.faults n = .none

theorem Quiet.fault {h : Host π} (hq : h.Quiet) : h.fault = .none := hq h.clock

theorem Quiet.tick {h : Host π} (hq : h.Quiet) (files : Files π) : (h.tick files).Quiet := hq

/-- The bytes of the file at a path. -/
def Has (h : Host π) (path : π) (bs : Bytes) : Prop := ∃ synced, h.files path = some ⟨bs, synced⟩

theorem Has.isSome {h : Host π} {path : π} {bs : Bytes} (hhas : h.Has path bs) :
    (h.files path).isSome = true := by
  obtain ⟨synced, hc⟩ := hhas
  rw [hc, Option.isSome_some]

theorem Has.unique {h : Host π} {path : π} {bs bs' : Bytes} (hhas : h.Has path bs)
    (hhas' : h.Has path bs') : bs = bs' := by
  obtain ⟨synced, hc⟩ := hhas
  obtain ⟨synced', hc'⟩ := hhas'
  exact congrArg Contents.bytes (Option.some.inj (hc.symm.trans hc'))

theorem Has.append [DecidableEq π] {h : Host π} {path : π} {bs : Bytes} (hhas : h.Has path bs)
    (more : Bytes) : (h.tick (append h.files path more)).Has path (bs ++ more) := by
  obtain ⟨synced, hc⟩ := hhas
  refine ⟨false, ?_⟩
  rw [files_tick, append_eq hc, put_self]

theorem wait_zero (h : Host π) : h.wait 0 = h := rfl

theorem tick_wait (h : Host π) (n : ℕ) : (h.tick h.files).wait n = h.wait (n + 1) := by
  unfold wait tick
  rw [Nat.add_right_comm, Nat.add_assoc]

end Host

/-! ## Calls -/

variable [IoError ε]

/-- A call that changes the files as a whole or not at all. -/
def change (effect : Files π → Except IoFailure (Files π)) : Prog (Host π) ε Unit := fun h =>
  match h.fault, effect h.files with
  | .none, .ok files => (.ok (), h.tick files)
  | .none, .error f => (.error (IoError.io f), h.tick h.files)
  | .fail _, _ => (.error (IoError.io .device), h.tick h.files)
  | .kill (_ + 1), .ok files => (.crash, h.tick files)
  | .kill _, _ => (.crash, h.tick h.files)

/-- A call that only looks. -/
def inspect (look : Host π → Except IoFailure α) : Prog (Host π) ε α := fun h =>
  match h.fault, look h with
  | .none, .ok a => (.ok a, h.tick h.files)
  | .none, .error f => (.error (IoError.io f), h.tick h.files)
  | .fail _, _ => (.error (IoError.io .device), h.tick h.files)
  | .kill _, _ => (.crash, h.tick h.files)

/-- Whether there is a file; when the call fails the answer is that there is none. -/
def pathExists {ε : Type} (path : π) : Prog (Host π) ε Bool := fun h =>
  match h.fault with
  | .none => (.ok (h.files path).isSome, h.tick h.files)
  | .fail _ => (.ok false, h.tick h.files)
  | .kill _ => (.crash, h.tick h.files)

/-- Create the directories on the way to a path. -/
def makeDirs : Prog (Host π) ε Unit := change fun files => .ok files

/-- All bytes of the file at a path; of a file that is opened, what is to be read. -/
def readFile (path : π) : Prog (Host π) ε Bytes := inspect fun h =>
  match h.files path with
  | none => .error .notFound
  | some c => .ok c.bytes

/-- At most `n` of the bytes to be read, and the rest. -/
def read (rest : Bytes) (n : ℕ) : Prog (Host π) ε (Bytes × Bytes) := inspect fun h =>
  let taken := min n (max 1 (h.reads h.clock))
  .ok (rest.take taken, rest.drop taken)

/-- Exactly `n` of the bytes to be read, and the rest. -/
def readExact (rest : Bytes) (n : ℕ) : Prog (Host π) ε (Bytes × Bytes) := inspect fun _ =>
  if n ≤ rest.length then .ok (rest.take n, rest.drop n) else .error .unexpectedEof

section

variable [DecidableEq π]

/-- Write to the open file at a path. -/
def write (path : π) (bs : Bytes) : Prog (Host π) ε Unit := fun h =>
  match h.fault with
  | .none => (.ok (), h.tick (append h.files path bs))
  | .fail part => (.error (IoError.io .device), h.tick (append h.files path (bs.take part)))
  | .kill part => (.crash, h.tick (append h.files path (bs.take part)))

/-- Wait until the open file at a path is on the disk. -/
def sync (path : π) : Prog (Host π) ε Unit := change fun files =>
  match files path with
  | none => .ok files
  | some c => .ok (put files path (some ⟨c.bytes, true⟩))

/-- Create a file where there is none. -/
def createNew (path : π) : Prog (Host π) ε Unit := change fun files =>
  match files path with
  | none => .ok (put files path (some ⟨[], false⟩))
  | some _ => .error .alreadyExists

def remove (path : π) : Prog (Host π) ε Unit := change fun files =>
  match files path with
  | none => .error .notFound
  | some _ => .ok (put files path none)

/-- Move a file, replacing what is at the target. -/
def rename (source target : π) : Prog (Host π) ε Unit := change fun files =>
  match files source with
  | none => .error .notFound
  | some c => .ok (put (put files source none) target (some c))

/-- Run a program that works on a temporary file; if it returns an error the file is removed, if it
can be. -/
def dropping (temporary : π) (body : Prog (Host π) ε α) : Prog (Host π) ε α := do
  match ← (Prog.attempt body : Prog (Host π) ε (Except ε α)) with
  | .ok a => pure a
  | .error e => do
    let _ ← (Prog.attempt (remove temporary : Prog (Host π) ε Unit) : Prog (Host π) ε _)
    Prog.fail e

end

/-! ## What a call can do -/

variable {h : Host π}

/-- The rule of a change the files allow: it is done as a whole, or not at all. -/
theorem wp_change {effect : Files π → Except IoFailure (Files π)} {files : Files π}
    {Q : Post (Host π) ε Unit} (he : effect h.files = .ok files)
    (hok : h.fault = .none → Q.ok () (h.tick files))
    (herror : h.fault ≠ .none → h.fault.done = false →
      Q.error (IoError.io .device) (h.tick h.files))
    (hkept : h.fault ≠ .none → h.fault.done = false → Q.crash (h.tick h.files))
    (hdone : h.fault ≠ .none → h.fault.done = true → Q.crash (h.tick files)) :
    wp (change effect) Q h := by
  unfold wp change
  rcases hf : h.fault with _ | part | _ | part <;> rw [hf] at hok herror hkept hdone <;> rw [he]
  · exact hok rfl
  · exact herror Fault.noConfusion rfl
  · exact hkept Fault.noConfusion rfl
  · exact hdone Fault.noConfusion rfl

/-- The rule of a change the files do not allow. -/
theorem wp_change_refused {effect : Files π → Except IoFailure (Files π)} {f : IoFailure}
    {Q : Post (Host π) ε Unit} (he : effect h.files = .error f)
    (hrefused : h.fault = .none → Q.error (IoError.io f) (h.tick h.files))
    (herror : h.fault ≠ .none → Q.error (IoError.io .device) (h.tick h.files))
    (hcrash : h.fault ≠ .none → Q.crash (h.tick h.files)) : wp (change effect) Q h := by
  unfold wp change
  rcases hf : h.fault with _ | part | _ | part <;> rw [hf] at hrefused herror hcrash <;> rw [he]
  · exact hrefused rfl
  · exact herror Fault.noConfusion
  · exact hcrash Fault.noConfusion
  · exact hcrash Fault.noConfusion

/-- A call that looks leaves the files alone. -/
theorem wp_inspect {look : Host π → Except IoFailure α} {Q : Post (Host π) ε α}
    (hok : ∀ a, h.fault = .none → look h = .ok a → Q.ok a (h.tick h.files))
    (herror : ∀ f, h.fault ≠ .none ∨ look h = .error f → Q.error (IoError.io f) (h.tick h.files))
    (hcrash : h.fault ≠ .none → Q.crash (h.tick h.files)) : wp (inspect look) Q h := by
  unfold wp inspect
  rcases hf : h.fault with _ | part | part <;> rw [hf] at hok herror hcrash <;>
    rcases hl : look h with f | a
  · exact herror f (Or.inr hl)
  · exact hok a rfl hl
  · exact herror .device (Or.inl Fault.noConfusion)
  · exact herror .device (Or.inl Fault.noConfusion)
  · exact hcrash Fault.noConfusion
  · exact hcrash Fault.noConfusion

omit [IoError ε] in
theorem wp_pathExists {path : π} {Q : Post (Host π) ε Bool}
    (hok : h.fault = .none → Q.ok (h.files path).isSome (h.tick h.files))
    (hfail : (∃ part, h.fault = .fail part) → Q.ok false (h.tick h.files))
    (hcrash : (∃ part, h.fault = .kill part) → Q.crash (h.tick h.files)) :
    wp (pathExists path) Q h := by
  unfold wp pathExists
  rcases hf : h.fault with _ | part | part
  · exact hok hf
  · exact hfail ⟨part, hf⟩
  · exact hcrash ⟨part, hf⟩

theorem wp_makeDirs {Q : Post (Host π) ε Unit} (hok : h.fault = .none → Q.ok () (h.tick h.files))
    (herror : h.fault ≠ .none → Q.error (IoError.io .device) (h.tick h.files))
    (hcrash : h.fault ≠ .none → Q.crash (h.tick h.files)) : wp makeDirs Q h :=
  wp_change rfl hok (fun hf _ => herror hf) (fun hf _ => hcrash hf) fun hf _ => hcrash hf

section

variable [DecidableEq π]

theorem wp_sync {path : π} {c : Contents} {Q : Post (Host π) ε Unit} (hc : h.files path = some c)
    (hok : h.fault = .none → Q.ok () (h.tick (put h.files path (some ⟨c.bytes, true⟩))))
    (herror : h.fault ≠ .none → Q.error (IoError.io .device) (h.tick h.files))
    (hkept : h.fault ≠ .none → Q.crash (h.tick h.files))
    (hdone : h.fault ≠ .none → Q.crash (h.tick (put h.files path (some ⟨c.bytes, true⟩)))) :
    wp (sync path) Q h := by
  have he : (match h.files path with
      | none => .ok h.files
      | some c => .ok (put h.files path (some ⟨c.bytes, true⟩)) : Except IoFailure (Files π)) =
      .ok (put h.files path (some ⟨c.bytes, true⟩)) := by rw [hc]
  exact wp_change he hok (fun hf _ => herror hf) (fun hf _ => hkept hf) fun hf _ => hdone hf

/-- A file is created where there is none, and empty. -/
theorem wp_createNew {path : π} {Q : Post (Host π) ε Unit}
    (hok : h.fault = .none → h.files path = none →
      Q.ok () (h.tick (put h.files path (some ⟨[], false⟩))))
    (hexists : h.fault = .none → h.files path ≠ none →
      Q.error (IoError.io .alreadyExists) (h.tick h.files))
    (herror : h.fault ≠ .none → Q.error (IoError.io .device) (h.tick h.files))
    (hkept : h.fault ≠ .none → Q.crash (h.tick h.files))
    (hdone : h.fault ≠ .none → h.files path = none →
      Q.crash (h.tick (put h.files path (some ⟨[], false⟩)))) : wp (createNew path) Q h := by
  rcases hc : h.files path with _ | c
  · have he : (match h.files path with
        | none => .ok (put h.files path (some ⟨[], false⟩))
        | some _ => .error .alreadyExists : Except IoFailure (Files π)) =
        .ok (put h.files path (some ⟨[], false⟩)) := by rw [hc]
    exact wp_change he (fun hf => hok hf hc) (fun hf _ => herror hf) (fun hf _ => hkept hf)
      fun hf _ => hdone hf hc
  · have he : (match h.files path with
        | none => .ok (put h.files path (some ⟨[], false⟩))
        | some _ => .error .alreadyExists : Except IoFailure (Files π)) =
            .error .alreadyExists := by
      rw [hc]
    refine wp_change_refused he (fun hf => hexists hf ?_) herror hkept
    rw [hc]
    exact Option.some_ne_none c

theorem wp_remove {path : π} {c : Contents} {Q : Post (Host π) ε Unit} (hc : h.files path = some c)
    (hok : h.fault = .none → Q.ok () (h.tick (put h.files path none)))
    (herror : h.fault ≠ .none → h.fault.done = false →
      Q.error (IoError.io .device) (h.tick h.files))
    (hkept : h.fault ≠ .none → h.fault.done = false → Q.crash (h.tick h.files))
    (hdone : h.fault ≠ .none → h.fault.done = true → Q.crash (h.tick (put h.files path none))) :
    wp (remove path) Q h := by
  have he : (match h.files path with
      | none => .error .notFound
      | some _ => .ok (put h.files path none) : Except IoFailure (Files π)) =
      .ok (put h.files path none) := by rw [hc]
  exact wp_change he hok herror hkept hdone

theorem wp_remove_none {path : π} {Q : Post (Host π) ε Unit} (hc : h.files path = none)
    (herror : ∀ f, Q.error (IoError.io f) (h.tick h.files))
    (hcrash : h.fault ≠ .none → Q.crash (h.tick h.files)) : wp (remove path) Q h := by
  have he : (match h.files path with
      | none => .error .notFound
      | some _ => .ok (put h.files path none) : Except IoFailure (Files π)) = .error .notFound := by
    rw [hc]
  exact wp_change_refused he (fun _ => herror _) (fun _ => herror _) hcrash

/-- A rename replaces what is at its target. -/
theorem wp_rename {source target : π} {c : Contents} {Q : Post (Host π) ε Unit}
    (hc : h.files source = some c)
    (hok : h.fault = .none → Q.ok () (h.tick (put (put h.files source none) target (some c))))
    (herror : h.fault ≠ .none → h.fault.done = false →
      Q.error (IoError.io .device) (h.tick h.files))
    (hkept : h.fault ≠ .none → h.fault.done = false → Q.crash (h.tick h.files))
    (hdone : h.fault ≠ .none → h.fault.done = true →
      Q.crash (h.tick (put (put h.files source none) target (some c)))) :
    wp (rename source target) Q h := by
  have he : (match h.files source with
      | none => .error .notFound
      | some c => .ok (put (put h.files source none) target (some c)) :
        Except IoFailure (Files π)) = .ok (put (put h.files source none) target (some c)) := by
          rw [hc]
  exact wp_change he hok herror hkept hdone

theorem wp_rename_none {source target : π} {Q : Post (Host π) ε Unit} (hc : h.files source = none)
    (herror : ∀ f, Q.error (IoError.io f) (h.tick h.files))
    (hcrash : h.fault ≠ .none → Q.crash (h.tick h.files)) : wp (rename source target) Q h := by
  have he : (match h.files source with
      | none => .error .notFound
      | some c => .ok (put (put h.files source none) target (some c)) :
        Except IoFailure (Files π)) = .error .notFound := by rw [hc]
  exact wp_change_refused he (fun _ => herror _) (fun _ => herror _) hcrash

theorem wp_write {path : π} {bs : Bytes} {Q : Post (Host π) ε Unit}
    (hok : h.fault = .none → Q.ok () (h.tick (append h.files path bs)))
    (herror : ∀ part, h.fault ≠ .none →
      Q.error (IoError.io .device) (h.tick (append h.files path (bs.take part))))
    (hcrash : ∀ part, h.fault ≠ .none → Q.crash (h.tick (append h.files path (bs.take part)))) :
    wp (write path bs) Q h := by
  unfold wp write
  rcases hf : h.fault with _ | part | part <;> rw [hf] at hok herror hcrash
  · exact hok rfl
  · exact herror part Fault.noConfusion
  · exact hcrash part Fault.noConfusion

/-- A program on a temporary file may be done in two parts. -/
theorem dropping_bind {β : Type} (temporary : π) (body : Prog (Host π) ε α)
    (f : α → Prog (Host π) ε β) :
    dropping temporary (body >>= f) = dropping temporary body >>= fun a =>
      dropping temporary (f a) := by
  funext h
  unfold dropping
  rw [bind_assoc]
  rcases hbody : body h with ⟨a | e | _, t⟩
  · have hboth : (Prog.attempt (body >>= f) : Prog (Host π) ε (Except ε β)) h =
        (Prog.attempt (f a) : Prog (Host π) ε (Except ε β)) t := by
      unfold Prog.attempt
      rw [FaultProgram.bind_ok hbody]
    rw [FaultProgram.bind_ok (attempt_ok hbody)]
    show Prog.bind _ _ h = Prog.bind _ _ t
    unfold Prog.bind
    rw [hboth]
    rfl
  · rw [FaultProgram.bind_ok (attempt_error hbody),
      FaultProgram.bind_ok (attempt_error (FaultProgram.bind_error hbody))]
    dsimp only
    rw [bind_assoc]
    rfl
  · rw [FaultProgram.bind_crash (attempt_crash hbody),
      FaultProgram.bind_crash (attempt_crash (FaultProgram.bind_crash hbody))]

/-- The rule of a temporary file, with what becomes of the removal. -/
theorem wp_dropping_cases {temporary : π} {body : Prog (Host π) ε α} {Q : Post (Host π) ε α}
    (hbody : wp body ⟨Q.ok, fun e t =>
      (t.fault = .none → t.files temporary ≠ none →
        Q.error e (t.tick (put t.files temporary none))) ∧
        (t.fault ≠ .none ∨ t.files temporary = none → Q.error e (t.tick t.files)) ∧
        Q.crash (t.tick t.files) ∧ Q.crash (t.tick (put t.files temporary none)), Q.crash⟩ h) :
    wp (dropping temporary body) Q h := by
  unfold dropping
  rw [wp_bind, wp_attempt]
  refine wp_mono hbody (fun a t ht => (wp_pure a Q t).mpr ht) (fun e t ht => ?_) fun t ht => ht
  obtain ⟨hremoved, hleft, hkept, hdone⟩ := ht
  show wp (Prog.attempt (remove temporary : Prog (Host π) ε Unit) >>= fun _ => Prog.fail e) Q t
  rw [wp_bind, wp_attempt]
  rcases hc : t.files temporary with _ | c
  · exact wp_remove_none hc (fun _ => (wp_fail e Q _).mpr (hleft (Or.inr hc))) fun _ => hkept
  · have hsome : t.files temporary ≠ none := by
      rw [hc]
      exact Option.some_ne_none c
    exact wp_remove hc (fun hf => (wp_fail e Q _).mpr (hremoved hf hsome))
      (fun hf _ => (wp_fail e Q _).mpr (hleft (Or.inl hf))) (fun _ _ => hkept) fun _ _ => hdone

/-- The same, when it does not matter whether the file is removed. -/
theorem wp_dropping {temporary : π} {body : Prog (Host π) ε α} {Q : Post (Host π) ε α}
    (hbody : wp body ⟨Q.ok, fun e t => ∀ files, files = t.files ∨
      files = put t.files temporary none → Q.error e (t.tick files) ∧
      Q.crash (t.tick files), Q.crash⟩ h) :
    wp (dropping temporary body) Q h := by
  refine wp_dropping_cases (wp_mono hbody (fun _ _ ht => ht) (fun e t ht => ?_) fun _ ht => ht)
  have hkept := ht _ (Or.inl rfl)
  have hdone := ht _ (Or.inr rfl)
  exact ⟨fun _ _ => hdone.1, fun _ => hkept.1, hkept.2, hdone.2⟩

/-- When the removal goes through, the file is gone. -/
theorem wp_dropping_removes {temporary : π} {body : Prog (Host π) ε α} {Q : Post (Host π) ε α}
    (hbody : wp body ⟨Q.ok, fun e t => t.fault = .none ∧
      ∀ files, (∀ p, files p = put t.files temporary none p) →
      Q.error e (t.tick files), Q.crash⟩ h) :
    wp (dropping temporary body) Q h := by
  unfold dropping
  rw [wp_bind, wp_attempt]
  refine wp_mono hbody (fun a t ht => (wp_pure a Q t).mpr ht) (fun e t ht => ?_) fun t ht => ht
  obtain ⟨hf, hgone⟩ := ht
  show wp (Prog.attempt (remove temporary : Prog (Host π) ε Unit) >>= fun _ => Prog.fail e) Q t
  rw [wp_bind, wp_attempt]
  rcases hc : t.files temporary with _ | c
  · refine wp_remove_none hc (fun _ => (wp_fail e Q _).mpr (hgone _ fun p => ?_)) fun hf' =>
      absurd hf hf'
    by_cases hp : p = temporary
    · rw [hp, put_self, hc]
    · rw [put_of_ne hp]
  · exact wp_remove hc (fun _ => (wp_fail e Q _).mpr (hgone _ fun _ => rfl))
      (fun hf' => absurd hf hf') (fun hf' => absurd hf hf') fun hf' => absurd hf hf'

end

/-! ## Calls that go through -/

theorem change_ok {effect : Files π → Except IoFailure (Files π)} {files : Files π}
    (hf : h.fault = .none) (he : effect h.files = .ok files) :
    (change effect : Prog (Host π) ε Unit) h = (.ok (), h.tick files) := by
  rw [change, hf, he]

theorem inspect_ok {look : Host π → Except IoFailure α} {a : α} (hf : h.fault = .none)
    (hl : look h = .ok a) : (inspect look : Prog (Host π) ε α) h = (.ok a, h.tick h.files) := by
  rw [inspect, hf, hl]

omit [IoError ε] in
theorem pathExists_ok {path : π} (hf : h.fault = .none) :
    (pathExists path : Prog (Host π) ε Bool) h = (.ok (h.files path).isSome, h.tick h.files) := by
  rw [pathExists, hf]

/-- A new file cannot be created where there is one. -/
theorem createNew_refused [DecidableEq π] {path : π} {c : Contents} (hf : h.fault = .none)
    (hc : h.files path = some c) :
    (createNew path : Prog (Host π) ε Unit) h =
      (.error (IoError.io .alreadyExists), h.tick h.files) := by
  show change _ h = _
  simp only [change, hf, hc]

theorem createNew_ok [DecidableEq π] {path : π} (hf : h.fault = .none) (hc : h.files path = none) :
    (createNew path : Prog (Host π) ε Unit) h =
      (.ok (), h.tick (put h.files path (some ⟨[], false⟩))) := by
  show change _ h = _
  simp only [change, hf, hc]

theorem write_ok [DecidableEq π] {path : π} {bs : Bytes} (hf : h.fault = .none) :
    (write path bs : Prog (Host π) ε Unit) h = (.ok (), h.tick (append h.files path bs)) := by
  rw [write, hf]

theorem readFile_ok {path : π} {c : Contents} (hf : h.fault = .none) (hc : h.files path = some c) :
    (readFile path : Prog (Host π) ε Bytes) h = (.ok c.bytes, h.tick h.files) :=
  inspect_ok hf (by simp only [hc])

theorem readExact_ok {bs : Bytes} {n : ℕ} (rest : Bytes) (hf : h.fault = .none)
    (hn : bs.length = n) :
    (readExact (bs ++ rest) n : Prog (Host π) ε (Bytes × Bytes)) h =
      (.ok (bs, rest), h.tick h.files) := by
  refine inspect_ok hf ?_
  rw [if_pos (by rw [List.length_append]; omega), List.take_left' hn, List.drop_left' hn]

/-- A read for one byte takes it, if there is one. -/
theorem read_one_ok (rest : Bytes) (hf : h.fault = .none) :
    (read rest 1 : Prog (Host π) ε (Bytes × Bytes)) h =
      (.ok (rest.take 1, rest.drop 1), h.tick h.files) := by
  refine inspect_ok hf ?_
  dsimp only
  rw [Nat.min_eq_left (Nat.le_max_left 1 _)]

/-! ## What a call that returned has done -/

section

variable {t : Host π}

theorem change_eq_ok {effect : Files π → Except IoFailure (Files π)} {u : Unit}
    (hrun : (change effect : Prog (Host π) ε Unit) h = (.ok u, t)) :
    effect h.files = .ok t.files := by
  have hspec : wp (change effect : Prog (Host π) ε Unit)
      (.ifOk fun _ t => effect h.files = .ok t.files) h := by
    rcases he : effect h.files with f | files
    · exact wp_change_refused he (fun _ => trivial) (fun _ => trivial) fun _ => trivial
    · exact wp_change he (fun _ => rfl) (fun _ _ => trivial) (fun _ _ => trivial) fun _ _ => trivial
  exact hspec.ok hrun

/-- A change that returned an error is not done. -/
theorem change_eq_error {effect : Files π → Except IoFailure (Files π)} {e : ε}
    (hrun : (change effect : Prog (Host π) ε Unit) h = (.error e, t)) : t.files = h.files := by
  have hspec : wp (change effect : Prog (Host π) ε Unit)
      ⟨fun _ _ => True, fun _ t => t.files = h.files, fun _ => True⟩ h := by
    rcases he : effect h.files with f | files
    · exact wp_change_refused he (fun _ => rfl) (fun _ => rfl) fun _ => trivial
    · exact wp_change he (fun _ => trivial) (fun _ _ => rfl) (fun _ _ => trivial) fun _ _ => trivial
  exact hspec.error hrun

theorem inspect_eq_ok {look : Host π → Except IoFailure α} {a : α}
    (hrun : (inspect look : Prog (Host π) ε α) h = (.ok a, t)) :
    look h = .ok a ∧ t.files = h.files := by
  have hspec : wp (inspect look : Prog (Host π) ε α)
      (.ifOk fun a t => look h = .ok a ∧ t.files = h.files) h :=
    wp_inspect (fun _ _ hl => ⟨hl, rfl⟩) (fun _ _ => trivial) fun _ => trivial
  exact hspec.ok hrun

omit [IoError ε] in
theorem pathExists_eq_ok {path : π} {found : Bool}
    (hrun : (pathExists path : Prog (Host π) ε Bool) h = (.ok found, t)) : t.files = h.files := by
  have hspec : wp (pathExists path : Prog (Host π) ε Bool) (.ifOk fun _ t => t.files = h.files) h :=
    wp_pathExists (fun _ => rfl) (fun _ => rfl) fun _ => trivial
  exact hspec.ok hrun

theorem makeDirs_eq_ok {u : Unit} (hrun : (makeDirs : Prog (Host π) ε Unit) h = (.ok u, t)) :
    t.files = h.files := (Except.ok.inj (change_eq_ok hrun)).symm

theorem readFile_eq_ok {path : π} {bs : Bytes}
    (hrun : (readFile path : Prog (Host π) ε Bytes) h = (.ok bs, t)) :
    (∃ c, h.files path = some c ∧ bs = c.bytes) ∧ t.files = h.files := by
  obtain ⟨hlook, hfiles⟩ := inspect_eq_ok hrun
  refine ⟨?_, hfiles⟩
  rcases hc : h.files path with _ | c
  · rw [hc] at hlook
    exact absurd hlook (by simp)
  · rw [hc] at hlook
    exact ⟨c, rfl, (Except.ok.inj hlook).symm⟩

variable [DecidableEq π]

theorem write_eq_ok {path : π} {bs : Bytes} {u : Unit}
    (hrun : (write path bs : Prog (Host π) ε Unit) h = (.ok u, t)) :
    t.files = append h.files path bs := by
  have hspec : wp (write path bs : Prog (Host π) ε Unit)
      (.ifOk fun _ t => t.files = append h.files path bs) h :=
    wp_write (fun _ => rfl) (fun _ _ => trivial) fun _ _ => trivial
  exact hspec.ok hrun

theorem sync_eq_ok {path : π} {c : Contents} {u : Unit} (hc : h.files path = some c)
    (hrun : (sync path : Prog (Host π) ε Unit) h = (.ok u, t)) :
    t.files = put h.files path (some ⟨c.bytes, true⟩) := by
  have heffect := change_eq_ok hrun
  simp only [hc] at heffect
  exact (Except.ok.inj heffect).symm

theorem createNew_eq_ok {path : π} {u : Unit}
    (hrun : (createNew path : Prog (Host π) ε Unit) h = (.ok u, t)) :
    h.files path = none ∧ t.files = put h.files path (some ⟨[], false⟩) := by
  have heffect := change_eq_ok hrun
  rcases hc : h.files path with _ | c <;> simp only [hc] at heffect
  · exact ⟨rfl, (Except.ok.inj heffect).symm⟩
  · exact absurd heffect (by simp)

theorem remove_eq_ok {path : π} {u : Unit}
    (hrun : (remove path : Prog (Host π) ε Unit) h = (.ok u, t)) :
    t.files = put h.files path none := by
  have heffect := change_eq_ok hrun
  rcases hc : h.files path with _ | c <;> simp only [hc] at heffect
  · exact absurd heffect (by simp)
  · exact (Except.ok.inj heffect).symm

theorem rename_eq_ok {source target : π} {u : Unit}
    (hrun : (rename source target : Prog (Host π) ε Unit) h = (.ok u, t)) :
    ∃ c, h.files source = some c ∧ t.files = put (put h.files source none) target (some c) := by
  have heffect := change_eq_ok hrun
  rcases hc : h.files source with _ | c <;> simp only [hc] at heffect
  · exact absurd heffect (by simp)
  · exact ⟨c, rfl, (Except.ok.inj heffect).symm⟩

theorem dropping_eq_ok {temporary : π} {body : Prog (Host π) ε α} {a : α}
    (hrun : dropping temporary body h = (.ok a, t)) : body h = (.ok a, t) := by
  obtain ⟨r, u, hattempt, hrest⟩ := bind_eq_ok.mp hrun
  rcases attempt_eq_ok.mp hattempt with ⟨b, rfl, hbody⟩ | ⟨e, rfl, -⟩
  · obtain ⟨rfl, rfl⟩ := pure_eq_ok.mp hrest
    exact hbody
  · obtain ⟨_, _, _, hfail⟩ := bind_eq_ok.mp hrest
    exact absurd hfail fail_ne_ok

end

/-! ## Programs that only look -/

/-- On these files the program finds `r`, when nothing fails, and leaves everything as it is. -/
def Looks (p : Prog (Host π) ε α) (files : Files π) (r : Except ε α) : Prop :=
  ∀ h : Host π, h.Quiet → h.files = files →
    ∃ t : Host π, p h = (Outcome.of r, t) ∧ t.files = files ∧ t.Quiet

namespace Looks

variable {β ε' : Type} {files : Files π} {p : Prog (Host π) ε α} {r : Except ε α}

omit [IoError ε] in
theorem run (hp : Looks p files r) (hq : h.Quiet) (hfiles : h.files = files) :
    (p h).1 = Outcome.of r := by
  obtain ⟨t, hrun, -⟩ := hp h hq hfiles
  rw [hrun]

omit [IoError ε] in
theorem ofExcept (files : Files π) (r : Except ε α) : Looks (Prog.ofExcept r) files r := by
  intro h hq hfiles
  refine ⟨h, ?_, hfiles, hq⟩
  cases r <;> rfl

omit [IoError ε] in
theorem fail (files : Files π) (e : ε) : Looks (Prog.fail e : Prog (Host π) ε α) files (.error e) :=
  ofExcept files (.error e)

omit [IoError ε] in
theorem pure (files : Files π) (a : α) : Looks (Pure.pure a : Prog (Host π) ε α) files (.ok a) :=
  ofExcept files (.ok a)

omit [IoError ε] in
theorem bind_ok {f : α → Prog (Host π) ε β} {a : α} {r : Except ε β} (hp : Looks p files (.ok a))
    (hf : Looks (f a) files r) : Looks (p >>= f) files r := by
  intro h hq hfiles
  obtain ⟨t, hrun, hsame, hquiet⟩ := hp h hq hfiles
  obtain ⟨u, hrest, hsame', hquiet'⟩ := hf t hquiet hsame
  exact ⟨u, (FaultProgram.bind_ok hrun).trans hrest, hsame', hquiet'⟩

omit [IoError ε] in
theorem bind_error {f : α → Prog (Host π) ε β} {e : ε} (hp : Looks p files (.error e)) :
    Looks (p >>= f) files (.error e) := by
  intro h hq hfiles
  obtain ⟨t, hrun, hsame, hquiet⟩ := hp h hq hfiles
  exact ⟨t, FaultProgram.bind_error hrun, hsame, hquiet⟩

omit [IoError ε] in
theorem mapError (f : ε → ε') (hp : Looks p files r) :
    Looks (Prog.mapError f p) files (r.mapError f) := by
  intro h hq hfiles
  obtain ⟨t, hrun, hsame, hquiet⟩ := hp h hq hfiles
  refine ⟨t, ?_, hsame, hquiet⟩
  rcases r with e | a
  · exact mapError_error hrun
  · exact mapError_ok hrun

omit [IoError ε] in
theorem attempt (hp : Looks p files r) :
    Looks (Prog.attempt p : Prog (Host π) ε' (Except ε α)) files (.ok r) := by
  intro h hq hfiles
  obtain ⟨t, hrun, hsame, hquiet⟩ := hp h hq hfiles
  refine ⟨t, ?_, hsame, hquiet⟩
  rcases r with e | a
  · exact attempt_error hrun
  · exact attempt_ok hrun

theorem readFile {path : π} {c : Contents} (hc : files path = some c) :
    Looks (readFile path : Prog (Host π) ε Bytes) files (.ok c.bytes) := by
  intro h hq hfiles
  exact ⟨h.tick h.files, readFile_ok hq.fault (by rw [hfiles, hc]), hfiles, hq.tick _⟩

theorem readExact {bs : Bytes} {n : ℕ} (files : Files π) (rest : Bytes) (hn : bs.length = n) :
    Looks (readExact (bs ++ rest) n : Prog (Host π) ε (Bytes × Bytes)) files (.ok (bs, rest)) := by
  intro h hq hfiles
  exact ⟨h.tick h.files, readExact_ok rest hq.fault hn, hfiles, hq.tick _⟩

omit [IoError ε] in
theorem pathExists (files : Files π) (path : π) :
    Looks (pathExists path : Prog (Host π) ε Bool) files (.ok (files path).isSome) := by
  intro h hq hfiles
  refine ⟨h.tick h.files, ?_, hfiles, hq.tick _⟩
  rw [pathExists_ok hq.fault, hfiles]
  rfl

end Looks

/-! ## Programs with one file open -/

section

variable [DecidableEq π]

/-- Everything but the contents of one file. -/
def outside (path : π) (h : Host π) : (π → Option Contents) × Bool × (ℕ → Fault) :=
  (put h.files path none, (h.files path).isSome, h.faults)

omit [IoError ε] in
/-- A program with one file open changes no other, and the script stays what it was. -/
theorem of_outside_eq {path : π} {t : Host π} (ht : outside path t = outside path h) :
    (∀ p, p ≠ path → t.files p = h.files p) ∧ (t.files path).isSome = (h.files path).isSome ∧
      t.faults = h.faults := by
  refine ⟨fun p hp => ?_, congrArg (·.2.1) ht, congrArg (·.2.2) ht⟩
  have hother := congrFun (congrArg Prod.fst ht) p
  rw [outside, outside] at hother
  dsimp only at hother
  rwa [put_of_ne hp, put_of_ne hp] at hother

theorem leaves_inspect (path : π) (look : Host π → Except IoFailure α) :
    Leaves (outside path) (inspect look : Prog (Host π) ε α) := by
  intro h
  unfold inspect
  split <;> rfl

theorem leaves_readExact (path : π) (rest : Bytes) (n : ℕ) :
    Leaves (outside path) (readExact rest n : Prog (Host π) ε (Bytes × Bytes)) :=
  leaves_inspect path _

theorem leaves_read (path : π) (rest : Bytes) (n : ℕ) :
    Leaves (outside path) (read rest n : Prog (Host π) ε (Bytes × Bytes)) :=
  leaves_inspect path _

theorem outside_append (path : π) (bs : Bytes) (h : Host π) :
    outside path (h.tick (append h.files path bs)) = outside path h := by
  rcases hc : h.files path with _ | c
  · rw [append, hc]
    rfl
  · rw [append_eq hc]
    unfold outside
    rw [Host.files_tick, Host.faults_tick, put_self, hc]
    refine Prod.ext ?_ rfl
    funext p
    dsimp only
    by_cases hp : p = path
    · rw [hp, put_self, put_self]
    · rw [put_of_ne hp, put_of_ne hp, put_of_ne hp]

theorem leaves_write (path : π) (bs : Bytes) :
    Leaves (outside path) (write path bs : Prog (Host π) ε Unit) := by
  intro h
  unfold write
  split
  · exact outside_append path bs h
  · exact outside_append path _ h
  · exact outside_append path _ h

end

/-! ## Programs that spare files -/

section

variable {files : Files π} {kept : Set π}

/-- The files at these paths are what they were. -/
def Spared (files : Files π) (kept : Set π) (h : Host π) : Prop := Set.EqOn h.files files kept

theorem Spared.refl (h : Host π) (kept : Set π) : Spared h.files kept h := fun _ _ => rfl

theorem maintains_inspect (look : Host π → Except IoFailure α) :
    Maintains (Spared files kept) (inspect look : Prog (Host π) ε α) := by
  intro h hs
  unfold inspect
  split <;> exact hs

omit [IoError ε] in
theorem maintains_pathExists (path : π) :
    Maintains (Spared files kept) (pathExists path : Prog (Host π) ε Bool) := by
  intro h hs
  unfold pathExists
  split <;> exact hs

/-- A change whose effect spares the files. -/
theorem maintains_change {effect : Files π → Except IoFailure (Files π)}
    (heffect : ∀ before after, Set.EqOn before files kept → effect before = .ok after →
      Set.EqOn after files kept) :
    Maintains (Spared files kept) (change effect : Prog (Host π) ε Unit) := by
  intro h hs
  have hspec : wp (change effect : Prog (Host π) ε Unit) ⟨fun _ t => Spared files kept t,
      fun _ t => Spared files kept t, fun t => Spared files kept t⟩ h := by
    rcases he : effect h.files with f | after
    · exact wp_change_refused he (fun _ => hs) (fun _ => hs) fun _ => hs
    · have hafter := heffect _ _ hs he
      exact wp_change he (fun _ => hafter) (fun _ _ => hs) (fun _ _ => hs) fun _ _ => hafter
  rcases hrun : (change effect : Prog (Host π) ε Unit) h with ⟨_ | e | _, t⟩
  · exact hspec.ok hrun
  · exact hspec.error hrun
  · exact hspec.crash hrun

theorem maintains_makeDirs : Maintains (Spared files kept) (makeDirs : Prog (Host π) ε Unit) :=
  maintains_change fun _ _ hs he => Except.ok.inj he ▸ hs

variable [DecidableEq π] {path : π}

omit [IoError ε] in
theorem eqOn_put {before : Files π} {c : Option Contents} (hpath : path ∉ kept)
    (hs : Set.EqOn before files kept) : Set.EqOn (put before path c) files kept := by
  intro p hp
  have hne : p ≠ path := by
    rintro rfl
    exact hpath hp
  rw [put_of_ne hne]
  exact hs hp

theorem maintains_write (hpath : path ∉ kept) (bs : Bytes) :
    Maintains (Spared files kept) (write path bs : Prog (Host π) ε Unit) := by
  refine .of_leaves (leaves_write path bs) fun s t hview hs p hp => ?_
  have hne : p ≠ path := by
    rintro rfl
    exact hpath hp
  rw [(of_outside_eq hview).1 p hne]
  exact hs hp

theorem maintains_sync (hpath : path ∉ kept) :
    Maintains (Spared files kept) (sync path : Prog (Host π) ε Unit) := by
  refine maintains_change fun before after hs he => ?_
  split at he
  · exact Except.ok.inj he ▸ hs
  · exact Except.ok.inj he ▸ eqOn_put hpath hs

theorem maintains_remove (hpath : path ∉ kept) :
    Maintains (Spared files kept) (remove path : Prog (Host π) ε Unit) := by
  refine maintains_change fun before after hs he => ?_
  split at he
  · exact absurd he (by simp)
  · exact Except.ok.inj he ▸ eqOn_put hpath hs

theorem maintains_rename {source : π} (hsource : source ∉ kept) (hpath : path ∉ kept) :
    Maintains (Spared files kept) (rename source path : Prog (Host π) ε Unit) := by
  refine maintains_change fun before after hs he => ?_
  split at he
  · exact absurd he (by simp)
  · exact Except.ok.inj he ▸ eqOn_put hpath (eqOn_put hsource hs)

/-- A file is created at none of the paths that are taken. -/
theorem maintains_createNew (hkept : ∀ p ∈ kept, files p ≠ none) :
    Maintains (Spared files kept) (createNew path : Prog (Host π) ε Unit) := by
  refine maintains_change fun before after hs he => ?_
  split at he
  · next hfree =>
    refine Except.ok.inj he ▸ eqOn_put (fun hpath => hkept path hpath ?_) hs
    rw [← hs hpath, hfree]
  · exact absurd he (by simp)

theorem not_mem_of_createNew {u : Unit} {t : Host π} (hkept : ∀ p ∈ kept, files p ≠ none)
    (hs : Spared files kept h) (hrun : (createNew path : Prog (Host π) ε Unit) h = (.ok u, t)) :
    path ∉ kept := by
  intro hpath
  refine hkept path hpath ?_
  rw [← hs hpath, (createNew_eq_ok hrun).1]

theorem maintains_dropping {body : Prog (Host π) ε α} (hpath : path ∉ kept)
    (hbody : Maintains (Spared files kept) body) :
    Maintains (Spared files kept) (dropping path body) := by
  unfold dropping
  refine .bind hbody.attempt fun r => ?_
  cases r with
  | ok a => exact .pure a
  | error e => exact .bind (maintains_remove hpath).attempt fun _ => .fail e

end

end FileSystem
