import OrIsyVra.Library.Runs
import OrIsyVra.Volume.Invariant

/-!
# A volume over its lifetimes

The transition system of one volume file: a process that has it open makes calls, closes it or dies,
and another one opens it again.  A step is labelled with the call and how it ended.  What can go
wrong is a parameter, the `Environment`: which faults the script of a call may hold, what a crash
makes of the file, and which calls are made.
-/

namespace OrIsyVra.Volume

open ByteString MachineWord DurableFile FaultProgram Runs

/-! ## Calls -/

/-- A call on an open volume. -/
inductive Call where
  | readBlock (blockIndex : UInt64)
  | writeBlocks (blocks : List (UInt64 × Bytes))
  | markClean
  | markDirty
  | sync
  deriving DecidableEq, Repr

/-- What a call returns. -/
inductive Reply where
  | block (content : Option Bytes)
  | generations (gens : List UInt64)
  | done
  deriving DecidableEq, Repr

def Call.run [Crypto] : Call → Prog Session VolumeError Reply
  | .readBlock blockIndex => Reply.block <$> Volume.readBlock blockIndex
  | .writeBlocks blocks => Reply.generations <$> Volume.writeBlocks blocks
  | .markClean => (fun _ => Reply.done) <$> Volume.markClean
  | .markDirty => (fun _ => Reply.done) <$> Volume.markDirty
  | .sync => (fun _ => Reply.done) <$> Volume.sync

/-- The calls that change a volume. -/
def Call.isUpdate : Call → Bool
  | .writeBlocks _ => true
  | .markClean => true
  | .markDirty => true
  | _ => false

/-! ## Worlds and steps -/

/-- The volume is open in a process, or no process has it open. -/
inductive World where
  | live (s : Session)
  | down (file : Device Sealed)

/-- The process that has the volume open. -/
def World.session? : World → Option Session
  | .live s => some s
  | .down _ => none

/-- What a step does, and how its call ended. -/
inductive Event where
  | call (c : Call) (o : Outcome VolumeError Reply)
  | close
  | reopen (o : Outcome VolumeError Unit)
  | powerCut
  deriving DecidableEq, Repr

/-- What can happen to a volume: the faults a script may hold, what a crash makes of the file, and
the calls and opens that are made, each in the state and with the script it is made with. -/
structure Environment where
  allows : Fault → Prop
  crash : Device Sealed → Device Sealed → Prop
  permits : Session → Call → Prop
  opens : Device Sealed → Prop

/-- The file with a script for the next call. -/
def script (fs : List Fault) (file : Device Sealed) : Device Sealed := { file with faults := fs }

/-- The session with a script for the next call. -/
def Session.script (fs : List Fault) (s : Session) : Session :=
  { s with file := Volume.script fs s.file }

@[simp] theorem disk_script (fs : List Fault) (file : Device Sealed) :
    (script fs file).disk = file.disk := rfl

@[simp] theorem trace_script (fs : List Fault) (file : Device Sealed) :
    (script fs file).trace = file.trace := rfl

@[simp] theorem present_script (fs : List Fault) (file : Device Sealed) :
    (script fs file).present = file.present := rfl

@[simp] theorem faults_script (fs : List Fault) (file : Device Sealed) :
    (script fs file).faults = fs := rfl

@[simp] theorem Session.volume_script (fs : List Fault) (s : Session) :
    (s.script fs).volume = s.volume := rfl

@[simp] theorem Session.file_script (fs : List Fault) (s : Session) :
    (s.script fs).file = Volume.script fs s.file := rfl

variable [Crypto]

/-- One step of the volume's life, opened with the key `master`. -/
inductive Step (env : Environment) (master : Bytes) : World → Event → World → Prop where
  /-- A call returns, with a value or an error. -/
  | call {s s' : Session} {c : Call} {fs : List Fault} {o : Outcome VolumeError Reply} :
      env.permits (s.script fs) c → (∀ f ∈ fs, env.allows f) → c.run (s.script fs) = (o, s') →
      o ≠ .crash → Step env master (.live s) (.call c o) (.live s')
  /-- A call is cut short by a crash. -/
  | crashed {s s' : Session} {c : Call} {fs : List Fault} {file : Device Sealed} :
      env.permits (s.script fs) c → (∀ f ∈ fs, env.allows f) → c.run (s.script fs) = (.crash, s') →
      env.crash s'.file file → Step env master (.live s) (.call c .crash) (.down file)
  | close {s : Session} : Step env master (.live s) .close (.down s.file)
  /-- The volume is opened again. -/
  | opened {file file' : Device Sealed} {v : Volume} {fs : List Fault} :
      env.opens (script fs file) → (∀ f ∈ fs, env.allows f) →
      openVolume master (script fs file) = (.ok v, file') →
      Step env master (.down file) (.reopen (.ok ())) (.live ⟨v, file'⟩)
  | openFailed {file file' : Device Sealed} {e : VolumeError} {fs : List Fault} :
      env.opens (script fs file) → (∀ f ∈ fs, env.allows f) →
      openVolume master (script fs file) = (.error e, file') →
      Step env master (.down file) (.reopen (.error e)) (.down file')
  | openCrashed {file file' file'' : Device Sealed} {fs : List Fault} :
      env.opens (script fs file) → (∀ f ∈ fs, env.allows f) →
      openVolume master (script fs file) = (.crash, file') →
      env.crash file' file'' → Step env master (.down file) (.reopen .crash) (.down file'')
  /-- A crash between the calls. -/
  | cutLive {s : Session} {file : Device Sealed} : env.crash s.file file →
      Step env master (.live s) .powerCut (.down file)
  | cutDown {file file' : Device Sealed} : env.crash file file' →
      Step env master (.down file) .powerCut (.down file')

/-- A step of an environment is one of every environment that admits as much. -/
theorem Step.mono {env env' : Environment} {master : Bytes} {w w' : World} {e : Event}
    (h : Step env master w e w') (hallows : ∀ f, env.allows f → env'.allows f)
    (hcrash : ∀ file file', env.crash file file' → env'.crash file file')
    (hpermits : ∀ s c, env.permits s c → env'.permits s c)
    (hopens : ∀ file, env.opens file → env'.opens file) : Step env' master w e w' := by
  cases h with
  | call hp hfs hrun ho => exact .call (hpermits _ _ hp) (fun f hf => hallows f (hfs f hf)) hrun ho
  | crashed hp hfs hrun hc =>
    exact .crashed (hpermits _ _ hp) (fun f hf => hallows f (hfs f hf)) hrun (hcrash _ _ hc)
  | close => exact .close
  | opened ho hfs hrun => exact .opened (hopens _ ho) (fun f hf => hallows f (hfs f hf)) hrun
  | openFailed ho hfs hrun =>
    exact .openFailed (hopens _ ho) (fun f hf => hallows f (hfs f hf)) hrun
  | openCrashed ho hfs hrun hc =>
    exact .openCrashed (hopens _ ho) (fun f hf => hallows f (hfs f hf)) hrun (hcrash _ _ hc)
  | cutLive hc => exact .cutLive (hcrash _ _ hc)
  | cutDown hc => exact .cutDown (hcrash _ _ hc)

/-! ## Executing a run

The steps again as a function, for runs that are given in full.  A command names a step, the script
of its call and, where the call may be cut short, whether the pending updates survive. -/

/-- The file after a crash that keeps all that is pending, or nothing of it. -/
def cutFile (keep : Bool) (file : Device Sealed) : Device Sealed :=
  { file with disk := ⟨if keep then file.disk.view else file.disk.durable, []⟩ }

inductive Command where
  | call (c : Call) (fs : List Fault) (keep : Bool)
  | close
  | reopen (fs : List Fault) (keep : Bool)
  | cut (keep : Bool)

def Command.faults : Command → List Fault
  | .call _ fs _ => fs
  | .reopen fs _ => fs
  | _ => []

def Command.exec (master : Bytes) : Command → World → Option (Event × World)
  | .call c fs keep, .live s =>
    match c.run (s.script fs) with
    | (.ok r, s') => some (.call c (.ok r), .live s')
    | (.error e, s') => some (.call c (.error e), .live s')
    | (.crash, s') => some (.call c .crash, .down (cutFile keep s'.file))
  | .close, .live s => some (.close, .down s.file)
  | .reopen fs keep, .down file =>
    match openVolume master (script fs file) with
    | (.ok v, file') => some (.reopen (.ok ()), .live ⟨v, file'⟩)
    | (.error e, file') => some (.reopen (.error e), .down file')
    | (.crash, file') => some (.reopen .crash, .down (cutFile keep file'))
  | .cut keep, .live s => some (.powerCut, .down (cutFile keep s.file))
  | .cut keep, .down file => some (.powerCut, .down (cutFile keep file))
  | _, _ => none

/-- Execute a command where it passes a check. -/
def Command.guarded (master : Bytes) (check : World → Command → Bool) (w : World) (cmd : Command) :
    Option (Event × World) :=
  if check w cmd then cmd.exec master w else none

/-- Executing a command is a step. -/
theorem Command.exec_step {env : Environment} {master : Bytes} {cmd : Command} {w w' : World}
    {e : Event} (hfaults : ∀ f ∈ cmd.faults, env.allows f)
    (hcrash : ∀ keep file, env.crash file (cutFile keep file))
    (hpermits : ∀ s c fs keep, w = .live s → cmd = .call c fs keep → env.permits (s.script fs) c)
    (hopens : ∀ file fs keep, w = .down file → cmd = .reopen fs keep → env.opens (script fs file))
    (h : cmd.exec master w = some (e, w')) :
    Step env master w e w' := by
  cases cmd with
  | call c fs keep =>
    cases w with
    | down file => exact absurd h (by simp [Command.exec])
    | live s =>
      unfold Command.exec at h
      rcases hrun : c.run (s.script fs) with ⟨r | e' | _, s'⟩ <;>
        simp only [hrun, Option.some.injEq, Prod.mk.injEq] at h <;> obtain ⟨rfl, rfl⟩ := h
      · exact .call (hpermits s c fs keep rfl rfl) hfaults hrun (by simp)
      · exact .call (hpermits s c fs keep rfl rfl) hfaults hrun (by simp)
      · exact .crashed (hpermits s c fs keep rfl rfl) hfaults hrun (hcrash keep _)
  | close =>
    cases w with
    | down file => exact absurd h (by simp [Command.exec])
    | live s =>
      obtain ⟨rfl, rfl⟩ : Event.close = e ∧ World.down s.file = w' := by
        simpa [Command.exec] using h
      exact .close
  | reopen fs keep =>
    cases w with
    | live s => exact absurd h (by simp [Command.exec])
    | down file =>
      unfold Command.exec at h
      rcases hrun : openVolume master (script fs file) with ⟨v | e' | _, file'⟩ <;>
        simp only [hrun, Option.some.injEq, Prod.mk.injEq] at h <;> obtain ⟨rfl, rfl⟩ := h
      · exact .opened (hopens file fs keep rfl rfl) hfaults hrun
      · exact .openFailed (hopens file fs keep rfl rfl) hfaults hrun
      · exact .openCrashed (hopens file fs keep rfl rfl) hfaults hrun (hcrash keep _)
  | cut keep =>
    cases w with
    | live s =>
      obtain ⟨rfl, rfl⟩ : Event.powerCut = e ∧ World.down (cutFile keep s.file) = w' := by
        simpa [Command.exec] using h
      exact .cutLive (hcrash keep _)
    | down file =>
      obtain ⟨rfl, rfl⟩ : Event.powerCut = e ∧ World.down (cutFile keep file) = w' := by
        simpa [Command.exec] using h
      exact .cutDown (hcrash keep _)

/-- **Executing commands is a run.** -/
theorem execute_guarded {env : Environment} {master : Bytes} {check : World → Command → Bool}
    {cmds : List Command} {w w' : World} {es : List Event}
    (hfaults : ∀ cmd ∈ cmds, ∀ f ∈ cmd.faults, env.allows f)
    (hcrash : ∀ keep file, env.crash file (cutFile keep file))
    (hpermits : ∀ s c fs keep, check (.live s) (.call c fs keep) → env.permits (s.script fs) c)
    (hopens : ∀ file fs keep, check (.down file) (.reopen fs keep) → env.opens (script fs file))
    (h : execute (Command.guarded master check) cmds w = some (es, w')) :
    Run (Step env master) w es w' := by
  refine execute_run (fun cmd hcmd w e w' hexec => ?_) h
  unfold Command.guarded at hexec
  split at hexec
  · next hcheck =>
    exact Command.exec_step (hfaults cmd hcmd) hcrash
      (fun s c fs keep hw hcall => hpermits s c fs keep (hw ▸ hcall ▸ hcheck))
      (fun file fs keep hw hopen => hopens file fs keep (hw ▸ hopen ▸ hcheck)) hexec
  · exact absurd hexec (by simp)

/-- A volume fresh from `create`. -/
def createSession (master : Bytes) (options : VolumeOptions) (volumeId salt : FixedBytes 32)
    (d : Device Sealed) : Option Session :=
  match createVolume master options volumeId salt d with
  | (.ok v, file) => some ⟨v, file⟩
  | _ => none

theorem createSession_eq_some {master : Bytes} {options : VolumeOptions}
    {volumeId salt : FixedBytes 32} {d : Device Sealed} {s : Session} :
    createSession master options volumeId salt d = some s ↔
      createVolume master options volumeId salt d = (.ok s.volume, s.file) := by
  unfold createSession
  rcases createVolume master options volumeId salt d with ⟨v | e | _, file⟩
  · cases s
    simp
  · simp
  · simp

/-- A file that does not exist yet. -/
def absentFile : Device Sealed := ⟨⟨[], []⟩, false, 0, [], []⟩

/-- A volume of two blocks, fresh from `create`. -/
def twoBlocks (master : Bytes) : Option Session :=
  createSession master ⟨8192, 4096⟩ (.of 32 [1]) (.of 32 [2]) absentFile

/-! ## Calls that write nothing -/

/-- What a read answers when the file does what it is asked. -/
def readAnswer (v : Volume) (es : List Entry) (blockIndex : UInt64) :
    Outcome VolumeError (Option Bytes) :=
  if blockIndex < v.bootstrap.blockCount then
    match v.index.lookup blockIndex with
    | some record =>
      if record.offset.toNat < maxOffset then .ok (served es blockIndex)
      else .error (.io .offsetTooLarge)
    | none => .ok none
  else .error .blockOutOfRange

/-- **What `read_block` can do** when the view holds the log of the volume. -/
structure ReadEffect (s : Session) (es : List Entry) (blockIndex : UInt64)
    (o : Outcome VolumeError (Option Bytes)) (s' : Session) : Prop where
  volume : s'.volume = s.volume
  file : s'.file.Follows s.file s.file.disk
  answer : o = readAnswer s.volume es blockIndex ∨ (∃ e, o = .error e) ∧ s.file.MayFail ∨
    o = .crash ∧ s.file.MayCrash

theorem readBlock_effect {s : Session} {es : List Entry} (blockIndex : UInt64)
    (hd : ¬s.file.MayDamage)
    (hlog : LogHolds s.volume.keys s.volume.bootstrap s.file.disk.view s.volume.state es
      s.volume.index) :
    ReadEffect s es blockIndex (readBlock blockIndex s).1 (readBlock blockIndex s).2 := by
  have hindexes := Scans.indexes hlog
  apply wp_outcome
  unfold readBlock validateBlockIndex
  simp only [wp_bind, wp_get]
  by_cases hrange : blockIndex ≥ s.volume.bootstrap.blockCount
  · simp only [if_pos hrange, wp_ofExcept_error]
    refine ⟨rfl, Device.Follows.refl _, Or.inl ?_⟩
    rw [readAnswer, if_neg (UInt64.not_lt.mpr hrange)]
  have hin : blockIndex < s.volume.bootstrap.blockCount := UInt64.not_le.mp hrange
  simp only [if_neg hrange, wp_ofExcept_ok]
  cases hlookup : s.volume.index.lookup blockIndex with
  | none =>
    simp only [wp_pure]
    refine ⟨rfl, Device.Follows.refl _, Or.inl ?_⟩
    rw [readAnswer, if_pos hin, hlookup]
  | some record =>
    -- the index names a record of the log, so that is what is read
    obtain ⟨e, he, hblock, hrecord, hserved, -⟩ := hindexes.lookup blockIndex record hlookup
    obtain ⟨hrec, -, -⟩ := Scans.mem hlog he
    have hoffset : record.offset = e.offset := congrArg RecordIndex.offset hrecord.symm
    simp only [Session.onFile, wp_bind, wp_zoom]
    refine wp_readRecordAt hd (fun d₁ header payload h₁ hlimit hrec₁ => ?_) (fun d₁ e₁ h₁ he₁ => ?_)
      fun d₁ h₁ hf => ?_
    · rw [hoffset] at hrec₁
      have hsame := (parseRecord_eq_ok.mpr hrec).symm.trans (parseRecord_eq_ok.mpr hrec₁)
      obtain ⟨hheader, hpayload⟩ : e.header = header ∧ e.payload = payload := by simpa using hsame
      subst hheader
      subst hpayload
      have hmatch : ¬(e.header.blockIndex ≠ blockIndex ∨ e.header.generation ≠ record.generation ∨
          e.header.plaintextLen ≠ record.plaintextLen ∨
          e.header.ciphertextLen ≠ record.ciphertextLen) := by
        rw [← hrecord, hblock]
        simp [Entry.record]
      simp only [if_neg hmatch, wp_pure]
      refine ⟨rfl, h₁, Or.inl ?_⟩
      rw [readAnswer, if_pos hin, hlookup]
      dsimp only
      rw [if_pos hlimit, hserved]
    · rcases he₁ with hfail | ⟨hlarge, rfl⟩ | hnone
      · exact ⟨rfl, h₁, Or.inr (Or.inl ⟨⟨e₁, rfl⟩, hfail⟩)⟩
      · refine ⟨rfl, h₁, Or.inl ?_⟩
        rw [readAnswer, if_pos hin, hlookup]
        dsimp only
        rw [if_neg (not_lt.mpr hlarge)]
      · rw [hoffset] at hnone
        exact absurd hrec (hnone _ _)
    · exact ⟨rfl, h₁, Or.inr (Or.inr ⟨rfl, hf⟩)⟩

/-- **A file that works answers every read.** -/
theorem readBlock_quiet {s : Session} {es : List Entry} (blockIndex : UInt64)
    (hfaults : s.file.faults = [])
    (hlog : LogHolds s.volume.keys s.volume.bootstrap s.file.disk.view s.volume.state es
      s.volume.index) :
    (readBlock blockIndex s).1 = readAnswer s.volume es blockIndex := by
  have hnone : ∀ f : Fault, f ∉ s.file.faults := fun f => hfaults ▸ List.not_mem_nil
  have heffect := readBlock_effect blockIndex (fun ⟨_, h⟩ => hnone _ h) hlog
  rcases heffect.answer with h | ⟨-, _, h⟩ | ⟨-, ⟨_, h⟩ | h⟩
  · exact h
  · exact absurd h (hnone _)
  · exact absurd h (hnone _)
  · exact absurd h (hnone _)

/-- As `readBlock_quiet`, after the script of the last call. -/
theorem readBlock_answers {s : Session} {es : List Entry} (blockIndex : UInt64)
    (hlog : LogHolds s.volume.keys s.volume.bootstrap s.file.disk.view s.volume.state es
      s.volume.index) :
    (readBlock blockIndex (s.script [])).1 = readAnswer s.volume es blockIndex :=
  readBlock_quiet (s := s.script []) blockIndex rfl hlog

omit [Crypto] in
/-- Where all of the log can be addressed, a read answers what the log stores. -/
theorem readAnswer_of_limit {v : Volume} {es : List Entry} (blockIndex : UInt64)
    (hindexes : Indexes es ⟨v.index, v.state.committedEnd, v.state.recordCount⟩)
    (hends : ∀ e ∈ es, e.offset.toNat < maxOffset) :
    readAnswer v es blockIndex =
      if blockIndex < v.bootstrap.blockCount then .ok (served es blockIndex)
      else .error .blockOutOfRange := by
  unfold readAnswer
  congr 1
  cases hlookup : v.index.lookup blockIndex with
  | none => rw [hindexes.served_eq_none hlookup]
  | some record =>
    obtain ⟨e, he, -, rfl, -, -⟩ := hindexes.lookup blockIndex record hlookup
    exact if_pos (hends e he)

/-- **What `sync` can do.** -/
structure SyncEffect (s : Session) (o : Outcome VolumeError Unit) (s' : Session) : Prop where
  volume : s'.volume = s.volume
  file : s'.file.Follows s.file s.file.disk ∨ s'.file.Follows s.file s.file.disk.sync
  error : ∀ e, o = .error e → s.file.MayFail
  crash : o = .crash → s'.file.Follows s.file s.file.disk ∧ s.file.MayCrash

omit [Crypto] in
theorem sync_effect (s : Session) : SyncEffect s (sync s).1 (sync s).2 := by
  apply wp_outcome
  unfold sync
  simp only [Session.onFile, wp_zoom]
  refine wp_syncAll (fun d₁ h₁ _ => ?_) (fun d₁ f h₁ hf => ?_) fun d₁ h₁ hf => ?_
  · exact ⟨rfl, Or.inr h₁, by simp, by simp⟩
  · exact ⟨rfl, Or.inl h₁, fun _ _ => hf, by simp⟩
  · exact ⟨rfl, Or.inl h₁, by simp, fun _ => ⟨h₁, hf⟩⟩

end OrIsyVra.Volume
