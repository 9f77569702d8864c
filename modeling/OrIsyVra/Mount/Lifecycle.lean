import OrIsyVra.Volume.CleanFlag

/-!
# The life of a mounted volume

`mount_volume_with_master` opens a volume, attaches it to WinSpd, marks it dirty, starts the
dispatcher, and after the dispatcher has stopped marks it clean again if the safe path was taken: a
helper thread has dismounted the drive and then synced the volume.  What WinSpd, the drive and the
console do is outside; a `HostCommand` says how it went, and `advance` what the host does then.  The
process may die between any two commands and in any call.

The flag on the file is honest as long as no dispatcher fails to start on a volume that was dirty
when it was opened (`clean_flag_honest`).  The way out of that failure marks the volume clean,
whatever it was before (`failed_start_marks_clean`).
-/

namespace OrIsyVra.Mount

open ByteString MachineWord DurableFile FaultProgram Runs Volume

/-! ## The host -/

def sectorSize : UInt64 := 4096

/-- The sectors of the disk, if the capacity can be divided into them. -/
def sectorCount (b : Bootstrap) : Except String UInt64 :=
  if b.logicalCapacity % sectorSize ≠ 0 then
    .error ("logical capacity is not divisible by the sector size " ++ toString sectorSize)
  else if b.logicalCapacity / sectorSize = 0 then .error "volume has no addressable sectors"
  else .ok (b.logicalCapacity / sectorSize)

/-- How far a run has come. -/
inductive Phase where
  /-- The volume is open, WinSpd is being loaded and the storage unit created. -/
  | attaching
  /-- The volume has been marked dirty. -/
  | marked
  /-- The dispatcher did not start. -/
  | startFailed
  /-- The dispatcher is running. -/
  | running
  /-- It has stopped. -/
  | stopped
  /-- The volume has been synced for the last time. -/
  | closing
  deriving DecidableEq, Repr

/-- What a run has done. -/
structure RunLog where
  /-- The volume was clean when it was opened. -/
  openedClean : Bool
  /-- The run has changed the flag on the file from clean to dirty. -/
  changed : Bool
  /-- The dispatcher was started. -/
  started : Bool
  /-- The drive is dismounted, and the helper thread is about to sync. -/
  dismounted : Bool
  /-- The drive was dismounted, and then the volume synced. -/
  synced : Bool
  /-- `SAFE_SHUTDOWN`. -/
  safeShutdown : Bool
  deriving DecidableEq, Repr

/-- A volume file between the runs, or in one. -/
inductive Host where
  | idle (file : Device Sealed)
  | busy (phase : Phase) (s : Session) (log : RunLog)

def Host.file : Host → Device Sealed
  | idle file => file
  | busy _ s _ => s.file

/-- What happens next.  A command that makes calls on the file has the script for them. -/
inductive HostCommand where
  | openVolume (fs : List Fault)
  /-- The capacity is refused, or WinSpd is missing, of another version, or creates no unit. -/
  | giveUp
  | markDirty (fs : List Fault)
  /-- The lock of the context map is poisoned. -/
  | giveUpMarked
  | startDispatcher (started : Bool)
  /-- After a failed start, when the context can be locked. -/
  | markCleanAgain (fs : List Fault)
  /-- After a failed start, when it cannot. -/
  | leaveDirty
  /-- The driver reads, writes or flushes sectors. -/
  | callback (c : Call) (fs : List Fault)
  /-- The mounted-state file cannot be written. -/
  | stateFileFails
  /-- The helper thread has tried to dismount the drive. -/
  | dismount (dismounted : Bool)
  /-- It syncs the volume. -/
  | syncActive (fs : List Fault)
  /-- The context of the volume was gone before it could. -/
  | contextGone
  /-- It stores that the volume may be marked clean. -/
  | storeSafe
  | dispatcherStops
  | lastSync (fs : List Fault)
  /-- The context cannot be locked. -/
  | lockFails
  | finish (fs : List Fault)
  /-- The process dies. -/
  | kill

/-- The dispatcher was started, and the volume is not yet locked for the last time. -/
def Phase.isUp : Phase → Bool
  | running | stopped => true
  | _ => false

section Crypto

variable [Crypto]

/-- The log once the volume has been marked dirty. -/
def RunLog.marked (log : RunLog) (master : Bytes) (file file' : Device Sealed) : RunLog :=
  { log with
    changed := persistedClean master file == some true && persistedClean master file' ==
      some false }

/-- The log once the helper thread has synced. -/
def RunLog.afterSync (log : RunLog) : Outcome VolumeError Reply → RunLog
  | .ok _ => { log with synced := true }
  | _ => { log with dismounted := false }

/-- A call whose error does not end the run. -/
def carryOn (c : Call) (fs : List Fault) (s : Session)
    (next : Outcome VolumeError Reply → Session → Host) : Host :=
  match c.run (s.script fs) with
  | (.crash, s') => .idle s'.file
  | (o, s') => next o s'

/-- A step of a run. -/
def advanceRun (master : Bytes) (phase : Phase) (s : Session) (log : RunLog) :
    HostCommand → Option Host
  | .openVolume _ => none
  | .giveUp => if phase = .attaching then some (.idle s.file) else none
  | .markDirty fs =>
    if phase = .attaching ∧ (sectorCount s.volume.bootstrap).isOk then
      match Call.markDirty.run (s.script fs) with
      | (.ok _, s') => some (.busy .marked s' (log.marked master s.file s'.file))
      | (_, s') => some (.idle s'.file)
    else none
  | .giveUpMarked => if phase = .marked then some (.idle s.file) else none
  | .startDispatcher started =>
    if phase = .marked then
      if started then some (.busy .running s { log with started := true })
      else some (.busy .startFailed s log)
    else none
  | .markCleanAgain fs =>
    if phase = .startFailed then some (.idle (Call.markClean.run (s.script fs)).2.file) else none
  | .leaveDirty => if phase = .startFailed then some (.idle s.file) else none
  | .callback c fs =>
    if phase.isUp ∧ c.isSector then some (carryOn c fs s fun _ s' => .busy phase s' log) else none
  | .stateFileFails => if phase = .running then some (.idle s.file) else none
  | .dismount dismounted =>
    if phase.isUp then some (.busy phase s { log with dismounted := dismounted }) else none
  | .syncActive fs =>
    if phase.isUp ∧ log.dismounted then
      some (carryOn .sync fs s fun o s' => .busy phase s' (log.afterSync o))
    else none
  | .contextGone =>
    if phase.isUp then some (.busy phase s { log with dismounted := false }) else none
  | .storeSafe =>
    if log.synced then some (.busy phase s { log with safeShutdown := true }) else none
  | .dispatcherStops => if phase = .running then some (.busy .stopped s log) else none
  | .lastSync fs =>
    if phase = .stopped then some (carryOn .sync fs s fun _ s' => .busy .closing s' log) else none
  | .lockFails => if phase = .stopped then some (.idle s.file) else none
  | .finish fs =>
    if phase = .closing then
      if log.safeShutdown then some (.idle (Call.markClean.run (s.script fs)).2.file)
      else some (.idle s.file)
    else none
  | .kill => some (.idle s.file)

/-- **One step of the host.** -/
def advance (master : Bytes) : Host → HostCommand → Option Host
  | .idle file, .openVolume fs =>
    match openVolume master (script fs file) with
    | (.ok v, file') =>
      some (.busy .attaching ⟨v, file'⟩ ⟨v.state.clean, false, false, false, false, false⟩)
    | (_, file') => some (.idle file')
  | .idle _, _ => none
  | .busy phase s log, cmd => advanceRun master phase s log cmd

/-! ## What the file may do -/

/-- The call on the file that a command makes. -/
def HostCommand.call (log : RunLog) : HostCommand → Option (Call × List Fault)
  | .markDirty fs => some (.markDirty, fs)
  | .markCleanAgain fs => some (.markClean, fs)
  | .callback c fs => some (c, fs)
  | .syncActive fs => some (.sync, fs)
  | .lastSync fs => some (.sync, fs)
  | .finish fs => if log.safeShutdown then some (.markClean, fs) else none
  | _ => none

/-- The call may fail and the process may die in it; reads are not damaged, the power stays on. -/
def isProcessFault : Fault → Bool
  | .none | .fail _ | .kill _ => true
  | _ => false

/-- The process may die in it. -/
def isKill : Fault → Bool
  | .none | .kill _ => true
  | _ => false

/-- **What is taken for granted of the file.**  An open may be killed, but its calls do not fail;
other calls may, but leave no slot with a superblock that was never written; and no file is longer
than an offset can say. -/
def Permitted : Host → HostCommand → Prop
  | .idle file, .openVolume fs => (∀ f ∈ fs, isKill f) ∧ file.disk.view.length < maxOffset
  | .idle _, _ => True
  | .busy _ s log, cmd => ∀ call ∈ cmd.call log,
    (∀ f ∈ call.2, isProcessFault f) ∧
      SlotsWhole (s.script call.2) call.1 (call.1.run (s.script call.2)).2 ∧
      (call.1.run (s.script call.2)).2.file.disk.view.length < maxOffset

/-- A step of the host on such a file. -/
structure HostStep (master : Bytes) (h : Host) (cmd : HostCommand) (h' : Host) : Prop where
  permitted : Permitted h cmd
  advance : advance master h cmd = some h'

/-- A volume is marked clean after a failed start only if it was clean when it was opened. -/
structure HonestStep (master : Bytes) (h : Host) (cmd : HostCommand) (h' : Host) : Prop
    extends HostStep master h cmd h' where
  openedClean : ∀ fs phase s log, cmd = .markCleanAgain fs → h = .busy phase s log →
    log.openedClean = true

/-! ## The invariant -/

variable {master : Bytes}

/-- What a phase knows of the flag. -/
def Phase.Knows (master : Bytes) (s : Session) (log : RunLog) : Phase → Prop
  | attaching => Foremost master s.file.disk.view s.volume ∧
      log.openedClean = s.volume.state.clean ∧ log.started = false
  | marked | startFailed => s.volume.state.clean = false ∧ log.started = false ∧
      (log.openedClean = true → persistedClean master s.file = some false → log.changed = true)
  | running | stopped | closing => s.volume.state.clean = false

/-- A process has a guarded volume open. -/
structure Live (master : Bytes) (s : Session) (es : List Entry) : Prop where
  sees : Sees master s es
  limit : s.volume.state.committedEnd.toNat < maxOffset
  guarded : Guarded s.file.disk.view s.volume
  length : s.file.disk.view.length < maxOffset

/-- **The invariant of the host.** -/
def Sound (master : Bytes) : Host → Prop
  | .idle file => ∃ v es, Rest master file.disk.view v es
  | .busy phase s log => (∃ es, Live master s es) ∧ phase.Knows master s log ∧
      (log.safeShutdown = true → log.synced = true)

/-- What a call leaves of a live volume. -/
theorem Live.call [LawfulCrypto] {s : Session} {es : List Entry} {c : Call} {fs : List Fault}
    (h : Live master s es) (hfs : ∀ f ∈ fs, isProcessFault f)
    (hwhole : SlotsWhole (s.script fs) c (c.run (s.script fs)).2)
    (hlen : (c.run (s.script fs)).2.file.disk.view.length < maxOffset) :
    ∃ es', Live master (c.run (s.script fs)).2 es' ∧
      Moves s.volume es (c.run (s.script fs)).2.volume es' ∧
      (c.isSector = true → s.volume.state.clean = false →
        (c.run (s.script fs)).2.volume.state.clean = false ∧
          (Dirty s.file.disk.view s.volume → Dirty (c.run (s.script fs)).2.file.disk.view
            (c.run (s.script fs)).2.volume)) := by
  have hd : ¬(s.script fs).file.MayDamage := by
    rintro ⟨bs, hmem⟩
    exact absurd (hfs _ hmem) (by simp [isProcessFault])
  have hscripted : Sees master (s.script fs) es := h.sees
  obtain ⟨-, es', hmoves, hsees⟩ := c.moves hscripted hd
  have hguarded := Call.guarded hscripted hmoves hwhole h.guarded
  refine ⟨es', ⟨hsees, hmoves.limit h.limit, hguarded, hlen⟩, hmoves, fun hc hdirty => ?_⟩
  have hstays := Call.stays_dirty hc hscripted hd hdirty
  exact ⟨hstays, Call.dirty hc hscripted hmoves hwhole hstays⟩

/-- A live volume whose process ends is at rest. -/
theorem Live.rest {s : Session} {es : List Entry} (h : Live master s es) :
    ∃ v es', Rest master s.file.disk.view v es' :=
  exists_rest h.sees h.limit h.guarded

/-- A call of the driver does not make a dirty file clean. -/
theorem Live.call_dirty [LawfulCrypto] {s : Session} {es : List Entry} {c : Call} {fs : List Fault}
    (h : Live master s es) (hfs : ∀ f ∈ fs, isProcessFault f)
    (hwhole : SlotsWhole (s.script fs) c (c.run (s.script fs)).2)
    (hlen : (c.run (s.script fs)).2.file.disk.view.length < maxOffset) (hc : c.isSector = true)
    (hdirty : s.volume.state.clean = false) (hbefore : persistedClean master s.file = some false) :
    persistedClean master (c.run (s.script fs)).2.file ≠ some true := by
  obtain ⟨es', hlive, -, hkept⟩ := h.call hfs hwhole hlen
  have hfile : Dirty s.file.disk.view s.volume := by
    by_contra hnot
    rw [persisted_of_not_dirty h.guarded h.sees h.length hdirty hnot] at hbefore
    exact absurd hbefore (by simp)
  exact ((hkept hc hdirty).2 hfile).persisted hlive.sees hlive.limit hlive.length

/-- `mark_dirty` that returns leaves a dirty volume; on a dirty one it does nothing. -/
theorem markDirty_ok [LawfulCrypto] {s : Session} {r : Reply} {s' : Session}
    (h : Call.markDirty.run s = (.ok r, s')) :
    s'.volume.state.clean = false ∧ (s.volume.state.clean = false → s' = s) := by
  rw [Call.run, run_map] at h
  have heffect := setCleanState_effect s false
  change ((setCleanState false s).1.map _, (setCleanState false s).2) = _ at h
  generalize setCleanState false s = run at heffect h
  rcases run with ⟨o, s₁⟩
  obtain ⟨ho, rfl⟩ := Prod.mk.inj h
  cases heffect with
  | unchanged hclean => exact ⟨hclean, fun _ => rfl⟩
  | untouched _ _ hcut =>
    cases o with
    | ok _ => exact absurd hcut id
    | error _ => exact absurd ho (by simp [Outcome.map])
    | crash => exact absurd ho (by simp [Outcome.map])
  | torn _ _ _ hcut _ =>
    cases o with
    | ok _ => exact absurd hcut id
    | error _ => exact absurd ho (by simp [Outcome.map])
    | crash => exact absurd ho (by simp [Outcome.map])
  | changed hclean _ _ => exact ⟨rfl, fun hdirty => absurd hdirty hclean⟩

/-- A call after which the run goes on, or ends with the process. -/
theorem sound_carryOn {c : Call} {fs : List Fault} {s : Session} {es : List Entry}
    {next : Outcome VolumeError Reply → Session → Host}
    (hlive : Live master (c.run (s.script fs)).2 es)
    (hnext : Sound master (next (c.run (s.script fs)).1 (c.run (s.script fs)).2)) :
    Sound master (carryOn c fs s next) := by
  unfold carryOn
  split
  · next s' hrun =>
    rw [hrun] at hlive
    exact hlive.rest
  · next o s' _ hrun =>
    rw [hrun] at hnext
    exact hnext

/-- An open that is not hindered finds the volume at rest. -/
theorem sound_open [LawfulCrypto] {file : Device Sealed} {fs : List Fault} {h' : Host}
    (h : Sound master (.idle file)) (hfs : ∀ f ∈ fs, isKill f)
    (hlen : file.disk.view.length < maxOffset)
    (hstep : advance master (.idle file) (.openVolume fs) = some h') :
    Sound master h' ∧ h'.file.disk.view.length < maxOffset ∧
      persistedClean master h'.file = persistedClean master file := by
  obtain ⟨v, es, hrest⟩ := h
  have hkill : ∀ f ∈ fs, isKill f = true := hfs
  obtain ⟨hrest', hlen', hfound⟩ := rest_openVolume (d := script fs file) hrest
    (fun ⟨_, hmem⟩ => absurd (hkill _ hmem) (by simp [isKill]))
    (fun ⟨_, hmem⟩ => absurd (hkill _ hmem) (by simp [isKill])) hlen
  have hflag : persistedClean master (openVolume master (script fs file)).2 =
      persistedClean master file := (hrest'.persisted hlen').trans (hrest.persisted hlen).symm
  simp only [advance] at hstep
  split at hstep
  · next v' file' hopen =>
    rw [hopen] at hrest' hlen' hflag hfound
    obtain rfl := Option.some.inj hstep
    obtain rfl := hfound v' rfl
    exact ⟨⟨⟨es, hrest'.opened, hrest'.limit, hrest'.guarded, hlen'⟩,
      ⟨hrest'.foremost, rfl, rfl⟩, by simp⟩, hlen', hflag⟩
  · next o file' _ hopen =>
    rw [hopen] at hrest' hlen' hflag
    obtain rfl := Option.some.inj hstep
    exact ⟨⟨v, es, hrest'⟩, hlen', hflag⟩

/-- **A step of a run keeps the invariant.** -/
theorem sound_advanceRun [LawfulCrypto] {phase : Phase} {s : Session} {log : RunLog}
    {cmd : HostCommand} {h' : Host} (h : Sound master (.busy phase s log))
    (hstep : HonestStep master (.busy phase s log) cmd h') : Sound master h' := by
  obtain ⟨⟨hpermitted, hadvance⟩, -⟩ := hstep
  obtain ⟨⟨es, hlive⟩, hknows, hsafe⟩ := h
  have hrest : Sound master (.idle s.file) := hlive.rest
  -- a call of the driver or the helper thread, after which the run goes on
  have hsector : ∀ {c fs} (phase' log'), (c, fs) ∈ cmd.call log → c.isSector = true →
      s.volume.state.clean = false → phase' ∈ [Phase.running, .stopped, .closing] →
      (log'.safeShutdown = true → log'.synced = true) →
      (∃ es', Live master (c.run (s.script fs)).2 es') ∧
        Sound master (.busy phase' (c.run (s.script fs)).2 log') := by
    intro c fs phase' log' hcall hc hdirty hphase hsafe'
    obtain ⟨hfs, hwhole, hlen⟩ := hpermitted (c, fs) hcall
    obtain ⟨es', hlive', -, hkept⟩ := hlive.call hfs hwhole hlen
    have hstays := (hkept hc hdirty).1
    refine ⟨⟨es', hlive'⟩, ⟨es', hlive'⟩, ?_, hsafe'⟩
    rcases phase' with _ | _ | _ | _ | _ | _ <;> first | exact hstays |
      exact absurd hphase (by decide)
  have hend : ∀ {c fs}, (c, fs) ∈ cmd.call log →
      Sound master (.idle (c.run (s.script fs)).2.file) := by
    intro c fs hcall
    obtain ⟨hfs, hwhole, hlen⟩ := hpermitted (c, fs) hcall
    obtain ⟨es', hlive', -⟩ := hlive.call hfs hwhole hlen
    exact hlive'.rest
  have hup : phase.isUp = true → phase ∈ [Phase.running, .stopped, .closing] ∧
      s.volume.state.clean = false := by
    intro hphase
    cases phase <;> first | exact ⟨by decide, hknows⟩ | exact absurd hphase (by decide)
  cases cmd with
  | openVolume fs => exact absurd hadvance (by simp [advance, advanceRun])
  | giveUp =>
    simp only [advance, advanceRun, Option.ite_none_right_eq_some, Option.some.injEq] at hadvance
    obtain ⟨-, rfl⟩ := hadvance
    exact hrest
  | markDirty fs =>
    simp only [advance, advanceRun] at hadvance
    split at hadvance
    swap
    · exact absurd hadvance (by simp)
    next hphase =>
    obtain ⟨rfl, -⟩ := hphase
    obtain ⟨hforemost, hopened, hstarted⟩ := hknows
    have hcall : (Call.markDirty, fs) ∈ (HostCommand.markDirty fs).call log := rfl
    obtain ⟨hfs, hwhole, hlen⟩ := hpermitted _ hcall
    obtain ⟨es', hlive', -⟩ := hlive.call hfs hwhole hlen
    split at hadvance
    · next r s' hrun =>
      rw [hrun] at hlive'
      obtain rfl := Option.some.inj hadvance
      refine ⟨⟨es', hlive'⟩, ⟨(markDirty_ok hrun).1, hstarted, fun hclean hflag => ?_⟩,
        hsafe⟩
      -- the flag was set when the volume was opened
      have hbefore : persistedClean master s.file = some true :=
        (persistedClean_eq_some hlive.length).mpr
          ⟨s.volume, es, hlive.sees, hforemost, hopened.symm.trans hclean⟩
      rw [RunLog.marked, hbefore, hflag]
      rfl
    · next o s' _ hrun =>
      rw [hrun] at hlive'
      obtain rfl := Option.some.inj hadvance
      exact hlive'.rest
  | giveUpMarked =>
    simp only [advance, advanceRun, Option.ite_none_right_eq_some, Option.some.injEq] at hadvance
    obtain ⟨-, rfl⟩ := hadvance
    exact hrest
  | startDispatcher started =>
    simp only [advance, advanceRun] at hadvance
    split at hadvance
    swap
    · exact absurd hadvance (by simp)
    next hphase =>
    subst hphase
    cases started with
    | true =>
      obtain rfl := Option.some.inj hadvance
      exact ⟨⟨es, hlive⟩, hknows.1, hsafe⟩
    | false =>
      obtain rfl := Option.some.inj hadvance
      exact ⟨⟨es, hlive⟩, hknows, hsafe⟩
  | markCleanAgain fs =>
    simp only [advance, advanceRun, Option.ite_none_right_eq_some, Option.some.injEq] at hadvance
    obtain ⟨-, rfl⟩ := hadvance
    exact hend rfl
  | leaveDirty =>
    simp only [advance, advanceRun, Option.ite_none_right_eq_some, Option.some.injEq] at hadvance
    obtain ⟨-, rfl⟩ := hadvance
    exact hrest
  | callback c fs =>
    simp only [advance, advanceRun, Option.ite_none_right_eq_some, Option.some.injEq] at hadvance
    obtain ⟨hphase, rfl⟩ := hadvance
    obtain ⟨hin, hdirty⟩ := hup hphase.1
    obtain ⟨⟨es', hlive'⟩, hsound⟩ := hsector phase log rfl hphase.2 hdirty hin hsafe
    exact sound_carryOn hlive' hsound
  | stateFileFails =>
    simp only [advance, advanceRun, Option.ite_none_right_eq_some, Option.some.injEq] at hadvance
    obtain ⟨-, rfl⟩ := hadvance
    exact hrest
  | dismount dismounted =>
    simp only [advance, advanceRun, Option.ite_none_right_eq_some, Option.some.injEq] at hadvance
    obtain ⟨hphase, rfl⟩ := hadvance
    refine ⟨⟨es, hlive⟩, ?_, hsafe⟩
    cases phase <;> exact hknows
  | syncActive fs =>
    simp only [advance, advanceRun, Option.ite_none_right_eq_some, Option.some.injEq] at hadvance
    obtain ⟨hphase, rfl⟩ := hadvance
    obtain ⟨hin, hdirty⟩ := hup hphase.1
    have hsafe' : ∀ o, (log.afterSync o).safeShutdown = true → (log.afterSync o).synced = true := by
      intro o hstored
      cases o with
      | ok r => rfl
      | error e => exact hsafe hstored
      | crash => exact hsafe hstored
    obtain ⟨⟨es', hlive'⟩, hsound⟩ := hsector phase _ rfl rfl hdirty hin (hsafe' _)
    exact sound_carryOn hlive' hsound
  | contextGone =>
    simp only [advance, advanceRun, Option.ite_none_right_eq_some, Option.some.injEq] at hadvance
    obtain ⟨hphase, rfl⟩ := hadvance
    refine ⟨⟨es, hlive⟩, ?_, hsafe⟩
    cases phase <;> exact hknows
  | storeSafe =>
    simp only [advance, advanceRun, Option.ite_none_right_eq_some, Option.some.injEq] at hadvance
    obtain ⟨hsynced, rfl⟩ := hadvance
    refine ⟨⟨es, hlive⟩, ?_, fun _ => hsynced⟩
    cases phase <;> exact hknows
  | dispatcherStops =>
    simp only [advance, advanceRun, Option.ite_none_right_eq_some, Option.some.injEq] at hadvance
    obtain ⟨rfl, rfl⟩ := hadvance
    exact ⟨⟨es, hlive⟩, hknows, hsafe⟩
  | lastSync fs =>
    simp only [advance, advanceRun, Option.ite_none_right_eq_some, Option.some.injEq] at hadvance
    obtain ⟨rfl, rfl⟩ := hadvance
    obtain ⟨⟨es', hlive'⟩, hsound⟩ :=
      hsector .closing log rfl rfl hknows (by decide) hsafe
    exact sound_carryOn hlive' hsound
  | lockFails =>
    simp only [advance, advanceRun, Option.ite_none_right_eq_some, Option.some.injEq] at hadvance
    obtain ⟨-, rfl⟩ := hadvance
    exact hrest
  | finish fs =>
    simp only [advance, advanceRun] at hadvance
    split at hadvance
    swap
    · exact absurd hadvance (by simp)
    split at hadvance
    · next hstored =>
      obtain rfl := Option.some.inj hadvance
      exact hend (by rw [HostCommand.call, if_pos hstored]; rfl)
    · obtain rfl := Option.some.inj hadvance
      exact hrest
  | kill =>
    obtain rfl := Option.some.inj hadvance
    exact hrest

/-- A step of the host keeps the invariant. -/
theorem sound_step [LawfulCrypto] {h h' : Host} {cmd : HostCommand} (hsound : Sound master h)
    (hstep : HonestStep master h cmd h') : Sound master h' := by
  cases h with
  | busy phase s log => exact sound_advanceRun hsound hstep
  | idle file =>
    cases cmd with
    | openVolume fs =>
      exact (sound_open hsound hstep.permitted.1 hstep.permitted.2 hstep.advance).1
    | _ => exact absurd hstep.advance (by simp [advance])

/-! ## The flag -/

/-- What a step of a run does to the file: nothing, or one call. -/
inductive Touches (phase : Phase) (s : Session) (log : RunLog) (cmd : HostCommand) (h' : Host) :
    Prop where
  | nothing : h'.file = s.file → Touches phase s log cmd h'
  | markDirty (fs : List Fault) : phase = .attaching → (.markDirty, fs) ∈ cmd.call log →
      h'.file = (Call.markDirty.run (s.script fs)).2.file → Touches phase s log cmd h'
  | sector (c : Call) (fs : List Fault) : phase.isUp = true → c.isSector = true →
      (c, fs) ∈ cmd.call log → h'.file = (c.run (s.script fs)).2.file → Touches phase s log cmd h'
  | markCleanAgain (fs : List Fault) : phase = .startFailed → cmd = .markCleanAgain fs →
      h'.file = (Call.markClean.run (s.script fs)).2.file → Touches phase s log cmd h'
  | safe (fs : List Fault) : log.safeShutdown = true → (.markClean, fs) ∈ cmd.call log →
      h'.file = (Call.markClean.run (s.script fs)).2.file → Touches phase s log cmd h'

theorem file_carryOn {c : Call} {fs : List Fault} {s : Session}
    {next : Outcome VolumeError Reply → Session → Host}
    (hnext : ∀ o s', (next o s').file = s'.file) :
    (carryOn c fs s next).file = (c.run (s.script fs)).2.file := by
  unfold carryOn
  split
  · next s' hrun =>
    rw [hrun]
    rfl
  · next o s' _ hrun =>
    rw [hrun]
    exact hnext o s'

theorem advanceRun_touches {phase : Phase} {s : Session} {log : RunLog} {cmd : HostCommand}
    {h' : Host} (h : advanceRun master phase s log cmd = some h') : Touches phase s log cmd h' := by
  cases cmd with
  | markDirty fs =>
    simp only [advanceRun] at h
    split at h
    swap
    · exact absurd h (by simp)
    next hphase =>
    refine .markDirty fs hphase.1 rfl ?_
    split at h
    · next r s' hrun =>
      rw [hrun, ← Option.some.inj h]
      rfl
    · next o s' _ hrun =>
      rw [hrun, ← Option.some.inj h]
      rfl
  | callback c fs =>
    simp only [advanceRun] at h
    split at h
    swap
    · exact absurd h (by simp)
    next hphase =>
    refine .sector c fs hphase.1 hphase.2 rfl ?_
    rw [← Option.some.inj h]
    exact file_carryOn fun _ _ => rfl
  | syncActive fs =>
    simp only [advanceRun] at h
    split at h
    swap
    · exact absurd h (by simp)
    next hphase =>
    refine .sector .sync fs hphase.1 rfl rfl ?_
    rw [← Option.some.inj h]
    exact file_carryOn fun _ _ => rfl
  | lastSync fs =>
    simp only [advanceRun] at h
    split at h
    swap
    · exact absurd h (by simp)
    next hphase =>
    refine .sector .sync fs (by rw [hphase]; rfl) rfl rfl ?_
    rw [← Option.some.inj h]
    exact file_carryOn fun _ _ => rfl
  | markCleanAgain fs =>
    simp only [advanceRun] at h
    split at h
    · next hphase => exact .markCleanAgain fs hphase rfl (by rw [← Option.some.inj h]; rfl)
    · exact absurd h (by simp)
  | finish fs =>
    simp only [advanceRun] at h
    split at h
    swap
    · exact absurd h (by simp)
    split at h
    · next hstored =>
      refine .safe fs hstored ?_ (by rw [← Option.some.inj h]; rfl)
      rw [HostCommand.call, if_pos hstored]
      rfl
    · exact .nothing (by rw [← Option.some.inj h]; rfl)
  | startDispatcher started =>
    simp only [advanceRun] at h
    split at h
    swap
    · exact absurd h (by simp)
    split at h <;> exact .nothing (by rw [← Option.some.inj h]; rfl)
  | openVolume fs => exact absurd h (by simp [advanceRun])
  | kill => exact .nothing (by rw [← Option.some.inj h]; rfl)
  | _ =>
    simp only [advanceRun] at h
    split at h
    · exact .nothing (by rw [← Option.some.inj h]; rfl)
    · exact absurd h (by simp)

/-- No step makes the file longer than an offset can say. -/
theorem length_step [LawfulCrypto] {h h' : Host} {cmd : HostCommand} (hsound : Sound master h)
    (hstep : HonestStep master h cmd h') :
    h.file.disk.view.length < maxOffset ∧ h'.file.disk.view.length < maxOffset := by
  cases h with
  | idle file =>
    cases cmd with
    | openVolume fs =>
      exact ⟨hstep.permitted.2,
        (sound_open hsound hstep.permitted.1 hstep.permitted.2 hstep.advance).2.1⟩
    | _ => exact absurd hstep.advance (by simp [advance])
  | busy phase s log =>
    obtain ⟨⟨es, hlive⟩, -⟩ := hsound
    refine ⟨hlive.length, ?_⟩
    have hcalled : ∀ {c fs}, (c, fs) ∈ cmd.call log → h'.file = (c.run (s.script fs)).2.file →
        h'.file.disk.view.length < maxOffset := by
      intro c fs hcall hfile
      rw [hfile]
      exact (hstep.permitted _ hcall).2.2
    cases advanceRun_touches hstep.advance with
    | nothing hfile =>
      rw [hfile]
      exact hlive.length
    | markDirty fs _ hcall hfile => exact hcalled hcall hfile
    | sector c fs _ _ hcall hfile => exact hcalled hcall hfile
    | markCleanAgain fs _ hcmd hfile =>
      subst hcmd
      exact hcalled rfl hfile
    | safe fs _ hcall hfile => exact hcalled hcall hfile

/-- `mark_dirty` on a dirty volume does not touch the file. -/
theorem markDirty_of_dirty {s : Session} (hdirty : s.volume.state.clean = false) :
    (Call.markDirty.run s).2 = s := by
  have hrun : setCleanState false s = (.ok (), s) := by
    change (if s.volume.state.clean = false then _ else _ : Prog Session VolumeError Unit) s = _
    rw [if_pos hdirty]
    rfl
  change ((setCleanState false >>= fun _ => pure Reply.done) s).2 = s
  change (Prog.bind _ _ s).2 = s
  rw [Prog.bind, hrun]
  rfl

/-- The flag a run may set. -/
def RunLog.MaySetClean (log : RunLog) : Prop :=
  log.synced = true ∨ log.changed = true ∧ log.started = false

/-- **Only an entitled run makes a dirty file clean.** -/
theorem flag_step [LawfulCrypto] {h h' : Host} {cmd : HostCommand} (hsound : Sound master h)
    (hstep : HonestStep master h cmd h') (hbefore : persistedClean master h.file = some false)
    (hafter : persistedClean master h'.file = some true) :
    ∃ phase s log, h = .busy phase s log ∧ log.MaySetClean := by
  have hchange : persistedClean master h'.file ≠ persistedClean master h.file := by
    rw [hbefore, hafter]
    simp
  cases h with
  | idle file =>
    cases cmd with
    | openVolume fs =>
      exact absurd (sound_open hsound hstep.permitted.1 hstep.permitted.2 hstep.advance).2.2 hchange
    | _ => exact absurd hstep.advance (by simp [advance])
  | busy phase s log =>
    refine ⟨phase, s, log, rfl, ?_⟩
    obtain ⟨⟨es, hlive⟩, hknows, hsafe⟩ := hsound
    cases advanceRun_touches hstep.advance with
    | nothing hfile => exact absurd (congrArg _ hfile) hchange
    | markDirty fs hphase _ hfile =>
      subst hphase
      obtain ⟨hforemost, -⟩ := hknows
      have hopened : persistedClean master s.file = some s.volume.state.clean :=
        (persistedClean_eq_some hlive.length).mpr ⟨s.volume, es, hlive.sees, hforemost, rfl⟩
      have hdirty : s.volume.state.clean = false := Option.some.inj (hopened.symm.trans hbefore)
      rw [markDirty_of_dirty (s := s.script fs) hdirty] at hfile
      exact absurd (congrArg _ hfile) hchange
    | sector c fs hphase hc hcall hfile =>
      have hdirty : s.volume.state.clean = false := by
        cases phase <;> first | exact hknows | exact absurd hphase (by decide)
      obtain ⟨hfs, hwhole, hlen⟩ := hstep.permitted _ hcall
      rw [hfile] at hafter
      exact absurd hafter (hlive.call_dirty hfs hwhole hlen hc hdirty hbefore)
    | markCleanAgain fs hphase hcmd _ =>
      subst hphase
      obtain ⟨-, hstarted, hchanged⟩ := hknows
      exact Or.inr ⟨hchanged (hstep.openedClean fs _ _ _ hcmd rfl) hbefore, hstarted⟩
    | safe _ hstored _ _ => exact Or.inl (hsafe hstored)

/-- A file that is not too long has a flag. -/
theorem Sound.persisted {h : Host} (hsound : Sound master h)
    (hlen : h.file.disk.view.length < maxOffset) :
    ∃ clean, persistedClean master h.file = some clean := by
  have hrest : ∃ v es, Rest master h.file.disk.view v es := by
    cases h with
    | idle file => exact hsound
    | busy phase s log =>
      obtain ⟨⟨es, hlive⟩, -⟩ := hsound
      exact hlive.rest
  obtain ⟨v, es, hrest⟩ := hrest
  exact ⟨_, hrest.persisted hlen⟩

theorem changed_carryOn {c : Call} {fs : List Fault} {s s' : Session} {phase : Phase} {log : RunLog}
    {next : Outcome VolumeError Reply → Session → Host} {changed : Bool}
    (hnext : ∀ o s₁, next o s₁ = .busy phase s' log → log.changed = changed)
    (h : carryOn c fs s next = .busy phase s' log) : log.changed = changed := by
  unfold carryOn at h
  split at h
  · exact absurd h (by simp)
  · exact hnext _ _ h

/-- A run changes the flag to dirty only if it was clean. -/
theorem advanceRun_changed {phase phase' : Phase} {s s' : Session} {log log' : RunLog}
    {cmd : HostCommand} (h : advanceRun master phase s log cmd = some (.busy phase' s' log'))
    (hchanged : log'.changed = true) :
    log.changed = true ∨ persistedClean master s.file = some true := by
  have hsame : log'.changed = log.changed → log.changed = true ∨
    persistedClean master s.file = some true :=
    fun heq => Or.inl (heq.symm.trans hchanged)
  cases cmd with
  | openVolume fs => exact absurd h (by simp [advanceRun])
  | kill => exact absurd h (by simp [advanceRun])
  | markDirty fs =>
    simp only [advanceRun] at h
    split at h
    swap
    · exact absurd h (by simp)
    split at h
    swap
    · exact absurd h (by simp)
    obtain ⟨-, -, rfl⟩ := Host.busy.inj (Option.some.inj h)
    simp only [RunLog.marked, Bool.and_eq_true, beq_iff_eq] at hchanged
    exact Or.inr hchanged.1
  | startDispatcher started =>
    simp only [advanceRun] at h
    split at h
    swap
    · exact absurd h (by simp)
    split at h
    · obtain ⟨-, -, rfl⟩ := Host.busy.inj (Option.some.inj h)
      exact hsame rfl
    · obtain ⟨-, -, rfl⟩ := Host.busy.inj (Option.some.inj h)
      exact hsame rfl
  | finish fs =>
    simp only [advanceRun] at h
    split at h
    swap
    · exact absurd h (by simp)
    split at h <;> exact absurd h (by simp)
  | callback c fs =>
    simp only [advanceRun] at h
    split at h
    · refine hsame (changed_carryOn (fun o s₁ hnext => ?_) (Option.some.inj h))
      rw [← (Host.busy.inj hnext).2.2]
    · exact absurd h (by simp)
  | syncActive fs =>
    simp only [advanceRun] at h
    split at h
    · refine hsame (changed_carryOn (fun o s₁ hnext => ?_) (Option.some.inj h))
      rw [← (Host.busy.inj hnext).2.2]
      cases o <;> rfl
    · exact absurd h (by simp)
  | lastSync fs =>
    simp only [advanceRun] at h
    split at h
    · refine hsame (changed_carryOn (fun o s₁ hnext => ?_) (Option.some.inj h))
      rw [← (Host.busy.inj hnext).2.2]
    · exact absurd h (by simp)
  | _ =>
    simp only [advanceRun] at h
    split at h
    · first
      | obtain ⟨-, -, rfl⟩ := Host.busy.inj (Option.some.inj h)
        exact hsame rfl
      | exact absurd (Option.some.inj h) (by simp)
    · exact absurd h (by simp)

/-- No run that is going on has been through the safe path. -/
def Host.Unsynced : Host → Prop
  | .idle _ => True
  | .busy _ _ log => log.synced = false

/-- The file is dirty, and no run that is going on may set the flag. -/
structure StaysDirty (master : Bytes) (h : Host) : Prop where
  sound : Sound master h
  flag : persistedClean master h.file = some false
  log : ∀ phase s log, h = .busy phase s log → log.changed = false ∧ log.synced = false

theorem StaysDirty.step [LawfulCrypto] {h h' : Host} {cmd : HostCommand}
    (hdirty : StaysDirty master h) (hstep : HonestStep master h cmd h') (hsynced : h'.Unsynced) :
    StaysDirty master h' := by
  have hsound := sound_step hdirty.sound hstep
  obtain ⟨clean, hclean⟩ := hsound.persisted (length_step hdirty.sound hstep).2
  refine ⟨hsound, ?_, ?_⟩
  · cases clean with
    | false => exact hclean
    | true =>
      obtain ⟨phase, s, log, rfl, hmay⟩ := flag_step hdirty.sound hstep hdirty.flag hclean
      obtain ⟨hchanged, hnot⟩ := hdirty.log phase s log rfl
      exact absurd hmay (by simp [RunLog.MaySetClean, hchanged, hnot])
  · rintro phase' s' log' rfl
    refine ⟨?_, hsynced⟩
    by_contra hchanged
    rw [Bool.not_eq_false] at hchanged
    cases h with
    | idle file =>
      have hadvance := hstep.advance
      cases cmd with
      | openVolume fs =>
        simp only [advance] at hadvance
        split at hadvance
        · obtain ⟨-, -, rfl⟩ := Host.busy.inj (Option.some.inj hadvance)
          exact absurd hchanged (by simp)
        · exact absurd (Option.some.inj hadvance) (by simp)
      | _ => exact absurd hadvance (by simp [advance])
    | busy phase s log =>
      rcases advanceRun_changed hstep.advance hchanged with hbefore | hbefore
      · exact absurd ((hdirty.log phase s log rfl).1.symm.trans hbefore) (by simp)
      · exact absurd (hdirty.flag.symm.trans hbefore) (by simp)

/-- **The clean flag is honest**, as long as no volume that was dirty when it was opened is marked
clean after a failed start: a step that makes a dirty file clean is one of a run that has dismounted
the drive and synced the volume, or of one that marked the volume dirty itself and never started the
dispatcher; and a dirty volume stays dirty through runs that do not complete the safe path. -/
theorem clean_flag_honest [LawfulCrypto] {options : VolumeOptions} {volumeId salt : FixedBytes 32}
    {d d' file : Device Sealed} {v : Volume} {events : List Event} {cmds : List HostCommand}
    {h : Host} (hcreate : createVolume master options volumeId salt d = (.ok v, d'))
    (hlife : Run (Step (powerFailures master) master) (.live ⟨v, d'⟩) events (.down file))
    (hrun : Run (HonestStep master) (.idle file) cmds h) :
    (∀ cmd h', HonestStep master h cmd h' → persistedClean master h.file = some false →
      persistedClean master h'.file = some true →
        ∃ phase s log, h = .busy phase s log ∧ log.MaySetClean) ∧
    ∀ file' cmds' h', h = .idle file' → persistedClean master file' = some false →
      Run (fun h cmd h' => HonestStep master h cmd h' ∧ h'.Unsynced) h cmds' h' →
        persistedClean master h'.file = some false := by
  have hcreated := createVolume_ok hcreate
  have hstart : World.Holds master v.bootstrap (.live ⟨v, d'⟩) fun _ => none := by
    refine ⟨rfl, [], ⟨hcreated.present, hcreated.onDisk, fun u hu => ?_⟩, rfl⟩
    rw [hcreated.pending] at hu
    exact absurd hu List.not_mem_nil
  obtain ⟨m, -, v₀, -, es, hsettled, -⟩ := hlife.simulation hstart fun _ _ _ _ hw hstep =>
    step_serves hw hstep
  have hsound : Sound master h :=
    hrun.invariant (P := Sound master) ⟨v₀, es, .of_onDisk hsettled.view⟩
    fun _ _ _ hs hstep => sound_step hs hstep
  refine ⟨fun cmd h' hstep => flag_step hsound hstep, ?_⟩
  rintro file' cmds' h' rfl hflag hrun'
  have hdirty : StaysDirty master (.idle file') :=
    ⟨hsound, hflag, fun _ _ _ hbusy => absurd hbusy (by simp)⟩
  exact (hrun'.invariant hdirty fun _ _ _ hs hstep => hs.step hstep.1 hstep.2).flag

end Crypto

/-! ## Two runs whose dispatcher does not start -/

section Runs

variable [Crypto]

instance (file : Device Sealed) (cmd : HostCommand) : Decidable (Permitted (.idle file) cmd) :=
  match cmd with
  | .openVolume fs => inferInstanceAs
      (Decidable ((∀ f ∈ fs, isKill f) ∧ file.disk.view.length < maxOffset))
  | .giveUp | .markDirty _ | .giveUpMarked | .startDispatcher _ | .markCleanAgain _ | .leaveDirty
  | .callback _ _ | .stateFileFails | .dismount _ | .syncActive _ | .contextGone | .storeSafe
  | .dispatcherStops | .lastSync _ | .lockFails | .finish _ | .kill => isTrue trivial

instance (phase : Phase) (s : Session) (log : RunLog) (cmd : HostCommand) :
    Decidable (Permitted (.busy phase s log) cmd) :=
  let fine (call : Call × List Fault) : Prop := (∀ f ∈ call.2, isProcessFault f) ∧
    SlotsWhole (s.script call.2) call.1 (call.1.run (s.script call.2)).2 ∧
    (call.1.run (s.script call.2)).2.file.disk.view.length < maxOffset
  decidable_of_iff (∀ call ∈ (cmd.call log).toList, fine call)
    (forall_congr' fun _ => imp_congr Option.mem_toList Iff.rfl)

instance (h : Host) (cmd : HostCommand) : Decidable (Permitted h cmd) :=
  match h with
  | .idle _ => inferInstance
  | .busy _ _ _ => inferInstance

/-- Carry out a command where the file permits it. -/
def advancePermitted (master : Bytes) (h : Host) (cmd : HostCommand) :
    Option (HostCommand × Host) :=
  if Permitted h cmd then (advance master h cmd).map (cmd, ·) else none

theorem advancePermitted_step {h h' : Host} {cmd cmd' : HostCommand}
    (hexec : advancePermitted master h cmd = some (cmd', h')) :
    cmd' = cmd ∧ HostStep master h cmd h' := by
  unfold advancePermitted at hexec
  split at hexec
  · next hpermitted =>
    obtain ⟨h₁, hadvance, heq⟩ := Option.map_eq_some_iff.mp hexec
    obtain ⟨rfl, rfl⟩ := Prod.mk.inj heq
    exact ⟨rfl, hpermitted, hadvance⟩
  · exact absurd hexec (by simp)

end Runs

/-- A run is killed behind `mark_dirty`, and the dispatcher of the next one does not start. -/
def failedStart : List HostCommand :=
  [.openVolume [], .markDirty [], .startDispatcher true, .kill,
    .openVolume [], .markDirty [], .startDispatcher false]

/-- Carry out the commands on a new volume and then one more, and look at the hosts before and after
that one. -/
def lastStep [Crypto] (cmds : List HostCommand) (cmd : HostCommand) :
    Option (Session × Host × Host) :=
  (twoBlocks [7]).bind fun s => (execute (advancePermitted [7]) cmds (.idle s.file)).bind fun r =>
    (advancePermitted [7] r.2 cmd).map fun after => (s, r.2, after.2)

theorem lastStep_eq_some [Crypto] {cmds : List HostCommand} {cmd : HostCommand} {s : Session}
    {h h' : Host} {step : Host → HostCommand → Host → Prop}
    (hstep : ∀ c ∈ cmds, ∀ h h', HostStep [7] h c h' → step h c h')
    (hlast : lastStep cmds cmd = some (s, h, h')) :
    twoBlocks [7] = some s ∧ HostStep [7] h cmd h' ∧ ∃ ran, Run step (.idle s.file) ran h := by
  obtain ⟨s', hs, hrest⟩ := Option.bind_eq_some_iff.mp hlast
  obtain ⟨⟨ran, h₁⟩, hrun, hend⟩ := Option.bind_eq_some_iff.mp hrest
  obtain ⟨⟨cmd', h₂⟩, hadvance, heq⟩ := Option.map_eq_some_iff.mp hend
  obtain ⟨rfl, rfl, rfl⟩ : s' = s ∧ h₁ = h ∧ h₂ = h' := by simpa using heq
  refine ⟨hs, (advancePermitted_step hadvance).2, ran, execute_run
    (fun c hc h₃ c' h₄ hnext => ?_) hrun⟩
  obtain ⟨rfl, hhost⟩ := advancePermitted_step hnext
  exact hstep c' hc _ _ hhost

/-- The flag of a host, and whether its run may set it. -/
def Host.flags [Crypto] (master : Bytes) (h : Host) : Option Bool × Bool :=
  (persistedClean master h.file, match h with
    | .idle _ => false
    | .busy _ _ log => log.synced || log.changed && !log.started)

theorem Host.maySetClean_iff [Crypto] (master : Bytes) (h : Host) :
    (∃ phase s log, h = .busy phase s log ∧ log.MaySetClean) ↔ (h.flags master).2 = true := by
  cases h with
  | idle file => simp [Host.flags]
  | busy phase s log =>
    simp only [Host.flags, Host.busy.injEq, RunLog.MaySetClean]
    constructor
    · rintro ⟨_, _, _, ⟨rfl, rfl, rfl⟩, hsynced | ⟨hchanged, hstarted⟩⟩
      · simp [hsynced]
      · simp [hchanged, hstarted]
    · intro hmay
      exact ⟨_, _, _, ⟨rfl, rfl, rfl⟩, by simpa using hmay⟩

/-- **A failed start marks a dirty volume clean.** -/
theorem failed_start_marks_clean :
    let _ := tableCrypto []
    ∃ s cmds h h', twoBlocks [7] = some s ∧ Run (HostStep [7]) (.idle s.file) cmds h ∧
      HostStep [7] h (.markCleanAgain []) h' ∧ persistedClean [7] h.file = some false ∧
      persistedClean [7] h'.file = some true ∧
      ¬∃ phase s log, h = .busy phase s log ∧ log.MaySetClean := by
  let _ := tableCrypto []
  have hexec : (lastStep failedStart (.markCleanAgain [])).map
      (fun r => (r.2.1.flags [7], r.2.2.flags [7])) =
        some ((some false, false), (some true, false)) := by
    decide +kernel
  obtain ⟨⟨s, h, h'⟩, hlast, hflags⟩ := Option.map_eq_some_iff.mp hexec
  obtain ⟨hs, hstep, cmds, hrun⟩ := lastStep_eq_some (fun _ _ _ _ hstep => hstep) hlast
  obtain ⟨⟨hbefore, hmay⟩, hafter, -⟩ : ((h.flags [7]).1 = some false ∧ (h.flags [7]).2 = false) ∧
      (h'.flags [7]).1 = some true ∧ (h'.flags [7]).2 = false := by
    simpa [Prod.ext_iff] using hflags
  refine ⟨s, cmds, h, h', hs, hrun, hstep, hbefore, hafter, ?_⟩
  rw [Host.maySetClean_iff [7], hmay]
  simp

/-- The run that is going on found the volume clean. -/
def Host.foundClean : Host → Bool
  | .idle _ => true
  | .busy _ _ log => log.openedClean

/-- A volume that was clean is marked clean again after a failed start. -/
theorem clean_flag_honest_failedStart :
    let _ := tableCrypto []
    ∃ s cmds h h', twoBlocks [7] = some s ∧ Run (HonestStep [7]) (.idle s.file) cmds h ∧
      HonestStep [7] h (.markCleanAgain []) h' ∧ persistedClean [7] h.file = some false ∧
      persistedClean [7] h'.file = some true ∧
      ∃ phase s log, h = .busy phase s log ∧ log.MaySetClean := by
  let _ := tableCrypto []
  have _ := tableCrypto_lawful []
  have hexec :
    (lastStep [.openVolume [], .markDirty [], .startDispatcher false] (.markCleanAgain [])).map
      (fun r => (r.2.1.foundClean, persistedClean [7] r.2.1.file, persistedClean [7] r.2.2.file)) =
      some (true, some false, some true) := by
    decide +kernel
  obtain ⟨⟨s, h, h'⟩, hlast, hflags⟩ := Option.map_eq_some_iff.mp hexec
  obtain ⟨hfound, hbefore, hafter⟩ : h.foundClean = true ∧ persistedClean [7] h.file = some false ∧
      persistedClean [7] h'.file = some true := by
    simpa [Prod.ext_iff] using hflags
  have hhonest : ∀ c ∈ [HostCommand.openVolume [], .markDirty [], .startDispatcher false],
      ∀ h h', HostStep [7] h c h' → HonestStep [7] h c h' := by
    intro c hc h h' hstep
    refine ⟨hstep, ?_⟩
    rintro fs phase s log rfl
    exact absurd hc (by simp)
  obtain ⟨hs, hstep, cmds, hrun⟩ := lastStep_eq_some hhonest hlast
  have hlast' : HonestStep [7] h (.markCleanAgain []) h' := by
    refine ⟨hstep, ?_⟩
    rintro fs phase s log - rfl
    exact hfound
  exact ⟨s, cmds, h, h', hs, hrun, hlast', hbefore, hafter,
    (clean_flag_honest (createSession_eq_some.mp hs) (Run.refl.step .close) hrun).1 _ _ hlast'
      hbefore hafter⟩

end OrIsyVra.Mount
