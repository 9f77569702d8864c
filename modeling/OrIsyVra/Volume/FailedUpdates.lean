import OrIsyVra.Volume.Process

/-!
# Updates that fail

What memory holds after an update that returned an error, and whether the superblock that is active
in memory is durable.

`mark_clean` and `mark_dirty` change memory after their last sync, so an error leaves memory alone.
`write_blocks` changes memory before it: when that sync fails, the call returns an error with the
batch already in memory (`writeBlocks_error_keeps_iff`).  Everywhere else an error leaves memory
alone, and as long as no process opens a file with a superblock in it that was never synced, the
active superblock stays durable (`Anchored`): no update of a call reaches it, and a call that
switches slots has synced.
-/

namespace OrIsyVra.Volume

open ByteString MachineWord DurableFile FaultProgram Runs

section Crypto

variable [Crypto]

/-! ## The last sync of a batch -/

/-- `write_blocks` on a batch that is not empty, up to its last sync. -/
def writeBlocksUnsynced (blocks : List (UInt64 × Bytes)) :
    Prog Session VolumeError (List UInt64) := do
  let s ← Prog.get
  let v := s.volume
  Prog.ofExcept (validateBatch v.bootstrap [] blocks)
  let (records, nextOffset) ← Session.onFile (appendRecords v v.state.committedEnd blocks)
  Session.onFile syncData
  let nextState ← Prog.ofExcept (commitState v.state records.length nextOffset)
  Session.onFile (writeSuperblock v.keys v.bootstrap v.activeSuper.other nextState)
  Prog.modify fun s => { s with
    volume := { v with
      index := insertRecords v.index records
      state := nextState
      activeSuper := v.activeSuper.other } }
  pure (records.map fun record => record.2.generation)

theorem writeBlocks_eq {blocks : List (UInt64 × Bytes)} (h : blocks ≠ []) :
    writeBlocks blocks = (do
      let gens ← writeBlocksUnsynced blocks
      Session.onFile syncAll
      pure gens) := by
  have hne : blocks.isEmpty = false := by simpa using h
  unfold writeBlocks writeBlocksUnsynced
  simp only [hne, Bool.false_eq_true, if_false, bind_assoc, pure_bind]

/-- Up to the last sync an error leaves memory alone, and success moves it on. -/
theorem wp_writeBlocksUnsynced (s : Session) (blocks : List (UInt64 × Bytes)) :
    wp (writeBlocksUnsynced blocks)
      ⟨fun _ s' => s'.volume.state.generation ≠ s.volume.state.generation,
        fun _ s' => s'.volume = s.volume, fun _ => True⟩ s := by
  unfold writeBlocksUnsynced
  simp only [wp_bind, wp_get]
  rw [wp_ofExcept]
  refine ⟨fun _ _ => ?_, fun _ _ => rfl⟩
  simp only [Session.onFile, wp_bind, wp_zoom]
  refine wp_of_forall (fun r d₁ => ?_) (fun _ _ => trivial) fun _ => trivial
  dsimp only
  refine wp_of_forall (fun _ d₂ => ?_) (fun _ _ => trivial) fun _ => trivial
  dsimp only
  rw [wp_ofExcept]
  refine ⟨fun next hnext => ?_, fun _ _ => rfl⟩
  simp only [wp_bind, wp_zoom]
  refine wp_of_forall (fun _ d₃ => ?_) (fun _ _ => trivial) fun _ => trivial
  simp only [wp_modify, wp_pure]
  intro hsame
  have hgeneration := (commitState_eq_ok hnext).1
  rw [hsame] at hgeneration
  omega

/-- The last sync of the call fails, and everything before it succeeds. -/
def FinalSyncFails (s : Session) (blocks : List (UInt64 × Bytes)) : Prop :=
  blocks ≠ [] ∧ ∃ gens s₁ e s₂, writeBlocksUnsynced blocks s = (.ok gens, s₁) ∧
    Session.onFile syncAll s₁ = (.error e, s₂)

omit [Crypto] in
theorem volume_onFile {α : Type} (p : VolumeIO α) (s : Session) :
    (Session.onFile p s).2.volume = s.volume := by
  unfold Session.onFile Prog.zoom
  rcases p s.file with ⟨o, file⟩
  rfl

/-- **An error of `write_blocks` leaves memory alone exactly when it is not the last sync that
fails.** -/
theorem writeBlocks_error_keeps_iff {s : Session} {blocks : List (UInt64 × Bytes)} :
    (∀ e s', writeBlocks blocks s = (.error e, s') → s'.volume = s.volume) ↔
      ¬FinalSyncFails s blocks := by
  have hbefore := wp_writeBlocksUnsynced s blocks
  constructor
  · rintro hkeeps ⟨hne, gens, s₁, e, s₂, hrun, hsync⟩
    have hvolume := volume_onFile syncAll s₁
    rw [hsync] at hvolume
    have hsame := hkeeps e s₂ (by rw [writeBlocks_eq hne, bind_ok hrun, bind_error hsync])
    exact hbefore.ok hrun (by rw [← hvolume, hsame])
  · intro hsync e s' h
    by_cases hempty : blocks = []
    · subst hempty
      exact absurd h (by simp [writeBlocks, pure, Prog.pure])
    rw [writeBlocks_eq hempty] at h
    rcases hrun : writeBlocksUnsynced blocks s with ⟨gens | e₁ | _, s₁⟩
    · -- everything before the last sync succeeded, so that is what failed
      rw [bind_ok hrun] at h
      rcases hlast : Session.onFile syncAll s₁ with ⟨u | e₂ | _, s₂⟩
      · rw [bind_ok hlast] at h
        exact absurd h (by simp [pure, Prog.pure])
      · exact absurd ⟨hempty, gens, s₁, e₂, s₂, hrun, hlast⟩ hsync
      · rw [bind_crash hlast] at h
        exact absurd h (by simp)
    · rw [bind_error hrun] at h
      obtain ⟨-, rfl⟩ : e₁ = e ∧ s₁ = s' := by simpa using h
      exact hbefore.error hrun
    · rw [bind_crash hrun] at h
      exact absurd h (by simp)

variable {master : Bytes} {s s' : Session} {es : List Entry}

theorem setCleanState_error_keeps [LawfulCrypto] {clean : Bool} {e : VolumeError}
    (h : (setCleanState clean s).1 = .error e) : (setCleanState clean s).2.volume = s.volume := by
  have heffect := setCleanState_effect s clean
  rw [h] at heffect
  generalize (setCleanState clean s).2 = s' at heffect ⊢
  cases heffect with
  | untouched _ _ _ => rfl
  | torn _ _ _ _ _ => rfl

/-- The calls whose last sync is not the one that fails. -/
def SyncsLast (s : Session) (c : Call) : Prop :=
  ∀ blocks, c = .writeBlocks blocks → ¬FinalSyncFails s blocks

/-- **A call that returns an error leaves memory alone**, but for the last sync of a batch. -/
theorem Call.error_keeps [LawfulCrypto] (c : Call) {e : VolumeError} (hsync : SyncsLast s c)
    (hs : Sees master s es) (hd : ¬s.file.MayDamage) (h : (c.run s).1 = .error e) :
    (c.run s).2.volume = s.volume := by
  have herror : ∀ {α : Type} {o : Outcome VolumeError α} {f : α → Reply}, o.map f = .error e →
      o = .error e := by
    intro α o f ho
    cases o with
    | ok a => exact absurd ho (by simp [Outcome.map])
    | error e' => exact congrArg Outcome.error (Outcome.error.inj ho)
    | crash => exact absurd ho (by simp [Outcome.map])
  cases c with
  | readBlock k =>
    rw [Call.run, run_map]
    exact (readBlock_effect k hd hs.log).volume
  | writeBlocks blocks =>
    rw [Call.run, run_map] at h ⊢
    exact writeBlocks_error_keeps_iff.mpr (hsync blocks rfl) e _ (Prod.ext (herror h) rfl)
  | markClean =>
    rw [Call.run, run_map] at h ⊢
    exact setCleanState_error_keeps (herror h)
  | markDirty =>
    rw [Call.run, run_map] at h ⊢
    exact setCleanState_error_keeps (herror h)
  | sync =>
    rw [Call.run, run_map]
    exact (sync_effect s).volume

/-! ## The active superblock -/

/-- The active superblock is synced: the durable image has it, and nothing that is pending reaches
it. -/
structure Anchored (s : Session) : Prop where
  slot : SlotHolds s.volume.keys s.volume.bootstrap s.file.disk.durable s.volume.activeSuper
    s.volume.state
  pending : ∀ u ∈ s.file.disk.pending, u.Protects s.volume.activeSuper.offset superSlotSize

/-- Where nothing is pending, the durable image is what the process sees. -/
theorem Anchored.of_synced (hs : Sees master s es) (h : s.file.disk.pending = []) : Anchored s := by
  have hslot := hs.slot
  have hview : s.file.disk.view = s.file.disk.durable := by
    rw [Disk.view, h]
    rfl
  rw [hview] at hslot
  refine ⟨hslot, fun u hu => ?_⟩
  rw [h] at hu
  exact absurd hu List.not_mem_nil

/-- No update of an open volume reaches its active superblock. -/
theorem Anchored.of_reaches {file : Device Sealed} (h : Anchored s) (hs : Sees master s es)
    (hreaches : s.file.disk.Reaches (Touches s.volume) file.disk) : Anchored ⟨s.volume, file⟩ := by
  have hstart := hs.logStart_le
  obtain ⟨-, hhi⟩ := s.volume.activeSuper.offset_bounds
  have hdisjoint := s.volume.activeSuper.offset_disjoint
  obtain ⟨hslice, hlen, hpending⟩ := hreaches.protects
    (fun u hu => hu.protects (by omega) (by omega)) h.pending h.slot.fits
  exact ⟨h.slot.congr hslice hlen, hpending⟩

/-- A call that returns has synced what it moved to. -/
theorem Call.ok_settled [LawfulCrypto] (c : Call) {r : Reply} (hs : Sees master s es)
    (hd : ¬s.file.MayDamage) (h : (c.run s).1 = .ok r) :
    (c.run s).2.volume = s.volume ∨ (c.run s).2.file.disk.pending = [] := by
  have hok : ∀ {α : Type} {o : Outcome VolumeError α} {f : α → Reply}, o.map f = .ok r →
      ∃ a, o = .ok a := by
    intro α o f ho
    cases o with
    | ok a => exact ⟨a, rfl⟩
    | error e => exact absurd ho (by simp [Outcome.map])
    | crash => exact absurd ho (by simp [Outcome.map])
  have hflag : ∀ clean a, (setCleanState clean s).1 = .ok a →
      (setCleanState clean s).2.volume = s.volume ∨
        (setCleanState clean s).2.file.disk.pending = [] := by
    intro clean a ho
    have heffect := setCleanState_effect s clean
    rw [ho] at heffect
    generalize (setCleanState clean s).2 = s' at heffect ⊢
    cases heffect with
    | unchanged _ => exact Or.inl rfl
    | untouched _ _ hcut => exact absurd hcut id
    | torn _ _ _ hcut _ => exact absurd hcut id
    | changed _ _ hafter =>
      right
      rw [hafter.disk]
      rfl
  cases c with
  | readBlock k =>
    rw [Call.run, run_map]
    exact Or.inl (readBlock_effect k hd hs.log).volume
  | writeBlocks blocks =>
    rw [Call.run, run_map] at h ⊢
    obtain ⟨gens, ho⟩ := hok h
    have heffect := writeBlocks_effect s blocks
    rw [ho] at heffect
    dsimp only
    generalize (Volume.writeBlocks blocks s).2 = s' at heffect ⊢
    cases heffect with
    | empty _ => exact Or.inl rfl
    | staging _ _ _ _ hno _ _ => exact absurd rfl (hno gens)
    | uncommitted _ _ _ _ => exact Or.inl rfl
    | torn _ _ _ _ _ hcut _ => exact absurd hcut id
    | unsynced _ _ _ _ _ hcut => exact absurd hcut id
    | committed _ _ _ _ hafter =>
      right
      rw [hafter.disk]
      rfl
  | markClean =>
    rw [Call.run, run_map] at h ⊢
    obtain ⟨a, ho⟩ := hok h
    exact hflag true a ho
  | markDirty =>
    rw [Call.run, run_map] at h ⊢
    obtain ⟨a, ho⟩ := hok h
    exact hflag false a ho
  | sync =>
    rw [Call.run, run_map]
    exact Or.inl (sync_effect s).volume

/-- **A call keeps the active superblock durable**, whether it returns a value or an error. -/
theorem Call.anchored [LawfulCrypto] (c : Call) (hsync : SyncsLast s c) (h : Anchored s)
    (hs : Sees master s es) (hd : ¬s.file.MayDamage) (ho : (c.run s).1 ≠ .crash) :
    Anchored (c.run s).2 := by
  obtain ⟨hreaches, es', -, hs'⟩ := c.moves hs hd
  have hvolume : (c.run s).2.volume = s.volume ∨ (c.run s).2.file.disk.pending = [] := by
    rcases hrun : (c.run s).1 with r | e | _
    · exact c.ok_settled hs hd hrun
    · exact Or.inl (c.error_keeps hsync hs hd hrun)
    · exact absurd hrun ho
  rcases hvolume with hsame | hnil
  · have hanchored := h.of_reaches hs hreaches
    rwa [← hsame] at hanchored
  · exact Anchored.of_synced hs' hnil

/-! ## Runs -/

/-- Every superblock an open can find in the file is synced. -/
def SupersSynced (master : Bytes) (file : Device Sealed) : Prop :=
  ∀ b keys slot state, Bootstrap.decode (slice file.disk.view 0 bootstrapSize) = .ok b →
    deriveKeys master b = .ok keys → SlotHolds keys b file.disk.view slot state →
    ∀ u ∈ file.disk.pending, u.Protects slot.offset superSlotSize

/-- A host that fails as it likes, but for the last sync of a batch, and where no process opens a
superblock that was never synced. -/
def syncingHost (master : Bytes) : Environment where
  allows f := ∀ bs, f ≠ .damaged bs
  crash := Crashes
  permits := SyncsLast
  opens := SupersSynced master

theorem syncingHost_hosts (master : Bytes) : (syncingHost master).Hosts :=
  ⟨fun _ h => h, fun _ _ h => h⟩

/-- An open volume whose superblocks are synced. -/
theorem anchored_of_open {b : Bootstrap} {d file : Device Sealed} {v : Volume} (hbased : Based b d)
    (hopens : SupersSynced master d) (hd : ¬d.MayDamage)
    (h : openVolume master d = (.ok v, file)) : Anchored ⟨v, file⟩ := by
  obtain ⟨es, hopened, hs, hdisk | hdisk⟩ := openVolume_sees hd h
  · have hpending := hopens _ _ _ _ hopened.bootstrap hopened.keys hopened.slot
    obtain ⟨-, hhi⟩ := v.activeSuper.offset_bounds
    have hlength := hbased.length
    have hfits : v.activeSuper.offset + superSlotSize ≤ d.disk.durable.length := by omega
    obtain ⟨hslice, -⟩ := Disk.slice_view hpending hfits
    refine ⟨?_, ?_⟩
    · show SlotHolds v.keys v.bootstrap file.disk.durable v.activeSuper v.state
      rw [hdisk]
      exact hopened.slot.congr hslice.symm hfits
    · show ∀ u ∈ file.disk.pending, _
      rw [hdisk]
      exact hpending
  · refine Anchored.of_synced hs ?_
    show file.disk.pending = []
    rw [hdisk]
    rfl

/-- The active superblock of an open volume is durable. -/
def World.IsAnchored : World → Prop
  | .live s => Anchored s
  | .down _ => True

theorem step_anchored [LawfulCrypto] {b : Bootstrap} {w w' : World} {e : Event}
    (hw : Hosted master b w) (ha : w.IsAnchored) (h : Step (syncingHost master) master w e w') :
    w'.IsAnchored := by
  cases h with
  | @call s s' c fs o hpermits hfs hrun ho =>
    obtain ⟨-, -, es, hs⟩ := hw
    have hanchored := c.anchored hpermits (⟨ha.slot, ha.pending⟩ : Anchored (s.script fs))
      (hs : Sees master (s.script fs) es) ((syncingHost_hosts master).not_mayDamage hfs s.file)
    rw [hrun] at hanchored
    exact hanchored ho
  | @opened file file' v fs hopens hfs hrun =>
    exact anchored_of_open (Based.script hw fs) hopens
      ((syncingHost_hosts master).not_mayDamage hfs file) hrun
  | crashed _ _ _ _ => trivial
  | close => trivial
  | openFailed _ _ _ => trivial
  | openCrashed _ _ _ _ => trivial
  | cutLive _ => trivial
  | cutDown _ => trivial

/-- Where the volume stays, its log does. -/
theorem Moves.log_eq {v v' : Volume} {es es' : List Entry} (h : Moves v es v' es') (hv : v' = v) :
    es' = es := by
  cases h with
  | stays => rfl
  | batch _ _ hnext =>
    have hgeneration := (commitState_eq_ok hnext).1
    have hsame := congrArg (fun v : Volume => v.state.generation.toNat) hv
    simp only [committed] at hsame
    omega
  | flag _ => rfl

omit [Crypto] in
theorem blockGeneration_eq (k : UInt64) (s : Session) :
    (blockGeneration k s).1 = match validateBlockIndex s.volume.bootstrap k with
      | .ok _ => .ok ((s.volume.index.lookup k).map RecordIndex.generation)
      | .error e => .error e := by
  unfold blockGeneration
  rw [bind_ok (rfl : Prog.get s = (.ok s, s))]
  cases validateBlockIndex s.volume.bootstrap k <;> rfl

/-- **A failed update leaves the volume as it was.**  In every run in which the last sync of a batch
does not fail and no superblock is opened that was never synced: the active superblock is durable
and is the state in memory, and a call that returns an error has changed neither memory nor any
answer. -/
theorem failed_updates_keep [LawfulCrypto] {options : VolumeOptions} {volumeId salt : FixedBytes 32}
    {d d' : Device Sealed} {v : Volume} {events : List Event} {s : Session}
    (hcreate : createVolume master options volumeId salt d = (.ok v, d'))
    (hrun : Run (Step (syncingHost master) master) (.live ⟨v, d'⟩) events (.live s)) :
    Anchored s ∧ ∀ c e s', Step (syncingHost master) master (.live s) (.call c (.error e))
      (.live s') →
      s'.volume = s.volume ∧ info s'.volume = info s.volume ∧ ∀ k,
        (readBlock k (s'.script [])).1 = (readBlock k (s.script [])).1 ∧
        (blockGeneration k s').1 = (blockGeneration k s).1 := by
  obtain ⟨hhosted, hs₀⟩ := hosted_of_created hcreate
  have hstart : Hosted master v.bootstrap (.live ⟨v, d'⟩) ∧ World.IsAnchored (.live ⟨v, d'⟩) :=
    ⟨hhosted, Anchored.of_synced hs₀ (createVolume_ok hcreate).pending⟩
  obtain ⟨⟨-, -, es, hs⟩, hanchored⟩ := Run.invariant
    (P := fun w => Hosted master v.bootstrap w ∧ w.IsAnchored) hrun hstart
    fun w e w' hw h => ⟨step_hosted (syncingHost_hosts master) hw.1 h, step_anchored hw.1 hw.2 h⟩
  refine ⟨hanchored, fun c e s' h => ?_⟩
  cases h with
  | @call _ _ _ fs _ hpermits hfs hcall _ =>
    have hscripted : Sees master (s.script fs) es := hs
    have hd := (syncingHost_hosts master).not_mayDamage hfs s.file
    have hvolume := c.error_keeps hpermits hscripted hd (congrArg Prod.fst hcall)
    obtain ⟨-, es', hmoves, hs'⟩ := c.moves hscripted hd
    rw [hcall] at hvolume hmoves hs'
    have hvolume' : s'.volume = s.volume := hvolume
    obtain rfl := hmoves.log_eq hvolume
    refine ⟨hvolume', congrArg info hvolume', fun k => ⟨?_, ?_⟩⟩
    · rw [readBlock_answers k hs'.log, readBlock_answers k hs.log, hvolume']
    · rw [blockGeneration_eq, blockGeneration_eq, hvolume']

end Crypto

/-! ## The last sync of a batch fails -/

/-- Every call of the batch succeeds, but for the last sync. -/
def lastSyncFails : List Fault := List.replicate 6 .none ++ [.fail 0]

/-- The batch returns an error, and memory serves it; its superblock is not durable. -/
theorem failed_sync_moves_memory :
    let _ := tableCrypto []
    ∃ s e s', twoBlocks [7] = some s ∧
      writeBlocks [(0, [1])] (s.script lastSyncFails) = (.error e, s') ∧
      s'.volume.state ≠ s.volume.state ∧
      (readBlock 0 (s'.script [])).1 ≠ (readBlock 0 (s.script [])).1 ∧
      ¬SlotHolds s'.volume.keys s'.volume.bootstrap s'.file.disk.durable s'.volume.activeSuper
        s'.volume.state := by
  let _ := tableCrypto []
  let moved : Session → Bool := fun s =>
    let r := writeBlocks [(0, [1])] (s.script lastSyncFails)
    r.1 = .error (.io .device) ∧ r.2.volume.state ≠ s.volume.state ∧
      (readBlock 0 (r.2.script [])).1 ≠ (readBlock 0 (s.script [])).1 ∧
      decodeSuperblock r.2.volume.keys r.2.volume.bootstrap r.2.volume.activeSuper
        (slice r.2.file.disk.durable r.2.volume.activeSuper.offset superSlotSize) ≠
        .ok (some r.2.volume.state)
  have hmoved : (twoBlocks [7]).map moved = some true := by decide +kernel
  obtain ⟨s, hs, hrun⟩ := Option.map_eq_some_iff.mp hmoved
  obtain ⟨herror, hstate, hread, hslot⟩ := of_decide_eq_true hrun
  exact ⟨s, _, _, hs, Prod.ext herror rfl, hstate, hread, fun h => hslot h.decode⟩

/-- A batch that fails in its records, and one that fails in its slot write. -/
def failedUpdates : List Command :=
  [.call (.writeBlocks [(0, [1])]) [] true,
    .call (.writeBlocks [(0, [2]), (1, [3])]) [.none, .fail 5] true,
    .call (.writeBlocks [(1, [3])]) (List.replicate 5 .none ++ [.fail 100]) true]

def failedUpdatesEvents : List Event :=
  [.call (.writeBlocks [(0, [1])]) (.ok (.generations [1])),
    .call (.writeBlocks [(0, [2]), (1, [3])]) (.error (.io .device)),
    .call (.writeBlocks [(1, [3])]) (.error (.io .device))]

/-- A batch that returns an error has left memory alone. -/
def errorsKeep [Crypto] : World → Command → Bool
  | .live s, .call (.writeBlocks blocks) fs _ =>
    match writeBlocks blocks (s.script fs) with
    | (.error _, s') => decide (s'.volume = s.volume)
    | _ => true
  | .live _, _ => true
  | .down _, _ => false

theorem syncsLast_of_errorsKeep [Crypto] {s : Session} {c : Call} {fs : List Fault} {keep : Bool}
    (h : errorsKeep (.live s) (.call c fs keep)) : SyncsLast (s.script fs) c := by
  rintro blocks rfl
  refine writeBlocks_error_keeps_iff.mp fun e s' hrun => ?_
  simp only [errorsKeep, hrun] at h
  exact of_decide_eq_true h

theorem failed_updates_keep_failedUpdates :
    let _ := tableCrypto []
    ∃ s₀ s, twoBlocks [7] = some s₀ ∧
      Run (Step (syncingHost [7]) [7]) (.live s₀) failedUpdatesEvents (.live s) ∧ Anchored s := by
  let _ := tableCrypto []
  have _ := tableCrypto_lawful []
  have hexec : ((twoBlocks [7]).bind fun s =>
      execute (Command.guarded [7] errorsKeep) failedUpdates (.live s)).map
      (fun r => (r.1, r.2.session?.isSome)) = some (failedUpdatesEvents, true) := by
    decide +kernel
  obtain ⟨⟨events, w⟩, hevents, hends⟩ := Option.map_eq_some_iff.mp hexec
  obtain ⟨rfl, hlive⟩ : events = failedUpdatesEvents ∧ w.session?.isSome = true := by
    simpa using hends
  obtain ⟨s₀, hs₀, hall⟩ := Option.bind_eq_some_iff.mp hevents
  have hfaults : ∀ cmd ∈ failedUpdates, ∀ f ∈ cmd.faults, ∀ bs, f ≠ .damaged bs := by
    intro cmd hcmd f hf bs
    have hkinds : ∀ cmd ∈ failedUpdates, ∀ f ∈ cmd.faults, f ∈ [.none, .fail 5, .fail 100] := by
      decide
    rintro rfl
    exact absurd (hkinds cmd hcmd _ hf) (by simp)
  have hrun : Run (Step (syncingHost [7]) [7]) (.live s₀) failedUpdatesEvents w :=
    execute_guarded hfaults (fun keep file => crashes_cutFile keep file)
      (fun _ _ _ _ h => syncsLast_of_errorsKeep h) (fun _ _ _ h => absurd h (by simp [errorsKeep]))
      hall
  cases w with
  | down file => exact absurd hlive (by simp [World.session?])
  | live s => exact ⟨s₀, s, hs₀, hrun, (failed_updates_keep (createSession_eq_some.mp hs₀) hrun).1⟩

end OrIsyVra.Volume
