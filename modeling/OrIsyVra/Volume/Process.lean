import OrIsyVra.Volume.System

/-!
# What a process sees of its volume

The host may fail any call, the process may die in any call, and the power may go at any time; only
damaged reads are left out.  Two things hold throughout.

The view of the file holds the volume that is in memory, with the log its index was made from
(`Sees`): a call that fails has not touched anything the volume in memory depends on.  How the
volume and its log move is `Moves`.

The file keeps its bootstrap and its length, durably and under everything that is pending (`Based`),
because no operation issues any other update than those of `Touches`.  So every process that opens
the file works on the same volume, under the same keys.
-/

namespace OrIsyVra.Volume

open ByteString MachineWord DurableFile FaultProgram KeyedLog Runs

/-! ## What is issued -/

/-- The updates an open volume issues: writes behind its committed end, and writes to the slot it
does not use. -/
def Touches (v : Volume) (u : Update) : Prop :=
  ∃ off bs, u = .write off bs ∧ (v.state.committedEnd.toNat ≤ off ∨
    off = v.activeSuper.other.offset ∧ bs.length ≤ superSlotSize)

/-- They protect what is before the committed end and apart from that slot. -/
theorem Touches.protects {v : Volume} {u : Update} (h : Touches v u) {lo n : ℕ}
    (hend : lo + n ≤ v.state.committedEnd.toNat)
    (hslot : lo + n ≤ v.activeSuper.other.offset ∨
      v.activeSuper.other.offset + superSlotSize ≤ lo) : u.Protects lo n := by
  obtain ⟨off, bs, rfl, hoff | ⟨hoff, hlen⟩⟩ := h
  · exact Or.inl (by omega)
  · simp only [Update.Protects]
    omega

theorem TailWrites.touches {v : Volume} {us : List Update}
    (h : TailWrites v.state.committedEnd.toNat us) {u : Update} (hu : u ∈ us) : Touches v u := by
  obtain ⟨off, bs, rfl, hoff⟩ := h u hu
  exact ⟨off, bs, rfl, Or.inl hoff⟩

theorem touches_slot {v : Volume} {bytes : Bytes} (hbytes : bytes.length = superSlotSize)
    (part : ℕ) : Touches v (.write v.activeSuper.other.offset (bytes.take part)) := by
  refine ⟨_, _, rfl, Or.inr ⟨rfl, ?_⟩⟩
  rw [List.length_take, hbytes]
  exact min_le_right _ _

/-- As `touches_slot`, for a slot that is written in full. -/
theorem touches_whole_slot {v : Volume} {bytes : Bytes} (hbytes : bytes.length = superSlotSize) :
    Touches v (.write v.activeSuper.other.offset bytes) :=
  ⟨_, _, rfl, Or.inr ⟨rfl, hbytes.le⟩⟩

variable [Crypto]

theorem WriteEffect.reaches [LawfulCrypto] {s s' : Session} {blocks : List (UInt64 × Bytes)}
    {o : Outcome VolumeError (List UInt64)} (h : WriteEffect s blocks o s') :
    s.file.disk.Reaches (Touches s.volume) s'.file.disk := by
  have hstaged : ∀ {rs last}, Appends s.volume s.volume.state.committedEnd blocks rs last →
      s.file.disk.Reaches (Touches s.volume)
        (s.file.disk.pushAll (rs.flatMap Appended.updates)).sync := fun happends =>
    (Disk.Reaches.refl.pushAll fun _ hu => happends.tailWrites.touches hu).sync
  cases h with
  | empty _ => exact .refl
  | rejected _ => exact .refl
  | staging _ htail _ hafter _ _ _ =>
    rw [hafter.disk]
    exact Disk.Reaches.refl.pushAll fun _ hu => htail.touches hu
  | uncommitted _ happends hafter _ =>
    rw [hafter.disk]
    exact hstaged happends
  | torn _ happends _ himage hafter _ _ =>
    rw [hafter.disk]
    exact (hstaged happends).push (touches_slot himage.length _)
  | unsynced _ happends _ himage hafter _ =>
    rw [hafter.disk]
    exact (hstaged happends).push (touches_whole_slot himage.length)
  | committed _ happends _ himage hafter =>
    rw [hafter.disk]
    exact ((hstaged happends).push (touches_whole_slot himage.length)).sync

theorem CleanEffect.reaches [LawfulCrypto] {s s' : Session} {clean : Bool}
    {o : Outcome VolumeError Unit} (h : CleanEffect s clean o s') :
    s.file.disk.Reaches (Touches s.volume) s'.file.disk := by
  cases h with
  | unchanged _ => exact .refl
  | untouched _ hafter _ =>
    rw [hafter.disk]
    exact .refl
  | torn _ himage hafter _ _ =>
    rw [hafter.disk]
    exact Disk.Reaches.refl.push (touches_slot himage.length _)
  | changed _ himage hafter =>
    rw [hafter.disk]
    exact (Disk.Reaches.refl.push (touches_whole_slot himage.length)).sync

omit [Crypto] in
theorem SyncEffect.reaches {P : Update → Prop} {s s' : Session} {o : Outcome VolumeError Unit}
    (h : SyncEffect s o s') : s.file.disk.Reaches P s'.file.disk := by
  rcases h.file with hfile | hfile
  · rw [hfile.disk]
    exact .refl
  · rw [hfile.disk]
    exact Disk.Reaches.refl.sync

/-! ## How the volume moves -/

/-- The volume and its log after a call. -/
inductive Moves (v : Volume) (es : List Entry) : Volume → List Entry → Prop where
  | stays : Moves v es v es
  | batch {blocks : List (UInt64 × Bytes)} {rs : List Appended} {last : UInt64}
      {next : SuperState} : BatchValid v.bootstrap blocks →
      Appends v v.state.committedEnd blocks rs last →
      commitState v.state rs.length last = .ok next →
      Moves v es (committed v rs next) (es ++ rs.map Appended.entry)
  | flag {clean : Bool} : v.state.clean ≠ clean → Moves v es (reflagged v clean) es

/-- The view of the file holds the volume in memory. -/
def Sees (master : Bytes) (s : Session) (es : List Entry) : Prop :=
  Opened master s.file.disk.view s.volume es

section Moves

variable {master : Bytes} {s s' : Session} {es : List Entry}

/-- The view once the superblock of a staged batch is written. -/
theorem Sees.commit [LawfulCrypto] {blocks : List (UInt64 × Bytes)} {rs : List Appended}
    {last : UInt64} {next : SuperState} {bytes : Bytes} (hs : Sees master s es)
    (hvalid : BatchValid s.volume.bootstrap blocks)
    (happends : Appends s.volume s.volume.state.committedEnd blocks rs last)
    (hnext : commitState s.volume.state rs.length last = .ok next)
    (himage : SlotImage s.volume.keys s.volume.bootstrap s.volume.activeSuper.other next bytes) :
    Opened master ((s.file.disk.pushAll (rs.flatMap Appended.updates)).sync.push
      (.write s.volume.activeSuper.other.offset bytes)).view (Volume.committed s.volume rs next)
      (es ++ rs.map Appended.entry) := by
  rw [Disk.view_push, Disk.view_sync, Disk.view_pushAll]
  exact Opened.commit hs hvalid happends hnext himage

theorem WriteEffect.moves [LawfulCrypto] {blocks : List (UInt64 × Bytes)}
    {o : Outcome VolumeError (List UInt64)} (h : WriteEffect s blocks o s')
    (hs : Sees master s es) : ∃ es', Moves s.volume es s'.volume es' ∧ Sees master s' es' := by
  have hstaged : ∀ {us}, TailWrites s.volume.state.committedEnd.toNat us →
      Opened master (s.file.disk.pushAll us).view s.volume es := by
    intro us htail
    rw [Disk.view_pushAll]
    exact Opened.applyAll hs fun u hu => htail.protects hu
  cases h with
  | empty _ => exact ⟨es, .stays, hs⟩
  | rejected _ => exact ⟨es, .stays, hs⟩
  | staging _ htail _ hafter _ _ _ =>
    refine ⟨es, .stays, ?_⟩
    rw [Sees, hafter.disk]
    exact hstaged htail
  | uncommitted _ happends hafter _ =>
    refine ⟨es, .stays, ?_⟩
    rw [Sees, hafter.disk, Disk.view_sync]
    exact hstaged happends.tailWrites
  | @torn _ _ _ _ _ bytes part _ happends _ himage hafter _ _ =>
    refine ⟨es, .stays, ?_⟩
    rw [Sees, hafter.disk, Disk.view_push, Disk.view_sync]
    refine (hstaged happends.tailWrites).overwrite_other ?_
    rw [List.length_take, himage.length]
    exact min_le_right _ _
  | unsynced hvalid happends hnext himage hafter _ =>
    refine ⟨_, .batch hvalid happends hnext, ?_⟩
    rw [Sees, hafter.disk]
    exact Sees.commit hs hvalid happends hnext himage
  | committed hvalid happends hnext himage hafter =>
    refine ⟨_, .batch hvalid happends hnext, ?_⟩
    rw [Sees, hafter.disk, Disk.view_sync]
    exact Sees.commit hs hvalid happends hnext himage

theorem CleanEffect.moves [LawfulCrypto] {clean : Bool} {o : Outcome VolumeError Unit}
    (h : CleanEffect s clean o s') (hs : Sees master s es) :
    Moves s.volume es s'.volume es ∧ Sees master s' es := by
  cases h with
  | unchanged _ => exact ⟨.stays, hs⟩
  | untouched _ hafter _ =>
    refine ⟨.stays, ?_⟩
    rw [Sees, hafter.disk]
    exact hs
  | @torn _ _ bytes part _ himage hafter _ _ =>
    refine ⟨.stays, ?_⟩
    rw [Sees, hafter.disk, Disk.view_push]
    refine Opened.overwrite_other hs ?_
    rw [List.length_take, himage.length]
    exact min_le_right _ _
  | changed hclean himage hafter =>
    refine ⟨.flag hclean, ?_⟩
    rw [Sees, hafter.disk, Disk.view_sync, Disk.view_push]
    exact Opened.reflag hs himage

/-- A call that left the volume and the view alone. -/
theorem Sees.same (hs : Sees master s es) (hvolume : s'.volume = s.volume)
    (hview : s'.file.disk.view = s.file.disk.view) : Sees master s' es := by
  rw [Sees, hvolume, hview]
  exact hs

/-- **What a call does**: it issues only what the volume touches, moves the volume as `Moves` says,
and leaves the view holding it. -/
theorem Call.moves [LawfulCrypto] (c : Call) (hs : Sees master s es) (hd : ¬s.file.MayDamage) :
    s.file.disk.Reaches (Touches s.volume) (c.run s).2.file.disk ∧
      ∃ es', Moves s.volume es (c.run s).2.volume es' ∧ Sees master (c.run s).2 es' := by
  have hflag : ∀ clean, s.file.disk.Reaches (Touches s.volume) (setCleanState clean s).2.file.disk ∧
      ∃ es', Moves s.volume es (setCleanState clean s).2.volume es' ∧
        Sees master (setCleanState clean s).2 es' := by
    intro clean
    have heffect := setCleanState_effect s clean
    exact ⟨heffect.reaches, es, heffect.moves hs⟩
  cases c with
  | readBlock k =>
    rw [Call.run, run_map]
    obtain ⟨hvolume, hfile, -⟩ := readBlock_effect k hd hs.log
    dsimp only
    rw [hvolume, hfile.disk]
    exact ⟨.refl, es, .stays, hs.same hvolume (congrArg Disk.view hfile.disk)⟩
  | writeBlocks blocks =>
    rw [Call.run, run_map]
    have heffect := writeBlocks_effect s blocks
    exact ⟨heffect.reaches, heffect.moves hs⟩
  | markClean =>
    rw [Call.run, run_map]
    exact hflag true
  | markDirty =>
    rw [Call.run, run_map]
    exact hflag false
  | sync =>
    rw [Call.run, run_map]
    have heffect := sync_effect s
    dsimp only
    rw [heffect.volume]
    refine ⟨heffect.reaches, es, .stays, hs.same heffect.volume ?_⟩
    rcases heffect.file with hfile | hfile
    · rw [hfile.disk]
    · rw [hfile.disk, Disk.view_sync]

/-- The bootstrap and the keys stay. -/
theorem Moves.bootstrap {v v' : Volume} {es' : List Entry} (h : Moves v es v' es') :
    v'.bootstrap = v.bootstrap ∧ v'.keys = v.keys := by
  cases h <;> exact ⟨rfl, rfl⟩

/-- The committed end stays addressable. -/
theorem Moves.limit {v' : Volume} {es' : List Entry} (h : Moves v es v' es')
    (hlimit : v.state.committedEnd.toNat < maxOffset) :
    v'.state.committedEnd.toNat < maxOffset := by
  cases h with
  | stays => exact hlimit
  | batch _ happends hnext =>
    show _ < maxOffset
    rw [committed, (commitState_eq_ok hnext).2.1]
    exact happends.last_lt hlimit
  | flag _ => exact hlimit

end Moves

/-! ## Opening -/

/-- **What a successful open does**: the view holds the volume that is opened, and nothing but a new
length, the committed end, has been issued. -/
theorem openVolume_sees {master : Bytes} {d file : Device Sealed} {v : Volume}
    (hd : ¬d.MayDamage) (h : openVolume master d = (.ok v, file)) :
    ∃ es, Opened master d.disk.view v es ∧ Sees master ⟨v, file⟩ es ∧
      (file.disk = d.disk ∨
        file.disk = (d.disk.push (.setLen v.state.committedEnd.toNat)).sync) := by
  have heffect := openVolume_effect master d hd
  rw [h] at heffect
  cases heffect with
  | failed hok _ _ _ => exact absurd rfl (hok v)
  | cut hok _ _ _ _ _ => exact absurd rfl (hok v)
  | @opened _ _ es hopened _ hfile =>
    refine ⟨es, hopened, ?_, hfile.imp (fun h => h.1.disk) fun h => h.1.disk⟩
    rcases hfile with ⟨hfile, -⟩ | ⟨hfile, -⟩
    · show Opened master file.disk.view v es
      rw [hfile.disk]
      exact hopened
    · show Opened master file.disk.view v es
      rw [hfile.disk, Disk.view_sync, Disk.view_push]
      have hcutoff : ∀ u ∈ [Update.setLen v.state.committedEnd.toNat],
          u.Protects 0 v.state.committedEnd.toNat := by
        intro u hu
        rw [List.mem_singleton.mp hu]
        exact (Nat.zero_add _).le
      exact hopened.applyAll hcutoff

/-- Whatever becomes of an open, it has issued a new length behind the log start at most. -/
theorem openVolume_reaches {master : Bytes} {d : Device Sealed} (hd : ¬d.MayDamage) :
    d.disk.Reaches (fun u => ∃ n, u = .setLen n ∧ logStart.toNat ≤ n)
      (openVolume master d).2.disk := by
  have heffect := openVolume_effect master d hd
  generalize openVolume master d = r at heffect
  rcases r with ⟨o, file⟩
  have hpush : ∀ {v es}, Opened master d.disk.view v es →
      d.disk.Reaches (fun u => ∃ n, u = .setLen n ∧ logStart.toNat ≤ n)
        (d.disk.push (.setLen v.state.committedEnd.toNat)) := fun hopened =>
    Disk.Reaches.refl.push ⟨_, rfl, hopened.logStart_le⟩
  dsimp only at heffect ⊢
  cases heffect with
  | failed _ hfile _ _ =>
    rw [hfile.disk]
    exact .refl
  | cut _ hopened _ hfile _ _ =>
    rcases hfile with hfile | hfile
    · rw [hfile.disk]
      exact .refl
    · rw [hfile.disk]
      exact hpush hopened
  | opened hopened _ hfile =>
    rcases hfile with ⟨hfile, -⟩ | ⟨hfile, -⟩
    · rw [hfile.disk]
      exact .refl
    · rw [hfile.disk]
      exact (hpush hopened).sync

/-! ## Opening an image

What an open gives when nothing fails is decided by the bytes of the file. -/

section Image

variable {master : Bytes}

/-- A file with the given bytes, which does what it is asked. -/
def imageFile (img : Bytes) : Device Sealed := ⟨⟨img, []⟩, true, 0, [], []⟩

theorem Opened.limit {img : Bytes} {v : Volume} {es : List Entry} (h : Opened master img v es)
    (hlen : img.length < maxOffset) : v.state.committedEnd.toNat < maxOffset :=
  lt_of_le_of_lt h.fits hlen

/-- The blocks of a log are in range. -/
theorem Opened.served_none {img : Bytes} {v : Volume} {es : List Entry} (h : Opened master img v es)
    {k : UInt64} (hk : ¬k < v.bootstrap.blockCount) : served es k = none := by
  refine replay_eq_none.mpr fun x hx => ?_
  obtain ⟨e, he, rfl⟩ := List.mem_map.mp hx
  rintro rfl
  have hcheck := (Scans.mem h.log he).1.check
  have hge : e.header.blockIndex ≥ v.bootstrap.blockCount := UInt64.not_lt.mp hk
  unfold checkHeader at hcheck
  rw [if_pos hge] at hcheck
  exact absurd hcheck (by simp)

/-- An image holds one foremost volume. -/
theorem Foremost.unique {img : Bytes} {v v' : Volume} {es es' : List Entry}
    (hlen : img.length < maxOffset) (h : Foremost master img v) (hv : Opened master img v es)
    (h' : Foremost master img v') (hv' : Opened master img v' es') : v = v' := by
  have hslot := (h v' es' hv' (hv'.limit hlen)).slot_eq (h' v es hv (hv.limit hlen))
  rcases v with ⟨b, keys, state, slot, index⟩
  rcases v' with ⟨b', keys', state', slot', index'⟩
  obtain rfl : b' = b := by simpa using hv'.bootstrap.symm.trans hv.bootstrap
  obtain rfl : keys' = keys := by simpa using hv'.keys.symm.trans hv.keys
  obtain rfl : slot = slot' := hslot
  obtain rfl : state' = state := hv'.slot.unique hv.slot
  obtain ⟨-, hs⟩ := Scans.unique hv'.log hv.log rfl
  obtain rfl : index' = index := congrArg ScanState.index hs
  rfl

/-- **What an open gives when nothing fails**: the foremost volume of the file. -/
theorem openVolume_ok_iff {d : Device Sealed} {v : Volume} (hfaults : d.faults = [])
    (hpresent : d.present = true) (hlen : d.disk.view.length < maxOffset) :
    (∃ file, openVolume master d = (.ok v, file)) ↔
      (∃ es, Opened master d.disk.view v es) ∧ Foremost master d.disk.view v := by
  have hnone : ∀ f : Fault, f ∉ d.faults := fun f => hfaults ▸ List.not_mem_nil
  have hfail : ¬d.MayFail := fun ⟨_, h⟩ => hnone _ h
  have hcrash : ¬d.MayCrash := by
    rintro (⟨_, h⟩ | h) <;> exact hnone _ h
  have heffect := openVolume_effect master d fun ⟨_, h⟩ => hnone _ h
  constructor
  · rintro ⟨file, hopen⟩
    rw [hopen] at heffect
    cases heffect with
    | failed hok _ _ _ => exact absurd rfl (hok v)
    | cut hok _ _ _ _ _ => exact absurd rfl (hok v)
    | opened hopened hnewest _ => exact ⟨⟨_, hopened⟩, hnewest.resolve_left hfail⟩
  · rintro ⟨⟨es, hopened⟩, hforemost⟩
    generalize openVolume master d = r at heffect ⊢
    rcases r with ⟨o, file⟩
    cases heffect with
    | failed hok _ hcrashed herror =>
      cases o with
      | ok v' => exact absurd rfl (hok v')
      | error e =>
        rcases herror e rfl with h | h | h
        · exact absurd h hfail
        · rw [hpresent] at h
          exact absurd h (by simp)
        · exact absurd (hopened.limit hlen) (not_lt.mpr (h v es hopened))
      | crash => exact absurd (hcrashed rfl) hcrash
    | cut hok hopened' _ _ hcrashed herror =>
      cases o with
      | ok v' => exact absurd rfl (hok v')
      | error e =>
        rcases herror e rfl with h | h
        · exact absurd h hfail
        · exact absurd (hopened'.limit hlen) (not_lt.mpr h)
      | crash => exact absurd (hcrashed rfl) hcrash
    | opened hopened' hnewest _ =>
      obtain rfl := hforemost.unique hlen hopened (hnewest.resolve_left hfail) hopened'
      exact ⟨file, rfl⟩

end Image

/-! ## What stays through everything -/

/-- The file has the bootstrap, and is long enough for the slots, whatever survives of it. -/
structure Based (b : Bootstrap) (file : Device Sealed) : Prop where
  bootstrap : Bootstrap.decode (slice file.disk.durable 0 bootstrapSize) = .ok b
  length : logStart.toNat ≤ file.disk.durable.length
  pending : ∀ u ∈ file.disk.pending, u.Protects 0 bootstrapSize ∧ u.Protects logStart.toNat 0

/-- What a crash leaves of a file: everything that was handed to the system when only the process
died, and an arbitrary part of what was pending when the power went. -/
inductive Crashes (file file' : Device Sealed) : Prop where
  | killed : file'.disk = file.disk → file'.trace = file.trace → Crashes file file'
  | powerLost : file'.disk.pending = [] → file.disk.CrashImage file'.disk.durable →
      file'.trace = file.trace → Crashes file file'

omit [Crypto] in
theorem crashes_cutFile (keep : Bool) (file : Device Sealed) :
    Crashes file (cutFile keep file) := by
  refine .powerLost rfl ?_ rfl
  cases keep with
  | true => exact Disk.crashImage_view _
  | false => exact Disk.crashImage_durable _

namespace Based

variable {b : Bootstrap} {file file' : Device Sealed}

omit [Crypto] in
theorem reaches {P : Update → Prop} (h : Based b file) (hdisk : file.disk.Reaches P file'.disk)
    (hboot : ∀ u, P u → u.Protects 0 bootstrapSize)
    (hlen : ∀ u, P u → u.Protects logStart.toNat 0) : Based b file' := by
  have hsize : bootstrapSize ≤ logStart.toNat := by decide
  have hlength := h.length
  obtain ⟨hs, -, hp⟩ := hdisk.protects hboot (fun u hu => (h.pending u hu).1) (by omega)
  obtain ⟨-, hl, hp'⟩ := hdisk.protects hlen (fun u hu => (h.pending u hu).2) (by omega)
  exact ⟨hs ▸ h.bootstrap, by omega, fun u hu => ⟨hp u hu, hp' u hu⟩⟩

omit [Crypto] in
theorem crashes (h : Based b file) (hcrash : Crashes file file') : Based b file' := by
  cases hcrash with
  | killed hdisk _ =>
    obtain ⟨hboot, hlen, hpending⟩ := h
    rw [← hdisk] at hboot hlen hpending
    exact ⟨hboot, hlen, hpending⟩
  | powerLost hnil himage _ =>
    have hsize : bootstrapSize ≤ logStart.toNat := by decide
    have hlength := h.length
    obtain ⟨hs, -⟩ := Disk.slice_crashImage (fun u hu => (h.pending u hu).1) (by omega) himage
    obtain ⟨-, hl⟩ := Disk.slice_crashImage (fun u hu => (h.pending u hu).2) (by omega) himage
    refine ⟨hs ▸ h.bootstrap, by omega, fun u hu => ?_⟩
    rw [hnil] at hu
    exact absurd hu List.not_mem_nil

omit [Crypto] in
/-- The view has the bootstrap too. -/
theorem view (h : Based b file) :
    Bootstrap.decode (slice file.disk.view 0 bootstrapSize) = .ok b := by
  have hsize : bootstrapSize ≤ logStart.toNat := by decide
  have hlength := h.length
  obtain ⟨hs, -⟩ := Disk.slice_view (fun u hu => (h.pending u hu).1) (by omega)
  rw [hs]
  exact h.bootstrap

/-- A call of a process that sees its volume. -/
theorem of_touches {master : Bytes} {s : Session} {es : List Entry} {file' : Device Sealed}
    (h : Based b s.file) (hs : Sees master s es)
    (hreaches : s.file.disk.Reaches (Touches s.volume) file'.disk) : Based b file' := by
  have hstart := hs.logStart_le
  have hsize : bootstrapSize = superAOffset := rfl
  have hle : superAOffset ≤ logStart.toNat := by decide
  obtain ⟨hlo, hhi⟩ := s.volume.activeSuper.other.offset_bounds
  exact h.reaches hreaches (fun u hu => hu.protects (by omega) (Or.inl (by omega)))
    fun u hu => hu.protects (by omega) (Or.inr (by omega))

theorem openVolume (master : Bytes) {d : Device Sealed} (h : Based b d) (hd : ¬d.MayDamage) :
    Based b (Volume.openVolume master d).2 := by
  have hsize : bootstrapSize ≤ logStart.toNat := by decide
  refine h.reaches (openVolume_reaches hd) ?_ ?_ <;> rintro u ⟨n, rfl, hn⟩ <;>
    simp only [Update.Protects] <;> omega

end Based

/-- **The invariant of a host that fails as it likes**: the file stays the volume's file, and a
process that has it open sees the volume it has in memory. -/
def Hosted (master : Bytes) (b : Bootstrap) : World → Prop
  | .live s => Based b s.file ∧ s.volume.bootstrap = b ∧ ∃ es, Sees master s es
  | .down file => Based b file

/-- A host that may fail any call, kill the process and lose its power, but reads what is there. -/
structure Environment.Hosts (env : Environment) : Prop where
  allows : ∀ f, env.allows f → ∀ bs, f ≠ .damaged bs
  crash : ∀ file file', env.crash file file' → Crashes file file'

omit [Crypto] in
theorem Environment.Hosts.not_mayDamage {env : Environment} (h : env.Hosts) {fs : List Fault}
    (hfs : ∀ f ∈ fs, env.allows f) (file : Device Sealed) : ¬(script fs file).MayDamage := by
  rintro ⟨bs, hmem⟩
  exact h.allows _ (hfs _ hmem) bs rfl

omit [Crypto] in
theorem Based.script {b : Bootstrap} {file : Device Sealed} (h : Based b file) (fs : List Fault) :
    Based b (script fs file) := ⟨h.bootstrap, h.length, h.pending⟩

theorem step_hosted [LawfulCrypto] {env : Environment} {master : Bytes} {b : Bootstrap}
    {w w' : World} {e : Event} (henv : env.Hosts) (hw : Hosted master b w)
    (h : Step env master w e w') : Hosted master b w' := by
  cases h with
  | @call s s' c fs o _ hfs hrun _ =>
    obtain ⟨hbased, hb, es, hs⟩ := hw
    have hscripted : Sees master (s.script fs) es := hs
    obtain ⟨hreaches, es', hmoves, hs'⟩ := c.moves hscripted (henv.not_mayDamage hfs s.file)
    rw [hrun] at hreaches hmoves hs'
    exact ⟨Based.of_touches (s := s.script fs) (hbased.script fs) hscripted hreaches,
      hmoves.bootstrap.1.trans hb, es', hs'⟩
  | @crashed s s' c fs file _ hfs hrun hcrash =>
    obtain ⟨hbased, -, es, hs⟩ := hw
    have hscripted : Sees master (s.script fs) es := hs
    obtain ⟨hreaches, -⟩ := c.moves hscripted (henv.not_mayDamage hfs s.file)
    rw [hrun] at hreaches
    exact (Based.of_touches (s := s.script fs) (hbased.script fs) hscripted hreaches).crashes
      (henv.crash _ _ hcrash)
  | close => exact hw.1
  | @opened file file' v fs _ hfs hrun =>
    have hbased : Based b file := hw
    have hd := henv.not_mayDamage hfs file
    obtain ⟨es, hopened, hs, -⟩ := openVolume_sees hd hrun
    have hbased' := (hbased.script fs).openVolume master hd
    rw [hrun] at hbased'
    have hsame := hopened.bootstrap.symm.trans hbased.view
    exact ⟨hbased', by simpa using hsame, es, hs⟩
  | @openFailed file file' e fs _ hfs hrun =>
    have hbased' := (Based.script hw fs).openVolume master (henv.not_mayDamage hfs file)
    rw [hrun] at hbased'
    exact hbased'
  | @openCrashed file file' file'' fs _ hfs hrun hcrash =>
    have hbased' := (Based.script hw fs).openVolume master (henv.not_mayDamage hfs file)
    rw [hrun] at hbased'
    exact hbased'.crashes (henv.crash _ _ hcrash)
  | cutLive hcrash => exact hw.1.crashes (henv.crash _ _ hcrash)
  | cutDown hcrash => exact Based.crashes hw (henv.crash _ _ hcrash)

/-- A new volume. -/
theorem hosted_of_created [LawfulCrypto] {master : Bytes} {options : VolumeOptions}
    {volumeId salt : FixedBytes 32} {d d' : Device Sealed} {v : Volume}
    (h : createVolume master options volumeId salt d = (.ok v, d')) :
    Hosted master v.bootstrap (.live ⟨v, d'⟩) ∧ Sees master ⟨v, d'⟩ [] := by
  have hcreated := createVolume_ok h
  have hopened := hcreated.onDisk.toOpened
  have hview : d'.disk.view = d'.disk.durable := by
    rw [Disk.view, hcreated.pending]
    rfl
  have hs : Sees master ⟨v, d'⟩ [] := by
    rw [Sees, hview]
    exact hopened
  refine ⟨⟨⟨hopened.bootstrap, hopened.logStart_le.trans hopened.fits, fun u hu => ?_⟩, rfl, [],
    hs⟩, hs⟩
  rw [hcreated.pending] at hu
  exact absurd hu List.not_mem_nil

end OrIsyVra.Volume
