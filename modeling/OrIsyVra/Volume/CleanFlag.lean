import OrIsyVra.Volume.CrashSafety
import OrIsyVra.Volume.Nonces

/-!
# The clean flag on the file

`persistedClean` is the flag that the next open would find.  It is the flag of the foremost
superblock, which need not be the one in memory: a call that failed may have left a whole slot
behind.

What memory knows is `Guarded`: a clean superblock in the other slot comes after the one in memory,
or has the same log and is only a change of the flag away.  Every call keeps this (`Call.guarded`),
and an image with a guarded volume has a foremost one that is guarded too (`exists_rest`), which is
what the next open finds (`rest_openVolume`).  Calls that read, write and sync keep a dirty volume
dirty on the file (`Call.dirty`).

A slot whose write is cut short is taken to hold its old superblock, its new one, or none that
authenticates (`SlotsWhole`).
-/

namespace OrIsyVra.Volume

open ByteString MachineWord DurableFile FaultProgram Runs

/-! ## Superblocks in order -/

theorem Precedes.total (left right : Slot × SuperState) :
    Precedes left right ∨ Precedes right left := by
  have hslots : ∀ s t : Slot, s.byte ≤ t.byte ∨ t.byte ≤ s.byte := by
    intro s t
    cases s <;> cases t <;> decide
  rcases Nat.lt_trichotomy left.2.generation.toNat right.2.generation.toNat with hlt | heq | hgt
  · exact Or.inr (Or.inl (UInt64.lt_iff_toNat_lt.mpr hlt))
  · have hgen := UInt64.toNat_inj.mp heq
    exact (hslots left.1 right.1).imp (fun h => Or.inr ⟨hgen.symm, h⟩) fun h => Or.inr ⟨hgen, h⟩
  · exact Or.inl (Or.inl (UInt64.lt_iff_toNat_lt.mpr hgt))

theorem SuperState.encode_injective {state state' : SuperState} (h : state.encode = state'.encode) :
    state = state' := by
  have hfields : ∀ s : SuperState, s.encode = superMagic ++ (le64 s.generation ++
      (le64 s.committedEnd ++ (le64 s.recordCount ++
        ([if s.clean then 1 else 0] ++ List.replicate 31 0)))) := by
    intro s
    simp [SuperState.encode, SuperState.fields]
  rw [hfields, hfields] at h
  obtain ⟨hgen, h⟩ := List.append_inj (List.append_cancel_left h) (by simp [length_le64])
  obtain ⟨hend, h⟩ := List.append_inj h (by simp [length_le64])
  obtain ⟨hcount, h⟩ := List.append_inj h (by simp [length_le64])
  have hclean : state.clean = state'.clean := by
    have hbyte := (List.cons.inj h).1
    revert hbyte
    cases state.clean <;> cases state'.clean <;> decide
  cases state
  cases state'
  simp only [SuperState.mk.injEq]
  exact ⟨le64_injective hgen, le64_injective hend, le64_injective hcount, hclean⟩

/-- The two superblocks describe the same log. -/
structure SameLog (state state' : SuperState) : Prop where
  committedEnd : state'.committedEnd = state.committedEnd
  recordCount : state'.recordCount = state.recordCount

variable [Crypto] {master : Bytes} {img : Bytes} {v : Volume} {es : List Entry}

theorem superSeal_injective {keys : VolumeKeys} {b : Bootstrap} {slot slot' : Slot}
    {state state' : SuperState} (h : superSeal keys b slot state = superSeal keys b slot' state') :
    slot = slot' ∧ state = state' :=
  ⟨Slot.toUInt64_injective (congrArg Sealed.first h),
    SuperState.encode_injective (congrArg Sealed.message h)⟩

/-- A superblock of the other slot with the same log is a volume of the image too. -/
theorem Opened.sibling (h : Opened master img v es) {state : SuperState}
    (hslot : SlotHolds v.keys v.bootstrap img v.activeSuper.other state)
    (hlog : SameLog v.state state) :
    Opened master img { v with state := state, activeSuper := v.activeSuper.other } es := by
  refine ⟨h.bootstrapFits, h.bootstrap, h.keys, hslot, ?_, ?_⟩
  · rw [hlog.committedEnd]
    exact h.fits
  · have hscan := h.log
    rw [LogHolds] at hscan ⊢
    rw [hlog.committedEnd, hlog.recordCount]
    exact hscan

/-! ## The flag the next open finds -/

/-- The clean flag of the file. -/
def persistedClean (master : Bytes) (file : Device Sealed) : Option Bool :=
  match openVolume master (imageFile file.disk.view) with
  | (.ok v, _) => some v.state.clean
  | _ => none

theorem persistedClean_eq_some {file : Device Sealed} {clean : Bool}
    (hlen : file.disk.view.length < maxOffset) :
    persistedClean master file = some clean ↔ ∃ v es, Opened master file.disk.view v es ∧
      Foremost master file.disk.view v ∧ v.state.clean = clean := by
  have hopen : ∀ {v}, (∃ file', openVolume master (imageFile file.disk.view) = (.ok v, file')) ↔
      (∃ es, Opened master file.disk.view v es) ∧ Foremost master file.disk.view v :=
    openVolume_ok_iff rfl rfl hlen
  unfold persistedClean
  constructor
  · intro h
    split at h
    · next v file' hok =>
      obtain ⟨⟨es, hopened⟩, hforemost⟩ := hopen.mp ⟨file', hok⟩
      exact ⟨v, es, hopened, hforemost, Option.some.inj h⟩
    · exact absurd h (by simp)
  · rintro ⟨v, es, hopened, hforemost, rfl⟩
    obtain ⟨file', hok⟩ := hopen.mpr ⟨⟨es, hopened⟩, hforemost⟩
    rw [hok]

/-! ## Guarded volumes -/

/-- A clean superblock in the other slot comes after that of the volume, or has the same log. -/
def Guarded (img : Bytes) (v : Volume) : Prop :=
  ∀ state, SlotHolds v.keys v.bootstrap img v.activeSuper.other state → state.clean = true →
    Precedes (v.activeSuper, v.state) (v.activeSuper.other, state) ∨ SameLog v.state state

/-- The volume the next open of the image finds, and it is guarded. -/
structure Rest (master : Bytes) (img : Bytes) (v : Volume) (es : List Entry) : Prop where
  opened : Opened master img v es
  limit : v.state.committedEnd.toNat < maxOffset
  guarded : Guarded img v
  foremost : Foremost master img v

/-- Two volumes of an image in the same slot are the same. -/
theorem Opened.state_eq {v' : Volume} {es' : List Entry} (h : Opened master img v es)
    (h' : Opened master img v' es') {state : SuperState}
    (hslot : SlotHolds v.keys v.bootstrap img v'.activeSuper state) : state = v'.state := by
  have hb : v'.bootstrap = v.bootstrap := by simpa using h'.bootstrap.symm.trans h.bootstrap
  have hderived := h'.keys
  rw [hb, h.keys] at hderived
  have hslot' := h'.slot
  rw [← Except.ok.inj hderived, hb] at hslot'
  exact hslot.unique hslot'

theorem Opened.eq_of_slot {v' : Volume} {es' : List Entry} (h : Opened master img v es)
    (h' : Opened master img v' es') (hslot : v'.activeSuper = v.activeSuper) :
    v'.state = v.state :=
  (h.state_eq h' (hslot.symm ▸ h.slot :
    SlotHolds v.keys v.bootstrap img v'.activeSuper v.state)).symm

/-- **An image with a volume has a foremost one**: this, or one in the other slot that comes
before. -/
theorem exists_foremost (h : Opened master img v es)
    (hlimit : v.state.committedEnd.toNat < maxOffset) :
    ∃ v' es', Opened master img v' es' ∧ v'.state.committedEnd.toNat < maxOffset ∧
      Foremost master img v' ∧ (v' = v ∨ v'.activeSuper = v.activeSuper.other ∧
        Precedes (v'.activeSuper, v'.state) (v.activeSuper, v.state)) := by
  -- the volumes of the image are at most this one and one of the other slot
  by_cases hother : ∃ v' es', Opened master img v' es' ∧ v'.activeSuper = v.activeSuper.other ∧
      v'.state.committedEnd.toNat < maxOffset ∧
      Precedes (v'.activeSuper, v'.state) (v.activeSuper, v.state)
  · obtain ⟨v', es', hopened, hslot, hlimit', hprecedes⟩ := hother
    refine ⟨v', es', hopened, hlimit', fun v'' es'' hopened'' _ => ?_, Or.inr ⟨hslot, hprecedes⟩⟩
    rcases v.activeSuper.eq_or_eq_other v''.activeSuper with heq | heq
    · rw [h.eq_of_slot hopened'' heq, heq]
      exact hprecedes
    · rw [hopened.eq_of_slot hopened'' (heq.trans hslot.symm), heq, hslot]
      exact .refl _
  · refine ⟨v, es, h, hlimit, fun v' es' hopened' hlimit' => ?_, Or.inl rfl⟩
    rcases v.activeSuper.eq_or_eq_other v'.activeSuper with heq | heq
    · rw [h.eq_of_slot hopened' heq, heq]
      exact .refl _
    · refine (Precedes.total _ _).resolve_right fun hprecedes => hother ?_
      exact ⟨v', es', hopened', heq, hlimit', hprecedes⟩

/-- **An image with a guarded volume has a foremost one, guarded too.** -/
theorem exists_rest (h : Opened master img v es) (hlimit : v.state.committedEnd.toNat < maxOffset)
    (hguarded : Guarded img v) : ∃ v' es', Rest master img v' es' := by
  obtain ⟨v', es', hopened, hlimit', hforemost, rfl | ⟨hslot, hprecedes⟩⟩ :=
    exists_foremost h hlimit
  · exact ⟨v', es', hopened, hlimit', hguarded, hforemost⟩
  · refine ⟨v', es', hopened, hlimit', fun state hholds _ => ?_, hforemost⟩
    have hback : v'.activeSuper.other = v.activeSuper := by rw [hslot, Slot.other_other]
    rw [hback] at hholds ⊢
    rw [hopened.state_eq h hholds]
    exact Or.inl hprecedes

/-! ## Opening an image at rest -/

theorem Rest.of_onDisk (h : OnDisk master v es img) : Rest master img v es := by
  have hbefore : ∀ {state}, SlotHolds v.keys v.bootstrap img v.activeSuper.other state →
      Precedes (v.activeSuper, v.state) (v.activeSuper.other, state) := fun hholds =>
    Or.inl (UInt64.lt_iff_toNat_lt.mpr (h.stale _ hholds))
  refine ⟨h.toOpened, h.limit, fun state hholds _ => Or.inl (hbefore hholds),
    fun v' es' hopened' _ => ?_⟩
  rcases v.activeSuper.eq_or_eq_other v'.activeSuper with heq | heq
  · rw [h.toOpened.eq_of_slot hopened' heq, heq]
    exact .refl _
  · have hb : v'.bootstrap = v.bootstrap := by
      simpa using hopened'.bootstrap.symm.trans h.bootstrap
    have hderived := hopened'.keys
    rw [hb, h.keys] at hderived
    have hslot' := hopened'.slot
    rw [← Except.ok.inj hderived, hb, heq] at hslot'
    rw [heq]
    exact hbefore hslot'

/-- The slots of an image that is cut off behind the log start are those of the image. -/
theorem SlotHolds.of_resize {keys : VolumeKeys} {b : Bootstrap} {slot : Slot} {state : SuperState}
    {n : ℕ} (h : SlotHolds keys b (resize img n) slot state) (hn : n ≤ img.length) :
    SlotHolds keys b img slot state := by
  have hfits := h.fits
  rw [length_resize] at hfits
  refine h.congr (slice_resize (by omega) hfits).symm (by omega)

theorem Opened.of_resize {n : ℕ} (h : Opened master (resize img n) v es) (hn : n ≤ img.length) :
    Opened master img v es := by
  have hstart := h.logStart_le
  have hfits := h.fits
  obtain ⟨-, hslot⟩ := v.activeSuper.offset_bounds
  have hsize : bootstrapSize ≤ logStart.toNat := by decide
  rw [length_resize] at hfits
  exact h.congr_parts (slice_resize (by omega) (by omega)).symm
    (slice_resize (by omega) (by omega)).symm (slice_resize (by omega) (by omega)).symm (by omega)

/-- Cutting off what is behind the committed end changes nothing. -/
theorem Rest.cut (h : Rest master img v es) :
    Rest master (resize img v.state.committedEnd.toNat) v es := by
  have hfits := h.opened.fits
  have hcut : ∀ u ∈ [Update.setLen v.state.committedEnd.toNat],
      u.Protects 0 v.state.committedEnd.toNat := by
    intro u hu
    rw [List.mem_singleton.mp hu]
    exact (Nat.zero_add _).le
  exact ⟨h.opened.applyAll hcut, h.limit, fun state hholds =>
    h.guarded state (hholds.of_resize hfits),
    fun v' es' hopened' => h.foremost v' es' (hopened'.of_resize hfits)⟩

/-- **An open whose calls do not fail finds the volume at rest**, and leaves it at rest however far
it gets. -/
theorem rest_openVolume {d : Device Sealed} (h : Rest master d.disk.view v es) (hfail : ¬d.MayFail)
    (hd : ¬d.MayDamage) (hlen : d.disk.view.length < maxOffset) :
    Rest master (openVolume master d).2.disk.view v es ∧
      (openVolume master d).2.disk.view.length < maxOffset ∧
      ∀ v', (openVolume master d).1 = .ok v' → v' = v := by
  have heffect := openVolume_effect master d hd
  generalize openVolume master d = r at heffect
  rcases r with ⟨o, file⟩
  have hfound : ∀ {v' es'}, Opened master d.disk.view v' es' → Newest master d v' → v' = v :=
    fun hopened hnewest => (hnewest.resolve_left hfail).unique hlen hopened h.foremost h.opened
  have hsame : file.disk = d.disk →
      Rest master file.disk.view v es ∧ file.disk.view.length < maxOffset := by
    intro hdisk
    rw [hdisk]
    exact ⟨h, hlen⟩
  have hcutoff : file.disk.view = resize d.disk.view v.state.committedEnd.toNat →
      Rest master file.disk.view v es ∧ file.disk.view.length < maxOffset := by
    intro hview
    rw [hview, length_resize]
    exact ⟨h.cut, h.limit⟩
  dsimp only
  rw [← and_assoc]
  cases heffect with
  | failed hok hfile _ _ => exact ⟨hsame hfile.disk, fun v' ho => absurd ho (hok v')⟩
  | cut hok hopened hnewest hfile _ _ =>
    obtain rfl := hfound hopened hnewest
    refine ⟨?_, fun v' ho => absurd ho (hok v')⟩
    rcases hfile with hfile | hfile
    · exact hsame hfile.disk
    · exact hcutoff (by rw [hfile.disk, Disk.view_push]; rfl)
  | opened hopened hnewest hfile =>
    obtain rfl := hfound hopened hnewest
    refine ⟨?_, fun v' ho => (Outcome.ok.inj ho).symm⟩
    rcases hfile with ⟨hfile, -⟩ | ⟨hfile, -⟩
    · exact hsame hfile.disk
    · exact hcutoff (by rw [hfile.disk, Disk.view_sync, Disk.view_push]; rfl)

/-- The flag of a file at rest is that of its volume. -/
theorem Rest.persisted {file : Device Sealed} (h : Rest master file.disk.view v es)
    (hlen : file.disk.view.length < maxOffset) : persistedClean master file = some v.state.clean :=
  (persistedClean_eq_some hlen).mpr ⟨v, es, h.opened, h.foremost, rfl⟩

/-! ## What the calls do to the slots -/

/-- Every superblock that authenticates after a call did so before, or is the one the call
writes. -/
def SlotsWhole (s : Session) (c : Call) (s' : Session) : Prop :=
  ∀ slot state, SlotHolds s.volume.keys s.volume.bootstrap s'.file.disk.view slot state →
    SlotHolds s.volume.keys s.volume.bootstrap s.file.disk.view slot state ∨
      superSeal s.volume.keys s.volume.bootstrap slot state ∈ c.seals s.volume

/-- The superblock a slot holds, if it authenticates. -/
def slotState (keys : VolumeKeys) (b : Bootstrap) (img : Bytes) (slot : Slot) : Option SuperState :=
  if slot.offset + superSlotSize ≤ img.length then
    match decodeSuperblock keys b slot (slice img slot.offset superSlotSize) with
    | .ok state => state
    | .error _ => none
  else none

theorem slotState_eq_some {keys : VolumeKeys} {b : Bootstrap} {slot : Slot} {state : SuperState} :
    slotState keys b img slot = some state ↔ SlotHolds keys b img slot state := by
  unfold slotState
  constructor
  · intro h
    split at h
    · next hfits =>
      split at h
      · next o hdecode => exact ⟨hfits, h ▸ hdecode⟩
      · exact absurd h (by simp)
    · exact absurd h (by simp)
  · rintro ⟨hfits, hdecode⟩
    rw [if_pos hfits, hdecode]

instance (s : Session) (c : Call) (s' : Session) : Decidable (SlotsWhole s c s') :=
  let now := slotState s.volume.keys s.volume.bootstrap s.file.disk.view
  let next := slotState s.volume.keys s.volume.bootstrap s'.file.disk.view
  decidable_of_iff (∀ slot ∈ [Slot.a, Slot.b], ∀ state ∈ next slot, now slot = some state ∨
    superSeal s.volume.keys s.volume.bootstrap slot state ∈ c.seals s.volume) <| by
    constructor
    · intro h slot state hholds
      exact (h slot (by cases slot <;> decide) state (slotState_eq_some.mpr hholds)).imp
        slotState_eq_some.mp id
    · intro h slot _ state hstate
      exact (h slot state (slotState_eq_some.mp hstate)).imp slotState_eq_some.mpr id

/-- What a call writes to a slot. -/
inductive Writes (v : Volume) : Call → SuperState → Prop where
  | batch {blocks : List (UInt64 × Bytes)} {next : SuperState} : next.clean = false →
      Writes v (.writeBlocks blocks) next
  | clean : v.state.clean = false → Writes v .markClean (flagged v.state true)
  | dirty : v.state.clean = true → Writes v .markDirty (flagged v.state false)

/-- It goes to the other slot. -/
theorem Call.writes {c : Call} {slot : Slot} {state : SuperState}
    (h : superSeal v.keys v.bootstrap slot state ∈ c.seals v) :
    slot = v.activeSuper.other ∧ Writes v c state := by
  rcases List.mem_append.mp h with hm | hm
  · obtain ⟨p, -, hp⟩ := List.mem_filterMap.mp hm
    exact absurd (recordSeal_eq_some hp).1 (Ne.symm ascii_data_ne_super)
  obtain ⟨ch, next, hchange, hnext, hseal⟩ := mem_superSeals.mp hm
  obtain ⟨hslot, rfl⟩ := superSeal_injective hseal
  refine ⟨hslot, ?_⟩
  cases c with
  | readBlock k => exact absurd hchange (by simp [Call.change])
  | sync => exact absurd hchange (by simp [Call.change])
  | markClean =>
    obtain ⟨hclean, ⟨⟩⟩ := Option.ite_none_left_eq_some.mp hchange
    obtain ⟨-, rfl⟩ := Change.next_flag.mp hnext
    exact .clean (by simpa using hclean)
  | markDirty =>
    obtain ⟨hclean, ⟨⟩⟩ := Option.ite_none_left_eq_some.mp hchange
    obtain ⟨-, rfl⟩ := Change.next_flag.mp hnext
    exact .dirty (by simpa using hclean)
  | writeBlocks blocks =>
    unfold Call.change at hchange
    dsimp only at hchange
    split at hchange
    swap
    · exact absurd hchange (by simp)
    obtain ⟨-, ⟨⟩⟩ := Option.ite_none_left_eq_some.mp hchange
    exact .batch (commitState_eq_ok (Change.next_batch.mp hnext)).2.2.2

omit [Crypto] in
theorem sameLog_flagged (state : SuperState) (clean : Bool) : SameLog state (flagged state clean) :=
  ⟨rfl, rfl⟩

/-- The superblock of the slot in memory is still there. -/
theorem SlotsWhole.active {s s' : Session} {c : Call} (h : SlotsWhole s c s')
    (hs : Sees master s es) {state : SuperState}
    (hholds : SlotHolds s.volume.keys s.volume.bootstrap s'.file.disk.view
      s.volume.activeSuper state) :
    state = s.volume.state := by
  rcases h _ _ hholds with hold | hnew
  · exact hold.unique hs.slot
  · exact absurd (Call.writes hnew).1.symm s.volume.activeSuper.other_ne

/-- **A call keeps the volume guarded.** -/
theorem Call.guarded {s s' : Session} {c : Call} {es' : List Entry} (hs : Sees master s es)
    (hmoves : Moves s.volume es s'.volume es') (hwhole : SlotsWhole s c s')
    (h : Guarded s.file.disk.view s.volume) : Guarded s'.file.disk.view s'.volume := by
  obtain ⟨hb, hk⟩ := hmoves.bootstrap
  intro state hholds hclean
  rw [hb, hk] at hholds
  generalize hvolume : s'.volume = v' at hmoves hholds
  cases hmoves with
  | stays =>
    rcases hwhole _ _ hholds with hold | hnew
    · exact h state hold hclean
    · cases (Call.writes hnew).2 with
      | batch hdirty => exact absurd (hdirty.symm.trans hclean) (by simp)
      | clean _ => exact Or.inr (sameLog_flagged _ _)
      | dirty _ => exact absurd hclean (by simp [flagged])
  | @batch _ rs _ next _ _ hnext =>
    -- the slot of the volume before comes after the new one
    simp only [committed, Slot.other_other] at hholds ⊢
    rw [hwhole.active hs hholds]
    have hgen := (commitState_eq_ok hnext).1
    refine Or.inl (Or.inl (UInt64.lt_iff_toNat_lt.mpr ?_))
    show s.volume.state.generation.toNat < next.generation.toNat
    omega
  | @flag clean _ =>
    simp only [reflagged, Slot.other_other] at hholds ⊢
    rw [hwhole.active hs hholds]
    exact Or.inr ⟨rfl, rfl⟩

/-! ## Dirty volumes -/

/-- The volume is dirty, and so is whatever may be tried before it. -/
structure Dirty (img : Bytes) (v : Volume) : Prop where
  volume : v.state.clean = false
  before : ∀ state, SlotHolds v.keys v.bootstrap img v.activeSuper.other state →
    state.clean = true → Precedes (v.activeSuper, v.state) (v.activeSuper.other, state)

/-- The next open finds a dirty volume. -/
theorem Dirty.persisted {file : Device Sealed} (h : Dirty file.disk.view v)
    (hopened : Opened master file.disk.view v es) (hlimit : v.state.committedEnd.toNat < maxOffset)
    (hlen : file.disk.view.length < maxOffset) : persistedClean master file ≠ some true := by
  rw [ne_eq, persistedClean_eq_some hlen]
  rintro ⟨v', es', hopened', hforemost, hclean⟩
  rcases v.activeSuper.eq_or_eq_other v'.activeSuper with heq | heq
  · rw [hopened.eq_of_slot hopened' heq, h.volume] at hclean
    exact absurd hclean (by simp)
  · have hb : v'.bootstrap = v.bootstrap := by
      simpa using hopened'.bootstrap.symm.trans hopened.bootstrap
    have hderived := hopened'.keys
    rw [hb, hopened.keys] at hderived
    have hslot' := hopened'.slot
    rw [← Except.ok.inj hderived, hb, heq] at hslot'
    have hafter := h.before _ hslot' hclean
    have hfirst := hforemost v es hopened hlimit
    rw [heq] at hfirst
    exact absurd (hafter.slot_eq hfirst).symm v.activeSuper.other_ne

/-- A dirty volume in memory whose file is not dirty: the superblock before the change of the flag
is still the foremost one. -/
theorem persisted_of_not_dirty {file : Device Sealed} (hguarded : Guarded file.disk.view v)
    (hopened : Opened master file.disk.view v es) (hlen : file.disk.view.length < maxOffset)
    (hdirty : v.state.clean = false) (h : ¬Dirty file.disk.view v) :
    persistedClean master file = some true := by
  have hexists : ∃ state, SlotHolds v.keys v.bootstrap file.disk.view v.activeSuper.other state ∧
      state.clean = true ∧ ¬Precedes (v.activeSuper, v.state) (v.activeSuper.other, state) := by
    by_contra hnone
    push Not at hnone
    exact h ⟨hdirty, hnone⟩
  obtain ⟨state, hholds, hclean, hbefore⟩ := hexists
  have hlog := (hguarded state hholds hclean).resolve_left hbefore
  have hsibling := hopened.sibling hholds hlog
  refine (persistedClean_eq_some hlen).mpr ⟨_, es, hsibling, fun v' es' hopened' _ => ?_, hclean⟩
  dsimp only
  rcases v.activeSuper.eq_or_eq_other v'.activeSuper with heq | heq
  · rw [hopened.eq_of_slot hopened' heq, heq]
    exact (Precedes.total _ _).resolve_left hbefore
  · rw [hsibling.eq_of_slot hopened' heq, heq]
    exact .refl _

/-- The calls a mounted volume gets from the disk driver. -/
def Call.isSector : Call → Bool
  | .readBlock _ | .writeBlocks _ | .sync => true
  | _ => false

/-- They leave a dirty volume dirty in memory. -/
theorem Call.stays_dirty [LawfulCrypto] {s : Session} {c : Call} (hc : c.isSector = true)
    (hs : Sees master s es) (hd : ¬s.file.MayDamage) (h : s.volume.state.clean = false) :
    (c.run s).2.volume.state.clean = false := by
  cases c with
  | readBlock k =>
    rw [Call.run, run_map]
    dsimp only
    rw [(readBlock_effect k hd hs.log).volume]
    exact h
  | sync =>
    rw [Call.run, run_map]
    dsimp only
    rw [(sync_effect s).volume]
    exact h
  | markClean => exact absurd hc (by decide)
  | markDirty => exact absurd hc (by decide)
  | writeBlocks blocks =>
    rw [Call.run, run_map]
    have heffect := writeBlocks_effect s blocks
    dsimp only
    generalize Volume.writeBlocks blocks s = r at heffect ⊢
    rcases r with ⟨o, s'⟩
    cases heffect with
    | empty _ => exact h
    | rejected _ => exact h
    | staging _ _ _ _ _ _ _ => exact h
    | uncommitted _ _ _ _ => exact h
    | torn _ _ _ _ _ _ _ => exact h
    | unsynced _ _ hnext _ _ _ => exact (commitState_eq_ok hnext).2.2.2
    | committed _ _ hnext _ _ => exact (commitState_eq_ok hnext).2.2.2

/-- **Reading, writing and syncing keep the file dirty.** -/
theorem Call.dirty {s s' : Session} {c : Call} {es' : List Entry} (hc : c.isSector = true)
    (hs : Sees master s es) (hmoves : Moves s.volume es s'.volume es') (hwhole : SlotsWhole s c s')
    (hvolume : s'.volume.state.clean = false) (h : Dirty s.file.disk.view s.volume) :
    Dirty s'.file.disk.view s'.volume := by
  obtain ⟨hb, hk⟩ := hmoves.bootstrap
  refine ⟨hvolume, fun state hholds hclean => ?_⟩
  rw [hb, hk] at hholds
  generalize hv' : s'.volume = v' at hmoves hholds
  cases hmoves with
  | stays =>
    rcases hwhole _ _ hholds with hold | hnew
    · exact h.before state hold hclean
    · cases (Call.writes hnew).2 with
      | batch hdirty => exact absurd (hdirty.symm.trans hclean) (by simp)
      | clean _ => exact absurd hc (by decide)
      | dirty _ => exact absurd hc (by decide)
  | batch _ _ _ =>
    simp only [committed, Slot.other_other] at hholds
    rw [hwhole.active hs hholds, h.volume] at hclean
    exact absurd hclean (by simp)
  | flag _ =>
    simp only [reflagged, Slot.other_other] at hholds
    rw [hwhole.active hs hholds, h.volume] at hclean
    exact absurd hclean (by simp)

end OrIsyVra.Volume
