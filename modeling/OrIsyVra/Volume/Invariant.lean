import OrIsyVra.Volume.Recovery

/-!
# What the file of a volume holds

`OnDisk v es img` ties the volume in memory to a file image: the bootstrap, the active slot and the
log `es` are there, and the other slot is stale.  It depends on four ranges of the image only
(`OnDisk.congr_parts`), so whatever leaves these alone keeps it: writes behind the committed end,
and a crash that loses them.

A commit is a *switch* to the other slot (`OnDisk.switch`): when the log of the next state is in the
image already, overwriting the other slot makes the image hold the next volume.  `Appends.logHolds`
is the log of the next state for a batch.  Until the switch is durable, the durable image still
holds the old volume, and a crash leaves one of the two (`OnDisk.crash_switch`).
-/

namespace OrIsyVra.Volume

open ByteString MachineWord DurableFile FaultProgram KeyedLog

/-! ## Written records -/

/-- The records are in the image. -/
def Written (img : Bytes) (rs : List Appended) : Prop :=
  ∀ r ∈ rs, slice img r.offset.toNat recordHeaderSize = r.header.encode ∧
    slice img (r.offset.toNat + recordHeaderSize) r.ciphertext.length = r.ciphertext ∧
    r.offset.toNat + recordHeaderSize + r.ciphertext.length ≤ img.length

/-- Issuing the updates of a record writes it. -/
theorem written_updates (img : Bytes) (r : Appended) : Written (applyAll r.updates img) [r] := by
  intro r' hr'
  obtain rfl := List.mem_singleton.mp hr'
  let mid := overwrite img r'.offset.toNat r'.header.encode
  have hne : r'.header.encode ≠ [] :=
    List.ne_nil_of_length_pos (by rw [RecordHeader.length_encode]; decide)
  have hmid : r'.offset.toNat + recordHeaderSize ≤ mid.length := by
    rw [length_overwrite hne, RecordHeader.length_encode]
    exact le_max_right _ _
  have himg : applyAll r'.updates img =
      overwrite mid (r'.offset.toNat + recordHeaderSize) r'.ciphertext := rfl
  have hheader := slice_overwrite_self img r'.header.encode r'.offset.toNat
  rw [RecordHeader.length_encode] at hheader
  rw [himg]
  refine ⟨?_, slice_overwrite_self _ _ _, ?_⟩
  · rw [slice_overwrite_of_disjoint hmid (Or.inl le_rfl)]
    exact hheader
  · by_cases hct : r'.ciphertext = []
    · rw [hct, overwrite_nil, List.length_nil]
      exact hmid
    · rw [length_overwrite hct]
      exact le_max_right _ _

/-- The state a commit moves to. -/
theorem commitState_eq_ok {state next : SuperState} {added : ℕ} {committedEnd : UInt64}
    (h : commitState state added committedEnd = .ok next) :
    next.generation.toNat = state.generation.toNat + 1 ∧ next.committedEnd = committedEnd ∧
      next.recordCount.toNat = state.recordCount.toNat + added ∧ next.clean = false := by
  unfold commitState at h
  split at h
  · next hadded =>
    split at h
    · exact absurd h (by simp)
    next generation hgeneration =>
    split at h
    · exact absurd h (by simp)
    next recordCount hcount =>
    obtain rfl := Except.ok.inj h
    have hone : (1 : UInt64).toNat = 1 := rfl
    rw [checkedAdd_eq_some, hone] at hgeneration
    rw [checkedAdd_eq_some, UInt64.toNat_ofNat_of_lt' hadded] at hcount
    exact ⟨hgeneration, rfl, hcount, rfl⟩
  · exact absurd h (by simp)

variable [Crypto] {master : Bytes} {v : Volume} {es : List Entry} {img img' : Bytes}

/-! ## Congruence -/

theorem SlotHolds.congr {keys : VolumeKeys} {b : Bootstrap} {slot : Slot} {state : SuperState}
    (h : SlotHolds keys b img slot state)
    (hs : slice img' slot.offset superSlotSize = slice img slot.offset superSlotSize)
    (hlen : slot.offset + superSlotSize ≤ img'.length) : SlotHolds keys b img' slot state :=
  ⟨hlen, hs ▸ h.decode⟩

namespace Opened

theorem logStart_le (h : Opened master img v es) :
    logStart.toNat ≤ v.state.committedEnd.toNat := h.log.offset_le

/-- **Which volume an image holds depends on three ranges of it.** -/
theorem congr_parts (h : Opened master img v es)
    (hboot : slice img' 0 bootstrapSize = slice img 0 bootstrapSize)
    (hactive : slice img' v.activeSuper.offset superSlotSize =
      slice img v.activeSuper.offset superSlotSize)
    (hlog : slice img' logStart.toNat (v.state.committedEnd.toNat - logStart.toNat) =
      slice img logStart.toNat (v.state.committedEnd.toNat - logStart.toNat))
    (hlen : v.state.committedEnd.toNat ≤ img'.length) : Opened master img' v es := by
  have hstart := h.logStart_le
  have hsize : bootstrapSize ≤ logStart.toNat := by decide
  obtain ⟨-, hhi⟩ := v.activeSuper.offset_bounds
  refine ⟨by omega, hboot ▸ h.bootstrap, h.keys, h.slot.congr hactive (by omega), hlen, ?_⟩
  refine Scans.congr h.log hlog (by omega) le_rfl ?_
  show v.state.committedEnd.toNat ≤ _
  omega

/-- Updates that leave these ranges alone keep it. -/
theorem applyAll_of_protects (h : Opened master img v es) {us : List Update}
    (hboot : ∀ u ∈ us, u.Protects 0 bootstrapSize)
    (hactive : ∀ u ∈ us, u.Protects v.activeSuper.offset superSlotSize)
    (hlog : ∀ u ∈ us, u.Protects logStart.toNat (v.state.committedEnd.toNat - logStart.toNat)) :
    Opened master (applyAll us img) v es := by
  have hstart := h.logStart_le
  have hfits := h.fits
  obtain ⟨-, hhi⟩ := v.activeSuper.offset_bounds
  have hsize := h.bootstrapFits
  have hfits₁ : 0 + bootstrapSize ≤ img.length := by omega
  have hfits₂ : v.activeSuper.offset + superSlotSize ≤ img.length := by omega
  have hfits₃ : logStart.toNat + (v.state.committedEnd.toNat - logStart.toNat) ≤ img.length := by
    omega
  obtain ⟨hboot', -⟩ := slice_applyAll hboot hfits₁
  obtain ⟨hactive', -⟩ := slice_applyAll hactive hfits₂
  obtain ⟨hlog', hlen⟩ := slice_applyAll hlog hfits₃
  exact h.congr_parts hboot' hactive' hlog' (by omega)

/-- Updates behind the committed end keep it. -/
theorem applyAll (h : Opened master img v es) {us : List Update}
    (hus : ∀ u ∈ us, u.Protects 0 v.state.committedEnd.toNat) :
    Opened master (applyAll us img) v es := by
  have hstart := h.logStart_le
  have hboot : bootstrapSize ≤ logStart.toNat := by decide
  obtain ⟨-, hhi⟩ := v.activeSuper.offset_bounds
  exact h.applyAll_of_protects (fun u hu => (hus u hu).mono le_rfl (by omega))
    (fun u hu => (hus u hu).mono (Nat.zero_le _) (by omega))
    (fun u hu => (hus u hu).mono (Nat.zero_le _) (by omega))

/-- A write to the other slot keeps it. -/
theorem overwrite_other (h : Opened master img v es) {bytes : Bytes}
    (hbytes : bytes.length ≤ superSlotSize) :
    Opened master (overwrite img v.activeSuper.other.offset bytes) v es := by
  obtain ⟨hlo', hhi'⟩ := v.activeSuper.other.offset_bounds
  have hdisjoint := v.activeSuper.offset_disjoint
  have hone : ∀ {lo n}, lo + n ≤ v.activeSuper.other.offset ∨
      v.activeSuper.other.offset + superSlotSize ≤ lo →
      ∀ u ∈ [Update.write v.activeSuper.other.offset bytes], u.Protects lo n := by
    intro lo n hapart u hu
    rw [List.mem_singleton.mp hu]
    simp only [Update.Protects]
    omega
  exact h.applyAll_of_protects (hone (by omega)) (hone (by omega)) (hone (by omega))

/-- **A switch to the other slot**: once the log of the next state is in the image, its superblock
makes the image hold the next volume. -/
theorem switch [LawfulCrypto] (h : Opened master img v es) {next : SuperState} {index : Index}
    {es' : List Entry} {bytes : Bytes}
    (hlog : LogHolds v.keys v.bootstrap img next es' index)
    (hfits : next.committedEnd.toNat ≤ img.length)
    (himage : SlotImage v.keys v.bootstrap v.activeSuper.other next bytes) :
    Opened master (overwrite img v.activeSuper.other.offset bytes)
      { v with state := next, activeSuper := v.activeSuper.other, index := index } es' := by
  have hstart : logStart.toNat ≤ next.committedEnd.toNat := hlog.offset_le
  obtain ⟨hlo', hhi'⟩ := v.activeSuper.other.offset_bounds
  have hlen := le_length_overwrite img bytes v.activeSuper.other.offset
  have hbytes := himage.length
  have hboot : bootstrapSize ≤ img.length := h.bootstrapFits
  have hself := slice_overwrite_self img bytes v.activeSuper.other.offset
  rw [hbytes] at hself
  refine ⟨by omega, ?_, h.keys, ⟨?_, ?_⟩, ?_, ?_⟩
  · rw [slice_overwrite_of_disjoint (by omega) (by omega)]
    exact h.bootstrap
  · show v.activeSuper.other.offset + superSlotSize ≤ _
    omega
  · show decodeSuperblock v.keys v.bootstrap v.activeSuper.other
      (slice _ v.activeSuper.other.offset superSlotSize) = _
    rw [hself]
    exact himage.decode (UInt64.le_iff_toNat_le.mpr hstart)
  · show next.committedEnd.toNat ≤ _
    omega
  · have hslice : slice (overwrite img v.activeSuper.other.offset bytes) logStart.toNat
        (next.committedEnd.toNat - logStart.toNat) =
        slice img logStart.toNat (next.committedEnd.toNat - logStart.toNat) :=
      slice_overwrite_of_disjoint (by omega) (by omega)
    refine Scans.congr hlog hslice (by omega) le_rfl ?_
    show next.committedEnd.toNat ≤ _
    omega

/-- What memory knows about its log. -/
theorem indexes (h : Opened master img v es) :
    Indexes es ⟨v.index, v.state.committedEnd, v.state.recordCount⟩ := Scans.indexes h.log

end Opened

/-- The image holds the volume, and no other one that is newer. -/
structure OnDisk (master : Bytes) (v : Volume) (es : List Entry) (img : Bytes) : Prop
    extends Opened master img v es where
  stale : ∀ state, SlotHolds v.keys v.bootstrap img v.activeSuper.other state →
    state.generation.toNat < v.state.generation.toNat
  limit : v.state.committedEnd.toNat < maxOffset

namespace OnDisk

theorem logStart_le (h : OnDisk master v es img) :
    logStart.toNat ≤ v.state.committedEnd.toNat := h.toOpened.logStart_le

/-- **What an image holds depends on four ranges of it.** -/
theorem congr_parts (h : OnDisk master v es img)
    (hboot : slice img' 0 bootstrapSize = slice img 0 bootstrapSize)
    (hactive : slice img' v.activeSuper.offset superSlotSize =
      slice img v.activeSuper.offset superSlotSize)
    (hother : slice img' v.activeSuper.other.offset superSlotSize =
        slice img v.activeSuper.other.offset superSlotSize ∨
      ∀ state, ¬SlotHolds v.keys v.bootstrap img' v.activeSuper.other state)
    (hlog : slice img' logStart.toNat (v.state.committedEnd.toNat - logStart.toNat) =
      slice img logStart.toNat (v.state.committedEnd.toNat - logStart.toNat))
    (hlen : v.state.committedEnd.toNat ≤ img'.length) : OnDisk master v es img' := by
  have hstart := h.logStart_le
  have hfits := h.fits
  obtain ⟨-, hhi'⟩ := v.activeSuper.other.offset_bounds
  refine ⟨h.toOpened.congr_parts hboot hactive hlog hlen, fun state hholds => ?_, h.limit⟩
  rcases hother with heq | hnone
  · exact h.stale state (hholds.congr heq.symm (by omega))
  · exact absurd hholds (hnone state)

/-- It depends on the bytes before the committed end only. -/
theorem congr (h : OnDisk master v es img)
    (hs : slice img' 0 v.state.committedEnd.toNat = slice img 0 v.state.committedEnd.toNat)
    (hlen : v.state.committedEnd.toNat ≤ img'.length) : OnDisk master v es img' := by
  have hstart := h.logStart_le
  have hboot : bootstrapSize ≤ logStart.toNat := by decide
  obtain ⟨-, hhi⟩ := v.activeSuper.offset_bounds
  obtain ⟨-, hhi'⟩ := v.activeSuper.other.offset_bounds
  refine h.congr_parts ?_ ?_ (Or.inl ?_) ?_ hlen
  · exact slice_eq_of_slice_eq hs le_rfl (by omega)
  · exact slice_eq_of_slice_eq hs (Nat.zero_le _) (by omega)
  · exact slice_eq_of_slice_eq hs (Nat.zero_le _) (by omega)
  · exact slice_eq_of_slice_eq hs (Nat.zero_le _) (by omega)

/-- Updates behind the committed end keep it. -/
theorem applyAll (h : OnDisk master v es img) {us : List Update}
    (hus : ∀ u ∈ us, u.Protects 0 v.state.committedEnd.toNat) :
    OnDisk master v es (applyAll us img) := by
  have hfits : 0 + v.state.committedEnd.toNat ≤ img.length := by
    have := h.fits
    omega
  obtain ⟨hs, hlen⟩ := slice_applyAll hus hfits
  exact h.congr hs (by omega)

/-- A switch to a greater generation leaves nothing newer behind. -/
theorem switch [LawfulCrypto] (h : OnDisk master v es img) {next : SuperState} {index : Index}
    {es' : List Entry} {bytes : Bytes}
    (hopened : Opened master (overwrite img v.activeSuper.other.offset bytes)
      { v with state := next, activeSuper := v.activeSuper.other, index := index } es')
    (hlimit : next.committedEnd.toNat < maxOffset)
    (hnewer : v.state.generation.toNat < next.generation.toNat)
    (hbytes : bytes.length = superSlotSize) :
    OnDisk master { v with state := next, activeSuper := v.activeSuper.other, index := index } es'
      (overwrite img v.activeSuper.other.offset bytes) := by
  refine ⟨hopened, fun state hholds => ?_, hlimit⟩
  obtain ⟨-, hhi⟩ := v.activeSuper.offset_bounds
  have hdisjoint := v.activeSuper.offset_disjoint
  have hstart := h.logStart_le
  have hfits := h.fits
  have hactive : slice (overwrite img v.activeSuper.other.offset bytes) v.activeSuper.offset
      superSlotSize = slice img v.activeSuper.offset superSlotSize :=
    slice_overwrite_of_disjoint (by omega) (by omega)
  have hholds' : SlotHolds v.keys v.bootstrap (overwrite img v.activeSuper.other.offset bytes)
      v.activeSuper.other.other state := hholds
  rw [Slot.other_other] at hholds'
  have hstate := (hholds'.congr hactive.symm (by omega)).unique h.slot
  rw [hstate]
  exact hnewer

/-- **A crash in a switch leaves one of the two volumes.**  The updates before the slot write are
behind `n`, where the log of both states ends at the latest; the slot itself may hold its old bytes,
its new ones, or anything that does not authenticate. -/
theorem crash_switch {d : Disk} {v' : Volume} {es' : List Entry} {ps : List Update} {bytes : Bytes}
    {n : ℕ} (h : OnDisk master v es d.durable) (h' : OnDisk master v' es' d.view)
    (hslot : v'.activeSuper = v.activeSuper.other)
    (hpending : d.pending = ps ++ [.write v.activeSuper.other.offset bytes])
    (hbytes : bytes.length ≤ superSlotSize) (hps : ∀ u ∈ ps, u.Protects 0 n)
    (hn : v.state.committedEnd.toNat ≤ n) (hn' : v'.state.committedEnd.toNat ≤ n)
    (hdurable : n ≤ d.durable.length) (hc : d.CrashImage img)
    (hcslot : slice img v.activeSuper.other.offset superSlotSize =
        slice d.durable v.activeSuper.other.offset superSlotSize ∨
      slice img v.activeSuper.other.offset superSlotSize =
        slice d.view v.activeSuper.other.offset superSlotSize ∨
      ∀ state, ¬SlotHolds v.keys v.bootstrap img v.activeSuper.other state) :
    OnDisk master v es img ∨ OnDisk master v' es' img := by
  have hstart := h.logStart_le
  have hstart' := h'.logStart_le
  obtain ⟨hlo, hhi⟩ := v.activeSuper.offset_bounds
  obtain ⟨hlo', hhi'⟩ := v.activeSuper.other.offset_bounds
  have hdisjoint := v.activeSuper.offset_disjoint
  -- every range apart from the other slot survives, and reads as in the view
  have hkeep : ∀ lo len, lo + len ≤ n → lo + len ≤ v.activeSuper.other.offset ∨
      v.activeSuper.other.offset + superSlotSize ≤ lo →
      slice img lo len = slice d.durable lo len ∧ slice d.view lo len = slice d.durable lo len ∧
        lo + len ≤ img.length := by
    intro lo len hlen hapart
    have hprotects : ∀ u ∈ d.pending, u.Protects lo len := by
      intro u hu
      rw [hpending] at hu
      rcases List.mem_append.mp hu with hm | hm
      · exact (hps u hm).mono (Nat.zero_le _) (by omega)
      · rw [List.mem_singleton.mp hm]
        simp only [Update.Protects]
        omega
    obtain ⟨hcs, hclen⟩ := Disk.slice_crashImage hprotects (by omega) hc
    exact ⟨hcs, (Disk.slice_view hprotects (by omega)).1, hclen⟩
  have hsize : bootstrapSize = superAOffset := rfl
  obtain ⟨hboot, hboot', -⟩ := hkeep 0 bootstrapSize (by omega) (Or.inl (by omega))
  obtain ⟨hactive, hactive', -⟩ := hkeep v.activeSuper.offset superSlotSize (by omega) (by omega)
  obtain ⟨hlog, -, hlen⟩ := hkeep logStart.toNat (v.state.committedEnd.toNat - logStart.toNat)
    (by omega) (Or.inr (by omega))
  obtain ⟨hlogn, hlogn', hlenn⟩ := hkeep logStart.toNat
    (v'.state.committedEnd.toNat - logStart.toNat) (by omega) (Or.inr (by omega))
  rcases hcslot with hold | hnew | hnone
  · exact Or.inl (h.congr_parts hboot hactive (Or.inl hold) hlog (by omega))
  · refine Or.inr (h'.congr_parts (hboot.trans hboot'.symm) ?_ (Or.inl ?_)
      (hlogn.trans hlogn'.symm) (by omega))
    · rw [hslot]
      exact hnew
    · rw [hslot, Slot.other_other]
      exact hactive.trans hactive'.symm
  · exact Or.inl (h.congr_parts hboot hactive (Or.inr hnone) hlog (by omega))

/-- **Opening finds the volume again**: the newest volume of the image is the one it holds. -/
theorem eq_of_newest {v' : Volume} {es' : List Entry} (h : OnDisk master v es img)
    (h' : Opened master img v' es')
    (hnewest : ∀ v'' es'', Opened master img v'' es'' →
      v''.state.committedEnd.toNat < maxOffset → v''.state.generation ≤ v'.state.generation) :
    v' = v ∧ es' = es := by
  have hle := UInt64.le_iff_toNat_le.mp (hnewest v es h.toOpened h.limit)
  rcases v with ⟨b, keys, state, slot, index⟩
  rcases v' with ⟨b', keys', state', slot', index'⟩
  obtain rfl : b' = b := by simpa using h'.bootstrap.symm.trans h.bootstrap
  obtain rfl : keys' = keys := by simpa using h'.keys.symm.trans h.keys
  have hslot : slot' = slot := by
    rcases slot.eq_or_eq_other slot' with heq | heq
    · exact heq
    · have hslot' := h'.slot
      have hstale := h.stale state'
      simp only [heq] at hslot' hstale hle
      have := hstale hslot'
      omega
  subst hslot
  obtain rfl : state' = state := h'.slot.unique h.slot
  obtain ⟨rfl, hs⟩ := Scans.unique h'.log h.log rfl
  obtain rfl : index' = index := congrArg ScanState.index hs
  exact ⟨rfl, rfl⟩

end OnDisk

/-! ## A staged batch -/

namespace Appends

variable {offset last : UInt64} {blocks : List (UInt64 × Bytes)} {rs : List Appended}

theorem written (h : Appends v offset blocks rs last) :
    Written (applyAll (rs.flatMap Appended.updates) img) rs := by
  induction h generalizing img with
  | nil offset => exact fun r hr => absurd hr List.not_mem_nil
  | @cons offset next last _ _ plaintext ciphertext header _ rs _ _ _ hnext _ hrest ih =>
    rw [List.flatMap_cons, applyAll_append]
    intro r hr
    rcases List.mem_cons.mp hr with rfl | hr
    · -- the records behind leave it alone
      obtain ⟨hheader, hbody, hlen⟩ := written_updates img
        ⟨offset, header, plaintext, ciphertext⟩ _ List.mem_cons_self
      dsimp only at hheader hbody hlen ⊢
      have hprotects : ∀ lo n, lo + n ≤ next.toNat →
          ∀ u ∈ rs.flatMap Appended.updates, u.Protects lo n := fun lo n hle u hu =>
        (hrest.tailWrites.protects hu).mono (Nat.zero_le _) (by omega)
      obtain ⟨hs, -⟩ := slice_applyAll (hprotects offset.toNat recordHeaderSize (by omega))
        (le_trans (by omega) hlen)
      obtain ⟨hs', hlen'⟩ := slice_applyAll
        (hprotects (offset.toNat + recordHeaderSize) ciphertext.length (by omega)) hlen
      exact ⟨hs.trans hheader, hs'.trans hbody, hlen'⟩
    · exact ih r hr

/-- **A written batch scans**: from a scan state that knows the batch's blocks as memory does, the
image holds its records, and they lead to the state with all of them inserted. -/
theorem scans [LawfulCrypto] (h : Appends v offset blocks rs last)
    (hinRange : ∀ p ∈ blocks, p.1 < v.bootstrap.blockCount)
    (hfits : ∀ p ∈ blocks, p.2.length ≤ v.bootstrap.blockSize.toNat)
    (hdistinct : (blocks.map Prod.fst).Nodup) (hwritten : Written img rs) {s : ScanState}
    (hs : s.offset = offset) (hindex : ∀ p ∈ blocks, s.index.lookup p.1 = v.index.lookup p.1)
    (hcount : s.count.toNat + rs.length < 2 ^ 64) :
    ∃ s', Scans v.keys v.bootstrap img s (rs.map Appended.entry) s' ∧ s'.offset = last ∧
      s'.index = insertRecords s.index (rs.map Appended.indexed) ∧
      s'.count.toNat = s.count.toNat + rs.length := by
  induction h generalizing s with
  | nil offset => exact ⟨s, .done s, hs, rfl, rfl⟩
  | @cons offset next last generation blockIndex plaintext ciphertext header rest rs hgeneration
      hheader hct hnext _ _ ih =>
    obtain ⟨hblock, hgen, hplain⟩ := recordHeader_eq_ok hheader
    obtain ⟨hhead, hbody, hlen⟩ := hwritten _ List.mem_cons_self
    dsimp only at hhead hbody hlen
    have hin : blockIndex < v.bootstrap.blockCount := hinRange _ List.mem_cons_self
    have hfit : plaintext.length ≤ v.bootstrap.blockSize.toNat := hfits _ List.mem_cons_self
    have hlookup : s.index.lookup blockIndex = v.index.lookup blockIndex :=
      hindex _ List.mem_cons_self
    obtain ⟨hfresh, hdistinct⟩ := List.nodup_cons.mp hdistinct
    have hcheck : checkHeader v.bootstrap header = .ok () := by
      have hrange : ¬header.blockIndex ≥ v.bootstrap.blockCount := by
        rw [hblock]
        exact UInt64.not_le.mpr hin
      have hsize : ¬header.plaintextLen > v.bootstrap.blockSize := by
        refine UInt32.not_lt.mpr (UInt32.le_iff_toNat_le.mpr ?_)
        rw [hplain]
        exact hfit
      unfold checkHeader
      rw [if_neg hrange, if_neg hsize]
    have hopens : Crypto.encrypt v.keys.key
        (recordNonce v.keys v.bootstrap header.blockIndex header.generation)
        (recordAad v.bootstrap header.encode) plaintext = some ciphertext := by
      rw [hblock, hgen]
      exact hct
    obtain ⟨hctlen, hrec⟩ := RecordAt.of_sealed hcheck hplain.symm hopens hhead hbody hlen
    -- the generation is one more than the newest one of the block, or the first
    have hgenerations : checkGeneration s.index header = .ok () := by
      unfold checkGeneration
      unfold nextGeneration at hgeneration
      rw [hblock, hlookup]
      cases hprev : v.index.lookup blockIndex with
      | none =>
        rw [hprev] at hgeneration
        obtain rfl : 1 = generation := by simpa using hgeneration
        simp only [hgen]
        rfl
      | some previous =>
        rw [hprev] at hgeneration
        dsimp only at hgeneration ⊢
        split at hgeneration
        · exact absurd hgeneration (by simp)
        · next generation' hadd =>
          obtain rfl : generation' = generation := by simpa using hgeneration
          rw [checkedAdd_eq_some] at hadd
          have hone : (1 : UInt64).toNat = 1 := rfl
          rw [if_neg]
          rw [hgen]
          refine UInt64.not_le.mpr (UInt64.lt_iff_toNat_lt.mpr ?_)
          omega
    rw [List.length_cons] at hcount
    have hcount' := toNat_saturatingAdd_one (x := s.count) (by omega)
    let s₁ : ScanState := ⟨s.index.insert header.blockIndex
      ⟨s.offset, header.generation, header.plaintextLen, header.ciphertextLen⟩, next,
      saturatingAdd s.count 1⟩
    have hs₁ : s₁.count.toNat = s.count.toNat + 1 := hcount'
    have hadv : Advances s header s₁ := by
      refine ⟨hgenerations, rfl, ?_, rfl⟩
      rw [hs, RecordHeader.recordLen]
      show next.toNat = _
      omega
    -- inserting this block does not change what is known of the others
    have hindex' : ∀ p ∈ rest, s₁.index.lookup p.1 = v.index.lookup p.1 := by
      intro p hp
      have hne : p.1 ≠ header.blockIndex := by
        rw [hblock]
        intro heq
        exact hfresh (List.mem_map.mpr ⟨p, hp, heq⟩)
      show (s.index.insert _ _).lookup p.1 = _
      rw [Finmap.lookup_insert_of_ne _ hne]
      exact hindex p (List.mem_cons_of_mem _ hp)
    obtain ⟨s', hscan, hlast, hins, hn⟩ := ih
      (fun p hp => hinRange p (List.mem_cons_of_mem _ hp))
      (fun p hp => hfits p (List.mem_cons_of_mem _ hp)) hdistinct
      (fun r hr => hwritten r (List.mem_cons_of_mem _ hr)) (rfl : s₁.offset = next) hindex'
      (by omega)
    refine ⟨s', ?_, hlast, ?_, ?_⟩
    · rw [List.map_cons, Appended.entry, ← hs]
      exact .record (hs ▸ hrec) hadv hscan
    · rw [hins, List.map_cons, Appended.indexed, Appended.entry, ← hs]
      rfl
    · rw [hn, List.length_cons]
      omega

/-- What a batch stores is the batch. -/
theorem items (h : Appends v offset blocks rs last) :
    ((rs.map Appended.entry).map Entry.item).map (fun e => (e.key, e.value)) = blocks := by
  induction h with
  | nil offset => rfl
  | cons _ hheader _ _ _ _ ih =>
    rw [List.map_cons, List.map_cons, List.map_cons, ih]
    simp only [Appended.entry, Entry.item, (recordHeader_eq_ok hheader).1]

theorem last_le (h : Appends v offset blocks rs last) (hwritten : Written img rs)
    (hoff : offset.toNat ≤ img.length) : last.toNat ≤ img.length := by
  induction h with
  | nil offset => exact hoff
  | cons _ _ _ hnext _ _ ih =>
    obtain ⟨-, -, hlen⟩ := hwritten _ List.mem_cons_self
    exact ih (fun r hr => hwritten r (List.mem_cons_of_mem _ hr)) (hnext ▸ hlen)

end Appends

/-! ## What a commit makes of the image -/

/-- The map a log stores after a batch. -/
theorem served_append {blocks : List (UInt64 × Bytes)} {offset last : UInt64} {rs : List Appended}
    (h : Appends v offset blocks rs last) :
    served (es ++ rs.map Appended.entry) = assign (served es) blocks := by
  rw [served, List.map_append, replay_append, h.items]
  rfl

/-- **A commit**: staging keeps the volume, and the superblock of the next state makes the image
hold the volume with the batch. -/
theorem Opened.commit [LawfulCrypto] (h : Opened master img v es) {blocks : List (UInt64 × Bytes)}
    {rs : List Appended} {last : UInt64} {next : SuperState} {bytes : Bytes}
    (hvalid : BatchValid v.bootstrap blocks)
    (happends : Appends v v.state.committedEnd blocks rs last)
    (hnext : commitState v.state rs.length last = .ok next)
    (himage : SlotImage v.keys v.bootstrap v.activeSuper.other next bytes) :
    Opened master
      (overwrite (DurableFile.applyAll (rs.flatMap Appended.updates) img) v.activeSuper.other.offset
        bytes) (committed v rs next) (es ++ rs.map Appended.entry) := by
  obtain ⟨-, hend, hcount, -⟩ := commitState_eq_ok hnext
  have hstaged := h.applyAll fun u hu => happends.tailWrites.protects hu
  have hwritten : Written (DurableFile.applyAll (rs.flatMap Appended.updates) img) rs :=
    happends.written
  have hbound := next.recordCount.toNat_lt
  obtain ⟨s, hscan, hlast, hindex, hcount'⟩ := happends.scans hvalid.inRange hvalid.fits
    hvalid.distinct hwritten
    (rfl : (⟨v.index, v.state.committedEnd, v.state.recordCount⟩ : ScanState).offset = _)
    (fun _ _ => rfl) (by
      show v.state.recordCount.toNat + _ < _
      omega)
  have hs : s = ⟨insertRecords v.index (rs.map Appended.indexed), next.committedEnd,
      next.recordCount⟩ := by
    rcases s with ⟨index, offset, count⟩
    simp only at hlast hindex hcount'
    have hsame : count = next.recordCount := UInt64.toNat_inj.mp (hcount'.trans hcount.symm)
    rw [hindex, hlast, hend, hsame]
  refine hstaged.switch ?_ ?_ himage
  · rw [hs] at hscan
    exact Scans.append hstaged.log hscan
  · rw [hend]
    exact happends.last_le hwritten hstaged.fits

/-- A change of the clean flag. -/
theorem Opened.reflag [LawfulCrypto] (h : Opened master img v es) {clean : Bool} {bytes : Bytes}
    (himage : SlotImage v.keys v.bootstrap v.activeSuper.other (flagged v.state clean) bytes) :
    Opened master (overwrite img v.activeSuper.other.offset bytes) (reflagged v clean) es := by
  have hlog : LogHolds v.keys v.bootstrap img (flagged v.state clean) es v.index := h.log
  exact h.switch hlog h.fits himage

namespace OnDisk

theorem commit [LawfulCrypto] (h : OnDisk master v es img) {blocks : List (UInt64 × Bytes)}
    {rs : List Appended} {last : UInt64} {next : SuperState} {bytes : Bytes}
    (hvalid : BatchValid v.bootstrap blocks)
    (happends : Appends v v.state.committedEnd blocks rs last)
    (hnext : commitState v.state rs.length last = .ok next)
    (himage : SlotImage v.keys v.bootstrap v.activeSuper.other next bytes) :
    OnDisk master (committed v rs next) (es ++ rs.map Appended.entry)
      (overwrite (DurableFile.applyAll (rs.flatMap Appended.updates) img) v.activeSuper.other.offset
        bytes) := by
  obtain ⟨hgeneration, hend, -, -⟩ := commitState_eq_ok hnext
  have hstaged := h.applyAll fun u hu => happends.tailWrites.protects hu
  refine hstaged.switch (h.toOpened.commit hvalid happends hnext himage) ?_ (by omega) himage.length
  rw [hend]
  exact happends.last_lt h.limit

theorem reflag [LawfulCrypto] (h : OnDisk master v es img) {clean : Bool} {bytes : Bytes}
    (hlimit : v.state.generation.toNat + 1 < 2 ^ 64)
    (himage : SlotImage v.keys v.bootstrap v.activeSuper.other (flagged v.state clean) bytes) :
    OnDisk master (reflagged v clean) es (overwrite img v.activeSuper.other.offset bytes) := by
  refine h.switch (h.toOpened.reflag himage) h.limit ?_ himage.length
  show _ < (saturatingAdd v.state.generation 1).toNat
  rw [toNat_saturatingAdd_one hlimit]
  omega

end OnDisk

/-! ## A new volume -/

/-- The state `create` starts a volume in. -/
def initialState : SuperState := ⟨1, logStart, 0, true⟩

/-- The state `create` puts into the other slot. -/
def backupState : SuperState := ⟨0, logStart, 0, true⟩

/-- What a successful `create` leaves. -/
structure Created (master : Bytes) (d : Device Sealed) (v : Volume) (d' : Device Sealed) :
    Prop where
  faults : d'.faults ⊆ d.faults
  present : d'.present = true
  trace : d'.trace = d.trace ++ [superSeal v.keys v.bootstrap .a initialState,
    superSeal v.keys v.bootstrap .b backupState]
  pending : d'.disk.pending = []
  state : v.state = initialState
  index : v.index = ∅
  active : v.activeSuper = .a
  onDisk : OnDisk master v [] d'.disk.durable

/-- The image `create` writes holds the new volume. -/
theorem onDisk_initial [LawfulCrypto] {b : Bootstrap} {keys : VolumeKeys} {primary backup : Bytes}
    (hkeys : deriveKeys master b = .ok keys) (hprimary : SlotImage keys b .a initialState primary)
    (hbackup : SlotImage keys b .b backupState backup) :
    OnDisk master ⟨b, keys, initialState, .a, ∅⟩ []
      (overwrite (overwrite (resize (overwrite [] 0 b.encode) logStart.toNat) superAOffset primary)
        superBOffset backup) := by
  have hne : b.encode ≠ [] := List.ne_nil_of_length_pos (by rw [Bootstrap.length_encode]; decide)
  have hboot := slice_overwrite_self [] b.encode 0
  rw [Bootstrap.length_encode] at hboot
  have hbootlen : (overwrite [] 0 b.encode).length = bootstrapSize := by
    rw [length_overwrite hne, Bootstrap.length_encode]
    rfl
  generalize overwrite [] 0 b.encode = img₀ at hboot hbootlen ⊢
  have hresized : slice (resize img₀ logStart.toNat) 0 bootstrapSize = b.encode := by
    rw [slice_resize (by omega) (by decide)]
    exact hboot
  have hlen₁ : (resize img₀ logStart.toNat).length = logStart.toNat := length_resize _ _
  generalize resize img₀ logStart.toNat = img₁ at hresized hlen₁ ⊢
  have hself := slice_overwrite_self img₁ primary superAOffset
  rw [hprimary.length] at hself
  have hlen₂ := le_length_overwrite img₁ primary superAOffset
  have hboot₂ : slice (overwrite img₁ superAOffset primary) 0 bootstrapSize = b.encode := by
    rw [slice_overwrite_of_disjoint (by rw [hlen₁]; decide) (Or.inl (by decide))]
    exact hresized
  generalize overwrite img₁ superAOffset primary = img₂ at hself hlen₂ hboot₂ ⊢
  rw [hlen₁] at hlen₂
  have hself₃ := slice_overwrite_self img₂ backup superBOffset
  rw [hbackup.length] at hself₃
  have hlen₃ := le_length_overwrite img₂ backup superBOffset
  have hsuper : superAOffset + superSlotSize ≤ img₂.length := le_trans (by decide) hlen₂
  have hactive : slice (overwrite img₂ superBOffset backup) superAOffset superSlotSize =
    primary := by
    rw [slice_overwrite_of_disjoint hsuper (Or.inl (by decide))]
    exact hself
  have hboot₃ : slice (overwrite img₂ superBOffset backup) 0 bootstrapSize = b.encode := by
    rw [slice_overwrite_of_disjoint (le_trans (by decide) hlen₂) (Or.inl (by decide))]
    exact hboot₂
  have hsize := hlen₂.trans hlen₃
  have hslot : superAOffset + superSlotSize ≤ (overwrite img₂ superBOffset backup).length :=
    le_trans (by decide) hsize
  have hlimit : logStart.toNat < maxOffset := by decide
  refine ⟨⟨le_trans (by decide) hsize, ?_, hkeys, ⟨hslot, ?_⟩, hsize, Scans.done _⟩, ?_, hlimit⟩
  · rw [hboot₃]
    exact Bootstrap.decode_encode b
  · show decodeSuperblock keys b .a (slice _ superAOffset superSlotSize) = _
    rw [hactive]
    exact hprimary.decode (by decide)
  · intro state hholds
    have hdecode : decodeSuperblock keys b .b
        (slice (overwrite img₂ superBOffset backup) superBOffset superSlotSize) =
          .ok (some state) :=
      hholds.decode
    rw [hself₃, hbackup.decode (by decide)] at hdecode
    obtain rfl : backupState = state := by simpa using hdecode
    show backupState.generation.toNat < initialState.generation.toNat
    decide

theorem createVolume_ok [LawfulCrypto] {options : VolumeOptions} {volumeId salt : FixedBytes 32}
    {d d' : Device Sealed}
    (h : createVolume master options volumeId salt d = (.ok v, d')) : Created master d v d' := by
  suffices hwp : wp (createVolume master options volumeId salt)
      ⟨Created master d, fun _ _ => True, fun _ => True⟩ d from hwp.ok h
  unfold createVolume
  rw [wp_bind, wp_ofExcept]
  refine ⟨fun b _ => ?_, fun _ _ => trivial⟩
  simp only [wp_bind]
  rw [wp_ofExcept]
  refine ⟨fun keys hkeys => ?_, fun _ _ => trivial⟩
  simp only [wp_bind]
  refine wp_openFile_new (fun d₁ h₁ _ hcur => ?_) (fun _ _ _ _ => trivial) fun _ _ _ => trivial
  simp only [wp_bind]
  refine wp_writeAll (fun d₂ h₂ _ _ => ?_) (fun _ _ _ _ _ => trivial) (fun _ _ _ _ => trivial)
    fun _ _ _ _ _ => trivial
  rw [h₁.disk, hcur] at h₂
  simp only [wp_bind]
  refine wp_setLen (fun d₃ h₃ _ _ => ?_) (fun _ _ _ _ => trivial) fun _ _ _ => trivial
  rw [h₂.disk] at h₃
  have h₃' := (h₃.trans h₂).trans h₁
  simp only [wp_bind]
  refine wp_writeSuperblock (fun d₄ primary hprimary h₄ => ?_)
    (fun _ _ => ⟨fun _ _ => trivial, fun _ => trivial⟩)
    fun _ _ _ _ _ => ⟨fun _ _ => trivial, fun _ _ => trivial⟩
  rw [h₃.disk] at h₄
  simp only [wp_bind]
  refine wp_writeSuperblock (fun d₅ backup hbackup h₅ => ?_)
    (fun _ _ => ⟨fun _ _ => trivial, fun _ => trivial⟩)
    fun _ _ _ _ _ => ⟨fun _ _ => trivial, fun _ _ => trivial⟩
  rw [h₄.disk] at h₅
  simp only [wp_bind]
  refine wp_syncAll (fun d₆ h₆ _ => ?_) (fun _ _ _ _ => trivial) fun _ _ _ => trivial
  rw [h₅.disk] at h₆
  have h₆' := h₆.trans_after ((h₅.trans h₄).trans h₃'.after)
  simp only [wp_pure]
  refine ⟨h₆'.faults, h₆'.present, h₆'.trace, ?_, rfl, rfl, rfl, ?_⟩
  · rw [h₆'.disk]
    rfl
  · rw [h₆'.disk]
    exact onDisk_initial hkeys hprimary hbackup

end OrIsyVra.Volume
