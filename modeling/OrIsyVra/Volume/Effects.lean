import OrIsyVra.Volume.Log

/-!
# What the writing operations can do

One statement for each writing operation, listing every way a call can end under any script of
failures: `WriteEffect` for `write_blocks`, `CleanEffect` for `mark_clean` and `mark_dirty`.  Each
case says what has been issued to the file, what has been sealed, and what memory holds.  Every
invariant of later modules is a case analysis of these two; no later proof opens the programs again.

A batch is *staged* by `append_records`: it issues writes behind the committed end only
(`TailWrites`), and once all of it is staged the file holds the records described by `Appends`.
-/

namespace OrIsyVra.Volume

open ByteString MachineWord DurableFile FaultProgram

/-! ## Records on their way to the file -/

/-- The header of the next record is the announced one. -/
theorem recordHeader_eq_ok {blockIndex generation : UInt64} {plaintext : Bytes}
    {header : RecordHeader} (h : recordHeader blockIndex generation plaintext = .ok header) :
    header.blockIndex = blockIndex ∧ header.generation = generation ∧
      header.plaintextLen.toNat = plaintext.length := by
  unfold recordHeader at h
  split at h
  · next hlen =>
    split at h
    · obtain rfl := Except.ok.inj h
      exact ⟨rfl, rfl, UInt32.toNat_ofNat_of_lt' hlen⟩
    · exact absurd h (by simp)
  · exact absurd h (by simp)

theorem recordHeader_isOk (blockIndex generation : UInt64) {plaintext : Bytes}
    (h : plaintext.length ≤ 2 ^ 24) :
    ∃ header, recordHeader blockIndex generation plaintext = .ok header := by
  unfold recordHeader
  rw [if_pos (by omega), dif_pos (by simp only [aeadTagSize]; omega)]
  exact ⟨_, rfl⟩

/-- A record as it was sealed and written. -/
structure Appended where
  offset : UInt64
  header : RecordHeader
  payload : Bytes
  ciphertext : Bytes

namespace Appended

def updates (r : Appended) : List Update :=
  [.write r.offset.toNat r.header.encode,
    .write (r.offset.toNat + recordHeaderSize) r.ciphertext]

def entry (r : Appended) : Entry := ⟨r.offset, r.header, r.payload⟩

def indexed (r : Appended) : UInt64 × RecordIndex := (r.header.blockIndex, r.entry.record)

end Appended

/-- Writes at or behind an offset. -/
def TailWrites (lo : ℕ) (us : List Update) : Prop :=
  ∀ u ∈ us, ∃ off bs, u = .write off bs ∧ lo ≤ off

theorem TailWrites.mono {lo lo' : ℕ} {us : List Update} (h : TailWrites lo us) (hle : lo' ≤ lo) :
    TailWrites lo' us := by
  intro u hu
  obtain ⟨off, bs, rfl, hoff⟩ := h u hu
  exact ⟨off, bs, rfl, hle.trans hoff⟩

theorem TailWrites.append {lo : ℕ} {us ws : List Update} (h : TailWrites lo us)
    (h' : TailWrites lo ws) : TailWrites lo (us ++ ws) := by
  intro u hu
  rcases List.mem_append.mp hu with hm | hm
  · exact h u hm
  · exact h' u hm

/-- Writes behind an offset protect what is before it. -/
theorem TailWrites.protects {lo : ℕ} {us : List Update} (h : TailWrites lo us) {u : Update}
    (hu : u ∈ us) : u.Protects 0 lo := by
  obtain ⟨off, bs, rfl, hoff⟩ := h u hu
  exact Or.inl (by omega)

theorem Appended.tailWrites (r : Appended) : TailWrites r.offset.toNat r.updates := by
  intro u hu
  rcases List.mem_cons.mp hu with rfl | hu
  · exact ⟨_, _, rfl, le_rfl⟩
  · rw [List.mem_singleton.mp hu]
    exact ⟨_, _, rfl, Nat.le_add_right _ _⟩

/-- A record write has issued all of it, or writes behind its offset. -/
theorem wp_writeRecord {offset : UInt64} {header : RecordHeader} {ciphertext : Bytes}
    {Q : Post (Device Sealed) VolumeError Unit} {d : Device Sealed}
    (hok : ∀ d', d'.Follows d (d.disk.pushAll [.write offset.toNat header.encode,
        .write (offset.toNat + recordHeaderSize) ciphertext]) →
      offset.toNat + recordHeaderSize + ciphertext.length < maxOffset → Q.ok () d')
    (hcut : ∀ d' us, TailWrites offset.toNat us → d'.Follows d (d.disk.pushAll us) →
      (∀ f, Q.error (.io f) d') ∧ (d.MayCrash → Q.crash d')) :
    wp (writeRecord offset header ciphertext) Q d := by
  have hnone : TailWrites offset.toNat [] := fun u hu => absurd hu List.not_mem_nil
  have hone : ∀ (off : ℕ) (bs : Bytes), offset.toNat ≤ off →
      TailWrites offset.toNat [.write off bs] := by
    intro off bs hle u hu
    rw [List.mem_singleton.mp hu]
    exact ⟨off, bs, rfl, hle⟩
  unfold writeRecord
  rw [wp_bind]
  refine wp_seek (fun d₁ h₁ hcur₁ _ => ?_) (fun d₁ f h₁ _ => ?_) fun d₁ h₁ hf => ?_
  · simp only [wp_bind]
    refine wp_writeAll (fun d₂ h₂ hcur₂ _ => ?_) (fun d₂ part f h₂ _ => ?_) (fun d₂ f h₂ _ => ?_)
      fun d₂ part h₂ hf _ => ?_
    · -- the header is out; now the ciphertext behind it
      rw [h₁.disk, hcur₁] at h₂
      rw [hcur₁, RecordHeader.length_encode] at hcur₂
      have h₂' := h₂.trans h₁
      have hheader := hone offset.toNat header.encode le_rfl
      have hbody : ∀ bs, TailWrites offset.toNat
          [.write offset.toNat header.encode, .write (offset.toNat + recordHeaderSize) bs] :=
        fun bs => hheader.append (hone _ bs (Nat.le_add_right _ _))
      refine wp_writeAll (fun d₃ h₃ _ hlt => ?_) (fun d₃ part f h₃ _ => ?_) (fun d₃ f h₃ _ => ?_)
        fun d₃ part h₃ hf _ => ?_
      · rw [hcur₂, h₂.disk, Disk.push_eq_pushAll d.disk, Disk.pushAll_push] at h₃
        rw [hcur₂] at hlt
        exact hok d₃ (h₃.trans h₂') hlt
      · rw [hcur₂, h₂.disk, Disk.push_eq_pushAll d.disk, Disk.pushAll_push] at h₃
        exact (hcut d₃ _ (hbody _) (h₃.trans h₂')).1 f
      · rw [h₂.disk] at h₃
        exact (hcut d₃ _ hheader (h₃.trans h₂')).1 f
      · rw [hcur₂, h₂.disk, Disk.push_eq_pushAll d.disk, Disk.pushAll_push] at h₃
        exact (hcut d₃ _ (hbody _) (h₃.trans h₂')).2 (hf.mono h₂'.faults)
    · rw [h₁.disk, hcur₁] at h₂
      exact (hcut d₂ _ (hone _ _ le_rfl) (h₂.trans h₁)).1 f
    · rw [h₁.disk, ← Disk.pushAll_nil d.disk] at h₂
      exact (hcut d₂ _ hnone (h₂.trans h₁)).1 f
    · rw [h₁.disk, hcur₁] at h₂
      exact (hcut d₂ _ (hone _ _ le_rfl) (h₂.trans h₁)).2 (hf.mono h₁.faults)
  · rw [← Disk.pushAll_nil d.disk] at h₁
    exact (hcut d₁ _ hnone h₁).1 f
  · rw [← Disk.pushAll_nil d.disk] at h₁
    exact (hcut d₁ _ hnone h₁).2 hf

/-- The offset behind a record that has just been written. -/
theorem checkedAdd_written {offset : UInt64} {n : ℕ}
    (h : offset.toNat + recordHeaderSize + n < maxOffset) :
    ∃ next : UInt64, next.toNat = offset.toNat + recordHeaderSize + n ∧
      (checkedAdd offset (UInt64.ofNat recordHeaderSize)).bind (checkedAdd · (UInt64.ofNat n)) =
        some next := by
  have hmax : maxOffset < UInt64.size := by decide
  have hsize : (UInt64.ofNat recordHeaderSize).toNat = recordHeaderSize := rfl
  have hn : (UInt64.ofNat n).toNat = n := UInt64.toNat_ofNat_of_lt' (by omega)
  have hmid : checkedAdd offset (UInt64.ofNat recordHeaderSize) =
      some (UInt64.ofNat (offset.toNat + recordHeaderSize)) := by
    rw [checkedAdd_eq_some, UInt64.toNat_ofNat_of_lt' (by omega), hsize]
  refine ⟨UInt64.ofNat (offset.toNat + recordHeaderSize + n),
    UInt64.toNat_ofNat_of_lt' (by omega), ?_⟩
  rw [hmid, Option.bind_some, checkedAdd_eq_some, UInt64.toNat_ofNat_of_lt' (by omega),
    UInt64.toNat_ofNat_of_lt' (by omega), hn]

/-! ## Valid batches -/

/-- A batch `write_blocks` accepts. -/
structure BatchValid (b : Bootstrap) (blocks : List (UInt64 × Bytes)) : Prop where
  inRange : ∀ p ∈ blocks, p.1 < b.blockCount
  fits : ∀ p ∈ blocks, p.2.length ≤ b.blockSize.toNat
  distinct : (blocks.map Prod.fst).Nodup

/-- A batch passes the checks exactly when it is valid. -/
theorem validateBatch_eq_ok {b : Bootstrap} {seen : List UInt64} {blocks : List (UInt64 × Bytes)} :
    validateBatch b seen blocks = .ok () ↔
      BatchValid b blocks ∧ ∀ p ∈ blocks, p.1 ∉ seen := by
  induction blocks generalizing seen with
  | nil => simpa [validateBatch] using BatchValid.mk (by simp) (by simp) (by simp)
  | cons block rest ih =>
    rcases block with ⟨blockIndex, plaintext⟩
    unfold validateBatch validateBlockIndex
    by_cases hrange : blockIndex ≥ b.blockCount
    · simp only [if_pos hrange, bind, Except.bind]
      constructor
      · intro h
        exact absurd h (by simp)
      · rintro ⟨h, -⟩
        exact absurd (h.inRange _ List.mem_cons_self) (UInt64.not_lt.mpr hrange)
    by_cases hseen : blockIndex ∈ seen
    · simp only [if_neg hrange, if_pos hseen, bind, Except.bind]
      constructor
      · intro h
        exact absurd h (by simp)
      · rintro ⟨-, h⟩
        exact absurd hseen (h _ List.mem_cons_self)
    by_cases hlen : plaintext.length > b.blockSize.toNat
    · simp only [if_neg hrange, if_neg hseen, if_pos hlen, bind, Except.bind]
      constructor
      · intro h
        exact absurd h (by simp)
      · rintro ⟨h, -⟩
        exact absurd (h.fits _ List.mem_cons_self) (not_le.mpr hlen)
    simp only [if_neg hrange, if_neg hseen, if_neg hlen, bind, Except.bind, ih]
    constructor
    · rintro ⟨⟨hr, hf, hd⟩, hs⟩
      have hfresh : blockIndex ∉ rest.map Prod.fst := by
        intro hmem
        obtain ⟨p, hp, rfl⟩ := List.mem_map.mp hmem
        exact hs p hp List.mem_cons_self
      refine ⟨⟨?_, ?_, List.nodup_cons.mpr ⟨hfresh, hd⟩⟩, ?_⟩
      · exact List.forall_mem_cons.mpr ⟨UInt64.not_le.mp hrange, hr⟩
      · exact List.forall_mem_cons.mpr ⟨not_lt.mp hlen, hf⟩
      · exact List.forall_mem_cons.mpr ⟨hseen, fun p hp hm => hs p hp (List.mem_cons_of_mem _ hm)⟩
    · rintro ⟨⟨hr, hf, hd⟩, hs⟩
      obtain ⟨hfresh, hd⟩ := List.nodup_cons.mp hd
      refine ⟨⟨fun p hp => hr p (List.mem_cons_of_mem _ hp),
        fun p hp => hf p (List.mem_cons_of_mem _ hp), hd⟩, fun p hp hmem => ?_⟩
      rcases List.mem_cons.mp hmem with heq | hmem
      · have hmap := List.mem_map_of_mem (f := Prod.fst) hp
        rw [heq] at hmap
        exact hfresh hmap
      · exact hs p (List.mem_cons_of_mem _ hp) hmem

variable [Crypto]

/-! ## Sealing -/

/-- The encryption of a superblock. -/
def superSeal (keys : VolumeKeys) (b : Bootstrap) (slot : Slot) (state : SuperState) : Sealed :=
  ⟨ascii "super", slot.byte.toUInt64, state.generation, keys.key,
    superNonce keys b slot state.generation, superAad b slot state.generation, state.encode⟩

/-- The encryption of a record. -/
def dataSeal (keys : VolumeKeys) (b : Bootstrap) (header : RecordHeader)
    (payload : Bytes) : Sealed :=
  ⟨ascii "data", header.blockIndex, header.generation, keys.key,
    recordNonce keys b header.blockIndex header.generation, recordAad b header.encode, payload⟩

theorem wp_sealWith [LawfulCrypto] {keys : VolumeKeys} {b : Bootstrap} {domain : Bytes}
    {first second : UInt64} {aad message : Bytes} {Q : Post (Device Sealed) VolumeError Bytes}
    {d : Device Sealed} (hsize : message.length < 2 ^ 32)
    (hok : ∀ d' ciphertext,
      Crypto.encrypt keys.key (deriveNonce keys b domain first second) aad message =
        some ciphertext →
      d'.After d d.disk
        [⟨domain, first, second, keys.key, deriveNonce keys b domain first second, aad, message⟩] →
      Q.ok ciphertext d') :
    wp (sealWith keys b domain first second aad message) Q d := by
  obtain ⟨ciphertext, hct⟩ := Option.isSome_iff_exists.mp
    (LawfulCrypto.encrypt_isSome keys.key (deriveNonce keys b domain first second)
      aad message hsize)
  unfold sealWith
  simp only [hct, wp_bind, wp_note, wp_pure]
  exact hok _ ciphertext hct (Device.After.noted d _)

/-! ## Superblocks -/

/-- The bytes a superblock write puts into a slot. -/
def SlotImage (keys : VolumeKeys) (b : Bootstrap) (slot : Slot)
    (state : SuperState) (bytes : Bytes) :
    Prop :=
  ∃ ciphertext, Crypto.encrypt keys.key (superNonce keys b slot state.generation)
    (superAad b slot state.generation) state.encode = some ciphertext ∧
    bytes = slotBytes state.generation ciphertext

namespace SlotImage

variable {keys : VolumeKeys} {b : Bootstrap} {slot : Slot} {state : SuperState} {bytes : Bytes}

theorem length [LawfulCrypto] (h : SlotImage keys b slot state bytes) :
    bytes.length = superSlotSize := by
  obtain ⟨ciphertext, hct, rfl⟩ := h
  apply length_slotBytes
  rw [LawfulCrypto.length_encrypt _ _ _ _ _ hct, SuperState.length_encode]
  decide

theorem decode [LawfulCrypto] (h : SlotImage keys b slot state bytes)
    (hend : logStart ≤ state.committedEnd) :
    decodeSuperblock keys b slot bytes = .ok (some state) := by
  obtain ⟨ciphertext, hct, rfl⟩ := h
  exact decodeSuperblock_slotBytes hend hct

end SlotImage

/-- A call was cut short by the file: it failed there, or the process died. -/
def Cut {α : Type} (d : Device Sealed) : Outcome VolumeError α → Prop
  | .ok _ => False
  | .error e => (∃ f, e = .io f) ∧ d.MayFail
  | .crash => d.MayCrash

/-- A superblock write has issued its slot, a part of it, or nothing. -/
theorem wp_writeSuperblock [LawfulCrypto] {keys : VolumeKeys} {b : Bootstrap} {slot : Slot}
    {state : SuperState} {Q : Post (Device Sealed) VolumeError Unit} {d : Device Sealed}
    (hok : ∀ d' bytes, SlotImage keys b slot state bytes →
      d'.After d (d.disk.push (.write slot.offset bytes))
        [superSeal keys b slot state] → Q.ok () d')
    (huntouched : ∀ d', d'.After d d.disk [superSeal keys b slot state] →
      (∀ f, d.MayFail → Q.error (.io f) d') ∧ (d.MayCrash → Q.crash d'))
    (htorn : ∀ d' bytes part, SlotImage keys b slot state bytes →
      d'.After d (d.disk.push (.write slot.offset (bytes.take part)))
        [superSeal keys b slot state] →
      (∀ f, d.MayFail → Q.error (.io f) d') ∧
        (d.MayCrash → .kill part ∈ d.faults ∨ bytes.length ≤ part → Q.crash d')) :
    wp (writeSuperblock keys b slot state) Q d := by
  unfold writeSuperblock
  rw [wp_bind]
  refine wp_sealWith (by rw [SuperState.length_encode]; decide) fun d₁ ciphertext hct h₁ => ?_
  have himage : SlotImage keys b slot state (slotBytes state.generation ciphertext) :=
    ⟨ciphertext, hct, rfl⟩
  have hlen : ciphertext.length = 80 := by
    rw [LawfulCrypto.length_encrypt _ _ _ _ _ hct, SuperState.length_encode]
    rfl
  have hfit : ¬ciphertext.length + 16 > superSlotSize := by
    rw [hlen]
    decide
  have hbound : slot.offset + superSlotSize < maxOffset := by cases slot <;> decide
  simp only [if_neg hfit]
  rw [wp_bind]
  refine wp_seek (fun d₂ h₂ hcur _ => ?_) (fun d₂ f h₂ hf => ?_) fun d₂ h₂ hf => ?_
  · -- the cursor is at the slot: the write itself
    rw [h₁.disk] at h₂
    have h₂' := h₂.trans_after h₁
    refine wp_writeAll (fun d₃ h₃ _ _ => ?_) (fun d₃ part f h₃ hf => ?_) (fun d₃ f _ hlarge => ?_)
      fun d₃ part h₃ hf hpart => ?_
    · refine hok d₃ _ himage ?_
      rw [hcur, h₂'.disk] at h₃
      exact h₃.trans_after h₂'
    · rw [hcur, h₂'.disk] at h₃
      exact (htorn d₃ _ part himage (h₃.trans_after h₂')).1 f (hf.mono h₂'.faults)
    · rw [hcur, himage.length] at hlarge
      omega
    · rw [hcur, h₂'.disk] at h₃
      exact (htorn d₃ _ part himage (h₃.trans_after h₂')).2 (hf.mono h₂'.faults)
        (hpart.imp (fun h => h₂'.faults h) id)
  · rw [h₁.disk] at h₂
    rcases hf with hf | ⟨hlarge, -⟩
    · exact (huntouched d₂ (h₂.trans_after h₁)).1 f (hf.mono h₁.faults)
    · omega
  · rw [h₁.disk] at h₂
    exact (huntouched d₂ (h₂.trans_after h₁)).2 (hf.mono h₁.faults)

/-! ## Staging a batch -/

def Appended.sealed (v : Volume) (r : Appended) : Sealed :=
  dataSeal v.keys v.bootstrap r.header r.payload

/-- The batch `blocks` of the volume `v`, sealed and laid out from one offset to another. -/
inductive Appends (v : Volume) :
    UInt64 → List (UInt64 × Bytes) → List Appended → UInt64 → Prop where
  | nil (offset : UInt64) : Appends v offset [] [] offset
  | cons {offset next last generation : UInt64} {blockIndex : UInt64} {plaintext ciphertext : Bytes}
      {header : RecordHeader} {rest : List (UInt64 × Bytes)} {rs : List Appended} :
      nextGeneration v.index blockIndex = .ok generation →
      recordHeader blockIndex generation plaintext = .ok header →
      Crypto.encrypt v.keys.key (recordNonce v.keys v.bootstrap blockIndex generation)
        (recordAad v.bootstrap header.encode) plaintext = some ciphertext →
      next.toNat = offset.toNat + recordHeaderSize + ciphertext.length → next.toNat < maxOffset →
      Appends v next rest rs last →
      Appends v offset ((blockIndex, plaintext) :: rest)
        (⟨offset, header, plaintext, ciphertext⟩ :: rs) last

/-- The encryption a batch makes for one of its blocks. -/
def recordSeal (v : Volume) (block : UInt64 × Bytes) : Option Sealed :=
  match nextGeneration v.index block.1 with
  | .error _ => none
  | .ok generation =>
    match recordHeader block.1 generation block.2 with
    | .error _ => none
    | .ok header => some (dataSeal v.keys v.bootstrap header block.2)

/-- The encryptions a batch can make. -/
def batchSeals (v : Volume) (blocks : List (UInt64 × Bytes)) : List Sealed :=
  blocks.filterMap (recordSeal v)

theorem batchSeals_cons_subset (v : Volume) (block : UInt64 × Bytes)
    (blocks : List (UInt64 × Bytes)) : batchSeals v blocks ⊆ batchSeals v (block :: blocks) := by
  intro e he
  obtain ⟨p, hp, hseal⟩ := List.mem_filterMap.mp he
  exact List.mem_filterMap.mpr ⟨p, List.mem_cons_of_mem _ hp, hseal⟩

/-- The errors with which staging stops. -/
def StageError (e : VolumeError) : Prop := (∃ f, e = .io f) ∨ e = blockGenerationExhausted

/-- **Staging** issues writes behind its offset only, and seals nothing but records of its batch. -/
theorem wp_appendRecords [LawfulCrypto] (v : Volume) {blocks : List (UInt64 × Bytes)}
    {offset : UInt64} {Q : Post (Device Sealed) VolumeError (List (UInt64 × RecordIndex) × UInt64)}
    {d : Device Sealed} (hsize : ∀ p ∈ blocks, p.2.length ≤ 2 ^ 24)
    (hok : ∀ d' rs last, Appends v offset blocks rs last →
      d'.After d (d.disk.pushAll (rs.flatMap Appended.updates)) (rs.map (Appended.sealed v)) →
      Q.ok (rs.map Appended.indexed, last) d')
    (hstop : ∀ d' us es, TailWrites offset.toNat us → es ⊆ batchSeals v blocks →
      d'.After d (d.disk.pushAll us) es →
      (∀ e, StageError e → Q.error e d') ∧ (d.MayCrash → Q.crash d')) :
    wp (appendRecords v offset blocks) Q d := by
  induction blocks generalizing offset Q d with
  | nil =>
    have hnil := hok d [] offset (.nil offset)
    rw [List.flatMap_nil, Disk.pushAll_nil] at hnil
    unfold appendRecords
    rw [wp_pure]
    exact hnil (Device.After.refl d)
  | cons block rest ih =>
    rcases block with ⟨blockIndex, plaintext⟩
    have hplain : plaintext.length ≤ 2 ^ 24 := hsize _ List.mem_cons_self
    have hrest : ∀ p ∈ rest, p.2.length ≤ 2 ^ 24 := fun p hp => hsize p (List.mem_cons_of_mem _ hp)
    have hnone : TailWrites offset.toNat [] := fun u hu => absurd hu List.not_mem_nil
    unfold appendRecords
    rw [wp_bind, wp_ofExcept]
    refine ⟨fun generation hgeneration => ?_, fun e he => ?_⟩
    · obtain ⟨header, hheader⟩ := recordHeader_isOk blockIndex generation hplain
      obtain ⟨hblock, hgen, -⟩ := recordHeader_eq_ok hheader
      have hseal : [dataSeal v.keys v.bootstrap header plaintext] ⊆
          batchSeals v ((blockIndex, plaintext) :: rest) := by
        refine List.cons_subset.mpr ⟨List.mem_filterMap.mpr ⟨_, List.mem_cons_self, ?_⟩,
          List.nil_subset _⟩
        simp only [recordSeal, hgeneration, hheader]
      simp only [hheader, wp_bind, wp_ofExcept_ok]
      refine wp_sealWith (by omega) fun d₁ ciphertext hct h₁ => ?_
      have hsealed : (⟨ascii "data", blockIndex, generation, v.keys.key,
          deriveNonce v.keys v.bootstrap (ascii "data") blockIndex generation,
          recordAad v.bootstrap header.encode, plaintext⟩ : Sealed) =
          dataSeal v.keys v.bootstrap header plaintext := by
        rw [dataSeal, hblock, hgen]
        rfl
      rw [hsealed] at h₁
      simp only [wp_bind]
      refine wp_writeRecord (fun d₂ h₂ hlt => ?_) fun d₂ us htail h₂ => ?_
      · -- the record is out: the rest of the batch follows behind it
        obtain ⟨next, hnext, hadd⟩ := checkedAdd_written hlt
        rw [h₁.disk] at h₂
        have h₂' := h₂.trans_after h₁
        have hrecord : TailWrites offset.toNat
            (Appended.updates ⟨offset, header, plaintext, ciphertext⟩) := Appended.tailWrites _
        simp only [hadd, wp_bind, wp_ofExcept_ok]
        refine ih hrest (fun d₃ rs last happends h₃ => ?_) fun d₃ us es htail hes h₃ => ?_
        · have h₃' := h₃.trans h₂'
          rw [h₂.disk, Disk.pushAll_pushAll] at h₃'
          have hcons := hok d₃ (⟨offset, header, plaintext, ciphertext⟩ :: rs) last
            (.cons hgeneration hheader hct hnext (hnext ▸ hlt) happends) h₃'
          rw [List.map_cons] at hcons
          simp only [Appended.indexed, Appended.entry, Entry.record, hblock, hgen] at hcons
          simp only [wp_pure]
          exact hcons
        · have h₃' := h₃.trans h₂'
          rw [h₂.disk, Disk.pushAll_pushAll] at h₃'
          have htail' : TailWrites offset.toNat us := htail.mono (by omega)
          have hes' := List.append_subset.mpr ⟨hseal,
            List.Subset.trans hes (batchSeals_cons_subset v (blockIndex, plaintext) rest)⟩
          obtain ⟨herror, hcrash⟩ := hstop d₃ _ _ (hrecord.append htail') hes' h₃'
          exact ⟨herror, fun hc => hcrash (hc.mono h₂'.faults)⟩
      · rw [h₁.disk] at h₂
        obtain ⟨herror, hcrash⟩ := hstop d₂ us _ htail hseal
          (h₂.trans_after h₁)
        exact ⟨fun f => herror _ (Or.inl ⟨f, rfl⟩), fun hc => hcrash (hc.mono h₁.faults)⟩
    · have hexhausted : e = blockGenerationExhausted := by
        unfold nextGeneration at he
        split at he
        · split at he
          · exact (Except.error.inj he).symm
          · exact absurd he (by simp)
        · exact absurd he (by simp)
      have hnil : d.After d (d.disk.pushAll []) [] := by
        rw [Disk.pushAll_nil]
        exact Device.After.refl d
      exact (hstop d [] [] hnone (List.nil_subset _) hnil).1 e (Or.inr hexhausted)

namespace Appends

variable {v : Volume} {offset last : UInt64} {blocks : List (UInt64 × Bytes)} {rs : List Appended}

theorem length_eq (h : Appends v offset blocks rs last) : rs.length = blocks.length := by
  induction h with
  | nil offset => rfl
  | cons _ _ _ _ _ _ ih => rw [List.length_cons, List.length_cons, ih]

/-- Each record takes its header and more. -/
theorem room (h : Appends v offset blocks rs last) :
    offset.toNat + recordHeaderSize * rs.length ≤ last.toNat := by
  induction h with
  | nil offset => exact le_rfl
  | cons _ _ _ hnext _ _ ih =>
    rw [List.length_cons, Nat.mul_succ]
    omega

theorem last_lt (h : Appends v offset blocks rs last) (hoff : offset.toNat < maxOffset) :
    last.toNat < maxOffset := by
  induction h with
  | nil offset => exact hoff
  | cons _ _ _ _ hlt _ ih => exact ih hlt

theorem tailWrites (h : Appends v offset blocks rs last) :
    TailWrites offset.toNat (rs.flatMap Appended.updates) := by
  induction h with
  | nil offset => exact fun u hu => absurd hu List.not_mem_nil
  | cons _ _ _ hnext _ _ ih =>
    rw [List.flatMap_cons]
    refine (Appended.tailWrites _).append (ih.mono ?_)
    rw [hnext, Nat.add_assoc]
    exact Nat.le_add_right _ _

theorem seals_subset (h : Appends v offset blocks rs last) :
    rs.map (Appended.sealed v) ⊆ batchSeals v blocks := by
  induction h with
  | nil offset => exact List.nil_subset _
  | @cons _ _ _ _ blockIndex plaintext _ header rest _ hgeneration hheader _ _ _ _ ih =>
    refine List.cons_subset.mpr ⟨List.mem_filterMap.mpr ⟨_, List.mem_cons_self, ?_⟩,
      List.Subset.trans ih (batchSeals_cons_subset v (blockIndex, plaintext) rest)⟩
    simp only [recordSeal, hgeneration, hheader]
    rfl

end Appends

/-! ## Committing a batch -/

/-- The volume after a batch: the new records in the index, the other slot active. -/
def committed (v : Volume) (rs : List Appended) (next : SuperState) : Volume :=
  { v with
    index := insertRecords v.index (rs.map Appended.indexed)
    state := next
    activeSuper := v.activeSuper.other }

/-- **What `write_blocks` can do.** -/
inductive WriteEffect (s : Session) (blocks : List (UInt64 × Bytes)) :
    Outcome VolumeError (List UInt64) → Session → Prop where
  /-- Nothing to write. -/
  | empty : blocks = [] → WriteEffect s blocks (.ok []) s
  /-- The batch is not valid. -/
  | rejected {e : VolumeError} : validateBatch s.volume.bootstrap [] blocks = .error e →
      WriteEffect s blocks (.error e) s
  /-- It stopped before the records were synced. -/
  | staging {o : Outcome VolumeError (List UInt64)} {file : Device Sealed} {us : List Update}
      {es : List Sealed} : BatchValid s.volume.bootstrap blocks →
      TailWrites s.volume.state.committedEnd.toNat us → es ⊆ batchSeals s.volume blocks →
      file.After s.file (s.file.disk.pushAll us) es →
      (∀ gens, o ≠ .ok gens) → (∀ e, o = .error e → StageError e) →
      (o = .crash → s.file.MayCrash) → WriteEffect s blocks o ⟨s.volume, file⟩
  /-- The records are synced, the slot is as it was. -/
  | uncommitted {o : Outcome VolumeError (List UInt64)} {file : Device Sealed} {rs : List Appended}
      {last : UInt64} {es : List Sealed} : BatchValid s.volume.bootstrap blocks →
      Appends s.volume s.volume.state.committedEnd blocks rs last →
      file.After s.file (s.file.disk.pushAll (rs.flatMap Appended.updates)).sync
        (rs.map (Appended.sealed s.volume) ++ es) →
      (es = [] ∧ (∃ e, o = .error e ∧ commitState s.volume.state rs.length last = .error e) ∨
        ∃ next, commitState s.volume.state rs.length last = .ok next ∧
          es = [superSeal s.volume.keys s.volume.bootstrap s.volume.activeSuper.other next] ∧
          Cut s.file o) → WriteEffect s blocks o ⟨s.volume, file⟩
  /-- The slot write was cut short. -/
  | torn {o : Outcome VolumeError (List UInt64)} {file : Device Sealed} {rs : List Appended}
      {last : UInt64} {next : SuperState} {bytes : Bytes} {part : ℕ} :
      BatchValid s.volume.bootstrap blocks →
      Appends s.volume s.volume.state.committedEnd blocks rs last →
      commitState s.volume.state rs.length last = .ok next →
      SlotImage s.volume.keys s.volume.bootstrap s.volume.activeSuper.other next bytes →
      file.After s.file ((s.file.disk.pushAll (rs.flatMap Appended.updates)).sync.push
          (.write s.volume.activeSuper.other.offset (bytes.take part)))
        (rs.map (Appended.sealed s.volume) ++
          [superSeal s.volume.keys s.volume.bootstrap s.volume.activeSuper.other next]) →
      Cut s.file o → (o = .crash → .kill part ∈ s.file.faults ∨ bytes.length ≤ part) →
      WriteEffect s blocks o ⟨s.volume, file⟩
  /-- The slot is written and memory has moved on, but the last sync did not return. -/
  | unsynced {o : Outcome VolumeError (List UInt64)} {file : Device Sealed} {rs : List Appended}
      {last : UInt64} {next : SuperState} {bytes : Bytes} :
      BatchValid s.volume.bootstrap blocks →
      Appends s.volume s.volume.state.committedEnd blocks rs last →
      commitState s.volume.state rs.length last = .ok next →
      SlotImage s.volume.keys s.volume.bootstrap s.volume.activeSuper.other next bytes →
      file.After s.file ((s.file.disk.pushAll (rs.flatMap Appended.updates)).sync.push
          (.write s.volume.activeSuper.other.offset bytes))
        (rs.map (Appended.sealed s.volume) ++
          [superSeal s.volume.keys s.volume.bootstrap s.volume.activeSuper.other next]) →
      Cut s.file o → WriteEffect s blocks o ⟨committed s.volume rs next, file⟩
  /-- The batch is committed. -/
  | committed {file : Device Sealed} {rs : List Appended} {last : UInt64} {next : SuperState}
      {bytes : Bytes} : BatchValid s.volume.bootstrap blocks →
      Appends s.volume s.volume.state.committedEnd blocks rs last →
      commitState s.volume.state rs.length last = .ok next →
      SlotImage s.volume.keys s.volume.bootstrap s.volume.activeSuper.other next bytes →
      file.After s.file ((s.file.disk.pushAll (rs.flatMap Appended.updates)).sync.push
          (.write s.volume.activeSuper.other.offset bytes)).sync
        (rs.map (Appended.sealed s.volume) ++
          [superSeal s.volume.keys s.volume.bootstrap s.volume.activeSuper.other next]) →
      WriteEffect s blocks (.ok (rs.map fun r => r.header.generation))
        ⟨Volume.committed s.volume rs next, file⟩

theorem writeBlocks_effect [LawfulCrypto] (s : Session) (blocks : List (UInt64 × Bytes)) :
    WriteEffect s blocks (writeBlocks blocks s).1 (writeBlocks blocks s).2 := by
  apply wp_outcome
  unfold writeBlocks
  by_cases hempty : blocks = []
  · subst hempty
    simp only [List.isEmpty_nil, if_true, wp_pure]
    exact WriteEffect.empty rfl
  have hne : blocks.isEmpty = false := by
    cases blocks with
    | nil => exact absurd rfl hempty
    | cons => rfl
  simp only [hne, Bool.false_eq_true, if_false, wp_bind, wp_get]
  rw [wp_ofExcept]
  refine ⟨fun _ hvalidate => ?_, fun e he => .rejected he⟩
  obtain ⟨hvalid, -⟩ := validateBatch_eq_ok.mp hvalidate
  have hsize : ∀ p ∈ blocks, p.2.length ≤ 2 ^ 24 := fun p hp =>
    (hvalid.fits p hp).trans s.volume.bootstrap.blockSize_le
  simp only [Session.onFile, wp_bind, wp_zoom]
  refine wp_appendRecords s.volume hsize (fun d₁ rs last happends h₁ => ?_)
    fun d₁ us es htail hes h₁ => ⟨fun e he => ?_, fun hc => ?_⟩
  · dsimp only
    refine wp_syncAll (fun d₂ h₂ _ => ?_) (fun d₂ f h₂ hf => ?_) fun d₂ h₂ hf => ?_
    · -- the records are durable: on to the superblock
      rw [h₁.disk] at h₂
      have h₂' := h₂.trans_after h₁
      simp only [List.length_map]
      rw [wp_ofExcept]
      refine ⟨fun next hnext => ?_, fun e he => ?_⟩
      · simp only [wp_bind, wp_zoom]
        refine wp_writeSuperblock (fun d₃ bytes himage h₃ => ?_) (fun d₃ h₃ => ?_)
          fun d₃ bytes part himage h₃ => ?_
        · have h₃' := h₃.trans h₂'
          rw [h₂.disk] at h₃'
          simp only [wp_bind, wp_modify, wp_zoom]
          refine wp_syncAll (fun d₄ h₄ _ => ?_) (fun d₄ f h₄ hf => ?_) fun d₄ h₄ hf => ?_
          · rw [h₃'.disk] at h₄
            have hdone := WriteEffect.committed hvalid happends hnext himage (h₄.trans_after h₃')
            simp only [wp_pure, List.map_map]
            exact hdone
          · rw [h₃'.disk] at h₄
            exact .unsynced hvalid happends hnext himage (h₄.trans_after h₃')
              ⟨⟨f, rfl⟩, hf.mono h₃'.faults⟩
          · rw [h₃'.disk] at h₄
            exact .unsynced hvalid happends hnext himage (h₄.trans_after h₃') (hf.mono h₃'.faults)
        · have h₃' := h₃.trans h₂'
          rw [h₂.disk] at h₃'
          exact ⟨fun f hf => .uncommitted hvalid happends h₃'
              (Or.inr ⟨next, hnext, rfl, ⟨f, rfl⟩, hf.mono h₂'.faults⟩),
            fun hf => .uncommitted hvalid happends h₃'
              (Or.inr ⟨next, hnext, rfl, hf.mono h₂'.faults⟩)⟩
        · have h₃' := h₃.trans h₂'
          rw [h₂.disk] at h₃'
          exact ⟨fun f hf => .torn hvalid happends hnext himage h₃' ⟨⟨f, rfl⟩, hf.mono h₂'.faults⟩
              (by simp),
            fun hf hpart => .torn hvalid happends hnext himage h₃' (hf.mono h₂'.faults)
              fun _ => hpart.imp (fun h => h₂'.faults h) id⟩
      · refine .uncommitted hvalid happends ?_ (Or.inl ⟨rfl, e, rfl, he⟩)
        rw [List.append_nil]
        exact h₂'
    · rw [h₁.disk] at h₂
      exact .staging hvalid happends.tailWrites happends.seals_subset (h₂.trans_after h₁) (by simp)
        (fun e he => Or.inl ⟨f, (Outcome.error.inj he).symm⟩) (by simp)
    · rw [h₁.disk] at h₂
      exact .staging hvalid happends.tailWrites happends.seals_subset (h₂.trans_after h₁) (by simp)
        (by simp) fun _ => hf.mono h₁.faults
  · exact .staging hvalid htail hes h₁ (by simp) (fun e' h => Outcome.error.inj h ▸ he) (by simp)
  · exact .staging hvalid htail hes h₁ (by simp) (by simp) fun _ => hc

/-! ## The clean flag -/

/-- The state `mark_clean` and `mark_dirty` move to. -/
def flagged (state : SuperState) (clean : Bool) : SuperState :=
  { state with generation := saturatingAdd state.generation 1, clean := clean }

/-- The volume after its flag has changed. -/
def reflagged (v : Volume) (clean : Bool) : Volume :=
  { v with state := flagged v.state clean, activeSuper := v.activeSuper.other }

/-- **What `mark_clean` and `mark_dirty` can do.** -/
inductive CleanEffect (s : Session) (clean : Bool) : Outcome VolumeError Unit → Session → Prop where
  /-- The flag has that value already. -/
  | unchanged : s.volume.state.clean = clean → CleanEffect s clean (.ok ()) s
  /-- Nothing was issued. -/
  | untouched {o : Outcome VolumeError Unit} {file : Device Sealed} : s.volume.state.clean ≠ clean →
      file.After s.file s.file.disk
        [superSeal s.volume.keys s.volume.bootstrap s.volume.activeSuper.other
          (flagged s.volume.state clean)] →
      Cut s.file o → CleanEffect s clean o ⟨s.volume, file⟩
  /-- The slot write was cut short, or the sync behind it. -/
  | torn {o : Outcome VolumeError Unit} {file : Device Sealed} {bytes : Bytes} {part : ℕ} :
      s.volume.state.clean ≠ clean →
      SlotImage s.volume.keys s.volume.bootstrap s.volume.activeSuper.other
        (flagged s.volume.state clean) bytes →
      file.After s.file
        (s.file.disk.push (.write s.volume.activeSuper.other.offset (bytes.take part)))
        [superSeal s.volume.keys s.volume.bootstrap s.volume.activeSuper.other
          (flagged s.volume.state clean)] →
      Cut s.file o → (o = .crash → .kill part ∈ s.file.faults ∨ bytes.length ≤ part) →
      CleanEffect s clean o ⟨s.volume, file⟩
  /-- The flag has changed. -/
  | changed {file : Device Sealed} {bytes : Bytes} : s.volume.state.clean ≠ clean →
      SlotImage s.volume.keys s.volume.bootstrap s.volume.activeSuper.other
        (flagged s.volume.state clean) bytes →
      file.After s.file (s.file.disk.push (.write s.volume.activeSuper.other.offset bytes)).sync
        [superSeal s.volume.keys s.volume.bootstrap s.volume.activeSuper.other
          (flagged s.volume.state clean)] →
      CleanEffect s clean (.ok ()) ⟨reflagged s.volume clean, file⟩

theorem setCleanState_effect [LawfulCrypto] (s : Session) (clean : Bool) :
    CleanEffect s clean (setCleanState clean s).1 (setCleanState clean s).2 := by
  apply wp_outcome
  unfold setCleanState
  simp only [wp_bind, wp_get]
  by_cases hclean : s.volume.state.clean = clean
  · simp only [if_pos hclean, wp_pure]
    exact .unchanged hclean
  have hpos : ¬(saturatingAdd s.volume.state.generation 1 = 0) := by
    intro hzero
    have h := toNat_saturatingAdd s.volume.state.generation 1
    rw [hzero] at h
    have hone : (1 : UInt64).toNat = 1 := rfl
    have hz : (0 : UInt64).toNat = 0 := rfl
    omega
  simp only [if_neg hclean, if_neg hpos, Session.onFile, wp_bind, wp_zoom]
  refine wp_writeSuperblock (fun d₁ bytes himage h₁ => ?_) (fun d₁ h₁ => ?_)
    fun d₁ bytes part himage h₁ => ?_
  · dsimp only
    refine wp_syncAll (fun d₂ h₂ _ => ?_) (fun d₂ f h₂ hf => ?_) fun d₂ h₂ hf => ?_
    · rw [h₁.disk] at h₂
      simp only [wp_modify]
      exact .changed hclean himage (h₂.trans_after h₁)
    · rw [h₁.disk, ← List.take_length (l := bytes)] at h₂
      exact .torn hclean himage (h₂.trans_after h₁) ⟨⟨f, rfl⟩, hf.mono h₁.faults⟩ (by simp)
    · rw [h₁.disk, ← List.take_length (l := bytes)] at h₂
      exact .torn hclean himage (h₂.trans_after h₁) (hf.mono h₁.faults) fun _ => Or.inr le_rfl
  · exact ⟨fun f hf => .untouched hclean h₁ ⟨⟨f, rfl⟩, hf⟩, fun hf => .untouched hclean h₁ hf⟩
  · exact ⟨fun f hf => .torn hclean himage h₁ ⟨⟨f, rfl⟩, hf⟩ (by simp),
      fun hf hpart => .torn hclean himage h₁ hf fun _ => hpart⟩

end OrIsyVra.Volume
