import OrIsyVra.Volume.Effects

/-!
# What the reading operations can do

The rules of `read_superblock`, `read_record_at`, `scan_log` and `open` on a file whose reads may
fail but never deliver damaged bytes.  Everything they return is then read off the file's view: a
record is a `RecordAt` of it, an index belongs to a `Scans` of it.  `OpenEffect` lists every way an
open can end; the two facts it carries are that the volume opened is one the view holds (`Opened`),
and that, when no call failed, no usable superblock of the view has a greater generation.
-/

namespace OrIsyVra.Volume

open ByteString MachineWord DurableFile FaultProgram

/-! ## Candidate order -/

theorem mem_sortCandidates {candidates : List (Slot × SuperState)} {c : Slot × SuperState} :
    c ∈ sortCandidates candidates ↔ c ∈ candidates :=
  List.mem_insertionSort _

/-- One superblock is tried before another: it has the greater generation, or the same and is in the
first slot. -/
def Precedes (left right : Slot × SuperState) : Prop :=
  right.2.generation < left.2.generation ∨
    right.2.generation = left.2.generation ∧ left.1.byte ≤ right.1.byte

theorem Precedes.generation_le {left right : Slot × SuperState} (h : Precedes left right) :
    right.2.generation ≤ left.2.generation := by
  rcases h with hlt | ⟨heq, -⟩
  · exact UInt64.le_of_lt hlt
  · rw [heq]
    exact UInt64.le_refl _

theorem Precedes.refl (c : Slot × SuperState) : Precedes c c := Or.inr ⟨rfl, UInt8.le_refl _⟩

/-- Two superblocks that are each tried before the other are in the same slot. -/
theorem Precedes.slot_eq {left right : Slot × SuperState} (h : Precedes left right)
    (h' : Precedes right left) : left.1 = right.1 := by
  have hle := UInt64.le_iff_toNat_le.mp h.generation_le
  have hle' := UInt64.le_iff_toNat_le.mp h'.generation_le
  have hbyte : ∀ {s t : Slot}, s.byte ≤ t.byte → t.byte ≤ s.byte → s = t := by
    intro s t
    cases s <;> cases t <;> decide
  rcases h with hlt | ⟨-, hslot⟩
  · have := UInt64.lt_iff_toNat_lt.mp hlt
    omega
  · rcases h' with hlt | ⟨-, hslot'⟩
    · have := UInt64.lt_iff_toNat_lt.mp hlt
      omega
    · exact hbyte hslot hslot'

/-- Inserting a superblock that comes from no later slot keeps the order. -/
theorem pairwise_orderedInsert {c : Slot × SuperState} {l : List (Slot × SuperState)}
    (h : l.Pairwise Precedes) (hslot : ∀ c' ∈ l, c.1.byte ≤ c'.1.byte) :
    (l.orderedInsert (fun left right => right.2.generation ≤ left.2.generation) c).Pairwise
      Precedes := by
  induction l with
  | nil => exact List.pairwise_singleton _ _
  | cons head tail ih =>
    obtain ⟨hhead, htail⟩ := List.pairwise_cons.mp h
    rw [List.orderedInsert_cons]
    by_cases hle : head.2.generation ≤ c.2.generation
    · rw [if_pos hle]
      refine List.pairwise_cons.mpr ⟨fun c' hc' => ?_, h⟩
      have hrest : c'.2.generation ≤ head.2.generation := by
        rcases List.mem_cons.mp hc' with rfl | hm
        · exact UInt64.le_refl _
        · exact (hhead c' hm).generation_le
      rcases UInt64.lt_or_eq_of_le (UInt64.le_trans hrest hle) with hlt | heq
      · exact Or.inl hlt
      · exact Or.inr ⟨heq, hslot c' hc'⟩
    · rw [if_neg hle]
      refine List.pairwise_cons.mpr ⟨fun c' hc' => ?_,
        ih htail fun c' hc' => hslot c' (List.mem_cons_of_mem _ hc')⟩
      rcases (List.mem_orderedInsert _).mp hc' with rfl | hm
      · exact Or.inl (UInt64.not_le.mp hle)
      · exact hhead c' hm

/-- **The candidates are tried from the greatest generation down**, and in the order of their slots
where generations are equal. -/
theorem sorted_sortCandidates {candidates : List (Slot × SuperState)}
    (h : candidates.Pairwise fun left right => left.1.byte ≤ right.1.byte) :
    (sortCandidates candidates).Pairwise Precedes := by
  unfold sortCandidates
  induction candidates with
  | nil => exact List.Pairwise.nil
  | cons c rest ih =>
    obtain ⟨hslot, hrest⟩ := List.pairwise_cons.mp h
    refine pairwise_orderedInsert (ih hrest) fun c' hc' => hslot c' ?_
    exact (List.mem_insertionSort _).mp hc'

variable [Crypto] {d : Device Sealed} {keys : VolumeKeys} {b : Bootstrap}

/-! ## Superblocks and records -/

/-- The slot of the image holds an authenticated superblock. -/
structure SlotHolds (keys : VolumeKeys) (b : Bootstrap) (img : Bytes) (slot : Slot)
    (state : SuperState) : Prop where
  fits : slot.offset + superSlotSize ≤ img.length
  decode : decodeSuperblock keys b slot (slice img slot.offset superSlotSize) = .ok (some state)

theorem SlotHolds.unique {img : Bytes} {slot : Slot} {state state' : SuperState}
    (h : SlotHolds keys b img slot state) (h' : SlotHolds keys b img slot state') :
    state = state' := by
  have hsame := h.decode.symm.trans h'.decode
  simpa using hsame

theorem wp_readSuperblock {slot : Slot}
    {Q : Post (Device Sealed) VolumeError (Option SuperState)} (hd : ¬d.MayDamage)
    (hok : ∀ d' o, d'.Follows d d.disk →
      (∀ state, o = some state ↔ SlotHolds keys b d.disk.view slot state) → Q.ok o d')
    (herror : ∀ d' e, d'.Follows d d.disk →
      d.MayFail ∨ (∀ state, ¬SlotHolds keys b d.disk.view slot state) → Q.error e d')
    (hcrash : ∀ d', d'.Follows d d.disk → d.MayCrash → Q.crash d') :
    wp (readSuperblock keys b slot) Q d := by
  have hbound : slot.offset < maxOffset := by cases slot <;> decide
  unfold readSuperblock
  rw [wp_bind]
  refine wp_seek (fun d₁ h₁ hcur _ => ?_) (fun d₁ f h₁ hf => ?_) hcrash
  · simp only [wp_bind]
    refine wp_readExact (fun d₂ bytes h₂ _ hfits _ hbytes => ?_) (fun d₂ f h₂ hf => ?_)
      fun d₂ h₂ hf => ?_
    · rw [h₁.disk] at h₂ hbytes hfits
      rw [hcur] at hbytes hfits
      have hread := hbytes.resolve_right fun hdam => hd (hdam.mono h₁.faults)
      dsimp only
      rw [hread, wp_ofExcept]
      refine ⟨fun o ho => hok d₂ o (h₂.trans h₁) fun state => ?_, fun e he => ?_⟩
      · constructor
        · rintro rfl
          exact ⟨hfits, ho⟩
        · intro hholds
          have hsame := ho.symm.trans hholds.decode
          simpa using hsame
      · refine herror d₂ e (h₂.trans h₁) (Or.inr fun state hholds => ?_)
        rw [hholds.decode] at he
        exact absurd he (by simp)
    · rw [h₁.disk] at h₂ hf
      rw [hcur] at hf
      refine herror d₂ _ (h₂.trans h₁) (hf.imp (fun h => h.mono h₁.faults) fun hshort => ?_)
      intro state hholds
      exact absurd hholds.fits (not_le.mpr hshort)
    · rw [h₁.disk] at h₂
      exact hcrash d₂ (h₂.trans h₁) (hf.mono h₁.faults)
  · refine herror d₁ _ h₁ (hf.imp id fun hlarge => ?_)
    have hoffset := hlarge.1
    omega

theorem wp_readRecordAt {offset : UInt64}
    {Q : Post (Device Sealed) VolumeError (RecordHeader × Bytes)} (hd : ¬d.MayDamage)
    (hok : ∀ d' header payload, d'.Follows d d.disk → offset.toNat < maxOffset →
      RecordAt keys b d.disk.view offset.toNat header payload → Q.ok (header, payload) d')
    (herror : ∀ d' e, d'.Follows d d.disk → d.MayFail ∨
      maxOffset ≤ offset.toNat ∧ e = .io .offsetTooLarge ∨
      (∀ header payload, ¬RecordAt keys b d.disk.view offset.toNat header payload) →
      Q.error e d')
    (hcrash : ∀ d', d'.Follows d d.disk → d.MayCrash → Q.crash d') :
    wp (readRecordAt keys b offset) Q d := by
  unfold readRecordAt
  rw [wp_bind]
  refine wp_seek (fun d₁ h₁ hcur₁ hlimit => ?_) (fun d₁ f h₁ hf => herror d₁ _ h₁ ?_) hcrash
  swap
  · exact hf.imp id fun ⟨hlarge, he⟩ => Or.inl ⟨hlarge, congrArg VolumeError.io he⟩
  simp only [wp_bind]
  have hheader : ∀ {header payload}, RecordAt keys b d.disk.view offset.toNat header payload →
      offset.toNat + recordHeaderSize ≤ d.disk.view.length := by
    intro header payload hrec
    have hfits := hrec.fits
    rw [RecordHeader.recordLen] at hfits
    omega
  refine wp_readExact (fun d₂ headerBytes h₂ hcur₂ hfits₂ _ hbytes => ?_) (fun d₂ f h₂ hf => ?_)
    fun d₂ h₂ hf => ?_
  · rw [h₁.disk] at h₂ hbytes hfits₂
    rw [hcur₁] at hbytes hfits₂ hcur₂
    have h₂' := h₂.trans h₁
    have hread := hbytes.resolve_right fun hdam => hd (hdam.mono h₁.faults)
    simp only [wp_bind]
    rw [wp_ofExcept]
    refine ⟨fun header hdecode => ?_, fun e he => herror d₂ e h₂' (Or.inr (Or.inr ?_))⟩
    · simp only [wp_bind]
      rw [wp_ofExcept]
      refine ⟨fun _ hcheck => ?_, fun e he => herror d₂ e h₂' (Or.inr (Or.inr ?_))⟩
      · simp only [wp_bind]
        refine wp_readExact (fun d₃ ciphertext h₃ _ hfits₃ _ hbody => ?_) (fun d₃ f h₃ hf => ?_)
          fun d₃ h₃ hf => ?_
        · rw [h₂.disk] at h₃ hbody hfits₃
          rw [hcur₂] at hbody hfits₃
          have h₃' := h₃.trans h₂'
          have hread₃ := hbody.resolve_right fun hdam => hd (hdam.mono h₂'.faults)
          have hparse : parseRecord keys b d.disk.view offset.toNat =
              openRecord keys b header headerBytes ciphertext := by
            have hlen : offset.toNat + header.recordLen ≤ d.disk.view.length := by
              rw [RecordHeader.recordLen, ← Nat.add_assoc]
              exact hfits₃
            unfold parseRecord
            rw [if_pos hfits₂, ← hread, hdecode]
            simp only [bind, Except.bind, hcheck, if_pos hlen]
            rw [hread₃]
          dsimp only
          rw [wp_ofExcept]
          refine ⟨fun result hopen => ?_, fun e he => herror d₃ e h₃' (Or.inr (Or.inr ?_))⟩
          · have hrec := hparse.trans hopen
            exact hok d₃ result.1 result.2 h₃' hlimit (parseRecord_eq_ok.mp hrec)
          · intro header' payload hrec
            have hsame := (parseRecord_eq_ok.mpr hrec).symm.trans (hparse.trans he)
            exact absurd hsame (by simp)
        · rw [h₂.disk] at h₃ hf
          rw [hcur₂] at hf
          refine herror d₃ _ (h₃.trans h₂') ?_
          refine hf.imp (fun h => h.mono h₂'.faults) fun hshort => Or.inr ?_
          intro header' payload hrec
          have hsame := hrec.decode.symm.trans (hread ▸ hdecode)
          obtain rfl : header' = header := by simpa using hsame
          have hfits := hrec.fits
          rw [RecordHeader.recordLen] at hfits
          omega
        · rw [h₂.disk] at h₃
          exact hcrash d₃ (h₃.trans h₂') (hf.mono h₂'.faults)
      · intro header' payload hrec
        have hsame := hrec.decode.symm.trans (hread ▸ hdecode)
        obtain rfl : header' = header := by simpa using hsame
        rw [hrec.check] at he
        exact absurd he (by simp)
    · intro header payload hrec
      rw [hread, hrec.decode] at he
      exact absurd he (by simp)
  · rw [h₁.disk] at h₂ hf
    rw [hcur₁] at hf
    refine herror d₂ _ (h₂.trans h₁) (hf.imp (fun h => h.mono h₁.faults) fun hshort => Or.inr ?_)
    intro header payload hrec
    have := hheader hrec
    omega
  · rw [h₁.disk] at h₂
    exact hcrash d₂ (h₂.trans h₁) (hf.mono h₁.faults)

/-! ## The log scan -/

/-- The log of the image that a superblock state describes. -/
def LogHolds (keys : VolumeKeys) (b : Bootstrap) (img : Bytes) (state : SuperState)
    (es : List Entry) (index : Index) : Prop :=
  Scans keys b img .start es ⟨index, state.committedEnd, state.recordCount⟩

/-- The loop follows the records of the view; it stops early only where they do not reach the
committed end. -/
theorem wp_scanLoop {committedEnd : UInt64} {fuel : ℕ} {s : ScanState}
    {Q : Post (Device Sealed) VolumeError ScanState} (hd : ¬d.MayDamage)
    (hfuel : committedEnd.toNat - s.offset.toNat ≤ fuel)
    (hok : ∀ d' es s', d'.Follows d d.disk → Scans keys b d.disk.view s es s' →
      committedEnd.toNat ≤ s'.offset.toNat →
      (s.offset.toNat ≤ committedEnd.toNat → s'.offset.toNat ≤ committedEnd.toNat) → Q.ok s' d')
    (herror : ∀ d' e, d'.Follows d d.disk → d.MayFail ∨ maxOffset ≤ committedEnd.toNat ∨
      (∀ es s', Scans keys b d.disk.view s es s' → s'.offset ≠ committedEnd) → Q.error e d')
    (hcrash : ∀ d', d'.Follows d d.disk → d.MayCrash → Q.crash d') :
    wp (scanLoop keys b committedEnd fuel s) Q d := by
  induction fuel generalizing s Q d with
  | zero =>
    unfold scanLoop
    rw [wp_pure]
    exact hok d [] s (Device.Follows.refl d) (.done s) (by omega) id
  | succ fuel ih =>
    unfold scanLoop
    by_cases hlt : s.offset < committedEnd
    swap
    · rw [if_neg hlt, wp_pure]
      have hle := UInt64.le_iff_toNat_le.mp (UInt64.not_lt.mp hlt)
      exact hok d [] s (Device.Follows.refl d) (.done s) hle id
    have hlt' := UInt64.lt_iff_toNat_lt.mp hlt
    -- a scan that starts here and reaches the end has a first record
    have hfirst : ∀ {img es s'}, Scans keys b img s es s' → s'.offset = committedEnd →
        ∃ header payload s₁ es', RecordAt keys b img s.offset.toNat header payload ∧
          Advances s header s₁ ∧ Scans keys b img s₁ es' s' := by
      intro img es s' hscan hend
      cases hscan with
      | done _ =>
        rw [hend] at hlt'
        omega
      | record hrec hadv hrest => exact ⟨_, _, _, _, hrec, hadv, hrest⟩
    rw [if_pos hlt, wp_bind]
    refine wp_readRecordAt hd (fun d₁ header payload h₁ _ hrec => ?_) (fun d₁ e h₁ he => ?_) hcrash
    · simp only [wp_bind]
      rw [wp_ofExcept]
      refine ⟨fun s₁ hstep => ?_, fun e he => ?_⟩
      · obtain ⟨hadv, hle⟩ := scanStep_eq_ok.mp hstep
        have hoff := hadv.offset_lt
        refine ih (fun hdam => hd (hdam.mono h₁.faults)) (by omega)
          (fun d₂ es s' h₂ hscan hge hin => ?_) (fun d₂ e h₂ he => ?_) fun d₂ h₂ hf => ?_
        · rw [h₁.disk] at h₂ hscan
          exact hok d₂ _ s' (h₂.trans h₁) (.record hrec hadv hscan) hge fun _ => hin hle
        · rw [h₁.disk] at h₂ he
          refine herror d₂ e (h₂.trans h₁)
            (he.imp (fun h => h.mono h₁.faults) fun h => h.imp id fun hnone => ?_)
          intro es s' hscan hend
          obtain ⟨header', payload', s₁', es', hrec', hadv', hrest⟩ := hfirst hscan hend
          have hsame := (parseRecord_eq_ok.mpr hrec').symm.trans (parseRecord_eq_ok.mpr hrec)
          obtain ⟨rfl, rfl⟩ : header' = header ∧ payload' = payload := by simpa using hsame
          obtain rfl := hadv'.unique hadv
          exact hnone es' s' hrest hend
        · rw [h₁.disk] at h₂
          exact hcrash d₂ (h₂.trans h₁) (hf.mono h₁.faults)
      · refine herror d₁ e h₁ (Or.inr (Or.inr ?_))
        intro es s' hscan hend
        obtain ⟨header', payload', s₁', es', hrec', hadv', hrest⟩ := hfirst hscan hend
        have hsame := (parseRecord_eq_ok.mpr hrec').symm.trans (parseRecord_eq_ok.mpr hrec)
        obtain ⟨rfl, rfl⟩ : header' = header ∧ payload' = payload := by simpa using hsame
        have hle := hrest.offset_le
        rw [hend] at hle
        rw [scanStep_eq_ok.mpr ⟨hadv', hle⟩] at he
        exact absurd he (by simp)
    · refine herror d₁ e h₁ (he.imp id fun he => he.imp (fun hlarge => ?_) fun hnone => ?_)
      · have hoffset := hlarge.1
        omega
      · intro es s' hscan hend
        obtain ⟨header', payload', -, -, hrec', -, -⟩ := hfirst hscan hend
        exact hnone header' payload' hrec'

/-- **`scan_log` returns the index of the log it describes**, and fails only where there is none. -/
theorem wp_scanLog {state : SuperState} {Q : Post (Device Sealed) VolumeError Index}
    (hd : ¬d.MayDamage)
    (hok : ∀ d' es index, d'.Follows d d.disk → LogHolds keys b d.disk.view state es index →
      Q.ok index d')
    (herror : ∀ d' e, d'.Follows d d.disk → d.MayFail ∨ maxOffset ≤ state.committedEnd.toNat ∨
      (∀ es index, ¬LogHolds keys b d.disk.view state es index) → Q.error e d')
    (hcrash : ∀ d', d'.Follows d d.disk → d.MayCrash → Q.crash d') :
    wp (scanLog keys b state) Q d := by
  unfold scanLog
  rw [wp_bind]
  generalize hfuel : state.committedEnd.toNat - logStart.toNat = fuel
  have henough : state.committedEnd.toNat - ScanState.start.offset.toNat ≤ fuel := by
    rw [← hfuel, ScanState.start]
  refine wp_scanLoop hd henough (fun d₁ es s h₁ hscan hge hin => ?_) (fun d₁ e h₁ he => ?_) hcrash
  · dsimp only
    by_cases hmatch : s.offset ≠ state.committedEnd ∨ s.count ≠ state.recordCount
    · rw [if_pos hmatch, wp_fail]
      refine herror d₁ _ h₁ (Or.inr (Or.inr fun es' index hlog => ?_))
      have hstart := hlog.offset_le
      have hend : s.offset = state.committedEnd :=
        UInt64.toNat_inj.mp (le_antisymm (hin hstart) hge)
      obtain ⟨-, rfl⟩ := hscan.unique hlog hend
      rcases hmatch with h | h <;> exact h rfl
    · rw [if_neg hmatch, wp_pure]
      rw [not_or, not_not, not_not] at hmatch
      refine hok d₁ es s.index h₁ ?_
      rw [LogHolds, ← hmatch.1, ← hmatch.2]
      exact hscan
  · refine herror d₁ e h₁ (he.imp id fun he => he.imp id fun hnone => ?_)
    intro es index hlog
    exact hnone es _ hlog rfl

/-! ## Candidates -/

/-- What is known of the candidates read from some slots: they are the superblocks these slots hold,
in the order of the slots, and none is missing unless a call failed. -/
structure Candidates (d : Device Sealed) (keys : VolumeKeys) (b : Bootstrap) (slots : List Slot)
    (candidates : List (Slot × SuperState)) : Prop where
  holds : ∀ c ∈ candidates, SlotHolds keys b d.disk.view c.1 c.2
  order : (candidates.map Prod.fst).Sublist slots
  all : d.MayFail ∨ ∀ slot ∈ slots, ∀ state, SlotHolds keys b d.disk.view slot state →
    (slot, state) ∈ candidates

theorem Candidates.append {slots slots' : List Slot}
    {candidates candidates' : List (Slot × SuperState)}
    (h : Candidates d keys b slots candidates) (h' : Candidates d keys b slots' candidates') :
    Candidates d keys b (slots ++ slots') (candidates ++ candidates') := by
  refine ⟨fun c hc => ?_, ?_, ?_⟩
  · rcases List.mem_append.mp hc with hm | hm
    · exact h.holds c hm
    · exact h'.holds c hm
  · rw [List.map_append]
    exact h.order.append h'.order
  · rcases h.all with hfail | hall
    · exact Or.inl hfail
    rcases h'.all with hfail | hall'
    · exact Or.inl hfail
    refine Or.inr fun slot hslot state hholds => ?_
    rcases List.mem_append.mp hslot with hm | hm
    · exact List.mem_append_left _ (hall slot hm state hholds)
    · exact List.mem_append_right _ (hall' slot hm state hholds)

theorem Candidates.of_follows {d' : Device Sealed} {slots : List Slot}
    {candidates : List (Slot × SuperState)} (h : d'.Follows d d.disk)
    (hc : Candidates d' keys b slots candidates) : Candidates d keys b slots candidates := by
  obtain ⟨hholds, horder, hall⟩ := hc
  rw [h.disk] at hholds hall
  exact ⟨hholds, horder, hall.imp (fun hf => hf.mono h.faults) id⟩

theorem wp_readCandidate {slot : Slot}
    {Q : Post (Device Sealed) VolumeError (List (Slot × SuperState))} (hd : ¬d.MayDamage)
    (hok : ∀ d' candidates, d'.Follows d d.disk → Candidates d keys b [slot] candidates →
      Q.ok candidates d')
    (hcrash : ∀ d', d'.Follows d d.disk → d.MayCrash → Q.crash d') :
    wp (readCandidate keys b slot) Q d := by
  have hnone : ∀ d', d'.Follows d d.disk →
      d.MayFail ∨ (∀ state, ¬SlotHolds keys b d.disk.view slot state) → Q.ok [] d' := by
    intro d' h' hreason
    refine hok d' [] h' ⟨fun c hc => absurd hc List.not_mem_nil, List.nil_sublist _,
      hreason.imp id ?_⟩
    intro hno slot' hslot state hholds
    rw [List.mem_singleton.mp hslot] at hholds
    exact absurd hholds (hno state)
  unfold readCandidate
  rw [wp_bind, wp_attempt]
  refine wp_readSuperblock hd (fun d₁ o h₁ ho => ?_) (fun d₁ e h₁ he => ?_) hcrash
  · cases o with
    | none =>
      simp only [wp_pure]
      refine hnone d₁ h₁ (Or.inr fun state hholds => ?_)
      exact absurd ((ho state).mpr hholds) (by simp)
    | some state =>
      have hstate := (ho state).mp rfl
      simp only [wp_pure]
      refine hok d₁ _ h₁ ⟨fun c hc => ?_, List.Sublist.refl _,
        Or.inr fun slot' hslot state' hholds => ?_⟩
      · rw [List.mem_singleton.mp hc]
        exact hstate
      · obtain rfl := List.mem_singleton.mp hslot
        rw [hstate.unique hholds]
        exact List.mem_cons_self
  · simp only [wp_pure]
    exact hnone d₁ h₁ he

/-- Why an open passes over a superblock. -/
def Skips (d : Device Sealed) (keys : VolumeKeys) (b : Bootstrap) (state : SuperState) : Prop :=
  d.disk.view.length < state.committedEnd.toNat ∨ d.MayFail ∨
    maxOffset ≤ state.committedEnd.toNat ∨
      ∀ es index, ¬LogHolds keys b d.disk.view state es index

/-- A candidate an open may select: those before it were passed over, and its log scans. -/
def Selects (d : Device Sealed) (keys : VolumeKeys) (b : Bootstrap)
    (candidates : List (Slot × SuperState)) (slot : Slot) (state : SuperState) (es : List Entry)
    (index : Index) : Prop :=
  ∃ before after, candidates = before ++ (slot, state) :: after ∧
    (∀ c ∈ before, Skips d keys b c.2) ∧ state.committedEnd.toNat ≤ d.disk.view.length ∧
    LogHolds keys b d.disk.view state es index

/-- What happened while the file was only read says the same about it before. -/
theorem Skips.of_follows {d' : Device Sealed} {state : SuperState} (h : d'.Follows d d.disk)
    (hskips : Skips d' keys b state) : Skips d keys b state := by
  unfold Skips at hskips
  rw [h.disk] at hskips
  exact hskips.imp id fun hs => hs.imp (fun hf => hf.mono h.faults) id

theorem Selects.of_follows {d' : Device Sealed} {candidates : List (Slot × SuperState)}
    {slot : Slot} {state : SuperState} {es : List Entry} {index : Index} (h : d'.Follows d d.disk)
    (hselects : Selects d' keys b candidates slot state es index) :
    Selects d keys b candidates slot state es index := by
  obtain ⟨before, after, hsplit, hbefore, hend, hlog⟩ := hselects
  rw [h.disk] at hend hlog
  exact ⟨before, after, hsplit, fun c hc => (hbefore c hc).of_follows h, hend, hlog⟩

/-- The selected candidate is opened, and the bytes behind its end go. -/
theorem wp_selectCandidate {candidates : List (Slot × SuperState)}
    {Q : Post (Device Sealed) VolumeError Volume} (hd : ¬d.MayDamage)
    (hok : ∀ d' slot state es index, Selects d keys b candidates slot state es index →
      d'.Follows d d.disk ∧ d.disk.view.length ≤ state.committedEnd.toNat ∨
        d'.Follows d (d.disk.push (.setLen state.committedEnd.toNat)).sync ∧
          state.committedEnd.toNat < d.disk.view.length →
      Q.ok ⟨b, keys, state, slot, index⟩ d')
    (hcut : ∀ d' slot state es index, Selects d keys b candidates slot state es index →
      d'.Follows d d.disk ∨ d'.Follows d (d.disk.push (.setLen state.committedEnd.toNat)) →
      (∀ f, d.MayFail ∨ maxOffset ≤ state.committedEnd.toNat → Q.error (.io f) d') ∧
        (d.MayCrash → Q.crash d'))
    (hnone : ∀ d' e, d'.Follows d d.disk → (∀ c ∈ candidates, Skips d keys b c.2) → Q.error e d')
    (hcrash : ∀ d', d'.Follows d d.disk → d.MayCrash → Q.crash d') :
    wp (selectCandidate keys b d.disk.view.length candidates) Q d := by
  -- the file is read on and on, so the device moves while its disk stays
  suffices hgen : ∀ d₀ : Device Sealed, d₀.Follows d d.disk → ∀ before rest,
      candidates = before ++ rest → (∀ c ∈ before, Skips d keys b c.2) →
      wp (selectCandidate keys b d.disk.view.length rest) Q d₀ from
    hgen d (Device.Follows.refl d) [] candidates rfl fun c hc => absurd hc List.not_mem_nil
  intro d₀ h₀ before rest hsplit hbefore
  induction rest generalizing d₀ before with
  | nil =>
    unfold selectCandidate
    rw [wp_fail]
    refine hnone d₀ _ h₀ fun c hc => hbefore c ?_
    rwa [hsplit, List.append_nil] at hc
  | cons candidate rest ih =>
    rcases candidate with ⟨slot, state⟩
    have hskip : Skips d keys b state → ∀ c ∈ before ++ [(slot, state)], Skips d keys b c.2 := by
      intro hs c hc
      rcases List.mem_append.mp hc with hm | hm
      · exact hbefore c hm
      · rw [List.mem_singleton.mp hm]
        exact hs
    have hsplit' : candidates = (before ++ [(slot, state)]) ++ rest := by
      rw [hsplit, List.append_assoc]
      rfl
    unfold selectCandidate
    by_cases hend : state.committedEnd.toNat > d.disk.view.length
    · rw [if_pos hend]
      exact ih d₀ h₀ _ hsplit' (hskip (Or.inl hend))
    rw [if_neg hend, wp_bind, wp_attempt]
    have hd₀ : ¬d₀.MayDamage := fun hdam => hd (hdam.mono h₀.faults)
    refine wp_scanLog hd₀ (fun d₁ es index h₁ hlog => ?_) (fun d₁ e h₁ he => ?_) fun d₁ h₁ hf => ?_
    · rw [h₀.disk] at h₁ hlog
      have h₁' := h₁.trans h₀
      have hselects : Selects d keys b candidates slot state es index :=
        ⟨before, rest, hsplit, hbefore, not_lt.mp hend, hlog⟩
      dsimp only
      by_cases hlong : d.disk.view.length > state.committedEnd.toNat
      · rw [if_pos hlong, wp_bind]
        refine wp_setLen (fun d₂ h₂ _ _ => ?_) (fun d₂ f h₂ hf => ?_) fun d₂ h₂ hf => ?_
        · rw [h₁.disk] at h₂
          have h₂' := h₂.trans h₁'
          simp only [wp_bind]
          refine wp_syncAll (fun d₃ h₃ _ => ?_) (fun d₃ f h₃ hf => ?_) fun d₃ h₃ hf => ?_
          · rw [h₂.disk] at h₃
            simp only [wp_pure]
            exact hok d₃ slot state es index hselects (Or.inr ⟨h₃.trans h₂', hlong⟩)
          · rw [h₂.disk] at h₃
            exact (hcut d₃ slot state es index hselects (Or.inr (h₃.trans h₂'))).1 f
              (Or.inl (hf.mono h₂'.faults))
          · rw [h₂.disk] at h₃
            exact (hcut d₃ slot state es index hselects (Or.inr (h₃.trans h₂'))).2
              (hf.mono h₂'.faults)
        · rw [h₁.disk] at h₂
          exact (hcut d₂ slot state es index hselects
            (h₂.imp (fun h => h.trans h₁') fun h => h.trans h₁')).1 f
            (hf.imp (fun h => h.mono h₁'.faults) id)
        · rw [h₁.disk] at h₂
          exact (hcut d₂ slot state es index hselects
            (h₂.imp (fun h => h.trans h₁') fun h => h.trans h₁')).2 (hf.mono h₁'.faults)
      · rw [if_neg hlong, wp_pure]
        exact hok d₁ slot state es index hselects (Or.inl ⟨h₁', not_lt.mp hlong⟩)
    · rw [h₀.disk] at h₁ he
      exact ih d₁ (h₁.trans h₀) _ hsplit'
        (hskip (Or.inr (he.imp (fun h => h.mono h₀.faults) id)))
    · rw [h₀.disk] at h₁
      exact hcrash d₁ (h₁.trans h₀) (hf.mono h₀.faults)

/-! ## Opening -/

/-- The volume is one the image holds, with the log `es`. -/
structure Opened (master : Bytes) (img : Bytes) (v : Volume) (es : List Entry) : Prop where
  bootstrapFits : bootstrapSize ≤ img.length
  bootstrap : Bootstrap.decode (slice img 0 bootstrapSize) = .ok v.bootstrap
  keys : deriveKeys master v.bootstrap = .ok v.keys
  slot : SlotHolds v.keys v.bootstrap img v.activeSuper v.state
  fits : v.state.committedEnd.toNat ≤ img.length
  log : LogHolds v.keys v.bootstrap img v.state es v.index

/-- No volume the image holds is to be tried before this one. -/
def Foremost (master : Bytes) (img : Bytes) (v : Volume) : Prop :=
  ∀ v' es', Opened master img v' es' → v'.state.committedEnd.toNat < maxOffset →
    Precedes (v.activeSuper, v.state) (v'.activeSuper, v'.state)

/-- No volume the file holds is newer, as far as the calls did not fail. -/
def Newest (master : Bytes) (d : Device Sealed) (v : Volume) : Prop :=
  d.MayFail ∨ Foremost master d.disk.view v

/-- **What `open` can do.** -/
inductive OpenEffect (master : Bytes) (d : Device Sealed) :
    Outcome VolumeError Volume → Device Sealed → Prop where
  /-- No volume was selected. -/
  | failed {o : Outcome VolumeError Volume} {file : Device Sealed} : (∀ v, o ≠ .ok v) →
      file.Follows d d.disk → (o = .crash → d.MayCrash) →
      (∀ e, o = .error e → d.MayFail ∨ d.present = false ∨
        ∀ v es, Opened master d.disk.view v es → maxOffset ≤ v.state.committedEnd.toNat) →
      OpenEffect master d o file
  /-- It stopped while cutting off the bytes behind the committed end. -/
  | cut {o : Outcome VolumeError Volume} {file : Device Sealed} {v : Volume} {es : List Entry} :
      (∀ v', o ≠ .ok v') → Opened master d.disk.view v es → Newest master d v →
      file.Follows d d.disk ∨ file.Follows d (d.disk.push (.setLen v.state.committedEnd.toNat)) →
      (o = .crash → d.MayCrash) →
      (∀ e, o = .error e → d.MayFail ∨ maxOffset ≤ v.state.committedEnd.toNat) →
      OpenEffect master d o file
  /-- The volume is open. -/
  | opened {file : Device Sealed} {v : Volume} {es : List Entry} :
      Opened master d.disk.view v es → Newest master d v →
      file.Follows d d.disk ∧ d.disk.view.length ≤ v.state.committedEnd.toNat ∨
        file.Follows d (d.disk.push (.setLen v.state.committedEnd.toNat)).sync ∧
          v.state.committedEnd.toNat < d.disk.view.length →
      OpenEffect master d (.ok v) file

/-- A selected candidate is a volume of the view. -/
theorem Selects.opened {master bytes : Bytes} {candidates : List (Slot × SuperState)} {slot : Slot}
    {state : SuperState} {es : List Entry} {index : Index}
    (h : Selects d keys b candidates slot state es index)
    (hcandidates : ∀ c ∈ candidates, SlotHolds keys b d.disk.view c.1 c.2)
    (hfits : bootstrapSize ≤ d.disk.view.length)
    (hbytes : bytes = slice d.disk.view 0 bootstrapSize)
    (hb : Bootstrap.decode bytes = .ok b) (hkeys : deriveKeys master b = .ok keys) :
    Opened master d.disk.view ⟨b, keys, state, slot, index⟩ es := by
  obtain ⟨before, after, rfl, -, hend, hlog⟩ := h
  have hslot := hcandidates (slot, state) (List.mem_append_right _ List.mem_cons_self)
  exact ⟨hfits, hbytes ▸ hb, hkeys, hslot, hend, hlog⟩

/-- A volume of the view is one of the candidates, and it is not passed over without a failure. -/
theorem Opened.mem_candidates {master bytes : Bytes} {candidates : List (Slot × SuperState)}
    {v : Volume} {es : List Entry} (h : Opened master d.disk.view v es)
    (hcandidates : ∀ slot state, SlotHolds keys b d.disk.view slot state →
      (slot, state) ∈ candidates) (hbytes : bytes = slice d.disk.view 0 bootstrapSize)
    (hb : Bootstrap.decode bytes = .ok b) (hkeys : deriveKeys master b = .ok keys) :
    (v.activeSuper, v.state) ∈ candidates ∧
      (Skips d keys b v.state → d.MayFail ∨ maxOffset ≤ v.state.committedEnd.toNat) := by
  have hsameb := h.bootstrap.symm.trans (hbytes ▸ hb)
  obtain rfl : v.bootstrap = b := by simpa using hsameb
  have hsamek := h.keys.symm.trans hkeys
  obtain rfl : v.keys = keys := by simpa using hsamek
  refine ⟨hcandidates _ _ h.slot, ?_⟩
  rintro (hlong | hfail | hlarge | hnone)
  · exact absurd h.fits (not_le.mpr hlong)
  · exact Or.inl hfail
  · exact Or.inr hlarge
  · exact absurd h.log (hnone es v.index)

/-- The selected candidate is the newest usable one. -/
theorem Selects.newest {master bytes : Bytes} {candidates : List (Slot × SuperState)} {slot : Slot}
    {state : SuperState} {es : List Entry} {index : Index}
    (h : Selects d keys b (sortCandidates candidates) slot state es index)
    (horder : (candidates.map Prod.fst).Sublist [.a, .b])
    (hcandidates : d.MayFail ∨
      ∀ slot state, SlotHolds keys b d.disk.view slot state → (slot, state) ∈ candidates)
    (hbytes : bytes = slice d.disk.view 0 bootstrapSize)
    (hb : Bootstrap.decode bytes = .ok b) (hkeys : deriveKeys master b = .ok keys) :
    Newest master d ⟨b, keys, state, slot, index⟩ := by
  by_cases hfail : d.MayFail
  · exact Or.inl hfail
  refine Or.inr fun v es' hopened hlimit => ?_
  obtain ⟨hmem, hskips⟩ :=
    hopened.mem_candidates (hcandidates.resolve_left hfail) hbytes hb hkeys
  obtain ⟨before, after, hsplit, hbefore, -, -⟩ := h
  have hslots : (candidates.map Prod.fst).Pairwise fun left right => left.byte ≤ right.byte :=
    List.Pairwise.sublist horder (by decide)
  rw [List.pairwise_map] at hslots
  have hsorted := sorted_sortCandidates hslots
  rw [← mem_sortCandidates, hsplit] at hmem
  rw [hsplit] at hsorted
  rcases List.mem_append.mp hmem with hm | hm
  · -- it stands before the selected one, so it was passed over
    rcases hskips (hbefore _ hm) with h | h
    · exact absurd h hfail
    · omega
  · rcases List.mem_cons.mp hm with heq | hm
    · rw [heq]
      exact .refl _
    · exact (List.pairwise_cons.mp (List.pairwise_append.mp hsorted).2.1).1 _ hm

theorem openVolume_effect (master : Bytes) (d : Device Sealed) (hd : ¬d.MayDamage) :
    OpenEffect master d (openVolume master d).1 (openVolume master d).2 := by
  apply wp_outcome
  have hfailed : ∀ (file : Device Sealed) (e : VolumeError), file.Follows d d.disk →
      (d.MayFail ∨ d.present = false ∨
        ∀ v es, Opened master d.disk.view v es → maxOffset ≤ v.state.committedEnd.toNat) →
      OpenEffect master d (.error e) file := fun file e h hreason =>
    .failed (by simp) h (by simp) fun _ _ => hreason
  have hcrashed : ∀ file : Device Sealed, file.Follows d d.disk → d.MayCrash →
      OpenEffect master d .crash file := fun file h hf =>
    .failed (by simp) h (fun _ => hf) (by simp)
  unfold openVolume
  rw [wp_bind]
  refine wp_openFile_existing (fun d₁ h₁ _ hcur => ?_) (fun d₁ f h₁ hf => ?_) hcrashed
  swap
  · exact hfailed d₁ _ h₁ (hf.imp id Or.inl)
  simp only [wp_bind]
  refine wp_readExact (fun d₂ bytes h₂ _ hfits _ hbytes => ?_) (fun d₂ f h₂ hf => ?_)
    fun d₂ h₂ hf => ?_
  rotate_left
  · rw [h₁.disk] at h₂ hf
    rw [hcur, Nat.zero_add] at hf
    refine hfailed d₂ _ (h₂.trans h₁) (hf.imp (fun h => h.mono h₁.faults) fun hshort => Or.inr ?_)
    intro v es hopened
    exact absurd hopened.bootstrapFits (not_le.mpr hshort)
  · rw [h₁.disk] at h₂
    exact hcrashed d₂ (h₂.trans h₁) (hf.mono h₁.faults)
  rw [h₁.disk] at h₂ hfits hbytes
  rw [hcur, Nat.zero_add] at hfits
  rw [hcur] at hbytes
  have hread := hbytes.resolve_right fun hdam => hd (hdam.mono h₁.faults)
  have h₂' := h₂.trans h₁
  simp only [wp_bind]
  rw [wp_ofExcept]
  refine ⟨fun b hb => ?_, fun e he => hfailed d₂ e h₂' (Or.inr (Or.inr fun v es hopened => ?_))⟩
  swap
  · rw [hread, hopened.bootstrap] at he
    exact absurd he (by simp)
  simp only [wp_bind]
  rw [wp_ofExcept]
  refine ⟨fun keys hkeys => ?_, fun e he =>
    hfailed d₂ e h₂' (Or.inr (Or.inr fun v es hopened => ?_))⟩
  swap
  · have hsame := hopened.bootstrap.symm.trans (hread ▸ hb)
    obtain rfl : v.bootstrap = b := by simpa using hsame
    rw [hopened.keys] at he
    exact absurd he (by simp)
  -- the rest depends on the candidates through what is known of them only
  have hrest : ∀ (file : Device Sealed) (candidates : List (Slot × SuperState)),
      file.Follows d d.disk → Candidates d keys b [.a, .b] candidates →
      wp (if candidates.isEmpty then Prog.fail .authenticationFailed
        else do
          let len ← fileLen
          selectCandidate keys b len (sortCandidates candidates) : VolumeIO Volume)
        ⟨fun v => OpenEffect master d (.ok v), fun e => OpenEffect master d (.error e),
          OpenEffect master d .crash⟩ file := by
    rintro file candidates hfile ⟨hholds, horder, hslots⟩
    have hall : d.MayFail ∨ ∀ slot state, SlotHolds keys b d.disk.view slot state →
        (slot, state) ∈ candidates :=
      hslots.imp id fun h slot => h slot (by cases slot <;> decide)
    by_cases hempty : candidates = []
    · subst hempty
      simp only [List.isEmpty_nil, if_true, wp_fail]
      refine hfailed file _ hfile (hall.imp id fun hall => Or.inr fun v es hopened => ?_)
      exact absurd (hopened.mem_candidates hall hread hb hkeys).1 List.not_mem_nil
    have hne : ¬candidates.isEmpty = true := by simpa using hempty
    rw [if_neg hne, wp_bind]
    refine wp_fileLen (fun d₃ h₃ _ => ?_) (fun d₃ f h₃ hf => ?_) fun d₃ h₃ hf => ?_
    · rw [hfile.disk] at h₃
      have h₃' := h₃.trans hfile
      have hlen : file.disk.view.length = d₃.disk.view.length := by rw [h₃'.disk, hfile.disk]
      have hd₃ : ¬d₃.MayDamage := fun hdam => hd (hdam.mono h₃'.faults)
      have hsorted : ∀ c ∈ sortCandidates candidates, SlotHolds keys b d.disk.view c.1 c.2 :=
        fun c hc => hholds c (mem_sortCandidates.mp hc)
      dsimp only
      rw [hlen]
      refine wp_selectCandidate hd₃ (fun d₄ slot state es index hsel h₄ => ?_)
        (fun d₄ slot state es index hsel h₄ => ?_) (fun d₄ e h₄ hskips => ?_) fun d₄ h₄ hf => ?_
      · have hsel' := hsel.of_follows h₃'
        rw [h₃'.disk] at h₄
        exact .opened (hsel'.opened hsorted hfits hread hb hkeys)
          (hsel'.newest horder hall hread hb hkeys)
          (h₄.imp (fun h => ⟨h.1.trans h₃', h.2⟩) fun h => ⟨h.1.trans h₃', h.2⟩)
      · have hsel' := hsel.of_follows h₃'
        rw [h₃'.disk] at h₄
        have hopened := hsel'.opened hsorted hfits hread hb hkeys
        have hnewest := hsel'.newest horder hall hread hb hkeys
        have h₄' := h₄.imp (fun h => h.trans h₃') fun h => h.trans h₃'
        exact ⟨fun f hf => .cut (by simp) hopened hnewest h₄' (by simp) fun _ _ =>
            hf.imp (fun h => h.mono h₃'.faults) id,
          fun hf => .cut (by simp) hopened hnewest h₄' (fun _ => hf.mono h₃'.faults) (by simp)⟩
      · rw [h₃'.disk] at h₄
        refine hfailed d₄ e (h₄.trans h₃') ?_
        by_cases hfail : d.MayFail
        · exact Or.inl hfail
        refine Or.inr (Or.inr fun v es hopened => ?_)
        obtain ⟨hmem, hlarge⟩ :=
          hopened.mem_candidates (hall.resolve_left hfail) hread hb hkeys
        have hskip := (hskips _ (mem_sortCandidates.mpr hmem)).of_follows h₃'
        exact (hlarge hskip).resolve_left hfail
      · rw [h₃'.disk] at h₄
        exact hcrashed d₄ (h₄.trans h₃') (hf.mono h₃'.faults)
    · rw [hfile.disk] at h₃
      exact hfailed d₃ _ (h₃.trans hfile) (Or.inl (hf.mono hfile.faults))
    · rw [hfile.disk] at h₃
      exact hcrashed d₃ (h₃.trans hfile) (hf.mono hfile.faults)
  simp only [wp_bind]
  have hd₂ : ¬d₂.MayDamage := fun hdam => hd (hdam.mono h₂'.faults)
  refine wp_readCandidate hd₂ (fun d₃ first h₃ hfirst => ?_) fun d₃ h₃ hf => ?_
  · have hfirst' := hfirst.of_follows h₂'
    rw [h₂'.disk] at h₃
    have h₃' := h₃.trans h₂'
    simp only [wp_bind]
    have hd₃ : ¬d₃.MayDamage := fun hdam => hd (hdam.mono h₃'.faults)
    refine wp_readCandidate hd₃ (fun d₄ second h₄ hsecond => ?_) fun d₄ h₄ hf => ?_
    · have hsecond' := hsecond.of_follows h₃'
      rw [h₃'.disk] at h₄
      exact hrest d₄ _ (h₄.trans h₃') (hfirst'.append hsecond')
    · rw [h₃'.disk] at h₄
      exact hcrashed d₄ (h₄.trans h₃') (hf.mono h₃'.faults)
  · rw [h₂'.disk] at h₃
    exact hcrashed d₃ (h₃.trans h₂') (hf.mono h₂'.faults)

end OrIsyVra.Volume
