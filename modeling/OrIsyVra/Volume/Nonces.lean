import OrIsyVra.Volume.Process

/-!
# Nonces

A nonce is derived from a domain and two numbers: a block and its generation, or a slot and the
generation of its superblock.  The generations live in memory, and memory moves when a call
succeeds; so what a call has sealed that did not is left behind with a generation that the next call
takes again.

A run is therefore tracked with a `Ledger`: the last volume that was in memory, and of the calls it
has not moved past the payloads of their blocks and the change of the superblock.  What is not in
the ledger is `Spent`: no call can meet its nonce again with another message (`Spent.agrees`).  A
call `Repeats` the ledger when it has no other payload for a block and no other change of the
superblock, and an open that `Resumes` it has found the last state, or the one that was about to be
committed.  In a run of such steps no nonce has two messages (`nonces_not_reused`).
-/

namespace OrIsyVra.Volume

open ByteString MachineWord DurableFile FaultProgram Runs

/-- What the nonce is derived from. -/
def Sealed.input (x : Sealed) : Bytes × UInt64 × UInt64 := (x.domain, x.first, x.second)

/-! ## Generations -/

/-- The newest generation of a block; a block without a record has generation zero. -/
def newest (index : Index) (blockIndex : UInt64) : ℕ :=
  match index.lookup blockIndex with
  | some record => record.generation.toNat
  | none => 0

theorem nextGeneration_eq_ok {index : Index} {blockIndex generation : UInt64}
    (h : nextGeneration index blockIndex = .ok generation) :
    generation.toNat = newest index blockIndex + 1 := by
  unfold nextGeneration at h
  unfold newest
  have hone : (1 : UInt64).toNat = 1 := rfl
  cases hlookup : index.lookup blockIndex with
  | none =>
    rw [hlookup] at h
    obtain rfl := Except.ok.inj h
    rfl
  | some record =>
    rw [hlookup] at h
    dsimp only at h ⊢
    split at h
    · exact absurd h (by simp)
    next g hadd =>
    obtain rfl := Except.ok.inj h
    rw [checkedAdd_eq_some, hone] at hadd
    exact hadd

theorem newest_insert (index : Index) (k k' : UInt64) (record : RecordIndex) :
    newest (index.insert k record) k' =
      if k' = k then record.generation.toNat else newest index k' := by
  unfold newest
  by_cases hk : k' = k
  · rw [if_pos hk, hk, Finmap.lookup_insert]
  · rw [if_neg hk, Finmap.lookup_insert_of_ne _ hk]

/-- Inserting records with the next generations moves their blocks up, and no block down. -/
theorem newest_insertRecords {index index' : Index} {records : List (UInt64 × RecordIndex)}
    (hnext : ∀ p ∈ records, p.2.generation.toNat = newest index p.1 + 1)
    (hle : ∀ k, newest index k ≤ newest index' k) :
    (∀ k, newest index k ≤ newest (insertRecords index' records) k) ∧
      ∀ k, (newest index k < newest index' k ∨ k ∈ records.map Prod.fst) →
        newest index k < newest (insertRecords index' records) k := by
  induction records generalizing index' with
  | nil => exact ⟨hle, fun k hk => hk.resolve_right (by simp)⟩
  | cons p records ih =>
    have hp := hnext p List.mem_cons_self
    have hle' : ∀ k, newest index k ≤ newest (index'.insert p.1 p.2) k := by
      intro k
      rw [newest_insert]
      split
      · next hk => rw [hp, hk]; exact Nat.le_succ _
      · exact hle k
    obtain ⟨hall, hup⟩ := ih (fun q hq => hnext q (List.mem_cons_of_mem _ hq)) hle'
    refine ⟨hall, fun k hk => hup k ?_⟩
    rw [newest_insert]
    rcases hk with hk | hk
    · left
      split
      · next hkp => rw [hp, hkp]; exact Nat.lt_succ_self _
      · exact hk
    · rcases List.mem_cons.mp hk with rfl | hk
      · left
        rw [if_pos rfl, hp]
        exact Nat.lt_succ_self _
      · exact Or.inr hk

section Crypto

variable [Crypto]

/-- The records of a batch carry the next generations of their blocks. -/
theorem Appends.generations {v : Volume} {offset last : UInt64} {blocks : List (UInt64 × Bytes)}
    {rs : List Appended} (h : Appends v offset blocks rs last) :
    ∀ p ∈ rs.map Appended.indexed, p.2.generation.toNat = newest v.index p.1 + 1 := by
  induction h with
  | nil offset => exact fun p hp => absurd hp List.not_mem_nil
  | cons hgeneration hheader _ _ _ _ ih =>
    obtain ⟨hblock, hgen, -⟩ := recordHeader_eq_ok hheader
    intro p hp
    rcases List.mem_cons.mp hp with rfl | hp
    · simp only [Appended.indexed, Appended.entry, Entry.record]
      rw [hgen, hblock]
      exact nextGeneration_eq_ok hgeneration
    · exact ih p hp

/-! ## What a call seals -/

/-- How the superblock is to change: for a batch of so many records with so many bytes in all, or
for another flag. -/
inductive Change where
  | batch (records size : ℕ)
  | flag (clean : Bool)
  deriving DecidableEq, Repr

/-- The superblock state behind the change, if it can be made. -/
def Change.next (state : SuperState) : Change → Option SuperState
  | batch records size =>
    (commitState state records (UInt64.ofNat (state.committedEnd.toNat + size))).toOption
  | flag clean => if state.clean = clean then none else some (flagged state clean)

/-- The bytes of the records of a batch. -/
def batchSize (blocks : List (UInt64 × Bytes)) : ℕ :=
  (blocks.map fun p => recordHeaderSize + (p.2.length + aeadTagSize)).sum

/-- The blocks a call is to write, with their payloads. -/
def Call.payloads (v : Volume) : Call → List (UInt64 × Bytes)
  | .writeBlocks blocks =>
    match validateBatch v.bootstrap [] blocks with
    | .ok _ => blocks
    | .error _ => []
  | _ => []

/-- The change of the superblock a call is to make. -/
def Call.change (v : Volume) : Call → Option Change
  | .writeBlocks blocks =>
    match validateBatch v.bootstrap [] blocks with
    | .ok _ => if blocks.isEmpty then none else some (.batch blocks.length (batchSize blocks))
    | .error _ => none
  | .markClean => if v.state.clean = true then none else some (.flag true)
  | .markDirty => if v.state.clean = false then none else some (.flag false)
  | _ => none

/-- The superblock a call seals. -/
def Call.superSeals (v : Volume) (c : Call) : List Sealed :=
  (((c.change v).bind (Change.next v.state)).map
    (superSeal v.keys v.bootstrap v.activeSuper.other)).toList

/-- What a call seals if nothing stops it. -/
def Call.seals (v : Volume) (c : Call) : List Sealed :=
  batchSeals v (c.payloads v) ++ c.superSeals v

/-- The encryptions of one volume: records with the length of their payload in the header, and
superblocks. -/
inductive Formed (keys : VolumeKeys) (b : Bootstrap) : Sealed → Prop where
  | record {header : RecordHeader} {payload : Bytes} :
      header.plaintextLen.toNat = payload.length → Formed keys b (dataSeal keys b header payload)
  | super (slot : Slot) (state : SuperState) : Formed keys b (superSeal keys b slot state)

/-- Encryptions the volume makes next. -/
inductive Upcoming (v : Volume) : Sealed → Prop where
  | record {header : RecordHeader} {payload : Bytes} :
      header.generation.toNat = newest v.index header.blockIndex + 1 →
      Upcoming v (dataSeal v.keys v.bootstrap header payload)
  | commit {next : SuperState} : next.generation.toNat = v.state.generation.toNat + 1 →
      Upcoming v (superSeal v.keys v.bootstrap v.activeSuper.other next)
  | flag {clean : Bool} : v.state.clean ≠ clean →
      Upcoming v (superSeal v.keys v.bootstrap v.activeSuper.other (flagged v.state clean))

theorem recordSeal_inv {v : Volume} {p : UInt64 × Bytes} {x : Sealed}
    (h : recordSeal v p = some x) : ∃ header : RecordHeader, header.blockIndex = p.1 ∧
      header.generation.toNat = newest v.index p.1 + 1 ∧
      header.plaintextLen.toNat = p.2.length ∧ x = dataSeal v.keys v.bootstrap header p.2 := by
  unfold recordSeal at h
  split at h
  · exact absurd h (by simp)
  next generation hgeneration =>
  split at h
  · exact absurd h (by simp)
  next header hheader =>
  obtain ⟨hblock, hgen, hlen⟩ := recordHeader_eq_ok hheader
  refine ⟨header, hblock, ?_, hlen, (Option.some.inj h).symm⟩
  rw [hgen]
  exact nextGeneration_eq_ok hgeneration

theorem recordSeal_eq_some {v : Volume} {p : UInt64 × Bytes} {x : Sealed}
    (h : recordSeal v p = some x) : x.domain = ascii "data" ∧ x.first = p.1 ∧ x.message = p.2 ∧
      Upcoming v x ∧ Formed v.keys v.bootstrap x := by
  obtain ⟨header, hblock, hgeneration, hlen, rfl⟩ := recordSeal_inv h
  exact ⟨rfl, hblock, rfl, .record (hblock ▸ hgeneration), .record hlen⟩

theorem mem_superSeals {v : Volume} {c : Call} {x : Sealed} : x ∈ c.superSeals v ↔
    ∃ ch next, c.change v = some ch ∧ ch.next v.state = some next ∧
      x = superSeal v.keys v.bootstrap v.activeSuper.other next := by
  unfold Call.superSeals
  rw [Option.mem_toList, Option.map_eq_some_iff]
  constructor
  · rintro ⟨next, hnext, rfl⟩
    obtain ⟨ch, hchange, hnext⟩ := Option.bind_eq_some_iff.mp hnext
    exact ⟨ch, next, hchange, hnext, rfl⟩
  · rintro ⟨ch, next, hchange, hnext, rfl⟩
    exact ⟨next, Option.bind_eq_some_iff.mpr ⟨ch, hchange, hnext⟩, rfl⟩

omit [Crypto] in
theorem Change.next_batch {state next : SuperState} {records size : ℕ} :
    (Change.batch records size).next state = some next ↔
      commitState state records (UInt64.ofNat (state.committedEnd.toNat + size)) = .ok next := by
  show (commitState state records (UInt64.ofNat (state.committedEnd.toNat + size))).toOption =
    some next ↔ _
  cases commitState state records (UInt64.ofNat (state.committedEnd.toNat + size)) with
  | ok next' =>
    exact ⟨fun h => congrArg Except.ok (Option.some.inj h),
      fun h => congrArg some (Except.ok.inj h)⟩
  | error e => exact ⟨fun h => (nomatch h), fun h => (nomatch h)⟩

omit [Crypto] in
theorem Change.next_flag {state next : SuperState} {clean : Bool} :
    (Change.flag clean).next state = some next ↔
      state.clean ≠ clean ∧ next = flagged state clean := by
  unfold Change.next
  by_cases hclean : state.clean = clean
  · simp [hclean]
  · simp [hclean, eq_comm]

/-- What a call seals are encryptions the volume makes next. -/
theorem Call.upcoming {v : Volume} {c : Call} {x : Sealed} (h : x ∈ c.seals v) :
    Upcoming v x ∧ Formed v.keys v.bootstrap x := by
  rcases List.mem_append.mp h with hm | hm
  · obtain ⟨p, -, hp⟩ := List.mem_filterMap.mp hm
    exact (recordSeal_eq_some hp).2.2.2
  · obtain ⟨ch, next, -, hnext, rfl⟩ := mem_superSeals.mp hm
    cases ch with
    | batch records size =>
      exact ⟨.commit (commitState_eq_ok (Change.next_batch.mp hnext)).1, .super _ _⟩
    | flag clean =>
      obtain ⟨hclean, rfl⟩ := Change.next_flag.mp hnext
      exact ⟨.flag hclean, .super _ _⟩

omit [Crypto] in
theorem ascii_data_ne_super : ascii "data" ≠ ascii "super" := by decide

omit [Crypto] in
/-- The blocks of a call are distinct. -/
theorem Call.payloads_nodup (v : Volume) (c : Call) : ((c.payloads v).map Prod.fst).Nodup := by
  cases c with
  | writeBlocks blocks =>
    unfold Call.payloads
    dsimp only
    split
    · next hvalidate => exact (validateBatch_eq_ok.mp hvalidate).1.distinct
    · exact List.nodup_nil
  | readBlock k => exact List.nodup_nil
  | sync => exact List.nodup_nil
  | markClean => exact List.nodup_nil
  | markDirty => exact List.nodup_nil

/-- **One call does not repeat a nonce.** -/
theorem Call.seals_agree {v : Volume} {c : Call} {x y : Sealed} (hx : x ∈ c.seals v)
    (hy : y ∈ c.seals v) (h : x.input = y.input) : x.message = y.message := by
  have hdomain : x.domain = y.domain := congrArg Prod.fst h
  have hfirst : x.first = y.first := congrArg (fun i => i.2.1) h
  rcases List.mem_append.mp hx with hmx | hmx <;> rcases List.mem_append.mp hy with hmy | hmy
  · -- two records of the batch: the same block, so the same payload
    obtain ⟨p, hp, hsx⟩ := List.mem_filterMap.mp hmx
    obtain ⟨q, hq, hsy⟩ := List.mem_filterMap.mp hmy
    obtain ⟨-, hfx, hmessage, -⟩ := recordSeal_eq_some hsx
    obtain ⟨-, hfy, hmessage', -⟩ := recordSeal_eq_some hsy
    have hpq := List.inj_on_of_nodup_map (c.payloads_nodup v) hp hq
      (hfx.symm.trans (hfirst.trans hfy))
    rw [hmessage, hmessage', hpq]
  · obtain ⟨p, -, hsx⟩ := List.mem_filterMap.mp hmx
    obtain ⟨_, _, -, -, rfl⟩ := mem_superSeals.mp hmy
    exact absurd ((recordSeal_eq_some hsx).1.symm.trans hdomain) ascii_data_ne_super
  · obtain ⟨p, -, hsy⟩ := List.mem_filterMap.mp hmy
    obtain ⟨_, _, -, -, rfl⟩ := mem_superSeals.mp hmx
    exact absurd ((recordSeal_eq_some hsy).1.symm.trans hdomain.symm) ascii_data_ne_super
  · obtain ⟨ch, next, hchange, hnext, rfl⟩ := mem_superSeals.mp hmx
    obtain ⟨ch', next', hchange', hnext', rfl⟩ := mem_superSeals.mp hmy
    obtain rfl := Option.some.inj (hchange.symm.trans hchange')
    obtain rfl := Option.some.inj (hnext.symm.trans hnext')
    rfl

/-! ## Spent encryptions -/

/-- Memory has moved past the encryption, or it is of the state in memory.  A generation that has
reached its maximum stays there, and then the two slots hold the state with either flag. -/
inductive Spent (v : Volume) : Sealed → Prop where
  | record {header : RecordHeader} {payload : Bytes} :
      header.generation.toNat ≤ newest v.index header.blockIndex →
      Spent v (dataSeal v.keys v.bootstrap header payload)
  | older {slot : Slot} {state : SuperState} :
      state.generation.toNat < v.state.generation.toNat →
      Spent v (superSeal v.keys v.bootstrap slot state)
  | active : Spent v (superSeal v.keys v.bootstrap v.activeSuper v.state)
  | flipped : Spent v (superSeal v.keys v.bootstrap v.activeSuper.other
      { v.state with clean := !v.state.clean })

omit [Crypto] in
theorem Slot.toUInt64_injective {slot slot' : Slot} (h : slot.byte.toUInt64 = slot'.byte.toUInt64) :
    slot = slot' := by
  revert h
  cases slot <;> cases slot' <;> decide

omit [Crypto] in
/-- The generation of a changed flag grows, unless it is at its maximum. -/
theorem flagged_generation (state : SuperState) (clean : Bool) :
    state.generation.toNat < (flagged state clean).generation.toNat ∨
      (flagged state clean).generation = state.generation := by
  have hsat := toNat_saturatingAdd state.generation 1
  have hone : (1 : UInt64).toNat = 1 := rfl
  have hlt := state.generation.toNat_lt
  by_cases hmax : state.generation.toNat + 1 < 2 ^ 64
  · left
    show _ < (saturatingAdd state.generation 1).toNat
    omega
  · right
    show saturatingAdd state.generation 1 = state.generation
    refine UInt64.toNat_inj.mp ?_
    omega

omit [Crypto] in
theorem eq_not_of_ne {a b : Bool} (h : a ≠ b) : b = !a := by
  revert h
  cases a <;> cases b <;> decide

omit [Crypto] in
/-- At the maximum a change of the flag is all that changes. -/
theorem flagged_eq_flipped {state : SuperState} {clean : Bool} (hclean : state.clean ≠ clean)
    (h : (flagged state clean).generation = state.generation) :
    flagged state clean = { state with clean := !state.clean } := by
  unfold flagged at h ⊢
  simp only at h
  rw [eq_not_of_ne hclean, h]

/-- **The next encryptions do not meet a spent one**, unless with the same message. -/
theorem Spent.agrees {v : Volume} {x y : Sealed} (hx : Upcoming v x) (hy : Spent v y)
    (h : x.input = y.input) : x.message = y.message := by
  have hdomain : x.domain = y.domain := congrArg Prod.fst h
  have hfirst : x.first = y.first := congrArg (fun i => i.2.1) h
  have hsecond : x.second = y.second := congrArg (fun i => i.2.2) h
  -- the slot of the next superblock is not the active one
  have hslot : ∀ {state : SuperState}, v.activeSuper.other.byte.toUInt64 =
      (superSeal v.keys v.bootstrap v.activeSuper state).first → False := fun heq =>
    v.activeSuper.other_ne (Slot.toUInt64_injective heq)
  cases hx with
  | @record header payload hgeneration =>
    cases hy with
    | @record header' payload' hle =>
      have hblock : header.blockIndex = header'.blockIndex := hfirst
      have hgen : header.generation = header'.generation := hsecond
      rw [hblock, hgen] at hgeneration
      omega
    | older _ => exact absurd hdomain ascii_data_ne_super
    | active => exact absurd hdomain ascii_data_ne_super
    | flipped => exact absurd hdomain ascii_data_ne_super
  | @commit next hgeneration =>
    cases hy with
    | record _ => exact absurd hdomain.symm ascii_data_ne_super
    | @older slot state hlt =>
      have hgen : next.generation = state.generation := hsecond
      rw [hgen] at hgeneration
      omega
    | active => exact absurd hfirst hslot
    | flipped =>
      have hgen : next.generation = v.state.generation := hsecond
      rw [hgen] at hgeneration
      omega
  | @flag clean hclean =>
    cases hy with
    | record _ => exact absurd hdomain.symm ascii_data_ne_super
    | @older slot state hlt =>
      have hgen : (flagged v.state clean).generation = state.generation := hsecond
      rcases flagged_generation v.state clean with hgrows | hstays
      · rw [hgen] at hgrows
        omega
      · rw [← hgen, hstays] at hlt
        omega
    | active => exact absurd hfirst hslot
    | flipped =>
      exact congrArg SuperState.encode (flagged_eq_flipped hclean hsecond)

/-! ## The trace of a call -/

theorem Appends.last_toNat [LawfulCrypto] {v : Volume} {offset last : UInt64}
    {blocks : List (UInt64 × Bytes)} {rs : List Appended} (h : Appends v offset blocks rs last) :
    last.toNat = offset.toNat +
      (blocks.map fun p => recordHeaderSize + (p.2.length + aeadTagSize)).sum := by
  induction h with
  | nil offset => rfl
  | cons _ _ hct hnext _ _ ih =>
    have hlen := LawfulCrypto.length_encrypt _ _ _ _ _ hct
    rw [List.map_cons, List.sum_cons, ih, hnext, hlen]
    simp only
    omega

/-- The superblock of a batch is the announced one. -/
theorem Appends.change [LawfulCrypto] {v : Volume} {last : UInt64}
    {blocks : List (UInt64 × Bytes)} {rs : List Appended} {next : SuperState}
    (h : Appends v v.state.committedEnd blocks rs last)
    (hnext : commitState v.state rs.length last = .ok next) :
    (Change.batch blocks.length (batchSize blocks)).next v.state = some next := by
  have hlast : UInt64.ofNat (v.state.committedEnd.toNat + batchSize blocks) = last := by
    rw [batchSize, ← h.last_toNat, UInt64.ofNat_toNat]
  rw [Change.next_batch, hlast, ← h.length_eq, hnext]

/-- What a call notes on the trace, and how memory has moved: not at all, or by the change it was to
make. -/
structure Notes (s : Session) (c : Call) (s' : Session) (es : List Sealed) : Prop where
  trace : s'.file.trace = s.file.trace ++ es
  announced : es ⊆ c.seals s.volume
  state : s'.volume.state = s.volume.state ∧ s'.volume.activeSuper = s.volume.activeSuper ∨
    s'.volume.activeSuper = s.volume.activeSuper.other ∧
      (c.change s.volume).bind (Change.next s.volume.state) = some s'.volume.state
  index : ∀ k, newest s.volume.index k ≤ newest s'.volume.index k

/-- Nothing is noted, and memory stays. -/
theorem Notes.nothing {s s' : Session} {c : Call} (hvolume : s'.volume = s.volume)
    (h : s'.file.trace = s.file.trace) : Notes s c s' [] := by
  refine ⟨by rw [h, List.append_nil], List.nil_subset _, Or.inl ?_, fun k => ?_⟩
  · rw [hvolume]
    exact ⟨rfl, rfl⟩
  · rw [hvolume]

theorem WriteEffect.notes [LawfulCrypto] {s s' : Session} {blocks : List (UInt64 × Bytes)}
    {o : Outcome VolumeError (List UInt64)} (h : WriteEffect s blocks o s') (hne : blocks ≠ []) :
    ∃ es, Notes s (.writeBlocks blocks) s' es := by
  have hvalidate : BatchValid s.volume.bootstrap blocks →
      validateBatch s.volume.bootstrap [] blocks = .ok () := fun hvalid =>
    validateBatch_eq_ok.mpr ⟨hvalid, fun _ _ => List.not_mem_nil⟩
  have hempty : ¬blocks.isEmpty := by rwa [List.isEmpty_iff]
  have hchange : ∀ {rs last next}, BatchValid s.volume.bootstrap blocks →
      Appends s.volume s.volume.state.committedEnd blocks rs last →
      commitState s.volume.state rs.length last = .ok next →
      ((Call.writeBlocks blocks).change s.volume).bind (Change.next s.volume.state) =
        some next := by
    intro rs last next hvalid happends hnext
    simp only [Call.change, hvalidate hvalid, if_neg hempty, Option.bind_some]
    exact happends.change hnext
  have hrecords : BatchValid s.volume.bootstrap blocks →
      batchSeals s.volume blocks ⊆ (Call.writeBlocks blocks).seals s.volume := by
    intro hvalid
    simp only [Call.seals, Call.payloads, hvalidate hvalid]
    exact List.subset_append_left _ _
  have hall : ∀ {rs last next}, BatchValid s.volume.bootstrap blocks →
      Appends s.volume s.volume.state.committedEnd blocks rs last →
      commitState s.volume.state rs.length last = .ok next →
      rs.map (Appended.sealed s.volume) ++
        [superSeal s.volume.keys s.volume.bootstrap s.volume.activeSuper.other next] ⊆
        (Call.writeBlocks blocks).seals s.volume := by
    intro rs last next hvalid happends hnext
    refine List.append_subset.mpr ⟨List.Subset.trans happends.seals_subset (hrecords hvalid), ?_⟩
    obtain ⟨ch, hch, hmade⟩ := Option.bind_eq_some_iff.mp (hchange hvalid happends hnext)
    rintro x hx
    rw [List.mem_singleton.mp hx]
    exact List.mem_append_right _ (mem_superSeals.mpr ⟨ch, next, hch, hmade, rfl⟩)
  have hcommitted : ∀ {rs last next}, Appends s.volume s.volume.state.committedEnd blocks rs last →
      ∀ k, newest s.volume.index k ≤ newest (Volume.committed s.volume rs next).index k :=
    fun happends => (newest_insertRecords happends.generations fun _ => le_rfl).1
  cases h with
  | empty _ => exact ⟨[], .nothing rfl rfl⟩
  | rejected _ => exact ⟨[], .nothing rfl rfl⟩
  | staging hvalid _ hes hafter _ _ _ =>
    exact ⟨_, hafter.trace, List.Subset.trans hes (hrecords hvalid),
      Or.inl ⟨rfl, rfl⟩, fun _ => le_rfl⟩
  | uncommitted hvalid happends hafter hend =>
    refine ⟨_, hafter.trace, ?_, Or.inl ⟨rfl, rfl⟩, fun _ => le_rfl⟩
    rcases hend with ⟨rfl, -⟩ | ⟨next, hnext, rfl, -⟩
    · rw [List.append_nil]
      exact List.Subset.trans happends.seals_subset (hrecords hvalid)
    · exact hall hvalid happends hnext
  | torn hvalid happends hnext _ hafter _ _ =>
    exact ⟨_, hafter.trace, hall hvalid happends hnext, Or.inl ⟨rfl, rfl⟩, fun _ => le_rfl⟩
  | unsynced hvalid happends hnext _ hafter _ =>
    exact ⟨_, hafter.trace, hall hvalid happends hnext,
      Or.inr ⟨rfl, hchange hvalid happends hnext⟩, hcommitted happends⟩
  | committed hvalid happends hnext _ hafter =>
    exact ⟨_, hafter.trace, hall hvalid happends hnext,
      Or.inr ⟨rfl, hchange hvalid happends hnext⟩, hcommitted happends⟩

theorem CleanEffect.notes [LawfulCrypto] {s s' : Session} {clean : Bool} {c : Call}
    {o : Outcome VolumeError Unit} (h : CleanEffect s clean o s')
    (hchange : s.volume.state.clean ≠ clean → c.change s.volume = some (.flag clean)) :
    ∃ es, Notes s c s' es := by
  have hseals : s.volume.state.clean ≠ clean →
      [superSeal s.volume.keys s.volume.bootstrap s.volume.activeSuper.other
        (flagged s.volume.state clean)] ⊆ c.seals s.volume := by
    intro hclean x hx
    rw [List.mem_singleton.mp hx]
    exact List.mem_append_right _ (mem_superSeals.mpr
      ⟨_, _, hchange hclean, Change.next_flag.mpr ⟨hclean, rfl⟩, rfl⟩)
  cases h with
  | unchanged _ => exact ⟨[], .nothing rfl rfl⟩
  | untouched hclean hafter _ =>
    exact ⟨_, hafter.trace, hseals hclean, Or.inl ⟨rfl, rfl⟩, fun _ => le_rfl⟩
  | torn hclean _ hafter _ _ =>
    exact ⟨_, hafter.trace, hseals hclean, Or.inl ⟨rfl, rfl⟩, fun _ => le_rfl⟩
  | changed hclean _ hafter =>
    refine ⟨_, hafter.trace, hseals hclean, Or.inr ⟨rfl, ?_⟩, fun _ => le_rfl⟩
    rw [hchange hclean, Option.bind_some]
    exact Change.next_flag.mpr ⟨hclean, rfl⟩

/-- **What a call notes**: encryptions it was to make; memory stays or makes the announced
change. -/
theorem Call.notes [LawfulCrypto] {master : Bytes} {s : Session} {es₀ : List Entry} (c : Call)
    (hs : Sees master s es₀) (hd : ¬s.file.MayDamage) : ∃ es, Notes s c (c.run s).2 es := by
  cases c with
  | readBlock k =>
    rw [Call.run, run_map]
    obtain ⟨hvolume, hfile, -⟩ := readBlock_effect k hd hs.log
    exact ⟨[], .nothing hvolume hfile.trace⟩
  | writeBlocks blocks =>
    rw [Call.run, run_map]
    by_cases hempty : blocks = []
    · subst hempty
      exact ⟨[], .nothing rfl rfl⟩
    · exact (writeBlocks_effect s blocks).notes hempty
  | markClean =>
    rw [Call.run, run_map]
    exact (setCleanState_effect s true).notes fun hclean => if_neg hclean
  | markDirty =>
    rw [Call.run, run_map]
    exact (setCleanState_effect s false).notes fun hclean => if_neg hclean
  | sync =>
    rw [Call.run, run_map]
    have heffect := sync_effect s
    rcases heffect.file with hfile | hfile
    · exact ⟨[], .nothing heffect.volume hfile.trace⟩
    · exact ⟨[], .nothing heffect.volume hfile.trace⟩

/-! ## Tracked runs -/

/-- The last volume a process had in memory, and what calls have offered it that it has not moved
past: payloads of blocks, and a change of the superblock. -/
structure Ledger where
  volume : Volume
  payloads : List (UInt64 × Bytes)
  change : Option Change

namespace Ledger

/-- A call offers its payloads and its change. -/
def offer (l : Ledger) (c : Call) : Ledger :=
  { l with
    payloads := l.payloads ++ c.payloads l.volume
    change := match c.change l.volume with
      | some ch => some ch
      | none => l.change }

/-- Another volume is in memory: what has been offered for a generation it has passed goes. -/
def passTo (l : Ledger) (v : Volume) : Ledger :=
  ⟨v, l.payloads.filter fun p => newest v.index p.1 = newest l.volume.index p.1,
    if v.state = l.volume.state then l.change else none⟩

/-- The ledger after a step. -/
def after (l : Ledger) : Event → World → Ledger
  | .call c _, .live s => (l.offer c).passTo s.volume
  | .call c _, .down _ => l.offer c
  | .reopen _, .live s => l.passTo s.volume
  | _, _ => l

end Ledger

/-- The call has no other payload for a block, and no other change of the superblock, than has been
offered before. -/
def Repeats (l : Ledger) (c : Call) : Prop :=
  (∀ p ∈ l.payloads, ∀ q ∈ c.payloads l.volume, q.1 = p.1 → q.2 = p.2) ∧
    ∀ ch ∈ l.change, ∀ ch' ∈ c.change l.volume, ch' = ch

instance (l : Ledger) (c : Call) : Decidable (Repeats l c) := inferInstanceAs (Decidable (_ ∧ _))

/-- The volume goes on where the ledger stands: its superblock is the last one or the one that has
been offered, and no block has fallen back. -/
structure Resumes (l : Ledger) (v : Volume) : Prop where
  state : v.state = l.volume.state ∧ v.activeSuper = l.volume.activeSuper ∨
    v.activeSuper = l.volume.activeSuper.other ∧
      l.change.bind (Change.next l.volume.state) = some v.state
  index : ∀ k ∈ l.volume.index.keys, newest l.volume.index k ≤ newest v.index k

instance (l : Ledger) (v : Volume) : Decidable (Resumes l v) :=
  -- Over the keys of the index, and not over every block number there is.
  have : Decidable (∀ k ∈ l.volume.index.keys, newest l.volume.index k ≤ newest v.index k) :=
    Finset.decidableDforallFinset
  decidable_of_iff ((v.state = l.volume.state ∧ v.activeSuper = l.volume.activeSuper ∨
    v.activeSuper = l.volume.activeSuper.other ∧
      l.change.bind (Change.next l.volume.state) = some v.state) ∧
    ∀ k ∈ l.volume.index.keys, newest l.volume.index k ≤ newest v.index k)
    ⟨fun h => ⟨h.1, h.2⟩, fun h => ⟨h.state, h.index⟩⟩

/-- The file of a world. -/
def World.file : World → Device Sealed
  | .live s => s.file
  | .down file => file

/-- A host that may fail any call, kill the process and lose its power. -/
def failingHost : Environment where
  allows f := ∀ bs, f ≠ .damaged bs
  crash := Crashes
  permits _ _ := True
  opens _ := True

omit [Crypto] in
theorem failingHost_hosts : failingHost.Hosts := ⟨fun _ h => h, fun _ _ h => h⟩

/-- A step with its ledger: a call repeats what has been offered before, and a volume that is opened
resumes. -/
structure Tracked (master : Bytes) (p : World × Ledger) (e : Event) (q : World × Ledger) :
    Prop where
  step : Step failingHost master p.1 e q.1
  ledger : q.2 = p.2.after e q.1
  repeats : ∀ c o, e = .call c o → Repeats p.2 c
  resumes : ∀ s, e = .reopen (.ok ()) → q.1 = .live s → Resumes p.2 s.volume

/-- An encryption of what has been offered. -/
inductive Offered (l : Ledger) : Sealed → Prop where
  | record {header : RecordHeader} {payload : Bytes} : (header.blockIndex, payload) ∈ l.payloads →
      header.generation.toNat = newest l.volume.index header.blockIndex + 1 →
      Offered l (dataSeal l.volume.keys l.volume.bootstrap header payload)
  | super {ch : Change} {next : SuperState} : l.change = some ch →
      ch.next l.volume.state = some next →
      Offered l (superSeal l.volume.keys l.volume.bootstrap l.volume.activeSuper.other next)

section Ledger

variable {l : Ledger} {c : Call} {x y : Sealed} {v : Volume}

omit [Crypto] in
theorem Ledger.offer_change {ch : Change} (h : c.change l.volume = some ch) :
    (l.offer c).change = some ch := by
  unfold Ledger.offer
  simp only [h]

/-- What a call seals it has offered. -/
theorem Call.seals_offered (h : x ∈ c.seals l.volume) : Offered (l.offer c) x := by
  rcases List.mem_append.mp h with hm | hm
  · obtain ⟨p, hp, hseal⟩ := List.mem_filterMap.mp hm
    obtain ⟨header, hblock, hgeneration, -, rfl⟩ := recordSeal_inv hseal
    have hoffered : (header.blockIndex, p.2) ∈ (l.offer c).payloads := by
      rw [hblock]
      exact List.mem_append_right _ hp
    exact .record (l := l.offer c) hoffered (hblock ▸ hgeneration)
  · obtain ⟨ch, next, hchange, hnext, rfl⟩ := mem_superSeals.mp hm
    exact .super (l := l.offer c) (Ledger.offer_change hchange) hnext

/-- What has been offered is offered by a call that repeats it. -/
theorem Offered.offer (h : Offered l x) (hc : Repeats l c) : Offered (l.offer c) x := by
  cases h with
  | record hpayload hgeneration =>
    exact .record (l := l.offer c) (List.mem_append_left _ hpayload) hgeneration
  | @super ch next hchange hnext =>
    refine .super (l := l.offer c) (?_ : (l.offer c).change = some ch) hnext
    cases hnew : c.change l.volume with
    | none =>
      unfold Ledger.offer
      simp only [hnew]
      exact hchange
    | some ch' =>
      rw [Ledger.offer_change hnew, hc.2 ch hchange ch' hnew]

/-- **A call that repeats what has been offered does not meet it**, unless with the same message. -/
theorem Offered.agrees (hc : Repeats l c) (hx : x ∈ c.seals l.volume) (hy : Offered l y)
    (h : x.input = y.input) : x.message = y.message := by
  have hdomain : x.domain = y.domain := congrArg Prod.fst h
  have hfirst : x.first = y.first := congrArg (fun i => i.2.1) h
  rcases List.mem_append.mp hx with hm | hm
  · obtain ⟨p, hp, hseal⟩ := List.mem_filterMap.mp hm
    obtain ⟨hdata, hblock, hmessage, -⟩ := recordSeal_eq_some hseal
    cases hy with
    | @record header payload hpayload _ =>
      rw [hmessage]
      exact hc.1 _ hpayload p hp (hblock.symm.trans hfirst)
    | super _ _ => exact absurd (hdata.symm.trans hdomain) ascii_data_ne_super
  · obtain ⟨ch, next, hchange, hnext, rfl⟩ := mem_superSeals.mp hm
    cases hy with
    | record _ _ => exact absurd hdomain.symm ascii_data_ne_super
    | @super ch' next' hchange' hnext' =>
      obtain rfl := hc.2 ch' hchange' ch hchange
      obtain rfl := Option.some.inj (hnext.symm.trans hnext')
      rfl

omit [Crypto] in
theorem Resumes.newest_le (h : Resumes l v) (k : UInt64) :
    newest l.volume.index k ≤ newest v.index k := by
  by_cases hmem : k ∈ l.volume.index.keys
  · exact h.index k hmem
  · have hzero : newest l.volume.index k = 0 := by
      rw [newest, Finmap.lookup_eq_none.mpr fun h => hmem (Finmap.mem_keys.mpr h)]
    rw [hzero]
    exact Nat.zero_le _

omit [Crypto] in
/-- The state has stayed or grown; at its maximum it has changed its flag. -/
theorem Resumes.moved (h : Resumes l v) :
    (v.state = l.volume.state ∧ v.activeSuper = l.volume.activeSuper) ∨
      l.volume.state.generation.toNat < v.state.generation.toNat ∨
      v.activeSuper = l.volume.activeSuper.other ∧
        v.state = { l.volume.state with clean := !l.volume.state.clean } := by
  rcases h.state with hsame | ⟨hslot, hmade⟩
  · exact Or.inl hsame
  obtain ⟨ch, -, hnext⟩ := Option.bind_eq_some_iff.mp hmade
  cases ch with
  | batch records size =>
    have hgeneration := (commitState_eq_ok (Change.next_batch.mp hnext)).1
    exact Or.inr (Or.inl (by omega))
  | flag clean =>
    obtain ⟨hclean, hstate⟩ := Change.next_flag.mp hnext
    rw [hstate]
    rcases flagged_generation l.volume.state clean with hgrows | hstays
    · exact Or.inr (Or.inl hgrows)
    · exact Or.inr (Or.inr ⟨hslot, flagged_eq_flipped hclean hstays⟩)

/-- **What is spent stays spent** in a volume that goes on where the ledger stands. -/
theorem Spent.resumes (hx : Spent l.volume x) (h : Resumes l v)
    (hb : v.bootstrap = l.volume.bootstrap) (hkeys : v.keys = l.volume.keys) : Spent v x := by
  cases hx with
  | record hle =>
    rw [← hb, ← hkeys]
    exact .record (hle.trans (h.newest_le _))
  | older hlt =>
    rw [← hb, ← hkeys]
    rcases h.moved with ⟨hsame, -⟩ | hgrows | ⟨-, hflipped⟩
    · exact .older (hsame ▸ hlt)
    · exact .older (hlt.trans hgrows)
    · refine .older ?_
      rw [hflipped]
      exact hlt
  | active =>
    rw [← hb, ← hkeys]
    rcases h.moved with ⟨hsame, hslot⟩ | hgrows | ⟨hslot, hflipped⟩
    · rw [← hsame, ← hslot]
      exact .active
    · exact .older hgrows
    · -- the last state is the new one with its flag flipped, in the slot that is now the other
      have hother : v.activeSuper.other = l.volume.activeSuper := by
        rw [hslot, Slot.other_other]
      have hstate : { v.state with clean := !v.state.clean } = l.volume.state := by
        rw [hflipped, Bool.not_not]
      rw [← hother, ← hstate]
      exact .flipped
  | flipped =>
    rw [← hb, ← hkeys]
    rcases h.moved with ⟨hsame, hslot⟩ | hgrows | ⟨hslot, hflipped⟩
    · rw [← hsame, ← hslot]
      exact .flipped
    · exact .older hgrows
    · rw [← hslot, ← hflipped]
      exact .active

/-- **What has been offered is spent or still offered** in a volume that goes on where the ledger
stands. -/
theorem Offered.resumes (hx : Offered l x) (h : Resumes l v)
    (hb : v.bootstrap = l.volume.bootstrap) (hkeys : v.keys = l.volume.keys) :
    Spent v x ∨ Offered (l.passTo v) x := by
  cases hx with
  | @record header payload hpayload hgeneration =>
    rw [← hb, ← hkeys]
    by_cases hsame : newest v.index header.blockIndex = newest l.volume.index header.blockIndex
    · refine Or.inr (.record (l := l.passTo v) ?_ ?_)
      · exact List.mem_filter.mpr ⟨hpayload, decide_eq_true hsame⟩
      · exact hgeneration.trans (congrArg (· + 1) hsame.symm)
    · have hle := h.newest_le header.blockIndex
      exact Or.inl (.record (by omega))
  | @super ch next hchange hnext =>
    rw [← hb, ← hkeys]
    rcases h.state with ⟨hstate, hslot⟩ | ⟨hslot, hmade⟩
    · right
      rw [← hslot]
      refine .super (l := l.passTo v) (?_ : (l.passTo v).change = some ch) (hstate.symm ▸ hnext)
      exact (if_pos hstate).trans hchange
    · left
      rw [hchange, Option.bind_some, hnext] at hmade
      rw [Option.some.inj hmade, ← hslot]
      exact .active

end Ledger

/-- An open notes nothing. -/
theorem openVolume_trace {master : Bytes} {d : Device Sealed} (hd : ¬d.MayDamage) :
    (openVolume master d).2.trace = d.trace := by
  have heffect := openVolume_effect master d hd
  generalize openVolume master d = r at heffect
  rcases r with ⟨o, file⟩
  cases heffect with
  | failed _ hfile _ _ => exact hfile.trace
  | cut _ _ _ hfile _ _ =>
    rcases hfile with hfile | hfile
    · exact hfile.trace
    · exact hfile.trace
  | opened _ _ hfile =>
    rcases hfile with ⟨hfile, -⟩ | ⟨hfile, -⟩
    · exact hfile.trace
    · exact hfile.trace

omit [Crypto] in
theorem Crashes.trace {file file' : Device Sealed} (h : Crashes file file') :
    file'.trace = file.trace := by
  cases h with
  | killed _ htrace => exact htrace
  | powerLost _ _ htrace => exact htrace

/-- **The invariant of a tracked run.** -/
structure Recorded (master : Bytes) (b : Bootstrap) (keys : VolumeKeys) (w : World) (l : Ledger) :
    Prop where
  hosted : Hosted master b w
  derived : deriveKeys master b = .ok keys
  current : ∀ s, w = .live s → l.volume = s.volume
  bootstrap : l.volume.bootstrap = b
  volumeKeys : l.volume.keys = keys
  formed : ∀ x ∈ w.file.trace, Formed keys b x
  accounted : ∀ x ∈ w.file.trace, Spent l.volume x ∨ Offered l x
  distinct : ∀ x ∈ w.file.trace, ∀ y ∈ w.file.trace, x.input = y.input → x.message = y.message

namespace Recorded

variable {master : Bytes} {b : Bootstrap} {keys : VolumeKeys} {l : Ledger}

/-- What is on the trace once a call has noted its encryptions. -/
structure Extended (b : Bootstrap) (keys : VolumeKeys) (l : Ledger) (trace : List Sealed) :
    Prop where
  formed : ∀ x ∈ trace, Formed keys b x
  accounted : ∀ x ∈ trace, Spent l.volume x ∨ Offered l x
  distinct : ∀ x ∈ trace, ∀ y ∈ trace, x.input = y.input → x.message = y.message

/-- **A call that repeats what has been offered extends the record.** -/
theorem extend {w : World} {c : Call} {es trace : List Sealed}
    (h : Recorded master b keys w l) (hannounced : es ⊆ c.seals l.volume) (hrepeats : Repeats l c)
    (htrace : trace = w.file.trace ++ es) : Extended b keys (l.offer c) trace := by
  -- an encryption of the call against one that was there before
  have hnew : ∀ x ∈ es, ∀ y ∈ w.file.trace, x.input = y.input → x.message = y.message := by
    intro x hx y hy hinput
    rcases h.accounted y hy with hspent | hoffered
    · exact hspent.agrees (Call.upcoming (hannounced hx)).1 hinput
    · exact hoffered.agrees hrepeats (hannounced hx) hinput
  subst htrace
  refine ⟨fun x hx => ?_, fun x hx => ?_, fun x hx y hy hinput => ?_⟩
  · rcases List.mem_append.mp hx with hm | hm
    · exact h.formed x hm
    · have hformed := (Call.upcoming (hannounced hm)).2
      rwa [h.bootstrap, h.volumeKeys] at hformed
  · rcases List.mem_append.mp hx with hm | hm
    · exact (h.accounted x hm).imp id fun hoffered => hoffered.offer hrepeats
    · exact Or.inr (Call.seals_offered (hannounced hm))
  · rcases List.mem_append.mp hx with hmx | hmx <;> rcases List.mem_append.mp hy with hmy | hmy
    · exact h.distinct x hmx y hmy hinput
    · exact (hnew y hmy x hmx hinput.symm).symm
    · exact hnew x hmx y hmy hinput
    · exact Call.seals_agree (hannounced hmx) (hannounced hmy) hinput

/-- A volume that goes on where the ledger stands takes the record over. -/
theorem Extended.resumes {trace : List Sealed} {v : Volume} (h : Extended b keys l trace)
    (hv : Resumes l v) (hb : v.bootstrap = l.volume.bootstrap) (hkeys : v.keys = l.volume.keys) :
    Extended b keys (l.passTo v) trace := by
  refine ⟨h.formed, fun x hx => ?_, h.distinct⟩
  rcases h.accounted x hx with hspent | hoffered
  · exact Or.inl (hspent.resumes hv hb hkeys)
  · exact hoffered.resumes hv hb hkeys

/-- The file has moved, its trace has not. -/
theorem of_trace {w w' : World} (h : Recorded master b keys w l) (hhosted : Hosted master b w')
    (hdown : ∀ s, w' ≠ .live s) (htrace : w'.file.trace = w.file.trace) :
    Recorded master b keys w' l := by
  refine ⟨hhosted, h.derived, fun s hs => absurd hs (hdown s), h.bootstrap,
    h.volumeKeys, ?_, ?_, ?_⟩
  · rw [htrace]
    exact h.formed
  · rw [htrace]
    exact h.accounted
  · rw [htrace]
    exact h.distinct

end Recorded

/-- Memory after a call goes on where the ledger stands with what the call has offered. -/
theorem Notes.resumes {s s' : Session} {c : Call} {es : List Sealed} {l : Ledger}
    (h : Notes s c s' es) (hl : l.volume = s.volume) : Resumes (l.offer c) s'.volume := by
  have hvolume : (l.offer c).volume = s.volume := hl
  refine ⟨?_, fun k _ => ?_⟩
  · rw [hvolume]
    refine h.state.imp id fun ⟨hslot, hmade⟩ => ⟨hslot, ?_⟩
    obtain ⟨ch, hchange, hnext⟩ := Option.bind_eq_some_iff.mp hmade
    rw [← hl] at hchange
    rw [Ledger.offer_change hchange, Option.bind_some]
    exact hnext
  · rw [hvolume]
    exact h.index k

/-- **A tracked step keeps the record.** -/
theorem recorded_step [LawfulCrypto] {master : Bytes} {b : Bootstrap} {keys : VolumeKeys}
    {p q : World × Ledger} {e : Event} (h : Recorded master b keys p.1 p.2)
    (hstep : Tracked master p e q) : Recorded master b keys q.1 q.2 := by
  obtain ⟨w, l⟩ := p
  obtain ⟨w', l'⟩ := q
  obtain ⟨hstep, hledger, hrepeats, hresumes⟩ := hstep
  dsimp only at h hstep hledger hrepeats hresumes ⊢
  subst hledger
  have hhosted := step_hosted failingHost_hosts h.hosted hstep
  cases hstep with
  | @call s s' c fs o _ hfs hrun ho =>
    obtain ⟨-, -, es₀, hs⟩ := h.hosted
    have hscripted : Sees master (s.script fs) es₀ := hs
    have hd := failingHost_hosts.not_mayDamage hfs s.file
    obtain ⟨es, hnotes⟩ := c.notes hscripted hd
    obtain ⟨-, es', hmoves, -⟩ := c.moves hscripted hd
    rw [hrun] at hnotes hmoves
    have hcurrent : l.volume = s.volume := h.current s rfl
    have hannounced : es ⊆ c.seals l.volume := hcurrent ▸ hnotes.announced
    obtain ⟨hb, hk⟩ := hmoves.bootstrap
    have hextended := (h.extend hannounced (hrepeats c o rfl) hnotes.trace).resumes
      (hnotes.resumes hcurrent) (hb.trans (congrArg _ hcurrent.symm))
      (hk.trans (congrArg _ hcurrent.symm))
    refine ⟨hhosted, h.derived, fun t ht => ?_, ?_, ?_, hextended.formed, hextended.accounted,
      hextended.distinct⟩
    · rw [← World.live.inj ht]
      rfl
    · exact hb.trans (hcurrent ▸ h.bootstrap)
    · exact hk.trans (hcurrent ▸ h.volumeKeys)
  | @crashed s s' c fs file _ hfs hrun hcrash =>
    obtain ⟨-, -, es₀, hs⟩ := h.hosted
    have hscripted : Sees master (s.script fs) es₀ := hs
    obtain ⟨es, hnotes⟩ := c.notes hscripted (failingHost_hosts.not_mayDamage hfs s.file)
    rw [hrun] at hnotes
    have hcurrent : l.volume = s.volume := h.current s rfl
    have hannounced : es ⊆ c.seals l.volume := hcurrent ▸ hnotes.announced
    have hextended := h.extend hannounced (hrepeats c .crash rfl)
      ((Crashes.trace hcrash).trans hnotes.trace)
    exact ⟨hhosted, h.derived, fun t ht => absurd ht (by simp), h.bootstrap, h.volumeKeys,
      hextended.formed, hextended.accounted, hextended.distinct⟩
  | close => exact h.of_trace hhosted (by simp) rfl
  | @opened file file' v fs _ hfs hrun =>
    have hd := failingHost_hosts.not_mayDamage hfs file
    have htrace : file'.trace = file.trace := by
      have htrace := @openVolume_trace _ master _ hd
      rwa [hrun] at htrace
    obtain ⟨es, hopened, -, -⟩ := openVolume_sees hd hrun
    have hb : v.bootstrap = b := hhosted.2.1
    have hk : v.keys = keys := by
      have hkeys := hopened.keys
      rw [hb, h.derived] at hkeys
      exact (Except.ok.inj hkeys).symm
    have hrecord : Recorded.Extended b keys l file'.trace :=
      htrace ▸ ⟨h.formed, h.accounted, h.distinct⟩
    have hextended := hrecord.resumes (hresumes ⟨v, file'⟩ rfl rfl) (hb.trans h.bootstrap.symm)
      (hk.trans h.volumeKeys.symm)
    refine ⟨hhosted, h.derived, fun t ht => ?_, hb, hk, hextended.formed, hextended.accounted,
      hextended.distinct⟩
    rw [← World.live.inj ht]
    rfl
  | @openFailed file file' e fs _ hfs hrun =>
    have htrace := @openVolume_trace _ master _ (failingHost_hosts.not_mayDamage hfs file)
    rw [hrun] at htrace
    exact h.of_trace hhosted (by simp) htrace
  | @openCrashed file file' file'' fs _ hfs hrun hcrash =>
    have htrace := @openVolume_trace _ master _ (failingHost_hosts.not_mayDamage hfs file)
    rw [hrun] at htrace
    exact h.of_trace hhosted (by simp) ((Crashes.trace hcrash).trans htrace)
  | cutLive hcrash => exact h.of_trace hhosted (by simp) (Crashes.trace hcrash)
  | cutDown hcrash => exact h.of_trace hhosted (by simp) (Crashes.trace hcrash)

/-- The nonce of an encryption is derived from its domain and its two numbers. -/
theorem Formed.nonce_eq {keys : VolumeKeys} {b : Bootstrap} {x : Sealed} (h : Formed keys b x) :
    x.nonce = deriveNonce keys b x.domain x.first x.second := by
  cases h with
  | record _ => rfl
  | super _ _ => rfl

/-- The associated data of an encryption is that of its nonce and its message. -/
theorem Formed.aad_eq {keys : VolumeKeys} {b : Bootstrap} {x y : Sealed} (hx : Formed keys b x)
    (hy : Formed keys b y) (hinput : x.input = y.input) (hmessage : x.message = y.message) :
    x.aad = y.aad := by
  have hdomain : x.domain = y.domain := congrArg Prod.fst hinput
  have hfirst : x.first = y.first := congrArg (fun i => i.2.1) hinput
  have hsecond : x.second = y.second := congrArg (fun i => i.2.2) hinput
  cases hx with
  | @record header payload hlen =>
    cases hy with
    | @record header' payload' hlen' =>
      have hpayload : payload = payload' := hmessage
      have hplain : header.plaintextLen = header'.plaintextLen :=
        UInt32.toNat_inj.mp (by rw [hlen, hlen', hpayload])
      have hct : header.ciphertextLen = header'.ciphertextLen :=
        UInt32.toNat_inj.mp (by rw [header.ciphertextLen_eq, header'.ciphertextLen_eq, hplain])
      have hheader : header = header' := by
        cases header
        cases header'
        simp only at hfirst hsecond hplain hct
        simp only [dataSeal] at hfirst hsecond
        simp only [hfirst, hsecond, hplain, hct]
      rw [hheader]
      rfl
    | super slot state => exact absurd hdomain ascii_data_ne_super
  | super slot state =>
    cases hy with
    | record _ => exact absurd hdomain.symm ascii_data_ne_super
    | super slot' state' =>
      have hslot : slot = slot' := Slot.toUInt64_injective hfirst
      have hgeneration : state.generation = state'.generation := hsecond
      show superAad b slot state.generation = superAad b slot' state'.generation
      rw [hslot, hgeneration]

/-- A volume that has just been created, with nothing on its trace but its two superblocks. -/
theorem recorded_created [LawfulCrypto] {master : Bytes} {options : VolumeOptions}
    {volumeId salt : FixedBytes 32} {d d' : Device Sealed} {v : Volume} (hnew : d.trace = [])
    (hcreate : createVolume master options volumeId salt d = (.ok v, d')) :
    Recorded master v.bootstrap v.keys (.live ⟨v, d'⟩) ⟨v, [], none⟩ := by
  obtain ⟨hhosted, hs⟩ := hosted_of_created hcreate
  have hcreated := createVolume_ok hcreate
  have htrace : d'.trace = [superSeal v.keys v.bootstrap .a initialState,
      superSeal v.keys v.bootstrap .b backupState] := by
    rw [hcreated.trace, hnew, List.nil_append]
  refine ⟨hhosted, hs.keys, fun s hlive => ?_, rfl, rfl, fun x hx => ?_, fun x hx => Or.inl ?_,
    fun x hx y hy hinput => ?_⟩
  · rw [← World.live.inj hlive]
  · rw [World.file, htrace] at hx
    rcases List.mem_pair.mp hx with rfl | rfl
    · exact .super _ _
    · exact .super _ _
  · rw [World.file, htrace] at hx
    have hactive := Spent.active (v := v)
    rw [hcreated.active, hcreated.state] at hactive
    rcases List.mem_pair.mp hx with rfl | rfl
    · exact hactive
    · refine .older ?_
      rw [hcreated.state]
      decide
  · rw [World.file, htrace] at hx hy
    have hsecond : x.second = y.second := congrArg (fun i => i.2.2) hinput
    rcases List.mem_pair.mp hx with rfl | rfl <;> rcases List.mem_pair.mp hy with rfl | rfl
    · rfl
    · exact absurd hsecond (by show initialState.generation ≠ backupState.generation; decide)
    · exact absurd hsecond (by show backupState.generation ≠ initialState.generation; decide)
    · rfl

/-- **No nonce is used for two messages**, in any run of one volume in which a call that follows one
that has not succeeded repeats what that has offered, and an open finds the last state.  Two nonces
are made of the same bytes only when all that they are derived from is the same. -/
theorem nonces_not_reused [LawfulCrypto] {master : Bytes} {options : VolumeOptions}
    {volumeId salt : FixedBytes 32} {d d' : Device Sealed} {v : Volume} {events : List Event}
    {w : World} {l : Ledger} (hnew : d.trace = [])
    (hcreate : createVolume master options volumeId salt d = (.ok v, d'))
    (hrun : Run (Tracked master) (.live ⟨v, d'⟩, ⟨v, [], none⟩) events (w, l)) :
    ∀ x ∈ w.file.trace,
      x.nonce = deriveNonce v.keys v.bootstrap x.domain x.first x.second ∧
      ∀ y ∈ w.file.trace, nonceInput v.bootstrap x.domain x.first x.second =
          nonceInput v.bootstrap y.domain y.first y.second →
        x.message = y.message ∧ x.aad = y.aad := by
  have hend := Run.invariant (P := fun p => Recorded master v.bootstrap v.keys p.1 p.2) hrun
    (recorded_created hnew hcreate) fun p e q hp hstep => recorded_step hp hstep
  refine fun x hx => ⟨(hend.formed x hx).nonce_eq, fun y hy hbytes => ?_⟩
  obtain ⟨hdomain, hfirst, hsecond⟩ := nonceInput_injective hbytes
  have hinput : x.input = y.input := by rw [Sealed.input, Sealed.input, hdomain, hfirst, hsecond]
  have hmessage := hend.distinct x hx y hy hinput
  exact ⟨hmessage, (hend.formed x hx).aad_eq (hend.formed y hy) hinput hmessage⟩

end Crypto

/-! ## A batch that fails and is retried -/

def always : World → Command → Bool := fun _ _ => true

/-- The first batch fails in the header of its record. -/
def retried (payload : Bytes) : List Command :=
  [.call (.writeBlocks [(0, [1])]) [.none, .fail 0] true,
    .call (.writeBlocks [(0, payload)]) [] true]

def retriedEvents (payload : Bytes) : List Event :=
  [.call (.writeBlocks [(0, [1])]) (.error (.io .device)),
    .call (.writeBlocks [(0, payload)]) (.ok (.generations [1]))]

/-- Retried with another payload, it seals two messages under one nonce. -/
theorem retry_reuses_nonce :
    let _ := tableCrypto []
    ∃ s w, twoBlocks [7] = some s ∧ Run (Step failingHost [7]) (.live s) (retriedEvents [2]) w ∧
      ∃ x ∈ w.file.trace, ∃ y ∈ w.file.trace, x.input = y.input ∧ x.key = y.key ∧
        x.nonce = y.nonce ∧ x.message ≠ y.message := by
  let _ := tableCrypto []
  have hexec : ((twoBlocks [7]).bind fun s =>
      execute (Command.guarded [7] always) (retried [2]) (.live s)).map
      (fun r => (r.1, decide (∃ x ∈ r.2.file.trace, ∃ y ∈ r.2.file.trace, x.input = y.input ∧
        x.key = y.key ∧ x.nonce = y.nonce ∧ x.message ≠ y.message))) =
      some (retriedEvents [2], true) := by
    decide +kernel
  obtain ⟨⟨events, w⟩, hbind, hends⟩ := Option.map_eq_some_iff.mp hexec
  obtain ⟨rfl, hreuse⟩ := Prod.mk.inj hends
  obtain ⟨s, hs, hrun⟩ := Option.bind_eq_some_iff.mp hbind
  have hfaults : ∀ cmd ∈ retried [2], ∀ f ∈ cmd.faults, ∀ bs, f ≠ .damaged bs := by
    intro cmd hcmd f hf bs
    have hkinds : ∀ cmd ∈ retried [2], ∀ f ∈ cmd.faults, f ∈ [.none, .fail 0] := by decide
    rintro rfl
    exact absurd (hkinds cmd hcmd _ hf) (by simp)
  exact ⟨s, w, hs, execute_guarded hfaults crashes_cutFile (fun _ _ _ _ _ => trivial)
    (fun _ _ _ _ => trivial) hrun, of_decide_eq_true hreuse⟩

/-- The step may be tracked: its call repeats, the volume it opens resumes. -/
def isTracked (l : Ledger) : Event → World → Bool
  | .call c _, _ => decide (Repeats l c)
  | .reopen _, .live s => decide (Resumes l s.volume)
  | _, _ => true

/-- Execute a command where its step may be tracked, and keep the ledger. -/
def trackedExec [Crypto] (master : Bytes) (p : World × Ledger) (cmd : Command) :
    Option (Event × (World × Ledger)) :=
  (cmd.exec master p.1).bind fun r =>
    if isTracked p.2 r.1 r.2 then some (r.1, (r.2, p.2.after r.1 r.2)) else none

theorem trackedExec_step [Crypto] {master : Bytes} {cmd : Command} {p q : World × Ledger}
    {e : Event} (hfaults : ∀ f ∈ cmd.faults, ∀ bs, f ≠ .damaged bs)
    (h : trackedExec master p cmd = some (e, q)) : Tracked master p e q := by
  obtain ⟨w, l⟩ := p
  obtain ⟨⟨e', w'⟩, hexec, hr⟩ := Option.bind_eq_some_iff.mp h
  dsimp only at hexec hr
  by_cases htracked : isTracked l e' w' = true
  swap
  · rw [if_neg htracked] at hr
    exact absurd hr (by simp)
  rw [if_pos htracked] at hr
  obtain ⟨rfl, rfl⟩ := Prod.mk.inj (Option.some.inj hr)
  have hstep : Step failingHost master w e' w' := Command.exec_step hfaults crashes_cutFile
    (fun _ _ _ _ _ _ => trivial) (fun _ _ _ _ _ => trivial) hexec
  refine ⟨hstep, rfl, ?_, ?_⟩
  · rintro c o rfl
    exact of_decide_eq_true (p := Repeats l c) htracked
  · rintro s rfl rfl
    exact of_decide_eq_true (p := Resumes l s.volume) htracked

/-- Retried with the same payload it does not, whatever comes after. -/
theorem nonces_not_reused_retried :
    let _ := tableCrypto []
    ∃ s w, twoBlocks [7] = some s ∧
      (∃ l, Run (Tracked [7]) (.live s, ⟨s.volume, [], none⟩)
        (retriedEvents [1] ++ [.powerCut, .reopen (.ok ())]) (w, l)) ∧
      ∀ x ∈ w.file.trace, ∀ y ∈ w.file.trace,
        nonceInput s.volume.bootstrap x.domain x.first x.second =
            nonceInput s.volume.bootstrap y.domain y.first y.second →
          x.message = y.message ∧ x.aad = y.aad := by
  let _ := tableCrypto []
  have _ := tableCrypto_lawful []
  let cmds : List Command := retried [1] ++ [.cut false, .reopen [] true]
  have hexec : ((twoBlocks [7]).bind fun s =>
      execute (trackedExec [7]) cmds (.live s, ⟨s.volume, [], none⟩)).map Prod.fst =
      some (retriedEvents [1] ++ [.powerCut, .reopen (.ok ())]) := by
    decide +kernel
  obtain ⟨⟨_, ⟨w, l⟩⟩, hbind, rfl⟩ := Option.map_eq_some_iff.mp hexec
  obtain ⟨s, hs, hall⟩ := Option.bind_eq_some_iff.mp hbind
  have hfaults : ∀ cmd ∈ cmds, ∀ f ∈ cmd.faults, ∀ bs, f ≠ .damaged bs := by
    intro cmd hcmd f hf bs
    have hkinds : ∀ cmd ∈ cmds, ∀ f ∈ cmd.faults, f ∈ [.none, .fail 0] := by decide
    rintro rfl
    exact absurd (hkinds cmd hcmd _ hf) (by simp)
  have hrun : Run (Tracked [7]) (.live s, ⟨s.volume, [], none⟩) _ (w, l) :=
    execute_run (fun cmd hcmd _ _ _ h => trackedExec_step (hfaults cmd hcmd) h) hall
  have hreused := nonces_not_reused rfl (createSession_eq_some.mp hs) hrun
  exact ⟨s, w, hs, ⟨l, hrun⟩, fun x hx y hy => (hreused x hx).2 y hy⟩

end OrIsyVra.Volume
