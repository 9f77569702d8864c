import OrIsyVra.Library.KeyedLog
import OrIsyVra.Volume.Operations

/-!
# The block log of a volume image

What the log of a file image *is*, apart from the program that reads it.  `Scans img s es s'` says
that from the scan state `s` the image holds, end to end, the records `es`, each passing the scan's
checks, and that they lead to the scan state `s'`.  A scan is determined by where it ends
(`Scans.unique`), depends on the bytes it covers only (`Scans.congr`) and can be extended by another
one (`Scans.append`); the program's `scan_log` follows it (`Volume.Effects`).

`served es` is the map of blocks a log stores.  Every fact about the index of a scan is the
invariant `Indexes`: the index names, for each block, the last record of the log, the generations of
a block ascend, and the counter counts.
-/

namespace OrIsyVra.Volume

open ByteString MachineWord KeyedLog

/-- The blocks a volume serves: present ones with their payload. -/
abbrev BlockMap := UInt64 → Option Bytes

/-- A record of the log, where it starts. -/
structure Entry where
  offset : UInt64
  header : RecordHeader
  payload : Bytes

namespace Entry

def item (e : Entry) : Item UInt64 Bytes :=
  ⟨e.header.blockIndex, e.header.generation.toNat, e.payload⟩

def record (e : Entry) : RecordIndex :=
  ⟨e.offset, e.header.generation, e.header.plaintextLen, e.header.ciphertextLen⟩

end Entry

/-- The map a log stores. -/
def served (es : List Entry) : BlockMap := replay (es.map Entry.item)

/-! ## One step of the scan -/

/-- The scan state moves past one record. -/
structure Advances (s : ScanState) (header : RecordHeader) (s' : ScanState) : Prop where
  generation : checkGeneration s.index header = .ok ()
  index : s'.index = s.index.insert header.blockIndex
    ⟨s.offset, header.generation, header.plaintextLen, header.ciphertextLen⟩
  offset : s'.offset.toNat = s.offset.toNat + header.recordLen
  count : s'.count = saturatingAdd s.count 1

theorem Advances.unique {s s' s'' : ScanState} {header : RecordHeader} (h : Advances s header s')
    (h' : Advances s header s'') : s' = s'' := by
  rcases s' with ⟨index, offset, count⟩
  rcases s'' with ⟨index', offset', count'⟩
  obtain ⟨-, hi, ho, hc⟩ := h
  obtain ⟨-, hi', ho', hc'⟩ := h'
  have hoffset : offset = offset' := UInt64.toNat_inj.mp (ho.trans ho'.symm)
  simp only at hi hi' hc hc'
  rw [hi, hi', hc, hc', hoffset]

theorem Advances.offset_lt {s s' : ScanState} {header : RecordHeader} (h : Advances s header s') :
    s.offset.toNat < s'.offset.toNat := by
  have := header.recordLen_pos
  have := h.offset
  omega

theorem checkedAdd_recordLen (header : RecordHeader) :
    ∃ n : UInt64, n.toNat = header.recordLen ∧
      checkedAdd (UInt64.ofNat recordHeaderSize) header.ciphertextLen.toUInt64 = some n := by
  have hlt := header.ciphertextLen.toNat_lt
  have hsize : (UInt64.ofNat recordHeaderSize).toNat = recordHeaderSize := rfl
  have h64 : header.recordLen < UInt64.size := by
    rw [RecordHeader.recordLen]
    exact lt_of_lt_of_le (Nat.add_lt_add_left hlt _) (by decide)
  refine ⟨UInt64.ofNat header.recordLen, UInt64.toNat_ofNat_of_lt' h64, ?_⟩
  rw [checkedAdd_eq_some, UInt64.toNat_ofNat_of_lt' h64, hsize, UInt32.toNat_toUInt64]
  rfl

/-- **A scan step succeeds exactly when the state advances within the committed end.** -/
theorem scanStep_eq_ok {committedEnd : UInt64} {s s' : ScanState} {header : RecordHeader} :
    scanStep committedEnd s header = .ok s' ↔
      Advances s header s' ∧ s'.offset.toNat ≤ committedEnd.toNat := by
  obtain ⟨n, hn, hlen⟩ := checkedAdd_recordLen header
  unfold scanStep
  cases hgeneration : checkGeneration s.index header with
  | error e =>
    constructor
    · intro h
      exact absurd h (by simp [bind, Except.bind])
    · rintro ⟨h, -⟩
      rw [h.generation] at hgeneration
      exact absurd hgeneration (by simp)
  | ok _ =>
    simp only [bind, Except.bind, hlen]
    cases hnext : checkedAdd s.offset n with
    | none =>
      rw [checkedAdd_eq_none] at hnext
      constructor
      · intro h
        exact absurd h (by simp)
      · rintro ⟨h, -⟩
        have ho := h.offset
        have hlt := s'.offset.toNat_lt
        omega
    | some next =>
      rw [checkedAdd_eq_some] at hnext
      by_cases hend : next > committedEnd
      · simp only [if_pos hend]
        constructor
        · intro h
          exact absurd h (by simp)
        · rintro ⟨h, hle⟩
          have ho := h.offset
          have hgt : committedEnd.toNat < next.toNat := UInt64.lt_iff_toNat_lt.mp hend
          omega
      · simp only [if_neg hend, Except.ok.injEq]
        have hle : next.toNat ≤ committedEnd.toNat :=
          UInt64.le_iff_toNat_le.mp (UInt64.not_lt.mp hend)
        constructor
        · rintro rfl
          exact ⟨⟨hgeneration, rfl, by rw [hnext, hn], rfl⟩, hle⟩
        · rintro ⟨h, -⟩
          exact Advances.unique ⟨hgeneration, rfl, by rw [hnext, hn], rfl⟩ h

/-! ## What the index of a scan says -/

/-- The scan state summarises the log before it. -/
structure Indexes (es : List Entry) (s : ScanState) : Prop where
  lookup : ∀ k r, s.index.lookup k = some r →
    ∃ e ∈ es, e.header.blockIndex = k ∧ e.record = r ∧ served es k = some e.payload ∧
      ∀ e' ∈ es, e'.header.blockIndex = k → e'.header.generation.toNat ≤ r.generation.toNat
  lookup_none : ∀ k, s.index.lookup k = none → ∀ e ∈ es, e.header.blockIndex ≠ k
  ascending : Ascending (es.map Entry.item)
  positive : ∀ e ∈ es, 0 < e.header.generation.toNat
  count : s.count.toNat = es.length
  room : logStart.toNat + recordHeaderSize * es.length ≤ s.offset.toNat

namespace Indexes

variable {s s' : ScanState} {es : List Entry}

theorem start : Indexes [] .start where
  lookup k r h := absurd h (by simp [ScanState.start])
  lookup_none k _ e he := absurd he List.not_mem_nil
  ascending := List.Pairwise.nil
  positive e he := absurd he List.not_mem_nil
  count := rfl
  room := le_rfl

theorem served_eq_none (h : Indexes es s) {k : UInt64} (hk : s.index.lookup k = none) :
    served es k = none := by
  refine replay_eq_none.mpr fun x hx => ?_
  obtain ⟨e, he, rfl⟩ := List.mem_map.mp hx
  exact h.lookup_none k hk e he

/-- What the generation checks of the scan mean for a log that its index summarises. -/
theorem generation_lt (h : Indexes es s) {header : RecordHeader}
    (hcheck : checkGeneration s.index header = .ok ()) {e : Entry} (he : e ∈ es)
    (hk : e.header.blockIndex = header.blockIndex) :
    e.header.generation.toNat < header.generation.toNat := by
  unfold checkGeneration at hcheck
  cases hlookup : s.index.lookup header.blockIndex with
  | none => exact absurd hk (h.lookup_none _ hlookup e he)
  | some r =>
    rw [hlookup] at hcheck
    simp only at hcheck
    split at hcheck
    · exact absurd hcheck (by simp)
    next hgt =>
    obtain ⟨-, -, -, -, -, hmax⟩ := h.lookup _ r hlookup
    have hle := hmax e he hk
    have hlt : r.generation.toNat < header.generation.toNat :=
      UInt64.lt_iff_toNat_lt.mp (UInt64.not_le.mp hgt)
    omega

theorem generation_pos (h : Indexes es s) {header : RecordHeader}
    (hcheck : checkGeneration s.index header = .ok ()) : 0 < header.generation.toNat := by
  cases hlookup : s.index.lookup header.blockIndex with
  | none =>
    unfold checkGeneration at hcheck
    rw [hlookup] at hcheck
    simp only at hcheck
    split at hcheck
    · exact absurd hcheck (by simp)
    next hne =>
    exact Nat.pos_of_ne_zero fun hzero => hne (UInt64.toNat_inj.mp hzero)
  | some r =>
    obtain ⟨e, he, hk, -, -, -⟩ := h.lookup _ r hlookup
    exact lt_of_le_of_lt (Nat.zero_le _) (h.generation_lt hcheck he hk)

/-- **One record keeps the summary right.** -/
theorem step (h : Indexes es s) {header : RecordHeader} {payload : Bytes}
    (hadv : Advances s header s') : Indexes (es ++ [⟨s.offset, header, payload⟩]) s' := by
  have hserved : served (es ++ [⟨s.offset, header, payload⟩]) =
      Function.update (served es) header.blockIndex (some payload) := by
    rw [served, List.map_append]
    exact replay_concat _ _
  have hlt := s'.offset.toNat_lt
  have hoff := hadv.offset
  have hroom := h.room
  have hrecord : recordHeaderSize ≤ header.recordLen := Nat.le_add_right _ _
  refine ⟨fun k r hk => ?_, fun k hk e he => ?_, ?_, fun e he => ?_, ?_, ?_⟩
  · rw [hadv.index] at hk
    by_cases hkey : k = header.blockIndex
    · subst hkey
      rw [Finmap.lookup_insert, Option.some.injEq] at hk
      subst hk
      refine ⟨_, List.mem_append_right _ List.mem_cons_self, rfl, rfl, ?_, fun e he hke => ?_⟩
      · rw [hserved, Function.update_self]
      · rcases List.mem_append.mp he with hm | hm
        · exact (h.generation_lt hadv.generation hm hke).le
        · rw [List.mem_singleton.mp hm]
    · rw [Finmap.lookup_insert_of_ne _ hkey] at hk
      obtain ⟨e, he, hb, hr, hs, hmax⟩ := h.lookup k r hk
      refine ⟨e, List.mem_append_left _ he, hb, hr, ?_, fun e' he' hke => ?_⟩
      · rw [hserved, Function.update_of_ne hkey, hs]
      · rcases List.mem_append.mp he' with hm | hm
        · exact hmax e' hm hke
        · rw [List.mem_singleton.mp hm] at hke
          exact absurd hke.symm hkey
  · rw [hadv.index] at hk
    by_cases hkey : k = header.blockIndex
    · rw [hkey, Finmap.lookup_insert] at hk
      exact absurd hk (by simp)
    · rw [Finmap.lookup_insert_of_ne _ hkey] at hk
      rcases List.mem_append.mp he with hm | hm
      · exact h.lookup_none k hk e hm
      · rw [List.mem_singleton.mp hm]
        exact Ne.symm hkey
  · rw [List.map_append, List.map_cons, List.map_nil, ascending_concat]
    refine ⟨h.ascending, fun x hx hkey => ?_⟩
    obtain ⟨e, he, rfl⟩ := List.mem_map.mp hx
    exact h.generation_lt hadv.generation he hkey
  · rcases List.mem_append.mp he with hm | hm
    · exact h.positive e hm
    · rw [List.mem_singleton.mp hm]
      exact h.generation_pos hadv.generation
  · have hcount := h.count
    simp only [recordHeaderSize] at hroom
    rw [hadv.count, toNat_saturatingAdd_one (by omega), List.length_append, List.length_singleton,
      hcount]
  · rw [List.length_append, List.length_singleton]
    simp only [recordHeaderSize] at hroom hrecord ⊢
    omega

end Indexes

/-! ## Scans -/

variable [Crypto] {keys : VolumeKeys} {b : Bootstrap} {img img' : Bytes}

/-- From the state `s` the image holds the records `es` end to end, and they lead to `s'`. -/
inductive Scans (keys : VolumeKeys) (b : Bootstrap) (img : Bytes) :
    ScanState → List Entry → ScanState → Prop where
  | done (s : ScanState) : Scans keys b img s [] s
  | record {s s' s'' : ScanState} {header : RecordHeader} {payload : Bytes} {es : List Entry} :
      RecordAt keys b img s.offset.toNat header payload → Advances s header s' →
      Scans keys b img s' es s'' → Scans keys b img s (⟨s.offset, header, payload⟩ :: es) s''

namespace Scans

variable {s s' s'' : ScanState} {es es' : List Entry}

theorem offset_le (h : Scans keys b img s es s') : s.offset.toNat ≤ s'.offset.toNat := by
  induction h with
  | done s => exact le_rfl
  | record _ hadv _ ih => exact hadv.offset_lt.le.trans ih

theorem append (h : Scans keys b img s es s') (h' : Scans keys b img s' es' s'') :
    Scans keys b img s (es ++ es') s'' := by
  induction h with
  | done s => exact h'
  | record hrec hadv _ ih => exact .record hrec hadv (ih h')

/-- **A scan is determined by where it starts and ends.** -/
theorem unique (h : Scans keys b img s es s') (h' : Scans keys b img s es' s'')
    (hoff : s'.offset = s''.offset) : es = es' ∧ s' = s'' := by
  induction h generalizing es' with
  | done s =>
    cases h' with
    | done _ => exact ⟨rfl, rfl⟩
    | record _ hadv hrest =>
      have hlt := hadv.offset_lt
      have hle := hrest.offset_le
      rw [hoff] at hlt
      omega
  | record hrec hadv hrest ih =>
    cases h' with
    | done _ =>
      have hlt := hadv.offset_lt
      have hle := hrest.offset_le
      rw [← hoff] at hlt
      omega
    | record hrec' hadv' hrest' =>
      have hsame := (parseRecord_eq_ok.mpr hrec).symm.trans (parseRecord_eq_ok.mpr hrec')
      simp only [Except.ok.injEq, Prod.mk.injEq] at hsame
      obtain ⟨rfl, rfl⟩ := hsame
      obtain rfl := hadv.unique hadv'
      obtain ⟨rfl, rfl⟩ := ih hrest' hoff
      exact ⟨rfl, rfl⟩

/-- Every record of a scan is in the image, between the ends of the scan. -/
theorem mem (h : Scans keys b img s es s') {e : Entry} (he : e ∈ es) :
    RecordAt keys b img e.offset.toNat e.header e.payload ∧ s.offset.toNat ≤ e.offset.toNat ∧
      e.offset.toNat + e.header.recordLen ≤ s'.offset.toNat := by
  induction h with
  | done s => exact absurd he List.not_mem_nil
  | record hrec hadv hrest ih =>
    have hle := hrest.offset_le
    have hoff := hadv.offset
    rcases List.mem_cons.mp he with rfl | hmem
    · exact ⟨hrec, le_rfl, hoff ▸ hle⟩
    · obtain ⟨hr, hlo, hhi⟩ := ih hmem
      exact ⟨hr, hadv.offset_lt.le.trans hlo, hhi⟩

/-- A scan depends on the bytes it covers only. -/
theorem congr (h : Scans keys b img s es s') {lo n : ℕ} (hs : slice img' lo n = slice img lo n)
    (hlen : lo + n ≤ img'.length) (hlo : lo ≤ s.offset.toNat) (hhi : s'.offset.toNat ≤ lo + n) :
    Scans keys b img' s es s' := by
  induction h with
  | done s => exact .done s
  | record hrec hadv hrest ih =>
    have hle := hrest.offset_le
    have hoff := hadv.offset
    have hlt := hadv.offset_lt
    refine .record (hrec.congr ?_ ?_) hadv (ih ?_ hhi)
    · exact slice_eq_of_slice_eq hs hlo (by omega)
    · omega
    · omega

end Scans

/-- A whole scan summarises its records. -/
theorem Scans.indexes_of {s s' : ScanState} {es₀ es : List Entry} (h : Scans keys b img s es s')
    (h₀ : Indexes es₀ s) : Indexes (es₀ ++ es) s' := by
  induction h generalizing es₀ with
  | done s => rwa [List.append_nil]
  | @record s s' s'' header payload es _ hadv _ ih =>
    have hone : Indexes (es₀ ++ [⟨s.offset, header, payload⟩]) s' := h₀.step hadv
    have hstep := ih hone
    rwa [List.append_assoc] at hstep

theorem Scans.indexes {s : ScanState} {es : List Entry} (h : Scans keys b img .start es s) :
    Indexes es s := h.indexes_of Indexes.start

end OrIsyVra.Volume
