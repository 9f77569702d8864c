import OrIsyVra.Volume.CleanFlag

/-!
# Which logs scan, and which superblock is opened

The grammar of a block log, stated without the scan: records end to end from the log start to the
committed end (`Tiles`), as many as the superblock counts, the generations of a block ascending from
a nonzero one (`IsLog`).  `scan_log` decides it and returns the last record of each block
(`scanLog_ok_iff`); its loop takes a bounded number of passes, for every record moves it on
(`scanLoop_fuel`).

`open` then picks, of the superblocks that authenticate and fit the file and describe such a log,
one of the greatest generation, and cuts the file off behind it.  What is cut off belongs to no
usable superblock that comes before, so the next open finds the same volume (`open_selects`).
-/

namespace OrIsyVra.Volume

open ByteString MachineWord DurableFile FaultProgram KeyedLog

/-! ## The grammar -/

/-- What an index has for a block: the last of its records. -/
def lastRecord (es : List Entry) (k : UInt64) : Option RecordIndex :=
  (es.reverse.find? fun e => e.header.blockIndex = k).map Entry.record

theorem lastRecord_concat (es : List Entry) (e : Entry) (k : UInt64) :
    lastRecord (es ++ [e]) k = if e.header.blockIndex =
      k then some e.record else lastRecord es k := by
  unfold lastRecord
  rw [List.reverse_append, List.reverse_singleton, List.singleton_append, List.find?_cons]
  by_cases hk : e.header.blockIndex = k
  · rw [if_pos hk, decide_eq_true hk]
    rfl
  · rw [if_neg hk, decide_eq_false hk]

section Crypto

variable [Crypto] {keys : VolumeKeys} {b : Bootstrap} {img : Bytes}

/-- Records that authenticate and are in range, end to end from one offset to another. -/
inductive Tiles (keys : VolumeKeys) (b : Bootstrap) (img : Bytes) : ℕ → List Entry → ℕ → Prop where
  | done (n : ℕ) : Tiles keys b img n [] n
  | record {e : Entry} {es : List Entry} {stop : ℕ} :
      RecordAt keys b img e.offset.toNat e.header e.payload →
      Tiles keys b img (e.offset.toNat + e.header.recordLen) es stop →
      Tiles keys b img e.offset.toNat (e :: es) stop

/-- The log a superblock describes. -/
structure IsLog (keys : VolumeKeys) (b : Bootstrap) (img : Bytes) (state : SuperState)
    (es : List Entry) : Prop where
  tiles : Tiles keys b img logStart.toNat es state.committedEnd.toNat
  count : es.length = state.recordCount.toNat
  nonzero : ∀ e ∈ es, e.header.generation ≠ 0
  ascending : es.Pairwise fun e e' =>
    e.header.blockIndex = e'.header.blockIndex → e.header.generation < e'.header.generation

theorem Tiles.le {n stop : ℕ} {es : List Entry} (h : Tiles keys b img n es stop) : n ≤ stop := by
  induction h with
  | done n => exact le_rfl
  | record _ _ ih => omega

theorem Scans.tiles {s s' : ScanState} {es : List Entry} (h : Scans keys b img s es s') :
    Tiles keys b img s.offset.toNat es s'.offset.toNat := by
  induction h with
  | done s => exact .done _
  | @record s s' s'' header payload es hrec hadv _ ih =>
    rw [hadv.offset] at ih
    exact .record (e := ⟨s.offset, header, payload⟩) hrec ih

/-- **The index holds the last record of each block.** -/
theorem Scans.lookup {s s' : ScanState} {es₀ es : List Entry} (h : Scans keys b img s es s')
    (h₀ : ∀ k, s.index.lookup k = lastRecord es₀ k) (k : UInt64) :
    s'.index.lookup k = lastRecord (es₀ ++ es) k := by
  induction h generalizing es₀ with
  | done s => rw [List.append_nil, h₀]
  | @record s s' s'' header payload es _ hadv _ ih =>
    have hstep : ∀ k, s'.index.lookup k = lastRecord (es₀ ++ [⟨s.offset, header, payload⟩]) k := by
      intro k
      rw [hadv.index, lastRecord_concat]
      by_cases hk : header.blockIndex = k
      · rw [if_pos hk, ← hk, Finmap.lookup_insert]
        rfl
      · rw [if_neg hk, Finmap.lookup_insert_of_ne _ (Ne.symm hk), h₀]
    rw [ih hstep, List.append_assoc, List.singleton_append]

/-- The index of a scan from the start. -/
theorem Scans.lookup_start {s : ScanState} {es : List Entry} (h : Scans keys b img .start es s)
    (k : UInt64) : s.index.lookup k = lastRecord es k := by
  have hempty : ∀ k, ScanState.start.index.lookup k = lastRecord [] k :=
    fun k => Finmap.lookup_empty k
  rw [h.lookup hempty, List.nil_append]

omit [Crypto] in
/-- A record whose generation comes after those of its block passes the checks of the scan. -/
theorem Indexes.checks {es : List Entry} {s : ScanState} (h : Indexes es s) {header : RecordHeader}
    (hnonzero : header.generation ≠ 0)
    (hafter : ∀ e ∈ es, e.header.blockIndex = header.blockIndex →
      e.header.generation < header.generation) : checkGeneration s.index header = .ok () := by
  unfold checkGeneration
  cases hlookup : s.index.lookup header.blockIndex with
  | none => exact if_neg hnonzero
  | some previous =>
    obtain ⟨e, he, hblock, rfl, -, -⟩ := h.lookup _ _ hlookup
    exact if_neg (UInt64.not_le.mpr (hafter e he hblock))

/-- **Well-formed records scan**, after any records before them. -/
theorem Tiles.scans {n stop : ℕ} {es₀ es : List Entry} {s : ScanState}
    (h : Tiles keys b img n es stop) (hn : s.offset.toNat = n) (hstop : stop < UInt64.size)
    (hs : Indexes es₀ s) (hnonzero : ∀ e ∈ es, e.header.generation ≠ 0)
    (hascending : (es₀ ++ es).Pairwise fun e e' =>
      e.header.blockIndex = e'.header.blockIndex → e.header.generation < e'.header.generation) :
    ∃ s', Scans keys b img s es s' ∧ s'.offset.toNat = stop := by
  induction h generalizing es₀ s with
  | done n => exact ⟨s, .done s, hn⟩
  | @record e es stop hrec htiles ih =>
    have hle := htiles.le
    rcases e with ⟨offset, header, payload⟩
    dsimp only at hle hn
    obtain rfl : offset = s.offset := UInt64.toNat_inj.mp hn.symm
    have hnext : (UInt64.ofNat (s.offset.toNat + header.recordLen)).toNat =
        s.offset.toNat + header.recordLen := UInt64.toNat_ofNat_of_lt' (by omega)
    have hafter : ∀ e' ∈ es₀, e'.header.blockIndex = header.blockIndex →
        e'.header.generation < header.generation := fun e' he' =>
      (List.pairwise_append.mp hascending).2.2 e' he' _ List.mem_cons_self
    have hadv : Advances s header ⟨s.index.insert header.blockIndex
          ⟨s.offset, header.generation, header.plaintextLen, header.ciphertextLen⟩,
        UInt64.ofNat (s.offset.toNat + header.recordLen), saturatingAdd s.count 1⟩ :=
      ⟨hs.checks (hnonzero _ List.mem_cons_self) hafter, rfl, hnext, rfl⟩
    rw [← List.singleton_append, ← List.append_assoc] at hascending
    obtain ⟨s', hscan, hend⟩ := ih hnext hstop (hs.step hadv)
      (fun e' he' => hnonzero e' (List.mem_cons_of_mem _ he')) hascending
    exact ⟨s', .record hrec hadv hscan, hend⟩

theorem IsLog.holds {state : SuperState} {es : List Entry} (h : IsLog keys b img state es) :
    ∃ index, LogHolds keys b img state es index := by
  obtain ⟨s, hscan, hend⟩ := h.tiles.scans (s := .start) rfl state.committedEnd.toNat_lt
    Indexes.start h.nonzero h.ascending
  have hoffset : s.offset = state.committedEnd := UInt64.toNat_inj.mp hend
  have hcount : s.count = state.recordCount :=
    UInt64.toNat_inj.mp ((Scans.indexes hscan).count.trans h.count)
  refine ⟨s.index, ?_⟩
  rw [LogHolds, ← hoffset, ← hcount]
  exact hscan

/-- **The scanned logs are the well-formed ones**, and their index holds the last record of each
block. -/
theorem logHolds_iff {state : SuperState} {es : List Entry} {index : Index} :
    LogHolds keys b img state es index ↔
      IsLog keys b img state es ∧ ∀ k, index.lookup k = lastRecord es k := by
  constructor
  · intro h
    have hindexes := Scans.indexes h
    refine ⟨⟨h.tiles, hindexes.count.symm, fun e he hzero => ?_, ?_⟩, fun k => ?_⟩
    · have hpositive := hindexes.positive e he
      rw [hzero] at hpositive
      exact absurd hpositive (by decide)
    · refine (List.pairwise_map.mp hindexes.ascending).imp fun hlt hblock => ?_
      exact UInt64.lt_iff_toNat_lt.mpr (hlt hblock)
    · exact Scans.lookup_start h k
  · rintro ⟨hlog, hlookup⟩
    obtain ⟨index', hholds⟩ := hlog.holds
    have hindex : index' = index := Finmap.ext_lookup fun k => by
      rw [hlookup, Scans.lookup_start hholds k]
    rw [← hindex]
    exact hholds

/-! ## The scan decides the grammar -/

omit [Crypto] in
/-- Every record moves the scan on. -/
theorem scanStep_offset_lt {committedEnd : UInt64} {s s' : ScanState} {header : RecordHeader}
    (h : scanStep committedEnd s header = .ok s') : s.offset.toNat < s'.offset.toNat :=
  (scanStep_eq_ok.mp h).1.offset_lt

/-- More fuel than a unit for each byte still to come changes nothing. -/
theorem scanLoop_fuel (committedEnd : UInt64) {fuel fuel' : ℕ} {s : ScanState}
    (h : committedEnd.toNat - s.offset.toNat ≤ fuel)
    (h' : committedEnd.toNat - s.offset.toNat ≤ fuel') :
    scanLoop keys b committedEnd fuel s = scanLoop keys b committedEnd fuel' s := by
  have hstop : ∀ fuel s, committedEnd.toNat - s.offset.toNat = 0 →
      scanLoop keys b committedEnd fuel s = pure s := by
    intro fuel s hzero
    have hle : ¬s.offset < committedEnd := by
      rw [UInt64.lt_iff_toNat_lt]
      omega
    cases fuel with
    | zero => rfl
    | succ fuel => rw [scanLoop, if_neg hle]
  induction fuel generalizing fuel' s with
  | zero => rw [hstop 0 s (Nat.le_zero.mp h), hstop fuel' s (Nat.le_zero.mp h)]
  | succ fuel ih =>
    cases fuel' with
    | zero => rw [hstop _ s (Nat.le_zero.mp h'), hstop 0 s (Nat.le_zero.mp h')]
    | succ fuel' =>
      rw [scanLoop, scanLoop]
      congr 2
      funext r
      rcases r with ⟨header, payload⟩
      show (Prog.ofExcept (scanStep committedEnd s header) >>= scanLoop keys b committedEnd fuel) =
        Prog.ofExcept (scanStep committedEnd s header) >>= scanLoop keys b committedEnd fuel'
      cases hstep : scanStep committedEnd s header with
      | error e => rfl
      | ok s' =>
        have hlt := scanStep_offset_lt hstep
        show scanLoop keys b committedEnd fuel s' = scanLoop keys b committedEnd fuel' s'
        exact ih (by omega) (by omega)

/-- Records lie in the image. -/
theorem Tiles.le_length {n stop : ℕ} {es : List Entry} (h : Tiles keys b img n es stop) :
    stop ≤ max n img.length := by
  induction h with
  | done n => exact le_max_left _ _
  | record hrec _ ih =>
    have hfits := hrec.fits
    omega

/-- What the scan returns when nothing fails. -/
theorem scanLog_outcome {d : Device Sealed} (state : SuperState) (hfaults : d.faults = [])
    (hlen : d.disk.view.length < maxOffset) :
    (∃ es index, (scanLog keys b state d).1 = .ok index ∧
      LogHolds keys b d.disk.view state es index) ∨
      (∃ e, (scanLog keys b state d).1 = .error e) ∧
        ∀ es index, ¬LogHolds keys b d.disk.view state es index := by
  have hnone : ∀ f : Fault, f ∉ d.faults := fun f => hfaults ▸ List.not_mem_nil
  have hend : ∀ es index, LogHolds keys b d.disk.view state es index →
      state.committedEnd.toNat < maxOffset := by
    intro es index hlog
    refine lt_of_le_of_lt (Scans.tiles hlog).le_length (max_lt ?_ hlen)
    decide
  refine wp_outcome (R := fun o _ =>
    (∃ es index, o = .ok index ∧ LogHolds keys b d.disk.view state es index) ∨
      (∃ e, o = .error e) ∧ ∀ es index, ¬LogHolds keys b d.disk.view state es index) ?_
  refine wp_scanLog (fun ⟨_, h⟩ => hnone _ h)
    (fun _ es index _ hlog => Or.inl ⟨es, index, rfl, hlog⟩)
    (fun _ e _ he => Or.inr ⟨⟨e, rfl⟩, ?_⟩) fun _ _ hcrash => ?_
  · rcases he with ⟨_, hfail⟩ | hlarge | hnolog
    · exact absurd hfail (hnone _)
    · exact fun es index hlog => absurd (hend es index hlog) (not_lt.mpr hlarge)
    · exact hnolog
  · rcases hcrash with ⟨_, h⟩ | h <;> exact absurd h (hnone _)

/-- **`scan_log` decides the grammar**, and returns the last record of each block. -/
theorem scanLog_ok_iff {d : Device Sealed} {state : SuperState} {index : Index}
    (hfaults : d.faults = []) (hlen : d.disk.view.length < maxOffset) :
    (scanLog keys b state d).1 = .ok index ↔
      ∃ es, IsLog keys b d.disk.view state es ∧ ∀ k, index.lookup k = lastRecord es k := by
  simp only [← logHolds_iff]
  have houtcome :
      (∃ es index, (scanLog keys b state d).1 = .ok index ∧
        LogHolds keys b d.disk.view state es index) ∨
      (∃ e, (scanLog keys b state d).1 = .error e) ∧
        ∀ es index, ¬LogHolds keys b d.disk.view state es index :=
          scanLog_outcome state hfaults hlen
  rcases houtcome with
    ⟨es, index', hok, hlog⟩ | ⟨⟨e, herror⟩, hnone⟩
  · rw [hok]
    constructor
    · intro h
      obtain rfl := Outcome.ok.inj h
      exact ⟨es, hlog⟩
    · rintro ⟨es', hlog'⟩
      obtain ⟨-, hsame⟩ := Scans.unique hlog hlog' rfl
      have hindex : index' = index := congrArg ScanState.index hsame
      rw [hindex]
  · rw [herror]
    constructor
    · intro h
      exact absurd h (by simp)
    · rintro ⟨es, hlog⟩
      exact absurd hlog (hnone es index)

/-! ## Selection -/

/-- The slot has a superblock that authenticates, ends in the file and describes a log. -/
def Usable (master : Bytes) (b : Bootstrap) (img : Bytes) (slot : Slot)
    (state : SuperState) : Prop :=
  ∃ keys es, deriveKeys master b = .ok keys ∧ SlotHolds keys b img slot state ∧
    state.committedEnd.toNat ≤ img.length ∧ IsLog keys b img state es

variable {master : Bytes}

/-- The volumes an image holds are its usable superblocks. -/
theorem Opened.usable {v : Volume} {es : List Entry} (h : Opened master img v es) :
    Usable master v.bootstrap img v.activeSuper v.state :=
  ⟨v.keys, es, h.keys, h.slot, h.fits, (logHolds_iff.mp h.log).1⟩

theorem Usable.opened {slot : Slot} {state : SuperState} (h : Usable master b img slot state)
    (hfits : bootstrapSize ≤ img.length)
    (hb : Bootstrap.decode (slice img 0 bootstrapSize) = .ok b) :
    ∃ v es, Opened master img v es ∧ v.activeSuper = slot ∧ v.state = state := by
  obtain ⟨keys, es, hkeys, hslot, hend, hlog⟩ := h
  obtain ⟨index, hholds⟩ := hlog.holds
  exact ⟨⟨b, keys, state, slot, index⟩, es, ⟨hfits, hb, hkeys, hslot, hend, hholds⟩, rfl, rfl⟩

/-- **What is read of a block in the index**, when nothing fails. -/
theorem Opened.readBlock_ok {file : Device Sealed} {v : Volume} {es : List Entry}
    (h : Opened master file.disk.view v es) (hfaults : file.faults = [])
    (hlen : file.disk.view.length < maxOffset) {k : UInt64} {record : RecordIndex}
    (hk : v.index.lookup k = some record) :
    ∃ payload, (readBlock k ⟨v, file⟩).1 = .ok (some payload) := by
  have hindexes := Scans.indexes h.log
  have hends : ∀ e ∈ es, e.offset.toNat < maxOffset := by
    intro e he
    have hend := (Scans.mem h.log he).2.2
    exact lt_of_le_of_lt (Nat.le_of_add_right_le hend) (h.limit hlen)
  obtain ⟨e, -, -, -, hserved, -⟩ := hindexes.lookup k record hk
  have hrange : k < v.bootstrap.blockCount := by
    by_contra hout
    rw [h.served_none hout] at hserved
    exact absurd hserved (by simp)
  refine ⟨e.payload, ?_⟩
  rw [readBlock_quiet (s := ⟨v, file⟩) k hfaults h.log, readAnswer_of_limit k hindexes hends,
    if_pos hrange, hserved]

/-- What an open leaves behind when nothing fails: the file, ending where the log does. -/
theorem openVolume_leaves {d file : Device Sealed} {v : Volume} (hfaults : d.faults = [])
    (hopen : openVolume master d = (.ok v, file)) :
    file.faults = [] ∧ file.present = d.present ∧
      file.disk.view.length = v.state.committedEnd.toNat ∧
      (file.disk.view = d.disk.view ∨
        file.disk.view = resize d.disk.view v.state.committedEnd.toNat) := by
  have heffect := openVolume_effect master d (fun ⟨_, h⟩ => absurd (hfaults ▸ h) List.not_mem_nil)
  rw [hopen] at heffect
  cases heffect with
  | failed hok _ _ _ => exact absurd rfl (hok v)
  | cut hok _ _ _ _ _ => exact absurd rfl (hok v)
  | opened hopened _ hfile =>
    have hend := hopened.fits
    have hnone : ∀ {k : Disk}, file.Follows d k → file.faults = [] := fun h =>
      List.subset_nil.mp (hfaults ▸ h.faults)
    rcases hfile with ⟨hfile, hlong⟩ | ⟨hfile, -⟩
    · refine ⟨hnone hfile, hfile.present, ?_, Or.inl ?_⟩
      · rw [hfile.disk]
        omega
      · rw [hfile.disk]
    · have hview : file.disk.view = resize d.disk.view v.state.committedEnd.toNat := by
        rw [hfile.disk, Disk.view_sync, Disk.view_push]
        rfl
      exact ⟨hnone hfile, hfile.present, by rw [hview, length_resize], Or.inr hview⟩

/-- **Opening again** finds the same volume, and leaves the file alone. -/
theorem openVolume_again {d file : Device Sealed} {v : Volume} (hfaults : d.faults = [])
    (hpresent : d.present = true) (hlen : d.disk.view.length < maxOffset)
    (hopen : openVolume master d = (.ok v, file)) :
    ∃ file', openVolume master file = (.ok v, file') ∧ file'.disk.view = file.disk.view := by
  obtain ⟨hnone, hfile, hend, hview⟩ := openVolume_leaves hfaults hopen
  obtain ⟨⟨es, hopened⟩, hforemost⟩ := (openVolume_ok_iff hfaults hpresent hlen).mp ⟨file, hopen⟩
  obtain ⟨es', -, hsees, -⟩ :=
    openVolume_sees (fun ⟨_, h⟩ => absurd (hfaults ▸ h) List.not_mem_nil) hopen
  have hlen' : file.disk.view.length < maxOffset := by
    rw [hend]
    exact hopened.limit hlen
  have hforemost' : Foremost master file.disk.view v := by
    intro v' es' hopened' hlimit'
    rcases hview with hsame | hcut
    · rw [hsame] at hopened'
      exact hforemost v' es' hopened' hlimit'
    · rw [hcut] at hopened'
      exact hforemost v' es' (hopened'.of_resize hopened.fits) hlimit'
  obtain ⟨file', hagain⟩ := (openVolume_ok_iff hnone (hfile.trans hpresent) hlen').mpr
    ⟨⟨es', hsees⟩, hforemost'⟩
  refine ⟨file', hagain, ?_⟩
  obtain ⟨-, -, -, hsame | hcut⟩ := openVolume_leaves hnone hagain
  · exact hsame
  · rw [hcut, ← hend, resize_of_length_eq rfl]

/-- **The log grammar and the selection of `open`.** -/
theorem open_selects (master : Bytes) (d : Device Sealed) (b : Bootstrap) (hfaults : d.faults = [])
    (hpresent : d.present = true) (hlen : d.disk.view.length < maxOffset)
    (hfits : bootstrapSize ≤ d.disk.view.length)
    (hb : Bootstrap.decode (slice d.disk.view 0 bootstrapSize) = .ok b) :
    (∀ keys state,
      (∀ fuel, state.committedEnd.toNat - logStart.toNat ≤ fuel →
        scanLoop keys b state.committedEnd fuel .start = scanLoop keys b state.committedEnd
          (state.committedEnd.toNat - logStart.toNat) .start) ∧
      ∀ index, (scanLog keys b state d).1 = .ok index ↔
        ∃ es, IsLog keys b d.disk.view state es ∧ ∀ k, index.lookup k = lastRecord es k) ∧
    ((∃ v file, openVolume master d = (.ok v, file)) ↔
      ∃ slot state, Usable master b d.disk.view slot state) ∧
    ∀ v file, openVolume master d = (.ok v, file) →
      Usable master b d.disk.view v.activeSuper v.state ∧
      (∀ slot state, Usable master b d.disk.view slot state →
        state.generation ≤ v.state.generation) ∧
      file.disk.view.length = v.state.committedEnd.toNat ∧
      (∀ k record, v.index.lookup k = some record →
        ∃ payload, (readBlock k ⟨v, file⟩).1 = .ok (some payload)) ∧
      ∃ file', openVolume master file = (.ok v, file') ∧ file'.disk.view = file.disk.view := by
  refine ⟨fun keys state => ⟨fun fuel hfuel => scanLoop_fuel _ hfuel le_rfl, fun index =>
    scanLog_ok_iff hfaults hlen⟩, ⟨?_, ?_⟩, fun v file hopen => ?_⟩
  · rintro ⟨v, file, hopen⟩
    obtain ⟨⟨es, hopened⟩, -⟩ := (openVolume_ok_iff hfaults hpresent hlen).mp ⟨file, hopen⟩
    obtain rfl : v.bootstrap = b := by simpa using hopened.bootstrap.symm.trans hb
    exact ⟨_, _, hopened.usable⟩
  · rintro ⟨slot, state, husable⟩
    obtain ⟨v, es, hopened, -, -⟩ := husable.opened hfits hb
    obtain ⟨v', es', hopened', -, hforemost, -⟩ := exists_foremost hopened (hopened.limit hlen)
    obtain ⟨file, hopen⟩ := (openVolume_ok_iff hfaults hpresent hlen).mpr
      ⟨⟨es', hopened'⟩, hforemost⟩
    exact ⟨v', file, hopen⟩
  · obtain ⟨⟨es, hopened⟩, hforemost⟩ := (openVolume_ok_iff hfaults hpresent hlen).mp ⟨file, hopen⟩
    obtain ⟨hnone, -, hend, -⟩ := openVolume_leaves hfaults hopen
    obtain ⟨es', -, hsees, -⟩ :=
      openVolume_sees (fun ⟨_, h⟩ => absurd (hfaults ▸ h) List.not_mem_nil) hopen
    have hlen' : file.disk.view.length < maxOffset := by
      rw [hend]
      exact hopened.limit hlen
    obtain rfl : v.bootstrap = b := by simpa using hopened.bootstrap.symm.trans hb
    refine ⟨hopened.usable, fun slot state husable => ?_, hend,
      fun k record hk => Opened.readBlock_ok hsees hnone hlen' hk,
      openVolume_again hfaults hpresent hlen hopen⟩
    obtain ⟨v', es', hopened', rfl, rfl⟩ := husable.opened hfits hb
    exact (hforemost v' es' hopened' (hopened'.limit hlen)).generation_le

end Crypto

/-- The new volume after a batch. -/
def oneBatch [Crypto] : Option Session :=
  (twoBlocks [7]).bind fun s =>
    match writeBlocks [(0, [1])] s with
    | (.ok _, s') => some s'
    | _ => none

/-- The bytes of a volume with some more behind them. -/
def trailed (s : Session) : Bytes := s.file.disk.view ++ [1, 2, 3]

/-- The image opens into the superblock of generation 2, and block 0 has a record. -/
def opensTrailed [Crypto] (s : Session) : Bool :=
  decide ((trailed s).length < maxOffset) && decide (bootstrapSize ≤ (trailed s).length) &&
    decide (Bootstrap.decode (slice (trailed s) 0 bootstrapSize) = .ok s.volume.bootstrap) &&
    match openVolume [7] (imageFile (trailed s)) with
    | (.ok v, _) => v.state.generation == 2 && (v.index.lookup 0).isSome
    | _ => false

/-- A volume with a record in its log, whose file has grown: the newer superblock is opened, the
file is cut off behind the record, and the record is read. -/
theorem open_selects_trailed :
    let _ := tableCrypto []
    ∃ s v file, oneBatch = some s ∧ openVolume [7] (imageFile (trailed s)) = (.ok v, file) ∧
      v.state.generation = 2 ∧ file.disk.view.length = v.state.committedEnd.toNat ∧
      (∃ payload, (readBlock 0 ⟨v, file⟩).1 = .ok (some payload)) ∧
      ∀ slot state, Usable [7] s.volume.bootstrap (trailed s) slot state →
        state.generation ≤ v.state.generation := by
  let _ := tableCrypto []
  have hexec : oneBatch.map opensTrailed = some true := by decide +kernel
  obtain ⟨s, hs, hopens⟩ := Option.map_eq_some_iff.mp hexec
  simp only [opensTrailed, Bool.and_eq_true, decide_eq_true_eq] at hopens
  obtain ⟨⟨⟨hlen, hfits⟩, hb⟩, hopen⟩ := hopens
  split at hopen
  swap
  · exact absurd hopen (by simp)
  next v file hok =>
  obtain ⟨hgeneration, hrecord⟩ := Bool.and_eq_true_iff.mp hopen
  obtain ⟨record, hlookup⟩ := Option.isSome_iff_exists.mp hrecord
  obtain ⟨-, -, hselected⟩ :=
    open_selects [7] (imageFile (trailed s)) s.volume.bootstrap rfl rfl hlen hfits hb
  obtain ⟨-, hgreatest, hend, hreads, -⟩ := hselected v file hok
  exact ⟨s, v, file, hs, hok, beq_iff_eq.mp hgeneration, hend, hreads 0 record hlookup, hgreatest⟩

end OrIsyVra.Volume
