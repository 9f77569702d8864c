import OrIsyVra.Library.ScriptedReads
import OrIsyVra.Volume.Selection
import OrIsyVra.Volume.System

/-!
# What an open cuts off

An open changes the file in one place: it cuts off what is behind the committed end of the
superblock it has chosen.  The choice is made on what the reads deliver, and a read that fails, or
delivers bytes that do not authenticate, counts like a superblock that is not there or a log that is
not whole.  So one failed read can undercut what has been committed last (`failed_read_truncates`).

What a script delivers of an image is said without the program: `superSeen` and `logSeen` take the
spans of a slot and of the records, call by call.  `Undercut` is the one way to lose something: a
superblock is delivered with its whole log, the other one is not, or does not fit, or comes behind
it, and a superblock of the image ends later.  `open_spares_committed_iff` says that there is no
other, for every image, every key and every script of what the calls do.
-/

namespace OrIsyVra.Volume

open ByteString MachineWord DurableFile FaultProgram Runs

/-! ## Logs, record by record -/

/-- A record may follow the records of a log. -/
def MayFollow (es : List Entry) (header : RecordHeader) : Prop :=
  header.generation ≠ 0 ∧ ∀ e ∈ es, e.header.blockIndex = header.blockIndex →
    e.header.generation < header.generation

instance (es : List Entry) (header : RecordHeader) : Decidable (MayFollow es header) :=
  inferInstanceAs (Decidable (_ ∧ _))

/-- The generations of a log: nonzero, and ascending for each block. -/
structure Ordered (es : List Entry) : Prop where
  nonzero : ∀ e ∈ es, e.header.generation ≠ 0
  ascending : es.Pairwise fun e e' =>
    e.header.blockIndex = e'.header.blockIndex → e.header.generation < e'.header.generation

theorem ordered_concat {es : List Entry} {e : Entry} :
    Ordered (es ++ [e]) ↔ Ordered es ∧ MayFollow es e.header := by
  constructor
  · rintro ⟨hnonzero, hascending⟩
    obtain ⟨hbefore, -, hlast⟩ := List.pairwise_append.mp hascending
    exact ⟨⟨fun e' he' => hnonzero e' (List.mem_append_left _ he'), hbefore⟩,
      hnonzero e (List.mem_append_right _ List.mem_cons_self),
      fun e' he' => hlast e' he' e List.mem_cons_self⟩
  · rintro ⟨⟨hnonzero, hascending⟩, hlast, hafter⟩
    refine ⟨fun e' he' => ?_, ?_⟩
    · rcases List.mem_append.mp he' with hm | hm
      · exact hnonzero e' hm
      · rw [List.mem_singleton.mp hm]
        exact hlast
    · refine List.pairwise_append.mpr ⟨hascending, List.pairwise_singleton _ _,
        fun e' he' e'' hm => ?_⟩
      rw [List.mem_singleton.mp hm]
      exact hafter e' he'

/-- The generation checks of the scan ask whether the record may follow. -/
theorem Indexes.checkGeneration_iff {es : List Entry} {s : ScanState} (h : Indexes es s)
    {header : RecordHeader} : checkGeneration s.index header = .ok () ↔ MayFollow es header := by
  constructor
  · intro hcheck
    refine ⟨fun hzero => ?_, fun e he hblock => ?_⟩
    · have hpos := h.generation_pos hcheck
      rw [hzero] at hpos
      exact absurd hpos (by decide)
    · exact UInt64.lt_iff_toNat_lt.mpr (h.generation_lt hcheck he hblock)
  · exact fun ⟨hnonzero, hafter⟩ => h.checks hnonzero hafter

section Crypto

variable [Crypto] {master : Bytes} {keys : VolumeKeys} {b : Bootstrap} {img : Bytes}

/-! ## What a script delivers of an image -/

/-- The superblock that is delivered of a slot, if it authenticates. -/
def superSeen (keys : VolumeKeys) (b : Bootstrap) (img : Bytes) (slot : Slot) :
    Reading (Option SuperState) := do
  Reading.moveTo slot.offset
  let bytes ← Reading.span img slot.offset superSlotSize
  Reading.judge (decodeSuperblock keys b slot bytes)

/-- The record that is delivered from an offset on, if it authenticates. -/
def recordSeen (keys : VolumeKeys) (b : Bootstrap) (img : Bytes) (offset : ℕ) :
    Reading (RecordHeader × Bytes) := do
  Reading.moveTo offset
  let headerBytes ← Reading.span img offset recordHeaderSize
  let header ← Reading.judge (RecordHeader.decode headerBytes)
  Reading.judge (checkHeader b header)
  let ciphertext ← Reading.span img (offset + recordHeaderSize) header.ciphertextLen.toNat
  Reading.judge (openRecord keys b header headerBytes ciphertext)

/-- The records that are delivered up to `stop`, behind those of `es`. -/
def recordsSeen (keys : VolumeKeys) (b : Bootstrap) (img : Bytes) (stop : ℕ) :
    ℕ → List Entry → ℕ → Reading (List Entry × ℕ)
  | 0, es, offset => pure (es, offset)
  | fuel + 1, es, offset =>
    if offset < stop then do
      let (header, payload) ← recordSeen keys b img offset
      if MayFollow es header ∧ offset + header.recordLen ≤ stop then
        recordsSeen keys b img stop fuel (es ++ [⟨UInt64.ofNat offset, header, payload⟩])
          (offset + header.recordLen)
      else Prog.fail ()
    else pure (es, offset)

/-- The log of a superblock is delivered whole: its records, as many as it counts, up to its end. -/
def logSeen (keys : VolumeKeys) (b : Bootstrap) (img : Bytes) (state : SuperState) :
    Reading Unit := do
  let (es, offset) ← recordsSeen keys b img state.committedEnd.toNat
    (state.committedEnd.toNat - logStart.toNat) [] logStart.toNat
  if offset = state.committedEnd.toNat ∧ es.length = state.recordCount.toNat then pure ()
  else Prog.fail ()

/-- What is delivered before any log is read. -/
structure Heads where
  bootstrap : Bootstrap
  keys : VolumeKeys
  super : Slot → Option SuperState

/-- The bootstrap and the two slots. -/
def headsSeen (master img : Bytes) : Reading Heads := do
  Reading.turn
  let bytes ← Reading.span img 0 bootstrapSize
  let b ← Reading.judge (Bootstrap.decode bytes)
  let keys ← Reading.judge (deriveKeys master b)
  let first ← (superSeen keys b img .a).orNone
  let second ← (superSeen keys b img .b).orNone
  pure ⟨b, keys, fun slot => if slot = .a then first.join else second.join⟩

/-! ## Scripts without damage -/

section

variable {fs fs' : List Fault}

/-- **A slot is delivered** when the image holds it and its two calls work. -/
theorem superSeen_eq_ok (h : Undamaged fs) {slot : Slot} {state : SuperState} :
    superSeen keys b img slot fs = (.ok (some state), fs') ↔
      SlotHolds keys b img slot state ∧ Works fs 2 ∧ fs' = fs.drop 2 := by
  have hbound : slot.offset < maxOffset := by cases slot <;> decide
  unfold superSeen
  simp only [bind_eq_ok, Reading.moveTo_eq_ok h]
  constructor
  · rintro ⟨_, fs₁, ⟨-, hseek, rfl⟩, bytes, fs₂, hread, hjudge⟩
    obtain ⟨hfits, rfl, hworks, rfl⟩ := (Reading.span_eq_ok (h.drop 1)).mp hread
    obtain ⟨hdecode, rfl⟩ := Reading.judge_eq_ok.mp hjudge
    exact ⟨⟨hfits, hdecode⟩, works_add.mpr ⟨hseek, hworks⟩, List.drop_drop⟩
  · rintro ⟨hholds, hworks, rfl⟩
    obtain ⟨hseek, hread⟩ := (works_add (m := 1) (n := 1)).mp hworks
    exact ⟨(), _, ⟨hbound, hseek, rfl⟩, _, _,
      (Reading.span_eq_ok (h.drop 1)).mpr ⟨hholds.fits, rfl, hread, rfl⟩,
      Reading.judge_eq_ok.mpr ⟨hholds.decode, List.drop_drop⟩⟩

theorem openRecord_eq_ok {header header' : RecordHeader} {headerBytes ciphertext payload : Bytes} :
    openRecord keys b header headerBytes ciphertext = .ok (header', payload) ↔ header = header' ∧
      Crypto.decrypt keys.key (recordNonce keys b header.blockIndex header.generation)
        (recordAad b headerBytes) ciphertext = some payload ∧
      payload.length = header.plaintextLen.toNat := by
  unfold openRecord
  constructor
  · intro h
    split at h
    · exact absurd h (by simp)
    next plaintext hopen =>
    split at h
    · exact absurd h (by simp)
    next hlength =>
    obtain ⟨rfl, rfl⟩ := Prod.mk.inj (Except.ok.inj h)
    exact ⟨rfl, hopen, not_not.mp hlength⟩
  · rintro ⟨rfl, hopen, hlength⟩
    simp only [hopen, ne_eq, hlength, not_true_eq_false, if_false]

/-- **A record is delivered** when the image holds it and its three calls work. -/
theorem recordSeen_eq_ok (h : Undamaged fs) {offset : ℕ} {header : RecordHeader} {payload : Bytes} :
    recordSeen keys b img offset fs = (.ok (header, payload), fs') ↔
      RecordAt keys b img offset header payload ∧ offset < maxOffset ∧ Works fs 3 ∧
        fs' = fs.drop 3 := by
  unfold recordSeen
  simp only [bind_eq_ok, Reading.moveTo_eq_ok h]
  constructor
  · rintro ⟨_, fs₁, ⟨hlt, hseek, rfl⟩, headerBytes, fs₂, hread, header', fs₃, hdecode, _, fs₄,
      hcheck, ciphertext, fs₅, hread', hopen⟩
    obtain ⟨hfits, rfl, hworks, rfl⟩ := (Reading.span_eq_ok (h.drop 1)).mp hread
    obtain ⟨hheader, rfl⟩ := Reading.judge_eq_ok.mp hdecode
    obtain ⟨hchecked, rfl⟩ := Reading.judge_eq_ok.mp hcheck
    obtain ⟨hfits', rfl, hworks', rfl⟩ := (Reading.span_eq_ok ((h.drop 1).drop 1)).mp hread'
    obtain ⟨hopened, rfl⟩ := Reading.judge_eq_ok.mp hopen
    obtain ⟨rfl, hdecrypt, hlength⟩ := openRecord_eq_ok.mp hopened
    have hrecord : RecordAt keys b img offset header' payload :=
      ⟨by rw [RecordHeader.recordLen]; omega, hheader, hchecked, hdecrypt, hlength⟩
    rw [List.drop_drop] at hworks'
    exact ⟨hrecord, hlt, works_add.mpr ⟨works_add.mpr ⟨hseek, hworks⟩, hworks'⟩,
      by rw [List.drop_drop, List.drop_drop]⟩
  · rintro ⟨hrecord, hlt, hworks, rfl⟩
    obtain ⟨hheads, hworks'⟩ := (works_add (m := 2) (n := 1)).mp hworks
    obtain ⟨hseek, hworks⟩ := (works_add (m := 1) (n := 1)).mp hheads
    have hfits := hrecord.fits
    rw [RecordHeader.recordLen] at hfits
    have hthird : Works ((fs.drop 1).drop 1) 1 := by rwa [List.drop_drop]
    exact ⟨(), _, ⟨hlt, hseek, rfl⟩, _, _,
      (Reading.span_eq_ok (h.drop 1)).mpr ⟨by omega, rfl, hworks, rfl⟩, _, _,
      Reading.judge_eq_ok.mpr ⟨hrecord.decode, rfl⟩, (), _,
      Reading.judge_eq_ok.mpr ⟨hrecord.check, rfl⟩, _, _,
      (Reading.span_eq_ok ((h.drop 1).drop 1)).mpr ⟨by omega, rfl, hthird, rfl⟩,
      Reading.judge_eq_ok.mpr ⟨openRecord_eq_ok.mpr ⟨rfl, hrecord.opens, hrecord.length⟩,
        by rw [List.drop_drop, List.drop_drop]⟩⟩

/-- At the end no more records are delivered, and the image holds no more. -/
theorem recordsSeen_done {es es' : List Entry} {offset stop n : ℕ} (hes : Ordered es)
    (hend : offset = stop) :
    (pure (es, offset) : Reading (List Entry × ℕ)) fs = (.ok (es', n), fs') ↔
      n = stop ∧ ∃ new, es' = es ++ new ∧ Tiles keys b img offset new stop ∧ Ordered es' ∧
        (∀ e ∈ new, e.offset.toNat < maxOffset) ∧ Works fs (3 * new.length) ∧
        fs' = fs.drop (3 * new.length) := by
  subst hend
  rw [pure_eq_ok, Prod.mk.injEq]
  constructor
  · rintro ⟨⟨rfl, rfl⟩, rfl⟩
    exact ⟨rfl, [], (List.append_nil _).symm, .done _, hes, fun _ he =>
      absurd he List.not_mem_nil, works_zero _, rfl⟩
  · rintro ⟨rfl, new, rfl, htiles, -, -, -, rfl⟩
    cases htiles with
    | done _ => exact ⟨⟨List.append_nil _ |>.symm, rfl⟩, rfl⟩
    | @record e _ _ _ hrest =>
      have hle := hrest.le
      have hpos := e.header.recordLen_pos
      omega

/-- The records that are delivered are those of the image, as far as the calls work. -/
theorem recordsSeen_eq_ok {stop : ℕ} (hstop : stop < UInt64.size) {fuel : ℕ} {es es' : List Entry}
    {offset n : ℕ} (h : Undamaged fs) (hfuel : stop - offset ≤ fuel) (hle : offset ≤ stop)
    (hes : Ordered es) :
    recordsSeen keys b img stop fuel es offset fs = (.ok (es', n), fs') ↔
      n = stop ∧ ∃ new, es' = es ++ new ∧ Tiles keys b img offset new stop ∧ Ordered es' ∧
        (∀ e ∈ new, e.offset.toNat < maxOffset) ∧ Works fs (3 * new.length) ∧
        fs' = fs.drop (3 * new.length) := by
  induction fuel generalizing es offset fs with
  | zero => exact recordsSeen_done hes (by omega)
  | succ fuel ih =>
    unfold recordsSeen
    by_cases hmore : offset < stop
    swap
    · rw [if_neg hmore]
      exact recordsSeen_done hes (by omega)
    rw [if_pos hmore, bind_eq_ok]
    have hoffset : (UInt64.ofNat offset).toNat = offset := UInt64.toNat_ofNat_of_lt' (by omega)
    constructor
    · rintro ⟨⟨header, payload⟩, fs₁, hrecord, hrest⟩
      obtain ⟨hat, hlt, hworks, rfl⟩ := (recordSeen_eq_ok h).mp hrecord
      dsimp only at hrest
      split at hrest
      swap
      · exact absurd hrest fail_ne_ok
      next hnext =>
      have hpos := header.recordLen_pos
      have hordered : Ordered (es ++ [⟨UInt64.ofNat offset, header, payload⟩]) :=
        ordered_concat.mpr ⟨hes, hnext.1⟩
      obtain ⟨rfl, new, rfl, htiles, hwhole, hends, hworks', rfl⟩ :=
        (ih (h.drop 3) (by omega) hnext.2 hordered).mp hrest
      refine ⟨rfl, ⟨UInt64.ofNat offset, header, payload⟩ :: new, by simp, ?_, hwhole, ?_, ?_, ?_⟩
      · rw [← hoffset] at hat htiles
        have htile : Tiles keys b img (UInt64.ofNat offset).toNat
            (⟨UInt64.ofNat offset, header, payload⟩ :: new) n :=
          .record (e := ⟨UInt64.ofNat offset, header, payload⟩) hat htiles
        rwa [hoffset] at htile
      · exact List.forall_mem_cons.mpr ⟨hoffset.symm ▸ hlt, hends⟩
      · rw [List.length_cons, Nat.mul_succ, Nat.add_comm]
        exact works_add.mpr ⟨hworks, hworks'⟩
      · rw [List.length_cons, List.drop_drop, Nat.mul_succ, Nat.add_comm]
    · rintro ⟨rfl, new, rfl, htiles, hwhole, hends, hworks, rfl⟩
      cases htiles with
      | done _ => exact absurd hmore (lt_irrefl _)
      | @record e new _ hrecord hrest =>
        rcases e with ⟨offset, header, payload⟩
        dsimp only at hrecord hrest hmore hfuel ⊢
        rw [← List.singleton_append, ← List.append_assoc] at hwhole
        rw [List.length_cons, Nat.mul_succ, Nat.add_comm] at hworks
        obtain ⟨hworks₁, hworks₂⟩ := works_add.mp hworks
        have hordered : Ordered (es ++ [⟨offset, header, payload⟩]) :=
          ⟨fun e he => hwhole.nonzero e (List.mem_append_left _ he),
            (List.pairwise_append.mp hwhole.ascending).1⟩
        have hnext : MayFollow es header ∧ offset.toNat + header.recordLen ≤ n :=
          ⟨(ordered_concat.mp hordered).2, hrest.le⟩
        have hpos := header.recordLen_pos
        refine ⟨(header, payload), _, (recordSeen_eq_ok h).mpr
          ⟨hrecord, hends _ List.mem_cons_self, hworks₁, rfl⟩, ?_⟩
        dsimp only
        rw [if_pos hnext, UInt64.ofNat_toNat]
        refine (ih (h.drop 3) (by omega) hnext.2 hordered).mpr ⟨rfl, new, by simp, hrest, ?_,
          fun e he => hends e (List.mem_cons_of_mem _ he), hworks₂, ?_⟩
        · simpa using hwhole
        · rw [List.length_cons, List.drop_drop, Nat.mul_succ, Nat.add_comm]

/-- **A log is delivered whole** when the image holds it and the three calls of each record work. -/
theorem logSeen_eq_ok (h : Undamaged fs) {state : SuperState} :
    logSeen keys b img state fs = (.ok (), fs') ↔
      ∃ es, IsLog keys b img state es ∧ (∀ e ∈ es, e.offset.toNat < maxOffset) ∧
        Works fs (3 * es.length) ∧ fs' = fs.drop (3 * es.length) := by
  have hnil : Ordered [] := ⟨fun _ he => absurd he List.not_mem_nil, List.Pairwise.nil⟩
  unfold logSeen
  rw [bind_eq_ok]
  by_cases hle : logStart.toNat ≤ state.committedEnd.toNat
  swap
  · -- a superblock that ends before the log has no log
    have hnone : state.committedEnd.toNat - logStart.toNat = 0 := by omega
    rw [hnone]
    constructor
    · rintro ⟨⟨es, n⟩, fs₁, hrecords, hwhole⟩
      obtain ⟨hsame, rfl⟩ := pure_eq_ok.mp hrecords
      obtain ⟨rfl, rfl⟩ := Prod.mk.inj hsame
      dsimp only at hwhole
      rw [if_neg (by omega)] at hwhole
      exact absurd hwhole fail_ne_ok
    · rintro ⟨es, hlog, -⟩
      exact absurd hlog.tiles.le hle
  constructor
  · rintro ⟨⟨es, n⟩, fs₁, hrecords, hwhole⟩
    obtain ⟨rfl, new, hnew, htiles, hordered, hends, hworks, rfl⟩ :=
      (recordsSeen_eq_ok state.committedEnd.toNat_lt h le_rfl hle hnil).mp hrecords
    obtain rfl : es = new := hnew
    dsimp only at hwhole
    split at hwhole
    swap
    · exact absurd hwhole fail_ne_ok
    next hcount =>
    obtain ⟨-, rfl⟩ := pure_eq_ok.mp hwhole
    exact ⟨es, ⟨htiles, hcount.2, hordered.nonzero, hordered.ascending⟩, hends, hworks, rfl⟩
  · rintro ⟨es, hlog, hends, hworks, rfl⟩
    refine ⟨(es, _), _, (recordsSeen_eq_ok state.committedEnd.toNat_lt h le_rfl hle hnil).mpr
      ⟨rfl, es, rfl, hlog.tiles, ⟨hlog.nonzero, hlog.ascending⟩, hends, hworks, rfl⟩, ?_⟩
    dsimp only
    rw [if_pos ⟨rfl, hlog.count⟩]
    rfl

end

/-! ## The program reads what is delivered -/

theorem readsAs_readSuperblock {P : Device Sealed → Prop} (slot : Slot) :
    ReadsAs img P (readSuperblock keys b slot) (superSeen keys b img slot) fun o o' _ =>
      o = o' := by
  refine (ReadsAs.seek _).bind fun _ _ => (ReadsAs.readExact _ _).bind fun bytes bytes' => ?_
  refine ReadsAs.given fun hbytes => ?_
  rw [hbytes]
  exact (ReadsAs.judge _).mono (fun _ h => h) fun _ _ _ h => h.1

theorem readsAs_readRecordAt {P : Device Sealed → Prop} (offset : UInt64) :
    ReadsAs img P (readRecordAt keys b offset) (recordSeen keys b img offset.toNat)
      fun r r' _ => r = r' := by
  refine (ReadsAs.seek _).bind fun _ _ => (ReadsAs.readExact _ _).bind fun headerBytes _ => ?_
  refine ReadsAs.given fun hbytes => ?_
  rw [← hbytes]
  refine (ReadsAs.judge _).bind fun header _ => ReadsAs.given fun hheader =>
    ReadsAs.given fun _ => ?_
  rw [← hheader]
  refine (ReadsAs.judge _).bind fun _ _ => ReadsAs.given fun _ => ReadsAs.given fun _ => ?_
  refine (ReadsAs.readExact _ _).bind fun ciphertext _ => ReadsAs.given fun hciphertext => ?_
  rw [← hciphertext]
  exact (ReadsAs.judge _).mono (fun _ h => h) fun _ _ _ h => h.1

/-- **The scan loop reads the records that are delivered**, as long as its state summarises those
before. -/
theorem readsAs_scanLoop {P : Device Sealed → Prop} (committedEnd : UInt64) (fuel : ℕ)
    {es : List Entry} {s : ScanState} (hs : Indexes es s) :
    ReadsAs img P (scanLoop keys b committedEnd fuel s)
      (recordsSeen keys b img committedEnd.toNat fuel es s.offset.toNat)
      fun s' r _ => Indexes r.1 s' ∧ s'.offset.toNat = r.2 := by
  induction fuel generalizing P es s with
  | zero => exact .pure fun _ _ => ⟨hs, rfl⟩
  | succ fuel ih =>
    refine .ite UInt64.lt_iff_toNat_lt (fun _ => ?_) fun _ => .pure fun _ _ => ⟨hs, rfl⟩
    refine (readsAs_readRecordAt s.offset).bind fun r r' => ?_
    intro d hd hr
    obtain rfl : r = r' := hr
    obtain ⟨header, payload⟩ := r
    have hlt : committedEnd.toNat < UInt64.size := committedEnd.toNat_lt
    by_cases hnext : MayFollow es header ∧ s.offset.toNat + header.recordLen ≤ committedEnd.toNat
    · have hoffset : (UInt64.ofNat (s.offset.toNat + header.recordLen)).toNat =
          s.offset.toNat + header.recordLen := UInt64.toNat_ofNat_of_lt' (by omega)
      have hadv : Advances s header ⟨s.index.insert header.blockIndex
            ⟨s.offset, header.generation, header.plaintextLen, header.ciphertextLen⟩,
          UInt64.ofNat (s.offset.toNat + header.recordLen), saturatingAdd s.count 1⟩ :=
        ⟨hs.checkGeneration_iff.mpr hnext.1, rfl, hoffset, rfl⟩
      have hstep := scanStep_eq_ok.mpr ⟨hadv, hoffset.le.trans hnext.2⟩
      have hindexes : Indexes (es ++ [⟨s.offset, header, payload⟩]) _ := hs.step hadv
      have hrest := ih (P := fun _ => True) hindexes d hd trivial
      rw [hoffset] at hrest
      dsimp only
      rw [hstep, if_pos hnext, UInt64.ofNat_toNat]
      exact hrest
    · cases hstep : scanStep committedEnd s header with
      | error e =>
        dsimp only
        rw [hstep, if_neg hnext]
        exact .lost rfl
      | ok s' =>
        obtain ⟨hadv, hend⟩ := scanStep_eq_ok.mp hstep
        rw [hadv.offset] at hend
        exact absurd ⟨hs.checkGeneration_iff.mp hadv.generation, hend⟩ hnext

theorem readsAs_scanLog {P : Device Sealed → Prop} (state : SuperState) :
    ReadsAs img P (scanLog keys b state) (logSeen keys b img state) fun _ _ _ => True := by
  refine (readsAs_scanLoop _ _ Indexes.start).bind fun s r => ?_
  refine ReadsAs.given fun hs => ?_
  intro d hd hoffset
  by_cases hwhole : r.2 = state.committedEnd.toNat ∧ r.1.length = state.recordCount.toNat
  · have haccounted : ¬(s.offset ≠ state.committedEnd ∨ s.count ≠ state.recordCount) := by
      rw [not_or, not_not, not_not]
      exact ⟨UInt64.toNat_inj.mp (hoffset.trans hwhole.1),
        UInt64.toNat_inj.mp (hs.count.trans hwhole.2)⟩
    dsimp only
    rw [if_neg haccounted, if_pos hwhole]
    exact .ok rfl trivial
  · have hmismatch : s.offset ≠ state.committedEnd ∨ s.count ≠ state.recordCount := by
      by_contra haccounted
      rw [not_or, not_not, not_not] at haccounted
      refine hwhole ⟨?_, ?_⟩
      · rw [← hoffset, haccounted.1]
      · rw [← hs.count, haccounted.2]
    dsimp only
    rw [if_pos hmismatch, if_neg hwhole]
    exact .lost rfl

theorem readsAs_readCandidate {P : Device Sealed → Prop} (slot : Slot) :
    ReadsAs img P (readCandidate keys b slot) (superSeen keys b img slot).orNone
      fun candidates o _ => candidates = (o.join.map fun state => (slot, state)).toList := by
  have hslot : ReadsAs img P (readSuperblock keys b slot) (superSeen keys b img slot)
      fun o o' _ => o = o' := readsAs_readSuperblock slot
  have hread := hslot.attempt
    (f := fun r => (r.toOption.join.map fun state => (slot, state)).toList)
    (S := fun candidates o _ => candidates = (o.join.map fun state => (slot, state)).toList)
    (fun o o' _ h => by subst h; rfl) fun _ _ => rfl
  have hcandidate : readCandidate keys b slot = (do
      let r ← Prog.attempt (readSuperblock keys b slot)
      pure (r.toOption.join.map fun state => (slot, state)).toList) := by
    unfold readCandidate
    congr 1
    funext r
    rcases r with e | _ | state <;> rfl
  rw [hcandidate]
  exact hread

/-- `open` as far as the candidates. -/
def readSlots (master : Bytes) : VolumeIO (VolumeKeys × Bootstrap × List (Slot × SuperState)) := do
  openFile false
  let bytes ← readExact bootstrapSize
  let b ← Prog.ofExcept (Bootstrap.decode bytes)
  let keys ← Prog.ofExcept (deriveKeys master b)
  let first ← readCandidate keys b .a
  let second ← readCandidate keys b .b
  pure (keys, b, first ++ second)

/-- **`open` reads the slots and then selects.** -/
theorem openVolume_eq (master : Bytes) :
    openVolume master = readSlots master >>= fun (keys, b, candidates) =>
      if candidates.isEmpty then Prog.fail .authenticationFailed
      else fileLen >>= fun len => selectCandidate keys b len (sortCandidates candidates) := by
  simp only [openVolume, readSlots, bind_assoc, pure_bind]

/-- The superblocks that are delivered, slot A first. -/
def Heads.candidates (h : Heads) : List (Slot × SuperState) :=
  ((h.super .a).map fun state => (Slot.a, state)).toList ++
    ((h.super .b).map fun state => (Slot.b, state)).toList

theorem readsAs_readSlots (master : Bytes) :
    ReadsAs img (fun d => d.present = true) (readSlots master) (headsSeen master img)
      fun r h _ => r = (h.keys, h.bootstrap, h.candidates) := by
  refine ReadsAs.openFile.bind fun _ _ => (ReadsAs.readExact _ _).bind fun bytes _ => ?_
  refine ReadsAs.given fun hbytes => ?_
  rw [← hbytes]
  refine (ReadsAs.judge _).bind fun b _ => ReadsAs.given fun hb => ReadsAs.given fun _ => ?_
  rw [← hb]
  refine (ReadsAs.judge _).bind fun keys _ => ReadsAs.given fun hkeys => ReadsAs.given fun _ => ?_
  rw [← hkeys]
  refine (readsAs_readCandidate .a).bind fun first o => ?_
  intro d hd hfirst
  refine ((readsAs_readCandidate (P := fun _ => True) .b).bind fun second o' => ?_) d hd trivial
  refine fun d' _ hsecond => .ok rfl ?_
  rw [hfirst, hsecond]
  rfl

/-! ## Which log is read when -/

/-- What is left of the script when the log of a superblock is read: the log of the other one has
been read before, in vain, if it fits the image and its turn comes first. -/
inductive Awaits (keys : VolumeKeys) (b : Bootstrap) (img : Bytes) (other : Option SuperState)
    (slot : Slot) (state : SuperState) : List Fault → List Fault → Prop where
  | first {fs : List Fault} :
      (∀ rival, other = some rival → rival.committedEnd.toNat ≤ img.length →
        Precedes (slot, state) (slot.other, rival)) →
      Awaits keys b img other slot state fs fs
  | second {fs fs' : List Fault} {rival : SuperState} :
      other = some rival → rival.committedEnd.toNat ≤ img.length →
      ¬Precedes (slot, state) (slot.other, rival) → logSeen keys b img rival fs = (.error (), fs') →
      Awaits keys b img other slot state fs fs'

/-- The first of the candidates that fits the image and whose log is delivered whole. -/
inductive FirstUsable (keys : VolumeKeys) (b : Bootstrap) (img : Bytes) :
    List (Slot × SuperState) → List Fault → Slot × SuperState → List Fault → Prop where
  | usable {c : Slot × SuperState} {rest : List (Slot × SuperState)} {fs fs' : List Fault} :
      c.2.committedEnd.toNat ≤ img.length → logSeen keys b img c.2 fs = (.ok (), fs') →
      FirstUsable keys b img (c :: rest) fs c fs'
  | tooLong {c c' : Slot × SuperState} {rest : List (Slot × SuperState)} {fs fs' : List Fault} :
      img.length < c.2.committedEnd.toNat → FirstUsable keys b img rest fs c' fs' →
      FirstUsable keys b img (c :: rest) fs c' fs'
  | unread {c c' : Slot × SuperState} {rest : List (Slot × SuperState)} {fs fs₁ fs' : List Fault} :
      c.2.committedEnd.toNat ≤ img.length → logSeen keys b img c.2 fs = (.error (), fs₁) →
      FirstUsable keys b img rest fs₁ c' fs' → FirstUsable keys b img (c :: rest) fs c' fs'

theorem FirstUsable.unique {candidates : List (Slot × SuperState)} {fs fs' fs'' : List Fault}
    {c c' : Slot × SuperState} (h : FirstUsable keys b img candidates fs c fs')
    (h' : FirstUsable keys b img candidates fs c' fs'') : c = c' ∧ fs' = fs'' := by
  induction h with
  | usable hfits hlog =>
    cases h' with
    | usable _ hlog' => exact ⟨rfl, (Prod.mk.inj (hlog.symm.trans hlog')).2⟩
    | tooLong hlong _ => omega
    | unread _ hlog' _ => exact absurd (hlog.symm.trans hlog') (by simp)
  | tooLong hlong _ ih =>
    cases h' with
    | usable hfits _ => omega
    | tooLong _ hrest => exact ih hrest
    | unread hfits _ _ => omega
  | unread hfits hlog _ ih =>
    cases h' with
    | usable _ hlog' => exact absurd (hlog.symm.trans hlog') (by simp)
    | tooLong hlong _ => omega
    | unread _ hlog' hrest =>
      obtain ⟨-, rfl⟩ := Prod.mk.inj (hlog.symm.trans hlog')
      exact ih hrest

omit [Crypto] in
theorem sortCandidates_pair (c c' : Slot × SuperState) :
    sortCandidates [c, c'] = if c'.2.generation ≤ c.2.generation then [c, c'] else [c', c] := by
  unfold sortCandidates
  split <;> simp [*]

/-- **Of two candidates the first usable one** is the one in front, or the other one once that has
been passed over. -/
theorem firstUsable_pair {c c' x : Slot × SuperState} {fs fs' : List Fault} :
    FirstUsable keys b img [c, c'] fs x fs' ↔
      x = c ∧ c.2.committedEnd.toNat ≤ img.length ∧ logSeen keys b img c.2 fs = (.ok (), fs') ∨
      ∃ fs₁, (img.length < c.2.committedEnd.toNat ∧ fs₁ = fs ∨
          c.2.committedEnd.toNat ≤ img.length ∧ logSeen keys b img c.2 fs = (.error (), fs₁)) ∧
        x = c' ∧ c'.2.committedEnd.toNat ≤ img.length ∧
          logSeen keys b img c'.2 fs₁ = (.ok (), fs') := by
  have hone : ∀ fs₁, FirstUsable keys b img [c'] fs₁ x fs' ↔ x = c' ∧
      c'.2.committedEnd.toNat ≤ img.length ∧ logSeen keys b img c'.2 fs₁ = (.ok (), fs') := by
    intro fs₁
    constructor
    · intro h
      cases h with
      | usable hfits hlog => exact ⟨rfl, hfits, hlog⟩
      | tooLong _ hrest => exact nomatch hrest
      | unread _ _ hrest => exact nomatch hrest
    · rintro ⟨rfl, hfits, hlog⟩
      exact .usable hfits hlog
  constructor
  · intro h
    cases h with
    | usable hfits hlog => exact Or.inl ⟨rfl, hfits, hlog⟩
    | tooLong hlong hrest => exact Or.inr ⟨fs, Or.inl ⟨hlong, rfl⟩, (hone fs).mp hrest⟩
    | unread hfits hlog hrest => exact Or.inr ⟨_, Or.inr ⟨hfits, hlog⟩, (hone _).mp hrest⟩
  · rintro (⟨rfl, hfits, hlog⟩ | ⟨fs₁, ⟨hlong, rfl⟩ | ⟨hfits, hlog⟩, hx⟩)
    · exact .usable hfits hlog
    · exact .tooLong hlong ((hone _).mpr hx)
    · exact .unread hfits hlog ((hone fs₁).mpr hx)

section

variable {slot : Slot} {state rival : SuperState} {fs fs₁ : List Fault}

theorem awaits_none : Awaits keys b img none slot state fs fs₁ ↔ fs₁ = fs := by
  constructor
  · intro h
    cases h with
    | first _ => rfl
    | second hrival _ _ _ => exact absurd hrival (by simp)
  · rintro rfl
    exact .first fun _ h => absurd h (by simp)

/-- What comes first waits for nothing. -/
theorem awaits_of_before (h : Precedes (slot, state) (slot.other, rival)) :
    Awaits keys b img (some rival) slot state fs fs₁ ↔ fs₁ = fs := by
  constructor
  · intro h'
    cases h' with
    | first _ => rfl
    | second hrival _ hbehind _ =>
      obtain rfl := Option.some.inj hrival
      exact absurd h hbehind
  · rintro rfl
    refine .first fun rival' hrival _ => ?_
    obtain rfl := Option.some.inj hrival
    exact h

/-- What comes second waits for the other one to be passed over. -/
theorem awaits_of_not_before (h : ¬Precedes (slot, state) (slot.other, rival)) :
    Awaits keys b img (some rival) slot state fs fs₁ ↔
      img.length < rival.committedEnd.toNat ∧ fs₁ = fs ∨
      rival.committedEnd.toNat ≤ img.length ∧ logSeen keys b img rival fs = (.error (), fs₁) := by
  constructor
  · intro h'
    cases h' with
    | first hfirst => exact Or.inl ⟨not_le.mp fun hfits => h (hfirst rival rfl hfits), rfl⟩
    | second hrival hfits _ hlost =>
      obtain rfl := Option.some.inj hrival
      exact Or.inr ⟨hfits, hlost⟩
  · rintro (⟨hlong, rfl⟩ | ⟨hfits, hlost⟩)
    · refine .first fun rival' hrival hfits => ?_
      obtain rfl := Option.some.inj hrival
      exact absurd hfits (not_le.mpr hlong)
    · exact .second rfl hfits h hlost

end

section

variable {h : Heads} {slot slot' : Slot} {s t state : SuperState} {fs fs' : List Fault}

theorem Heads.firstUsable_lone (hs : h.super slot = some s) (ht : h.super slot.other = none) :
    FirstUsable keys b img [(slot, s)] fs (slot', state) fs' ↔
      h.super slot' = some state ∧ state.committedEnd.toNat ≤ img.length ∧
        ∃ fs₁, Awaits keys b img (h.super slot'.other) slot' state fs fs₁ ∧
          logSeen keys b img state fs₁ = (.ok (), fs') := by
  constructor
  · intro hfirst
    cases hfirst with
    | usable hfits hlog =>
      rw [ht]
      exact ⟨hs, hfits, fs, awaits_none.mpr rfl, hlog⟩
    | tooLong _ hrest => exact nomatch hrest
    | unread _ _ hrest => exact nomatch hrest
  · rintro ⟨hslot, hfits, fs₁, hawaits, hlog⟩
    rcases slot.eq_or_eq_other slot' with rfl | rfl
    · rw [ht, awaits_none] at hawaits
      obtain rfl := Option.some.inj (hs.symm.trans hslot)
      rw [hawaits] at hlog
      exact .usable hfits hlog
    · exact absurd (ht.symm.trans hslot) (by simp)

theorem Heads.firstUsable_both (hs : h.super slot = some s) (ht : h.super slot.other = some t)
    (hbefore : Precedes (slot, s) (slot.other, t)) (hbehind : ¬Precedes (slot.other, t) (slot, s)) :
    FirstUsable keys b img [(slot, s), (slot.other, t)] fs (slot', state) fs' ↔
      h.super slot' = some state ∧ state.committedEnd.toNat ≤ img.length ∧
        ∃ fs₁, Awaits keys b img (h.super slot'.other) slot' state fs fs₁ ∧
          logSeen keys b img state fs₁ = (.ok (), fs') := by
  rw [firstUsable_pair]
  rcases slot.eq_or_eq_other slot' with rfl | rfl
  · -- the one in front
    rw [hs, ht]
    constructor
    · rintro (⟨hsame, hfits, hlog⟩ | ⟨_, _, hsame, _⟩)
      · obtain rfl := (Prod.mk.inj hsame).2
        exact ⟨rfl, hfits, fs, (awaits_of_before hbefore).mpr rfl, hlog⟩
      · exact absurd (Prod.mk.inj hsame).1.symm (Slot.other_ne _)
    · rintro ⟨hsame, hfits, fs₁, hawaits, hlog⟩
      obtain rfl := Option.some.inj hsame
      obtain rfl := (awaits_of_before hbefore).mp hawaits
      exact Or.inl ⟨rfl, hfits, hlog⟩
  · -- the one behind it
    have hrival : h.super slot.other.other = some s := by rw [Slot.other_other, hs]
    have hturn : ¬Precedes (slot.other, t) (slot.other.other, s) := by rwa [Slot.other_other]
    rw [hrival, ht]
    constructor
    · rintro (⟨hsame, _⟩ | ⟨fs₁, hpassed, hsame, hfits, hlog⟩)
      · exact absurd (Prod.mk.inj hsame).1 (Slot.other_ne _)
      · obtain rfl := (Prod.mk.inj hsame).2
        exact ⟨rfl, hfits, fs₁, (awaits_of_not_before hturn).mpr hpassed, hlog⟩
    · rintro ⟨hsame, hfits, fs₁, hawaits, hlog⟩
      obtain rfl := Option.some.inj hsame
      exact Or.inr ⟨fs₁, (awaits_of_not_before hturn).mp hawaits, rfl, hfits, hlog⟩

/-- **Which of the delivered superblocks is the first usable one.** -/
theorem Heads.firstUsable_iff (h : Heads) :
    FirstUsable keys b img (sortCandidates h.candidates) fs (slot, state) fs' ↔
      h.super slot = some state ∧ state.committedEnd.toNat ≤ img.length ∧
        ∃ fs₁, Awaits keys b img (h.super slot.other) slot state fs fs₁ ∧
          logSeen keys b img state fs₁ = (.ok (), fs') := by
  unfold Heads.candidates
  cases ha : h.super .a with
  | none =>
    cases hb : h.super .b with
    | none =>
      constructor
      · exact fun hfirst => nomatch hfirst
      · rintro ⟨hslot, -⟩
        cases slot <;> simp [ha, hb] at hslot
    | some t => exact Heads.firstUsable_lone hb ha
  | some s =>
    cases hb : h.super .b with
    | none => exact Heads.firstUsable_lone ha hb
    | some t =>
      show FirstUsable keys b img (sortCandidates [(Slot.a, s), (Slot.b, t)]) fs
        (slot, state) fs' ↔ _
      rw [sortCandidates_pair]
      by_cases hle : t.generation ≤ s.generation
      · rw [if_pos hle]
        refine Heads.firstUsable_both ha hb ?_ fun hbehind => ?_
        · rcases UInt64.lt_or_eq_of_le hle with hlt | heq
          · exact Or.inl hlt
          · exact Or.inr ⟨heq, by show Slot.a.byte ≤ Slot.b.byte; decide⟩
        · rcases hbehind with hlt | ⟨-, hslot⟩
          · exact UInt64.not_lt.mpr hle hlt
          · exact absurd hslot (by show ¬Slot.b.byte ≤ Slot.a.byte; decide)
      · rw [if_neg hle]
        have hlt : s.generation < t.generation := UInt64.not_le.mp hle
        refine Heads.firstUsable_both hb ha (Or.inl hlt) fun hbehind => ?_
        rcases hbehind with hgt | ⟨heq, -⟩
        · exact hle (UInt64.le_of_lt hgt)
        · exact hle (heq ▸ UInt64.le_refl _)

end

/-! ## The cut -/

/-- What is left of the image when the bytes behind `n` are cut off, by a script that still has the
calls `fs`. -/
def cutOff (img : Bytes) (fs : List Fault) (n : ℕ) : Bytes :=
  if n < img.length ∧ reachesLen fs n then resize img n else img

omit [Crypto] in
theorem view_cut {n : ℕ} {v : Volume} {d : Device Sealed} (hd : d.disk.view = img) :
    ((if img.length > n then do setLen n; syncAll; pure v else pure v : VolumeIO Volume)
      d).2.disk.view = cutOff img d.faults n := by
  unfold cutOff
  by_cases hlen : n < img.length
  swap
  · rw [if_neg hlen, if_neg fun h => hlen h.1]
    exact hd
  rw [if_pos hlen]
  have hdisk := disk_setLen (ε := VolumeError) d n
  have hview : (if reachesLen d.faults n then d.disk.push (.setLen n) else d.disk).view =
      if n < img.length ∧ reachesLen d.faults n then resize img n else img := by
    by_cases hsets : reachesLen d.faults n
    · rw [if_pos hsets, if_pos ⟨hlen, hsets⟩, Disk.view_push, hd]
      rfl
    · rw [if_neg hsets, if_neg fun h => hsets h.2, hd]
  rw [← hview, ← hdisk]
  rcases hset : (setLen n d : Outcome VolumeError Unit × Device Sealed) with ⟨_ | e | _, d₁⟩
  · rw [bind_ok hset]
    have hsync := view_syncAll (ε := VolumeError) d₁
    rcases hdone : (syncAll d₁ : Outcome VolumeError Unit × Device Sealed) with ⟨_ | e | _, d₂⟩ <;>
      rw [hdone] at hsync
    · rw [bind_ok hdone]
      exact hsync
    · rw [bind_error hdone]
      exact hsync
    · rw [bind_crash hdone]
      exact hsync
  · rw [bind_error hset]
  · rw [bind_crash hset]

/-- A candidate is chosen and cut off behind, or none is chosen and the file stays. -/
def ChoosesAs (img : Bytes) (chosen : Slot × SuperState → List Fault → Prop)
    (img' : Bytes) : Prop :=
  (∃ c fs, chosen c fs ∧ img' = cutOff img fs c.2.committedEnd.toNat) ∨
    (∀ c fs, ¬chosen c fs) ∧ img' = img

/-- **What selecting a candidate leaves of the file.** -/
theorem view_selectCandidate (candidates : List (Slot × SuperState)) {d : Device Sealed}
    (hd : d.disk.view = img) : ChoosesAs img (FirstUsable keys b img candidates d.faults)
      (selectCandidate keys b img.length candidates d).2.disk.view := by
  induction candidates generalizing d with
  | nil => exact Or.inr ⟨fun _ _ h => (nomatch h), hd⟩
  | cons candidate rest ih =>
    obtain ⟨slot, state⟩ := candidate
    unfold selectCandidate
    by_cases hend : state.committedEnd.toNat > img.length
    · rw [if_pos hend]
      rcases ih hd with ⟨c, fs, hfirst, hview⟩ | ⟨hnone, hview⟩
      · exact Or.inl ⟨c, fs, .tooLong hend hfirst, hview⟩
      · refine Or.inr ⟨fun c fs h => ?_, hview⟩
        cases h with
        | usable hfits _ => exact absurd hfits (not_le.mpr hend)
        | tooLong _ hrest => exact hnone _ _ hrest
        | unread hfits _ _ => exact absurd hfits (not_le.mpr hend)
    rw [if_neg hend]
    have hscanned : ReadsAs img (fun _ => True) (scanLog keys b state) (logSeen keys b img state)
      fun _ _ _ => True := readsAs_scanLog state
    have hlog := hscanned d hd trivial
    rcases hscan : scanLog keys b state d with ⟨o, d₁⟩
    rcases hseen : logSeen keys b img state d.faults with ⟨o', fs₁⟩
    rw [hscan, hseen] at hlog
    cases hlog with
    | ok hdisk _ =>
      rw [bind_ok (attempt_ok hscan)]
      exact Or.inl ⟨(slot, state), d₁.faults, .usable (not_lt.mp hend) hseen,
        view_cut (hdisk ▸ hd)⟩
    | lost hdisk =>
      rw [bind_ok (attempt_error hscan)]
      rcases ih (d := d₁) (hdisk ▸ hd) with ⟨c, fs, hfirst, hview⟩ | ⟨hnone, hview⟩
      · exact Or.inl ⟨c, fs, .unread (not_lt.mp hend) hseen hfirst, hview⟩
      · refine Or.inr ⟨fun c fs h => ?_, hview⟩
        cases h with
        | usable _ hseen' => exact absurd (hseen'.symm.trans hseen) (by simp)
        | tooLong hlong _ => exact hend hlong
        | unread _ hseen' hrest =>
          obtain ⟨-, rfl⟩ := Prod.mk.inj (hseen'.symm.trans hseen)
          exact hnone _ _ hrest
    | dead hdisk =>
      rw [bind_crash (attempt_crash hscan)]
      refine Or.inr ⟨fun c fs h => ?_, by rw [hdisk, hd]⟩
      cases h with
      | usable _ hseen' => exact absurd (hseen'.symm.trans hseen) (by simp)
      | tooLong hlong _ => exact hend hlong
      | unread _ hseen' _ => exact absurd (hseen'.symm.trans hseen) (by simp)

/-- The superblock that an open chooses, and what is left of the script then. -/
def Chosen (master img : Bytes) (faults : List Fault) (c : Slot × SuperState)
    (fs : List Fault) : Prop :=
  ∃ h fs₁ fs₂ fs₃, headsSeen master img faults = (.ok h, fs₁) ∧
    Reading.turn fs₁ = (.ok (), fs₂) ∧ h.super c.1 = some c.2 ∧
    c.2.committedEnd.toNat ≤ img.length ∧
    Awaits h.keys h.bootstrap img (h.super c.1.other) c.1 c.2 fs₂ fs₃ ∧
    logSeen h.keys h.bootstrap img c.2 fs₃ = (.ok (), fs)

/-- A file that is not there is not opened. -/
theorem view_openVolume_absent (master : Bytes) {d : Device Sealed} (hpresent : d.present = false) :
    (openVolume master d).2.disk = d.disk := by
  refine wp_outcome (R := fun _ (d' : Device Sealed) => d'.disk = d.disk) ?_
  unfold openVolume
  rw [wp_bind]
  refine wp_openFile_existing (fun d' _ hfound _ => ?_)
    (fun d' _ h _ => h.disk) fun d' h _ => h.disk
  rw [hpresent] at hfound
  exact absurd hfound (by decide)

/-- What is chosen, once the superblocks have been delivered. -/
theorem chosen_iff {faults fs fs₁ : List Fault} {h : Heads} {c : Slot × SuperState}
    (hseen : headsSeen master img faults = (.ok h, fs₁)) :
    Chosen master img faults c fs ↔ ∃ fs₂, Reading.turn fs₁ = (.ok (), fs₂) ∧
      FirstUsable h.keys h.bootstrap img (sortCandidates h.candidates) fs₂ c fs := by
  obtain ⟨slot, state⟩ := c
  simp only [h.firstUsable_iff]
  constructor
  · rintro ⟨h', fs₁', fs₂, fs₃, hseen', hturn, hsuper, hfits, hawaits, hlog⟩
    obtain ⟨hh, rfl⟩ := Prod.mk.inj (hseen'.symm.trans hseen)
    obtain rfl := Outcome.ok.inj hh
    exact ⟨fs₂, hturn, hsuper, hfits, fs₃, hawaits, hlog⟩
  · rintro ⟨fs₂, hturn, hsuper, hfits, fs₃, hawaits, hlog⟩
    exact ⟨h, fs₁, fs₂, fs₃, hseen, hturn, hsuper, hfits, hawaits, hlog⟩

/-- **What an open leaves of the file**, whatever its calls do. -/
theorem view_openVolume (master : Bytes) {d : Device Sealed} (hd : d.disk.view = img)
    (hpresent : d.present = true) :
    ChoosesAs img (Chosen master img d.faults) (openVolume master d).2.disk.view := by
  rw [openVolume_eq]
  have hslots := readsAs_readSlots master d hd hpresent
  rcases hread : readSlots master d with ⟨o, d₁⟩
  rcases hseen : headsSeen master img d.faults with ⟨o', fs₁⟩
  rw [hread, hseen] at hslots
  cases hslots with
  | lost hdisk =>
    rw [bind_error hread]
    refine Or.inr ⟨?_, by rw [hdisk, hd]⟩
    rintro c fs ⟨h, fs₁, -, -, hseen', -⟩
    exact absurd (hseen'.symm.trans hseen) (by simp)
  | dead hdisk =>
    rw [bind_crash hread]
    refine Or.inr ⟨?_, by rw [hdisk, hd]⟩
    rintro c fs ⟨h, fs₁, -, -, hseen', -⟩
    exact absurd (hseen'.symm.trans hseen) (by simp)
  | @ok r h _ hdisk hsame =>
    subst hsame
    rw [bind_ok hread]
    have hd₁ : d₁.disk.view = img := hdisk ▸ hd
    by_cases hempty : h.candidates.isEmpty
    · dsimp only
      rw [if_pos hempty]
      refine Or.inr ⟨fun c fs hchosen => ?_, hd₁⟩
      obtain ⟨_, _, husable⟩ := (chosen_iff hseen).mp hchosen
      rw [List.isEmpty_iff.mp hempty] at husable
      exact nomatch husable
    dsimp only
    rw [if_neg hempty]
    have hlen := ReadsAs.fileLen (ε := VolumeError) (P := fun _ => True) d₁ hd₁ trivial
    rcases hl : (fileLen d₁ : Outcome VolumeError ℕ × Device Sealed) with ⟨o₂, d₂⟩
    rcases hturn : Reading.turn d₁.faults with ⟨o₂', fs₂⟩
    rw [hl, hturn] at hlen
    cases hlen with
    | lost hdisk' =>
      rw [bind_error hl]
      refine Or.inr ⟨fun c fs hchosen => ?_, by rw [hdisk', hd₁]⟩
      obtain ⟨_, hturn', _⟩ := (chosen_iff hseen).mp hchosen
      exact absurd (hturn'.symm.trans hturn) (by simp)
    | dead hdisk' =>
      rw [bind_crash hl]
      refine Or.inr ⟨fun c fs hchosen => ?_, by rw [hdisk', hd₁]⟩
      obtain ⟨_, hturn', _⟩ := (chosen_iff hseen).mp hchosen
      exact absurd (hturn'.symm.trans hturn) (by simp)
    | ok hdisk' hlength =>
      subst hlength
      rw [bind_ok hl]
      rcases view_selectCandidate (sortCandidates h.candidates) (hdisk' ▸ hd₁) with
        ⟨c, fs, husable, hview⟩ | ⟨hnone, hview⟩
      · exact Or.inl ⟨c, fs, (chosen_iff hseen).mpr ⟨_, hturn, husable⟩, hview⟩
      · refine Or.inr ⟨fun c fs hchosen => ?_, hview⟩
        obtain ⟨_, hturn', husable⟩ := (chosen_iff hseen).mp hchosen
        obtain ⟨-, rfl⟩ := Prod.mk.inj (hturn'.symm.trans hturn)
        exact hnone c fs husable

theorem Chosen.unique {faults fs fs' : List Fault} {c c' : Slot × SuperState}
    (h : Chosen master img faults c fs) (h' : Chosen master img faults c' fs') :
    c = c' ∧ fs = fs' := by
  have ⟨_, _, _, _, hseen, _⟩ := h
  obtain ⟨fs₂, hturn, hfirst⟩ := (chosen_iff hseen).mp h
  obtain ⟨fs₂', hturn', hfirst'⟩ := (chosen_iff hseen).mp h'
  obtain ⟨-, rfl⟩ := Prod.mk.inj (hturn.symm.trans hturn')
  exact hfirst.unique hfirst'

/-! ## Committed bytes -/

/-- The slot of the image holds an authenticated superblock whose log fits the image. -/
structure Committed (master : Bytes) (img : Bytes) (slot : Slot) (state : SuperState) : Prop where
  holds : ∃ b keys, Bootstrap.decode (slice img 0 bootstrapSize) = .ok b ∧
    deriveKeys master b = .ok keys ∧ SlotHolds keys b img slot state
  fits : state.committedEnd.toNat ≤ img.length

omit [Crypto] in
/-- The first `n` bytes are still there. -/
def KeepsBelow (img img' : Bytes) (n : ℕ) : Prop := n ≤ img'.length ∧ slice img' 0 n = slice img 0 n

/-- The open cuts off and overwrites nothing that a superblock of the image has committed. -/
def SparesCommitted (master : Bytes) (d : Device Sealed) : Prop :=
  ∀ slot state, Committed master d.disk.view slot state →
    KeepsBelow d.disk.view (openVolume master d).2.disk.view state.committedEnd.toNat

/-- The script undercuts what the image has committed: of a slot it delivers a superblock, and its
log whole when its turn comes; the superblock ends before one that the image has committed; and the
change of the length reaches the file. -/
inductive Undercut (master img : Bytes) (faults : List Fault) : Prop where
  | intro {h : Heads} {slot newestSlot : Slot} {state newest : SuperState}
      {fs₁ fs₂ fs₃ fs : List Fault} :
      headsSeen master img faults = (.ok h, fs₁) → Reading.turn fs₁ = (.ok (), fs₂) →
      h.super slot = some state →
      Awaits h.keys h.bootstrap img (h.super slot.other) slot state fs₂ fs₃ →
      logSeen h.keys h.bootstrap img state fs₃ = (.ok (), fs) →
      Committed master img newestSlot newest → state.committedEnd < newest.committedEnd →
      reachesLen fs state.committedEnd.toNat → Undercut master img faults

/-- What undercuts is what the open chooses. -/
theorem undercut_iff {faults : List Fault} :
    Undercut master img faults ↔ ∃ c fs, Chosen master img faults c fs ∧
      (∃ slot newest, Committed master img slot newest ∧ c.2.committedEnd < newest.committedEnd) ∧
      reachesLen fs c.2.committedEnd.toNat := by
  constructor
  · rintro ⟨hseen, hturn, hsuper, hawaits, hlog, hnewest, hlt, hreaches⟩
    have hend := UInt64.lt_iff_toNat_lt.mp hlt
    have hfits := hnewest.fits
    exact ⟨(_, _), _, ⟨_, _, _, _, hseen, hturn, hsuper, hend.le.trans hfits, hawaits, hlog⟩,
      ⟨_, _, hnewest, hlt⟩, hreaches⟩
  · rintro ⟨c, fs, ⟨h, fs₁, fs₂, fs₃, hseen, hturn, hsuper, -, hawaits, hlog⟩,
      ⟨slot, newest, hnewest, hlt⟩, hreaches⟩
    exact ⟨hseen, hturn, hsuper, hawaits, hlog, hnewest, hlt, hreaches⟩

/-- **Opening destroys nothing committed exactly when the script undercuts nothing**, for every
image, every key and every script of the calls. -/
theorem open_spares_committed_iff (master : Bytes) (d : Device Sealed) :
    SparesCommitted master d ↔ ¬(d.present = true ∧ Undercut master d.disk.view d.faults) := by
  have hsame : ∀ n ≤ d.disk.view.length, KeepsBelow d.disk.view d.disk.view n :=
    fun n hn => ⟨hn, rfl⟩
  unfold SparesCommitted
  cases hpresent : d.present with
  | false =>
    rw [view_openVolume_absent master hpresent]
    exact iff_of_true (fun slot state h => hsame _ h.fits) (by simp)
  | true =>
    simp only [true_and, undercut_iff]
    rcases view_openVolume master rfl hpresent with ⟨c, fs, hchosen, hview⟩ | ⟨hnone, hview⟩
    swap
    · rw [hview]
      refine iff_of_true (fun slot state h => hsame _ h.fits) ?_
      exact fun ⟨c, fs, hchosen, _⟩ => hnone c fs hchosen
    rw [hview, cutOff]
    by_cases hcut : c.2.committedEnd.toNat < d.disk.view.length ∧
        reachesLen fs c.2.committedEnd.toNat
    · rw [if_pos hcut]
      constructor
      · rintro hspares ⟨c', fs', hchosen', ⟨slot, newest, hnewest, hlt⟩, -⟩
        obtain ⟨rfl, rfl⟩ := hchosen.unique hchosen'
        have hkept := (hspares slot newest hnewest).1
        rw [length_resize] at hkept
        exact absurd hkept (not_le.mpr (UInt64.lt_iff_toNat_lt.mp hlt))
      · intro hnot slot newest hnewest
        have hfits := hnewest.fits
        have hle : newest.committedEnd.toNat ≤ c.2.committedEnd.toNat := by
          by_contra hlt
          exact hnot ⟨c, fs, hchosen, ⟨slot, newest, hnewest,
            UInt64.lt_iff_toNat_lt.mpr (not_le.mp hlt)⟩, hcut.2⟩
        exact ⟨by rw [length_resize]; exact hle, slice_resize (by omega) (by omega)⟩
    · rw [if_neg hcut]
      refine iff_of_true (fun slot state h => hsame _ h.fits) ?_
      rintro ⟨c', fs', hchosen', ⟨slot, newest, hnewest, hlt⟩, hreaches⟩
      obtain ⟨rfl, rfl⟩ := hchosen.unique hchosen'
      have hend := UInt64.lt_iff_toNat_lt.mp hlt
      exact hcut ⟨hend.trans_le hnewest.fits, hreaches⟩

end Crypto

/-! ## One failed read -/

/-- Where the superblock of a slot says its log ends. -/
def slotEnd [Crypto] (master img : Bytes) (slot : Slot) : Option UInt64 :=
  match Bootstrap.decode (slice img 0 bootstrapSize) with
  | .error _ => none
  | .ok b =>
    match deriveKeys master b with
    | .error _ => none
    | .ok keys =>
      match decodeSuperblock keys b slot (slice img slot.offset superSlotSize) with
      | .ok (some state) => some state.committedEnd
      | _ => none

theorem committed_of_slotEnd [Crypto] {master img : Bytes} {slot : Slot} {n : UInt64}
    (h : slotEnd master img slot = some n) (hfits : n.toNat ≤ img.length)
    (hslot : slot.offset + superSlotSize ≤ img.length) :
    ∃ state, Committed master img slot state ∧ state.committedEnd = n := by
  unfold slotEnd at h
  split at h
  · exact absurd h (by simp)
  next b hb =>
  split at h
  · exact absurd h (by simp)
  next keys hkeys =>
  split at h
  · next state hdecode =>
    obtain rfl := Option.some.inj h
    exact ⟨state, ⟨⟨b, keys, hb, hkeys, hslot, hdecode⟩, hfits⟩, rfl⟩
  · exact absurd h (by simp)

/-- The call that reads the second slot fails, all others work. -/
def secondSlotFails : List Fault := [.none, .none, .none, .none, .none, .fail 0]

/-- What becomes of a volume with one batch, opened with that failure. -/
def reopenedFile [Crypto] (file : Device Sealed) : Bool × ℕ × Option UInt64 × ℕ :=
  match openVolume [7] (script secondSlotFails file) with
  | (.ok _, file') =>
    (true, file'.disk.view.length, slotEnd [7] file.disk.view .b, file.disk.view.length)
  | _ => (false, 0, none, 0)

/-- **A failed read of the newest slot cuts off what it has committed**, and the open succeeds. -/
theorem failed_read_truncates :
    let _ := tableCrypto []
    ∃ s s' gens, twoBlocks [7] = some s ∧ writeBlocks [(0, [1])] s = (.ok gens, s') ∧
      (∃ v file, openVolume [7] (script secondSlotFails s'.file) = (.ok v, file)) ∧
      ¬SparesCommitted [7] (script secondSlotFails s'.file) := by
  let _ := tableCrypto []
  have hexec : (twoBlocks [7]).map (fun s => ((writeBlocks [(0, [1])] s).1,
      reopenedFile (writeBlocks [(0, [1])] s).2.file)) =
      some (.ok [1], (true, 4096, some 4145, 4145)) := by
    decide +kernel
  obtain ⟨s, hs, hends⟩ := Option.map_eq_some_iff.mp hexec
  rcases hwrite : writeBlocks [(0, [1])] s with ⟨o, s'⟩
  rw [hwrite] at hends
  obtain ⟨rfl, hreopened⟩ := Prod.mk.inj hends
  unfold reopenedFile at hreopened
  split at hreopened
  swap
  · exact absurd hreopened (by simp)
  next v file hopen =>
  simp only [Prod.mk.injEq, true_and] at hreopened
  obtain ⟨hcut, hend, hlen⟩ := hreopened
  refine ⟨s, s', _, hs, hwrite, ⟨v, file, hopen⟩, fun hspares => ?_⟩
  have hslot : Slot.b.offset + superSlotSize ≤ s'.file.disk.view.length := by
    rw [hlen]
    decide
  obtain ⟨state, hcommitted, hstate⟩ := committed_of_slotEnd hend (hlen ▸ le_rfl) hslot
  have hkept := (hspares .b state hcommitted).1
  rw [hopen, hcut, hstate] at hkept
  exact absurd hkept (by decide)

end OrIsyVra.Volume
