import OrIsyVra.Volume.CrashSafety
import OrIsyVra.Volume.FailedUpdates

/-!
# The journal of a volume

What a volume knows of its history.  The journal is the list of the block writes that were
committed, in their order; `Enters` says what each event adds to it: the blocks of a batch that
returned, and all or none of those of a batch that was cut short.

Everything a volume reports is read off its journal.  It counts the records, the blocks that were
ever written and the writes of each block, knows where the log ends, and serves for each block what
was written last (`volume_keeps_journal`).  So a history may be told in one way only: neither a
reopening nor a power failure is seen in the numbers, and two volumes with the same journal report
the same but for the generation of their superblocks.
-/

namespace OrIsyVra.Volume

open ByteString MachineWord DurableFile FaultProgram KeyedLog Runs

/-- The committed writes of blocks, in order. -/
abbrev Journal := List (UInt64 × Bytes)

namespace Journal

/-- The bytes of the records. -/
def size (journal : Journal) : ℕ :=
  (journal.map fun p => recordHeaderSize + (p.2.length + aeadTagSize)).sum

/-- The blocks that have been written. -/
def blocks (journal : Journal) : Finset UInt64 := (journal.map Prod.fst).toFinset

end Journal

/-- **What an event enters into the journal.**  A batch that returns is told, for each of its
blocks, how many writes of it there are now. -/
inductive Enters (journal : Journal) : Event → Journal → Prop where
  | written {blocks : List (UInt64 × Bytes)} {gens : List UInt64} :
      gens.map UInt64.toNat = blocks.map (fun p => assignments journal p.1 + 1) →
      Enters journal (.call (.writeBlocks blocks) (.ok (.generations gens))) (journal ++ blocks)
  | kept {blocks : List (UInt64 × Bytes)} :
      Enters journal (.call (.writeBlocks blocks) .crash) (journal ++ blocks)
  | nothing {e : Event} : (∀ blocks r, e ≠ .call (.writeBlocks blocks) (.ok r)) →
      Enters journal e journal

/-- **The volume keeps the journal**: what it has in memory is what the journal says. -/
structure Books (journal : Journal) (v : Volume) : Prop where
  lookup : ∀ k r, v.index.lookup k = some r → r.generation.toNat = assignments journal k
  allocated : ∀ k, k ∈ v.index.keys ↔ k ∈ journal.map Prod.fst
  inRange : ∀ k ∈ journal.map Prod.fst, k < v.bootstrap.blockCount
  recordCount : v.state.recordCount.toNat = journal.length
  committedEnd : v.state.committedEnd.toNat = logStart.toNat + journal.size

/-- The log lists the writes of the journal. -/
def Lists (journal : Journal) (es : List Entry) : Prop :=
  es.map (fun e => (e.header.blockIndex, e.payload)) = journal

theorem Lists.served {journal : Journal} {es : List Entry} (h : Lists journal es) :
    served es = assign (fun _ => none) journal := by
  rw [← h, Volume.served, replay, List.map_map]
  rfl

/-! ## Entering a batch -/

section Index

variable {index : Index} {k : UInt64} {records : List (UInt64 × RecordIndex)}

theorem keys_insertRecords :
    k ∈ (insertRecords index records).keys ↔ k ∈ index.keys ∨ k ∈ records.map Prod.fst := by
  induction records generalizing index with
  | nil => simp [insertRecords]
  | cons record records ih =>
    have hfold : insertRecords index (record :: records) =
        insertRecords (index.insert record.1 record.2) records := rfl
    rw [hfold, ih, List.map_cons, List.mem_cons, Finmap.mem_keys,
      Finmap.mem_insert, Finmap.mem_keys]
    tauto

/-- A block is found as it was, or as the batch left it. -/
theorem lookup_insertRecords {r : RecordIndex}
    (h : (insertRecords index records).lookup k = some r) :
    index.lookup k = some r ∧ k ∉ records.map Prod.fst ∨ (k, r) ∈ records := by
  induction records generalizing index with
  | nil => exact Or.inl ⟨h, List.not_mem_nil⟩
  | cons record records ih =>
    have h' : (insertRecords (index.insert record.1 record.2) records).lookup k = some r := h
    rcases ih h' with ⟨hfound, hnot⟩ | hmem
    · by_cases hk : k = record.1
      · subst hk
        rw [Finmap.lookup_insert] at hfound
        exact Or.inr (List.mem_cons.mpr (Or.inl (by rw [← Option.some.inj hfound])))
      · rw [Finmap.lookup_insert_of_ne _ hk] at hfound
        refine Or.inl ⟨hfound, ?_⟩
        rw [List.map_cons, List.mem_cons]
        exact not_or.mpr ⟨hk, hnot⟩
    · exact Or.inr (List.mem_cons_of_mem _ hmem)

end Index

section Crypto

variable [Crypto] {master : Bytes} {v v' : Volume} {es es' : List Entry} {journal : Journal}
  {blocks : List (UInt64 × Bytes)} {offset last : UInt64} {rs : List Appended}

omit [Crypto] in
/-- The generation of the next record of a block counts one more write of it. -/
theorem Books.nextGeneration (h : Books journal v) {k generation : UInt64}
    (hnext : Volume.nextGeneration v.index k = .ok generation) :
    generation.toNat = assignments journal k + 1 := by
  unfold Volume.nextGeneration at hnext
  cases hlookup : v.index.lookup k with
  | none =>
    rw [hlookup] at hnext
    have hnot : k ∉ v.index.keys := by
      rw [Finmap.mem_keys, ← Finmap.lookup_isSome, hlookup]
      simp
    rw [assignments_eq_zero.mpr fun hmem => hnot ((h.allocated k).mpr hmem), ← Except.ok.inj hnext]
    rfl
  | some r =>
    rw [hlookup] at hnext
    dsimp only at hnext
    split at hnext
    · exact absurd hnext (by simp)
    next hadd =>
    rw [← Except.ok.inj hnext, checkedAdd_eq_some.mp hadd, h.lookup k r hlookup]
    rfl

/-- The records of a batch are of its blocks, and count their writes. -/
theorem Appends.numbered (h : Appends v offset blocks rs last) (hbooks : Books journal v) :
    rs.map (fun r => (r.header.blockIndex, r.header.generation.toNat)) =
      blocks.map fun p => (p.1, assignments journal p.1 + 1) := by
  induction h with
  | nil offset => rfl
  | cons hgeneration hheader _ _ _ _ ih =>
    obtain ⟨hblock, hgen, -⟩ := recordHeader_eq_ok hheader
    rw [List.map_cons, List.map_cons, ih, ← hbooks.nextGeneration hgeneration]
    dsimp only
    rw [hblock, hgen]

theorem Appends.size [LawfulCrypto] (h : Appends v offset blocks rs last) :
    last.toNat = offset.toNat + Journal.size blocks := by
  unfold Journal.size
  induction h with
  | nil offset => rfl
  | cons _ _ hencrypt hnext _ _ ih =>
    rw [ih, hnext, LawfulCrypto.length_encrypt _ _ _ _ _ hencrypt, List.map_cons, List.sum_cons]
    dsimp only
    omega

/-- **A batch is entered**: its blocks are behind the journal, and everything counts them. -/
theorem Books.batch [LawfulCrypto] (h : Books journal v) {next : SuperState}
    (hvalid : BatchValid v.bootstrap blocks)
    (happends : Appends v v.state.committedEnd blocks rs last)
    (hnext : commitState v.state rs.length last = .ok next) :
    Books (journal ++ blocks) (committed v rs next) := by
  obtain ⟨-, hend, hcount, -⟩ := commitState_eq_ok hnext
  have hgens := happends.numbered h
  have hkeys : (rs.map Appended.indexed).map Prod.fst = blocks.map Prod.fst := by
    have hfirst := congrArg (List.map Prod.fst) hgens
    rw [List.map_map, List.map_map] at hfirst
    rw [List.map_map]
    exact hfirst
  refine ⟨fun k r hr => ?_, fun k => ?_, fun k hk => ?_, ?_, ?_⟩
  · rcases lookup_insertRecords hr with ⟨hfound, hnot⟩ | hmem
    · rw [hkeys] at hnot
      rw [assignments_append, assignments_eq_zero.mpr hnot, Nat.add_zero]
      exact h.lookup k r hfound
    · obtain ⟨appended, hmem', heq⟩ := List.mem_map.mp hmem
      have hpair : (appended.header.blockIndex, appended.header.generation.toNat) ∈
          blocks.map fun p => (p.1, assignments journal p.1 + 1) := by
        rw [← hgens]
        exact List.mem_map.mpr ⟨appended, hmem', rfl⟩
      obtain ⟨p, hp, hpeq⟩ := List.mem_map.mp hpair
      obtain ⟨hblock, hgen⟩ := Prod.mk.inj hpeq
      obtain ⟨rfl, rfl⟩ := Prod.mk.inj heq
      have honce := assignments_of_nodup hvalid.distinct (List.mem_map.mpr ⟨p, hp, rfl⟩)
      rw [assignments_append, ← hblock, honce]
      exact hgen.symm
  · rw [List.map_append, List.mem_append, ← h.allocated k, ← hkeys]
    exact keys_insertRecords
  · rw [List.map_append, List.mem_append] at hk
    rcases hk with hk | hk
    · exact h.inRange k hk
    · obtain ⟨p, hp, rfl⟩ := List.mem_map.mp hk
      exact hvalid.inRange p hp
  · show next.recordCount.toNat = _
    rw [hcount, h.recordCount, List.length_append, happends.length_eq]
  · show next.committedEnd.toNat = _
    rw [hend, happends.size, h.committedEnd, Journal.size, Journal.size, Journal.size,
      List.map_append, List.sum_append, Nat.add_assoc]

omit [Crypto] in
theorem Books.reflagged (h : Books journal v) (clean : Bool) :
    Books journal (Volume.reflagged v clean) :=
  ⟨h.lookup, h.allocated, h.inRange, h.recordCount, h.committedEnd⟩

/-- What a batch leaves is the journal with its blocks. -/
theorem Logs.books [LawfulCrypto] {gens : List UInt64} (h : Logs v es blocks gens v' es')
    (hbooks : Books journal v) (hlists : Lists journal es) :
    Books (journal ++ blocks) v' ∧ Lists (journal ++ blocks) es' ∧
      gens.map UInt64.toNat = blocks.map fun p => assignments journal p.1 + 1 := by
  cases h with
  | nothing hempty =>
    rw [hempty, List.append_nil]
    exact ⟨hbooks, hlists, rfl⟩
  | batch hvalid happends hnext =>
    refine ⟨hbooks.batch hvalid happends hnext, ?_, ?_⟩
    · rw [Lists, List.map_append, hlists]
      have hitems := happends.items
      rw [List.map_map] at hitems
      rw [← hitems]
      rfl
    · have hsecond := congrArg (List.map Prod.snd) (happends.numbered hbooks)
      rw [List.map_map, List.map_map] at hsecond
      rw [List.map_map]
      exact hsecond

/-! ## Calls -/

/-- What a call that returns leaves of a volume and its log. -/
def Call.leaves (v : Volume) (es : List Entry) : Call → Reply → Volume → List Entry → Prop
  | .writeBlocks blocks, r, v', es' => ∃ gens, r = .generations gens ∧ Logs v es blocks gens v' es'
  | .markClean, _, v', es' => Flags v es true () v' es'
  | .markDirty, _, v', es' => Flags v es false () v' es'
  | _, r, v', es' => Same v es r v' es'

theorem Settles.map {α β : Type} {s' : Session} {next : α → Volume → List Entry → Prop}
    {next' : β → Volume → List Entry → Prop} {o : Outcome VolumeError α}
    (h : Settles master v es next o s') (f : α → β)
    (hnext : ∀ a v' es', next a v' es' → next' (f a) v' es') :
    Settles master v es next' (o.map f) s' := by
  obtain ⟨hok, herror, hcrash⟩ := h
  cases o with
  | ok a =>
    refine ⟨fun b hb => ?_, by simp [Outcome.map], by simp [Outcome.map]⟩
    obtain rfl := Outcome.ok.inj hb
    exact (hok a rfl).imp fun _ h => ⟨h.1, hnext _ _ _ h.2⟩
  | error e => exact ⟨by simp [Outcome.map], fun _ _ => herror e rfl, by simp [Outcome.map]⟩
  | crash =>
    refine ⟨by simp [Outcome.map], by simp [Outcome.map], fun _ file hcut => ?_⟩
    refine (hcrash rfl file hcut).imp id ?_
    rintro ⟨a, v', es', hsettled, hnext'⟩
    exact ⟨f a, v', es', hsettled, hnext _ _ _ hnext'⟩

/-- **Every call leaves the volume and its log as they were, or as `Call.leaves` says.** -/
theorem Call.settles [LawfulCrypto] (c : Call) {s : Session} (h : Settled master s.volume es s.file)
    (hpower : PowerOnly s.file.faults) (hlimit : s.volume.state.generation.toNat + 1 < 2 ^ 64) :
    Settles master s.volume es (c.leaves s.volume es) (c.run s).1 (c.run s).2 := by
  cases c with
  | readBlock k =>
    rw [Call.run, run_map]
    exact (readBlock_settles h hpower k).map _ fun _ _ _ h => h
  | writeBlocks blocks =>
    rw [Call.run, run_map]
    exact (writeBlocks_settles h hpower).map _ fun gens _ _ h => ⟨gens, rfl, h⟩
  | markClean =>
    rw [Call.run, run_map]
    exact (setCleanState_settles h hpower hlimit).map _ fun _ _ _ h => h
  | markDirty =>
    rw [Call.run, run_map]
    exact (setCleanState_settles h hpower hlimit).map _ fun _ _ _ h => h
  | sync =>
    rw [Call.run, run_map]
    exact (sync_settles h).map _ fun _ _ _ h => h

/-- The volume and its log hold the journal. -/
structure Accounts (b : Bootstrap) (journal : Journal) (v : Volume) (es : List Entry) : Prop where
  bootstrap : v.bootstrap = b
  books : Books journal v
  lists : Lists journal es

/-- **A call that gets through enters what it does into the journal**, whether it returns or is cut
short. -/
theorem Accounts.call [LawfulCrypto] {b : Bootstrap} (h : Accounts b journal v es) {c : Call}
    {r : Reply}
    (hleaves : c.leaves v es r v' es') : ∃ journal', Enters journal (.call c (.ok r)) journal' ∧
      Enters journal (.call c .crash) journal' ∧ Accounts b journal' v' es' := by
  obtain ⟨rfl, hbooks, hlists⟩ := h
  have hflags : ∀ {clean : Bool}, Flags v es clean () v' es' →
    Accounts v.bootstrap journal v' es' := by
    rintro clean ⟨rfl, rfl | rfl⟩
    · exact ⟨rfl, hbooks, hlists⟩
    · exact ⟨rfl, hbooks.reflagged clean, hlists⟩
  cases c with
  | writeBlocks blocks =>
    obtain ⟨gens, rfl, hlogs⟩ := hleaves
    obtain ⟨hbooks', hlists', hgens⟩ := hlogs.books hbooks hlists
    exact ⟨_, .written hgens, .kept, hlogs.served.1, hbooks', hlists'⟩
  | markClean => exact ⟨journal, .nothing (by simp), .nothing (by simp), hflags hleaves⟩
  | markDirty => exact ⟨journal, .nothing (by simp), .nothing (by simp), hflags hleaves⟩
  | readBlock k =>
    obtain ⟨rfl, rfl⟩ := hleaves
    exact ⟨journal, .nothing (by simp), .nothing (by simp), rfl, hbooks, hlists⟩
  | sync =>
    obtain ⟨rfl, rfl⟩ := hleaves
    exact ⟨journal, .nothing (by simp), .nothing (by simp), rfl, hbooks, hlists⟩

/-! ## Runs -/

/-- The world holds the journal: in its file, and in the memory of the process that has it open. -/
def World.Accounts (master : Bytes) (b : Bootstrap) : World → Journal → Prop
  | .live s, journal => ∃ es, Volume.Accounts b journal s.volume es ∧
      Settled master s.volume es s.file
  | .down file, journal => ∃ v es, Volume.Accounts b journal v es ∧ Settled master v es file

/-- **Each step enters what it does into the journal.** -/
theorem step_enters [LawfulCrypto] {b : Bootstrap} {w w' : World} {e : Event}
    (hw : w.Accounts master b journal) (h : Step (powerFailures master) master w e w') :
    ∃ journal', Enters journal e journal' ∧ w'.Accounts master b journal' := by
  have hscript : ∀ {v es file} fs, Settled master v es file →
    Settled master v es (script fs file) :=
    fun fs h => h.same rfl rfl
  cases h with
  | @call s s' c fs o hpermits hfs hrun ho =>
    obtain ⟨es, haccounts, hsettled⟩ := hw
    have hsettles := Call.settles (s := s.script fs) c (hscript fs hsettled) hfs hpermits
    rw [hrun] at hsettles
    cases o with
    | ok r =>
      obtain ⟨es', hsettled', hleaves⟩ := hsettles.ok r rfl
      obtain ⟨journal', henters, -, haccounts'⟩ := haccounts.call hleaves
      exact ⟨journal', henters, es', haccounts', hsettled'⟩
    | error e =>
      obtain ⟨hvolume, hsettled'⟩ := hsettles.error e rfl
      refine ⟨journal, .nothing (by simp), es, ?_, ?_⟩
      · rw [hvolume]
        exact haccounts
      · rw [hvolume]
        exact hsettled'
    | crash => exact absurd rfl ho
  | @crashed s s' c fs file hpermits hfs hrun hcut =>
    obtain ⟨es, haccounts, hsettled⟩ := hw
    have hsettles := Call.settles (s := s.script fs) c (hscript fs hsettled) hfs hpermits
    rw [hrun] at hsettles
    rcases hsettles.crash rfl file hcut with hlost | ⟨r, v', es', hsettled', hleaves⟩
    · exact ⟨journal, .nothing (by simp), s.volume, es, haccounts, hlost⟩
    · obtain ⟨journal', -, henters, haccounts'⟩ := haccounts.call hleaves
      exact ⟨journal', henters, v', es', haccounts', hsettled'⟩
  | close => exact ⟨journal, .nothing (by simp), _, hw⟩
  | @opened file file' v fs _ hfs hrun =>
    obtain ⟨v₀, es, haccounts, hsettled⟩ := hw
    obtain ⟨rfl, hsettled'⟩ := (openVolume_settles (hscript fs hsettled) hfs).1 v (by rw [hrun])
    rw [hrun] at hsettled'
    exact ⟨journal, .nothing (by simp), es, haccounts, hsettled'⟩
  | @openFailed file file' e fs _ hfs hrun =>
    obtain ⟨v₀, es, haccounts, hsettled⟩ := hw
    exact absurd (by rw [hrun]) ((openVolume_settles (hscript fs hsettled) hfs).2.1 e)
  | @openCrashed file file' file'' fs _ hfs hrun hcut =>
    obtain ⟨v₀, es, haccounts, hsettled⟩ := hw
    obtain ⟨-, hsettled'⟩ := (openVolume_settles (hscript fs hsettled) hfs).2.2 (by rw [hrun])
    rw [hrun] at hsettled'
    exact ⟨journal, .nothing (by simp), v₀, es, haccounts, hsettled'.powerCut hcut⟩
  | @cutLive s file hcut =>
    obtain ⟨es, haccounts, hsettled⟩ := hw
    exact ⟨journal, .nothing (by simp), s.volume, es, haccounts, hsettled.powerCut hcut⟩
  | @cutDown file file' hcut =>
    obtain ⟨v₀, es, haccounts, hsettled⟩ := hw
    exact ⟨journal, .nothing (by simp), v₀, es, haccounts, hsettled.powerCut hcut⟩

/-- A new volume has an empty journal. -/
theorem accounts_created [LawfulCrypto] {options : VolumeOptions} {volumeId salt : FixedBytes 32}
    {d d' : Device Sealed} (hcreate : createVolume master options volumeId salt d = (.ok v, d')) :
    World.Accounts master v.bootstrap (.live ⟨v, d'⟩) [] := by
  have hcreated := createVolume_ok hcreate
  refine ⟨[], ⟨rfl, ⟨fun k r hr => ?_, fun k => ?_, fun k hk => absurd hk List.not_mem_nil, ?_, ?_⟩,
    rfl⟩, hcreated.present, hcreated.onDisk, fun u hu => ?_⟩
  · rw [hcreated.index] at hr
    exact absurd hr (by simp)
  · rw [hcreated.index]
    simp
  · rw [hcreated.state]
    rfl
  · rw [hcreated.state]
    rfl
  · rw [hcreated.pending] at hu
    exact absurd hu List.not_mem_nil

/-! ## What is reported -/

/-- **The reports of a volume** are what its journal says. -/
structure Reports (journal : Journal) (s : Session) : Prop where
  recordCount : (info s.volume).recordCount.toNat = journal.length
  allocatedBlocks : (info s.volume).allocatedBlocks = journal.blocks.card
  allocated_le : journal.blocks.card ≤ s.volume.bootstrap.blockCount.toNat
  committedEnd : s.volume.state.committedEnd.toNat = logStart.toNat + journal.size
  blockGeneration : ∀ k, (blockGeneration k s).1 =
    if k < s.volume.bootstrap.blockCount then
      .ok (if k ∈ journal.blocks then some (UInt64.ofNat (assignments journal k)) else none)
    else .error .blockOutOfRange
  readBlock : ∀ k, (readBlock k (s.script [])).1 =
    if k < s.volume.bootstrap.blockCount then .ok (assign (fun _ => none) journal k)
    else .error .blockOutOfRange

omit [Crypto] in
theorem Books.keys (h : Books journal v) : v.index.keys = journal.blocks := by
  ext k
  rw [h.allocated, Journal.blocks, List.mem_toFinset]

omit [Crypto] in
/-- There are no more blocks than those of the volume. -/
theorem Books.blocks_le (h : Books journal v) :
    journal.blocks.card ≤ v.bootstrap.blockCount.toNat := by
  have hmap : journal.blocks.map ⟨UInt64.toNat, fun _ _ => UInt64.toNat_inj.mp⟩ ⊆
      Finset.range v.bootstrap.blockCount.toNat := by
    intro n hn
    obtain ⟨k, hk, rfl⟩ := Finset.mem_map.mp hn
    exact Finset.mem_range.mpr (UInt64.lt_iff_toNat_lt.mp (h.inRange k (List.mem_toFinset.mp hk)))
  rw [← Finset.card_map, ← Finset.card_range v.bootstrap.blockCount.toNat]
  exact Finset.card_le_card hmap

omit [Crypto] in
/-- A block that was written has the generation that counts its writes. -/
theorem Books.blockGeneration (h : Books journal v) (file : Device Sealed) (k : UInt64) :
    (Volume.blockGeneration k ⟨v, file⟩).1 =
      if k < v.bootstrap.blockCount then
        .ok (if k ∈ journal.blocks then some (UInt64.ofNat (assignments journal k)) else none)
      else .error .blockOutOfRange := by
  rw [blockGeneration_eq, validateBlockIndex]
  by_cases hin : k < v.bootstrap.blockCount
  swap
  · rw [if_pos (UInt64.not_lt.mp hin), if_neg hin]
  rw [if_neg (UInt64.not_le.mpr hin), if_pos hin, ← h.keys]
  cases hlookup : v.index.lookup k with
  | none =>
    have hnot : k ∉ v.index.keys := by
      rw [Finmap.mem_keys, ← Finmap.lookup_isSome, hlookup]
      simp
    rw [if_neg hnot]
    rfl
  | some r =>
    have hmem : k ∈ v.index.keys := by
      rw [Finmap.mem_keys, ← Finmap.lookup_isSome, hlookup]
      rfl
    rw [if_pos hmem, ← h.lookup k r hlookup, UInt64.ofNat_toNat]
    rfl

/-- **A volume keeps its journal.**  From a new volume on, whatever is called, closed, opened and
cut short by power failures, there is one journal that the events enter; and what an open volume
reports, its counts of records, of blocks and of the writes of each block, the end of its log and
what it serves, is what this journal says. -/
theorem volume_keeps_journal [LawfulCrypto] {options : VolumeOptions}
    {volumeId salt : FixedBytes 32} {d d' : Device Sealed} {events : List Event} {s : Session}
    (hcreate : createVolume master options volumeId salt d = (.ok v, d'))
    (hrun : Run (Step (powerFailures master) master) (.live ⟨v, d'⟩) events (.live s)) :
    ∃ journal, Run Enters [] events journal ∧ Reports journal s := by
  obtain ⟨journal, hjournal, es, ⟨-, hbooks, hlists⟩, hsettled⟩ :=
    hrun.simulation (accounts_created hcreate) fun _ _ _ _ hw hstep => step_enters hw hstep
  have hstores :
    Stores master s.volume.bootstrap s.volume (assign (fun _ => none) journal) s.file :=
    ⟨rfl, es, hsettled, hlists.served⟩
  exact ⟨journal, hjournal, hbooks.recordCount, congrArg Finset.card hbooks.keys, hbooks.blocks_le,
    hbooks.committedEnd, hbooks.blockGeneration s.file, hstores.serves⟩

end Crypto

/-- After two power cuts the volume is opened once more. -/
theorem volume_keeps_journal_twoCuts :
    let _ := tableCrypto []
    ∃ s s' journal, twoBlocks [7] = some s ∧
      Run (Step (powerFailures [7]) [7]) (.live s) (twoCutsEvents ++ [.reopen (.ok ())])
        (.live s') ∧
      Run Enters [] (twoCutsEvents ++ [.reopen (.ok ())]) journal ∧ Reports journal s' := by
  let _ := tableCrypto []
  have _ := tableCrypto_lawful []
  obtain ⟨s, w, s', hs, hcuts, hreopen⟩ := twoCuts_run
  have hrun := hcuts.step hreopen
  obtain ⟨journal, hjournal, hreports⟩ := volume_keeps_journal (createSession_eq_some.mp hs) hrun
  exact ⟨s, s', journal, hs, hrun, hjournal, hreports⟩

end OrIsyVra.Volume
