import OrIsyVra.Volume.Tampering

/-!
# The newest superblock pins the log

Nothing hashes the log: the superblock says where it ends and how many records it has.  While every
update has succeeded that is enough.  The records the volume has sealed are then exactly those of
its log (`Faultless`), so a log that an attacker has put together out of sealed records, with as
many of them and the generations of each block ascending, is the log in some order
(`Faultless.scans_perm`), and the order does not matter to what the blocks hold
(`superblock_pins_log`).
-/

namespace OrIsyVra.Volume

open ByteString MachineWord DurableFile FaultProgram KeyedLog Runs

section Crypto

variable [Crypto] {master : Bytes} {s s' : Session} {es : List Entry}

/-- An update succeeds. -/
def Succeeds (s : Session) (c : Call) (s' : Session) : Prop :=
  c.isUpdate = true ∧ ∃ fs r, c.run (s.script fs) = (.ok r, s')

/-- In the log area of the image the cipher opens, under the key of the volume, only what is on the
trace. -/
def OpensSealed (keys : VolumeKeys) (trace : List Sealed) (img : Bytes) : Prop :=
  ∀ nonce aad off n message, logStart.toNat ≤ off →
    Crypto.decrypt keys.key nonce aad (slice img off n) = some message →
      ∃ x ∈ trace, x.nonce = nonce ∧ x.aad = aad ∧ x.message = message

/-- The volume is what the file holds, and every record ever sealed is in its log. -/
structure Faultless (master : Bytes) (s : Session) (es : List Entry) : Prop where
  sees : Sees master s es
  limit : s.volume.state.committedEnd.toNat < maxOffset
  records : ∀ x ∈ s.file.trace,
    (∃ e ∈ es, x = dataSeal s.volume.keys s.volume.bootstrap e.header e.payload) ∨
    ∃ slot state, x = superSeal s.volume.keys s.volume.bootstrap slot state

/-! ## Successful updates seal what they log -/

/-- A superblock on the trace is no record. -/
theorem Faultless.super {b : Bootstrap} {keys : VolumeKeys} {trace : List Sealed} {slot : Slot}
    {state : SuperState}
    (h : ∀ x ∈ trace, (∃ e ∈ es, x = dataSeal keys b e.header e.payload) ∨
      ∃ slot state, x = superSeal keys b slot state) :
    ∀ x ∈ trace ++ [superSeal keys b slot state],
      (∃ e ∈ es, x = dataSeal keys b e.header e.payload) ∨
        ∃ slot state, x = superSeal keys b slot state := by
  intro x hx
  rcases List.mem_append.mp hx with hm | hm
  · exact h x hm
  · exact Or.inr ⟨slot, state, List.mem_singleton.mp hm⟩

theorem Faultless.writeBlocks [LawfulCrypto] {blocks : List (UInt64 × Bytes)} {gens : List UInt64}
    (h : Faultless master s es) (heffect : WriteEffect s blocks (.ok gens) s') :
    ∃ es', Faultless master s' es' := by
  have hlogged : ∀ {rs last next file bytes}, BatchValid s.volume.bootstrap blocks →
      Appends s.volume s.volume.state.committedEnd blocks rs last →
      commitState s.volume.state rs.length last = .ok next →
      SlotImage s.volume.keys s.volume.bootstrap s.volume.activeSuper.other next bytes →
      file.disk.view = ((s.file.disk.pushAll (rs.flatMap Appended.updates)).sync.push
        (.write s.volume.activeSuper.other.offset bytes)).view →
      file.trace = s.file.trace ++ (rs.map (Appended.sealed s.volume) ++
        [superSeal s.volume.keys s.volume.bootstrap s.volume.activeSuper.other next]) →
      Faultless master ⟨Volume.committed s.volume rs next, file⟩ (es ++ rs.map Appended.entry) := by
    intro rs last next file bytes hvalid happends hnext himage hview htrace
    have hmoves : Moves s.volume es (Volume.committed s.volume rs next)
      (es ++ rs.map Appended.entry) :=
      .batch hvalid happends hnext
    refine ⟨?_, hmoves.limit h.limit, fun x hx => ?_⟩
    · rw [Sees, hview]
      exact h.sees.commit hvalid happends hnext himage
    · rw [htrace, ← List.append_assoc] at hx
      refine Faultless.super (fun x hx => ?_) x hx
      rcases List.mem_append.mp hx with hm | hm
      · refine (h.records x hm).imp ?_ id
        rintro ⟨e, he, rfl⟩
        exact ⟨e, List.mem_append_left _ he, rfl⟩
      · obtain ⟨r, hr, rfl⟩ := List.mem_map.mp hm
        exact Or.inl ⟨r.entry, List.mem_append_right _ (List.mem_map_of_mem hr), rfl⟩
  cases heffect with
  | empty _ => exact ⟨es, h⟩
  | staging _ _ _ _ hno _ _ => exact absurd rfl (hno gens)
  | uncommitted _ _ _ hend =>
    rcases hend with ⟨-, e, he, -⟩ | ⟨_, -, -, hcut⟩
    · exact absurd he (by simp)
    · exact absurd hcut id
  | torn _ _ _ _ _ hcut _ => exact absurd hcut id
  | unsynced _ _ _ _ _ hcut => exact absurd hcut id
  | committed hvalid happends hnext himage hafter =>
    exact ⟨_, hlogged hvalid happends hnext himage
      (by rw [hafter.disk, Disk.view_sync]) hafter.trace⟩

theorem Faultless.setCleanState [LawfulCrypto] {clean : Bool} (h : Faultless master s es)
    (heffect : CleanEffect s clean (.ok ()) s') : Faultless master s' es := by
  obtain ⟨hmoves, hsees⟩ := heffect.moves h.sees
  refine ⟨hsees, hmoves.limit h.limit, ?_⟩
  cases heffect with
  | unchanged _ => exact h.records
  | untouched _ _ hcut => exact absurd hcut id
  | torn _ _ _ hcut _ => exact absurd hcut id
  | changed _ _ hafter =>
    rw [hafter.trace]
    exact Faultless.super h.records

/-- **A successful update keeps the volume faultless.** -/
theorem Faultless.step [LawfulCrypto] {c : Call} (h : Faultless master s es)
    (hstep : Succeeds s c s') :
    ∃ es', Faultless master s' es' := by
  obtain ⟨hupdate, fs, r, hrun⟩ := hstep
  have hscripted : ∀ fs, Faultless master (s.script fs) es := fun fs => ⟨h.sees, h.limit, h.records⟩
  have hok : ∀ {α : Type} {p : Prog Session VolumeError α} {f : α → Reply} {fs r},
      (f <$> p) (s.script fs) = (.ok r, s') → ∃ a, p (s.script fs) = (.ok a, s') := by
    intro α p f fs r hp
    rw [run_map] at hp
    rcases hrun : p (s.script fs) with ⟨a | e | _, t⟩ <;> rw [hrun] at hp
    · obtain rfl : t = s' := (Prod.mk.inj hp).2
      exact ⟨a, rfl⟩
    · exact absurd (Prod.mk.inj hp).1 (by simp [Outcome.map])
    · exact absurd (Prod.mk.inj hp).1 (by simp [Outcome.map])
  have hflag : ∀ {clean fs a}, Volume.setCleanState clean (s.script fs) = (.ok a, s') →
      ∃ es', Faultless master s' es' := by
    intro clean fs a hflag
    have heffect := setCleanState_effect (s.script fs) clean
    rw [hflag] at heffect
    exact ⟨es, (hscripted fs).setCleanState heffect⟩
  cases c with
  | readBlock k => exact absurd hupdate Bool.false_ne_true
  | sync => exact absurd hupdate Bool.false_ne_true
  | writeBlocks blocks =>
    obtain ⟨gens, hwrite⟩ := hok hrun
    have heffect := writeBlocks_effect (s.script fs) blocks
    rw [hwrite] at heffect
    exact (hscripted fs).writeBlocks heffect
  | markClean =>
    obtain ⟨a, hmark⟩ := hok hrun
    exact hflag hmark
  | markDirty =>
    obtain ⟨a, hmark⟩ := hok hrun
    exact hflag hmark

/-- A new volume is faultless. -/
theorem faultless_of_created [LawfulCrypto] {d d' : Device Sealed} {v : Volume}
    (hnew : d.trace = []) (h : Created master d v d') : Faultless master ⟨v, d'⟩ [] := by
  have hview : d'.disk.view = d'.disk.durable := by
    rw [Disk.view, h.pending]
    rfl
  have honDisk := h.onDisk
  rw [← hview] at honDisk
  refine ⟨honDisk.toOpened, honDisk.limit, fun x hx => Or.inr ?_⟩
  rw [h.trace, hnew, List.nil_append] at hx
  rcases List.mem_pair.mp hx with rfl | rfl
  · exact ⟨_, _, rfl⟩
  · exact ⟨_, _, rfl⟩

/-! ## A log of sealed records -/

omit [Crypto] in
/-- The associated data of a record is not that of a superblock. -/
theorem recordAad_ne_superAad (b : Bootstrap) (header : Bytes) (slot : Slot) (generation : UInt64) :
    superAad b slot generation ≠ recordAad b header := by
  intro h
  have htail := congrArg (List.take 1) (List.append_cancel_left h)
  rw [List.take_append_of_le_length (by decide), List.take_append_of_le_length (by decide)] at htail
  exact absurd htail (by decide)

/-- **A record the cipher opens is one of the log.** -/
theorem Faultless.record_mem (h : Faultless master s es) {img : Bytes}
    (hideal : OpensSealed s.volume.keys s.file.trace img) {offset : ℕ} {header : RecordHeader}
    {payload : Bytes} (hoff : logStart.toNat ≤ offset)
    (hrec : RecordAt s.volume.keys s.volume.bootstrap img offset header payload) :
    ∃ e ∈ es, e.header = header ∧ e.payload = payload := by
  obtain ⟨x, hx, -, haad, hmessage⟩ :=
    hideal _ _ _ _ _ (hoff.trans (Nat.le_add_right _ _)) hrec.opens
  rcases h.records x hx with ⟨e, he, rfl⟩ | ⟨slot, state, rfl⟩
  · refine ⟨e, he, ?_, hmessage⟩
    have hheader : e.header.encode = slice img offset recordHeaderSize :=
      List.append_cancel_left (List.append_cancel_left haad)
    have hdecode := hrec.decode
    rw [← hheader, RecordHeader.decode_encode] at hdecode
    exact Except.ok.inj hdecode
  · exact absurd haad (recordAad_ne_superAad _ _ _ _)

/-- **A scanned log of sealed records is the log in some order.** -/
theorem Faultless.scans_perm (h : Faultless master s es) {img : Bytes}
    (hideal : OpensSealed s.volume.keys s.file.trace img) {es' : List Entry} {index : Index}
    (hlog : LogHolds s.volume.keys s.volume.bootstrap img s.volume.state es' index) :
    (es'.map Entry.item).Perm (es.map Entry.item) := by
  have hindexes := Scans.indexes h.sees.log
  have hindexes' := Scans.indexes hlog
  have hsub : es'.map Entry.item ⊆ es.map Entry.item := by
    intro x hx
    obtain ⟨e', he', rfl⟩ := List.mem_map.mp hx
    obtain ⟨hrec, hoff, -⟩ := Scans.mem hlog he'
    obtain ⟨e, he, hheader, hpayload⟩ := h.record_mem hideal hoff hrec
    refine List.mem_map.mpr ⟨e, he, ?_⟩
    rw [Entry.item, hheader, hpayload]
    rfl
  have hlen : (es.map Entry.item).length ≤ (es'.map Entry.item).length := by
    rw [List.length_map, List.length_map, ← hindexes.count, ← hindexes'.count]
  exact (hindexes'.ascending.nodup.subperm hsub).perm_of_length_le hlen

omit [Crypto] in
/-- The generation an index has for a block is the greatest of its records. -/
theorem Indexes.generation_eq_some {st : ScanState} (h : Indexes es st) {k generation : UInt64} :
    (st.index.lookup k).map RecordIndex.generation = some generation ↔
      ∃ x ∈ es.map Entry.item, x.key = k ∧ x.number = generation.toNat ∧
        ∀ y ∈ es.map Entry.item, y.key = k → y.number ≤ x.number := by
  constructor
  · intro hk
    obtain ⟨record, hlookup, rfl⟩ := Option.map_eq_some_iff.mp hk
    obtain ⟨e, he, hblock, rfl, -, hmax⟩ := h.lookup k record hlookup
    refine ⟨e.item, List.mem_map_of_mem he, hblock, rfl, fun y hy hkey => ?_⟩
    obtain ⟨e', he', rfl⟩ := List.mem_map.mp hy
    exact hmax e' he' hkey
  · rintro ⟨x, hx, hkey, hnumber, hmax⟩
    obtain ⟨e, he, rfl⟩ := List.mem_map.mp hx
    cases hlookup : st.index.lookup k with
    | none => exact absurd hkey (h.lookup_none k hlookup e he)
    | some record =>
      obtain ⟨e', he', hblock, rfl, -, hmax'⟩ := h.lookup k record hlookup
      have hle := hmax' e he hkey
      have hge := hmax e'.item (List.mem_map_of_mem he') hblock
      rw [Option.map_some, Option.some.injEq]
      exact UInt64.toNat_inj.mp (le_antisymm (hge.trans hnumber.le) (hnumber.symm.le.trans hle))

omit [Crypto] in
/-- The order of a log does not matter to the generations of its index. -/
theorem Indexes.generation_congr {es' : List Entry} {st st' : ScanState} (h : Indexes es st)
    (h' : Indexes es' st') (hperm : (es'.map Entry.item).Perm (es.map Entry.item)) (k : UInt64) :
    (st'.index.lookup k).map RecordIndex.generation =
      (st.index.lookup k).map RecordIndex.generation := by
  apply Option.ext
  intro generation
  rw [h.generation_eq_some, h'.generation_eq_some]
  simp only [hperm.mem_iff]

/-- **The newest superblock pins the log.**  After any number of successful updates of a new volume,
a scan of any file against its superblock that succeeds gives the blocks of the volume with their
generations, and at the offsets of its index their payloads. -/
theorem superblock_pins_log [LawfulCrypto] {options : VolumeOptions} {volumeId salt : FixedBytes 32}
    {d d' : Device Sealed} {v : Volume} {calls : List Call} {s : Session}
    {file file' : Device Sealed} {index : Index} (hnew : d.trace = [])
    (hcreate : createVolume master options volumeId salt d = (.ok v, d'))
    (hrun : Run Succeeds ⟨v, d'⟩ calls s) (hd : ¬file.MayDamage)
    (hideal : OpensSealed s.volume.keys s.file.trace file.disk.view)
    (hscan : scanLog s.volume.keys s.volume.bootstrap s.volume.state file = (.ok index, file')) :
    (∀ k, (index.lookup k).map RecordIndex.generation =
      (s.volume.index.lookup k).map RecordIndex.generation) ∧
    ∀ k record, index.lookup k = some record → ∃ payload,
      (readBlock k ⟨{ s.volume with index := index }, script [] file'⟩).1 = .ok (some payload) ∧
      (readBlock k (s.script [])).1 = .ok (some payload) := by
  have hsteps : ∀ s c t, (∃ es, Faultless master s es) → Succeeds s c t →
    ∃ es, Faultless master t es := by
    rintro s c t ⟨es, hs⟩ hstep
    exact hs.step hstep
  obtain ⟨es, h⟩ := Run.invariant hrun
    ⟨[], faultless_of_created hnew (createVolume_ok hcreate)⟩ hsteps
  obtain ⟨es', hview, hlog⟩ : ∃ es', file'.disk.view = file.disk.view ∧
      LogHolds s.volume.keys s.volume.bootstrap file.disk.view s.volume.state es' index := by
    have hwp : wp (scanLog s.volume.keys s.volume.bootstrap s.volume.state)
        ⟨fun index file' => ∃ es', file'.disk.view = file.disk.view ∧
          LogHolds s.volume.keys s.volume.bootstrap file.disk.view s.volume.state es' index,
          fun _ _ => True, fun _ => True⟩ file :=
      wp_scanLog hd (fun _ es' _ hfile hlog => ⟨es', by rw [hfile.disk], hlog⟩)
        (fun _ _ _ _ => trivial) fun _ _ _ => trivial
    exact hwp.ok hscan
  have hindexes := Scans.indexes h.sees.log
  have hindexes' := Scans.indexes hlog
  have hperm := h.scans_perm hideal hlog
  refine ⟨hindexes.generation_congr hindexes' hperm, fun k record hk => ?_⟩
  have hserved : served es' = served es :=
    replay_congr hindexes'.ascending hindexes.ascending fun e => hperm.mem_iff
  obtain ⟨e, -, -, -, hpayload, -⟩ := hindexes'.lookup k record hk
  -- both logs end where the superblock says
  have hends : ∀ {img : Bytes} {entries : List Entry} {ix : Index},
      LogHolds s.volume.keys s.volume.bootstrap img s.volume.state entries ix →
      ∀ e ∈ entries, e.offset.toNat < maxOffset := by
    intro img entries ix hholds e he
    exact lt_of_le_of_lt (Nat.le_of_add_right_le (Scans.mem hholds he).2.2) h.limit
  have hrange : k < s.volume.bootstrap.blockCount := by
    by_contra hout
    rw [hserved, h.sees.served_none hout] at hpayload
    exact absurd hpayload (by simp)
  have hanswer : ∀ (ix : Index) (entries : List Entry) (st : Session), st.file.faults = [] →
      st.volume = { s.volume with index := ix } →
      LogHolds s.volume.keys s.volume.bootstrap st.file.disk.view s.volume.state entries ix →
      served entries = served es' → (readBlock k st).1 = .ok (some e.payload) := by
    intro ix entries st hquiet hvolume hholds hsame
    rcases st with ⟨w, f⟩
    subst hvolume
    have hread : (readBlock k ⟨{ s.volume with index := ix }, f⟩).1 =
        readAnswer { s.volume with index := ix } entries k := readBlock_quiet k hquiet hholds
    have hall := readAnswer_of_limit (v := { s.volume with index := ix }) k (Scans.indexes hholds)
      (hends hholds)
    rw [hread, hall, if_pos hrange, hsame, hpayload]
  refine ⟨e.payload, hanswer index es' _ rfl rfl ?_ rfl,
    hanswer s.volume.index es _ rfl rfl h.sees.log hserved.symm⟩
  show LogHolds _ _ file'.disk.view _ _ _
  rw [hview]
  exact hlog

end Crypto

/-! ## Two records that change places -/

/-- Two blocks in one batch; their records have the same length. -/
def pairBatch : Call := .writeBlocks [(0, [1]), (1, [2])]

/-- A volume with the two blocks. -/
def pairSession [Crypto] : Option (Session × Session) :=
  (twoBlocks [7]).bind fun s =>
    match pairBatch.run (s.script []) with
    | (.ok _, s') => some (s, s')
    | _ => none

/-- What is sealed for it. -/
def pairTable : List Sealing :=
  match @pairSession (tableCrypto []) with
  | some (_, s) => s.file.trace.map Sealed.sealing
  | none => []

/-- The file with the two records in the other order. -/
def swapped (s : Session) : Bytes :=
  s.file.disk.view.take 4096 ++
    (slice s.file.disk.view 4145 49 ++ slice s.file.disk.view 4096 49)

/-- The image scans, with the first block behind the second, and is unforged. -/
def scansSwapped [Crypto] (s : Session) : Bool :=
  decide (pairTable ⊆ s.file.trace.map Sealed.sealing) && decide (0xff ∉ swapped s) &&
    decide ((readBlock 0 (s.script [])).1 = .ok (some [1])) &&
    match scanLog s.volume.keys s.volume.bootstrap s.volume.state (imageFile (swapped s)) with
    | (.ok index, _) => decide ((index.lookup 0).map RecordIndex.offset = some 4145)
    | _ => false

/-- The first block is found at the place of the second record, and is what it was. -/
theorem superblock_pins_log_swapped :
    let _ := tableCrypto pairTable
    ∃ s₀ s index file, twoBlocks [7] = some s₀ ∧ Run Succeeds s₀ [pairBatch] s ∧
      scanLog s.volume.keys s.volume.bootstrap s.volume.state (imageFile (swapped s)) =
        (.ok index, file) ∧
      (index.lookup 0).map RecordIndex.offset = some 4145 ∧
      (readBlock 0 ⟨{ s.volume with index := index }, script [] file⟩).1 = .ok (some [1]) := by
  let _ := tableCrypto pairTable
  have _ := tableCrypto_lawful pairTable
  have hexec : pairSession.map (fun r => scansSwapped r.2) = some true := by decide +kernel
  obtain ⟨⟨s₀, s⟩, hpair, hscans⟩ := Option.map_eq_some_iff.mp hexec
  obtain ⟨s₁, hs₁, hbatch⟩ := Option.bind_eq_some_iff.mp hpair
  split at hbatch
  swap
  · exact absurd hbatch (by simp)
  next r s' hok =>
  obtain ⟨rfl, rfl⟩ := Prod.mk.inj (Option.some.inj hbatch)
  have hrun : Run Succeeds s₁ ([] ++ [pairBatch]) s' := Run.refl.step ⟨rfl, [], r, hok⟩
  simp only [scansSwapped, Bool.and_eq_true, decide_eq_true_eq] at hscans
  obtain ⟨⟨⟨htable, hbytes⟩, hread⟩, hscan⟩ := hscans
  split at hscan
  swap
  · exact absurd hscan (by simp)
  next index file hindex =>
  have hoffset : (index.lookup 0).map RecordIndex.offset = some 4145 := of_decide_eq_true hscan
  obtain ⟨record, hlookup, -⟩ := Option.map_eq_some_iff.mp hoffset
  have hunforged := unforged_of_table htable hbytes
  have hideal : OpensSealed s'.volume.keys s'.file.trace (swapped s') :=
    fun nonce aad off n message _ hopens => hunforged _ nonce aad off n message hopens
  have hquiet : ¬(imageFile (swapped s')).MayDamage := by
    rintro ⟨_, h⟩
    exact absurd h List.not_mem_nil
  have hcreate : createVolume [7] ⟨8192, 4096⟩ (.of 32 [1]) (.of 32 [2]) absentFile =
      (.ok s₁.volume, s₁.file) := createSession_eq_some.mp hs₁
  obtain ⟨-, hpayload⟩ := superblock_pins_log rfl hcreate hrun hquiet hideal hindex
  obtain ⟨payload, htampered, hreal⟩ := hpayload 0 record hlookup
  have hsame : payload = [1] := by simpa using hreal.symm.trans hread
  exact ⟨s₁, s', index, file, hs₁, hrun, hindex, hoffset, hsame ▸ htampered⟩

end OrIsyVra.Volume
