import OrIsyVra.Volume.CleanFlag

/-!
# Superblock generations

Which of the two slots an open takes is decided by their generations, so a call that writes a
superblock has to give it a greater one than the state in memory has (`Supersedes`).

A batch adds one and fails when there is no next number.  A change of the clean flag adds one with
saturation and then looks for zero, which it never finds: at the greatest generation of all it seals
another superblock of the same generation, into the other slot (`FlagAtMaximum`).  That is the only
call that does not supersede (`supersedes_iff`), and what an open then finds is decided by the names
of the slots.
-/

namespace OrIsyVra.Volume

open ByteString MachineWord DurableFile FaultProgram KeyedLog Runs

/-! ## Calls that write superblocks -/

/-- The flag a call is to set. -/
def Call.flag : Call → Option Bool
  | .markClean => some true
  | .markDirty => some false
  | _ => none

/-- The call has something to put into a superblock. -/
def Call.Commits (v : Volume) : Call → Prop
  | .writeBlocks blocks => blocks ≠ []
  | .markClean => v.state.clean = false
  | .markDirty => v.state.clean = true
  | _ => False

/-- There is no generation behind that of the state in memory. -/
def GenerationExhausted (v : Volume) : Prop := v.state.generation.toNat + 1 = 2 ^ 64

/-- The call changes the flag of a volume whose generations are exhausted. -/
def FlagAtMaximum (v : Volume) (c : Call) : Prop :=
  GenerationExhausted v ∧ ∃ clean, c.flag = some clean ∧ v.state.clean ≠ clean

/-- The generations of the superblocks that were sealed between two states of a session. -/
def superGenerations (s s' : Session) : List UInt64 :=
  ((s'.file.trace.drop s.file.trace.length).filter fun x => x.domain = ascii "super").map
    Sealed.second

/-- What the two slots of the file hold. -/
def slotsOf (s : Session) : List Bytes :=
  [Slot.a, Slot.b].map fun slot => slice s.file.disk.view slot.offset superSlotSize

theorem slotsOf_eq {s s' : Session} (h : ∀ slot : Slot,
    slice s'.file.disk.view slot.offset superSlotSize =
      slice s.file.disk.view slot.offset superSlotSize) : slotsOf s' = slotsOf s :=
  List.map_congr_left fun slot _ => h slot

theorem superGenerations_eq {s : Session} {v : Volume} {file : Device Sealed} {es : List Sealed}
    (h : file.trace = s.file.trace ++ es) : superGenerations s ⟨v, file⟩ =
      (es.filter fun x => x.domain = ascii "super").map Sealed.second := by
  rw [superGenerations, h, List.drop_left]

theorem superGenerations_self (s : Session) : superGenerations s s = [] := by
  rw [superGenerations, List.drop_length]
  rfl

section Crypto

variable [Crypto]

/-- **What is asked of a call.**  Every superblock it seals is newer than the state in memory before
it; when it returns, the slot it wrote is the one that is now active, and the next open finds
exactly what is in memory; when there is no next generation it returns an error instead, and neither
slot nor memory changes. -/
structure Supersedes (master : Bytes) (s : Session) (c : Call) : Prop where
  newer : ∀ g ∈ superGenerations s (c.run s).2, s.volume.state.generation < g
  selected : ∀ r, (c.run s).1 = .ok r → superGenerations s (c.run s).2 ≠ [] →
    (c.run s).2.volume.activeSuper = s.volume.activeSuper.other ∧
      ((c.run s).2.file.disk.view.length < maxOffset →
        ∃ file, openVolume master (imageFile (c.run s).2.file.disk.view) =
          (.ok (c.run s).2.volume, file))
  exhausted : GenerationExhausted s.volume → c.Commits s.volume →
    (∀ r, (c.run s).1 ≠ .ok r) ∧ (c.run s).2.volume = s.volume ∧ slotsOf (c.run s).2 = slotsOf s

/-- One call that moves the superblock, on a host that fails as it likes. -/
inductive Updates : Session → Call × Outcome VolumeError Reply → Session → Prop where
  | call {s s' : Session} {c : Call} {fs : List Fault} {o : Outcome VolumeError Reply} :
      c.isUpdate = true → c.run (s.script fs) = (o, s') → o ≠ .crash → Updates s (c, o) s'

/-! ## What one call seals -/

/-- The superblock state a call moves to. -/
inductive NextState (v : Volume) : Call → SuperState → Prop where
  | batch {blocks : List (UInt64 × Bytes)} {next : SuperState} :
      next.generation.toNat = v.state.generation.toNat + 1 → NextState v (.writeBlocks blocks) next
  | flag {c : Call} {clean : Bool} : c.flag = some clean → v.state.clean ≠ clean →
      NextState v c (flagged v.state clean)

/-- It seals no superblock, or that of the next state. -/
inductive SealsSuper (s : Session) (c : Call) (o : Outcome VolumeError Reply) (s' : Session) :
    Prop where
  | none : superGenerations s s' = [] → s'.volume = s.volume → slotsOf s' = slotsOf s →
      (∀ r, o = .ok r → ¬c.Commits s.volume) →
      (∀ clean, c.flag = some clean → s.volume.state.clean = clean) → SealsSuper s c o s'
  | next {state : SuperState} : superGenerations s s' = [state.generation] →
      NextState s.volume c state →
      (∀ r, o = .ok r → s'.volume.state = state ∧
        s'.volume.activeSuper = s.volume.activeSuper.other) → SealsSuper s c o s'

omit [Crypto] in
/-- Updates behind the committed end leave the slots alone. -/
theorem slotsOf_of_tail {s s' : Session} {us : List Update}
    (hstart : logStart.toNat ≤ s.volume.state.committedEnd.toNat)
    (hfits : s.volume.state.committedEnd.toNat ≤ s.file.disk.view.length)
    (htail : TailWrites s.volume.state.committedEnd.toNat us)
    (hview : s'.file.disk.view = applyAll us s.file.disk.view) : slotsOf s' = slotsOf s := by
  refine slotsOf_eq fun slot => ?_
  obtain ⟨-, hhi⟩ := slot.offset_bounds
  have hprotects : ∀ u ∈ us, u.Protects slot.offset superSlotSize := fun u hu =>
    (htail.protects hu).mono (Nat.zero_le _) (by omega)
  rw [hview]
  exact (slice_applyAll hprotects (by omega)).1

omit [Crypto] in
theorem filter_super_data {es : List Sealed} (h : ∀ x ∈ es, x.domain = ascii "data") :
    (es.filter fun x => x.domain = ascii "super") = [] := by
  refine List.filter_eq_nil_iff.mpr fun x hx => ?_
  rw [h x hx]
  exact fun heq => ascii_data_ne_super (of_decide_eq_true heq)

theorem batchSeals_domain {v : Volume} {blocks : List (UInt64 × Bytes)} {x : Sealed}
    (hx : x ∈ batchSeals v blocks) : x.domain = ascii "data" := by
  obtain ⟨p, -, hseal⟩ := List.mem_filterMap.mp hx
  exact (recordSeal_eq_some hseal).1

/-- Behind records, a superblock is the only one. -/
theorem filter_super_append {keys : VolumeKeys} {b : Bootstrap} {slot : Slot} {state : SuperState}
    {es : List Sealed} (h : ∀ x ∈ es, x.domain = ascii "data") :
    ((es ++ [superSeal keys b slot state]).filter fun x => x.domain = ascii "super").map
      Sealed.second = [state.generation] := by
  rw [List.filter_append, filter_super_data h, List.nil_append]
  rfl

variable {master : Bytes} {s s' : Session} {es : List Entry}

theorem WriteEffect.sealsSuper [LawfulCrypto] {blocks : List (UInt64 × Bytes)}
    {o : Outcome VolumeError (List UInt64)} (h : WriteEffect s blocks o s')
    (hs : Sees master s es) :
    SealsSuper s (.writeBlocks blocks) (o.map Reply.generations) s' := by
  have hrecords : ∀ {rs last}, Appends s.volume s.volume.state.committedEnd blocks rs last →
      ∀ x ∈ rs.map (Appended.sealed s.volume), x.domain = ascii "data" :=
    fun happends x hx => batchSeals_domain (happends.seals_subset hx)
  have hslots : ∀ {us} {s' : Session}, TailWrites s.volume.state.committedEnd.toNat us →
      s'.file.disk.view = applyAll us s.file.disk.view → slotsOf s' = slotsOf s :=
    fun htail hview => slotsOf_of_tail hs.logStart_le hs.fits htail hview
  have hcommit : ∀ {file : Device Sealed} {k rs last next v},
      Appends s.volume s.volume.state.committedEnd blocks rs last →
      commitState s.volume.state rs.length last = .ok next →
      file.After s.file k (rs.map (Appended.sealed s.volume) ++
        [superSeal s.volume.keys s.volume.bootstrap s.volume.activeSuper.other next]) →
      (∀ r, o.map Reply.generations = .ok r →
        v = Volume.committed s.volume rs next) →
      SealsSuper s (.writeBlocks blocks) (o.map Reply.generations) ⟨v, file⟩ := by
    intro file k rs last next v happends hnext hafter hok
    refine .next ?_ (.batch (commitState_eq_ok hnext).1) fun r hr => ?_
    · rw [superGenerations_eq hafter.trace]
      exact filter_super_append (hrecords happends)
    · rw [hok r hr]
      exact ⟨rfl, rfl⟩
  have hcut : ∀ {r}, Cut s.file o → o.map Reply.generations ≠ .ok r := by
    intro r hcut hok
    cases o with
    | ok a => exact hcut
    | error e => exact absurd hok (by simp [Outcome.map])
    | crash => exact absurd hok (by simp [Outcome.map])
  have hflag : ∀ clean, (Call.writeBlocks blocks).flag =
    some clean → s.volume.state.clean = clean :=
    fun _ hflag => absurd hflag (by simp [Call.flag])
  cases h with
  | empty hempty =>
    exact .none (superGenerations_self s) rfl rfl (fun _ _ hcommits => hcommits hempty) hflag
  | rejected _ =>
    exact .none (superGenerations_self s) rfl rfl
      (fun _ hok => absurd hok (by simp [Outcome.map])) hflag
  | @staging _ file us seals _ htail hseals hafter hno _ _ =>
    refine .none ?_ rfl (hslots htail ?_) (fun r hok => ?_) hflag
    · rw [superGenerations_eq hafter.trace,
        filter_super_data fun x hx => batchSeals_domain (hseals hx)]
      rfl
    · show file.disk.view = _
      rw [hafter.disk, Disk.view_pushAll]
    · cases o with
      | ok a => exact absurd rfl (hno a)
      | error e => exact absurd hok (by simp [Outcome.map])
      | crash => exact absurd hok (by simp [Outcome.map])
  | @uncommitted _ file rs last seals _ happends hafter hends =>
    rcases hends with ⟨rfl, e, rfl, -⟩ | ⟨next, hnext, rfl, hstop⟩
    · refine .none ?_ rfl (hslots happends.tailWrites ?_)
        (fun r hok => absurd hok (by simp [Outcome.map])) hflag
      · rw [superGenerations_eq hafter.trace, List.append_nil,
          filter_super_data (hrecords happends)]
        rfl
      · show file.disk.view = _
        rw [hafter.disk, Disk.view_sync, Disk.view_pushAll]
    · exact hcommit happends hnext hafter fun r hr => absurd hr (hcut hstop)
  | torn _ happends hnext _ hafter hstop _ =>
    exact hcommit happends hnext hafter fun r hr => absurd hr (hcut hstop)
  | unsynced _ happends hnext _ hafter _ => exact hcommit happends hnext hafter fun _ _ => rfl
  | committed _ happends hnext _ hafter => exact hcommit happends hnext hafter fun _ _ => rfl

theorem CleanEffect.sealsSuper [LawfulCrypto] {c : Call} {clean : Bool}
    {o : Outcome VolumeError Unit} (h : CleanEffect s clean o s') (hc : c.flag = some clean)
    (hcommits : c.Commits s.volume → s.volume.state.clean ≠ clean) :
    SealsSuper s c (o.map fun _ => Reply.done) s' := by
  have hseal : ∀ {file : Device Sealed} {k v}, s.volume.state.clean ≠ clean →
      file.After s.file k [superSeal s.volume.keys s.volume.bootstrap s.volume.activeSuper.other
        (flagged s.volume.state clean)] →
      (∀ r, (o.map fun _ => Reply.done) = .ok r → v = reflagged s.volume clean) →
      SealsSuper s c (o.map fun _ => Reply.done) ⟨v, file⟩ := by
    intro file k v hne hafter hok
    refine .next ?_ (.flag hc hne) fun r hr => ?_
    · rw [superGenerations_eq hafter.trace]
      rfl
    · rw [hok r hr]
      exact ⟨rfl, rfl⟩
  have hcut : ∀ {r}, Cut s.file o → (o.map fun _ => Reply.done) ≠ .ok r := by
    intro r hcut hok
    cases o with
    | ok a => exact hcut
    | error e => exact absurd hok (by simp [Outcome.map])
    | crash => exact absurd hok (by simp [Outcome.map])
  cases h with
  | unchanged heq =>
    refine .none (superGenerations_self s) rfl rfl (fun _ _ hcommit => hcommits hcommit heq)
      fun clean' hc' => ?_
    rw [heq]
    exact Option.some.inj (hc.symm.trans hc')
  | untouched hne hafter hstop => exact hseal hne hafter fun r hr => absurd hr (hcut hstop)
  | torn hne _ hafter hstop _ => exact hseal hne hafter fun r hr => absurd hr (hcut hstop)
  | changed hne _ hafter => exact hseal hne hafter fun _ _ => rfl

/-- **What a call seals.** -/
theorem Call.sealsSuper [LawfulCrypto] {c : Call} (hc : c.isUpdate = true) (hs : Sees master s es) :
    SealsSuper s c (c.run s).1 (c.run s).2 := by
  cases c with
  | readBlock k => exact absurd hc Bool.false_ne_true
  | sync => exact absurd hc Bool.false_ne_true
  | writeBlocks blocks =>
    rw [Call.run, run_map]
    exact (writeBlocks_effect s blocks).sealsSuper hs
  | markClean =>
    rw [Call.run, run_map]
    refine (setCleanState_effect s true).sealsSuper rfl fun hcommits => ?_
    rw [show s.volume.state.clean = false from hcommits]
    exact Bool.false_ne_true
  | markDirty =>
    rw [Call.run, run_map]
    refine (setCleanState_effect s false).sealsSuper rfl fun hcommits => ?_
    rw [show s.volume.state.clean = true from hcommits]
    exact Bool.false_ne_true.symm

/-- The view holds the volume after every update. -/
theorem Call.sees [LawfulCrypto] {c : Call} (hc : c.isUpdate = true) (hs : Sees master s es) :
    ∃ es', Sees master (c.run s).2 es' := by
  cases c with
  | readBlock k => exact absurd hc Bool.false_ne_true
  | sync => exact absurd hc Bool.false_ne_true
  | writeBlocks blocks =>
    rw [Call.run, run_map]
    obtain ⟨es', -, hs'⟩ := (writeBlocks_effect s blocks).moves hs
    exact ⟨es', hs'⟩
  | markClean =>
    rw [Call.run, run_map]
    exact ⟨es, ((setCleanState_effect s true).moves hs).2⟩
  | markDirty =>
    rw [Call.run, run_map]
    exact ⟨es, ((setCleanState_effect s false).moves hs).2⟩

/-! ## What the next open finds -/

/-- A batch leaves the volume before it in the file. -/
theorem WriteEffect.keeps [LawfulCrypto] {blocks : List (UInt64 × Bytes)}
    {o : Outcome VolumeError (List UInt64)} (h : WriteEffect s blocks o s')
    (hs : Sees master s es) :
    Opened master s'.file.disk.view s.volume es := by
  have hstaged : ∀ {us}, TailWrites s.volume.state.committedEnd.toNat us →
      Opened master (s.file.disk.pushAll us).view s.volume es := by
    intro us htail
    rw [Disk.view_pushAll]
    exact Opened.applyAll hs fun u hu => htail.protects hu
  have hwritten : ∀ {rs last} {bytes : Bytes},
      Appends s.volume s.volume.state.committedEnd blocks rs last → bytes.length ≤ superSlotSize →
      Opened master ((s.file.disk.pushAll (rs.flatMap Appended.updates)).sync.push
        (.write s.volume.activeSuper.other.offset bytes)).view s.volume es := by
    intro rs last bytes happends hlen
    rw [Disk.view_push, Disk.view_sync]
    exact (hstaged happends.tailWrites).overwrite_other hlen
  cases h with
  | empty _ => exact hs
  | rejected _ => exact hs
  | staging _ htail _ hafter _ _ _ =>
    rw [hafter.disk]
    exact hstaged htail
  | uncommitted _ happends hafter _ =>
    rw [hafter.disk, Disk.view_sync]
    exact hstaged happends.tailWrites
  | @torn _ _ _ _ _ bytes part _ happends _ himage hafter _ _ =>
    rw [hafter.disk]
    refine hwritten happends ?_
    rw [List.length_take, himage.length]
    exact min_le_right _ _
  | unsynced _ happends _ himage hafter _ =>
    rw [hafter.disk]
    exact hwritten happends himage.length.le
  | committed _ happends _ himage hafter =>
    rw [hafter.disk, Disk.view_sync]
    exact hwritten happends himage.length.le

/-- So does a change of the flag. -/
theorem CleanEffect.keeps [LawfulCrypto] {clean : Bool} {o : Outcome VolumeError Unit}
    (h : CleanEffect s clean o s') (hs : Sees master s es) :
    Opened master s'.file.disk.view s.volume es := by
  have hwritten : ∀ {bytes : Bytes}, bytes.length ≤ superSlotSize → Opened master
      (s.file.disk.push (.write s.volume.activeSuper.other.offset bytes)).view s.volume es := by
    intro bytes hlen
    rw [Disk.view_push]
    exact Opened.overwrite_other hs hlen
  cases h with
  | unchanged _ => exact hs
  | untouched _ hafter _ =>
    rw [hafter.disk]
    exact hs
  | @torn _ _ bytes part _ himage hafter _ _ =>
    rw [hafter.disk]
    refine hwritten ?_
    rw [List.length_take, himage.length]
    exact min_le_right _ _
  | changed _ himage hafter =>
    rw [hafter.disk, Disk.view_sync]
    exact hwritten himage.length.le

theorem Call.keeps_before [LawfulCrypto] {c : Call} (hc : c.isUpdate = true)
    (hs : Sees master s es) :
    Opened master (c.run s).2.file.disk.view s.volume es := by
  cases c with
  | readBlock k => exact absurd hc Bool.false_ne_true
  | sync => exact absurd hc Bool.false_ne_true
  | writeBlocks blocks =>
    rw [Call.run, run_map]
    exact (writeBlocks_effect s blocks).keeps hs
  | markClean =>
    rw [Call.run, run_map]
    exact (setCleanState_effect s true).keeps hs
  | markDirty =>
    rw [Call.run, run_map]
    exact (setCleanState_effect s false).keeps hs

/-- Of two volumes of an image in different slots, the newer one is foremost. -/
theorem foremost_of_newer {img : Bytes} {v v' : Volume} {es es' : List Entry}
    (hv : Opened master img v es) (hv' : Opened master img v' es')
    (hslot : v'.activeSuper = v.activeSuper.other)
    (hnewer : v.state.generation < v'.state.generation) : Foremost master img v' := by
  intro w ws hw _
  rcases v.activeSuper.eq_or_eq_other w.activeSuper with hactive | hother
  · left
    rw [show w.state = v.state from hv.eq_of_slot hw hactive]
    exact hnewer
  · right
    rw [show w.state = v'.state from hv'.eq_of_slot hw (hother.trans hslot.symm), hother, hslot]
    exact ⟨rfl, UInt8.le_refl _⟩

omit [Crypto] in
/-- The next state is newer, but for a flag at the maximum. -/
theorem NextState.newer {c : Call} {state : SuperState} (h : NextState s.volume c state)
    (hmax : ¬FlagAtMaximum s.volume c) : s.volume.state.generation < state.generation := by
  refine UInt64.lt_iff_toNat_lt.mpr ?_
  cases h with
  | batch hnext => omega
  | @flag _ clean hc hne =>
    have hroom : s.volume.state.generation.toNat + 1 < 2 ^ 64 := by
      have hlt := s.volume.state.generation.toNat_lt
      have hne' : s.volume.state.generation.toNat + 1 ≠ 2 ^ 64 := fun hexhausted =>
        hmax ⟨hexhausted, clean, hc, hne⟩
      omega
    show _ < (saturatingAdd s.volume.state.generation 1).toNat
    rw [toNat_saturatingAdd_one hroom]
    omega

/-- **A call supersedes what is in memory exactly when it does not change the flag at the greatest
generation.** -/
theorem supersedes_iff [LawfulCrypto] {c : Call} (hc : c.isUpdate = true) (hs : Sees master s es) :
    Supersedes master s c ↔ ¬FlagAtMaximum s.volume c := by
  have hseals := Call.sealsSuper hc hs
  constructor
  · rintro hsupersedes ⟨hexhausted, clean, hflag, hne⟩
    cases hseals with
    | none _ _ _ _ hidle => exact hne (hidle clean hflag)
    | @next state hgenerations hnext _ =>
      have hnewer :=
        hsupersedes.newer state.generation (by rw [hgenerations]; exact List.mem_cons_self)
      have hlt := UInt64.lt_iff_toNat_lt.mp hnewer
      have hbound := state.generation.toNat_lt
      unfold GenerationExhausted at hexhausted
      omega
  · intro hmax
    cases hseals with
    | none hgenerations hvolume hslots hidle _ =>
      refine ⟨fun g hg => ?_, fun r _ hne => absurd hgenerations hne, fun _ hcommits => ?_⟩
      · rw [hgenerations] at hg
        exact absurd hg List.not_mem_nil
      · exact ⟨fun r hr => hidle r hr hcommits, hvolume, hslots⟩
    | @next state hgenerations hnext hok =>
      have hnewer := hnext.newer hmax
      refine ⟨fun g hg => ?_, fun r hr _ => ?_, fun hexhausted _ => ?_⟩
      · rw [hgenerations] at hg
        rw [List.mem_singleton.mp hg]
        exact hnewer
      · obtain ⟨hstate, hslot⟩ := hok r hr
        obtain ⟨es', hs'⟩ := Call.sees hc hs
        refine ⟨hslot, fun hlen => ?_⟩
        refine (openVolume_ok_iff (d := imageFile (c.run s).2.file.disk.view) rfl rfl hlen).mpr
          ⟨⟨es', hs'⟩, ?_⟩
        exact foremost_of_newer (Call.keeps_before hc hs) hs' hslot (hstate ▸ hnewer)
      · have hlt := UInt64.lt_iff_toNat_lt.mp hnewer
        have hbound := state.generation.toNat_lt
        unfold GenerationExhausted at hexhausted
        omega

/-- **Superblock generations.**  From any session whose file holds its volume, after any calls of
`write_blocks`, `mark_clean` and `mark_dirty`, whatever the host lets fail: the next of these calls
supersedes the state in memory exactly when it does not change the flag at the greatest
generation. -/
theorem generations_increase [LawfulCrypto] {s₀ : Session} {es₀ : List Entry}
    {events : List (Call × Outcome VolumeError Reply)} (hs₀ : Sees master s₀ es₀)
    (hrun : Run Updates s₀ events s) {c : Call} (hc : c.isUpdate = true) (fs : List Fault) :
    Supersedes master (s.script fs) c ↔ ¬FlagAtMaximum s.volume c := by
  have hend : ∃ es, Sees master s es := by
    refine Run.invariant (P := fun s => ∃ es, Sees master s es) hrun ⟨es₀, hs₀⟩ ?_
    rintro t e u ⟨es, ht⟩ hstep
    cases hstep with
    | @call _ c fs _ hc hrun _ =>
      obtain ⟨es', hu⟩ := Call.sees (s := t.script fs) hc ht
      rw [hrun] at hu
      exact ⟨es', hu⟩
  obtain ⟨es, hs⟩ := hend
  exact supersedes_iff (s := s.script fs) hc hs

end Crypto

/-! ## The greatest generation -/

/-- The generation behind which there is none. -/
def lastGeneration : UInt64 := UInt64.ofNat (2 ^ 64 - 1)

/-- A volume of two blocks whose superblock has the greatest generation, opened from its file. -/
def exhaustedSession [Crypto] (master : Bytes) : Option Session := do
  let s ← twoBlocks master
  match writeSuperblock s.volume.keys s.volume.bootstrap .a ⟨lastGeneration, logStart, 0, true⟩
      s.file with
  | (.ok _, file) =>
    match openVolume master (imageFile file.disk.view) with
    | (.ok v, file) => some ⟨v, file⟩
    | _ => none
  | _ => none

/-- The view of an opened file holds its volume. -/
theorem exhaustedSession_sees [Crypto] {master : Bytes} {s : Session}
    (h : exhaustedSession master = some s) : ∃ es, Sees master s es := by
  unfold exhaustedSession at h
  obtain ⟨t, -, h⟩ := Option.bind_eq_some_iff.mp h
  split at h
  · next file _ =>
    split at h
    · next v file' hopen =>
      obtain rfl := Option.some.inj h
      have hd : ¬(imageFile file.disk.view).MayDamage :=
        fun ⟨_, hmem⟩ => absurd hmem List.not_mem_nil
      obtain ⟨es, -, hs, -⟩ := openVolume_sees hd hopen
      exact ⟨es, hs⟩
    · exact absurd h (by simp)
  · exact absurd h (by simp)

/-- The next open finds another slot than the one that is active in memory. -/
def opensOtherSlot [Crypto] (master : Bytes) (s : Session) : Bool :=
  match openVolume master (imageFile s.file.disk.view) with
  | (.ok v, _) => decide (v.activeSuper ≠ s.volume.activeSuper)
  | _ => false

theorem opensOtherSlot_eq_true [Crypto] {master : Bytes} {s : Session}
    (h : opensOtherSlot master s = true) : ∃ v file,
      openVolume master (imageFile s.file.disk.view) = (.ok v, file) ∧
        v.activeSuper ≠ s.volume.activeSuper := by
  unfold opensOtherSlot at h
  split at h
  · next v file hopen => exact ⟨v, file, hopen, of_decide_eq_true h⟩
  · exact absurd h Bool.false_ne_true

/-- A volume at the greatest generation is marked dirty: the call succeeds, the superblock it sealed
is not newer, and the next open takes the other slot. -/
theorem flag_reuses_generation :
    let _ := tableCrypto []
    ∃ s es s' v file, Sees [7] s es ∧ GenerationExhausted s.volume ∧
      Call.run .markDirty s = (.ok .done, s') ∧
      superGenerations s s' = [s.volume.state.generation] ∧
      openVolume [7] (imageFile s'.file.disk.view) = (.ok v, file) ∧
      v.activeSuper ≠ s'.volume.activeSuper := by
  let _ := tableCrypto []
  let reuses : Session → Bool := fun s =>
    let r := Call.run .markDirty s
    s.volume.state.generation.toNat + 1 = 2 ^ 64 ∧ r.1 = .ok .done ∧
      superGenerations s r.2 = [s.volume.state.generation] ∧ opensOtherSlot [7] r.2 = true
  have hreuses : (exhaustedSession [7]).map reuses = some true := by decide +kernel
  obtain ⟨s, hs, hrun⟩ := Option.map_eq_some_iff.mp hreuses
  obtain ⟨hexhausted, hok, hgenerations, hother⟩ := of_decide_eq_true hrun
  obtain ⟨es, hsees⟩ := exhaustedSession_sees hs
  obtain ⟨v, file, hopen, hslot⟩ := opensOtherSlot_eq_true hother
  exact ⟨s, es, _, v, file, hsees, hexhausted, Prod.ext hok rfl, hgenerations, hopen, hslot⟩

/-- On a new volume a batch after a change of the flag supersedes. -/
theorem generations_increase_twoBlocks :
    let _ := tableCrypto []
    ∃ s₀ s, twoBlocks [7] = some s₀ ∧ Run Updates s₀ [(.markDirty, .ok .done)] s ∧
      Supersedes [7] (s.script []) (.writeBlocks [(0, [1])]) := by
  let _ := tableCrypto []
  have _ := tableCrypto_lawful []
  have hmarked : (twoBlocks [7]).map (fun s => (Call.run .markDirty (s.script [])).1) =
      some (.ok .done) := by
    decide +kernel
  obtain ⟨s₀, hs₀, hok⟩ := Option.map_eq_some_iff.mp hmarked
  obtain ⟨-, hsees⟩ := hosted_of_created (createSession_eq_some.mp hs₀)
  have hrun : Run Updates s₀ ([] ++ [(.markDirty, .ok .done)])
      (Call.run .markDirty (s₀.script [])).2 :=
    Run.refl.step (.call rfl (Prod.ext hok rfl) nofun)
  refine ⟨s₀, _, hs₀, hrun, (generations_increase hsees hrun rfl []).mpr ?_⟩
  rintro ⟨-, clean, hflag, -⟩
  exact absurd hflag nofun

end OrIsyVra.Volume
