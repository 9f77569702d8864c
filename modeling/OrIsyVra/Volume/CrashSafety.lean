import OrIsyVra.Volume.System

/-!
# Crash safety

What a volume serves across power failures.  The abstract volume is a map of blocks; `Serves` says
what each event does to it: a batch that returned is applied, a batch that failed is not, and of a
batch that was cut short all or nothing is.  Opening the volume again is not allowed to fail.

The concrete volume simulates it.  The invariant is `Settled`: the durable image holds the volume
that is in memory, and whatever is pending leaves everything before the committed end alone.  A call
keeps it (`Call.keeps`), and a power cut turns it into the same statement about the image that is
left, for the volume before or after the call (`Keeps.crash`).
-/

namespace OrIsyVra.Volume

open ByteString MachineWord DurableFile FaultProgram KeyedLog Runs

/-! ## The abstract volume -/

/-- The map after a call that returned. -/
def Call.after : Call → BlockMap → BlockMap
  | .writeBlocks blocks, m => assign m blocks
  | _, m => m

/-- **What a volume may do to the map it serves.** -/
inductive Serves (b : Bootstrap) : BlockMap → Event → BlockMap → Prop where
  | read (m : BlockMap) {k : UInt64} : k < b.blockCount →
      Serves b m (.call (.readBlock k) (.ok (.block (m k)))) m
  | readOutside (m : BlockMap) {k : UInt64} : ¬k < b.blockCount →
      Serves b m (.call (.readBlock k) (.error .blockOutOfRange)) m
  | written (m : BlockMap) (blocks : List (UInt64 × Bytes)) (gens : List UInt64) :
      Serves b m (.call (.writeBlocks blocks) (.ok (.generations gens))) (assign m blocks)
  | notWritten (m : BlockMap) (blocks : List (UInt64 × Bytes)) (e : VolumeError) :
      Serves b m (.call (.writeBlocks blocks) (.error e)) m
  | done (m : BlockMap) {c : Call} : c ∈ [.markClean, .markDirty, .sync] →
      Serves b m (.call c (.ok .done)) m
  /-- Nothing of the call in flight is kept. -/
  | lost (m : BlockMap) (c : Call) : Serves b m (.call c .crash) m
  /-- All of the call in flight is kept. -/
  | kept (m : BlockMap) (c : Call) : Serves b m (.call c .crash) (c.after m)
  | close (m : BlockMap) : Serves b m .close m
  | opened (m : BlockMap) : Serves b m (.reopen (.ok ())) m
  | openCrashed (m : BlockMap) : Serves b m (.reopen .crash) m
  | powerCut (m : BlockMap) : Serves b m .powerCut m

/-! ## Power failures -/

/-- The faults of a file that works until the power goes. -/
def PowerOnly (fs : List Fault) : Prop := ∀ f ∈ fs, f = .none ∨ f = .powerLoss

namespace PowerOnly

variable {d : Device Sealed}

theorem not_mayFail (h : PowerOnly d.faults) : ¬d.MayFail := by
  rintro ⟨part, hmem⟩
  rcases h _ hmem with h | h <;> exact absurd h (by simp)

theorem not_mayDamage (h : PowerOnly d.faults) : ¬d.MayDamage := by
  rintro ⟨bs, hmem⟩
  rcases h _ hmem with h | h <;> exact absurd h (by simp)

theorem not_kill (h : PowerOnly d.faults) (part : ℕ) : .kill part ∉ d.faults := by
  intro hmem
  rcases h _ hmem with h | h <;> exact absurd h (by simp)

/-- A call that was cut short lost its power. -/
theorem crash_of_cut {α : Type} {o : Outcome VolumeError α} (h : PowerOnly d.faults)
    (hcut : Cut d o) : o = .crash := by
  cases o with
  | ok a => exact absurd hcut id
  | error e => exact absurd hcut.2 h.not_mayFail
  | crash => rfl

/-- Whatever was written when the power went was written in full. -/
theorem take_eq {bytes : Bytes} {part : ℕ} (h : PowerOnly d.faults)
    (hpart : .kill part ∈ d.faults ∨ bytes.length ≤ part) : bytes.take part = bytes :=
  List.take_of_length_le (hpart.resolve_left (h.not_kill part))

end PowerOnly

section Crypto

variable [Crypto]

/-- The file after a power cut: an arbitrary part of the pending updates has survived, and a
superblock slot has its old bytes, its new ones, or bytes that do not authenticate. -/
structure PowerCut (master : Bytes) (file file' : Device Sealed) : Prop where
  present : file'.present = file.present
  trace : file'.trace = file.trace
  pending : file'.disk.pending = []
  image : file.disk.CrashImage file'.disk.durable
  slots : ∀ b keys, Bootstrap.decode (slice file.disk.durable 0 bootstrapSize) = .ok b →
    deriveKeys master b = .ok keys → ∀ slot : Slot,
    slice file'.disk.durable slot.offset superSlotSize =
        slice file.disk.durable slot.offset superSlotSize ∨
      slice file'.disk.durable slot.offset superSlotSize =
        slice file.disk.view slot.offset superSlotSize ∨
      ∀ state, ¬SlotHolds keys b file'.disk.durable slot state

/-- A power cut may keep everything that is pending, or nothing of it. -/
theorem powerCut_cutFile (master : Bytes) (keep : Bool) (file : Device Sealed) :
    PowerCut master file (cutFile keep file) := by
  refine ⟨rfl, rfl, rfl, ?_, fun b keys _ _ slot => ?_⟩
  · cases keep with
    | true => exact Disk.crashImage_view _
    | false => exact Disk.crashImage_durable _
  · cases keep with
    | true => exact Or.inr (Or.inl rfl)
    | false => exact Or.inl rfl

/-- Only the power fails, and generations stay below their maximum. -/
def powerFailures (master : Bytes) : Environment where
  allows f := f = .none ∨ f = .powerLoss
  crash := PowerCut master
  permits s _ := s.volume.state.generation.toNat + 1 < 2 ^ 64
  opens _ := True

/-! ## The invariant -/

/-- The durable image holds the volume, and nothing pending can change that. -/
structure Settled (master : Bytes) (v : Volume) (es : List Entry) (file : Device Sealed) :
    Prop where
  present : file.present = true
  onDisk : OnDisk master v es file.disk.durable
  pending : ∀ u ∈ file.disk.pending, u.Protects 0 v.state.committedEnd.toNat

namespace Settled

variable {master : Bytes} {v v' : Volume} {es es' : List Entry} {file file' : Device Sealed}

theorem view (h : Settled master v es file) : OnDisk master v es file.disk.view :=
  h.onDisk.applyAll h.pending

/-- Issuing updates behind the committed end. -/
theorem pushAll (h : Settled master v es file) {us : List Update}
    (hus : ∀ u ∈ us, u.Protects 0 v.state.committedEnd.toNat)
    (hdisk : file'.disk = file.disk.pushAll us) (hpresent : file'.present = file.present) :
    Settled master v es file' := by
  refine ⟨hpresent.trans h.present, ?_, fun u hu => ?_⟩
  · rw [hdisk]
    exact h.onDisk
  · rw [hdisk, Disk.pending_pushAll] at hu
    rcases List.mem_append.mp hu with hm | hm
    · exact h.pending u hm
    · exact hus u hm

/-- A file that did not change. -/
theorem same (h : Settled master v es file) (hdisk : file'.disk = file.disk)
    (hpresent : file'.present = file.present) : Settled master v es file' :=
  h.pushAll (fun _ hu => absurd hu List.not_mem_nil)
    (hdisk.trans (Disk.pushAll_nil _).symm) hpresent

/-- A file whose view holds the volume, once it is synced. -/
theorem of_sync {disk : Disk} (h : OnDisk master v es disk.view) (hdisk : file.disk = disk.sync)
    (hpresent : file.present = true) : Settled master v es file := by
  refine ⟨hpresent, ?_, fun u hu => ?_⟩
  · rw [hdisk]
    exact h
  · rw [hdisk] at hu
    exact absurd hu List.not_mem_nil

/-- A crash image that holds the volume. -/
theorem of_powerCut (hpresent : file.present = true) (hcut : PowerCut master file file')
    (h : OnDisk master v es file'.disk.durable) : Settled master v es file' := by
  refine ⟨hcut.present.trans hpresent, h, fun u hu => ?_⟩
  rw [hcut.pending] at hu
  exact absurd hu List.not_mem_nil

/-- **A power cut keeps a settled volume.** -/
theorem powerCut (h : Settled master v es file) (hcut : PowerCut master file file') :
    Settled master v es file' := by
  obtain ⟨hs, hlen⟩ := Disk.slice_crashImage h.pending
    (by rw [Nat.zero_add]; exact h.onDisk.fits) hcut.image
  rw [Nat.zero_add] at hlen
  exact of_powerCut h.present hcut (h.onDisk.congr hs hlen)

/-- **A power cut while a superblock is pending** leaves the volume before or after the switch. -/
theorem powerCut_switch (h : OnDisk master v es file.disk.durable)
    (h' : OnDisk master v' es' file.disk.view) {ps : List Update} {bytes : Bytes} {n : ℕ}
    (hpresent : file.present = true) (hslot : v'.activeSuper = v.activeSuper.other)
    (hpending : file.disk.pending = ps ++ [.write v.activeSuper.other.offset bytes])
    (hbytes : bytes.length ≤ superSlotSize) (hps : ∀ u ∈ ps, u.Protects 0 n)
    (hn : v.state.committedEnd.toNat ≤ n) (hn' : v'.state.committedEnd.toNat ≤ n)
    (hdurable : n ≤ file.disk.durable.length) (hcut : PowerCut master file file') :
    Settled master v es file' ∨ Settled master v' es' file' :=
  (h.crash_switch h' hslot hpending hbytes hps hn hn' hdurable hcut.image
    (hcut.slots _ _ h.bootstrap h.keys _)).imp (of_powerCut hpresent hcut)
    (of_powerCut hpresent hcut)

end Settled

/-- The file holds the volume, whose blocks are those of `m`. -/
def Stores (master : Bytes) (b : Bootstrap) (v : Volume) (m : BlockMap) (file : Device Sealed) :
    Prop :=
  v.bootstrap = b ∧ ∃ es, Settled master v es file ∧ served es = m

/-- What a world holds, open or not. -/
def World.Holds (master : Bytes) (b : Bootstrap) : World → BlockMap → Prop
  | .live s, m => Stores master b s.volume m s.file
  | .down file, m => ∃ v, Stores master b v m file

/-- A call leaves the map as it was, or as it is to become; on every ending the file holds it. -/
structure Keeps (master : Bytes) (b : Bootstrap) (m next : BlockMap) {α : Type}
    (o : Outcome VolumeError α) (s' : Session) : Prop where
  ok : ∀ a, o = .ok a → Stores master b s'.volume next s'.file
  error : ∀ e, o = .error e → Stores master b s'.volume m s'.file
  crash : o = .crash → ∀ file, PowerCut master s'.file file →
    ∃ v, Stores master b v m file ∨ Stores master b v next file

/-- What a batch makes of a volume and its log: it is appended, unless there is nothing to
append. -/
inductive Logs (v : Volume) (es : List Entry) (blocks : List (UInt64 × Bytes)) :
    List UInt64 → Volume → List Entry → Prop where
  | nothing : blocks = [] → Logs v es blocks [] v es
  | batch {rs : List Appended} {last : UInt64} {next : SuperState} : BatchValid v.bootstrap blocks →
      Appends v v.state.committedEnd blocks rs last →
      commitState v.state rs.length last = .ok next →
      Logs v es blocks (rs.map fun r => r.header.generation) (committed v rs next)
        (es ++ rs.map Appended.entry)

/-- A call that succeeds leaves a settled volume and log that are as `next` says, and one that fails
leaves them as they were; a power cut in it leaves the one or the other. -/
structure Settles (master : Bytes) (v : Volume) (es : List Entry) {α : Type}
    (next : α → Volume → List Entry → Prop) (o : Outcome VolumeError α) (s' : Session) : Prop where
  ok : ∀ a, o = .ok a → ∃ es', Settled master s'.volume es' s'.file ∧ next a s'.volume es'
  error : ∀ e, o = .error e → s'.volume = v ∧ Settled master v es s'.file
  crash : o = .crash → ∀ file, PowerCut master s'.file file →
    Settled master v es file ∨ ∃ a v' es', Settled master v' es' file ∧ next a v' es'

/-! ## Calls -/

section Calls

variable {master : Bytes} {b : Bootstrap} {m next : BlockMap} {s s' : Session} {es : List Entry}

/-- A call that ends with the volume settled as before. -/
theorem Settles.of_settled {α : Type} {v : Volume} {next : α → Volume → List Entry → Prop}
    {o : Outcome VolumeError α} (hvolume : s'.volume = v) (h : Settled master v es s'.file)
    (hok : ∀ a, o = .ok a → next a v es) : Settles master v es next o s' where
  ok a ha := ⟨es, hvolume ▸ h, hvolume ▸ hok a ha⟩
  error _ _ := ⟨hvolume, h⟩
  crash _ _ hcut := Or.inl (h.powerCut hcut)

/-- What a call leaves of the map, where it is known what it leaves of the log. -/
theorem Settles.keeps {α : Type} {v : Volume} {next' : α → Volume → List Entry → Prop}
    {o : Outcome VolumeError α} (h : Settles master v es next' o s') (hb : v.bootstrap = b)
    (hm : served es = m)
    (hnext : ∀ a v' es', next' a v' es' → v'.bootstrap = b ∧ served es' = next) :
    Keeps master b m next o s' where
  ok a ha := by
    obtain ⟨es', hsettled, hnext'⟩ := h.ok a ha
    obtain ⟨hb', hm'⟩ := hnext a _ _ hnext'
    exact ⟨hb', es', hsettled, hm'⟩
  error e he := by
    obtain ⟨hvolume, hsettled⟩ := h.error e he
    rw [hvolume]
    exact ⟨hb, es, hsettled, hm⟩
  crash ho file hcut := by
    rcases h.crash ho file hcut with hsettled | ⟨a, v', es', hsettled, hnext'⟩
    · exact ⟨v, Or.inl ⟨hb, es, hsettled, hm⟩⟩
    · obtain ⟨hb', hm'⟩ := hnext a v' es' hnext'
      exact ⟨v', Or.inr ⟨hb', es', hsettled, hm'⟩⟩

/-- **`write_blocks` appends all of its batch to the log or nothing.** -/
theorem writeBlocks_settles [LawfulCrypto] {blocks : List (UInt64 × Bytes)}
    (hsettled : Settled master s.volume es s.file) (hpower : PowerOnly s.file.faults) :
    Settles master s.volume es (Logs s.volume es blocks) (writeBlocks blocks s).1
      (writeBlocks blocks s).2 := by
  have heffect := writeBlocks_effect s blocks
  generalize hrun : writeBlocks blocks s = r at heffect
  rcases r with ⟨o, s'⟩
  dsimp only at heffect ⊢
  -- the staged records are in the view, the volume before the call still in the durable image
  have hstaged : ∀ {rs last}, Appends s.volume s.volume.state.committedEnd blocks rs last →
      OnDisk master s.volume es (s.file.disk.pushAll (rs.flatMap Appended.updates)).view := by
    intro rs last happends
    rw [Disk.view_pushAll]
    exact hsettled.view.applyAll fun u hu => happends.tailWrites.protects hu
  have hcommitted : ∀ {rs last next bytes}, BatchValid s.volume.bootstrap blocks →
      Appends s.volume s.volume.state.committedEnd blocks rs last →
      commitState s.volume.state rs.length last = .ok next →
      SlotImage s.volume.keys s.volume.bootstrap s.volume.activeSuper.other next bytes →
      OnDisk master (committed s.volume rs next) (es ++ rs.map Appended.entry)
        ((s.file.disk.pushAll (rs.flatMap Appended.updates)).sync.push
          (.write s.volume.activeSuper.other.offset bytes)).view := by
    intro rs last next bytes hvalid happends hnext himage
    rw [Disk.view_push, Disk.view_sync, Disk.view_pushAll]
    exact hsettled.view.commit hvalid happends hnext himage
  -- a superblock that is not synced yet
  have hpending : ∀ {file rs last next bytes events}, BatchValid s.volume.bootstrap blocks →
      Appends s.volume s.volume.state.committedEnd blocks rs last →
      commitState s.volume.state rs.length last = .ok next →
      SlotImage s.volume.keys s.volume.bootstrap s.volume.activeSuper.other next bytes →
      file.After s.file ((s.file.disk.pushAll (rs.flatMap Appended.updates)).sync.push
        (.write s.volume.activeSuper.other.offset bytes)) events →
      ∀ file', PowerCut master file file' → Settled master s.volume es file' ∨
        ∃ a v' es', Settled master v' es' file' ∧ Logs s.volume es blocks a v' es' := by
    intro file rs last next bytes events hvalid happends hnext himage hafter file' hcut
    obtain ⟨-, hend, -, -⟩ := commitState_eq_ok hnext
    have hroom := happends.room
    have hold := hstaged happends
    have hnew := hcommitted hvalid happends hnext himage
    have hfits := hold.fits
    rw [Disk.view_pushAll] at hfits
    have hlast := happends.last_le happends.written hfits
    have hdurable : file.disk.durable =
        (s.file.disk.pushAll (rs.flatMap Appended.updates)).view := by rw [hafter.disk]; rfl
    rw [← hafter.disk] at hnew
    rw [← hdurable] at hold
    have hpending : file.disk.pending = [] ++ [.write s.volume.activeSuper.other.offset bytes] := by
      rw [hafter.disk]
      rfl
    exact (Settled.powerCut_switch hold hnew (hafter.present.trans hsettled.present) rfl hpending
      himage.length.le (n := last.toNat) (fun _ hu => absurd hu List.not_mem_nil) (by omega)
      (by show next.committedEnd.toNat ≤ _; rw [hend])
      (by rw [hdurable, Disk.view_pushAll]; exact hlast) hcut).imp id
      fun h => ⟨_, _, _, h, .batch hvalid happends hnext⟩
  cases heffect with
  | empty hempty => exact .of_settled rfl hsettled fun a ha => Outcome.ok.inj ha ▸ .nothing hempty
  | rejected _ => exact .of_settled rfl hsettled (by simp)
  | staging _ htail _ hafter hok _ _ =>
    refine .of_settled rfl ?_ fun a ha => absurd ha (hok a)
    exact hsettled.pushAll (fun u hu => htail.protects hu) hafter.disk hafter.present
  | uncommitted _ happends hafter hend =>
    refine .of_settled rfl
      (Settled.of_sync (hstaged happends) hafter.disk (hafter.present.trans hsettled.present)) ?_
    rintro a rfl
    rcases hend with ⟨-, e, he, -⟩ | ⟨_, -, -, hcut⟩
    · exact absurd he (by simp)
    · exact absurd hcut id
  | torn hvalid happends hnext himage hafter hcut hpart =>
    obtain rfl := hpower.crash_of_cut hcut
    rw [hpower.take_eq (hpart rfl)] at hafter
    exact ⟨by simp, by simp, fun _ => hpending hvalid happends hnext himage hafter⟩
  | unsynced hvalid happends hnext himage hafter hcut =>
    obtain rfl := hpower.crash_of_cut hcut
    exact ⟨by simp, by simp, fun _ => hpending hvalid happends hnext himage hafter⟩
  | committed hvalid happends hnext himage hafter =>
    have hsettled' := Settled.of_sync (hcommitted hvalid happends hnext himage) hafter.disk
      (hafter.present.trans hsettled.present)
    refine ⟨fun a ha => ⟨_, hsettled', ?_⟩, by simp, by simp⟩
    exact Outcome.ok.inj ha ▸ .batch hvalid happends hnext

/-- What a batch leaves is the map with its blocks. -/
theorem Logs.served {v v' : Volume} {es' : List Entry} {blocks : List (UInt64 × Bytes)}
    {gens : List UInt64} (h : Logs v es blocks gens v' es') :
    v'.bootstrap = v.bootstrap ∧ Volume.served es' = assign (Volume.served es) blocks := by
  cases h with
  | nothing hempty =>
    rw [hempty]
    exact ⟨rfl, rfl⟩
  | batch _ happends _ => exact ⟨rfl, served_append happends⟩

/-- **`write_blocks` applies all of its batch or nothing.** -/
theorem writeBlocks_keeps [LawfulCrypto] {blocks : List (UInt64 × Bytes)}
    (h : Stores master b s.volume m s.file) (hpower : PowerOnly s.file.faults) :
    Keeps master b m (assign m blocks) (writeBlocks blocks s).1 (writeBlocks blocks s).2 := by
  obtain ⟨rfl, es, hsettled, rfl⟩ := h
  exact (writeBlocks_settles hsettled hpower).keeps rfl rfl fun _ _ _ h => h.served

/-- The volume with its flag changed, if it had to be; the log as it was. -/
def Flags (v : Volume) (es : List Entry) (clean : Bool) (_ : Unit) (v' : Volume)
    (es' : List Entry) : Prop :=
  es' = es ∧ (v' = v ∨ v' = reflagged v clean)

theorem setCleanState_settles [LawfulCrypto] {clean : Bool}
    (hsettled : Settled master s.volume es s.file)
    (hpower : PowerOnly s.file.faults) (hlimit : s.volume.state.generation.toNat + 1 < 2 ^ 64) :
    Settles master s.volume es (Flags s.volume es clean) (setCleanState clean s).1
      (setCleanState clean s).2 := by
  have heffect := setCleanState_effect s clean
  generalize hrun : setCleanState clean s = r at heffect
  rcases r with ⟨o, s'⟩
  dsimp only at heffect ⊢
  have hreflagged : ∀ {bytes},
      SlotImage s.volume.keys s.volume.bootstrap s.volume.activeSuper.other
        (flagged s.volume.state clean) bytes →
      OnDisk master (reflagged s.volume clean) es
        (s.file.disk.push (.write s.volume.activeSuper.other.offset bytes)).view := by
    intro bytes himage
    rw [Disk.view_push]
    exact hsettled.view.reflag hlimit himage
  cases heffect with
  | unchanged _ => exact .of_settled rfl hsettled fun _ _ => ⟨rfl, Or.inl rfl⟩
  | untouched _ hafter _ =>
    exact .of_settled rfl (hsettled.same hafter.disk hafter.present) fun _ _ => ⟨rfl, Or.inl rfl⟩
  | @torn _ file bytes part _ himage hafter hcut hpart =>
    obtain rfl := hpower.crash_of_cut hcut
    rw [hpower.take_eq (hpart rfl)] at hafter
    refine ⟨by simp, by simp, fun _ file' hpcut => ?_⟩
    have hold : OnDisk master s.volume es file.disk.durable := by
      rw [hafter.disk]
      exact hsettled.onDisk
    have hnew := hreflagged himage
    rw [← hafter.disk] at hnew
    have hpending : file.disk.pending =
        s.file.disk.pending ++ [.write s.volume.activeSuper.other.offset bytes] := by
      rw [hafter.disk]
      rfl
    exact (Settled.powerCut_switch hold hnew (hafter.present.trans hsettled.present) rfl hpending
      himage.length.le hsettled.pending le_rfl le_rfl hold.fits hpcut).imp id
      fun h => ⟨(), _, _, h, rfl, Or.inr rfl⟩
  | changed _ himage hafter =>
    have hsettled' := Settled.of_sync (hreflagged himage) hafter.disk
      (hafter.present.trans hsettled.present)
    exact ⟨fun _ _ => ⟨es, hsettled', rfl, Or.inr rfl⟩, by simp, by simp⟩

omit [Crypto] in
theorem Flags.served {v v' : Volume} {es' : List Entry} {clean : Bool} {u : Unit}
    (h : Flags v es clean u v' es') :
    v'.bootstrap = v.bootstrap ∧ Volume.served es' = Volume.served es := by
  obtain ⟨rfl, rfl | rfl⟩ := h <;> exact ⟨rfl, rfl⟩

/-- **A change of the clean flag keeps the blocks.** -/
theorem setCleanState_keeps [LawfulCrypto] {clean : Bool} (h : Stores master b s.volume m s.file)
    (hpower : PowerOnly s.file.faults) (hlimit : s.volume.state.generation.toNat + 1 < 2 ^ 64) :
    Keeps master b m m (setCleanState clean s).1 (setCleanState clean s).2 := by
  obtain ⟨rfl, es, hsettled, rfl⟩ := h
  exact (setCleanState_settles hsettled hpower hlimit).keeps rfl rfl fun _ _ _ h => h.served

/-- The volume and its log as they were. -/
def Same (v : Volume) (es : List Entry) {α : Type} (_ : α) (v' : Volume)
    (es' : List Entry) : Prop :=
  v' = v ∧ es' = es

theorem sync_settles (hsettled : Settled master s.volume es s.file) :
    Settles master s.volume es (Same s.volume es) (sync s).1 (sync s).2 := by
  obtain ⟨hvolume, hfile, -, -⟩ := sync_effect s
  refine .of_settled hvolume ?_ fun _ _ => ⟨rfl, rfl⟩
  rcases hfile with hfile | hfile
  · exact hsettled.same hfile.disk hfile.present
  · exact Settled.of_sync hsettled.view hfile.disk (hfile.present.trans hsettled.present)

theorem sync_keeps (h : Stores master b s.volume m s.file) :
    Keeps master b m m (sync s).1 (sync s).2 := by
  obtain ⟨rfl, es, hsettled, rfl⟩ := h
  exact (sync_settles hsettled).keeps rfl rfl fun _ _ _ h => by rw [h.1, h.2]; exact ⟨rfl, rfl⟩

theorem readBlock_settles (hsettled : Settled master s.volume es s.file)
    (hpower : PowerOnly s.file.faults) (k : UInt64) : Settles master s.volume es (Same s.volume es)
    (readBlock k s).1 (readBlock k s).2 := by
  have heffect := readBlock_effect k hpower.not_mayDamage hsettled.view.log
  exact .of_settled heffect.volume (hsettled.same heffect.file.disk heffect.file.present)
    fun _ _ => ⟨rfl, rfl⟩

theorem readBlock_keeps (h : Stores master b s.volume m s.file) (hpower : PowerOnly s.file.faults)
    (k : UInt64) : Keeps master b m m (readBlock k s).1 (readBlock k s).2 := by
  obtain ⟨rfl, es, hsettled, rfl⟩ := h
  exact (readBlock_settles hsettled hpower k).keeps rfl rfl fun _ _ _ h => by
    rw [h.1, h.2]
    exact ⟨rfl, rfl⟩

/-- **Opening finds the volume the file holds, and its log**, and does not fail. -/
theorem openVolume_settles {v : Volume} {d : Device Sealed} (hsettled : Settled master v es d)
    (hpower : PowerOnly d.faults) :
    (∀ v', (openVolume master d).1 = .ok v' → v' = v ∧
      Settled master v es (openVolume master d).2) ∧
      (∀ e, (openVolume master d).1 ≠ .error e) ∧
      ((openVolume master d).1 = .crash → d.MayCrash ∧
        Settled master v es (openVolume master d).2) := by
  have heffect := openVolume_effect master d hpower.not_mayDamage
  generalize openVolume master d = r at heffect
  rcases r with ⟨o, file⟩
  dsimp only at heffect ⊢
  have hview := hsettled.view
  have hfound : ∀ {v' es'}, Opened master d.disk.view v' es' → Newest master d v' →
      v' = v ∧ es' = es := fun hopened hnewest =>
    hview.eq_of_newest hopened fun v'' es'' h hlimit =>
      ((hnewest.resolve_left hpower.not_mayFail) v'' es'' h hlimit).generation_le
  -- cutting off what is behind the committed end
  have hcutoff : ∀ u ∈ [Update.setLen v.state.committedEnd.toNat],
      u.Protects 0 v.state.committedEnd.toNat := by
    intro u hu
    rw [List.mem_singleton.mp hu]
    exact (Nat.zero_add _).le
  cases heffect with
  | failed hok hfile hcrash herror =>
    refine ⟨fun v' ho => absurd ho (hok v'), fun e ho => ?_, fun ho => ⟨hcrash ho, ?_⟩⟩
    · rcases herror e ho with hfail | habsent | hlarge
      · exact hpower.not_mayFail hfail
      · exact absurd (habsent.symm.trans hsettled.present) (by simp)
      · exact absurd (hlarge v es hview.toOpened) (not_le.mpr hview.limit)
    · exact hsettled.same hfile.disk hfile.present
  | cut hok hopened hnewest hfile hcrash herror =>
    obtain ⟨rfl, rfl⟩ := hfound hopened hnewest
    refine ⟨fun v' ho => absurd ho (hok v'), fun e ho => ?_, fun ho => ⟨hcrash ho, ?_⟩⟩
    · rcases herror e ho with hfail | hlarge
      · exact hpower.not_mayFail hfail
      · exact absurd hlarge (not_le.mpr hview.limit)
    · rcases hfile with hfile | hfile
      · exact hsettled.same hfile.disk hfile.present
      · exact hsettled.pushAll hcutoff hfile.disk hfile.present
  | opened hopened hnewest hfile =>
    obtain ⟨rfl, rfl⟩ := hfound hopened hnewest
    refine ⟨fun v' ho => ⟨(Outcome.ok.inj ho).symm, ?_⟩, by simp, by simp⟩
    rcases hfile with ⟨hfile, -⟩ | ⟨hfile, -⟩
    · exact hsettled.same hfile.disk hfile.present
    · refine Settled.of_sync ?_ hfile.disk (hfile.present.trans hsettled.present)
      rw [Disk.view_push]
      exact hview.applyAll hcutoff

/-- **Opening finds the volume the file holds**, and does not fail. -/
theorem openVolume_keeps {v : Volume} {d : Device Sealed} (h : Stores master b v m d)
    (hpower : PowerOnly d.faults) :
    (∀ v', (openVolume master d).1 = .ok v' → Stores master b v' m (openVolume master d).2) ∧
      (∀ e, (openVolume master d).1 ≠ .error e) ∧
      ((openVolume master d).1 = .crash → d.MayCrash ∧
        Stores master b v m (openVolume master d).2) := by
  obtain ⟨hb, es, hsettled, hm⟩ := h
  obtain ⟨hok, herror, hcrash⟩ := openVolume_settles hsettled hpower
  refine ⟨fun v' ho => ?_, herror, fun ho => ⟨(hcrash ho).1, hb, es, (hcrash ho).2, hm⟩⟩
  obtain ⟨rfl, hsettled'⟩ := hok v' ho
  exact ⟨hb, es, hsettled', hm⟩

end Calls

/-! ## Runs -/

section Runs

variable {master : Bytes} {b : Bootstrap} {m : BlockMap}

/-- Mapping the value of an outcome does not change what the call keeps. -/
theorem Keeps.map {next : BlockMap} {α β : Type} {o : Outcome VolumeError α} {s' : Session}
    (f : α → β) (h : Keeps master b m next o s') : Keeps master b m next (o.map f) s' := by
  obtain ⟨hok, herror, hcrash⟩ := h
  cases o with
  | ok a => exact ⟨fun _ _ => hok a rfl, by simp [Outcome.map], by simp [Outcome.map]⟩
  | error e => exact ⟨by simp [Outcome.map], fun _ _ => herror e rfl, by simp [Outcome.map]⟩
  | crash => exact ⟨by simp [Outcome.map], by simp [Outcome.map], fun _ => hcrash rfl⟩

/-- **Every call keeps the map, or moves it to what the call makes of it.** -/
theorem Call.keeps [LawfulCrypto] (c : Call) {s : Session} (h : Stores master b s.volume m s.file)
    (hpower : PowerOnly s.file.faults) (hlimit : s.volume.state.generation.toNat + 1 < 2 ^ 64) :
    Keeps master b m (c.after m) (c.run s).1 (c.run s).2 := by
  cases c with
  | readBlock k =>
    rw [Call.run, run_map]
    exact (readBlock_keeps h hpower k).map _
  | writeBlocks blocks =>
    rw [Call.run, run_map]
    exact (writeBlocks_keeps h hpower).map _
  | markClean =>
    rw [Call.run, run_map]
    exact (setCleanState_keeps h hpower hlimit).map _
  | markDirty =>
    rw [Call.run, run_map]
    exact (setCleanState_keeps h hpower hlimit).map _
  | sync =>
    rw [Call.run, run_map]
    exact (sync_keeps h).map _

/-- The answer of a read. -/
theorem readBlock_answer {s : Session} (h : Stores master b s.volume m s.file)
    (hpower : PowerOnly s.file.faults) (k : UInt64) :
    (readBlock k s).1 = (if k < b.blockCount then .ok (m k) else .error .blockOutOfRange) ∨
      (readBlock k s).1 = .crash ∧ s.file.MayCrash := by
  obtain ⟨rfl, es, hsettled, rfl⟩ := h
  have heffect := readBlock_effect k hpower.not_mayDamage hsettled.view.log
  have hanswer := readAnswer_of_limit k hsettled.view.indexes fun e he => by
    have hlimit := hsettled.view.limit
    obtain ⟨-, -, hend⟩ := Scans.mem hsettled.view.log he
    have hend' : e.offset.toNat + e.header.recordLen ≤ s.volume.state.committedEnd.toNat := hend
    omega
  rcases heffect.answer with h | ⟨-, hfail⟩ | h
  · exact Or.inl (h.trans hanswer)
  · exact absurd hfail hpower.not_mayFail
  · exact Or.inr h

/-- The calls of a powered file that answer nothing do not fail. -/
theorem setCleanState_not_error [LawfulCrypto] {clean : Bool} {s : Session}
    (hpower : PowerOnly s.file.faults) (e : VolumeError) :
    (setCleanState clean s).1 ≠ .error e := by
  have heffect := setCleanState_effect s clean
  intro ho
  rw [ho] at heffect
  generalize (setCleanState clean s).2 = s' at heffect
  cases heffect with
  | untouched _ _ hcut => exact absurd (hpower.crash_of_cut hcut) (by simp)
  | torn _ _ _ hcut _ => exact absurd (hpower.crash_of_cut hcut) (by simp)

/-- A call that returns does to the map what `Serves` allows. -/
theorem Call.serves [LawfulCrypto] (c : Call) {s : Session}
    (h : Stores master b s.volume m s.file) (hpower : PowerOnly s.file.faults) :
    (∀ r, (c.run s).1 = .ok r → Serves b m (.call c (.ok r)) (c.after m)) ∧
      ∀ e, (c.run s).1 = .error e → Serves b m (.call c (.error e)) m := by
  have hflag : ∀ (clean : Bool) (c : Call), c ∈ [Call.markClean, .markDirty, .sync] →
      (∀ r, ((setCleanState clean s).1.map fun _ => Reply.done) = .ok r →
        Serves b m (.call c (.ok r)) (c.after m)) ∧
      ∀ e, ((setCleanState clean s).1.map fun _ => Reply.done) = .error e →
        Serves b m (.call c (.error e)) m := by
    intro clean c hc
    have hafter : c.after m = m := by
      rcases c with _ | _ | _ | _ | _ <;> first | rfl | exact absurd hc (by simp)
    rw [hafter]
    cases ho : (setCleanState clean s).1 with
    | ok a =>
      refine ⟨fun r hr => ?_, by simp [Outcome.map]⟩
      obtain rfl := Outcome.ok.inj hr
      exact .done m hc
    | error e => exact absurd ho (setCleanState_not_error hpower e)
    | crash => simp [Outcome.map]
  cases c with
  | readBlock k =>
    rw [Call.run, run_map]
    rcases readBlock_answer h hpower k with hanswer | ⟨hanswer, -⟩
    · rw [hanswer]
      by_cases hin : k < b.blockCount
      · rw [if_pos hin]
        refine ⟨fun r hr => ?_, by simp [Outcome.map]⟩
        obtain rfl := Outcome.ok.inj hr
        exact .read m hin
      · rw [if_neg hin]
        refine ⟨by simp [Outcome.map], fun e he => ?_⟩
        obtain rfl := Outcome.error.inj he
        exact .readOutside m hin
    · rw [hanswer]
      simp [Outcome.map]
  | writeBlocks blocks =>
    rw [Call.run, run_map]
    cases (Volume.writeBlocks blocks s).1 with
    | ok gens =>
      refine ⟨fun r hr => ?_, by simp [Outcome.map]⟩
      obtain rfl := Outcome.ok.inj hr
      exact .written m blocks gens
    | error e => exact ⟨by simp [Outcome.map], fun e _ => .notWritten m blocks e⟩
    | crash => simp [Outcome.map]
  | markClean =>
    rw [Call.run, run_map]
    exact hflag true .markClean (by decide)
  | markDirty =>
    rw [Call.run, run_map]
    exact hflag false .markDirty (by decide)
  | sync =>
    rw [Call.run, run_map]
    cases ho : (Volume.sync s).1 with
    | ok a =>
      refine ⟨fun r hr => ?_, by simp [Outcome.map]⟩
      obtain rfl := Outcome.ok.inj hr
      exact .done m (by decide)
    | error e => exact absurd ((sync_effect s).error e ho) hpower.not_mayFail
    | crash => simp [Outcome.map]

/-- **Each step of a volume does to its map what `Serves` allows.** -/
theorem step_serves [LawfulCrypto] {w w' : World} {e : Event} (hw : w.Holds master b m)
    (h : Step (powerFailures master) master w e w') :
    ∃ m', Serves b m e m' ∧ w'.Holds master b m' := by
  have hscript : ∀ {v file} fs, Stores master b v m file →
      Stores master b v m (script fs file) := by
    rintro v file fs ⟨hb, es, hsettled, hm⟩
    exact ⟨hb, es, hsettled.same rfl rfl, hm⟩
  cases h with
  | @call s s' c fs o hpermits hfs hrun ho =>
    have hstores : Stores master b (s.script fs).volume m (s.script fs).file := hscript fs hw
    have hkeeps := c.keeps hstores hfs hpermits
    have hserves := c.serves hstores hfs
    rw [hrun] at hkeeps hserves
    cases o with
    | ok r => exact ⟨_, hserves.1 r rfl, hkeeps.ok r rfl⟩
    | error e => exact ⟨_, hserves.2 e rfl, hkeeps.error e rfl⟩
    | crash => exact absurd rfl ho
  | @crashed s s' c fs file hpermits hfs hrun hcut =>
    have hstores : Stores master b (s.script fs).volume m (s.script fs).file := hscript fs hw
    have hkeeps := c.keeps hstores hfs hpermits
    rw [hrun] at hkeeps
    obtain ⟨v, hlost | hkept⟩ := hkeeps.crash rfl file hcut
    · exact ⟨m, .lost m c, v, hlost⟩
    · exact ⟨c.after m, .kept m c, v, hkept⟩
  | close => exact ⟨m, .close m, _, hw⟩
  | @opened file file' v fs _ hfs hrun =>
    obtain ⟨v₀, hstores⟩ := hw
    have hopen := (openVolume_keeps (hscript fs hstores) hfs).1 v
    rw [hrun] at hopen
    exact ⟨m, .opened m, hopen rfl⟩
  | @openFailed file file' e fs _ hfs hrun =>
    obtain ⟨v₀, hstores⟩ := hw
    have hopen := (openVolume_keeps (hscript fs hstores) hfs).2.1 e
    rw [hrun] at hopen
    exact absurd rfl hopen
  | @openCrashed file file' file'' fs _ hfs hrun hcut =>
    obtain ⟨v₀, hstores⟩ := hw
    have hopen := (openVolume_keeps (hscript fs hstores) hfs).2.2
    rw [hrun] at hopen
    obtain ⟨-, hb, es, hsettled, hm⟩ := hopen rfl
    exact ⟨m, .openCrashed m, v₀, hb, es, hsettled.powerCut hcut, hm⟩
  | @cutLive s file hcut =>
    obtain ⟨hb, es, hsettled, hm⟩ := hw
    exact ⟨m, .powerCut m, _, hb, es, hsettled.powerCut hcut, hm⟩
  | @cutDown file file' hcut =>
    obtain ⟨v₀, hb, es, hsettled, hm⟩ := hw
    exact ⟨m, .powerCut m, v₀, hb, es, hsettled.powerCut hcut, hm⟩

/-- The session serves the map. -/
def Session.Serves (s : Session) (b : Bootstrap) (m : BlockMap) : Prop :=
  ∀ k, (readBlock k (s.script [])).1 =
    if k < b.blockCount then .ok (m k) else .error .blockOutOfRange

theorem Stores.serves {s : Session} (h : Stores master b s.volume m s.file) : s.Serves b m := by
  intro k
  obtain ⟨hb, es, hsettled, hm⟩ := h
  have hstores : Stores master b (s.script []).volume m (s.script []).file :=
    ⟨hb, es, hsettled.same rfl rfl, hm⟩
  refine (readBlock_answer hstores (fun _ hf => absurd hf List.not_mem_nil) k).resolve_right ?_
  rintro ⟨-, ⟨part, hpart⟩ | hpower⟩
  · exact absurd hpart List.not_mem_nil
  · exact absurd hpower List.not_mem_nil

/-- The world serves the map: an open volume does, and a closed one opens to one that does. -/
def World.Serves (master : Bytes) (b : Bootstrap) : World → BlockMap → Prop
  | .live s, m => s.Serves b m
  | .down file, m => ∃ v file', openVolume master (script [] file) = (.ok v, file') ∧
      Session.Serves ⟨v, file'⟩ b m

theorem World.Holds.serves {w : World} (h : w.Holds master b m) : w.Serves master b m := by
  cases w with
  | live s => exact Stores.serves h
  | down file =>
    obtain ⟨v, hb, es, hsettled, hm⟩ := h
    obtain ⟨hok, herror, hcrash⟩ := openVolume_keeps
      (⟨hb, es, hsettled.same rfl rfl, hm⟩ : Stores master b v m (script [] file))
      fun _ hf => absurd hf List.not_mem_nil
    rcases hrun : openVolume master (script [] file) with ⟨o, file'⟩
    rw [hrun] at hok herror hcrash
    cases o with
    | ok v' => exact ⟨v', file', hrun, Stores.serves (s := ⟨v', file'⟩) (hok v' rfl)⟩
    | error e => exact absurd rfl (herror e)
    | crash =>
      rcases (hcrash rfl).1 with ⟨part, hpart⟩ | hpower
      · exact absurd hpart List.not_mem_nil
      · exact absurd hpower List.not_mem_nil

/-- **A volume is crash safe.**  From a successful `create`, whatever is called, closed, opened and
cut short by power failures, the volume serves what the abstract one does: every batch that
returned, and of a batch in flight all or nothing; and it can always be opened again. -/
theorem crash_safe [LawfulCrypto] {options : VolumeOptions} {volumeId salt : FixedBytes 32}
    {d d' : Device Sealed} {v : Volume} {events : List Event} {w : World}
    (hcreate : createVolume master options volumeId salt d = (.ok v, d'))
    (hrun : Run (Step (powerFailures master) master) (.live ⟨v, d'⟩) events w) :
    ∃ m, Run (Volume.Serves v.bootstrap) (fun _ => none) events m ∧
      w.Serves master v.bootstrap m := by
  have hcreated := createVolume_ok hcreate
  have hstart : World.Holds master v.bootstrap (.live ⟨v, d'⟩) fun _ => none := by
    refine ⟨rfl, [], ⟨hcreated.present, hcreated.onDisk, fun u hu => ?_⟩, rfl⟩
    rw [hcreated.pending] at hu
    exact absurd hu List.not_mem_nil
  obtain ⟨m, habstract, hholds⟩ := hrun.simulation hstart fun _ _ _ _ hw hstep =>
    step_serves hw hstep
  exact ⟨m, habstract, hholds.serves⟩

end Runs

end Crypto

/-! ## A run with two power cuts -/

def twoCuts : List Command :=
  [.call (.writeBlocks [(0, [1]), (1, [2])]) [] true,
    .call (.writeBlocks [(1, [3])]) (List.replicate 5 .none ++ [.powerLoss]) true,
    .reopen [] true,
    .call (.writeBlocks [(0, [4])]) [.none, .powerLoss] false]

def twoCutsEvents : List Event :=
  [.call (.writeBlocks [(0, [1]), (1, [2])]) (.ok (.generations [1, 1])),
    .call (.writeBlocks [(1, [3])]) .crash,
    .reopen (.ok ()),
    .call (.writeBlocks [(0, [4])]) .crash]

def belowMaximum : World → Command → Bool
  | .live s, _ => decide (s.volume.state.generation.toNat + 1 < 2 ^ 64)
  | .down _, _ => true

/-- The events that are run, the volume being opened once more at the end. -/
theorem twoCuts_exec :
    let _ := tableCrypto []
    ((twoBlocks [7]).bind fun s =>
      execute (Command.guarded [7] belowMaximum) (twoCuts ++ [.reopen [] true]) (.live s)).map
        (fun r => (r.1, r.2.session?.isSome)) =
      some (twoCutsEvents ++ [.reopen (.ok ())], true) := by
  decide +kernel

/-- The power goes behind a slot write, and then in the records of another batch. -/
theorem twoCuts_run :
    let _ := tableCrypto []
    ∃ s w s', twoBlocks [7] = some s ∧
      Run (Step (powerFailures [7]) [7]) (.live s) twoCutsEvents w ∧
      Step (powerFailures [7]) [7] w (.reopen (.ok ())) (.live s') := by
  let _ := tableCrypto []
  obtain ⟨⟨es, w'⟩, hevents, heq⟩ := Option.map_eq_some_iff.mp twoCuts_exec
  obtain ⟨rfl, hlive⟩ := Prod.mk.inj heq
  obtain ⟨s, hs, hrun⟩ := Option.bind_eq_some_iff.mp hevents
  have hfaults : ∀ cmd ∈ twoCuts ++ [.reopen [] true],
      ∀ f ∈ cmd.faults, f = .none ∨ f = .powerLoss := by decide
  have hrun' : Run (Step (powerFailures [7]) [7]) (.live s)
      (twoCutsEvents ++ [.reopen (.ok ())]) w' := by
    refine execute_guarded hfaults (powerCut_cutFile [7]) (fun s c fs keep hcheck => ?_)
      (fun _ _ _ _ => trivial) hrun
    exact of_decide_eq_true (p := s.volume.state.generation.toNat + 1 < 2 ^ 64) hcheck
  obtain ⟨w, hbefore, hlast⟩ := hrun'.dropLast
  cases w' with
  | down file => exact absurd hlive (by simp [World.session?])
  | live s' => exact ⟨s, w, s', hs, hbefore, hlast⟩

theorem crash_safe_twoCuts :
    let _ := tableCrypto []
    ∃ s w m, Run (Step (powerFailures [7]) [7]) (.live s) twoCutsEvents w ∧
      Run (Volume.Serves s.volume.bootstrap) (fun _ => none) twoCutsEvents m ∧
      w.Serves [7] s.volume.bootstrap m := by
  let _ := tableCrypto []
  have _ := tableCrypto_lawful []
  obtain ⟨s, w, -, hs, hrun, -⟩ := twoCuts_run
  obtain ⟨m, hserves, hw⟩ := crash_safe (createSession_eq_some.mp hs) hrun
  exact ⟨s, w, m, hrun, hserves, hw⟩

end OrIsyVra.Volume
