import OrIsyVra.Mount.Lifecycle
import OrIsyVra.Mount.Sectors

/-!
# The block device

WinSpd hands every transfer of the driver to one of three callbacks of the mount host.  A callback
finds the volume behind its storage unit, checks the range, goes through the sector adapter under
the lock of the volume, and answers with a SCSI status.  It always answers; what went wrong is in
the status.

Over the callbacks stands a disk of bytes: `DiskStep` says what it may answer to each of them, and
what is on it afterwards.  A power failure in a transfer leaves the disk before or after the
transfer, and one at any other time changes nothing, so a write that was answered with `GOOD` is
there after any number of power failures (`device_serves_disk`, `acknowledged_write_survives`).
-/

namespace OrIsyVra.Mount

open ByteString MachineWord DurableFile FaultProgram Runs BlockArray KeyedLog Volume

/-! ## Statuses -/

structure StorageUnitStatus where
  scsiStatus : UInt8
  senseKey : UInt8
  asc : UInt8
  ascq : UInt8
  information : UInt64
  reservedCsi : UInt64
  reservedSks : UInt32
  flags : UInt32
  deriving DecidableEq, Repr

def scsistatGood : UInt8 := 0x00
def scsistatCheckCondition : UInt8 := 0x02
def senseMediumError : UInt8 := 0x03
def senseIllegalRequest : UInt8 := 0x05
def ascUnrecoveredReadError : UInt8 := 0x11
def ascWriteError : UInt8 := 0x0c
def ascLbaOutOfRange : UInt8 := 0x21

namespace StorageUnitStatus

def default : StorageUnitStatus := ⟨0, 0, 0, 0, 0, 0, 0, 0⟩

end StorageUnitStatus

def setGood : StorageUnitStatus := { StorageUnitStatus.default with scsiStatus := scsistatGood }

def setError (senseKey asc : UInt8) (information : Option UInt64) : StorageUnitStatus :=
  let status : StorageUnitStatus :=
    { StorageUnitStatus.default with
      scsiStatus := scsistatCheckCondition
      senseKey := senseKey
      asc := asc }
  match information with
  | some information =>
    { status with information := information, flags := status.flags ||| (1 : UInt32) <<< 8 }
  | none => status

/-- An error is not taken for a success. -/
theorem setError_ne_setGood (senseKey asc : UInt8) (information : Option UInt64) :
    setError senseKey asc information ≠ setGood := by
  have hstatus : (setError senseKey asc information).scsiStatus = scsistatCheckCondition := by
    cases information <;> rfl
  intro h
  rw [h] at hstatus
  exact absurd hstatus (by decide)

/-! ## Callbacks -/

/-- A transfer of the driver; `buffer` is what its pointer points to, if the pointer is not null. -/
structure Request where
  blockAddress : UInt64
  blockCount : UInt32
  flushFlag : UInt8
  buffer : Option Bytes
  deriving DecidableEq, Repr

/-- What a callback finds for its storage unit: no context, one whose lock is poisoned, or the
volume. -/
inductive Context where
  | missing
  | poisoned
  | here (readOnly : Bool)
  deriving DecidableEq, Repr

/-- The errors of a transfer; their texts go nowhere. -/
inductive TransferError where
  | volume (e : VolumeError)
  | message (text : String)

/-- What the driver gets back: the status, and the sectors that were read. -/
structure Completion where
  status : StorageUnitStatus
  data : Option Bytes
  deriving DecidableEq, Repr

section Crypto

variable [Crypto]

/-- The volume of a context. -/
def lockContext : Context → Prog Session TransferError Bool
  | .here readOnly => pure readOnly
  | _ => Prog.fail (.message "mount context lock poisoned")

/-- What the two transfers share: `asc` is the code of their failures, and `run` what they do with
the range once the volume is locked. -/
def transfer (asc : UInt8) (context : Context) (request : Request)
    (run : Bool → UInt64 → Bytes → Prog Session TransferError (Option Bytes)) :
    Prog Session Empty Completion :=
  let failed : Completion := ⟨setError senseMediumError asc (some request.blockAddress), none⟩
  let illegal : Completion :=
    ⟨setError senseIllegalRequest ascLbaOutOfRange (some request.blockAddress), none⟩
  if context = .missing then pure ⟨setError senseMediumError asc none, none⟩
  else
    match checkedMul request.blockCount.toUInt64 sectorSize with
    | none => pure illegal
    | some length =>
      match checkedMul request.blockAddress sectorSize with
      | none => pure illegal
      | some offset =>
        if length = 0 then pure ⟨setGood, none⟩
        else
          match request.buffer with
          | none => pure failed
          | some buffer => do
            let result ← Prog.attempt do
              let readOnly ← lockContext context
              run readOnly offset (buffer.take length.toNat)
            match result with
            | .ok data => pure ⟨setGood, data⟩
            | .error _ => pure failed

def readCallback (context : Context) (request : Request) : Prog Session Empty Completion :=
  transfer ascUnrecoveredReadError context request fun _ offset output => do
    if request.flushFlag ≠ 0 then Prog.mapError .volume Volume.sync
    some <$> Prog.mapError .volume (readBytes offset output)

def writeCallback (context : Context) (request : Request) : Prog Session Empty Completion :=
  transfer ascWriteError context request fun readOnly offset input => do
    if readOnly then Prog.fail (.message "volume is mounted read-only")
    Prog.mapError .volume (writeBytes offset input)
    if request.flushFlag ≠ 0 then Prog.mapError .volume Volume.sync
    pure none

def flushCallback (context : Context) : Prog Session Empty Completion :=
  let failed : Completion := ⟨setError senseMediumError ascWriteError none, none⟩
  if context = .missing then pure failed
  else do
    let result ← Prog.attempt do
      let _ ← lockContext context
      Prog.mapError .volume Volume.sync
    match result with
    | .ok _ => pure ⟨setGood, none⟩
    | .error _ => pure failed

/-- The interface of the storage unit. -/
inductive Callback where
  | read (request : Request)
  | write (request : Request)
  | flush
  deriving DecidableEq, Repr

def Callback.run (context : Context) : Callback → Prog Session Empty Completion
  | read request => readCallback context request
  | write request => writeCallback context request
  | flush => flushCallback context

end Crypto

/-! ## The disk -/

namespace Request

/-- The offset of the first sector. -/
def start (request : Request) : ℕ := request.blockAddress.toNat * 4096

/-- The length of the sectors. -/
def len (request : Request) : ℕ := request.blockCount.toNat * 4096

/-- What the driver promises: there is room for the sectors behind the pointer. -/
def Sized (request : Request) : Prop :=
  ∀ buffer, request.buffer = some buffer → request.len ≤ buffer.length

/-- The sectors behind the pointer. -/
def input (request : Request) : Bytes := (request.buffer.getD []).take request.len

/-- The transfer is one of sectors of the disk. -/
def Accepted (capacity : ℕ) (request : Request) : Prop :=
  request.start < 2 ^ 64 ∧
    (request.len ≠ 0 → request.buffer ≠ none ∧ request.start + request.len ≤ capacity)

/-- The status of a transfer that failed. -/
def refusal (asc : UInt8) (context : Context) (request : Request) : StorageUnitStatus :=
  if context = .missing then setError senseMediumError asc none
  else if 2 ^ 64 ≤ request.start then
    setError senseIllegalRequest ascLbaOutOfRange (some request.blockAddress)
  else setError senseMediumError asc (some request.blockAddress)

end Request

namespace Callback

def Sized : Callback → Prop
  | read request | write request => request.Sized
  | flush => True

def Accepted (capacity : ℕ) : Callback → Prop
  | read request | write request => request.Accepted capacity
  | flush => True

/-- The volume is needed. -/
def Locks : Callback → Prop
  | read request | write request => request.len ≠ 0
  | flush => True

def Writes : Callback → Prop
  | write request => request.len ≠ 0
  | _ => False

def refusal (context : Context) : Callback → StorageUnitStatus
  | read request => request.refusal ascUnrecoveredReadError context
  | write request => request.refusal ascWriteError context
  | flush => setError senseMediumError ascWriteError none

/-- What is read. -/
def answer (disk : Bytes) : Callback → Option Bytes
  | read request => if request.len = 0 then none else some (slice disk request.start request.len)
  | _ => none

/-- What is on the disk when the callback has got through. -/
def after (disk : Bytes) : Callback → Bytes
  | write request => overwrite disk request.start request.input
  | _ => disk

/-- The callback can be carried out. -/
structure Permitted (capacity : ℕ) (context : Context) (c : Callback) : Prop where
  found : context ≠ .missing
  accepted : c.Accepted capacity
  locked : c.Locks → ∃ readOnly, context = .here readOnly ∧ (c.Writes → readOnly = false)

theorem after_of_not_writes {c : Callback} (h : ¬c.Writes) (disk : Bytes) :
    c.after disk = disk := by
  cases c with
  | write request =>
    have hinput : request.input = [] := by
      rw [Request.input, not_not.mp h]
      rfl
    rw [after, hinput, overwrite_nil]
  | read request => rfl
  | flush => rfl

end Callback

/-- **What a disk may answer**, and what is on it then.  What is permitted is done, except that a
write may fail; everything else is refused.  What is refused changes nothing. -/
inductive Completes (capacity : ℕ) (context : Context) (c : Callback) (disk : Bytes) :
    Completion → Bytes → Prop where
  | good : c.Permitted capacity context →
      Completes capacity context c disk ⟨setGood, c.answer disk⟩ (c.after disk)
  | refused : (c.Permitted capacity context → c.Writes) →
      Completes capacity context c disk ⟨c.refusal context, none⟩ disk

/-- What is on the disk when the power failed in a callback: what was there, or what the callback
was to leave there. -/
inductive CutShort (capacity : ℕ) (context : Context) (c : Callback) (disk : Bytes) :
    Bytes → Prop where
  | lost : CutShort capacity context c disk disk
  | kept : c.Permitted capacity context → CutShort capacity context c disk (c.after disk)

section Crypto

variable [Crypto] {master : Bytes} {b : Bootstrap} {m : BlockMap}
  {s s' s'' : Session} {offset : UInt64}

/-! ## Reading while the power may fail -/

/-- Calls that changed nothing but the position in the file. -/
structure Unharmed (s s' : Session) : Prop where
  volume : s'.volume = s.volume
  disk : s'.file.disk = s.file.disk
  present : s'.file.present = s.file.present
  faults : s'.file.faults ⊆ s.file.faults

omit [Crypto] in
theorem Unharmed.refl (s : Session) : Unharmed s s := ⟨rfl, rfl, rfl, List.Subset.refl _⟩

omit [Crypto] in
theorem Unharmed.trans (h : Unharmed s s') (h' : Unharmed s' s'') : Unharmed s s'' :=
  ⟨h'.volume.trans h.volume, h'.disk.trans h.disk, h'.present.trans h.present,
    List.Subset.trans h'.faults h.faults⟩

theorem Unharmed.stores (h : Unharmed s s') (hs : Stores master b s.volume m s.file) :
    Stores master b s'.volume m s'.file := by
  obtain ⟨hb, es, hsettled, hm⟩ := hs
  rw [h.volume]
  exact ⟨hb, es, hsettled.same h.disk h.present, hm⟩

omit [Crypto] in
theorem Unharmed.powerOnly (h : Unharmed s s') (hpower : PowerOnly s.file.faults) :
    PowerOnly s'.file.faults :=
  fun f hf => hpower f (h.faults hf)

/-- A block of the volume is read, unless the power fails. -/
theorem wp_readBlock {k : UInt64} {Q : Post Session VolumeError (Option Bytes)}
    (hs : Stores master b s.volume m s.file) (hpower : PowerOnly s.file.faults)
    (hk : k < b.blockCount) (hok : ∀ s', Unharmed s s' → Q.ok (m k) s')
    (hcrash : ∀ s', Unharmed s s' → Q.crash s') :
    wp (readBlock k) Q s := by
  have hanswer := readBlock_answer hs hpower k
  rw [if_pos hk] at hanswer
  have hunharmed : Unharmed s (readBlock k s).2 := by
    obtain ⟨-, es, hsettled, -⟩ := hs
    have heffect := readBlock_effect k hpower.not_mayDamage hsettled.view.log
    exact ⟨heffect.volume, heffect.file.disk, heffect.file.present, heffect.file.faults⟩
  refine wp_mono (wp_self _ s) (fun found t hrun => ?_) (fun e t hrun => ?_) fun t hrun => ?_
  all_goals
    rw [hrun] at hanswer hunharmed
    dsimp only at hanswer hunharmed
  · rcases hanswer with h | ⟨h, -⟩
    · rw [Outcome.ok.inj h]
      exact hok t hunharmed
    · exact absurd h (by simp)
  · rcases hanswer with h | ⟨h, -⟩ <;> exact absurd h (by simp)
  · exact hcrash t hunharmed

/-- **The reading loop** fills the buffer with the bytes of the disk, unless the power fails. -/
theorem wp_readLoop {v : Volume} {fuel : ℕ} {output : Bytes} {done : ℕ}
    (hs : Stores master v.bootstrap s.volume m s.file) (hpower : PowerOnly s.file.faults)
    (hfuel : output.length - done ≤ fuel)
    (hrange : offset.toNat + output.length ≤ v.bootstrap.logicalCapacity.toNat)
    (hzero : ∀ j, done ≤ j → j < output.length → output[j]? = some 0) :
    wp (readLoop (info v) offset fuel output done)
      ⟨fun filled s' => Unharmed s s' ∧ filled.length = output.length ∧ ∀ j < output.length,
        filled[j]? = if j < done then output[j]? else
          some (byteAt v.bootstrap.blockSize.toNat (byNumber m) (offset.toNat + j)),
        fun _ _ => False, fun s' => Unharmed s s'⟩ s := by
  induction fuel generalizing s output done with
  | zero =>
    rw [readLoop, wp_pure]
    refine ⟨.refl s, rfl, fun j hj => ?_⟩
    rw [if_pos (by omega)]
  | succ fuel ih =>
    by_cases hlt : done < output.length
    swap
    · rw [readLoop, if_neg hlt, wp_pure]
      refine ⟨.refl s, rfl, fun j hj => ?_⟩
      rw [if_pos (by omega)]
    have hin : offset.toNat + done < v.bootstrap.logicalCapacity.toNat := by omega
    obtain ⟨hindex, hoffset, -, -⟩ := toNat_words hin
    have hsize : (info v).blockSize.toNat = v.bootstrap.blockSize.toNat := rfl
    rw [readLoop, if_pos hlt]
    dsimp only
    rw [hindex, hoffset, hsize, wp_bind]
    refine wp_readBlock hs hpower (block_lt_blockCount hin) (fun s₁ hunharmed => ?_) fun _ h => h
    have hmod := Nat.mod_lt (offset.toNat + done) v.bootstrap.blockSize_pos
    have hword := div_lt_word hin
    generalize htake : min (output.length - done)
      (v.bootstrap.blockSize.toNat - (offset.toNat + done) % v.bootstrap.blockSize.toNat) = take
    obtain ⟨hlen, hcopied⟩ := copyBlock_spec (m (UInt64.ofNat ((offset.toNat + done) /
      v.bootstrap.blockSize.toNat))) ((offset.toNat + done) % v.bootstrap.blockSize.toNat)
      (show done + take ≤ output.length by omega) hzero
    dsimp only
    generalize copyBlock output done _ _ take = output' at hlen hcopied ⊢
    refine wp_mono (ih (hunharmed.stores hs) (hunharmed.powerOnly hpower)
      (by omega : output'.length - (done + take) ≤ fuel) (by omega) fun j hj hj' => ?_) ?_
      (fun _ _ h => h) fun _ h => hunharmed.trans h
    · rw [hcopied j (by omega), if_neg (by omega)]
      exact hzero j (by omega) (by omega)
    rintro filled s₂ ⟨hunharmed', hfilled, hbytes⟩
    refine ⟨hunharmed.trans hunharmed', by omega, fun j hj => ?_⟩
    rw [hbytes j (by omega), hcopied j hj]
    by_cases hbefore : j < done
    · rw [if_pos (by omega), if_neg (by omega), if_pos hbefore]
    rw [if_neg hbefore]
    split
    · rw [if_pos (by omega)]
      have hin_block : (offset.toNat + done) % v.bootstrap.blockSize.toNat + (j - done) <
          v.bootstrap.blockSize.toNat := by omega
      rw [show offset.toNat + j = offset.toNat + done + (j - done) by omega,
        byteAt_in_block hin_block, byNumber_of_lt hword]
    · rfl

/-- **`read_bytes`** answers what is on the disk, unless the power fails. -/
theorem wp_readBytes {output : Bytes} (hs : Stores master b s.volume m s.file)
    (hpower : PowerOnly s.file.faults) :
    wp (readBytes offset output)
      ⟨fun filled s' => Unharmed s s' ∧ offset.toNat + output.length ≤ b.logicalCapacity.toNat ∧
        filled = slice (flat b m) offset.toNat output.length,
        fun _ s' => Unharmed s s' ∧ ¬offset.toNat + output.length ≤ b.logicalCapacity.toNat,
        fun s' => Unharmed s s'⟩ s := by
  obtain rfl : s.volume.bootstrap = b := hs.1
  unfold readBytes
  rw [wp_bind, wp_get]
  dsimp only
  rw [wp_bind]
  by_cases hrange : offset.toNat + output.length ≤ s.volume.bootstrap.logicalCapacity.toNat
  swap
  · rw [checkRange_error hrange, wp_ofExcept_error]
    exact ⟨.refl s, hrange⟩
  rw [checkRange_eq_ok.mpr hrange, wp_ofExcept_ok]
  have hbuffer : (List.replicate output.length (0 : UInt8)).length = output.length :=
    List.length_replicate
  refine wp_mono (wp_readLoop hs hpower (by omega) (by rw [hbuffer]; exact hrange) fun j _ hj =>
    ?_) ?_ (fun _ _ h => h.elim) fun _ h => h
  · rw [List.getElem?_replicate, if_pos (by omega)]
  rintro filled s' ⟨hunharmed, hlen, hbytes⟩
  rw [hbuffer] at hlen hbytes
  refine ⟨hunharmed, hrange, List.ext_getElem? fun j => ?_⟩
  rw [getElem?_slice]
  by_cases hj : j < output.length
  · rw [hbytes j hj, if_neg (Nat.not_lt_zero j), if_pos hj, flat, getElem?_contents (by omega)]
  · rw [if_neg hj, List.getElem?_eq_none (by omega)]

/-! ## Writing while the power may fail -/

/-- **The writing loop** stages updates for all of the input, unless the power fails. -/
theorem wp_writeLoop {v : Volume} {input : Bytes} {fuel done : ℕ} {updates : List (UInt64 × Bytes)}
    (hs : Stores master v.bootstrap s.volume m s.file) (hpower : PowerOnly s.file.faults)
    (hfuel : input.length - done ≤ fuel)
    (hrange : offset.toNat + input.length ≤ v.bootstrap.logicalCapacity.toNat)
    (h : Staged v.bootstrap m offset input done updates) :
    wp (writeLoop (info v) offset input fuel done updates)
      ⟨fun updates' s' => Unharmed s s' ∧ Staged v.bootstrap m offset input input.length updates',
        fun _ _ => False, fun s' => Unharmed s s'⟩ s := by
  induction fuel generalizing s done updates with
  | zero =>
    have hend : done = input.length := le_antisymm h.le (by omega)
    rw [writeLoop, wp_pure]
    exact ⟨.refl s, hend ▸ h⟩
  | succ fuel ih =>
    by_cases hlt : done < input.length
    swap
    · have hend : done = input.length := le_antisymm h.le (not_lt.mp hlt)
      rw [writeLoop, if_neg hlt, wp_pure]
      exact ⟨.refl s, hend ▸ h⟩
    have hin : offset.toNat + done < v.bootstrap.logicalCapacity.toNat := by omega
    obtain ⟨hindex, -, hoffset, hlen⟩ := toNat_words hin
    obtain ⟨htake, hnext⟩ := h.next hlt hrange rfl rfl rfl rfl
    rw [writeLoop, if_pos hlt]
    dsimp only
    rw [hoffset, hlen, hindex, wp_bind]
    refine wp_readBlock hs hpower (block_lt_blockCount hin) (fun s₁ hunharmed => ?_) fun _ h => h
    refine wp_mono (ih (hunharmed.stores hs) (hunharmed.powerOnly hpower) (by omega) hnext) ?_
      (fun _ _ h => h) fun _ h => hunharmed.trans h
    exact fun _ _ h => ⟨hunharmed.trans h.1, h.2⟩

/-- The disks a power failure may leave. -/
def CutLeaves (master : Bytes) (b : Bootstrap) (leaves : Bytes → Prop) (s : Session) : Prop :=
  ∀ file, PowerCut master s.file file → ∃ v m, Stores master b v m file ∧ leaves (flat b m)

theorem cutLeaves_of_stores {leaves : Bytes → Prop} (hs : Stores master b s.volume m s.file)
    (hdisk : leaves (flat b m)) : CutLeaves master b leaves s := by
  obtain ⟨hb, es, hsettled, hm⟩ := hs
  exact fun file hcut => ⟨s.volume, m, ⟨hb, es, hsettled.powerCut hcut, hm⟩, hdisk⟩

/-- Writing a batch leaves the script of the power alone. -/
theorem powerOnly_writeBlocks [LawfulCrypto] {blocks : List (UInt64 × Bytes)}
    (hpower : PowerOnly s.file.faults) : PowerOnly (writeBlocks blocks s).2.file.faults := by
  suffices hfaults : (writeBlocks blocks s).2.file.faults ⊆ s.file.faults from
    fun f hf => hpower f (hfaults hf)
  have heffect := writeBlocks_effect s blocks
  generalize (writeBlocks blocks s).1 = o at heffect
  generalize (writeBlocks blocks s).2 = s' at heffect ⊢
  cases heffect with
  | empty _ => exact List.Subset.refl _
  | rejected _ => exact List.Subset.refl _
  | staging _ _ _ hafter _ _ _ => exact hafter.faults
  | uncommitted _ _ hafter _ => exact hafter.faults
  | torn _ _ _ _ hafter _ _ => exact hafter.faults
  | unsynced _ _ _ _ hafter _ => exact hafter.faults
  | committed _ _ _ _ hafter => exact hafter.faults

/-- **`write_bytes`** changes the disk, or leaves it as it was. -/
theorem wp_writeBytes [LawfulCrypto] {input : Bytes} {leaves : Bytes → Prop}
    (hs : Stores master b s.volume m s.file) (hpower : PowerOnly s.file.faults) (hne : input ≠ [])
    (hlost : leaves (flat b m))
    (hkept : offset.toNat + input.length ≤ b.logicalCapacity.toNat →
      leaves (overwrite (flat b m) offset.toNat input)) :
    wp (writeBytes offset input)
      ⟨fun _ s' => offset.toNat + input.length ≤ b.logicalCapacity.toNat ∧
        HoldsDisk master b s' (overwrite (flat b m) offset.toNat input) ∧ PowerOnly s'.file.faults,
        fun _ s' => HoldsDisk master b s' (flat b m),
        CutLeaves master b leaves⟩ s := by
  obtain rfl : s.volume.bootstrap = b := hs.1
  unfold writeBytes
  rw [wp_bind, wp_get]
  dsimp only
  rw [wp_bind]
  by_cases hrange : offset.toNat + input.length ≤ s.volume.bootstrap.logicalCapacity.toNat
  swap
  · rw [checkRange_error hrange, wp_ofExcept_error]
    exact ⟨m, hs, rfl⟩
  have hempty : ¬input.isEmpty = true := by
    rw [List.isEmpty_iff]
    exact hne
  rw [checkRange_eq_ok.mpr hrange, wp_ofExcept_ok, if_neg hempty]
  dsimp only
  rw [wp_bind]
  refine wp_mono (wp_writeLoop hs hpower (Nat.sub_le _ _) hrange (Staged.nil input)) ?_
    (fun _ _ h => h.elim) fun s₁ hunharmed => cutLeaves_of_stores (hunharmed.stores hs) hlost
  rintro updates s₁ ⟨hunharmed, hstaged⟩
  have hflat : flat s.volume.bootstrap (assign m updates) =
      overwrite (flat s.volume.bootstrap m) offset.toNat input :=
    contents_eq_overwrite hrange hstaged.bytes
  have hkeeps : Keeps master s.volume.bootstrap m (assign m updates) (writeBlocks updates s₁).1
      (writeBlocks updates s₁).2 := writeBlocks_keeps (hunharmed.stores hs)
      (hunharmed.powerOnly hpower)
  have hpower' : PowerOnly (writeBlocks updates s₁).2.file.faults :=
    powerOnly_writeBlocks (hunharmed.powerOnly hpower)
  dsimp only
  rw [wp_bind]
  refine wp_mono (wp_self _ s₁) (fun gens t hrun => ?_) (fun e t hrun => ?_) fun t hrun => ?_
  all_goals rw [hrun] at hkeeps hpower'
  · dsimp only
    rw [wp_pure]
    exact ⟨hrange, ⟨_, hkeeps.ok gens rfl, hflat.symm⟩, hpower'⟩
  · exact ⟨m, hkeeps.error e rfl, rfl⟩
  · intro file hcut
    obtain ⟨v, h | h⟩ := hkeeps.crash rfl file hcut
    · exact ⟨v, m, h, hlost⟩
    · exact ⟨v, _, h, hflat ▸ hkept hrange⟩

/-- **`sync`** changes nothing. -/
theorem wp_sync {leaves : Bytes → Prop} (hs : Stores master b s.volume m s.file)
    (hpower : PowerOnly s.file.faults) (hlost : leaves (flat b m)) :
    wp Volume.sync
      ⟨fun _ s' => Stores master b s'.volume m s'.file ∧ PowerOnly s'.file.faults, fun _ _ => False,
        CutLeaves master b leaves⟩ s := by
  have hkeeps := sync_keeps hs
  have heffect := sync_effect s
  have hpower' : PowerOnly (Volume.sync s).2.file.faults := by
    intro f hf
    rcases heffect.file with h | h <;> exact hpower f (h.faults hf)
  refine wp_mono (wp_self _ s) (fun _ t hrun => ?_) (fun e t hrun => ?_) fun t hrun => ?_
  all_goals rw [hrun] at hkeeps heffect hpower'
  · exact ⟨hkeeps.ok _ rfl, hpower'⟩
  · exact hpower.not_mayFail (heffect.error e rfl)
  · intro file hcut
    obtain ⟨v, h | h⟩ := hkeeps.crash rfl file hcut <;> exact ⟨v, m, h, hlost⟩

/-! ## A callback on a disk -/

/-- The volume is reached, or is not needed. -/
structure Request.Ready (request : Request) (context : Context) : Prop where
  found : context ≠ .missing
  start : request.start < 2 ^ 64
  buffer : request.len ≠ 0 → request.buffer ≠ none
  locked : request.len ≠ 0 → ∃ readOnly, context = .here readOnly

omit [Crypto] in
theorem Request.length_input {request : Request} (hsized : request.Sized) {buffer : Bytes}
    (hbuffer : request.buffer = some buffer) : request.input.length = request.len := by
  rw [Request.input, hbuffer, Option.getD_some, List.length_take]
  exact min_eq_left (hsized buffer hbuffer)

omit [Crypto] in
theorem wp_lockContext_here (readOnly : Bool) (Q : Post Session TransferError Bool) (s : Session) :
    wp (lockContext (.here readOnly)) Q s ↔ Q.ok readOnly s :=
  wp_pure readOnly Q s

omit [Crypto] in
theorem wp_lockContext_poisoned (Q : Post Session TransferError Bool) (s : Session) :
    wp (lockContext .poisoned) Q s ↔ Q.error (.message "mount context lock poisoned") s :=
  wp_fail _ Q s

omit [Crypto] in
/-- **What the transfers share.**  The volume is not touched where the request is refused. -/
theorem wp_transfer {asc : UInt8} {context : Context} {request : Request}
    {run : Bool → UInt64 → Bytes → Prog Session TransferError (Option Bytes)}
    {Q : Post Session Empty Completion}
    (hrefused : ¬request.Ready context → Q.ok ⟨request.refusal asc context, none⟩ s)
    (hempty : request.Ready context → request.len = 0 → Q.ok ⟨setGood, none⟩ s)
    (hrun : ∀ readOnly offset buffer, context = .here readOnly → offset.toNat = request.start →
      request.len ≠ 0 → request.buffer = some buffer →
      wp (run readOnly offset request.input)
        ⟨fun data s' => Q.ok ⟨setGood, data⟩ s',
          fun _ s' => Q.ok ⟨request.refusal asc context, none⟩ s', Q.crash⟩ s) :
    wp (transfer asc context request run) Q s := by
  have hsector : sectorSize.toNat = 4096 := rfl
  have hcount := request.blockCount.toNat_lt
  unfold transfer
  dsimp only
  by_cases hmissing : context = .missing
  · rw [if_pos hmissing, wp_pure]
    rw [Request.refusal, if_pos hmissing] at hrefused
    exact hrefused fun h => h.found hmissing
  rw [if_neg hmissing]
  -- the count of sectors has 32 bits, so its product never overflows
  obtain ⟨length, hlength⟩ :
    ∃ length, checkedMul request.blockCount.toUInt64 sectorSize = some length := by
    rw [← Option.ne_none_iff_exists']
    intro hnone
    rw [checkedMul_eq_none, UInt32.toNat_toUInt64, hsector] at hnone
    omega
  have hlen : length.toNat = request.len := by
    rw [checkedMul_eq_some.mp hlength, UInt32.toNat_toUInt64, hsector, Request.len]
  rw [hlength]
  dsimp only
  cases hoffset : checkedMul request.blockAddress sectorSize with
  | none =>
    have hover : 2 ^ 64 ≤ request.start := checkedMul_eq_none.mp hoffset
    dsimp only
    rw [wp_pure]
    rw [Request.refusal, if_neg hmissing, if_pos hover] at hrefused
    exact hrefused fun h => absurd h.start (not_lt.mpr hover)
  | some offset =>
    have hstart : offset.toNat = request.start := checkedMul_eq_some.mp hoffset
    have hlt : request.start < 2 ^ 64 := hstart ▸ offset.toNat_lt
    have hfailed : request.refusal asc context =
        setError senseMediumError asc (some request.blockAddress) := by
      rw [Request.refusal, if_neg hmissing, if_neg (not_le.mpr hlt)]
    rw [hfailed] at hrefused hrun
    dsimp only
    by_cases hzero : length = 0
    · have hzero' : request.len = 0 := by
        rw [← hlen, hzero]
        rfl
      rw [if_pos hzero, wp_pure]
      exact hempty ⟨hmissing, hlt, fun h => absurd hzero' h, fun h => absurd hzero' h⟩ hzero'
    have hne : request.len ≠ 0 := fun h => hzero (UInt64.toNat_inj.mp (hlen.trans h))
    rw [if_neg hzero]
    cases hbuffer : request.buffer with
    | none =>
      rw [wp_pure]
      exact hrefused fun h => h.buffer hne hbuffer
    | some buffer =>
      have hinput : buffer.take length.toNat = request.input := by
        rw [Request.input, hbuffer, hlen]
        rfl
      dsimp only
      rw [hinput, wp_bind, wp_attempt, wp_bind]
      cases hcontext : context with
      | missing => exact absurd hcontext hmissing
      | poisoned =>
        rw [wp_lockContext_poisoned]
        dsimp only
        rw [wp_pure]
        refine hrefused fun h => ?_
        obtain ⟨readOnly, hhere⟩ := h.locked hne
        exact absurd (hcontext.symm.trans hhere) (by simp)
      | here readOnly =>
        rw [wp_lockContext_here]
        refine wp_mono (hrun readOnly offset buffer hcontext hstart hne hbuffer)
          (fun data s' h => ?_) (fun e s' h => ?_) fun _ h => h
        · dsimp only
          rw [wp_pure]
          exact h
        · dsimp only
          rw [wp_pure]
          exact h

omit [Crypto] in
/-- A request that is permitted reaches the volume. -/
theorem Request.ready {request : Request} {capacity : ℕ} {context : Context}
    (hfound : context ≠ .missing) (haccepted : request.Accepted capacity)
    (hlocked : request.len ≠ 0 → ∃ readOnly, context = .here readOnly) : request.Ready context :=
  ⟨hfound, haccepted.1, fun hlen => (haccepted.2 hlen).1, hlocked⟩

/-- A callback is one step of the disk. -/
def stepsDisk (master : Bytes) (b : Bootstrap) (disk : Bytes) (context : Context) (c : Callback) :
    Post Session Empty Completion where
  ok r s' := ∃ disk', Completes b.logicalCapacity.toNat context c disk r disk' ∧
    HoldsDisk master b s' disk'
  error _ _ := False
  crash := CutLeaves master b (CutShort b.logicalCapacity.toNat context c disk)

/-- **`read_callback`** answers the sectors. -/
theorem wp_readCallback {request : Request} {context : Context} {disk : Bytes}
    (hs : HoldsDisk master b s disk) (hpower : PowerOnly s.file.faults) (hsized : request.Sized) :
    wp (readCallback context request) (stepsDisk master b disk context (.read request)) s := by
  have hready : Callback.Permitted b.logicalCapacity.toNat context (.read request) →
      request.Ready context := fun h =>
    Request.ready h.found h.accepted fun hlen => (h.locked hlen).imp fun _ h => h.1
  unfold readCallback
  refine wp_transfer (fun hnot => ?_) (fun h hlen => ?_)
    fun readOnly offset buffer hhere hoffset hlen hbuffer => ?_
  · exact ⟨_, .refused fun h => absurd (hready h) hnot, hs⟩
  · refine ⟨_, ?_, hs⟩
    have hanswer : Callback.answer disk (.read request) = none := if_pos hlen
    rw [← hanswer]
    exact .good ⟨h.found, ⟨h.start, fun hne => absurd hlen hne⟩, fun hne => absurd hlen hne⟩
  obtain ⟨m, hstores, rfl⟩ := hs
  have hread : ∀ s₁, Stores master b s₁.volume m s₁.file → PowerOnly s₁.file.faults →
      wp (some <$> Prog.mapError TransferError.volume (readBytes offset request.input))
        ⟨fun data => (stepsDisk master b (flat b m) context (.read request)).ok ⟨setGood, data⟩,
          fun _ => (stepsDisk master b (flat b m) context (.read request)).ok
            ⟨request.refusal ascUnrecoveredReadError context, none⟩,
          (stepsDisk master b (flat b m) context (.read request)).crash⟩ s₁ := by
    intro s₁ hstores₁ hpower₁
    rw [wp_map, wp_mapError]
    refine wp_mono (wp_readBytes hstores₁ hpower₁) ?_ ?_ fun s' h => ?_
    · rintro output s' ⟨hunharmed, hrange, rfl⟩
      rw [hoffset, Request.length_input hsized hbuffer] at hrange ⊢
      refine ⟨_, ?_, m, hunharmed.stores hstores₁, rfl⟩
      have hanswer : Callback.answer (flat b m) (.read request) =
          some (slice (flat b m) request.start request.len) := if_neg hlen
      rw [← hanswer]
      refine .good ⟨by simp [hhere],
        ⟨by rw [← hoffset]; exact offset.toNat_lt, fun _ => ⟨?_, hrange⟩⟩,
        fun _ => ⟨readOnly, hhere, fun h => h.elim⟩⟩
      simp [hbuffer]
    · rintro e s' ⟨hunharmed, hrange⟩
      rw [hoffset, Request.length_input hsized hbuffer] at hrange
      exact ⟨_, .refused fun h => absurd (h.accepted.2 hlen).2 hrange, m,
        hunharmed.stores hstores₁, rfl⟩
    · exact cutLeaves_of_stores (h.stores hstores₁) .lost
  dsimp only
  by_cases hflush : request.flushFlag ≠ 0
  · rw [if_pos hflush, wp_bind, wp_mapError]
    exact wp_mono (wp_sync hstores hpower .lost) (fun _ s₁ h => hread s₁ h.1 h.2)
      (fun _ _ h => h.elim) fun _ h => h
  · rw [if_neg hflush]
    exact hread s hstores hpower

/-- **`write_callback`** changes the sectors of a volume that is not mounted read-only. -/
theorem wp_writeCallback [LawfulCrypto] {request : Request} {context : Context} {disk : Bytes}
    (hs : HoldsDisk master b s disk) (hpower : PowerOnly s.file.faults) (hsized : request.Sized) :
    wp (writeCallback context request) (stepsDisk master b disk context (.write request)) s := by
  have hready : Callback.Permitted b.logicalCapacity.toNat context (.write request) →
      request.Ready context := fun h =>
    Request.ready h.found h.accepted fun hlen => (h.locked hlen).imp fun _ h => h.1
  unfold writeCallback
  refine wp_transfer (fun hnot => ?_) (fun h hlen => ?_)
    fun readOnly offset buffer hhere hoffset hlen hbuffer => ?_
  · exact ⟨_, .refused fun h => absurd (hready h) hnot, hs⟩
  · refine ⟨_,
      .good ⟨h.found, ⟨h.start, fun hne => absurd hlen hne⟩, fun hne => absurd hlen hne⟩, ?_⟩
    rw [Callback.after_of_not_writes (c := .write request) (not_not.mpr hlen)]
    exact hs
  have hinput := Request.length_input hsized hbuffer
  have hne : request.input ≠ [] := by
    intro h
    rw [h] at hinput
    exact hlen hinput.symm
  dsimp only
  cases readOnly with
  | true =>
    rw [if_pos rfl, wp_bind, wp_fail]
    refine ⟨_, .refused fun h => ?_, hs⟩
    obtain ⟨readOnly, hhere', hwrites⟩ := h.locked hlen
    rw [hhere, hwrites hlen] at hhere'
    exact absurd hhere' (by simp)
  | false =>
    obtain ⟨m, hstores, rfl⟩ := hs
    have hpermitted : request.start + request.len ≤ b.logicalCapacity.toNat →
        Callback.Permitted b.logicalCapacity.toNat context (.write request) := fun hrange =>
      ⟨by simp [hhere],
        ⟨by rw [← hoffset]; exact offset.toNat_lt, fun _ => ⟨by simp [hbuffer], hrange⟩⟩,
        fun _ => ⟨false, hhere, fun _ => rfl⟩⟩
    rw [if_neg (by simp), wp_bind, wp_mapError]
    have hkept : offset.toNat + request.input.length ≤ b.logicalCapacity.toNat →
        CutShort b.logicalCapacity.toNat context (.write request) (flat b m)
          (overwrite (flat b m) offset.toNat request.input) := by
      intro hrange
      rw [hinput, hoffset] at hrange
      rw [hoffset]
      exact .kept (hpermitted hrange)
    refine wp_mono (wp_writeBytes hstores hpower hne .lost hkept) ?_ (fun e s' h => ?_) fun _ h => h
    · rintro _ s₁ ⟨hrange, ⟨m', hstores₁, hflat⟩, hpower₁⟩
      rw [hoffset] at hrange hflat
      rw [hinput] at hrange
      dsimp only
      by_cases hflush : request.flushFlag ≠ 0
      · rw [if_pos hflush, wp_bind, wp_mapError]
        refine wp_mono (wp_sync hstores₁ hpower₁ (hflat ▸ .kept (hpermitted hrange)))
          (fun _ s₂ h => ?_) (fun _ _ h => h.elim) fun _ h => h
        dsimp only
        rw [wp_pure]
        exact ⟨_, .good (hpermitted hrange), m', h.1, hflat⟩
      · rw [if_neg hflush, wp_pure]
        exact ⟨_, .good (hpermitted hrange), m', hstores₁, hflat⟩
    · exact ⟨_, .refused fun _ => hlen, h⟩

/-- **`flush_callback`** changes nothing. -/
theorem wp_flushCallback {context : Context} {disk : Bytes} (hs : HoldsDisk master b s disk)
    (hpower : PowerOnly s.file.faults) :
    wp (flushCallback context) (stepsDisk master b disk context .flush) s := by
  unfold flushCallback
  dsimp only
  by_cases hmissing : context = .missing
  · rw [if_pos hmissing, wp_pure]
    exact ⟨_, .refused fun h => absurd hmissing h.found, hs⟩
  rw [if_neg hmissing, wp_bind, wp_attempt, wp_bind]
  cases context with
  | missing => exact absurd rfl hmissing
  | poisoned =>
    rw [wp_lockContext_poisoned]
    dsimp only
    rw [wp_pure]
    refine ⟨_, .refused fun h => ?_, hs⟩
    obtain ⟨_, hhere, -⟩ := h.locked trivial
    exact absurd hhere (by simp)
  | here readOnly =>
    obtain ⟨m, hstores, rfl⟩ := hs
    rw [wp_lockContext_here]
    dsimp only
    rw [wp_mapError]
    refine wp_mono (wp_sync hstores hpower .lost) (fun _ s' h => ?_)
      (fun _ _ h => h.elim) fun _ h => h
    dsimp only
    rw [wp_pure]
    exact ⟨_, .good ⟨hmissing, trivial, fun _ => ⟨readOnly, rfl, fun h => h.elim⟩⟩, m, h.1, rfl⟩

/-- **A callback is one step of the disk.** -/
theorem wp_callback [LawfulCrypto] {c : Callback} {context : Context} {disk : Bytes}
    (hs : HoldsDisk master b s disk) (hpower : PowerOnly s.file.faults) (hsized : c.Sized) :
    wp (c.run context) (stepsDisk master b disk context c) s := by
  cases c with
  | read request => exact wp_readCallback hs hpower hsized
  | write request => exact wp_writeCallback hs hpower hsized
  | flush => exact wp_flushCallback hs hpower

end Crypto

/-! ## The device over its mounts -/

/-- The volume, and whether it is mounted read-only. -/
structure Machine where
  world : Volume.World
  readOnly : Bool

/-- A callback, and how it ended, or what the host does with the volume. -/
inductive DeviceEvent where
  | callback (context : Context) (c : Callback) (o : Outcome Empty Completion)
  | host (e : Volume.Event)
  deriving DecidableEq

/-- What a callback may find: no context, a poisoned one, or the one of the mount. -/
def Context.Finds (context : Context) (readOnly : Bool) : Prop :=
  ∀ readOnly', context = .here readOnly' → readOnly' = readOnly

section Crypto

variable [Crypto] {master : Bytes} {b : Bootstrap}

/-- The host itself writes no blocks, and only the power fails. -/
def hostCalls (master : Bytes) : Environment :=
  { powerFailures master with
    permits s c :=
      (∀ blocks, c ≠ .writeBlocks blocks) ∧ s.volume.state.generation.toNat + 1 < 2 ^ 64 }

/-- One step of the device.  The mode is chosen with every mount. -/
inductive DeviceStep (master : Bytes) : Machine → DeviceEvent → Machine → Prop where
  | callback {s s' : Session} {readOnly : Bool} {context : Context} {c : Callback} {fs : List Fault}
      {r : Completion} : context.Finds readOnly → c.Sized → PowerOnly fs →
      c.run context (s.script fs) = (.ok r, s') →
      DeviceStep master ⟨.live s, readOnly⟩ (.callback context c (.ok r)) ⟨.live s', readOnly⟩
  /-- The power fails in a callback. -/
  | cut {s s' : Session} {readOnly : Bool} {context : Context} {c : Callback} {fs : List Fault}
      {file : Device Sealed} : context.Finds readOnly → c.Sized → PowerOnly fs →
      c.run context (s.script fs) = (.crash, s') → PowerCut master s'.file file →
      DeviceStep master ⟨.live s, readOnly⟩ (.callback context c .crash) ⟨.down file, readOnly⟩
  | host {w w' : Volume.World} {readOnly : Bool} {e : Volume.Event} : e ≠ .reopen (.ok ()) →
      Volume.Step (hostCalls master) master w e w' →
      DeviceStep master ⟨w, readOnly⟩ (.host e) ⟨w', readOnly⟩
  | mounted {w w' : Volume.World} {readOnly readOnly' : Bool} :
      Volume.Step (hostCalls master) master w (.reopen (.ok ())) w' →
      DeviceStep master ⟨w, readOnly⟩ (.host (.reopen (.ok ()))) ⟨w', readOnly'⟩

/-- What is on the disk, and whether it is mounted read-only. -/
structure BlockDisk where
  bytes : Bytes
  readOnly : Bool

/-- **One step of the disk.**  Callbacks do what `Completes` says; nothing the host does changes it,
the power failures between the callbacks among it, and mounting it again does not fail. -/
inductive DiskStep (capacity : ℕ) : BlockDisk → DeviceEvent → BlockDisk → Prop where
  | callback {bytes bytes' : Bytes} {readOnly : Bool} {context : Context} {c : Callback}
      {r : Completion} :
      context.Finds readOnly → Completes capacity context c bytes r bytes' →
      DiskStep capacity ⟨bytes, readOnly⟩ (.callback context c (.ok r)) ⟨bytes', readOnly⟩
  | cut {bytes bytes' : Bytes} {readOnly : Bool} {context : Context} {c : Callback} :
      context.Finds readOnly → CutShort capacity context c bytes bytes' →
      DiskStep capacity ⟨bytes, readOnly⟩ (.callback context c .crash) ⟨bytes', readOnly⟩
  | host {bytes : Bytes} {readOnly : Bool} {e : Volume.Event} : (∀ r, e ≠ .reopen r) →
      DiskStep capacity ⟨bytes, readOnly⟩ (.host e) ⟨bytes, readOnly⟩
  | notMounted {bytes : Bytes} {readOnly : Bool} :
      DiskStep capacity ⟨bytes, readOnly⟩ (.host (.reopen .crash)) ⟨bytes, readOnly⟩
  | mounted {bytes : Bytes} {readOnly readOnly' : Bool} :
      DiskStep capacity ⟨bytes, readOnly⟩ (.host (.reopen (.ok ()))) ⟨bytes, readOnly'⟩

/-- The machine holds the disk. -/
def Machine.Holds (master : Bytes) (b : Bootstrap) (machine : Machine) (disk : BlockDisk) : Prop :=
  (∃ m, machine.world.Holds master b m ∧ disk.bytes = flat b m) ∧ disk.readOnly = machine.readOnly

theorem holdsDisk_script {s : Session} {disk : Bytes} (fs : List Fault)
    (h : HoldsDisk master b s disk) :
    HoldsDisk master b (s.script fs) disk := by
  obtain ⟨m, ⟨hb, es, hsettled, hm⟩, hdisk⟩ := h
  exact ⟨m, ⟨hb, es, hsettled.same rfl rfl, hm⟩, hdisk⟩

/-- **What the host does keeps the map.** -/
theorem hostStep_holds [LawfulCrypto] {m : BlockMap} {w w' : Volume.World} {e : Volume.Event}
    (hw : w.Holds master b m) (hstep : Volume.Step (hostCalls master) master w e w') :
    w'.Holds master b m ∧ ∀ r, e = .reopen r → r = .ok () ∨ r = .crash := by
  obtain ⟨m', hserves, hholds⟩ := step_serves hw
    (hstep.mono (fun _ h => h) (fun _ _ h => h) (fun _ _ h => h.2) fun _ h => h)
  have hwrites : ∀ blocks o, e ≠ .call (.writeBlocks blocks) o := by
    rintro blocks o rfl
    cases hstep with
    | call hpermits _ _ _ => exact hpermits.1 blocks rfl
    | crashed hpermits _ _ _ => exact hpermits.1 blocks rfl
  clear hstep
  cases hserves with
  | written blocks gens => exact absurd rfl (hwrites blocks _)
  | notWritten blocks e => exact absurd rfl (hwrites blocks _)
  | kept c =>
    have hafter : c.after m = m := by
      cases c with
      | writeBlocks blocks => exact absurd rfl (hwrites blocks _)
      | _ => rfl
    rw [hafter] at hholds
    exact ⟨hholds, fun r h => absurd h (by simp)⟩
  | opened => exact ⟨hholds, fun r h => Or.inl (Event.reopen.inj h).symm⟩
  | openCrashed => exact ⟨hholds, fun r h => Or.inr (Event.reopen.inj h).symm⟩
  | _ => exact ⟨hholds, fun r h => absurd h (by simp)⟩

/-- **Each step of the device is a step of the disk.** -/
theorem deviceStep_disk [LawfulCrypto] {machine machine' : Machine} {e : DeviceEvent}
    {disk : BlockDisk} (h : machine.Holds master b disk)
    (hstep : DeviceStep master machine e machine') :
    ∃ disk', DiskStep b.logicalCapacity.toNat disk e disk' ∧ machine'.Holds master b disk' := by
  obtain ⟨bytes, readOnly⟩ := disk
  obtain ⟨⟨m, hworld, hbytes⟩, hmode⟩ := h
  dsimp only at hbytes hmode
  cases hstep with
  | @callback s s' _ context c fs r hfinds hsized hfs hrun =>
    have hdisk : HoldsDisk master b s bytes := ⟨m, hworld, hbytes⟩
    obtain ⟨bytes', hcompletes, m', hstores, hbytes'⟩ :=
      (wp_callback (holdsDisk_script fs hdisk) hfs hsized).ok hrun
    rw [hmode]
    exact ⟨⟨bytes', _⟩, .callback hfinds hcompletes, ⟨m', hstores, hbytes'⟩, rfl⟩
  | @cut s s' _ context c fs file hfinds hsized hfs hrun hcut =>
    have hdisk : HoldsDisk master b s bytes := ⟨m, hworld, hbytes⟩
    obtain ⟨v, m', hstores, hshort⟩ :=
      (wp_callback (holdsDisk_script fs hdisk) hfs hsized).crash hrun file hcut
    rw [hmode]
    exact ⟨⟨_, _⟩, .cut hfinds hshort, ⟨m', ⟨v, hstores⟩, rfl⟩, rfl⟩
  | @host w w' _ e hne hvolume =>
    obtain ⟨hholds, hreopen⟩ := hostStep_holds hworld hvolume
    refine ⟨⟨bytes, readOnly⟩, ?_, ⟨m, hholds, hbytes⟩, hmode⟩
    cases e with
    | reopen r =>
      rcases hreopen r rfl with rfl | rfl
      · exact absurd rfl hne
      · exact .notMounted
    | _ => exact .host (by simp)
  | @mounted w w' _ readOnly' hvolume =>
    obtain ⟨hholds, -⟩ := hostStep_holds hworld hvolume
    exact ⟨⟨bytes, readOnly'⟩, .mounted, ⟨m, hholds, hbytes⟩, rfl⟩

/-- A new volume holds a disk of zeros. -/
theorem createVolume_holds [LawfulCrypto] {options : VolumeOptions} {volumeId salt : FixedBytes 32}
    {d d' : Device Sealed} {v : Volume}
    (hcreate : createVolume master options volumeId salt d = (.ok v, d'))
    (readOnly : Bool) : Machine.Holds master v.bootstrap ⟨.live ⟨v, d'⟩, readOnly⟩
      ⟨List.replicate v.bootstrap.logicalCapacity.toNat 0, readOnly⟩ := by
  have hcreated := createVolume_ok hcreate
  refine ⟨⟨fun _ => none, ⟨rfl, [], ⟨hcreated.present, hcreated.onDisk, fun u hu => ?_⟩, rfl⟩, ?_⟩,
    rfl⟩
  · rw [hcreated.pending] at hu
    exact absurd hu List.not_mem_nil
  · have hnone : byNumber (fun _ => none) = fun _ => none := funext fun k => ite_self none
    rw [flat, hnone, contents_none]

/-- **The storage unit is a disk.**  From a new volume on, whatever transfers the driver asks for,
however often the volume is closed, mounted again and cut off by power failures in or between the
transfers, the callbacks answer what the disk answers, which is zero at first. -/
theorem device_serves_disk [LawfulCrypto] {options : VolumeOptions} {volumeId salt : FixedBytes 32}
    {d d' : Device Sealed} {v : Volume} {readOnly : Bool} {events : List DeviceEvent}
    {machine : Machine} (hcreate : createVolume master options volumeId salt d = (.ok v, d'))
    (hrun : Run (DeviceStep master) ⟨.live ⟨v, d'⟩, readOnly⟩ events machine) :
    ∃ disk, Run (DiskStep v.bootstrap.logicalCapacity.toNat)
      ⟨List.replicate v.bootstrap.logicalCapacity.toNat 0, readOnly⟩ events disk ∧
      machine.Holds master v.bootstrap disk :=
  hrun.simulation (createVolume_holds hcreate readOnly) fun _ _ _ _ h hstep =>
    deviceStep_disk h hstep

/-! ## Executing a run

Commands for runs that are given in full; the callbacks find the context of the mount. -/

inductive DeviceCommand where
  | callback (c : Callback) (fs : List Fault) (keep : Bool)
  | host (cmd : Volume.Command) (readOnly : Bool)

def DeviceCommand.exec (master : Bytes) (machine : Machine) :
    DeviceCommand → Option (DeviceEvent × Machine)
  | .callback c fs keep =>
    match machine.world with
    | .down _ => none
    | .live s =>
      match c.run (.here machine.readOnly) (s.script fs) with
      | (.ok r, s') =>
        some (.callback (.here machine.readOnly) c (.ok r), ⟨.live s', machine.readOnly⟩)
      | (.error e, _) => e.elim
      | (.crash, s') => some (.callback (.here machine.readOnly) c .crash,
          ⟨.down (cutFile keep s'.file), machine.readOnly⟩)
  | .host cmd readOnly =>
    (cmd.exec master machine.world).map fun r =>
      (.host r.1, ⟨r.2, if r.1 = .reopen (.ok ()) then readOnly else machine.readOnly⟩)

/-- What `exec_step` asks of a command: the power at most fails, buffers are large enough, and the
host makes no call on the volume. -/
def DeviceCommand.Fair : DeviceCommand → Prop
  | .callback c fs _ => PowerOnly fs ∧ c.Sized
  | .host cmd _ => PowerOnly cmd.faults ∧ ∀ c fs keep, cmd ≠ .call c fs keep

theorem DeviceCommand.exec_step {cmd : DeviceCommand} {machine machine' : Machine} {e : DeviceEvent}
    (hfair : cmd.Fair) (h : cmd.exec master machine = some (e, machine')) :
    DeviceStep master machine e machine' := by
  obtain ⟨w, readOnly⟩ := machine
  cases cmd with
  | callback c fs keep =>
    cases w with
    | down file => exact absurd h (by simp [exec])
    | live s =>
      have hfinds : (Context.here readOnly).Finds readOnly := fun _ h => (Context.here.inj h).symm
      unfold exec at h
      rcases hrun : c.run (.here readOnly) (s.script fs) with ⟨r | e' | _, s'⟩
      · simp only [hrun, Option.some.injEq, Prod.mk.injEq] at h
        obtain ⟨rfl, rfl⟩ := h
        exact .callback hfinds hfair.2 hfair.1 hrun
      · exact e'.elim
      · simp only [hrun, Option.some.injEq, Prod.mk.injEq] at h
        obtain ⟨rfl, rfl⟩ := h
        exact .cut hfinds hfair.2 hfair.1 hrun (powerCut_cutFile master keep _)
  | host cmd readOnly' =>
    obtain ⟨⟨e', w'⟩, hexec, hresult⟩ := Option.map_eq_some_iff.mp h
    obtain ⟨rfl, rfl⟩ := Prod.mk.inj hresult
    have hstep : Volume.Step (hostCalls master) master w e' w' :=
      Command.exec_step hfair.1 (powerCut_cutFile master)
        (fun s c fs keep _ hcall => absurd hcall (hfair.2 c fs keep))
        (fun _ _ _ _ _ => trivial) hexec
    dsimp only
    by_cases hreopen : e' = .reopen (.ok ())
    · rw [if_pos hreopen]
      subst hreopen
      exact .mounted hstep
    · rw [if_neg hreopen]
      exact .host hreopen hstep

/-! ## What was acknowledged -/

omit [Crypto] in
theorem Request.refusal_ne_setGood (request : Request) (asc : UInt8) (context : Context) :
    request.refusal asc context ≠ setGood := by
  unfold Request.refusal
  split
  · exact setError_ne_setGood _ _ _
  · split <;> exact setError_ne_setGood _ _ _

omit [Crypto] in
theorem Callback.refusal_ne_setGood (c : Callback) (context : Context) :
    c.refusal context ≠ setGood := by
  cases c with
  | read request => exact request.refusal_ne_setGood _ _
  | write request => exact request.refusal_ne_setGood _ _
  | flush => exact setError_ne_setGood senseMediumError ascWriteError none

/-- The byte is one of those of the transfer. -/
def Request.Covers (request : Request) (j : ℕ) : Prop :=
  request.start ≤ j ∧ j < request.start + request.len

/-- A write of the byte that was acknowledged, or that the power failed in. -/
def DeviceEvent.Writes (j : ℕ) : DeviceEvent → Prop
  | .callback _ (.write request) (.ok r) => request.Covers j ∧ r.status = setGood
  | .callback _ (.write request) .crash => request.Covers j
  | _ => False

instance (request : Request) (j : ℕ) : Decidable (request.Covers j) :=
  inferInstanceAs (Decidable (_ ∧ _))

instance (j : ℕ) (e : DeviceEvent) : Decidable (e.Writes j) :=
  match e with
  | .callback _ (.write _) (.ok _) => inferInstanceAs (Decidable (_ ∧ _))
  | .callback _ (.write request) .crash => inferInstanceAs (Decidable (request.Covers j))
  | .callback _ (.write _) (.error e) => e.elim
  | .callback _ (.read _) _ | .callback _ .flush _ | .host _ => inferInstanceAs (Decidable False)

omit [Crypto] in
/-- What is acknowledged is done. -/
theorem Completes.of_good {capacity : ℕ} {context : Context} {c : Callback} {bytes bytes' : Bytes}
    {r : Completion} (h : Completes capacity context c bytes r bytes')
    (hgood : r.status = setGood) :
    c.Permitted capacity context ∧ r.data = c.answer bytes ∧ bytes' = c.after bytes := by
  cases h with
  | good hpermitted => exact ⟨hpermitted, rfl, rfl⟩
  | refused _ => exact absurd hgood (c.refusal_ne_setGood context)

omit [Crypto] in
/-- A write changes no byte but its own. -/
theorem Callback.getElem?_after {c : Callback} {bytes : Bytes} {j : ℕ} (hj : j < bytes.length)
    (hcovers : ∀ request, c = .write request → ¬request.Covers j) :
    (c.after bytes)[j]? = bytes[j]? := by
  cases c with
  | write request =>
    refine getElem?_overwrite_of_disjoint hj ?_
    have hlen : request.input.length ≤ request.len := List.length_take_le _ _
    by_contra hinside
    exact hcovers request rfl ⟨by omega, by omega⟩
  | _ => rfl

omit [Crypto] in
/-- **A byte stays as it is until it is written.** -/
theorem diskStep_getElem? {capacity : ℕ} {disk disk' : BlockDisk} {e : DeviceEvent} {j : ℕ}
    (hj : j < disk.bytes.length) (hstep : DiskStep capacity disk e disk') (hnone : ¬e.Writes j) :
    disk'.bytes[j]? = disk.bytes[j]? := by
  cases hstep with
  | callback _ hcompletes =>
    cases hcompletes with
    | good _ =>
      refine Callback.getElem?_after hj ?_
      rintro request rfl hcovers
      exact hnone ⟨hcovers, rfl⟩
    | refused _ => rfl
  | cut _ hshort =>
    cases hshort with
    | lost => rfl
    | kept _ =>
      refine Callback.getElem?_after hj ?_
      rintro request rfl hcovers
      exact hnone hcovers
  | host _ => rfl
  | notMounted => rfl
  | mounted => rfl

/-- **An acknowledged write survives.**  Once a write was answered with `GOOD`, each of its bytes is
what every read of it is answered that gets `GOOD`, whatever transfers, power failures and mounts
came between, as long as no later write of that byte was acknowledged or cut off by a power
failure. -/
theorem acknowledged_write_survives [LawfulCrypto] {options : VolumeOptions}
    {volumeId salt : FixedBytes 32} {d d' : Device Sealed} {v : Volume} {readOnly : Bool}
    {before between : List DeviceEvent} {context context' : Context} {request request' : Request}
    {r r' : Completion} {machine : Machine} {j : ℕ}
    (hcreate : createVolume master options volumeId salt d = (.ok v, d'))
    (hrun : Run (DeviceStep master) ⟨.live ⟨v, d'⟩, readOnly⟩
      (before ++ .callback context (.write request) (.ok r) ::
        (between ++ [.callback context' (.read request') (.ok r')])) machine)
    (hwritten : r.status = setGood) (hread : r'.status = setGood) (hcovers : request.Covers j)
    (hcovers' : request'.Covers j) (hbetween : ∀ e ∈ between, ¬e.Writes j) :
    ∃ data byte, r'.data = some data ∧ data[j - request'.start]? = some byte ∧
      request.input[j - request.start]? = some byte := by
  have hsimulates : ∀ (machine : Machine) (e : DeviceEvent) (machine' : Machine) (disk : BlockDisk),
      machine.Holds master v.bootstrap disk → DeviceStep master machine e machine' →
      ∃ disk', DiskStep v.bootstrap.logicalCapacity.toNat disk e disk' ∧
        machine'.Holds master v.bootstrap disk' := fun _ _ _ _ h hstep => deviceStep_disk h hstep
  -- the write puts its bytes on the disk
  obtain ⟨machine₁, machine₂, hbefore, hwrite, hrest⟩ := hrun.split
  obtain ⟨disk₁, -, hholds₁⟩ := hbefore.simulation (createVolume_holds hcreate readOnly) hsimulates
  obtain ⟨disk₂, hdisk₂, hholds₂⟩ := hsimulates _ _ _ _ hholds₁ hwrite
  have hsized : request.Sized := by
    cases hwrite with
    | callback _ hsized _ _ => exact hsized
  have hlen : request.len ≠ 0 := by
    rintro hzero
    have hcovers := hcovers
    rw [Request.Covers, hzero] at hcovers
    omega
  obtain ⟨byte, hbyte, hstored⟩ : ∃ byte, request.input[j - request.start]? = some byte ∧
      disk₂.bytes[j]? = some byte := by
    cases hdisk₂ with
    | callback _ hcompletes =>
      obtain ⟨hpermitted, -, rfl⟩ := hcompletes.of_good hwritten
      obtain ⟨buffer, hbuffer⟩ := Option.ne_none_iff_exists'.mp (hpermitted.accepted.2 hlen).1
      have hinput := Request.length_input hsized hbuffer
      have hin : j - request.start < request.input.length := by
        rw [hinput]
        have := hcovers.2
        have := hcovers.1
        omega
      refine ⟨request.input[j - request.start], List.getElem?_eq_getElem hin, ?_⟩
      rw [← List.getElem?_eq_getElem hin]
      exact getElem?_overwrite_self hcovers.1 (by rw [hinput]; exact hcovers.2)
  -- nothing after it changes them
  obtain ⟨machine₃, machine₄, hbetween', hlast, -⟩ := hrest.split
  obtain ⟨disk₃, hholds₃, hstored₃⟩ : ∃ disk, machine₃.Holds master v.bootstrap disk ∧
      disk.bytes[j]? = some byte := by
    refine hbetween'.frame (P := fun machine : Machine => ∃ disk : BlockDisk,
      machine.Holds master v.bootstrap disk ∧ disk.bytes[j]? = some byte)
      (Q := fun e : DeviceEvent => ¬e.Writes j) ⟨disk₂, hholds₂, hstored⟩ hbetween ?_
    rintro machine e machine' ⟨disk, hholds, hdisk⟩ hnone hstep
    obtain ⟨disk', hdiskStep, hholds'⟩ := hsimulates _ _ _ _ hholds hstep
    refine ⟨disk', hholds', ?_⟩
    rw [diskStep_getElem? (List.getElem?_eq_some_iff.mp hdisk).1 hdiskStep hnone, hdisk]
  -- so the read answers them
  obtain ⟨disk₄, hdisk₄, -⟩ := hsimulates _ _ _ _ hholds₃ hlast
  cases hdisk₄ with
  | @callback bytes _ _ _ _ _ _ hcompletes =>
    obtain ⟨-, hdata, -⟩ := hcompletes.of_good hread
    have hlen' : request'.len ≠ 0 := by
      have := hcovers'.1
      have := hcovers'.2
      omega
    refine ⟨slice bytes request'.start request'.len, byte, ?_, ?_, hbyte⟩
    · rw [hdata, Callback.answer, if_neg hlen']
    · have hlow := hcovers'.1
      have hhigh := hcovers'.2
      rw [getElem?_slice, if_pos (by omega), Nat.add_sub_cancel' hlow]
      exact hstored₃

end Crypto

/-! ## A power failure between two writes -/

def sectorOf (byte : UInt8) : Bytes := List.replicate 4096 byte

/-- The power goes in the second write; the volume is then mounted read-only, and the first sector
read. -/
def acrossPowerCut : List DeviceCommand :=
  [.callback (.write ⟨0, 1, 0, some (sectorOf 7)⟩) [] true,
    .callback (.write ⟨1, 1, 0, some (sectorOf 9)⟩) [.none, .none, .none, .powerLoss] false,
    .host (.reopen [] true) true,
    .callback (.write ⟨0, 1, 0, some (sectorOf 5)⟩) [] true,
    .callback (.read ⟨0, 1, 1, some (sectorOf 0)⟩) [] true]

/-- A write and later a read of the byte, both acknowledged, and no other write of it between
them. -/
def readsBack (j : ℕ) : List DeviceEvent → Bool
  | [.callback _ (.write request) (.ok r), e₁, e₂, e₃, .callback _ (.read request') (.ok r')] =>
    decide (r.status = setGood ∧ r'.status = setGood ∧ request.Covers j ∧ request'.Covers j ∧
      ∀ e ∈ [e₁, e₂, e₃], ¬e.Writes j)
  | _ => false

theorem acrossPowerCut_fair : ∀ cmd ∈ acrossPowerCut, cmd.Fair := by
  have hsized : ∀ (blockAddress : UInt64) (flushFlag byte : UInt8),
      Request.Sized ⟨blockAddress, 1, flushFlag, some (sectorOf byte)⟩ := by
    rintro blockAddress flushFlag byte buffer hbuffer
    rw [← Option.some.inj hbuffer, sectorOf, List.length_replicate]
    exact Nat.le_of_eq (by simp [Request.len])
  intro cmd hcmd
  simp only [acrossPowerCut, List.mem_cons, List.not_mem_nil, or_false] at hcmd
  rcases hcmd with rfl | rfl | rfl | rfl | rfl
  · exact ⟨fun _ hf => absurd hf List.not_mem_nil, hsized 0 0 7⟩
  · exact ⟨fun f hf => by revert f; decide, hsized 1 0 9⟩
  · exact ⟨fun _ hf => absurd hf List.not_mem_nil, fun _ _ _ h => absurd h (by simp)⟩
  · exact ⟨fun _ hf => absurd hf List.not_mem_nil, hsized 0 0 5⟩
  · exact ⟨fun _ hf => absurd hf List.not_mem_nil, hsized 0 1 0⟩

theorem acrossPowerCut_run :
    let _ := tagCrypto
    ∃ s es machine, twoBlocks [7] = some s ∧ Run (DeviceStep [7]) ⟨.live s, false⟩ es machine ∧
      readsBack 5 es = true := by
  let _ := tagCrypto
  have hexec : ((twoBlocks [7]).any fun s =>
      (execute (DeviceCommand.exec [7]) acrossPowerCut ⟨.live s, false⟩).any fun r =>
        readsBack 5 r.1) = true := by
    decide +kernel
  obtain ⟨s, hs, hrun⟩ := (Option.any_eq_true _ _).mp hexec
  obtain ⟨⟨es, machine⟩, hexec', htest⟩ := (Option.any_eq_true _ _).mp hrun
  refine ⟨s, es, machine, hs, ?_, htest⟩
  exact execute_run
    (fun cmd hcmd _ _ _ h => DeviceCommand.exec_step (acrossPowerCut_fair cmd hcmd) h) hexec'

theorem device_serves_disk_acrossPowerCut :
    let _ := tagCrypto
    ∃ s es machine disk, twoBlocks [7] = some s ∧ readsBack 5 es = true ∧
      Run (DeviceStep [7]) ⟨.live s, false⟩ es machine ∧
      Run (DiskStep s.volume.bootstrap.logicalCapacity.toNat)
        ⟨List.replicate s.volume.bootstrap.logicalCapacity.toNat 0, false⟩ es disk ∧
      machine.Holds [7] s.volume.bootstrap disk := by
  let _ := tagCrypto
  have _ := tagCrypto_lawful
  obtain ⟨s, es, machine, hs, hrun, htest⟩ := acrossPowerCut_run
  obtain ⟨disk, hdisk, hholds⟩ := device_serves_disk (createSession_eq_some.mp hs) hrun
  exact ⟨s, es, machine, disk, hs, htest, hrun, hdisk, hholds⟩

/-- The sixth byte of the first sector. -/
theorem acknowledged_write_survives_acrossPowerCut :
    let _ := tagCrypto
    ∃ (request request' : Request) (r' : Completion) (data : Bytes) (byte : UInt8),
      request.Covers 5 ∧ request'.Covers 5 ∧ r'.data = some data ∧
      data[5 - request'.start]? = some byte ∧ request.input[5 - request.start]? = some byte := by
  let _ := tagCrypto
  have _ := tagCrypto_lawful
  obtain ⟨s, es, machine, hs, hrun, htest⟩ := acrossPowerCut_run
  unfold readsBack at htest
  split at htest
  · next context request r e₁ e₂ e₃ context' request' r' =>
    obtain ⟨hwritten, hread, hcovers, hcovers', hbetween⟩ := of_decide_eq_true htest
    obtain ⟨data, byte, hdata, hbyte, hinput⟩ := @acknowledged_write_survives _ _ _ _ _ _ _ _ _ _ []
      [e₁, e₂, e₃] _ _ _ _ _ _ _ _ (createSession_eq_some.mp hs) hrun hwritten hread
        hcovers hcovers' hbetween
    exact ⟨request, request', r', data, byte, hcovers, hcovers', hdata, hbyte, hinput⟩
  · exact absurd htest (by simp)

end OrIsyVra.Mount
