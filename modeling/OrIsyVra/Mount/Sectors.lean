import OrIsyVra.Library.BlockArray
import OrIsyVra.Volume.CrashSafety

/-!
# The sector adapter

`read_bytes` and `write_bytes` give the driver a flat disk: any range of bytes, cut into the blocks
of the volume, some of which are missing, short, or only partly asked for.  A write reads the blocks
it touches, puts its bytes into them and hands all of them to one `write_blocks`.

The abstract disk is the byte array of `BlockArray`, zero at first, and a run of the adapter is a
run of that disk (`sector_adapter_is_flat_disk`), as long as no call is `Hindered` by the file or by
a generation counter at its end.
-/

namespace OrIsyVra.Mount

open ByteString MachineWord DurableFile FaultProgram Runs BlockArray KeyedLog Volume

section Crypto

variable [Crypto]

/-! ## The adapter -/

/-- The end of a range, if a word can hold it. -/
def checkedEnd (offset : UInt64) (len : ℕ) : Option UInt64 :=
  if offset.toNat + len < 2 ^ 64 then some (UInt64.ofNat (offset.toNat + len)) else none

/-- The check both calls make first. -/
def checkRange (info : VolumeInfo) (offset : UInt64) (len : ℕ) : Except VolumeError Unit :=
  match checkedEnd offset len with
  | none => .error .blockOutOfRange
  | some last => if last > info.logicalCapacity then .error .blockOutOfRange else .ok ()

omit [Crypto] in
/-- Copy what a block has of the bytes asked for; the buffer is zero where it has none. -/
def copyBlock (output : Bytes) (done : ℕ) (found : Option Bytes) (blockOffset take : ℕ) : Bytes :=
  match found with
  | some block =>
    let available := min (block.length - blockOffset) take
    overwrite output done (slice block blockOffset available)
  | none => output

/-- The loop of `read_bytes`; every pass reads a byte at least. -/
def readLoop (info : VolumeInfo) (offset : UInt64) : ℕ → Bytes → ℕ → Prog Session VolumeError Bytes
  | 0, output, _ => pure output
  | fuel + 1, output, done =>
    if done < output.length then do
      let blockSize := info.blockSize.toUInt64
      let absolute := offset + UInt64.ofNat done
      let blockIndex := absolute / blockSize
      let blockOffset := (absolute % blockSize).toNat
      let take := min (output.length - done) (info.blockSize.toNat - blockOffset)
      let found ← readBlock blockIndex
      readLoop info offset fuel (copyBlock output done found blockOffset take) (done + take)
    else pure output

/-- `output` is the buffer that is filled. -/
def readBytes (offset : UInt64) (output : Bytes) : Prog Session VolumeError Bytes := do
  let s ← Prog.get
  let info := info s.volume
  Prog.ofExcept (checkRange info offset output.length)
  readLoop info offset output.length (List.replicate output.length 0) 0

/-- The loop of `write_bytes`; every pass takes a byte at least. -/
def writeLoop (info : VolumeInfo) (offset : UInt64) (input : Bytes) :
    ℕ → ℕ → List (UInt64 × Bytes) → Prog Session VolumeError (List (UInt64 × Bytes))
  | 0, _, updates => pure updates
  | fuel + 1, done, updates =>
    if done < input.length then do
      let blockSize := info.blockSize.toUInt64
      let absolute := offset + UInt64.ofNat done
      let blockIndex := absolute / blockSize
      let blockStart := blockIndex * blockSize
      let blockOffset := (absolute - blockStart).toNat
      let logicalBlockLen := (min (info.logicalCapacity - blockStart) blockSize).toNat
      let take := min (input.length - done) (logicalBlockLen - blockOffset)
      let found ← readBlock blockIndex
      let block := resize (found.getD (List.replicate logicalBlockLen 0)) logicalBlockLen
      let block := overwrite block blockOffset (slice input done take)
      writeLoop info offset input fuel (done + take) (updates ++ [(blockIndex, block)])
    else pure updates

def writeBytes (offset : UInt64) (input : Bytes) : Prog Session VolumeError Unit := do
  let s ← Prog.get
  let info := info s.volume
  Prog.ofExcept (checkRange info offset input.length)
  if input.isEmpty then pure ()
  else do
    let updates ← writeLoop info offset input input.length 0 []
    let _ ← writeBlocks updates
    pure ()

/-! ## Where a pass of a loop is -/

variable {master : Bytes} {b : Bootstrap} {m : BlockMap} {s : Session} {offset : UInt64}

/-- The blocks of a volume by number. -/
def byNumber (m : BlockMap) (k : ℕ) : Option Bytes :=
  if k < 2 ^ 64 then m (UInt64.ofNat k) else none

/-- The flat disk of a volume. -/
def flat (b : Bootstrap) (m : BlockMap) : Bytes :=
  contents b.logicalCapacity.toNat b.blockSize.toNat (byNumber m)

omit [Crypto] in
theorem byNumber_of_lt {k : ℕ} (hk : k < 2 ^ 64) : byNumber m k = m (UInt64.ofNat k) := if_pos hk

omit [Crypto] in
theorem byNumber_update (k : UInt64) (payload : Bytes) :
    byNumber (Function.update m k (some payload)) =
      Function.update (byNumber m) k.toNat (some payload) := by
  funext j
  by_cases hj : j = k.toNat
  · subst hj
    rw [Function.update_self, byNumber_of_lt k.toNat_lt, UInt64.ofNat_toNat, Function.update_self]
  rw [Function.update_of_ne hj]
  unfold byNumber
  split
  · next hlt =>
    refine Function.update_of_ne (fun heq => hj ?_) _ _
    rw [← heq, UInt64.toNat_ofNat_of_lt' hlt]
  · rfl

omit [Crypto] in
theorem checkRange_eq_ok {info : VolumeInfo} {len : ℕ} :
    checkRange info offset len = .ok () ↔ offset.toNat + len ≤ info.logicalCapacity.toNat := by
  have hcap := info.logicalCapacity.toNat_lt
  unfold checkRange checkedEnd
  by_cases hlt : offset.toNat + len < 2 ^ 64
  · have hend : (UInt64.ofNat (offset.toNat + len)).toNat = offset.toNat + len :=
      UInt64.toNat_ofNat_of_lt' hlt
    simp only [if_pos hlt, gt_iff_lt, UInt64.lt_iff_toNat_lt, hend]
    split
    · simp only [reduceCtorEq, false_iff]
      omega
    · simp only [true_iff]
      omega
  · simp only [if_neg hlt, reduceCtorEq, false_iff]
    omega

omit [Crypto] in
theorem checkRange_error {info : VolumeInfo} {len : ℕ}
    (h : ¬offset.toNat + len ≤ info.logicalCapacity.toNat) :
    checkRange info offset len = .error .blockOutOfRange := by
  rw [← checkRange_eq_ok] at h
  unfold checkRange at h ⊢
  split
  · rfl
  · next last hlast =>
    rw [hlast] at h
    by_cases hgt : last > info.logicalCapacity
    · rw [if_pos hgt]
    · simp [hgt] at h

omit [Crypto] in
/-- A word can hold the number of a block. -/
theorem div_lt_word {i : ℕ} (hi : i < b.logicalCapacity.toNat) : i / b.blockSize.toNat < 2 ^ 64 :=
  lt_of_le_of_lt (Nat.div_le_self _ _) (hi.trans b.logicalCapacity.toNat_lt)

omit [Crypto] in
/-- The words of a pass stand for the numbers they should. -/
theorem toNat_words {v : Volume} {done : ℕ}
    (hin : offset.toNat + done < v.bootstrap.logicalCapacity.toNat) :
    let blockSize := (info v).blockSize.toUInt64
    let absolute := offset + UInt64.ofNat done
    let size := v.bootstrap.blockSize.toNat
    let i := offset.toNat + done
    absolute / blockSize = UInt64.ofNat (i / size) ∧ (absolute % blockSize).toNat = i % size ∧
      (absolute - absolute / blockSize * blockSize).toNat = i % size ∧
      (min ((info v).logicalCapacity - absolute / blockSize * blockSize) blockSize).toNat =
        blockLen v.bootstrap.logicalCapacity.toNat size (i / size) := by
  intro blockSize absolute size i
  have hcap := v.bootstrap.logicalCapacity.toNat_lt
  have hsize : blockSize.toNat = size := rfl
  have habsolute : absolute.toNat = i := by
    have hdone : (UInt64.ofNat done).toNat = done :=
      UInt64.toNat_ofNat_of_lt' (lt_of_le_of_lt (by omega) hcap)
    rw [UInt64.toNat_add, hdone]
    exact Nat.mod_eq_of_lt (by omega)
  have hindex : (absolute / blockSize).toNat = i / size := by
    rw [UInt64.toNat_div, habsolute, hsize]
  have hle : i / size * size ≤ i := Nat.div_mul_le_self i size
  have hstart : (absolute / blockSize * blockSize).toNat = i / size * size := by
    rw [UInt64.toNat_mul, hindex, hsize]
    exact Nat.mod_eq_of_lt (by omega)
  refine ⟨?_, ?_, ?_, ?_⟩
  · rw [← hindex, UInt64.ofNat_toNat]
  · rw [UInt64.toNat_mod, habsolute, hsize]
  · rw [UInt64.toNat_sub_of_le _ _ (UInt64.le_iff_toNat_le.mpr (by omega)), habsolute, hstart,
      Nat.mod_eq_sub_div_mul]
  · have hrest : ((info v).logicalCapacity - absolute / blockSize * blockSize).toNat =
        v.bootstrap.logicalCapacity.toNat - i / size * size := by
      have hcapacity : (info v).logicalCapacity = v.bootstrap.logicalCapacity := rfl
      rw [hcapacity, UInt64.toNat_sub_of_le _ _ (UInt64.le_iff_toNat_le.mpr (by omega)), hstart]
    rw [toNat_min, hrest, hsize, blockLen]

omit [Crypto] in
/-- The block of an offset is one of the volume. -/
theorem block_lt_blockCount {i : ℕ} (hi : i < b.logicalCapacity.toNat) :
    UInt64.ofNat (i / b.blockSize.toNat) < b.blockCount := by
  have hcap := b.logicalCapacity.toNat_lt
  have hsize := b.blockSize_pos
  have hmin : 4096 ≤ b.blockSize.toNat := (validateOptions_ok b.valid).2.1
  set size := b.blockSize.toNat with hsize_def
  set cap := b.logicalCapacity.toNat with hcap_def
  have hquot : (b.logicalCapacity / b.blockSize.toUInt64).toNat = cap / size := by
    rw [UInt64.toNat_div]
    rfl
  have hbound : cap / size < 2 ^ 64 - 1 := by
    rw [Nat.div_lt_iff_lt_mul hsize]
    omega
  have hrest : (b.logicalCapacity % b.blockSize.toUInt64).toNat = cap % size := by
    rw [UInt64.toNat_mod]
    rfl
  have hdiv : i / size ≤ cap / size := Nat.div_le_div_right hi.le
  rw [UInt64.lt_iff_toNat_lt,
    UInt64.toNat_ofNat_of_lt' (lt_of_le_of_lt hdiv (hbound.trans (by decide))),
    Bootstrap.blockCount]
  by_cases hzero : b.logicalCapacity % b.blockSize.toUInt64 = 0
  · have hmod : cap % size = 0 := by rw [← hrest, hzero]; rfl
    rw [if_neg (not_not.mpr hzero), UInt64.add_zero, hquot]
    refine lt_of_le_of_ne hdiv fun heq => ?_
    have hdvd := Nat.div_mul_cancel (Nat.dvd_of_mod_eq_zero hmod)
    have hle := Nat.div_mul_le_self i size
    rw [heq] at hle
    omega
  · rw [if_pos hzero, UInt64.toNat_add, hquot]
    have hone : (1 : UInt64).toNat = 1 := rfl
    rw [hone, Nat.mod_eq_of_lt (by omega)]
    omega

/-! ## Reading -/

/-- Calls that changed nothing but the position in the file. -/
structure Steady (s s' : Session) : Prop where
  volume : s'.volume = s.volume
  disk : s'.file.disk = s.file.disk
  present : s'.file.present = s.file.present
  faults : s'.file.faults = []

omit [Crypto] in
theorem Steady.trans {s s' s'' : Session} (h : Steady s s') (h' : Steady s' s'') : Steady s s'' :=
  ⟨h'.volume.trans h.volume, h'.disk.trans h.disk, h'.present.trans h.present, h'.faults⟩

theorem Steady.stores {s s' : Session} (h : Steady s s') (hs : Stores master b s.volume m s.file) :
    Stores master b s'.volume m s'.file := by
  obtain ⟨hb, es, hsettled, hm⟩ := hs
  rw [h.volume]
  exact ⟨hb, es, hsettled.same h.disk h.present, hm⟩

/-- A file that works answers a read of a block of the volume. -/
theorem readBlock_steady {k : UInt64} (hs : Stores master b s.volume m s.file)
    (hfaults : s.file.faults = []) (hk : k < b.blockCount) :
    ∃ s', readBlock k s = (.ok (m k), s') ∧ Steady s s' := by
  have hpower : PowerOnly s.file.faults := by
    intro f hf
    rw [hfaults] at hf
    exact absurd hf List.not_mem_nil
  have hanswer : (readBlock k s).1 = .ok (m k) := by
    rcases readBlock_answer hs hpower k with h | ⟨-, ⟨part, hpart⟩ | hcut⟩
    · rwa [if_pos hk] at h
    · exact absurd (hfaults ▸ hpart) List.not_mem_nil
    · exact absurd (hfaults ▸ hcut) List.not_mem_nil
  obtain ⟨-, es, hsettled, -⟩ := hs
  have heffect := readBlock_effect k hpower.not_mayDamage hsettled.view.log
  refine ⟨(readBlock k s).2, Prod.ext hanswer rfl, heffect.volume, heffect.file.disk,
    heffect.file.present, ?_⟩
  have hsub := heffect.file.faults
  rw [hfaults] at hsub
  exact List.eq_nil_of_subset_nil hsub

omit [Crypto] in
/-- What is copied is zero where the block does not reach. -/
theorem copyBlock_spec {output : Bytes} {done take : ℕ} (found : Option Bytes) (blockOffset : ℕ)
    (htake : done + take ≤ output.length)
    (hzero : ∀ j, done ≤ j → j < output.length → output[j]? = some 0) :
    (copyBlock output done found blockOffset take).length = output.length ∧
      ∀ j < output.length, (copyBlock output done found blockOffset take)[j]? =
        if done ≤ j ∧ j < done + take then some ((found.getD []).getD (blockOffset + (j - done)) 0)
        else output[j]? := by
  cases found with
  | none =>
    refine ⟨rfl, fun j hj => ?_⟩
    split
    · next hin => exact hzero j hin.1 hj
    · rfl
  | some block =>
    have hlen : (slice block blockOffset (min (block.length - blockOffset) take)).length =
        min (block.length - blockOffset) take := by
      rw [slice, List.length_take, List.length_drop]
      omega
    unfold copyBlock
    dsimp only
    generalize hchunk : slice block blockOffset (min (block.length - blockOffset) take) =
      chunk at hlen ⊢
    constructor
    · by_cases hnil : chunk = []
      · rw [hnil, overwrite_nil]
      · rw [length_overwrite hnil]
        omega
    intro j hj
    by_cases hcopied : done ≤ j ∧ j < done + chunk.length
    · rw [getElem?_overwrite_self hcopied.1 hcopied.2, if_pos (by omega), ← hchunk, getElem?_slice,
        if_pos (by omega), Option.getD_some, List.getD_eq_getElem?_getD,
        List.getElem?_eq_getElem (by omega), Option.getD_some]
    · rw [getElem?_overwrite_of_disjoint hj (by omega)]
      split
      · next hin =>
        rw [hzero j hin.1 hj, Option.getD_some, List.getD_eq_getElem?_getD,
          List.getElem?_eq_none (by omega), Option.getD_none]
      · rfl

/-- **The reading loop** fills the buffer with the bytes of the flat disk. -/
theorem readLoop_eq {v : Volume} {fuel : ℕ} {output : Bytes} {done : ℕ}
    (hs : Stores master v.bootstrap s.volume m s.file) (hfaults : s.file.faults = [])
    (hfuel : output.length - done ≤ fuel)
    (hrange : offset.toNat + output.length ≤ v.bootstrap.logicalCapacity.toNat)
    (hzero : ∀ j, done ≤ j → j < output.length → output[j]? = some 0) :
    ∃ filled s', readLoop (info v) offset fuel output done s = (.ok filled, s') ∧ Steady s s' ∧
      filled.length = output.length ∧ ∀ j < output.length, filled[j]? =
        if j < done then output[j]? else
          some (byteAt v.bootstrap.blockSize.toNat (byNumber m) (offset.toNat + j)) := by
  induction fuel generalizing s output done with
  | zero =>
    refine ⟨output, s, rfl, ⟨rfl, rfl, rfl, hfaults⟩, rfl, fun j hj => ?_⟩
    rw [if_pos (by omega)]
  | succ fuel ih =>
    by_cases hlt : done < output.length
    swap
    · rw [readLoop, if_neg hlt]
      refine ⟨output, s, rfl, ⟨rfl, rfl, rfl, hfaults⟩, rfl, fun j hj => ?_⟩
      rw [if_pos (by omega)]
    have hin : offset.toNat + done < v.bootstrap.logicalCapacity.toNat := by omega
    obtain ⟨hindex, hoffset, -, -⟩ := toNat_words hin
    obtain ⟨s₁, hread, hsteady⟩ := readBlock_steady hs hfaults (block_lt_blockCount hin)
    have hsize : (info v).blockSize.toNat = v.bootstrap.blockSize.toNat := rfl
    rw [readLoop, if_pos hlt, hindex, hoffset, hsize, bind_ok hread]
    have hmod := Nat.mod_lt (offset.toNat + done) v.bootstrap.blockSize_pos
    have hword := div_lt_word hin
    generalize htake : min (output.length - done)
      (v.bootstrap.blockSize.toNat - (offset.toNat + done) % v.bootstrap.blockSize.toNat) = take
    obtain ⟨hlen, hcopied⟩ := copyBlock_spec (m (UInt64.ofNat ((offset.toNat + done) /
      v.bootstrap.blockSize.toNat))) ((offset.toNat + done) % v.bootstrap.blockSize.toNat)
      (show done + take ≤ output.length by omega) hzero
    generalize copyBlock output done _ _ take = output' at hlen hcopied ⊢
    obtain ⟨filled, s', hloop, hsteady', hfilled, hbytes⟩ := ih (hsteady.stores hs) hsteady.faults
      (by omega : output'.length - (done + take) ≤ fuel) (by omega) (fun j hj hj' => by
        rw [hcopied j (by omega), if_neg (by omega)]
        exact hzero j (by omega) (by omega))
    refine ⟨filled, s', hloop, hsteady.trans hsteady', by omega, fun j hj => ?_⟩
    rw [hbytes j (by omega), hcopied j hj]
    by_cases hbefore : j < done
    · rw [if_pos (by omega), if_neg (by omega), if_pos hbefore]
    rw [if_neg hbefore]
    split
    · rw [if_pos (by omega)]
      have hin_block : (offset.toNat + done) % v.bootstrap.blockSize.toNat + (j - done) <
          v.bootstrap.blockSize.toNat := by omega
      rw [show offset.toNat + j = offset.toNat + done + (j - done) by omega,
        byteAt_in_block hin_block, byNumber_of_lt hword]
    · rfl

/-- **`read_bytes`** answers what the flat disk does. -/
theorem readBytes_eq (hs : Stores master b s.volume m s.file) (hfaults : s.file.faults = [])
    (output : Bytes) :
    (offset.toNat + output.length ≤ b.logicalCapacity.toNat → ∃ s', Steady s s' ∧
      readBytes offset output s = (.ok (slice (flat b m) offset.toNat output.length), s')) ∧
    (¬offset.toNat + output.length ≤ b.logicalCapacity.toNat →
      readBytes offset output s = (.error .blockOutOfRange, s)) := by
  have hget : (Prog.get : Prog Session VolumeError Session) s = (.ok s, s) := rfl
  obtain rfl : s.volume.bootstrap = b := hs.1
  constructor
  · intro hrange
    have hbuffer : (List.replicate output.length (0 : UInt8)).length = output.length :=
      List.length_replicate
    obtain ⟨filled, s', hloop, hsteady, hlen, hbytes⟩ := readLoop_eq hs hfaults
      (show (List.replicate output.length (0 : UInt8)).length - 0 ≤ output.length by omega)
      (by rw [hbuffer]; exact hrange) fun j _ hj => by
        rw [List.getElem?_replicate, if_pos (by omega)]
    rw [hbuffer] at hlen hbytes
    have hfilled : filled = slice (flat s.volume.bootstrap m) offset.toNat output.length := by
      apply List.ext_getElem?
      intro j
      rw [getElem?_slice]
      by_cases hj : j < output.length
      · rw [hbytes j hj, if_neg (Nat.not_lt_zero j), if_pos hj, flat, getElem?_contents (by omega)]
      · rw [if_neg hj, List.getElem?_eq_none (by omega)]
    refine ⟨s', hsteady, ?_⟩
    rw [readBytes, bind_ok hget, checkRange_eq_ok.mpr hrange, ← hfilled]
    exact hloop
  · intro hrange
    rw [readBytes, bind_ok hget, checkRange_error hrange]
    rfl

/-! ## Writing -/

/-- The updates after the first `done` bytes of the input. -/
structure Staged (b : Bootstrap) (m : BlockMap) (offset : UInt64) (input : Bytes) (done : ℕ)
    (updates : List (UInt64 × Bytes)) : Prop where
  le : done ≤ input.length
  valid : BatchValid b updates
  nonempty : 0 < done → updates ≠ []
  before : done < input.length →
    ∀ p ∈ updates, p.1.toNat < (offset.toNat + done) / b.blockSize.toNat
  bytes : ∀ i < b.logicalCapacity.toNat,
    byteAt b.blockSize.toNat (byNumber (assign m updates)) i =
      if offset.toNat ≤ i ∧ i < offset.toNat + done then input.getD (i - offset.toNat) 0
      else byteAt b.blockSize.toNat (byNumber m) i

omit [Crypto] in
theorem Staged.nil (input : Bytes) : Staged b m offset input 0 [] := by
  refine ⟨Nat.zero_le _, ⟨by simp, by simp, by simp⟩, by simp, by simp, fun i _ => ?_⟩
  rw [if_neg (by omega), assign_nil]

omit [Crypto] in
/-- **A pass of the writing loop** adds one update, of a block that has none yet. -/
theorem Staged.next {input : Bytes} {done take : ℕ} {updates : List (UInt64 × Bytes)}
    (h : Staged b m offset input done updates) (hlt : done < input.length)
    (hrange : offset.toNat + input.length ≤ b.logicalCapacity.toNat) {i k len : ℕ}
    (hi : offset.toNat + done = i) (hk : i / b.blockSize.toNat = k)
    (hlen : blockLen b.logicalCapacity.toNat b.blockSize.toNat k = len)
    (htake : min (input.length - done) (len - i % b.blockSize.toNat) = take) :
    0 < take ∧ Staged b m offset input (done + take) (updates ++ [(UInt64.ofNat k,
      overwrite (resize ((m (UInt64.ofNat k)).getD (List.replicate len 0)) len)
        (i % b.blockSize.toNat) (slice input done take))]) := by
  have hpos := b.blockSize_pos
  have hin : i < b.logicalCapacity.toNat := by omega
  have hword : k < 2 ^ 64 := hk ▸ div_lt_word hin
  have htoNat : (UInt64.ofNat k).toNat = k := UInt64.toNat_ofNat_of_lt' hword
  have hblock := block_lt_blockCount hin
  rw [hk] at hblock
  have hbefore := h.before hlt
  rw [hi, hk] at hbefore
  have hbytes := h.bytes
  generalize hsize : b.blockSize.toNat = size at *
  generalize hcap : b.logicalCapacity.toNat = cap at *
  have hsplit : i = k * size + i % size := by
    rw [← hk, Nat.mul_comm, Nat.div_add_mod]
  have hmod : i % size < size := Nat.mod_lt _ hpos
  rw [blockLen] at hlen
  have hchunk : (slice input done take).length = take := length_slice (by omega)
  have hblockLen :
  (overwrite (resize ((m (UInt64.ofNat k)).getD (List.replicate len 0)) len) (i % size)
      (slice input done take)).length = len := by
    rw [length_overwrite (by rw [ne_eq, ← List.length_eq_zero_iff]; omega), length_resize, hchunk]
    omega
  have hnew : UInt64.ofNat k ∉ updates.map Prod.fst := by
    intro hmem
    obtain ⟨p, hp, hkey⟩ := List.mem_map.mp hmem
    have hlt' := hbefore p hp
    rw [hkey, htoNat] at hlt'
    omega
  refine ⟨by omega, by omega, ⟨?_, ?_, ?_⟩, fun _ => by simp, fun hmore p hp => ?_, fun j hj => ?_⟩
  · intro p hp
    rcases List.mem_append.mp hp with hm | hm
    · exact h.valid.inRange p hm
    · rw [List.mem_singleton.mp hm]
      exact hblock
  · intro p hp
    rcases List.mem_append.mp hp with hm | hm
    · exact h.valid.fits p hm
    · rw [List.mem_singleton.mp hm, hsize]
      exact hblockLen.trans_le (by omega)
  · rw [List.map_append, List.nodup_append]
    refine ⟨h.valid.distinct, List.nodup_singleton _, ?_⟩
    rintro x hx y hy rfl
    rw [List.map_cons, List.map_nil, List.mem_singleton] at hy
    have hkey : x = UInt64.ofNat k := hy
    exact hnew (hkey ▸ hx)
  · -- there is more, so the block is full
    have hfull : offset.toNat + (done + take) = (k + 1) * size := by
      rw [Nat.succ_mul]
      omega
    rw [hsize, hfull, Nat.mul_div_cancel _ hpos]
    rcases List.mem_append.mp hp with hm | hm
    · exact (hbefore p hm).trans (Nat.lt_succ_self k)
    · rw [List.mem_singleton.mp hm, htoNat]
      exact Nat.lt_succ_self k
  · rw [assign_append, assign_cons, assign_nil, byNumber_update, htoNat, hsize, byteAt_update]
    by_cases hin_block : j / size = k
    swap
    · rw [if_neg hin_block, hbytes j (by omega)]
      have hout : j < k * size ∨ k * size + size ≤ j := by
        rw [Nat.div_eq_iff hpos] at hin_block
        omega
      split
      · rw [if_pos (by omega)]
      · rw [if_neg (by omega)]
    rw [if_pos hin_block]
    have hj_split : j = k * size + j % size := by
      rw [← hin_block, Nat.mul_comm, Nat.div_add_mod]
    have hj_mod : j % size < size := Nat.mod_lt _ hpos
    by_cases hwritten : i % size ≤ j % size ∧ j % size < i % size + take
    · rw [List.getD_eq_getElem?_getD, getElem?_overwrite_self hwritten.1 (by omega), getElem?_slice,
        if_pos (by omega), if_pos (by omega), List.getD_eq_getElem?_getD,
        show done + (j % size - i % size) = j - offset.toNat by omega]
    · -- the block is as it was, and the updates so far do not touch it
      have hold : (overwrite (resize ((m (UInt64.ofNat k)).getD (List.replicate len 0)) len)
        (i % size)
          (slice input done take)).getD (j % size) 0 =
            byteAt size (byNumber (assign m updates)) j := by
        rw [List.getD_eq_getElem?_getD,
          getElem?_overwrite_of_disjoint (by rw [length_resize]; omega)
          (by omega), ← List.getD_eq_getElem?_getD, getD_resize _ (by omega), byteAt, hin_block,
          byNumber_of_lt hword, assign_of_notMem hnew]
        cases m (UInt64.ofNat k) with
        | some block => rfl
        | none =>
          rw [Option.getD_none, Option.getD_none, List.getD_nil, List.getD_eq_getElem?_getD,
            List.getElem?_replicate]
          split <;> rfl
      rw [hold, hbytes j (by omega)]
      split
      · rw [if_pos (by omega)]
      · rw [if_neg (by omega)]

/-- **The writing loop** stages updates for all of the input. -/
theorem writeLoop_eq {v : Volume} {input : Bytes} {fuel done : ℕ} {updates : List (UInt64 × Bytes)}
    (hs : Stores master v.bootstrap s.volume m s.file) (hfaults : s.file.faults = [])
    (hfuel : input.length - done ≤ fuel)
    (hrange : offset.toNat + input.length ≤ v.bootstrap.logicalCapacity.toNat)
    (h : Staged v.bootstrap m offset input done updates) :
    ∃ updates' s', writeLoop (info v) offset input fuel done updates s = (.ok updates', s') ∧
      Steady s s' ∧ Staged v.bootstrap m offset input input.length updates' := by
  induction fuel generalizing s done updates with
  | zero =>
    have hend : done = input.length := le_antisymm h.le (by omega)
    exact ⟨updates, s, rfl, ⟨rfl, rfl, rfl, hfaults⟩, hend ▸ h⟩
  | succ fuel ih =>
    by_cases hlt : done < input.length
    swap
    · have hend : done = input.length := le_antisymm h.le (not_lt.mp hlt)
      rw [writeLoop, if_neg hlt]
      exact ⟨updates, s, rfl, ⟨rfl, rfl, rfl, hfaults⟩, hend ▸ h⟩
    have hin : offset.toNat + done < v.bootstrap.logicalCapacity.toNat := by omega
    obtain ⟨hindex, -, hoffset, hlen⟩ := toNat_words hin
    obtain ⟨s₁, hread, hsteady⟩ := readBlock_steady hs hfaults (block_lt_blockCount hin)
    obtain ⟨htake, hnext⟩ := h.next hlt hrange rfl rfl rfl rfl
    rw [writeLoop, if_pos hlt, hoffset, hlen, hindex, bind_ok hread]
    obtain ⟨updates', s', hloop, hsteady', hstaged⟩ :=
      ih (hsteady.stores hs) hsteady.faults (by omega) hnext
    exact ⟨updates', s', hloop, hsteady.trans hsteady', hstaged⟩

/-- **`write_bytes`** makes one batch of the range, and it is a valid one. -/
theorem writeBytes_eq (hs : Stores master b s.volume m s.file) (hfaults : s.file.faults = [])
    (input : Bytes) :
    (offset.toNat + input.length ≤ b.logicalCapacity.toNat → input ≠ [] →
      ∃ updates s', Steady s s' ∧ BatchValid b updates ∧ updates ≠ [] ∧
        flat b (assign m updates) = overwrite (flat b m) offset.toNat input ∧
        writeBytes offset input s =
          ((writeBlocks updates s').1.map fun _ => (), (writeBlocks updates s').2)) ∧
    (offset.toNat + input.length ≤ b.logicalCapacity.toNat → input = [] →
      writeBytes offset input s = (.ok (), s)) ∧
    (¬offset.toNat + input.length ≤ b.logicalCapacity.toNat →
      writeBytes offset input s = (.error .blockOutOfRange, s)) := by
  have hget : (Prog.get : Prog Session VolumeError Session) s = (.ok s, s) := rfl
  obtain rfl : s.volume.bootstrap = b := hs.1
  refine ⟨fun hrange hne => ?_, fun hrange hnil => ?_, fun hrange => ?_⟩
  · have hempty : input.isEmpty = false := by
      rw [Bool.eq_false_iff, ne_eq, List.isEmpty_iff]
      exact hne
    obtain ⟨updates, s', hloop, hsteady, hstaged⟩ := writeLoop_eq hs hfaults (Nat.sub_le _ _) hrange
      (Staged.nil input)
    refine ⟨updates, s', hsteady, hstaged.valid, hstaged.nonempty (List.length_pos_iff.mpr hne),
      contents_eq_overwrite hrange hstaged.bytes, ?_⟩
    rw [writeBytes, bind_ok hget, checkRange_eq_ok.mpr hrange]
    change (if input.isEmpty then pure () else _ : Prog Session VolumeError Unit) s = _
    rw [if_neg (by rw [hempty]; exact Bool.false_ne_true), bind_ok hloop]
    exact run_map (writeBlocks updates) (fun _ => ()) s'
  · subst hnil
    rw [writeBytes, bind_ok hget, checkRange_eq_ok.mpr hrange]
    rfl
  · rw [writeBytes, bind_ok hget, checkRange_error hrange]
    rfl

/-! ## Batches that are not hindered -/

/-- The call ended for a reason that is no fault of its arguments: the file failed, or a generation
counter is at its end. -/
def Hindered {α : Type} : Outcome VolumeError α → Prop
  | .error e => (∃ f, e = .io f) ∨ e = blockGenerationExhausted ∨ e = superGenerationExhausted
  | _ => False

omit [Crypto] in
/-- What can stop a commit besides the generation. -/
theorem commitState_error {state : SuperState} {added : ℕ} {last : UInt64} {e : VolumeError}
    (h : commitState state added last = .error e) :
    e = superGenerationExhausted ∨ 2 ^ 64 ≤ state.recordCount.toNat + added := by
  unfold commitState at h
  split at h
  swap
  · exact Or.inr (by omega)
  next hadded =>
  split at h
  · exact Or.inl (Except.error.inj h).symm
  split at h
  · next hcount =>
    rw [checkedAdd_eq_none, UInt64.toNat_ofNat_of_lt' hadded] at hcount
    exact Or.inr hcount
  · exact absurd h (by simp)

/-- **A valid batch is written**, unless it is hindered. -/
theorem writeBlocks_written [LawfulCrypto] {blocks : List (UInt64 × Bytes)}
    (hs : Stores master b s.volume m s.file) (hfaults : s.file.faults = [])
    (hvalid : BatchValid b blocks) (hfree : ¬Hindered (writeBlocks blocks s).1) :
    ∃ gens s', writeBlocks blocks s = (.ok gens, s') ∧ gens.length = blocks.length ∧
      Stores master b s'.volume (assign m blocks) s'.file := by
  have hpower : PowerOnly s.file.faults := by
    intro f hf
    rw [hfaults] at hf
    exact absurd hf List.not_mem_nil
  have hcrash : ¬s.file.MayCrash := by
    rintro (⟨part, hpart⟩ | hcut)
    · exact absurd (hfaults ▸ hpart) List.not_mem_nil
    · exact absurd (hfaults ▸ hcut) List.not_mem_nil
  have hkeeps : Keeps master b m (assign m blocks)
    (writeBlocks blocks s).1 (writeBlocks blocks s).2 :=
    writeBlocks_keeps hs hpower
  suffices hok : ∃ gens, (writeBlocks blocks s).1 = .ok gens ∧ gens.length = blocks.length by
    obtain ⟨gens, hgens, hlen⟩ := hok
    exact ⟨gens, _, Prod.ext hgens rfl, hlen, hkeeps.ok gens hgens⟩
  have hnocut : ∀ {o : Outcome VolumeError (List UInt64)}, ¬Hindered o → ¬Cut s.file o := by
    intro o ho hcut
    cases o with
    | ok _ => exact hcut
    | error e => exact ho (Or.inl hcut.1)
    | crash => exact hcrash hcut
  obtain ⟨rfl, es, hsettled, -⟩ := hs
  have hindexes := Scans.indexes hsettled.view.log
  have hlimit := hsettled.view.limit
  have heffect := writeBlocks_effect s blocks
  generalize writeBlocks blocks s = r at heffect hfree ⊢
  rcases r with ⟨o, s'⟩
  dsimp only at heffect hfree ⊢
  cases heffect with
  | empty hempty => exact ⟨[], rfl, by rw [hempty]; rfl⟩
  | rejected he =>
    exact absurd ((validateBatch_eq_ok.mpr ⟨hvalid, by simp⟩).symm.trans he) (by simp)
  | staging _ _ _ _ hok herror hcrashed =>
    cases o with
    | ok gens => exact absurd rfl (hok gens)
    | error e => exact absurd ((herror e rfl).imp id Or.inl) hfree
    | crash => exact absurd (hcrashed rfl) hcrash
  | uncommitted _ happends _ hend =>
    rcases hend with ⟨-, e, rfl, he⟩ | ⟨_, -, -, hcut⟩
    · rcases commitState_error he with rfl | hfull
      · exact absurd (Or.inr (Or.inr rfl)) hfree
      · -- the records of the log and the batch are all behind each other in the file
        have hcount := hindexes.count
        have hroom := hindexes.room
        have hroom' := happends.room
        have hlast := happends.last_lt hlimit
        have hrecord : recordHeaderSize = 32 := rfl
        have hmax : maxOffset < 2 ^ 64 := by decide
        dsimp only at hcount hroom
        rw [hrecord] at hroom hroom'
        omega
    · exact absurd hcut (hnocut hfree)
  | torn _ _ _ _ _ hcut _ => exact absurd hcut (hnocut hfree)
  | unsynced _ _ _ _ _ hcut => exact absurd hcut (hnocut hfree)
  | committed _ happends _ _ _ => exact ⟨_, rfl, by rw [List.length_map, happends.length_eq]⟩

/-- A batch that is not valid is rejected before anything is done. -/
theorem writeBlocks_rejected {blocks : List (UInt64 × Bytes)}
    (hvalid : ¬BatchValid s.volume.bootstrap blocks) :
    ∃ e, writeBlocks blocks s = (.error e, s) := by
  have hne : blocks ≠ [] := by
    rintro rfl
    exact hvalid ⟨by simp, by simp, by simp⟩
  rcases hcheck : validateBatch s.volume.bootstrap [] blocks with e | _
  · refine ⟨e, ?_⟩
    rw [writeBlocks, if_neg (by rw [List.isEmpty_iff]; exact hne)]
    change (Prog.ofExcept (validateBatch s.volume.bootstrap [] blocks) >>= _) s = _
    rw [hcheck]
    rfl
  · exact absurd (validateBatch_eq_ok.mp hcheck).1 hvalid

omit [Crypto] in
/-- A batch of one block. -/
theorem batchValid_singleton {k : UInt64} {payload : Bytes} :
    BatchValid b [(k, payload)] ↔ k < b.blockCount ∧ payload.length ≤ b.blockSize.toNat := by
  constructor
  · intro h
    exact ⟨h.inRange _ List.mem_cons_self, h.fits _ List.mem_cons_self⟩
  · rintro ⟨hk, hlen⟩
    refine ⟨?_, ?_, List.nodup_singleton _⟩
    · intro p hp
      rwa [List.mem_singleton.mp hp]
    · intro p hp
      rwa [List.mem_singleton.mp hp]

/-! ## Runs of the adapter -/

/-- A call of the adapter or of the volume below it, and how it ended. -/
inductive SectorEvent where
  | read (offset : UInt64) (len : ℕ) (o : Outcome VolumeError Bytes)
  | write (offset : UInt64) (input : Bytes) (o : Outcome VolumeError Unit)
  | writeBlock (blockIndex : UInt64) (plaintext : Bytes) (o : Outcome VolumeError UInt64)
  | reopen (o : Outcome VolumeError Unit)

/-- One step, on a file that works.  No call is hindered. -/
inductive SectorStep (master : Bytes) : Session → SectorEvent → Session → Prop where
  | read {s s' : Session} {offset : UInt64} {output : Bytes} {o : Outcome VolumeError Bytes} :
      readBytes offset output (s.script []) = (o, s') →
      SectorStep master s (.read offset output.length o) s'
  | write {s s' : Session} {offset : UInt64} {input : Bytes} {o : Outcome VolumeError Unit} :
      writeBytes offset input (s.script []) = (o, s') → ¬Hindered o →
      SectorStep master s (.write offset input o) s'
  | writeBlock {s s' : Session} {k : UInt64} {plaintext : Bytes} {o : Outcome VolumeError UInt64} :
      writeBlock k plaintext (s.script []) = (o, s') → ¬Hindered o →
      SectorStep master s (.writeBlock k plaintext o) s'
  /-- The volume is closed and opened again. -/
  | reopened {s : Session} {v : Volume} {file : Device Sealed} :
      openVolume master (script [] s.file) = (.ok v, file) →
      SectorStep master s (.reopen (.ok ())) ⟨v, file⟩
  | notReopened {s : Session} {e : VolumeError} {file : Device Sealed} :
      openVolume master (script [] s.file) = (.error e, file) →
      SectorStep master s (.reopen (.error e)) ⟨s.volume, file⟩

/-- **The flat disk.**  A range that ends behind the disk is refused; reading answers the bytes of
the range, and writing overwrites them.  Writing a block writes the payload, padded or cut to the
block. -/
inductive FlatStep (b : Bootstrap) (disk : Bytes) : SectorEvent → Bytes → Prop where
  | read {offset : UInt64} {len : ℕ} : offset.toNat + len ≤ b.logicalCapacity.toNat →
      FlatStep b disk (.read offset len (.ok (slice disk offset.toNat len))) disk
  | notRead {offset : UInt64} {len : ℕ} : ¬offset.toNat + len ≤ b.logicalCapacity.toNat →
      FlatStep b disk (.read offset len (.error .blockOutOfRange)) disk
  | write {offset : UInt64}
      {input : Bytes} : offset.toNat + input.length ≤ b.logicalCapacity.toNat →
      FlatStep b disk (.write offset input (.ok ())) (overwrite disk offset.toNat input)
  | notWritten {offset : UInt64} {input : Bytes} :
      ¬offset.toNat + input.length ≤ b.logicalCapacity.toNat →
      FlatStep b disk (.write offset input (.error .blockOutOfRange)) disk
  | writeBlock {k : UInt64} {plaintext : Bytes} {generation : UInt64} :
      k < b.blockCount → plaintext.length ≤ b.blockSize.toNat →
      FlatStep b disk (.writeBlock k plaintext (.ok generation))
        (overwrite disk (k.toNat * b.blockSize.toNat) (resize plaintext
          (blockLen b.logicalCapacity.toNat b.blockSize.toNat k.toNat)))
  | blockNotWritten {k : UInt64} {plaintext : Bytes} {e : VolumeError} :
      ¬(k < b.blockCount ∧ plaintext.length ≤ b.blockSize.toNat) →
      FlatStep b disk (.writeBlock k plaintext (.error e)) disk
  | reopen : FlatStep b disk (.reopen (.ok ())) disk

/-- The session holds the flat disk. -/
def HoldsDisk (master : Bytes) (b : Bootstrap) (s : Session) (disk : Bytes) : Prop :=
  ∃ m, Stores master b s.volume m s.file ∧ disk = flat b m

omit [Crypto] in
/-- A block of the volume starts in the disk. -/
theorem block_start_lt {k : UInt64} (hk : k < b.blockCount) :
    k.toNat * b.blockSize.toNat < b.logicalCapacity.toNat := by
  have hsize := b.blockSize_pos
  have hquot : (b.logicalCapacity / b.blockSize.toUInt64).toNat =
      b.logicalCapacity.toNat / b.blockSize.toNat := by
    rw [UInt64.toNat_div]
    rfl
  have hrest : (b.logicalCapacity % b.blockSize.toUInt64).toNat =
      b.logicalCapacity.toNat % b.blockSize.toNat := by
    rw [UInt64.toNat_mod]
    rfl
  have hsplit := Nat.div_add_mod b.logicalCapacity.toNat b.blockSize.toNat
  rw [Nat.mul_comm] at hsplit
  rw [Bootstrap.blockCount, UInt64.lt_iff_toNat_lt] at hk
  generalize b.logicalCapacity.toNat / b.blockSize.toNat = quot at *
  by_cases hzero : b.logicalCapacity % b.blockSize.toUInt64 = 0
  · rw [if_neg (not_not.mpr hzero), UInt64.add_zero, hquot] at hk
    have hle : (k.toNat + 1) * b.blockSize.toNat ≤ quot * b.blockSize.toNat :=
      Nat.mul_le_mul_right _ hk
    rw [Nat.succ_mul] at hle
    omega
  · have hpos : 0 < b.logicalCapacity.toNat % b.blockSize.toNat := by
      rw [← hrest]
      exact Nat.pos_of_ne_zero fun h => hzero (UInt64.toNat_inj.mp h)
    have hone : (1 : UInt64).toNat = 1 := rfl
    rw [if_pos hzero, UInt64.toNat_add, hquot, hone] at hk
    have hle : k.toNat * b.blockSize.toNat ≤ quot * b.blockSize.toNat :=
      Nat.mul_le_mul_right _ (Nat.lt_succ_iff.mp (hk.trans_le (Nat.mod_le _ _)))
    omega

/-- **`write_block`** writes its block, unless it is hindered or refused. -/
theorem writeBlock_eq [LawfulCrypto] {k : UInt64} {plaintext : Bytes}
    (hs : Stores master b s.volume m s.file) (hfaults : s.file.faults = [])
    (hfree : ¬Hindered (writeBlock k plaintext s).1) :
    (k < b.blockCount ∧ plaintext.length ≤ b.blockSize.toNat → ∃ generation s',
      writeBlock k plaintext s = (.ok generation, s') ∧
        Stores master b s'.volume (Function.update m k (some plaintext)) s'.file) ∧
    (¬(k < b.blockCount ∧ plaintext.length ≤ b.blockSize.toNat) →
      ∃ e, writeBlock k plaintext s = (.error e, s)) := by
  constructor
  · intro hvalid
    have hbatch : ¬Hindered (writeBlocks [(k, plaintext)] s).1 := by
      rcases hrun : writeBlocks [(k, plaintext)] s with ⟨gens | e | _, s'⟩
      · exact id
      · rw [writeBlock, bind_error hrun] at hfree
        exact hfree
      · exact id
    obtain ⟨gens, s', hrun, hlen, hstores⟩ :=
      writeBlocks_written hs hfaults (batchValid_singleton.mpr hvalid) hbatch
    obtain ⟨generation, rfl⟩ := List.length_eq_one_iff.mp hlen
    exact ⟨generation, s', by rw [writeBlock, bind_ok hrun]; rfl, hstores⟩
  · intro hvalid
    rw [← batchValid_singleton, ← hs.1] at hvalid
    obtain ⟨e, hrun⟩ := writeBlocks_rejected hvalid
    exact ⟨e, by rw [writeBlock, bind_error hrun]⟩

/-- **The adapter simulates the flat disk.** -/
theorem sectorStep_flat [LawfulCrypto] {s s' : Session} {e : SectorEvent} {disk : Bytes}
    (hs : HoldsDisk master b s disk) (hstep : SectorStep master s e s') :
    ∃ disk', FlatStep b disk e disk' ∧ HoldsDisk master b s' disk' := by
  obtain ⟨m, hstores, rfl⟩ := hs
  have hscript : Stores master b (s.script []).volume m (s.script []).file := by
    obtain ⟨hb, es, hsettled, hm⟩ := hstores
    exact ⟨hb, es, hsettled.same rfl rfl, hm⟩
  cases hstep with
  | @read _ offset output o hrun =>
    obtain ⟨hread, hrejected⟩ := readBytes_eq hscript rfl output
    by_cases hrange : offset.toNat + output.length ≤ b.logicalCapacity.toNat
    · obtain ⟨s₁, hsteady, hrun'⟩ := hread hrange
      obtain ⟨rfl, rfl⟩ := Prod.mk.inj (hrun.symm.trans hrun')
      exact ⟨_, .read hrange, m, hsteady.stores hscript, rfl⟩
    · obtain ⟨rfl, rfl⟩ := Prod.mk.inj (hrun.symm.trans (hrejected hrange))
      exact ⟨_, .notRead hrange, m, hscript, rfl⟩
  | @write _ offset input o hrun hfree =>
    obtain ⟨hwrite, hempty, hrejected⟩ := writeBytes_eq hscript rfl input
    by_cases hrange : offset.toNat + input.length ≤ b.logicalCapacity.toNat
    swap
    · obtain ⟨rfl, rfl⟩ := Prod.mk.inj (hrun.symm.trans (hrejected hrange))
      exact ⟨_, .notWritten hrange, m, hscript, rfl⟩
    by_cases hnil : input = []
    · obtain ⟨rfl, rfl⟩ := Prod.mk.inj (hrun.symm.trans (hempty hrange hnil))
      refine ⟨_, .write hrange, m, hscript, ?_⟩
      rw [hnil, overwrite_nil]
    obtain ⟨updates, s₁, hsteady, hvalid, -, hflat, hrun'⟩ := hwrite hrange hnil
    obtain ⟨rfl, rfl⟩ := Prod.mk.inj (hrun.symm.trans hrun')
    have hbatch : ¬Hindered (writeBlocks updates s₁).1 := by
      intro hhindered
      apply hfree
      cases h : (writeBlocks updates s₁).1 with
      | error e => rwa [h] at hhindered
      | _ => rw [h] at hhindered; exact hhindered
    obtain ⟨gens, s₂, hwritten, -, hstores'⟩ :=
      writeBlocks_written (hsteady.stores hscript) hsteady.faults hvalid hbatch
    rw [hwritten]
    exact ⟨_, .write hrange, assign m updates, hstores', hflat.symm⟩
  | @writeBlock _ k plaintext o hrun hfree =>
    obtain ⟨hwrite, hrejected⟩ := writeBlock_eq hscript rfl (by rw [hrun]; exact hfree)
    by_cases hvalid : k < b.blockCount ∧ plaintext.length ≤ b.blockSize.toNat
    · obtain ⟨generation, s₁, hrun', hstores'⟩ := hwrite hvalid
      obtain ⟨rfl, rfl⟩ := Prod.mk.inj (hrun.symm.trans hrun')
      refine ⟨_, .writeBlock hvalid.1 hvalid.2, _, hstores', ?_⟩
      rw [flat, flat, byNumber_update, contents_update b.blockSize_pos (block_start_lt hvalid.1)]
    · obtain ⟨e, hrun'⟩ := hrejected hvalid
      obtain ⟨rfl, rfl⟩ := Prod.mk.inj (hrun.symm.trans hrun')
      exact ⟨_, .blockNotWritten hvalid, m, hscript, rfl⟩
  | @reopened v file hopen =>
    have hkeeps := (openVolume_keeps hscript fun _ hf => absurd hf List.not_mem_nil).1 v
    rw [Session.file_script, hopen] at hkeeps
    exact ⟨_, .reopen, m, hkeeps rfl, rfl⟩
  | @notReopened e file hopen =>
    have hkeeps := (openVolume_keeps hscript fun _ hf => absurd hf List.not_mem_nil).2.1 e
    rw [Session.file_script, hopen] at hkeeps
    exact absurd rfl hkeeps

/-- **The adapter is a flat disk.**  From a new volume on, whatever is read, written, closed and
opened again, the calls do what the flat disk does, which is zero at first.  A write that is not
refused and not empty hands one valid batch to `write_blocks`, and a call that is refused changes
nothing. -/
theorem sector_adapter_is_flat_disk [LawfulCrypto] {options : VolumeOptions}
    {volumeId salt : FixedBytes 32} {d d' : Device Sealed} {v : Volume} {events : List SectorEvent}
    {s : Session} (hcreate : createVolume master options volumeId salt d = (.ok v, d'))
    (hrun : Run (SectorStep master) ⟨v, d'⟩ events s) :
    (∃ disk, Run (FlatStep v.bootstrap) (List.replicate v.bootstrap.logicalCapacity.toNat 0) events
      disk) ∧
    (∀ (offset : UInt64) (input : Bytes),
      offset.toNat + input.length ≤ v.bootstrap.logicalCapacity.toNat → input ≠ [] →
      ∃ updates s', Steady (s.script []) s' ∧ BatchValid v.bootstrap updates ∧ updates ≠ [] ∧
        writeBytes offset input (s.script []) =
          ((writeBlocks updates s').1.map fun _ => (), (writeBlocks updates s').2)) ∧
    ∀ (offset : UInt64) (bytes : Bytes),
      ¬offset.toNat + bytes.length ≤ v.bootstrap.logicalCapacity.toNat →
      readBytes offset bytes (s.script []) = (.error .blockOutOfRange, s.script []) ∧
        writeBytes offset bytes (s.script []) = (.error .blockOutOfRange, s.script []) := by
  have hcreated := createVolume_ok hcreate
  have hstart : HoldsDisk master v.bootstrap ⟨v, d'⟩
      (List.replicate v.bootstrap.logicalCapacity.toNat 0) := by
    refine ⟨fun _ => none, ⟨rfl, [], ⟨hcreated.present, hcreated.onDisk, fun u hu => ?_⟩, rfl⟩, ?_⟩
    · rw [hcreated.pending] at hu
      exact absurd hu List.not_mem_nil
    · have hnone : byNumber (fun _ => none) = fun _ => none := funext fun k => ite_self none
      rw [flat, hnone, contents_none]
  obtain ⟨disk, hflat, m, hstores, -⟩ := hrun.simulation hstart fun _ _ _ _ hs hstep =>
    sectorStep_flat hs hstep
  have hscript : Stores master v.bootstrap (s.script []).volume m (s.script []).file := by
    obtain ⟨hb, es, hsettled, hm⟩ := hstores
    exact ⟨hb, es, hsettled.same rfl rfl, hm⟩
  refine ⟨⟨disk, hflat⟩, fun offset input hrange hne => ?_, fun offset bytes hrange => ⟨?_, ?_⟩⟩
  · obtain ⟨updates, s', hsteady, hvalid, hnil, -, hrun'⟩ :=
      (writeBytes_eq hscript rfl input).1 hrange hne
    exact ⟨updates, s', hsteady, hvalid, hnil, hrun'⟩
  · exact (readBytes_eq hscript rfl bytes).2 hrange
  · exact (writeBytes_eq hscript rfl bytes).2.2 hrange

end Crypto

/-! ## A write into the last block -/

/-- A volume whose second block is cut short, read and then written to across its two blocks. -/
def shortBlock [Crypto] : Option (Session × (Outcome VolumeError Bytes × Session) ×
    (Outcome VolumeError Unit × Session)) :=
  (createSession [7] ⟨4100, 4096⟩ (.of 32 [1]) (.of 32 [2]) absentFile).map fun s =>
    let read := readBytes 4094 [5, 5, 5, 5] (s.script [])
    (s, read, writeBytes 4094 [1, 2, 3, 4] (read.2.script []))

/-- The last two bytes of the first block and the first two of the second, zero at first. -/
theorem sector_adapter_is_flat_disk_shortBlock :
    let _ := tableCrypto []
    ∃ s s' events disk, createSession [7] ⟨4100, 4096⟩ (.of 32 [1])
      (.of 32 [2]) absentFile = some s ∧
      events = [.read 4094 4 (.ok [0, 0, 0, 0]), .write 4094 [1, 2, 3, 4] (.ok ())] ∧
      Run (SectorStep [7]) s events s' ∧
      Run (FlatStep s.volume.bootstrap)
        (List.replicate s.volume.bootstrap.logicalCapacity.toNat 0) events disk := by
  let _ := tableCrypto []
  have _ := tableCrypto_lawful []
  have hexec : shortBlock.map (fun r => (r.2.1.1, r.2.2.1)) = some (.ok [0, 0, 0, 0], .ok ()) := by
    decide +kernel
  obtain ⟨⟨s, read, written⟩, hshort, houtcomes⟩ := Option.map_eq_some_iff.mp hexec
  obtain ⟨s₀, hcreate, hruns⟩ := Option.map_eq_some_iff.mp hshort
  obtain ⟨rfl, hread, hwritten⟩ : s₀ = s ∧ readBytes 4094 [5, 5, 5, 5] (s₀.script []) = read ∧
      writeBytes 4094 [1, 2, 3, 4] (read.2.script []) = written := by
    obtain ⟨rfl, hrest⟩ := Prod.mk.inj hruns
    obtain ⟨rfl, rfl⟩ := Prod.mk.inj hrest
    exact ⟨rfl, rfl, rfl⟩
  obtain ⟨o, s₁⟩ := read
  obtain ⟨o', s₂⟩ := written
  obtain ⟨rfl, rfl⟩ : o = .ok [0, 0, 0, 0] ∧ o' = .ok () := Prod.mk.inj houtcomes
  have hrun : Run (SectorStep [7]) s₀ ([] ++ [.read 4094 4 (.ok [0, 0, 0, 0])] ++
      [.write 4094 [1, 2, 3, 4] (.ok ())]) s₂ :=
    (Run.refl.step (.read hread)).step (.write hwritten id)
  obtain ⟨⟨disk, hflat⟩, -⟩ := sector_adapter_is_flat_disk (createSession_eq_some.mp hcreate) hrun
  exact ⟨s₀, s₂, _, disk, hcreate, rfl, hrun, hflat⟩

end OrIsyVra.Mount
