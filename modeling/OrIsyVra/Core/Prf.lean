import Mathlib.Tactic.FinCases
import OrIsyVra.Core.Permutation
import OrIsyVra.Library.Blocks

/-!
# The keyed sponge

`prf_parts` absorbs its parts byte by byte into a buffer of one block, each part behind its length,
and commits the buffer whenever it is full; then it pads the last block, mixes in what has been
absorbed and what is asked for, and squeezes block after block into the output.

`prfOneShot` says what comes out with no buffer and no loop over lanes, every state word for word.
Its steps are shown to be those of the code first (`absorbBlock_eq` and the four beside it).  The
rest is that nothing depends on where a part ends: absorbing keeps `Absorbed`, which says that the
sponge is where the whole input so far takes it.  So `prf_parts` is its one-shot definition
(`prfParts_eq`), and the blocks it commits, with the two lengths, determine the input
(`absorbed_input_injective`).
-/

namespace OrIsyVra
namespace Core

open ByteString Blocks

/-! ## The sponge of the source -/

def keySize : ℕ := 48

def tagSize : ℕ := 32

inductive Domain where
  | keyDerivation
  | headerBinding
  | recordSiv
  | stream
  | manifest
  | randomGenerator
  deriving DecidableEq, Repr

def Domain.word : Domain → Word
  | keyDerivation => 0x4f59562d4b444631
  | headerBinding => 0x4f59562d48445231
  | recordSiv => 0x4f59562d53495631
  | stream => 0x4f59562d53545231
  | manifest => 0x4f59562d4d414e31
  | randomGenerator => 0x4f59562d524e4731

/-- The sponge of the source, and, which the source does not keep, the blocks it has committed. -/
structure KeyedSponge where
  state : State
  buffer : Bytes
  position : ℕ
  absorbed : Word
  committed : List Bytes

/-- The word of a lane in a block or a key. -/
def laneWord (bytes : Bytes) (lane : Fin 6) : Word :=
  BitVec.ofNat 64 (fromLE (slice bytes (lane * 8) 8))

/-- The state a key and a domain begin with. -/
def initialState (key : FixedBytes 48) (domain : Domain) : State :=
  let state := (List.finRange 6).foldl (fun (state : State) (lane : Fin 6) =>
    have hlane : rateWords + lane.val < 12 := by rw [rateWords]; omega
    let keyWord := laneWord key.val lane
    let state := state.set lane (state[lane] + keyWord.rotateLeft ((lane * 9 + 7) % 64))
    state.set (rateWords + lane) (state[rateWords + lane.val] ^^^ keyWord)) iv
  let state := state.set 0 (state[0] ^^^ domain.word)
  let state := state.set 11 (state[11] ^^^ BitVec.ofNat 64 keySize <<< 32)
  permute state

theorem lane_lt (lane : Fin 6) : lane.val < 12 := by omega

/-- Mix a block into the rate. -/
def xorRate (state : State) (block : Bytes) : State :=
  (List.finRange 6).foldl (fun (state : State) (lane : Fin 6) =>
    have hlane := lane_lt lane
    state.set lane (state[lane.val] ^^^ laneWord block lane)) state

/-- What a block does to the state. -/
def absorbBlock (state : State) (block : Bytes) : State := permute (xorRate state block)

/-- What ends the absorbing: the key again, the length absorbed and the length asked for. -/
def finalState (key : FixedBytes 48) (absorbed outputLength : Word) (state : State) : State :=
  let state := (List.finRange 6).foldl (fun (state : State) (lane : Fin 6) =>
    have hlane : rateWords + lane.val < 12 := by rw [rateWords]; omega
    state.set (rateWords + lane) (state[rateWords + lane.val] ^^^ laneWord key.val lane)) state
  let state := state.set 0 (state[0] ^^^ absorbed)
  let state := state.set 1 (state[1] ^^^ outputLength)
  let state := state.set 11 (state[11] ^^^ 0x8000000000000001)
  permute state

/-- The bytes of the rate. -/
def rateBlock (state : State) : Bytes := (List.finRange 6).flatMap fun (lane : Fin 6) =>
  have hlane := lane_lt lane
  toLE 8 state[lane.val].toNat

/-- From one block of output to the next. -/
def nextState (state : State) (blockIndex : Word) : State :=
  let state := state.set 10 (state[10] ^^^ blockIndex)
  let state := state.set 11 (state[11] + 0x9e3779b97f4a7c15)
  permute state

namespace KeyedSponge

def new (key : FixedBytes 48) (domain : Domain) : KeyedSponge :=
  ⟨initialState key domain, List.replicate rateBytes 0, 0, 0, []⟩

def commitBlock (sponge : KeyedSponge) : KeyedSponge :=
  { sponge with
    state := absorbBlock sponge.state sponge.buffer
    buffer := List.replicate rateBytes 0
    position := 0
    committed := sponge.committed ++ [sponge.buffer] }

/-- Copy bytes into the buffer, and commit it if that has filled it. -/
def fill (sponge : KeyedSponge) (bytes : Bytes) : KeyedSponge :=
  let sponge := { sponge with
    buffer := overwrite sponge.buffer sponge.position bytes
    position := sponge.position + bytes.length
    absorbed := sponge.absorbed + BitVec.ofNat 64 bytes.length }
  if sponge.position = rateBytes then sponge.commitBlock else sponge

/-- The loop of `absorb`; every pass takes a byte at least. -/
def absorbLoop : ℕ → KeyedSponge → Bytes → KeyedSponge
  | 0, sponge, _ => sponge
  | fuel + 1, sponge, input =>
    if input.isEmpty then sponge
    else
      let take := min (rateBytes - sponge.position) input.length
      absorbLoop fuel (sponge.fill (input.take take)) (input.drop take)

def absorb (sponge : KeyedSponge) (input : Bytes) : KeyedSponge :=
  absorbLoop input.length sponge input

def finalize (sponge : KeyedSponge) (key : FixedBytes 48) (outputLength : ℕ) : KeyedSponge :=
  let sponge := { sponge with buffer := sponge.buffer.modify sponge.position (· ^^^ 0x01) }
  let sponge := { sponge with buffer := sponge.buffer.modify (rateBytes - 1) (· ^^^ 0x80) }
  let sponge := sponge.commitBlock
  { sponge with
    state := finalState key sponge.absorbed (BitVec.ofNat 64 outputLength) sponge.state }

end KeyedSponge

/-- The loop of `squeeze`; every pass writes a byte at least. -/
def squeezeLoop : ℕ → State → Bytes → ℕ → Word → Bytes
  | 0, _, output, _, _ => output
  | fuel + 1, state, output, written, blockIndex =>
    if written < output.length then
      let block := rateBlock state
      let take := min (output.length - written) rateBytes
      let output := overwrite output written (block.take take)
      let written := written + take
      if written < output.length then
        let blockIndex := blockIndex + 1
        squeezeLoop fuel (nextState state blockIndex) output written blockIndex
      else squeezeLoop fuel state output written blockIndex
    else output

def squeeze (state : State) (output : Bytes) : Bytes := squeezeLoop output.length state output 0 0

/-- The sponge behind all parts. -/
def absorbParts (key : FixedBytes 48) (domain : Domain) (parts : List Bytes) : KeyedSponge :=
  parts.foldl (fun sponge part => (sponge.absorb (toLE 8 part.length)).absorb part)
    (.new key domain)

/-- `output` is the buffer that is filled. -/
def prfParts (key : FixedBytes 48) (domain : Domain) (parts : List Bytes)
    (output : Bytes) : Bytes :=
  squeeze ((absorbParts key domain parts).finalize key output.length).state output

def deriveKey (masterKey : FixedBytes 48) (label context : Bytes) : FixedBytes 48 :=
  .of 48 (prfParts masterKey .keyDerivation [label, context] (List.replicate keySize 0))

def mac32 (key : FixedBytes 48) (domain : Domain) (parts : List Bytes) : FixedBytes 32 :=
  .of 32 (prfParts key domain parts (List.replicate tagSize 0))

/-! ## The sponge in one shot

The definition the code is compared with.  It has no buffer and no loop over lanes: a state is
written word for word, and shares nothing with the sponge above but the permutation and its
constants. -/

/-- `0x01` behind the input, `0x80` at the end of the block: the same byte if there is just one. -/
def padding (m : ℕ) : Bytes :=
  ((List.replicate m (0 : UInt8)).modify 0 (· ^^^ 0x01)).modify (m - 1) (· ^^^ 0x80)

/-- The input, padded to whole blocks. -/
def padded (t : Bytes) : Bytes := t ++ padding (rateBytes - t.length % rateBytes)

/-- The blocks of an input. -/
def inputBlocks (t : Bytes) : List Bytes :=
  chunks rateBytes ((padded t).length / rateBytes) (padded t)

namespace OneShot

/-- The words of a block or a key, least byte first. -/
def words (bytes : Bytes) (lane : ℕ) : Word :=
  BitVec.ofNat 64 (fromLE (slice bytes (8 * lane) 8))

/-- The keyed initial state: the key into both rails, the domain into the first word and the size of
a key into the last. -/
def initial (key : FixedBytes 48) (domain : Domain) : State :=
  let s := iv.get
  let k := words key.val
  permute #v[
    (s 0 + (k 0).rotateLeft 7) ^^^ domain.word, s 1 + (k 1).rotateLeft 16,
    s 2 + (k 2).rotateLeft 25, s 3 + (k 3).rotateLeft 34, s 4 + (k 4).rotateLeft 43,
    s 5 + (k 5).rotateLeft 52, s 6 ^^^ k 0, s 7 ^^^ k 1, s 8 ^^^ k 2, s 9 ^^^ k 3, s 10 ^^^ k 4,
    (s 11 ^^^ k 5) ^^^ (48 <<< 32)]

/-- A block, xored into the first six words. -/
def block (state : State) (bytes : Bytes) : State :=
  let s := state.get
  let w := words bytes
  permute #v[
    s 0 ^^^ w 0, s 1 ^^^ w 1, s 2 ^^^ w 2, s 3 ^^^ w 3, s 4 ^^^ w 4, s 5 ^^^ w 5, s 6, s 7, s 8,
    s 9, s 10, s 11]

/-- The finalisation: the two lengths into the first two words, and the key again into the last
six. -/
def final (key : FixedBytes 48) (absorbed n : ℕ) (state : State) : State :=
  let s := state.get
  let k := words key.val
  permute #v[
    s 0 ^^^ BitVec.ofNat 64 absorbed, s 1 ^^^ BitVec.ofNat 64 n, s 2, s 3, s 4, s 5, s 6 ^^^ k 0,
    s 7 ^^^ k 1, s 8 ^^^ k 2, s 9 ^^^ k 3, s 10 ^^^ k 4, (s 11 ^^^ k 5) ^^^ 0x8000000000000001]

/-- The state behind the block of output number `i`: its number tweaks the last two words. -/
def tweak (state : State) (i : ℕ) : State :=
  let s := state.get
  permute #v[
    s 0, s 1, s 2, s 3, s 4, s 5, s 6, s 7, s 8, s 9, s 10 ^^^ BitVec.ofNat 64 i,
    s 11 + 0x9e3779b97f4a7c15]

/-- The state the block of output number `i` is read from. -/
def squeezed (state : State) : ℕ → State
  | 0 => state
  | i + 1 => tweak (squeezed state i) (i + 1)

/-- A block of output: the first six words, least byte first. -/
def bytes (state : State) : Bytes :=
  let s := state.get
  toLE 8 (s 0).toNat ++ toLE 8 (s 1).toNat ++ toLE 8 (s 2).toNat ++ toLE 8 (s 3).toNat ++
    toLE 8 (s 4).toNat ++ toLE 8 (s 5).toNat

end OneShot

/-- The first `n` blocks of output. -/
def squeezedBlocks (state : State) (n : ℕ) : Bytes :=
  (List.range n).flatMap fun i => OneShot.bytes (OneShot.squeezed state i)

/-- **The one-shot definition.** -/
def prfOneShot (key : FixedBytes 48) (domain : Domain) (parts : List Bytes) (n : ℕ) : Bytes :=
  let input := parts.flatMap fun part => toLE 8 part.length ++ part
  let state := (inputBlocks input).foldl OneShot.block (OneShot.initial key domain)
  let state := OneShot.final key input.length n state
  (squeezedBlocks state (n / rateBytes + 1)).take n

/-! ## The steps of the code are those of the definition -/

theorem finRange_six : List.finRange 6 = [0, 1, 2, 3, 4, 5] := by
  decide

/-- States are equal when their words are. -/
theorem state_ext {a b : State} (h : ∀ k : Fin 12, a[k] = b[k]) : a = b :=
  Vector.ext fun k hk => h ⟨k, hk⟩

theorem initialState_eq (key : FixedBytes 48) (domain : Domain) :
    initialState key domain = OneShot.initial key domain := by
  refine congrArg permute (state_ext fun k => ?_)
  simp only [finRange_six, List.foldl_cons, List.foldl_nil]
  fin_cases k <;> simp [rateWords, keySize, OneShot.words, laneWord, Vector.get]

theorem absorbBlock_eq : absorbBlock = OneShot.block := by
  funext state block
  refine congrArg permute (state_ext fun k => ?_)
  simp only [xorRate, finRange_six, List.foldl_cons, List.foldl_nil]
  fin_cases k <;> simp [OneShot.words, laneWord, Vector.get]

theorem finalState_eq (key : FixedBytes 48) (absorbed n : ℕ) (state : State) :
    finalState key (BitVec.ofNat 64 absorbed) (BitVec.ofNat 64 n) state =
      OneShot.final key absorbed n state := by
  refine congrArg permute (state_ext fun k => ?_)
  simp only [finRange_six, List.foldl_cons, List.foldl_nil]
  fin_cases k <;> simp [rateWords, OneShot.words, laneWord, Vector.get]

theorem nextState_eq (state : State) (i : ℕ) :
    nextState state (BitVec.ofNat 64 i) = OneShot.tweak state i := by
  refine congrArg permute (state_ext fun k => ?_)
  fin_cases k <;> simp [Vector.get]

theorem rateBlock_eq (state : State) : rateBlock state = OneShot.bytes state := by
  simp [rateBlock, OneShot.bytes, finRange_six, Vector.get]

/-! ## Absorbing -/

/-- The sponge is where the input `t` takes it. -/
structure Absorbed (key : FixedBytes 48) (domain : Domain) (t : Bytes) (sponge : KeyedSponge) :
    Prop where
  position : sponge.position = t.length % rateBytes
  buffer : sponge.buffer = t.drop (t.length / rateBytes * rateBytes) ++
    List.replicate (rateBytes - t.length % rateBytes) 0
  committed : sponge.committed = chunks rateBytes (t.length / rateBytes) t
  state : sponge.state = sponge.committed.foldl absorbBlock (initialState key domain)
  absorbed : sponge.absorbed = BitVec.ofNat 64 t.length

variable {key : FixedBytes 48} {domain : Domain} {t : Bytes} {sponge : KeyedSponge}

theorem rateBytes_eq : rateBytes = 48 := rfl

@[simp] theorem KeyedSponge.state_commitBlock (sponge : KeyedSponge) :
    sponge.commitBlock.state = absorbBlock sponge.state sponge.buffer := rfl

@[simp] theorem KeyedSponge.buffer_commitBlock (sponge : KeyedSponge) :
    sponge.commitBlock.buffer = List.replicate rateBytes 0 := rfl

@[simp] theorem KeyedSponge.position_commitBlock (sponge : KeyedSponge) :
    sponge.commitBlock.position = 0 := rfl

@[simp] theorem KeyedSponge.absorbed_commitBlock (sponge : KeyedSponge) :
    sponge.commitBlock.absorbed = sponge.absorbed := rfl

@[simp] theorem KeyedSponge.committed_commitBlock (sponge : KeyedSponge) :
    sponge.commitBlock.committed = sponge.committed ++ [sponge.buffer] := rfl

theorem absorbed_new : Absorbed key domain [] (.new key domain) := by
  refine ⟨rfl, rfl, rfl, rfl, rfl⟩

/-- A sponge indexes its buffer inside. -/
theorem Absorbed.position_lt (h : Absorbed key domain t sponge) : sponge.position < rateBytes := by
  rw [h.position]
  exact Nat.mod_lt _ (by decide)

/-- **Bytes that fit in the buffer** take the sponge on. -/
theorem Absorbed.fill {bytes : Bytes} (h : Absorbed key domain t sponge)
    (hfits : sponge.position + bytes.length ≤ rateBytes) :
    Absorbed key domain (t ++ bytes) (sponge.fill bytes) := by
  have hposition := h.position
  have hrest : (t.drop (t.length / rateBytes * rateBytes)).length = t.length % rateBytes := by
    rw [List.length_drop, Nat.mod_eq_sub_div_mul]
  have hroom : t.length / rateBytes * rateBytes ≤ t.length := Nat.div_mul_le_self _ _
  have hbuffer : overwrite sponge.buffer sponge.position bytes =
      (t ++ bytes).drop (t.length / rateBytes * rateBytes) ++
        List.replicate (rateBytes - t.length % rateBytes - bytes.length) 0 := by
    rw [h.buffer, hposition, ← hrest, overwrite_append_replicate (by rw [hrest]; omega),
      List.drop_append_of_le_length hroom]
  have habsorbed : sponge.absorbed + BitVec.ofNat 64 bytes.length =
      BitVec.ofNat 64 (t ++ bytes).length := by
    rw [h.absorbed, List.length_append, BitVec.ofNat_add]
  have hlen : (t ++ bytes).length = t.length + bytes.length := List.length_append
  have hcommitted := h.committed
  unfold KeyedSponge.fill
  dsimp only
  rw [hbuffer]
  rw [rateBytes_eq] at *
  split
  · next hfull =>
    -- the buffer is the next block
    have hquot : (t ++ bytes).length / 48 = t.length / 48 + 1 := by omega
    have hmod : (t ++ bytes).length % 48 = 0 := by omega
    have hblock : (t ++ bytes).drop (t.length / 48 * 48) ++
        List.replicate (48 - t.length % 48 - bytes.length) 0 =
          slice (t ++ bytes) (t.length / 48 * 48) 48 := by
      rw [slice, List.take_of_length_le (by rw [List.length_drop]; omega),
        show 48 - t.length % 48 - bytes.length = 0 by omega, List.replicate_zero, List.append_nil]
    refine ⟨?_, ?_, ?_, ?_, habsorbed⟩
    · rw [KeyedSponge.position_commitBlock, rateBytes_eq, hmod]
    · rw [KeyedSponge.buffer_commitBlock, rateBytes_eq, hmod,
        List.drop_of_length_le (show (t ++ bytes).length ≤ (t ++ bytes).length / 48 * 48 by omega),
        List.nil_append]
    · rw [KeyedSponge.committed_commitBlock, rateBytes_eq, hquot, chunks_succ,
        chunks_append _ hroom, hcommitted, hblock]
    · rw [KeyedSponge.committed_commitBlock, KeyedSponge.state_commitBlock, List.foldl_append,
        ← h.state, List.foldl_cons, List.foldl_nil]
  · next hpartial =>
    have hquot : (t ++ bytes).length / 48 = t.length / 48 := by omega
    have hmod : (t ++ bytes).length % 48 = t.length % 48 + bytes.length := by omega
    refine ⟨?_, ?_, ?_, h.state, habsorbed⟩
    · rw [rateBytes_eq, hmod, hposition]
    · rw [rateBytes_eq, hmod, hquot, Nat.sub_sub]
    · rw [rateBytes_eq, hquot, chunks_append _ hroom, hcommitted]

/-- **Absorbing** takes the sponge on, wherever the buffer stands. -/
theorem Absorbed.absorbLoop {fuel : ℕ} {input : Bytes} (h : Absorbed key domain t sponge)
    (hfuel : input.length ≤ fuel) :
    Absorbed key domain (t ++ input) (sponge.absorbLoop fuel input) := by
  induction fuel generalizing t sponge input with
  | zero =>
    obtain rfl : input = [] := List.length_eq_zero_iff.mp (Nat.le_zero.mp hfuel)
    rw [List.append_nil]
    exact h
  | succ fuel ih =>
    rw [KeyedSponge.absorbLoop]
    by_cases hempty : input = []
    · subst hempty
      rw [List.append_nil]
      exact h
    have hpos := List.length_pos_iff.mpr hempty
    have hlt := h.position_lt
    rw [if_neg (by rw [List.isEmpty_iff]; exact hempty)]
    generalize htake : min (rateBytes - sponge.position) input.length = take
    have hlen : (input.take take).length = take := by
      rw [List.length_take]
      omega
    have hfilled : Absorbed key domain (t ++ input.take take) (sponge.fill (input.take take)) :=
      h.fill (by omega)
    have hnext := ih hfilled (show (input.drop take).length ≤ fuel by rw [List.length_drop]; omega)
    rw [List.append_assoc, List.take_append_drop] at hnext
    exact hnext

theorem Absorbed.absorb (h : Absorbed key domain t sponge) (input : Bytes) :
    Absorbed key domain (t ++ input) (sponge.absorb input) := h.absorbLoop le_rfl

/-- Behind all parts, the sponge is where their frame takes it. -/
theorem absorbed_parts (key : FixedBytes 48) (domain : Domain) (parts : List Bytes) :
    Absorbed key domain (frame 8 parts) (absorbParts key domain parts) := by
  induction parts using List.reverseRecOn with
  | nil => exact absorbed_new
  | append_singleton parts part ih =>
    have hframe : frame 8 (parts ++ [part]) = frame 8 parts ++ toLE 8 part.length ++ part := by
      rw [frame, List.flatMap_append, List.flatMap_cons, List.flatMap_nil, List.append_nil,
        ← List.append_assoc]
      rfl
    rw [hframe, absorbParts, List.foldl_append]
    exact (ih.absorb _).absorb part

/-! ## Finishing -/

theorem length_padded (t : Bytes) : (padded t).length = (t.length / rateBytes + 1) * rateBytes := by
  have hpadding : ∀ m, (padding m).length = m := fun m => by
    rw [padding, List.length_modify, List.length_modify, List.length_replicate]
  rw [padded, List.length_append, hpadding, rateBytes_eq]
  omega

theorem inputBlocks_eq (t : Bytes) :
    inputBlocks t = chunks rateBytes (t.length / rateBytes + 1) (padded t) := by
  rw [inputBlocks, length_padded, Nat.mul_div_cancel _ (by decide)]

/-- **The last block** is the rest of the input with the padding. -/
theorem Absorbed.finalize (h : Absorbed key domain t sponge) (n : ℕ) :
    (sponge.finalize key n).committed = inputBlocks t ∧
      (sponge.finalize key n).state = finalState key (BitVec.ofNat 64 t.length) (BitVec.ofNat 64 n)
        ((inputBlocks t).foldl absorbBlock (initialState key domain)) := by
  have hmod : t.length % rateBytes < rateBytes := Nat.mod_lt _ (by decide)
  have hroom : t.length / rateBytes * rateBytes ≤ t.length := Nat.div_mul_le_self _ _
  have hrest : (t.drop (t.length / rateBytes * rateBytes)).length = t.length % rateBytes := by
    rw [List.length_drop, Nat.mod_eq_sub_div_mul]
  have hbuffer : (sponge.buffer.modify sponge.position (· ^^^ 0x01)).modify (rateBytes - 1)
    (· ^^^ 0x80) =
      slice (padded t) (t.length / rateBytes * rateBytes) rateBytes := by
    rw [h.buffer, h.position, ← hrest, ← Nat.add_zero (List.length (t.drop _)), modify_append,
      Nat.add_zero, hrest,
      show rateBytes - 1 = (t.drop (t.length / rateBytes * rateBytes)).length +
        (rateBytes - t.length % rateBytes - 1) by omega, modify_append, slice, padded,
      List.drop_append_of_le_length hroom, List.take_of_length_le]
    · rfl
    · rw [List.length_append, hrest, padding, List.length_modify, List.length_modify,
        List.length_replicate]
      omega
  have hcommitted :
    sponge.committed ++ [slice (padded t) (t.length / rateBytes * rateBytes) rateBytes] =
      inputBlocks t := by
    rw [inputBlocks_eq, chunks_succ, h.committed, padded, chunks_append _ hroom]
  unfold KeyedSponge.finalize
  dsimp only
  rw [hbuffer]
  constructor
  · rw [KeyedSponge.committed_commitBlock, hcommitted]
  · rw [KeyedSponge.state_commitBlock, KeyedSponge.absorbed_commitBlock, h.absorbed, ← hcommitted,
      List.foldl_append, ← h.state, List.foldl_cons, List.foldl_nil]

/-! ## Squeezing -/

@[simp] theorem length_rateBlock (state : State) : (rateBlock state).length = rateBytes := by
  rw [rateBlock, List.length_flatMap]
  simp only [length_toLE]
  rfl

theorem squeezedBlocks_succ (state : State) (n : ℕ) :
    squeezedBlocks state (n + 1) =
      squeezedBlocks state n ++ rateBlock (OneShot.squeezed state n) := by
  rw [squeezedBlocks, List.range_succ, List.flatMap_append, List.flatMap_cons, List.flatMap_nil,
    List.append_nil, rateBlock_eq]
  rfl

@[simp] theorem length_squeezedBlocks (state : State) (n : ℕ) :
    (squeezedBlocks state n).length = n * rateBytes := by
  induction n with
  | zero => rw [Nat.zero_mul]; rfl
  | succ n ih => rw [squeezedBlocks_succ, List.length_append, ih, length_rateBlock, Nat.succ_mul]

/-- More blocks do not change the first ones. -/
theorem squeezedBlocks_take (state : State) {n k : ℕ} (len : ℕ) (hn : len ≤ n * rateBytes)
    (hk : n ≤ k) : (squeezedBlocks state k).take len = (squeezedBlocks state n).take len := by
  induction k, hk using Nat.le_induction with
  | base => rfl
  | succ k hk ih =>
    have hle : n * rateBytes ≤ k * rateBytes := Nat.mul_le_mul_right _ hk
    rw [squeezedBlocks_succ,
      List.take_append_of_le_length (by rw [length_squeezedBlocks]; omega), ih]

/-- A full output is left alone. -/
theorem squeezeLoop_full (fuel : ℕ) (state : State) (output : Bytes) (blockIndex : Word) :
    squeezeLoop fuel state output output.length blockIndex = output := by
  cases fuel with
  | zero => rfl
  | succ fuel => rw [squeezeLoop, if_neg (Nat.lt_irrefl _)]

/-- **The squeezing loop** writes block after block, and the part of the last one that is asked
for. -/
theorem squeezeLoop_eq (state : State) {fuel i : ℕ} {output : Bytes}
    (hi : i * rateBytes < output.length) (hfuel : output.length - i * rateBytes ≤ fuel)
    (hwritten : output.take (i * rateBytes) = squeezedBlocks state i) :
    squeezeLoop fuel (OneShot.squeezed state i) output (i * rateBytes) (BitVec.ofNat 64 i) =
      (squeezedBlocks state (output.length / rateBytes + 1)).take output.length := by
  induction fuel generalizing i output with
  | zero => omega
  | succ fuel ih =>
    rw [squeezeLoop, if_pos hi]
    dsimp only
    generalize htake : min (output.length - i * rateBytes) rateBytes = take
    have htake_pos : 0 < take := by
      rw [rateBytes_eq] at *
      omega
    have hblock : ((rateBlock (OneShot.squeezed state i)).take take).length = take := by
      rw [List.length_take, length_rateBlock]
      omega
    have hne : (rateBlock (OneShot.squeezed state i)).take take ≠ [] :=
      List.length_pos_iff.mp (by omega)
    generalize hoverwrite : overwrite output (i * rateBytes)
      ((rateBlock (OneShot.squeezed state i)).take take) =
      output'
    have hlen : output'.length = output.length := by
      rw [← hoverwrite, length_overwrite hne]
      omega
    have hprefix : output'.take (i * rateBytes + take) =
        squeezedBlocks state i ++ (rateBlock (OneShot.squeezed state i)).take take := by
      rw [← hoverwrite, overwrite, if_neg hne, resize, hwritten,
        show i * rateBytes - output.length = 0 by omega, List.replicate_zero, List.append_nil,
        ← List.append_assoc, List.take_append_of_le_length, List.take_of_length_le]
      · rw [List.length_append, length_squeezedBlocks, hblock]
      · rw [List.length_append, length_squeezedBlocks, hblock]
    split
    · next hmore =>
      -- the block is whole
      have hfull : take = rateBytes := by omega
      subst hfull
      have hnext : (i + 1) * rateBytes = i * rateBytes + rateBytes := Nat.succ_mul _ _
      have hindex : BitVec.ofNat 64 i + 1 = BitVec.ofNat 64 (i + 1) := (BitVec.ofNat_add i 1).symm
      have hstate : nextState (OneShot.squeezed state i) (BitVec.ofNat 64 (i + 1)) =
          OneShot.squeezed state (i + 1) := nextState_eq _ _
      rw [hindex, hstate, ← hnext]
      rw [ih (by omega) (by omega), hlen]
      rw [hnext, hprefix, squeezedBlocks_succ, List.take_of_length_le (length_rateBlock _).le]
    · next hend =>
      have hlast : i * rateBytes + take = output'.length := by omega
      rw [hlast, squeezeLoop_full]
      have hwhole :
        output' = squeezedBlocks state i ++ (rateBlock (OneShot.squeezed state i)).take take := by
        rw [← hprefix, hlast, List.take_length]
      have hblocks : output.length ≤ (i + 1) * rateBytes := by
        rw [Nat.succ_mul]
        omega
      have hcount : i + 1 ≤ output.length / rateBytes + 1 :=
        Nat.succ_le_succ ((Nat.le_div_iff_mul_le (by decide)).mpr hi.le)
      rw [squeezedBlocks_take state output.length hblocks hcount, squeezedBlocks_succ, ← hlen,
        ← hlast, hwhole, ← length_squeezedBlocks state i, List.take_length_add_append]

theorem squeeze_eq (state : State) (output : Bytes) :
    squeeze state output =
      (squeezedBlocks state (output.length / rateBytes + 1)).take output.length := by
  by_cases hempty : output = []
  · subst hempty
    rfl
  have hpos := List.length_pos_iff.mpr hempty
  have hstart : 0 * rateBytes < output.length := by omega
  have hloop := squeezeLoop_eq state hstart (Nat.sub_le _ _) rfl
  rw [Nat.zero_mul] at hloop
  exact hloop

/-- The output fills its buffer. -/
@[simp] theorem length_prfParts (key : FixedBytes 48) (domain : Domain) (parts : List Bytes)
    (output : Bytes) : (prfParts key domain parts output).length = output.length := by
  rw [prfParts, squeeze_eq, List.length_take, length_squeezedBlocks, rateBytes_eq]
  omega

/-! ## The two theorems -/

/-- **`prf_parts` is its one-shot definition**, whatever is in the buffer it fills, and the buffer
of the sponge is never full when the padding goes into it. -/
theorem prfParts_eq (key : FixedBytes 48) (domain : Domain) (parts : List Bytes) (output : Bytes) :
    prfParts key domain parts output = prfOneShot key domain parts output.length ∧
      (absorbParts key domain parts).position < rateBytes := by
  have habsorbed := absorbed_parts key domain parts
  refine ⟨?_, habsorbed.position_lt⟩
  rw [prfParts, squeeze_eq, (habsorbed.finalize output.length).2, finalState_eq, absorbBlock_eq,
    initialState_eq, prfOneShot, frame]

/-- The permutation loses nothing. -/
theorem permute_injective : Function.Injective permute :=
  Function.LeftInverse.injective (g := invert) fun state =>
    InPlaceLoop.foldl_reverse_cancel (fun round _ s => roundInverse_roundForward s round) state

theorem Domain.word_injective : Function.Injective Domain.word := by
  intro domain domain'
  cases domain <;> cases domain' <;> decide

/-- **The initial state gives the domain**, whose word is mixed into lane 0 alone. -/
theorem initialState_injective {domain domain' : Domain}
    (h : initialState key domain = initialState key domain') : domain = domain' := by
  have hpermuted := permute_injective h
  have hlane := congrArg (fun state : State => state[0]) hpermuted
  simp only [Vector.getElem_set] at hlane
  exact Domain.word_injective (by simpa using hlane)

/-- **The blocks and the length give the input.** -/
theorem inputBlocks_injective {t t' : Bytes} (hlen : t.length = t'.length)
    (h : inputBlocks t = inputBlocks t') : t = t' := by
  have hflat : ∀ t, (inputBlocks t).flatten.take t.length = t := fun t => by
    rw [inputBlocks_eq, flatten_chunks, ← length_padded, List.take_length, padded, List.take_left]
  rw [← hflat t, ← hflat t', h, hlen]

/-- **What is absorbed determines the input**: if, under one key, the initial states, the blocks
mixed into the rate and the two lengths of the last step coincide, then so do the domains, the parts
and the lengths of the output. -/
theorem absorbed_input_injective (key : FixedBytes 48) (domain domain' : Domain)
    (parts parts' : List Bytes) (n n' : UInt64)
    (hlen : (frame 8 parts).length < 2 ^ 64) (hlen' : (frame 8 parts').length < 2 ^ 64)
    (hstate : (KeyedSponge.new key domain).state = (KeyedSponge.new key domain').state)
    (hblocks : ((absorbParts key domain parts).finalize key n.toNat).committed =
      ((absorbParts key domain' parts').finalize key n'.toNat).committed)
    (habsorbed : (absorbParts key domain parts).absorbed =
      (absorbParts key domain' parts').absorbed)
    (hout : BitVec.ofNat 64 n.toNat = BitVec.ofNat 64 n'.toNat) :
    domain = domain' ∧ parts = parts' ∧ n = n' := by
  have h := absorbed_parts key domain parts
  have h' := absorbed_parts key domain' parts'
  have hlength : (frame 8 parts).length = (frame 8 parts').length := by
    rw [h.absorbed, h'.absorbed] at habsorbed
    have hnat := congrArg BitVec.toNat habsorbed
    rwa [BitVec.toNat_ofNat, BitVec.toNat_ofNat, Nat.mod_eq_of_lt hlen,
      Nat.mod_eq_of_lt hlen'] at hnat
  have hframe : frame 8 parts = frame 8 parts' := by
    rw [(h.finalize n.toNat).1, (h'.finalize n'.toNat).1] at hblocks
    exact inputBlocks_injective hlength hblocks
  have hparts : parts = parts' :=
    frame_injective (w := 8) (by decide) (fun _ hp => (length_le_of_mem hp).trans_lt hlen)
      (fun _ hp => (length_le_of_mem hp).trans_lt hlen') hframe
  have hlengths : n = n' := by
    have hnat := congrArg BitVec.toNat hout
    rw [BitVec.toNat_ofNat, BitVec.toNat_ofNat, Nat.mod_eq_of_lt n.toNat_lt,
      Nat.mod_eq_of_lt n'.toNat_lt] at hnat
    exact UInt64.toNat_inj.mp hnat
  exact ⟨initialState_injective hstate, hparts, hlengths⟩

/-- The theorem at an input of two parts, the second of them empty. -/
theorem absorbed_input_injective_twoParts :
    let key := FixedBytes.of 48 []
    Domain.stream = Domain.stream ∧ [[1, 2], []] = [[1, 2], ([] : Bytes)] ∧ (5 : UInt64) = 5 ∧
      (absorbParts key .stream [[1, 2], []]).absorbed = 18 := by
  intro key
  have h := absorbed_input_injective key .stream .stream [[1, 2], []] [[1, 2], []] 5 5
    (by decide) (by decide) rfl rfl rfl rfl
  exact ⟨h.1, h.2.1, h.2.2, (absorbed_parts key .stream [[1, 2], []]).absorbed⟩

end Core
end OrIsyVra
