import OrIsyVra.Library.InPlaceLoop
import Mathlib.Data.Fintype.Basic

/-!
# The P768 permutation

`crates/orisyvra-core/src/permutation.rs` and the round constants of `constants.rs`.

The state is twelve 64-bit words, read as two rails of six lanes: the collision rail and the wave
rail.  A round injects constants, updates three scheduled pairs of collision lanes, sweeps the wave
rail *in place* (each lane reads a neighbour that the same sweep has already overwritten and one it
has not), kicks each rail with the other, rotates every lane by a round-dependent amount and
shuffles the lanes of each rail.

The inverse undoes these layers in the reverse order, and runs every in-place loop backwards.  Each
layer is a definition of its own with the lemma that its inverse layer undoes it, in both orders;
`roundInverse_roundForward` and `roundForward_roundInverse` chain them, and the round loop is
`InPlaceLoop.foldl_reverse_cancel`.  The lane arithmetic `(lane + 5) % 6` of the source is addition
in `Fin 6`.
-/

namespace OrIsyVra
namespace Core

open InPlaceLoop

/-- A 64-bit word.  `+` and `-` wrap, as `wrapping_add` and `wrapping_sub` do. -/
abbrev Word := BitVec 64

/-- Number of words of the rate: the collision rail. -/
def rateWords : ℕ := 6

/-- Number of bytes of the rate. -/
def rateBytes : ℕ := rateWords * 8

/-- Number of rounds of the full permutation. -/
def rounds : ℕ := 18

/-- The six lanes of one rail. -/
abbrev Lanes := Vector Word 6

/-- The full state. -/
abbrev State := Vector Word 12

/-! ## Constants -/

/-- The initial state of the keyed sponge. -/
def iv : State := #v[
  0x49a061ae9c668168, 0x2b99fc2210677971, 0x4c11c3fa7a156089, 0x11ef6319c60ac91a,
  0x3e89e2cbf0546d31, 0x136cad03d220bb36, 0x20031540c1648278, 0x276fbe30e486f7ec,
  0xdd61dffb67ff9144, 0xb2457a11a44132be, 0xe8949238b1814b05, 0x138e70ba340a6986]

/-- Round constants of lane 0 of the collision rail. -/
def rcA : Vector Word 18 := #v[
  0x1853422e4732c6ed, 0xd84552874d2c4a4d, 0x682a25cb2e78c9fd, 0x9e41a881b8f7397e,
  0x93266e603b67330a, 0x28b0d2d39e46889d, 0x514f7bcfbd79f938, 0x2144bdddb649e982,
  0x3069f197a63b435f, 0x7cf3370e57a81a4d, 0x34dddff26d5bad1d, 0xfe9ac5d67c20308e,
  0x12901fb3b7a2bace, 0x631c5129f70df08d, 0x7a91d014981f9f21, 0x8f0d8d293296178c,
  0xf074cffdf23eb10d, 0xb248ec68016403f4]

/-- Round constants of lane 5 of the wave rail. -/
def rcB : Vector Word 18 := #v[
  0x13d4c46f19b1c4bb, 0x1244e9766b6c0e92, 0xca1f7d739867358c, 0x3a4fc6fd812ab6e3,
  0x6a92b19686339f29, 0x613bc16326161de8, 0xaeb91dfcb0c4d4fc, 0x98acdbb1563e8f8f,
  0x3e555cfcfb45db74, 0xcf6402ae9650f7e4, 0xb93c472ceafebd32, 0x9456427f77d47945,
  0x4f7203e90e93ce75, 0x5c845b46e100b229, 0x666784d5a5d33db0, 0xcfc246c11453c8f8,
  0x1b67f30266c06728, 0x157d332d5aab69ae]

/-- Round constants of lane 3 of the collision rail. -/
def rcC : Vector Word 18 := #v[
  0x70b2dfe57b0c7cc5, 0xd4952297a29240d5, 0x57509efca5f7f18d, 0xc2525369a0d0653d,
  0x3ce5872110578eb9, 0xef8b52c07f3b7fa8, 0xcd80cf4f1815118d, 0x111b5dddb8e37e1c,
  0x675b5bd9d1936d68, 0x1619e844675479db, 0x5c6f0535558d3c83, 0xb204824f129d8eda,
  0x025a9eedce6e832c, 0x0bbb1f15f4bc8cc8, 0xef6afc7d0e422f1e, 0x36cf6e7ee9c4e0ce,
  0xa7a998e432c17646, 0x1682a4907b2f1e4f]

/-- The collision pairs of the three schedules. -/
def pairings : Vector (Vector (Fin 6 × Fin 6) 3) 3 := #v[
  #v[(0, 1), (2, 3), (4, 5)],
  #v[(0, 2), (1, 4), (3, 5)],
  #v[(0, 3), (1, 5), (2, 4)]]

def cPerm : Vector (Vector (Fin 6) 6) 3 := #v[
  #v[1, 4, 2, 5, 0, 3], #v[2, 0, 5, 3, 1, 4], #v[3, 5, 1, 0, 4, 2]]

def wPerm : Vector (Vector (Fin 6) 6) 3 := #v[
  #v[5, 2, 0, 4, 1, 3], #v[4, 1, 3, 0, 5, 2], #v[2, 5, 1, 4, 0, 3]]

def cRot : Vector ℕ 6 := #v[7, 17, 29, 37, 47, 59]
def wRot : Vector ℕ 6 := #v[11, 23, 31, 41, 53, 61]
def waveLeftRot : Vector ℕ 6 := #v[5, 13, 19, 31, 43, 57]
def waveRightRot : Vector ℕ 6 := #v[3, 11, 27, 35, 49, 63]
def kickCRot : Vector ℕ 6 := #v[9, 21, 33, 45, 55, 15]
def kickWRot : Vector ℕ 6 := #v[7, 25, 39, 51, 17, 29]

/-- The round-dependent rotation amount, between 1 and 63. -/
def roundRot (base round lane stride : ℕ) : ℕ :=
  (base + round * stride + lane * 5) % 63 + 1

/-- The schedule of a round. -/
def schedule (round : ℕ) : Fin 3 := Fin.ofNat 3 round

/-! ## The collision layer -/

def collideForward (lanes : Lanes) (aIndex bIndex : Fin 6) (round pair : ℕ) : Lanes :=
  let a := lanes[aIndex]
  let b := lanes[bIndex]
  let r1 := roundRot 7 round pair 7
  let r2 := roundRot 19 round pair 11
  let r3 := roundRot 31 round pair 13
  let a := a + b.rotateLeft r1
  let b := b ^^^ a.rotateLeft r2
  let a := a.rotateLeft r3
  (lanes.set aIndex a).set bIndex b

def collideInverse (lanes : Lanes) (aIndex bIndex : Fin 6) (round pair : ℕ) : Lanes :=
  let a := lanes[aIndex]
  let b := lanes[bIndex]
  let r1 := roundRot 7 round pair 7
  let r2 := roundRot 19 round pair 11
  let r3 := roundRot 31 round pair 13
  let a := a.rotateRight r3
  let b := b ^^^ a.rotateLeft r2
  let a := a - b.rotateLeft r1
  (lanes.set aIndex a).set bIndex b

/-- Two lanes, overwritten and then written back. -/
theorem set_set_cancel (lanes : Lanes) (i j : Fin 6) (x y : Word) :
    ((((lanes.set i x).set j y).set i lanes[i]).set j lanes[j]) = lanes := by
  ext k hk
  simp only [Vector.getElem_set, Fin.getElem_fin]
  split_ifs with h1 h2
  · subst h1
    rfl
  · subst h2
    rfl
  · rfl

theorem collideInverse_collideForward (lanes : Lanes) {i j : Fin 6} (hij : i ≠ j)
    (round pair : ℕ) :
    collideInverse (collideForward lanes i j round pair) i j round pair = lanes := by
  have hne : (j : ℕ) ≠ i := fun h => hij (Fin.ext h.symm)
  conv_rhs => rw [← set_set_cancel lanes i j
    ((lanes[i] + lanes[j].rotateLeft (roundRot 7 round pair 7)).rotateLeft
      (roundRot 31 round pair 13))
    (lanes[j] ^^^ (lanes[i] + lanes[j].rotateLeft (roundRot 7 round pair 7)).rotateLeft
      (roundRot 19 round pair 11))]
  simp only [collideInverse, collideForward, Fin.getElem_fin, Vector.getElem_set_self,
    Vector.getElem_set_ne _ _ hne, rotateRight_rotateLeft, BitVec.xor_assoc, BitVec.xor_self,
    BitVec.xor_zero, BitVec.add_sub_cancel]

theorem collideForward_collideInverse (lanes : Lanes) {i j : Fin 6} (hij : i ≠ j)
    (round pair : ℕ) :
    collideForward (collideInverse lanes i j round pair) i j round pair = lanes := by
  have hne : (j : ℕ) ≠ i := fun h => hij (Fin.ext h.symm)
  conv_rhs => rw [← set_set_cancel lanes i j
    (lanes[i].rotateRight (roundRot 31 round pair 13) -
      (lanes[j] ^^^ (lanes[i].rotateRight (roundRot 31 round pair 13)).rotateLeft
        (roundRot 19 round pair 11)).rotateLeft (roundRot 7 round pair 7))
    (lanes[j] ^^^ (lanes[i].rotateRight (roundRot 31 round pair 13)).rotateLeft
      (roundRot 19 round pair 11))]
  simp only [collideInverse, collideForward, Fin.getElem_fin, Vector.getElem_set_self,
    Vector.getElem_set_ne _ _ hne, rotateLeft_rotateRight, BitVec.xor_assoc, BitVec.xor_self,
    BitVec.xor_zero, BitVec.sub_add_cancel]

/-- The three scheduled collisions, with their pair index. -/
def scheduledPairs (round : ℕ) : List ((Fin 6 × Fin 6) × ℕ) :=
  (pairings[schedule round]).toList.zipIdx

theorem pairings_ne : ∀ s : Fin 3, ∀ p ∈ (pairings[s]).toList.zipIdx, p.1.1 ≠ p.1.2 := by
  decide

theorem scheduledPairs_ne (round : ℕ) : ∀ p ∈ scheduledPairs round, p.1.1 ≠ p.1.2 :=
  pairings_ne (schedule round)

def collisionForward (round : ℕ) (collision : Lanes) : Lanes :=
  (scheduledPairs round).foldl (fun c p => collideForward c p.1.1 p.1.2 round p.2) collision

def collisionInverse (round : ℕ) (collision : Lanes) : Lanes :=
  (scheduledPairs round).reverse.foldl (fun c p => collideInverse c p.1.1 p.1.2 round p.2) collision

@[simp] theorem collisionInverse_collisionForward (round : ℕ) (c : Lanes) :
    collisionInverse round (collisionForward round c) = c :=
  foldl_reverse_cancel (fun p hp s =>
    collideInverse_collideForward s (scheduledPairs_ne round p hp) round p.2) c

@[simp] theorem collisionForward_collisionInverse (round : ℕ) (c : Lanes) :
    collisionForward round (collisionInverse round c) = c :=
  foldl_cancel_reverse (fun p hp s =>
    collideForward_collideInverse s (scheduledPairs_ne round p hp) round p.2) c

/-! ## Loops over the six lanes -/

/-- `for lane in 0..6`. -/
def laneLoop (step : Lanes → Fin 6 → Lanes) (lanes : Lanes) : Lanes :=
  (List.finRange 6).foldl step lanes

/-- `for lane in (0..6).rev()`. -/
def laneLoopRev (step : Lanes → Fin 6 → Lanes) (lanes : Lanes) : Lanes :=
  (List.finRange 6).reverse.foldl step lanes

theorem laneLoopRev_laneLoop {f g : Lanes → Fin 6 → Lanes} (h : ∀ i s, g (f s i) i = s)
    (lanes : Lanes) : laneLoopRev g (laneLoop f lanes) = lanes :=
  foldl_reverse_cancel (fun i _ s => h i s) lanes

theorem laneLoop_laneLoopRev {f g : Lanes → Fin 6 → Lanes} (h : ∀ i s, f (g s i) i = s)
    (lanes : Lanes) : laneLoop f (laneLoopRev g lanes) = lanes :=
  foldl_cancel_reverse (fun i _ s => h i s) lanes

/-! ## The wave sweep

Lane `lane` reads lanes `lane + 5` and `lane + 1`: never itself, which is what makes the step
invertible where it stands. -/

/-- What the sweep adds to a lane. -/
def waveImpulse (wave : Lanes) (lane : Fin 6) : Word :=
  wave[lane + 5].rotateLeft waveLeftRot[lane] ^^^ wave[lane + 1].rotateLeft waveRightRot[lane]

def waveForward (wave : Lanes) : Lanes :=
  laneLoop (fun wave lane => wave.set lane (wave[lane] + waveImpulse wave lane)) wave

def waveInverse (wave : Lanes) : Lanes :=
  laneLoopRev (fun wave lane => wave.set lane (wave[lane] - waveImpulse wave lane)) wave

theorem waveImpulse_set (wave : Lanes) (lane : Fin 6) (x : Word) :
    waveImpulse (wave.set lane x) lane = waveImpulse wave lane := by
  have h5 : ((lane : Fin 6) : ℕ) ≠ ((lane + 5 : Fin 6) : ℕ) := by
    revert lane
    decide
  have h1 : ((lane : Fin 6) : ℕ) ≠ ((lane + 1 : Fin 6) : ℕ) := by
    revert lane
    decide
  simp only [waveImpulse, Fin.getElem_fin, Vector.getElem_set_ne _ _ h5,
    Vector.getElem_set_ne _ _ h1]

@[simp] theorem waveInverse_waveForward (wave : Lanes) : waveInverse (waveForward wave) = wave :=
  laneLoopRev_laneLoop (fun lane wave => set_cancel wave lane lane.isLt _ _ (by
    simp only [waveImpulse_set, Fin.getElem_fin, Vector.getElem_set_self,
      BitVec.add_sub_cancel])) wave

@[simp] theorem waveForward_waveInverse (wave : Lanes) : waveForward (waveInverse wave) = wave :=
  laneLoop_laneLoopRev (fun lane wave => set_cancel wave lane lane.isLt _ _ (by
    simp only [waveImpulse_set, Fin.getElem_fin, Vector.getElem_set_self,
      BitVec.sub_add_cancel])) wave

/-! ## The cross-rail kicks -/

/-- `collision[lane] ^= wave[(lane + round + 1) % 6].rotate_left(KICK_C_ROT[lane])`. -/
def kickCollisionLane (round : ℕ) (wave collision : Lanes) (lane : Fin 6) : Lanes :=
  collision.set lane
    (collision[lane] ^^^ wave[lane + Fin.ofNat 6 round + 1].rotateLeft kickCRot[lane])

def kickCollision (round : ℕ) (wave collision : Lanes) : Lanes :=
  laneLoop (kickCollisionLane round wave) collision

def unkickCollision (round : ℕ) (wave collision : Lanes) : Lanes :=
  laneLoopRev (kickCollisionLane round wave) collision

theorem kickCollisionLane_twice (round : ℕ) (wave : Lanes) (lane : Fin 6) (collision : Lanes) :
    kickCollisionLane round wave (kickCollisionLane round wave collision lane) lane =
      collision := by
  refine set_cancel collision lane lane.isLt _ _ ?_
  simp only [kickCollisionLane, Fin.getElem_fin, Vector.getElem_set_self, BitVec.xor_assoc,
    BitVec.xor_self, BitVec.xor_zero]

@[simp] theorem unkickCollision_kickCollision (round : ℕ) (wave c : Lanes) :
    unkickCollision round wave (kickCollision round wave c) = c :=
  laneLoopRev_laneLoop (kickCollisionLane_twice round wave) c

@[simp] theorem kickCollision_unkickCollision (round : ℕ) (wave c : Lanes) :
    kickCollision round wave (unkickCollision round wave c) = c :=
  laneLoop_laneLoopRev (kickCollisionLane_twice round wave) c

/-- What the collision rail adds to lane `lane` of the wave rail. -/
def collisionImpulse (collision : Lanes) (lane : Fin 6) : Word :=
  (collision[lane + 2] ^^^ collision[lane + 5]).rotateLeft kickWRot[lane]

def kickWave (collision wave : Lanes) : Lanes :=
  laneLoop (fun wave lane => wave.set lane (wave[lane] + collisionImpulse collision lane)) wave

def unkickWave (collision wave : Lanes) : Lanes :=
  laneLoopRev (fun wave lane => wave.set lane (wave[lane] - collisionImpulse collision lane)) wave

@[simp] theorem unkickWave_kickWave (c wave : Lanes) : unkickWave c (kickWave c wave) = wave :=
  laneLoopRev_laneLoop (fun lane wave => set_cancel wave lane lane.isLt _ _ (by
    simp only [Fin.getElem_fin, Vector.getElem_set_self, BitVec.add_sub_cancel])) wave

@[simp] theorem kickWave_unkickWave (c wave : Lanes) : kickWave c (unkickWave c wave) = wave :=
  laneLoop_laneLoopRev (fun lane wave => set_cancel wave lane lane.isLt _ _ (by
    simp only [Fin.getElem_fin, Vector.getElem_set_self, BitVec.sub_add_cancel])) wave

/-! ## Lane rotations and lane shuffles -/

/-- The rotation half of the loop that rotates both rails, for one rail with its own table.  The two
rails do not read each other here, so the source's single loop is this loop on each rail. -/
def rotateLanes (rot : Vector ℕ 6) (stride round : ℕ) (lanes : Lanes) : Lanes :=
  laneLoop (fun lanes lane =>
    lanes.set lane (lanes[lane].rotateLeft (roundRot rot[lane] round lane stride))) lanes

/-- The same loop of the inverse round, which the source runs forwards as well. -/
def unrotateLanes (rot : Vector ℕ 6) (stride round : ℕ) (lanes : Lanes) : Lanes :=
  laneLoop (fun lanes lane =>
    lanes.set lane (lanes[lane].rotateRight (roundRot rot[lane] round lane stride))) lanes

/-- A loop that rewrites each lane from its own value alone is a map over the lanes. -/
theorem getElem_laneLoop (f : Fin 6 → Word → Word) (lanes : Lanes) (k : Fin 6) :
    (laneLoop (fun lanes lane => lanes.set lane (f lane lanes[lane])) lanes)[k] =
      f k lanes[k] := by
  have h := getElem_foldl_set (p := id) Function.injective_id f (List.nodup_finRange 6) lanes k
  rwa [if_pos (List.mem_finRange k)] at h

theorem getElem_rotateLanes (rot : Vector ℕ 6) (stride round : ℕ) (lanes : Lanes) (k : Fin 6) :
    (rotateLanes rot stride round lanes)[k] =
      lanes[k].rotateLeft (roundRot rot[k] round k stride) :=
  getElem_laneLoop (fun lane x => x.rotateLeft (roundRot rot[lane] round lane stride)) lanes k

theorem getElem_unrotateLanes (rot : Vector ℕ 6) (stride round : ℕ) (lanes : Lanes) (k : Fin 6) :
    (unrotateLanes rot stride round lanes)[k] =
      lanes[k].rotateRight (roundRot rot[k] round k stride) :=
  getElem_laneLoop (fun lane x => x.rotateRight (roundRot rot[lane] round lane stride)) lanes k

/-- Rails are equal when their lanes are. -/
theorem lanes_ext {a b : Lanes} (h : ∀ k : Fin 6, a[k] = b[k]) : a = b :=
  Vector.ext fun k hk => h ⟨k, hk⟩

@[simp] theorem unrotateLanes_rotateLanes (rot : Vector ℕ 6) (stride round : ℕ) (lanes : Lanes) :
    unrotateLanes rot stride round (rotateLanes rot stride round lanes) = lanes :=
  lanes_ext fun k => by
    rw [getElem_unrotateLanes, getElem_rotateLanes, rotateRight_rotateLeft]

@[simp] theorem rotateLanes_unrotateLanes (rot : Vector ℕ 6) (stride round : ℕ) (lanes : Lanes) :
    rotateLanes rot stride round (unrotateLanes rot stride round lanes) = lanes :=
  lanes_ext fun k => by
    rw [getElem_rotateLanes, getElem_unrotateLanes, rotateLeft_rotateRight]

/-- `lanes[output] = previous[permutation[output]]`. -/
def permuteWords (lanes : Lanes) (permutation : Vector (Fin 6) 6) : Lanes :=
  let previous := lanes
  laneLoop (fun lanes output => lanes.set output previous[permutation[output]]) lanes

/-- `lanes[permutation[output]] = previous[output]`. -/
def inversePermuteWords (lanes : Lanes) (permutation : Vector (Fin 6) 6) : Lanes :=
  let previous := lanes
  laneLoop (fun lanes output => lanes.set permutation[output] previous[output]) lanes

theorem getElem_permuteWords (lanes : Lanes) (permutation : Vector (Fin 6) 6) (k : Fin 6) :
    (permuteWords lanes permutation)[k] = lanes[permutation[k]] :=
  getElem_laneLoop (fun output _ => lanes[permutation[output]]) lanes k

theorem getElem_inversePermuteWords (lanes : Lanes) {permutation : Vector (Fin 6) 6}
    (hp : Function.Injective fun k : Fin 6 => permutation[k]) (k : Fin 6) :
    (inversePermuteWords lanes permutation)[permutation[k]] = lanes[k] := by
  have h := getElem_foldl_set hp (fun output _ => lanes[output]) (List.nodup_finRange 6) lanes k
  rwa [if_pos (List.mem_finRange k)] at h

theorem inversePermuteWords_permuteWords (lanes : Lanes) {permutation : Vector (Fin 6) 6}
    (hp : Function.Bijective fun k : Fin 6 => permutation[k]) :
    inversePermuteWords (permuteWords lanes permutation) permutation = lanes :=
  lanes_ext fun j => by
    obtain ⟨k, rfl⟩ := hp.surjective j
    rw [getElem_inversePermuteWords _ hp.injective, getElem_permuteWords]

theorem permuteWords_inversePermuteWords (lanes : Lanes) {permutation : Vector (Fin 6) 6}
    (hp : Function.Bijective fun k : Fin 6 => permutation[k]) :
    permuteWords (inversePermuteWords lanes permutation) permutation = lanes :=
  lanes_ext fun k => by
    rw [getElem_permuteWords, getElem_inversePermuteWords _ hp.injective]

/-- The tables of the lane shuffles are permutations. -/
theorem cPerm_bijective : ∀ s : Fin 3, Function.Bijective fun k : Fin 6 => cPerm[s][k] := by
  decide

theorem wPerm_bijective : ∀ s : Fin 3, Function.Bijective fun k : Fin 6 => wPerm[s][k] := by
  decide

/-! ## Rounds -/

/-- The two rails of a state. -/
structure Rails where
  collision : Lanes
  wave : Lanes

def splitState (state : State) : Rails where
  collision := Vector.ofFn fun k => state[(k : ℕ)]
  wave := Vector.ofFn fun k => state[6 + (k : ℕ)]

def joinState (rails : Rails) : State :=
  Vector.ofFn fun k => if h : (k : ℕ) < 6 then rails.collision[(k : ℕ)] else rails.wave[(k : ℕ) - 6]

@[simp] theorem splitState_joinState (rails : Rails) : splitState (joinState rails) = rails := by
  obtain ⟨c, w⟩ := rails
  simp only [splitState, joinState, Rails.mk.injEq]
  constructor
  · exact Vector.ext fun k _ => by simp
  · refine Vector.ext fun k _ => ?_
    simp only [Vector.getElem_ofFn, dif_neg (show ¬6 + k < 6 by omega), Nat.add_sub_cancel_left]

@[simp] theorem joinState_splitState (state : State) : joinState (splitState state) = state := by
  refine Vector.ext fun k hk => ?_
  simp only [joinState, splitState, Vector.getElem_ofFn]
  split
  · rfl
  · next h =>
    congr 1
    omega

/-- The constant injection at the start of a round. -/
def injectConstants (round : Fin rounds) (r : Rails) : Rails where
  collision :=
    let collision := r.collision.set 0 (r.collision[0] ^^^ rcA[round])
    collision.set 3 (collision[3] + rcC[round])
  wave := r.wave.set 5 (r.wave[5] ^^^ rcB[round])

/-- The same constants, removed at the end of an inverse round. -/
def removeConstants (round : Fin rounds) (r : Rails) : Rails where
  collision :=
    let collision := r.collision.set 3 (r.collision[3] - rcC[round])
    collision.set 0 (collision[0] ^^^ rcA[round])
  wave := r.wave.set 5 (r.wave[5] ^^^ rcB[round])

theorem xor_xor_self (x y : Word) : x ^^^ y ^^^ y = x := by
  rw [BitVec.xor_assoc, BitVec.xor_self, BitVec.xor_zero]

@[simp] theorem removeConstants_injectConstants (round : Fin rounds) (r : Rails) :
    removeConstants round (injectConstants round r) = r := by
  obtain ⟨c, w⟩ := r
  simp only [removeConstants, injectConstants, Rails.mk.injEq]
  constructor
  · refine Vector.ext fun k hk => ?_
    simp only [Vector.getElem_set]
    grind [xor_xor_self]
  · exact set_cancel w 5 (by decide) _ _ (by simp only [Vector.getElem_set_self, xor_xor_self])

@[simp] theorem injectConstants_removeConstants (round : Fin rounds) (r : Rails) :
    injectConstants round (removeConstants round r) = r := by
  obtain ⟨c, w⟩ := r
  simp only [removeConstants, injectConstants, Rails.mk.injEq]
  constructor
  · refine Vector.ext fun k hk => ?_
    simp only [Vector.getElem_set]
    grind [xor_xor_self]
  · exact set_cancel w 5 (by decide) _ _ (by simp only [Vector.getElem_set_self, xor_xor_self])

/-- One round, on the two rails. -/
def roundForwardRails (round : Fin rounds) (r : Rails) : Rails :=
  let r := injectConstants round r
  let collision := collisionForward round r.collision
  let wave := waveForward r.wave
  let collision := kickCollision round wave collision
  let wave := kickWave collision wave
  let collision := rotateLanes cRot 3 round collision
  let wave := rotateLanes wRot 5 round wave
  ⟨permuteWords collision cPerm[schedule round], permuteWords wave wPerm[schedule round]⟩

/-- One inverse round, on the two rails: the layers of the round in the reverse order. -/
def roundInverseRails (round : Fin rounds) (r : Rails) : Rails :=
  let collision := inversePermuteWords r.collision cPerm[schedule round]
  let wave := inversePermuteWords r.wave wPerm[schedule round]
  let collision := unrotateLanes cRot 3 round collision
  let wave := unrotateLanes wRot 5 round wave
  let wave := unkickWave collision wave
  let collision := unkickCollision round wave collision
  let wave := waveInverse wave
  let collision := collisionInverse round collision
  removeConstants round ⟨collision, wave⟩

def roundForward (state : State) (round : Fin rounds) : State :=
  joinState (roundForwardRails round (splitState state))

def roundInverse (state : State) (round : Fin rounds) : State :=
  joinState (roundInverseRails round (splitState state))

theorem roundInverseRails_roundForwardRails (round : Fin rounds) (r : Rails) :
    roundInverseRails round (roundForwardRails round r) = r := by
  simp only [roundInverseRails, roundForwardRails,
    inversePermuteWords_permuteWords _ (cPerm_bijective _),
    inversePermuteWords_permuteWords _ (wPerm_bijective _), unrotateLanes_rotateLanes,
    unkickWave_kickWave, unkickCollision_kickCollision, waveInverse_waveForward,
    collisionInverse_collisionForward]
  exact removeConstants_injectConstants round r

theorem roundForwardRails_roundInverseRails (round : Fin rounds) (r : Rails) :
    roundForwardRails round (roundInverseRails round r) = r := by
  simp only [roundInverseRails, roundForwardRails, injectConstants_removeConstants,
    collisionForward_collisionInverse, waveForward_waveInverse, kickCollision_unkickCollision,
    kickWave_unkickWave, rotateLanes_unrotateLanes,
    permuteWords_inversePermuteWords _ (cPerm_bijective _),
    permuteWords_inversePermuteWords _ (wPerm_bijective _)]

/-- **A round is undone by its inverse.** -/
theorem roundInverse_roundForward (state : State) (round : Fin rounds) :
    roundInverse (roundForward state round) round = state := by
  rw [roundInverse, roundForward, splitState_joinState, roundInverseRails_roundForwardRails,
    joinState_splitState]

/-- **An inverse round is undone by its round.** -/
theorem roundForward_roundInverse (state : State) (round : Fin rounds) :
    roundForward (roundInverse state round) round = state := by
  rw [roundInverse, roundForward, splitState_joinState, roundForwardRails_roundInverseRails,
    joinState_splitState]

/-! ## The permutation -/

/-- `for round in 0..ROUNDS`. -/
def permute (state : State) : State :=
  (List.finRange rounds).foldl roundForward state

/-- `for round in (0..ROUNDS).rev()`. -/
def invert (state : State) : State :=
  (List.finRange rounds).reverse.foldl roundInverse state

/-- The rounds `0..count` of the reduced permutation. -/
def firstRounds (count : ℕ) : List (Fin rounds) := (List.finRange rounds).take count

/-- The reduced permutation of the analysis feature; `none` is the failed assertion on the round
count. -/
def permuteRounds (state : State) (count : ℕ) : Option State :=
  if count ≤ rounds then some ((firstRounds count).foldl roundForward state) else none

def invertRounds (state : State) (count : ℕ) : Option State :=
  if count ≤ rounds then some ((firstRounds count).reverse.foldl roundInverse state) else none

theorem firstRounds_rounds : firstRounds rounds = List.finRange rounds :=
  List.take_of_length_le (by rw [List.length_finRange])

/-- **The reduced-round permutation is a bijection, with the stated inverse.**  For every state and
every admitted round count the two directions cancel in both orders, and the full permutation and
its inverse are the case of all rounds. -/
theorem permuteRounds_bijective (state : State) (count : Fin (rounds + 1)) :
    (permuteRounds state count).bind (invertRounds · count) = some state ∧
      (invertRounds state count).bind (permuteRounds · count) = some state ∧
      permuteRounds state rounds = some (permute state) ∧
      invertRounds state rounds = some (invert state) := by
  have hc : (count : ℕ) ≤ rounds := Nat.lt_succ_iff.mp count.isLt
  refine ⟨?_, ?_, ?_, ?_⟩
  · simp only [permuteRounds, invertRounds, if_pos hc, Option.bind_some]
    rw [foldl_reverse_cancel fun round _ s => roundInverse_roundForward s round]
  · simp only [permuteRounds, invertRounds, if_pos hc, Option.bind_some]
    rw [foldl_cancel_reverse fun round _ s => roundForward_roundInverse s round]
  · rw [permuteRounds, if_pos le_rfl, firstRounds_rounds, permute]
  · rw [invertRounds, if_pos le_rfl, firstRounds_rounds, invert]

end Core
end OrIsyVra
