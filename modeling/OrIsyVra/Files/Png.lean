import OrIsyVra.Library.MachineWord

/-!
# Chunks of a PNG

The key card hides a key capsule, and the PIN card a marker, in a private chunk of a PNG.  Two loops
walk the chunks: one looks for the first chunk of a type (`findChunk`), the other copies chunk by
chunk and puts a new one in front of `IEND` (`insertChunk`).  Both read the length field at a
cursor, give up when the chunk is cut short, and stop behind `IEND`; sizes are natural numbers, as
no sum here comes near the end of a 64-bit word.

What was inserted is found again (`findChunk_insertChunk`), when no chunk of its type was there
before.
-/

namespace OrIsyVra
namespace Png

open ByteString MachineWord

/-! ## Chunks -/

def signature : Bytes := [0x89, 0x50, 0x4e, 0x47, 0x0d, 0x0a, 0x1a, 0x0a]

def endType : Bytes := ascii "IEND"

def startsWith (bytes first : Bytes) : Bool := bytes.take first.length == first

/-- A 32-bit number, its highest byte first. -/
def be32 (x : UInt32) : Bytes := (le32 x).reverse

def ofBe32 (bs : Bytes) : UInt32 := ofLe32 bs.reverse

@[simp] theorem length_be32 (x : UInt32) : (be32 x).length = 4 := by
  rw [be32, List.length_reverse, length_le32]

@[simp] theorem ofBe32_be32 (x : UInt32) : ofBe32 (be32 x) = x := by
  rw [ofBe32, be32, List.reverse_reverse, ofLe32_le32]

/-- One step of the checksum: eight times a shift, and the polynomial when a bit falls out. -/
def crcByte (crc : UInt32) (byte : UInt8) : UInt32 :=
  (List.range 8).foldl (fun crc _ => (crc >>> 1) ^^^ (0xedb88320 &&& (0 - (crc &&& 1))))
    (crc ^^^ byte.toUInt32)

def crc32 (bytes : Bytes) : UInt32 := ~~~(bytes.foldl crcByte 0xffffffff)

/-- A chunk as it is written: length, type, data, checksum. -/
def chunk (type data : Bytes) : Bytes :=
  be32 (UInt32.ofNat data.length) ++ (type ++ (data ++ be32 (crc32 (type ++ data))))

theorem length_chunk {type : Bytes} (htype : type.length = 4) (data : Bytes) :
    (chunk type data).length = data.length + 12 := by
  rw [chunk, List.length_append, List.length_append, List.length_append, length_be32, length_be32,
    htype]
  omega

section

variable (png : Bytes) (cursor : ℕ)

/-- The length field of the chunk at the cursor. -/
def chunkLength : ℕ := (ofBe32 (slice png cursor 4)).toNat

def chunkType : Bytes := slice png (cursor + 4) 4

def chunkData : Bytes := slice png (cursor + 8) (chunkLength png cursor)

/-- The checksum field. -/
def chunkCrc : UInt32 := ofBe32 (slice png (cursor + 8 + chunkLength png cursor) 4)

/-- Where the next chunk starts. -/
def chunkEnd : ℕ := cursor + 12 + chunkLength png cursor

end

/-! ## The two loops -/

/-- What a search comes to. -/
inductive Search where
  | truncated
  | absent
  | found (cursor : ℕ)
  deriving DecidableEq, Repr

/-- The loop of `extract_key_chunk` and of `marker_present`; every pass moves the cursor. -/
def findLoop (png wanted : Bytes) : ℕ → ℕ → Search
  | 0, _ => .absent
  | fuel + 1, cursor =>
    if cursor + 12 ≤ png.length then
      if png.length < chunkEnd png cursor then .truncated
      else if chunkType png cursor = wanted then .found cursor
      else if chunkType png cursor = endType then .absent
      else findLoop png wanted fuel (chunkEnd png cursor)
    else .absent

def findChunk (png wanted : Bytes) : Search := findLoop png wanted png.length signature.length

/-- What an insertion comes to. -/
inductive Insertion where
  | truncated
  | noEnd
  | done (output : Bytes)
  deriving DecidableEq, Repr

/-- The loop of `inject_key_chunk` and of `add_pin_marker`: `IEND` is copied behind the new chunk,
and ends the loop. -/
def insertLoop (png new : Bytes) : ℕ → ℕ → Bytes → Insertion
  | 0, _, _ => .noEnd
  | fuel + 1, cursor, output =>
    if cursor + 12 ≤ png.length then
      if png.length < chunkEnd png cursor then .truncated
      else
        let copied := slice png cursor (chunkEnd png cursor - cursor)
        if chunkType png cursor = endType then .done (output ++ (new ++ copied))
        else insertLoop png new fuel (chunkEnd png cursor) (output ++ copied)
    else .noEnd

def insertChunk (png new : Bytes) : Insertion :=
  insertLoop png new png.length signature.length signature

/-! ## From chunk to chunk -/

/-- From one boundary to a later one, over whole chunks none of which is `IEND`. -/
inductive Walk (png : Bytes) : ℕ → ℕ → Prop where
  | refl (cursor : ℕ) : Walk png cursor cursor
  | step {cursor stop : ℕ} (hroom : cursor + 12 ≤ png.length)
      (hwhole : chunkEnd png cursor ≤ png.length) (htype : chunkType png cursor ≠ endType)
      (hrest : Walk png (chunkEnd png cursor) stop) : Walk png cursor stop

theorem Walk.le {png : Bytes} {cursor stop : ℕ} (h : Walk png cursor stop) : cursor ≤ stop := by
  induction h with
  | refl => exact le_rfl
  | step _ _ _ _ ih => exact le_trans (by rw [chunkEnd]; omega) ih

/-- Chunks read the same in a string that agrees with the first one as far as they reach. -/
theorem chunkLength_congr {png png' : Bytes} {cursor stop : ℕ}
    (h : slice png 0 stop = slice png' 0 stop) (hstop : cursor + 12 ≤ stop) :
    chunkLength png cursor = chunkLength png' cursor ∧
    chunkType png cursor = chunkType png' cursor := by
  have hlength : slice png cursor 4 = slice png' cursor 4 :=
    slice_eq_of_slice_eq h (Nat.zero_le _) (by omega)
  have htype : slice png (cursor + 4) 4 = slice png' (cursor + 4) 4 :=
    slice_eq_of_slice_eq h (Nat.zero_le _) (by omega)
  exact ⟨by rw [chunkLength, chunkLength, hlength], htype⟩

/-- **What an insertion is.**  It walks to an `IEND` and puts the new chunk in front of it. -/
theorem insertLoop_eq_done {png new output : Bytes} {fuel cursor : ℕ}
    (h : insertLoop png new fuel cursor (png.take cursor) = .done output) :
    ∃ stop, Walk png cursor stop ∧ stop + 12 ≤ png.length ∧ chunkEnd png stop ≤ png.length ∧
      chunkType png stop = endType ∧
      output = png.take stop ++ (new ++ slice png stop (chunkEnd png stop - stop)) := by
  induction fuel generalizing cursor with
  | zero => exact absurd h (by simp [insertLoop])
  | succ fuel ih =>
    unfold insertLoop at h
    split at h
    swap
    · exact absurd h (by simp)
    next hroom =>
    split at h
    · exact absurd h (by simp)
    next hwhole =>
    rw [not_lt] at hwhole
    split at h
    · next htype => exact ⟨cursor, .refl cursor, hroom, hwhole, htype, (Insertion.done.inj h).symm⟩
    next htype =>
    have hcopied : png.take cursor ++ slice png cursor (chunkEnd png cursor - cursor) =
        png.take (chunkEnd png cursor) := by
      have hle : cursor ≤ chunkEnd png cursor := by rw [chunkEnd]; omega
      conv_rhs => rw [← Nat.add_sub_cancel' hle, List.take_add]
      rfl
    dsimp only at h
    rw [hcopied] at h
    obtain ⟨stop, hwalk, hrest⟩ := ih h
    exact ⟨stop, .step hroom hwhole htype hwalk, hrest⟩

/-- A search that finds nothing passes by every chunk of a walk. -/
theorem Walk.findLoop_eq {png png' wanted : Bytes} {cursor stop fuel fuel' : ℕ}
    (h : Walk png cursor stop) (hagree : slice png 0 stop = slice png' 0 stop)
    (habsent : findLoop png wanted fuel cursor = .absent) (hfuel : png.length ≤ cursor + fuel)
    (hlen : stop + 12 ≤ png'.length) (hfuel' : png'.length ≤ cursor + fuel')
    (hfound : ∀ fuel', png'.length ≤ stop + fuel' → findLoop png' wanted fuel' stop = .found stop) :
    findLoop png' wanted fuel' cursor = .found stop := by
  induction h generalizing fuel fuel' with
  | refl cursor => exact hfound fuel' hfuel'
  | @step cursor stop hroom hwhole htype hrest ih =>
    have hstop : chunkEnd png cursor ≤ stop := hrest.le
    have hnext : cursor + 12 ≤ chunkEnd png cursor := by rw [chunkEnd]; omega
    obtain ⟨hlength', htype'⟩ := chunkLength_congr hagree (show cursor + 12 ≤ stop by omega)
    have hend' : chunkEnd png' cursor = chunkEnd png cursor := by
      rw [chunkEnd, chunkEnd, hlength']
    cases fuel with
    | zero => omega
    | succ fuel =>
      cases fuel' with
      | zero => omega
      | succ fuel' =>
        rw [findLoop, if_pos hroom, if_neg (by omega)] at habsent
        rw [findLoop, if_pos (by omega), if_neg (by omega), hend', ← htype']
        by_cases hwanted : chunkType png cursor = wanted
        · rw [if_pos hwanted] at habsent
          exact absurd habsent (by simp)
        rw [if_neg hwanted, if_neg htype] at habsent
        rw [if_neg hwanted, if_neg htype]
        exact ih hagree habsent (by omega) hlen (by omega) hfound

/-- **What was inserted is found**, with its data and its checksum. -/
theorem findChunk_insertChunk {png type data output : Bytes} (hsignature : startsWith png signature)
    (htype : type.length = 4) (hdata : data.length < 2 ^ 32)
    (habsent : findChunk png type = .absent)
    (h : insertChunk png (chunk type data) = .done output) :
    startsWith output signature ∧ ∃ cursor, findChunk output type = .found cursor ∧
      chunkData output cursor = data ∧ chunkCrc output cursor = crc32 (type ++ data) := by
  have hfirst : png.take signature.length = signature := eq_of_beq hsignature
  unfold insertChunk at h
  rw [← hfirst, List.length_take] at h
  have hsize : signature.length ≤ png.length := by
    have hlen := congrArg List.length hfirst
    rw [List.length_take] at hlen
    omega
  rw [min_eq_left hsize] at h
  obtain ⟨stop, hwalk, hroom, hwhole, -, rfl⟩ := insertLoop_eq_done h
  generalize htail : slice png stop (chunkEnd png stop - stop) = tail
  have hstop : signature.length ≤ stop := hwalk.le
  have htake : (png.take stop).length = stop := by
    rw [List.length_take]
    omega
  have hsize' : (png.take stop ++ (chunk type data ++ tail)).length =
      stop + (data.length + 12 + tail.length) := by
    rw [List.length_append, List.length_append, htake, length_chunk htype]
  have hagree : slice png 0 stop = slice (png.take stop ++ (chunk type data ++ tail)) 0 stop := by
    rw [slice, slice, List.drop_zero, List.drop_zero, List.take_left' htake]
  -- the fields of the new chunk
  have hfield : ∀ off n, slice (png.take stop ++ (chunk type data ++ tail)) (stop + off) n =
      slice (chunk type data ++ tail) off n := by
    intro off n
    rw [slice, slice, ← List.drop_drop, List.drop_left' htake]
  have hshape : chunk type data ++ tail = [be32 (UInt32.ofNat data.length), type, data,
      be32 (crc32 (type ++ data)), tail].flatten := by
    simp only [chunk, List.flatten_cons, List.flatten_nil, List.append_nil, List.append_assoc]
  have hlength : slice (chunk type data ++ tail) 0 4 = be32 (UInt32.ofNat data.length) := by
    rw [hshape]
    exact slice_flatten 0 rfl rfl (length_be32 _)
  have htype' : slice (chunk type data ++ tail) 4 4 = type := by
    rw [hshape]
    exact slice_flatten 1 rfl (by simp) htype
  have hdata' : slice (chunk type data ++ tail) 8 data.length = data := by
    rw [hshape]
    exact slice_flatten 2 rfl (by simp [htype]) rfl
  have hcrc : slice (chunk type data ++ tail)
    (8 + data.length) 4 = be32 (crc32 (type ++ data)) := by
    rw [hshape]
    exact slice_flatten 3 rfl (by simp [htype]; omega) (length_be32 _)
  generalize houtput : png.take stop ++ (chunk type data ++ tail) = output at *
  have hchunkLength : chunkLength output stop = data.length := by
    have hslice := hfield 0 4
    rw [Nat.add_zero, hlength] at hslice
    rw [chunkLength, hslice, ofBe32_be32, UInt32.toNat_ofNat_of_lt' hdata]
  have hchunkType : chunkType output stop = type := (hfield 4 4).trans htype'
  refine ⟨?_, stop, ?_, ?_, ?_⟩
  · rw [startsWith, beq_iff_eq, ← houtput, List.take_append_of_le_length (by omega), List.take_take,
      min_eq_left hstop]
    exact hfirst
  · refine hwalk.findLoop_eq hagree habsent (Nat.le_add_left _ _) (by omega) (Nat.le_add_left _ _)
      fun fuel hfuel => ?_
    cases fuel with
    | zero => omega
    | succ fuel =>
      rw [findLoop, if_pos (by omega), if_neg, if_pos hchunkType]
      rw [chunkEnd, hchunkLength]
      omega
  · rw [chunkData, hchunkLength, hfield, hdata']
  · rw [chunkCrc, hchunkLength, Nat.add_assoc, hfield, hcrc, ofBe32_be32]

end Png
end OrIsyVra
