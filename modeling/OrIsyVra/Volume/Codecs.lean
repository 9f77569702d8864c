import OrIsyVra.Volume.Format

/-!
# What the metadata decoders ignore

Each metadata structure is decoded from a byte array of its own size, and reading back what was
encoded is `decode_encode` of each.  The other direction asks whether every byte of an accepted
array counts.  For a record header it does: its decoder checks the four reserved bytes.  The
bootstrap and the superblock payload have reserved bytes too, 162 and 31 of them, which their
encoders fill with zeros and their decoders do not look at.

So an accepted array is the encoding of what was decoded exactly when its reserved bytes are zero
(`codecs_exact_iff`), and other arrays are accepted as well (`reserved_byte_ignored`).
-/

namespace OrIsyVra.Volume

open ByteString MachineWord

variable {bytes : Bytes}

namespace Bootstrap

/-- An array splits into the fields the decoder reads and the reserved rest. -/
theorem split_fields (hlen : bytes.length = bootstrapSize) :
    bytes = (slices bytes 0 [8, 2, 4, 8, 32, 32, 8]).flatten ++ slice bytes 94 162 := by
  have hall : slice bytes 0 (94 + 162) = bytes := slice_zero_of_length hlen
  rw [flatten_slices]
  exact hall.symm.trans (slice_add bytes 0 94 162)

/-- What is decoded encodes to the same fields, and zeros behind them. -/
theorem encode_of_decode {b : Bootstrap} (hlen : bytes.length = bootstrapSize)
    (h : decode bytes = .ok b) :
    b.encode = (slices bytes 0 [8, 2, 4, 8, 32, 32, 8]).flatten ++ List.replicate 162 0 := by
  have hsize : bytes.length = 256 := hlen
  unfold decode at h
  split at h
  · exact absurd h (by simp)
  next hmagic =>
  split at h
  · exact absurd h (by simp)
  next hversion =>
  split at h
  · exact absurd h (by simp)
  next hlog =>
  split at h
  · exact absurd h (by simp)
  obtain rfl := Except.ok.inj h
  have hfield : ∀ off n, off + n ≤ 256 → (slice bytes off n).length = n := fun off n hn =>
    length_slice (hsize ▸ hn)
  have hlogField : le64 logStart = slice bytes 86 8 := by
    rw [← not_not.mp hlog, le64_ofLe64 (hfield 86 8 (by omega))]
  simp only [encode, fields, slices, List.flatten_cons, List.flatten_nil, List.append_nil,
    List.append_assoc]
  rw [le16_ofLe16 (hfield 8 2 (by omega)), le32_ofLe32 (hfield 10 4 (by omega)),
    le64_ofLe64 (hfield 14 8 (by omega)), FixedBytes.val_of (hfield 22 32 (by omega)),
    FixedBytes.val_of (hfield 54 32 (by omega)), not_not.mp hmagic, hlogField]

theorem encode_decode_iff {b : Bootstrap} (hlen : bytes.length = bootstrapSize)
    (h : decode bytes = .ok b) : b.encode = bytes ↔ slice bytes 94 162 = List.replicate 162 0 := by
  rw [encode_of_decode hlen h]
  constructor
  · intro hsame
    exact (List.append_cancel_left (hsame.trans (split_fields hlen))).symm
  · intro hreserved
    rw [← hreserved]
    exact (split_fields hlen).symm

end Bootstrap

namespace SuperState

theorem split_fields (hlen : bytes.length = superPlaintextSize) :
    bytes = (slices bytes 0 [8, 8, 8, 8, 1]).flatten ++ slice bytes 33 31 := by
  have hall : slice bytes 0 (33 + 31) = bytes := slice_zero_of_length hlen
  rw [flatten_slices]
  exact hall.symm.trans (slice_add bytes 0 33 31)

theorem encode_of_decode {s : SuperState} (h : decode bytes = .ok s) :
    bytes.length = superPlaintextSize ∧
      s.encode = (slices bytes 0 [8, 8, 8, 8, 1]).flatten ++ List.replicate 31 0 := by
  unfold decode at h
  split at h
  · exact absurd h (by simp)
  next hshape =>
  rw [not_or, ne_eq, not_not, ne_eq, not_not] at hshape
  obtain ⟨hlen, hmagic⟩ := hshape
  refine ⟨hlen, ?_⟩
  have hsize : bytes.length = 64 := hlen
  have hfield : ∀ off n, off + n ≤ 64 → (slice bytes off n).length = n := fun off n hn =>
    length_slice (hsize ▸ hn)
  dsimp only at h
  split at h
  · exact absurd h (by simp)
  next clean hflag =>
  split at h
  · exact absurd h (by simp)
  obtain rfl := Except.ok.inj h
  have hclean : [if clean then 1 else 0] = slice bytes 32 1 := by
    split at hflag
    · next hbyte =>
      obtain rfl := Except.ok.inj hflag
      exact hbyte.symm
    · next hbyte =>
      obtain rfl := Except.ok.inj hflag
      exact hbyte.symm
    · exact absurd hflag (by simp)
  simp only [encode, fields, slices, List.flatten_cons, List.flatten_nil, List.append_nil,
    List.append_assoc]
  rw [le64_ofLe64 (hfield 8 8 (by omega)), le64_ofLe64 (hfield 16 8 (by omega)),
    le64_ofLe64 (hfield 24 8 (by omega)), hmagic, hclean]

theorem encode_decode_iff {s : SuperState} (h : decode bytes = .ok s) :
    s.encode = bytes ↔ slice bytes 33 31 = List.replicate 31 0 := by
  obtain ⟨hlen, hencode⟩ := encode_of_decode h
  rw [hencode]
  constructor
  · intro hsame
    exact (List.append_cancel_left (hsame.trans (split_fields hlen))).symm
  · intro hreserved
    rw [← hreserved]
    exact (split_fields hlen).symm

end SuperState

namespace RecordHeader

/-- **No byte of a record header is ignored.** -/
theorem encode_of_decode {header : RecordHeader} (hlen : bytes.length = recordHeaderSize)
    (h : decode bytes = .ok header) : header.encode = bytes := by
  have hsize : bytes.length = 32 := hlen
  unfold decode at h
  split at h
  · exact absurd h (by simp)
  next hmagic =>
  split at h
  · exact absurd h (by simp)
  next hflags =>
  split at h
  swap
  · exact absurd h (by simp)
  obtain rfl := Except.ok.inj h
  have hfield : ∀ off n, off + n ≤ 32 → (slice bytes off n).length = n := fun off n hn =>
    length_slice (hsize ▸ hn)
  have hall : (slices bytes 0 [4, 8, 8, 4, 4, 4]).flatten = bytes := by
    rw [flatten_slices]
    exact slice_zero_of_length hlen
  refine Eq.trans ?_ hall
  simp only [encode, fields, slices, List.flatten_cons, List.flatten_nil, List.append_nil]
  rw [le64_ofLe64 (hfield 4 8 (by omega)), le64_ofLe64 (hfield 12 8 (by omega)),
    le32_ofLe32 (hfield 20 4 (by omega)), le32_ofLe32 (hfield 24 4 (by omega)), not_not.mp hmagic,
    not_not.mp hflags]

end RecordHeader

/-- **The codecs are exact up to reserved bytes.**  Every value whose fields pass the decoder's
checks is read back, and an accepted array is the encoding of what it decodes to exactly when the
reserved bytes of a bootstrap and of a superblock are zero; a record header always is. -/
theorem codecs_exact_iff (b : Bootstrap) (s : SuperState) (header : RecordHeader) (bytes : Bytes) :
    Bootstrap.decode b.encode = .ok b ∧
    (logStart ≤ s.committedEnd → SuperState.decode s.encode = .ok s) ∧
    RecordHeader.decode header.encode = .ok header ∧
    (bytes.length = bootstrapSize → Bootstrap.decode bytes = .ok b →
      (b.encode = bytes ↔ slice bytes 94 162 = List.replicate 162 0)) ∧
    (bytes.length = superPlaintextSize → SuperState.decode bytes = .ok s →
      (s.encode = bytes ↔ slice bytes 33 31 = List.replicate 31 0)) ∧
    (bytes.length = recordHeaderSize → RecordHeader.decode bytes = .ok header →
      header.encode = bytes) :=
  ⟨b.decode_encode, SuperState.decode_encode, header.decode_encode, Bootstrap.encode_decode_iff,
    fun _ => SuperState.encode_decode_iff, RecordHeader.encode_of_decode⟩

/-- The bootstrap of a volume of one block, with a last byte. -/
def bootstrapWith (last : UInt8) : Bytes :=
  [volumeMagic, le16 1, le32 4096, le64 4096, List.replicate 64 0, le64 logStart,
    List.replicate 161 0, [last]].flatten

/-- A bootstrap with a byte set in the reserved area is accepted, and means the same as without. -/
theorem reserved_byte_ignored :
    ∃ b, (bootstrapWith 7).length = bootstrapSize ∧ Bootstrap.decode (bootstrapWith 7) = .ok b ∧
      Bootstrap.decode (bootstrapWith 0) = .ok b ∧ b.encode = bootstrapWith 0 ∧
      b.encode ≠ bootstrapWith 7 :=
  ⟨⟨1, 4096, 4096, .of 32 [], .of 32 [], rfl, rfl⟩, by decide +kernel, by decide +kernel,
    by decide +kernel, by decide +kernel, by decide +kernel⟩

end OrIsyVra.Volume
