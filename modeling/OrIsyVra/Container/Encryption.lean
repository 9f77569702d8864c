import OrIsyVra.Container.Decryption

/-!
# What `encrypt_file` writes

However the input hands out its bytes, `fillBuffer` cuts them into the same pieces, each a chunk but
for the last.  So unless a call fails the temporary gets the container of these pieces
(`wp_encryptLoop`), if there are not more of them than a container may have records.

With what is known of `decrypt_file` that gives the round trip (`container_round_trip`): the
container depends on the plaintext, the header and the key alone, and opens to the plaintext.
-/

namespace OrIsyVra
namespace Container

open ByteString MachineWord FaultProgram FileSystem Blocks

variable [Crypto]

section

variable {suite : Suite} {temporary : Path} {st : LoopState} {rest written : Bytes} {h : Host Path}
  {chunkSize : ℕ}

/-! ## The input -/

omit [Crypto] in
/-- **A buffer is filled**, however the reads split the input, unless one of them fails. -/
theorem wp_fillBuffer {size rounds : ℕ} {filled : Bytes} (hfilled : filled.length ≤ size)
    (hrounds : size - filled.length ≤ rounds) :
    wp (fillBuffer size rounds filled rest) ⟨fun r t =>
      r = (filled ++ rest.take (size - filled.length), rest.drop (size - filled.length)) ∧
        t.files = h.files ∧ t.faults = h.faults, fun _ _ => ¬h.Quiet, fun _ => ¬h.Quiet⟩ h := by
  induction rounds generalizing filled rest h with
  | zero =>
    have hfull : size - filled.length = 0 := by omega
    refine (wp_pure _ _ _).mpr ⟨?_, rfl, rfl⟩
    rw [hfull, List.take_zero, List.drop_zero, List.append_nil]
  | succ rounds ih =>
    unfold fillBuffer
    rw [wp_ite]
    refine ⟨fun hroom => ?_, fun hfull => (wp_pure _ _ _).mpr ⟨?_, rfl, rfl⟩⟩
    · rw [wp_bind]
      refine wp_inspect (fun r _ hr => ?_) (fun f hf hq => ?_) fun hf hq => hf hq.fault
      swap
      · rcases hf with hf | hf
        · exact hf hq.fault
        · exact absurd hf (by simp)
      obtain rfl := Except.ok.inj hr
      generalize hgranted : min (size - filled.length) (max 1 (h.reads h.clock)) = granted
      have hsome : 0 < granted ∧ granted ≤ size - filled.length := by omega
      show wp (if rest.take granted = [] then pure (filled, rest.drop granted)
        else fillBuffer size rounds (filled ++ rest.take granted) (rest.drop granted)) _ _
      rw [wp_ite]
      refine ⟨fun hend => (wp_pure _ _ _).mpr ⟨?_, rfl, rfl⟩, fun hmore => ?_⟩
      · obtain rfl : rest = [] := by
          rcases List.take_eq_nil_iff.mp hend with hzero | hnil
          · omega
          · exact hnil
        rw [List.drop_nil, List.take_nil, List.drop_nil, List.append_nil]
      · have htaken : 0 < (rest.take granted).length := List.length_pos_iff.mpr hmore
        have hle : (rest.take granted).length ≤ granted := List.length_take_le _ _
        have hlength : (filled ++ rest.take granted).length =
            filled.length + (rest.take granted).length := List.length_append
        refine wp_mono (ih (by omega) (by omega)) ?_ (fun _ _ hf => hf) fun _ hf => hf
        rintro r t ⟨rfl, hfiles, hfaults⟩
        refine ⟨?_, hfiles, hfaults⟩
        rw [List.length_take] at htaken hle hlength
        rw [hlength, List.append_assoc]
        by_cases hshort : rest.length ≤ granted
        · -- the input has ended
          rw [List.take_of_length_le hshort, List.drop_eq_nil_of_le hshort, List.take_nil,
            List.drop_nil, List.append_nil, List.take_of_length_le (by omega),
            List.drop_eq_nil_of_le (by omega)]
        · have hgot : min granted rest.length = granted := by omega
          rw [hgot, List.drop_drop, ← List.take_add,
            show granted + (size - (filled.length + granted)) =
            size - filled.length by omega]
    · have hzero : size - filled.length = 0 := by omega
      rw [hzero, List.take_zero, List.drop_zero, List.append_nil]

omit [Crypto] in
theorem leaves_fillBuffer (temporary : Path) (size rounds : ℕ) (filled rest : Bytes) :
    Leaves (outside temporary) (fillBuffer size rounds filled rest) := by
  induction rounds generalizing filled rest with
  | zero => exact .pure _
  | succ rounds ih =>
    unfold fillBuffer
    refine .ite (.bind (leaves_read _ _ _) fun r => ?_) (.pure _)
    exact .ite (.pure _) (ih _ _)

theorem leaves_encryptLoop (suite : Suite) (chunkSize : ℕ) (temporary : Path) (rounds : ℕ)
    (st : LoopState) (rest : Bytes) :
    Leaves (outside temporary) (encryptLoop suite chunkSize temporary rounds st rest) := by
  induction rounds generalizing st rest with
  | zero => exact .pure st
  | succ rounds ih =>
    unfold encryptLoop
    refine .bind (leaves_fillBuffer _ _ _ _ _) fun r => .ite (.pure _) (.ite (.fail _) ?_)
    refine .bind (.ofExcept _) fun record => .bind (leaves_write _ _) fun _ => ?_
    refine .bind (leaves_write _ _) fun _ => ?_
    split
    · exact .fail _
    · exact ih _ _

theorem leaves_encryptTo (suite : Suite) (chunkSize : ℕ) (temporary : Path) (rest : Bytes) :
    Leaves (outside temporary) (encryptTo suite chunkSize temporary rest) := by
  refine .bind (leaves_write _ _) fun _ => .bind (leaves_encryptLoop _ _ _ _ _ _) fun st => ?_
  exact .bind (.ofExcept _) fun manifest => .bind (leaves_write _ _) fun _ => leaves_write _ _

/-! ## The records -/

variable [LawfulCrypto]

/-- **The loop writes the records of the pieces**, or there are too many of them, or a call
fails. -/
theorem wp_encryptLoop {rounds : ℕ} (hchunk : suite.header.chunkSize.toNat = chunkSize)
    (hrounds : rest.length < rounds) (hhas : h.Has temporary written)
    (hindex : st.index.toNat ≤ maxRecords) (htotal : st.total.toNat ≤ st.index.toNat * chunkSize) :
    wp (encryptLoop suite chunkSize temporary rounds st rest) ⟨fun st' t =>
        st.index.toNat + (pieces chunkSize rest).length ≤ maxRecords ∧
        ∃ records, buildRecords suite st.index (pieces chunkSize rest) = .ok records ∧
          t.Has temporary (written ++ records) ∧ st'.transcript = st.transcript ++ records ∧
          st'.total.toNat = st.total.toNat + rest.length ∧
          st'.index.toNat = st.index.toNat + (pieces chunkSize rest).length,
      fun e _ => h.Quiet → maxRecords < st.index.toNat + (pieces chunkSize rest).length ∧
        ∃ message, e = .limitExceeded message,
      fun _ => ¬h.Quiet⟩ h := by
  obtain ⟨hlow, hhigh⟩ := validateChunkSize_ok suite.header.valid
  rw [hchunk] at hlow hhigh
  have hsize : 0 < chunkSize := by omega
  have hbound : maxRecords = 2 ^ 20 := rfl
  induction rounds generalizing st rest written h with
  | zero => exact absurd hrounds (Nat.not_lt_zero _)
  | succ rounds ih =>
    unfold encryptLoop
    rw [wp_bind]
    refine wp_mono (wp_fillBuffer (Nat.zero_le _) (Nat.sub_le _ _)) ?_
      (fun _ _ hf hq => absurd hq hf) fun _ hf => hf
    rintro r t ⟨rfl, hfiles, hfaults⟩
    rw [List.length_nil, Nat.sub_zero, List.nil_append]
    have hqt : h.Quiet → t.Quiet := fun hq n => by rw [hfaults]; exact hq n
    have hhast : t.Has temporary written := by
      obtain ⟨synced, hc⟩ := hhas
      exact ⟨synced, by rw [hfiles]; exact hc⟩
    show wp (if rest.take chunkSize = [] then pure st else _) _ t
    rw [wp_ite]
    refine ⟨fun hend => ?_, fun hmore => ?_⟩
    · obtain rfl : rest = [] := by
        rcases List.take_eq_nil_iff.mp hend with hzero | hnil
        · omega
        · exact hnil
      refine (wp_pure _ _ _).mpr ⟨?_, [], ?_, ?_, ?_, ?_, ?_⟩
      · rw [pieces_nil, List.length_nil]
        exact hindex
      · rw [pieces_nil]
        rfl
      · rw [List.append_nil]
        exact hhast
      · rw [List.append_nil]
      · rw [List.length_nil, Nat.add_zero]
      · rw [pieces_nil, List.length_nil, Nat.add_zero]
    have hrest : rest ≠ [] := fun hnil => hmore (by rw [hnil, List.take_nil])
    have hpieces := pieces_of_ne_nil hsize hrest
    have hcount :
      (pieces chunkSize rest).length = (pieces chunkSize (rest.drop chunkSize)).length + 1 := by
      rw [hpieces, List.length_cons]
    rw [wp_ite]
    refine ⟨fun hfull => (wp_fail _ _ _).mpr fun _ => ⟨by omega, _, rfl⟩, fun hroom => ?_⟩
    have hpiece : (rest.take chunkSize).length ≤ chunkSize := List.length_take_le _ _
    have hplain : (rest.take chunkSize).length ≤ suite.header.chunkSize.toNat := by
      rw [hchunk]
      exact hpiece
    obtain ⟨frame, body, hrecord⟩ := buildRecord_isOk suite st.index hplain
    rw [hrecord, wp_bind, wp_ofExcept_ok]
    dsimp only
    rw [wp_bind]
    refine wp_write (fun _ => ?_) (fun _ hf hq => absurd (hqt hq).fault hf) fun _ hf hq =>
      absurd (hqt hq).fault hf
    refine (wp_bind _ _ _ _).mpr ?_
    refine wp_write (fun _ => ?_) (fun _ hf hq => absurd ((hqt hq).tick _).fault hf) fun _ hf hq =>
      absurd ((hqt hq).tick _).fault hf
    have hlength : (UInt64.ofNat (rest.take chunkSize).length).toNat =
      (rest.take chunkSize).length :=
      UInt64.toNat_ofNat_of_lt' (show (rest.take chunkSize).length < 2 ^ 64 by omega)
    have hfits : st.index.toNat * chunkSize ≤ 2 ^ 20 * 2 ^ 24 := Nat.mul_le_mul (by omega) hhigh
    rcases hadd : checkedAdd st.total (UInt64.ofNat (rest.take chunkSize).length) with _ | total
    · rw [checkedAdd_eq_none, hlength] at hadd
      omega
    have hnext := checkedAdd_eq_some.mp hadd
    rw [hlength] at hnext
    have hword : (st.next total frame body).index.toNat = st.index.toNat + 1 := by
      exact toNat_add_one (by omega)
    have hgrown :
      ((t.tick _).tick (append _ temporary body)).Has temporary (written ++ frame ++ body) :=
      (hhast.append frame).append body
    have hpos := List.length_pos_iff.mpr hrest
    have htaken : (rest.take chunkSize).length + (rest.drop chunkSize).length = rest.length := by
      rw [← List.length_append, List.take_append_drop]
    have hproduct : (st.next total frame body).index.toNat * chunkSize =
        st.index.toNat * chunkSize + chunkSize := by rw [hword, Nat.succ_mul]
    have hshorter : (rest.drop chunkSize).length < rounds := by
      rw [List.length_drop]
      omega
    have htotal' : (st.next total frame body).total.toNat ≤
        (st.next total frame body).index.toNat * chunkSize := by
      rw [hproduct]
      show total.toNat ≤ _
      omega
    refine wp_mono (ih hshorter hgrown (by omega) htotal') ?_ ?_ fun _ hf hq => hf (hqt hq)
    · rintro st' t' ⟨hfit, records, hrecords, hall, htranscript, hlast, hindices⟩
      refine ⟨by omega, frame ++ (body ++ records), ?_, ?_, ?_, ?_, by omega⟩
      · rw [hpieces]
        exact except_bind_eq_ok.mpr ⟨_, hrecord, except_bind_eq_ok.mpr ⟨records, hrecords, rfl⟩⟩
      · rw [List.append_assoc, List.append_assoc] at hall
        exact hall
      · rw [htranscript, LoopState.next, List.append_assoc, List.append_assoc]
      · rw [hlast]
        show total.toNat + _ = _
        omega
    · intro e t' herror hq
      obtain ⟨hover, hmessage⟩ := herror (hqt hq)
      exact ⟨by omega, hmessage⟩

/-! ## The container -/

omit [Crypto] [LawfulCrypto] in
theorem totalLength_eq (plaintexts : List Bytes) :
    totalLength plaintexts = plaintexts.flatten.length :=
  List.length_flatten.symm

/-- **The temporary gets the container of the pieces**, or there are too many of them, or a call
fails. -/
theorem wp_encryptTo {master : MasterKey} {header : Header}
    (hsuite : deriveSuite master header header.encode = .ok suite)
    (hchunk : header.chunkSize.toNat = chunkSize) (hempty : h.Has temporary []) :
    wp (encryptTo suite chunkSize temporary rest) ⟨fun _ t =>
        (pieces chunkSize rest).length ≤ maxRecords ∧
        ∃ file, build master header (pieces chunkSize rest) = .ok file ∧ t.Has temporary file,
      fun e _ => h.Quiet → maxRecords < (pieces chunkSize rest).length ∧
        ∃ message, e = .limitExceeded message,
      fun _ => ¬h.Quiet⟩ h := by
  obtain ⟨hheader, hbytes, -, -⟩ := deriveSuite_header hsuite
  have hsize : 0 < chunkSize := by
    have hlow := (validateChunkSize_ok header.valid).1
    omega
  unfold encryptTo
  rw [hbytes, wp_bind]
  refine wp_write (fun _ => ?_) (fun _ hf hq => absurd hq.fault hf) fun _ hf hq =>
    absurd hq.fault hf
  have hhead : (h.tick (append h.files temporary header.encode)).Has temporary header.encode := by
    have hgrown := hempty.append header.encode
    rwa [List.nil_append] at hgrown
  refine (wp_bind _ _ _ _).mpr ?_
  refine wp_mono (wp_and (wp_encryptLoop (hheader ▸ hchunk) (Nat.lt_succ_self _) hhead
    (Nat.zero_le _) (Nat.zero_le _)) ((leaves_encryptLoop suite chunkSize temporary _ _ _).wp _))
      ?_ ?_
    fun _ hf => hf.1
  · rintro st t ⟨⟨hcount, records, hrecords, hwritten, htranscript, htotal, hindex⟩, houtside⟩
    have hqt : h.Quiet → t.Quiet := fun hq n => by
      rw [(of_outside_eq houtside).2.2]
      exact hq n
    have hstart : (LoopState.start header.encode).index.toNat = 0 := rfl
    rw [hstart, Nat.zero_add] at hcount hindex
    have hzero : (LoopState.start header.encode).total.toNat = 0 := rfl
    rw [hzero, Nat.zero_add] at htotal
    have hall : totalLength (pieces chunkSize rest) = rest.length := by
      rw [totalLength_eq, flatten_pieces hsize]
    have htotal' : st.total = UInt64.ofNat (totalLength (pieces chunkSize rest)) := by
      rw [hall, ← htotal, UInt64.ofNat_toNat]
    have hindex' : st.index = UInt64.ofNat (pieces chunkSize rest).length := by
      rw [← hindex, UInt64.ofNat_toNat]
    obtain ⟨frame, body, hmanifest⟩ := buildManifest_isOk suite st.transcript st.total st.index
    refine (wp_bind _ _ _ _).mpr ?_
    rw [hmanifest, wp_ofExcept_ok]
    dsimp only
    rw [wp_bind]
    refine wp_write (fun _ => ?_) (fun _ hf hq => absurd (hqt hq).fault hf) fun _ hf hq =>
      absurd (hqt hq).fault hf
    refine wp_write (fun _ => ?_) (fun _ hf hq => absurd ((hqt hq).tick _).fault hf) fun _ hf hq =>
      absurd ((hqt hq).tick _).fault hf
    refine ⟨hcount, header.encode ++ (records ++ (frame ++ body)), ?_, ?_⟩
    · rw [htranscript, htotal', hindex'] at hmanifest
      exact except_bind_eq_ok.mpr ⟨suite, hsuite, except_bind_eq_ok.mpr ⟨records, hrecords,
        except_bind_eq_ok.mpr ⟨(frame, body), hmanifest, rfl⟩⟩⟩
    · have hgrown := (hwritten.append frame).append body
      rw [List.append_assoc, List.append_assoc] at hgrown
      exact hgrown
  · rintro e t ⟨herror, -⟩ hq
    obtain ⟨hcount, hmessage⟩ := herror (hq.tick _)
    have hstart : (LoopState.start header.encode).index.toNat = 0 := rfl
    rw [hstart, Nat.zero_add] at hcount
    exact ⟨hcount, hmessage⟩

/-- **`encrypt_file` puts the container of the pieces in place**, or there are too many of them. -/
theorem encryptFile_ok (hhkdf : ∀ salt ikm info : Bytes, (Crypto.hkdfSha384 salt ikm info).isSome)
    (master : MasterKey) {name : String} {salt fileId : FixedBytes 32} {input output : Path}
    {options : EncryptOptions} {header : Header} {plaintext : Bytes}
    (hready : Ready name input output options.overwrite h plaintext)
    (hheader : Header.new options.mode options.chunkSize salt fileId = .ok header)
    (hvalid : validateChunkSize options.chunkSize = .ok ())
    (hchunk : header.chunkSize.toNat = options.chunkSize) :
    wp (encryptFile name salt fileId input output master options) ⟨fun _ t =>
        (pieces options.chunkSize plaintext).length ≤ maxRecords ∧
        ∃ file, build master header (pieces options.chunkSize plaintext) = .ok file ∧
          t.files = put h.files output (some ⟨file, true⟩),
      fun e t => maxRecords < (pieces options.chunkSize plaintext).length ∧
        (∃ message, e = .limitExceeded message) ∧ t.files = h.files,
      fun _ => False⟩ h := by
  obtain ⟨hq, ⟨synced, hc⟩, hdiffer, hfree, hfresh, hapart⟩ := hready
  obtain ⟨suite, hsuite⟩ := deriveSuite_isOk hhkdf master header header.encode
  unfold encryptFile
  rw [hvalid, wp_bind, wp_ofExcept_ok]
  dsimp only
  rw [if_neg hdiffer, hheader, wp_bind, wp_ofExcept_ok]
  dsimp only
  rw [hsuite, wp_bind, wp_ofExcept_ok]
  dsimp only
  rw [wp_bind]
  refine wp_of_ok (readFile_ok hq.fault hc) ?_
  refine (wp_bind _ _ _ _).mpr ?_
  refine wp_mono (createOutputTemp_ok (hq.tick _) hfree hfresh) ?_
    (fun _ _ hf => hf.elim) fun _ hf => hf
  rintro temporary t ⟨rfl, hfaults, hfiles⟩
  have hqt : t.Quiet := fun n => by rw [hfaults]; exact hq n
  have hempty : t.Has (output.parent.join name) [] := ⟨false, by rw [hfiles]; exact put_self _ _ _⟩
  have hothers : ∀ p, p ≠ output.parent.join name → t.files p = h.files p := fun p hp => by
    rw [hfiles, put_of_ne hp]
    rfl
  generalize output.parent.join name = temporary at *
  refine (wp_bind _ _ _ _).mpr ?_
  refine wp_dropping_removes ?_
  refine wp_mono (wp_and (wp_encryptTo hsuite hchunk hempty)
    ((leaves_encryptTo suite options.chunkSize temporary plaintext).wp t)) ?_ ?_
      fun _ hf => hf.1 hqt
  · rintro _ t₁ ⟨⟨hcount, file, hbuilt, hwritten⟩, houtside⟩
    obtain ⟨hleft, -, hscript⟩ := of_outside_eq houtside
    have hqt₁ : t₁.Quiet := fun n => by rw [hscript]; exact hqt n
    refine wp_mono (dropping_ok (settleTemporary_ok hqt₁ hapart hwritten)) ?_
      (fun _ _ hf => hf.elim) fun _ hf => hf
    intro _ t₂ hplaced
    refine ⟨hcount, file, hbuilt, ?_⟩
    rw [hplaced, put_eq hfresh fun p hp => (hleft p hp).trans (hothers p hp)]
  · rintro e t₁ ⟨herror, houtside⟩
    obtain ⟨hcount, hmessage⟩ := herror hqt
    obtain ⟨hleft, -, hscript⟩ := of_outside_eq houtside
    refine ⟨by rw [Host.fault, hscript]; exact hqt _, fun files hgone => ⟨hcount, hmessage, ?_⟩⟩
    rw [Host.files_tick, funext hgone]
    exact put_eq hfresh fun p hp => (hleft p hp).trans (hothers p hp)

/-- **A run that succeeds** has put the container of the pieces of its input at the output. -/
theorem encryptFile_eq_ok {master : MasterKey} {name : String} {salt fileId : FixedBytes 32}
    {input output : Path} {options : EncryptOptions} {u : Unit} {t : Host Path}
    (hrun : encryptFile name salt fileId input output master options h = (.ok u, t)) :
    ∃ header plaintext file, Header.new options.mode options.chunkSize salt fileId = .ok header ∧
      header.chunkSize.toNat = options.chunkSize ∧ h.Has input plaintext ∧
      (pieces options.chunkSize plaintext).length ≤ maxRecords ∧
      build master header (pieces options.chunkSize plaintext) = .ok file ∧
      t.files output = some ⟨file, true⟩ := by
  obtain ⟨_, t₁, hcheck, hrest⟩ := bind_eq_ok.mp hrun
  obtain ⟨hvalid, rfl⟩ := ofExcept_eq_ok.mp hcheck
  split at hrest
  · exact absurd hrest fail_ne_ok
  obtain ⟨header, t₂, hnew, hrest⟩ := bind_eq_ok.mp hrest
  obtain ⟨hheader, rfl⟩ := ofExcept_eq_ok.mp hnew
  obtain ⟨suite, t₃, hderive, hrest⟩ := bind_eq_ok.mp hrest
  obtain ⟨hsuite, rfl⟩ := ofExcept_eq_ok.mp hderive
  obtain ⟨plaintext, t₄, hread, hrest⟩ := bind_eq_ok.mp hrest
  obtain ⟨⟨c, hc, rfl⟩, -⟩ := readFile_eq_ok hread
  obtain ⟨temporary, t₅, hcreate, hrest⟩ := bind_eq_ok.mp hrest
  obtain ⟨_, t₆, hfill, hpersist⟩ := bind_eq_ok.mp hrest
  have hempty : t₅.Has temporary [] := by
    have hspec : wp (createOutputTemp name output options.overwrite)
        (.ifOk fun temporary t => t.Has temporary []) t₄ :=
      wp_createOutputTemp (fun t _ _ hfiles => ⟨false, by rw [hfiles, put_self]⟩)
        (fun _ _ => ⟨fun _ => trivial, trivial⟩) fun _ _ => trivial
    exact hspec.ok hcreate
  obtain ⟨header', hheader', -, hchunk, -⟩ := Header.new_eq_ok options.mode salt fileId hvalid
  obtain rfl := Except.ok.inj (hheader.symm.trans hheader')
  obtain ⟨hcount, file, hbuilt, synced, hfile⟩ :=
    (wp_encryptTo hsuite hchunk hempty).ok (dropping_eq_ok hfill)
  refine ⟨header, c.bytes, file, hheader, hchunk, ⟨c.synced, hc⟩, hcount, hbuilt, ?_⟩
  rw [settleTemporary_eq_ok hfile (dropping_eq_ok hpersist), put_self]

end

/-! ## The round trip -/

/-- **Containers.**  `encrypt_file` refuses a plaintext exactly when it has more chunks than a
container may have records.  Otherwise what it writes is the container of its header, its key and
the chunks of the plaintext, and `decrypt_file` gives back the plaintext and what the header
says. -/
theorem container_round_trip [LawfulCrypto]
    (hhkdf : ∀ salt ikm info : Bytes, (Crypto.hkdfSha384 salt ikm info).isSome)
    {name : String} {salt fileId : FixedBytes 32} {input output : Path} {master : MasterKey}
    {options : EncryptOptions} {h : Host Path} {plaintext : Bytes}
    (hready : Ready name input output options.overwrite h plaintext)
    (hvalid : validateChunkSize options.chunkSize = .ok ()) :
    ((∃ message t, encryptFile name salt fileId input output master options h =
      (.error (.limitExceeded message), t)) ↔ maxRecords * options.chunkSize < plaintext.length) ∧
    (plaintext.length ≤ maxRecords * options.chunkSize → ∃ header file t,
      Header.new options.mode options.chunkSize salt fileId = .ok header ∧
      build master header (pieces options.chunkSize plaintext) = .ok file ∧
      encryptFile name salt fileId input output master options h = (.ok (), t) ∧
      t.files = put h.files output (some ⟨file, true⟩) ∧
      ∀ (name' : String) (input' output' : Path) (overwrite' : Bool) (h' : Host Path),
        Ready name' input' output' overwrite' h' file →
        ∃ t', decryptFile name' input' output' master overwrite' h' =
            (.ok ⟨fileVersion, options.mode, options.chunkSize, fileId⟩, t') ∧
          t'.files = put h'.files output' (some ⟨plaintext, true⟩)) := by
  obtain ⟨header, hheader, hmode, hchunk, -, hfileId⟩ :=
    Header.new_eq_ok options.mode salt fileId hvalid
  have hsize : 0 < options.chunkSize := by
    have hlow := (validateChunkSize_ok hvalid).1
    omega
  have hcount : (pieces options.chunkSize plaintext).length ≤ maxRecords ↔
      plaintext.length ≤ maxRecords * options.chunkSize := length_pieces_le_iff hsize
  have hspec := encryptFile_ok hhkdf master hready hheader hvalid hchunk
  rcases hrun : encryptFile name salt fileId input output master options h with ⟨_ | e | _, t⟩
  · obtain ⟨hfit, file, hbuilt, hfiles⟩ := hspec.ok hrun
    have hle := hcount.mp hfit
    refine ⟨⟨?_, fun hover => absurd hle (Nat.not_le_of_lt hover)⟩, fun _ => ?_⟩
    · rintro ⟨message, t', hlimit⟩
      exact absurd (congrArg Prod.fst hlimit) (by simp)
    refine ⟨header, file, t, hheader, hbuilt, rfl, hfiles,
      fun name' input' output' overwrite' h' hready' => ?_⟩
    have hsizes : ∀ p ∈ pieces options.chunkSize plaintext, p.length ≤ header.chunkSize.toNat :=
      fun p hp => hchunk.symm ▸ length_le_of_mem_pieces hp
    obtain ⟨t', hdecrypt, hplaced⟩ :=
      decryptFile_accepted hready' (acceptedFile_of_build hbuilt hsizes hfit)
    rw [flatten_pieces hsize] at hplaced
    refine ⟨t', ?_, hplaced⟩
    rw [hdecrypt, Header.info, header.version_eq, hmode, hchunk, hfileId]
  · obtain ⟨hover, ⟨message, rfl⟩, -⟩ := hspec.error hrun
    have hlarge : maxRecords * options.chunkSize < plaintext.length :=
      Nat.lt_of_not_le fun hle => absurd (hcount.mpr hle) (Nat.not_le_of_lt hover)
    exact ⟨⟨fun _ => hlarge, fun _ => ⟨message, t, rfl⟩⟩, fun hle =>
      absurd hle (Nat.not_le_of_lt hlarge)⟩
  · exact (hspec.crash hrun).elim

/-- One byte more than a chunk holds. -/
def twoChunks : Bytes := List.replicate 4097 7

omit [Crypto] in
/-- A file of two chunks, read one byte at a time. -/
theorem container_round_trip_short :
    let _ := tableCrypto []
    ∃ header file t, Header.new .guarded 4096 (.of 32 []) (.of 32 [7]) = .ok header ∧
      ¬(pieces 4096 twoChunks).length ≤ 1 ∧
      build (.of 48 []) header (pieces 4096 twoChunks) = .ok file ∧
      encryptFile "tmp" (.of 32 []) (.of 32 [7]) ["in"] ["out"] (.of 48 []) ⟨.guarded, 4096, false⟩
        (hostWith twoChunks) = (.ok (), t) ∧
      ∃ t', decryptFile "tmp" ["in"] ["out"] (.of 48 []) false (hostWith file) =
          (.ok ⟨fileVersion, .guarded, 4096, .of 32 [7]⟩, t') ∧
        t'.files ["out"] = some ⟨twoChunks, true⟩ := by
  let _ := tableCrypto []
  have _ := tableCrypto_lawful []
  have hvalid : validateChunkSize (EncryptOptions.mk .guarded 4096 false).chunkSize = .ok () :=
    validateChunkSize_smallest
  have hlength : twoChunks.length = 4097 := List.length_replicate
  have hfits : twoChunks.length ≤ maxRecords * 4096 := by
    rw [hlength]
    decide
  have hmany : ¬(pieces 4096 twoChunks).length ≤ 1 := by
    rw [length_pieces_le_iff (by decide), hlength]
    decide
  obtain ⟨header, file, t, hheader, hbuilt, hrun, -, hopens⟩ :=
    (container_round_trip (fun _ _ _ => rfl) (ready_hostWith twoChunks) hvalid).2 hfits
  obtain ⟨t', hdecrypt, hplaced⟩ := hopens "tmp" ["in"] ["out"] false _ (ready_hostWith file)
  refine ⟨header, file, t, hheader, hmany, hbuilt, hrun, t', hdecrypt, ?_⟩
  rw [hplaced, put_self]

end Container
end OrIsyVra
