import OrIsyVra.Container.Records

/-!
# `encrypt_file` and `decrypt_file`

The two programs around the records, one system call after the other.  The reader of the input hands
out as many bytes as it likes, so `fillBuffer` asks again until a chunk is full or the input ends;
the output goes to a temporary file, which is dropped on an error and moved to the output at the
end.  The `flush` of a file without a buffer does nothing and is left out.

Each loop of the source takes a bound on its rounds, which it does not reach: every round takes at
least a byte from the input.
-/

namespace OrIsyVra
namespace Container

open ByteString MachineWord FaultProgram FileSystem Blocks
open DurableFile (IoFailure IoError)

structure EncryptOptions where
  mode : Mode
  chunkSize : ℕ
  overwrite : Bool

structure FileInfo where
  version : UInt16
  mode : Mode
  chunkSize : ℕ
  fileId : FixedBytes 32
  deriving DecidableEq

def Header.info (header : Header) : FileInfo :=
  ⟨header.version, header.mode, header.chunkSize.toNat, header.fileId⟩

def inspectFile (path : Path) : FileProg FileInfo := do
  let bytes ← readFile path
  let (headerBytes, _) ← readExact bytes headerSize
  let header ← Prog.ofExcept (Header.decode headerBytes)
  pure header.info

variable [Crypto]

/-! ## Encrypting -/

omit [Crypto] in
/-- Fill the buffer, as far as the input goes; what is in it and the rest. -/
def fillBuffer (size : ℕ) : ℕ → Bytes → Bytes → FileProg (Bytes × Bytes)
  | 0, filled, rest => pure (filled, rest)
  | rounds + 1, filled, rest =>
    if filled.length < size then do
      let (taken, rest) ← read rest (size - filled.length)
      if taken = [] then pure (filled, rest)
      else fillBuffer size rounds (filled ++ taken) rest
    else pure (filled, rest)

/-- The loop of `encrypt_file`. -/
def encryptLoop (suite : Suite) (chunkSize : ℕ) (temporary : Path) :
    ℕ → LoopState → Bytes → FileProg LoopState
  | 0, st, _ => pure st
  | rounds + 1, st, rest => do
    let (plaintext, rest) ← fillBuffer chunkSize chunkSize [] rest
    if plaintext = [] then pure st
    else if maxRecords ≤ st.index.toNat then
      Prog.fail (.limitExceeded "too many records in one file")
    else do
      let (frame, body) ← Prog.ofExcept (buildRecord suite st.index plaintext)
      write temporary frame
      write temporary body
      match checkedAdd st.total (UInt64.ofNat plaintext.length) with
      | none => Prog.fail (.limitExceeded "file length overflow")
      | some total => encryptLoop suite chunkSize temporary rounds (st.next total frame body) rest

/-- What `encrypt_file` writes to its temporary. -/
def encryptTo (suite : Suite) (chunkSize : ℕ) (temporary : Path) (rest : Bytes) :
    FileProg Unit := do
  write temporary suite.headerBytes
  let st ← encryptLoop suite chunkSize temporary (rest.length + 1) (.start suite.headerBytes) rest
  let (frame, body) ← Prog.ofExcept (buildManifest suite st.transcript st.total st.index)
  write temporary frame
  write temporary body

/-- `salt` and `fileId` are the draws of the random generator, `name` that of the temporary file. -/
def encryptFile (name : String) (salt fileId : FixedBytes 32) (input output : Path)
    (master : MasterKey) (options : EncryptOptions) : FileProg Unit := do
  Prog.ofExcept (validateChunkSize options.chunkSize)
  if input = output then
    Prog.fail (.invalidInput "input and output paths must be different")
  else do
    let header ← Prog.ofExcept (Header.new options.mode options.chunkSize salt fileId)
    let suite ← Prog.ofExcept (deriveSuite master header header.encode)
    let rest ← readFile input
    let temporary ← createOutputTemp name output options.overwrite
    dropping temporary (encryptTo suite options.chunkSize temporary rest)
    persistOutput temporary output options.overwrite

/-! ## Decrypting -/

/-- A data record behind its first byte: the state after it, and the rest of the input. -/
def decryptRecord (suite : Suite) (temporary : Path) (st : LoopState) (rest : Bytes) :
    FileProg (LoopState × Bytes) :=
  if st.sawManifest then Prog.fail (.invalidFormat "data after manifest")
  else do
    let (fields, rest) ← readExact rest 16
    let index := ofLe64 (slice fields 0 8)
    let plaintextLength := ofLe32 (slice fields 8 4)
    let bodyLength := ofLe32 (slice fields 12 4)
    if index ≠ st.index then Prog.fail .authenticationFailed
    else if maxRecords ≤ index.toNat then Prog.fail (.limitExceeded "too many records")
    else if suite.header.chunkSize < plaintextLength then
      Prog.fail (.invalidFormat "record exceeds header chunk size")
    else if bodyLength.toNat ≠ nativeTagSize + plaintextLength.toNat + suite.tagSize then
      Prog.fail (.invalidFormat "record body length mismatch")
    else do
      let (body, rest) ← readExact rest bodyLength.toNat
      let frame := dataRecord :: fields
      let plaintext ← Prog.ofExcept (openRecord suite index plaintextLength frame body)
      write temporary plaintext
      match checkedAdd st.total plaintextLength.toUInt64 with
      | none => Prog.fail (.limitExceeded "file length overflow")
      | some total => pure (st.next total frame body, rest)

/-- The manifest behind its first byte, and the end of the file. -/
def decryptManifest (suite : Suite) (st : LoopState) (rest : Bytes) : FileProg LoopState :=
  if st.sawManifest then Prog.fail (.invalidFormat "duplicate manifest")
  else do
    let (field, rest) ← readExact rest 4
    let bodyLength := ofLe32 field
    if bodyLength.toNat ≠ manifestInnerSize + suite.tagSize then
      Prog.fail (.invalidFormat "manifest body length mismatch")
    else do
      let (body, rest) ← readExact rest bodyLength.toNat
      Prog.ofExcept (openManifest suite st bodyLength body)
      let (trailing, _) ← read rest 1
      if trailing = [] then pure { st with sawManifest := true }
      else Prog.fail (.invalidFormat "trailing bytes after manifest")

/-- The loop of `decrypt_file`. -/
def decryptLoop (suite : Suite) (temporary : Path) : ℕ → LoopState → Bytes → FileProg LoopState
  | 0, st, _ => pure st
  | rounds + 1, st, rest => do
    let (first, rest) ← read rest 1
    match first with
    | [] => pure st
    | kind :: _ =>
      if kind = dataRecord then do
        let (st, rest) ← decryptRecord suite temporary st rest
        decryptLoop suite temporary rounds st rest
      else if kind = manifestRecord then decryptManifest suite st rest
      else Prog.fail (.invalidFormat "unknown record type")

/-- What `decrypt_file` writes to its temporary. -/
def decryptTo (suite : Suite) (temporary : Path) (rest : Bytes) : FileProg Unit := do
  let st ← decryptLoop suite temporary (rest.length + 1) (.start suite.headerBytes) rest
  if st.sawManifest then pure () else Prog.fail .authenticationFailed

def decryptFile (name : String) (input output : Path) (master : MasterKey) (overwrite : Bool) :
    FileProg FileInfo :=
  if input = output then
    Prog.fail (.invalidInput "input and output paths must be different")
  else do
    let bytes ← readFile input
    let (headerBytes, rest) ← readExact bytes headerSize
    let header ← Prog.ofExcept (Header.decode headerBytes)
    let suite ← Prog.ofExcept (deriveSuite master header headerBytes)
    let temporary ← createOutputTemp name output overwrite
    dropping temporary (decryptTo suite temporary rest)
    persistOutput temporary output overwrite
    pure header.info

/-! ## What is written to the temporary -/

section

variable {suite : Suite} {temporary : Path} {st : LoopState} {rest written : Bytes} {h : Host Path}

theorem leaves_decryptRecord (suite : Suite) (temporary : Path) (st : LoopState) (rest : Bytes) :
    Leaves (outside temporary) (decryptRecord suite temporary st rest) := by
  unfold decryptRecord
  refine .ite (.fail _) (.bind (leaves_readExact _ _ _) fun r => ?_)
  refine .ite (.fail _) (.ite (.fail _) (.ite (.fail _) (.ite (.fail _) ?_)))
  refine .bind (leaves_readExact _ _ _) fun r => .bind (.ofExcept _) fun plaintext => ?_
  refine .bind (leaves_write _ _) fun _ => ?_
  split
  · exact .fail _
  · exact .pure _

theorem leaves_decryptManifest (suite : Suite) (temporary : Path) (st : LoopState) (rest : Bytes) :
    Leaves (outside temporary) (decryptManifest suite st rest) := by
  unfold decryptManifest
  refine .ite (.fail _) (.bind (leaves_readExact _ _ _) fun r => .ite (.fail _) ?_)
  refine .bind (leaves_readExact _ _ _) fun r => .bind (.ofExcept _) fun _ => ?_
  exact .bind (leaves_read _ _ _) fun r => .ite (.pure _) (.fail _)

/-- Decrypting to the temporary touches nothing else. -/
theorem leaves_decryptLoop (suite : Suite) (temporary : Path) (rounds : ℕ) (st : LoopState)
    (rest : Bytes) : Leaves (outside temporary) (decryptLoop suite temporary rounds st rest) := by
  induction rounds generalizing st rest with
  | zero => exact .pure st
  | succ rounds ih =>
    unfold decryptLoop
    refine .bind (leaves_read _ _ _) fun r => ?_
    rcases r with ⟨_ | ⟨kind, tail⟩, behind⟩
    · exact .pure st
    · refine .ite (.bind (leaves_decryptRecord _ _ _ _) fun r => ih r.1 r.2) (.ite ?_ (.fail _))
      exact leaves_decryptManifest suite temporary st behind

theorem leaves_decryptTo (suite : Suite) (temporary : Path) (rest : Bytes) :
    Leaves (outside temporary) (decryptTo suite temporary rest) :=
  .bind (leaves_decryptLoop _ _ _ _ _) fun _ => .ite (.pure _) (.fail _)

omit [Crypto] in
theorem wp_readExact {n : ℕ} {Q : Post (Host Path) Error (Bytes × Bytes)}
    (hok : ∀ bs more, bs.length = n → rest = bs ++ more → Q.ok (bs, more) (h.tick h.files))
    (herror : ∀ e, Q.error e (h.tick h.files)) (hcrash : Q.crash (h.tick h.files)) :
    wp (readExact rest n) Q h := by
  refine wp_inspect (fun r _ hr => ?_) (fun f _ => herror _) fun _ => hcrash
  split at hr
  next hn =>
    obtain rfl := Except.ok.inj hr
    exact hok _ _ (List.length_take_of_le hn) (List.take_append_drop n rest).symm
  · exact absurd hr (by simp)

omit [Crypto] in
theorem wp_read_one {Q : Post (Host Path) Error (Bytes × Bytes)}
    (hend : rest = [] → Q.ok ([], []) (h.tick h.files))
    (hok : ∀ b more, rest = b :: more → Q.ok ([b], more) (h.tick h.files))
    (herror : ∀ e, Q.error e (h.tick h.files)) (hcrash : Q.crash (h.tick h.files)) :
    wp (read rest 1) Q h := by
  refine wp_inspect (fun r _ hr => ?_) (fun f _ => herror _) fun _ => hcrash
  obtain rfl := Except.ok.inj hr
  rw [Nat.min_eq_left (Nat.le_max_left 1 _)]
  rcases rest with _ | ⟨b, more⟩
  · exact hend rfl
  · exact hok b more rfl

omit [Crypto] in
/-- The sixteen bytes behind the first one of a record. -/
theorem recordFrame_fields {fields : Bytes} (h : fields.length = 16) :
    dataRecord :: fields = recordFrame (ofLe64 (slice fields 0 8)) (ofLe32 (slice fields 8 4))
      (ofLe32 (slice fields 12 4)) := by
  have hall : slice fields 0 16 = fields := by
    rw [slice, List.drop_zero, List.take_of_length_le (by omega)]
  have h0 : slice fields 0 16 = slice fields 0 8 ++ slice fields 8 8 := slice_add fields 0 8 8
  have h8 : slice fields 8 8 = slice fields 8 4 ++ slice fields 12 4 := slice_add fields 8 4 4
  rw [recordFrame, le64_ofLe64 (length_slice (by omega)), le32_ofLe32 (length_slice (by omega)),
    le32_ofLe32 (length_slice (by omega)), ← h8, ← h0, hall]

omit [Crypto] in
theorem manifestFrame_field {field : Bytes} (h : field.length = 4) :
    manifestRecord :: field = manifestFrame (ofLe32 field) := by
  rw [manifestFrame, le32_ofLe32 h]

/-- **A record that is read** extends what is accepted behind it by its plaintext. -/
theorem wp_decryptRecord (hhas : h.Has temporary written) :
    wp (decryptRecord suite temporary st rest) (.ifOk fun r t =>
      r.1.sawManifest = false ∧ ∃ plaintext, t.Has temporary (written ++ plaintext) ∧
        ∀ plaintexts, Accepted suite r.1 r.2 plaintexts →
          Accepted suite st (dataRecord :: rest) (plaintext :: plaintexts)) h := by
  unfold decryptRecord
  refine wp_ifOk_guard fun hsaw => ?_
  rw [wp_bind]
  refine wp_readExact (fun fields more hfields hrest => ?_) (fun _ => trivial) trivial
  dsimp only
  refine wp_ifOk_guard fun hindex => ?_
  refine wp_ifOk_guard fun hcount => ?_
  refine wp_ifOk_guard fun hsize => ?_
  refine wp_ifOk_guard fun hlen => ?_
  rw [ne_eq, not_not] at hindex hlen
  rw [wp_bind]
  refine wp_readExact (fun body behind hbody hmore => ?_) (fun _ => trivial) trivial
  dsimp only
  rw [wp_bind, wp_ofExcept]
  refine ⟨fun plaintext hopen => ?_, fun _ _ => trivial⟩
  dsimp only
  rw [wp_bind]
  refine wp_write (fun _ => ?_) (fun _ _ => trivial) fun _ _ => trivial
  rcases htotal : checkedAdd st.total (ofLe32 (slice fields 8 4)).toUInt64 with _ | total
  · exact wp_ifOk_fail _
  · refine (wp_pure _ _ _).mpr ⟨Bool.eq_false_iff.mpr hsaw, plaintext, ?_,
      fun plaintexts hothers => ?_⟩
    · exact Host.Has.append (h := (h.tick h.files).tick h.files) hhas plaintext
    · dsimp only at hothers
      rw [recordFrame_fields hfields, hindex] at hothers hopen
      rw [hrest, hmore, ← List.cons_append, recordFrame_fields hfields, hindex]
      rw [hindex] at hcount
      exact .record (Nat.lt_of_not_le hcount)
        (UInt32.not_lt.mp hsize) hlen hbody hopen htotal hothers

theorem wp_decryptManifest : wp (decryptManifest suite st rest) (.ifOk fun _ t =>
    t.files = h.files ∧ Accepted suite st (manifestRecord :: rest) []) h := by
  unfold decryptManifest
  refine wp_ifOk_guard fun _ => ?_
  rw [wp_bind]
  refine wp_readExact (fun field more hfield hrest => ?_) (fun _ => trivial) trivial
  dsimp only
  refine wp_ifOk_guard fun hlen => ?_
  rw [ne_eq, not_not] at hlen
  rw [wp_bind]
  refine wp_readExact (fun body behind hbody hmore => ?_) (fun _ => trivial) trivial
  dsimp only
  rw [wp_bind, wp_ofExcept]
  refine ⟨fun _ hopen => ?_, fun _ _ => trivial⟩
  dsimp only
  rw [wp_bind]
  refine wp_read_one (fun hend => ?_) (fun b more _ => ?_) (fun _ => trivial) trivial
  · refine (wp_pure _ _ _).mpr ⟨rfl, ?_⟩
    rw [hrest, hmore, hend, List.append_nil, ← List.cons_append, manifestFrame_field hfield]
    exact .manifest hlen hbody hopen
  · exact wp_ifOk_fail _

/-- **The loop reads what is accepted, and nothing else**: when it has seen the manifest, the input
was accepted, and the temporary has the plaintexts. -/
theorem wp_decryptLoop (rounds : ℕ) (hsaw : st.sawManifest = false)
    (hhas : h.Has temporary written) :
    wp (decryptLoop suite temporary rounds st rest) (.ifOk fun st' t =>
      st'.sawManifest = true → ∃ plaintexts, Accepted suite st rest plaintexts ∧
        t.Has temporary (written ++ plaintexts.flatten)) h := by
  induction rounds generalizing st rest written h with
  | zero =>
    refine (wp_pure _ _ _).mpr fun htrue => ?_
    exact absurd (hsaw.symm.trans htrue) Bool.false_ne_true
  | succ rounds ih =>
    unfold decryptLoop
    rw [wp_bind]
    refine wp_read_one (fun _ => ?_) (fun kind more hrest => ?_) (fun _ => trivial) trivial
    · refine (wp_pure _ _ _).mpr fun htrue => ?_
      exact absurd (hsaw.symm.trans htrue) Bool.false_ne_true
    · show wp (if kind = dataRecord then _ else _) _ _
      rw [wp_ite]
      refine ⟨?_, fun _ => ?_⟩
      · rintro rfl
        rw [wp_bind]
        refine wp_mono (wp_decryptRecord hhas) ?_ (fun _ _ _ => trivial) fun _ _ => trivial
        rintro r t ⟨hsaw', plaintext, hhas', hextend⟩
        refine wp_mono (ih hsaw' hhas') (fun st' t' hst' htrue => ?_) (fun _ _ _ => trivial)
          fun _ _ => trivial
        obtain ⟨plaintexts, haccepted, hall⟩ := hst' htrue
        refine ⟨plaintext :: plaintexts, ?_, ?_⟩
        · rw [hrest]
          exact hextend plaintexts haccepted
        · rw [List.flatten_cons, ← List.append_assoc]
          exact hall
      · rw [wp_ite]
        refine ⟨?_, fun _ => wp_ifOk_fail _⟩
        rintro rfl
        refine wp_mono wp_decryptManifest ?_ (fun _ _ _ => trivial) fun _ _ => trivial
        rintro st' t ⟨hfiles, haccepted⟩ -
        refine ⟨[], ?_, ?_⟩
        · rw [hrest]
          exact haccepted
        · obtain ⟨synced, hc⟩ := hhas
          rw [List.flatten_nil, List.append_nil]
          exact ⟨synced, by rw [hfiles]; exact hc⟩

/-! ## Reading what is accepted -/

/-- A record that is accepted is read, when no call fails. -/
theorem decryptRecord_accepted {plaintextLength bodyLength : UInt32} {total : UInt64}
    {body plaintext : Bytes} (rest : Bytes) (hq : h.Quiet) (hsaw : st.sawManifest = false)
    (hindex : st.index.toNat < maxRecords) (hsize : plaintextLength ≤ suite.header.chunkSize)
    (hlen : bodyLength.toNat = nativeTagSize + plaintextLength.toNat + suite.tagSize)
    (hbody : body.length = bodyLength.toNat)
    (hopen : openRecord suite st.index plaintextLength
      (recordFrame st.index plaintextLength bodyLength) body = .ok plaintext)
    (htotal : checkedAdd st.total plaintextLength.toUInt64 = some total)
    (hhas : h.Has temporary written) :
    wp (decryptRecord suite temporary st
        (le64 st.index ++ (le32 plaintextLength ++ le32 bodyLength) ++ (body ++ rest)))
      (.only fun r t =>
        r = (st.next total (recordFrame st.index plaintextLength bodyLength) body, rest) ∧
        t.Has temporary (written ++ plaintext)) h := by
  generalize hfields : le64 st.index ++ (le32 plaintextLength ++ le32 bodyLength) = fields
  have hshape : fields = [le64 st.index, le32 plaintextLength, le32 bodyLength].flatten := by
    simp only [← hfields, List.flatten_cons, List.flatten_nil, List.append_nil]
  have hlength : fields.length = 16 := by
    rw [← hfields, List.length_append, List.length_append, length_le64, length_le32, length_le32]
  have hindexField : slice fields 0 8 = le64 st.index := by
    rw [hshape]
    exact slice_flatten 0 rfl rfl (length_le64 _)
  have hplaintextField : slice fields 8 4 = le32 plaintextLength := by
    rw [hshape]
    exact slice_flatten 1 rfl (by simp) (length_le32 _)
  have hbodyField : slice fields 12 4 = le32 bodyLength := by
    rw [hshape]
    exact slice_flatten 2 rfl (by simp) (length_le32 _)
  have hframe : dataRecord :: fields = recordFrame st.index plaintextLength bodyLength := by
    rw [recordFrame, hfields]
  unfold decryptRecord
  rw [hsaw, if_neg Bool.false_ne_true, wp_bind]
  refine wp_of_ok (readExact_ok _ hq.fault hlength) ?_
  dsimp only
  rw [hindexField, hplaintextField, hbodyField, ofLe64_le64, ofLe32_le32, ofLe32_le32,
    if_neg (by rw [ne_eq, not_not]), if_neg (Nat.not_le_of_lt hindex),
    if_neg (UInt32.not_lt.mpr hsize), if_neg (by rw [ne_eq, not_not]; exact hlen), wp_bind]
  refine wp_of_ok (readExact_ok _ (hq.tick _).fault hbody) ?_
  dsimp only
  rw [wp_bind, hframe, hopen, wp_ofExcept_ok]
  dsimp only
  rw [wp_bind]
  refine wp_of_ok (write_ok ((hq.tick _).tick _).fault) ?_
  dsimp only
  rw [htotal]
  exact (wp_pure _ _ _).mpr ⟨rfl,
    Host.Has.append (h := (h.tick h.files).tick h.files) hhas plaintext⟩

theorem decryptManifest_accepted {bodyLength : UInt32} {body : Bytes} (hq : h.Quiet)
    (hsaw : st.sawManifest = false) (hlen : bodyLength.toNat = manifestInnerSize + suite.tagSize)
    (hbody : body.length = bodyLength.toNat)
    (hopen : openManifest suite st bodyLength body = .ok ()) :
    wp (decryptManifest suite st (le32 bodyLength ++ body))
      (.only fun st' t => st'.sawManifest = true ∧ t.files = h.files) h := by
  unfold decryptManifest
  rw [hsaw, if_neg Bool.false_ne_true, wp_bind]
  refine wp_of_ok (readExact_ok _ hq.fault (length_le32 _)) ?_
  dsimp only
  rw [ofLe32_le32, if_neg (by rw [ne_eq, not_not]; exact hlen), wp_bind]
  have hread : (readExact body bodyLength.toNat : FileProg (Bytes × Bytes)) (h.tick h.files) =
      (.ok (body, []), (h.tick h.files).tick h.files) := by
    have hjoined := readExact_ok (ε := Error) [] (hq.tick h.files).fault hbody
    rw [List.append_nil] at hjoined
    exact hjoined
  refine wp_of_ok hread ?_
  dsimp only
  rw [wp_bind, hopen, wp_ofExcept_ok]
  dsimp only
  rw [wp_bind]
  refine wp_of_ok (read_one_ok [] ((hq.tick _).tick _).fault) ?_
  exact (wp_pure _ _ _).mpr ⟨rfl, rfl⟩

/-- **What is accepted is read**, to the manifest, when no call fails. -/
theorem decryptLoop_accepted {plaintexts : List Bytes}
    (haccepted : Accepted suite st rest plaintexts)
    {rounds : ℕ} (hrounds : rest.length < rounds) (hq : h.Quiet) (hsaw : st.sawManifest = false)
    (hhas : h.Has temporary written) :
    wp (decryptLoop suite temporary rounds st rest) (.only fun st' t => st'.sawManifest = true ∧
      t.Has temporary (written ++ plaintexts.flatten)) h := by
  induction haccepted generalizing rounds h written with
  | @manifest st bodyLength body hlen hbody hopen =>
    obtain ⟨rounds, rfl⟩ := Nat.exists_eq_succ_of_ne_zero (Nat.ne_zero_of_lt hrounds)
    unfold decryptLoop
    rw [wp_bind]
    refine wp_of_ok (read_one_ok _ hq.fault) ?_
    show wp (decryptManifest suite st (le32 bodyLength ++ body)) _ (h.tick h.files)
    refine wp_mono (decryptManifest_accepted (hq.tick _) hsaw hlen hbody hopen) ?_
      (fun _ _ hf => hf) fun _ hf => hf
    rintro st' t ⟨hsaw', hfiles⟩
    obtain ⟨synced, hc⟩ := hhas
    rw [List.flatten_nil, List.append_nil]
    exact ⟨hsaw', synced, by rw [hfiles]; exact hc⟩
  | @record st plaintextLength bodyLength total body rest plaintext plaintexts hindex hsize hlen
      hbody hopen htotal hrest ih =>
    obtain ⟨rounds, rfl⟩ := Nat.exists_eq_succ_of_ne_zero (Nat.ne_zero_of_lt hrounds)
    have hframe : 0 < (recordFrame st.index plaintextLength bodyLength).length := Nat.succ_pos _
    rw [List.length_append, List.length_append] at hrounds
    unfold decryptLoop
    rw [wp_bind]
    refine wp_of_ok (read_one_ok _ hq.fault) ?_
    show wp (decryptRecord suite temporary st _ >>= fun r =>
      decryptLoop suite temporary rounds r.1 r.2) _ (h.tick h.files)
    rw [wp_bind]
    have hhas' : (h.tick h.files).Has temporary written := hhas
    have hrecord :=
      decryptRecord_accepted rest (hq.tick _) hsaw hindex hsize hlen hbody hopen htotal hhas'
    refine wp_mono (wp_and hrecord ((leaves_decryptRecord suite temporary st _).wp _)) ?_
      (fun _ _ hf => hf.1.elim) fun _ hf => hf.1.elim
    rintro r t ⟨⟨rfl, hgrown⟩, houtside⟩
    have hq' : t.Quiet := fun n => by
      rw [(of_outside_eq houtside).2.2]
      exact hq n
    refine wp_mono (ih (by omega) hq' hsaw hgrown) ?_ (fun _ _ hf => hf) fun _ hf => hf
    rintro st' t' ⟨hsaw', hall⟩
    refine ⟨hsaw', ?_⟩
    rw [List.flatten_cons, ← List.append_assoc]
    exact hall

end

end Container
end OrIsyVra
