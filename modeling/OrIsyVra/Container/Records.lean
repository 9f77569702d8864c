import OrIsyVra.Container.Sealing

/-!
# What a container is

A container is a header, one framed record for each chunk of plaintext, and a framed manifest.
`build` puts one together from a header and the list of its plaintexts; `Accepted` is the grammar of
what `decrypt_file` takes behind the header, read off its checks one by one.

The two describe the same byte strings.  What is built is accepted (`accepted_of_build`), when the
AEAD opens what it sealed; what is accepted is what is built from the plaintexts it opens to
(`Accepted.build`), when the AEAD seals what it opened.  Nothing accepted can be extended
(`Accepted.not_append`), whatever the AEAD does.
-/

namespace OrIsyVra
namespace Container

open ByteString MachineWord FaultProgram

variable [Crypto]

/-! ## What a header and a key determine -/

omit [Crypto] in
/-- The header of a container, its bytes, and everything derived from it. -/
structure Suite where
  header : Header
  headerBytes : Bytes
  keys : NativeKeys
  /-- The guard keys, in guarded mode. -/
  guard : Option GuardKeys
  binding : FixedBytes 32

def deriveSuite (master : MasterKey) (header : Header) (headerBytes : Bytes) : Except Error Suite :=
  let keys := deriveNativeKeys master header
  let binding := headerBinding keys header
  match header.mode with
  | .nativeResearch => .ok ⟨header, headerBytes, keys, none, binding⟩
  | .guarded => do
    let guard ← deriveGuardKeys master header
    .ok ⟨header, headerBytes, keys, some guard, binding⟩

namespace Suite

omit [Crypto] in
/-- How much longer a body is than what the guard protects. -/
def tagSize (suite : Suite) : ℕ :=
  match suite.guard with
  | none => 0
  | some _ => guardTagSize

/-- Put the guard around a native body. -/
def sealBody (suite : Suite) (index : UInt64) (kind : UInt8) (frame native : Bytes) :
    Except Error Bytes :=
  match suite.guard with
  | none => .ok native
  | some keys => guardSeal keys suite.header index kind (suite.headerBytes ++ frame) native

def openBody (suite : Suite) (index : UInt64) (kind : UInt8) (frame body : Bytes) :
    Except Error Bytes :=
  match suite.guard with
  | none => .ok body
  | some keys => guardOpen keys suite.header index kind (suite.headerBytes ++ frame) body

end Suite

theorem deriveSuite_header {master : MasterKey} {header : Header} {headerBytes : Bytes}
    {suite : Suite} (h : deriveSuite master header headerBytes = .ok suite) :
    suite.header = header ∧ suite.headerBytes = headerBytes ∧
      suite.keys = deriveNativeKeys master header ∧
      suite.binding = headerBinding (deriveNativeKeys master header) header := by
  unfold deriveSuite at h
  dsimp only at h
  split at h
  · obtain rfl := Except.ok.inj h
    exact ⟨rfl, rfl, rfl, rfl⟩
  · rcases hguard : deriveGuardKeys master header with e | guard <;> rw [hguard] at h
    · exact absurd h (by simp [bind, Except.bind])
    · obtain rfl := Except.ok.inj h
      exact ⟨rfl, rfl, rfl, rfl⟩

/-! ## Building -/

/-- The index the guard uses for the manifest. -/
def manifestIndex : UInt64 := UInt64.ofNat (2 ^ 64 - 1)

/-- The frame and the body of a record. -/
def buildRecord (suite : Suite) (index : UInt64) (plaintext : Bytes) :
    Except Error (Bytes × Bytes) := do
  let native ← sealNative suite.keys suite.binding index plaintext
  let announced := native.length + suite.tagSize
  if 2 ^ 32 ≤ announced then .error (.limitExceeded "record too large")
  else do
    let plaintextLength := UInt32.ofNat plaintext.length
    let body ← suite.sealBody index dataRecord
      (recordFrame index plaintextLength (UInt32.ofNat announced)) native
    if 2 ^ 32 ≤ body.length then .error (.limitExceeded "record too large")
    else .ok (recordFrame index plaintextLength (UInt32.ofNat body.length), body)

/-- The frame and the body of the manifest over what has been written. -/
def buildManifest (suite : Suite) (transcript : Bytes) (totalLength recordCount : UInt64) :
    Except Error (Bytes × Bytes) := do
  let inner := nativeManifestInner suite.keys suite.binding totalLength recordCount
    (Crypto.sha384 transcript)
  let body ← suite.sealBody manifestIndex manifestRecord
    (manifestFrame (UInt32.ofNat (manifestInnerSize + suite.tagSize))) inner
  if 2 ^ 32 ≤ body.length then .error (.limitExceeded "manifest too large")
  else .ok (manifestFrame (UInt32.ofNat body.length), body)

/-- The records of some plaintexts, numbered from an index. -/
def buildRecords (suite : Suite) : UInt64 → List Bytes → Except Error Bytes
  | _, [] => .ok []
  | index, plaintext :: plaintexts => do
    let (frame, body) ← buildRecord suite index plaintext
    let rest ← buildRecords suite (index + 1) plaintexts
    .ok (frame ++ (body ++ rest))

omit [Crypto] in
def totalLength (plaintexts : List Bytes) : ℕ := (plaintexts.map List.length).sum

/-- **The container** of a header and a list of plaintexts. -/
def build (master : MasterKey) (header : Header) (plaintexts : List Bytes) :
    Except Error Bytes := do
  let suite ← deriveSuite master header header.encode
  let records ← buildRecords suite 0 plaintexts
  let (frame, body) ← buildManifest suite (header.encode ++ records)
    (UInt64.ofNat (totalLength plaintexts)) (UInt64.ofNat plaintexts.length)
  .ok (header.encode ++ (records ++ (frame ++ body)))

/-! ## The grammar of what is accepted -/

omit [Crypto] in
/-- What both loops carry from record to record. -/
structure LoopState where
  index : UInt64
  total : UInt64
  transcript : Bytes
  sawManifest : Bool

omit [Crypto] in
def LoopState.start (headerBytes : Bytes) : LoopState := ⟨0, 0, headerBytes, false⟩

omit [Crypto] in
/-- After a record. -/
def LoopState.next (st : LoopState) (total : UInt64) (frame body : Bytes) : LoopState :=
  { st with index := st.index + 1, total := total, transcript := st.transcript ++ (frame ++ body) }

/-- Both layers of a record. -/
def openRecord (suite : Suite) (index : UInt64) (plaintextLength : UInt32) (frame body : Bytes) :
    Except Error Bytes := do
  let native ← suite.openBody index dataRecord frame body
  openNative suite.keys suite.binding index plaintextLength native

/-- Both layers of a manifest. -/
def openManifest (suite : Suite) (st : LoopState) (bodyLength : UInt32) (body : Bytes) :
    Except Error Unit := do
  let inner ← suite.openBody manifestIndex manifestRecord (manifestFrame bodyLength) body
  verifyManifestInner suite.keys suite.binding inner st.total st.index (Crypto.sha384 st.transcript)

/-- **What is accepted** behind the header, and the plaintexts it opens to: verified records with
the next index each, then one manifest over all of them, and nothing behind it. -/
inductive Accepted (suite : Suite) : LoopState → Bytes → List Bytes → Prop where
  | manifest {st : LoopState} {bodyLength : UInt32} {body : Bytes}
      (hlen : bodyLength.toNat = manifestInnerSize + suite.tagSize)
      (hbody : body.length = bodyLength.toNat)
      (hopen : openManifest suite st bodyLength body = .ok ()) :
      Accepted suite st (manifestFrame bodyLength ++ body) []
  | record {st : LoopState} {plaintextLength bodyLength : UInt32} {total : UInt64}
      {body rest plaintext : Bytes} {plaintexts : List Bytes}
      (hindex : st.index.toNat < maxRecords) (hsize : plaintextLength ≤ suite.header.chunkSize)
      (hlen : bodyLength.toNat = nativeTagSize + plaintextLength.toNat + suite.tagSize)
      (hbody : body.length = bodyLength.toNat)
      (hopen : openRecord suite st.index plaintextLength
        (recordFrame st.index plaintextLength bodyLength) body = .ok plaintext)
      (htotal : checkedAdd st.total plaintextLength.toUInt64 = some total)
      (hrest : Accepted suite
        (st.next total (recordFrame st.index plaintextLength bodyLength) body) rest plaintexts) :
      Accepted suite st (recordFrame st.index plaintextLength bodyLength ++ (body ++ rest))
        (plaintext :: plaintexts)

/-- A whole file that is accepted. -/
def AcceptedFile (master : MasterKey) (file : Bytes) (header : Header) (plaintexts : List Bytes) :
    Prop :=
  ∃ suite rest, deriveSuite master header header.encode = .ok suite ∧ file = header.encode ++ rest ∧
    Accepted suite (.start header.encode) rest plaintexts

/-- A record as it stands in a file. -/
structure Record where
  plaintextLength : UInt32
  bodyLength : UInt32
  body : Bytes

def Record.frame (record : Record) (index : UInt64) : Bytes :=
  recordFrame index record.plaintextLength record.bodyLength

/-- Records one after the other, numbered from an index. -/
def encodeRecords : UInt64 → List Record → Bytes
  | _, [] => []
  | index, record :: records =>
    record.frame index ++ (record.body ++ encodeRecords (index + 1) records)

/-- Each record is whole, and opens under its number to its plaintext. -/
def Opens (suite : Suite) : UInt64 → List Record → List Bytes → Prop
  | _, [], [] => True
  | index, record :: records, plaintext :: plaintexts =>
    record.body.length = record.bodyLength.toNat ∧
      openRecord suite index record.plaintextLength (record.frame index) record.body =
        .ok plaintext ∧
      Opens suite (index + 1) records plaintexts
  | _, _, _ => False

/-- **The shape of what is accepted**: records numbered one after the other, each verified, and
behind them one manifest over all of them. -/
theorem Accepted.shape {suite : Suite} {st : LoopState} {rest : Bytes} {plaintexts : List Bytes}
    (h : Accepted suite st rest plaintexts) :
    ∃ records bodyLength body total index,
      rest = encodeRecords st.index records ++ (manifestFrame bodyLength ++ body) ∧
      Opens suite st.index records plaintexts ∧ body.length = bodyLength.toNat ∧
      openManifest suite ⟨index, total, st.transcript ++ encodeRecords st.index records,
        st.sawManifest⟩ bodyLength body = .ok () ∧
      total.toNat = st.total.toNat + totalLength plaintexts ∧
      index.toNat = st.index.toNat + plaintexts.length := by
  induction h with
  | @manifest st bodyLength body hlen hbody hopen =>
    refine ⟨[], bodyLength, body, st.total, st.index, rfl, trivial, hbody, ?_, rfl, rfl⟩
    show openManifest suite ⟨st.index, st.total, st.transcript ++ [], st.sawManifest⟩
      bodyLength body = _
    rw [List.append_nil]
    exact hopen
  | @record st plaintextLength bodyLength total body rest plaintext plaintexts hindex hsize hlen
      hbody hopen htotal hrest ih =>
    obtain ⟨records, manifestLength, manifest, total', index', rfl, hopens, hmanifest, hverified,
      htotal', hindex'⟩ := ih
    have hbound : maxRecords = 2 ^ 20 := rfl
    have hnext : total.toNat = st.total.toNat + plaintextLength.toUInt64.toNat :=
      checkedAdd_eq_some.mp htotal
    obtain ⟨native, -, hplaintext⟩ := except_bind_eq_ok.mp hopen
    have hlength := (openNative_eq_ok_iff.mp hplaintext).1
    refine ⟨⟨plaintextLength, bodyLength, body⟩ :: records, manifestLength, manifest, total',
      index', ?_, ⟨hbody, hopen, hopens⟩, hmanifest, ?_, ?_, ?_⟩
    · show _ = (_ ++ (body ++ encodeRecords (st.index + 1) records)) ++ _
      simp only [LoopState.next, Record.frame, List.append_assoc]
    · rw [LoopState.next, List.append_assoc, List.append_assoc] at hverified
      exact hverified
    · rw [htotal']
      show total.toNat + totalLength plaintexts =
        st.total.toNat + (plaintext.length + totalLength plaintexts)
      rw [hnext, UInt32.toNat_toUInt64, hlength]
      omega
    · rw [hindex']
      show (st.index + 1).toNat + plaintexts.length = st.index.toNat + (plaintexts.length + 1)
      rw [toNat_add_one (by omega)]
      omega

/-! ## Bodies -/

section

variable {suite : Suite} {index : UInt64} {kind : UInt8} {frame native body plaintext : Bytes}

theorem Suite.sealBody_of_openBody (hfaithful : GuardFaithful)
    (h : suite.openBody index kind frame body = .ok native) :
    suite.sealBody index kind frame native = .ok body := by
  unfold Suite.openBody at h
  unfold Suite.sealBody
  rcases hguard : suite.guard with _ | keys <;> rw [hguard] at h
  · obtain rfl := Except.ok.inj h
    rfl
  · exact guardSeal_of_guardOpen hfaithful h

theorem Suite.openBody_of_sealBody [LawfulCrypto]
    (h : suite.sealBody index kind frame native = .ok body) :
    body.length = native.length + suite.tagSize ∧
      suite.openBody index kind frame body = .ok native := by
  unfold Suite.sealBody at h
  unfold Suite.openBody Suite.tagSize
  rcases hguard : suite.guard with _ | keys <;> rw [hguard] at h
  · obtain rfl := Except.ok.inj h
    exact ⟨rfl, rfl⟩
  · exact guardSeal_eq_ok h

theorem Suite.sealBody_isOk [LawfulCrypto] (suite : Suite) (index : UInt64) (kind : UInt8)
    (frame : Bytes) (h : native.length < 2 ^ 32) :
    ∃ body, suite.sealBody index kind frame native = .ok body := by
  unfold Suite.sealBody
  rcases suite.guard with _ | keys
  · exact ⟨native, rfl⟩
  · exact guardSeal_isOk keys suite.header index kind _ h

omit [Crypto] in
theorem Suite.tagSize_le (suite : Suite) : suite.tagSize ≤ 16 := by
  unfold Suite.tagSize
  rcases suite.guard with _ | keys
  · exact Nat.zero_le 16
  · exact le_rfl

end

/-! ## What is accepted is what is built -/

/-- A record that opens is the record its plaintext is sealed to. -/
theorem buildRecord_of_openRecord (hfaithful : GuardFaithful) {suite : Suite} {index : UInt64}
    {plaintextLength bodyLength : UInt32} {body plaintext : Bytes}
    (hlen : bodyLength.toNat = nativeTagSize + plaintextLength.toNat + suite.tagSize)
    (hbody : body.length = bodyLength.toNat)
    (hopen : openRecord suite index plaintextLength
      (recordFrame index plaintextLength bodyLength) body = .ok plaintext) :
    plaintext.length = plaintextLength.toNat ∧ buildRecord suite index plaintext =
      .ok (recordFrame index plaintextLength bodyLength, body) := by
  obtain ⟨native, hnative, hplaintext⟩ := except_bind_eq_ok.mp hopen
  obtain ⟨hsize, hseal⟩ := openNative_eq_ok_iff.mp hplaintext
  have hannounced : native.length + suite.tagSize = bodyLength.toNat := by
    rw [length_of_sealNative hseal, hsize, hlen]
  have hword : bodyLength.toNat < 2 ^ 32 := bodyLength.toNat_lt
  refine ⟨hsize, ?_⟩
  unfold buildRecord
  refine except_bind_eq_ok.mpr ⟨native, hseal, ?_⟩
  dsimp only
  rw [hannounced, if_neg (by omega), hsize, UInt32.ofNat_toNat, UInt32.ofNat_toNat]
  refine except_bind_eq_ok.mpr ⟨body, Suite.sealBody_of_openBody hfaithful hnative, ?_⟩
  rw [hbody, if_neg (by omega), UInt32.ofNat_toNat]

/-- A manifest that is accepted is the one that is written. -/
theorem buildManifest_of_openManifest (hfaithful : GuardFaithful) {suite : Suite} {st : LoopState}
    {bodyLength : UInt32} {body : Bytes}
    (hlen : bodyLength.toNat = manifestInnerSize + suite.tagSize)
    (hbody : body.length = bodyLength.toNat)
    (hopen : openManifest suite st bodyLength body = .ok ()) :
    buildManifest suite st.transcript st.total st.index = .ok (manifestFrame bodyLength, body) := by
  obtain ⟨inner, hinner, hverify⟩ := except_bind_eq_ok.mp hopen
  have hword : bodyLength.toNat < 2 ^ 32 := bodyLength.toNat_lt
  obtain rfl := verifyManifestInner_iff.mp hverify
  unfold buildManifest
  dsimp only
  rw [← hlen, UInt32.ofNat_toNat]
  refine except_bind_eq_ok.mpr ⟨body, Suite.sealBody_of_openBody hfaithful hinner, ?_⟩
  rw [hbody, if_neg (by omega), UInt32.ofNat_toNat]

/-- **Accepted records and manifest are those built from the plaintexts.** -/
theorem Accepted.build (hfaithful : GuardFaithful) {suite : Suite} {st : LoopState} {rest : Bytes}
    {plaintexts : List Bytes} (h : Accepted suite st rest plaintexts) :
    ∃ records frame body total index, buildRecords suite st.index plaintexts = .ok records ∧
      buildManifest suite (st.transcript ++ records) total index = .ok (frame, body) ∧
      rest = records ++ (frame ++ body) ∧
      total.toNat = st.total.toNat + totalLength plaintexts ∧
      index.toNat = st.index.toNat + plaintexts.length := by
  induction h with
  | @manifest st bodyLength body hlen hbody hopen =>
    have hmanifest := buildManifest_of_openManifest hfaithful hlen hbody hopen
    refine ⟨[], manifestFrame bodyLength, body, st.total, st.index, rfl, ?_, rfl, rfl, rfl⟩
    rw [List.append_nil]
    exact hmanifest
  | @record st plaintextLength bodyLength total body rest plaintext plaintexts hindex hsize hlen
      hbody hopen htotal hrest ih =>
    obtain ⟨records, frame, mbody, total', index', hrecords, hmanifest, rfl, htotal', hindex'⟩ := ih
    obtain ⟨hplaintext, hrecord⟩ := buildRecord_of_openRecord hfaithful hlen hbody hopen
    generalize recordFrame st.index plaintextLength bodyLength = rframe at *
    have hbound : maxRecords = 2 ^ 20 := rfl
    refine ⟨rframe ++ (body ++ records), frame, mbody, total', index', ?_, ?_, ?_, ?_, ?_⟩
    · refine except_bind_eq_ok.mpr ⟨(rframe, body), hrecord, ?_⟩
      exact except_bind_eq_ok.mpr ⟨records, hrecords, rfl⟩
    · have htranscript : (st.next total rframe body).transcript ++ records =
          st.transcript ++ (rframe ++ (body ++ records)) := by
        rw [LoopState.next, List.append_assoc, List.append_assoc]
      rw [← htranscript]
      exact hmanifest
    · simp only [List.append_assoc]
    · have hnext : total.toNat = st.total.toNat + plaintextLength.toUInt64.toNat :=
        checkedAdd_eq_some.mp htotal
      rw [htotal']
      show total.toNat + totalLength plaintexts =
        st.total.toNat + (plaintext.length + totalLength plaintexts)
      rw [hnext, UInt32.toNat_toUInt64, hplaintext]
      omega
    · rw [hindex']
      show (st.index + 1).toNat + plaintexts.length = st.index.toNat + (plaintexts.length + 1)
      rw [toNat_add_one (by omega)]
      omega

/-- **A file that is accepted is the container of its header and its plaintexts.** -/
theorem AcceptedFile.build (hfaithful : GuardFaithful) {master : MasterKey} {file : Bytes}
    {header : Header} {plaintexts : List Bytes} (h : AcceptedFile master file header plaintexts) :
    Container.build master header plaintexts = .ok file := by
  obtain ⟨suite, rest, hsuite, rfl, haccepted⟩ := h
  obtain ⟨records, frame, body, total, index, hrecords, hmanifest, rfl, htotal, hindex⟩ :=
    haccepted.build hfaithful
  have htotal' : UInt64.ofNat (totalLength plaintexts) = total := by
    rw [show totalLength plaintexts = total.toNat by rw [htotal]; exact (Nat.zero_add _).symm,
      UInt64.ofNat_toNat]
  have hindex' : UInt64.ofNat plaintexts.length = index := by
    rw [show plaintexts.length = index.toNat by rw [hindex]; exact (Nat.zero_add _).symm,
      UInt64.ofNat_toNat]
  unfold Container.build
  refine except_bind_eq_ok.mpr ⟨suite, hsuite, except_bind_eq_ok.mpr ⟨records, hrecords, ?_⟩⟩
  rw [htotal', hindex']
  exact except_bind_eq_ok.mpr ⟨(frame, body), hmanifest, rfl⟩

/-! ## What is built is accepted -/

section

variable [LawfulCrypto]

theorem openRecord_of_buildRecord {suite : Suite} {index : UInt64} {plaintext frame body : Bytes}
    (h : buildRecord suite index plaintext = .ok (frame, body)) :
    ∃ plaintextLength bodyLength : UInt32, frame = recordFrame index plaintextLength bodyLength ∧
      plaintextLength.toNat = plaintext.length ∧
      bodyLength.toNat = nativeTagSize + plaintextLength.toNat + suite.tagSize ∧
      body.length = bodyLength.toNat ∧
      openRecord suite index plaintextLength frame body = .ok plaintext := by
  obtain ⟨native, hseal, h⟩ := except_bind_eq_ok.mp h
  have hnative := length_of_sealNative hseal
  dsimp only at h
  split at h
  · exact absurd h (by simp)
  next hannounced =>
  obtain ⟨body', hbody, h⟩ := except_bind_eq_ok.mp h
  split at h
  · exact absurd h (by simp)
  next hword =>
  obtain ⟨hframe, rfl⟩ := Prod.mk.inj (Except.ok.inj h)
  obtain ⟨hlen, hopen⟩ := Suite.openBody_of_sealBody hbody
  have hplaintext : (UInt32.ofNat plaintext.length).toNat = plaintext.length :=
    UInt32.toNat_ofNat_of_lt' (show plaintext.length < 2 ^ 32 by omega)
  have hsize : (UInt32.ofNat body'.length).toNat = body'.length :=
    UInt32.toNat_ofNat_of_lt' (show body'.length < 2 ^ 32 by omega)
  refine ⟨UInt32.ofNat plaintext.length, UInt32.ofNat body'.length, hframe.symm, hplaintext, ?_,
    hsize.symm, ?_⟩
  · rw [hsize, hplaintext, hlen, hnative]
  · rw [← hlen] at hopen
    rw [← hframe]
    refine except_bind_eq_ok.mpr ⟨native, hopen, ?_⟩
    exact openNative_eq_ok_iff.mpr ⟨hplaintext.symm, hseal⟩

theorem openManifest_of_buildManifest {suite : Suite} {st : LoopState} {frame body : Bytes}
    (h : buildManifest suite st.transcript st.total st.index = .ok (frame, body)) :
    ∃ bodyLength : UInt32, frame = manifestFrame bodyLength ∧
      bodyLength.toNat = manifestInnerSize + suite.tagSize ∧ body.length = bodyLength.toNat ∧
      openManifest suite st bodyLength body = .ok () := by
  obtain ⟨body', hbody, h⟩ := except_bind_eq_ok.mp h
  split at h
  · exact absurd h (by simp)
  next hword =>
  obtain ⟨hframe, rfl⟩ := Prod.mk.inj (Except.ok.inj h)
  obtain ⟨hlen, hopen⟩ := Suite.openBody_of_sealBody hbody
  rw [length_nativeManifestInner] at hlen
  have hsize : (UInt32.ofNat body'.length).toNat = body'.length :=
    UInt32.toNat_ofNat_of_lt' (show body'.length < 2 ^ 32 by omega)
  refine ⟨UInt32.ofNat body'.length, hframe.symm, hsize.trans hlen, hsize.symm, ?_⟩
  rw [← hlen] at hopen
  exact except_bind_eq_ok.mpr ⟨_, hopen, verifyManifestInner_iff.mpr rfl⟩

/-- **Built records and manifest are accepted.** -/
theorem accepted_of_build {suite : Suite} {st : LoopState} {plaintexts : List Bytes}
    {records frame body : Bytes} {total index : UInt64}
    (hrecords : buildRecords suite st.index plaintexts = .ok records)
    (hmanifest : buildManifest suite (st.transcript ++ records) total index = .ok (frame, body))
    (hsizes : ∀ p ∈ plaintexts, p.length ≤ suite.header.chunkSize.toNat)
    (hcount : st.index.toNat + plaintexts.length ≤ maxRecords)
    (htotal : total.toNat = st.total.toNat + totalLength plaintexts)
    (hindex : index.toNat = st.index.toNat + plaintexts.length) :
    Accepted suite st (records ++ (frame ++ body)) plaintexts := by
  induction plaintexts generalizing st records with
  | nil =>
    obtain rfl := Except.ok.inj hrecords
    obtain rfl : total = st.total := UInt64.toNat_inj.mp htotal
    obtain rfl : index = st.index := UInt64.toNat_inj.mp hindex
    rw [List.append_nil] at hmanifest
    obtain ⟨bodyLength, rfl, hlen, hbody, hopen⟩ := openManifest_of_buildManifest hmanifest
    exact .manifest hlen hbody hopen
  | cons plaintext plaintexts ih =>
    obtain ⟨⟨rframe, rbody⟩, hrecord, hothers⟩ := except_bind_eq_ok.mp hrecords
    obtain ⟨rest, hrest, hjoined⟩ := except_bind_eq_ok.mp hothers
    obtain rfl := Except.ok.inj hjoined
    obtain ⟨plaintextLength, bodyLength, rfl, hplaintext, hlen, hbody, hopen⟩ :=
      openRecord_of_buildRecord hrecord
    have hbound : maxRecords = 2 ^ 20 := rfl
    rw [List.length_cons] at hcount hindex
    have htotal' : total.toNat = st.total.toNat + (plaintext.length + totalLength plaintexts) :=
      htotal
    have hword : total.toNat < 2 ^ 64 := total.toNat_lt
    have hadd : checkedAdd st.total plaintextLength.toUInt64 =
        some (st.total + plaintextLength.toUInt64) :=
      checkedAdd_of_lt (by rw [UInt32.toNat_toUInt64, hplaintext]; omega)
    have hnextTotal := checkedAdd_eq_some.mp hadd
    rw [UInt32.toNat_toUInt64, hplaintext] at hnextTotal
    have hnextIndex : (st.index + 1).toNat = st.index.toNat + 1 := toNat_add_one (by omega)
    have hsize : plaintextLength ≤ suite.header.chunkSize := by
      rw [UInt32.le_iff_toNat_le, hplaintext]
      exact hsizes plaintext List.mem_cons_self
    rw [List.append_assoc, List.append_assoc]
    refine .record (by omega) hsize hlen hbody hopen hadd (ih hrest ?_
      (fun p hp => hsizes p (List.mem_cons_of_mem _ hp)) ?_ ?_ ?_)
    · rw [LoopState.next, List.append_assoc, List.append_assoc]
      exact hmanifest
    · show (st.index + 1).toNat + _ ≤ _
      omega
    · show _ = (st.total + plaintextLength.toUInt64).toNat + _
      omega
    · show _ = (st.index + 1).toNat + _
      omega

omit [LawfulCrypto] in
/-- What HKDF is relied on for: it does not refuse the one output size it is asked for. -/
theorem deriveSuite_isOk (hhkdf : ∀ salt ikm info : Bytes, (Crypto.hkdfSha384 salt ikm info).isSome)
    (master : MasterKey) (header : Header) (headerBytes : Bytes) :
    ∃ suite, deriveSuite master header headerBytes = .ok suite := by
  unfold deriveSuite
  dsimp only
  split
  · exact ⟨_, rfl⟩
  · obtain ⟨output, houtput⟩ := Option.isSome_iff_exists.mp (hhkdf header.salt.val master.val
      (ascii "OrIsyVra/guarded/XChaCha20Poly1305/v1" ++ header.fileId.val))
    rw [deriveGuardKeys, houtput]
    exact ⟨_, rfl⟩

theorem buildRecord_isOk (suite : Suite) (index : UInt64) {plaintext : Bytes}
    (h : plaintext.length ≤ suite.header.chunkSize.toNat) :
    ∃ frame body, buildRecord suite index plaintext = .ok (frame, body) := by
  have hchunk := (validateChunkSize_ok suite.header.valid).2
  have htag := suite.tagSize_le
  have hword : plaintext.length < 2 ^ 32 := by omega
  obtain ⟨native, hseal⟩ : ∃ native, sealNative suite.keys suite.binding index plaintext =
    .ok native :=
    sealNative_isOk hword
  have hnative : native.length = 32 + plaintext.length := length_of_sealNative hseal
  obtain ⟨body, hbody⟩ := Suite.sealBody_isOk suite index dataRecord (recordFrame index
    (UInt32.ofNat plaintext.length) (UInt32.ofNat (native.length + suite.tagSize)))
    (show native.length < 2 ^ 32 by omega)
  have hlen := (Suite.openBody_of_sealBody hbody).1
  refine ⟨recordFrame index (UInt32.ofNat plaintext.length) (UInt32.ofNat body.length), body, ?_⟩
  refine except_bind_eq_ok.mpr ⟨native, hseal, ?_⟩
  dsimp only
  rw [if_neg (by omega)]
  refine except_bind_eq_ok.mpr ⟨body, hbody, ?_⟩
  rw [if_neg (by omega)]

theorem buildManifest_isOk (suite : Suite) (transcript : Bytes) (total index : UInt64) :
    ∃ frame body, buildManifest suite transcript total index = .ok (frame, body) := by
  have htag := suite.tagSize_le
  have hinner : (nativeManifestInner suite.keys suite.binding total index
      (Crypto.sha384 transcript)).length = 96 := length_nativeManifestInner
  obtain ⟨body, hbody⟩ := Suite.sealBody_isOk suite manifestIndex manifestRecord
    (manifestFrame (UInt32.ofNat (manifestInnerSize + suite.tagSize)))
    (show (nativeManifestInner suite.keys suite.binding total index
      (Crypto.sha384 transcript)).length < 2 ^ 32 by omega)
  have hlen := (Suite.openBody_of_sealBody hbody).1
  refine ⟨manifestFrame (UInt32.ofNat body.length), body, ?_⟩
  refine except_bind_eq_ok.mpr ⟨body, hbody, ?_⟩
  rw [if_neg (by omega)]

theorem buildRecords_isOk (suite : Suite) (index : UInt64) {plaintexts : List Bytes}
    (h : ∀ p ∈ plaintexts, p.length ≤ suite.header.chunkSize.toNat) :
    ∃ records, buildRecords suite index plaintexts = .ok records := by
  induction plaintexts generalizing index with
  | nil => exact ⟨[], rfl⟩
  | cons plaintext plaintexts ih =>
    obtain ⟨frame, body, hrecord⟩ := buildRecord_isOk suite index (h plaintext List.mem_cons_self)
    obtain ⟨records, hrecords⟩ := ih (index + 1) fun p hp => h p (List.mem_cons_of_mem plaintext hp)
    refine ⟨frame ++ (body ++ records), ?_⟩
    exact except_bind_eq_ok.mpr ⟨_, hrecord, except_bind_eq_ok.mpr ⟨records, hrecords, rfl⟩⟩

/-- **There is a container for every list of plaintexts** none of which is larger than a chunk. -/
theorem build_isOk (hhkdf : ∀ salt ikm info : Bytes, (Crypto.hkdfSha384 salt ikm info).isSome)
    (master : MasterKey) (header : Header) {plaintexts : List Bytes}
    (h : ∀ p ∈ plaintexts, p.length ≤ header.chunkSize.toNat) :
    ∃ file, build master header plaintexts = .ok file := by
  obtain ⟨suite, hsuite⟩ := deriveSuite_isOk hhkdf master header header.encode
  have hheader := (deriveSuite_header hsuite).1
  obtain ⟨records, hrecords⟩ := buildRecords_isOk suite 0 (hheader ▸ h)
  obtain ⟨frame, body, hmanifest⟩ := buildManifest_isOk suite (header.encode ++ records)
    (UInt64.ofNat (totalLength plaintexts)) (UInt64.ofNat plaintexts.length)
  refine ⟨header.encode ++ (records ++ (frame ++ body)), ?_⟩
  exact except_bind_eq_ok.mpr ⟨suite, hsuite, except_bind_eq_ok.mpr ⟨records, hrecords,
    except_bind_eq_ok.mpr ⟨(frame, body), hmanifest, rfl⟩⟩⟩

omit [Crypto] [LawfulCrypto] in
theorem totalLength_le {plaintexts : List Bytes} {n : ℕ} (h : ∀ p ∈ plaintexts, p.length ≤ n) :
    totalLength plaintexts ≤ plaintexts.length * n := by
  induction plaintexts with
  | nil => exact Nat.zero_le _
  | cons p ps ih =>
    have hp := h p List.mem_cons_self
    have hps := ih fun q hq => h q (List.mem_cons_of_mem p hq)
    show p.length + totalLength ps ≤ (ps.length + 1) * n
    rw [Nat.succ_mul]
    omega

omit [Crypto] [LawfulCrypto] in
/-- The total of as many records as there may be fits a word. -/
theorem totalLength_lt {header : Header} {plaintexts : List Bytes}
    (hsizes : ∀ p ∈ plaintexts, p.length ≤ header.chunkSize.toNat)
    (hcount : plaintexts.length ≤ maxRecords) : totalLength plaintexts < 2 ^ 64 := by
  have hchunk := (validateChunkSize_ok header.valid).2
  have hle : plaintexts.length * header.chunkSize.toNat ≤ 2 ^ 20 * 2 ^ 24 :=
    Nat.mul_le_mul hcount hchunk
  have hsum := totalLength_le hsizes
  omega

/-- **A container is accepted**, with the header and the plaintexts it was built from. -/
theorem acceptedFile_of_build {master : MasterKey} {header : Header} {plaintexts : List Bytes}
    {file : Bytes} (h : build master header plaintexts = .ok file)
    (hsizes : ∀ p ∈ plaintexts, p.length ≤ header.chunkSize.toNat)
    (hcount : plaintexts.length ≤ maxRecords) : AcceptedFile master file header plaintexts := by
  obtain ⟨suite, hsuite, h⟩ := except_bind_eq_ok.mp h
  obtain ⟨records, hrecords, h⟩ := except_bind_eq_ok.mp h
  obtain ⟨⟨frame, body⟩, hmanifest, h⟩ := except_bind_eq_ok.mp h
  obtain rfl := Except.ok.inj h
  have hheader := (deriveSuite_header hsuite).1
  have htotal := totalLength_lt hsizes hcount
  have hbound : maxRecords = 2 ^ 20 := rfl
  refine ⟨suite, _, hsuite, rfl, ?_⟩
  have hzero : (0 : UInt64).toNat = 0 := rfl
  have hrecords' : buildRecords suite (LoopState.start header.encode).index plaintexts =
    .ok records := hrecords
  refine accepted_of_build hrecords' hmanifest ?_ ?_ ?_ ?_
  · rw [hheader]
    exact hsizes
  · show (0 : UInt64).toNat + _ ≤ _
    omega
  · show _ = (0 : UInt64).toNat + _
    rw [hzero, Nat.zero_add]
    exact UInt64.toNat_ofNat_of_lt' htotal
  · show _ = (0 : UInt64).toNat + _
    rw [hzero, Nat.zero_add]
    exact UInt64.toNat_ofNat_of_lt' (show plaintexts.length < 2 ^ 64 by omega)

end

/-! ## Nothing accepted can be extended -/

omit [Crypto] in
theorem recordFrame_append_inj {index : UInt64} {plaintextLength bodyLength plaintextLength'
    bodyLength' : UInt32} {rest rest' : Bytes}
    (h : recordFrame index plaintextLength bodyLength ++ rest =
      recordFrame index plaintextLength' bodyLength' ++ rest') :
    plaintextLength = plaintextLength' ∧ bodyLength = bodyLength' ∧ rest = rest' := by
  simp only [recordFrame, List.cons_append, List.append_assoc, List.cons.injEq, true_and] at h
  obtain ⟨-, h⟩ := List.append_inj h rfl
  obtain ⟨hplaintext, h⟩ := List.append_inj h (by rw [length_le32, length_le32])
  obtain ⟨hbody, h⟩ := List.append_inj h (by rw [length_le32, length_le32])
  refine ⟨?_, ?_, h⟩
  · rw [← ofLe32_le32 plaintextLength, hplaintext, ofLe32_le32]
  · rw [← ofLe32_le32 bodyLength, hbody, ofLe32_le32]

omit [Crypto] in
theorem manifestFrame_append_inj {bodyLength bodyLength' : UInt32} {rest rest' : Bytes}
    (h : manifestFrame bodyLength ++ rest = manifestFrame bodyLength' ++ rest') :
    bodyLength = bodyLength' ∧ rest = rest' := by
  simp only [manifestFrame, List.cons_append, List.cons.injEq, true_and] at h
  obtain ⟨hbody, h⟩ := List.append_inj h (by rw [length_le32, length_le32])
  exact ⟨by rw [← ofLe32_le32 bodyLength, hbody, ofLe32_le32], h⟩

/-- **What is accepted has one end and one meaning.**  Of two accepted strings the one of which
starts with the other, both are the same, and so are their plaintexts. -/
theorem Accepted.unique {suite : Suite} {st : LoopState} {rest extension : Bytes}
    {plaintexts plaintexts' : List Bytes} (h : Accepted suite st rest plaintexts)
    (h' : Accepted suite st (rest ++ extension) plaintexts') :
    extension = [] ∧ plaintexts = plaintexts' := by
  induction h generalizing plaintexts' with
  | @manifest st bodyLength body hlen hbody hopen =>
    generalize hbytes : manifestFrame bodyLength ++ body ++ extension = bytes at h'
    cases h' with
    | @manifest _ bodyLength' body' hlen' hbody' hopen' =>
      rw [List.append_assoc] at hbytes
      obtain ⟨rfl, htail⟩ := manifestFrame_append_inj hbytes
      refine ⟨?_, rfl⟩
      have hsum := congrArg List.length htail
      rw [List.length_append] at hsum
      exact List.eq_nil_of_length_eq_zero (by omega)
    | record =>
      have hkind := (List.cons.inj hbytes).1
      exact absurd hkind (by decide)
  | @record st plaintextLength bodyLength total body rest plaintext plaintexts hindex hsize hlen
      hbody hopen htotal hrest ih =>
    generalize hbytes :
      recordFrame st.index plaintextLength bodyLength ++ (body ++ rest) ++ extension =
      bytes at h'
    cases h' with
    | manifest =>
      have hkind := (List.cons.inj hbytes).1
      exact absurd hkind (by decide)
    | @record _ plaintextLength' bodyLength' total' body' rest' plaintext' plaintexts' hindex'
        hsize' hlen' hbody' hopen' htotal' hrest' =>
      rw [List.append_assoc] at hbytes
      obtain ⟨rfl, rfl, htail⟩ := recordFrame_append_inj hbytes
      rw [List.append_assoc] at htail
      obtain ⟨rfl, rfl⟩ := List.append_inj htail (hbody.trans hbody'.symm)
      rw [hopen] at hopen'
      obtain rfl := Except.ok.inj hopen'
      rw [htotal] at htotal'
      obtain rfl := Option.some.inj htotal'
      obtain ⟨hnil, rfl⟩ := ih hrest'
      exact ⟨hnil, rfl⟩

/-- The same for whole files. -/
theorem AcceptedFile.unique {master : MasterKey} {file extension : Bytes} {header header' : Header}
    {plaintexts plaintexts' : List Bytes} (h : AcceptedFile master file header plaintexts)
    (h' : AcceptedFile master (file ++ extension) header' plaintexts') :
    extension = [] ∧ header = header' ∧ plaintexts = plaintexts' := by
  obtain ⟨suite, rest, hsuite, rfl, haccepted⟩ := h
  obtain ⟨suite', rest', hsuite', hfile, haccepted'⟩ := h'
  rw [List.append_assoc] at hfile
  obtain ⟨hheader, hrest⟩ :=
    List.append_inj hfile (by rw [Header.length_encode, Header.length_encode])
  have hdecode := Header.decode_encode header
  rw [hheader, Header.decode_encode] at hdecode
  obtain rfl := Except.ok.inj hdecode
  rw [hsuite] at hsuite'
  obtain rfl := Except.ok.inj hsuite'
  rw [← hrest] at haccepted'
  obtain ⟨hnil, rfl⟩ := haccepted.unique haccepted'
  exact ⟨hnil, rfl, rfl⟩

end Container
end OrIsyVra
