import OrIsyVra.Container.Encryption
import Mathlib.Data.Set.Basic

/-!
# Only what was encrypted decrypts

The tag of the manifest is over the total length, the number of records and the digest of everything
in front of it, under a key that is derived from the header.  So if the tag of a file is one that
`encrypt_file` has computed, and the digest is that of no other transcript, then the file and the
container `encrypt_file` has written agree up to the manifest; the manifest behind it is sealed in
one way only, and nothing may follow.  The file is that container (`container_integrity`).

What is assumed is said of the checks and transcripts at hand: `Passes` is the check of the manifest
that a file gets through, `Authenticates` the one that a call of `encrypt_file` has written a tag
for.  The bodies of the records are covered by the transcript, and need no assumption of their own.
-/

namespace OrIsyVra
namespace Container

open ByteString MachineWord FaultProgram FileSystem Blocks OrIsyVra.Core

/-! ## Checks of a manifest -/

/-- What the tag of a manifest is computed on, and under which key; and what is digested for it. -/
structure ManifestCheck where
  key : FixedBytes 48
  binding : FixedBytes 32
  payload : Bytes
  transcript : Bytes

section

variable [Crypto]

/-- In `decrypt_file` the file gets to this check, and the tag it brings is right. -/
def Passes (master : MasterKey) (file : Bytes) (check : ManifestCheck) : Prop :=
  ∃ header suite records plaintexts bodyLength body inner,
    deriveSuite master header header.encode = .ok suite ∧
    file = header.encode ++ (encodeRecords 0 records ++ (manifestFrame bodyLength ++ body)) ∧
    Opens suite 0 records plaintexts ∧ body.length = bodyLength.toNat ∧
    suite.openBody manifestIndex manifestRecord (manifestFrame bodyLength) body = .ok inner ∧
    inner.length = manifestInnerSize ∧
    (mac32 suite.keys.manifest .manifest [suite.binding.val, inner.take manifestPayloadSize]).val =
      inner.drop manifestPayloadSize ∧
    check = ⟨suite.keys.manifest, suite.binding, inner.take manifestPayloadSize,
      header.encode ++ encodeRecords 0 records⟩

/-- A call of `encrypt_file` under a master key that has returned. -/
structure Production (master : MasterKey) where
  name : String
  salt : FixedBytes 32
  fileId : FixedBytes 32
  input : Path
  output : Path
  options : EncryptOptions
  before : Host Path
  after : Host Path
  returned : encryptFile name salt fileId input output master options before = (.ok (), after)

namespace Production

variable {master : MasterKey}

def plaintext (p : Production master) : Bytes :=
  ((p.before.files p.input).map Contents.bytes).getD []

def container (p : Production master) : Bytes :=
  ((p.after.files p.output).map Contents.bytes).getD []

def chunks (p : Production master) : List Bytes := pieces p.options.chunkSize p.plaintext

/-- What the call has computed the tag of its manifest on. -/
def Authenticates (p : Production master) (check : ManifestCheck) : Prop :=
  ∃ header suite records, Header.new p.options.mode p.options.chunkSize p.salt p.fileId =
    .ok header ∧ deriveSuite master header header.encode = .ok suite ∧
    buildRecords suite 0 p.chunks = .ok records ∧
    check = ⟨suite.keys.manifest, suite.binding,
      manifestPayload (UInt64.ofNat (totalLength p.chunks)) (UInt64.ofNat p.chunks.length)
        (Crypto.sha384 (header.encode ++ records)), header.encode ++ records⟩

/-- **What a call has produced** is the container of its chunks. -/
theorem built [LawfulCrypto] (p : Production master) :
    ∃ header, Header.new p.options.mode p.options.chunkSize p.salt p.fileId = .ok header ∧
      build master header p.chunks = .ok p.container ∧
      AcceptedFile master p.container header p.chunks ∧
      p.chunks.flatten = p.plaintext := by
  obtain ⟨header, plaintext, file, hheader, hchunk, ⟨synced, hinput⟩, hcount, hbuilt, houtput⟩ :=
    encryptFile_eq_ok p.returned
  obtain rfl : p.plaintext = plaintext := by
    unfold Production.plaintext
    rw [hinput]
    rfl
  obtain rfl : p.container = file := by
    unfold Production.container
    rw [houtput]
    rfl
  have hsize : 0 < p.options.chunkSize := by
    have hlow := (validateChunkSize_ok header.valid).1
    omega
  have hsizes : ∀ chunk ∈ p.chunks, chunk.length ≤ header.chunkSize.toNat := fun chunk hmem =>
    hchunk.symm ▸ length_le_of_mem_pieces hmem
  exact ⟨header, hheader, hbuilt, acceptedFile_of_build hbuilt hsizes hcount,
    flatten_pieces hsize _⟩

end Production

/-! ## One payload, one container -/

omit [Crypto] in
theorem manifestPayload_injective {total total' count count' : UInt64}
    {digest digest' : FixedBytes 48}
    (h : manifestPayload total count digest = manifestPayload total' count' digest') :
    total = total' ∧ count = count' ∧ digest = digest' := by
  obtain ⟨htotal, hrest⟩ := List.append_inj h (by rw [length_le64, length_le64])
  obtain ⟨hcount, hdigest⟩ := List.append_inj hrest (by rw [length_le64, length_le64])
  exact ⟨le64_injective htotal, le64_injective hcount, Subtype.ext hdigest⟩

omit [Crypto] in
/-- Behind two headers nothing can be mistaken. -/
theorem header_append_inj {header header' : Header} {rest rest' : Bytes}
    (h : header.encode ++ rest = header'.encode ++ rest') : header = header' ∧ rest = rest' := by
  obtain ⟨hheader, hrest⟩ := List.append_inj h (by rw [Header.length_encode, Header.length_encode])
  have hdecode := Header.decode_encode header
  rw [hheader, Header.decode_encode] at hdecode
  exact ⟨(Except.ok.inj hdecode).symm, hrest⟩

/-- A manifest whose tag is right, over the transcript, the total and the number of records of a
container, is the manifest of the container. -/
theorem manifest_of_payload [LawfulCrypto] (hfaithful : GuardFaithful) {suite : Suite}
    {st : LoopState} {bodyLength : UInt32} {body frame body' : Bytes}
    (hbody : body.length = bodyLength.toNat)
    (hopen : openManifest suite st bodyLength body = .ok ())
    (hbuilt : buildManifest suite st.transcript st.total st.index = .ok (frame, body')) :
    frame = manifestFrame bodyLength ∧ body' = body := by
  obtain ⟨inner, hinner, hverify⟩ := except_bind_eq_ok.mp hopen
  obtain rfl := verifyManifestInner_iff.mp hverify
  have hlen := (Suite.openBody_of_sealBody (Suite.sealBody_of_openBody hfaithful hinner)).1
  rw [length_nativeManifestInner, hbody] at hlen
  have hsame := buildManifest_of_openManifest hfaithful hlen hbody hopen
  exact Prod.mk.inj (Except.ok.inj (hbuilt.symm.trans hsame))

/-- A manifest that opens is a check that is passed. -/
theorem passes_of_openManifest {master : MasterKey} {header : Header} {suite : Suite}
    {records : List Record} {plaintexts : List Bytes} {bodyLength : UInt32} {body : Bytes}
    {total index : UInt64} {saw : Bool}
    (hsuite : deriveSuite master header header.encode = .ok suite)
    (hopens : Opens suite 0 records plaintexts) (hbody : body.length = bodyLength.toNat)
    (hopen : openManifest suite ⟨index, total, header.encode ++ encodeRecords 0 records, saw⟩
      bodyLength body = .ok ()) :
    Passes master (header.encode ++ (encodeRecords 0 records ++ (manifestFrame bodyLength ++ body)))
      ⟨suite.keys.manifest, suite.binding, manifestPayload total index
        (Crypto.sha384 (header.encode ++ encodeRecords 0 records)),
        header.encode ++ encodeRecords 0 records⟩ := by
  obtain ⟨inner, hinner, hverify⟩ := except_bind_eq_ok.mp hopen
  have hshape := verifyManifestInner_iff.mp hverify
  dsimp only at hshape
  have hpayload : inner.take manifestPayloadSize = manifestPayload total index
      (Crypto.sha384 (header.encode ++ encodeRecords 0 records)) := by
    rw [hshape]
    exact List.take_left' length_manifestPayload
  refine ⟨header, suite, records, plaintexts, bodyLength, body, inner, hsuite, rfl, hopens, hbody,
    hinner, by rw [hshape, length_nativeManifestInner], ?_, by rw [hpayload]⟩
  rw [hpayload, hshape]
  exact (List.drop_left' length_manifestPayload).symm

/-! ## Containers that were produced -/

omit [Crypto] in
/-- There is one way to read records with a manifest behind them. -/
theorem encodeRecords_append_inj {index : UInt64} {records records' : List Record}
    {bodyLength bodyLength' : UInt32} {body body' : Bytes}
    (hwhole : ∀ r ∈ records, r.body.length = r.bodyLength.toNat)
    (hwhole' : ∀ r ∈ records', r.body.length = r.bodyLength.toNat)
    (h : encodeRecords index records ++ (manifestFrame bodyLength ++ body) =
      encodeRecords index records' ++ (manifestFrame bodyLength' ++ body')) :
    records = records' ∧ bodyLength = bodyLength' ∧ body = body' := by
  have hkinds : dataRecord ≠ manifestRecord := by decide
  induction records generalizing index records' with
  | nil =>
    rcases records' with _ | ⟨record', records'⟩
    · obtain ⟨hlength, hbody⟩ := manifestFrame_append_inj h
      exact ⟨rfl, hlength, hbody⟩
    · exact absurd (List.cons.inj h).1.symm hkinds
  | cons record records ih =>
    rcases records' with _ | ⟨record', records'⟩
    · exact absurd (List.cons.inj h).1 hkinds
    obtain ⟨plaintextLength, recordLength, recordBody⟩ := record
    obtain ⟨plaintextLength', recordLength', recordBody'⟩ := record'
    simp only [encodeRecords, Record.frame, List.append_assoc] at h
    obtain ⟨rfl, rfl, hrest⟩ := recordFrame_append_inj h
    have hlength := (hwhole _ List.mem_cons_self).trans (hwhole' _ List.mem_cons_self).symm
    obtain ⟨rfl, hnext⟩ := List.append_inj hrest hlength
    obtain ⟨rfl, hmanifest⟩ := ih (fun r hr => hwhole r (List.mem_cons_of_mem _ hr))
      (fun r hr => hwhole' r (List.mem_cons_of_mem _ hr)) hnext
    exact ⟨rfl, hmanifest⟩

theorem Opens.whole {suite : Suite} {index : UInt64} {records : List Record}
    {plaintexts : List Bytes} (h : Opens suite index records plaintexts) :
    ∀ r ∈ records, r.body.length = r.bodyLength.toNat := by
  induction records generalizing index plaintexts with
  | nil => exact fun r hr => absurd hr List.not_mem_nil
  | cons record records ih =>
    rcases plaintexts with _ | ⟨plaintext, plaintexts⟩
    · exact h.elim
    rintro r (_ | ⟨_, hr⟩)
    · exact h.1
    · exact ih h.2.2 r hr

/-- **A container that was produced** gets through the check that was authenticated for it, and
through no other. -/
theorem Production.authenticates_of_passes [LawfulCrypto] (hfaithful : GuardFaithful)
    {master : MasterKey} (p : Production master) {check : ManifestCheck}
    (h : Passes master p.container check) : p.Authenticates check := by
  obtain ⟨header, suite, records, plaintexts, bodyLength, body, inner, hsuite, hfile, hopens, -,
    hinner, -, -, rfl⟩ := h
  obtain ⟨header', hheader, -, ⟨suite', rest, hsuite', hfile', hgrammar⟩, -⟩ := p.built
  obtain ⟨rfl, hrest⟩ := header_append_inj (hfile.symm.trans hfile')
  obtain rfl := Except.ok.inj (hsuite.symm.trans hsuite')
  obtain ⟨records', bodyLength', body', total, index, hread, hopens', -, hmanifest,
    htotal, hindex⟩ :=
    hgrammar.shape
  obtain ⟨rfl, rfl, rfl⟩ := encodeRecords_append_inj hopens.whole hopens'.whole (hrest.trans hread)
  obtain ⟨inner', hinner', hverify⟩ := except_bind_eq_ok.mp hmanifest
  obtain rfl := Except.ok.inj (hinner.symm.trans hinner')
  obtain ⟨built, frame, written, total', index', hbuilt, hlast, hwritten, -, -⟩ :=
    hgrammar.build hfaithful
  -- the records that were written are those that are read
  have hrecords : built = encodeRecords 0 records := by
    let st : LoopState := ⟨index', total', header.encode ++ built, false⟩
    have hmanifest' : buildManifest suite st.transcript st.total st.index = .ok (frame, written) :=
      hlast
    obtain ⟨length, rfl, hlength, hsize, -⟩ := openManifest_of_buildManifest hmanifest'
    have hsealed := (Suite.openBody_of_sealBody (Suite.sealBody_of_openBody hfaithful hinner)).1
    rw [verifyManifestInner_iff.mp hverify, length_nativeManifestInner] at hsealed
    have htail : (manifestFrame length ++ written).length =
      (manifestFrame bodyLength ++ body).length := by
      rw [List.length_append, List.length_append, hsealed, hsize, hlength]
      rfl
    exact (List.append_inj' (hwritten.symm.trans hread) htail).1
  have hpayload : inner.take manifestPayloadSize = manifestPayload total index
      (Crypto.sha384 (header.encode ++ encodeRecords 0 records)) := by
    rw [verifyManifestInner_iff.mp hverify]
    exact List.take_left' length_manifestPayload
  have hzero : (LoopState.start header.encode).total.toNat = 0 ∧
      (LoopState.start header.encode).index.toNat = 0 := ⟨rfl, rfl⟩
  rw [hzero.1, Nat.zero_add] at htotal
  rw [hzero.2, Nat.zero_add] at hindex
  refine ⟨header, suite, built, hheader, hsuite, hbuilt, ?_⟩
  rw [hpayload, hrecords, ← htotal, ← hindex, UInt64.ofNat_toNat, UInt64.ofNat_toNat]

theorem Production.authenticates_unique {master : MasterKey} (p : Production master)
    {check check' : ManifestCheck} (h : p.Authenticates check) (h' : p.Authenticates check') :
    check = check' := by
  obtain ⟨header, suite, records, hheader, hsuite, hrecords, rfl⟩ := h
  obtain ⟨header', suite', records', hheader', hsuite', hrecords', rfl⟩ := h'
  obtain rfl := Except.ok.inj (hheader.symm.trans hheader')
  obtain rfl := Except.ok.inj (hsuite.symm.trans hsuite')
  obtain rfl := Except.ok.inj (hrecords.symm.trans hrecords')
  rfl

/-! ## Integrity -/

/-- **Integrity.**  Where the tag of the manifest of a file is one that `encrypt_file` has computed,
and no two transcripts at hand have one digest, `decrypt_file` takes the file only if it is a
container that `encrypt_file` has produced with the key, byte for byte, and gives back the plaintext
of that container. -/
theorem container_integrity [LawfulCrypto] (hfaithful : GuardFaithful) {master : MasterKey}
    {history : Set (Production master)} {file : Bytes}
    (hmac : ∀ check, Passes master file check → ∃ p ∈ history, ∃ check', p.Authenticates check' ∧
      check'.key = check.key ∧ check'.binding = check.binding ∧ check'.payload = check.payload)
    (hdigest : ∀ check, Passes master file check → ∀ p ∈ history, ∀ check', p.Authenticates check' →
      Crypto.sha384 check.transcript = Crypto.sha384 check'.transcript →
      check.transcript = check'.transcript)
    {name : String} {input output : Path} {overwrite : Bool} {h t : Host Path} {info : FileInfo}
    (hhas : h.Has input file)
    (hrun : decryptFile name input output master overwrite h = (.ok info, t)) :
    ∃ p ∈ history, file = p.container ∧ t.files output = some ⟨p.plaintext, true⟩ := by
  obtain ⟨file', header, plaintexts, hhas', haccepted, -, hplaced⟩ := decryptFile_ok hrun
  obtain rfl := hhas.unique hhas'
  obtain ⟨suite, rest, hsuite, hfile, hgrammar⟩ := id haccepted
  obtain ⟨records, bodyLength, body, total, index, rfl, hopens, hbody, hmanifest, -, -⟩ :=
    hgrammar.shape
  have hpasses : Passes master file _ :=
    hfile ▸ passes_of_openManifest hsuite hopens hbody hmanifest
  obtain ⟨p, hp, check', hauthentic, -, -, hpayload⟩ := hmac _ hpasses
  have htranscripts := hdigest _ hpasses p hp check' hauthentic
  obtain ⟨header', suite', records', hheader', hsuite', hrecords', rfl⟩ := hauthentic
  obtain ⟨htotal, hindex, hdigests⟩ := manifestPayload_injective hpayload
  -- the two transcripts have one digest, so they are one
  obtain ⟨rfl, hrecords⟩ := header_append_inj (htranscripts hdigests.symm)
  obtain rfl := Except.ok.inj (hsuite.symm.trans hsuite')
  obtain ⟨header'', hheader'', hbuilt, hproduced, hflatten⟩ := p.built
  obtain rfl := Except.ok.inj (hheader'.symm.trans hheader'')
  have hsame : file = p.container := by
    obtain ⟨suite'', hsuite'', hbuilt⟩ := except_bind_eq_ok.mp hbuilt
    obtain rfl := Except.ok.inj (hsuite.symm.trans hsuite'')
    obtain ⟨records'', hrecords'', hbuilt⟩ := except_bind_eq_ok.mp hbuilt
    obtain rfl := Except.ok.inj (hrecords'.symm.trans hrecords'')
    obtain ⟨⟨frame, body'⟩, hlast, hjoined⟩ := except_bind_eq_ok.mp hbuilt
    rw [htotal, hindex, ← hrecords] at hlast
    obtain ⟨rfl, rfl⟩ := manifest_of_payload hfaithful hbody hmanifest hlast
    rw [hfile, ← Except.ok.inj hjoined, ← hrecords]
    rfl
  refine ⟨p, hp, hsame, ?_⟩
  rw [← hsame, ← List.append_nil file] at hproduced
  obtain ⟨-, -, rfl⟩ := haccepted.unique hproduced
  rw [hplaced, hflatten]

end

/-- A file of three bytes is encrypted once, and decrypted. -/
theorem container_integrity_short :
    let _ := tableCrypto []
    ∃ (p : Production (.of 48 [])) (info : FileInfo) (t : Host Path), p.plaintext = [1, 2, 3] ∧
      decryptFile "tmp" ["in"] ["out"] (.of 48 []) false (hostWith p.container) = (.ok info, t) ∧
      ∃ q ∈ ({p} : Set (Production (.of 48 []))), p.container = q.container ∧
        t.files ["out"] = some ⟨q.plaintext, true⟩ := by
  let _ := tableCrypto []
  have _ := tableCrypto_lawful []
  have hvalid : validateChunkSize (EncryptOptions.mk .guarded 4096 false).chunkSize = .ok () :=
    validateChunkSize_smallest
  obtain ⟨header, hheader, -, hchunk, -⟩ := Header.new_eq_ok .guarded (.of 32 [])
    (.of 32 [7]) hvalid
  have hspec := encryptFile_ok (fun _ _ _ => rfl) (.of 48 [])
    (ready_hostWith [1, 2, 3]) hheader hvalid hchunk
  have hfew : ¬maxRecords < (pieces 4096 [1, 2, 3]).length :=
    Nat.not_lt.mpr ((length_pieces_le_iff (by decide)).mpr (by decide))
  rcases hrun : encryptFile "tmp" (.of 32 []) (.of 32 [7]) ["in"] ["out"] (.of 48 [])
      ⟨.guarded, 4096, false⟩ (hostWith [1, 2, 3]) with ⟨_ | e | _, after⟩
  · let p : Production (.of 48 []) := ⟨_, _, _, _, _, _, _, _, hrun⟩
    obtain ⟨header', -, -, haccepted, -⟩ := p.built
    obtain ⟨t, hopened, -⟩ := decryptFile_accepted (ready_hostWith p.container) haccepted
    have hfaithful := tableCrypto_faithful []
    have hmac : ∀ check, Passes (.of 48 []) p.container check →
        ∃ q ∈ ({p} : Set (Production (.of 48 []))), ∃ check', q.Authenticates check' ∧
          check'.key = check.key ∧ check'.binding = check.binding ∧
          check'.payload = check.payload :=
      fun check hpasses =>
        ⟨p, rfl, check, p.authenticates_of_passes hfaithful hpasses, rfl, rfl, rfl⟩
    have hdigest : ∀ check, Passes (.of 48 []) p.container check →
        ∀ q ∈ ({p} : Set (Production (.of 48 []))), ∀ check', q.Authenticates check' →
          Crypto.sha384 check.transcript = Crypto.sha384 check'.transcript →
          check.transcript = check'.transcript := by
      intro check hpasses q hq check' hauthentic _
      obtain rfl := Set.mem_singleton_iff.mp hq
      rw [p.authenticates_unique (p.authenticates_of_passes hfaithful hpasses) hauthentic]
    have hintegrity :=
      container_integrity hfaithful hmac hdigest (ready_hostWith p.container).has hopened
    exact ⟨p, header'.info, t, rfl, hopened, hintegrity⟩
  · exact absurd (hspec.error hrun).1 hfew
  · exact (hspec.crash hrun).elim

end Container
end OrIsyVra
