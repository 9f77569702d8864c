import OrIsyVra.Container.Programs

/-!
# What `decrypt_file` accepts, and what it leaves behind

The program reads the header, makes its temporary, and works on it; the output is touched last.  So
there are three kinds of endings (`wp_decryptFile`): before the temporary exists nothing has
changed, while it is filled nothing else has, and only when the input was accepted does the
temporary go to the output.

From that and the grammar of `Accepted` follow both results of this file.  What is accepted is
exactly the container of its header and of the plaintexts it opens to, so no byte of it is ignored
(`decryptFile_canonical`).  And decryption fails closed (`decryptFile_fails_closed`): nothing
accepted has an accepted prefix or extension, and what is not accepted leaves every file as it was.
-/

namespace OrIsyVra
namespace Container

open ByteString MachineWord FaultProgram FileSystem

variable [Crypto]

/-- Some run of `decrypt_file` on the file succeeds. -/
def Decrypts (master : MasterKey) (file : Bytes) : Prop :=
  ∃ (name : String) (input output : Path) (overwrite : Bool) (h : Host Path) (info : FileInfo),
    h.Has input file ∧ (decryptFile name input output master overwrite h).1 = .ok info

section

variable {name : String} {input output : Path} {master : MasterKey} {overwrite : Bool}
  {h : Host Path}

/-! ## The run of `decrypt_file` -/

/-- **The rule of `decrypt_file`**: either nothing has changed, or there is a temporary and what is
left is to fill it from an input with a valid header. -/
theorem wp_decryptFile {Q : Post (Host Path) Error FileInfo}
    (hkept : ∀ t : Host Path, t.files = h.files → (∀ e, Q.error e t) ∧ Q.crash t)
    (hdone : ∀ t : Host Path,
      t.files = put h.files (output.parent.join name) (some ⟨[], false⟩) → Q.crash t)
    (hwork : ∀ (rest : Bytes) (header : Header) (suite : Suite) (t : Host Path),
      h.Has input (header.encode ++ rest) → deriveSuite master header header.encode = .ok suite →
      h.files (output.parent.join name) = none → t.faults = h.faults →
      t.files = put h.files (output.parent.join name) (some ⟨[], false⟩) →
      wp (dropping (output.parent.join name)
        (decryptTo suite (output.parent.join name) rest) >>= fun _ =>
        persistOutput (output.parent.join name) output overwrite >>= fun _ =>
          pure header.info) Q t) :
    wp (decryptFile name input output master overwrite) Q h := by
  have hopened := hkept (h.tick h.files) rfl
  have hread := hkept ((h.tick h.files).tick h.files) rfl
  unfold decryptFile
  rw [wp_ite]
  refine ⟨fun _ => (wp_fail _ Q h).mpr ((hkept h rfl).1 _), fun _ => ?_⟩
  rw [wp_bind]
  refine wp_inspect (fun bytes _ hfile => ?_) (fun f _ => hopened.1 _) fun _ => hopened.2
  have hhas : h.Has input bytes := by
    rcases hc : h.files input with _ | c <;> rw [hc] at hfile
    · exact absurd hfile (by simp)
    · obtain rfl := Except.ok.inj hfile
      exact ⟨c.synced, hc⟩
  refine (wp_bind _ _ _ _).mpr ?_
  refine wp_readExact (fun headerBytes rest hlen hsplit => ?_) (fun _ => hread.1 _) hread.2
  dsimp only
  rw [wp_bind, wp_ofExcept]
  refine ⟨fun header hdecode => ?_, fun e _ => hread.1 e⟩
  obtain rfl := Header.encode_of_decode hlen hdecode
  refine (wp_bind _ _ _ _).mpr ?_
  rw [wp_ofExcept]
  refine ⟨fun suite hsuite => ?_, fun e _ => hread.1 e⟩
  refine (wp_bind _ _ _ _).mpr ?_
  refine wp_createOutputTemp (fun t hfree hfaults hfiles => ?_) (fun t ht => hkept t ht) hdone
  exact hwork rest header suite t (hsplit ▸ hhas) hsuite hfree hfaults hfiles

/-- What the temporary has when the input has been read to its end. -/
theorem wp_decryptTo {suite : Suite} {header : Header} {temporary : Path} {rest : Bytes}
    (hbytes : suite.headerBytes = header.encode) (hempty : h.Has temporary []) :
    wp (decryptTo suite temporary rest) (.ifOk fun _ t => ∃ plaintexts,
      Accepted suite (.start header.encode) rest plaintexts ∧
      t.Has temporary plaintexts.flatten) h := by
  unfold decryptTo
  rw [wp_bind, hbytes]
  refine wp_mono (wp_decryptLoop _ rfl hempty) (fun st t hst => ?_) (fun _ _ _ => trivial)
    fun _ _ => trivial
  refine (wp_ite _ _ _ _ _).mpr ?_
  exact ⟨fun hsaw => (wp_pure _ _ _).mpr (hst hsaw), fun _ => wp_ifOk_fail _⟩

/-- **A run that succeeds** was given an accepted file, and has put its plaintexts at the output. -/
theorem decryptFile_ok {info : FileInfo} {t : Host Path}
    (hrun : decryptFile name input output master overwrite h = (.ok info, t)) :
    ∃ file header plaintexts, h.Has input file ∧ AcceptedFile master file header plaintexts ∧
      info = header.info ∧ t.files output = some ⟨plaintexts.flatten, true⟩ := by
  have hspec : wp (decryptFile name input output master overwrite) (.ifOk fun info t =>
      ∃ file header plaintexts, h.Has input file ∧ AcceptedFile master file header plaintexts ∧
        info = header.info ∧ t.files output = some ⟨plaintexts.flatten, true⟩) h := by
    refine wp_decryptFile (fun _ _ => ⟨fun _ => trivial, trivial⟩) (fun _ _ => trivial)
      fun rest header suite t hhas hsuite _ _ hfiles => ?_
    obtain ⟨hheader, hbytes, -, -⟩ := deriveSuite_header hsuite
    have hempty : t.Has (output.parent.join name) [] := ⟨false, by rw [hfiles, put_self]⟩
    rw [wp_bind]
    refine wp_mono (wp_dropping_ifOk (wp_decryptTo hbytes hempty)) ?_ (fun _ _ _ => trivial)
      fun _ _ => trivial
    rintro - t₁ ⟨plaintexts, haccepted, hwritten⟩
    refine (wp_bind _ _ _ _).mpr ?_
    refine wp_mono (wp_dropping_ifOk (wp_settleTemporary hwritten)) (fun _ t₂ hplaced => ?_)
      (fun _ _ _ => trivial) fun _ _ => trivial
    exact (wp_pure _ _ _).mpr ⟨_, header, plaintexts, hhas, ⟨suite, rest, hsuite, rfl, haccepted⟩,
      rfl, hplaced⟩
  exact hspec.ok hrun

/-- **A file that is not accepted leaves everything as it was**, but for the temporary, and that
only when the process dies or the temporary cannot be removed. -/
theorem wp_decryptFile_rejected
    (hrejected : ∀ file header plaintexts, h.Has input file →
      ¬AcceptedFile master file header plaintexts) :
    wp (decryptFile name input output master overwrite) ⟨fun _ _ => False,
      fun _ t => (∀ p, p ≠ output.parent.join name → t.files p = h.files p) ∧
        (h.faults (t.clock - 1) = .none → t.files = h.files),
      fun t => ∀ p, p ≠ output.parent.join name → t.files p = h.files p⟩ h := by
  refine wp_decryptFile (fun t hfiles => ?_) (fun t hfiles p hp => ?_)
    fun rest header suite t hhas hsuite hfree hfaults hfiles => ?_
  · have hsame : ∀ p, p ≠ output.parent.join name → t.files p = h.files p :=
      fun p _ => by rw [hfiles]
    exact ⟨fun _ => ⟨hsame, fun _ => hfiles⟩, hsame⟩
  · rw [hfiles, put_of_ne hp]
  · obtain ⟨-, hbytes, -, -⟩ := deriveSuite_header hsuite
    have hempty : t.Has (output.parent.join name) [] := ⟨false, by rw [hfiles, put_self]⟩
    have hothers : ∀ p, p ≠ output.parent.join name → t.files p = h.files p := fun p hp => by
      rw [hfiles, put_of_ne hp]
    generalize output.parent.join name = temporary at *
    rw [wp_bind]
    refine wp_dropping_cases (wp_mono (wp_and (wp_decryptTo hbytes hempty)
      ((leaves_decryptTo suite temporary rest).wp t)) ?_ ?_ ?_)
    · rintro - t₁ ⟨⟨plaintexts, haccepted, -⟩, -⟩
      exact (hrejected _ header plaintexts hhas ⟨suite, rest, hsuite, rfl, haccepted⟩).elim
    · rintro e t₁ ⟨-, houtside⟩
      obtain ⟨hleft, hsome, hscript⟩ := of_outside_eq houtside
      rw [hempty.isSome] at hsome
      have hkept : ∀ p, p ≠ temporary → t₁.files p = h.files p := fun p hp =>
        (hleft p hp).trans (hothers p hp)
      have hremoved : ∀ p, p ≠ temporary → put t₁.files temporary none p = h.files p :=
        fun p hp => by rw [put_of_ne hp, hkept p hp]
      refine ⟨fun _ _ => ⟨hremoved, fun _ => ?_⟩, fun hnot =>
        ⟨hkept, fun hlast => ?_⟩, hkept, hremoved⟩
      · exact put_eq hfree hkept
      · rcases hnot with hfault | hgone
        · rw [Host.clock_tick, Nat.add_sub_cancel, ← hfaults, ← hscript] at hlast
          exact absurd hlast hfault
        · rw [hgone] at hsome
          exact absurd hsome Bool.false_ne_true
    · rintro t₁ ⟨-, houtside⟩ p hp
      exact ((of_outside_eq houtside).1 p hp).trans (hothers p hp)

/-- **An accepted file is decrypted**, when nothing fails. -/
theorem decryptFile_accepted {file : Bytes} {header : Header} {plaintexts : List Bytes}
    (hready : Ready name input output overwrite h file)
    (haccepted : AcceptedFile master file header plaintexts) :
    ∃ t, decryptFile name input output master overwrite h = (.ok header.info, t) ∧
      t.files = put h.files output (some ⟨plaintexts.flatten, true⟩) := by
  obtain ⟨suite, rest, hsuite, rfl, haccepted⟩ := haccepted
  obtain ⟨-, hbytes, -, -⟩ := deriveSuite_header hsuite
  obtain ⟨hq, ⟨synced, hc⟩, hdiffer, hfree, hfresh, hapart⟩ := hready
  have hspec : wp (decryptFile name input output master overwrite) (.only fun info t =>
      info = header.info ∧ t.files = put h.files output (some ⟨plaintexts.flatten, true⟩)) h := by
    unfold decryptFile
    rw [if_neg hdiffer, wp_bind]
    refine wp_of_ok (readFile_ok hq.fault hc) ?_
    refine (wp_bind _ _ _ _).mpr ?_
    refine wp_of_ok (readExact_ok rest (hq.tick _).fault header.length_encode) ?_
    dsimp only
    rw [Header.decode_encode, wp_bind, wp_ofExcept_ok]
    dsimp only
    rw [hsuite, wp_bind, wp_ofExcept_ok]
    dsimp only
    rw [wp_bind]
    refine wp_mono (createOutputTemp_ok ((hq.tick _).tick _) hfree hfresh) ?_ (fun _ _ hf => hf)
      fun _ hf => hf
    rintro temporary t ⟨rfl, hfaults, hfiles⟩
    have hqt : t.Quiet := fun n => by rw [hfaults]; exact hq n
    have hempty : t.Has (output.parent.join name) [] :=
      ⟨false, by rw [hfiles]; exact put_self _ _ _⟩
    have hothers : ∀ p, p ≠ output.parent.join name → t.files p = h.files p := fun p hp => by
      rw [hfiles, put_of_ne hp]
      rfl
    generalize output.parent.join name = temporary at *
    have hto : wp (decryptTo suite temporary rest) (.only fun _ t =>
        t.Has temporary plaintexts.flatten) t := by
      unfold decryptTo
      rw [wp_bind, hbytes]
      refine wp_mono (decryptLoop_accepted haccepted (Nat.lt_succ_self _) hqt rfl hempty) ?_
        (fun _ _ hf => hf) fun _ hf => hf
      rintro st t₁ ⟨hsaw, hhas⟩
      show wp (if st.sawManifest = true then _ else _) _ t₁
      rw [if_pos hsaw]
      exact (wp_pure _ _ _).mpr hhas
    refine (wp_bind _ _ _ _).mpr ?_
    refine dropping_ok ?_
    refine wp_mono (wp_and hto ((leaves_decryptTo suite temporary rest).wp t)) ?_
      (fun _ _ hf => hf.1.elim) fun _ hf => hf.1.elim
    intro _ t₁ hboth
    obtain ⟨hwritten, houtside⟩ := hboth
    obtain ⟨hleft, -, hscript⟩ := of_outside_eq houtside
    have hqt₁ : t₁.Quiet := fun n => by rw [hscript]; exact hqt n
    refine (wp_bind _ _ _ _).mpr ?_
    refine wp_mono (dropping_ok (settleTemporary_ok hqt₁ hapart hwritten)) ?_ (fun _ _ hf => hf)
      fun _ hf => hf
    intro _ t₂ hplaced
    refine (wp_pure _ _ _).mpr ⟨rfl, ?_⟩
    rw [hplaced, put_eq hfresh fun p hp => (hleft p hp).trans (hothers p hp)]
  obtain ⟨info, t, hrun, rfl, hfiles⟩ := wp_only.mp hspec
  exact ⟨t, hrun, hfiles⟩

end

/-! ## What is accepted -/

omit [Crypto] in
/-- A host on which nothing fails, with one file. -/
def hostWith (file : Bytes) : Host Path where
  files p := if p = ["in"] then some ⟨file, true⟩ else none
  faults _ := .none
  reads _ := 1
  clock := 0

omit [Crypto] in
theorem ready_hostWith (file : Bytes) : Ready "tmp" ["in"] ["out"] false (hostWith file) file :=
  ⟨fun _ => rfl, ⟨true, rfl⟩, by decide, Or.inr rfl, rfl, by decide⟩

/-- **`decrypt_file` takes what is accepted, and nothing else.** -/
theorem decrypts_iff {master : MasterKey} {file : Bytes} :
    Decrypts master file ↔ ∃ header plaintexts, AcceptedFile master file header plaintexts := by
  constructor
  · rintro ⟨name, input, output, overwrite, h, info, hhas, hok⟩
    obtain ⟨file', header, plaintexts, hhas', haccepted, -, -⟩ :=
      decryptFile_ok (Prod.ext hok rfl)
    obtain rfl := hhas.unique hhas'
    exact ⟨header, plaintexts, haccepted⟩
  · rintro ⟨header, plaintexts, haccepted⟩
    have hready := ready_hostWith file
    obtain ⟨t, hrun, -⟩ := decryptFile_accepted hready haccepted
    exact ⟨"tmp", ["in"], ["out"], false, hostWith file, header.info, hready.has, by rw [hrun]⟩

/-- **Accepted containers are canonical.**  A file that decrypts is the container of its header and
of the plaintexts it opens to, so two of them with the same header and plaintexts are the same. -/
theorem decryptFile_canonical (hfaithful : GuardFaithful) :
    (∀ name input output master overwrite (h : Host Path) info t,
      decryptFile name input output master overwrite h = (.ok info, t) →
      ∃ file header plaintexts, h.Has input file ∧ AcceptedFile master file header plaintexts ∧
        info = header.info ∧ t.files output = some ⟨plaintexts.flatten, true⟩ ∧
        build master header plaintexts = .ok file) ∧
    ∀ master file file' header plaintexts, AcceptedFile master file header plaintexts →
      AcceptedFile master file' header plaintexts → file = file' := by
  refine ⟨fun name input output master overwrite h info t hrun => ?_,
    fun master file file' header plaintexts haccepted haccepted' => ?_⟩
  · obtain ⟨file, header, plaintexts, hhas, haccepted, hinfo, hplaced⟩ := decryptFile_ok hrun
    exact ⟨file, header, plaintexts, hhas, haccepted, hinfo, hplaced, haccepted.build hfaithful⟩
  · have hbuilt := haccepted.build hfaithful
    rw [haccepted'.build hfaithful] at hbuilt
    exact (Except.ok.inj hbuilt).symm

omit [Crypto] in
theorem validateChunkSize_smallest : validateChunkSize (4096 : UInt32).toNat = .ok () := rfl

omit [Crypto] in
theorem zero_flags : (0 : UInt8) = 0 := rfl

omit [Crypto] in
/-- A header for the witnesses below. -/
def sampleHeader : Header :=
  ⟨fileVersion, .guarded, 0, 4096, .of 32 [], .of 32 [], rfl, zero_flags,
    validateChunkSize_smallest⟩

omit [Crypto] in
/-- A container of two records, the first of them empty, is one that decrypts. -/
theorem decryptFile_canonical_sample :
    let _ := tableCrypto []
    ∃ file t, decryptFile "tmp" ["in"] ["out"] (.of 48 []) false (hostWith file) =
        (.ok sampleHeader.info, t) ∧
      ∃ file' header plaintexts, (hostWith file).Has ["in"] file' ∧
        AcceptedFile (.of 48 []) file' header plaintexts ∧ sampleHeader.info = header.info ∧
        t.files ["out"] = some ⟨plaintexts.flatten, true⟩ ∧
        build (.of 48 []) header plaintexts = .ok file' := by
  let _ := tableCrypto []
  have _ := tableCrypto_lawful []
  have hsizes : ∀ p ∈ [[], [1, 2, 3]],
    List.length (α := UInt8) p ≤ sampleHeader.chunkSize.toNat := by
    decide
  obtain ⟨file, hbuilt⟩ := build_isOk (fun _ _ _ => rfl) (.of 48 []) sampleHeader hsizes
  obtain ⟨t, hrun, -⟩ := decryptFile_accepted (ready_hostWith file)
    (acceptedFile_of_build hbuilt hsizes (by decide))
  exact ⟨file, t, hrun, (decryptFile_canonical (tableCrypto_faithful [])).1 _ _ _ _ _ _ _ _ hrun⟩

/-- **Decryption fails closed.**  Nothing that decrypts has an extension, or a beginning, that
decrypts; what decrypts is a header, verified records numbered from zero, and one manifest at the
end; and what does not leaves every file as it was, but for the temporary, which goes too unless the
process dies or cannot remove it. -/
theorem decryptFile_fails_closed (master : MasterKey) :
    (∀ file extension, Decrypts master file → Decrypts master (file ++ extension) →
      extension = []) ∧
    (∀ file, Decrypts master file → ∃ header suite records plaintexts bodyLength body total index,
      file = header.encode ++ (encodeRecords 0 records ++ (manifestFrame bodyLength ++ body)) ∧
      deriveSuite master header header.encode = .ok suite ∧ Opens suite 0 records plaintexts ∧
      body.length = bodyLength.toNat ∧
      openManifest suite ⟨index, total, header.encode ++ encodeRecords 0 records, false⟩ bodyLength
        body = .ok () ∧
      total.toNat = totalLength plaintexts ∧ index.toNat = plaintexts.length) ∧
    ∀ name input output overwrite (h : Host Path) file, h.Has input file → ¬Decrypts master file →
      let r := decryptFile name input output master overwrite h
      (∀ info, r.1 ≠ .ok info) ∧ (∀ p, p ≠ output.parent.join name → r.2.files p = h.files p) ∧
        ((∃ e, r.1 = .error e) → h.faults (r.2.clock - 1) = .none → r.2.files = h.files) := by
  refine ⟨fun file extension hfile hextended => ?_, fun file hfile => ?_,
    fun name input output overwrite h file hhas hfile => ?_⟩
  · obtain ⟨header, plaintexts, haccepted⟩ := decrypts_iff.mp hfile
    obtain ⟨header', plaintexts', haccepted'⟩ := decrypts_iff.mp hextended
    exact (haccepted.unique haccepted').1
  · obtain ⟨header, plaintexts, suite, rest, hsuite, rfl, haccepted⟩ := decrypts_iff.mp hfile
    obtain ⟨records, bodyLength, body, total, index, rfl, hopens, hbody, hverified,
      htotal, hindex⟩ :=
      haccepted.shape
    exact ⟨header, suite, records, plaintexts, bodyLength, body, total, index, rfl, hsuite, hopens,
      hbody, hverified, htotal.trans (Nat.zero_add _), hindex.trans (Nat.zero_add _)⟩
  · have hrejected : ∀ file header plaintexts, h.Has input file →
        ¬AcceptedFile master file header plaintexts := by
      intro file' header plaintexts hhas' haccepted
      obtain rfl := hhas.unique hhas'
      exact hfile (decrypts_iff.mpr ⟨header, plaintexts, haccepted⟩)
    have hspec : wp (decryptFile name input output master overwrite) _ h :=
      wp_decryptFile_rejected hrejected
    intro r
    rcases hr : r with ⟨info | e | _, t⟩
    · exact (hspec.ok hr).elim
    · obtain ⟨hothers, hall⟩ := hspec.error hr
      exact ⟨nofun, hothers, fun _ => hall⟩
    · exact ⟨nofun, hspec.crash hr, nofun⟩

end Container
end OrIsyVra
