import OrIsyVra.Files.CardChunks

/-!
# Opening, copying and disowning a PIN card

A PIN card is in two places: the PNG, with the capsule and the marker, and the binding, with the
secret.  `unlock_pin_card` puts them together again: it reads the fingerprint of the card, opens the
binding under that fingerprint, and opens the capsule under the secret and the PIN
(`unlockPinCard_looks`).

What the calls that write leave behind when they return is said once each: a creation leaves the
card and its binding (`Created`), a copy the bytes of its source, and a removal takes the binding.
-/

namespace OrIsyVra

open ByteString MachineWord FaultProgram FileSystem
open DurableFile (IoFailure IoError)

namespace Keycard

variable [KeyCrypto] [CardImaging] [Crypto]

def unlockKeySource (source : Path) (password : Bytes) : FileProg MasterKey := do
  let bytes ← sourceBytes source
  Prog.ofExcept (unlockKeyfileBytes bytes password)

end Keycard

namespace PinCard

/-- A user of the platform. -/
structure Account extends Platform where
  /-- `unprotect_current_user`; the error is the number of the API error. -/
  unprotect : Bytes → Except UInt32 Bytes

/-- What is protected for the user can be read by the user. -/
def Account.Lawful (account : Account) : Prop :=
  ∀ plaintext bytes, account.protect plaintext = .ok bytes → account.unprotect bytes = .ok plaintext

/-! ## The calls -/

inductive PinCardState where
  | notPinCard
  | ready
  | bindingMissing
  deriving DecidableEq, Repr

/-- What `load_binding` makes of the file it has read. -/
def openBinding (account : Account) (bytes : Bytes) : Except PinError (FixedBytes 32) :=
  match account.unprotect bytes with
  | .error code => .error (.text ("Windows API error " ++ toString code))
  | .ok plaintext =>
    if plaintext.length ≠ bindingMagic.length + 32 ∨
        plaintext.take bindingMagic.length ≠ bindingMagic then
      .error (.text "invalid PIN-card device binding")
    else .ok (.of 32 (plaintext.drop bindingMagic.length))

def loadBinding (account : Account) (cardId : String) : PinProg (FixedBytes 32) := do
  let path ← Prog.ofExcept (bindingPath account.toPlatform cardId)
  match ← (Prog.attempt (readFile path) : PinProg (Except PinError Bytes)) with
  | .error _ => Prog.fail (.text "this PIN card is not registered to the current Windows account")
  | .ok bytes => Prog.ofExcept (openBinding account bytes)

def notPinCardMessage : PinError := .text "the selected visual key is not a device-bound PIN card"

def bindingMissingMessage : PinError :=
  .text "this PIN card belongs to another Windows account or its device binding is missing"

section

variable [KeyCrypto] [CardImaging]

def pinCardState (platform : Platform) (source : Path) : PinProg PinCardState := do
  let bytes ← readFile source
  if !markerPresent bytes then pure .notPinCard
  else do
    let info ← Prog.mapError .core (Keycard.keySourceInfo source)
    match bindingPath platform info.cardId with
    | .ok path => do
      let found ← pathExists path
      pure (if found then .ready else .bindingMissing)
    | .error _ => pure .bindingMissing

def copyPinCard (platform : Platform) (draws : ℕ → UInt64) (source output : Path)
    (overwrite : Bool) :
    PinProg Keycard.KeyCardInfo := do
  let state ← pinCardState platform source
  if state = .notPinCard then Prog.fail (.text "the selected key is not a PIN card")
  else do
    let bytes ← readFile source
    writeAtomic draws bytes output overwrite
    Prog.mapError .core (Keycard.keySourceInfo output)

def removePinBinding (platform : Platform) (source : Path) : PinProg Unit := do
  let info ← Prog.mapError .core (Keycard.keySourceInfo source)
  let path ← Prog.ofExcept (bindingPath platform info.cardId)
  match ← (Prog.attempt (remove path) : PinProg (Except PinError Unit)) with
  | .ok () => pure ()
  | .error (.io .notFound) => pure ()
  | .error e => Prog.fail e

variable [Crypto]

def unlockPinCard (account : Account) (source : Path) (pin : String) : PinProg MasterKey := do
  Prog.ofExcept (validatePin pin)
  let state ← pinCardState account.toPlatform source
  if state = .bindingMissing then Prog.fail bindingMissingMessage
  else do
    let state ← pinCardState account.toPlatform source
    if state ≠ .ready then Prog.fail notPinCardMessage
    else do
      let info ← Prog.mapError .core (Keycard.keySourceInfo source)
      let deviceSecret ← loadBinding account info.cardId
      Prog.mapError .core (Keycard.unlockKeySource source (credential deviceSecret pin))

/-! ## What unlocking comes to -/

/-- What `unlock_pin_card` makes of a capsule, where `bindings` holds the files of the bindings. -/
def openedCapsule (account : Account) (bindings : Files Path) (capsule : Bytes) (pin : String) :
    Except PinError MasterKey :=
  match bindingPath account.toPlatform (Keycard.cardId capsule) with
  | .error _ => .error bindingMissingMessage
  | .ok path =>
    match bindings path with
    | none => .error bindingMissingMessage
    | some binding => do
      let deviceSecret ← openBinding account binding.bytes
      (unlockKeyfileBytes capsule (credential deviceSecret pin)).mapError .core

/-- What it makes of the bytes of a card. -/
def opened (account : Account) (bindings : Files Path) (card : Bytes) (pin : String) :
    Except PinError MasterKey := do
  validatePin pin
  if !markerPresent card then .error notPinCardMessage
  else
    let capsule ← (Keycard.capsuleOf card).mapError .core
    openedCapsule account bindings capsule pin

end

section

variable [KeyCrypto] [CardImaging] {files : Files Path} {source : Path} {c : Contents}
  {account : Account} {pin : String}

theorem sourceBytes_looks (hc : files source = some c) :
    Looks (Keycard.sourceBytes source) files (Keycard.capsuleOf c.bytes) :=
  (Looks.readFile hc).bind_ok (.ofExcept files _)

theorem keySourceInfo_looks {capsule : Bytes} (hc : files source = some c)
    (hcapsule : Keycard.capsuleOf c.bytes = .ok capsule) :
    Looks (Prog.mapError .core (Keycard.keySourceInfo source) : PinProg Keycard.KeyCardInfo) files
      (.ok ⟨Keycard.cardId capsule⟩) := by
  have hbytes := sourceBytes_looks hc
  rw [hcapsule] at hbytes
  have hinfo : Looks (Keycard.keySourceInfo source) files (.ok ⟨Keycard.cardId capsule⟩) :=
    hbytes.bind_ok (.pure files _)
  exact hinfo.mapError PinError.core

theorem keySourceInfo_looks_error {e : Error} (hc : files source = some c)
    (hcapsule : Keycard.capsuleOf c.bytes = .error e) :
    Looks (Prog.mapError .core (Keycard.keySourceInfo source) : PinProg Keycard.KeyCardInfo) files
      (.error (.core e)) := by
  have hbytes := sourceBytes_looks hc
  rw [hcapsule] at hbytes
  exact hbytes.bind_error.mapError PinError.core

/-- What `pin_card_state` makes of the bytes of a card. -/
def stateOf (platform : Platform) (bindings : Files Path) (card : Bytes) :
    Except PinError PinCardState :=
  if !markerPresent card then .ok .notPinCard
  else
    match Keycard.capsuleOf card with
    | .error e => .error (.core e)
    | .ok capsule =>
      match bindingPath platform (Keycard.cardId capsule) with
      | .ok path => .ok (if (bindings path).isSome then .ready else .bindingMissing)
      | .error _ => .ok .bindingMissing

theorem pinCardState_looks {platform : Platform} (hc : files source = some c) :
    Looks (pinCardState platform source) files (stateOf platform files c.bytes) := by
  unfold pinCardState stateOf
  refine (Looks.readFile hc).bind_ok ?_
  split
  · exact .pure files _
  rcases hcapsule : Keycard.capsuleOf c.bytes with e | capsule
  · exact (keySourceInfo_looks_error hc hcapsule).bind_error
  refine (keySourceInfo_looks hc hcapsule).bind_ok ?_
  dsimp only
  rcases bindingPath platform (Keycard.cardId capsule) with e | path
  · exact .pure files _
  · exact (Looks.pathExists files path).bind_ok (.pure files _)

omit [KeyCrypto] [CardImaging] in
theorem loadBinding_looks {cardId : String} {path : Path} {binding : Contents}
    (hpath : bindingPath account.toPlatform cardId = .ok path)
    (hbinding : files path = some binding) :
    Looks (loadBinding account cardId) files (openBinding account binding.bytes) := by
  unfold loadBinding
  rw [hpath]
  refine (Looks.ofExcept files _).bind_ok ?_
  exact (Looks.readFile hbinding).attempt.bind_ok (.ofExcept files _)

variable [Crypto]

theorem unlockKeySource_looks {capsule password : Bytes} (hc : files source = some c)
    (hcapsule : Keycard.capsuleOf c.bytes = .ok capsule) :
    Looks (Keycard.unlockKeySource source password) files
      (unlockKeyfileBytes capsule password) := by
  have hbytes := sourceBytes_looks hc
  rw [hcapsule] at hbytes
  exact hbytes.bind_ok (.ofExcept files _)

/-- **Unlocking reads the card and its binding**, and depends on nothing else. -/
theorem unlockPinCard_looks (hc : files source = some c) :
    Looks (unlockPinCard account source pin) files (opened account files c.bytes pin) := by
  have hstate : Looks (pinCardState account.toPlatform source) files
      (stateOf account.toPlatform files c.bytes) := pinCardState_looks hc
  unfold stateOf at hstate
  unfold unlockPinCard opened
  rcases hvalid : validatePin pin with e | _
  · exact (Looks.ofExcept files (.error e)).bind_error
  refine (Looks.ofExcept files (.ok ())).bind_ok ?_
  show Looks _ files (if _ then _ else _)
  rcases hmarker : markerPresent c.bytes with _ | _ <;> rw [hmarker] at hstate
  · exact hstate.bind_ok (hstate.bind_ok (.fail files _))
  rcases hcapsule : Keycard.capsuleOf c.bytes with e | capsule <;> rw [hcapsule] at hstate
  · exact hstate.bind_error
  show Looks _ files (openedCapsule account files capsule pin)
  unfold openedCapsule
  rcases hpath : bindingPath account.toPlatform (Keycard.cardId capsule) with e | path <;>
    simp only [hpath] at hstate
  · exact hstate.bind_ok (.fail files _)
  dsimp only
  rcases hbinding : files path with _ | binding <;> rw [hbinding] at hstate
  · exact hstate.bind_ok (.fail files _)
  refine hstate.bind_ok (hstate.bind_ok ((keySourceInfo_looks hc hcapsule).bind_ok ?_))
  have hload := loadBinding_looks hpath hbinding
  dsimp only
  rcases hsecret : openBinding account binding.bytes with e | deviceSecret <;> rw [hsecret] at hload
  · exact hload.bind_error
  · exact hload.bind_ok ((unlockKeySource_looks hc hcapsule).mapError PinError.core)

end

/-! ## Writing a file -/

section

variable {h t : Host Path} {output : Path} {bytes : Bytes} {u : Unit}

theorem tempfileAttempts_eq_ok {parent path : Path} {draws : ℕ → UInt64} {left attempt : ℕ}
    (hrun : tempfileAttempts parent draws left attempt h = (.ok path, t)) :
    h.files path = none ∧ t.files = put h.files path (some ⟨[], false⟩) := by
  induction left generalizing attempt h with
  | zero => exact absurd hrun fail_ne_ok
  | succ left ih =>
    obtain ⟨r, t₁, hattempt, hrest⟩ := bind_eq_ok.mp hrun
    rcases attempt_eq_ok.mp hattempt with ⟨_, rfl, hcreate⟩ | ⟨e, rfl, hrefused⟩
    · obtain ⟨rfl, rfl⟩ := pure_eq_ok.mp hrest
      exact createNew_eq_ok hcreate
    · have hsame : t₁.files = h.files := change_eq_error hrefused
      by_cases hexists : e = .io .alreadyExists
      · subst hexists
        rw [← hsame]
        exact ih hrest
      · rcases e with _ | failure | _
        · exact absurd hrest fail_ne_ok
        · rcases failure <;> first | exact absurd rfl hexists | exact absurd hrest fail_ne_ok
        · exact absurd hrest fail_ne_ok

theorem writeAtomic_eq_ok {draws : ℕ → UInt64} {overwrite : Bool}
    (hrun : writeAtomic draws bytes output overwrite h = (.ok u, t)) :
    t.files = put h.files output (some ⟨bytes, true⟩) := by
  obtain ⟨_, t₁, hrefuse, hrest⟩ := bind_eq_ok.mp hrun
  obtain ⟨_, t₂, hdirs, hrest⟩ := bind_eq_ok.mp hrest
  obtain ⟨temporary, t₃, hnew, hrest⟩ := bind_eq_ok.mp hrest
  obtain ⟨_, t₄, hwrite, hrest⟩ := bind_eq_ok.mp hrest
  obtain ⟨_, t₅, hsync, hrest⟩ := bind_eq_ok.mp hrest
  obtain ⟨_, t₆, hclear, hmove⟩ := bind_eq_ok.mp hrest
  have hstart : t₂.files = h.files := (makeDirs_eq_ok hdirs).trans (refuseExisting_eq_ok hrefuse)
  obtain ⟨hfree, hcreated⟩ := tempfileAttempts_eq_ok hnew
  have hempty : t₃.files temporary = some ⟨[], false⟩ := by rw [hcreated, put_self]
  have hwritten := write_eq_ok hwrite
  rw [append_eq hempty, List.nil_append] at hwritten
  have hfilled : t₄.files temporary = some ⟨bytes, false⟩ := by rw [hwritten, put_self]
  have hsynced := sync_eq_ok hfilled hsync
  have hready : t₅.files temporary = some ⟨bytes, true⟩ := by rw [hsynced, put_self]
  rw [clearThenRename_eq_ok hready hclear (dropping_eq_ok hmove), hsynced, put_put, hwritten,
    put_put, hcreated, put_put, put_eq_self hfree, hstart]

end

/-! ## What a creation leaves -/

section

variable [KeyCrypto] [CardImaging] {h t : Host Path} {source output : Path}
  {info : Keycard.KeyCardInfo}

theorem sourceBytes_eq_ok {capsule : Bytes}
    (hrun : Keycard.sourceBytes source h = (.ok capsule, t)) :
    (∃ c, h.files source = some c ∧ Keycard.capsuleOf c.bytes = .ok capsule) ∧
    t.files = h.files := by
  obtain ⟨bytes, t₁, hread, hrest⟩ := bind_eq_ok.mp hrun
  obtain ⟨⟨c, hc, rfl⟩, hfiles⟩ := readFile_eq_ok hread
  obtain ⟨hcapsule, rfl⟩ := ofExcept_eq_ok.mp hrest
  exact ⟨⟨c, hc, hcapsule⟩, hfiles⟩

theorem keySourceInfo_eq_ok
    (hrun : (Prog.mapError .core (Keycard.keySourceInfo source) : PinProg _) h = (.ok info, t)) :
    (∃ c capsule, h.files source = some c ∧ Keycard.capsuleOf c.bytes = .ok capsule ∧
      info = ⟨Keycard.cardId capsule⟩) ∧ t.files = h.files := by
  obtain ⟨capsule, t₁, hbytes, hrest⟩ := bind_eq_ok.mp (mapError_eq_ok.mp hrun)
  obtain ⟨⟨c, hc, hcapsule⟩, hfiles⟩ := sourceBytes_eq_ok hbytes
  obtain ⟨rfl, rfl⟩ := pure_eq_ok.mp hrest
  exact ⟨⟨c, capsule, hc, hcapsule, rfl⟩, hfiles⟩

/-- A card for a capsule is at the output, and nothing else has changed but in a directory of its
own. -/
structure Exported (scratch : Path → Prop) (capsule : Bytes) (output : Path) (h t : Host Path) :
    Prop where
  card : ∃ card info, (if Keycard.isPdf output then Keycard.renderPdfCard capsule
    else Keycard.renderPngCard capsule) = .ok (card, info) ∧ t.files output = some ⟨card, true⟩
  frame : ∀ p, p ≠ output → ¬scratch p → t.files p = h.files p

theorem exportBytes_eq_ok {name : String} {capsule : Bytes} {overwrite : Bool}
    (hrun : Keycard.exportBytes name capsule output overwrite h = (.ok info, t)) :
    Exported (fun _ => False) capsule output h t := by
  obtain ⟨⟨card, info'⟩, t₁, hrender, hrest⟩ := bind_eq_ok.mp hrun
  obtain ⟨hcard, rfl⟩ := ofExcept_eq_ok.mp hrender
  obtain ⟨_, t₂, hwrite, hpure⟩ := bind_eq_ok.mp hrest
  obtain ⟨rfl, rfl⟩ := pure_eq_ok.mp hpure
  have hfiles := writeThroughTemporary_eq_ok hwrite
  refine ⟨⟨card, info', hcard, ?_⟩, fun p hp _ => ?_⟩
  · rw [hfiles, put_self]
  · rw [hfiles, put_of_ne hp]

theorem Exported.mono {scratch scratch' : Path → Prop} {capsule : Bytes}
    (hexported : Exported scratch capsule output h t) (himp : ∀ p, scratch p → scratch' p) :
    Exported scratch' capsule output h t :=
  ⟨hexported.card, fun p hp hnot => hexported.frame p hp fun hscratch => hnot (himp p hscratch)⟩

omit [KeyCrypto] [CardImaging] in
theorem startsWith_of_append {begin rest : Bytes} (hlen : Png.signature.length ≤ begin.length)
    (hne : begin.take Png.signature.length ≠ Png.signature) :
    Png.startsWith (begin ++ rest) Png.signature = false := by
  rw [Png.startsWith, List.take_append_of_le_length hlen]
  exact beq_eq_false_iff_ne.mpr hne

/-- A capsule is its own source. -/
theorem capsuleOf_capsule {capsule : Bytes} (hvalid : validateKeyfileBytes capsule = .ok ()) :
    Keycard.capsuleOf capsule = .ok capsule := by
  obtain ⟨params, salt, nonce, wrapped, hcapsule⟩ := validateKeyfileBytes_iff.mp hvalid
  have hshape :
    capsule = keyMagic ++ ((keyfileHeaderFields params salt nonce).tail.flatten ++ wrapped) := by
    rw [hcapsule.parts, encodeKeyfileHeader, ← List.append_assoc]
    rfl
  have hplain : Png.startsWith capsule Png.signature = false := by
    rw [hshape]
    exact startsWith_of_append (by decide) (by decide)
  unfold Keycard.capsuleOf
  rw [hplain, hvalid]
  rfl

/-- The PNG encoder writes a PNG, in chunks of its own types. -/
def PlainEncoder : Prop :=
  ∀ capsule png, CardImaging.encodePng capsule = .ok png → ∃ (body : List Png.Chunk)
    (last : Png.Chunk)
    (rest : Bytes), PlainChunks body ∧ last.type.val = Png.endType ∧
      png = Png.signature ++ (Png.bytesOf (body ++ [last]) ++ rest)

/-- **A PNG card can be marked**, and is a card for its capsule then. -/
theorem marked_of_renderPngCard (hencoder : PlainEncoder) {capsule card : Bytes}
    (hrender : Keycard.renderPngCard capsule = .ok (card, info)) :
    ∃ image, addPinMarker card = .ok image ∧ markerPresent image = true ∧
      Keycard.capsuleOf image = .ok capsule := by
  unfold Keycard.renderPngCard at hrender
  obtain ⟨_, hvalid, hrender⟩ := except_bind_eq_ok.mp hrender
  obtain ⟨png, hpng, hrender⟩ := except_bind_eq_ok.mp hrender
  obtain ⟨card', hinject, hrender⟩ := except_bind_eq_ok.mp hrender
  obtain ⟨rfl, -⟩ := Prod.mk.inj (Except.ok.inj hrender)
  obtain ⟨body, last, rest, hbody, hlast, rfl⟩ := hencoder capsule png hpng
  obtain ⟨card, image, hcard, hmarked, -, hkey, -, hpresent, hvalue⟩ :=
    marked_encoded rest hbody hlast hvalid
  obtain rfl := Except.ok.inj (hinject.symm.trans hcard)
  refine ⟨image, hmarked, hpresent, ?_⟩
  have hstarts : Png.startsWith image Png.signature = true := by
    rw [hvalue]
    exact startsWith_signature _
  unfold Keycard.capsuleOf Keycard.decodeKeycardImage
  rw [hstarts, hkey]
  rfl

/-- A PDF cannot be marked. -/
theorem addPinMarker_of_renderPdfCard {capsule card image : Bytes}
    (hrender : Keycard.renderPdfCard capsule = .ok (card, info)) :
    addPinMarker card ≠ .ok image := by
  unfold Keycard.renderPdfCard at hrender
  obtain ⟨_, -, hrender⟩ := except_bind_eq_ok.mp hrender
  obtain ⟨body, -, hrender⟩ := except_bind_eq_ok.mp hrender
  obtain ⟨rfl, -⟩ := Prod.mk.inj (Except.ok.inj hrender)
  have hplain : Png.startsWith (ascii "%PDF-1.4\n" ++ body) Png.signature = false :=
    startsWith_of_append (by decide) (by decide)
  unfold addPinMarker markerPresent
  rw [hplain]
  exact fun h => absurd h (by simp)

variable [Crypto] {password : Bytes} {params : KeyfileParams} {overwrite : Bool}

omit [CardImaging] in
theorem createKeyfile_eq_ok {name : String} {path : Path} {master : MasterKey}
    {salt : FixedBytes 16} {nonce : FixedBytes 24} {u : Unit}
    (hrun : createKeyfile name path password params master salt nonce overwrite h = (.ok u, t)) :
    ∃ capsule, encodeKeyfileBytes master password params salt nonce = .ok capsule ∧
      t.files = put h.files path (some ⟨capsule, true⟩) := by
  obtain ⟨_, t₁, hpassword, hrest⟩ := bind_eq_ok.mp hrun
  obtain ⟨-, rfl⟩ := ofExcept_eq_ok.mp hpassword
  obtain ⟨_, t₂, hparams, hrest⟩ := bind_eq_ok.mp hrest
  obtain ⟨-, rfl⟩ := ofExcept_eq_ok.mp hparams
  obtain ⟨capsule, t₃, hencode, hrest⟩ := bind_eq_ok.mp hrest
  obtain ⟨hmade, rfl⟩ := ofExcept_eq_ok.mp hencode
  obtain ⟨_, t₄, hvalid, hwrite⟩ := bind_eq_ok.mp hrest
  obtain ⟨-, rfl⟩ := ofExcept_eq_ok.mp hvalid
  exact ⟨capsule, hmade, writeThroughTemporary_eq_ok hwrite⟩

omit [KeyCrypto] [CardImaging] [Crypto] in
/-- The temporary directory goes, or stays: nothing else changes. -/
theorem attempt_removeTree_eq_ok {directory : Path} {result : Except Error Unit}
    (hrun : (Prog.attempt (Keycard.removeTree directory) : FileProg (Except Error Unit)) h =
      (.ok result, t))
    (p : Path) : t.files p = h.files p ∨ directory <+: p ∧ t.files p = none := by
  unfold Keycard.removeTree at hrun
  rcases attempt_eq_ok.mp hrun with ⟨_, -, hdone⟩ | ⟨_, -, hrefused⟩
  · have heffect := change_eq_ok hdone
    rw [← Except.ok.inj heffect]
    by_cases hp : directory <+: p
    · exact Or.inr ⟨hp, if_pos (List.isPrefixOf_iff_prefix.mpr hp)⟩
    · exact Or.inl (if_neg fun hprefix => hp (List.isPrefixOf_iff_prefix.mp hprefix))
  · exact Or.inl (by rw [change_eq_error hrefused])

/-- A card whose path is in the temporary directory goes with it, or the directory stays. -/
theorem createKeycard_eq_ok {draws : Keycard.CapsuleDraws}
    (hrun : Keycard.createKeycard draws output password params overwrite h = (.ok info, t)) :
    ∃ capsule, encodeKeyfileBytes draws.master password params draws.salt draws.nonce =
      .ok capsule ∧
      (Exported (fun p => draws.directory <+: p) capsule output h t ∨
        draws.directory <+: output ∧ t.files output = none) := by
  obtain ⟨_, t₁, hdirs, hrest⟩ := bind_eq_ok.mp hrun
  obtain ⟨result, t₂, hbody, hrest⟩ := bind_eq_ok.mp hrest
  obtain ⟨removed, t₃, hremove, hrest⟩ := bind_eq_ok.mp hrest
  obtain ⟨rfl, rfl⟩ := ofExcept_eq_ok.mp hrest
  have hbody := (attempt_eq_ok.mp hbody).resolve_right (by rintro ⟨_, hresult, -⟩; cases hresult)
  obtain ⟨info', hinfo, hbody⟩ := hbody
  obtain ⟨_, t₄, hcreate, hexport⟩ := bind_eq_ok.mp hbody
  obtain ⟨capsule, hmade, hkey⟩ := createKeyfile_eq_ok hcreate
  obtain ⟨source, t₅, hsource, hexport⟩ := bind_eq_ok.mp hexport
  obtain ⟨⟨c, hc, hcapsule⟩, hread⟩ := sourceBytes_eq_ok hsource
  rw [hkey, put_self] at hc
  obtain rfl := Option.some.inj hc
  obtain rfl :=
    Except.ok.inj (hcapsule.symm.trans (capsuleOf_capsule (validate_encodeKeyfileBytes hmade)))
  obtain ⟨⟨card, info'', hrender, hplaced⟩, hframe⟩ := exportBytes_eq_ok hexport
  refine ⟨_, hmade, (attempt_removeTree_eq_ok hremove output).imp_left fun hkept =>
    ⟨⟨card, info'', hrender, hkept.trans hplaced⟩, fun p hp hscratch => ?_⟩⟩
  have hkeyPath : p ≠ draws.directory.join "visual-key.orisyvra-key" := by
    rintro rfl
    exact hscratch (List.prefix_append _ _)
  have hleft := (attempt_removeTree_eq_ok hremove p).resolve_right fun hgone => hscratch hgone.1
  rw [hleft, hframe p hp not_false, hread, hkey, put_of_ne hkeyPath, makeDirs_eq_ok hdirs]

theorem exportRecoveryKeycardFromMaster_eq_ok {name : String} {master : MasterKey}
    {salt : FixedBytes 16}
    {nonce : FixedBytes 24}
    (hrun : Keycard.exportRecoveryKeycardFromMaster name master password params salt
      nonce output overwrite h = (.ok info, t)) :
    ∃ capsule, encodeKeyfileBytes master password params salt nonce = .ok capsule ∧
      Exported (fun _ => False) capsule output h t := by
  obtain ⟨capsule, t₁, hencode, hexport⟩ := bind_eq_ok.mp hrun
  obtain ⟨hmade, rfl⟩ := ofExcept_eq_ok.mp hencode
  exact ⟨capsule, hmade, exportBytes_eq_ok hexport⟩

end

/-- **What a creation leaves**: the card at the output and the binding at its path, and nothing else
has changed but in a directory of its own.  Where the output is the path of the binding, the binding
has replaced the card. -/
structure Created (platform : Platform) [KeyCrypto] [CardImaging] (scratch : Path → Prop)
    (deviceSecret : FixedBytes 32) (capsule : Bytes) (output : Path)
      (image binding : Bytes) (path : Path)
    (h t : Host Path) : Prop where
  marked : markerPresent image = true
  holds : Keycard.capsuleOf image = .ok capsule
  place : bindingPath platform (Keycard.cardId capsule) = .ok path
  sealed : platform.protect (bindingMagic ++ deviceSecret.val) = .ok binding
  stored : t.files path = some ⟨binding, true⟩
  card : output ≠ path → t.files output = some ⟨image, true⟩
  frame : ∀ p, p ≠ output → p ≠ path → ¬scratch p → t.files p = h.files p

section

variable [KeyCrypto] [CardImaging] {h t : Host Path} {source output : Path}
  {info : Keycard.KeyCardInfo} {platform : Platform} {scratch : Path → Prop}
  {deviceSecret : FixedBytes 32} {capsule : Bytes}

omit [KeyCrypto] [CardImaging] in
theorem storeBinding_eq_ok {draws : ℕ → UInt64} {cardId : String} {u : Unit}
    (hrun : storeBinding platform draws cardId deviceSecret h = (.ok u, t)) :
    ∃ path binding, bindingPath platform cardId = .ok path ∧
      platform.protect (bindingMagic ++ deviceSecret.val) = .ok binding ∧
      t.files = put h.files path (some ⟨binding, true⟩) := by
  obtain ⟨path, t₁, hplace, hrest⟩ := bind_eq_ok.mp hrun
  obtain ⟨hpath, rfl⟩ := ofExcept_eq_ok.mp hplace
  obtain ⟨_, t₂, hdirs, hrest⟩ := bind_eq_ok.mp hrest
  rcases hsealed : platform.protect (bindingMagic ++ deviceSecret.val) with code | binding <;>
    simp only [hsealed] at hrest
  · exact absurd hrest fail_ne_ok
  · exact ⟨path, binding, hpath, rfl, by rw [writeAtomic_eq_ok hrest, makeDirs_eq_ok hdirs]⟩

omit [KeyCrypto] [CardImaging] in
theorem markPinCard_eq_ok {draws : ℕ → UInt64} {path : Path} {u : Unit}
    (hrun : markPinCard draws path h = (.ok u, t)) :
    ∃ c image, h.files path = some c ∧ addPinMarker c.bytes = .ok image ∧
      t.files = put h.files path (some ⟨image, true⟩) := by
  obtain ⟨original, t₁, hread, hrest⟩ := bind_eq_ok.mp hrun
  obtain ⟨⟨c, hc, rfl⟩, hsame⟩ := readFile_eq_ok hread
  obtain ⟨image, t₂, hmark, hwrite⟩ := bind_eq_ok.mp hrest
  obtain ⟨hmarked, rfl⟩ := ofExcept_eq_ok.mp hmark
  exact ⟨c, image, hc, hmarked, by rw [writeAtomic_eq_ok hwrite, hsame]⟩

/-- The five steps, after the card has been exported. -/
theorem cardSteps_eq_ok (hencoder : PlainEncoder)
    {exportCard : Bytes → FileProg Keycard.KeyCardInfo}
    {draws : PinDraws} {pin : String} {P : Bytes → Prop}
    (hexport : ∀ info t, exportCard (credential draws.deviceSecret pin) h = (.ok info, t) →
      ∃ capsule, P capsule ∧ (Exported scratch capsule output h t ∨ t.files output = none))
    (hrun : cardSteps exportCard platform draws output pin h = (.ok info, t)) :
    ∃ capsule image binding path, P capsule ∧ info = ⟨Keycard.cardId capsule⟩ ∧
      Created platform scratch draws.deviceSecret capsule output image binding path h t := by
  obtain ⟨info₁, t₁, hexported, hrest⟩ := bind_eq_ok.mp hrun
  obtain ⟨_, t₂, hmark, hrest⟩ := bind_eq_ok.mp hrest
  obtain ⟨info₂, t₃, hinfo, hrest⟩ := bind_eq_ok.mp hrest
  obtain ⟨_, t₄, hstore, hpure⟩ := bind_eq_ok.mp hrest
  obtain ⟨rfl, rfl⟩ := pure_eq_ok.mp hpure
  obtain ⟨capsule, hP, hleft⟩ := hexport _ _ (mapError_eq_ok.mp hexported)
  obtain ⟨c, image, hc, hmarked, hfiles₂⟩ := markPinCard_eq_ok hmark
  -- a card that is gone does not get this far
  obtain ⟨⟨card, info', hrender, hplaced⟩, hframe⟩ :=
    hleft.resolve_right fun hgone => absurd (hgone.symm.trans hc) (by simp)
  obtain rfl := Option.some.inj (hplaced.symm.trans hc)
  -- nor does a PDF
  have hpng : Keycard.renderPngCard capsule = .ok (card, info') := by
    split at hrender
    · exact absurd hmarked (addPinMarker_of_renderPdfCard hrender)
    · exact hrender
  obtain ⟨image', hmarked', hpresent, hcapsule⟩ := marked_of_renderPngCard hencoder hpng
  obtain rfl := Except.ok.inj (hmarked.symm.trans hmarked')
  obtain ⟨⟨c₂, capsule₂, hc₂, hcapsule₂, rfl⟩, hsame⟩ := keySourceInfo_eq_ok hinfo
  rw [hfiles₂, put_self] at hc₂
  obtain rfl := Option.some.inj hc₂
  obtain rfl := Except.ok.inj (hcapsule.symm.trans hcapsule₂)
  obtain ⟨path, binding, hpath, hsealed, hfiles₄⟩ := storeBinding_eq_ok hstore
  refine ⟨capsule, image, binding, path, hP, rfl, hpresent, hcapsule, hpath, hsealed, ?_,
    fun hne => ?_, fun p hp hp' hscratch => ?_⟩
  · rw [hfiles₄, put_self]
  · rw [hfiles₄, put_of_ne hne, hsame, hfiles₂, put_self]
  · rw [hfiles₄, put_of_ne hp', hsame, hfiles₂, put_of_ne hp, hframe p hp hscratch]

theorem createCard_eq_ok (hencoder : PlainEncoder)
    {exportCard : Bytes → FileProg Keycard.KeyCardInfo}
    {draws : PinDraws} {pin : String} {P : Bytes → Prop}
    (hexport : ∀ info t, exportCard (credential draws.deviceSecret pin) h = (.ok info, t) →
      ∃ capsule, P capsule ∧ (Exported scratch capsule output h t ∨ t.files output = none))
    (hrun : createCard exportCard platform draws output pin h = (.ok info, t)) :
    pinIsValid pin = true ∧ ∃ capsule image binding path, P capsule ∧
    info = ⟨Keycard.cardId capsule⟩ ∧
      Created platform scratch draws.deviceSecret capsule output image binding path h t := by
  obtain ⟨_, t₁, hcheck, hrest⟩ := bind_eq_ok.mp hrun
  obtain ⟨hvalid, rfl⟩ := ofExcept_eq_ok.mp hcheck
  split at hrest
  · exact absurd hrest fail_ne_ok
  obtain ⟨result, t₂, hattempt, hrest⟩ := bind_eq_ok.mp hrest
  rcases attempt_eq_ok.mp hattempt with ⟨info', rfl, hsteps⟩ | ⟨e, rfl, -⟩
  · obtain ⟨rfl, rfl⟩ := pure_eq_ok.mp hrest
    refine ⟨?_, cardSteps_eq_ok hencoder hexport hsteps⟩
    unfold validatePin at hvalid
    split at hvalid
    · assumption
    · exact absurd hvalid (by simp)
  · obtain ⟨_, _, _, hfail⟩ := bind_eq_ok.mp hrest
    exact absurd hfail fail_ne_ok

/-! ## What copies and removals leave -/

theorem pinCardState_eq_ok {state : PinCardState}
    (hrun : pinCardState platform source h = (.ok state, t)) : t.files = h.files := by
  obtain ⟨bytes, t₁, hread, hrest⟩ := bind_eq_ok.mp hrun
  obtain ⟨-, hsame⟩ := readFile_eq_ok hread
  rw [← hsame]
  split at hrest
  · rw [(pure_eq_ok.mp hrest).2]
  obtain ⟨info, t₂, hinfo, hrest⟩ := bind_eq_ok.mp hrest
  rw [← (keySourceInfo_eq_ok hinfo).2]
  rcases hpath : bindingPath platform info.cardId with e | path <;> simp only [hpath] at hrest
  · rw [(pure_eq_ok.mp hrest).2]
  · obtain ⟨found, t₃, hprobe, hpure⟩ := bind_eq_ok.mp hrest
    rw [← pathExists_eq_ok hprobe, (pure_eq_ok.mp hpure).2]

theorem copyPinCard_eq_ok {draws : ℕ → UInt64} {overwrite : Bool}
    (hrun : copyPinCard platform draws source output overwrite h = (.ok info, t)) :
    ∃ c, h.files source = some c ∧ t.files = put h.files output (some ⟨c.bytes, true⟩) := by
  obtain ⟨state, t₁, hstate, hrest⟩ := bind_eq_ok.mp hrun
  split at hrest
  · exact absurd hrest fail_ne_ok
  obtain ⟨bytes, t₂, hread, hrest⟩ := bind_eq_ok.mp hrest
  obtain ⟨⟨c, hc, rfl⟩, hsame⟩ := readFile_eq_ok hread
  obtain ⟨_, t₃, hwrite, hinfo⟩ := bind_eq_ok.mp hrest
  rw [pinCardState_eq_ok hstate] at hc hsame
  exact ⟨c, hc, by rw [(keySourceInfo_eq_ok hinfo).2, writeAtomic_eq_ok hwrite, hsame]⟩

omit [KeyCrypto] [CardImaging] in
/-- The path is empty afterwards, whether or not there was a file. -/
theorem attempt_remove_eq_ok {path : Path} {result : Except PinError Unit}
    (hresult : result = .ok () ∨ result = .error (.io .notFound))
    (hrun : (Prog.attempt (remove path) : PinProg (Except PinError Unit)) h = (.ok result, t)) :
    t.files = put h.files path none := by
  rcases attempt_eq_ok.mp hrun with ⟨u, -, hdone⟩ | ⟨e, he, hrefused⟩
  · exact remove_eq_ok hdone
  · obtain rfl : e = .io .notFound := by
      rcases hresult with rfl | rfl
      · exact absurd he (by simp)
      · exact (Except.error.inj he).symm
    have hspec : wp (remove path : PinProg Unit) ⟨fun _ _ => True,
        fun e t => e = .io .notFound → t.files = put h.files path none, fun _ => True⟩ h := by
      rcases hc : h.files path with _ | c
      · exact wp_remove_none hc (fun _ _ => (put_eq_self hc).symm) fun _ => trivial
      · exact wp_remove hc (fun _ => trivial) (fun _ _ hio => absurd hio (by decide))
          (fun _ _ => trivial) fun _ _ => trivial
    exact hspec.error hrefused rfl

theorem removePinBinding_eq_ok {u : Unit} (hrun : removePinBinding platform source h = (.ok u, t)) :
    ∃ c capsule path, h.files source = some c ∧ Keycard.capsuleOf c.bytes = .ok capsule ∧
      bindingPath platform (Keycard.cardId capsule) = .ok path ∧
      t.files = put h.files path none := by
  obtain ⟨info, t₁, hinfo, hrest⟩ := bind_eq_ok.mp hrun
  obtain ⟨⟨c, capsule, hc, hcapsule, rfl⟩, hsame⟩ := keySourceInfo_eq_ok hinfo
  obtain ⟨path, t₂, hplace, hrest⟩ := bind_eq_ok.mp hrest
  obtain ⟨hpath, rfl⟩ := ofExcept_eq_ok.mp hplace
  obtain ⟨result, t₃, hremove, hrest⟩ := bind_eq_ok.mp hrest
  refine ⟨c, capsule, path, hc, hcapsule, hpath, ?_⟩
  have hresult : (result = .ok () ∨ result = .error (.io .notFound)) ∧ t₃ = t := by
    rcases result with e | ⟨⟩
    · by_cases hnone : e = .io .notFound
      · subst hnone
        exact ⟨Or.inr rfl, (pure_eq_ok.mp hrest).2⟩
      · rcases e with _ | failure | _
        · exact absurd hrest fail_ne_ok
        · rcases failure <;> first | exact absurd rfl hnone | exact absurd hrest fail_ne_ok
        · exact absurd hrest fail_ne_ok
    · exact ⟨Or.inl rfl, (pure_eq_ok.mp hrest).2⟩
  rw [← hresult.2, attempt_remove_eq_ok hresult.1 hremove, hsame]

end

end PinCard
end OrIsyVra
