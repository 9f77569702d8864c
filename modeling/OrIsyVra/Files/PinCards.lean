import OrIsyVra.Files.PinStore
import OrIsyVra.Library.Runs
import Mathlib.Data.List.GetD
import Mathlib.Data.Set.Function
import Mathlib.Logic.Function.Basic

/-!
# PIN cards over time

Cards are created, copied and disowned in any order.  A card is known by the fingerprint of its
capsule, and its binding is kept under that fingerprint; so the copies of a card share the binding,
and a card stays what it is whatever is done to the others.

`Effect` lists once what a call can do to the files.  The invariant `Stands` says of every card that
its file holds a marked PNG with the capsule, and that the binding, where it has not been removed,
holds the secret under which the capsule was sealed.  From it follows what `unlock_pin_card` returns
(`pin_cards`), as long as no card is written over a binding; nothing keeps a caller from that
(`overwritten_binding`).
-/

namespace OrIsyVra
namespace PinCard

open ByteString FaultProgram FileSystem Runs

/-! ## Fingerprints and their paths -/

theorem toUpper_hexUpper (i : ℕ) :
    (Keycard.hexUpper.getD i '0').toUpper = Keycard.hexUpper.getD i '0' := by
  rcases lt_or_ge i 16 with hi | hi
  · have hall : ∀ i < 16, (Keycard.hexUpper.getD i '0').toUpper = Keycard.hexUpper.getD i '0' := by
      decide
    exact hall i hi
  · rw [List.getD_eq_default _ _ hi]
    rfl

/-- A fingerprint is in capital letters. -/
theorem toUpper_cardId [KeyCrypto] (capsule : Bytes) :
    (Keycard.cardId capsule).toUpper = Keycard.cardId capsule := by
  have hbyte : ∀ b, (Keycard.hexByte b).map Char.toUpper = Keycard.hexByte b := fun b => by
    rw [Keycard.hexByte, List.map_cons, List.map_cons, List.map_nil,
      toUpper_hexUpper, toUpper_hexUpper]
  unfold Keycard.cardId String.toUpper
  rw [String.map_eq_internal, String.toList_ofList, List.map_flatMap]
  simp only [hbyte]

/-- **A binding belongs to one fingerprint.** -/
theorem cardId_of_bindingPath [KeyCrypto] {platform : Platform} {path : Path}
    {capsule capsule' : Bytes} (h : bindingPath platform (Keycard.cardId capsule) = .ok path)
    (h' : bindingPath platform (Keycard.cardId capsule') = .ok path) :
    Keycard.cardId capsule = Keycard.cardId capsule' := by
  unfold bindingPath at h h'
  obtain ⟨_, -, hrest⟩ := except_bind_eq_ok.mp h
  obtain ⟨root, hroot, hpath⟩ := except_bind_eq_ok.mp hrest
  obtain ⟨_, -, hrest'⟩ := except_bind_eq_ok.mp h'
  obtain ⟨root', hroot', hpath'⟩ := except_bind_eq_ok.mp hrest'
  obtain rfl := Except.ok.inj (hroot.symm.trans hroot')
  have hname := List.append_cancel_left ((Except.ok.inj hpath).trans (Except.ok.inj hpath').symm)
  have hupper := (String.append_left_inj _).mp (List.cons.inj hname).1
  rwa [toUpper_cardId, toUpper_cardId] at hupper

theorem credential_injective {s s' : FixedBytes 32} {pin pin' : String}
    (h : credential s pin = credential s' pin') : s = s' ∧ pin = pin' := by
  have hrest := List.append_cancel_left h
  obtain ⟨hsecret, hpin⟩ := List.append_inj hrest (s.length_val.trans s'.length_val.symm)
  refine ⟨Subtype.ext hsecret, ?_⟩
  have hbytes : pin.toByteArray.data = pin'.toByteArray.data := Array.toList_inj.mp hpin
  exact String.toByteArray_inj.mp (ByteArray.ext hbytes)

/-! ## Cards and calls -/

/-- What a card was created with, and the fingerprint that was returned. -/
structure Card where
  master : MasterKey
  pin : String
  cardId : String

/-- A call that has returned, with the fingerprint of its card. -/
inductive Event where
  | created (cardId : String)
  | copied (cardId : String)
  | removed (cardId : String)
  deriving DecidableEq

def Event.cardId : Event → String
  | created cardId => cardId
  | copied cardId => cardId
  | removed cardId => cardId

/-- The files, and the cards at their paths. -/
structure World where
  files : Files Path
  cards : Path → Option Card

/-- No card has been created yet. -/
def World.start (files : Files Path) : World := ⟨files, fun _ => none⟩

/-- Who makes the calls, where cards may be written, and what passwords and capsules there can
be. -/
structure Setting where
  account : Account
  outputs : Path → Prop
  passwords : Set Bytes
  capsules : Set Bytes

namespace Setting

def bindingOf (s : Setting) (cardId : String) (path : Path) : Prop :=
  bindingPath s.account.toPlatform cardId = .ok path

/-- What the random generator has drawn for a creation. -/
structure Drawn (s : Setting) (deviceSecret : FixedBytes 32) (made : Except Error Bytes) :
    Prop where
  passwords : ∀ pin, pinIsValid pin = true → credential deviceSecret pin ∈ s.passwords
  capsule : ∀ capsule, made = .ok capsule → capsule ∈ s.capsules

/-- A temporary directory is new, and nobody else's. -/
def Fresh (s : Setting) (files : Files Path) (output directory : Path) : Prop :=
  ∀ p, directory <+: p → files p = none ∧ p ≠ output ∧ ∀ cardId, ¬s.bindingOf cardId p

end Setting

section

variable [KeyCrypto] [CardImaging] [Crypto]

/-- A call returns. -/
inductive Step (s : Setting) (w : World) : Event → World → Prop
  | create {draws : PinDraws} {capsule : Keycard.CapsuleDraws} {output : Path} {pin : String}
      {params : KeyfileParams} {overwrite : Bool} {info : Keycard.KeyCardInfo} {h t : Host Path}
      (hfiles : h.files = w.files) (houtput : s.outputs output) (hdistinct : w.cards output = none)
      (hfresh : s.Fresh w.files output capsule.directory)
      (hdrawn : s.Drawn draws.deviceSecret (encodeKeyfileBytes capsule.master
        (credential draws.deviceSecret pin) params capsule.salt capsule.nonce))
      (hrun : createPinCard s.account.toPlatform draws capsule output pin params overwrite h =
        (.ok info, t)) :
      Step s w (.created info.cardId)
        ⟨t.files, Function.update w.cards output (some ⟨capsule.master, pin, info.cardId⟩)⟩
  | createFromMaster {draws : PinDraws} {cardTemporary : String} {salt : FixedBytes 16}
      {nonce : FixedBytes 24} {master : MasterKey} {output : Path} {pin : String}
      {params : KeyfileParams} {overwrite : Bool} {info : Keycard.KeyCardInfo} {h t : Host Path}
      (hfiles : h.files = w.files) (houtput : s.outputs output) (hdistinct : w.cards output = none)
      (hdrawn : s.Drawn draws.deviceSecret (encodeKeyfileBytes master
        (credential draws.deviceSecret pin) params salt nonce))
      (hrun : createPinCardFromMaster s.account.toPlatform draws cardTemporary salt nonce master
        output pin params overwrite h = (.ok info, t)) :
      Step s w (.created info.cardId)
        ⟨t.files, Function.update w.cards output (some ⟨master, pin, info.cardId⟩)⟩
  | copy {draws : ℕ → UInt64} {source output : Path} {overwrite : Bool} {info : Keycard.KeyCardInfo}
      {h t : Host Path} (hfiles : h.files = w.files) (houtput : s.outputs output)
      (hdistinct : w.cards output = none)
      (hrun : copyPinCard s.account.toPlatform draws source output overwrite h = (.ok info, t)) :
      Step s w (.copied info.cardId) ⟨t.files, Function.update w.cards output (w.cards source)⟩
  | remove {source : Path} {c : Contents} {capsule : Bytes} {h t : Host Path}
      (hfiles : h.files = w.files) (hc : w.files source = some c)
      (hcapsule : Keycard.capsuleOf c.bytes = .ok capsule)
      (hrun : removePinBinding s.account.toPlatform source h = (.ok (), t)) :
      Step s w (.removed (Keycard.cardId capsule)) ⟨t.files, w.cards⟩

/-! ## What a call does -/

/-- The bytes are a card whose capsule was sealed under the secret. -/
structure Wraps (s : Setting) (image : Bytes) (deviceSecret : FixedBytes 32) (capsule : Bytes)
    (card : Card) : Prop where
  marked : markerPresent image = true
  holds : Keycard.capsuleOf image = .ok capsule
  known : capsule ∈ s.capsules
  cardId : card.cardId = Keycard.cardId capsule
  pin : pinIsValid card.pin = true
  passwords : ∀ pin, pinIsValid pin = true → credential deviceSecret pin ∈ s.passwords
  unlocks : unlockKeyfileBytes capsule (credential deviceSecret card.pin) = .ok card.master

/-- **What a call can do**, where no card may be written over a binding. -/
inductive Effect (s : Setting) (w : World) : Event → World → Prop
  | created {card : Card} {image : Bytes} {deviceSecret : FixedBytes 32} {capsule : Bytes}
      {output path : Path} {binding : Contents} {files : Files Path}
      (hwraps : Wraps s image deviceSecret capsule card) (hpath : s.bindingOf card.cardId path)
      (hopens : openBinding s.account binding.bytes = .ok deviceSecret)
      (houtput : s.outputs output) (hdistinct : w.cards output = none)
      (himage : files output = some ⟨image, true⟩) (hbinding : files path = some binding)
      (hframe : ∀ p, p ≠ output → p ≠ path →
        w.files p ≠ none ∨ (∃ cardId, s.bindingOf cardId p) → files p = w.files p) :
      Effect s w (.created card.cardId) ⟨files, Function.update w.cards output (some card)⟩
  | copied {source output : Path} {c : Contents} {cardId : String}
      (hsource : w.files source = some c) (houtput : s.outputs output)
      (hdistinct : w.cards output = none) :
      Effect s w (.copied cardId) ⟨put w.files output (some ⟨c.bytes, true⟩),
        Function.update w.cards output (w.cards source)⟩
  | removed {capsule : Bytes} {path : Path} (hpath : s.bindingOf (Keycard.cardId capsule) path) :
      Effect s w (.removed (Keycard.cardId capsule)) ⟨put w.files path none, w.cards⟩

variable {s : Setting} {w w' : World} {e : Event} {log : List Sealing}

omit [KeyCrypto] [CardImaging] [Crypto] in
theorem openBinding_of_protect (hlawful : s.account.Lawful) {deviceSecret : FixedBytes 32}
    {binding : Bytes} (h : s.account.protect (bindingMagic ++ deviceSecret.val) = .ok binding) :
    openBinding s.account binding = .ok deviceSecret := by
  have hlen : (bindingMagic ++ deviceSecret.val).length = bindingMagic.length + 32 := by
    rw [List.length_append, deviceSecret.length_val]
  have htake : (bindingMagic ++ deviceSecret.val).take bindingMagic.length = bindingMagic :=
    List.take_left
  have hdrop : (bindingMagic ++ deviceSecret.val).drop bindingMagic.length = deviceSecret.val :=
    List.drop_left
  unfold openBinding
  rw [hlawful _ _ h]
  dsimp only
  rw [hlen, htake, hdrop, if_neg (by simp), FixedBytes.of_val]

/-- A creation of either kind. -/
theorem effect_of_created [LawfulCrypto] (hlawful : s.account.Lawful)
    (hplaces : ∀ p, s.outputs p → ∀ cardId, ¬s.bindingOf cardId p) {scratch : Path → Prop}
    {deviceSecret : FixedBytes 32} {master : MasterKey} {params : KeyfileParams}
    {salt : FixedBytes 16} {nonce : FixedBytes 24} {pin : String} {output path : Path}
    {capsule image binding : Bytes} {h t : Host Path} (hfiles : h.files = w.files)
    (houtput : s.outputs output) (hdistinct : w.cards output = none)
    (hscratch : ∀ p, scratch p → w.files p = none ∧ ∀ cardId, ¬s.bindingOf cardId p)
    (hdrawn : s.Drawn deviceSecret
      (encodeKeyfileBytes master (credential deviceSecret pin) params salt
      nonce)) (hpin : pinIsValid pin = true)
    (hmade : encodeKeyfileBytes master (credential deviceSecret pin) params salt nonce =
      .ok capsule)
    (hcreated : Created s.account.toPlatform scratch deviceSecret capsule output image
      binding path h t) :
    Effect s w (.created (Keycard.cardId capsule)) ⟨t.files,
      Function.update w.cards output (some ⟨master, pin, Keycard.cardId capsule⟩)⟩ := by
  have hne : output ≠ path := by
    rintro rfl
    exact hplaces output houtput _ hcreated.place
  have hwraps : Wraps s image deviceSecret capsule ⟨master, pin, Keycard.cardId capsule⟩ :=
    ⟨hcreated.marked, hcreated.holds, hdrawn.capsule capsule hmade, rfl, hpin, hdrawn.passwords,
      unlock_of_encode hmade⟩
  refine .created hwraps hcreated.place (openBinding_of_protect hlawful hcreated.sealed) houtput
    hdistinct (hcreated.card hne) hcreated.stored fun p hp hp' hkept => ?_
  rw [hcreated.frame p hp hp', hfiles]
  intro hinside
  obtain ⟨hnone, hother⟩ := hscratch p hinside
  rcases hkept with hsome | ⟨cardId, hbinding⟩
  · exact hsome hnone
  · exact hother cardId hbinding

theorem Step.effect [LawfulCrypto] (hencoder : PlainEncoder) (hlawful : s.account.Lawful)
    (hplaces : ∀ p, s.outputs p → ∀ cardId, ¬s.bindingOf cardId p) (h : Step s w e w') :
    Effect s w e w' := by
  cases h with
  | create hfiles houtput hdistinct hfresh hdrawn hrun =>
    have hapart : ¬_ <+: _ := fun hinside => (hfresh _ hinside).2.1 rfl
    obtain ⟨hpin, capsule, image, binding, path, hmade, rfl, hcreated⟩ :=
      createCard_eq_ok hencoder (fun _ _ hexport => by
        obtain ⟨capsule, hmade, hleft⟩ := createKeycard_eq_ok hexport
        exact ⟨capsule, hmade, Or.inl (hleft.resolve_right fun hgone => hapart hgone.1)⟩) hrun
    exact effect_of_created hlawful hplaces hfiles houtput hdistinct
      (fun p hp => ⟨(hfresh p hp).1, (hfresh p hp).2.2⟩) hdrawn hpin hmade hcreated
  | createFromMaster hfiles houtput hdistinct hdrawn hrun =>
    obtain ⟨hpin, capsule, image, binding, path, hmade, rfl, hcreated⟩ :=
      createCard_eq_ok hencoder (fun _ _ hexport => by
        obtain ⟨capsule, hmade, hexported⟩ := exportRecoveryKeycardFromMaster_eq_ok hexport
        exact ⟨capsule, hmade, Or.inl hexported⟩) hrun
    exact effect_of_created hlawful hplaces hfiles houtput hdistinct
      (fun _ hp => hp.elim) hdrawn hpin hmade hcreated
  | copy hfiles houtput hdistinct hrun =>
    obtain ⟨c, hc, hcopied⟩ := copyPinCard_eq_ok hrun
    rw [hfiles] at hc hcopied
    rw [hcopied]
    exact .copied hc houtput hdistinct
  | remove hfiles hc hcapsule hrun =>
    obtain ⟨c', capsule', path, hc', hcapsule', hpath, hremoved⟩ := removePinBinding_eq_ok hrun
    rw [hfiles] at hc' hremoved
    obtain rfl := Option.some.inj (hc.symm.trans hc')
    obtain rfl := Except.ok.inj (hcapsule.symm.trans hcapsule')
    rw [hremoved]
    exact .removed hpath

/-! ## What is kept -/

omit [KeyCrypto] [CardImaging] [Crypto] in
/-- Since the binding was last stored under the fingerprint it has not been removed. -/
def Bound (cardId : String) (events : List Event) : Prop :=
  ∃ es₁ es₂, events = es₁ ++ .created cardId :: es₂ ∧ .removed cardId ∉ es₂

omit [KeyCrypto] [CardImaging] [Crypto] in
theorem bound_concat {cardId : String} {events : List Event} :
    Bound cardId (events ++ [e]) ↔ e = .created cardId ∨ Bound cardId events ∧
    e ≠ .removed cardId := by
  constructor
  · rintro ⟨es₁, es₂, hes, hnot⟩
    rcases List.eq_nil_or_concat es₂ with rfl | ⟨es₃, e₃, rfl⟩
    · exact Or.inl (List.cons.inj (List.append_inj' hes rfl).2).1
    · rw [List.concat_eq_append, ← List.cons_append, ← List.append_assoc] at hes
      obtain ⟨rfl, hlast⟩ := List.append_inj' hes rfl
      rw [List.concat_eq_append, List.mem_append, not_or, ← hlast, List.mem_singleton] at hnot
      exact Or.inr ⟨⟨es₁, es₃, rfl, hnot.1⟩, fun he => hnot.2 he.symm⟩
  · rintro (rfl | ⟨⟨es₁, es₂, rfl, hnot⟩, he⟩)
    · exact ⟨events, [], rfl, List.not_mem_nil⟩
    · refine ⟨es₁, es₂ ++ [e], by rw [List.append_assoc, List.cons_append], ?_⟩
      rw [List.mem_append, List.mem_singleton, not_or]
      exact ⟨hnot, fun heq => he heq.symm⟩

/-- The primitives as they should be, for the passwords and the capsules there can be: no two
sealings have the same ciphertext, a capsule opens only under what it was sealed under, no two
passwords give the same key, and no two capsules have the same fingerprint. -/
structure Ideal (s : Setting) (log : List Sealing) : Prop where
  apart : ∀ x ∈ log, ∀ y ∈ log,
    Crypto.encrypt x.1 x.2.1 x.2.2.1 x.2.2.2 = Crypto.encrypt y.1 y.2.1 y.2.2.1 y.2.2.2 → x = y
  sealed : ∀ capsule ∈ s.capsules, OpensAsSealed log capsule
  derives : ∀ (params : KeyfileParams) (salt key : Bytes)
    (h : key.length = 32), ∀ password ∈ s.passwords,
    ∀ password' ∈ s.passwords, KeyCrypto.argon2id params password salt = some ⟨key, h⟩ →
      KeyCrypto.argon2id params password' salt = some ⟨key, h⟩ → password = password'
  fingerprints : Set.InjOn Keycard.cardId s.capsules

omit [CardImaging] [Crypto] in
theorem argon2id_of_deriveWrappingKey {password : Bytes} {salt : FixedBytes 16}
    {params : KeyfileParams} {key : FixedBytes 32}
    (h : deriveWrappingKey password salt params = .ok key) :
    KeyCrypto.argon2id params password salt.val = some key := by
  unfold deriveWrappingKey at h
  obtain ⟨_, -, h⟩ := except_bind_eq_ok.mp h
  split at h
  · exact absurd h (by simp)
  split at h
  · exact absurd h (by simp)
  · next hkey => rw [hkey, Except.ok.inj h]

omit [CardImaging] in
/-- **A capsule opens under one password.** -/
theorem Ideal.unique (hideal : Ideal s log) {capsule password password' : Bytes}
    {master master' : MasterKey} (hcapsule : capsule ∈ s.capsules)
    (hpassword : password ∈ s.passwords) (hpassword' : password' ∈ s.passwords)
    (h : unlockKeyfileBytes capsule password = .ok master)
    (h' : unlockKeyfileBytes capsule password' = .ok master') :
    password = password' ∧ master = master' := by
  obtain ⟨params, salt, nonce, wrapped, key, hparts, hkey, hopen⟩ := unlockKeyfileBytes_iff.mp h
  obtain ⟨params', salt', nonce', wrapped', key', hparts', hkey', hopen'⟩ :=
    unlockKeyfileBytes_iff.mp h'
  obtain ⟨rfl, hrest⟩ := Prod.mk.inj (Except.ok.inj (hparts.decode.symm.trans hparts'.decode))
  obtain ⟨rfl, rfl⟩ := Prod.mk.inj hrest
  obtain rfl := hparts.drop.symm.trans hparts'.drop
  have hsealed := hideal.sealed capsule hcapsule
  rw [← hparts.drop] at hopen hopen'
  obtain ⟨hmem, hencrypt⟩ := hsealed _ _ _ _ hopen
  obtain ⟨hmem', hencrypt'⟩ := hsealed _ _ _ _ hopen'
  obtain ⟨hkeys, hmessage⟩ :=
    Prod.mk.inj (hideal.apart _ hmem _ hmem' (hencrypt.trans hencrypt'.symm))
  have hmaster := (Prod.mk.inj (Prod.mk.inj hmessage).2).2
  obtain rfl : key = key' := Subtype.ext hkeys
  refine ⟨?_, Subtype.ext hmaster⟩
  exact hideal.derives params salt.val key.val key.property _ hpassword _ hpassword'
    (argon2id_of_deriveWrappingKey hkey) (argon2id_of_deriveWrappingKey hkey')

/-- **Cards with one fingerprint have one secret**, and one PIN. -/
theorem Wraps.same (hideal : Ideal s log) {image image' capsule capsule' : Bytes}
    {deviceSecret deviceSecret' : FixedBytes 32} {card card' : Card}
    (h : Wraps s image deviceSecret capsule card) (h' : Wraps s image' deviceSecret' capsule' card')
    (hsame : card.cardId = card'.cardId) : capsule = capsule' ∧ deviceSecret = deviceSecret' := by
  obtain rfl : capsule = capsule' := hideal.fingerprints h.known h'.known
    (h.cardId.symm.trans (hsame.trans h'.cardId))
  obtain ⟨hcredential, -⟩ := hideal.unique h.known (h.passwords _ h.pin)
    (h'.passwords _ h'.pin) h.unlocks h'.unlocks
  exact ⟨rfl, (credential_injective hcredential).1⟩

/-- A card as it stands at a path, and its binding. -/
structure Stands (s : Setting) (events : List Event) (files : Files Path) (p : Path) (card : Card)
    (image : Bytes) (deviceSecret : FixedBytes 32) (capsule : Bytes) (path : Path) : Prop where
  wraps : Wraps s image deviceSecret capsule card
  place : s.bindingOf card.cardId path
  apart : ∀ cardId, ¬s.bindingOf cardId p
  image : ∃ synced, files p = some ⟨image, synced⟩
  bound : Bound card.cardId events → ∃ binding, files path = some binding ∧
    openBinding s.account binding.bytes = .ok deviceSecret
  unbound : ¬Bound card.cardId events → files path = none

/-- Every card stands. -/
def Sound (s : Setting) (events : List Event) (w : World) : Prop :=
  ∀ p card, w.cards p = some card →
    ∃ image deviceSecret capsule path, Stands s events w.files p card image
      deviceSecret capsule path

section

variable {events events' : List Event} {files files' : Files Path} {p path path' : Path}
  {card : Card} {image : Bytes} {deviceSecret : FixedBytes 32} {capsule : Bytes}

omit [CardImaging] [KeyCrypto] [Crypto] in
theorem bindingOf_unique {cardId : String} (h : s.bindingOf cardId path)
    (h' : s.bindingOf cardId path') :
    path = path' := Except.ok.inj (h.symm.trans h')

namespace Stands

/-- A card stands as long as its file, its binding and what is known about it stay. -/
theorem keep (h : Stands s events files p card image deviceSecret capsule path)
    (hfile : files' p = files p) (hbinding : files' path = files path)
    (hbound : Bound card.cardId events' ↔ Bound card.cardId events) :
    Stands s events' files' p card image deviceSecret capsule path := by
  refine ⟨h.wraps, h.place, h.apart, ?_, fun hb => ?_, fun hb => ?_⟩
  · rw [hfile]
    exact h.image
  · rw [hbinding]
    exact h.bound (hbound.mp hb)
  · rw [hbinding]
    exact h.unbound fun hold => hb (hbound.mpr hold)

theorem file_ne_none (h : Stands s events files p card image deviceSecret capsule path) :
    files p ≠ none := by
  obtain ⟨synced, hfile⟩ := h.image
  rw [hfile]
  exact Option.some_ne_none _

theorem ne_binding (h : Stands s events files p card image deviceSecret capsule path)
    {cardId : String} (hpath' : s.bindingOf cardId path') : p ≠ path' := by
  rintro rfl
  exact h.apart cardId hpath'

/-- Another fingerprint has another binding. -/
theorem path_ne (h : Stands s events files p card image deviceSecret capsule path)
    {capsule' : Bytes} (hpath' : s.bindingOf (Keycard.cardId capsule') path')
    (hne : card.cardId ≠ Keycard.cardId capsule') :
    path ≠ path' := by
  rintro rfl
  have hplace := h.place
  rw [h.wraps.cardId] at hplace hne
  exact hne (cardId_of_bindingPath hplace hpath')

end Stands

end

/-- **One call keeps every card.** -/
theorem Sound.step {events : List Event} (hideal : Ideal s log)
    (hplaces : ∀ p, s.outputs p → ∀ cardId, ¬s.bindingOf cardId p) (h : Sound s events w)
    (heffect : Effect s w e w') : Sound s (events ++ [e]) w' := by
  have hother : ∀ {cardId : String}, e ≠ .created cardId → e ≠ .removed cardId →
      (Bound cardId (events ++ [e]) ↔ Bound cardId events) := fun hnew hgone =>
    bound_concat.trans ⟨fun hb => (hb.resolve_left hnew).1, fun hb => Or.inr ⟨hb, hgone⟩⟩
  intro p card hcard
  cases heffect with
  | @created new image₀ deviceSecret₀ capsule₀ output path₀ binding files hwraps hpath hopens
      houtput hdistinct himage hbinding hframe =>
    dsimp only at hcard ⊢
    by_cases hp : p = output
    · subst hp
      obtain rfl := Option.some.inj ((Function.update_self p _ w.cards).symm.trans hcard)
      exact ⟨image₀, deviceSecret₀, capsule₀, path₀, hwraps, hpath, hplaces p houtput,
        ⟨true, himage⟩, fun _ => ⟨binding, hbinding, hopens⟩, fun hb =>
          absurd (bound_concat.mpr (Or.inl rfl)) hb⟩
    rw [Function.update_of_ne hp] at hcard
    obtain ⟨image, deviceSecret, capsule, path, hstands⟩ := h p card hcard
    have hfile : files p = w.files p :=
      hframe p hp (hstands.ne_binding hpath) (Or.inl hstands.file_ne_none)
    by_cases hsame : card.cardId = new.cardId
    · -- the same capsule again, so the same secret is stored
      obtain rfl := bindingOf_unique (hsame ▸ hstands.place) hpath
      obtain ⟨rfl, rfl⟩ := hstands.wraps.same hideal hwraps hsame
      refine ⟨image, deviceSecret, capsule, path, hstands.wraps, hstands.place, hstands.apart, ?_,
        fun _ => ⟨binding, hbinding, hopens⟩, fun hb => absurd (bound_concat.mpr (Or.inl ?_)) hb⟩
      · rw [hfile]
        exact hstands.image
      · rw [hsame]
    · rw [hwraps.cardId] at hpath hsame
      refine ⟨image, deviceSecret, capsule, path, hstands.keep hfile ?_ (hother ?_ (by simp))⟩
      · refine hframe path ?_ (hstands.path_ne hpath hsame) (Or.inr ⟨_, hstands.place⟩)
        rintro rfl
        exact hplaces path houtput _ hstands.place
      · intro heq
        exact hsame ((Event.created.inj heq).symm.trans hwraps.cardId)
  | @copied source output c cardId hsource houtput hdistinct =>
    dsimp only at hcard ⊢
    by_cases hp : p = output
    · subst hp
      rw [Function.update_self] at hcard
      obtain ⟨image, deviceSecret, capsule, path, hstands⟩ := h source card hcard
      have hne : path ≠ p := by
        rintro rfl
        exact hplaces path houtput _ hstands.place
      obtain ⟨synced, hfile⟩ := hstands.image
      obtain rfl := Option.some.inj (hsource.symm.trans hfile)
      have hbinding : put w.files p (some ⟨image, true⟩) path = w.files path := put_of_ne hne
      have hbound : Bound card.cardId (events ++ [.copied cardId]) ↔ Bound card.cardId events :=
        hother (by simp) (by simp)
      refine ⟨image, deviceSecret, capsule, path, hstands.wraps, hstands.place, hplaces p houtput,
        ⟨true, put_self _ _ _⟩, fun hb => ?_, fun hb => ?_⟩
      · rw [hbinding]
        exact hstands.bound (hbound.mp hb)
      · rw [hbinding]
        exact hstands.unbound fun hold => hb (hbound.mpr hold)
    · rw [Function.update_of_ne hp] at hcard
      obtain ⟨image, deviceSecret, capsule, path, hstands⟩ := h p card hcard
      have hne : path ≠ output := by
        rintro rfl
        exact hplaces path houtput _ hstands.place
      exact ⟨image, deviceSecret, capsule, path, hstands.keep (put_of_ne hp) (put_of_ne hne)
        (hother (by simp) (by simp))⟩
  | @removed capsule₀ path₀ hpath =>
    dsimp only at hcard ⊢
    obtain ⟨image, deviceSecret, capsule, path, hstands⟩ := h p card hcard
    have hfile : put w.files path₀ none p = w.files p := put_of_ne (hstands.ne_binding hpath)
    by_cases hsame : card.cardId = Keycard.cardId capsule₀
    · obtain rfl := bindingOf_unique (hsame ▸ hstands.place) hpath
      refine ⟨image, deviceSecret, capsule, path, hstands.wraps, hstands.place, hstands.apart, ?_,
        fun hb => ?_, fun _ => put_self _ _ _⟩
      · rw [hfile]
        exact hstands.image
      · rcases bound_concat.mp hb with heq | ⟨-, hnot⟩
        · exact absurd heq (by simp)
        · exact absurd (congrArg Event.removed hsame.symm) hnot
    · refine ⟨image, deviceSecret, capsule, path, hstands.keep hfile
        (put_of_ne (hstands.path_ne hpath hsame)) (hother (by simp) fun heq => ?_)⟩
      exact hsame (Event.removed.inj heq).symm

/-! ## What unlocking returns -/

theorem Wraps.opened {image : Bytes} {deviceSecret : FixedBytes 32} {capsule : Bytes} {card : Card}
    (h : Wraps s image deviceSecret capsule card) (bindings : Files Path) (pin : String) :
    PinCard.opened s.account bindings image pin =
      (validatePin pin >>= fun _ => openedCapsule s.account bindings capsule pin) := by
  unfold PinCard.opened
  rw [h.marked, h.holds]
  rfl

omit [CardImaging] in
theorem openedCapsule_congr {files files' : Files Path} {capsule : Bytes} {path : Path}
    (hplace : s.bindingOf (Keycard.cardId capsule) path) (hsame : files path = files' path)
    (pin : String) :
    openedCapsule s.account files capsule pin = openedCapsule s.account files' capsule pin := by
  unfold openedCapsule
  rw [show bindingPath s.account.toPlatform (Keycard.cardId capsule) = .ok path from hplace]
  dsimp only
  rw [hsame]

namespace Stands

variable {events : List Event} {files : Files Path} {p path : Path} {card : Card} {image : Bytes}
  {deviceSecret : FixedBytes 32} {capsule : Bytes}

/-- **A card opens under its PIN**, while its binding is there, and under no other. -/
theorem opened_iff (h : Stands s events files p card image deviceSecret capsule path)
    (hideal : Ideal s log) {pin : String} {master : MasterKey} :
    opened s.account files image pin = .ok master ↔
      master = card.master ∧ pin = card.pin ∧ Bound card.cardId events := by
  rw [h.wraps.opened]
  rcases hvalid : pinIsValid pin with _ | _
  · have hrefused : validatePin pin = .error (.text "PIN must contain exactly four digits") := by
      rw [validatePin, hvalid, if_neg Bool.false_ne_true]
    rw [hrefused]
    constructor
    · exact fun hopen => absurd hopen (by simp [bind, Except.bind])
    · rintro ⟨-, rfl, -⟩
      exact absurd (hvalid.symm.trans h.wraps.pin) Bool.false_ne_true
  have haccepted : validatePin pin = .ok () := by rw [validatePin, hvalid, if_pos rfl]
  have hplace : bindingPath s.account.toPlatform (Keycard.cardId capsule) = .ok path := by
    rw [← h.wraps.cardId]
    exact h.place
  rw [haccepted]
  show openedCapsule s.account files capsule pin = .ok master ↔ _
  unfold openedCapsule
  rw [hplace]
  dsimp only
  by_cases hbound : Bound card.cardId events
  · obtain ⟨binding, hbinding, hopens⟩ := h.bound hbound
    rw [hbinding]
    dsimp only
    rw [hopens]
    show (unlockKeyfileBytes capsule (credential deviceSecret pin)).mapError PinError.core = _ ↔ _
    rw [except_mapError_eq_ok]
    constructor
    · intro hopen
      obtain ⟨hcredential, hmaster⟩ := hideal.unique h.wraps.known (h.wraps.passwords pin hvalid)
        (h.wraps.passwords _ h.wraps.pin) hopen h.wraps.unlocks
      exact ⟨hmaster, (credential_injective hcredential).2, hbound⟩
    · rintro ⟨rfl, rfl, -⟩
      exact h.wraps.unlocks
  · rw [h.unbound hbound]
    exact ⟨fun hopen => absurd hopen (by simp), fun hopen => absurd hopen.2.2 hbound⟩

/-- A call for another card does not touch the binding. -/
theorem binding_frame (hplaces : ∀ p, s.outputs p → ∀ cardId, ¬s.bindingOf cardId p)
    (h : Stands s events w.files p card image deviceSecret capsule path) (heffect : Effect s w e w')
    (hother : e.cardId ≠ card.cardId) : w'.files path = w.files path := by
  have hne : ∀ output, s.outputs output → path ≠ output := by
    rintro output houtput rfl
    exact hplaces path houtput _ h.place
  cases heffect with
  | created hwraps hpath _ houtput _ _ _ hframe =>
    rw [hwraps.cardId] at hpath
    exact hframe path (hne _ houtput)
      (h.path_ne hpath fun hsame => hother (hwraps.cardId.trans hsame.symm)) (Or.inr ⟨_, h.place⟩)
  | copied _ houtput _ => exact put_of_ne (hne _ houtput)
  | removed hpath => exact put_of_ne (h.path_ne hpath fun hsame => hother hsame.symm)

end Stands

/-- A card stays the card it is. -/
theorem Effect.cards (heffect : Effect s w e w') {p : Path} {card : Card}
    (hcard : w.cards p = some card) :
    w'.cards p = some card := by
  have hne : ∀ output, w.cards output = none → p ≠ output := by
    rintro output hnone rfl
    exact absurd (hcard.symm.trans hnone) (by simp)
  cases heffect with
  | created _ _ _ _ hdistinct _ _ _ =>
    exact (Function.update_of_ne (hne _ hdistinct) _ _).trans hcard
  | copied _ _ hdistinct => exact (Function.update_of_ne (hne _ hdistinct) _ _).trans hcard
  | removed _ => exact hcard

/-- What `unlock_pin_card` returns on these files, when no call of the system fails. -/
def Unlocks (account : Account) (files : Files Path) (p : Path) (pin : String)
    (r : Except PinError MasterKey) : Prop :=
  ∀ h : Host Path, h.Quiet → h.files = files → (unlockPinCard account p pin h).1 = Outcome.of r

theorem Stands.unlocks {events : List Event} {files : Files Path} {p path : Path} {card : Card}
    {image : Bytes} {deviceSecret : FixedBytes 32} {capsule : Bytes}
    (h : Stands s events files p card image deviceSecret capsule path) (pin : String) :
    Unlocks s.account files p pin (validatePin pin >>= fun _ =>
      openedCapsule s.account files capsule pin) := by
  obtain ⟨synced, hfile⟩ := h.image
  intro host hquiet hfiles
  rw [(unlockPinCard_looks hfile).run hquiet hfiles, h.wraps.opened]

/-- **PIN cards.**  Whatever has been created, copied and disowned: a card gives its master key
exactly for its PIN, as long as its binding has not been removed; a copy, which has the card of its
source, does what its source does; and what is done to a card never changes what one with another
fingerprint does. -/
theorem pin_cards [LawfulCrypto] (hencoder : PlainEncoder) (hlawful : s.account.Lawful)
    (hideal : Ideal s log) (hplaces : ∀ p, s.outputs p → ∀ cardId, ¬s.bindingOf cardId p)
    {files : Files Path} {events : List Event} (hrun : Run (Step s) (.start files) events w) :
    (∀ p card, w.cards p = some card → ∀ pin, ∃ r, Unlocks s.account w.files p pin r ∧
      ∀ master, r = .ok master ↔ master = card.master ∧ pin = card.pin ∧ Bound card.cardId events) ∧
    (∀ p p' card, w.cards p = some card → w.cards p' = some card → ∀ pin, ∃ r,
      Unlocks s.account w.files p pin r ∧ Unlocks s.account w.files p' pin r) ∧
    ∀ e w', Step s w e w' → ∀ p card, w.cards p = some card → w'.cards p = some card ∧
      (e.cardId ≠ card.cardId → ∀ pin, ∃ r,
        Unlocks s.account w.files p pin r ∧ Unlocks s.account w'.files p pin r) := by
  have hsound : Sound s events w := by
    generalize hstart : World.start files = w₀ at hrun
    induction hrun with
    | refl =>
      intro p card hcard
      rw [← hstart] at hcard
      exact absurd hcard (by simp [World.start])
    | step _ hlast ih => exact ih.step hideal hplaces (hlast.effect hencoder hlawful hplaces)
  refine ⟨fun p card hcard pin => ?_, fun p p' card hcard hcard' pin => ?_,
    fun e w' hstep p card hcard => ?_⟩
  · obtain ⟨image, deviceSecret, capsule, path, hstands⟩ := hsound p card hcard
    refine ⟨_, hstands.unlocks pin, fun master => ?_⟩
    rw [← hstands.wraps.opened]
    exact hstands.opened_iff hideal
  · obtain ⟨image, deviceSecret, capsule, path, hstands⟩ := hsound p card hcard
    obtain ⟨image', deviceSecret', capsule', path', hstands'⟩ := hsound p' card hcard'
    obtain ⟨rfl, -⟩ := hstands.wraps.same hideal hstands'.wraps rfl
    exact ⟨_, hstands.unlocks pin, hstands'.unlocks pin⟩
  · have heffect := hstep.effect hencoder hlawful hplaces
    refine ⟨heffect.cards hcard, fun hother pin => ?_⟩
    obtain ⟨image, deviceSecret, capsule, path, hstands⟩ := hsound p card hcard
    obtain ⟨image', deviceSecret', capsule', path', hstands'⟩ :=
      hsound.step hideal hplaces heffect p card (heffect.cards hcard)
    obtain ⟨rfl, -⟩ := hstands.wraps.same hideal hstands'.wraps rfl
    refine ⟨_, hstands.unlocks pin, ?_⟩
    have hplace := hstands.place
    rw [hstands.wraps.cardId] at hplace
    rw [openedCapsule_congr hplace (hstands.binding_frame hplaces heffect hother).symm]
    exact hstands'.unlocks pin

end

/-! ## One card -/

/-- A key derivation that takes the end of the password. -/
@[reducible] def reverseKeyCrypto : KeyCrypto where
  argon2idAccepts _ := true
  argon2id _ password salt := some (.of 32 (password.reverse ++ salt))
  sha256 message := .of 32 message.reverse

/-- An encoder whose PNG has a header and an end. -/
@[reducible] def blankImaging : CardImaging where
  encodePng _ := .ok (Png.signature ++ Png.bytesOf [.of ⟨ascii "IHDR", rfl⟩ [1] (by decide),
    .of ⟨Png.endType, rfl⟩ [] (by decide)])
  pdfBody _ := .ok []
  qrContents _ := .ok []
  base64Decode _ := none

theorem blankImaging_plain : @PlainEncoder blankImaging := by
  intro capsule png hpng
  refine ⟨[.of ⟨ascii "IHDR", rfl⟩ [1] (by decide)], .of ⟨Png.endType, rfl⟩ [] (by decide), [],
    fun c hc => ?_, rfl, ?_⟩
  · rw [List.mem_singleton.mp hc]
    decide
  · rw [← Except.ok.inj hpng, List.append_nil]
    rfl

def mirrorAccount : Account where
  windows := true
  appdata := some ["appdata"]
  protect bytes := .ok bytes.reverse
  unprotect bytes := .ok bytes.reverse

theorem mirrorAccount_lawful : mirrorAccount.Lawful := by
  intro plaintext bytes h
  rw [← Except.ok.inj h]
  exact congrArg Except.ok plaintext.reverse_reverse

def quietHost (files : Files Path) : Host Path := ⟨files, fun _ => .none, fun _ => 1, 0⟩

theorem files_quietHost (files : Files Path) : (quietHost files).files = files := rfl

theorem quiet_quietHost (files : Files Path) : (quietHost files).Quiet := fun _ => rfl

def sampleSecret : FixedBytes 32 := .of 32 [5]

/-- The sealing of a capsule under the secret and the PIN `1234`. -/
def pinSealing : Sealing :=
  ((FixedBytes.of 32 ((credential sampleSecret "1234").reverse ++ (FixedBytes.of 16 [1]).val)).val,
    (FixedBytes.of 24 [2]).val, encodeKeyfileHeader default (.of 16 [1]) (.of 24 [2]),
    (FixedBytes.of 48 [3]).val)

def pinCapsule : Bytes :=
  encodeKeyfileHeader default (.of 16 [1]) (.of 24 [2]) ++
    ((FixedBytes.of 48 [3]).val ++ List.replicate aeadTagSize 0)

def sampleSetting (outputs : Path → Prop) : Setting where
  account := mirrorAccount
  outputs := outputs
  passwords := {password | ∃ pin, pinIsValid pin = true ∧ password = credential sampleSecret pin}
  capsules := {pinCapsule}

/-- The end of a password is the PIN. -/
theorem reverseKeyCrypto_injective {pin pin' : String} {salt : Bytes} (hpin : pinIsValid pin = true)
    (hpin' : pinIsValid pin' = true)
    (h : FixedBytes.of 32 ((credential sampleSecret pin).reverse ++ salt) =
      FixedBytes.of 32 ((credential sampleSecret pin').reverse ++ salt)) : pin = pin' := by
  have hend : ∀ {pin : String}, pinIsValid pin = true →
      (FixedBytes.of 32 ((credential sampleSecret pin).reverse ++ salt)).val.take 4 =
        (ascii pin).reverse := by
    intro pin hpin
    have hlen : (ascii pin).reverse.length = 4 := by
      rw [List.length_reverse]
      exact beq_iff_eq.mp (Bool.and_eq_true_iff.mp hpin).1
    have hshape : (credential sampleSecret pin).reverse ++ salt = (ascii pin).reverse ++
        (sampleSecret.val.reverse ++ ((ascii "OrIsyVra/device-pin/v1\x00").reverse ++ salt)) := by
      simp only [credential, List.reverse_append, List.append_assoc]
    have hfront : (ascii pin).reverse.length ≤ (List.take 32 ((ascii pin).reverse ++
        (sampleSecret.val.reverse ++
          ((ascii "OrIsyVra/device-pin/v1\x00").reverse ++ salt)))).length := by
      rw [List.length_take, List.length_append, hlen]
      omega
    show (resize _ 32).take 4 = _
    rw [hshape, resize, ← hlen, List.take_append_of_le_length hfront, List.take_take, hlen,
      ← hlen, Nat.min_eq_left (by omega), List.take_left]
  have hpins := (hend hpin).symm.trans ((congrArg (fun x => x.val.take 4) h).trans (hend hpin'))
  have hcredential : credential sampleSecret pin = credential sampleSecret pin' := by
    rw [credential, credential, List.reverse_injective hpins]
  exact (credential_injective hcredential).2

theorem sampleSetting_ideal (outputs : Path → Prop) :
    let _ := tableCrypto [pinSealing]
    let _ := reverseKeyCrypto
    Ideal (sampleSetting outputs) [pinSealing] := by
  let _ := tableCrypto [pinSealing]
  let _ := reverseKeyCrypto
  refine ⟨?_, ?_, ?_, Set.injOn_singleton _ _⟩
  · intro x hx y hy _
    rw [List.mem_singleton.mp hx, List.mem_singleton.mp hy]
  · intro capsule hcapsule
    obtain rfl : capsule = pinCapsule := hcapsule
    intro key nonce aad message hopen
    have hlisted : 0xff ∉ pinCapsule.drop keyfileHeaderSize := fun hmem =>
      absurd (List.mem_of_mem_drop hmem) (by decide +kernel)
    exact ⟨tableCrypto_mem hopen hlisted, congrArg some (tableCrypto_opens hopen)⟩
  · rintro params salt key h _ ⟨pin, hpin, rfl⟩ _ ⟨pin', hpin', rfl⟩ hkey hkey'
    rw [reverseKeyCrypto_injective hpin hpin' (Option.some.inj (hkey.trans hkey'.symm))]

/-- A run whose ending is known. -/
theorem run_eq {ε α : Type} {run : Outcome ε α × Host Path} {o : Outcome ε α} (h : run.1 = o) :
    run = (o, run.2) := by
  rw [← h]

/-- The creation of the card from its master key. -/
def sampleCreation : Outcome PinError Keycard.KeyCardInfo × Host Path :=
  let _ := tableCrypto [pinSealing]
  let _ := reverseKeyCrypto
  let _ := blankImaging
  createPinCardFromMaster mirrorAccount.toPlatform ⟨sampleSecret, Nat.toUInt64, Nat.toUInt64⟩ "tmp"
    (.of 16 [1]) (.of 24 [2]) (.of 48 [3])
    ["card.png"] "1234" default false (quietHost fun _ => none)

def sampleCard : Card := ⟨.of 48 [3], "1234", "0000000000000000"⟩

/-- The world with the card. -/
def sampleWorld : World :=
  ⟨sampleCreation.2.files, Function.update (fun _ => none) ["card.png"] (some sampleCard)⟩

theorem sampleCreation_step {outputs : Path → Prop} (houtput : outputs ["card.png"]) :
    let _ := tableCrypto [pinSealing]
    let _ := reverseKeyCrypto
    let _ := blankImaging
    Step (sampleSetting outputs) (.start fun _ => none)
      (.created "0000000000000000") sampleWorld := by
  let _ := tableCrypto [pinSealing]
  let _ := reverseKeyCrypto
  let _ := blankImaging
  have hmade : encodeKeyfileBytes (.of 48 [3]) (credential sampleSecret "1234") default (.of 16 [1])
      (.of 24 [2]) = .ok pinCapsule := by decide +kernel
  have hreturned : sampleCreation.1 = .ok ⟨"0000000000000000"⟩ := by decide +kernel
  have hrun : createPinCardFromMaster mirrorAccount.toPlatform
      ⟨sampleSecret, Nat.toUInt64, Nat.toUInt64⟩ "tmp" (.of 16 [1]) (.of 24 [2]) (.of 48 [3])
      ["card.png"] "1234" default false (quietHost fun _ => none) =
      (.ok ⟨"0000000000000000"⟩, sampleCreation.2) := by
    exact run_eq hreturned
  have hdrawn : (sampleSetting outputs).Drawn sampleSecret (encodeKeyfileBytes (.of 48 [3])
      (credential sampleSecret "1234") default (.of 16 [1]) (.of 24 [2])) :=
    ⟨fun pin hpin => ⟨pin, hpin, rfl⟩, fun capsule hcapsule =>
      (Except.ok.inj (hmade.symm.trans hcapsule)).symm⟩
  have hfiles : (quietHost fun _ => none).files = (World.start fun _ => none).files :=
    files_quietHost _
  have hnone : (World.start fun _ => none).cards ["card.png"] = none := rfl
  exact .createFromMaster hfiles houtput hnone hdrawn hrun

theorem sampleWorld_card : sampleWorld.cards ["card.png"] = some sampleCard := by
  show Function.update (fun _ : Path => (none : Option Card)) ["card.png"] (some sampleCard)
    ["card.png"] = _
  rw [Function.update_self]

theorem sampleWorld_none {p : Path} (h : p ≠ ["card.png"]) : sampleWorld.cards p = none := by
  show Function.update (fun _ : Path => (none : Option Card)) ["card.png"] (some sampleCard) p = _
  rw [Function.update_of_ne h]

/-- Where the binding of the card is. -/
def sampleBinding : Path := ["appdata", "OrIsyVra", "pin-cards", "0000000000000000.dpapi"]

theorem bindingOf_length {cardId : String} {path : Path}
    (h : bindingPath mirrorAccount.toPlatform cardId = .ok path) : path.length = 4 := by
  unfold bindingPath at h
  obtain ⟨_, -, hrest⟩ := except_bind_eq_ok.mp h
  obtain ⟨root, hroot, hpath⟩ := except_bind_eq_ok.mp hrest
  rw [← Except.ok.inj hpath, ← Except.ok.inj hroot]
  rfl

/-- The copy of the card, and the removal of the binding of the two. -/
def sampleCopy : Outcome PinError Keycard.KeyCardInfo × Host Path :=
  let _ := tableCrypto [pinSealing]
  let _ := reverseKeyCrypto
  let _ := blankImaging
  copyPinCard mirrorAccount.toPlatform Nat.toUInt64 ["card.png"] ["copy.png"] false
    (quietHost sampleWorld.files)

def copiedWorld : World :=
  ⟨sampleCopy.2.files,
    Function.update sampleWorld.cards ["copy.png"] (sampleWorld.cards ["card.png"])⟩

def sampleRemoval : Outcome PinError Unit × Host Path :=
  let _ := tableCrypto [pinSealing]
  let _ := reverseKeyCrypto
  let _ := blankImaging
  removePinBinding mirrorAccount.toPlatform ["copy.png"] (quietHost copiedWorld.files)

def disownedWorld : World := ⟨sampleRemoval.2.files, copiedWorld.cards⟩

theorem copiedWorld_step {outputs : Path → Prop} (houtput : outputs ["copy.png"]) :
    let _ := tableCrypto [pinSealing]
    let _ := reverseKeyCrypto
    let _ := blankImaging
    Step (sampleSetting outputs) sampleWorld (.copied "0000000000000000") copiedWorld := by
  let _ := tableCrypto [pinSealing]
  let _ := reverseKeyCrypto
  let _ := blankImaging
  have hrun : copyPinCard mirrorAccount.toPlatform Nat.toUInt64 ["card.png"] ["copy.png"] false
      (quietHost sampleWorld.files) = (.ok ⟨"0000000000000000"⟩, sampleCopy.2) :=
    run_eq (by decide +kernel)
  exact .copy (files_quietHost _) houtput (sampleWorld_none (by decide)) hrun

theorem disownedWorld_step {outputs : Path → Prop} :
    let _ := tableCrypto [pinSealing]
    let _ := reverseKeyCrypto
    let _ := blankImaging
    Step (sampleSetting outputs) copiedWorld (.removed "0000000000000000") disownedWorld := by
  let _ := tableCrypto [pinSealing]
  let _ := reverseKeyCrypto
  let _ := blankImaging
  have hrun : removePinBinding mirrorAccount.toPlatform ["copy.png"] (quietHost copiedWorld.files) =
      (.ok (), sampleRemoval.2) := run_eq (by decide +kernel)
  obtain ⟨c, hc, hheld⟩ : ∃ c, copiedWorld.files ["copy.png"] = some c ∧
      Keycard.capsuleOf c.bytes = .ok pinCapsule := by
    have hfound : (copiedWorld.files ["copy.png"]).map (fun c => Keycard.capsuleOf c.bytes) =
        some (.ok pinCapsule) := by decide +kernel
    exact Option.map_eq_some_iff.mp hfound
  have hid : Keycard.cardId pinCapsule = "0000000000000000" := by decide +kernel
  rw [← hid]
  exact .remove (files_quietHost _) hc hheld hrun

theorem copiedWorld_card {p : Path} (h : p = ["card.png"] ∨ p = ["copy.png"]) :
    copiedWorld.cards p = some sampleCard := by
  show Function.update sampleWorld.cards ["copy.png"] (sampleWorld.cards ["card.png"]) p = _
  rcases h with rfl | rfl
  · rw [Function.update_of_ne (by decide), sampleWorld_card]
  · rw [Function.update_self, sampleWorld_card]

/-- Cards are put next to each other, where no binding is. -/
def atTheTop (p : Path) : Prop := p.length = 1

/-- The card and its copy open under the PIN and under no other, until the binding is removed. -/
theorem pin_cards_sample :
    let _ := tableCrypto [pinSealing]
    let _ := reverseKeyCrypto
    let _ := blankImaging
    ∃ events, Run (Step (sampleSetting atTheTop)) (.start fun _ => none) events copiedWorld ∧
      Step (sampleSetting atTheTop) copiedWorld (.removed "0000000000000000") disownedWorld ∧
      ∀ p, p = ["card.png"] ∨ p = ["copy.png"] →
        Unlocks mirrorAccount copiedWorld.files p "1234" (.ok (.of 48 [3])) ∧
        (∃ r, Unlocks mirrorAccount copiedWorld.files p "0000" r ∧ ∀ master, r ≠ .ok master) ∧
        ∃ r, Unlocks mirrorAccount disownedWorld.files p "1234" r ∧ ∀ master, r ≠ .ok master := by
  let _ := tableCrypto [pinSealing]
  let _ := reverseKeyCrypto
  let _ := blankImaging
  have _ := tableCrypto_lawful [pinSealing]
  have hplaces : ∀ p, atTheTop p → ∀ cardId, ¬(sampleSetting atTheTop).bindingOf cardId p := by
    intro p hp cardId hbinding
    exact absurd ((bindingOf_length hbinding).symm.trans hp) (by decide)
  have hrun : Run (Step (sampleSetting atTheTop)) (.start fun _ => none)
      [.created "0000000000000000", .copied "0000000000000000"] copiedWorld :=
    (Run.refl.step (sampleCreation_step (show atTheTop _ from rfl))).step
      (copiedWorld_step (show atTheTop _ from rfl))
  have hdisowned : Run (Step (sampleSetting atTheTop)) (.start fun _ => none)
      [.created "0000000000000000", .copied "0000000000000000", .removed "0000000000000000"]
      disownedWorld := hrun.step disownedWorld_step
  obtain ⟨hunlock, -, -⟩ :=
    pin_cards blankImaging_plain mirrorAccount_lawful (sampleSetting_ideal _) hplaces hrun
  obtain ⟨hunlock', -, -⟩ :=
    pin_cards blankImaging_plain mirrorAccount_lawful (sampleSetting_ideal _) hplaces hdisowned
  have hbound : Bound sampleCard.cardId
      [.created "0000000000000000", .copied "0000000000000000"] :=
    ⟨[], [.copied "0000000000000000"], rfl, by decide⟩
  have hremoved : ¬Bound sampleCard.cardId
      [.created "0000000000000000", .copied "0000000000000000", .removed "0000000000000000"] := by
    rw [show [Event.created "0000000000000000", .copied "0000000000000000",
      .removed "0000000000000000"] = [.created "0000000000000000", .copied "0000000000000000"] ++
        [.removed "0000000000000000"] from rfl, bound_concat]
    rintro (h | ⟨-, hne⟩)
    · exact absurd h (by decide)
    · exact hne rfl
  refine ⟨_, hrun, disownedWorld_step, fun p hp => ⟨?_, ?_, ?_⟩⟩
  · obtain ⟨r, hreturns, hiff⟩ := hunlock p _ (copiedWorld_card hp) "1234"
    rw [(hiff _).mpr ⟨rfl, rfl, hbound⟩] at hreturns
    exact hreturns
  · obtain ⟨r, hreturns, hiff⟩ := hunlock p _ (copiedWorld_card hp) "0000"
    exact ⟨r, hreturns, fun master hopen => absurd ((hiff master).mp hopen).2.1 (by decide)⟩
  · have hcard : disownedWorld.cards p = some sampleCard := by
      unfold disownedWorld
      dsimp only
      exact copiedWorld_card hp
    obtain ⟨r, hreturns, hiff⟩ := hunlock' p _ hcard "1234"
    exact ⟨r, hreturns, fun master hopen => hremoved ((hiff master).mp hopen).2.2⟩

/-- **A binding that was written over**: the card is copied to where its own binding is, and does
not open under its PIN any more, although the binding has not been removed. -/
theorem overwritten_binding :
    let _ := tableCrypto [pinSealing]
    let _ := reverseKeyCrypto
    let _ := blankImaging
    PlainEncoder ∧ mirrorAccount.Lawful ∧ Ideal (sampleSetting fun _ => True) [pinSealing] ∧
      ∃ w events, Run (Step (sampleSetting fun _ => True)) (.start fun _ => none) events w ∧
        w.cards ["card.png"] = some sampleCard ∧ Bound sampleCard.cardId events ∧
        ¬Unlocks mirrorAccount w.files ["card.png"] sampleCard.pin (.ok sampleCard.master) := by
  let _ := tableCrypto [pinSealing]
  let _ := reverseKeyCrypto
  let _ := blankImaging
  have hcreate : Step (sampleSetting fun _ => True) (.start fun _ => none)
    (.created "0000000000000000")
      sampleWorld := sampleCreation_step trivial
  have hne : ["card.png"] ≠ sampleBinding := by decide
  obtain ⟨t, hrun, hrefused⟩ : ∃ t, copyPinCard mirrorAccount.toPlatform Nat.toUInt64 ["card.png"]
        sampleBinding true (quietHost sampleWorld.files) = (.ok ⟨"0000000000000000"⟩, t) ∧
      (unlockPinCard mirrorAccount ["card.png"] "1234" (quietHost t.files)).1 =
        .error (.text "invalid PIN-card device binding") :=
    ⟨_, run_eq (by decide +kernel), by decide +kernel⟩
  have hcopy : Step (sampleSetting fun _ => True) sampleWorld (.copied "0000000000000000")
      ⟨t.files, Function.update sampleWorld.cards sampleBinding (sampleWorld.cards ["card.png"])⟩ :=
    .copy (files_quietHost _) trivial (sampleWorld_none hne.symm) hrun
  refine ⟨blankImaging_plain, mirrorAccount_lawful, sampleSetting_ideal _, _, _,
    (Run.refl.step hcreate).step hcopy, ?_, ?_, fun hunlocks => ?_⟩
  · dsimp only
    rw [Function.update_of_ne hne, sampleWorld_card]
  · exact ⟨[], [.copied "0000000000000000"], rfl, by decide⟩
  · have hopened := hunlocks _ (quiet_quietHost t.files) (files_quietHost _)
    exact absurd (hrefused.symm.trans hopened) (by simp [Outcome.of])

end PinCard
end OrIsyVra
