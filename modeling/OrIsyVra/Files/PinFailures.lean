import OrIsyVra.Files.PinCards

/-!
# Creations of PIN cards that fail

`create_pin_card` and `create_pin_card_from_master` answer an error of any of their steps by
removing the file at the output.  They do not ask whether it is theirs: the steps begin with the
test whether there is a file at the output, and the error of that test is answered in the same way.
So the output is as it was before exactly when there was nothing at it, or when the PIN or the
system is refused before the steps (`failsSafely_iff`).

A creation that returns has left the card at the output and its binding at the path the fingerprint
of the card names.  Only where these are the same path, the binding has replaced the card
(`run_ok`).
-/

namespace OrIsyVra
namespace PinFailures

open ByteString FaultProgram FileSystem PinCard
open DurableFile (IoFailure IoError)

/-! ## Creations -/

/-- Where the capsule comes from, with what is drawn for it. -/
inductive CapsuleSource where
  | fresh (capsule : Keycard.CapsuleDraws)
  | fromMaster (cardTemporary : String) (salt : FixedBytes 16) (nonce : FixedBytes 24)
      (master : MasterKey)

/-- What the two calls are given, and what they draw. -/
structure Creation where
  platform : Platform
  draws : PinDraws
  source : CapsuleSource
  output : Path
  pin : String
  params : KeyfileParams
  overwrite : Bool

namespace Creation

/-- The checks before the steps. -/
def Checked (c : Creation) : Prop := pinIsValid c.pin = true ∧ c.platform.windows = true

section

variable [KeyCrypto] [CardImaging] [Crypto]

def run (c : Creation) : PinProg Keycard.KeyCardInfo :=
  match c.source with
  | .fresh capsule =>
    createPinCard c.platform c.draws capsule c.output c.pin c.params c.overwrite
  | .fromMaster cardTemporary salt nonce master =>
    createPinCardFromMaster c.platform c.draws cardTemporary salt nonce master c.output c.pin
      c.params c.overwrite

/-- The first of the steps. -/
def exportCard (c : Creation) (password : Bytes) : FileProg Keycard.KeyCardInfo :=
  match c.source with
  | .fresh capsule => Keycard.createKeycard capsule c.output password c.params c.overwrite
  | .fromMaster cardTemporary salt nonce master =>
    Keycard.exportRecoveryKeycardFromMaster cardTemporary master password c.params salt nonce
      c.output c.overwrite

def steps (c : Creation) : PinProg Keycard.KeyCardInfo :=
  cardSteps c.exportCard c.platform c.draws c.output c.pin

theorem run_eq (c : Creation) :
    c.run = createCard c.exportCard c.platform c.draws c.output c.pin := by
  unfold run exportCard
  rcases c.source with capsule | ⟨cardTemporary, salt, nonce, master⟩ <;> rfl

/-- The capsule that is put on the card. -/
def Makes (c : Creation) (capsule : Bytes) : Prop :=
  match c.source with
  | .fresh draws =>
    encodeKeyfileBytes draws.master (credential c.draws.deviceSecret c.pin) c.params draws.salt
      draws.nonce = .ok capsule
  | .fromMaster _ salt nonce master =>
    encodeKeyfileBytes master (credential c.draws.deviceSecret c.pin) c.params salt nonce =
      .ok capsule

/-- The binding of the card is not at the output. -/
def Apart (c : Creation) : Prop :=
  ∀ capsule, c.Makes capsule → bindingPath c.platform (Keycard.cardId capsule) ≠ .ok c.output

/-! ## Outcomes -/

/-- When a step fails, the removal of the file at the output does not fail as well. -/
def CleansUp (c : Creation) (h : Host Path) : Prop :=
  ∀ e s, c.steps h = (.error e, s) → s.fault = .none

/-- A creation that returns an error leaves the bytes at the output as they were, whichever step
fails. -/
def FailsSafely (c : Creation) (files : Files Path) : Prop :=
  ∀ (h : Host Path) e t, h.files = files → c.CleansUp h → c.run h = (.error e, t) →
    (t.files c.output).map Contents.bytes = (files c.output).map Contents.bytes

/-- The binding of the card is stored at a path. -/
def Binds (c : Creation) (capsule : Bytes) (path : Path) (files : Files Path) : Prop :=
  bindingPath c.platform (Keycard.cardId capsule) = .ok path ∧
    ∃ binding, c.platform.protect (bindingMagic ++ c.draws.deviceSecret.val) = .ok binding ∧
      files path = some ⟨binding, true⟩

/-- There is a PIN card at the output, and its binding is stored. -/
def HoldsCard (c : Creation) (files : Files Path) : Prop :=
  ∃ capsule image path, c.Makes capsule ∧ files c.output = some ⟨image, true⟩ ∧
    markerPresent image = true ∧ Keycard.capsuleOf image = .ok capsule ∧ c.Binds capsule path files

end

end Creation

/-! ## Errors -/

section

variable [KeyCrypto] [CardImaging] [Crypto] {c : Creation} {h s t : Host Path} {e : PinError}

theorem run_refused (hchecked : ¬c.Checked) : ∃ e, c.run h = (.error e, h) := by
  rw [c.run_eq]
  unfold createCard validatePin
  by_cases hpin : pinIsValid c.pin = true
  · have hwindows : c.platform.windows = false := by
      rcases hw : c.platform.windows with _ | _
      · rfl
      · exact absurd ⟨hpin, hw⟩ hchecked
    rw [if_pos hpin, hwindows]
    exact ⟨_, rfl⟩
  · rw [if_neg hpin]
    exact ⟨_, rfl⟩

/-- What is done about the result of the steps. -/
def answer (output : Path) : Except PinError Keycard.KeyCardInfo → PinProg Keycard.KeyCardInfo
  | .ok info => pure info
  | .error e => do
    let _ ← (Prog.attempt (remove output) : PinProg (Except PinError Unit))
    Prog.fail e

theorem run_of_checked (hchecked : c.Checked) (h : Host Path) :
    c.run h = (Prog.attempt c.steps >>= answer c.output) h := by
  rw [c.run_eq]
  unfold createCard validatePin
  rw [if_pos hchecked.1, hchecked.2]
  rfl

/-- **An error of the steps takes the file at the output with it.** -/
theorem run_of_steps_error (hchecked : c.Checked) (hsteps : c.steps h = (.error e, s))
    (hfault : s.fault = .none) : c.run h = (.error e, s.tick (put s.files c.output none)) := by
  have hremove : ∃ result,
      (Prog.attempt (remove c.output : PinProg Unit) : PinProg (Except PinError Unit)) s =
        (.ok result, s.tick (put s.files c.output none)) := by
    rcases hc : s.files c.output with _ | contents
    · refine ⟨.error (IoError.io .notFound), attempt_error ?_⟩
      show change _ s = _
      simp only [change, hfault, hc, put_eq_self hc]
    · refine ⟨.ok (), attempt_ok (change_ok hfault ?_)⟩
      simp only [hc]
  obtain ⟨result, hremove⟩ := hremove
  rw [run_of_checked hchecked, bind_ok (attempt_error hsteps)]
  exact bind_ok hremove

theorem run_of_steps_ok {info : Keycard.KeyCardInfo} (hchecked : c.Checked)
    (hsteps : c.steps h = (.ok info, s)) : c.run h = (.ok info, s) := by
  rw [run_of_checked hchecked, bind_ok (attempt_ok hsteps)]
  rfl

theorem run_of_steps_crash (hchecked : c.Checked) (hsteps : c.steps h = (.crash, s)) :
    c.run h = (.crash, s) := by
  rw [run_of_checked hchecked]
  exact bind_crash (attempt_crash hsteps)

theorem output_of_error (hchecked : c.Checked) (hclean : c.CleansUp h)
    (hrun : c.run h = (.error e, t)) :
    t.files c.output = none := by
  rcases hsteps : c.steps h with ⟨info | e' | _, s⟩
  · exact absurd ((run_of_steps_ok hchecked hsteps).symm.trans hrun) (by simp)
  · have hdone := (run_of_steps_error hchecked hsteps (hclean _ _ hsteps)).symm.trans hrun
    rw [← (Prod.mk.inj hdone).2]
    exact put_self _ _ _
  · exact absurd ((run_of_steps_crash hchecked hsteps).symm.trans hrun) (by simp)

omit [KeyCrypto] [CardImaging] [Crypto] in
theorem makeDirs_failed (hfault : h.fault = .fail 0) :
    (makeDirs : FileProg Unit) h = (.error (IoError.io .device), h.tick h.files) := by
  show change _ h = _
  simp only [change, hfault]

omit [KeyCrypto] [CardImaging] [Crypto] in
/-- A writer meets a file it may not overwrite, or the directory cannot be made. -/
theorem exists_write_error (refusal : Error) (name : String) (bytes : Bytes) (path : Path)
    (overwrite : Bool) (files : Files Path) :
    ∃ (h s : Host Path) (e : Error), h.files = files ∧
      writeThroughTemporary refusal name bytes path overwrite h = (.error e, s) ∧
      s.fault = .none := by
  rcases hrefuse : (files path).isSome && !overwrite with _ | _
  · generalize hhost :
      (⟨files, fun n => if n = 1 then .fail 0 else .none, fun _ => 1, 0⟩ : Host Path) = host
    have hlook : (refuseExisting refusal path overwrite : FileProg Unit) host =
        (.ok (), host.tick host.files) := by
      rw [← hhost]
      unfold refuseExisting
      rw [bind_ok (pathExists_ok rfl), hrefuse]
      rfl
    have hdirs : (makeDirs : FileProg Unit) (host.tick host.files) =
        (.error (IoError.io .device), (host.tick host.files).tick host.files) := by
      rw [← hhost]
      exact makeDirs_failed rfl
    refine ⟨host, _, _, by rw [← hhost], (bind_ok hlook).trans (bind_error hdirs), ?_⟩
    rw [← hhost]
    rfl
  · refine ⟨quietHost files, (quietHost files).tick files, refusal, rfl, bind_error ?_, rfl⟩
    unfold refuseExisting
    rw [bind_ok (pathExists_ok rfl)]
    show (if ((files path).isSome && !overwrite) = true then Prog.fail refusal else pure ()) _ = _
    rw [hrefuse]
    rfl

omit [Crypto] in
theorem exists_exportBytes_error (name : String) (capsule : Bytes) (output : Path)
    (overwrite : Bool) (files : Files Path) :
    ∃ (h s : Host Path) (e : Error), h.files = files ∧
      Keycard.exportBytes name capsule output overwrite h = (.error e, s) ∧ s.fault = .none := by
  unfold Keycard.exportBytes
  rcases (if Keycard.isPdf output then Keycard.renderPdfCard capsule else Keycard.renderPngCard
    capsule) with e | ⟨card, info⟩
  · exact ⟨quietHost files, _, e, rfl, bind_error rfl, rfl⟩
  · obtain ⟨h, s, e, hfiles, hwrite, hfault⟩ :=
      exists_write_error (.outputExists output.display) name card output overwrite files
    exact ⟨h, s, e, hfiles, (bind_ok rfl).trans (bind_error hwrite), hfault⟩

/-- **There is always a step that can fail.** -/
theorem exists_export_error (c : Creation) (files : Files Path) (password : Bytes) :
    ∃ (h s : Host Path) (e : Error), h.files = files ∧ c.exportCard password h = (.error e, s) ∧
      s.fault = .none := by
  unfold Creation.exportCard
  rcases c.source with capsule | ⟨cardTemporary, salt, nonce, master⟩
  · have hfirst := makeDirs_failed
      (h := ⟨files, fun n => if n = 0 then .fail 0 else .none, fun _ => 1, 0⟩) rfl
    exact ⟨_, _, _, rfl, bind_error hfirst, rfl⟩
  dsimp only
  unfold Keycard.exportRecoveryKeycardFromMaster
  rcases encodeKeyfileBytes master password c.params salt nonce with e | capsule
  · exact ⟨quietHost files, _, e, rfl, bind_error rfl, rfl⟩
  · obtain ⟨h, s, e, hfiles, hexport, hfault⟩ :=
      exists_exportBytes_error cardTemporary capsule c.output c.overwrite files
    exact ⟨h, s, e, hfiles, (bind_ok rfl).trans hexport, hfault⟩

/-- **A creation fails safely exactly where there is nothing to lose.** -/
theorem failsSafely_iff (c : Creation) (files : Files Path) :
    c.FailsSafely files ↔ (c.Checked → files c.output = none) := by
  constructor
  · intro hsafe hchecked
    obtain ⟨h, s, e, hfiles, hexport, hfault⟩ :=
      exists_export_error c files (credential c.draws.deviceSecret c.pin)
    have hsteps : c.steps h = (.error (.core e), s) := bind_error (mapError_error hexport)
    have hclean : c.CleansUp h := by
      intro e' s' hsteps'
      rw [← (Prod.mk.inj (hsteps.symm.trans hsteps')).2]
      exact hfault
    have hsame := hsafe h _ _ hfiles hclean (run_of_steps_error hchecked hsteps hfault)
    rw [Host.files_tick, put_self] at hsame
    exact Option.map_eq_none_iff.mp hsame.symm
  · intro hnone h e t hfiles hclean hrun
    by_cases hchecked : c.Checked
    · rw [output_of_error hchecked hclean hrun, hnone hchecked]
    · obtain ⟨e', hrefused⟩ := run_refused (h := h) hchecked
      rw [← (Prod.mk.inj (hrefused.symm.trans hrun)).2, hfiles]

/-! ## Successes -/

theorem export_ok {info : Keycard.KeyCardInfo}
    (hexport : c.exportCard (credential c.draws.deviceSecret c.pin) h = (.ok info, t)) :
    ∃ capsule, c.Makes capsule ∧
      (Exported (fun _ => True) capsule c.output h t ∨ t.files c.output = none) := by
  unfold Creation.exportCard at hexport
  unfold Creation.Makes
  rcases hsource : c.source with draws | ⟨cardTemporary, salt, nonce, master⟩ <;>
    simp only [hsource] at hexport
  · obtain ⟨capsule, hmade, hleft⟩ := createKeycard_eq_ok hexport
    exact ⟨capsule, hmade, hleft.imp (fun hexported => hexported.mono fun _ _ => trivial) And.right⟩
  · obtain ⟨capsule, hmade, hexported⟩ := exportRecoveryKeycardFromMaster_eq_ok hexport
    exact ⟨capsule, hmade, Or.inl (hexported.mono fun _ _ => trivial)⟩

omit [CardImaging] in
theorem makes_unique {capsule capsule' : Bytes} (hmade : c.Makes capsule)
    (hmade' : c.Makes capsule') :
    capsule = capsule' := by
  unfold Creation.Makes at hmade hmade'
  rcases hsource : c.source with draws | ⟨cardTemporary, salt, nonce, master⟩ <;>
    simp only [hsource] at hmade hmade'
  · exact Except.ok.inj (hmade.symm.trans hmade')
  · exact Except.ok.inj (hmade.symm.trans hmade')

/-- **A creation that returns** has left the card and its binding.  Where they are at one path, it
is the binding that is there. -/
theorem run_ok {info : Keycard.KeyCardInfo} (hencoder : PlainEncoder)
    (hrun : c.run h = (.ok info, t)) :
    (c.Apart → c.HoldsCard t.files) ∧
      (¬c.Apart → ∃ capsule, c.Makes capsule ∧ c.Binds capsule c.output t.files) := by
  rw [c.run_eq] at hrun
  obtain ⟨-, capsule, image, binding, path, hmade, -, hcreated⟩ :=
    createCard_eq_ok hencoder (fun _ _ hexport => export_ok hexport) hrun
  have hbinds : c.Binds capsule path t.files :=
    ⟨hcreated.place, binding, hcreated.sealed, hcreated.stored⟩
  constructor
  · intro hapart
    have hne : c.output ≠ path := by
      rintro rfl
      exact hapart capsule hmade hcreated.place
    exact ⟨capsule, image, path, hmade, hcreated.card hne, hcreated.marked, hcreated.holds, hbinds⟩
  · intro htogether
    obtain ⟨capsule', hmade', hplace⟩ : ∃ capsule', c.Makes capsule' ∧
        bindingPath c.platform (Keycard.cardId capsule') = .ok c.output := by
      by_contra hnone
      exact htogether fun capsule' hmade' hplace => hnone ⟨capsule', hmade', hplace⟩
    obtain rfl := makes_unique hmade hmade'
    obtain rfl := Except.ok.inj (hcreated.place.symm.trans hplace)
    exact ⟨capsule, hmade, hbinds⟩

/-- **The outcomes of a creation.**  Whichever step fails, an error leaves the output as it was
exactly where there was nothing at it or nothing has been begun.  A return leaves the card and its
binding, if these are at two paths; if they are at one, the binding. -/
theorem creation_outcomes (hencoder : PlainEncoder) (c : Creation) (files : Files Path) :
    (c.FailsSafely files ↔ (c.Checked → files c.output = none)) ∧
      ∀ h info t, c.run h = (.ok info, t) →
        (c.Apart → c.HoldsCard t.files) ∧
          (¬c.Apart → ∃ capsule, c.Makes capsule ∧ c.Binds capsule c.output t.files) :=
  ⟨failsSafely_iff c files, fun _ _ _ hrun => run_ok hencoder hrun⟩

end

/-! ## One creation -/

/-- A card is made from its master key. -/
def sampleCreation (overwrite : Bool) : Creation where
  platform := mirrorAccount.toPlatform
  draws := ⟨sampleSecret, Nat.toUInt64, Nat.toUInt64⟩
  source := .fromMaster "tmp" (.of 16 [1]) (.of 24 [2]) (.of 48 [3])
  output := ["card.png"]
  pin := "1234"
  params := default
  overwrite := overwrite

/-- Where there is nothing, a failure is safe. -/
theorem creation_outcomes_nothing :
    let _ := tableCrypto [pinSealing]
    let _ := reverseKeyCrypto
    let _ := blankImaging
    ∃ t, (sampleCreation false).FailsSafely (fun _ => none) ∧
      (sampleCreation false).run (quietHost fun _ => none) = (.ok ⟨"0000000000000000"⟩, t) ∧
      (sampleCreation false).HoldsCard t.files := by
  let _ := tableCrypto [pinSealing]
  let _ := reverseKeyCrypto
  let _ := blankImaging
  obtain ⟨t, hrun⟩ : ∃ t, (sampleCreation false).run (quietHost fun _ => none) =
      (.ok ⟨"0000000000000000"⟩, t) := ⟨_, run_eq (by decide +kernel)⟩
  have hapart : (sampleCreation false).Apart := fun capsule _ hplace =>
    absurd (bindingOf_length hplace) (by decide)
  obtain ⟨hfails, hreturns⟩ :=
    creation_outcomes blankImaging_plain (sampleCreation false) fun _ => none
  exact ⟨t, hfails.mpr fun _ => rfl, hrun, (hreturns _ _ _ hrun).1 hapart⟩

/-- **The card of another is lost**: there is a file at the output, and it may not be
overwritten. -/
theorem existing_card_removed :
    let _ := tableCrypto [pinSealing]
    let _ := reverseKeyCrypto
    let _ := blankImaging
    ∃ h t e, (sampleCreation false).CleansUp h ∧ h.files ["card.png"] = some ⟨[1, 2, 3], true⟩ ∧
      (sampleCreation false).run h = (.error e, t) ∧ t.files ["card.png"] = none := by
  let _ := tableCrypto [pinSealing]
  let _ := reverseKeyCrypto
  let _ := blankImaging
  generalize hfiles : put (fun _ => none) ["card.png"] (some ⟨[1, 2, 3], true⟩) = files
  have hsteps : ((sampleCreation false).steps (quietHost files)).1 =
      .error (.core (.outputExists "card.png")) := by
    rw [← hfiles]
    decide +kernel
  have hquiet : ((sampleCreation false).steps (quietHost files)).2.fault = .none := by
    rw [← hfiles]
    decide +kernel
  have hclean : (sampleCreation false).CleansUp (quietHost files) := by
    intro e s hrun
    rw [hrun] at hquiet
    exact hquiet
  have hchecked : (sampleCreation false).Checked := ⟨by decide, rfl⟩
  have hrun := run_of_steps_error hchecked (run_eq hsteps) hquiet
  refine ⟨quietHost files, _, _, hclean, ?_, hrun, output_of_error hchecked hclean hrun⟩
  rw [files_quietHost, ← hfiles, put_self]

end PinFailures
end OrIsyVra
