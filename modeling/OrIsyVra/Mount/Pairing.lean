import OrIsyVra.Mount.Credentials

/-!
# The capsule and its password

A key capsule and the protected password next to it come from one `prepare_credential`, which writes
them one after the other, the capsule first.  As long as there is no secret when a capsule is put in
place, and no host still has an older one in hand, no host fails on a capsule of another password,
and the two files belong together wherever the secret has been written to its end
(`credentials_match`).

The application does not see to that.  When it prepares a credential while there is one, the new
capsule stands next to the old secret until the new one is written, and for good if it never is
(`mixed_credentials`).  And a secret is empty before it is written, so that each
`prepare_credential` goes through a state in which the file next to the capsule holds no password;
that state is what `World.HalfWritten` says.
-/

namespace OrIsyVra.Mount.Credentials

open ByteString Runs

section

variable [Crypto] [KeyCrypto] [Dpapi] {master : MasterKey} {w w' : World} {e : Event}

/-! ## What belongs together -/

/-- The capsule, if there is one, opens under the password to the master key. -/
def Fits (master : MasterKey) (capsule : Option Bytes) (mountPassword : Bytes) : Prop :=
  ∀ bytes, capsule = some bytes → unlockKeyfileBytes bytes mountPassword = .ok master

/-- The password in the bytes unlocks the capsule. -/
def Unlocking (master : MasterKey) (capsule bytes : Bytes) : Prop :=
  ∃ mountPassword, Dpapi.unprotect bytes = .ok mountPassword ∧
    unlockKeyfileBytes capsule mountPassword = .ok master

/-- The capsule and the secret, if both are there, belong together. -/
def Paired (master : MasterKey) (w : World) : Prop :=
  ∀ capsule file, w.capsule = some capsule → w.secret = some file →
    Unlocking master capsule file.bytes

/-- The secret next to a capsule has not been written to its end. -/
def World.HalfWritten (w : World) : Prop :=
  ∃ capsule file, w.capsule = some capsule ∧ w.secret = some file ∧ file.whole = false

/-- A password that was used on a capsule has opened it to the master key. -/
def Event.Unlocks (master : MasterKey) : Event → Prop
  | .used _ _ _ result => ∀ r, result = some r → r = .ok master
  | _ => True

/-- **The invariant**: the files belong together, and so do the capsule and every password in hand,
and what is to be written to the secret. -/
structure Matching (master : MasterKey) (w : World) : Prop where
  files : ∀ capsule file, w.capsule = some capsule → w.secret = some file → file.whole = true →
    Unlocking master capsule file.bytes
  parts : ∀ file, w.secret = some file → file.whole = false →
    ∃ code, Dpapi.unprotect file.bytes = .error code
  staged : ∀ capsule draw after, w.gui = .persisting capsule draw after →
    unlockKeyfileBytes capsule draw.mountPassword.val = .ok master
  exported : ∀ draw after, w.gui = .exported draw after →
    Fits master w.capsule draw.mountPassword.val
  writing : ∀ bytes after, w.gui = .writing bytes after →
    ∃ mountPassword n, Dpapi.protect mountPassword n = .ok bytes ∧
    Fits master w.capsule mountPassword
  held : ∀ file mountPassword, w.reader.inHand = some (file, mountPassword) →
    Fits master w.capsule mountPassword

/-- A capsule is put in place only while there is no secret and no host has a password in hand. -/
def Timely (w : World) : Event → Prop
  | .exported => w.secret = none ∧ w.reader.inHand = none
  | _ => True

instance (w : World) : (e : Event) → Decidable (Timely w e)
  | .exported => inferInstanceAs (Decidable (w.secret = none ∧ w.reader.inHand = none))
  | .quiet | .created _ | .began | .refused _ | .used _ _ _ _ => inferInstanceAs (Decidable True)

/-! ## A step -/

omit [Dpapi] in
theorem Fits.mono {capsule capsule' : Option Bytes} {mountPassword : Bytes}
    (h : Fits master capsule mountPassword) (hcapsule : capsule' = none ∨ capsule' = capsule) :
    Fits master capsule' mountPassword := by
  rcases hcapsule with rfl | rfl
  · exact fun _ hbytes => absurd hbytes (by simp)
  · exact h

/-- **Files that are removed** still belong together, wherever the two processes are. -/
theorem Matching.mono (h : Matching master w)
    (hcapsule : w'.capsule = none ∨ w'.capsule = w.capsule)
    (hsecret : w'.secret = none ∨ w'.secret = w.secret)
    (hgui : w'.gui.Free ∨ w'.gui = w.gui)
    (hheld : ∀ file mountPassword, w'.reader.inHand = some (file, mountPassword) →
      Fits master w.capsule mountPassword) : Matching master w' := by
  have hsame : ∀ {gui : Gui}, w'.gui = gui → ¬gui.Free → w.gui = gui := fun hat hfree => by
    rcases hgui with hfree' | hgui
    · exact absurd (hat ▸ hfree') hfree
    · exact hgui ▸ hat
  have hold : ∀ file, w'.secret = some file → w.secret = some file := fun file hfile => by
    rcases hsecret with hnone | hsecret
    · exact absurd (hfile.symm.trans hnone) (by simp)
    · exact hsecret ▸ hfile
  refine ⟨fun capsule file hc hf hwhole => ?_, fun file hf => h.parts file (hold file hf),
    fun capsule draw after hat => h.staged capsule draw after (hsame hat id),
    fun draw after hat => (h.exported draw after (hsame hat id)).mono hcapsule,
    fun bytes after hat => ?_, fun file p hp => (hheld file p hp).mono hcapsule⟩
  · rcases hcapsule with hnone | hcapsule
    · exact absurd (hc.symm.trans hnone) (by simp)
    · exact h.files capsule file (hcapsule ▸ hc) (hold file hf) hwhole
  · obtain ⟨p, n, hprotect, hfits⟩ := h.writing bytes after (hsame hat id)
    exact ⟨p, n, hprotect, hfits.mono hcapsule⟩

omit [Crypto] [KeyCrypto] in
/-- What has been written of a secret is the password, or nothing that can be read. -/
theorem unprotect_fill [LawfulDpapi] {file : SecretFile} {mountPassword bytes : Bytes} {n count : ℕ}
    {now : ℤ} (h : Dpapi.protect mountPassword n = .ok bytes) :
    ((file.fill bytes count now).whole = true →
      Dpapi.unprotect (file.fill bytes count now).bytes = .ok mountPassword) ∧
    ((file.fill bytes count now).whole = false →
      ∃ code, Dpapi.unprotect (file.fill bytes count now).bytes = .error code) := by
  constructor
  · intro hwhole
    have hall : bytes.length ≤ count := of_decide_eq_true hwhole
    show Dpapi.unprotect (bytes.take count) = _
    rw [List.take_of_length_le hall]
    exact LawfulDpapi.unprotect_protect _ _ _ h
  · intro hpart
    have hless : ¬bytes.length ≤ count := of_decide_eq_false hpart
    exact LawfulDpapi.unprotect_take _ _ _ count h (by omega)

theorem Matching.gui [LawfulCrypto] [LawfulDpapi] (h : Matching master w)
    (hstep : GuiEffect master w e w') (htimely : Timely w e) :
    Matching master w' ∧ e.Unlocks master := by
  cases hstep with
  | elsewhere hfree => exact ⟨h.mono (Or.inr rfl) (Or.inr rfl) (Or.inl hfree) h.held, trivial⟩
  | @cleared capsule draw after hencode =>
    have hgone : Matching master { w with capsule := none, gui := .idle } :=
      h.mono (Or.inl rfl) (Or.inr rfl) (Or.inl trivial) h.held
    refine ⟨⟨hgone.files, hgone.parts, fun capsule' draw' after' hgui =>
      ?_, nofun, nofun, hgone.held⟩, trivial⟩
    obtain ⟨rfl, rfl, -⟩ := Gui.persisting.inj hgui
    exact unlock_of_encode hencode
  | @exported capsule draw after hgui =>
    obtain ⟨hnone, hidle⟩ := htimely
    refine ⟨⟨fun _ file _ hfile => absurd (hfile.symm.trans hnone) (by simp), h.parts,
      nofun, fun draw' after' hgui' bytes hbytes => ?_, nofun, fun file p hp => ?_⟩, trivial⟩
    · obtain ⟨rfl, -⟩ := Gui.exported.inj hgui'
      obtain rfl := Option.some.inj hbytes
      exact h.staged capsule draw after hgui
    · exact absurd (hp.symm.trans hidle) (by simp)
  | @created draw after bytes hgui hprotect =>
    refine ⟨⟨fun capsule file _ hfile hwhole => ?_, fun file hfile _ => ?_, nofun, nofun,
      fun bytes' after' hgui' => ?_, h.held⟩, trivial⟩
    · obtain rfl := Option.some.inj hfile
      exact absurd hwhole Bool.false_ne_true
    · obtain rfl := Option.some.inj hfile
      exact LawfulDpapi.unprotect_nil
    · obtain ⟨rfl, -⟩ := Gui.writing.inj hgui'
      exact ⟨_, _, hprotect, h.exported draw after hgui⟩
  | @writes bytes after count gui hgui hfree =>
    obtain ⟨p, n, hprotect, hfits⟩ := h.writing bytes after hgui
    have hidle : Matching master { w with gui := gui } :=
      h.mono (Or.inr rfl) (Or.inr rfl) (Or.inl hfree) h.held
    refine ⟨⟨fun capsule file hcapsule hfile hwhole => ?_, fun file hfile hpart => ?_, hidle.staged,
      hidle.exported, hidle.writing, h.held⟩, trivial⟩
    · obtain ⟨file', hfile', rfl⟩ := Option.map_eq_some_iff.mp hfile
      exact ⟨p, (unprotect_fill hprotect).1 hwhole, hfits capsule hcapsule⟩
    · obtain ⟨file', hfile', rfl⟩ := Option.map_eq_some_iff.mp hfile
      exact (unprotect_fill hprotect).2 hpart
  | dropped hsecret hfree => exact ⟨h.mono (Or.inr rfl) hsecret (Or.inl hfree) h.held, trivial⟩

theorem Matching.reader {access : Access} (h : Matching master w)
    (hstep : ReaderEffect access w e w') :
    Matching master w' ∧ e.Unlocks master := by
  -- where the host stands matters only for the password it has
  have hhost : ∀ {reader : Reader} {secret : Option SecretFile},
      secret = none ∨ secret = w.secret →
      (∀ file p, reader.inHand = some (file, p) → Fits master w.capsule p) →
      Matching master { w with secret := secret, reader := reader } := fun hsecret hheld =>
    h.mono (Or.inr rfl) hsecret (Or.inr rfl) hheld
  cases hstep with
  | ends => exact ⟨hhost (Or.inr rfl) nofun, trivial⟩
  | finds => exact ⟨hhost (Or.inr rfl) nofun, trivial⟩
  | skips => exact ⟨hhost (Or.inr rfl) nofun, trivial⟩
  | loads => exact ⟨hhost (Or.inr rfl) (by simp), trivial⟩
  | ages => exact ⟨hhost (Or.inr rfl) (by simp), trivial⟩
  | dropsSecret _ hsecret => exact ⟨hhost (hsecret.imp_right And.right) nofun, trivial⟩
  | refuses _ hcapsule =>
    exact ⟨h.mono (hcapsule.imp_right And.right) (Or.inr rfl) (Or.inr rfl) nofun, trivial⟩
  | @reads copy check file mountPassword _ hsecret hunprotect =>
    refine ⟨hhost (Or.inr rfl) fun file' p hp bytes hbytes => ?_, trivial⟩
    obtain ⟨-, rfl⟩ : file = file' ∧ mountPassword = p := by simpa using hp
    -- a secret that could be read has been written to its end
    have hwhole : file.whole = true := by
      by_contra hpart
      obtain ⟨code, hcode⟩ := h.parts file hsecret (Bool.eq_false_iff.mpr hpart)
      exact absurd (hunprotect.symm.trans hcode) (by simp)
    obtain ⟨mountPassword', hunprotect', hopen⟩ := h.files bytes file hbytes hsecret hwhole
    rwa [Except.ok.inj (hunprotect.symm.trans hunprotect')]
  | @forgets copy check file mountPassword secret hreader hsecret =>
    refine ⟨hhost (hsecret.imp_right And.right) fun file' p hp => h.held file' p ?_, trivial⟩
    rw [hreader]
    exact hp
  | @uses copy check file mountPassword capsule reader hreader hcapsule hend =>
    refine ⟨hhost (Or.inr rfl) fun file' p hp => ?_, fun r hr => ?_⟩
    · rcases hend with rfl | rfl <;> exact nomatch hp
    · obtain ⟨bytes, hbytes, rfl⟩ := Option.map_eq_some_iff.mp hr
      have hfits : Fits master w.capsule mountPassword :=
        h.held file _ (by rw [hreader]; rfl)
      exact hfits.mono hcapsule bytes hbytes

/-- **A step keeps what belongs together**, if it puts no capsule next to another password. -/
theorem Matching.step [LawfulCrypto] [LawfulDpapi] (h : Matching master w)
    (hstep : Step master w e w') (htimely : Timely w e) :
    Matching master w' ∧ e.Unlocks master := by
  obtain ⟨cmd, heffect⟩ := hstep.effect
  cases heffect with
  | gui hgui => exact h.gui hgui htimely
  | reader hreader => exact h.reader hreader
  | dies => exact ⟨h.mono (Or.inr rfl) (Or.inr rfl) (Or.inr rfl) nofun, trivial⟩
  | clock => exact ⟨h.mono (Or.inr rfl) (Or.inr rfl) (Or.inr rfl) h.held, trivial⟩
  | began => exact ⟨h, trivial⟩
  | starts => exact ⟨h.mono (Or.inr rfl) (Or.inr rfl) (Or.inr rfl) nofun, trivial⟩

/-- **They belong together where the secret is whole**, and only there. -/
theorem Matching.paired_iff (h : Matching master w) : Paired master w ↔ ¬w.HalfWritten := by
  constructor
  · rintro hpaired ⟨capsule, file, hcapsule, hfile, hpart⟩
    obtain ⟨p, hunprotect, -⟩ := hpaired capsule file hcapsule hfile
    obtain ⟨code, hcode⟩ := h.parts file hfile hpart
    exact absurd (hunprotect.symm.trans hcode) (by simp)
  · intro hwhole capsule file hcapsule hfile
    refine h.files capsule file hcapsule hfile ?_
    by_contra hpart
    exact hwhole ⟨capsule, file, hcapsule, hfile, Bool.eq_false_iff.mpr hpart⟩

/-! ## Half-written secrets -/

/-- The secret the application writes has not been written to its end. -/
def World.Opened (w : World) : Prop :=
  ∀ bytes after file, w.gui = .writing bytes after → w.secret = some file → file.whole = false

omit [Crypto] [KeyCrypto] [Dpapi] in
/-- Less is half-written when files are removed. -/
theorem World.HalfWritten.of_removed (h : w'.HalfWritten)
    (hcapsule : w'.capsule = none ∨ w'.capsule = w.capsule)
    (hsecret : w'.secret = none ∨ w'.secret = w.secret) : w.HalfWritten := by
  obtain ⟨capsule, file, hc, hf, hpart⟩ := h
  rcases hcapsule with hnone | hcapsule
  · exact absurd (hc.symm.trans hnone) (by simp)
  rcases hsecret with hnone | hsecret
  · exact absurd (hf.symm.trans hnone) (by simp)
  exact ⟨capsule, file, hcapsule ▸ hc, hsecret ▸ hf, hpart⟩

omit [Crypto] [KeyCrypto] [Dpapi] in
theorem World.Opened.of_removed (h : w.Opened) (hsecret : w'.secret = none ∨ w'.secret = w.secret)
    (hgui : w'.gui = w.gui) : w'.Opened := by
  intro bytes after file hat hfile
  rcases hsecret with hnone | hsecret
  · exact absurd (hfile.symm.trans hnone) (by simp)
  · exact h bytes after file (hgui ▸ hat) (hsecret ▸ hfile)

omit [Crypto] [KeyCrypto] [Dpapi] in
theorem World.opened_of_ne (h : ∀ bytes after, w.gui ≠ .writing bytes after) : w.Opened :=
  fun bytes after _ hat => absurd hat (h bytes after)

omit [Crypto] [KeyCrypto] [Dpapi] in
theorem World.opened_of_free (h : w.gui.Free) : w.Opened := by
  refine World.opened_of_ne fun bytes after hat => ?_
  rw [hat] at h
  exact h

/-- **A secret is half-written next to a capsule** only when it has been created there. -/
theorem Step.halfWritten (hstep : Step master w e w') (htimely : Timely w e) (hopened : w.Opened) :
    w'.Opened ∧ (w'.HalfWritten → w.HalfWritten ∨ e = .created true) := by
  obtain ⟨cmd, heffect⟩ := hstep.effect
  have hremoved : (w'.capsule = none ∨ w'.capsule = w.capsule) →
      (w'.secret = none ∨ w'.secret = w.secret) → w'.gui.Free ∨ w'.gui = w.gui →
      w'.Opened ∧ (w'.HalfWritten → w.HalfWritten ∨ e = .created true) := by
    refine fun hcapsule hsecret hgui =>
      ⟨?_, fun hhalf => Or.inl (hhalf.of_removed hcapsule hsecret)⟩
    rcases hgui with hfree | hsame
    · exact World.opened_of_free hfree
    · exact hopened.of_removed hsecret hsame
  cases heffect with
  | gui hgui =>
    cases hgui with
    | elsewhere hfree => exact hremoved (Or.inr rfl) (Or.inr rfl) (Or.inl hfree)
    | cleared =>
      refine ⟨World.opened_of_ne fun _ _ => nofun, fun hhalf => Or.inl ?_⟩
      exact hhalf.of_removed (Or.inl rfl) (Or.inr rfl)
    | exported =>
      refine ⟨World.opened_of_ne fun _ _ => nofun, ?_⟩
      rintro ⟨_, file, _, hfile, _⟩
      exact absurd (hfile.symm.trans htimely.1) (by simp)
    | created =>
      refine ⟨fun _ _ file _ hfile => ?_, ?_⟩
      · obtain rfl := Option.some.inj hfile
        rfl
      · rintro ⟨capsule, _, hcapsule, _, _⟩
        have hthere : w.capsule = some capsule := hcapsule
        rw [hthere]
        exact Or.inr rfl
    | @writes bytes after count gui hat hfree =>
      refine ⟨World.opened_of_free hfree, ?_⟩
      rintro ⟨capsule, file, hcapsule, hfile, -⟩
      obtain ⟨file', hfile', -⟩ := Option.map_eq_some_iff.mp hfile
      exact Or.inl ⟨capsule, file', hcapsule, hfile', hopened bytes after file' hat hfile'⟩
    | dropped hsecret hfree => exact hremoved (Or.inr rfl) hsecret (Or.inl hfree)
  | reader hreader =>
    cases hreader with
    | dropsSecret _ hsecret =>
      exact hremoved (Or.inr rfl) (hsecret.imp_right And.right) (Or.inr rfl)
    | refuses _ hcapsule =>
      exact hremoved (hcapsule.imp_right And.right) (Or.inr rfl) (Or.inr rfl)
    | forgets _ hsecret =>
      exact hremoved (Or.inr rfl) (hsecret.imp_right And.right) (Or.inr rfl)
    | _ => exact hremoved (Or.inr rfl) (Or.inr rfl) (Or.inr rfl)
  | _ => exact hremoved (Or.inr rfl) (Or.inr rfl) (Or.inr rfl)

/-! ## Runs -/

/-- A state in which neither process is at work. -/
def World.Quiet (w : World) : Prop := w.gui = .idle ∧ w.reader = .idle

/-- The step meets the condition. -/
def TimelyStep (master : MasterKey) (w : World) (e : Event) (w' : World) : Prop :=
  Step master w e w' ∧ Timely w e

theorem created_of_halfWritten {w₀ : World} {events : List Event} (hopened : w₀.Opened)
    (hwhole : ¬w₀.HalfWritten) (hrun : Run (TimelyStep master) w₀ events w) :
    w.Opened ∧ (w.HalfWritten → .created true ∈ events) := by
  induction hrun with
  | refl => exact ⟨hopened, fun hhalf => absurd hhalf hwhole⟩
  | step _ hlast ih =>
    obtain ⟨hopened', hcreated⟩ := hlast.1.halfWritten hlast.2 ih.1
    refine ⟨hopened', fun hhalf => ?_⟩
    rcases hcreated hhalf with hbefore | rfl
    · exact List.mem_append_left _ (ih.2 hbefore)
    · exact List.mem_append_right _ List.mem_cons_self

/-- **The capsule and the secret belong together** over a run in which a capsule is put in place
only while there is no secret and no host with a password in hand.  Every password that is used on a
capsule opens it; the two files belong together in just the states in which the secret next to a
capsule has been written to its end; and in every state, if no secret is created next to a
capsule. -/
theorem credentials_match [LawfulCrypto] [LawfulDpapi] {w₀ : World} {events : List Event}
    (hquiet : w₀.Quiet) (hfiles : Paired master w₀)
    (hwhole : ∀ file, w₀.secret = some file → file.whole = true)
    (hrun : Run (TimelyStep master) w₀ events w) :
    (∀ e ∈ events, e.Unlocks master) ∧ (Paired master w ↔ ¬w.HalfWritten) ∧
      (.created true ∉ events → Paired master w) := by
  have hfree : w₀.gui.Free := by
    rw [hquiet.1]
    trivial
  have hstart : Matching master w₀ := by
    refine ⟨fun capsule file hc hf _ => hfiles capsule file hc hf, fun file hf hpart => ?_,
      fun _ _ _ hgui => ?_, fun _ _ hgui => ?_, fun _ _ hgui => ?_, fun _ _ hp => ?_⟩
    · exact absurd (hpart.symm.trans (hwhole file hf)) Bool.false_ne_true
    · exact absurd (hquiet.1.symm.trans hgui) nofun
    · exact absurd (hquiet.1.symm.trans hgui) nofun
    · exact absurd (hquiet.1.symm.trans hgui) nofun
    · rw [hquiet.2] at hp
      exact nomatch hp
  have hend : Paired master w ↔ ¬w.HalfWritten :=
    Matching.paired_iff (hrun.invariant hstart fun _ _ _ hm hstep => (hm.step hstep.1 hstep.2).1)
  have hnone : ¬w₀.HalfWritten := by
    rintro ⟨_, file, _, hfile, hpart⟩
    exact absurd (hpart.symm.trans (hwhole file hfile)) Bool.false_ne_true
  refine ⟨hrun.labels hstart fun _ _ _ hm hstep => hm.step hstep.1 hstep.2, hend, fun hapart => ?_⟩
  exact hend.mpr fun hhalf =>
    hapart ((created_of_halfWritten (World.opened_of_free hfree) hnone hrun).2 hhalf)

end

/-! ## Two credentials, one after the other -/

/-- Every byte behind a mark, and another mark at the end. -/
def marked : Bytes → Bytes
  | [] => [0]
  | b :: bytes => 1 :: b :: marked bytes

def readMarked : Bytes → Except UInt32 Bytes
  | [] => .error 13
  | [mark] => if mark = 0 then .ok [] else .error 13
  | mark :: b :: bytes => if mark = 1 then (readMarked bytes).map (b :: ·) else .error 13

theorem readMarked_marked (bytes : Bytes) : readMarked (marked bytes) = .ok bytes := by
  induction bytes with
  | nil => rfl
  | cons b bytes ih =>
    rw [marked, readMarked, if_pos rfl, ih]
    rfl

theorem readMarked_take {bytes : Bytes} {k : ℕ} (h : k < (marked bytes).length) :
    readMarked ((marked bytes).take k) = .error 13 := by
  induction bytes generalizing k with
  | nil =>
    obtain rfl : k = 0 := Nat.lt_one_iff.mp h
    rfl
  | cons b bytes ih =>
    match k with
    | 0 => rfl
    | 1 => rfl
    | k + 2 =>
      have hrest : k < (marked bytes).length := by
        rw [marked, List.length_cons, List.length_cons] at h
        omega
      rw [marked, List.take_succ_cons, List.take_succ_cons, readMarked, if_pos rfl, ih hrest]
      rfl

/-- A data protection that marks the bytes. -/
@[reducible] def markingDpapi : Dpapi where
  protect plaintext _ := .ok (marked plaintext)
  unprotect := readMarked

theorem markingDpapi_lawful : @LawfulDpapi markingDpapi := by
  let _ := markingDpapi
  refine ⟨fun plaintext _ bytes h => ?_, fun plaintext _ bytes k h hk => ⟨13, ?_⟩, ⟨13, rfl⟩⟩
  · rw [← Except.ok.inj h]
    exact readMarked_marked plaintext
  · rw [← Except.ok.inj h] at hk ⊢
    exact readMarked_take hk

def sampleMaster : MasterKey := .of 48 [3]
def firstDraw : Draw := ⟨.of 32 [1], .of 16 [], .of 24 [], 0⟩
def secondDraw : Draw := ⟨.of 32 [2], .of 16 [], .of 24 [], 0⟩

/-- The sealing of the second capsule. -/
def secondSealing : Sealing :=
  (secondDraw.mountPassword.val, secondDraw.nonce.val,
    encodeKeyfileHeader default secondDraw.salt secondDraw.nonce, sampleMaster.val)

/-- An entry whose user is asked for the key card. -/
def promptEntry : MountEntry :=
  ⟨['a'], "a.vol".toList, "a.png".toList, none, false, true, false, true⟩

/-- The entry is saved, and nothing else is there. -/
def registered (entry : MountEntry) : World := ⟨some entry.text, none, none, 0, 0, .idle, .idle⟩

/-- A credential is prepared. -/
def preparation (draw : Draw) : List Command :=
  [.prepare draw, .gui .done, .gui .done, .gui .done, .gui .done]

/-- A host starts on the first credential, and the second one is about to be prepared. -/
def mixing : List Command :=
  preparation firstDraw ++ [.run .done, .reader .done, .prepare secondDraw, .gui .done, .gui .done]

/-- The host goes on. -/
def goingOn : List Command :=
  [.reader .done, .reader .done, .reader .done, .reader .done, .reader .done]

/-- There are two files, and the password in one does not open the other. -/
def mixed [Crypto] [KeyCrypto] [Dpapi] (w : World) : Bool :=
  match w.capsule, w.secret with
  | some capsule, some file =>
    match Dpapi.unprotect file.bytes with
    | .ok mountPassword =>
      decide (unlockKeyfileBytes capsule mountPassword = .error .authenticationFailed)
    | .error _ => false
  | _, _ => false

theorem not_paired_of_mixed [Crypto] [KeyCrypto] [Dpapi] {master : MasterKey} {w : World}
    (h : mixed w = true) : ¬Paired master w := by
  intro hpaired
  unfold mixed at h
  split at h
  · next capsule file hcapsule hfile =>
    obtain ⟨mountPassword, hunprotect, hopen⟩ := hpaired capsule file hcapsule hfile
    simp only [hunprotect, decide_eq_true_eq] at h
    exact absurd (hopen.symm.trans h) (by simp)
  · exact Bool.false_ne_true h

/-- A password that has failed to open the capsule. -/
def failedUse : Event → Bool
  | .used _ _ _ (some (.error e)) => e == .authenticationFailed
  | _ => false

/-- **The new capsule stands next to the old password**, and the host fails on the two. -/
theorem mixed_credentials :
    let _ := tableCrypto [secondSealing]
    let _ := plainKeyCrypto
    let _ := markingDpapi
    (∃ events w, Run (Step sampleMaster) (registered promptEntry) events w ∧
      ¬Paired sampleMaster w) ∧
    ∃ events w, Run (Step sampleMaster) (registered promptEntry) events w ∧
      ¬∀ e ∈ events, e.Unlocks sampleMaster := by
  let _ := tableCrypto [secondSealing]
  let _ := plainKeyCrypto
  let _ := markingDpapi
  constructor
  · obtain ⟨events, w, hrun, hmixed⟩ :=
      @exists_run _ _ _ sampleMaster (registered promptEntry) mixing
      (fun _ w => mixed w) (by decide +kernel)
    exact ⟨events, w, hrun, not_paired_of_mixed hmixed⟩
  · obtain ⟨events, w, hrun, hfailed⟩ := @exists_run _ _ _ sampleMaster (registered promptEntry)
      (mixing ++ goingOn) (fun events _ => events.any failedUse) (by decide +kernel)
    refine ⟨events, w, hrun, fun h => ?_⟩
    obtain ⟨e, he, hfail⟩ := List.any_eq_true.mp hfailed
    have hunlocks := h e he
    unfold failedUse at hfail
    split at hfail
    · exact absurd (hunlocks _ rfl) (by simp)
    · exact Bool.false_ne_true hfail

/-- A password that has opened the capsule. -/
def usedWell : Event → Bool
  | .used _ _ _ (some (.ok _)) => true
  | _ => false

/-- Both files are there, and the secret is whole. -/
def complete (w : World) : Bool :=
  w.capsule.isSome && w.secret.any SecretFile.whole

theorem complete_spec {w : World} (h : complete w = true) :
    w.capsule.isSome = true ∧ w.secret.isSome = true ∧ ¬w.HalfWritten := by
  unfold complete at h
  obtain ⟨hcapsule, hwhole⟩ := Bool.and_eq_true_iff.mp h
  cases hsecret : w.secret with
  | none =>
    rw [hsecret] at hwhole
    exact absurd hwhole Bool.false_ne_true
  | some file =>
    rw [hsecret] at hwhole
    refine ⟨hcapsule, rfl, ?_⟩
    rintro ⟨_, file', _, hfile', hpart⟩
    obtain rfl := Option.some.inj (hsecret.symm.trans hfile')
    exact absurd (hpart.symm.trans hwhole) Bool.false_ne_true

/-- One credential at a time: the second one is prepared when the first one has been used. -/
theorem credentials_match_twice :
    let _ := tableCrypto [secondSealing]
    let _ := plainKeyCrypto
    let _ := markingDpapi
    ∃ (events : List Event) (w : World), (events.filter usedWell).length = 2 ∧
      w.capsule.isSome = true ∧ w.secret.isSome = true ∧ Paired sampleMaster w ∧
      ∀ e ∈ events, e.Unlocks sampleMaster := by
  let _ := tableCrypto [secondSealing]
  let _ := plainKeyCrypto
  let _ := markingDpapi
  have _ := tableCrypto_lawful [secondSealing]
  have _ := markingDpapi_lawful
  obtain ⟨events, w, hrun, htest⟩ := @exists_run_of_execute _ _ _ (TimelyStep sampleMaster)
    (fun w cmd => (advance sampleMaster cmd w).filter fun r => decide (Timely w r.1))
    (preparation firstDraw ++ .run .done :: .reader .done :: goingOn ++ .readerDies ::
      preparation secondDraw ++ .run .done :: .reader .done :: goingOn ++ .readerDies ::
      preparation firstDraw)
    (registered promptEntry) (fun events w => (events.filter usedWell).length == 2 && complete w)
    (fun cmd _ w e w' h => by
      obtain ⟨hcmd, htimely⟩ := Option.filter_eq_some_iff.mp h
      exact ⟨⟨cmd, hcmd⟩, of_decide_eq_true htimely⟩)
    (by decide +kernel)
  have hempty : Paired sampleMaster (registered promptEntry) :=
    fun _ _ hcapsule _ => absurd hcapsule (by simp [registered])
  have hnone : ∀ file, (registered promptEntry).secret = some file → file.whole = true :=
    fun _ hfile => absurd hfile (by simp [registered])
  obtain ⟨hunlocks, hpaired, -⟩ := credentials_match ⟨rfl, rfl⟩ hempty hnone hrun
  obtain ⟨hused, hcomplete⟩ := Bool.and_eq_true_iff.mp htest
  obtain ⟨hcapsule, hsecret, hwhole⟩ := complete_spec hcomplete
  exact ⟨events, w, beq_iff_eq.mp hused, hcapsule, hsecret, hpaired.mpr hwhole, hunlocks⟩

end OrIsyVra.Mount.Credentials
