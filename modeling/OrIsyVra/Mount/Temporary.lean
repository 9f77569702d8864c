import OrIsyVra.Mount.Pairing

/-!
# Temporary credentials

A host looks at the policy twice.  Before it reads the secret it loads the stored entry, and for the
policy "prompt" it looks at the age of the secret file; when it has read the secret it goes by the
entry it has loaded at its start, and for "prompt" removes the file before it uses the password.

An entry that cannot be loaded is not looked at, and then neither is the age: a secret of any age is
used (`unread_policy_is_passed`).  Nor is what was found at the check what is there when the
password is used, and an entry that is made automatic when its secret has been written keeps that
secret (`secret_used_twice`, `checked_too_early`).

`Orderly` is what has to be so instead: the check loads the entry, the entry is not changed while a
host is between loading it and using the password, it is not made automatic beside a secret that was
written under another policy, and a secret that has passed the check does not grow too old before it
is used.  In a run of such steps temporary credentials are used once and in time, and what is stale
is removed (`temporary_credentials`).
-/

namespace OrIsyVra.Mount.Credentials

open ByteString Runs

/-! ## The check -/

/-- **The check**, on the entry if it could be loaded. -/
def Check.Passes (check : Check) : Prop :=
  ∀ stored, check.stored = some stored → (stored.autoUnlock = true → stored.autoMount = true) ∧
    (stored.autoUnlock = false → ∃ age, check.age = some age ∧ 0 ≤ age ∧
      age ≤ temporaryMountSecretTtl)

theorem Check.isFresh_iff {check : Check} : check.isFresh = true ↔
    ∃ age, check.age = some age ∧ 0 ≤ age ∧ age ≤ temporaryMountSecretTtl := by
  unfold isFresh
  cases hage : check.age with
  | none => simp
  | some age => simp

/-- What the host has looked at so far. -/
def Reader.check : Reader → Option Check
  | .ageing _ stored => some ⟨some stored, none⟩
  | .allowed _ check | .holding _ check _ _ | .opening _ check _ _ => some check
  | .idle | .loaded _ | .found _ | .stale _ | .secretRemoved _ | .mounted => none

/-- The entry the host has loaded at its start, until it has used the password. -/
def Reader.copy : Reader → Option MountEntry
  | .loaded copy | .found copy | .ageing copy _ | .allowed copy _ => some copy
  | .holding copy _ _ _ | .opening copy _ _ _ => some copy
  | .idle | .stale _ | .secretRemoved _ | .mounted => none

/-- The host goes by its check. -/
def Reader.Judged : Reader → Prop
  | .ageing _ stored => stored.autoUnlock = false
  | .allowed _ check | .holding _ check _ _ | .opening _ check _ _ => check.Passes
  | _ => True

theorem onStored_judged (copy stored : MountEntry) : (onStored copy stored).Judged := by
  rcases onStored_cases copy stored with ⟨h, -⟩ | ⟨h, hprompt⟩ | ⟨h, hunlock, hmount⟩ <;> rw [h]
  · trivial
  · exact hprompt
  · intro stored' hstored
    obtain rfl := Option.some.inj hstored
    exact ⟨fun _ => hmount, fun hprompt => absurd (hprompt.symm.trans hunlock) Bool.false_ne_true⟩

theorem onAge_judged {copy stored : MountEntry} (hprompt : stored.autoUnlock = false)
    (age : Option ℤ) : (onAge copy ⟨some stored, age⟩).Judged := by
  rcases onAge_cases copy ⟨some stored, age⟩ with ⟨h, hfresh⟩ | ⟨h, -⟩ <;> rw [h]
  · intro stored' hstored
    obtain rfl := Option.some.inj hstored
    exact ⟨fun hunlock => absurd (hprompt.symm.trans hunlock) Bool.false_ne_true,
      fun _ => Check.isFresh_iff.mp hfresh⟩
  · trivial

theorem onRead_judged {copy : MountEntry} {check : Check} (hpasses : check.Passes)
    (file : SecretFile) (mountPassword : Bytes) :
    (onRead copy check file mountPassword).Judged := by
  rcases onRead_cases copy check file mountPassword with ⟨h, -⟩ | ⟨h, -⟩ <;>
    rw [h] <;> exact hpasses

/-! ## What is asked of a step -/

/-- The file access of the command. -/
def Command.access : Command → Access
  | .gui access | .run access | .reader access => access
  | .clock _ | .policy _ _ _ | .prepare _ | .save _ | .guiDies | .readerDies => .done

/-- The file access is the removal of something that is not to be used any more. -/
def Command.removes (w : World) : Command → Bool
  | .gui _ =>
    match w.gui with
    | .dropping _ => true
    | _ => false
  | .reader _ =>
    match w.reader with
    | .stale _ | .secretRemoved _ | .holding _ _ _ _ => true
    | _ => false
  | _ => false

/-- The file access is the loading of the entry in `read_protected_secret`. -/
def Command.loads (w : World) : Command → Bool
  | .reader _ =>
    match w.reader with
    | .found _ => true
    | _ => false
  | _ => false

/-- The host is killed. -/
def Command.kills : Command → Bool
  | .readerDies => true
  | _ => false

/-- The secret was written while the policy was "prompt". -/
def SecretFile.prompt (file : SecretFile) : Bool :=
  file.stamp.written.any fun entry => !entry.autoUnlock

/-- The file is neither too old nor from the future. -/
def SecretFile.InTime (now : ℤ) (file : SecretFile) : Prop :=
  0 ≤ now - file.modified ∧ now - file.modified ≤ temporaryMountSecretTtl

instance (now : ℤ) (file : SecretFile) : Decidable (file.InTime now) :=
  inferInstanceAs (Decidable (_ ∧ _))

/-- The secret that a host is about to read after its check, or has read. -/
def World.checked (w : World) : Option SecretFile :=
  match w.reader with
  | .allowed _ _ => w.secret
  | .holding _ _ file _ | .opening _ _ file _ => some file
  | _ => none

/-- **What is asked of a step.** -/
structure Orderly (cmd : Command) (w w' : World) : Prop where
  /-- Removals succeed. -/
  removals : cmd.removes w = true → cmd.access = .done
  /-- The check loads the entry. -/
  loads : cmd.loads w = true → cmd.access = .done
  /-- No host that has loaded the entry is at work when it changes. -/
  entry : w'.entry ≠ w.entry → w.reader.copy = none
  /-- The entry is not made automatic beside a secret that was written under "prompt". -/
  automatic : w'.entry ≠ w.entry → ∀ file ∈ w.secret, ∀ stored ∈ w'.stored, file.prompt = true →
    stored.autoUnlock = false
  /-- The secret does not grow too old between the check and the use. -/
  clock : w'.now ≠ w.now → ∀ copy ∈ w.reader.copy, copy.autoUnlock = false →
    ∀ file ∈ w.checked, file.InTime w'.now
  /-- A host that removes what is stale is not killed. -/
  alive : cmd.kills = true → w.reader.rejected = none

theorem orderly_iff {cmd : Command} {w w' : World} : Orderly cmd w w' ↔
    (cmd.removes w = true → cmd.access = .done) ∧ (cmd.loads w = true → cmd.access = .done) ∧
    (w'.entry ≠ w.entry → w.reader.copy = none) ∧
    (w'.entry ≠ w.entry → ∀ file ∈ w.secret, ∀ stored ∈ w'.stored, file.prompt = true →
      stored.autoUnlock = false) ∧
    (w'.now ≠ w.now → ∀ copy ∈ w.reader.copy, copy.autoUnlock = false →
      ∀ file ∈ w.checked, file.InTime w'.now) ∧
    (cmd.kills = true → w.reader.rejected.isNone = true) := by
  constructor
  · intro h
    exact ⟨h.removals, h.loads, h.entry, h.automatic, h.clock, fun hkills => by
      rw [h.alive hkills]; rfl⟩
  · rintro ⟨hremovals, hloads, hentry, hautomatic, hclock, halive⟩
    exact ⟨hremovals, hloads, hentry, hautomatic, hclock, fun hkills =>
      Option.isNone_iff_eq_none.mp (halive hkills)⟩

instance (cmd : Command) (w w' : World) : Decidable (Orderly cmd w w') :=
  decidable_of_iff' _ orderly_iff

section

variable [Crypto] [KeyCrypto] [Dpapi] {master : MasterKey} {w₀ w w' : World} {e : Event}
  {events : List Event} {cmd : Command}

/-- A step in which a removal succeeds. -/
def RemovingStep (master : MasterKey) (w : World) (e : Event) (w' : World) : Prop :=
  ∃ cmd, advance master cmd w = some (e, w') ∧ (cmd.removes w = true → cmd.access = .done)

/-- A step that meets the condition. -/
def OrderlyStep (master : MasterKey) (w : World) (e : Event) (w' : World) : Prop :=
  ∃ cmd, advance master cmd w = some (e, w') ∧ Orderly cmd w w'

/-! ## The host goes by what is stored -/

/-- The application leaves the host where it is, and the clock. -/
theorem GuiEffect.reader (h : GuiEffect master w e w') : w'.reader = w.reader ∧ w'.now = w.now := by
  cases h <;> exact ⟨rfl, rfl⟩

/-- The host leaves the entry and the clock as they are. -/
theorem ReaderEffect.keeps {access : Access} (h : ReaderEffect access w e w') :
    w'.entry = w.entry ∧ w'.now = w.now ∧ w'.writes = w.writes ∧ w'.gui = w.gui := by
  cases h <;> exact ⟨rfl, rfl, rfl, rfl⟩

theorem ReaderEffect.judged {access : Access} (h : ReaderEffect access w e w')
    (hw : w.reader.Judged) :
    w'.reader.Judged := by
  cases h with
  | ends => trivial
  | finds => trivial
  | skips => exact fun _ hstored => nomatch hstored
  | loads => exact onStored_judged _ _
  | ages hreader =>
    rw [hreader] at hw
    exact onAge_judged hw _
  | dropsSecret => trivial
  | refuses => trivial
  | reads hreader =>
    rw [hreader] at hw
    exact onRead_judged hw _ _
  | forgets hreader =>
    rw [hreader] at hw
    exact hw
  | uses _ _ hend => rcases hend with rfl | rfl <;> trivial

/-- Where a secret comes from. -/
theorem GuiEffect.secret (h : GuiEffect master w e w') {file : SecretFile}
    (hfile : w'.secret = some file) :
    (∃ file', w.secret = some file' ∧ file.stamp = file'.stamp ∧
      (file = file' ∨ file.modified = w.now)) ∨
      file.stamp.written = w.stored ∧ file.modified = w.now ∧ w'.entry = w.entry := by
  cases h with
  | elsewhere => exact Or.inl ⟨file, hfile, rfl, Or.inl rfl⟩
  | cleared => exact Or.inl ⟨file, hfile, rfl, Or.inl rfl⟩
  | exported => exact Or.inl ⟨file, hfile, rfl, Or.inl rfl⟩
  | created =>
    obtain rfl := Option.some.inj hfile
    exact Or.inr ⟨rfl, rfl, rfl⟩
  | writes =>
    obtain ⟨file', hfile', rfl⟩ := Option.map_eq_some_iff.mp hfile
    exact Or.inl ⟨file', hfile', rfl, Or.inr rfl⟩
  | dropped hsecret =>
    rcases hsecret with hnone | hsame
    · exact absurd (hfile.symm.trans hnone) (by simp)
    · exact Or.inl ⟨file, hsame ▸ hfile, rfl, Or.inl rfl⟩

theorem ReaderEffect.secret {access : Access} (h : ReaderEffect access w e w') :
    w'.secret = none ∨ w'.secret = w.secret := by
  cases h with
  | dropsSecret _ hsecret => exact hsecret.imp_right And.right
  | forgets _ hsecret => exact hsecret.imp_right And.right
  | _ => exact Or.inr rfl

/-- **The invariant**: the entry the host has loaded, and the one it has checked, is the stored one;
the stored entry is not automatic beside a secret that was written under "prompt"; and a secret that
has passed the check is not too old yet. -/
structure InOrder (w : World) : Prop where
  judged : w.reader.Judged
  copy : ∀ copy, w.reader.copy = some copy → w.stored = some copy
  check : ∀ copy check, w.reader.copy = some copy → w.reader.check = some check →
    check.stored = some copy
  prompt : ∀ file stored, w.secret = some file → w.stored = some stored → file.prompt = true →
    stored.autoUnlock = false
  hand : ∀ copy file mountPassword, w.reader.copy = some copy →
    w.reader.inHand = some (file, mountPassword) → file.prompt = true → copy.autoUnlock = false
  inTime : ∀ copy file, w.reader.copy = some copy → copy.autoUnlock = false →
    w.checked = some file → file.InTime w.now

omit [Crypto] [KeyCrypto] [Dpapi] in
theorem Reader.judged_of_copy {reader : Reader} (h : reader.copy = none) : reader.Judged := by
  cases reader with
  | ageing | allowed | holding | opening => exact nomatch h
  | _ => trivial

omit [Crypto] [KeyCrypto] [Dpapi] in
/-- A host that has loaded nothing asks for nothing. -/
theorem InOrder.of_copy (hcopy : w.reader.copy = none)
    (hprompt : ∀ file stored, w.secret = some file → w.stored = some stored → file.prompt = true →
      stored.autoUnlock = false) : InOrder w :=
  ⟨Reader.judged_of_copy hcopy, fun _ h => absurd (h.symm.trans hcopy) (by simp),
    fun _ _ h => absurd (h.symm.trans hcopy) (by simp), hprompt,
    fun _ _ _ h => absurd (h.symm.trans hcopy) (by simp),
    fun _ _ h => absurd (h.symm.trans hcopy) (by simp)⟩

omit [Crypto] [KeyCrypto] [Dpapi] in
/-- What a host that has loaded the entry asks for. -/
theorem InOrder.of_copied {copy : MountEntry} (hto : w.reader.copy = some copy)
    (hjudged : w.reader.Judged) (hcopy : w.stored = some copy)
    (hcheck : ∀ check, w.reader.check = some check → check.stored = some copy)
    (hprompt : ∀ file stored, w.secret = some file → w.stored = some stored → file.prompt = true →
      stored.autoUnlock = false)
    (hhand : ∀ file mountPassword, w.reader.inHand = some (file, mountPassword) →
      file.prompt = true → copy.autoUnlock = false)
    (htime : copy.autoUnlock = false → ∀ file, w.checked = some file → file.InTime w.now) :
    InOrder w := by
  have hsame : ∀ c, w.reader.copy = some c → c = copy :=
    fun c hc => Option.some.inj (hc.symm.trans hto)
  refine ⟨hjudged, fun c hc => ?_, fun c check hc hch => ?_, hprompt, fun c file p hc hp => ?_,
    fun c file hc hauto hfile => ?_⟩
  · rw [hsame c hc]
    exact hcopy
  · rw [hsame c hc]
    exact hcheck check hch
  · rw [hsame c hc]
    exact hhand file p hp
  · exact htime (hsame c hc ▸ hauto) file hfile

theorem InOrder.gui (h : InOrder w) (hstep : GuiEffect master w e w')
    (horderly : Orderly cmd w w') :
    InOrder w' := by
  obtain ⟨hreader, hnow⟩ := hstep.reader
  have hstored : ∀ copy, w'.reader.copy = some copy → w'.stored = w.stored := fun copy hcopy => by
    have hsame : w'.entry = w.entry := by
      by_contra hne
      have hnone := horderly.entry hne
      rw [hreader] at hcopy
      exact absurd (hcopy.symm.trans hnone) (by simp)
    rw [World.stored, World.stored, hsame]
  refine ⟨hreader ▸ h.judged, fun copy hcopy => ?_, ?_, fun file stored hfile hst hprompt => ?_, ?_,
    fun copy file hcopy hauto hchecked => ?_⟩
  · rw [hstored copy hcopy]
    exact h.copy copy (hreader ▸ hcopy)
  · rw [hreader]
    exact h.check
  · rcases hstep.secret hfile with ⟨file', hfile', hstamp, -⟩ | ⟨hwritten, -, hentry⟩
    · have hprompt' : file'.prompt = true := by
        rw [SecretFile.prompt, ← hstamp]
        exact hprompt
      by_cases hentry : w'.entry = w.entry
      · refine h.prompt file' stored hfile' ?_ hprompt'
        rw [← hst, World.stored, World.stored, hentry]
      · exact horderly.automatic hentry file' hfile' stored hst hprompt'
    · have hst' : w.stored = some stored := by rw [← hst, World.stored, World.stored, hentry]
      rw [SecretFile.prompt, hwritten, hst'] at hprompt
      simpa using hprompt
  · rw [hreader]
    exact h.hand
  · -- the secret may have been replaced since the check, by a new one
    rw [hnow]
    have hzero : file.modified = w.now → file.InTime w.now := fun hmodified => by
      rw [SecretFile.InTime, hmodified, temporaryMountSecretTtl]
      omega
    have hcopy' : w.reader.copy = some copy := hreader ▸ hcopy
    cases hat : w.reader with
    | allowed copy' check =>
      rw [World.checked, hreader, hat] at hchecked
      rcases hstep.secret hchecked with ⟨file', hfile', -, rfl | hmodified⟩ | ⟨-, hmodified, -⟩
      · refine h.inTime copy file hcopy' hauto ?_
        rw [World.checked, hat]
        exact hfile'
      · exact hzero hmodified
      · exact hzero hmodified
    | _ =>
      refine h.inTime copy file hcopy' hauto ?_
      rw [World.checked, hreader, hat] at hchecked
      rw [World.checked, hat]
      exact hchecked

theorem InOrder.reader {access : Access} (h : InOrder w) (hstep : ReaderEffect access w e w')
    (horderly : Orderly (.reader access) w w') : InOrder w' := by
  obtain ⟨hentry, -⟩ := hstep.keeps
  have hprompt : ∀ file stored, w'.secret = some file → w'.stored = some stored →
    file.prompt = true →
      stored.autoUnlock = false := by
    intro file stored hfile hstored
    have hstored' : w.stored = some stored := by rw [← hstored, World.stored, World.stored, hentry]
    rcases hstep.secret with hnone | hsame
    · exact absurd (hfile.symm.trans hnone) (by simp)
    · exact h.prompt file stored (hsame ▸ hfile) hstored'
  have hjudged := hstep.judged h.judged
  cases hstep with
  | ends => exact .of_copy rfl hprompt
  | @finds copy hat =>
    have hcopy := h.copy copy (by rw [hat]; rfl)
    exact .of_copied rfl hjudged hcopy (fun _ hc => nomatch hc) hprompt (fun _ _ hp => nomatch hp)
      fun _ _ hf => nomatch hf
  | @skips copy hat hskip =>
    have hloaded : access = .done := horderly.loads (by rw [Command.loads, hat])
    have hcopy := h.copy copy (by rw [hat]; rfl)
    rcases hskip with hfailed | hnone
    · exact absurd hloaded hfailed
    · exact absurd (hcopy.symm.trans hnone) (by simp)
  | @loads copy stored hat hstored =>
    have hcopy := h.copy copy (by rw [hat]; rfl)
    obtain rfl : copy = stored := Option.some.inj (hcopy.symm.trans hstored)
    rcases onStored_cases copy copy with ⟨hto, -⟩ | ⟨hto, -⟩ | ⟨hto, hunlock, -⟩ <;>
      rw [hto] at hjudged ⊢
    · exact .of_copy rfl hprompt
    · refine .of_copied rfl hjudged hcopy (fun check hc => ?_) hprompt (fun _ _ hp => nomatch hp)
        fun _ _ hf => nomatch hf
      rw [← Option.some.inj hc]
    · refine .of_copied rfl hjudged hcopy (fun check hc => ?_) hprompt (fun _ _ hp => nomatch hp)
        fun hauto => absurd (hauto.symm.trans hunlock) Bool.false_ne_true
      rw [← Option.some.inj hc]
  | @ages copy stored age hat hage =>
    have hcopy := h.copy copy (by rw [hat]; rfl)
    have hcheck : some stored = some copy :=
      h.check copy ⟨some stored, none⟩ (by rw [hat]; rfl) (by rw [hat]; rfl)
    rcases onAge_cases copy ⟨some stored, age⟩ with ⟨hto, hfresh⟩ | ⟨hto, -⟩ <;>
      rw [hto] at hjudged ⊢
    · refine .of_copied rfl hjudged hcopy (fun check hc => ?_) hprompt (fun _ _ hp => nomatch hp)
        fun _ file hfile => ?_
      · rw [← Option.some.inj hc]
        exact hcheck
      · obtain ⟨a, ha, hpos, hmax⟩ := Check.isFresh_iff.mp hfresh
        obtain ⟨file', hfile', rfl⟩ := hage a ha
        obtain rfl := Option.some.inj (hfile'.symm.trans hfile)
        exact ⟨hpos, hmax⟩
    · exact .of_copy rfl hprompt
  | dropsSecret => exact .of_copy rfl hprompt
  | refuses => exact .of_copy rfl hprompt
  | @reads copy check file mountPassword hat hfile hunprotect =>
    have hcopy := h.copy copy (by rw [hat]; rfl)
    have hcheck := h.check copy check (by rw [hat]; rfl) (by rw [hat]; rfl)
    have hauto : file.prompt = true → copy.autoUnlock = false := h.prompt file copy hfile hcopy
    have htime : copy.autoUnlock = false → file.InTime w.now := fun hprompt =>
      h.inTime copy file (by rw [hat]; rfl) hprompt (by rw [World.checked, hat]; exact hfile)
    rcases onRead_cases copy check file mountPassword with ⟨hto, -⟩ | ⟨hto, -⟩ <;>
      rw [hto] at hjudged ⊢
    all_goals
      refine .of_copied rfl hjudged hcopy (fun c hc => ?_) hprompt
        (fun f p hp => ?_) fun ha f hf => ?_
      · rw [← Option.some.inj hc]
        exact hcheck
      · rw [← (Prod.mk.inj (Option.some.inj hp)).1]
        exact hauto
      · rw [← Option.some.inj hf]
        exact htime ha
  | @forgets copy check file mountPassword secret hat hremoved =>
    have hcopy := h.copy copy (by rw [hat]; rfl)
    refine .of_copied rfl hjudged hcopy (fun c hc => ?_) hprompt
      (fun f p hp => ?_) fun ha f hf => ?_
    · exact h.check copy c (by rw [hat]; rfl) (by rw [hat]; exact hc)
    · exact h.hand copy f p (by rw [hat]; rfl) (by rw [hat]; exact hp)
    · exact h.inTime copy f (by rw [hat]; rfl) ha (by rw [World.checked, hat]; exact hf)
  | uses _ _ hend => rcases hend with rfl | rfl <;> exact .of_copy rfl hprompt

/-- **An orderly step keeps the host and the files in order.** -/
theorem InOrder.step (h : InOrder w) (hstep : OrderlyStep master w e w') : InOrder w' := by
  obtain ⟨cmd, hcmd, horderly⟩ := hstep
  cases advance_effect hcmd with
  | gui hgui => exact h.gui hgui horderly
  | reader hreader => exact h.reader hreader horderly
  | dies => exact .of_copy rfl h.prompt
  | @clock _ now =>
    refine ⟨h.judged, h.copy, h.check, h.prompt, h.hand, fun copy file hcopy hauto hfile => ?_⟩
    by_cases hnow : now = w.now
    · subst hnow
      exact h.inTime copy file hcopy hauto hfile
    · exact horderly.clock hnow copy hcopy hauto file hfile
  | began => exact h
  | @starts _ copy hidle hstored =>
    exact .of_copied rfl trivial hstored (fun _ hc => nomatch hc) h.prompt
      (fun _ _ hp => nomatch hp) fun _ _ hf => nomatch hf

/-! ## Spent secrets -/

/-- The secret with the number has been written, and is not there any more. -/
def World.Gone (w : World) (id : ℕ) : Prop :=
  id < w.writes ∧ ∀ file, w.secret = some file → file.stamp.id ≠ id

/-- Secrets are numbered. -/
def World.Numbered (w : World) : Prop := ∀ file, w.secret = some file → file.stamp.id < w.writes

/-- What a step may do to the secret. -/
inductive SecretEffect (w w' : World) : Prop where
  | kept : (∀ file, w'.secret = some file → ∃ file', w.secret = some file' ∧
      file.stamp = file'.stamp) → w'.writes = w.writes → SecretEffect w w'
  | written {file : SecretFile} : w'.secret = some file → file.stamp.id = w.writes →
      w'.writes = w.writes + 1 → SecretEffect w w'

omit [Crypto] [KeyCrypto] [Dpapi] in
theorem SecretEffect.of_removed (hsecret : w'.secret = none ∨ w'.secret = w.secret)
    (hwrites : w'.writes = w.writes) : SecretEffect w w' := by
  refine .kept (fun file hfile => ?_) hwrites
  rcases hsecret with hnone | hsame
  · exact absurd (hfile.symm.trans hnone) (by simp)
  · exact ⟨file, hsame ▸ hfile, rfl⟩

theorem Effect.secret (h : Effect master w cmd e w') : SecretEffect w w' := by
  cases h with
  | gui h =>
    cases h with
    | created => exact .written rfl rfl rfl
    | writes =>
      refine .kept (fun file hfile => ?_) rfl
      obtain ⟨file', hfile', rfl⟩ := Option.map_eq_some_iff.mp hfile
      exact ⟨file', hfile', rfl⟩
    | dropped hsecret => exact .of_removed hsecret rfl
    | _ => exact .of_removed (Or.inr rfl) rfl
  | reader h => exact .of_removed h.secret h.keeps.2.2.1
  | _ => exact .of_removed (Or.inr rfl) rfl

omit [Crypto] [KeyCrypto] [Dpapi] in
theorem SecretEffect.numbered (h : SecretEffect w w') (hw : w.Numbered) : w'.Numbered := by
  intro file hfile
  cases h with
  | kept hsecret hwrites =>
    obtain ⟨file', hfile', hstamp⟩ := hsecret file hfile
    rw [hwrites, hstamp]
    exact hw file' hfile'
  | written hsecret hid hwrites =>
    obtain rfl := Option.some.inj (hfile.symm.trans hsecret)
    omega

omit [Crypto] [KeyCrypto] [Dpapi] in
/-- **What is gone stays gone.** -/
theorem SecretEffect.gone (h : SecretEffect w w') {id : ℕ} (hw : w.Gone id) : w'.Gone id := by
  obtain ⟨hid, hgone⟩ := hw
  cases h with
  | kept hsecret hwrites =>
    refine ⟨by omega, fun file hfile => ?_⟩
    obtain ⟨file', hfile', hstamp⟩ := hsecret file hfile
    rw [hstamp]
    exact hgone file' hfile'
  | written hsecret hnew hwrites =>
    refine ⟨by omega, fun file hfile => ?_⟩
    obtain rfl := Option.some.inj (hfile.symm.trans hsecret)
    omega

omit [Crypto] [KeyCrypto] [Dpapi] in
theorem SecretEffect.writes (h : SecretEffect w w') : w.writes ≤ w'.writes := by
  cases h <;> omega

/-- A password is used. -/
def Event.isUse : Event → Bool
  | .used _ _ _ _ => true
  | _ => false

/-- The host that uses a secret goes by "prompt", or does not use it twice. -/
def Dropped (e e' : Event) : Prop :=
  ∀ copy check file result copy' check' file' result', e = .used copy check file result →
    e' = .used copy' check' file' result' → file.stamp.id = file'.stamp.id → copy.autoUnlock = true

/-- A secret that was written under "prompt" is not used again. -/
def OneShot (e e' : Event) : Prop :=
  ∀ copy check file result copy' check' file' result', e = .used copy check file result →
    e' = .used copy' check' file' result' → file.stamp = file'.stamp → file.prompt = false

/-- **The invariant**: what a host has in hand was written, and what it has used under "prompt", or
is about to, is gone and in nobody's hand. -/
structure Spent (events : List Event) (w : World) : Prop where
  numbered : w.Numbered
  inHand : ∀ file mountPassword, w.reader.inHand = some (file, mountPassword) →
    file.stamp.id < w.writes
  opening : ∀ copy check file mountPassword, w.reader = .opening copy check file mountPassword →
    copy.autoUnlock = false → w.Gone file.stamp.id
  used : ∀ copy check file result, .used copy check file result ∈ events → copy.autoUnlock = false →
    w.Gone file.stamp.id ∧ ∀ file' mountPassword, w.reader.inHand = some (file', mountPassword) →
      file'.stamp.id ≠ file.stamp.id
  once : events.Pairwise Dropped

omit [Crypto] [KeyCrypto] [Dpapi] in
/-- Nothing is used twice by a step that uses nothing. -/
theorem pairwise_quiet (h : events.Pairwise Dropped) (he : e.isUse = false) :
    (events ++ [e]).Pairwise Dropped := by
  refine List.pairwise_append.mpr ⟨h, List.pairwise_singleton _ _, fun e₁ _ e₂ he₂ => ?_⟩
  rw [List.mem_singleton.mp he₂]
  intro _ _ _ _ _ _ _ _ _ hused
  rw [hused] at he
  exact absurd he.symm Bool.false_ne_true

omit [Crypto] [KeyCrypto] [Dpapi] in
/-- A step that uses nothing, to a host that has nothing new in hand. -/
theorem Spent.quiet (h : Spent events w) (hsecret : SecretEffect w w')
    (he : e.isUse = false)
    (hinHand : ∀ file p, w'.reader.inHand = some (file, p) → w.reader.inHand = some (file, p))
    (hopening : ∀ copy check file p, w'.reader = .opening copy check file p →
      copy.autoUnlock = false → w'.Gone file.stamp.id) : Spent (events ++ [e]) w' := by
  refine ⟨hsecret.numbered h.numbered, fun file p hp => ?_, hopening,
    fun copy check file result hmem hprompt => ?_, pairwise_quiet h.once he⟩
  · exact lt_of_lt_of_le (h.inHand file p (hinHand file p hp)) hsecret.writes
  · rcases List.mem_append.mp hmem with hmem | hmem
    · obtain ⟨hgone, hother⟩ := h.used copy check file result hmem hprompt
      exact ⟨hsecret.gone hgone, fun file' p hp => hother file' p (hinHand file' p hp)⟩
    · rw [← List.mem_singleton.mp hmem] at he
      exact absurd he.symm Bool.false_ne_true

theorem Spent.step (h : Spent events w) (hstep : RemovingStep master w e w') :
    Spent (events ++ [e]) w' := by
  obtain ⟨cmd, hcmd, hremoves⟩ := hstep
  have heffect := advance_effect hcmd
  have hsecret := heffect.secret
  -- the host stays where it is
  have hsame : w'.reader = w.reader → e.isUse = false →
      Spent (events ++ [e]) w' := fun hreader he =>
    h.quiet hsecret he (fun file p hp => hreader ▸ hp) fun copy check file p hp hprompt =>
      hsecret.gone (h.opening copy check file p (hreader ▸ hp) hprompt)
  -- the host has nothing in hand any more
  have hempty : e.isUse = false → w'.reader.inHand = none → Spent (events ++ [e]) w' :=
    fun he hnone =>
    h.quiet hsecret he (fun file p hp => absurd (hp.symm.trans hnone) (by simp))
      fun copy check file p hp _ => absurd hnone (by rw [hp]; simp [Reader.inHand])
  cases heffect with
  | gui hgui => exact hsame hgui.reader.1 (by cases hgui <;> rfl)
  | dies => exact hempty rfl rfl
  | clock => exact hsame rfl rfl
  | began => exact hsame rfl rfl
  | starts => exact hempty rfl rfl
  | reader hreader =>
    cases hreader with
    | ends => exact hempty rfl rfl
    | finds => exact hempty rfl rfl
    | skips => exact hempty rfl rfl
    | loads => exact hempty rfl (onStored_inHand _ _)
    | ages => exact hempty rfl (onAge_inHand _ _)
    | dropsSecret => exact hempty rfl rfl
    | refuses => exact hempty rfl rfl
    | @reads copy check file mountPassword hallowed hfile =>
      have hread : ∀ file' p, (onRead copy check file mountPassword).inHand = some (file', p) →
          file' = file := fun file' p hp => by
        rw [onRead_inHand] at hp
        exact (Prod.mk.inj (Option.some.inj hp)).1.symm
      refine ⟨h.numbered, fun file' p hp => ?_, fun copy' check' file' p hp hprompt => ?_,
        fun copy' check' file' result hmem hprompt => ?_, pairwise_quiet h.once rfl⟩
      · rw [hread file' p hp]
        exact h.numbered file hfile
      · rcases onRead_cases copy check file mountPassword with ⟨hto, hauto⟩ | ⟨hto, -⟩
        · obtain ⟨rfl, -⟩ := Reader.opening.inj (hto.symm.trans hp)
          exact absurd (hprompt.symm.trans hauto) Bool.false_ne_true
        · exact absurd (hto.symm.trans hp) nofun
      · rcases List.mem_append.mp hmem with hmem | hmem
        · have hgone := (h.used copy' check' file' result hmem hprompt).1
          refine ⟨hgone, fun file'' p hp => ?_⟩
          rw [hread file'' p hp]
          exact hgone.2 file hfile
        · exact absurd (List.mem_singleton.mp hmem) nofun
    | @forgets copy check file mountPassword secret hholding hremoved =>
      have hdone : (Command.reader _).access = .done := hremoves (by rw [Command.removes, hholding])
      have hnone : secret = none := hremoved.resolve_right fun hfail => hfail.1 hdone
      refine h.quiet hsecret rfl (fun file' p hp => ?_) fun copy' check' file' p hp _ => ?_
      · rw [hholding]
        exact hp
      · obtain ⟨-, -, rfl, -⟩ := Reader.opening.inj hp
        refine ⟨h.inHand file mountPassword (by rw [hholding]; rfl), fun file' hfile => ?_⟩
        exact absurd (hnone.symm.trans hfile) (by simp)
    | @uses copy check file mountPassword capsule reader hopening _ hend =>
      have hnone : reader.inHand = none := by rcases hend with rfl | rfl <;> rfl
      have hhand : w.reader.inHand = some (file, mountPassword) := by rw [hopening]; rfl
      refine ⟨h.numbered, fun file' p hp => absurd (hp.symm.trans hnone) (by simp),
        fun copy' check' file' p hp _ => ?_, fun copy' check' file' result hmem hprompt => ?_, ?_⟩
      · rcases hend with rfl | rfl <;> exact absurd hp nofun
      · refine ⟨?_, fun file₂ p hp => absurd (hp.symm.trans hnone) (by simp)⟩
        rcases List.mem_append.mp hmem with hmem | hmem
        · exact (h.used copy' check' file' result hmem hprompt).1
        · obtain ⟨rfl, rfl, rfl, -⟩ := Event.used.inj (List.mem_singleton.mp hmem)
          exact h.opening copy' check' file' mountPassword hopening hprompt
      · refine List.pairwise_append.mpr ⟨h.once, List.pairwise_singleton _ _,
          fun e₁ he₁ e₂ he₂ => ?_⟩
        rw [List.mem_singleton.mp he₂]
        intro copy₁ check₁ file₁ result₁ copy₂ check₂ file₂ result₂ hused₁ hused₂ hid
        obtain ⟨-, -, rfl, -⟩ := Event.used.inj hused₂
        by_contra hprompt
        have hother := (h.used copy₁ check₁ file₁ result₁ (hused₁ ▸ he₁)
          (Bool.eq_false_iff.mpr hprompt)).2 file mountPassword hhand
        exact hother hid.symm

/-! ## Runs -/

omit [Crypto] [KeyCrypto] [Dpapi] in
theorem InOrder.start (hquiet : w₀.Quiet) (hnone : w₀.secret = none) : InOrder w₀ := by
  refine .of_copy ?_ fun file _ hfile => absurd (hfile.symm.trans hnone) (by simp)
  rw [hquiet.2]
  rfl

omit [Crypto] [KeyCrypto] [Dpapi] in
theorem Spent.start (hquiet : w₀.Quiet) (hnone : w₀.secret = none) : Spent [] w₀ := by
  refine ⟨fun file hfile => absurd (hfile.symm.trans hnone) (by simp), fun file p hp => ?_,
    fun copy check file p hp => ?_, fun _ _ _ _ hmem => absurd hmem List.not_mem_nil, .nil⟩
  · rw [hquiet.2] at hp
    exact absurd hp (by simp [Reader.inHand])
  · exact absurd (hquiet.2.symm.trans hp) (by simp)

theorem OrderlyStep.removing (h : OrderlyStep master w e w') : RemovingStep master w e w' := by
  obtain ⟨cmd, hcmd, horderly⟩ := h
  exact ⟨cmd, hcmd, horderly.removals⟩

theorem inOrder_run (hquiet : w₀.Quiet) (hnone : w₀.secret = none)
    (hrun : Run (OrderlyStep master) w₀ events w) : InOrder w :=
  hrun.invariant (.start hquiet hnone) fun _ _ _ h hstep => h.step hstep

theorem spent_run (hquiet : w₀.Quiet) (hnone : w₀.secret = none)
    (hrun : Run (OrderlyStep master) w₀ events w) : Spent events w := by
  induction hrun with
  | refl => exact .start hquiet hnone
  | step _ hlast ih => exact ih.step hlast.removing

/-- Where a step that uses a password comes from. -/
theorem used_inv {copy : MountEntry} {check : Check} {file : SecretFile}
    {result : Option (Except Error MasterKey)}
    (h : OrderlyStep master w (.used copy check file result) w') :
    ∃ mountPassword, w.reader = .opening copy check file mountPassword := by
  obtain ⟨cmd, hcmd, -⟩ := h
  cases advance_effect hcmd with
  | gui heffect => cases heffect
  | reader heffect =>
    cases heffect with
    | uses hreader => exact ⟨_, hreader⟩

/-- **What is used** is used in time, under a policy that allows it. -/
theorem InOrder.used (h : InOrder w) {copy : MountEntry} {check : Check} {file : SecretFile}
    {result : Option (Except Error MasterKey)}
    (hstep : OrderlyStep master w (.used copy check file result) w') :
    w.stored = some copy ∧ (file.prompt = true → copy.autoUnlock = false) ∧
      (copy.autoUnlock = false → file.InTime w.now) ∧
      (copy.autoUnlock = true → copy.autoMount = true) := by
  obtain ⟨p, hat⟩ := used_inv hstep
  have hcopy : w.reader.copy = some copy := by rw [hat]; rfl
  have hpasses : check.Passes := by
    have hjudged := h.judged
    rwa [hat] at hjudged
  have hcheck := h.check copy check hcopy (by rw [hat]; rfl)
  exact ⟨h.copy copy hcopy, h.hand copy file p hcopy (by rw [hat]; rfl),
    fun hauto => h.inTime copy file hcopy hauto (by rw [World.checked, hat]),
    (hpasses copy hcheck).1⟩

/-! ## What is stale is removed -/

/-- The host is about to find that the stored entry does not allow the secret, or that the secret is
too old. -/
def World.Condemned (w : World) : Prop :=
  (∃ copy stored, w.reader = .found copy ∧ w.stored = some stored ∧ stored.autoUnlock = true ∧
    stored.autoMount = false) ∨
  ∃ copy stored file, w.reader = .ageing copy stored ∧ w.secret = some file ∧ ¬file.InTime w.now

/-- **The host turns away** from what is stale. -/
theorem World.Condemned.rejects {access : Access} (h : w.Condemned)
    (hcmd : advance master (.reader access) w = some (e, w'))
    (horderly : Orderly (.reader access) w w') :
    ∃ check, w'.reader = .stale check := by
  rcases h with ⟨copy, stored, hat, hstored, hunlock, hmount⟩ |
    ⟨copy, stored, file, hat, hfile, hlate⟩
  · have hloaded : access = .done := horderly.loads (by rw [Command.loads, hat])
    have hto : onStored copy stored = .stale ⟨some stored, none⟩ := by
      simp [onStored, hunlock, hmount]
    simp only [advance, readerStep, hat, hloaded, if_pos, hstored, hto] at hcmd
    obtain ⟨-, rfl⟩ := Prod.mk.inj (Option.some.inj hcmd)
    exact ⟨_, rfl⟩
  · simp only [advance, readerStep, hat] at hcmd
    obtain ⟨-, rfl⟩ := Prod.mk.inj (Option.some.inj hcmd)
    refine ⟨_, if_neg fun hfresh => ?_⟩
    obtain ⟨age, hage, hpos, hmax⟩ := Check.isFresh_iff.mp hfresh
    dsimp only at hage
    split at hage
    · rw [hfile] at hage
      obtain rfl := Option.some.inj hage
      exact hlate ⟨hpos, hmax⟩
    · exact absurd hage (by simp)

/-- The host stays where it is until it removes the secret. -/
theorem stale_step {check : Check} (hat : w.reader = .stale check) (h : OrderlyStep master w e w') :
    w'.reader = .stale check ∨ w'.reader = .secretRemoved check ∧ w'.secret = none := by
  obtain ⟨cmd, hcmd, horderly⟩ := h
  cases advance_effect hcmd with
  | gui hgui => exact Or.inl (hgui.reader.1.trans hat)
  | dies => exact absurd (horderly.alive rfl) (by rw [hat]; simp [Reader.rejected])
  | clock => exact Or.inl hat
  | began hidle => exact absurd (hidle.symm.trans hat) (by simp)
  | starts hidle => exact absurd (hidle.symm.trans hat) (by simp)
  | reader hreader =>
    cases hreader with
    | ends hnone => exact absurd hnone (by rw [hat]; simp [Reader.rejected])
    | dropsSecret hstale hremoved =>
      have hdone : (Command.reader _).access = .done :=
        horderly.removals (by rw [Command.removes, hat])
      obtain rfl := Reader.stale.inj (hstale.symm.trans hat)
      exact Or.inr ⟨rfl, hremoved.resolve_right fun hfail => hfail.1 hdone⟩
    | finds helse | skips helse | loads helse | ages helse | refuses helse | reads helse
    | forgets helse
    | uses helse => exact absurd (helse.symm.trans hat) (by simp)

/-- And then until it removes the capsule. -/
theorem secretRemoved_step {check : Check} (hat : w.reader = .secretRemoved check)
    (h : OrderlyStep master w e w') : w'.reader = .secretRemoved check ∨ w'.capsule = none := by
  obtain ⟨cmd, hcmd, horderly⟩ := h
  cases advance_effect hcmd with
  | gui hgui => exact Or.inl (hgui.reader.1.trans hat)
  | dies => exact absurd (horderly.alive rfl) (by rw [hat]; simp [Reader.rejected])
  | clock => exact Or.inl hat
  | began hidle => exact absurd (hidle.symm.trans hat) (by simp)
  | starts hidle => exact absurd (hidle.symm.trans hat) (by simp)
  | reader hreader =>
    cases hreader with
    | ends hnone => exact absurd hnone (by rw [hat]; simp [Reader.rejected])
    | refuses _ hremoved =>
      have hdone : (Command.reader _).access = .done :=
        horderly.removals (by rw [Command.removes, hat])
      exact Or.inr (hremoved.resolve_right fun hfail => hfail.1 hdone)
    | finds helse | skips helse | loads helse | ages helse | dropsSecret helse | reads helse
    | forgets helse | uses helse => exact absurd (helse.symm.trans hat) (by simp)

/-- A host that has turned away removes the two files, one after the other. -/
inductive Clearing (master : MasterKey) (u : World) (events : List Event) (w : World) : Prop where
  | stale {check : Check} : w.reader = .stale check → Clearing master u events w
  | half {check : Check} : w.reader = .secretRemoved check →
      Sometime (OrderlyStep master) u events w (fun v => v.secret = none) →
      Clearing master u events w
  | cleared : Sometime (OrderlyStep master) u events w (fun v => v.secret = none) →
      Sometime (OrderlyStep master) u events w (fun v => v.capsule = none) →
      Clearing master u events w

theorem clearing_run {u : World} {check : Check} (hstale : u.reader = .stale check)
    (hrun : Run (OrderlyStep master) u events w) : Clearing master u events w := by
  induction hrun with
  | refl => exact .stale hstale
  | step hrun hstep ih =>
    have hafter := hrun.step hstep
    cases ih with
    | stale hat =>
      rcases stale_step hat hstep with hsame | ⟨hto, hgone⟩
      · exact .stale hsame
      · exact .half hto (hafter.sometime hgone)
    | half hat hsecret =>
      rcases secretRemoved_step hat hstep with hsame | hgone
      · exact .half hsame (hsecret.later hstep)
      · exact .cleared (hsecret.later hstep) (hafter.sometime hgone)
    | cleared hsecret hcapsule => exact .cleared (hsecret.later hstep) (hcapsule.later hstep)

/-- **Temporary credentials are one-shot and expire**, in a run of orderly steps.  A secret that was
written under "prompt" is not used twice; what is used under "prompt" is in time, and nothing is
used under a policy that does not mount; and when a host comes upon a secret that is not in time, or
that the policy does not allow, then at its end secret and capsule have been removed. -/
theorem temporary_credentials (hquiet : w₀.Quiet) (hnone : w₀.secret = none)
    (hrun : Run (OrderlyStep master) w₀ events w) :
    events.Pairwise OneShot ∧
    (∀ copy check file result w', OrderlyStep master w (.used copy check file result) w' →
      ∀ stored, w.stored = some stored → (stored.autoUnlock = false → file.InTime w.now) ∧
        (stored.autoUnlock = true → stored.autoMount = true)) ∧
    ∀ access e u events' v, w.Condemned → advance master (.reader access) w = some (e, u) →
      Orderly (.reader access) w u → Run (OrderlyStep master) u events' v →
      v.reader.rejected = none →
      Sometime (OrderlyStep master) u events' v (fun x => x.secret = none) ∧
        Sometime (OrderlyStep master) u events' v (fun x => x.capsule = none) := by
  have horder := inOrder_run hquiet hnone hrun
  refine ⟨?_, fun copy check file result w' hstep stored hstored => ?_,
    fun access e u events' v hcondemned hcmd horderly hrest hover => ?_⟩
  · -- what was written under "prompt" was used under "prompt"
    have hprompt : ∀ e ∈ events, ∀ copy check file result, e = .used copy check file result →
        file.prompt = true → copy.autoUnlock = false := by
      refine hrun.labels (InOrder.start hquiet hnone) fun u e u' h hstep => ⟨h.step hstep, ?_⟩
      rintro copy check file result rfl
      exact (h.used hstep).2.1
    refine (spent_run hquiet hnone hrun).once.imp_of_mem fun {e e'} he _ hdropped => ?_
    intro copy check file result copy' check' file' result' hused hused' hstamp
    have hauto :=
      hdropped copy check file result copy' check' file' result' hused hused' (by rw [hstamp])
    by_contra hnot
    have hoff := hprompt e he copy check file result hused (Bool.eq_true_of_not_eq_false hnot)
    exact Bool.false_ne_true (hoff.symm.trans hauto)
  · obtain ⟨hcopy, -, htime, hmount⟩ := horder.used hstep
    obtain rfl := Option.some.inj (hcopy.symm.trans hstored)
    exact ⟨htime, hmount⟩
  · obtain ⟨check, hstale⟩ := hcondemned.rejects hcmd horderly
    cases clearing_run hstale hrest with
    | stale hat => exact absurd hover (by rw [hat]; simp [Reader.rejected])
    | half hat => exact absurd hover (by rw [hat]; simp [Reader.rejected])
    | cleared hsecret hcapsule => exact ⟨hsecret, hcapsule⟩

/-! ## Runs that can be computed -/

/-- The step at a command, if a removal in it succeeds. -/
def removingNext (master : MasterKey) (w : World) (cmd : Command) : Option (Event × World) :=
  if cmd.removes w = true ∧ cmd.access ≠ .done then none else advance master cmd w

theorem removingNext_step (h : removingNext master w cmd = some (e, w')) :
    RemovingStep master w e w' := by
  unfold removingNext at h
  split at h
  · exact absurd h (by simp)
  · next hremoves => exact ⟨cmd, h, fun hr => by_contra fun hfail => hremoves ⟨hr, hfail⟩⟩

/-- The step at a command, if it is orderly. -/
def orderlyNext (master : MasterKey) (w : World) (cmd : Command) : Option (Event × World) :=
  (advance master cmd w).filter fun r => decide (Orderly cmd w r.2)

theorem orderlyNext_step (h : orderlyNext master w cmd = some (e, w')) :
    OrderlyStep master w e w' := by
  obtain ⟨hcmd, horderly⟩ := Option.filter_eq_some_iff.mp h
  exact ⟨cmd, hcmd, of_decide_eq_true horderly⟩

/-- A step in which every file access succeeds. -/
def SmoothStep (master : MasterKey) (w : World) (e : Event) (w' : World) : Prop :=
  ∃ cmd, advance master cmd w = some (e, w') ∧ cmd.access = .done

/-- The step at a command, if its file access succeeds. -/
def smoothNext (master : MasterKey) (w : World) (cmd : Command) : Option (Event × World) :=
  if cmd.access = .done then advance master cmd w else none

theorem smoothNext_step (h : smoothNext master w cmd = some (e, w')) :
    SmoothStep master w e w' := by
  unfold smoothNext at h
  split at h
  · next hdone => exact ⟨cmd, h, hdone⟩
  · exact absurd h (by simp)

omit [Crypto] [KeyCrypto] [Dpapi] in
/-- The capsule has been opened. -/
def Event.opens : Event → Bool
  | .used _ _ _ (some (.ok _)) => true
  | _ => false

omit [Crypto] [KeyCrypto] [Dpapi] in
/-- After the commands there is the state that is asked for, and then the capsule is opened. -/
def reaches (next : World → Command → Option (Event × World)) (w : World) (cmds : List Command)
    (test : World → Bool) : Bool :=
  match execute next cmds w with
  | some (_, u) =>
    test u && match next u (.reader .done) with
      | some (e, _) => e.opens
      | none => false
  | none => false

omit [Crypto] [KeyCrypto] [Dpapi] in
theorem exists_use {next : World → Command → Option (Event × World)}
    {step : World → Event → World → Prop}
    (hstep : ∀ w cmd e w', next w cmd = some (e, w') → step w e w') {cmds : List Command}
    {test : World → Bool} (h : reaches next w cmds test = true) :
    ∃ es u e u', Run step w es u ∧ test u = true ∧ step u e u' ∧ e.opens = true := by
  unfold reaches at h
  split at h
  · next es u hes =>
    obtain ⟨htest, hnext⟩ := Bool.and_eq_true_iff.mp h
    split at hnext
    · next e u' he =>
      exact ⟨es, u, e, u', execute_run (fun cmd _ w e w' => hstep w cmd e w') hes, htest,
        hstep _ _ _ _ he, hnext⟩
    · exact absurd hnext Bool.false_ne_true
  · exact absurd h Bool.false_ne_true

theorem exists_removing_use {cmds : List Command} {test : World → Bool}
    (h : reaches (removingNext master) w cmds test = true) :
    ∃ es u e u', Run (RemovingStep master) w es u ∧ test u = true ∧ RemovingStep master u e u' ∧
      e.opens = true :=
  @exists_use w (removingNext master) _ (fun _ _ _ _ => removingNext_step) _ _ h

theorem exists_smooth_use {cmds : List Command} {test : World → Bool}
    (h : reaches (smoothNext master) w cmds test = true) :
    ∃ es u e u', Run (SmoothStep master) w es u ∧ test u = true ∧ SmoothStep master u e u' ∧
      e.opens = true :=
  @exists_use w (smoothNext master) _ (fun _ _ _ _ => smoothNext_step) _ _ h

end

/-! ## An hour-old secret -/

/-- The stored policy is "prompt", and the host is about to use a secret that is too old. -/
def World.usesLate (w : World) : Bool :=
  match w.reader, w.stored with
  | .opening _ _ file _, some stored => !stored.autoUnlock && !decide (file.InTime w.now)
  | _, _ => false

/-- The stored policy does not mount, and the host is about to use a secret. -/
def World.usesDisabled (w : World) : Bool :=
  match w.reader, w.stored with
  | .opening _ _ _ _, some stored => stored.autoUnlock && !stored.autoMount
  | _, _ => false

def anHour : ℤ := 3600 * 10 ^ 9

/-- A host starts and finds the secret. -/
def findingHost : List Command := [.run .done, .reader .done]

/-- The secret is an hour old, and the entry cannot be read. -/
def unread : List Command :=
  preparation firstDraw ++ findingHost ++ [.clock anHour, .reader .failed,
    .reader .done, .reader .done]

/-- The secret is an hour old, and the entry is just being written. -/
def unwritten : List Command :=
  preparation firstDraw ++ findingHost ++
    [.clock anHour, .save promptEntry, .gui .done, .reader .done, .gui .done,
      .reader .done, .reader .done]

/-- **A policy that cannot be read is passed**: an hour-old secret is used, also when no file access
fails. -/
theorem unread_policy_is_passed :
    let _ := tableCrypto [secondSealing]
    let _ := plainKeyCrypto
    let _ := markingDpapi
    (∃ es u e u', Run (RemovingStep sampleMaster) (registered promptEntry) es u ∧
      u.usesLate = true ∧ RemovingStep sampleMaster u e u' ∧ e.opens = true) ∧
    ∃ es u e u', Run (SmoothStep sampleMaster) (registered promptEntry) es u ∧ u.usesLate = true ∧
      SmoothStep sampleMaster u e u' ∧ e.opens = true := by
  let _ := tableCrypto [secondSealing]
  let _ := plainKeyCrypto
  let _ := markingDpapi
  constructor
  · have hreaches : reaches (removingNext sampleMaster) (registered promptEntry) unread
        World.usesLate = true := by decide +kernel
    exact exists_removing_use hreaches
  · have hreaches : reaches (smoothNext sampleMaster) (registered promptEntry) unwritten
        World.usesLate = true := by decide +kernel
    exact exists_smooth_use hreaches

/-! ## Where the policy changes -/

def autoEntry : MountEntry := { promptEntry with autoUnlock := true }
def disabledEntry : MountEntry := { promptEntry with autoMount := false, autoUnlock := true }

/-- The first secret, which was written under "prompt", has opened the capsule. -/
def usedFirst : Event → Bool
  | .used _ _ file (some (.ok _)) => file.stamp.id == 0 && file.prompt
  | _ => false

/-- A host starts, finds the secret and loads the stored entry. -/
def startingHost : List Command := findingHost ++ [.reader .done]

/-- The policy is changed to automatic, and the volume mounted and detached twice. -/
def automating : List Command :=
  .policy autoEntry true firstDraw ::
    [.gui .done, .gui .done, .gui .done, .gui .done, .gui .done, .gui .done] ++
    startingHost ++ [.reader .done, .reader .done, .reader .done] ++
    startingHost ++ [.reader .done, .reader .done, .reader .done]

/-- **A secret that was written under "prompt" is used twice**, since the entry is made automatic as
soon as its secret is there. -/
theorem secret_used_twice :
    let _ := tableCrypto [secondSealing]
    let _ := plainKeyCrypto
    let _ := markingDpapi
    ∃ events w, Run (SmoothStep sampleMaster) (registered promptEntry) events w ∧
      (events.filter usedFirst).length = 2 := by
  let _ := tableCrypto [secondSealing]
  let _ := plainKeyCrypto
  let _ := markingDpapi
  obtain ⟨events, w, hrun, hused⟩ := @exists_run_of_execute _ _ _ (SmoothStep sampleMaster)
    (smoothNext sampleMaster) automating (registered promptEntry)
    (fun events _ => (events.filter usedFirst).length == 2) (fun _ _ _ _ _ => smoothNext_step)
    (by decide +kernel)
  exact ⟨events, w, hrun, beq_iff_eq.mp hused⟩

/-- The secret is exactly as old as it may be at the check, and the clock goes on. -/
def expiring : List Command :=
  preparation firstDraw ++ startingHost ++
    [.clock temporaryMountSecretTtl, .reader .done, .clock (temporaryMountSecretTtl + 1),
      .reader .done, .reader .done]

/-- The policy is changed when the host has loaded the entry. -/
def disabling : List Command :=
  preparation firstDraw ++ startingHost ++ [.save disabledEntry, .gui .done,
    .gui .done, .reader .done]

/-- **A secret that should not be used any more is used**, by a host that has checked it before. -/
theorem checked_too_early :
    let _ := tableCrypto [secondSealing]
    let _ := plainKeyCrypto
    let _ := markingDpapi
    (∃ es u e u', Run (SmoothStep sampleMaster) (registered promptEntry) es u ∧ u.usesLate = true ∧
      SmoothStep sampleMaster u e u' ∧ e.opens = true) ∧
    ∃ es u e u', Run (SmoothStep sampleMaster) (registered autoEntry) es u ∧ u.usesDisabled = true ∧
      SmoothStep sampleMaster u e u' ∧ e.opens = true := by
  let _ := tableCrypto [secondSealing]
  let _ := plainKeyCrypto
  let _ := markingDpapi
  constructor
  · have hreaches : reaches (smoothNext sampleMaster) (registered promptEntry) expiring
        World.usesLate = true := by decide +kernel
    exact exists_smooth_use hreaches
  · have hreaches : reaches (smoothNext sampleMaster) (registered autoEntry) disabling
        World.usesDisabled = true := by decide +kernel
    exact exists_smooth_use hreaches

/-- **The policy is passed**: an hour-old secret is used under "prompt", when the entry cannot be
loaded or is just being written; and what is found at a check, or written under a policy, does not
hold at the next use: a secret is used twice, one too late, and one under a policy that does not
mount. -/
theorem policy_passed :
    let _ := tableCrypto [secondSealing]
    let _ := plainKeyCrypto
    let _ := markingDpapi
    ((∃ es u e u', Run (RemovingStep sampleMaster) (registered promptEntry) es u ∧
      u.usesLate = true ∧ RemovingStep sampleMaster u e u' ∧ e.opens = true) ∧
    ∃ es u e u', Run (SmoothStep sampleMaster) (registered promptEntry) es u ∧ u.usesLate = true ∧
      SmoothStep sampleMaster u e u' ∧ e.opens = true) ∧
    (∃ events w, Run (SmoothStep sampleMaster) (registered promptEntry) events w ∧
      (events.filter usedFirst).length = 2) ∧
    (∃ es u e u', Run (SmoothStep sampleMaster) (registered promptEntry) es u ∧ u.usesLate = true ∧
      SmoothStep sampleMaster u e u' ∧ e.opens = true) ∧
    ∃ es u e u', Run (SmoothStep sampleMaster) (registered autoEntry) es u ∧ u.usesDisabled = true ∧
      SmoothStep sampleMaster u e u' ∧ e.opens = true :=
  ⟨unread_policy_is_passed, secret_used_twice, checked_too_early⟩

/-- A host with the policy "prompt", some time after the secret was written: it is used, and not a
second time; the next secret is not used when it is too old, but removed with the capsule. -/
theorem temporary_credentials_prompt :
    let _ := tableCrypto [secondSealing]
    let _ := plainKeyCrypto
    let _ := markingDpapi
    ∃ (events : List Event) (w : World), (events.filter usedFirst).length = 1 ∧
      (events.filter Event.opens).length = 1 ∧ w.secret = none ∧ w.capsule = none ∧
      events.Pairwise OneShot := by
  let _ := tableCrypto [secondSealing]
  let _ := plainKeyCrypto
  let _ := markingDpapi
  obtain ⟨events, w, hrun, htest⟩ := @exists_run_of_execute _ _ _ (OrderlyStep sampleMaster)
    (orderlyNext sampleMaster)
    (preparation firstDraw ++ .clock temporaryMountSecretTtl :: startingHost ++
      [.reader .done, .clock 7, .reader .done, .reader .done, .reader .done, .readerDies] ++
      preparation secondDraw ++ .clock anHour :: startingHost ++
        [.reader .done, .reader .done, .reader .done])
    (registered promptEntry)
    (fun events w =>
      (events.filter usedFirst).length == 1 && (events.filter Event.opens).length == 1 &&
      (w.secret.isNone && w.capsule.isNone))
    (fun _ _ _ _ _ => orderlyNext_step) (by decide +kernel)
  obtain ⟨hcounts, hgone⟩ := Bool.and_eq_true_iff.mp htest
  obtain ⟨hfirst, hopened⟩ := Bool.and_eq_true_iff.mp hcounts
  obtain ⟨hsecret, hcapsule⟩ := Bool.and_eq_true_iff.mp hgone
  exact ⟨events, w, beq_iff_eq.mp hfirst, beq_iff_eq.mp hopened,
    Option.isNone_iff_eq_none.mp hsecret, Option.isNone_iff_eq_none.mp hcapsule,
    (temporary_credentials ⟨rfl, rfl⟩ rfl hrun).1⟩

end OrIsyVra.Mount.Credentials
