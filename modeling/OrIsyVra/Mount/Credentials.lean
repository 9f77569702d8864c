import OrIsyVra.Files.Capsules
import OrIsyVra.Library.Runs
import OrIsyVra.Mount.Entries

/-!
# Mount credentials

To mount a volume without its user, the desktop application leaves two files for the mount host: a
key capsule that holds the master key under a random mount password, and that password, protected
for the current user.  The policy of the entry, in a third file, says whether the password may be
kept.

The application and the host are two processes, and each goes through its files one at a time.
`advance` is the next file access of one of them, or its end, or a change of the clock; everything
else may happen between two accesses.  The capsule is put in place by a renaming, which is one
access; the secret and the entry are written over what is there, which are two: the file is empty
before it is written.

What a step can do is listed once, in `GuiEffect`, `ReaderEffect` and `Effect`; every invariant is
read off these lists.
-/

namespace OrIsyVra.Mount.Credentials

open ByteString TextLines Runs

/-! ## Files -/

/-- Data protection for the current user; the number stands for the random choices of one call. -/
class Dpapi where
  protect : Bytes → ℕ → Except UInt32 Bytes
  unprotect : Bytes → Except UInt32 Bytes

/-- What is protected can be read back, and has a check on it that the first part alone does not
pass. -/
class LawfulDpapi [Dpapi] : Prop where
  unprotect_protect (plaintext : Bytes) (n : ℕ) (bytes : Bytes) :
    Dpapi.protect plaintext n = .ok bytes → Dpapi.unprotect bytes = .ok plaintext
  unprotect_take (plaintext : Bytes) (n : ℕ) (bytes : Bytes) (k : ℕ) :
    Dpapi.protect plaintext n = .ok bytes → k < bytes.length →
      ∃ code, Dpapi.unprotect (bytes.take k) = .error code
  unprotect_nil : ∃ code, Dpapi.unprotect [] = .error code

/-- What tells the secrets apart: their number, and the entry that was stored when they were
created. -/
structure Stamp where
  id : ℕ
  written : Option MountEntry
  deriving DecidableEq

/-- The secret file.  In the file are its bytes; `whole` tells whether all of them have been
written. -/
structure SecretFile where
  stamp : Stamp
  bytes : Bytes
  modified : ℤ
  whole : Bool
  deriving DecidableEq

/-- The file when the first bytes have been written to it. -/
def SecretFile.fill (file : SecretFile) (bytes : Bytes) (count : ℕ) (now : ℤ) : SecretFile :=
  { file with bytes := bytes.take count, modified := now, whole := decide (bytes.length ≤ count) }

@[simp] theorem SecretFile.stamp_fill (file : SecretFile) (bytes : Bytes) (count : ℕ) (now : ℤ) :
    (file.fill bytes count now).stamp = file.stamp := rfl

@[simp] theorem SecretFile.modified_fill (file : SecretFile) (bytes : Bytes) (count : ℕ) (now : ℤ) :
    (file.fill bytes count now).modified = now := rfl

/-- `TEMPORARY_MOUNT_SECRET_TTL`, in nanoseconds. -/
def temporaryMountSecretTtl : ℤ := 300 * 10 ^ 9

/-! ## The two processes -/

/-- What the random generator fills in for one `prepare_credential`. -/
structure Draw where
  mountPassword : FixedBytes 32
  salt : FixedBytes 16
  nonce : FixedBytes 24
  entropy : ℕ

/-- Where the application is; `after` is the entry to save once the credential is there, if any. -/
inductive Gui where
  | idle
  /-- In `prepare_credential`, before the old capsule is removed. -/
  | preparing (draw : Draw) (after : Option MountEntry)
  /-- The new capsule is in a temporary file. -/
  | persisting (capsule : Bytes) (draw : Draw) (after : Option MountEntry)
  /-- The new capsule is there, the secret is not. -/
  | exported (draw : Draw) (after : Option MountEntry)
  /-- The secret is empty, and its bytes are to be written. -/
  | writing (bytes : Bytes) (after : Option MountEntry)
  /-- The secret is to be removed, and the entry saved. -/
  | dropping (entry : MountEntry)
  | saving (entry : MountEntry)
  /-- The entry is empty, and its text is to be written. -/
  | storing (entry : MountEntry)

/-- What `read_protected_secret` has looked at: the entry, if it could be loaded, and the age of the
secret, if it asked for it and got it. -/
structure Check where
  stored : Option MountEntry
  age : Option ℤ

/-- Where the mount host is in `run_entry`; `copy` is the entry it has loaded itself. -/
inductive Reader where
  | idle
  | loaded (copy : MountEntry)
  /-- There is a secret; on to `read_protected_secret`. -/
  | found (copy : MountEntry)
  | ageing (copy stored : MountEntry)
  | allowed (copy : MountEntry) (check : Check)
  /-- The mount material is stale, and on its way out. -/
  | stale (check : Check)
  | secretRemoved (check : Check)
  /-- The password is read, and the secret is to be removed. -/
  | holding (copy : MountEntry) (check : Check) (file : SecretFile) (mountPassword : Bytes)
  | opening (copy : MountEntry) (check : Check) (file : SecretFile) (mountPassword : Bytes)
  | mounted

structure World where
  entry : Option Text
  capsule : Option Bytes
  secret : Option SecretFile
  now : ℤ
  writes : ℕ
  gui : Gui
  reader : Reader

/-- `load_entry`, when the file can be read. -/
def World.stored (w : World) : Option MountEntry :=
  w.entry.bind fun text => (MountEntry.parseEntry text).toOption

/-- What can be told of a step. -/
inductive Event where
  | quiet
  /-- A new capsule is in place. -/
  | exported
  /-- The secret is new and empty, beside a capsule or not. -/
  | created (beside : Bool)
  /-- A host has started. -/
  | began
  /-- A host has given up on stale mount material. -/
  | refused (check : Check)
  /-- A host has used the password of a secret on the capsule; no result when it could not read
  it. -/
  | used (copy : MountEntry) (check : Check) (file : SecretFile)
    (result : Option (Except Error MasterKey))

/-- How a file access goes. -/
inductive Access where
  | done
  | failed
  /-- A write stopped after some bytes. -/
  | cut (written : ℕ)
  deriving DecidableEq

inductive Command where
  /-- The clock is set. -/
  | clock (now : ℤ)
  /-- The user has changed the policy in the window to that of `entry`; the key card is unlocked or
  not. -/
  | policy (entry : MountEntry) (unlocked : Bool) (draw : Draw)
  | prepare (draw : Draw)
  | save (entry : MountEntry)
  | gui (access : Access)
  | guiDies
  | run (access : Access)
  | reader (access : Access)
  | readerDies

/-! ## The application -/

/-- The entry without automatic unlocking. -/
def withoutUnlock (entry : MountEntry) : MountEntry := { entry with autoUnlock := false }

/-- `apply_entry_policy`, up to its first file access. -/
def applyEntryPolicy (entry : MountEntry) (unlocked : Bool) (draw : Draw) : Gui :=
  if !entry.autoMount then .dropping (withoutUnlock entry)
  else if entry.autoUnlock then
    if unlocked then .preparing draw (some entry) else .saving (withoutUnlock entry)
  else .dropping entry

/-- `prepare_credential` has failed. -/
def Gui.giveUp : Option MountEntry → Gui
  | none => .idle
  | some entry => .saving (withoutUnlock entry)

/-- `prepare_credential` has returned. -/
def Gui.goOn : Option MountEntry → Gui
  | none => .idle
  | some entry => .saving entry

/-- The application has no part of a new credential. -/
def Gui.Free : Gui → Prop
  | .persisting _ _ _ | .exported _ _ | .writing _ _ => False
  | _ => True

theorem giveUp_free (after : Option MountEntry) : (Gui.giveUp after).Free := by
  cases after <;> trivial

theorem goOn_free (after : Option MountEntry) : (Gui.goOn after).Free := by
  cases after <;> trivial

theorem applyEntryPolicy_free (entry : MountEntry) (unlocked : Bool) (draw : Draw) :
    (applyEntryPolicy entry unlocked draw).Free := by
  unfold applyEntryPolicy
  split
  · trivial
  split
  · split <;> trivial
  · trivial

/-! ## The mount host -/

/-- The secret is young enough. -/
def Check.isFresh (check : Check) : Bool :=
  match check.age with
  | some age => decide (0 ≤ age ∧ age ≤ temporaryMountSecretTtl)
  | none => false

/-- What `read_protected_secret` makes of the entry it has loaded. -/
def onStored (copy stored : MountEntry) : Reader :=
  if stored.autoUnlock && !stored.autoMount then .stale ⟨some stored, none⟩
  else if !stored.autoUnlock then .ageing copy stored
  else .allowed copy ⟨some stored, none⟩

/-- What it makes of the age of the secret. -/
def onAge (copy : MountEntry) (check : Check) : Reader :=
  if check.isFresh then .allowed copy check else .stale check

/-- What the host does with a password it has read. -/
def onRead (copy : MountEntry) (check : Check) (file : SecretFile)
    (mountPassword : Bytes) : Reader :=
  if copy.autoUnlock then .opening copy check file mountPassword
  else .holding copy check file mountPassword

/-- The secret that the host has read, and the password. -/
def Reader.inHand : Reader → Option (SecretFile × Bytes)
  | .holding _ _ file mountPassword | .opening _ _ file mountPassword => some (file, mountPassword)
  | _ => none

theorem onStored_cases (copy stored : MountEntry) :
    onStored copy stored = .stale ⟨some stored, none⟩ ∧ stored.autoUnlock = true ∧
        stored.autoMount = false ∨
      onStored copy stored = .ageing copy stored ∧ stored.autoUnlock = false ∨
      onStored copy stored = .allowed copy ⟨some stored, none⟩ ∧ stored.autoUnlock = true ∧
        stored.autoMount = true := by
  unfold onStored
  cases stored.autoUnlock <;> cases stored.autoMount <;> simp

theorem onAge_cases (copy : MountEntry) (check : Check) :
    onAge copy check = .allowed copy check ∧ check.isFresh = true ∨
      onAge copy check = .stale check ∧ check.isFresh = false := by
  unfold onAge
  cases check.isFresh <;> simp

theorem onRead_cases (copy : MountEntry) (check : Check) (file : SecretFile)
    (mountPassword : Bytes) :
    onRead copy check file mountPassword = .opening copy check file mountPassword ∧
        copy.autoUnlock = true ∨
      onRead copy check file mountPassword = .holding copy check file mountPassword ∧
        copy.autoUnlock = false := by
  unfold onRead
  cases copy.autoUnlock <;> simp

@[simp] theorem onStored_inHand (copy stored : MountEntry) :
    (onStored copy stored).inHand = none := by
  rcases onStored_cases copy stored with ⟨h, -⟩ | ⟨h, -⟩ | ⟨h, -⟩ <;> rw [h] <;> rfl

@[simp] theorem onAge_inHand (copy : MountEntry) (check : Check) :
    (onAge copy check).inHand = none := by
  rcases onAge_cases copy check with ⟨h, -⟩ | ⟨h, -⟩ <;> rw [h] <;> rfl

@[simp] theorem onRead_inHand (copy : MountEntry) (check : Check) (file : SecretFile)
    (mountPassword : Bytes) :
    (onRead copy check file mountPassword).inHand = some (file, mountPassword) := by
  rcases onRead_cases copy check file mountPassword with ⟨h, -⟩ | ⟨h, -⟩ <;> rw [h] <;> rfl

/-- The host has found the mount material stale. -/
def Reader.rejected : Reader → Option Check
  | .stale check | .secretRemoved check => some check
  | _ => none

/-! ## Steps -/

section

variable [Crypto] [KeyCrypto] [Dpapi]

/-- The next file access of the application, for the master key of the entry. -/
def guiStep (master : MasterKey) (access : Access) (w : World) : Option (Event × World) :=
  match w.gui with
  | .idle => none
  | .preparing draw after =>
    match encodeKeyfileBytes master draw.mountPassword.val default draw.salt draw.nonce with
    | .error _ => some (.quiet, { w with gui := .giveUp after })
    | .ok capsule =>
      if access = .done then
        some (.quiet, { w with capsule := none, gui := .persisting capsule draw after })
      else some (.quiet, { w with gui := .giveUp after })
  | .persisting capsule draw after =>
    if access = .done then
      some (.exported, { w with capsule := some capsule, gui := .exported draw after })
    else some (.quiet, { w with gui := .giveUp after })
  | .exported draw after =>
    match Dpapi.protect draw.mountPassword.val draw.entropy with
    | .error _ => some (.quiet, { w with gui := .giveUp after })
    | .ok bytes =>
      if access = .done then
        some (.created w.capsule.isSome, { w with
          secret := some ⟨⟨w.writes, w.stored⟩, [], w.now, false⟩, writes := w.writes + 1,
          gui := .writing bytes after })
      else some (.quiet, { w with gui := .giveUp after })
  | .writing bytes after =>
    -- a host may have removed the file since
    match access with
    | .done => some (.quiet, { w with
        secret := w.secret.map (·.fill bytes bytes.length w.now), gui := .goOn after })
    | .failed => some (.quiet, { w with gui := .giveUp after })
    | .cut written => some (.quiet, { w with
        secret := w.secret.map (·.fill bytes written w.now), gui := .giveUp after })
  | .dropping entry =>
    some (.quiet, { w with
      secret := if access = .done then none else w.secret, gui := .saving entry })
  | .saving entry =>
    match entry.validate with
    | .error _ => some (.quiet, { w with gui := .idle })
    | .ok _ =>
      if access = .done then some (.quiet, { w with entry := some [], gui := .storing entry })
      else some (.quiet, { w with gui := .idle })
  | .storing entry =>
    match access with
    | .done => some (.quiet, { w with entry := some entry.text, gui := .idle })
    | .failed => some (.quiet, { w with gui := .idle })
    | .cut written =>
      some (.quiet, { w with entry := some (entry.text.take written), gui := .idle })

/-- The next file access of the host. -/
def readerStep (access : Access) (w : World) : Option (Event × World) :=
  match w.reader with
  | .idle => none
  | .loaded copy =>
    if access = .done ∧ w.secret.isSome then some (.quiet, { w with reader := .found copy })
    else some (.quiet, { w with reader := .idle })
  | .found copy =>
    match (if access = .done then w.stored else none) with
    | none => some (.quiet, { w with reader := .allowed copy ⟨none, none⟩ })
    | some stored => some (.quiet, { w with reader := onStored copy stored })
  | .ageing copy stored =>
    let age := if access = .done then w.secret.map fun file => w.now - file.modified else none
    some (.quiet, { w with reader := onAge copy ⟨some stored, age⟩ })
  | .stale check =>
    some (.quiet, { w with
      secret := if access = .done then none else w.secret, reader := .secretRemoved check })
  | .secretRemoved check =>
    some (.refused check, { w with
      capsule := if access = .done then none else w.capsule, reader := .idle })
  | .allowed copy check =>
    match (if access = .done then w.secret else none) with
    | none => some (.quiet, { w with reader := .idle })
    | some file =>
      match Dpapi.unprotect file.bytes with
      | .error _ => some (.quiet, { w with reader := .idle })
      | .ok mountPassword =>
        some (.quiet, { w with reader := onRead copy check file mountPassword })
  | .holding copy check file mountPassword =>
    some (.quiet, { w with
      secret := if access = .done then none else w.secret,
      reader := .opening copy check file mountPassword })
  | .opening copy check file mountPassword =>
    let result := (if access = .done then w.capsule else none).map fun capsule =>
      unlockKeyfileBytes capsule mountPassword
    some (.used copy check file result, { w with
      reader := match result with
        | some (.ok _) => .mounted
        | _ => .idle })
  | .mounted => some (.quiet, { w with reader := .idle })

/-- A step of the system; only one host at a time has the mutex of the entry. -/
def advance (master : MasterKey) (cmd : Command) (w : World) : Option (Event × World) :=
  match cmd with
  | .clock now => some (.quiet, { w with now := now })
  | .policy entry unlocked draw =>
    match w.gui with
    | .idle => some (.quiet, { w with gui := applyEntryPolicy entry unlocked draw })
    | _ => none
  | .prepare draw =>
    match w.gui with
    | .idle => some (.quiet, { w with gui := .preparing draw none })
    | _ => none
  | .save entry =>
    match w.gui with
    | .idle => some (.quiet, { w with gui := .saving entry })
    | _ => none
  | .gui access => guiStep master access w
  | .guiDies => some (.quiet, { w with gui := .idle })
  | .run access =>
    match w.reader with
    | .idle =>
      match (if access = .done then w.stored else none) with
      | none => some (.began, w)
      | some copy => some (.began, { w with reader := .loaded copy })
    | _ => none
  | .reader access => readerStep access w
  | .readerDies => some (.quiet, { w with reader := .idle })

/-! ## What a step can do -/

variable {master : MasterKey} {w w' : World} {e : Event}

/-- **What the application can do.** -/
inductive GuiEffect (master : MasterKey) (w : World) : Event → World → Prop where
  /-- Nothing but the entry has changed. -/
  | elsewhere {gui : Gui} {entry : Option Text} : gui.Free →
      GuiEffect master w .quiet { w with gui := gui, entry := entry }
  | cleared {capsule : Bytes} {draw : Draw} {after : Option MountEntry} :
      encodeKeyfileBytes master draw.mountPassword.val default draw.salt draw.nonce = .ok capsule →
      GuiEffect master w .quiet { w with capsule := none, gui := .persisting capsule draw after }
  | exported {capsule : Bytes} {draw : Draw} {after : Option MountEntry} :
      w.gui = .persisting capsule draw after →
      GuiEffect master w .exported { w with capsule := some capsule, gui := .exported draw after }
  | created {draw : Draw} {after : Option MountEntry} {bytes : Bytes} :
      w.gui = .exported draw after → Dpapi.protect draw.mountPassword.val draw.entropy = .ok bytes →
      GuiEffect master w (.created w.capsule.isSome)
        { w with secret := some ⟨⟨w.writes, w.stored⟩, [], w.now, false⟩, writes := w.writes + 1,
                 gui := .writing bytes after }
  | writes {bytes : Bytes} {after : Option MountEntry} {count : ℕ} {gui : Gui} :
      w.gui = .writing bytes after → gui.Free → GuiEffect master w .quiet
        { w with secret := w.secret.map (·.fill bytes count w.now), gui := gui }
  | dropped {secret : Option SecretFile} {gui : Gui} : secret = none ∨ secret = w.secret →
      gui.Free → GuiEffect master w .quiet { w with secret := secret, gui := gui }

theorem guiStep_effect {access : Access} (h : guiStep master access w = some (e, w')) :
    GuiEffect master w e w' := by
  have hquit : ∀ {gui : Gui}, gui.Free → GuiEffect master w .quiet { w with gui := gui } :=
    fun hfree => .elsewhere hfree
  unfold guiStep at h
  split at h
  · exact absurd h (by simp)
  · next draw after hgui =>
    split at h
    · obtain ⟨rfl, rfl⟩ := Prod.mk.inj (Option.some.inj h)
      exact hquit (giveUp_free after)
    next capsule hcapsule =>
    split at h
    · obtain ⟨rfl, rfl⟩ := Prod.mk.inj (Option.some.inj h)
      exact .cleared hcapsule
    · obtain ⟨rfl, rfl⟩ := Prod.mk.inj (Option.some.inj h)
      exact hquit (giveUp_free after)
  · next capsule draw after hgui =>
    split at h
    · obtain ⟨rfl, rfl⟩ := Prod.mk.inj (Option.some.inj h)
      exact .exported hgui
    · obtain ⟨rfl, rfl⟩ := Prod.mk.inj (Option.some.inj h)
      exact hquit (giveUp_free after)
  · next draw after hgui =>
    split at h
    · obtain ⟨rfl, rfl⟩ := Prod.mk.inj (Option.some.inj h)
      exact hquit (giveUp_free after)
    next bytes hbytes =>
    split at h
    · obtain ⟨rfl, rfl⟩ := Prod.mk.inj (Option.some.inj h)
      exact .created hgui hbytes
    · obtain ⟨rfl, rfl⟩ := Prod.mk.inj (Option.some.inj h)
      exact hquit (giveUp_free after)
  · next bytes after hgui =>
    split at h
    · obtain ⟨rfl, rfl⟩ := Prod.mk.inj (Option.some.inj h)
      exact .writes hgui (goOn_free after)
    · obtain ⟨rfl, rfl⟩ := Prod.mk.inj (Option.some.inj h)
      exact hquit (giveUp_free after)
    · obtain ⟨rfl, rfl⟩ := Prod.mk.inj (Option.some.inj h)
      exact .writes hgui (giveUp_free after)
  · next entry hgui =>
    obtain ⟨rfl, rfl⟩ := Prod.mk.inj (Option.some.inj h)
    refine .dropped ?_ trivial
    split
    · exact Or.inl rfl
    · exact Or.inr rfl
  · next entry hgui =>
    split at h
    · obtain ⟨rfl, rfl⟩ := Prod.mk.inj (Option.some.inj h)
      exact hquit trivial
    split at h
    all_goals
      obtain ⟨rfl, rfl⟩ := Prod.mk.inj (Option.some.inj h)
      exact .elsewhere trivial
  · next entry hgui =>
    split at h
    all_goals
      obtain ⟨rfl, rfl⟩ := Prod.mk.inj (Option.some.inj h)
      exact .elsewhere trivial

/-- **What the host can do.** -/
inductive ReaderEffect (access : Access) (w : World) : Event → World → Prop where
  | ends : w.reader.rejected = none → ReaderEffect access w .quiet { w with reader := .idle }
  | finds {copy : MountEntry} : w.reader = .loaded copy →
      ReaderEffect access w .quiet { w with reader := .found copy }
  /-- The entry cannot be loaded, and so is not looked at. -/
  | skips {copy : MountEntry} : w.reader = .found copy → access ≠ .done ∨ w.stored = none →
      ReaderEffect access w .quiet { w with reader := .allowed copy ⟨none, none⟩ }
  | loads {copy stored : MountEntry} : w.reader = .found copy → w.stored = some stored →
      ReaderEffect access w .quiet { w with reader := onStored copy stored }
  | ages {copy stored : MountEntry} {age : Option ℤ} : w.reader = .ageing copy stored →
      (∀ a, age = some a → ∃ file, w.secret = some file ∧ a = w.now - file.modified) →
      ReaderEffect access w .quiet { w with reader := onAge copy ⟨some stored, age⟩ }
  | dropsSecret {check : Check} {secret : Option SecretFile} : w.reader = .stale check →
      secret = none ∨ access ≠ .done ∧ secret = w.secret →
      ReaderEffect access w .quiet { w with secret := secret, reader := .secretRemoved check }
  | refuses {check : Check} {capsule : Option Bytes} : w.reader = .secretRemoved check →
      capsule = none ∨ access ≠ .done ∧ capsule = w.capsule →
      ReaderEffect access w (.refused check) { w with capsule := capsule, reader := .idle }
  | reads {copy : MountEntry} {check : Check} {file : SecretFile} {mountPassword : Bytes} :
      w.reader = .allowed copy check → w.secret = some file →
      Dpapi.unprotect file.bytes = .ok mountPassword →
      ReaderEffect access w .quiet { w with reader := onRead copy check file mountPassword }
  | forgets {copy : MountEntry} {check : Check} {file : SecretFile} {mountPassword : Bytes}
      {secret : Option SecretFile} : w.reader = .holding copy check file mountPassword →
      secret = none ∨ access ≠ .done ∧ secret = w.secret →
      ReaderEffect access w .quiet
        { w with secret := secret, reader := .opening copy check file mountPassword }
  | uses {copy : MountEntry} {check : Check} {file : SecretFile} {mountPassword : Bytes}
      {capsule : Option Bytes} {reader : Reader} :
      w.reader = .opening copy check file mountPassword →
      capsule = none ∨ capsule = w.capsule → reader = .mounted ∨ reader = .idle →
      ReaderEffect access w (.used copy check file
        (capsule.map fun capsule => unlockKeyfileBytes capsule mountPassword))
        { w with reader := reader }

omit [Crypto] [KeyCrypto] [Dpapi] in
/-- What a removal leaves. -/
theorem removed_or {α : Type} (access : Access) (a : Option α) :
    (if access = .done then none else a) = none ∨
      access ≠ .done ∧ (if access = .done then none else a) = a := by
  by_cases h : access = .done
  · exact Or.inl (if_pos h)
  · exact Or.inr ⟨h, if_neg h⟩

theorem readerStep_effect {access : Access} (h : readerStep access w = some (e, w')) :
    ReaderEffect access w e w' := by
  unfold readerStep at h
  split at h
  · exact absurd h (by simp)
  · next copy hreader =>
    split at h
    · obtain ⟨rfl, rfl⟩ := Prod.mk.inj (Option.some.inj h)
      exact .finds hreader
    · obtain ⟨rfl, rfl⟩ := Prod.mk.inj (Option.some.inj h)
      exact .ends (by rw [hreader]; rfl)
  · next copy hreader =>
    split at h
    · next hnone =>
      obtain ⟨rfl, rfl⟩ := Prod.mk.inj (Option.some.inj h)
      refine .skips hreader ?_
      split at hnone
      · exact Or.inr hnone
      · next hfailed => exact Or.inl hfailed
    · next stored hstored =>
      obtain ⟨rfl, rfl⟩ := Prod.mk.inj (Option.some.inj h)
      split at hstored
      · exact .loads hreader hstored
      · exact absurd hstored (by simp)
  · next copy stored hreader =>
    obtain ⟨rfl, rfl⟩ := Prod.mk.inj (Option.some.inj h)
    refine .ages hreader fun a ha => ?_
    split at ha
    · obtain ⟨file, hfile, rfl⟩ := Option.map_eq_some_iff.mp ha
      exact ⟨file, hfile, rfl⟩
    · exact absurd ha (by simp)
  · next check hreader =>
    obtain ⟨rfl, rfl⟩ := Prod.mk.inj (Option.some.inj h)
    exact .dropsSecret hreader (removed_or access _)
  · next check hreader =>
    obtain ⟨rfl, rfl⟩ := Prod.mk.inj (Option.some.inj h)
    exact .refuses hreader (removed_or access _)
  · next copy check hreader =>
    split at h
    · obtain ⟨rfl, rfl⟩ := Prod.mk.inj (Option.some.inj h)
      exact .ends (by rw [hreader]; rfl)
    next file hfile =>
    have hsecret : w.secret = some file := by
      split at hfile
      · exact hfile
      · exact absurd hfile (by simp)
    split at h
    · obtain ⟨rfl, rfl⟩ := Prod.mk.inj (Option.some.inj h)
      exact .ends (by rw [hreader]; rfl)
    next mountPassword hpassword =>
    obtain ⟨rfl, rfl⟩ := Prod.mk.inj (Option.some.inj h)
    exact .reads hreader hsecret hpassword
  · next copy check file mountPassword hreader =>
    obtain ⟨rfl, rfl⟩ := Prod.mk.inj (Option.some.inj h)
    exact .forgets hreader (removed_or access _)
  · next copy check file mountPassword hreader =>
    obtain ⟨rfl, rfl⟩ := Prod.mk.inj (Option.some.inj h)
    refine .uses hreader ?_ ?_
    · split
      · exact Or.inr rfl
      · exact Or.inl rfl
    · split
      · exact Or.inl rfl
      · exact Or.inr rfl
  · next hreader =>
    obtain ⟨rfl, rfl⟩ := Prod.mk.inj (Option.some.inj h)
    exact .ends (by rw [hreader]; rfl)

/-- **What can happen** at a command: one of the two processes takes a step, starts something or
dies, or the clock is set. -/
inductive Effect (master : MasterKey) (w : World) : Command → Event → World → Prop where
  | gui {cmd : Command} {e₁ : Event} {w₁ : World} : GuiEffect master w e₁ w₁ →
      Effect master w cmd e₁ w₁
  | reader {access : Access} {e₁ : Event} {w₁ : World} : ReaderEffect access w e₁ w₁ →
      Effect master w (.reader access) e₁ w₁
  | dies : Effect master w .readerDies .quiet { w with reader := .idle }
  | clock {cmd : Command} {now : ℤ} : Effect master w cmd .quiet { w with now := now }
  | began {cmd : Command} : w.reader = .idle → Effect master w cmd .began w
  | starts {cmd : Command} {copy : MountEntry} : w.reader = .idle → w.stored = some copy →
      Effect master w cmd .began { w with reader := .loaded copy }

theorem advance_effect {cmd : Command} (h : advance master cmd w = some (e, w')) :
    Effect master w cmd e w' := by
  unfold advance at h
  cases cmd with
  | clock now =>
    obtain ⟨rfl, rfl⟩ := Prod.mk.inj (Option.some.inj h)
    exact .clock
  | policy entry unlocked draw =>
    dsimp only at h
    split at h
    · obtain ⟨rfl, rfl⟩ := Prod.mk.inj (Option.some.inj h)
      exact .gui (.elsewhere (applyEntryPolicy_free entry unlocked draw))
    · exact absurd h (by simp)
  | prepare draw =>
    dsimp only at h
    split at h
    · obtain ⟨rfl, rfl⟩ := Prod.mk.inj (Option.some.inj h)
      exact .gui (.elsewhere trivial)
    · exact absurd h (by simp)
  | save entry =>
    dsimp only at h
    split at h
    · obtain ⟨rfl, rfl⟩ := Prod.mk.inj (Option.some.inj h)
      exact .gui (.elsewhere trivial)
    · exact absurd h (by simp)
  | gui access => exact .gui (guiStep_effect h)
  | guiDies =>
    obtain ⟨rfl, rfl⟩ := Prod.mk.inj (Option.some.inj h)
    exact .gui (.elsewhere trivial)
  | run access =>
    dsimp only at h
    split at h
    · next hidle =>
      split at h
      · obtain ⟨rfl, rfl⟩ := Prod.mk.inj (Option.some.inj h)
        exact .began hidle
      · next copy hcopy =>
        obtain ⟨rfl, rfl⟩ := Prod.mk.inj (Option.some.inj h)
        split at hcopy
        · exact .starts hidle hcopy
        · exact absurd hcopy (by simp)
    · exact absurd h (by simp)
  | reader access => exact .reader (readerStep_effect h)
  | readerDies =>
    obtain ⟨rfl, rfl⟩ := Prod.mk.inj (Option.some.inj h)
    exact .dies

/-- A step, whatever was asked for. -/
def Step (master : MasterKey) (w : World) (e : Event) (w' : World) : Prop :=
  ∃ cmd, advance master cmd w = some (e, w')

/-- A run that can be computed. -/
theorem exists_run {cmds : List Command} (test : List Event → World → Bool)
    (h : (execute (fun w cmd => advance master cmd w) cmds w).any (fun r => test r.1 r.2) = true) :
    ∃ events w', Run (Step master) w events w' ∧ test events w' = true :=
  exists_run_of_execute test (fun cmd _ _ _ _ hcmd => ⟨cmd, hcmd⟩) h

theorem Step.effect (h : Step master w e w') : ∃ cmd, Effect master w cmd e w' :=
  let ⟨cmd, hcmd⟩ := h
  ⟨cmd, advance_effect hcmd⟩

end

end OrIsyVra.Mount.Credentials
