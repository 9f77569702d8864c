import OrIsyVra.Files.PinStore
import OrIsyVra.Library.Runs
import OrIsyVra.Mount.Entries
import OrIsyVra.Volume.Operations

/-!
# The volume application

The window of the volume application has one key card, locked or unlocked, and a list of mount
entries, each with the path of a key card of its own.  To mount an entry the application seals the
master key of the unlocked card for the mount host, so everything depends on whose master key that
is: the card may be changed, locked, or replaced by a new one between any two clicks, a mount may
wait for a card to be unlocked, and at startup one card after the other is asked for.

A `Frame` is what the user does in one pass over the window, and `update` what the application makes
of it, call by call.  What a call finds, the files, the platform, the answers of other programs, is
a `Moment`, and nothing is assumed about how one is related to the next.

The log has an event for each thing that matters.
-/

namespace OrIsyVra
namespace Mount
namespace VolumeApp

open ByteString MachineWord TextLines FaultProgram FileSystem Runs
open Volume (VolumeError VolumeOptions)

/-! ## The state of the window -/

inductive StatusKind where
  | info
  | success
  | error
  deriving DecidableEq, Repr

/-- A message of the application, or an error of what it has called. -/
inductive Notice where
  | text (message : String)
  | entry (error : WindowsIntegrationError)
  | key (error : Error)
  | pin (error : PinCard.PinError)
  | volume (error : VolumeError)
  /-- A volume is there, but is not known to the system. -/
  | integration (cause : Notice)
  deriving DecidableEq, Repr

structure Status where
  kind : StatusKind
  message : Notice

/-- Paths are kept as texts. -/
structure App where
  japanese : Bool
  entries : List MountEntry
  keyPath : Text
  keyFingerprint : Option String
  credential : String
  master : Option MasterKey
  pendingMountId : Option Text
  createSizeGib : UInt64
  createLetter : Text
  createReadOnly : Bool
  createAutoMount : Bool
  createAutoUnlock : Bool
  createPin : String
  createPinConfirm : String
  status : Option Status
  startupMode : Bool
  startupKeys : List Text
  startupIndex : ℕ

def tr (japanese : Bool) (ja en : String) : String := if japanese then ja else en

/-- How the system reads the text of a path; two texts are the same path when they are read the
same. -/
class PathText where
  read : Text → Path

def whiteSpace (c : Char) : Bool :=
  let n := c.toNat
  (9 ≤ n && n ≤ 13) || n == 0x20 || n == 0x85 || n == 0xa0 || n == 0x1680 ||
    (0x2000 ≤ n && n ≤ 0x200a) || n == 0x2028 || n == 0x2029 || n == 0x202f || n ==
      0x205f || n == 0x3000

def trim (text : Text) : Text := ((text.dropWhile whiteSpace).reverse.dropWhile whiteSpace).reverse

/-! ## What calls find -/

/-- What the random generator fills in for a capsule, and the name of its temporary. -/
structure Draw where
  mountPassword : FixedBytes 32
  temporary : String
  salt : FixedBytes 16
  nonce : FixedBytes 24

/-- What a call finds. -/
structure Moment where
  /-- The files, and how a call to the system goes. -/
  host : Host Path
  account : PinCard.Account
  /-- What is picked in a file dialog. -/
  picked : Option Text
  /-- The answer of `entry_is_mounted`. -/
  mounted : Bool
  /-- The answer of `list_entries`, nothing on an error. -/
  listed : List MountEntry
  /-- How another program ends, or a write of a small file. -/
  ended : Except Notice Unit
  /-- The answer of `Volume::create`: the id of the volume. -/
  created : VolumeOptions → Except VolumeError (FixedBytes 32)
  draw : Draw
  pinDraws : PinCard.PinDraws
  capsule : Keycard.CapsuleDraws

inductive Event where
  /-- The key card at a path has been opened. -/
  | opened (path : Path) (credential : String) (master : MasterKey)
  /-- The master key has been dropped. -/
  | closed
  | listed (entries : List MountEntry)
  /-- A new volume has been made under the master key, and is about to be registered. -/
  | created (entry : MountEntry) (master : MasterKey)
  /-- The master key is about to be sealed for the mount host. -/
  | sealed (id : Text) (master : MasterKey)
  /-- The host can mount the entry. -/
  | prepared (id : Text)
  /-- The host is told to mount the entry, by a click or at startup. -/
  | ran (entry : MountEntry)
  | ranAtStartup (entry : MountEntry)
  /-- The host is told to let go of the entry. -/
  | stopped (id : Text)
  | removed (id : Text)
  /-- The application is to be started with the system, or not. -/
  | startup (enabled : Bool)

/-- A run of the application: its state, what its calls will find, how many there have been, and
what has happened. -/
structure Desk where
  app : App
  outside : ℕ → Moment
  tick : ℕ
  log : List Event

abbrev AppProg := Prog Desk Notice

/-- A call to the outside. -/
def ask {α : Type} (f : Moment → α) : AppProg α := fun d =>
  (.ok (f (d.outside d.tick)), { d with tick := d.tick + 1 })

/-- A call of a program that works on files. -/
def onHost {ε α : Type} (notice : ε → Notice) (p : Moment → Prog (Host Path) ε α) :
    AppProg α := fun d =>
  let o := (p (d.outside d.tick) (d.outside d.tick).host).1
  let d := { d with tick := d.tick + 1 }
  match o with
  | .ok a => (.ok a, d)
  | .error e => (.error (notice e), d)
  | .crash => (.crash, d)

/-- A call that may fail. -/
def command (f : Moment → Except Notice Unit) : AppProg Unit := do
  let result ← ask f
  Prog.ofExcept result

/-- A call whose failure is nobody's business. -/
def attempted (p : AppProg Unit) : AppProg Unit := do
  let _ ← (Prog.attempt p : AppProg (Except Notice Unit))
  pure ()

def theApp : AppProg App := fun d => (.ok d.app, d)

def change (f : App → App) : AppProg Unit := Prog.modify fun d => { d with app := f d.app }

def tell (e : Event) : AppProg Unit := Prog.modify fun d => { d with log := d.log ++ [e] }

def setStatus (kind : StatusKind) (message : Notice) : AppProg Unit :=
  change fun app => { app with status := some ⟨kind, message⟩ }

/-- A status in the language of the window. -/
def say (kind : StatusKind) (ja en : String) : AppProg Unit := do
  let app ← theApp
  setStatus kind (.text (tr app.japanese ja en))

/-- What a button does. -/
def onClick (clicked : Bool) (p : AppProg Unit) : AppProg Unit := if clicked then p else pure ()

/-- The master key is dropped. -/
def close : AppProg Unit := do
  change fun app => { app with master := none }
  tell .closed

/-- An index behind the end ends the program. -/
def entryAt (index : ℕ) : AppProg MountEntry := do
  let app ← theApp
  match app.entries[index]? with
  | some entry => pure entry
  | none => Prog.die

def setEntry (index : ℕ) (f : MountEntry → MountEntry) : AppProg Unit :=
  change fun app => { app with entries := app.entries.modify index f }

/-! ## Paths -/

def automountRoot (m : Moment) : Except Notice Path :=
  match m.account.windows, m.account.appdata with
  | true, some base => .ok ((base.join "OrIsyVra").join "automount")
  | _, _ => .error (.entry .unsupported)

/-- A file of an entry in a directory of the application. -/
def entryFile (directory ending : String) (id : Text) (m : Moment) : Except Notice Path :=
  (automountRoot m).map fun root => (root.join directory).join (String.ofList id ++ ending)

def credentialPath : Text → Moment → Except Notice Path := entryFile "credentials" ".orisyvra-key"
def secretPath : Text → Moment → Except Notice Path := entryFile "secrets" ".dpapi"
def stopPath : Text → Moment → Except Notice Path := entryFile "state" ".stop"

def isFile (m : Moment) (path : Path) : Bool := (m.host.files path).isSome

def volumeIdHex (volumeId : FixedBytes 32) : Text :=
  volumeId.val.flatMap fun byte =>
    [PinCard.hexLower.getD (byte.toNat / 16) '0', PinCard.hexLower.getD (byte.toNat % 16) '0']

section

variable [KeyCrypto] [CardImaging] [PathText]

/-- The paths are those of the same file. -/
def samePath (a b : Text) : Bool := PathText.read a == PathText.read b

/-! ## The key card -/

/-- The fingerprint of a key source, if it has one. -/
def fingerprintOf (path : Path) : AppProg (Option String) := do
  match ← (Prog.attempt (onHost .key fun _ => Keycard.keySourceInfo path) : AppProg _) with
  | .ok info => pure (some info.cardId)
  | .error _ => pure none

/-- `pin_card_state`, where an error is that it is no PIN card. -/
def pinState (path : Path) : AppProg PinCard.PinCardState := do
  match ← (Prog.attempt (onHost .pin fun m => PinCard.pinCardState m.account.toPlatform path) :
    AppProg _) with
  | .ok state => pure state
  | .error _ => pure .notPinCard

def chooseKey : AppProg Unit := do
  match ← ask Moment.picked with
  | none => pure ()
  | some path => do
    match ← (Prog.attempt (onHost .key fun _ => Keycard.keySourceInfo (PathText.read path)) :
      AppProg _) with
    | .ok info => do
      close
      change fun app => { app with
        keyPath := path, keyFingerprint := some info.cardId, credential := "", status := none }
    | .error e => setStatus .error e

/-! ## Entries -/

omit [KeyCrypto] [CardImaging] [PathText] in
def refreshEntries : AppProg Unit := do
  let entries ← ask Moment.listed
  tell (.listed entries)
  change fun app => { app with entries := entries }

omit [KeyCrypto] [CardImaging] [PathText] in
def syncStartup : AppProg Unit := do
  let app ← theApp
  tell (.startup (app.entries.any fun entry => entry.autoMount && !entry.autoUnlock))
  match ← (Prog.attempt (command Moment.ended) : AppProg _) with
  | .ok () => pure ()
  | .error e => setStatus .error e

omit [KeyCrypto] [CardImaging] [PathText] in
def saveEntry (entry : MountEntry) : AppProg Unit := do
  Prog.ofExcept (entry.validate.mapError .entry)
  command Moment.ended

/-- `register-entry` is run by the mount host, with the rights of an administrator. -/
def ensureTask (index : ℕ) : AppProg Unit := do
  let entry ← entryAt index
  if entry.taskRegistered then pure ()
  else do
    command Moment.ended
    setEntry index fun entry => { entry with taskRegistered := true }
    let entry ← entryAt index
    saveEntry entry

def currentMasterFor (entry : MountEntry) : AppProg (Option MasterKey) := do
  let app ← theApp
  pure (if samePath (trim app.keyPath) entry.keyPath then app.master else none)

variable [Crypto]

omit [CardImaging] [PathText] in
def exportRecoveryKeyfileFromMaster (name : String) (master : MasterKey) (mountPassphrase : Bytes)
    (params : KeyfileParams) (salt : FixedBytes 16) (nonce : FixedBytes 24) (output : Path)
    (overwrite : Bool) : FileProg Unit := do
  let bytes ← Prog.ofExcept (encodeKeyfileBytes master mountPassphrase params salt nonce)
  writeKeyfileBytes name output bytes overwrite

omit [KeyCrypto] [CardImaging] [PathText] [Crypto] in
/-- `write_protected_secret`. -/
def writeProtectedSecret (plaintext : Bytes) : AppProg Unit := do
  command fun m => (m.account.protect plaintext).mapError
    (fun code => .entry (.windowsApi code)) |>.map
    fun _ => ()
  command Moment.ended

omit [CardImaging] [PathText] in
def prepareCredential (entry : MountEntry) (master : MasterKey) : AppProg Unit := do
  let draw ← ask Moment.draw
  let credential ← ask (credentialPath entry.id)
  let credential ← Prog.ofExcept credential
  command Moment.ended
  tell (.sealed entry.id master)
  onHost .key fun _ =>
    exportRecoveryKeyfileFromMaster draw.temporary master draw.mountPassword.val default
    draw.salt draw.nonce credential true
  let secret ← ask (secretPath entry.id)
  let _ ← Prog.ofExcept secret
  writeProtectedSecret draw.mountPassword.val

omit [KeyCrypto] [CardImaging] [PathText] [Crypto] in
/-- The task of the entry is started. -/
def startEntry (entry : MountEntry) : AppProg Unit := do
  tell (.ran entry)
  match ← (Prog.attempt (command Moment.ended) : AppProg _) with
  | .ok () =>
    say .success "暗号ドライブへ接続しています。初回だけWindowsでNTFS/exFATへフォーマットしてください。"
      "Connecting the encrypted drive. On first use only, format it as NTFS/exFAT in Windows."
  | .error e => setStatus .error e

omit [Crypto] in
/-- The key card of an entry that waits for it is shown, locked. -/
def showKeyOf (entry : MountEntry) : AppProg Unit := do
  let fingerprint ← fingerprintOf (PathText.read entry.keyPath)
  close
  change fun app => { app with keyPath := entry.keyPath, keyFingerprint := fingerprint }

omit [Crypto] in
/-- The entry waits for its key card. -/
def awaitKey (entry : MountEntry) : AppProg Unit := do
  showKeyOf entry
  change fun app => { app with credential := "", pendingMountId := some entry.id }
  match ← pinState (PathText.read entry.keyPath) with
  | .ready =>
    say .info "接続を続けるため4桁PINを入力してください。解除後、自動で接続を再開します。"
      "Enter the four-digit PIN to continue. Connection resumes automatically after unlock."
  | .notPinCard =>
    say .info "接続を続けるため従来キーのパスフレーズを入力してください。"
      "Enter the legacy key passphrase to continue."
  | .bindingMissing =>
    say .error "このPINカードはこのWindowsに登録されていません。"
      "This PIN card is not registered on this Windows account."

/-- The credential for an entry, and its task. -/
def prepareAndStart (entry : MountEntry) (master : MasterKey) : AppProg Unit := do
  match ← (Prog.attempt (prepareCredential entry master) : AppProg _) with
  | .error e => setStatus .error e
  | .ok () => do
    tell (.prepared entry.id)
    startEntry entry

def mountEntry (index : ℕ) : AppProg Unit := do
  let _ ← entryAt index
  let mounted ← ask Moment.mounted
  if mounted then pure ()
  else do
    match ← (Prog.attempt (ensureTask index) : AppProg _) with
    | .error e => setStatus .error e
    | .ok () => do
      let entry ← entryAt index
      let persistentReady ← ask fun m =>
        entry.autoUnlock && (secretPath entry.id m).toOption.any (isFile m)
      if persistentReady then startEntry entry
      else do
        match ← currentMasterFor entry with
        | none => awaitKey entry
        | some master => prepareAndStart entry master

omit [KeyCrypto] [CardImaging] [PathText] [Crypto] in
def unmountEntry (index : ℕ) : AppProg Unit := do
  let entry ← entryAt index
  match ← ask (stopPath entry.id) with
  | .error e => setStatus .error e
  | .ok _ => do
    tell (.stopped entry.id)
    match ← (Prog.attempt (command Moment.ended) : AppProg _) with
    | .ok () =>
      say .info "安全な切断を要求しました。同期後に取り外されます。"
        "Safe disconnect requested. The drive will detach after syncing."
    | .error e => setStatus .error e

omit [KeyCrypto] [CardImaging] [PathText] [Crypto] in
/-- The files of an entry that is not mounted are removed. -/
def removeFilesOf (entry : MountEntry) : AppProg Unit := do
  onClick entry.taskRegistered (attempted (command Moment.ended))
  attempted (command Moment.ended)
  tell (.removed entry.id)
  match ← (Prog.attempt (command Moment.ended) : AppProg _) with
  | .ok () => do
    refreshEntries
    syncStartup
    say .success "登録を削除しました。暗号ボリューム本体は残しています。"
      "Registration removed. The encrypted volume file was kept."
  | .error e => setStatus .error e

omit [KeyCrypto] [CardImaging] [PathText] [Crypto] in
def removeEntry (index : ℕ) : AppProg Unit := do
  let entry ← entryAt index
  let mounted ← ask Moment.mounted
  if mounted then do
    unmountEntry index
    say .info "先に安全な切断を実行しました。切断後に登録削除をもう一度押してください。"
      "Safe disconnect was requested first. Remove the registration after it detaches."
  else removeFilesOf entry

omit [KeyCrypto] [CardImaging] [PathText] [Crypto] in
/-- The entry is saved as it is in the window. -/
def saveShown (index : ℕ) : AppProg Unit := do
  let entry ← entryAt index
  match ← (Prog.attempt (saveEntry entry) : AppProg _) with
  | .ok () => syncStartup
  | .error e => do
    setStatus .error e
    syncStartup

def applyEntryPolicy (index : ℕ) : AppProg Unit := do
  let entry ← entryAt index
  if !entry.autoMount then do
    setEntry index fun entry => { entry with autoUnlock := false }
    attempted (command Moment.ended)
    saveShown index
  else if entry.autoUnlock then do
    match ← currentMasterFor entry with
    | none => do
      setEntry index fun entry => { entry with autoUnlock := false }
      showKeyOf entry
      say .info "完全自動を有効にするには、このキーカードを一度解除してください。"
        "Unlock this key card once before enabling fully automatic mounting."
      let entry ← entryAt index
      attempted (saveEntry entry)
      syncStartup
    | some master => do
      match ← (Prog.attempt (prepareCredential entry master) : AppProg _) with
      | .ok () => saveShown index
      | .error e => do
        setEntry index fun entry => { entry with autoUnlock := false }
        setStatus .error e
        saveShown index
  else do
    attempted (command Moment.ended)
    saveShown index

/-! ## Unlocking -/

/-- The next key card of the startup, or its end. -/
def nextStartupKey : AppProg Unit := do
  change fun app => { app with startupIndex := app.startupIndex + 1 }
  let app ← theApp
  match app.startupKeys[app.startupIndex]? with
  | some next => do
    let fingerprint ← fingerprintOf (PathText.read next)
    close
    change fun app => { app with keyPath := next, keyFingerprint := fingerprint, credential := "" }
    say .info "次のキーカードを解除してください。" "Unlock the next key card."
  | none => do
    change fun app => { app with startupMode := false }
    say .success "自動マウント処理が完了しました。" "Auto-mount startup processing is complete."

def mountStartupEntriesForCurrentKey : AppProg Unit := do
  let app ← theApp
  let targets := (app.entries.zipIdx.filter fun item =>
    item.1.autoMount && !item.1.autoUnlock && samePath item.1.keyPath (trim app.keyPath)).map
      Prod.snd
  targets.forM mountEntry
  nextStartupKey

/-- What an unlocked key card goes on with. -/
def afterUnlock : AppProg Unit := do
  let app ← theApp
  if app.startupMode then mountStartupEntriesForCurrentKey
  else
    match app.pendingMountId with
    | none => pure ()
    | some id => do
      change fun app => { app with pendingMountId := none }
      match app.entries.findIdx? (·.id == id) with
      | none => pure ()
      | some index => mountEntry index

omit [PathText] in
/-- A key source of either kind is opened. -/
def openSource (path : Path) (state : PinCard.PinCardState) (credential : String) :
    AppProg MasterKey :=
  match state with
  | .ready => onHost .pin fun m => PinCard.unlockPinCard m.account path credential
  | _ => onHost .key fun _ => Keycard.unlockKeySource path (ascii credential)

/-- The credential that was typed is tried, and gone. -/
def tryCredential (path : Path) (state : PinCard.PinCardState) : AppProg Unit := do
  let app ← theApp
  change fun app => { app with credential := "" }
  match ← (Prog.attempt (openSource path state app.credential) : AppProg _) with
  | .error e => setStatus .error e
  | .ok master => do
    tell (.opened path app.credential master)
    change fun app => { app with master := some master }
    say .success "キーカードを解除しました。" "Key card unlocked."
    afterUnlock

def unlockKey : AppProg Unit := do
  let app ← theApp
  let path := PathText.read (trim app.keyPath)
  let found ← ask fun m => isFile m path
  if !found then say .error "キーカードを選んでください。" "Choose a key card first."
  else do
    match ← pinState path with
    | .bindingMissing =>
      say .error "このPINカードの端末登録がありません。元のWindows端末または回復用キーが必要です。"
        ("This PIN card has no device binding here. " ++
          "Use the original Windows device or a recovery key.")
    | state => tryCredential path state

/-! ## New volumes and new cards -/

def internalBlockSize : UInt32 := 64 * 1024

omit [KeyCrypto] [CardImaging] [PathText] [Crypto] in
/-- The entry of a new volume. -/
def newEntry (app : App) (volumeId : FixedBytes 32) (output : Text) : MountEntry where
  id := (volumeIdHex volumeId).take 24
  volumePath := output
  keyPath := trim app.keyPath
  preferredLetter := (app.createLetter.find? Char.isAlpha).map Char.toUpper
  readOnly := app.createReadOnly
  autoMount := app.createAutoMount
  autoUnlock := app.createAutoMount && app.createAutoUnlock
  taskRegistered := false

/-- The credential for an entry that is to unlock itself. -/
def prepareIfAutomatic (index : ℕ) (master : MasterKey) : AppProg Unit := do
  let entry ← entryAt index
  onClick entry.autoUnlock (prepareCredential entry master)

/-- A new volume is registered, and mounted. -/
def registerVolume (entry : MountEntry) (master : MasterKey) : AppProg Unit := do
  tell (.created entry master)
  match ← (Prog.attempt (saveEntry entry) : AppProg _) with
  | .error e => setStatus .error e
  | .ok () => do
    refreshEntries
    let app ← theApp
    match app.entries.findIdx? (·.id == entry.id) with
    | none => setStatus .error (.text "Created volume registration could not be reloaded.")
    | some index => do
      match ← (Prog.attempt (ensureTask index) : AppProg _) with
      | .error e => setStatus .error (.integration e)
      | .ok () => do
        match ← (Prog.attempt (prepareIfAutomatic index master) : AppProg _) with
        | .error e => setStatus .error e
        | .ok () => do
          syncStartup
          mountEntry index
          say .success ("暗号ドライブを作成し、接続を開始しました: " ++ String.ofList entry.volumePath)
            ("Encrypted drive created and connection started: " ++ String.ofList entry.volumePath)

/-- A new volume file, with an empty partition on it. -/
def makeVolume (app : App) (output : Text) (master : MasterKey) (options : VolumeOptions) :
    AppProg Unit := do
  match ← ask fun m => m.created options with
  | .error e => setStatus .error (.volume e)
  | .ok volumeId => do
    match ← (Prog.attempt (command Moment.ended) : AppProg _) with
    | .error e => do
      attempted (command Moment.ended)
      setStatus .error e
    | .ok () => do
      match ← (Prog.attempt (command Moment.ended) : AppProg _) with
      | .error e => setStatus .error e
      | .ok () => registerVolume (newEntry app volumeId output) master

/-- The capacity in bytes, if it is one. -/
def capacityOf (gib : UInt64) : Option UInt64 :=
  (checkedMul gib (1024 * 1024 * 1024)).filter (0 < ·)

/-- A new volume, if what was typed is a capacity. -/
def createAt (app : App) (output : Text) (master : MasterKey) : Option UInt64 → AppProg Unit
  | none => setStatus .error (.text "Invalid capacity.")
  | some capacity => makeVolume app output master ⟨capacity, internalBlockSize⟩

def createVolume : AppProg Unit := do
  let app ← theApp
  match app.master with
  | none => say .error "先にキーカードを解除してください。" "Unlock a key card first."
  | some master => do
    let found ← ask fun m => isFile m (PathText.read (trim app.keyPath))
    if !found then say .error "キーカードが見つかりません。" "Key card file not found."
    else do
      match ← ask Moment.picked with
      | none => pure ()
      | some output => createAt app output master (capacityOf app.createSizeGib)

/-- A new card is unlocked with its PIN. -/
def unlockNewCard (output : Text) (pin : String) (info : Keycard.KeyCardInfo) : AppProg Unit := do
  let path := PathText.read output
  match ← (Prog.attempt (onHost .pin fun m => PinCard.unlockPinCard m.account path pin) :
    AppProg _) with
  | .error e => setStatus .error e
  | .ok master => do
    tell (.opened path pin master)
    change fun app => { app with
      keyPath := output, keyFingerprint := some info.cardId, master := some master }
    say .success "4桁PINキーカードを作成し、解除しました。" "Created and unlocked a four-digit PIN key card."

def createPinCard : AppProg Unit := do
  let app ← theApp
  if !PinCard.pinIsValid app.createPin || app.createPin != app.createPinConfirm then
    say .error "PINは同じ数字4桁を2回入力してください。" "Enter the same four-digit PIN twice."
  else do
    match ← ask Moment.picked with
    | none => pure ()
    | some output => do
      change fun app => { app with createPin := "", createPinConfirm := "" }
      match ← (Prog.attempt (onHost .pin fun m =>
        PinCard.createPinCard m.account.toPlatform m.pinDraws
        m.capsule (PathText.read output) app.createPin default false) : AppProg _) with
      | .error e => setStatus .error e
      | .ok info => unlockNewCard output app.createPin info

/-! ## A pass over the window -/

inductive EntryAction where
  | none
  | connect
  | disconnect
  | openDrive
  | openFolder
  | remove
  deriving DecidableEq, Repr

/-- What the user does with one entry; the boxes are there when its settings are open. -/
structure EntryInput where
  expanded : Bool
  readOnly : Bool
  autoMount : Bool
  autoUnlock : Bool
  action : EntryAction

structure KeyInput where
  choose : Bool
  lock : Bool
  typed : String
  unlock : Bool
  pin : String
  pinConfirm : String
  create : Bool

structure CreateInput where
  sizeGib : UInt64
  letter : Text
  readOnly : Bool
  autoMount : Bool
  autoUnlock : Bool
  create : Bool

structure Frame where
  language : Bool
  entries : ℕ → EntryInput
  key : KeyInput
  create : CreateInput

omit [KeyCrypto] [CardImaging] [PathText] [Crypto] in
/-- The entry with the boxes that were clicked, and whether one was. -/
def EntryInput.edit (input : EntryInput) (entry : MountEntry) : MountEntry × Bool :=
  if !input.expanded then (entry, false)
  else
    let readOnly := entry.readOnly ^^ input.readOnly
    let autoMount := entry.autoMount ^^ input.autoMount
    let toggled := autoMount && input.autoUnlock
    ({ entry with
      readOnly := readOnly, autoMount := autoMount, autoUnlock :=
        autoMount && (entry.autoUnlock ^^ toggled) },
      input.readOnly || input.autoMount || toggled)

def policyPanel (index : ℕ) (input : EntryInput) : AppProg Unit := do
  let entry ← entryAt index
  setEntry index fun entry => (input.edit entry).1
  onClick (input.edit entry).2 (applyEntryPolicy index)

def entryPanel (index : ℕ) (input : EntryInput) : AppProg Unit := do
  let _ ← entryAt index
  let mounted ← ask Moment.mounted
  policyPanel index input
  match input.action with
  | .connect => onClick (!mounted) (mountEntry index)
  | .disconnect => onClick mounted (unmountEntry index)
  | .remove => onClick input.expanded (removeEntry index)
  | _ => pure ()

/-- One panel for each entry there was when the pass began. -/
def entriesPanel (inputs : ℕ → EntryInput) : AppProg Unit := do
  let app ← theApp
  (List.range app.entries.length).forM fun index => entryPanel index (inputs index)

omit [KeyCrypto] [CardImaging] [PathText] [Crypto] in
def lockKey : AppProg Unit := do
  close
  change fun app => { app with credential := "" }

def credentialField (input : KeyInput) : AppProg Unit := do
  let app ← theApp
  if app.master.isSome || app.keyPath.isEmpty then pure ()
  else do
    match ← pinState (PathText.read (trim app.keyPath)) with
    | .ready => do
      change fun app =>
        { app with credential := if input.typed.length ≤ 4 then input.typed else app.credential }
      let app ← theApp
      onClick (input.unlock && PinCard.pinIsValid app.credential) unlockKey
    | .notPinCard => do
      change fun app => { app with credential := input.typed }
      onClick (input.unlock && !input.typed.isEmpty) unlockKey
    | .bindingMissing => pure ()

def pinFields (input : KeyInput) : AppProg Unit := do
  change fun app => { app with
    createPin := if input.pin.length ≤ 4 then input.pin else app.createPin
    createPinConfirm :=
      if input.pinConfirm.length ≤ 4 then input.pinConfirm else app.createPinConfirm }
  let app ← theApp
  onClick (input.create && PinCard.pinIsValid app.createPin && app.createPin ==
    app.createPinConfirm) createPinCard

def keyPanel (input : KeyInput) : AppProg Unit := do
  onClick input.choose chooseKey
  let app ← theApp
  onClick (input.lock && app.master.isSome) lockKey
  credentialField input
  pinFields input

def createPanel (input : CreateInput) : AppProg Unit := do
  change fun app => { app with
    createSizeGib := max 1 (min 16384 input.sizeGib), createLetter := input.letter.take 1,
    createReadOnly := input.readOnly, createAutoMount := input.autoMount,
    createAutoUnlock := if input.autoMount then input.autoUnlock else app.createAutoUnlock }
  let app ← theApp
  onClick (input.create && app.master.isSome) createVolume

def update (frame : Frame) : AppProg Unit := do
  change fun app => { app with japanese := app.japanese ^^ frame.language }
  entriesPanel frame.entries
  keyPanel frame.key
  createPanel frame.create

/-! ## Starting -/

omit [KeyCrypto] [CardImaging] [Crypto] in
/-- The key cards of the entries that are to be mounted at startup and cannot unlock themselves. -/
def startupKeysOf (entries : List MountEntry) : List Text :=
  entries.foldl (fun keys entry =>
    if entry.autoMount && !entry.autoUnlock && !keys.any (samePath entry.keyPath) then keys ++
      [entry.keyPath]
    else keys) []

/-- The window before anything has happened. -/
def App.blank (japanese : Bool) : App where
  japanese := japanese
  entries := []
  keyPath := []
  keyFingerprint := none
  credential := ""
  master := none
  pendingMountId := none
  createSizeGib := 10
  createLetter := ['O']
  createReadOnly := false
  createAutoMount := false
  createAutoUnlock := false
  createPin := ""
  createPinConfirm := ""
  status := none
  startupMode := false
  startupKeys := []
  startupIndex := 0

omit [KeyCrypto] [CardImaging] [PathText] [Crypto] in
def runAtStartup (entry : MountEntry) : AppProg Unit :=
  onClick (entry.autoMount && entry.autoUnlock) do
    tell (.ranAtStartup entry)
    attempted (command Moment.ended)

/-- The first key card of the startup is asked for, if there is one. -/
def firstStartupKey (keys : List Text) : AppProg Unit := do
  change fun app => { app with startupMode := true, startupKeys := keys }
  match keys.head? with
  | none => pure ()
  | some first => do
    let fingerprint ← fingerprintOf (PathText.read first)
    change fun app => { app with keyPath := first, keyFingerprint := fingerprint }
    say .info "自動マウントするキーカードのPINを入力してください。" "Enter the PIN for the key card used by auto-mount."

/-- `App::new`, in a window that is blank. -/
def new (startupMode : Bool) : AppProg Unit := do
  refreshEntries
  let app ← theApp
  onClick startupMode do
    app.entries.forM runAtStartup
    firstStartupKey (startupKeysOf app.entries)

end

end VolumeApp
end Mount
end OrIsyVra
