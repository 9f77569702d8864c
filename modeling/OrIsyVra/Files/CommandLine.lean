import OrIsyVra.Files.Batches
import OrIsyVra.Files.Capsules
import OrIsyVra.Files.PinCards
import OrIsyVra.Library.Runs
import Mathlib.Logic.Function.Basic

/-!
# The command line

The program `orisyvra` makes key sources, copies them, gives a master key a second password, and
encrypts and decrypts files.  What ties its commands together is the master key: a copy of a key
source opens under the password of the source, a recovery card under one of its own, and both give
the master key of the source, so a container that was made with one of them is opened with any
other.

A `World` has the files, and a ledger of what the commands that returned have put where.  The ledger
forgets what a failed command may have written, and what has changed without a command, and nothing
else.  What it still says is true of the files (`Sound`), whatever commands were run, failed or were
killed; and from that the containers it lists can be decrypted with the keys it lists
(`keys_open_containers`).

The commands sync what they write but not the directory they rename it into, so a power failure may
bring back what was at a path before, or nothing.  It is one of the changes that are made without a
command.
-/

namespace OrIsyVra
namespace CommandLine

open ByteString MachineWord FaultProgram FileSystem Runs Blocks Container
open DurableFile (IoFailure IoError)

/-! ## Errors -/

/-- What stands behind the context of an error. -/
inductive Cause where
  | library (e : Error)
  | fileIo (operation input output : String) (source : IoFailure)
  /-- The console cannot be read. -/
  | console
  deriving DecidableEq, Repr

inductive CliError where
  | bail (message : String)
  | context (message : String) (cause : Cause)
  deriving DecidableEq, Repr

abbrev CliProg := Prog (Host Path) CliError

def withContext {α : Type} (message : String) (p : FileProg α) : CliProg α :=
  Prog.mapError (fun e => .context message (.library e)) p

/-- An error of the system is told with the paths of both files. -/
def contextualizeIo (operation : String) (input output : Path) : Error → Cause
  | .io source => .fileIo operation input.display output.display source
  | other => .library other

/-! ## Commands -/

inductive ModeArgument where
  | guarded
  | native
  deriving DecidableEq, Repr

def ModeArgument.mode : ModeArgument → Mode
  | guarded => .guarded
  | native => .nativeResearch

inductive KeycardCommand where
  | exportCard (key output : Path) (force : Bool)
  | recovery (key output : Path) (force : Bool) (params : KeyfileParams)
  | importCard (input output : Path) (force : Bool)

inductive Command where
  | keygen (output : Path) (card : Option Path) (force : Bool) (params : KeyfileParams)
  | encrypt (input : Path) (output : Option Path) (key : Path) (mode : ModeArgument)
      (acknowledgeExperimentalNative : Bool) (chunkSize : ℕ) (force : Bool)
  | decrypt (input : Path) (output : Option Path) (key : Path) (force : Bool)
  | inspect (input : Path)
  | keycard (command : KeycardCommand)

/-- What a command gets from outside: what is typed at its prompts, in order, and what it draws. -/
structure Session where
  typed : ℕ → Option Bytes
  capsule : Keycard.CapsuleDraws
  /-- The name of the temporary next to the output. -/
  temporary : String
  /-- The name of the one next to the card of `keygen`. -/
  cardTemporary : String
  salt : FixedBytes 32
  fileId : FixedBytes 32

def promptPassword (s : Session) (n : ℕ) : CliProg Bytes :=
  match s.typed n with
  | none => Prog.fail (.context "failed to read passphrase" .console)
  | some password => pure password

/-- Two prompts, from the given one on. -/
def promptNewPassword (s : Session) (n : ℕ) : CliProg Bytes := do
  let password ← promptPassword s n
  let confirmation ← promptPassword s (n + 1)
  if password ≠ confirmation then Prog.fail (.bail "passphrases do not match") else pure password

/-! ## Names -/

def isPng (path : Path) : Bool :=
  (path.getLast?.bind Keycard.extension).map (·.map Char.toLower) == some ['p', 'n', 'g']

/-- The path with more characters at its end. -/
def pushed (path : Path) (suffix : String) : Path :=
  path.dropLast ++ [path.getLast?.getD "" ++ suffix]

def encryptedOutput (input : Path) : Path := pushed input ".orisyvra"

/-- The last component, when it is a name. -/
def fileName (path : Path) : Option String := path.getLast?.filter (· != "..")

def decryptedOutput (input : Path) : Path :=
  let name := (fileName input).getD "decrypted"
  match Batches.stripSuffix name.toList Batches.containerSuffix with
  | some stripped =>
    input.parent.join (if stripped = [] then "decrypted" else String.ofList stripped)
  | none => pushed input ".decrypted"

def displayName : Mode → String
  | .nativeResearch => "native-research"
  | .guarded => "guarded"

def printFileId (fileId : FixedBytes 32) : String :=
  String.ofList (fileId.val.flatMap fun byte =>
    [PinCard.hexLower.getD (byte.toNat / 16) '0', PinCard.hexLower.getD (byte.toNat % 16) '0'])

def printInfo (info : FileInfo) : List String :=
  ["Version    : " ++ toString info.version, "Mode       : " ++ displayName info.mode,
    "Chunk size : " ++ toString info.chunkSize, "File ID    : " ++ printFileId info.fileId]

/-- A path and what is told of it in brackets. -/
def told (head : String) (path : Path) (detail : String) : String :=
  head ++ path.display ++ detail

/-! ## The program -/

section

variable [KeyCrypto] [CardImaging] [Crypto]

/-- The first half of `keygen`: the key source, and what is told of it. -/
def createSource (output : Path) (password : Bytes) (force : Bool)
    (params : KeyfileParams) (s : Session) :
    CliProg String :=
  if isPng output then do
    let info ← withContext ("failed to create " ++ output.display)
      (Keycard.createKeycard s.capsule output password params force)
    pure (told "Visual key: " output (" (" ++ info.cardId ++ ")"))
  else do
    withContext ("failed to create " ++ output.display)
      (createKeyfile s.temporary output password params
      s.capsule.master s.capsule.salt s.capsule.nonce force)
    pure (told "Legacy key capsule: " output "")

def keygen (output : Path) (card : Option Path) (force : Bool)
    (params : KeyfileParams) (s : Session) :
    CliProg (List String) := do
  let password ← promptNewPassword s 0
  let created ← createSource output password force params s
  match card with
  | none => pure [created]
  | some card => do
    let info ← withContext ("failed to create " ++ card.display)
      (Keycard.exportKeycard s.cardTemporary output card force)
    pure [created, told "Backup: " card (" (" ++ info.cardId ++ ")")]

def encrypt (input : Path) (output : Option Path) (key : Path) (mode : ModeArgument)
    (acknowledgeExperimentalNative : Bool) (chunkSize : ℕ) (force : Bool) (s : Session) :
    CliProg (List String) :=
  if mode.mode = .nativeResearch ∧ acknowledgeExperimentalNative = false then
    Prog.fail (.bail "native mode requires --acknowledge-experimental-native")
  else do
    let output := output.getD (encryptedOutput input)
    let password ← promptPassword s 0
    let master ← withContext ("failed to unlock " ++ key.display)
      (Keycard.unlockKeySource key password)
    Prog.mapError (fun e => .context ("failed to encrypt " ++ input.display)
        (contextualizeIo "encryption" input output e))
      (encryptFile s.temporary s.salt s.fileId input output master ⟨mode.mode, chunkSize, force⟩)
    pure [told "Encrypted: " output (" [" ++ displayName mode.mode ++ "]")]

def decrypt (input : Path) (output : Option Path) (key : Path) (force : Bool) (s : Session) :
    CliProg (List String) := do
  let output := output.getD (decryptedOutput input)
  let password ← promptPassword s 0
  let master ← withContext ("failed to unlock " ++ key.display)
    (Keycard.unlockKeySource key password)
  let info ← Prog.mapError (fun e => .context ("failed to decrypt " ++ input.display)
      (contextualizeIo "decryption" input output e))
    (decryptFile s.temporary input output master force)
  pure [told "Decrypted: " output (" [" ++ displayName info.mode ++ "]")]

def keycard (command : KeycardCommand) (s : Session) : CliProg (List String) :=
  match command with
  | .exportCard key output force => do
    let info ← withContext ("failed to create " ++ output.display)
      (Keycard.exportKeycard s.temporary key output force)
    pure [told "Created: " output (" (" ++ info.cardId ++ ")")]
  | .recovery key output force params => do
    let current ← promptPassword s 0
    let recovery ← promptNewPassword s 1
    let info ← withContext ("failed to create " ++ output.display)
      (Keycard.exportRecoveryKeycard s.temporary key current recovery params s.capsule.salt
        s.capsule.nonce output force)
    pure [told "Created: " output (" (" ++ info.cardId ++ ")")]
  | .importCard input output force => do
    let info ← withContext ("failed to restore " ++ output.display)
      (Keycard.importKeycard s.temporary input output force)
    pure [told "Restored: " output (" (" ++ info.cardId ++ ")")]

/-- The lines a command prints, when it returns. -/
def main (c : Command) (s : Session) : CliProg (List String) :=
  match c with
  | .keygen output card force params => keygen output card force params s
  | .encrypt input output key mode acknowledge chunkSize force =>
    encrypt input output key mode acknowledge chunkSize force s
  | .decrypt input output key force => decrypt input output key force s
  | .inspect input => do
    let info ← withContext ("failed to inspect " ++ input.display) (inspectFile input)
    pure (printInfo info)
  | .keycard command => keycard command s

end

/-! ## The ledger -/

/-- What is known of a file. -/
inductive Content where
  /-- A key source: the capsule in it, the password that opens it, and the master key. -/
  | key (capsule password : Bytes) (master : MasterKey)
  /-- A container of a plaintext. -/
  | container (master : MasterKey) (plaintext : Bytes) (info : FileInfo)
  /-- Nothing. -/
  | other

/-- A key source as it is, and nothing of anything else. -/
def Content.asKey : Content → Content
  | key capsule password master => key capsule password master
  | _ => other

/-- A card in a PDF is read by a scanner only. -/
def Content.onCard (content : Content) (output : Path) : Content :=
  if Keycard.isPdf output then other else content

structure World where
  files : Files Path
  ledger : Path → Content

/-- Nothing is known yet. -/
def World.start (files : Files Path) : World := ⟨files, fun _ => .other⟩

/-- The ledger with more entries, later ones over earlier ones. -/
def enter (ledger : Path → Content) (entries : List (Path × Content)) : Path → Content :=
  entries.foldl (fun ledger entry => Function.update ledger entry.1 entry.2) ledger

section

variable [KeyCrypto] [CardImaging] [Crypto]

/-- The master key the source at a path gives for a password. -/
def opensTo (files : Files Path) (source : Path) (password : Bytes) : Option MasterKey := do
  let c ← files source
  let capsule ← (Keycard.capsuleOf c.bytes).toOption
  (unlockKeyfileBytes capsule password).toOption

omit [CardImaging] in
/-- The key source that is made of a master key. -/
def newKey (s : Session) (params : KeyfileParams) (master : MasterKey) (password : Bytes) :
    Content :=
  match encodeKeyfileBytes master password params s.capsule.salt s.capsule.nonce with
  | .ok capsule => .key capsule password master
  | .error _ => .other

/-- What a command that returns has written, in order. -/
def World.writes (w : World) (s : Session) : Command → List (Path × Content)
  | .keygen output card _ params =>
    let key := newKey s params s.capsule.master ((s.typed 0).getD [])
    (output, key) :: card.toList.map fun card => (card, key.onCard card)
  | .encrypt input output key mode _ chunkSize _ =>
    [(output.getD (encryptedOutput input),
      match opensTo w.files key ((s.typed 0).getD []), w.files input with
      | some master, some c =>
        .container master c.bytes ⟨fileVersion, mode.mode, chunkSize, s.fileId⟩
      | _, _ => .other)]
  | .decrypt input output _ _ => [(output.getD (decryptedOutput input), .other)]
  | .inspect _ => []
  | .keycard (.exportCard key output _) => [(output, (w.ledger key).asKey.onCard output)]
  | .keycard (.recovery key output _ params) =>
    [(output, Content.onCard (match opensTo w.files key ((s.typed 0).getD []) with
      | some master => newKey s params master ((s.typed 1).getD [])
      | none => .other) output)]
  | .keycard (.importCard input output _) =>
    [(output, match w.files input with
      | some c => if Png.startsWith c.bytes Png.signature then (w.ledger input).asKey else .other
      | none => .other)]

/-- The ledger after a command: it forgets what a command that has not returned may have written. -/
def World.noted (w : World) (c : Command) (s : Session) :
    Outcome CliError (List String) → Path → Content
  | .ok _ => enter w.ledger (w.writes s c)
  | _ => enter w.ledger ((w.writes s c).map fun entry => (entry.1, .other))

omit [KeyCrypto] [CardImaging] [Crypto] in
/-- The world with other files: the ledger keeps what has not changed. -/
def World.changed (w : World) (files : Files Path) : World :=
  ⟨files, fun p => if files p = w.files p then w.ledger p else .other⟩

omit [KeyCrypto] [CardImaging] [Crypto] in
@[simp] theorem World.files_changed (w : World) (files : Files Path) :
    (w.changed files).files = files := rfl

/-! ## Runs -/

inductive Event where
  | ran (c : Command) (s : Session) (o : Outcome CliError (List String))
  | others

omit [KeyCrypto] [CardImaging] [Crypto] in
/-- The temporary directory of `keygen` is new. -/
def Session.Fresh (s : Session) (w : World) : Command → Prop
  | .keygen output _ _ _ => ∀ p, s.capsule.directory <+: p → w.files p = none ∧ p ≠ output
  | _ => True

inductive Step (w : World) : Event → World → Prop
  /-- A command runs to its end, or is killed. -/
  | ran {c : Command} {s : Session} {h t : Host Path} {o : Outcome CliError (List String)}
      (hfiles : h.files = w.files) (hfresh : s.Fresh w c) (hrun : main c s h = (o, t)) :
      Step w (.ran c s o) ⟨t.files, w.noted c s o⟩
  /-- Files have changed without a command: other programs have written them, or a power failure has
  undone what had not reached the disk. -/
  | others {files : Files Path} : Step w .others (w.changed files)

/-! ## What the ledger says -/

/-- The file at a path is what the ledger has it for, and on the disk. -/
inductive Holds (files : Files Path) (p : Path) : Content → Prop
  | key {image capsule password : Bytes} {master : MasterKey} (hfile : files p = some ⟨image, true⟩)
      (hcapsule : Keycard.capsuleOf image = .ok capsule)
      (hopens : unlockKeyfileBytes capsule password = .ok master) :
      Holds files p (.key capsule password master)
  | container {file : Bytes} {master : MasterKey} {header : Header} {plaintexts : List Bytes}
      (hfile : files p = some ⟨file, true⟩)
      (haccepted : AcceptedFile master file header plaintexts) :
      Holds files p (.container master plaintexts.flatten header.info)
  | other : Holds files p .other

/-- The ledger is true of the files. -/
def Sound (w : World) : Prop := ∀ p, Holds w.files p (w.ledger p)

end

/-! ## What a command spares -/

section

variable {files : Files Path} {kept : Set Path} {name : String} {output : Path} {overwrite : Bool}

theorem maintains_writeKeyfileBytes (hkept : ∀ p ∈ kept, files p ≠ none) (houtput : output ∉ kept)
    (bytes : Bytes) : Maintains (Spared files kept)
    (writeKeyfileBytes name output bytes overwrite) :=
  .bind (.ofExcept _) fun _ => maintains_writeThroughTemporary hkept houtput _ _ _

theorem maintains_removeTree {directory : Path} (hdirectory : ∀ p ∈ kept, ¬directory <+: p) :
    Maintains (Spared files kept) (Keycard.removeTree directory) := by
  refine maintains_change fun before after hs he p hp => ?_
  have hnot : ¬directory.isPrefixOf p = true := fun hprefix =>
    hdirectory p hp (List.isPrefixOf_iff_prefix.mp hprefix)
  rw [← Except.ok.inj he]
  show (if directory.isPrefixOf p = true then none else before p) = files p
  rw [if_neg hnot]
  exact hs hp

/-- A program that has only the temporary open. -/
theorem maintains_filled {temporary : Path} {body : FileProg Unit} (htemporary : temporary ∉ kept)
    (hbody : Leaves (outside temporary) body) :
    Maintains (Spared files kept) (dropping temporary body) := by
  refine maintains_dropping htemporary (.of_leaves hbody fun s t hview hs p hp => ?_)
  have hne : p ≠ temporary := by
    rintro rfl
    exact htemporary hp
  rw [(of_outside_eq hview).1 p hne]
  exact hs hp

theorem maintains_persistOutput {temporary : Path} (htemporary : temporary ∉ kept)
    (houtput : output ∉ kept) :
    Maintains (Spared files kept) (persistOutput temporary output overwrite) :=
  maintains_dropping htemporary (maintains_settleTemporary htemporary houtput)

section

variable [Crypto]

theorem maintains_encryptFile (hkept : ∀ p ∈ kept, files p ≠ none) (houtput : output ∉ kept)
    {salt fileId : FixedBytes 32} {input : Path} {master : MasterKey} {options : EncryptOptions} :
    Maintains (Spared files kept) (encryptFile name salt fileId input output master options) := by
  refine .bind (.ofExcept _) fun _ => .ite (fun _ => .fail _) fun _ => ?_
  refine .bind (.ofExcept _) fun header => .bind (.ofExcept _) fun suite => ?_
  refine .bind (maintains_inspect _) fun rest => ?_
  exact .bind_ok (maintains_createOutputTemp hkept)
    (fun _ _ _ hs hrun => not_mem_of_createOutputTemp hkept hs hrun) fun temporary htemporary =>
      .bind (maintains_filled htemporary (leaves_encryptTo suite options.chunkSize temporary rest))
        fun _ => maintains_persistOutput htemporary houtput

theorem maintains_decryptFile (hkept : ∀ p ∈ kept, files p ≠ none) (houtput : output ∉ kept)
    {input : Path} {master : MasterKey} :
    Maintains (Spared files kept) (decryptFile name input output master overwrite) := by
  refine .ite (fun _ => .fail _) fun _ => .bind (maintains_inspect _) fun bytes => ?_
  refine .bind (maintains_inspect _) fun r => .bind (.ofExcept _) fun header => ?_
  refine .bind (.ofExcept _) fun suite => ?_
  exact .bind_ok (maintains_createOutputTemp hkept)
    (fun _ _ _ hs hrun => not_mem_of_createOutputTemp hkept hs hrun) fun temporary htemporary =>
      .bind (maintains_filled htemporary (leaves_decryptTo suite temporary r.2))
        fun _ => .bind (maintains_persistOutput htemporary houtput) fun _ => .pure _

end

section

variable [KeyCrypto] [CardImaging]

theorem maintains_sourceBytes (source : Path) :
    Maintains (Spared files kept) (Keycard.sourceBytes source) :=
  .bind (maintains_inspect _) fun _ => .ofExcept _

theorem maintains_exportBytes (hkept : ∀ p ∈ kept, files p ≠ none) (houtput : output ∉ kept)
    (keyfile : Bytes) : Maintains (Spared files kept)
    (Keycard.exportBytes name keyfile output overwrite) :=
  .bind (.ofExcept _) fun _ =>
    .bind (maintains_writeThroughTemporary hkept houtput _ _ _) fun _ => .pure _

theorem maintains_exportKeycard (hkept : ∀ p ∈ kept, files p ≠ none) (houtput : output ∉ kept)
    (source : Path) : Maintains (Spared files kept)
    (Keycard.exportKeycard name source output overwrite) :=
  .bind (maintains_sourceBytes source) fun keyfile => maintains_exportBytes hkept houtput keyfile

theorem maintains_importKeycard (hkept : ∀ p ∈ kept, files p ≠ none) (houtput : output ∉ kept)
    (input : Path) : Maintains (Spared files kept)
    (Keycard.importKeycard name input output overwrite) :=
  .bind (maintains_inspect _) fun _ => .bind (.ofExcept _) fun keyfile =>
    .bind (maintains_writeKeyfileBytes hkept houtput keyfile) fun _ => .pure _

variable [Crypto]

omit [CardImaging] in
theorem maintains_createKeyfile (hkept : ∀ p ∈ kept, files p ≠ none) (houtput : output ∉ kept)
    {password : Bytes} {params : KeyfileParams} {master : MasterKey} {salt : FixedBytes 16}
    {nonce : FixedBytes 24} : Maintains (Spared files kept)
      (createKeyfile name output password params master salt nonce overwrite) :=
  .bind (.ofExcept _) fun _ => .bind (.ofExcept _) fun _ => .bind (.ofExcept _) fun bytes =>
    maintains_writeKeyfileBytes hkept houtput bytes

theorem maintains_createKeycard (hkept : ∀ p ∈ kept, files p ≠ none) (houtput : output ∉ kept)
    {draws : Keycard.CapsuleDraws} (hdirectory : ∀ p ∈ kept, ¬draws.directory <+: p)
    {password : Bytes} {params : KeyfileParams} : Maintains (Spared files kept)
      (Keycard.createKeycard draws output password params overwrite) := by
  have hkey : draws.directory.join "visual-key.orisyvra-key" ∉ kept := fun hmem =>
    hdirectory _ hmem (List.prefix_append _ _)
  refine .bind maintains_makeDirs fun _ => .bind (.attempt ?_) fun result => ?_
  · exact .bind (maintains_createKeyfile hkept hkey) fun _ =>
      maintains_exportKeycard hkept houtput _
  · exact .bind (maintains_removeTree hdirectory).attempt fun _ => .ofExcept _

theorem maintains_exportRecoveryKeycard (hkept : ∀ p ∈ kept, files p ≠ none)
    (houtput : output ∉ kept) {source : Path} {current recovery : Bytes} {params : KeyfileParams}
    {salt : FixedBytes 16}
    {nonce : FixedBytes 24} : Maintains (Spared files kept)
      (Keycard.exportRecoveryKeycard name source current recovery params salt nonce
        output overwrite) :=
  .bind (maintains_sourceBytes source) fun _ => .bind (.ofExcept _) fun _ =>
    .bind (.ofExcept _) fun capsule => maintains_exportBytes hkept houtput capsule

omit [KeyCrypto] [CardImaging] [Crypto] in
theorem maintains_promptPassword (s : Session) (n : ℕ) :
    Maintains (Spared files kept) (promptPassword s n) := by
  unfold promptPassword
  split
  · exact .fail _
  · exact .pure _

omit [KeyCrypto] [CardImaging] [Crypto] in
theorem maintains_promptNewPassword (s : Session) (n : ℕ) :
    Maintains (Spared files kept) (promptNewPassword s n) :=
  .bind (maintains_promptPassword s n) fun _ => .bind (maintains_promptPassword s (n + 1)) fun _ =>
    .ite (fun _ => .fail _) fun _ => .pure _

/-- **A command spares every file that was there, but for its outputs**, however it ends. -/
theorem maintains_main {w : World} {c : Command} {s : Session} (hfresh : s.Fresh w c)
    (hkept : ∀ p ∈ kept, w.files p ≠ none)
    (houtputs : ∀ p ∈ (w.writes s c).map Prod.fst, p ∉ kept) :
    Maintains (Spared w.files kept) (main c s) := by
  have hunlock : ∀ (key : Path) (password : Bytes), Maintains (Spared w.files kept)
      (withContext ("failed to unlock " ++ key.display) (Keycard.unlockKeySource key password)) :=
    fun key password => .mapError _ (.bind (maintains_sourceBytes key) fun _ => .ofExcept _)
  cases c with
  | keygen output card force params =>
    have houtput := houtputs output List.mem_cons_self
    have hdirectory : ∀ p ∈ kept, ¬s.capsule.directory <+: p := fun p hp hinside =>
      hkept p hp (hfresh p hinside).1
    refine .bind (maintains_promptNewPassword s 0) fun password => .bind ?_ fun created => ?_
    · refine .ite (fun _ => ?_) fun _ => ?_
      · exact .bind (.mapError _ (maintains_createKeycard hkept houtput hdirectory))
          fun _ => .pure _
      · exact .bind (.mapError _ (maintains_createKeyfile hkept houtput)) fun _ => .pure _
    · cases card with
      | none => exact .pure _
      | some card =>
        have hcard := houtputs card (List.mem_cons_of_mem _ List.mem_cons_self)
        exact .bind (.mapError _ (maintains_exportKeycard hkept hcard output)) fun _ => .pure _
  | encrypt input output key mode acknowledge chunkSize force =>
    have houtput := houtputs _ List.mem_cons_self
    refine .ite (fun _ => .fail _) fun _ => .bind (maintains_promptPassword s 0) fun password => ?_
    refine .bind (hunlock key password) fun master => ?_
    exact .bind (.mapError _ (maintains_encryptFile hkept houtput)) fun _ => .pure _
  | decrypt input output key force =>
    have houtput := houtputs _ List.mem_cons_self
    refine .bind (maintains_promptPassword s 0) fun password =>
      .bind (hunlock key password) fun master => ?_
    exact .bind (.mapError _ (maintains_decryptFile hkept houtput)) fun _ => .pure _
  | inspect input =>
    refine .bind (.mapError _ (.bind (maintains_inspect _) fun _ => ?_)) fun _ => .pure _
    exact .bind (maintains_inspect _) fun _ => .bind (.ofExcept _) fun _ => .pure _
  | keycard command =>
    cases command with
    | exportCard key output force =>
      have houtput := houtputs output List.mem_cons_self
      exact .bind (.mapError _ (maintains_exportKeycard hkept houtput key)) fun _ => .pure _
    | recovery key output force params =>
      have houtput := houtputs output List.mem_cons_self
      refine .bind (maintains_promptPassword s 0) fun _ =>
        .bind (maintains_promptNewPassword s 1) fun _ => ?_
      exact .bind (.mapError _ (maintains_exportRecoveryKeycard hkept houtput)) fun _ => .pure _
    | importCard input output force =>
      have houtput := houtputs output List.mem_cons_self
      exact .bind (.mapError _ (maintains_importKeycard hkept houtput input)) fun _ => .pure _

end

end

/-! ## What a command that returns has done -/

section

variable {h t : Host Path} {s : Session} {n : ℕ} {password : Bytes}

theorem promptPassword_eq_ok (hrun : promptPassword s n h = (.ok password, t)) :
    s.typed n = some password ∧ t = h := by
  unfold promptPassword at hrun
  rcases htyped : s.typed n with _ | typed <;> rw [htyped] at hrun
  · exact absurd hrun fail_ne_ok
  · obtain ⟨rfl, rfl⟩ := pure_eq_ok.mp hrun
    exact ⟨rfl, rfl⟩

theorem promptNewPassword_eq_ok (hrun : promptNewPassword s n h = (.ok password, t)) :
    s.typed n = some password ∧ t = h := by
  obtain ⟨first, t₁, hfirst, hrest⟩ := bind_eq_ok.mp hrun
  obtain ⟨htyped, rfl⟩ := promptPassword_eq_ok hfirst
  obtain ⟨second, t₂, hsecond, hcheck⟩ := bind_eq_ok.mp hrest
  obtain ⟨-, rfl⟩ := promptPassword_eq_ok hsecond
  split at hcheck
  · exact absurd hcheck fail_ne_ok
  · obtain ⟨rfl, rfl⟩ := pure_eq_ok.mp hcheck
    exact ⟨htyped, rfl⟩

variable [KeyCrypto] [CardImaging] [Crypto] {files : Files Path} {p source output : Path}
  {name : String} {overwrite : Bool} {capsule : Bytes} {master : MasterKey} {content : Content}

/-- The content is a key source with the capsule, or nothing. -/
inductive KeyWith (capsule : Bytes) : Content → Prop
  | key {password : Bytes} {master : MasterKey}
      (hopens : unlockKeyfileBytes capsule password = .ok master) :
      KeyWith capsule (.key capsule password master)
  | other : KeyWith capsule .other

omit [CardImaging] in
theorem keyWith_newKey [LawfulCrypto] {params : KeyfileParams}
    (hmade : encodeKeyfileBytes master password params s.capsule.salt s.capsule.nonce =
      .ok capsule) :
    KeyWith capsule (newKey s params master password) := by
  unfold newKey
  rw [hmade]
  exact .key (unlock_of_encode hmade)

/-- What is copied from a key source is what the ledger says of it. -/
theorem Holds.keyWith {c : Contents} (hholds : Holds files p content) (hc : files p = some c)
    (hcapsule : Keycard.capsuleOf c.bytes = .ok capsule) : KeyWith capsule content.asKey := by
  cases hholds with
  | key hfile hcapsule' hopens =>
    obtain rfl := Option.some.inj (hc.symm.trans hfile)
    obtain rfl := Except.ok.inj (hcapsule.symm.trans hcapsule')
    exact .key hopens
  | container _ _ => exact .other
  | other => exact .other

/-- A capsule on the disk is a key source. -/
theorem holds_of_capsule (hvalid : validateKeyfileBytes capsule = .ok ())
    (hfile : files p = some ⟨capsule, true⟩) (hkey : KeyWith capsule content) :
    Holds files p content := by
  cases hkey with
  | key hopens => exact .key hfile (PinCard.capsuleOf_capsule hvalid) hopens
  | other => exact .other

omit [Crypto] in
/-- What is in the chunk of a card is its capsule. -/
theorem capsuleOf_of_extractKeyChunk {card : Bytes}
    (hextract : Keycard.extractKeyChunk card = .ok (some capsule)) :
    Keycard.capsuleOf card = .ok capsule := by
  rcases hstarts : Png.startsWith card Png.signature with _ | _
  · unfold Keycard.extractKeyChunk at hextract
    rw [hstarts] at hextract
    exact absurd hextract (by simp)
  · unfold Keycard.capsuleOf Keycard.decodeKeycardImage
    rw [hstarts, hextract]
    rfl

omit [Crypto] in
theorem capsuleOf_of_renderPngCard (hencoder : PinCard.PlainEncoder) {card : Bytes}
    {info : Keycard.KeyCardInfo} (hrender : Keycard.renderPngCard capsule = .ok (card, info)) :
    Keycard.capsuleOf card = .ok capsule := by
  unfold Keycard.renderPngCard at hrender
  obtain ⟨_, hvalid, hrender⟩ := except_bind_eq_ok.mp hrender
  obtain ⟨png, hpng, hrender⟩ := except_bind_eq_ok.mp hrender
  obtain ⟨card', hinject, hrender⟩ := except_bind_eq_ok.mp hrender
  obtain ⟨rfl, -⟩ := Prod.mk.inj (Except.ok.inj hrender)
  obtain ⟨body, last, rest, hbody, hlast, rfl⟩ := hencoder capsule png hpng
  obtain ⟨card, image, hcard, hmarked, hkey, -, -, -, hvalue⟩ :=
    marked_encoded rest hbody hlast hvalid
  obtain rfl := Except.ok.inj (hinject.symm.trans hcard)
  exact capsuleOf_of_extractKeyChunk hkey

/-- A card on the disk is a key source, unless it is a PDF. -/
theorem holds_of_card (hencoder : PinCard.PlainEncoder)
    (hcard : ∃ card info, (if Keycard.isPdf output then Keycard.renderPdfCard capsule
      else Keycard.renderPngCard capsule) = .ok (card, info) ∧ files output = some ⟨card, true⟩)
    (hkey : KeyWith capsule content) : Holds files output (content.onCard output) := by
  obtain ⟨card, info, hrender, hfile⟩ := hcard
  unfold Content.onCard
  split
  · exact .other
  · next hpdf =>
    rw [if_neg hpdf] at hrender
    cases hkey with
    | key hopens => exact .key hfile (capsuleOf_of_renderPngCard hencoder hrender) hopens
    | other => exact .other

omit [Crypto] in
theorem exportKeycard_eq_ok {info : Keycard.KeyCardInfo}
    (hrun : Keycard.exportKeycard name source output overwrite h = (.ok info, t)) :
    ∃ c capsule, h.files source = some c ∧ Keycard.capsuleOf c.bytes = .ok capsule ∧
      (∃ card info, (if Keycard.isPdf output then Keycard.renderPdfCard capsule
        else Keycard.renderPngCard capsule) = .ok (card, info) ∧
        t.files output = some ⟨card, true⟩) ∧
      ∀ p, p ≠ output → t.files p = h.files p := by
  obtain ⟨capsule, t₁, hsource, hexport⟩ := bind_eq_ok.mp hrun
  obtain ⟨⟨c, hc, hcapsule⟩, hfiles⟩ := PinCard.sourceBytes_eq_ok hsource
  obtain ⟨hcard, hframe⟩ := PinCard.exportBytes_eq_ok hexport
  refine ⟨c, capsule, hc, hcapsule, hcard, fun p hp => ?_⟩
  rw [hframe p hp not_false, hfiles]

theorem unlockKeySource_eq_ok (hrun : Keycard.unlockKeySource source password h = (.ok master, t)) :
    opensTo h.files source password = some master ∧ t.files = h.files := by
  obtain ⟨capsule, t₁, hsource, hunlock⟩ := bind_eq_ok.mp hrun
  obtain ⟨⟨c, hc, hcapsule⟩, hfiles⟩ := PinCard.sourceBytes_eq_ok hsource
  obtain ⟨hopens, rfl⟩ := ofExcept_eq_ok.mp hunlock
  refine ⟨?_, hfiles⟩
  rw [opensTo, hc]
  show (Keycard.capsuleOf c.bytes).toOption.bind _ = _
  rw [hcapsule]
  show (unlockKeyfileBytes capsule password).toOption = _
  rw [hopens]
  rfl

/-! ## The ledger stays true -/

variable {w : World} {ledger : Path → Content} {entries : List (Path × Content)}

omit [KeyCrypto] [CardImaging] [Crypto] in
theorem enter_cons (ledger : Path → Content) (entry : Path × Content)
    (entries : List (Path × Content)) :
    enter ledger (entry :: entries) = enter (Function.update ledger entry.1 entry.2) entries := rfl

omit [KeyCrypto] [CardImaging] [Crypto] in
theorem enter_nil (ledger : Path → Content) : enter ledger [] = ledger := rfl

omit [KeyCrypto] [CardImaging] [Crypto] in
theorem enter_of_not_mem (h : p ∉ entries.map Prod.fst) : enter ledger entries p = ledger p := by
  induction entries generalizing ledger with
  | nil => rfl
  | cons entry entries ih =>
    rw [List.map_cons, List.mem_cons, not_or] at h
    exact (ih h.2).trans (Function.update_of_ne h.1 _ _)

omit [KeyCrypto] [CardImaging] [Crypto] in
theorem enter_other (h : p ∈ entries.map Prod.fst) :
    enter ledger (entries.map fun entry => (entry.1, .other)) p = .other := by
  induction entries generalizing ledger with
  | nil => exact absurd h List.not_mem_nil
  | cons entry entries ih =>
    by_cases hlater : p ∈ entries.map Prod.fst
    · exact ih hlater
    · obtain rfl := (List.mem_cons.mp h).resolve_right hlater
      have hnot : entry.1 ∉ (entries.map fun entry => (entry.1, Content.other)).map Prod.fst := by
        rwa [List.map_map]
      exact (enter_of_not_mem hnot).trans (Function.update_self _ _ _)

/-- What stays on the disk stays what it is. -/
theorem Holds.spared {files' : Files Path} (hholds : Holds files p content)
    (hsame : files p ≠ none → files' p = files p) : Holds files' p content := by
  cases hholds with
  | key hfile hcapsule hopens =>
    exact .key ((hsame (by rw [hfile]; simp)).trans hfile) hcapsule hopens
  | container hfile haccepted =>
    exact .container ((hsame (by rw [hfile]; simp)).trans hfile) haccepted
  | other => exact .other

/-- One entry more. -/
theorem holds_enter (hothers : p ≠ output → Holds files p (ledger p))
    (hhere : p = output → Holds files output content) :
    Holds files p (enter ledger [(output, content)] p) := by
  show Holds files p (Function.update ledger output content p)
  by_cases hp : p = output
  · subst hp
    rw [Function.update_self]
    exact hhere rfl
  · rw [Function.update_of_ne hp]
    exact hothers hp

/-- What the ledger says of the other paths stays true, however the command ends. -/
theorem Sound.others (hsound : Sound w) {c : Command} {o : Outcome CliError (List String)}
    (hfiles : h.files = w.files) (hfresh : s.Fresh w c) (hrun : main c s h = (o, t))
    (hp : p ∉ (w.writes s c).map Prod.fst) : Holds t.files p (w.ledger p) := by
  refine (hsound p).spared fun hsome => ?_
  have hmaintains : Maintains
      (Spared w.files {q | q ∉ (w.writes s c).map Prod.fst ∧ w.files q ≠ none}) (main c s) :=
    maintains_main hfresh (fun q hq => hq.2) fun q hq hkept => hkept.1 hq
  have hspared := hmaintains h (hfiles ▸ Spared.refl h _)
  rw [hrun] at hspared
  exact hspared ⟨hp, hsome⟩

omit [CardImaging] in
theorem asKey_newKey (s : Session) (params : KeyfileParams) (master : MasterKey)
    (password : Bytes) :
    (newKey s params master password).asKey = newKey s params master password := by
  unfold newKey
  split <;> rfl

omit [KeyCrypto] [CardImaging] [Crypto] in
theorem not_isPdf_of_isPng (h : isPng output = true) : ¬Keycard.isPdf output = true := by
  intro hpdf
  unfold isPng at h
  unfold Keycard.isPdf at hpdf
  rw [beq_iff_eq] at h hpdf
  rw [h] at hpdf
  exact absurd hpdf (by decide)

/-- The key source `keygen` has made. -/
theorem holds_of_createSource [LawfulCrypto] (hencoder : PinCard.PlainEncoder)
    {params : KeyfileParams} {line : String} (houtside : ¬s.capsule.directory <+: output)
    (hrun : createSource output password overwrite params s h = (.ok line, t)) :
    Holds t.files output (newKey s params s.capsule.master password) := by
  unfold createSource at hrun
  split at hrun
  · next hpng =>
    obtain ⟨info, t₁, hcreate, hpure⟩ := bind_eq_ok.mp hrun
    obtain ⟨-, rfl⟩ := pure_eq_ok.mp hpure
    obtain ⟨capsule, hmade, hleft⟩ := PinCard.createKeycard_eq_ok (mapError_eq_ok.mp hcreate)
    have hexported := hleft.resolve_right fun hinside => houtside hinside.1
    have hholds := holds_of_card hencoder hexported.card (keyWith_newKey hmade)
    rwa [Content.onCard, if_neg (not_isPdf_of_isPng hpng)] at hholds
  · obtain ⟨_, t₁, hcreate, hpure⟩ := bind_eq_ok.mp hrun
    obtain ⟨-, rfl⟩ := pure_eq_ok.mp hpure
    obtain ⟨capsule, hmade, hplaced⟩ := PinCard.createKeyfile_eq_ok (mapError_eq_ok.mp hcreate)
    exact holds_of_capsule (validate_encodeKeyfileBytes hmade) (by rw [hplaced, put_self])
      (keyWith_newKey hmade)

/-- A copy of a key source. -/
theorem holds_of_exportKeycard (hencoder : PinCard.PlainEncoder) {info : Keycard.KeyCardInfo}
    (hrun : Keycard.exportKeycard name source output overwrite h = (.ok info, t))
    (hholds : Holds h.files source content) :
    Holds t.files output (content.asKey.onCard output) := by
  obtain ⟨c, capsule, hc, hcapsule, hcard, -⟩ := exportKeycard_eq_ok hrun
  exact holds_of_card hencoder hcard (hholds.keyWith hc hcapsule)

/-- A capsule that was read from a card. -/
theorem holds_of_importKeycard {info : Keycard.KeyCardInfo}
    (hrun : Keycard.importKeycard name source output overwrite h = (.ok info, t))
    (hholds : Holds h.files source content) :
    Holds t.files output (match h.files source with
      | some c => if Png.startsWith c.bytes Png.signature then content.asKey else .other
      | none => .other) := by
  obtain ⟨image, t₁, hread, hrest⟩ := bind_eq_ok.mp hrun
  obtain ⟨⟨c, hc, rfl⟩, -⟩ := readFile_eq_ok hread
  obtain ⟨capsule, t₂, hdecode, hrest⟩ := bind_eq_ok.mp hrest
  obtain ⟨hcapsule, rfl⟩ := ofExcept_eq_ok.mp hdecode
  obtain ⟨_, t₃, hwrite, hpure⟩ := bind_eq_ok.mp hrest
  obtain ⟨-, rfl⟩ := pure_eq_ok.mp hpure
  obtain ⟨_, t₄, hcheck, hplace⟩ := bind_eq_ok.mp hwrite
  obtain ⟨hvalid, rfl⟩ := ofExcept_eq_ok.mp hcheck
  have hplaced := writeThroughTemporary_eq_ok hplace
  rw [hc]
  dsimp only
  split
  · next hstarts =>
    have hcard : Keycard.capsuleOf c.bytes = .ok capsule := by
      unfold Keycard.capsuleOf
      rwa [if_pos hstarts]
    exact holds_of_capsule hvalid (by rw [hplaced, put_self]) (hholds.keyWith hc hcard)
  · exact .other

/-- A card with another password. -/
theorem holds_of_exportRecoveryKeycard [LawfulCrypto] (hencoder : PinCard.PlainEncoder)
    {info : Keycard.KeyCardInfo} {current : Bytes} {params : KeyfileParams}
    (hrun : Keycard.exportRecoveryKeycard name source current password params s.capsule.salt
      s.capsule.nonce output overwrite h = (.ok info, t)) :
    ∃ master, opensTo h.files source current = some master ∧
      Holds t.files output ((newKey s params master password).onCard output) := by
  obtain ⟨capsule, t₁, hsource, hrest⟩ := bind_eq_ok.mp hrun
  obtain ⟨master, t₂, hunlock, hexport⟩ := bind_eq_ok.mp hrest
  have hopened : Keycard.unlockKeySource source current h = (.ok master, t₂) :=
    bind_eq_ok.mpr ⟨capsule, t₁, hsource, hunlock⟩
  obtain ⟨new, hmade, hexported⟩ := PinCard.exportRecoveryKeycardFromMaster_eq_ok hexport
  exact ⟨master, (unlockKeySource_eq_ok hopened).1,
    holds_of_card hencoder hexported.card (keyWith_newKey hmade)⟩

/-- The container of a file. -/
theorem holds_of_encryptFile [LawfulCrypto] {input : Path} {options : EncryptOptions} {u : Unit}
    (hrun : encryptFile name s.salt s.fileId input output master options h = (.ok u, t)) :
    ∃ c, h.files input = some c ∧ Holds t.files output
      (.container master c.bytes ⟨fileVersion, options.mode, options.chunkSize, s.fileId⟩) := by
  obtain ⟨header, plaintext, file, hheader, hchunk, ⟨synced, hc⟩, hcount, hbuilt, hplaced⟩ :=
    encryptFile_eq_ok hrun
  have hvalid : validateChunkSize options.chunkSize = .ok () := by
    rw [← hchunk]
    exact header.valid
  obtain ⟨header', hheader', hmode, -, -, hfileId⟩ :=
    Header.new_eq_ok options.mode s.salt s.fileId hvalid
  obtain rfl := Except.ok.inj (hheader.symm.trans hheader')
  have hsizes : ∀ p ∈ pieces options.chunkSize plaintext, p.length ≤ header.chunkSize.toNat :=
    fun p hp => hchunk.symm ▸ length_le_of_mem_pieces hp
  have hsize : 0 < options.chunkSize :=
    Nat.lt_of_lt_of_le (by decide) (validateChunkSize_ok hvalid).1
  have hholds : Holds t.files output _ :=
    .container hplaced (acceptedFile_of_build hbuilt hsizes hcount)
  rw [flatten_pieces hsize, Header.info, header.version_eq, hmode, hchunk, hfileId] at hholds
  exact ⟨_, hc, hholds⟩

/-- **What a command that returns has written is what it says**, and the rest is what it was. -/
theorem Sound.returned [LawfulCrypto] (hencoder : PinCard.PlainEncoder) (hsound : Sound w)
    {c : Command} {lines : List String} (hfiles : h.files = w.files) (hfresh : s.Fresh w c)
    (hrun : main c s h = (.ok lines, t)) (p : Path) :
    Holds t.files p (enter w.ledger (w.writes s c) p) := by
  have hothers := fun hp => hsound.others (p := p) hfiles hfresh hrun hp
  have honly : ∀ {output content}, w.writes s c = [(output, content)] → p ≠ output →
      Holds t.files p (w.ledger p) := fun hwrites hne => hothers (by
    rw [hwrites]
    exact fun hmem => hne (List.mem_singleton.mp hmem))
  cases c with
  | keygen output card force params =>
    have houtside : ¬s.capsule.directory <+: output := fun hinside => (hfresh output hinside).2 rfl
    obtain ⟨password, t₁, hprompt, hrest⟩ := bind_eq_ok.mp hrun
    obtain ⟨htyped, rfl⟩ := promptNewPassword_eq_ok hprompt
    obtain ⟨created, t₂, hcreate, hrest⟩ := bind_eq_ok.mp hrest
    have hkey := holds_of_createSource hencoder houtside hcreate
    have hpassword : (s.typed 0).getD [] = password := by rw [htyped]; rfl
    cases card with
    | none =>
      obtain ⟨-, rfl⟩ := pure_eq_ok.mp hrest
      refine holds_enter (honly rfl) fun _ => ?_
      rwa [hpassword]
    | some card =>
      obtain ⟨info, t₃, hexport, hpure⟩ := bind_eq_ok.mp hrest
      obtain ⟨-, rfl⟩ := pure_eq_ok.mp hpure
      have hexport := mapError_eq_ok.mp hexport
      have hcopy := holds_of_exportKeycard hencoder hexport hkey
      rw [asKey_newKey] at hcopy
      obtain ⟨_, _, -, -, -, hframe⟩ := exportKeycard_eq_ok hexport
      refine holds_enter (fun hcard => holds_enter (fun hout => hothers ?_) fun hout => ?_)
        fun _ => ?_
      · simp only [World.writes, Option.toList, List.map_cons, List.map_nil, List.mem_cons,
          List.not_mem_nil, or_false, not_or]
        exact ⟨hout, hcard⟩
      · rw [hpassword]
        exact hkey.spared fun _ => hframe output (hout ▸ hcard)
      · rwa [hpassword]
  | encrypt input output key mode acknowledge chunkSize force =>
    have hrun : encrypt input output key mode acknowledge chunkSize force s h = (.ok lines, t) :=
      hrun
    unfold encrypt at hrun
    split at hrun
    · exact absurd hrun fail_ne_ok
    obtain ⟨password, t₁, hprompt, hrest⟩ := bind_eq_ok.mp hrun
    obtain ⟨htyped, rfl⟩ := promptPassword_eq_ok hprompt
    obtain ⟨master, t₂, hunlock, hrest⟩ := bind_eq_ok.mp hrest
    obtain ⟨hopens, hsame⟩ := unlockKeySource_eq_ok (mapError_eq_ok.mp hunlock)
    obtain ⟨_, t₃, hencrypt, hpure⟩ := bind_eq_ok.mp hrest
    obtain ⟨-, rfl⟩ := pure_eq_ok.mp hpure
    obtain ⟨c, hc, hholds⟩ := holds_of_encryptFile (mapError_eq_ok.mp hencrypt)
    refine holds_enter (honly rfl) fun _ => ?_
    rw [hsame] at hc
    rw [← hfiles, htyped, Option.getD_some, hopens, hc]
    exact hholds
  | decrypt input output key force => exact holds_enter (honly rfl) fun _ => .other
  | inspect input => exact hothers List.not_mem_nil
  | keycard command =>
    cases command with
    | exportCard key output force =>
      obtain ⟨info, t₁, hexport, hpure⟩ := bind_eq_ok.mp hrun
      obtain ⟨-, rfl⟩ := pure_eq_ok.mp hpure
      refine holds_enter (honly rfl) fun _ => ?_
      exact holds_of_exportKeycard hencoder (mapError_eq_ok.mp hexport) (hfiles ▸ hsound key)
    | recovery key output force params =>
      obtain ⟨current, t₁, hprompt, hrest⟩ := bind_eq_ok.mp hrun
      obtain ⟨htyped, rfl⟩ := promptPassword_eq_ok hprompt
      obtain ⟨recovery, t₂, hnew, hcreate⟩ := bind_eq_ok.mp hrest
      obtain ⟨htyped', rfl⟩ := promptNewPassword_eq_ok hnew
      obtain ⟨info, t₃, hexport, hpure⟩ := bind_eq_ok.mp hcreate
      obtain ⟨-, rfl⟩ := pure_eq_ok.mp hpure
      obtain ⟨master, hopens, hholds⟩ :=
        holds_of_exportRecoveryKeycard hencoder (mapError_eq_ok.mp hexport)
      refine holds_enter (honly rfl) fun _ => ?_
      rw [← hfiles, htyped, htyped', Option.getD_some, Option.getD_some, hopens]
      exact hholds
    | importCard input output force =>
      obtain ⟨info, t₁, himport, hpure⟩ := bind_eq_ok.mp hrun
      obtain ⟨-, rfl⟩ := pure_eq_ok.mp hpure
      refine holds_enter (honly rfl) fun _ => ?_
      rw [← hfiles]
      exact holds_of_importKeycard (mapError_eq_ok.mp himport) (hfiles ▸ hsound input)

/-- A command that does not return leaves the ledger true, with what it forgets. -/
theorem Sound.forgotten (hsound : Sound w) {c : Command} {o : Outcome CliError (List String)}
    (hfiles : h.files = w.files) (hfresh : s.Fresh w c) (hrun : main c s h = (o, t)) (p : Path) :
    Holds t.files p (enter w.ledger ((w.writes s c).map fun entry => (entry.1, .other)) p) := by
  by_cases hp : p ∈ (w.writes s c).map Prod.fst
  · rw [enter_other hp]
    exact .other
  · rw [enter_of_not_mem (by rwa [List.map_map])]
    exact hsound.others hfiles hfresh hrun hp

theorem Step.sound [LawfulCrypto] (hencoder : PinCard.PlainEncoder) {w' : World} {e : Event}
    (hstep : Step w e w') (hsound : Sound w) : Sound w' := by
  intro p
  cases hstep with
  | @ran c s h t o hfiles hfresh hrun =>
    rcases o with lines | e | _
    · exact hsound.returned hencoder hfiles hfresh hrun p
    · exact hsound.forgotten hfiles hfresh hrun p
    · exact hsound.forgotten hfiles hfresh hrun p
  | @others files =>
    show Holds files p (if files p = w.files p then w.ledger p else .other)
    split
    · next hsame => exact (hsound p).spared fun _ => hsame
    · exact .other

/-- **The ledger is true at the end of every run.** -/
theorem sound_of_run [LawfulCrypto] (hencoder : PinCard.PlainEncoder) {es : List Event} {w' : World}
    (hrun : Run Step w es w') (hsound : Sound w) : Sound w' :=
  hrun.invariant hsound fun _ _ _ hsound hstep => hstep.sound hencoder hsound

/-! ## Keys and containers -/

omit [KeyCrypto] [CardImaging] in
theorem inspectFile_looks {file : Bytes} {synced : Bool} {header : Header} {plaintexts : List Bytes}
    (hfile : files p = some ⟨file, synced⟩)
    (haccepted : AcceptedFile master file header plaintexts) :
    Looks (inspectFile p) files (.ok header.info) := by
  obtain ⟨suite, rest, -, rfl, -⟩ := haccepted
  refine (Looks.readFile hfile).bind_ok ?_
  refine (Looks.readExact files rest header.length_encode).bind_ok ?_
  dsimp only
  rw [Header.decode_encode]
  refine (Looks.ofExcept files (.ok header)).bind_ok ?_
  exact .pure files header.info

omit [KeyCrypto] [CardImaging] [Crypto] in
/-- A call finds what it needs after another that has only looked. -/
theorem ready_of_files {input : Path} {bytes : Bytes}
    (hready : Ready name input output overwrite h bytes)
    (hfiles : t.files = h.files) (hquiet : t.Quiet) :
    Ready name input output overwrite t bytes := by
  obtain ⟨-, ⟨synced, hc⟩, hdiffer, hfree, hfresh, hapart⟩ := hready
  exact ⟨hquiet, ⟨synced, by rw [hfiles, hc]⟩, hdiffer, by rwa [hfiles], by rwa [hfiles], hapart⟩

/-- **Every key opens every container of its master key.**  After any run of commands, whether they
returned, failed or were killed, with any other changes of files between them, a container the
ledger lists is decrypted with any key source the ledger lists for its master key, be it the source
it was made with, a copy, or a card with another password: the plaintext is put where it should be,
and nothing else changes.  `inspect` prints what the container was made with. -/
theorem keys_open_containers [LawfulCrypto] (hencoder : PinCard.PlainEncoder) {es : List Event}
    (hrun : Run Step (World.start files) es w) {k v : Path} {plaintext : Bytes} {info : FileInfo}
    (hkey : w.ledger k = .key capsule password master)
    (hcontainer : w.ledger v = .container master plaintext info) :
    ∃ file, w.files v = some ⟨file, true⟩ ∧
      (∀ (s : Session) (out : Option Path) (force : Bool) (h : Host Path), h.files = w.files →
        s.typed 0 = some password →
        Ready s.temporary v (out.getD (decryptedOutput v)) force h file →
        ∃ t, main (.decrypt v out k force) s h =
          (.ok [told "Decrypted: " (out.getD (decryptedOutput v))
            (" [" ++ displayName info.mode ++ "]")], t) ∧
          t.files = put h.files (out.getD (decryptedOutput v)) (some ⟨plaintext, true⟩)) ∧
      ∀ (s : Session) (h : Host Path), h.Quiet → h.files = w.files →
        (main (.inspect v) s h).1 = .ok (printInfo info) := by
  have hsound : Sound w := sound_of_run hencoder hrun fun _ => .other
  have hopens := hsound k
  have hholds := hsound v
  rw [hkey] at hopens
  rw [hcontainer] at hholds
  rcases hopens with ⟨hsource, hcapsule, hunlocks⟩
  rcases hholds with _ | @⟨file, _, header, plaintexts, hfile, haccepted⟩
  refine ⟨_, hfile, fun s out force h hfiles htyped hready => ?_, fun s h hq hfiles => ?_⟩
  · have hlooks : Looks (withContext ("failed to unlock " ++ k.display)
        (Keycard.unlockKeySource k password)) w.files _ :=
      (PinCard.unlockKeySource_looks hsource hcapsule).mapError _
    rw [hunlocks] at hlooks
    obtain ⟨t, hunlock, hsame, hquiet⟩ := hlooks h hready.quiet hfiles
    obtain ⟨t', hdecrypt, hplaced⟩ :=
      decryptFile_accepted (ready_of_files hready (hsame.trans hfiles.symm) hquiet) haccepted
    refine ⟨t', ?_, by rw [hplaced, hsame, hfiles]⟩
    refine bind_eq_ok.mpr ⟨password, h, ?_, bind_eq_ok.mpr ⟨master, t, hunlock, ?_⟩⟩
    · unfold promptPassword
      rw [htyped]
      rfl
    · exact bind_eq_ok.mpr ⟨_, t', mapError_ok hdecrypt, rfl⟩
  · have hlooks : Looks (main (.inspect v) s) w.files (.ok (printInfo header.info)) := by
      refine ((inspectFile_looks hfile haccepted).mapError _).bind_ok ?_
      exact .pure w.files (printInfo header.info)
    exact hlooks.run hq hfiles

end

/-! ## A key, its card, and a container -/

def sampleFiles : Files Path := fun p => if p = ["in"] then some ⟨[1, 2, 3], true⟩ else none

def sampleSession : Session where
  typed _ := some (ascii "a passphrase")
  capsule := ⟨["scratch"], "capsule", "visual", .of 48 [3], .of 16 [1], .of 24 [2]⟩
  temporary := "tmp"
  cardTemporary := "card-tmp"
  salt := .of 32 []
  fileId := .of 32 [6]

/-- A command on a host on which nothing fails, in the given files. -/
def sampleRun (c : Command) (files : Files Path) : Outcome CliError (List String) × Host Path :=
  let _ := tableCrypto [sampleSealing]
  let _ := plainKeyCrypto
  let _ := PinCard.blankImaging
  main c sampleSession (PinCard.quietHost files)

def sampleKeygen : Command := .keygen ["k.key"] (some ["card.png"]) false default

def sampleEncrypt : Command := .encrypt ["in"] none ["k.key"] .guarded false 4096 false

/-- The world after a command. -/
def sampleNext (w : World) (c : Command) : World :=
  let _ := tableCrypto [sampleSealing]
  let _ := plainKeyCrypto
  let _ := PinCard.blankImaging
  ⟨(sampleRun c w.files).2.files, w.noted c sampleSession (sampleRun c w.files).1⟩

theorem sampleNext_step {w : World} {c : Command} (hfresh : sampleSession.Fresh w c) :
    let _ := tableCrypto [sampleSealing]
    let _ := plainKeyCrypto
    let _ := PinCard.blankImaging
    Step w (.ran c sampleSession (sampleRun c w.files).1) (sampleNext w c) := by
  let _ := tableCrypto [sampleSealing]
  let _ := plainKeyCrypto
  let _ := PinCard.blankImaging
  exact .ran (PinCard.files_quietHost _) hfresh (PinCard.run_eq rfl)

theorem sampleNext_ledger {w : World} {c : Command} {lines : List String}
    (h : (sampleRun c w.files).1 = .ok lines) :
    let _ := tableCrypto [sampleSealing]
    let _ := plainKeyCrypto
    let _ := PinCard.blankImaging
    (sampleNext w c).ledger = enter w.ledger (w.writes sampleSession c) := by
  let _ := tableCrypto [sampleSealing]
  let _ := plainKeyCrypto
  let _ := PinCard.blankImaging
  show w.noted c sampleSession (sampleRun c w.files).1 = _
  rw [h]
  rfl

/-- The key and its card have been made. -/
def sampleKeys : World := sampleNext (.start sampleFiles) sampleKeygen

/-- And a file has been encrypted with the key. -/
def sampleWorld : World := sampleNext sampleKeys sampleEncrypt

theorem sampleKeys_ledger : sampleKeys.ledger ["card.png"] =
    .key sampleCapsule (ascii "a passphrase") (.of 48 [3]) := by
  let _ := tableCrypto [sampleSealing]
  let _ := plainKeyCrypto
  let _ := PinCard.blankImaging
  have hreturned : (sampleRun sampleKeygen sampleFiles).1 =
      .ok ["Legacy key capsule: k.key", "Backup: card.png (0000000000000000)"] := by decide +kernel
  have hmade : encodeKeyfileBytes (.of 48 [3])
    (ascii "a passphrase") default sampleSession.capsule.salt
      sampleSession.capsule.nonce = .ok sampleCapsule := by decide +kernel
  have hledger : sampleKeys.ledger = _ := sampleNext_ledger hreturned
  rw [hledger]
  have hwrites : (World.start sampleFiles).writes sampleSession sampleKeygen =
      [(["k.key"], newKey sampleSession default (.of 48 [3]) (ascii "a passphrase")), (["card.png"],
        (newKey sampleSession default (.of 48 [3]) (ascii "a passphrase")).onCard ["card.png"])] :=
          rfl
  rw [hwrites, enter_cons, enter_cons, enter_nil, Function.update_self, Content.onCard,
    if_neg (by decide), newKey, hmade]

theorem sampleWorld_ledger :
    sampleWorld.ledger ["card.png"] = .key sampleCapsule (ascii "a passphrase") (.of 48 [3]) ∧
    sampleWorld.ledger ["in.orisyvra"] =
      .container (.of 48 [3]) [1, 2, 3] ⟨fileVersion, .guarded, 4096, .of 32 [6]⟩ := by
  let _ := tableCrypto [sampleSealing]
  let _ := plainKeyCrypto
  let _ := PinCard.blankImaging
  have hreturned : (sampleRun sampleEncrypt sampleKeys.files).1 =
      .ok ["Encrypted: in.orisyvra [guarded]"] := by decide +kernel
  have hopens : opensTo sampleKeys.files ["k.key"] (ascii "a passphrase") = some (.of 48 [3]) := by
    decide +kernel
  have hinput : sampleKeys.files ["in"] = some ⟨[1, 2, 3], true⟩ := by decide +kernel
  have hledger : sampleWorld.ledger = _ := sampleNext_ledger hreturned
  have hwrites : sampleKeys.writes sampleSession sampleEncrypt = [(["in.orisyvra"],
      .container (.of 48 [3]) [1, 2, 3] ⟨fileVersion, .guarded, 4096, .of 32 [6]⟩)] := by
    show [(_, match opensTo sampleKeys.files ["k.key"] (ascii "a passphrase"),
      sampleKeys.files ["in"] with
      | some master, some c =>
        Content.container master c.bytes ⟨fileVersion, .guarded, 4096, .of 32 [6]⟩
      | _, _ => .other)] = _
    rw [hopens, hinput]
    rfl
  rw [hledger, hwrites]
  rw [enter_cons, enter_nil, Function.update_self, Function.update_of_ne (by decide)]
  exact ⟨sampleKeys_ledger, rfl⟩

/-- And the key is gone: its renaming did not reach the disk. -/
def sampleLoss : Files Path := put sampleWorld.files ["k.key"] none

theorem sampleLoss_of_ne {p : Path} (h : p ≠ ["k.key"]) : sampleLoss p = sampleWorld.files p :=
  put_of_ne h

theorem sampleLoss_ledger {p : Path} (h : p ≠ ["k.key"]) :
    (sampleWorld.changed sampleLoss).ledger p = sampleWorld.ledger p := if_pos (sampleLoss_of_ne h)

/-- The card opens what was encrypted with the key, when the key is gone. -/
theorem keys_open_containers_sample :
    let _ := tableCrypto [sampleSealing]
    let _ := plainKeyCrypto
    let _ := PinCard.blankImaging
    ∃ es w t, Run Step (World.start sampleFiles) es w ∧ es.length = 3 ∧ w.files ["k.key"] = none ∧
      main (.decrypt ["in.orisyvra"] (some ["out"]) ["card.png"] false) sampleSession
        (PinCard.quietHost w.files) = (.ok ["Decrypted: out [guarded]"], t) ∧
      t.files = put w.files ["out"] (some ⟨[1, 2, 3], true⟩) := by
  let _ := tableCrypto [sampleSealing]
  let _ := plainKeyCrypto
  let _ := PinCard.blankImaging
  have _ := tableCrypto_lawful [sampleSealing]
  have hfresh : sampleSession.Fresh (.start sampleFiles) sampleKeygen := by
    rintro p ⟨rest, rfl⟩
    constructor
    · show sampleFiles (["scratch"] ++ rest) = none
      unfold sampleFiles
      exact if_neg fun h => absurd (List.cons.inj h).1 (by decide)
    · exact fun h => absurd (List.cons.inj h).1 (by decide)
  have hkeygen : Step _ _ sampleKeys := sampleNext_step hfresh
  have hencrypt : Step _ _ sampleWorld := sampleNext_step (c := sampleEncrypt) trivial
  have hloss : Step _ _ (sampleWorld.changed sampleLoss) := .others
  have hrun := ((Run.refl.step hkeygen).step hencrypt).step hloss
  obtain ⟨hcard, hcontainer⟩ := sampleWorld_ledger
  rw [← sampleLoss_ledger (by decide)] at hcard hcontainer
  obtain ⟨file, hfile, hdecrypts, -⟩ :=
    keys_open_containers PinCard.blankImaging_plain hrun hcard hcontainer
  rw [World.files_changed] at hfile hdecrypts
  have hout : sampleWorld.files ["out"] = none := by decide +kernel
  have htmp : sampleWorld.files ["tmp"] = none := by decide +kernel
  have hfiles := PinCard.files_quietHost sampleLoss
  have hready : Ready "tmp" ["in.orisyvra"] ["out"] false (PinCard.quietHost sampleLoss) file := by
    refine ⟨PinCard.quiet_quietHost _, ⟨true, ?_⟩, by decide, Or.inr ?_, ?_, by decide⟩ <;>
      rw [hfiles]
    · exact hfile
    · rw [sampleLoss_of_ne (by decide), hout]
    · have hpath : Path.join (Path.parent ["out"]) "tmp" = ["tmp"] := rfl
      rw [hpath, sampleLoss_of_ne (by decide), htmp]
  obtain ⟨t, hdecrypt, hplaced⟩ := hdecrypts sampleSession (some ["out"]) false
    (PinCard.quietHost sampleLoss) hfiles rfl hready
  rw [hfiles] at hplaced
  have hgone : sampleLoss ["k.key"] = none := put_self _ _ _
  exact ⟨_, _, t, hrun, rfl, hgone, hdecrypt, hplaced⟩

end CommandLine
end OrIsyVra
