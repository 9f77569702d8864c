import Mathlib
import OrIsyVra.Library.TextLines
import OrIsyVra.Library.DurableFile

/-!
# Mount entries

A mount entry is a text file, one `key=value` a line.  The parser goes through the lines, splits
each at its first `=`, and lets the last line of a key win; every flag is off unless its line says
`1`.

What `save_entry` writes is read back field by field, with the drive letter in upper case
(`entry_round_trip`).  A path stands behind the first `=` of its own line, so as long as it has no
line ending, nothing in it can be taken for another line.
-/

namespace OrIsyVra

open TextLines
open DurableFile (IoFailure IoError)

inductive WindowsIntegrationError where
  | unsupported
  | windowsApi (code : UInt32)
  | io (failure : IoFailure)
  | invalidEntry (message : String)
  deriving DecidableEq, Repr

instance : IoError WindowsIntegrationError := ⟨.io⟩

structure MountEntry where
  id : Text
  volumePath : Text
  keyPath : Text
  preferredLetter : Option Char
  readOnly : Bool
  autoMount : Bool
  autoUnlock : Bool
  taskRegistered : Bool
  deriving DecidableEq, Repr

namespace MountEntry

/-- The characters an id may have are one byte each. -/
def validId (id : Text) : Bool :=
  !id.isEmpty && id.all fun value => value.isAlphanum || value == '-' || value == '_'

def validate (entry : MountEntry) : Except WindowsIntegrationError Unit :=
  if !validId entry.id then .error (.invalidEntry "entry id contains unsupported characters")
  else
    match entry.preferredLetter with
    | some letter =>
      if !letter.isAlpha then .error (.invalidEntry "preferred drive letter must be A-Z")
        else .ok ()
    | none => .ok ()

/-- **What is accepted**: an id of harmless characters, and a letter if there is one. -/
theorem validate_iff {entry : MountEntry} : entry.validate = .ok () ↔
    validId entry.id = true ∧ ∀ letter ∈ entry.preferredLetter, letter.isAlpha = true := by
  unfold validate
  cases hid : validId entry.id with
  | false => simp
  | true =>
    cases hletter : entry.preferredLetter with
    | none => simp
    | some letter => cases halpha : letter.isAlpha <;> simp [halpha]

/-! ## The text of an entry -/

def flagText (flag : Bool) : Text := if flag then ['1'] else ['0']

/-- The lines of the text, each with its key. -/
def textFields (entry : MountEntry) : List (Text × Text) :=
  [("version".toList, ['1']), ("id".toList, entry.id), ("volume".toList, entry.volumePath),
    ("key".toList, entry.keyPath),
    ("letter".toList, (entry.preferredLetter.map Char.toUpper).toList),
    ("read_only".toList, flagText entry.readOnly), ("auto_mount".toList, flagText entry.autoMount),
    ("auto_unlock".toList, flagText entry.autoUnlock),
    ("task_registered".toList, flagText entry.taskRegistered)]

/-- What `save_entry` writes. -/
def text (entry : MountEntry) : Text :=
  entry.textFields.flatMap fun field => field.1 ++ '=' :: (field.2 ++ ['\n'])

/-! ## Parsing -/

/-- What has been read. -/
structure Parsed where
  id : Option Text
  volumePath : Option Text
  keyPath : Option Text
  preferredLetter : Option Char
  readOnly : Bool
  autoMount : Bool
  autoUnlock : Bool
  taskRegistered : Bool

def Parsed.start : Parsed := ⟨none, none, none, none, false, false, false, false⟩

/-- One key of the text. -/
def Parsed.set (p : Parsed) (key value : Text) : Parsed :=
  if key = "id".toList then { p with id := some value }
  else if key = "volume".toList then { p with volumePath := some value }
  else if key = "key".toList then { p with keyPath := some value }
  else if key = "letter".toList then
    { p with preferredLetter := (value.head?.filter Char.isAlpha).map Char.toUpper }
  else if key = "read_only".toList then { p with readOnly := value == ['1'] }
  else if key = "auto_mount".toList then { p with autoMount := value == ['1'] }
  else if key = "auto_unlock".toList then { p with autoUnlock := value == ['1'] }
  else if key = "task_registered".toList then { p with taskRegistered := value == ['1'] }
  else p

/-! Each key sets its own field. -/

section

variable (p : Parsed) (value : Text)

@[simp] theorem Parsed.set_version : p.set "version".toList value = p := by
  simp +decide only [Parsed.set, if_false]

@[simp] theorem Parsed.set_id : p.set "id".toList value = { p with id := some value } := by
  simp +decide only [Parsed.set, if_true, if_false]

@[simp] theorem Parsed.set_volume : p.set "volume".toList value =
    { p with volumePath := some value } := by
  simp +decide only [Parsed.set, if_true, if_false]

@[simp] theorem Parsed.set_key : p.set "key".toList value = { p with keyPath := some value } := by
  simp +decide only [Parsed.set, if_true, if_false]

@[simp] theorem Parsed.set_letter : p.set "letter".toList value =
    { p with preferredLetter := (value.head?.filter Char.isAlpha).map Char.toUpper } := by
  simp +decide only [Parsed.set, if_true, if_false]

@[simp] theorem Parsed.set_readOnly : p.set "read_only".toList value =
    { p with readOnly := value == ['1'] } := by
  simp +decide only [Parsed.set, if_true, if_false]

@[simp] theorem Parsed.set_autoMount : p.set "auto_mount".toList value =
    { p with autoMount := value == ['1'] } := by
  simp +decide only [Parsed.set, if_true, if_false]

@[simp] theorem Parsed.set_autoUnlock : p.set "auto_unlock".toList value =
    { p with autoUnlock := value == ['1'] } := by
  simp +decide only [Parsed.set, if_true, if_false]

@[simp] theorem Parsed.set_taskRegistered : p.set "task_registered".toList value =
    { p with taskRegistered := value == ['1'] } := by
  simp +decide only [Parsed.set, if_true, if_false]

end

/-- One line of the text. -/
def Parsed.line (p : Parsed) (line : Text) : Parsed :=
  match splitOnce '=' line with
  | none => p
  | some (key, value) => p.set key value

def parseEntry (text : Text) : Except WindowsIntegrationError MountEntry := do
  let p := (lines text).foldl Parsed.line Parsed.start
  match p.id with
  | none => .error (.invalidEntry "missing id")
  | some id =>
    match p.volumePath with
    | none => .error (.invalidEntry "missing volume path")
    | some volumePath =>
      match p.keyPath with
      | none => .error (.invalidEntry "missing key path")
      | some keyPath =>
        let entry : MountEntry :=
          ⟨id, volumePath, keyPath, p.preferredLetter, p.readOnly, p.autoMount,
          p.autoUnlock, p.taskRegistered⟩
        validate entry
        .ok entry

/-! ## The round trip -/

/-- No line ending is in the text. -/
def OneLine (value : Text) : Prop := '\n' ∉ value ∧ '\r' ∉ value

/-- A key with its value, as a line. -/
def fieldLine (field : Text × Text) : Text := field.1 ++ '=' :: field.2

theorem oneLine_of_validId {id : Text} (h : validId id = true) : OneLine id := by
  have hall : ∀ c ∈ id, (c.isAlphanum || c == '-' || c == '_') = true := by
    simp only [validId, Bool.and_eq_true, List.all_eq_true] at h
    exact h.2
  exact ⟨fun hmem => absurd (hall _ hmem) (by decide), fun hmem => absurd (hall _ hmem) (by decide)⟩

theorem oneLine_flagText (flag : Bool) : OneLine (flagText flag) := by
  cases flag <;> exact ⟨by decide, by decide⟩

theorem flagText_eq (flag : Bool) : (flagText flag == ['1']) = flag := by cases flag <;> rfl

theorem oneLine_letter {letter : Option Char} (h : ∀ c ∈ letter, c.isAlpha = true) :
    OneLine (letter.map Char.toUpper).toList := by
  cases letter with
  | none => exact ⟨List.not_mem_nil, List.not_mem_nil⟩
  | some c =>
    have halpha : c.toUpper.isAlpha = true := by
      rw [Char.isAlpha_toUpper_eq_isAlpha]
      exact h c rfl
    refine ⟨fun hmem => ?_, fun hmem => ?_⟩
    · rw [← List.mem_singleton.mp hmem] at halpha
      exact absurd halpha (by decide)
    · rw [← List.mem_singleton.mp hmem] at halpha
      exact absurd halpha (by decide)

/-- A letter is read back in upper case. -/
theorem letter_read {letter : Option Char} (h : ∀ c ∈ letter, c.isAlpha = true) :
    ((letter.map Char.toUpper).toList.head?.filter Char.isAlpha).map Char.toUpper =
      letter.map Char.toUpper := by
  cases letter with
  | none => rfl
  | some c =>
    have halpha : c.toUpper.isAlpha = true := by
      rw [Char.isAlpha_toUpper_eq_isAlpha]
      exact h c rfl
    simp only [Option.map_some, Option.toList_some, List.head?_cons, Option.filter_some, halpha,
      if_true, Char.toUpper_toUpper_eq_toUpper]

/-- What an entry is read back as. -/
def upperLetter (entry : MountEntry) : MountEntry :=
  { entry with preferredLetter := entry.preferredLetter.map Char.toUpper }

/-- The keys, in order. -/
def fieldNames : List Text :=
  ["version".toList, "id".toList, "volume".toList, "key".toList, "letter".toList,
    "read_only".toList, "auto_mount".toList, "auto_unlock".toList, "task_registered".toList]

theorem fieldNames_plain : ∀ name ∈ fieldNames, '\n' ∉ name ∧ '\r' ∉ name ∧ '=' ∉ name := by
  decide

/-- No line of the text can be taken for two, or for another key. -/
theorem textFields_oneLine {entry : MountEntry} (hvalid : entry.validate = .ok ())
    (hvolume : OneLine entry.volumePath) (hkey : OneLine entry.keyPath) :
    ∀ field ∈ entry.textFields, OneLine field.1 ∧ OneLine field.2 ∧ '=' ∉ field.1 := by
  obtain ⟨hid, hletter⟩ := validate_iff.mp hvalid
  intro field hfield
  obtain ⟨hfeed, hreturn, hequals⟩ :=
    fieldNames_plain field.1 (List.mem_map_of_mem (f := Prod.fst) hfield)
  refine ⟨⟨hfeed, hreturn⟩, ?_, hequals⟩
  simp only [textFields, List.mem_cons, List.not_mem_nil, or_false] at hfield
  rcases hfield with rfl | rfl | rfl | rfl | rfl | rfl | rfl | rfl | rfl
  · exact ⟨by decide, by decide⟩
  · exact oneLine_of_validId hid
  · exact hvolume
  · exact hkey
  · exact oneLine_letter hletter
  all_goals exact oneLine_flagText _

theorem lines_text {entry : MountEntry} (hvalid : entry.validate = .ok ())
    (hvolume : OneLine entry.volumePath) (hkey : OneLine entry.keyPath) :
    lines entry.text = entry.textFields.map fieldLine := by
  have hwritten : entry.text = (entry.textFields.map fieldLine).flatMap fun line =>
    line ++ ['\n'] := by
    rw [text, List.flatMap_map]
    refine List.flatMap_congr fun field _ => ?_
    rw [fieldLine, List.append_assoc, List.cons_append]
  rw [hwritten]
  refine lines_flatMap fun line hline => ?_
  obtain ⟨field, hfield, rfl⟩ := List.mem_map.mp hline
  obtain ⟨hname, hvalue, -⟩ := textFields_oneLine hvalid hvolume hkey field hfield
  have hnot : ∀ {c}, c ≠ '=' → c ∉ field.1 → c ∉ field.2 → c ∉ fieldLine field := by
    intro c hc h₁ h₂ hmem
    rcases List.mem_append.mp hmem with hmem | hmem
    · exact h₁ hmem
    · rcases List.mem_cons.mp hmem with hmem | hmem
      · exact hc hmem
      · exact h₂ hmem
  refine ⟨hnot (by decide) hname.1 hvalue.1, fun hlast => ?_⟩
  exact hnot (by decide) hname.2 hvalue.2 (List.mem_of_getLast? hlast)

/-- Reading the lines is setting the fields in order. -/
theorem foldl_textFields {fields : List (Text × Text)} (h : ∀ field ∈ fields, '=' ∉ field.1)
    (p : Parsed) : (fields.map fieldLine).foldl Parsed.line p =
      fields.foldl (fun p field => p.set field.1 field.2) p := by
  induction fields generalizing p with
  | nil => rfl
  | cons field rest ih =>
    obtain ⟨hfield, hrest⟩ := List.forall_mem_cons.mp h
    rw [List.map_cons, List.foldl_cons, List.foldl_cons, ih hrest, Parsed.line, fieldLine,
      splitOnce_append hfield]

/-- **Every field is read back.** -/
theorem parseEntry_text {entry : MountEntry} (hvalid : entry.validate = .ok ())
    (hvolume : OneLine entry.volumePath) (hkey : OneLine entry.keyPath) :
    parseEntry entry.text = .ok entry.upperLetter := by
  obtain ⟨hid, hletter⟩ := validate_iff.mp hvalid
  have hfields := textFields_oneLine hvalid hvolume hkey
  have hparsed : (lines entry.text).foldl Parsed.line Parsed.start = ⟨some entry.id,
      some entry.volumePath, some entry.keyPath, entry.preferredLetter.map Char.toUpper,
      entry.readOnly, entry.autoMount, entry.autoUnlock, entry.taskRegistered⟩ := by
    rw [lines_text hvalid hvolume hkey, foldl_textFields fun field h => (hfields field h).2.2]
    simp only [textFields, List.foldl_cons, List.foldl_nil, Parsed.set_version, Parsed.set_id,
      Parsed.set_volume, Parsed.set_key, Parsed.set_letter, Parsed.set_readOnly,
      Parsed.set_autoMount, Parsed.set_autoUnlock, Parsed.set_taskRegistered, Parsed.start,
      flagText_eq, letter_read hletter]
  have hupper : entry.upperLetter.validate = .ok () := by
    refine validate_iff.mpr ⟨hid, fun letter hmem => ?_⟩
    obtain ⟨c, hc, rfl⟩ := Option.map_eq_some_iff.mp hmem
    rw [Char.isAlpha_toUpper_eq_isAlpha]
    exact hletter c hc
  unfold parseEntry
  rw [hparsed]
  show (do validate entry.upperLetter; Except.ok entry.upperLetter) = _
  rw [hupper]
  rfl

/-- **Mount entries.**  An entry that is accepted, with paths of one line each, is read back with
its letter in upper case, and saved again it is the same text; and other paths in its place change
nothing but the paths that are read. -/
theorem entry_round_trip {entry : MountEntry} (hvalid : entry.validate = .ok ())
    (hvolume : OneLine entry.volumePath) (hkey : OneLine entry.keyPath) :
    parseEntry entry.text = .ok entry.upperLetter ∧ entry.upperLetter.text = entry.text ∧
      ∀ volumePath keyPath : Text, OneLine volumePath → OneLine keyPath →
        parseEntry { entry with volumePath := volumePath, keyPath := keyPath }.text =
          .ok { entry.upperLetter with volumePath := volumePath, keyPath := keyPath } := by
  refine ⟨parseEntry_text hvalid hvolume hkey, ?_, fun volumePath keyPath hvolume' hkey' => ?_⟩
  · have hletter : (entry.upperLetter.preferredLetter.map Char.toUpper) =
        entry.preferredLetter.map Char.toUpper := by
      rw [upperLetter, Option.map_map]
      refine Option.map_congr fun c _ => ?_
      exact Char.toUpper_toUpper_eq_toUpper c
    rw [text, text, textFields, hletter]
    rfl
  · have hvalid' :
      ({ entry with volumePath := volumePath, keyPath := keyPath } : MountEntry).validate =
        .ok () := hvalid
    exact parseEntry_text hvalid' hvolume' hkey'

/-- Paths with `=`, keys and flags in them. -/
def trickyEntry : MountEntry :=
  ⟨"volume-1".toList, "C:\\auto_unlock=1\\a.vol".toList, "letter=Z".toList, some 'q', false, true,
    false, true⟩

theorem entry_round_trip_tricky : parseEntry trickyEntry.text = .ok trickyEntry.upperLetter :=
  (entry_round_trip (by decide : trickyEntry.validate = .ok ()) ⟨by decide, by decide⟩
    ⟨by decide, by decide⟩).1

end MountEntry

end OrIsyVra
