import OrIsyVra.Library.Runs
import OrIsyVra.Mount.Entries

/-!
# The state file of a mount

A mount host that serves a volume leaves a state file, and takes it away when it is done.  The
application reads the file to tell whether an entry is mounted: it looks for a line `pid=…`, asks
the task list for that process, and removes the file when the process is gone.

The host writes no such line, only the path of the volume and a letter.  To the application a file
without the line is the file of a mounted entry, and it leaves it alone; so what it answers is
whether there is a file, whatever has become of the process (`asked_eq`).  That is right as long as
the file is there exactly when its writer runs, and wrong for good once a writer has died with its
file in place (`mounted_state`, `stale_state`).

The path stands behind `volume=` in one line of the file, since it was read from one line of the
entry; what stands in it can not be taken for the line that is missing.
-/

namespace OrIsyVra.Mount.MountedState

open TextLines Runs

/-! ## What is written and what is read -/

/-- What the host writes. -/
def stateText (volumePath : Text) (actualLetter : Option Char) : Text :=
  let letterLine := (actualLetter.map fun letter => "letter=".toList ++ [letter, '\n']).getD []
  "volume=".toList ++ (volumePath ++ '\n' :: letterLine)

def stripPrefix (begin line : Text) : Option Text :=
  if begin.isPrefixOf line then some (line.drop begin.length) else none

/-- `str::parse::<u32>`: digits, behind at most one `+`. -/
def parseU32 (value : Text) : Option UInt32 :=
  let digits := if value.head? = some '+' then value.tail else value
  if digits.isEmpty || !digits.all Char.isDigit then none
  else
    let number := digits.foldl (fun n c => 10 * n + (c.toNat - '0'.toNat)) 0
    if number < 2 ^ 32 then some (UInt32.ofNat number) else none

/-- The process a state file names. -/
def pidOf (text : Text) : Option UInt32 :=
  ((lines text).findSome? (stripPrefix "pid=".toList)).bind parseU32

/-- The first text is a part of the second. -/
def contains (part text : Text) : Bool := text.tails.any part.isPrefixOf

/-- What a call of `entry_is_mounted` finds beside the file. -/
structure Surroundings where
  windows : Bool
  /-- There is a path for state files. -/
  located : Bool
  /-- The file can be read. -/
  readable : Bool
  /-- What `tasklist.exe` prints for a process. -/
  tasklist : UInt32 → Option Text
  /-- The file can be removed. -/
  removable : Bool

/-- The answer, and the file afterwards. -/
def entryIsMounted (s : Surroundings) (file : Option Text) : Bool × Option Text :=
  if !s.windows then (false, file)
  else if !s.located then (false, file)
  else
    match file with
    | none => (false, none)
    | some text =>
      if !s.readable then (true, some text)
      else
        match pidOf text with
        | none => (true, some text)
        | some pid =>
          if (s.tasklist pid).any (contains (toString pid.toNat).toList) then (true, some text)
          else (false, if s.removable then none else some text)

/-! ## Host and application -/

/-- How far the host of the entry is; there is one at most. -/
inductive HostPhase where
  | idle
  | starting (entry : MountEntry)
  | writing (text : Text)
  | serving
  /-- Its file has been removed, or should have been. -/
  | leaving

inductive GuiPhase where
  | idle
  /-- `remove_entry` has been told that the entry is not mounted. -/
  | removing

/-- The process that has written the state file, or is writing it, runs. -/
def HostPhase.Wrote : HostPhase → Prop
  | idle | starting _ => False
  | writing _ | serving | leaving => True

/-- It has not come to the removal of its file. -/
def HostPhase.Holds : HostPhase → Prop
  | idle | starting _ | leaving => False
  | writing _ | serving => True

structure World where
  host : HostPhase
  file : Option Text
  gui : GuiPhase

namespace World

def start : World := ⟨.idle, none, .idle⟩

end World

inductive Event where
  | quiet
  /-- The host could not remove the state file. -/
  | kept
  /-- The host could not write the state file to its end. -/
  | cutShort
  | died
  /-- The files of the entry have been removed. -/
  | unregistered
  | asked (answer : Bool)
  deriving DecidableEq

/-- A step of the host, of the application, or of the system. -/
inductive Step (w : World) : Event → World → Prop
  | began {text : Text} {entry : MountEntry} (hhost : w.host = .idle)
      (hentry : MountEntry.parseEntry text = .ok entry) :
      Step w .quiet { w with host := .starting entry, file := none }
  | beganBeside {text : Text} {entry : MountEntry} (hhost : w.host = .idle)
      (hentry : MountEntry.parseEntry text = .ok entry) :
      Step w .kept { w with host := .starting entry }
  | gaveUp {entry : MountEntry} (hhost : w.host = .starting entry) :
      Step w .quiet { w with host := .idle }
  | created {entry : MountEntry} (hhost : w.host = .starting entry) (actualLetter : Option Char) :
      Step w .quiet
        { w with host := .writing (stateText entry.volumePath actualLetter), file := some [] }
  | wrote {text : Text} (hhost : w.host = .writing text) (part : ℕ) :
      Step w .quiet { w with file := some (text.take part) }
  | served {text : Text} (hhost : w.host = .writing text) :
      Step w .quiet { w with host := .serving, file := some text }
  | cutShort {text : Text} (hhost : w.host = .writing text) :
      Step w .cutShort { w with host := .idle }
  | removed (hhost : w.host = .serving) : Step w .quiet { w with host := .leaving, file := none }
  | removeFailed (hhost : w.host = .serving) : Step w .kept { w with host := .leaving }
  | exited (hhost : w.host = .leaving) : Step w .quiet { w with host := .idle }
  | died : Step w .died { w with host := .idle }
  | asked (s : Surroundings) (removing : Bool) (hgui : w.gui = .idle) (hwindows : s.windows = true)
      (hlocated : s.located = true) :
      Step w (.asked (entryIsMounted s w.file).1)
        { w with
          file := (entryIsMounted s w.file).2
          gui := if removing && !(entryIsMounted s w.file).1 then .removing else .idle }
  | unregistered (hgui : w.gui = .removing) :
      Step w .unregistered { w with file := none, gui := .idle }
  | unregisterFailed (hgui : w.gui = .removing) : Step w .quiet { w with gui := .idle }

/-- **The protocol**: the answer tells whether the writer of the file runs, and when it does not,
the file is gone. -/
def Honest (w : World) (answer : Bool) (w' : World) : Prop :=
  (answer = true ↔ w.host.Wrote) ∧ (¬w.host.Wrote → answer = false ∧ w'.file = none)

/-- There is a file exactly when its writer runs. -/
def Matches (w : World) : Prop := w.file ≠ none ↔ w.host.Wrote

/-- Nobody dies, fails or removes behind the other's back while there is a file. -/
def Timely (w : World) : Event → Prop
  | .quiet | .asked _ => True
  | .kept | .cutShort | .died | .unregistered => w.file = none

/-! ## There is no line for the process -/

/-- No line of the file begins as the line that is looked for. -/
def Pidless (text : Text) : Prop := beginsLine 'p' true text = false

theorem Pidless.take {text : Text} (h : Pidless text) (n : ℕ) : Pidless (text.take n) :=
  beginsLine_take h n

theorem Pidless.pidOf {text : Text} (h : Pidless text) : pidOf text = none := by
  have hnone : (lines text).findSome? (stripPrefix "pid=".toList) = none := by
    refine List.findSome?_eq_none_iff.mpr fun line hline => ?_
    have hhead := head?_ne_of_lines h hline
    refine if_neg fun hfirst => hhead ?_
    obtain ⟨rest, rfl⟩ := List.isPrefixOf_iff_prefix.mp hfirst
    rfl
  rw [MountedState.pidOf, hnone, Option.bind_none]

theorem pidless_stateText {volumePath : Text} (h : '\n' ∉ volumePath) (actualLetter : Option Char) :
    Pidless (stateText volumePath actualLetter) := by
  have hletter : ∀ letterLine, beginsLine 'p' true letterLine = false →
      Pidless ("volume=".toList ++ (volumePath ++ '\n' :: letterLine)) := by
    intro letterLine hline
    have hfeed : beginsLine 'p' false ('\n' :: letterLine) = false := hline
    show beginsLine 'p' false (volumePath ++ '\n' :: letterLine) = false
    rw [beginsLine_append h, hfeed]
  cases actualLetter with
  | none => exact hletter [] rfl
  | some letter =>
    refine hletter ("letter=".toList ++ [letter, '\n']) ?_
    show beginsLine 'p' false [letter, '\n'] = false
    simp [beginsLine]

theorem set_volumePath {p : MountEntry.Parsed} {key value volumePath : Text}
    (h : (p.set key value).volumePath = some volumePath) :
    p.volumePath = some volumePath ∨ value = volumePath := by
  unfold MountEntry.Parsed.set at h
  split_ifs at h
  all_goals first | exact Or.inl h | exact Or.inr (Option.some.inj h)

/-- **A volume path that was read** is from one line. -/
theorem volumePath_of_parseEntry {text : Text} {entry : MountEntry}
    (h : MountEntry.parseEntry text = .ok entry) : '\n' ∉ entry.volumePath := by
  have hparsed : ∀ (read : List Text) (p : MountEntry.Parsed), (∀ line ∈ read, '\n' ∉ line) →
      (∀ volumePath, p.volumePath = some volumePath → '\n' ∉ volumePath) →
      ∀ volumePath, (read.foldl MountEntry.Parsed.line p).volumePath = some volumePath →
        '\n' ∉ volumePath := by
    intro read
    induction read with
    | nil => exact fun _ _ hp => hp
    | cons line read ih =>
      intro p hlines hp
      obtain ⟨hline, hrest⟩ := List.forall_mem_cons.mp hlines
      refine ih (p.line line) hrest fun volumePath hvolume => ?_
      unfold MountEntry.Parsed.line at hvolume
      rcases hsplit : splitOnce '=' line with _ | ⟨key, value⟩ <;> rw [hsplit] at hvolume
      · exact hp volumePath hvolume
      rcases set_volumePath hvolume with hbefore | rfl
      · exact hp volumePath hbefore
      · exact fun hmem => hline (mem_of_splitOnce hsplit _ hmem)
  have hvolume := hparsed (lines text) .start (fun _ => feed_not_mem_lines)
    fun _ hnone => absurd hnone (by simp [MountEntry.Parsed.start])
  unfold MountEntry.parseEntry at h
  dsimp only at h
  split at h
  · exact absurd h (by simp)
  split at h
  · exact absurd h (by simp)
  next volumePath hfound =>
  split at h
  · exact absurd h (by simp)
  next keyPath _ =>
  dsimp only [bind, Except.bind] at h
  split at h
  · exact absurd h (by simp)
  · rw [← Except.ok.inj h]
    exact hvolume volumePath hfound

/-! ## What is kept -/

/-- The texts of the host have no line for the process. -/
structure Plain (w : World) : Prop where
  file : ∀ text, w.file = some text → Pidless text
  writing : ∀ text, w.host = .writing text → Pidless text
  starting : ∀ entry, w.host = .starting entry → '\n' ∉ entry.volumePath

theorem plain_start : Plain .start :=
  ⟨fun _ h => absurd h (by simp [World.start]), fun _ h => absurd h (by simp [World.start]),
    fun _ h => absurd h (by simp [World.start])⟩

/-- **What is answered** is whether there is a file, and the file is left as it is. -/
theorem asked_eq {w : World} (hplain : Plain w) {s : Surroundings} (hwindows : s.windows = true)
    (hlocated : s.located = true) : entryIsMounted s w.file = (w.file.isSome, w.file) := by
  unfold entryIsMounted
  rw [hwindows, hlocated]
  simp only [Bool.not_true, Bool.false_eq_true, if_false]
  rcases hfile : w.file with _ | text
  · rfl
  · dsimp only
    rw [(hplain.file text hfile).pidOf]
    dsimp only
    split <;> rfl

section

variable {w w' : World} {e : Event}

theorem Plain.withHost (h : Plain w) {host : HostPhase} (hwriting : ∀ text, host ≠ .writing text)
    (hstarting : ∀ entry, host ≠ .starting entry) : Plain { w with host := host } :=
  ⟨h.file, fun text hhost => absurd hhost (hwriting text), fun entry hhost =>
    absurd hhost (hstarting entry)⟩

theorem Plain.withFile (h : Plain w) {file : Option Text}
    (hfile : ∀ text, file = some text → Pidless text)
    (gui : GuiPhase) : Plain { w with file := file, gui := gui } :=
  ⟨hfile, h.writing, h.starting⟩

theorem pidless_none : ∀ text, (none : Option Text) = some text → Pidless text :=
  fun _ h => absurd h (by simp)

theorem pidless_some {text : Text} (h : Pidless text) :
    ∀ text', some text = some text' → Pidless text' :=
  fun _ heq => Option.some.inj heq ▸ h

/-- **The texts stay plain.** -/
theorem Plain.step (h : Plain w) (hstep : Step w e w') : Plain w' := by
  cases hstep with
  | began _ hentry =>
    refine ⟨pidless_none, fun _ hhost => absurd hhost (by simp), fun entry hhost => ?_⟩
    obtain rfl := HostPhase.starting.inj hhost
    exact volumePath_of_parseEntry hentry
  | beganBeside _ hentry =>
    refine ⟨h.file, fun _ hhost => absurd hhost (by simp), fun entry hhost => ?_⟩
    obtain rfl := HostPhase.starting.inj hhost
    exact volumePath_of_parseEntry hentry
  | gaveUp _ => exact h.withHost (by simp) (by simp)
  | created hhost actualLetter =>
    have hplain := pidless_stateText (h.starting _ hhost) actualLetter
    refine ⟨pidless_some rfl, fun text hwriting =>
      ?_, fun _ hstarting => absurd hstarting (by simp)⟩
    exact HostPhase.writing.inj hwriting ▸ hplain
  | wrote hhost part => exact h.withFile (pidless_some ((h.writing _ hhost).take part)) w.gui
  | served hhost =>
    exact (h.withFile (pidless_some (h.writing _ hhost)) w.gui).withHost (by simp) (by simp)
  | cutShort _ => exact h.withHost (by simp) (by simp)
  | removed _ => exact (h.withFile pidless_none w.gui).withHost (by simp) (by simp)
  | removeFailed _ => exact h.withHost (by simp) (by simp)
  | exited _ => exact h.withHost (by simp) (by simp)
  | died => exact h.withHost (by simp) (by simp)
  | asked s removing _ hwindows hlocated =>
    rw [asked_eq h hwindows hlocated]
    exact h.withFile h.file _
  | unregistered _ => exact h.withFile pidless_none .idle
  | unregisterFailed _ => exact h.withFile h.file .idle

/-- There is a file exactly while a host is at it. -/
def Tracks (w : World) : Prop := w.file ≠ none ↔ w.host.Holds

theorem tracks_none {host : HostPhase} {gui : GuiPhase} (hhost : ¬host.Holds) :
    Tracks ⟨host, none, gui⟩ :=
  iff_of_false (fun h => h rfl) hhost

theorem tracks_some {host : HostPhase} {text : Text} {gui : GuiPhase} (hhost : host.Holds) :
    Tracks ⟨host, some text, gui⟩ :=
  iff_of_true (by simp) hhost

/-- **A timely step keeps the file with its host.** -/
theorem Tracks.step (h : Tracks w) (hplain : Plain w) (hstep : Step w e w') (htimely : Timely w e) :
    Tracks w' := by
  obtain ⟨host, file, gui⟩ := w
  cases hstep with
  | began _ _ => exact tracks_none not_false
  | beganBeside _ _ =>
    obtain rfl : file = none := htimely
    exact tracks_none not_false
  | gaveUp hhost =>
    obtain rfl : host = _ := hhost
    exact h
  | created _ _ => exact tracks_some trivial
  | wrote hhost _ =>
    obtain rfl : host = _ := hhost
    exact tracks_some trivial
  | served _ => exact tracks_some trivial
  | cutShort _ =>
    obtain rfl : file = none := htimely
    exact tracks_none not_false
  | removed _ => exact tracks_none not_false
  | removeFailed _ =>
    obtain rfl : file = none := htimely
    exact tracks_none not_false
  | exited hhost =>
    obtain rfl : host = _ := hhost
    exact h
  | died =>
    obtain rfl : file = none := htimely
    exact tracks_none not_false
  | asked s removing _ hwindows hlocated =>
    rw [asked_eq hplain hwindows hlocated]
    exact h
  | unregistered _ =>
    obtain rfl : file = none := htimely
    exact h
  | unregisterFailed _ => exact h

theorem Tracks.matches (h : Tracks w) (hhost : w.host ≠ .leaving) : Matches w := by
  refine h.trans ?_
  rcases hphase : w.host with _ | _ | _ | _ | _
  all_goals first | exact Iff.rfl | exact absurd hphase hhost

/-- The answer is right exactly when the file is there with its writer. -/
theorem honest_iff (hplain : Plain w) {answer : Bool} (hask : Step w (.asked answer) w') :
    Honest w answer w' ↔ Matches w := by
  generalize hevent : Event.asked answer = e at hask
  cases hask with
  | asked s removing _ hwindows hlocated =>
    have hasked := asked_eq hplain hwindows hlocated
    have hanswer : answer = w.file.isSome := by
      rw [Event.asked.inj hevent, hasked]
    have hsome : answer = true ↔ w.file ≠ none := by
      rw [hanswer, Option.isSome_iff_ne_none]
    unfold Honest Matches
    rw [hsome, hasked]
    refine ⟨fun h => h.1, fun h => ⟨h, fun hnot => ?_⟩⟩
    have hnone : w.file = none := not_not.mp fun hne => hnot (h.mp hne)
    exact ⟨by rw [hanswer, hnone]; rfl, hnone⟩
  | _ => exact absurd hevent (by simp)

/-- **The mounted state.**  In every run, a call answers right exactly when at that time there is a
state file if and only if the process that has written it runs.  So it is where no host dies or
fails and no file is removed by another or kept while there is one, but for the time between the
removal and the exit. -/
theorem mounted_state {es : List Event} {answer : Bool} (hrun : Run Step .start es w)
    (hask : Step w (.asked answer) w') : (Honest w answer w' ↔ Matches w) ∧
      (Run (fun w e w' => Step w e w' ∧ Timely w e) .start es w → w.host ≠ .leaving →
        Honest w answer w') := by
  have hplain : Plain w := hrun.invariant plain_start fun _ _ _ h hstep => h.step hstep
  refine ⟨honest_iff hplain hask, fun htimely hhost => (honest_iff hplain hask).mpr ?_⟩
  have hkept : ∀ w e w', Plain w ∧ Tracks w → Step w e w' ∧ Timely w e → Plain w' ∧ Tracks w' :=
    fun _ _ _ h hstep => ⟨h.1.step hstep.1, h.2.step h.1 hstep.1 hstep.2⟩
  exact (htimely.invariant ⟨plain_start, tracks_none not_false⟩ hkept).2.matches hhost

end

/-! ## A host that dies -/

/-- What a call finds where everything can be done and no process is in the task list. -/
def sampleSurroundings : Surroundings := ⟨true, true, true, fun _ => none, true⟩

def sampleText : Text := "id=a\nvolume=V:\\a.vol\nkey=K:\\a.png\n".toList

def sampleEntry : MountEntry :=
  ⟨['a'], "V:\\a.vol".toList, "K:\\a.png".toList, none, false, false, false, false⟩

def sampleState : Text := stateText sampleEntry.volumePath (some 'V')

theorem sample_serving : Run
    (fun w e w' => Step w e w' ∧ Timely w e) .start [.quiet, .quiet, .quiet]
    ⟨.serving, some sampleState, .idle⟩ := by
  have hentry : MountEntry.parseEntry sampleText = .ok sampleEntry := by decide +kernel
  have hbegan : Step .start .quiet ⟨.starting sampleEntry, none, .idle⟩ := .began rfl hentry
  have hcreated : Step ⟨.starting sampleEntry, none, .idle⟩ .quiet
      ⟨.writing sampleState, some [], .idle⟩ := .created rfl (some 'V')
  have hserved : Step ⟨.writing sampleState, some [], .idle⟩ .quiet
      ⟨.serving, some sampleState, .idle⟩ := .served rfl
  have hrun : Run (fun w e w' => Step w e w' ∧ Timely w e) .start [.quiet] _ :=
    Run.refl.step ⟨hbegan, trivial⟩
  exact (hrun.step ⟨hcreated, trivial⟩).step ⟨hserved, trivial⟩

theorem sample_run : Run Step .start [.quiet, .quiet, .quiet] ⟨.serving, some sampleState, .idle⟩ :=
  sample_serving.mono fun _ _ _ h => h.1

theorem sample_asked (host : HostPhase) : Step ⟨host, some sampleState, .idle⟩ (.asked true)
    ⟨host, some sampleState, .idle⟩ := by
  have hanswer :
    entryIsMounted sampleSurroundings (some sampleState) = (true, some sampleState) := by
    decide +kernel
  have hask := Step.asked (w := ⟨host, some sampleState, .idle⟩)
    sampleSurroundings false rfl rfl rfl
  dsimp only at hask
  rwa [hanswer] at hask

/-- While the host serves the volume, the entry is mounted. -/
theorem mounted_state_serving : Honest ⟨.serving, some sampleState, .idle⟩ true
    ⟨.serving, some sampleState, .idle⟩ :=
  (mounted_state sample_run (sample_asked .serving)).2 sample_serving (by simp)

/-- **A stale file.**  The host dies while it serves the volume.  From then on the entry is mounted,
whatever a call finds, and the file stays. -/
theorem stale_state : ∃ es w, Run Step .start es w ∧ ¬w.host.Wrote ∧ Step w (.asked true) w ∧
    ¬Honest w true w ∧ ∀ s : Surroundings, s.windows = true → s.located = true →
      entryIsMounted s w.file = (true, w.file) := by
  have hdead : Run Step .start ([.quiet, .quiet, .quiet] ++ [.died]) ⟨.idle,
    some sampleState, .idle⟩ :=
    sample_run.step .died
  have hplain := hdead.invariant plain_start fun _ _ _ h hstep => h.step hstep
  refine ⟨_, _, hdead, not_false, sample_asked .idle, fun h =>
    h.1.mp rfl, fun s hwindows hlocated => ?_⟩
  exact asked_eq hplain hwindows hlocated

end OrIsyVra.Mount.MountedState
