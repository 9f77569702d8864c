import OrIsyVra.Mount.MountedState

/-!
# The hosts of an entry

Any number of mount hosts may be started for one entry: by the task at logon, by the application, by
hand.  Each asks the system for a mutex of the entry's name first.  The name is in `Local\`, so
there is one such mutex for each logon session, and the hosts here are those of one session.  The
one that makes the mutex goes on; the others find it made, close their handles and end.  The mutex
is gone with the last handle, however the processes end, so it can be made again.

At most one host is past the mutex then (`one_host_runs`), which is what the protocol of the state
file takes for granted: whatever the hosts do is done by one host at a time (`hosts_refine`), and
what the application is told is right when it is right with one (`hosts_mounted_state`).
-/

namespace OrIsyVra.Mount.MountedState

open TextLines Runs

/-! ## Processes -/

/-- A process that has been started for the entry in the session, as far as the system knows it. -/
inductive Process where
  | absent
  /-- `CreateMutexW` has returned a handle, and whether there was such a mutex before. -/
  | opened (existed : Bool)
  /-- `EntryMutex::acquire` has returned the mutex. -/
  | acquired
  /-- The entry has been read. -/
  | running (phase : HostPhase)

namespace Process

/-- The system has a handle of the process on the mutex. -/
def HasHandle : Process → Prop
  | absent => False
  | _ => True

/-- The process has made the mutex. -/
def Owns : Process → Prop
  | opened false | acquired | running _ => True
  | _ => False

theorem Owns.hasHandle {process : Process} (h : process.Owns) : process.HasHandle := by
  cases process with
  | absent => exact h
  | _ => trivial

end Process

/-- The processes, by their numbers, beside the state file and the application. -/
structure Hosts where
  process : ℕ → Process
  file : Option Text
  gui : GuiPhase

namespace Hosts

def start : Hosts := ⟨fun _ => .absent, none, .idle⟩

def set (hosts : Hosts) (p : ℕ) (process : Process) : Hosts :=
  { hosts with process := Function.update hosts.process p process }

end Hosts

/-- A step of one process, or of the application.  The label is what the protocol of the state file
sees of it. -/
inductive HostsStep (hosts : Hosts) : Option Event → Hosts → Prop
  | opened {p : ℕ} {existed : Bool} (habsent : hosts.process p = .absent)
      (hexisted : existed = true ↔ ∃ q, (hosts.process q).HasHandle) :
      HostsStep hosts none (hosts.set p (.opened existed))
  | refused {p : ℕ} (hprocess : hosts.process p = .opened true) :
      HostsStep hosts none (hosts.set p .absent)
  | acquired {p : ℕ} (hprocess : hosts.process p = .opened false) :
      HostsStep hosts none (hosts.set p .acquired)
  /-- `load_entry` or `state_path` has failed. -/
  | notLoaded {p : ℕ} (hprocess : hosts.process p = .acquired) :
      HostsStep hosts none (hosts.set p .absent)
  | began {p : ℕ} {e : Event} {entry : MountEntry} {file : Option Text}
      (hprocess : hosts.process p = .acquired)
      (hstep : Step ⟨.idle, hosts.file, hosts.gui⟩ e ⟨.starting entry, file, hosts.gui⟩) :
      HostsStep hosts (some e) { hosts.set p (.running (.starting entry)) with file := file }
  | ran {p : ℕ} {e : Event} {phase phase' : HostPhase} {file : Option Text}
      (hprocess : hosts.process p = .running phase) (hphase : phase ≠ .idle)
      (hstep : Step ⟨phase, hosts.file, hosts.gui⟩ e ⟨phase', file, hosts.gui⟩) :
      HostsStep hosts (some e) { hosts.set p (.running phase') with file := file }
  /-- `run_entry` has returned, and the process ends. -/
  | ended {p : ℕ} (hprocess : hosts.process p = .running .idle) :
      HostsStep hosts none (hosts.set p .absent)
  | died {p : ℕ} {phase : HostPhase} (hprocess : hosts.process p = .running phase)
      (hphase : phase ≠ .idle) :
      HostsStep hosts (some .died) (hosts.set p .absent)
  /-- A process that has not begun dies. -/
  | diedEarly {p : ℕ} (hprocess : ∀ phase, hosts.process p ≠ .running phase) :
      HostsStep hosts none (hosts.set p .absent)
  /-- A step of the application is one whatever the hosts are at. -/
  | application {e : Event} {file : Option Text} {gui : GuiPhase}
      (hstep : ∀ host, Step ⟨host, hosts.file, hosts.gui⟩ e ⟨host, file, gui⟩) :
      HostsStep hosts (some e) { hosts with file := file, gui := gui }

/-! ## One host -/

/-- The mutex has been made by one process at most. -/
def Exclusive (hosts : Hosts) : Prop :=
  ∀ p q, (hosts.process p).Owns → (hosts.process q).Owns → p = q

section

variable {hosts hosts' : Hosts} {w : World} {p q : ℕ} {process : Process}

theorem Hosts.process_set_self : (hosts.set p process).process p = process :=
  Function.update_self _ _ _

theorem Hosts.process_set_of_ne (h : q ≠ p) : (hosts.set p process).process q = hosts.process q :=
  Function.update_of_ne h _ _

/-- A process that owned the mutex may go on, and every process may end. -/
theorem Exclusive.set (h : Exclusive hosts) (howns : process.Owns → (hosts.process p).Owns) :
    Exclusive (hosts.set p process) := by
  have hback : ∀ q, ((hosts.set p process).process q).Owns → (hosts.process q).Owns := by
    intro q hq
    by_cases hqp : q = p
    · subst hqp
      rw [Hosts.process_set_self] at hq
      exact howns hq
    · rwa [Hosts.process_set_of_ne hqp] at hq
  exact fun q r hq hr => h q r (hback q hq) (hback r hr)

/-- The mutex is made where nobody has a handle on one. -/
theorem Exclusive.opened (h : Exclusive hosts) {existed : Bool}
    (hexisted : existed = true ↔ ∃ q, (hosts.process q).HasHandle) :
    Exclusive (hosts.set p (.opened existed)) := by
  cases existed with
  | true => exact h.set fun howns => howns.elim
  | false =>
    have hnone : ∀ q, ¬(hosts.process q).HasHandle := fun q hq =>
      absurd (hexisted.mpr ⟨q, hq⟩) (by simp)
    have honly : ∀ q, ((hosts.set p (.opened false)).process q).Owns → q = p := by
      intro q hq
      by_contra hqp
      rw [Hosts.process_set_of_ne hqp] at hq
      exact hnone q hq.hasHandle
    exact fun q r hq hr => (honly q hq).trans (honly r hr).symm

/-- **The mutex stays with one process.** -/
theorem Exclusive.step (h : Exclusive hosts) {label : Option Event}
    (hstep : HostsStep hosts label hosts') :
    Exclusive hosts' := by
  have hend : ∀ p, Exclusive (hosts.set p .absent) := fun p => h.set fun howns => howns.elim
  have hgo : ∀ p process, (hosts.process p).Owns → Exclusive (hosts.set p process) :=
    fun _ _ howns => h.set fun _ => howns
  cases hstep with
  | opened _ hexisted => exact h.opened hexisted
  | refused _ => exact hend _
  | acquired hprocess => exact hgo _ _ (by rw [hprocess]; trivial)
  | notLoaded _ => exact hend _
  | @began p _ entry _ hprocess _ =>
    exact hgo p (.running (.starting entry)) (by rw [hprocess]; trivial)
  | @ran p _ _ phase' _ hprocess _ _ =>
    exact hgo p (.running phase') (by rw [hprocess]; trivial)
  | ended _ => exact hend _
  | died _ _ => exact hend _
  | diedEarly _ => exact hend _
  | application _ => exact h

/-- **One host at most.**  In every run of any number of processes that are started, refused, killed
and started again, there is at most one that is past the mutex: that reads the entry, opens its
volume and serves it. -/
theorem one_host_runs {labels : List (Option Event)} (hrun : Run HostsStep .start labels hosts)
    (hp : (hosts.process p).Owns) (hq : (hosts.process q).Owns) : p = q := by
  have hstart : Exclusive .start := fun _ _ h => h.elim
  exact hrun.invariant hstart (fun _ _ _ h hstep => h.step hstep) p q hp hq

/-! ## What the protocol sees -/

/-- The hosts as one: the world where the host is the one that runs. -/
structure Refines (hosts : Hosts) (w : World) : Prop where
  exclusive : Exclusive hosts
  file : w.file = hosts.file
  gui : w.gui = hosts.gui
  running : ∀ p phase, hosts.process p = .running phase → w.host = phase
  idle : (∀ p phase, hosts.process p ≠ .running phase) → w.host = .idle

theorem refines_start : Refines .start .start :=
  ⟨fun _ _ h => h.elim, rfl, rfl, fun _ _ h => absurd h (by simp [Hosts.start]), fun _ => rfl⟩

/-- Whoever owns the mutex is the only one that may run. -/
theorem Exclusive.not_running (h : Exclusive hosts) (hp : (hosts.process p).Owns) (hqp : q ≠ p)
    (phase : HostPhase) : hosts.process q ≠ .running phase := fun hq =>
  hqp (h q p (by rw [hq]; trivial) hp)

/-- Before the process that owns the mutex has begun, there is no host. -/
theorem Refines.not_begun (h : Refines hosts w) (hp : (hosts.process p).Owns)
    (hnot : ∀ phase, hosts.process p ≠ .running phase) : w = ⟨.idle, hosts.file, hosts.gui⟩ := by
  obtain ⟨host, file, gui⟩ := w
  have hidle : host = .idle := h.idle fun q phase hq => by
    by_cases hqp : q = p
    · exact hnot phase (hqp ▸ hq)
    · exact h.exclusive.not_running hp hqp phase hq
  rw [hidle, ← h.file, ← h.gui]

/-- The process that runs is the host. -/
theorem Refines.world (h : Refines hosts w) {phase : HostPhase}
    (hp : hosts.process p = .running phase) :
    w = ⟨phase, hosts.file, hosts.gui⟩ := by
  obtain ⟨host, file, gui⟩ := w
  rw [← h.running p phase hp, ← h.file, ← h.gui]

/-- A process that does not run and is not to run is not seen. -/
theorem Refines.unseen (h : Refines hosts w) (hexclusive : Exclusive (hosts.set p process))
    (hnot : ∀ phase, hosts.process p ≠ .running phase ∨ phase = .idle)
    (hnot' : ∀ phase, process ≠ .running phase) : Refines (hosts.set p process) w := by
  refine ⟨hexclusive, h.file, h.gui, fun q phase hq => ?_, fun hnone => ?_⟩
  · by_cases hqp : q = p
    · subst hqp
      rw [Hosts.process_set_self] at hq
      exact absurd hq (hnot' phase)
    · rw [Hosts.process_set_of_ne hqp] at hq
      exact h.running q phase hq
  · by_cases hrunning : ∃ q phase, hosts.process q = .running phase
    · obtain ⟨q, phase, hq⟩ := hrunning
      by_cases hqp : q = p
      · subst hqp
        rw [h.running q phase hq]
        exact (hnot phase).resolve_left (not_not.mpr hq)
      · exact absurd (by rw [Hosts.process_set_of_ne hqp]; exact hq) (hnone q phase)
    · push Not at hrunning
      exact h.idle hrunning

/-- The process that owns the mutex runs as the host does. -/
theorem refines_running (hexclusive : Exclusive hosts) (hp : (hosts.process p).Owns)
    (phase : HostPhase) (file : Option Text) :
    Refines { hosts.set p (.running phase) with file := file } ⟨phase, file, hosts.gui⟩ := by
  refine ⟨hexclusive.set fun _ => hp, rfl, rfl, fun q phase' hq => ?_, fun hnone => ?_⟩
  · change (hosts.set p (.running phase)).process q = .running phase' at hq
    by_cases hqp : q = p
    · subst hqp
      rw [Hosts.process_set_self] at hq
      exact Process.running.inj hq
    · rw [Hosts.process_set_of_ne hqp] at hq
      exact absurd hq (hexclusive.not_running hp hqp phase')
  · exact absurd Hosts.process_set_self (hnone p phase)

/-- **A step of the hosts is a step of one host, or is not seen.** -/
theorem Refines.step (h : Refines hosts w) {label : Option Event}
    (hstep : HostsStep hosts label hosts') :
    (label = none ∧ Refines hosts' w) ∨
      ∃ e w', label = some e ∧ Step w e w' ∧ Refines hosts' w' := by
  have hexclusive := h.exclusive.step hstep
  cases hstep with
  | opened habsent _ =>
    exact Or.inl ⟨rfl, h.unseen hexclusive (fun _ => Or.inl (by simp [habsent])) (by simp)⟩
  | refused hprocess =>
    exact Or.inl ⟨rfl, h.unseen hexclusive (fun _ => Or.inl (by simp [hprocess])) (by simp)⟩
  | acquired hprocess =>
    exact Or.inl ⟨rfl, h.unseen hexclusive (fun _ => Or.inl (by simp [hprocess])) (by simp)⟩
  | notLoaded hprocess =>
    exact Or.inl ⟨rfl, h.unseen hexclusive (fun _ => Or.inl (by simp [hprocess])) (by simp)⟩
  | @began p e entry file hprocess hstep =>
    have howns : (hosts.process p).Owns := by rw [hprocess]; trivial
    rw [h.not_begun howns (by simp [hprocess])]
    exact Or.inr ⟨e, _, rfl, hstep, refines_running h.exclusive howns _ _⟩
  | @ran p e phase phase' file hprocess _ hstep =>
    have howns : (hosts.process p).Owns := by rw [hprocess]; trivial
    rw [h.world hprocess]
    exact Or.inr ⟨e, _, rfl, hstep, refines_running h.exclusive howns _ _⟩
  | @ended p hprocess =>
    refine Or.inl ⟨rfl, h.unseen hexclusive (fun phase => ?_) (by simp)⟩
    by_cases hphase : phase = .idle
    · exact Or.inr hphase
    · exact Or.inl fun heq => hphase (Process.running.inj (heq.symm.trans hprocess))
  | @died p phase hprocess _ =>
    have howns : (hosts.process p).Owns := by rw [hprocess]; trivial
    rw [h.world hprocess]
    refine Or.inr ⟨.died, _, rfl, .died, hexclusive, rfl, rfl, fun q phase' hq => ?_, fun _ => rfl⟩
    by_cases hqp : q = p
    · subst hqp
      rw [Hosts.process_set_self] at hq
      exact absurd hq (by simp)
    · rw [Hosts.process_set_of_ne hqp] at hq
      exact absurd hq (h.exclusive.not_running howns hqp phase')
  | diedEarly hprocess =>
    exact Or.inl ⟨rfl, h.unseen hexclusive (fun phase => Or.inl (hprocess phase)) (by simp)⟩
  | @application e file gui hstep =>
    obtain ⟨host, file', gui'⟩ := w
    obtain rfl : file' = hosts.file := h.file
    obtain rfl : gui' = hosts.gui := h.gui
    exact Or.inr ⟨e, _, rfl, hstep host, hexclusive, rfl, rfl, h.running, h.idle⟩

/-- **The hosts are one host.**  What any number of processes do to the state file, and what the
application is told meanwhile, one host does and the application is told beside it. -/
theorem hosts_refine {labels : List (Option Event)} (hrun : Run HostsStep .start labels hosts) :
    ∃ w, Run Step .start (labels.filterMap id) w ∧ Refines hosts w :=
  hrun.stuttering refines_start fun _ _ _ _ h hstep => h.step hstep

/-! ## The mounted state, with any number of hosts -/

/-- The process that has written the state file, or is writing it, runs. -/
def Hosts.Wrote (hosts : Hosts) : Prop := ∃ p phase, hosts.process p = .running phase ∧ phase.Wrote

theorem Refines.wrote (h : Refines hosts w) : hosts.Wrote ↔ w.host.Wrote := by
  constructor
  · rintro ⟨p, phase, hp, hwrote⟩
    rwa [h.running p phase hp]
  · intro hwrote
    by_contra hnone
    have hidle : w.host = .idle := h.idle fun p phase hp =>
      hnone ⟨p, phase, hp, h.running p phase hp ▸ hwrote⟩
    rw [hidle] at hwrote
    exact hwrote

/-- **The mounted state of an entry.**  However many hosts are started, refused and killed, the
answer of `entry_is_mounted` is whether there is a state file, which is left as it is.  So it is
right, and a file whose writer is gone removed, exactly when there is a state file if and only if
its writer runs. -/
theorem hosts_mounted_state {labels : List (Option Event)} {answer : Bool}
    (hrun : Run HostsStep .start labels hosts)
    (hask : HostsStep hosts (some (.asked answer)) hosts') :
    answer = hosts.file.isSome ∧ hosts'.file = hosts.file ∧
      ((answer = true ↔ hosts.Wrote) ∧ (¬hosts.Wrote → answer = false ∧ hosts'.file = none) ↔
        (hosts.file ≠ none ↔ hosts.Wrote)) := by
  obtain ⟨w, hrun', h⟩ := hosts_refine hrun
  have hplain : Plain w := hrun'.invariant plain_start fun _ _ _ h hstep => h.step hstep
  obtain ⟨hlabel, -⟩ | ⟨e, w', hlabel, hstep, h'⟩ := h.step hask
  · exact absurd hlabel (by simp)
  obtain rfl := Option.some.inj hlabel
  have hhonest := honest_iff hplain hstep
  rw [Honest, Matches, ← h.wrote, h.file, h'.file] at hhonest
  generalize hevent : Event.asked answer = e at hstep
  cases hstep with
  | asked s removing _ hwindows hlocated =>
    have hasked := asked_eq hplain hwindows hlocated
    have hfile := h'.file
    rw [hasked] at hevent hfile
    refine ⟨?_, ?_, hhonest⟩
    · rw [Event.asked.inj hevent, h.file]
    · rw [← hfile, h.file]
  | _ => exact absurd hevent (by simp)

end

/-! ## Two hosts -/

/-- Two processes have been started. -/
def twoHosts (first second : Process) (file : Option Text) : Hosts :=
  ⟨fun p => if p = 0 then first else if p = 1 then second else .absent, file, .idle⟩

theorem twoHosts_set_zero (first second process : Process) (file : Option Text) :
    (twoHosts first second file).set 0 process = twoHosts process second file := by
  unfold twoHosts Hosts.set
  congr 1
  funext p
  dsimp only
  by_cases hp : p = 0
  · rw [hp, Function.update_self, if_pos rfl]
  · rw [Function.update_of_ne hp, if_neg hp, if_neg hp]

theorem twoHosts_set_one (first second process : Process) (file : Option Text) :
    (twoHosts first second file).set 1 process = twoHosts first process file := by
  unfold twoHosts Hosts.set
  congr 1
  funext p
  dsimp only
  by_cases hp : p = 1
  · rw [hp, Function.update_self]
    rfl
  · rw [Function.update_of_ne hp, if_neg hp, if_neg hp]

theorem twoHosts_start : twoHosts .absent .absent none = .start := by
  unfold twoHosts Hosts.start
  congr 1
  funext p
  split
  · rfl
  · split <;> rfl

/-- The first process makes the mutex and serves the volume; the second one finds the mutex made. -/
theorem twoHosts_run :
    Run HostsStep .start [none, none, some .quiet, none, some .quiet, some .quiet]
    (twoHosts (.running .serving) (.opened true) (some sampleState)) := by
  have hentry : MountEntry.parseEntry sampleText = .ok sampleEntry := by decide +kernel
  have hopened : HostsStep .start none (twoHosts (.opened false) .absent none) := by
    rw [← twoHosts_set_zero .absent, twoHosts_start]
    exact .opened rfl (iff_of_false (by simp) fun ⟨_, h⟩ => h)
  have hacquired : HostsStep (twoHosts (.opened false) .absent none) none
      (twoHosts .acquired .absent none) := by
    rw [← twoHosts_set_zero (.opened false) .absent .acquired]
    exact .acquired rfl
  have hbegan : HostsStep (twoHosts .acquired .absent none) (some .quiet)
      (twoHosts (.running (.starting sampleEntry)) .absent none) := by
    rw [← twoHosts_set_zero .acquired .absent (.running (.starting sampleEntry))]
    exact .began rfl (.began rfl hentry)
  have hopened' : HostsStep (twoHosts (.running (.starting sampleEntry)) .absent none) none
      (twoHosts (.running (.starting sampleEntry)) (.opened true) none) := by
    rw [← twoHosts_set_one _ .absent (.opened true)]
    exact .opened rfl (iff_of_true rfl ⟨0, trivial⟩)
  have hcreated : HostsStep (twoHosts (.running (.starting sampleEntry)) (.opened true) none)
    (some .quiet)
      (twoHosts (.running (.writing sampleState)) (.opened true) (some [])) := by
    have h := @HostsStep.ran (twoHosts (.running (.starting sampleEntry)) (.opened true) none) 0 _ _
      _ _ rfl (by simp) (.created rfl (some 'V'))
    rwa [twoHosts_set_zero] at h
  have hserved : HostsStep (twoHosts (.running (.writing sampleState)) (.opened true) (some []))
      (some .quiet) (twoHosts (.running .serving) (.opened true) (some sampleState)) := by
    have h := @HostsStep.ran (twoHosts (.running (.writing sampleState)) (.opened true) (some [])) 0
      _ _ _ _ rfl (by simp) (.served rfl)
    rwa [twoHosts_set_zero] at h
  have hrun : Run HostsStep .start ([] ++ [none]) _ := Run.refl.step hopened
  exact ((((hrun.step hacquired).step hbegan).step hopened').step hcreated).step hserved

/-- The process that serves the volume is the only one past the mutex. -/
theorem one_host_runs_twoHosts : ∃ labels hosts, Run HostsStep .start labels hosts ∧
    (hosts.process 1).HasHandle ∧ ∀ q, (hosts.process q).Owns → q = 0 :=
  ⟨_, _, twoHosts_run, trivial, fun _ hq => one_host_runs twoHosts_run hq trivial⟩

/-- The process that served the volume has been killed, and the one that was refused has not: the
entry is mounted, and no process has written the file. -/
theorem hosts_mounted_state_twoHosts : ∃ labels hosts, Run HostsStep .start labels hosts ∧
    HostsStep hosts (some (.asked true)) hosts ∧ ¬hosts.Wrote ∧ hosts.file.isSome = true := by
  have hdied : HostsStep (twoHosts (.running .serving) (.opened true) (some sampleState))
    (some .died)
      (twoHosts .absent (.opened true) (some sampleState)) := by
    rw [← twoHosts_set_zero (.running .serving) (.opened true) .absent]
    exact .died rfl (by simp)
  have hasked : HostsStep (twoHosts .absent (.opened true) (some sampleState)) (some (.asked true))
      (twoHosts .absent (.opened true) (some sampleState)) := .application sample_asked
  have hwrote : ¬(twoHosts .absent (.opened true) (some sampleState)).Wrote := by
    rintro ⟨p, phase, hp, -⟩
    unfold twoHosts at hp
    dsimp only at hp
    split_ifs at hp
  refine ⟨_, _, twoHosts_run.step hdied, hasked, hwrote, ?_⟩
  exact (hosts_mounted_state (twoHosts_run.step hdied) hasked).1.symm

end OrIsyVra.Mount.MountedState
