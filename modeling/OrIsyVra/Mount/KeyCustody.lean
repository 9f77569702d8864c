import OrIsyVra.Files.Capsules
import OrIsyVra.Files.PinCards
import OrIsyVra.Mount.VolumeApp
import Mathlib.Data.List.Basic

/-!
# Whose master key the volume application seals

The application seals the master key of the card that is unlocked.  `Just` says what each event of
the log needs before it: a master key is sealed for an entry only while the key card of that entry
is open, a volume is registered with the card whose master key it was made under, and the mount host
is told to mount an entry only when it will find a credential.

A pass over the window calls one method after another, and a method others, so the invariant `Inv`
is carried through them by contracts, one for each method.  In `credentials_follow_keys` it is
carried through whole runs.
-/

namespace OrIsyVra
namespace Mount
namespace VolumeApp

open ByteString MachineWord TextLines FaultProgram FileSystem Runs

/-! ## What the log says -/

/-- The key card that is open after an event. -/
def Event.hold (held : Option (Path × MasterKey)) : Event → Option (Path × MasterKey)
  | opened path _ master => some (path, master)
  | closed => none
  | _ => held

/-- The key card that is open at the end of the log. -/
def held (log : List Event) : Option (Path × MasterKey) := log.foldl Event.hold none

theorem held_concat (log : List Event) (e : Event) : held (log ++ [e]) = e.hold (held log) := by
  rw [held, held, List.foldl_append]
  rfl

/-- The event is about no key card. -/
def Event.Silent (e : Event) : Prop := ∀ held, e.hold held = held

/-- **What is held was opened**, and after that no key card was opened or closed. -/
theorem held_eq_some {log : List Event} {path : Path} {master : MasterKey}
    (h : held log = some (path, master)) :
    ∃ before credential after, log = before ++ .opened path credential master :: after ∧
      ∀ e ∈ after, e.Silent := by
  induction log using List.reverseRecOn with
  | nil => exact absurd h (by simp [held])
  | append_singleton log e ih =>
    rw [held_concat] at h
    have hsilent : e.Silent → ∃ before credential after,
        log ++ [e] = before ++ .opened path credential master :: after ∧ ∀ e ∈ after, e.Silent := by
      intro hsilent
      obtain ⟨before, credential, after, rfl, hafter⟩ := ih ((hsilent _).symm.trans h)
      refine ⟨before, credential, after ++ [e], by rw [List.append_assoc, List.cons_append], ?_⟩
      intro e' he'
      rcases List.mem_append.mp he' with hmem | hmem
      · exact hafter e' hmem
      · rwa [List.mem_singleton.mp hmem]
    cases e with
    | opened path' credential master' =>
      obtain ⟨rfl, rfl⟩ := Prod.mk.inj (Option.some.inj h)
      exact ⟨log, credential, [], rfl, fun _ he => absurd he List.not_mem_nil⟩
    | closed => exact absurd h (by simp [Event.hold])
    | listed | created | sealed | prepared | ran | ranAtStartup | stopped | removed | startup =>
      exact hsilent fun _ => rfl

/-- An entry of the application, by its id and its key card. -/
def Known (log : List Event) (id keyPath : Text) : Prop :=
  ∃ entry : MountEntry, entry.id = id ∧ entry.keyPath = keyPath ∧
    ((∃ master, .created entry master ∈ log) ∨ ∃ entries, .listed entries ∈ log ∧ entry ∈ entries)

theorem Known.concat {log : List Event} {id keyPath : Text} (h : Known log id keyPath) (e : Event) :
    Known (log ++ [e]) id keyPath := by
  obtain ⟨entry, hid, hkey, ⟨master, hmem⟩ | ⟨entries, hmem, hentry⟩⟩ := h
  · exact ⟨entry, hid, hkey, Or.inl ⟨master, List.mem_append_left _ hmem⟩⟩
  · exact ⟨entry, hid, hkey, Or.inr ⟨entries, List.mem_append_left _ hmem, hentry⟩⟩

section

variable [KeyCrypto] [CardImaging] [PathText] [Crypto]

/-- The key source at a path is opened by a credential. -/
def Opens (m : Moment) (path : Path) (credential : String) (master : MasterKey) : Prop :=
  (PinCard.unlockPinCard m.account path credential m.host).1 = .ok master ∨
    (Keycard.unlockKeySource path (ascii credential) m.host).1 = .ok master

/-- The master key may be sealed for the entry: it is that of the open card, which is the
entry's. -/
def Granted (log : List Event) (id : Text) (master : MasterKey) : Prop :=
  ∃ keyPath, Known log id keyPath ∧ held log = some (PathText.read keyPath, master)

/-- What an event needs in the log before it. -/
def Just (outside : ℕ → Moment) (log : List Event) : Event → Prop
  | .opened path credential master => ∃ n, Opens (outside n) path credential master
  | .created entry master => held log = some (PathText.read entry.keyPath, master)
  | .sealed id master => Granted log id master
  | .prepared id => ∃ master, log.getLast? = some (.sealed id master)
  | .ran entry => Known log entry.id entry.keyPath ∧ entry.taskRegistered = true ∧
      (entry.autoUnlock = true ∨ log.getLast? = some (.prepared entry.id))
  | .ranAtStartup entry => Known log entry.id entry.keyPath ∧ entry.autoMount = true ∧
      entry.autoUnlock = true
  | .stopped id => ∃ keyPath, Known log id keyPath
  | .removed id => ∃ keyPath, Known log id keyPath
  | _ => True

/-! ## The invariant -/

/-- What the invariant is about. -/
structure Seen where
  outside : ℕ → Moment
  log : List Event
  master : Option MasterKey
  keyPath : Text
  entries : List MountEntry

def Desk.seen (d : Desk) : Seen := ⟨d.outside, d.log, d.app.master, d.app.keyPath, d.app.entries⟩

/-- The part of the invariant that holds also between the opening of a key card and the news of
it. -/
structure Base (v : Seen) : Prop where
  readable : ∀ n path, (v.outside n).picked = some path →
    PathText.read (trim path) = PathText.read path
  justified : Justified (Just v.outside) v.log
  known : ∀ entry ∈ v.entries, Known v.log entry.id entry.keyPath

/-- **The invariant.**  The log is as it should be, and the master key is that of the key card that
is shown. -/
structure Inv (v : Seen) : Prop extends Base v where
  custody : held v.log = v.master.map (PathText.read (trim v.keyPath), ·)

/-- A program that keeps the invariant, whatever else it needs and leaves; what it will find is
given. -/
def Keeps {α : Type} (P : Seen → Prop) (p : AppProg α) (Q : α → Seen → Prop) : Prop :=
  ∀ outside, Contract (fun d => P d.seen ∧ d.outside = outside) p
    (fun a d => Q a d.seen ∧ d.outside = outside) fun d => Inv d.seen ∧ d.outside = outside

variable {α β : Type} {P : Seen → Prop} {v : Seen} {e : Event}

omit [KeyCrypto] [CardImaging] [PathText] [Crypto] in
theorem leaves_ask (f : Moment → α) : Leaves Desk.seen (ask f) := fun _ => rfl

omit [KeyCrypto] [CardImaging] [PathText] [Crypto] in
theorem leaves_onHost {ε : Type} (notice : ε → Notice) (p : Moment → Prog (Host Path) ε α) :
    Leaves Desk.seen (onHost notice p) := by
  intro d
  unfold onHost
  dsimp only
  split <;> rfl

omit [KeyCrypto] [CardImaging] [PathText] [Crypto] in
theorem leaves_command (f : Moment → Except Notice Unit) : Leaves Desk.seen (command f) :=
  .bind (leaves_ask f) fun _ => .ofExcept _

omit [KeyCrypto] [CardImaging] [PathText] [Crypto] in
theorem leaves_theApp : Leaves Desk.seen theApp := fun _ => rfl

omit [KeyCrypto] [CardImaging] [PathText] [Crypto] in
theorem leaves_change {f : App → App} (hf : ∀ app, (f app).master = app.master ∧
    (f app).keyPath = app.keyPath ∧ (f app).entries = app.entries) :
    Leaves Desk.seen (change f) := by
  intro d
  obtain ⟨hmaster, hkey, hentries⟩ := hf d.app
  show Seen.mk d.outside d.log (f d.app).master (f d.app).keyPath (f d.app).entries = d.seen
  rw [hmaster, hkey, hentries]
  rfl

omit [KeyCrypto] [CardImaging] [PathText] [Crypto] in
theorem leaves_setStatus (kind : StatusKind) (message : Notice) :
    Leaves Desk.seen (setStatus kind message) :=
  leaves_change fun _ => ⟨rfl, rfl, rfl⟩

omit [KeyCrypto] [CardImaging] [PathText] [Crypto] in
theorem leaves_say (kind : StatusKind) (ja en : String) : Leaves Desk.seen (say kind ja en) :=
  .bind leaves_theApp fun _ => leaves_setStatus kind _

omit [KeyCrypto] [CardImaging] [PathText] [Crypto] in
theorem leaves_entryAt (index : ℕ) : Leaves Desk.seen (entryAt index) := by
  refine .bind leaves_theApp fun app => ?_
  cases app.entries[index]? with
  | some entry => exact .pure entry
  | none => exact fun _ => rfl

omit [KeyCrypto] [CardImaging] [PathText] [Crypto] in
theorem leaves_saveEntry (entry : MountEntry) : Leaves Desk.seen (saveEntry entry) :=
  .bind (.ofExcept _) fun _ => leaves_command _

omit [PathText] [Crypto] in
theorem leaves_fingerprintOf (path : Path) : Leaves Desk.seen (fingerprintOf path) := by
  refine .bind (leaves_onHost _ _).attempt fun r => ?_
  cases r <;> exact .pure _

omit [PathText] [Crypto] in
theorem leaves_pinState (path : Path) : Leaves Desk.seen (pinState path) := by
  refine .bind (leaves_onHost _ _).attempt fun r => ?_
  cases r <;> exact .pure _

omit [KeyCrypto] [CardImaging] [PathText] [Crypto] in
theorem leaves_writeProtectedSecret (plaintext : Bytes) :
    Leaves Desk.seen (writeProtectedSecret plaintext) :=
  .bind (leaves_command _) fun _ => leaves_command _

omit [KeyCrypto] [CardImaging] [PathText] [Crypto] in
theorem theApp_eq_ok {d t : Desk} {app : App} (h : theApp d = (.ok app, t)) :
    d.app = app ∧ d = t := by
  obtain ⟨hvalue, hstate⟩ := Prod.mk.inj h
  exact ⟨Outcome.ok.inj hvalue, hstate⟩

namespace Keeps

variable {p : AppProg α} {Q : α → Seen → Prop}

theorem pure (a : α) (h : ∀ v, P v → Q a v) : Keeps P (Pure.pure a) Q := fun _ =>
  Contract.pure a fun d hd => ⟨h d.seen hd.1, hd.2⟩

theorem bind {f : α → AppProg β} {R : β → Seen → Prop} (hp : Keeps P p Q)
    (hf : ∀ a, Keeps (Q a) (f a) R) :
    Keeps P (p >>= f) R := fun outside =>
  Contract.bind (hp outside) fun a => hf a outside

theorem attempt {R : Except Notice α → Seen → Prop} (hp : Keeps P p Q)
    (hok : ∀ a v, Q a v → R (.ok a) v) (herror : ∀ e v, Inv v → R (.error e) v) :
    Keeps P (Prog.attempt p : AppProg (Except Notice α)) R := fun outside =>
  Contract.attempt (hp outside) (fun a d hd => ⟨hok a d.seen hd.1, hd.2⟩)
    fun e d hd => ⟨herror e d.seen hd.1, hd.2⟩

theorem ite {c : Prop} [Decidable c] {q : AppProg α} (hp : c → Keeps P p Q)
    (hq : ¬c → Keeps P q Q) :
    Keeps P (if c then p else q) Q := fun outside =>
  Contract.ite (fun hc => hp hc outside) fun hc => hq hc outside

theorem mono {S : Seen → Prop} {R : α → Seen → Prop} (h : Keeps P p Q) (hS : ∀ v, S v → P v)
    (hR : ∀ a v, Q a v → R a v) : Keeps S p R := fun outside =>
  Contract.mono (h outside) (fun d hd => ⟨hS d.seen hd.1, hd.2⟩)
    (fun a d hd => ⟨hR a d.seen hd.1, hd.2⟩) fun _ hd => hd

/-- More is known than the program needs. -/
theorem weaken {S : Seen → Prop} (h : Keeps P p Q) (hS : ∀ v, S v → P v) : Keeps S p Q :=
  h.mono hS fun _ _ hv => hv

theorem given {c : Prop} (hc : ∀ v, P v → c) (h : c → Keeps P p Q) : Keeps P p Q := fun outside =>
  Contract.given (fun d hd => hc d.seen hd.1) fun c => h c outside

theorem forM {ι : Type} {f : ι → AppProg PUnit} (items : List ι)
    (h : ∀ i ∈ items, Keeps P (f i) fun _ => P) :
    Keeps P (items.forM f) fun _ => P := fun outside =>
  Contract.forM items fun i hi => h i hi outside

/-- A program that does nothing the invariant is about. -/
theorem quiet (h : Leaves Desk.seen p) (hP : ∀ v, P v → Inv v) : Keeps P p fun _ => P := by
  intro outside
  refine (Contract.of_maintains (.of_leaves h fun s t hview hs => ?_)).mono (fun _ hs => hs)
    (fun _ _ hs => hs) fun _ hs => ⟨hP _ hs.1, hs.2⟩
  show P t.seen ∧ t.seen.outside = outside
  rw [hview]
  exact hs

/-- What the program finds out is known behind it. -/
theorem finds (h : Leaves Desk.seen p) (hP : ∀ v, P v → Inv v)
    (hQ : ∀ d a t, P d.seen → p d = (.ok a, t) → Q a d.seen) :
    Keeps P p fun a v => P v ∧ Q a v := by
  intro outside d hd
  have hs := h d
  refine wp_mono (wp_self p d) (fun a t hrun => ?_) (fun e t hrun => ?_) fun t hrun => ?_
  · rw [hrun] at hs
    show (P t.seen ∧ Q a t.seen) ∧ t.seen.outside = outside
    rw [show t.seen = d.seen from hs]
    exact ⟨⟨hd.1, hQ d a t hd.1 hrun⟩, hd.2⟩
  all_goals
    rw [hrun] at hs
    show Inv t.seen ∧ t.seen.outside = outside
    rw [show t.seen = d.seen from hs]
    exact ⟨hP _ hd.1, hd.2⟩

theorem onClick {p : AppProg Unit} {clicked : Bool} (h : clicked = true → Keeps P p fun _ => P) :
    Keeps P (onClick clicked p) fun _ => P :=
  .ite h fun _ => .pure _ fun _ hv => hv

/-- What an attempt that has worked finds out. -/
theorem learns {F : α → Seen → Prop} (h : Leaves Desk.seen p) (hP : ∀ v, P v → Inv v)
    (hF : ∀ d a t, P d.seen → p d = (.ok a, t) → F a d.seen) :
    Keeps P (Prog.attempt p : AppProg (Except Notice α)) fun r v =>
      P v ∧ ∀ a, r = .ok a → F a v := by
  refine .finds h.attempt hP fun d r t hd hrun a hr => ?_
  rcases attempt_eq_ok.mp hrun with ⟨a', hr', hp⟩ | ⟨e, hr', -⟩
  · obtain rfl := Except.ok.inj (hr.symm.trans hr')
    exact hF d a t hd hp
  · exact absurd (hr.symm.trans hr') (by simp)

/-- An entry of the window. -/
theorem entryAt (index : ℕ) (hP : ∀ v, P v → Inv v) :
    Keeps P (entryAt index) fun entry v => P v ∧ v.entries[index]? = some entry := by
  refine finds (leaves_entryAt index) hP fun d entry t hd hrun => ?_
  show d.app.entries[index]? = some entry
  obtain ⟨app, t₁, happ, hmatch⟩ := bind_eq_ok.mp hrun
  obtain ⟨rfl, rfl⟩ := theApp_eq_ok happ
  rcases hentry : d.app.entries[index]? with _ | entry' <;> rw [hentry] at hmatch
  · exact Outcome.noConfusion rfl rfl (heq_of_eq (Prod.mk.inj hmatch).1)
  · obtain ⟨rfl, -⟩ := pure_eq_ok.mp hmatch
    rfl

/-- The state of the window is known. -/
theorem theApp (hP : ∀ v, P v → Inv v) : Keeps P theApp fun app v =>
    P v ∧ v.master = app.master ∧ v.keyPath = app.keyPath ∧ v.entries = app.entries := by
  refine finds leaves_theApp hP fun d app t hd hrun => ?_
  obtain ⟨rfl, -⟩ := theApp_eq_ok hrun
  exact ⟨rfl, rfl, rfl⟩

/-- The log grows. -/
theorem tell {Q : Seen → Prop} (e : Event) (h : ∀ v, P v → Q { v with log := v.log ++ [e] }) :
    Keeps P (tell e) fun _ => Q :=
  fun _ d hd => (wp_modify _ _ _).mpr ⟨h d.seen hd.1, hd.2⟩

/-- The window changes. -/
theorem change {Q : Seen → Prop} {f : App → App}
    (h : ∀ v, P v → ∀ app : App, v.master = app.master →
      v.keyPath = app.keyPath → v.entries = app.entries →
        Q ⟨v.outside, v.log, (f app).master, (f app).keyPath, (f app).entries⟩) :
    Keeps P (change f) fun _ => Q :=
  fun _ d hd => (wp_modify _ _ _).mpr ⟨h d.seen hd.1 d.app rfl rfl rfl, hd.2⟩

/-- A status is set. -/
theorem setStatus (hP : ∀ v, P v → Inv v) (kind : StatusKind) (message : Notice) :
    Keeps P (setStatus kind message) fun _ => Inv :=
  (quiet (leaves_setStatus kind message) hP).mono (fun _ hv => hv) fun _ v hv => hP v hv

theorem say (hP : ∀ v, P v → Inv v) (kind : StatusKind) (ja en : String) :
    Keeps P (say kind ja en) fun _ => Inv :=
  (quiet (leaves_say kind ja en) hP).mono (fun _ hv => hv) fun _ v hv => hP v hv

/-- An attempt, with what is done after an error and what is done when it has worked. -/
theorem handle {S R : Seen → Prop} {p : AppProg Unit} {f : Except Notice Unit → AppProg Unit}
    (hp : Keeps P p fun _ => S) (herror : ∀ e, Keeps Inv (f (.error e)) fun _ => R)
    (hok : Keeps S (f (.ok ())) fun _ => R) :
    Keeps P ((Prog.attempt p : AppProg (Except Notice Unit)) >>= f) fun _ => R := by
  refine .bind (hp.attempt (R := fun r v => match r with | .ok _ => S v | .error _ => Inv v)
    (fun _ _ hv => hv) fun _ _ hv => hv) fun r => ?_
  cases r with
  | error e => exact herror e
  | ok _ => exact hok

/-- A call of another program whose failure is told. -/
theorem orTell {R : Seen → Prop} {f : Except Notice Unit → AppProg Unit}
    {c : Moment → Except Notice Unit} (hP : ∀ v, P v → Inv v)
    (herror : ∀ e, Keeps Inv (f (.error e)) fun _ => R)
    (hok : Keeps P (f (.ok ())) fun _ => R) :
    Keeps P ((Prog.attempt (command c) : AppProg (Except Notice Unit)) >>= f) fun _ => R :=
  .handle (.quiet (leaves_command c) hP) herror hok

end Keeps

/-- The log grows by an event that has what it needs. -/
theorem Inv.concat (h : Inv v) (hjust : Just v.outside v.log e) (hsilent : e.Silent) :
    Inv { v with log := v.log ++ [e] } where
  readable := h.readable
  justified := justified_concat.mpr ⟨h.justified, hjust⟩
  known entry hentry := (h.known entry hentry).concat e
  custody := by
    show held (v.log ++ [e]) = _
    rw [held_concat, hsilent, h.custody]

omit [KeyCrypto] [CardImaging] [Crypto] in
theorem Granted.concat {log : List Event} {id : Text} {master : MasterKey}
    (h : Granted log id master) (hsilent : e.Silent) : Granted (log ++ [e]) id master := by
  obtain ⟨keyPath, hknown, hheld⟩ := h
  exact ⟨keyPath, hknown.concat e, by rw [held_concat, hsilent, hheld]⟩

/-- The entries change in nothing that matters. -/
theorem Inv.withEntries (h : Inv v) {entries : List MountEntry}
    (hentries : ∀ entry ∈ entries, Known v.log entry.id entry.keyPath) :
    Inv { v with entries := entries } :=
  { h with known := hentries }

omit [KeyCrypto] [CardImaging] [PathText] [Crypto] in
/-- A change of an entry that keeps its id and its key card. -/
theorem known_modify {log : List Event} {entries : List MountEntry} {f : MountEntry → MountEntry}
    {index : ℕ} (hf : ∀ entry, (f entry).id = entry.id ∧ (f entry).keyPath = entry.keyPath)
    (h : ∀ entry ∈ entries, Known log entry.id entry.keyPath) :
    ∀ entry ∈ entries.modify index f, Known log entry.id entry.keyPath := by
  intro entry hmem
  obtain ⟨i, hi⟩ := List.mem_iff_getElem?.mp hmem
  rw [List.getElem?_modify] at hi
  obtain ⟨entry', hentry', rfl⟩ := Option.map_eq_some_iff.mp hi
  have hknown := h entry' (List.mem_of_getElem? hentry')
  split
  · rw [(hf entry').1, (hf entry').2]
    exact hknown
  · exact hknown

/-! ## What the programs keep -/

/-- The master key is dropped, and the log says so. -/
theorem keeps_close {Q : Seen → Prop}
    (hQ : ∀ v, P v → Q { v with log := v.log ++ [.closed], master := none }) :
    Keeps P close fun _ => Q := by
  intro _ d hd
  unfold close
  rw [wp_bind]
  exact (wp_modify _ _ _).mpr ((wp_modify _ _ _).mpr ⟨hQ d.seen hd.1, hd.2⟩)

theorem Inv.closed (h : Inv v) : Inv { v with log := v.log ++ [.closed], master := none } where
  readable := h.readable
  justified := justified_concat.mpr ⟨h.justified, trivial⟩
  known entry hentry := (h.known entry hentry).concat _
  custody := by
    show held (v.log ++ [.closed]) = none
    rw [held_concat]
    rfl

/-- Without a master key any key card may be shown. -/
theorem Inv.withKeyPath (h : Inv v) (hmaster : v.master = none) (keyPath : Text) :
    Inv { v with keyPath := keyPath } :=
  { h with
    custody := by
      show held v.log = v.master.map _
      rw [h.custody, hmaster]
      rfl }

theorem keeps_syncStartup : Keeps Inv syncStartup fun _ => Inv := by
  refine .bind (.quiet leaves_theApp fun _ h => h) fun app => ?_
  refine .bind (.tell _ fun v h => h.concat trivial fun _ => rfl) fun _ => ?_
  refine .orTell (fun _ h => h) (fun e => .setStatus (fun _ h => h) _ _) ?_
  exact .pure _ fun _ h => h

/-- The entries the application has found. -/
theorem Inv.listed (h : Inv v) (entries : List MountEntry) :
    Inv { v with log := v.log ++ [.listed entries], entries := entries } :=
  (h.concat (e := .listed entries) trivial fun _ => rfl).withEntries fun entry hmem =>
    ⟨entry, rfl, rfl, Or.inr ⟨entries, List.mem_append_right _ List.mem_cons_self, hmem⟩⟩

theorem keeps_refreshEntries {Q : Seen → Prop}
    (hQ : ∀ v entries, P v → Q { v with log := v.log ++ [.listed entries], entries := entries }) :
    Keeps P refreshEntries fun _ => Q := by
  intro _ d hd
  unfold refreshEntries
  have hask : ask Moment.listed d =
    (.ok (d.outside d.tick).listed, { d with tick := d.tick + 1 }) := rfl
  rw [wp_bind]
  refine wp_of_ok hask ?_
  dsimp only
  rw [wp_bind]
  exact (wp_modify _ _ _).mpr ((wp_modify _ _ _).mpr ⟨hQ d.seen _ hd.1, hd.2⟩)

/-! ## Preparing and starting -/

/-- The entry at an index has its task. -/
def Registered (index : ℕ) (v : Seen) : Prop :=
  ∃ entry, v.entries[index]? = some entry ∧ entry.taskRegistered = true

theorem keeps_ensureTask (index : ℕ) (hP : ∀ v, P v → Inv v) (hmodify : ∀ v, P v → P { v with
      entries := v.entries.modify index fun entry => { entry with taskRegistered := true } }) :
    Keeps P (ensureTask index) fun _ v => P v ∧ Registered index v := by
  refine .bind (.entryAt index hP) fun entry => .ite (fun hregistered => ?_) fun _ => ?_
  · exact .pure _ fun d hd => ⟨hd.1, entry, hd.2, hregistered⟩
  refine .bind (.quiet (leaves_command _) fun v hv => hP v hv.1) fun _ => ?_
  have hset : Keeps (fun v => P v ∧ v.entries[index]? = some entry)
      (setEntry index fun entry => { entry with taskRegistered := true })
      fun _ v => P v ∧ Registered index v := by
    intro _ d hd
    refine (wp_modify _ _ _).mpr
      ⟨⟨hmodify d.seen hd.1.1, { entry with taskRegistered := true }, ?_, rfl⟩, hd.2⟩
    show (d.app.entries.modify index _)[index]? = _
    have hentry : d.app.entries[index]? = some entry := hd.1.2
    rw [List.getElem?_modify, hentry]
    exact congrArg some (if_pos rfl)
  refine .bind hset fun _ => ?_
  have hbase : ∀ v, (P v ∧ Registered index v) → Inv v := fun v hv => hP v hv.1
  refine .bind (.quiet (leaves_entryAt index) hbase) fun entry => ?_
  exact .quiet (leaves_saveEntry entry) hbase

omit [CardImaging] [PathText] in
theorem leaves_export (draw : Draw) (master : MasterKey) (credential : Path) : Leaves Desk.seen
    (onHost .key fun _ =>
      exportRecoveryKeyfileFromMaster draw.temporary master draw.mountPassword.val
      default draw.salt draw.nonce credential true) :=
  leaves_onHost _ _

/-- The master key is sealed for the entry. -/
theorem keeps_prepareCredential (entry : MountEntry) (master : MasterKey)
    {F : List MountEntry → Prop} :
    Keeps (fun v => (Inv v ∧ Granted v.log entry.id master) ∧ F v.entries)
      (prepareCredential entry master) fun _ v => (Inv v ∧ F v.entries) ∧
      v.log.getLast? = some (.sealed entry.id master) := by
  have hgranted : ∀ v, (Inv v ∧ Granted v.log entry.id master) ∧ F v.entries → Inv v :=
    fun v hv => hv.1.1
  have hsealed : ∀ v, (Inv v ∧ F v.entries) ∧
    v.log.getLast? = some (.sealed entry.id master) → Inv v :=
    fun v hv => hv.1.1
  refine .bind (.quiet (leaves_ask _) hgranted) fun draw => ?_
  refine .bind (.quiet (leaves_ask _) hgranted) fun credential => ?_
  refine .bind (.quiet (.ofExcept _) hgranted) fun credential => ?_
  refine .bind (.quiet (leaves_command _) hgranted) fun _ => ?_
  have htell : Keeps (fun v => (Inv v ∧ Granted v.log entry.id master) ∧ F v.entries)
      (tell (.sealed entry.id master))
      fun _ v => (Inv v ∧ F v.entries) ∧ v.log.getLast? = some (.sealed entry.id master) :=
    .tell _ fun v hv => ⟨⟨hv.1.1.concat hv.1.2 fun _ => rfl, hv.2⟩, List.getLast?_concat⟩
  refine .bind htell fun _ => ?_
  refine .bind (.quiet (leaves_export draw master credential) hsealed) fun _ => ?_
  refine .bind (.quiet (leaves_ask _) hsealed) fun secret => ?_
  refine .bind (.quiet (.ofExcept _) hsealed) fun _ => ?_
  exact .quiet (leaves_writeProtectedSecret _) hsealed

/-- The host is told to mount the entry. -/
theorem keeps_startEntry {entry : MountEntry} :
    Keeps (fun v => Inv v ∧ Just v.outside v.log (.ran entry)) (startEntry entry) fun _ => Inv := by
  refine .bind (.tell (Q := Inv) _ fun v hv => hv.1.concat hv.2 fun _ => rfl) fun _ => ?_
  refine .orTell (fun _ h => h) (fun e => .setStatus (fun _ h => h) _ _) ?_
  exact .say (fun _ h => h) _ _ _

theorem keeps_prepareAndStart {entry : MountEntry} {master : MasterKey}
    (hregistered : entry.taskRegistered = true) :
    Keeps (fun v => (Inv v ∧ Granted v.log entry.id master) ∧ entry ∈ v.entries)
      (prepareAndStart entry master) fun _ => Inv := by
  refine .handle (keeps_prepareCredential entry master (F := (entry ∈ ·)))
    (fun e => .setStatus (fun _ h => h) _ _) ?_
  refine .bind (.tell (Q := fun v => Inv v ∧ Just v.outside v.log (.ran entry)) (.prepared entry.id)
    fun v hv => ?_) fun _ => keeps_startEntry
  obtain ⟨⟨hinv, hmem⟩, hlast⟩ := hv
  refine ⟨hinv.concat ⟨master, hlast⟩ fun _ => rfl, (hinv.known entry hmem).concat _,
    hregistered, Or.inr ?_⟩
  exact List.getLast?_concat

/-- The key card of an entry is shown, and locked. -/
theorem keeps_showKeyOf (entry : MountEntry) : Keeps Inv (showKeyOf entry) fun _ => Inv := by
  refine .bind (.quiet (leaves_fingerprintOf _) fun _ h => h) fun fingerprint => ?_
  refine .bind (keeps_close (Q := fun v => Inv v ∧ v.master = none) fun v hv => ⟨hv.closed, rfl⟩)
    fun _ => ?_
  refine .change fun v hv app hmaster _ hentries => ?_
  show Inv ⟨v.outside, v.log, app.master, entry.keyPath, app.entries⟩
  rw [← hmaster, ← hentries]
  exact hv.1.withKeyPath hv.2 entry.keyPath

theorem keeps_awaitKey (entry : MountEntry) : Keeps Inv (awaitKey entry) fun _ => Inv := by
  refine .bind (keeps_showKeyOf entry) fun _ => ?_
  refine .bind (.quiet (leaves_change fun _ => ⟨rfl, rfl, rfl⟩) fun _ h => h) fun _ => ?_
  refine .bind (.quiet (leaves_pinState _) fun _ h => h) fun state => ?_
  cases state <;> exact .say (fun _ h => h) _ _ _

omit [KeyCrypto] [CardImaging] [PathText] [Crypto] in
theorem samePath_eq [PathText] {a b : Text} (h : samePath a b = true) :
    PathText.read a = PathText.read b :=
  eq_of_beq h

/-- The master key is handed out for entries of the open card only. -/
theorem keeps_currentMasterFor (entry : MountEntry) (hP : ∀ v, P v → Inv v) :
    Keeps P (currentMasterFor entry) fun r v =>
      P v ∧ ∀ master, r = some master →
        held v.log = some (PathText.read entry.keyPath, master) := by
  refine .bind (.theApp hP) fun app => .pure _ fun v hv => ⟨hv.1, fun master hmaster => ?_⟩
  obtain ⟨hP', hmaster', hkey, -⟩ := hv
  split at hmaster
  next hsame =>
    rw [(hP v hP').custody, hmaster', hmaster, hkey, ← samePath_eq hsame]
    rfl
  next => exact absurd hmaster (by simp)

/-- A mount, with the credential that is there or with one made from the open card. -/
theorem keeps_mountEntry (index : ℕ) : Keeps Inv (mountEntry index) fun _ => Inv := by
  have hbase : ∀ v, Inv v → Inv v := fun _ h => h
  refine .bind (.quiet (leaves_entryAt index) hbase) fun _ => ?_
  refine .bind (.quiet (leaves_ask _) hbase) fun mounted =>
    .ite (fun _ => .pure _ hbase) fun _ => ?_
  have htask : Keeps Inv (ensureTask index) fun _ v => Inv v ∧ Registered index v :=
    keeps_ensureTask index hbase fun v hv =>
      hv.withEntries (known_modify (fun _ => ⟨rfl, rfl⟩) hv.known)
  refine .handle htask (fun e => .setStatus hbase _ _) ?_
  refine .bind (.entryAt index fun v hv => hv.1) fun entry => ?_
  refine .given (c := entry.taskRegistered = true) (fun v hv => ?_) fun hregistered => ?_
  · obtain ⟨entry', hentry', hregistered⟩ := hv.1.2
    rwa [Option.some.inj (hv.2.symm.trans hentry')]
  have hinv : ∀ v : Seen, Inv v ∧ entry ∈ v.entries → Inv v := fun _ h => h.1
  refine .weaken (P := fun v => Inv v ∧ entry ∈ v.entries) ?_
    fun v hv => ⟨hv.1.1, List.mem_of_getElem? hv.2⟩
  refine .bind
    (.finds (Q := fun ready _ => ready = true → entry.autoUnlock = true) (leaves_ask _) hinv
    fun d ready t _ hrun hready => ?_) fun ready => ?_
  · obtain ⟨hvalue, -⟩ := Prod.mk.inj hrun
    rw [← Outcome.ok.inj hvalue] at hready
    exact (Bool.and_eq_true_iff.mp hready).1
  refine .ite (fun hready => ?_) fun _ => ?_
  · exact keeps_startEntry.weaken fun v hv =>
      ⟨hv.1.1, hv.1.1.known entry hv.1.2, hregistered, Or.inl (hv.2 hready)⟩
  refine .bind (keeps_currentMasterFor entry fun v hv => hinv v hv.1) fun master => ?_
  cases master with
  | none => exact (keeps_awaitKey entry).weaken fun v hv => hv.1.1.1
  | some master =>
    exact (keeps_prepareAndStart hregistered).weaken fun v hv => ⟨⟨hv.1.1.1, entry.keyPath,
      hv.1.1.1.known entry hv.1.1.2, hv.2 master rfl⟩, hv.1.1.2⟩

/-! ## The other buttons of an entry -/

theorem keeps_unmountEntry (index : ℕ) : Keeps Inv (unmountEntry index) fun _ => Inv := by
  refine .bind (.entryAt index fun _ h => h) fun entry => ?_
  refine .bind (.quiet (leaves_ask _) fun v hv => hv.1) fun path => ?_
  rcases path with e | _
  · exact .setStatus (fun _ h => h.1) _ _
  refine .bind (.tell (Q := Inv) _ fun v hv => hv.1.concat
    ⟨entry.keyPath, hv.1.known entry (List.mem_of_getElem? hv.2)⟩ fun _ => rfl) fun _ => ?_
  refine .orTell (fun _ h => h) (fun e => .setStatus (fun _ h => h) _ _) ?_
  exact .say (fun _ h => h) _ _ _

theorem keeps_removeFilesOf (entry : MountEntry) :
    Keeps (fun v => Inv v ∧ entry ∈ v.entries) (removeFilesOf entry) fun _ => Inv := by
  have hinv : ∀ v : Seen, Inv v ∧ entry ∈ v.entries → Inv v := fun _ h => h.1
  have hattempted : Leaves Desk.seen (attempted (command Moment.ended)) :=
    .bind (leaves_command _).attempt fun _ => .pure _
  refine .bind (.onClick fun _ => .quiet hattempted hinv) fun _ => ?_
  refine .bind (.quiet hattempted hinv) fun _ => ?_
  refine .bind (.tell (Q := Inv) _ fun v hv => hv.1.concat ⟨entry.keyPath, hv.1.known entry hv.2⟩
    fun _ => rfl) fun _ => ?_
  refine .orTell (fun _ h => h) (fun e => .setStatus (fun _ h => h) _ _) ?_
  refine .bind (keeps_refreshEntries (Q := Inv) fun v entries hv => hv.listed entries) fun _ => ?_
  exact .bind keeps_syncStartup fun _ => .say (fun _ h => h) _ _ _

theorem keeps_removeEntry (index : ℕ) : Keeps Inv (removeEntry index) fun _ => Inv := by
  refine .bind (.entryAt index fun _ h => h) fun entry => ?_
  refine .bind (.quiet (leaves_ask _) fun v hv => hv.1) fun mounted =>
    .ite (fun _ => ?_) fun _ => ?_
  · refine (Keeps.bind (keeps_unmountEntry index) fun _ => .say (fun _ h => h) _ _ _).weaken
      fun v hv => hv.1
  · exact (keeps_removeFilesOf entry).weaken fun v hv => ⟨hv.1, List.mem_of_getElem? hv.2⟩

/-- An entry keeps its id and its key card. -/
theorem keeps_setEntry {f : MountEntry → MountEntry} (index : ℕ)
    (hf : ∀ entry, (f entry).id = entry.id ∧ (f entry).keyPath = entry.keyPath) :
    Keeps Inv (setEntry index f) fun _ => Inv := by
  refine .change fun v hv app hmaster hkey hentries => ?_
  show Inv ⟨v.outside, v.log, app.master, app.keyPath, app.entries.modify index f⟩
  rw [← hmaster, ← hkey, ← hentries]
  exact hv.withEntries (known_modify hf hv.known)

theorem keeps_saveShown (index : ℕ) : Keeps Inv (saveShown index) fun _ => Inv := by
  refine .bind (.quiet (leaves_entryAt index) fun _ h => h) fun entry => ?_
  refine .handle (.quiet (leaves_saveEntry entry) fun _ h => h) (fun e => ?_) keeps_syncStartup
  exact .bind (.setStatus (fun _ h => h) _ _) fun _ => keeps_syncStartup

/-- A fully automatic entry gets a credential of the open card, or is none. -/
theorem keeps_applyEntryPolicy (index : ℕ) : Keeps Inv (applyEntryPolicy index) fun _ => Inv := by
  have hbase : ∀ v, Inv v → Inv v := fun _ h => h
  have hattempted : Leaves Desk.seen (attempted (command Moment.ended)) :=
    .bind (leaves_command _).attempt fun _ => .pure _
  have hmanual := keeps_setEntry (f := fun entry => { entry with autoUnlock := false }) index
    fun _ => ⟨rfl, rfl⟩
  refine .bind (.entryAt index hbase) fun entry => ?_
  have hinv : ∀ v, Inv v ∧ v.entries[index]? = some entry → Inv v := fun _ h => h.1
  refine .ite (fun _ => ?_) fun _ => .ite (fun _ => ?_) fun _ => ?_
  · refine (Keeps.bind hmanual fun _ => ?_).weaken hinv
    exact .bind (.quiet hattempted hbase) fun _ => keeps_saveShown index
  · refine .bind (keeps_currentMasterFor entry hinv) fun master => ?_
    cases master with
    | none =>
      refine (Keeps.bind hmanual fun _ => ?_).weaken fun v hv => hinv v hv.1
      refine .bind (keeps_showKeyOf entry) fun _ => ?_
      refine .bind (.say hbase _ _ _) fun _ => ?_
      refine .bind (.quiet (leaves_entryAt index) hbase) fun entry => ?_
      refine .bind (.quiet ?_ hbase) fun _ => keeps_syncStartup
      exact .bind (leaves_saveEntry entry).attempt fun _ => .pure _
    | some master =>
      refine .weaken (P := fun v => (Inv v ∧ Granted v.log entry.id master) ∧ True) ?_ fun v hv =>
        ⟨⟨hv.1.1, entry.keyPath, hv.1.1.known entry (List.mem_of_getElem? hv.1.2), hv.2 master rfl⟩,
          trivial⟩
      refine .handle (keeps_prepareCredential entry master (F := fun _ => True)) (fun e => ?_) ?_
      · refine .bind hmanual fun _ => ?_
        exact .bind (.setStatus hbase _ _) fun _ => keeps_saveShown index
      · exact (keeps_saveShown index).weaken fun v hv => hv.1.1
  · refine (Keeps.bind (.quiet hattempted hbase) fun _ => ?_).weaken hinv
    exact keeps_saveShown index

/-! ## Unlocking -/

theorem keeps_nextStartupKey : Keeps Inv nextStartupKey fun _ => Inv := by
  have hbase : ∀ v, Inv v → Inv v := fun _ h => h
  refine .bind (.quiet (leaves_change fun _ => ⟨rfl, rfl, rfl⟩) hbase) fun _ => ?_
  refine .bind (.quiet leaves_theApp hbase) fun app => ?_
  cases app.startupKeys[app.startupIndex]? with
  | none =>
    exact .bind (.quiet (leaves_change fun _ => ⟨rfl, rfl, rfl⟩) hbase) fun _ => .say hbase _ _ _
  | some next =>
    refine .bind (.quiet (leaves_fingerprintOf _) hbase) fun fingerprint => ?_
    refine .bind (keeps_close (Q := fun v => Inv v ∧ v.master = none) fun v hv => ⟨hv.closed, rfl⟩)
      fun _ => ?_
    refine .bind (.change (Q := Inv) fun v hv app hmaster _ hentries => ?_) fun _ =>
      .say hbase _ _ _
    show Inv ⟨v.outside, v.log, app.master, next, app.entries⟩
    rw [← hmaster, ← hentries]
    exact hv.1.withKeyPath hv.2 next

theorem keeps_mountStartupEntries : Keeps Inv mountStartupEntriesForCurrentKey fun _ => Inv :=
  .bind (.quiet leaves_theApp fun _ h => h) fun _ =>
    .bind (.forM _ fun index _ => keeps_mountEntry index) fun _ => keeps_nextStartupKey

theorem keeps_afterUnlock : Keeps Inv afterUnlock fun _ => Inv := by
  have hbase : ∀ v, Inv v → Inv v := fun _ h => h
  refine .bind (.quiet leaves_theApp hbase) fun app =>
    .ite (fun _ => keeps_mountStartupEntries) fun _ => ?_
  cases app.pendingMountId with
  | none => exact .pure _ hbase
  | some id =>
    refine .bind (.quiet (leaves_change fun _ => ⟨rfl, rfl, rfl⟩) hbase) fun _ => ?_
    cases app.entries.findIdx? (·.id == id) with
    | none => exact .pure _ hbase
    | some index => exact keeps_mountEntry index

omit [KeyCrypto] [CardImaging] [PathText] [Crypto] in
/-- What the host has returned to a call. -/
theorem onHost_eq_ok {ε : Type} {notice : ε → Notice} {p : Moment → Prog (Host Path) ε α}
    {d t : Desk} {a : α} (h : onHost notice p d = (.ok a, t)) :
    (p (d.outside d.tick) (d.outside d.tick).host).1 = .ok a := by
  unfold onHost at h
  dsimp only at h
  split at h
  next a' hrun =>
    rw [hrun, Outcome.ok.inj (Prod.mk.inj h).1]
  next => exact Outcome.noConfusion rfl rfl (heq_of_eq (Prod.mk.inj h).1)
  next => exact Outcome.noConfusion rfl rfl (heq_of_eq (Prod.mk.inj h).1)

omit [PathText] in
/-- What a key source is opened to. -/
theorem openSource_eq_ok {path : Path} {state : PinCard.PinCardState} {credential : String}
    {d t : Desk} {master : MasterKey} (h : openSource path state credential d = (.ok master, t)) :
    Opens (d.outside d.tick) path credential master := by
  unfold openSource at h
  cases state with
  | ready => exact Or.inl (onHost_eq_ok h)
  | notPinCard | bindingMissing => exact Or.inr (onHost_eq_ok h)

omit [PathText] in
theorem leaves_openSource (path : Path) (state : PinCard.PinCardState) (credential : String) :
    Leaves Desk.seen (openSource path state credential) := by
  cases state <;> exact leaves_onHost _ _

/-- A key card has been opened, and its master key is about to be taken. -/
structure Opened (path : Path) (master : MasterKey) (v : Seen) : Prop extends Base v where
  custody : held v.log = some (path, master)

theorem Base.opened {path : Path} {credential : String} {master : MasterKey} (h : Base v)
    (hopens : ∃ n, Opens (v.outside n) path credential master) :
    Opened path master { v with log := v.log ++ [.opened path credential master] } where
  readable := h.readable
  justified := justified_concat.mpr ⟨h.justified, hopens⟩
  known entry hentry := (h.known entry hentry).concat _
  custody := held_concat _ _

/-- The master key is taken under the path of its card. -/
theorem Opened.taken {path : Path} {master : MasterKey} (h : Opened path master v) {keyPath : Text}
    (hpath : PathText.read (trim keyPath) = path) :
    Inv { v with master := some master, keyPath := keyPath } :=
  { h with
    custody := by
      rw [h.custody, ← hpath]
      rfl }

theorem keeps_tryCredential (path : Path) (state : PinCard.PinCardState) :
    Keeps (fun v => Inv v ∧ PathText.read (trim v.keyPath) = path) (tryCredential path state)
      fun _ => Inv := by
  have hinv : ∀ v : Seen, Inv v ∧ PathText.read (trim v.keyPath) = path → Inv v := fun _ h => h.1
  refine .bind (.quiet leaves_theApp hinv) fun app => ?_
  refine .bind (.quiet (leaves_change fun _ => ⟨rfl, rfl, rfl⟩) hinv) fun _ => ?_
  have hfinds :=
    Keeps.learns (F := fun master v => ∃ n, Opens (v.outside n) path app.credential master)
    (leaves_openSource path state app.credential) hinv
    fun d master t _ hrun => ⟨d.tick, openSource_eq_ok hrun⟩
  refine .bind hfinds fun r => ?_
  cases r with
  | error e =>
    exact .setStatus (fun v hv => hv.1.1) _ _
  | ok master =>
    refine .bind
      (.tell (Q := fun v => Opened path master v ∧ PathText.read (trim v.keyPath) = path) _
      fun v hv => ⟨hv.1.1.opened (hv.2 master rfl), hv.1.2⟩) fun _ => ?_
    refine .bind (.change (Q := Inv) fun v hv app _ hkey hentries => ?_) fun _ => ?_
    · show Inv ⟨v.outside, v.log, some master, app.keyPath, app.entries⟩
      rw [← hkey, ← hentries]
      exact hv.1.taken hv.2
    · exact .bind (.say (fun _ h => h) _ _ _) fun _ => keeps_afterUnlock

theorem keeps_unlockKey : Keeps Inv unlockKey fun _ => Inv := by
  refine .bind (.theApp fun _ h => h) fun app => ?_
  refine .weaken (P := fun v =>
    Inv v ∧ PathText.read (trim v.keyPath) = PathText.read (trim app.keyPath)) ?_
    fun v hv => ⟨hv.1, by rw [hv.2.2.1]⟩
  have hinv : ∀ v : Seen, Inv v ∧
    PathText.read (trim v.keyPath) = PathText.read (trim app.keyPath) →
    Inv v := fun _ h => h.1
  refine .bind (.quiet (leaves_ask _) hinv) fun found => .ite (fun _ => .say hinv _ _ _) fun _ => ?_
  refine .bind (.quiet (leaves_pinState _) hinv) fun state => ?_
  cases state with
  | bindingMissing => exact .say hinv _ _ _
  | ready | notPinCard => exact keeps_tryCredential _ _

theorem keeps_chooseKey : Keeps Inv chooseKey fun _ => Inv := by
  have hbase : ∀ v, Inv v → Inv v := fun _ h => h
  refine .bind (.quiet (leaves_ask _) hbase) fun picked => ?_
  cases picked with
  | none => exact .pure _ hbase
  | some path =>
    refine .bind (.quiet (leaves_onHost _ _).attempt hbase) fun r => ?_
    cases r with
    | error e => exact .setStatus hbase _ _
    | ok info =>
      refine .bind (keeps_close (Q := fun v => Inv v ∧ v.master = none) fun v hv =>
        ⟨hv.closed, rfl⟩) fun _ => ?_
      refine .change fun v hv app hmaster _ hentries => ?_
      show Inv ⟨v.outside, v.log, app.master, path, app.entries⟩
      rw [← hmaster, ← hentries]
      exact hv.1.withKeyPath hv.2 path

/-! ## New volumes and new cards -/

/-- An entry of the window has the id. -/
def Shows (index : ℕ) (id : Text) (v : Seen) : Prop :=
  ∃ entry, v.entries[index]? = some entry ∧ entry.id = id

omit [KeyCrypto] [CardImaging] [PathText] [Crypto] in
theorem Shows.registered {index : ℕ} {id : Text} (h : Shows index id v) : Shows index id { v with
    entries := v.entries.modify index fun entry => { entry with taskRegistered := true } } := by
  obtain ⟨entry, hentry, hid⟩ := h
  refine ⟨{ entry with taskRegistered := true }, ?_, hid⟩
  show (v.entries.modify index _)[index]? = _
  rw [List.getElem?_modify, hentry]
  exact congrArg some (if_pos rfl)

theorem keeps_prepareIfAutomatic {id : Text} (index : ℕ) (master : MasterKey) :
    Keeps (fun v => (Inv v ∧ Granted v.log id master) ∧ Shows index id v)
      (prepareIfAutomatic index master) fun _ => Inv := by
  refine .bind (.entryAt index fun v hv => hv.1.1) fun entry => .ite (fun _ => ?_) fun _ => ?_
  · refine (keeps_prepareCredential entry master (F := fun _ => True)).mono (fun v hv => ?_)
      fun _ _ hv => hv.1.1
    obtain ⟨⟨hgranted, entry', hentry', rfl⟩, hentry⟩ := hv
    rw [Option.some.inj (hentry.symm.trans hentry')]
    exact ⟨hgranted, trivial⟩
  · exact .pure _ fun v hv => hv.1.1.1

/-- A new volume is registered with the card it was made under. -/
theorem keeps_registerVolume (entry : MountEntry) (master : MasterKey) :
    Keeps (fun v => Inv v ∧ held v.log = some (PathText.read entry.keyPath, master))
      (registerVolume entry master) fun _ => Inv := by
  have hbase : ∀ v, Inv v → Inv v := fun _ h => h
  have hgranted : ∀ v, Inv v ∧ Granted v.log entry.id master → Inv v := fun _ h => h.1
  refine .bind (.tell (Q := fun v => Inv v ∧ Granted v.log entry.id master) _ fun v hv => ?_)
    fun _ => ?_
  · refine ⟨hv.1.concat hv.2 fun _ => rfl, entry.keyPath, ?_, by rw [held_concat]; exact hv.2⟩
    exact ⟨entry, rfl, rfl, Or.inl ⟨master, List.mem_append_right _ List.mem_cons_self⟩⟩
  refine .handle (.quiet (leaves_saveEntry entry) hgranted) (fun e => .setStatus hbase _ _) ?_
  refine .bind (keeps_refreshEntries (Q := fun v => Inv v ∧ Granted v.log entry.id master)
    fun v entries hv => ⟨hv.1.listed entries, hv.2.concat fun _ => rfl⟩) fun _ => ?_
  refine .bind (.theApp hgranted) fun app => ?_
  split
  next => exact .setStatus (fun v hv => hv.1.1) _ _
  next index hfind =>
  refine .weaken (P := fun v => (Inv v ∧ Granted v.log entry.id master) ∧ Shows index entry.id v) ?_
    fun v hv => ⟨hv.1, ?_⟩
  · have hinv : ∀ v, (Inv v ∧ Granted v.log entry.id master) ∧ Shows index entry.id v → Inv v :=
      fun _ h => h.1.1
    have htask := keeps_ensureTask index hinv fun v hv =>
      ⟨⟨hv.1.1.withEntries (known_modify (fun _ => ⟨rfl, rfl⟩) hv.1.1.known), hv.1.2⟩,
        hv.2.registered⟩
    refine .handle htask (fun e => .setStatus hbase _ _) ?_
    refine .handle ((keeps_prepareIfAutomatic index master).weaken fun v hv => hv.1)
      (fun e => .setStatus hbase _ _) ?_
    exact .bind keeps_syncStartup fun _ => .bind (keeps_mountEntry index) fun _ => .say hbase _ _ _
  · obtain ⟨hindex, hid, -⟩ := List.findIdx?_eq_some_iff_getElem.mp hfind
    refine ⟨app.entries[index], ?_, eq_of_beq hid⟩
    rw [hv.2.2.2, List.getElem?_eq_getElem hindex]

theorem keeps_makeVolume (app : App) (output : Text) (master : MasterKey)
    (options : Volume.VolumeOptions) :
    Keeps (fun v => Inv v ∧ held v.log = some (PathText.read (trim app.keyPath), master))
      (makeVolume app output master options) fun _ => Inv := by
  have hinv : ∀ v : Seen, Inv v ∧
    held v.log = some (PathText.read (trim app.keyPath), master) → Inv v :=
    fun _ h => h.1
  refine .bind (.quiet (leaves_ask _) hinv) fun r => ?_
  rcases r with e | volumeId
  · exact .setStatus hinv _ _
  refine .orTell hinv (fun e => ?_) ?_
  · refine .bind (.quiet ?_ fun _ h => h) fun _ => .setStatus (fun _ h => h) _ _
    exact .bind (leaves_command _).attempt fun _ => .pure _
  refine .orTell hinv (fun e => .setStatus (fun _ h => h) _ _) ?_
  exact keeps_registerVolume (newEntry app volumeId output) master

theorem keeps_createAt (app : App) (output : Text) (master : MasterKey) (capacity : Option UInt64) :
    Keeps (fun v => Inv v ∧ held v.log = some (PathText.read (trim app.keyPath), master))
      (createAt app output master capacity) fun _ => Inv := by
  cases capacity with
  | none => exact .setStatus (fun v hv => hv.1) _ _
  | some capacity => exact keeps_makeVolume app output master _

theorem keeps_createVolume : Keeps Inv createVolume fun _ => Inv := by
  refine .bind (.theApp fun _ h => h) fun app => ?_
  cases app.master with
  | none => exact .say (fun v hv => hv.1) _ _ _
  | some master =>
    refine .weaken (P := fun v =>
      Inv v ∧ held v.log = some (PathText.read (trim app.keyPath), master)) ?_
      fun v hv => ⟨hv.1, ?_⟩
    · have hinv : ∀ v : Seen, Inv v ∧
        held v.log = some (PathText.read (trim app.keyPath), master) → Inv v :=
        fun _ h => h.1
      refine .bind (.quiet (leaves_ask _) hinv) fun found => .ite (fun _ => ?_) fun _ => ?_
      · exact .say hinv _ _ _
      refine .bind (.quiet (leaves_ask _) hinv) fun picked => ?_
      cases picked with
      | none => exact .pure _ hinv
      | some output => exact keeps_createAt app output master _
    · rw [hv.1.custody, hv.2.1, hv.2.2.1]
      rfl

/-- The path of a new card was picked, so it is read as it is shown. -/
theorem keeps_unlockNewCard (output : Text) (pin : String) (info : Keycard.KeyCardInfo) :
    Keeps (fun v => Inv v ∧ PathText.read (trim output) = PathText.read output)
      (unlockNewCard output pin info) fun _ => Inv := by
  have hinv : ∀ v : Seen, Inv v ∧ PathText.read (trim output) = PathText.read output → Inv v :=
    fun _ h => h.1
  have hfinds := Keeps.learns
    (F := fun master v => ∃ n, Opens (v.outside n) (PathText.read output) pin master)
    (leaves_onHost .pin fun m => PinCard.unlockPinCard m.account (PathText.read output) pin) hinv
    fun d master t _ hrun => ⟨d.tick, Or.inl (onHost_eq_ok hrun)⟩
  refine .bind hfinds fun r => ?_
  cases r with
  | error e => exact .setStatus (fun v hv => hv.1.1) _ _
  | ok master =>
    refine .bind (.tell (Q := fun v => Opened (PathText.read output) master v ∧
      PathText.read (trim output) = PathText.read output) _
      fun v hv => ⟨hv.1.1.opened (hv.2 master rfl), hv.1.2⟩) fun _ => ?_
    refine .bind (.change (Q := Inv) fun v hv app _ _ hentries => ?_) fun _ =>
      .say (fun _ h => h) _ _ _
    show Inv ⟨v.outside, v.log, some master, output, app.entries⟩
    rw [← hentries]
    exact hv.1.taken hv.2

theorem keeps_createPinCard : Keeps Inv createPinCard fun _ => Inv := by
  have hbase : ∀ v, Inv v → Inv v := fun _ h => h
  refine .bind (.quiet leaves_theApp hbase) fun app => .ite (fun _ => .say hbase _ _ _) fun _ => ?_
  have hpicked := Keeps.finds (Q := fun picked v => ∀ path, picked = some path →
    PathText.read (trim path) = PathText.read path) (leaves_ask Moment.picked) hbase
    fun d picked t hd hrun path hpath => by
      obtain ⟨hvalue, -⟩ := Prod.mk.inj hrun
      exact hd.readable d.tick path ((Outcome.ok.inj hvalue).trans hpath)
  refine .bind hpicked fun picked => ?_
  cases picked with
  | none => exact .pure _ fun v hv => hv.1
  | some output =>
    refine .given (fun v hv => hv.2 output rfl) fun hread => ?_
    refine .weaken (P := Inv) ?_ fun v hv => hv.1
    refine .bind (.quiet (leaves_change fun _ => ⟨rfl, rfl, rfl⟩) hbase) fun _ => ?_
    refine .bind (.quiet (leaves_onHost _ _).attempt hbase) fun r => ?_
    cases r with
    | error e => exact .setStatus hbase _ _
    | ok info => exact (keeps_unlockNewCard output _ info).weaken fun _ hv => ⟨hv, hread⟩

/-! ## A pass over the window -/

omit [KeyCrypto] [CardImaging] [PathText] [Crypto] in
theorem EntryInput.edit_kept (input : EntryInput) (entry : MountEntry) :
    (input.edit entry).1.id = entry.id ∧ (input.edit entry).1.keyPath = entry.keyPath := by
  unfold EntryInput.edit
  split <;> exact ⟨rfl, rfl⟩

theorem keeps_policyPanel (index : ℕ) (input : EntryInput) :
    Keeps Inv (policyPanel index input) fun _ => Inv := by
  refine .bind (.quiet (leaves_entryAt index) fun _ h => h) fun entry => ?_
  refine .bind (keeps_setEntry index input.edit_kept) fun _ => ?_
  exact .onClick fun _ => keeps_applyEntryPolicy index

theorem keeps_entryPanel (index : ℕ) (input : EntryInput) :
    Keeps Inv (entryPanel index input) fun _ => Inv := by
  refine .bind (.quiet (leaves_entryAt index) fun _ h => h) fun _ => ?_
  refine .bind (.quiet (leaves_ask _) fun _ h => h) fun mounted => ?_
  refine .bind (keeps_policyPanel index input) fun _ => ?_
  cases input.action with
  | connect => exact .onClick fun _ => keeps_mountEntry index
  | disconnect => exact .onClick fun _ => keeps_unmountEntry index
  | remove => exact .onClick fun _ => keeps_removeEntry index
  | none | openDrive | openFolder => exact .pure _ fun _ h => h

theorem keeps_entriesPanel (inputs : ℕ → EntryInput) :
    Keeps Inv (entriesPanel inputs) fun _ => Inv :=
  .bind (.quiet leaves_theApp fun _ h => h) fun _ => .forM _ fun index _ => keeps_entryPanel index _

theorem keeps_lockKey : Keeps Inv lockKey fun _ => Inv :=
  .bind (keeps_close fun _ hv => hv.closed) fun _ =>
    .quiet (leaves_change fun _ => ⟨rfl, rfl, rfl⟩) fun _ h => h

theorem keeps_credentialField (input : KeyInput) :
    Keeps Inv (credentialField input) fun _ => Inv := by
  have hbase : ∀ v, Inv v → Inv v := fun _ h => h
  refine .bind (.quiet leaves_theApp hbase) fun app => .ite (fun _ => .pure _ hbase) fun _ => ?_
  refine .bind (.quiet (leaves_pinState _) hbase) fun state => ?_
  cases state with
  | bindingMissing => exact .pure _ hbase
  | notPinCard =>
    refine .bind (.quiet (leaves_change fun _ => ⟨rfl, rfl, rfl⟩) hbase) fun _ => ?_
    exact .onClick fun _ => keeps_unlockKey
  | ready =>
    refine .bind (.quiet (leaves_change fun _ => ⟨rfl, rfl, rfl⟩) hbase) fun _ => ?_
    exact .bind (.quiet leaves_theApp hbase) fun _ => .onClick fun _ => keeps_unlockKey

theorem keeps_pinFields (input : KeyInput) : Keeps Inv (pinFields input) fun _ => Inv := by
  refine .bind (.quiet (leaves_change fun _ => ⟨rfl, rfl, rfl⟩) fun _ h => h) fun _ => ?_
  exact .bind (.quiet leaves_theApp fun _ h => h) fun _ => .onClick fun _ => keeps_createPinCard

theorem keeps_keyPanel (input : KeyInput) : Keeps Inv (keyPanel input) fun _ => Inv := by
  refine .bind (.onClick fun _ => keeps_chooseKey) fun _ => ?_
  refine .bind (.quiet leaves_theApp fun _ h => h) fun app => ?_
  refine .bind (.onClick fun _ => keeps_lockKey) fun _ => ?_
  exact .bind (keeps_credentialField input) fun _ => keeps_pinFields input

theorem keeps_createPanel (input : CreateInput) : Keeps Inv (createPanel input) fun _ => Inv := by
  refine .bind (.quiet (leaves_change fun _ => ⟨rfl, rfl, rfl⟩) fun _ h => h) fun _ => ?_
  exact .bind (.quiet leaves_theApp fun _ h => h) fun _ => .onClick fun _ => keeps_createVolume

/-- Whatever is done in a pass over the window, the invariant is kept. -/
theorem keeps_update (frame : Frame) : Keeps Inv (update frame) fun _ => Inv := by
  refine .bind (.quiet (leaves_change fun _ => ⟨rfl, rfl, rfl⟩) fun _ h => h) fun _ => ?_
  refine .bind (keeps_entriesPanel frame.entries) fun _ => ?_
  exact .bind (keeps_keyPanel frame.key) fun _ => keeps_createPanel frame.create

/-! ## Starting -/

/-- The invariant, while no key card is open. -/
def Locked (v : Seen) : Prop := Inv v ∧ v.master = none

theorem keeps_runAtStartup {entries : List MountEntry} {entry : MountEntry}
    (hmem : entry ∈ entries) :
    Keeps (fun v => Locked v ∧ v.entries = entries) (runAtStartup entry)
      fun _ v => Locked v ∧ v.entries = entries := by
  refine .onClick fun hauto => ?_
  refine .bind (.tell (Q := fun v => Locked v ∧ v.entries = entries) _ fun v hv => ?_) fun _ => ?_
  · refine ⟨⟨hv.1.1.concat ⟨hv.1.1.known entry (hv.2 ▸ hmem), ?_⟩ fun _ => rfl, hv.1.2⟩, hv.2⟩
    exact Bool.and_eq_true_iff.mp hauto
  · exact .quiet (.bind (leaves_command _).attempt fun _ => .pure _) fun v hv => hv.1.1

theorem keeps_firstStartupKey (keys : List Text) :
    Keeps Locked (firstStartupKey keys) fun _ => Locked := by
  have hinv : ∀ v, Locked v → Inv v := fun _ h => h.1
  refine .bind (.quiet (leaves_change fun _ => ⟨rfl, rfl, rfl⟩) hinv) fun _ => ?_
  cases keys.head? with
  | none => exact .pure _ fun _ h => h
  | some first =>
    refine .bind (.quiet (leaves_fingerprintOf _) hinv) fun fingerprint => ?_
    refine .bind (.change (Q := Locked) fun v hv app hmaster _ hentries => ?_) fun _ =>
      .quiet (leaves_say _ _ _) hinv
    show Locked ⟨v.outside, v.log, app.master, first, app.entries⟩
    rw [← hmaster, ← hentries]
    exact ⟨hv.1.withKeyPath hv.2 first, hv.2⟩

theorem keeps_new (startup : Bool) : Keeps Locked (new startup) fun _ => Inv := by
  refine .bind (keeps_refreshEntries (Q := Locked) fun v entries hv => ⟨hv.1.listed entries, hv.2⟩)
    fun _ => ?_
  refine .bind (.theApp fun v hv => hv.1) fun app => ?_
  have hstart : Keeps (fun v => Locked v ∧ v.entries = app.entries)
      (app.entries.forM runAtStartup >>= fun _ => firstStartupKey (startupKeysOf app.entries))
        fun _ => Locked :=
    .bind (.forM _ fun entry hentry => keeps_runAtStartup hentry) fun _ =>
      (keeps_firstStartupKey _).weaken fun v hv => hv.1
  refine .ite (fun _ => hstart.mono (fun v hv => ⟨hv.1, hv.2.2.2⟩) fun _ v hv => hv.1) fun _ => ?_
  exact .pure _ fun v hv => hv.1.1

/-- The window is opened, and nothing has happened. -/
def start (startup japanese : Bool) (outside : ℕ → Moment) : Desk :=
  (new startup ⟨App.blank japanese, outside, 0, []⟩).2

/-- A pass over the window; one that ends the program has left the log it had so far. -/
def Step (d : Desk) (frame : Frame) (d' : Desk) : Prop := (update frame d).2 = d'

variable {outside : ℕ → Moment}

/-- However a program ends that keeps the invariant. -/
theorem Keeps.ends {p : AppProg α} (h : Keeps P p fun _ => Inv) {d : Desk} (hd : P d.seen) :
    Inv (p d).2.seen ∧ (p d).2.outside = d.outside :=
  wp_outcome (R := fun _ (t : Desk) => Inv t.seen ∧ t.outside = d.outside) (h d.outside d ⟨hd, rfl⟩)

theorem inv_start (startup japanese : Bool)
    (hreadable : ∀ n path, (outside n).picked = some path →
      PathText.read (trim path) = PathText.read path) :
    Inv (start startup japanese outside).seen ∧
    (start startup japanese outside).outside = outside := by
  refine (keeps_new startup).ends ⟨⟨⟨hreadable, justified_nil, ?_⟩, rfl⟩, rfl⟩
  exact fun entry hentry => absurd hentry List.not_mem_nil

theorem Step.inv {d d' : Desk} {frame : Frame} (h : Step d frame d') (hd : Inv d.seen) :
    Inv d'.seen ∧ d'.outside = d.outside := by
  have hends := (keeps_update frame).ends hd
  rwa [show (update frame d).2 = d' from h] at hends

/-- **The invariant holds at the end of every run.** -/
theorem inv_of_run {startup japanese : Bool} {frames : List Frame} {d : Desk}
    (hreadable : ∀ n path, (outside n).picked = some path →
      PathText.read (trim path) = PathText.read path)
    (hrun : Run Step (start startup japanese outside) frames d) :
    Inv d.seen ∧ d.outside = outside := by
  refine hrun.invariant (P := fun d => Inv d.seen ∧ d.outside = outside)
    (inv_start startup japanese hreadable) fun d frame d' hd hstep => ?_
  obtain ⟨hinv, hsame⟩ := hstep.inv hd.1
  exact ⟨hinv, hsame.trans hd.2⟩

/-! ## Credentials follow keys -/

/-- The key card at a path has been opened, and none since. -/
def Unlocked (outside : ℕ → Moment) (log : List Event) (path : Path) (master : MasterKey) : Prop :=
  ∃ before credential since n, log = before ++ .opened path credential master :: since ∧
    (∀ e ∈ since, e.Silent) ∧ Opens (outside n) path credential master

/-- **What is held is the master key of a card that was opened.** -/
theorem unlocked_of_held {log : List Event} {path : Path} {master : MasterKey}
    (hlog : Justified (Just outside) log) (hheld : held log = some (path, master)) :
    Unlocked outside log path master := by
  obtain ⟨before, credential, since, rfl, hsince⟩ := held_eq_some hheld
  obtain ⟨n, hopens⟩ := hlog before _ since rfl
  exact ⟨before, credential, since, n, rfl, hsince, hopens⟩

/-- **Credentials follow keys.**  In every run of the application, from its start and whatever is
clicked, typed and found, a master key is sealed for the mount host only for an entry whose key card
was opened and has been neither locked nor changed since: it is the master key of that card.  A
volume is registered with the card it was made under.  The host is told to mount an entry only when
its task is registered, and either the entry unlocks itself or the master key has just been sealed
for it.  The master key in the window is that of the card that is shown. -/
theorem credentials_follow_keys {startup japanese : Bool} {frames : List Frame} {d : Desk}
    (hreadable : ∀ n path, (outside n).picked = some path →
      PathText.read (trim path) = PathText.read path)
    (hrun : Run Step (start startup japanese outside) frames d) :
    (∀ before id master after, d.log = before ++ .sealed id master :: after →
      ∃ keyPath, Known before id keyPath ∧ Unlocked outside before (PathText.read keyPath) master) ∧
    (∀ before entry master after, d.log = before ++ .created entry master :: after →
      Unlocked outside before (PathText.read entry.keyPath) master) ∧
    (∀ before entry after, d.log = before ++ .ran entry :: after →
      Known before entry.id entry.keyPath ∧ entry.taskRegistered = true ∧
        (entry.autoUnlock = true ∨
          ∃ earlier master, before = earlier ++ [.sealed entry.id master, .prepared entry.id])) ∧
    ∀ master, d.app.master = some master →
      Unlocked outside d.log (PathText.read (trim d.app.keyPath)) master := by
  obtain ⟨hinv, rfl⟩ := inv_of_run hreadable hrun
  have hlog : Justified (Just d.outside) d.log := hinv.justified
  have hbefore : ∀ {before e after}, d.log = before ++ e :: after →
    Justified (Just d.outside) before := by
    intro before e after h
    rw [h] at hlog
    exact hlog.before
  refine ⟨fun before id master after h => ?_, fun before entry master after h => ?_,
    fun before entry after h => ?_, fun master hmaster => ?_⟩
  · obtain ⟨keyPath, hknown, hheld⟩ := hlog _ _ _ h
    exact ⟨keyPath, hknown, unlocked_of_held (hbefore h) hheld⟩
  · exact unlocked_of_held (hbefore h) (hlog _ _ _ h)
  · obtain ⟨hknown, hregistered, hready⟩ := hlog _ _ _ h
    refine ⟨hknown, hregistered, hready.imp_right fun hlast => ?_⟩
    obtain ⟨rest, rfl⟩ := List.getLast?_eq_some_iff.mp hlast
    obtain ⟨master, hsealed⟩ := hbefore h rest _ [] rfl
    obtain ⟨earlier, rfl⟩ := List.getLast?_eq_some_iff.mp hsealed
    exact ⟨earlier, master, List.append_assoc _ _ _⟩
  · refine unlocked_of_held hlog ?_
    have hcustody : held d.log = d.app.master.map (PathText.read (trim d.app.keyPath), ·) :=
      hinv.custody
    rw [hcustody, hmaster]
    rfl

end

/-! ## A mount -/

@[reducible] def samplePaths : PathText where
  read text := [String.ofList text]

/-- An entry that waits for its key card, with its task. -/
def sampleEntry : MountEntry where
  id := ['0', 'a']
  volumePath := ['v']
  keyPath := ['k']
  preferredLetter := some 'O'
  readOnly := false
  autoMount := false
  autoUnlock := false
  taskRegistered := true

/-- The key card is there, the entry is listed, and nothing fails. -/
def sampleMoment : Moment where
  host := PinCard.quietHost fun p => if p = ["k"] then some ⟨sampleCapsule, true⟩ else none
  account := PinCard.mirrorAccount
  picked := some ['k']
  mounted := false
  listed := [sampleEntry]
  ended := .ok ()
  created _ := .ok (.of 32 [])
  draw := ⟨.of 32 [9], "tmp", .of 16 [1], .of 24 [2]⟩
  pinDraws := ⟨.of 32 [5], Nat.toUInt64, Nat.toUInt64⟩
  capsule := ⟨["scratch"], "capsule", "visual", .of 48 [3], .of 16 [1], .of 24 [2]⟩

/-- The key card is chosen and unlocked, and the first entry is connected. -/
def sampleFrame (unlock connect : Bool) : Frame where
  language := false
  entries _ := ⟨false, false, false, false, if connect then .connect else .none⟩
  key := ⟨unlock, false, "a passphrase", unlock, "", "", false⟩
  create := ⟨10, ['O'], false, false, false, false⟩

def sampleStart : Desk :=
  let _ := tableCrypto [sampleSealing]
  let _ := plainKeyCrypto
  let _ := PinCard.blankImaging
  let _ := samplePaths
  start false false fun _ => sampleMoment

def sampleNext (d : Desk) (frame : Frame) : Desk :=
  let _ := tableCrypto [sampleSealing]
  let _ := plainKeyCrypto
  let _ := PinCard.blankImaging
  let _ := samplePaths
  (update frame d).2

def sampleDesk : Desk := sampleNext (sampleNext sampleStart (sampleFrame true false))
    (sampleFrame false true)

/-- The mount of an entry that does not unlock itself. -/
def Event.mounts : Event → Bool
  | ran entry => !entry.autoUnlock
  | _ => false

theorem Event.mounts_eq_true {e : Event} (h : e.mounts = true) :
    ∃ entry, e = .ran entry ∧ entry.autoUnlock = false := by
  cases e with
  | ran entry => exact ⟨entry, rfl, by simpa [Event.mounts] using h⟩
  | opened | closed | listed | created | sealed | prepared | ranAtStartup | stopped
  | removed | startup =>
    exact absurd h Bool.false_ne_true

/-- The entry is mounted with the key card that was chosen and unlocked. -/
theorem credentials_follow_keys_sample :
    let _ := tableCrypto [sampleSealing]
    let _ := plainKeyCrypto
    let _ := PinCard.blankImaging
    let _ := samplePaths
    Run Step (start false false fun _ => sampleMoment)
      [sampleFrame true false, sampleFrame false true]
        sampleDesk ∧
      ∃ earlier entry master after,
        sampleDesk.log = earlier ++ .sealed entry.id master :: .prepared entry.id ::
          .ran entry :: after ∧
        ∃ keyPath, Known earlier entry.id keyPath ∧
          Unlocked (fun _ => sampleMoment) earlier (PathText.read keyPath) master := by
  let _ := tableCrypto [sampleSealing]
  let _ := plainKeyCrypto
  let _ := PinCard.blankImaging
  let _ := samplePaths
  have hrun : Run Step (start false false fun _ => sampleMoment)
      [sampleFrame true false, sampleFrame false true] sampleDesk :=
    (Run.refl.step (e := sampleFrame true false) rfl).step (e := sampleFrame false true) rfl
  have hreadable : ∀ n path, ((fun _ : ℕ => sampleMoment) n).picked = some path →
      PathText.read (trim path) = PathText.read path := by
    intro n path hpath
    obtain rfl : ['k'] = path := Option.some.inj hpath
    decide
  obtain ⟨hsealed, -, hran, -⟩ := credentials_follow_keys hreadable hrun
  have hmounts : sampleDesk.log.any Event.mounts = true := by decide +kernel
  obtain ⟨e, hmem, hmount⟩ := List.any_eq_true.mp hmounts
  obtain ⟨entry, rfl, hmanual⟩ := Event.mounts_eq_true hmount
  obtain ⟨before, after, hlog⟩ := List.append_of_mem hmem
  obtain ⟨-, -, hready⟩ := hran before entry after hlog
  obtain ⟨earlier, master, rfl⟩ := hready.resolve_left (by rw [hmanual]; exact Bool.false_ne_true)
  have hlog : sampleDesk.log =
      earlier ++ .sealed entry.id master :: .prepared entry.id :: .ran entry :: after := by
    rw [hlog, List.append_assoc]
    rfl
  exact ⟨hrun, earlier, entry, master, after, hlog, hsealed earlier entry.id master _ hlog⟩

end VolumeApp
end Mount
end OrIsyVra
