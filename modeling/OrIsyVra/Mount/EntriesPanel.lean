import OrIsyVra.Mount.KeyCustody

/-!
# The panels of the entries

A pass over the window draws one panel for each entry there was when the pass began, by its index.
A panel whose entry is removed reads the list of the entries again, and the panels behind it go on
with their indices: `removal_ends_program` says that the last of them is then behind the end of the
list, which ends the program.

`Goes` is what a method of the panels does: it returns, with the list no longer than it may be, or
ends the program; it has no error of its own, since every call that may fail is attempted.
-/

namespace OrIsyVra
namespace Mount
namespace VolumeApp

open ByteString MachineWord TextLines FaultProgram FileSystem Runs

/-- There are fewer than `n` entries, and will be whenever the list is read again. -/
structure Fewer (n : ℕ) (d : Desk) : Prop where
  entries : d.app.entries.length < n
  listed : ∀ t, d.tick ≤ t → (d.outside t).listed.length < n

/-- The program returns, and there are still fewer entries, or it ends everything. -/
def Goes (n : ℕ) {α : Type} (p : AppProg α) : Prop :=
  ∀ d, Fewer n d → wp p ⟨fun _ => Fewer n, fun _ _ => False, fun _ => True⟩ d

variable {α β : Type} {n : ℕ}

theorem Fewer.tick {d : Desk} (h : Fewer n d) : Fewer n { d with tick := d.tick + 1 } :=
  { h with listed := fun t ht => h.listed t (Nat.le_of_succ_le ht) }

/-! ## Calls -/

theorem maintains_ask (f : Moment → α) : Maintains (Fewer n) (ask f) := fun _ hd => hd.tick

theorem maintains_onHost {ε : Type} (notice : ε → Notice) (p : Moment → Prog (Host Path) ε α) :
    Maintains (Fewer n) (onHost notice p) := by
  intro d hd
  unfold onHost
  dsimp only
  split <;> exact hd.tick

theorem maintains_command (f : Moment → Except Notice Unit) : Maintains (Fewer n) (command f) :=
  .bind (maintains_ask f) fun _ => .ofExcept _

theorem maintains_change {f : App → App} (hf : ∀ app, (f app).entries.length = app.entries.length) :
    Maintains (Fewer n) (change f) :=
  fun d hd => { hd with entries := (hf d.app).symm ▸ hd.entries }

theorem maintains_entryAt (index : ℕ) : Maintains (Fewer n) (entryAt index) := by
  refine .bind (fun _ hd => hd) fun app => ?_
  cases app.entries[index]? with
  | some entry => exact .pure entry
  | none => exact fun _ hd => hd

theorem maintains_saveEntry (entry : MountEntry) : Maintains (Fewer n) (saveEntry entry) :=
  .bind (.ofExcept _) fun _ => maintains_command _

theorem maintains_setEntry (index : ℕ) (f : MountEntry → MountEntry) :
    Maintains (Fewer n) (setEntry index f) := by
  refine maintains_change fun app => ?_
  show (app.entries.modify index f).length = app.entries.length
  exact List.length_modify ..

theorem maintains_ensureTask (index : ℕ) : Maintains (Fewer n) (ensureTask index) := by
  refine .bind (maintains_entryAt index) fun entry => .ite (fun _ => .pure _) fun _ => ?_
  refine .bind (maintains_command _) fun _ => .bind (maintains_setEntry index _) fun _ => ?_
  exact .bind (maintains_entryAt index) fun entry => maintains_saveEntry entry

/-! ## What a method does -/

namespace Goes

theorem pure (a : α) : Goes n (Pure.pure a : AppProg α) := fun d hd => (wp_pure a _ d).mpr hd

theorem bind {p : AppProg α} {f : α → AppProg β} (hp : Goes n p) (hf : ∀ a, Goes n (f a)) :
    Goes n (p >>= f) := by
  intro d hd
  rw [wp_bind]
  exact wp_mono (hp d hd) (fun a t ht => hf a t ht) (fun _ _ ht => ht) fun _ ht => ht

theorem ite {c : Prop} [Decidable c] {p q : AppProg α} (hp : Goes n p) (hq : Goes n q) :
    Goes n (if c then p else q) := by
  split
  · exact hp
  · exact hq

/-- A program whose error is looked at. -/
theorem attempt {p : AppProg α} (h : Maintains (Fewer n) p) :
    Goes n (Prog.attempt p : AppProg (Except Notice α)) := by
  intro d hd
  rw [wp_attempt]
  have hkept : ∀ {o t}, p d = (o, t) → Fewer n t := fun hrun => by
    have ht := h d hd
    rwa [hrun] at ht
  exact wp_mono (wp_self p d) (fun _ _ hrun => hkept hrun)
    (fun _ _ hrun => hkept hrun) fun _ _ => trivial

theorem die : Goes n (Prog.die : AppProg α) := by
  intro d _
  refine wp_mono (wp_self _ d) (fun a t hrun => ?_) (fun e t hrun => ?_) fun _ _ => trivial
  all_goals exact Outcome.noConfusion rfl rfl (heq_of_eq (Prod.mk.inj hrun).1)

theorem ask (f : Moment → α) : Goes n (ask f) := fun d hd =>
  wp_of_ok (show VolumeApp.ask f d = (.ok _, _) from rfl) hd.tick

theorem theApp : Goes n theApp := fun d hd =>
  wp_of_ok (show VolumeApp.theApp d = (.ok _, _) from rfl) hd

theorem tell (e : Event) : Goes n (tell e) := fun d hd => (wp_modify _ _ d).mpr { hd with }

theorem change {f : App → App} (hf : ∀ app, (f app).entries.length = app.entries.length) :
    Goes n (change f) :=
  fun d hd => (wp_modify _ _ d).mpr (maintains_change hf d hd)

theorem setStatus (kind : StatusKind) (message : Notice) : Goes n (setStatus kind message) :=
  .change fun _ => rfl

theorem say (kind : StatusKind) (ja en : String) : Goes n (say kind ja en) :=
  .bind .theApp fun _ => .setStatus kind _

theorem onClick {clicked : Bool} {p : AppProg Unit} (h : Goes n p) : Goes n (onClick clicked p) :=
  .ite h (.pure _)

theorem attempted {p : AppProg Unit} (h : Maintains (Fewer n) p) : Goes n (attempted p) :=
  .bind (.attempt h) fun _ => .pure _

/-- An attempt, and what comes after it. -/
theorem handle {p : AppProg α} {f : Except Notice α → AppProg β} (h : Maintains (Fewer n) p)
    (herror : ∀ e, Goes n (f (.error e))) (hok : ∀ a, Goes n (f (.ok a))) :
    Goes n ((Prog.attempt p : AppProg (Except Notice α)) >>= f) := by
  refine .bind (.attempt h) fun r => ?_
  cases r with
  | error e => exact herror e
  | ok a => exact hok a

theorem entryAt (index : ℕ) : Goes n (entryAt index) := by
  refine .bind .theApp fun app => ?_
  cases app.entries[index]? with
  | some entry => exact .pure entry
  | none => exact .die

end Goes

/-! ## The methods of the panels -/

theorem goes_syncStartup : Goes n syncStartup :=
  .bind .theApp fun _ => .bind (.tell _) fun _ =>
    .handle (maintains_command _) (fun _ => .setStatus _ _) fun _ => .pure _

/-- The list that is read again is shorter too. -/
theorem goes_refreshEntries : Goes n refreshEntries := by
  intro d hd
  unfold refreshEntries
  have hask : ask Moment.listed d =
    (.ok (d.outside d.tick).listed, { d with tick := d.tick + 1 }) := rfl
  rw [wp_bind]
  refine wp_of_ok hask ?_
  dsimp only
  rw [wp_bind]
  refine (wp_modify _ _ _).mpr ((wp_modify _ _ _).mpr ⟨?_, hd.tick.listed⟩)
  exact hd.listed d.tick (Nat.le_refl _)

theorem goes_close : Goes n close := .bind (.change fun _ => rfl) fun _ => .tell _

theorem goes_startEntry (entry : MountEntry) : Goes n (startEntry entry) :=
  .bind (.tell _) fun _ => .handle (maintains_command _) (fun _ => .setStatus _ _) fun _ =>
    .say _ _ _

theorem goes_unmountEntry (index : ℕ) : Goes n (unmountEntry index) := by
  refine .bind (.entryAt index) fun entry => .bind (.ask _) fun path => ?_
  cases path with
  | error e => exact .setStatus _ _
  | ok path =>
    exact .bind (.tell _) fun _ =>
      .handle (maintains_command _) (fun _ => .setStatus _ _) fun _ => .say _ _ _

theorem goes_removeEntry (index : ℕ) : Goes n (removeEntry index) := by
  refine .bind (.entryAt index) fun entry => .bind (.ask _) fun _ => .ite ?_ ?_
  · exact .bind (goes_unmountEntry index) fun _ => .say _ _ _
  refine .bind (.onClick (.attempted (maintains_command _))) fun _ => ?_
  refine .bind (.attempted (maintains_command _)) fun _ => .bind (.tell _) fun _ => ?_
  refine .handle (maintains_command _) (fun _ => .setStatus _ _) fun _ => ?_
  exact .bind goes_refreshEntries fun _ => .bind goes_syncStartup fun _ => .say _ _ _

theorem goes_saveShown (index : ℕ) : Goes n (saveShown index) :=
  .bind (.entryAt index) fun entry => .handle (maintains_saveEntry entry)
    (fun _ => .bind (.setStatus _ _) fun _ => goes_syncStartup) fun _ => goes_syncStartup

theorem goes_setEntry (index : ℕ) (f : MountEntry → MountEntry) : Goes n (setEntry index f) :=
  .change fun _ => List.length_modify ..

theorem entryAt_behind {index : ℕ} {d : Desk} (h : d.app.entries.length ≤ index) :
    entryAt index d = (.crash, d) := by
  unfold entryAt
  rw [bind_ok (show theApp d = (.ok d.app, d) from rfl), List.getElem?_eq_none h]
  rfl

section

variable [KeyCrypto] [CardImaging] [PathText] [Crypto]

omit [CardImaging] [PathText] in
theorem maintains_prepareCredential (entry : MountEntry) (master : MasterKey) :
    Maintains (Fewer n) (prepareCredential entry master) := by
  refine .bind (maintains_ask _) fun draw => .bind (maintains_ask _) fun credential => ?_
  refine .bind (.ofExcept _) fun credential => .bind (maintains_command _) fun _ => ?_
  refine .bind (fun _ hd => { hd with }) fun _ => .bind (maintains_onHost _ _) fun _ => ?_
  refine .bind (maintains_ask _) fun secret => .bind (.ofExcept _) fun _ => ?_
  exact .bind (maintains_command _) fun _ => maintains_command _

omit [PathText] [Crypto] in
theorem goes_fingerprintOf (path : Path) : Goes n (fingerprintOf path) :=
  .handle (maintains_onHost _ _) (fun _ => .pure _) fun _ => .pure _

omit [PathText] [Crypto] in
theorem goes_pinState (path : Path) : Goes n (pinState path) :=
  .handle (maintains_onHost _ _) (fun _ => .pure _) fun _ => .pure _

omit [Crypto] in
theorem goes_showKeyOf (entry : MountEntry) : Goes n (showKeyOf entry) :=
  .bind (goes_fingerprintOf _) fun _ => .bind goes_close fun _ => .change fun _ => rfl

omit [Crypto] in
theorem goes_awaitKey (entry : MountEntry) : Goes n (awaitKey entry) := by
  refine .bind (goes_showKeyOf entry) fun _ => .bind (.change fun _ => rfl) fun _ => ?_
  refine .bind (goes_pinState _) fun state => ?_
  cases state <;> exact .say _ _ _

theorem goes_mountEntry (index : ℕ) : Goes n (mountEntry index) := by
  refine .bind (.entryAt index) fun _ => .bind (.ask _) fun _ => .ite (.pure _) ?_
  refine .handle (maintains_ensureTask index) (fun _ => .setStatus _ _) fun _ => ?_
  refine .bind (.entryAt index) fun entry => .bind (.ask _) fun _ => .ite (goes_startEntry entry) ?_
  refine .bind (.bind .theApp fun _ => .pure _) fun master => ?_
  cases master with
  | none => exact goes_awaitKey entry
  | some master =>
    exact .handle (maintains_prepareCredential entry master) (fun _ => .setStatus _ _) fun _ =>
      .bind (.tell _) fun _ => goes_startEntry entry

theorem goes_applyEntryPolicy (index : ℕ) : Goes n (applyEntryPolicy index) := by
  refine .bind (.entryAt index) fun entry => .ite ?_ (.ite ?_ ?_)
  · exact .bind (goes_setEntry index _) fun _ => .bind (.attempted (maintains_command _)) fun _ =>
      goes_saveShown index
  · refine .bind (.bind .theApp fun _ => .pure _) fun master => ?_
    cases master with
    | none =>
      refine .bind (goes_setEntry index _) fun _ => .bind (goes_showKeyOf entry) fun _ => ?_
      refine .bind (.say _ _ _) fun _ => .bind (.entryAt index) fun entry => ?_
      exact .bind (.attempted (maintains_saveEntry entry)) fun _ => goes_syncStartup
    | some master =>
      refine .handle (maintains_prepareCredential entry master) (fun _ => ?_) fun _ =>
        goes_saveShown index
      exact .bind (goes_setEntry index _) fun _ => .bind (.setStatus _ _) fun _ =>
        goes_saveShown index
  · exact .bind (.attempted (maintains_command _)) fun _ => goes_saveShown index

theorem goes_entryPanel (index : ℕ) (input : EntryInput) : Goes n (entryPanel index input) := by
  refine .bind (.entryAt index) fun _ => .bind (.ask _) fun mounted => ?_
  refine .bind (.bind (.entryAt index) fun _ => .bind (goes_setEntry index _) fun _ =>
    .onClick (goes_applyEntryPolicy index)) fun _ => ?_
  cases input.action with
  | connect => exact .onClick (goes_mountEntry index)
  | disconnect => exact .onClick (goes_unmountEntry index)
  | remove => exact .onClick (goes_removeEntry index)
  | none | openDrive | openFolder => exact .pure _

/-! ## The loop -/

/-- One panel after the other comes to one behind the end of the list. -/
theorem panels_crash (inputs : ℕ → EntryInput) {items : List ℕ} {d : Desk} (hmem : n ∈ items)
    (hd : Fewer (n + 1) d) :
    (items.forM (fun index => entryPanel index (inputs index)) d).1 = .crash := by
  induction items generalizing d with
  | nil => exact absurd hmem List.not_mem_nil
  | cons i items ih =>
    show ((entryPanel i (inputs i) >>= fun _ => items.forM fun index =>
      entryPanel index (inputs index)) d).1 = _
    have hgoes := goes_entryPanel i (inputs i) d hd
    rcases hrun : entryPanel i (inputs i) d with ⟨a | e | _, t⟩
    · rw [bind_ok hrun]
      rcases List.mem_cons.mp hmem with rfl | hmem
      · have hbehind : entryPanel n (inputs n) d = (.crash, d) :=
          bind_crash (entryAt_behind (Nat.le_of_lt_succ hd.entries))
        exact Outcome.noConfusion rfl rfl (heq_of_eq (Prod.mk.inj (hbehind.symm.trans hrun)).1)
      · exact ih hmem (hgoes.ok hrun)
    · exact (hgoes.error hrun).elim
    · rw [bind_crash hrun]

/-- A pass over the window, up to a panel. -/
def updateTo (frame : Frame) (k : ℕ) : AppProg Unit := do
  change fun app => { app with japanese := app.japanese ^^ frame.language }
  (List.range k).forM fun index => entryPanel index (frame.entries index)

/-- The panels of a pass are those up to one of them, and the rest. -/
theorem update_eq (frame : Frame) {d : Desk} {k : ℕ} (hk : k ≤ d.app.entries.length) :
    update frame d = (updateTo frame k >>= fun _ =>
      ((List.range d.app.entries.length).drop k).forM
        (fun index => entryPanel index (frame.entries index)) >>=
        fun _ => keyPanel frame.key >>= fun _ => createPanel frame.create) d := by
  have hrange : List.range d.app.entries.length =
      List.range k ++ (List.range d.app.entries.length).drop k := by
    conv_lhs => rw [← List.take_append_drop k (List.range d.app.entries.length), List.take_range,
      Nat.min_eq_left hk]
  have hsplit : (List.range d.app.entries.length).forM
    (fun index => entryPanel index (frame.entries index)) =
      (List.range k).forM (fun index => entryPanel index (frame.entries index)) >>= fun _ =>
        ((List.range d.app.entries.length).drop k).forM fun index =>
          entryPanel index (frame.entries index) := by
    conv_lhs => rw [hrange]
    exact List.forM_append
  show ((List.range d.app.entries.length).forM
    (fun index => entryPanel index (frame.entries index)) >>=
    fun _ => keyPanel frame.key >>= fun _ => createPanel frame.create)
      { d with app := { d.app with japanese := d.app.japanese ^^ frame.language } } = _
  rw [hsplit, bind_assoc]
  rfl

/-- **A removal ends the program.**  When some panels of a pass over the window, but not all, have
left fewer entries than there were, as after the removal of an entry that is not the last, and the
list is never read again with as many, the pass does not return, whatever else the user does in it:
the program ends at the panel whose index is behind the end of the list, unless a call of a panel
before it has ended it. -/
theorem removal_ends_program {frame : Frame} {d d₁ : Desk} {k : ℕ} (hk : k < d.app.entries.length)
    (hpanels : updateTo frame k d = (.ok (), d₁))
    (hfewer : d₁.app.entries.length < d.app.entries.length)
    (hlisted : ∀ t, d₁.tick ≤ t → (d₁.outside t).listed.length < d.app.entries.length) :
    (update frame d).1 = .crash := by
  obtain ⟨n, hn⟩ : ∃ n, d.app.entries.length = n + 1 :=
    ⟨_, (Nat.succ_pred_eq_of_pos (by omega)).symm⟩
  have hmem : n ∈ (List.range d.app.entries.length).drop k := by
    refine List.mem_of_getElem? (i := n - k) ?_
    rw [List.getElem?_drop, List.getElem?_range (by omega)]
    congr 1
    omega
  rw [hn] at hfewer hlisted
  have hcrash := panels_crash frame.entries hmem ⟨hfewer, hlisted⟩
  rw [update_eq frame (Nat.le_of_lt hk), bind_ok hpanels]
  rcases hrest : ((List.range d.app.entries.length).drop k).forM
    (fun index => entryPanel index (frame.entries index)) d₁ with ⟨o, t⟩
  rw [hrest] at hcrash
  obtain rfl : o = .crash := hcrash
  rw [bind_crash hrest]

end

/-! ## The first of two entries -/

/-- There are two entries at first, and the second is left when the list is read again. -/
def shrinking : ℕ → Moment
  | 0 => { sampleMoment with listed := [{ sampleEntry with id := ['0', '9'] }, sampleEntry] }
  | _ + 1 => sampleMoment

/-- The first entry is removed. -/
def removingFirst : Frame :=
  { sampleFrame false false with
    entries := fun index => ⟨true, false, false, false, if index = 0 then .remove else .none⟩ }

/-- The window with both entries. -/
def twoEntries : Desk :=
  let _ := tableCrypto [sampleSealing]
  let _ := plainKeyCrypto
  let _ := PinCard.blankImaging
  let _ := samplePaths
  start false false shrinking

/-- The pass up to the removal. -/
def firstRemoved : Outcome Notice Unit × Desk :=
  let _ := tableCrypto [sampleSealing]
  let _ := plainKeyCrypto
  let _ := PinCard.blankImaging
  let _ := samplePaths
  updateTo removingFirst 1 twoEntries

theorem removal_ends_program_first :
    let _ := tableCrypto [sampleSealing]
    let _ := plainKeyCrypto
    let _ := PinCard.blankImaging
    let _ := samplePaths
    updateTo removingFirst 1 twoEntries = (.ok (), firstRemoved.2) ∧
      (update removingFirst twoEntries).1 = .crash := by
  let _ := tableCrypto [sampleSealing]
  let _ := plainKeyCrypto
  let _ := PinCard.blankImaging
  let _ := samplePaths
  have hreadable : ∀ n path, (shrinking n).picked = some path →
      PathText.read (trim path) = PathText.read path := by
    intro n path hpath
    have hkey : some ['k'] = some path := by
      cases n <;> exact hpath
    obtain rfl := Option.some.inj hkey
    decide
  have hstart : Inv twoEntries.seen ∧ twoEntries.outside = shrinking :=
    inv_start false false hreadable
  have hkeeps : Keeps Inv (updateTo removingFirst 1) fun _ => Inv :=
    .bind (.quiet (leaves_change fun _ => ⟨rfl, rfl, rfl⟩) fun _ h => h) fun _ =>
      .forM _ fun index _ => keeps_entryPanel index _
  have hfirst : updateTo removingFirst 1 twoEntries = firstRemoved := rfl
  have hsame := (hkeeps.ends hstart.1).2
  rw [hfirst] at hsame
  have hreturned : firstRemoved.1 = .ok () := by decide +kernel
  have hpanels : updateTo removingFirst 1 twoEntries = (.ok (), firstRemoved.2) :=
    hfirst.trans (Prod.ext hreturned rfl)
  have htwo : twoEntries.app.entries.length = 2 := by decide +kernel
  have hone : firstRemoved.2.app.entries.length = 1 := by decide +kernel
  have htick : 0 < firstRemoved.2.tick := by decide +kernel
  refine ⟨hpanels, removal_ends_program (by omega) hpanels (by omega) fun t ht => ?_⟩
  obtain ⟨t, rfl⟩ := Nat.exists_eq_succ_of_ne_zero (show t ≠ 0 by omega)
  rw [hsame, hstart.2, htwo]
  show [sampleEntry].length < 2
  decide

end VolumeApp
end Mount
end OrIsyVra
