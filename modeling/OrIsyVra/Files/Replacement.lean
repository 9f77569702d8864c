import OrIsyVra.Files.PinCard

/-!
# Replacing a file

Four places replace a file with a temporary that has been synced, and all four remove the old file
before they rename the temporary to its place.  Between the two calls there is nothing at the path:
a call that has removed the file and does not get to rename loses it (`Loses`).

That window is all there is.  Everything before it leaves the path alone, a rename is atomic, and
when the probe in front of the removal fails the removal is left out and the rename replaces the old
file by itself.  So a call is all or nothing exactly when the script of faults does not hit the
window (`replacement_all_or_nothing_iff`).
-/

namespace OrIsyVra

open ByteString FaultProgram FileSystem
open DurableFile (IoFailure IoError)

variable {ε α : Type}

/-! ## All or nothing -/

/-- What may be found at a path when a run has ended: after a crash, what a crash leaves. -/
def Found (r : Outcome ε α × Host Path) (path : Path) (found : Option Bytes) : Prop :=
  match r.1 with
  | .crash => Survives (r.2.files path) found
  | _ => found = (r.2.files path).map Contents.bytes

/-- The path holds the old bytes or the new ones, and after an error the old ones. -/
def AllOrNothing (r : Outcome ε α × Host Path) (path : Path) (old new : Bytes) : Prop :=
  ∀ found, Found r path found → (found = some old ∨ found = some new) ∧
    ((∃ e, r.1 = .error e) → found = some old)

/-- All or nothing, in terms of the files themselves. -/
def whole (path : Path) (old : Contents) (new : Bytes) : Post (Host Path) ε α where
  ok _ t := t.files path = some ⟨new, true⟩
  error _ t := t.files path = some old
  crash t := t.files path = some old ∨ t.files path = some ⟨new, true⟩

/-- Nothing is left, and no success is reported. -/
def lost (path : Path) : Post (Host Path) ε α where
  ok _ _ := False
  error _ t := t.files path = none
  crash t := t.files path = none

variable {p : Prog (Host Path) ε α} {h : Host Path} {path temporary : Path} {old : Contents}
  {new : Bytes}

theorem allOrNothing_of_wp (hold : old.synced = true) (hp : wp p (whole path old new) h) :
    AllOrNothing (p h) path old.bytes new := by
  intro found hfound
  rcases hrun : p h with ⟨a | e | _, t⟩ <;> rw [hrun] at hfound
  · have hnew : t.files path = some ⟨new, true⟩ := hp.ok hrun
    have hbytes : found = some new := by
      rw [show found = _ from hfound]
      simp only [hnew, Option.map_some]
    refine ⟨Or.inr hbytes, ?_⟩
    rintro ⟨e, he⟩
    exact absurd he (by simp)
  · have hkept : t.files path = some old := hp.error hrun
    have hbytes : found = some old.bytes := by
      rw [show found = _ from hfound]
      simp only [hkept, Option.map_some]
    exact ⟨Or.inl hbytes, fun _ => hbytes⟩
  · refine ⟨?_, ?_⟩
    · rcases (hp.crash hrun : _ ∨ _) with hkept | hnew
      · exact Or.inl (Survives.of_synced (c := old) (hkept ▸ hfound) hold)
      · exact Or.inr (Survives.of_synced (c := ⟨new, true⟩) (hnew ▸ hfound) rfl)
    · rintro ⟨e, he⟩
      exact absurd he (by simp)

theorem not_allOrNothing_of_wp (hp : wp p (lost path) h) {old new : Bytes} :
    ¬AllOrNothing (p h) path old new := by
  intro hall
  have hnothing : ∀ t : Host Path, t.files path = none → Found (p h) path none → False := by
    intro t _ hfound
    rcases (hall none hfound).1 with heq | heq
    · exact absurd heq (by simp)
    · exact absurd heq (by simp)
  rcases hrun : p h with ⟨a | e | _, t⟩
  · exact hp.ok hrun
  · have hnone : t.files path = none := hp.error hrun
    refine hnothing t hnone ?_
    rw [hrun]
    show none = (t.files path).map _
    rw [hnone, Option.map_none]
  · have hnone : t.files path = none := hp.crash hrun
    refine hnothing t hnone ?_
    rw [hrun]
    show Survives (t.files path) none
    rw [hnone]
    rfl

/-! ## The window -/

/-- From a tick on: the probe goes through, the removal is done, and the rename is not. -/
def Loses (faults : ℕ → Fault) (probe : ℕ) : Prop :=
  faults probe = .none ∧ (faults (probe + 1)).done = true ∧
    ¬(faults (probe + 1) = .none ∧ (faults (probe + 2)).done = true)

variable [IoError ε]

/-- A last step that moves the temporary to the path, or leaves everything as it is. -/
structure Places (temporary path : Path) (new : Bytes) (move : Prog (Host Path) ε Unit) : Prop where
  keeps : ∀ {t : Host Path} {old : Contents}, t.files temporary = some ⟨new, true⟩ →
    t.files path = some old → wp move (whole path old new) t
  places : ∀ {t : Host Path} {old : Contents}, t.files temporary = some ⟨new, true⟩ →
    t.fault.done = true → wp move (whole path old new) t
  misses : ∀ {t : Host Path}, t.files temporary = some ⟨new, true⟩ → t.files path = none →
    t.fault.done = false → wp move (lost path) t

theorem places_rename (temporary path : Path) (new : Bytes) :
    Places temporary path new (rename temporary path : Prog (Host Path) ε Unit) := by
  have hplaced : ∀ t : Host Path, (put (put t.files temporary none) path (some ⟨new, true⟩)) path =
      some ⟨new, true⟩ := fun t => put_self _ _ _
  refine ⟨fun {t old} htemp hpath => ?_, fun {t old} htemp hdone =>
    ?_, fun {t} htemp hpath hdone => ?_⟩
  · exact wp_rename htemp (fun _ => hplaced t) (fun _ _ => hpath) (fun _ _ => Or.inl hpath)
      fun _ _ => Or.inr (hplaced t)
  · exact wp_rename htemp (fun _ => hplaced t)
      (fun _ hnot => absurd hdone (by rw [hnot]; exact Bool.false_ne_true))
      (fun _ hnot => absurd hdone (by rw [hnot]; exact Bool.false_ne_true))
      fun _ _ => Or.inr (hplaced t)
  · refine wp_rename htemp (fun hnone => ?_) (fun _ _ => hpath) (fun _ _ => hpath)
      fun _ hyes => absurd hyes (by rw [hdone]; exact Bool.false_ne_true)
    rw [hnone] at hdone
    exact Bool.false_ne_true hdone.symm

/-- Dropping another file does not change what is at the path. -/
theorem wp_dropping_whole {body : Prog (Host Path) ε α} (hne : path ≠ temporary)
    (hbody : wp body (whole path old new) h) :
    wp (dropping temporary body) (whole path old new) h := by
  refine wp_dropping (wp_mono hbody (fun _ _ ht => ht) (fun e t ht files hfiles => ?_)
    fun _ ht => ht)
  have hkept : files path = some old := by
    rcases hfiles with rfl | rfl
    · exact ht
    · rw [put_of_ne hne]
      exact ht
  exact ⟨hkept, Or.inl hkept⟩

theorem wp_dropping_lost {body : Prog (Host Path) ε α} (hne : path ≠ temporary)
    (hbody : wp body (lost path) h) : wp (dropping temporary body) (lost path) h := by
  refine wp_dropping (wp_mono hbody (fun _ _ ht => ht) (fun e t ht files hfiles => ?_)
    fun _ ht => ht)
  have hkept : files path = none := by
    rcases hfiles with rfl | rfl
    · exact ht
    · rw [put_of_ne hne]
      exact ht
  exact ⟨hkept, hkept⟩

theorem Places.dropping {move : Prog (Host Path) ε Unit} (hmove : Places temporary path new move)
    (hne : path ≠ temporary) : Places temporary path new (dropping temporary move) :=
  ⟨fun htemp hpath => wp_dropping_whole hne (hmove.keeps htemp hpath),
    fun htemp hdone => wp_dropping_whole hne (hmove.places htemp hdone),
    fun htemp hpath hdone => wp_dropping_lost hne (hmove.misses htemp hpath hdone)⟩

/-- The rule of the removal, where there is a file that may go. -/
theorem wp_clearOutput {Q : Post (Host Path) ε Unit} (hpath : h.files path = some old)
    (hleft : (∃ part, h.fault = .fail part) → Q.ok () (h.tick h.files))
    (hremoved : h.fault = .none → h.faults (h.clock + 1) = .none →
      Q.ok () ((h.tick h.files).tick (put h.files path none)))
    (herror : h.fault = .none → (h.faults (h.clock + 1)).done = false →
      Q.error (IoError.io .device) ((h.tick h.files).tick h.files))
    (hprobe : (∃ part, h.fault = .kill part) → Q.crash (h.tick h.files))
    (hkept : h.fault = .none → (h.faults (h.clock + 1)).done = false →
      Q.crash ((h.tick h.files).tick h.files))
    (hdone : h.fault = .none → h.faults (h.clock + 1) ≠ .none →
      (h.faults (h.clock + 1)).done = true →
      Q.crash ((h.tick h.files).tick (put h.files path none))) :
    wp (clearOutput path true) Q h := by
  unfold clearOutput
  rw [wp_bind]
  refine wp_pathExists (fun hnone => ?_) (fun hfail => ?_) hprobe
  · show wp (if (h.files path).isSome && true then remove path else pure ()) Q _
    rw [hpath, Option.isSome_some, Bool.and_true, if_pos rfl]
    exact wp_remove hpath (fun hf => hremoved hnone hf) (fun _ hf => herror hnone hf)
      (fun _ hf => hkept hnone hf) fun hf hd => hdone hnone hf hd
  · exact (wp_pure () Q _).mpr (hleft hfail)

/-- **Outside the window a replacement is whole.** -/
theorem wp_replace_whole {move : Prog (Host Path) ε Unit} (hmove : Places temporary path new move)
    (hne : path ≠ temporary) (htemp : h.files temporary = some ⟨new, true⟩)
    (hpath : h.files path = some old) (hsafe : ¬Loses h.faults h.clock) :
    wp (clearOutput path true >>= fun _ => move) (whole path old new) h := by
  rw [wp_bind]
  refine wp_clearOutput hpath (fun _ => hmove.keeps htemp hpath) (fun hprobe hremoved => ?_)
    (fun _ _ => hpath) (fun _ => Or.inl hpath) (fun _ _ => Or.inl hpath) fun hprobe hcut hdone => ?_
  · refine hmove.places ?_ ?_
    · rw [Host.files_tick, put_of_ne (Ne.symm hne)]
      exact htemp
    · by_contra hundone
      exact hsafe ⟨hprobe, by rw [hremoved]; rfl, fun hboth => hundone hboth.2⟩
  · exact absurd ⟨hprobe, hdone, fun hboth => hcut hboth.1⟩ hsafe

/-- **Inside it the file is lost.** -/
theorem wp_replace_lost {move : Prog (Host Path) ε Unit} (hmove : Places temporary path new move)
    (hne : path ≠ temporary) (htemp : h.files temporary = some ⟨new, true⟩)
    (hpath : h.files path = some old) (hloses : Loses h.faults h.clock) :
    wp (clearOutput path true >>= fun _ => move) (lost path) h := by
  obtain ⟨hprobe, hdone, hmissed⟩ := hloses
  have hnot : ∀ {P : Prop}, (h.faults (h.clock + 1)).done = false → P := by
    intro P hundone
    rw [hdone] at hundone
    exact absurd hundone.symm Bool.false_ne_true
  rw [wp_bind]
  refine wp_clearOutput hpath ?_ (fun _ hremoved => ?_) (fun _ hundone => hnot hundone) ?_
    (fun _ hundone => hnot hundone) fun _ _ _ => put_self _ _ _
  · rintro ⟨part, hfail⟩
    exact Fault.noConfusion (hprobe.symm.trans hfail)
  · refine hmove.misses ?_ (put_self _ _ _) ?_
    · rw [Host.files_tick, put_of_ne (Ne.symm hne)]
      exact htemp
    · exact Bool.eq_false_iff.mpr fun hplaced => hmissed ⟨hremoved, hplaced⟩
  · rintro ⟨part, hkill⟩
    exact Fault.noConfusion (hprobe.symm.trans hkill)

/-! ## What comes before the window -/

/-- The sync in front of the window. -/
theorem wp_settle_whole {move : Prog (Host Path) ε Unit} {c : Contents}
    (hmove : Places temporary path c.bytes move) (hne : path ≠ temporary)
    (htemp : h.files temporary = some c) (hpath : h.files path = some old)
    (hsafe : ¬(h.fault = .none ∧ Loses h.faults (h.clock + 1))) :
    wp (sync temporary >>= fun _ => clearOutput path true >>= fun _ => move)
      (whole path old c.bytes) h := by
  have hkept : (put h.files temporary (some ⟨c.bytes, true⟩)) path = some old := by
    rw [put_of_ne hne]
    exact hpath
  rw [wp_bind]
  refine wp_sync htemp (fun hf => ?_) (fun _ => hpath) (fun _ => Or.inl hpath) fun _ => Or.inl hkept
  exact wp_replace_whole hmove hne (put_self _ _ _) hkept fun hloses => hsafe ⟨hf, hloses⟩

theorem wp_settle_lost {move : Prog (Host Path) ε Unit} {c : Contents}
    (hmove : Places temporary path c.bytes move) (hne : path ≠ temporary)
    (htemp : h.files temporary = some c) (hpath : h.files path = some old) (hf : h.fault = .none)
    (hloses : Loses h.faults (h.clock + 1)) :
    wp (sync temporary >>= fun _ => clearOutput path true >>= fun _ => move) (lost path) h := by
  have hkept : (put h.files temporary (some ⟨c.bytes, true⟩)) path = some old := by
    rw [put_of_ne hne]
    exact hpath
  rw [wp_bind]
  refine wp_sync htemp (fun _ => ?_) (fun hnot => absurd hf hnot) (fun hnot => absurd hf hnot)
    fun hnot => absurd hf hnot
  exact wp_replace_lost hmove hne (put_self _ _ _) hkept hloses

/-- The contents go into the new temporary. -/
theorem wp_fill_whole {move : Prog (Host Path) ε Unit} {bytes : Bytes}
    (hmove : Places temporary path bytes move) (hne : path ≠ temporary)
    (htemp : h.files temporary = some ⟨[], false⟩) (hpath : h.files path = some old)
    (hsafe : ¬(h.fault = .none ∧ h.faults (h.clock + 1) = .none ∧ Loses h.faults (h.clock + 2))) :
    wp (write temporary bytes >>= fun _ => sync temporary >>= fun _ =>
      clearOutput path true >>= fun _ => move) (whole path old bytes) h := by
  have hkept : ∀ bs, append h.files temporary bs path = some old := fun bs => by
    rw [append_of_ne hne, hpath]
  rw [wp_bind]
  refine wp_write (fun hf => ?_) (fun part _ => hkept _) fun part _ => Or.inl (hkept _)
  have htemp' : append h.files temporary bytes temporary = some ⟨bytes, false⟩ := by
    rw [append_eq htemp, put_self, List.nil_append]
  exact wp_settle_whole (c := ⟨bytes, false⟩) hmove hne htemp' (hkept _)
    fun hloses => hsafe ⟨hf, hloses.1, hloses.2⟩

theorem wp_fill_lost {move : Prog (Host Path) ε Unit} {bytes : Bytes}
    (hmove : Places temporary path bytes move) (hne : path ≠ temporary)
    (htemp : h.files temporary = some ⟨[], false⟩) (hpath : h.files path = some old)
    (hwrite : h.fault = .none) (hsync : h.faults (h.clock + 1) = .none)
    (hloses : Loses h.faults (h.clock + 2)) :
    wp (write temporary bytes >>= fun _ => sync temporary >>= fun _ =>
      clearOutput path true >>= fun _ => move) (lost path) h := by
  rw [wp_bind]
  refine wp_write (fun _ => ?_) (fun _ hnot => absurd hwrite hnot) fun _ hnot => absurd hwrite hnot
  have htemp' : append h.files temporary bytes temporary = some ⟨bytes, false⟩ := by
    rw [append_eq htemp, put_self, List.nil_append]
  have hpath' : append h.files temporary bytes path = some old := by
    rw [append_of_ne hne, hpath]
  exact wp_settle_lost (c := ⟨bytes, false⟩) hmove hne htemp' hpath' hsync hloses

/-- The test for a file that may be overwritten, and the directories: they lead on unless the
process dies in the one or the other does not go through. -/
theorem wp_enter {rest : Prog (Host Path) ε Unit} {refusal : ε} {Q : Post (Host Path) ε Unit}
    (hrest : (∀ part, h.fault ≠ .kill part) → h.faults (h.clock + 1) = .none →
      wp rest Q ((h.tick h.files).tick h.files))
    (herror : (∀ part, h.fault ≠ .kill part) → h.faults (h.clock + 1) ≠ .none →
      Q.error (IoError.io .device) ((h.tick h.files).tick h.files) ∧
        Q.crash ((h.tick h.files).tick h.files))
    (hcrash : (∃ part, h.fault = .kill part) → Q.crash (h.tick h.files)) :
    wp (refuseExisting refusal path true >>= fun _ => makeDirs >>= fun _ => rest) Q h := by
  have hdirs : (∀ part, h.fault ≠ .kill part) →
      wp (makeDirs >>= fun _ => rest) Q (h.tick h.files) := by
    intro hlives
    rw [wp_bind]
    exact wp_makeDirs (fun hf => hrest hlives hf) (fun hf => (herror hlives hf).1)
      fun hf => (herror hlives hf).2
  unfold refuseExisting
  rw [wp_bind, wp_bind]
  refine wp_pathExists (fun hf => ?_) ?_ hcrash
  · show wp (if (h.files path).isSome && !true then Prog.fail refusal else pure ()) _ _
    rw [Bool.not_true, Bool.and_false, if_neg Bool.false_ne_true]
    exact (wp_pure _ _ _).mpr (hdirs fun part hkill => Fault.noConfusion (hf.symm.trans hkill))
  · rintro ⟨part, hf⟩
    exact (wp_pure _ _ _).mpr (hdirs fun part' hkill => Fault.noConfusion (hf.symm.trans hkill))

/-- The whole way: the test does not kill the process, everything up to the window goes through, and
the window is hit. -/
def LosesAfter (faults : ℕ → Fault) (start n : ℕ) : Prop :=
  (∀ part, faults start ≠ .kill part) ∧ (∀ t, start < t → t < start + n → faults t = .none) ∧
    Loses faults (start + n)

/-! ## The four writers -/

theorem persistOutput_all_or_nothing_iff {c : Contents} (hne : path ≠ temporary)
    (htemp : h.files temporary = some c) (hpath : h.files path = some old)
    (hold : old.synced = true) :
    AllOrNothing (persistOutput temporary path true h) path old.bytes c.bytes ↔
      ¬(h.fault = .none ∧ Loses h.faults (h.clock + 1)) := by
  have hmove := places_rename (ε := Error) temporary path c.bytes
  constructor
  · rintro hall ⟨hf, hloses⟩
    exact not_allOrNothing_of_wp
      (wp_dropping_lost hne (wp_settle_lost hmove hne htemp hpath hf hloses)) hall
  · intro hsafe
    exact allOrNothing_of_wp hold
      (wp_dropping_whole hne (wp_settle_whole hmove hne htemp hpath hsafe))

/-- The copy of the key capsule and the key card. -/
theorem writeThroughTemporary_all_or_nothing_iff (refusal : ε) (name : String) (bytes : Bytes)
    (hpath : h.files path = some old) (hold : old.synced = true) :
    AllOrNothing (writeThroughTemporary refusal name bytes path true h) path old.bytes bytes ↔
      ¬(h.files (path.parent.join name) = none ∧ LosesAfter h.faults h.clock 5) := by
  generalize htemporary : path.parent.join name = temporary
  have hmove := places_rename (ε := ε) temporary path bytes
  have hne : h.files temporary = none → path ≠ temporary := by
    rintro hfree rfl
    exact Option.some_ne_none old (hpath.symm.trans hfree)
  constructor
  · rintro hall ⟨hfree, hlives, hclear, hloses⟩
    have hdirs : h.faults (h.clock + 1) = .none := hclear _ (by omega) (by omega)
    have hcreate : h.faults (h.clock + 2) = .none := hclear _ (by omega) (by omega)
    have hwrite : h.faults (h.clock + 3) = .none := hclear _ (by omega) (by omega)
    have hsync : h.faults (h.clock + 4) = .none := hclear _ (by omega) (by omega)
    refine not_allOrNothing_of_wp ?_ hall
    unfold writeThroughTemporary
    refine wp_enter (fun _ _ => ?_) (fun _ hnot => absurd hdirs hnot) ?_
    · rw [wp_bind]
      refine wp_newIn (fun _ _ => ?_) (fun _ hnot => absurd (htemporary ▸ hfree) hnot)
        (fun hnot => absurd hcreate hnot) (fun hnot => absurd hcreate hnot)
        fun hnot => absurd hcreate hnot
      · have hkept : (put h.files temporary (some ⟨[], false⟩)) path = some old := by
          rw [put_of_ne (hne hfree)]
          exact hpath
        rw [htemporary]
        exact wp_dropping_lost (hne hfree)
          (wp_fill_lost hmove (hne hfree) (put_self _ _ _) hkept hwrite hsync hloses)
    · rintro ⟨part, hkill⟩
      exact absurd hkill (hlives part)
  · intro hsafe
    refine allOrNothing_of_wp hold ?_
    unfold writeThroughTemporary
    refine wp_enter (fun hlives hdirs => ?_) (fun _ _ => ⟨hpath, Or.inl hpath⟩) fun _ =>
      Or.inl hpath
    rw [wp_bind]
    have hkept : h.files temporary = none →
        (put h.files temporary (some ⟨[], false⟩)) path = some old := by
      intro hfree
      rw [put_of_ne (hne hfree)]
      exact hpath
    refine wp_newIn (fun hf hfree => ?_) (fun _ _ => hpath) (fun _ => hpath) (fun _ => Or.inl hpath)
      fun _ hfree => ?_
    · rw [htemporary] at hfree ⊢
      refine wp_dropping_whole (hne hfree) (wp_fill_whole hmove (hne hfree) (put_self _ _ _)
        (hkept hfree) ?_)
      rintro ⟨hwrite, hsync, hloses⟩
      refine hsafe ⟨hfree, hlives, fun t hlo hhi => ?_, hloses⟩
      obtain rfl | rfl | rfl | rfl : t = h.clock + 1 ∨ t = h.clock + 2 ∨ t = h.clock + 3 ∨
          t = h.clock + 4 := by omega
      · exact hdirs
      · exact hf
      · exact hwrite
      · exact hsync
    · rw [htemporary] at hfree ⊢
      exact Or.inl (hkept hfree)

namespace PinCard

/-- The first of the drawn names that is free. -/
def FirstFree (files : Files Path) (parent : Path) (draws : ℕ → UInt64) (attempt k : ℕ) : Prop :=
  attempt ≤ k ∧ files (temporaryPath parent draws k) = none ∧
    ∀ j, attempt ≤ j → j < k → files (temporaryPath parent draws j) ≠ none

/-- The attempts take the first free name, when nothing fails. -/
theorem tempfileAttempts_ok {parent : Path} {draws : ℕ → UInt64} {left attempt k : ℕ}
    (hfree : FirstFree h.files parent draws attempt k) (hk : k < attempt + left)
    (hclear : ∀ t, h.clock ≤ t → t ≤ h.clock + (k - attempt) → h.faults t = .none) :
    tempfileAttempts parent draws left attempt h = (.ok (temporaryPath parent draws k),
      (h.wait (k - attempt)).tick
        (put h.files (temporaryPath parent draws k) (some ⟨[], false⟩))) := by
  induction left generalizing attempt h with
  | zero => have := hfree.1; omega
  | succ left ih =>
    obtain ⟨hle, hnone, hoccupied⟩ := hfree
    have hf : h.fault = .none := hclear _ le_rfl (Nat.le_add_right _ _)
    unfold tempfileAttempts
    rcases Nat.eq_or_lt_of_le hle with rfl | hlt
    · rw [bind_ok (attempt_ok (createNew_ok hf hnone)), Nat.sub_self, Host.wait_zero]
      rfl
    · obtain ⟨c, hc⟩ := Option.ne_none_iff_exists'.mp (hoccupied attempt le_rfl hlt)
      rw [bind_ok (attempt_error (createNew_refused hf hc))]
      have hnext : FirstFree (h.tick h.files).files parent draws (attempt + 1) k :=
        ⟨hlt, hnone, fun j hj hjk => hoccupied j (by omega) hjk⟩
      have hrest := ih hnext (by omega) fun t hlo hhi => hclear t
        (by rw [Host.clock_tick] at hlo; omega) (by rw [Host.clock_tick] at hhi; omega)
      rw [Host.tick_wait, show k - (attempt + 1) + 1 = k - attempt by omega] at hrest
      exact hrest

/-- However the attempts end, they have created one file under a free name or none. -/
theorem wp_tempfileAttempts {parent : Path} {draws : ℕ → UInt64} {left attempt : ℕ}
    {Q : Post (Host Path) PinError Path}
    (hok : ∀ k, FirstFree h.files parent draws attempt k → k < attempt + left →
      (∀ t, h.clock ≤ t → t ≤ h.clock + (k - attempt) → h.faults t = .none) →
      Q.ok (temporaryPath parent draws k) ((h.wait (k - attempt)).tick
        (put h.files (temporaryPath parent draws k) (some ⟨[], false⟩))))
    (hkept : ∀ t : Host Path, t.files = h.files → (∀ e, Q.error e t) ∧ Q.crash t)
    (hdone : ∀ k (t : Host Path), h.files (temporaryPath parent draws k) = none →
      t.files = put h.files (temporaryPath parent draws k) (some ⟨[], false⟩) → Q.crash t) :
    wp (tempfileAttempts parent draws left attempt) Q h := by
  induction left generalizing attempt h with
  | zero => exact (wp_fail _ Q _).mpr ((hkept h rfl).1 _)
  | succ left ih =>
    unfold tempfileAttempts
    rw [wp_bind, wp_attempt]
    refine wp_createNew (fun hf hfree => ?_) (fun hf hoccupied => ?_) (fun _ => ?_)
      (fun _ => (hkept (h.tick h.files) rfl).2) fun _ hfree => hdone attempt _ hfree rfl
    · refine (wp_pure _ Q _).mpr ?_
      have hnow := hok attempt ⟨le_rfl, hfree, fun j hj hjk => by omega⟩ (by omega)
        fun t hlo hhi => by
          obtain rfl : t = h.clock := by omega
          exact hf
      rwa [Nat.sub_self, Host.wait_zero] at hnow
    · refine ih (fun k hfree hk hclear => ?_) (fun t ht => hkept t ht)
        fun k t hfree ht => hdone k t hfree ht
      have hlt : attempt < k := hfree.1
      have hnow := hok k ⟨by omega, hfree.2.1, fun j hj hjk => ?_⟩ (by omega)
        fun t hlo hhi => ?_
      · rw [Host.tick_wait, show k - (attempt + 1) + 1 = k - attempt by omega]
        exact hnow
      · rcases Nat.eq_or_lt_of_le hj with rfl | hj
        · exact hoccupied
        · exact hfree.2.2 j hj hjk
      · rcases Nat.eq_or_lt_of_le hlo with rfl | hlo
        · exact hf
        · exact hclear t hlo (by rw [Host.clock_tick]; omega)
    · exact (wp_fail _ Q _).mpr ((hkept (h.tick h.files) rfl).1 _)

theorem writeAtomic_all_or_nothing_iff (draws : ℕ → UInt64) (bytes : Bytes)
    (hpath : h.files path = some old) (hold : old.synced = true) :
    AllOrNothing (writeAtomic draws bytes path true h) path old.bytes bytes ↔
      ¬∃ k < 128, FirstFree h.files path.parent draws 0 k ∧
      LosesAfter h.faults h.clock (k + 5) := by
  have hmove : ∀ k, h.files (temporaryPath path.parent draws k) = none →
      path ≠ temporaryPath path.parent draws k ∧
        Places (temporaryPath path.parent draws k) path bytes
          (dropping (temporaryPath path.parent draws k)
            (rename (temporaryPath path.parent draws k) path) : PinProg Unit) := by
    intro k hfree
    have hne : path ≠ temporaryPath path.parent draws k := by
      intro heq
      rw [← heq, hpath] at hfree
      exact Option.some_ne_none old hfree
    exact ⟨hne, (places_rename _ path bytes).dropping hne⟩
  have hkept : ∀ k, h.files (temporaryPath path.parent draws k) = none →
      (put h.files (temporaryPath path.parent draws k) (some ⟨[], false⟩)) path = some old := by
    intro k hfree
    rw [put_of_ne (hmove k hfree).1]
    exact hpath
  constructor
  · rintro hall ⟨k, hk, hfirst, hlives, hclear, hloses⟩
    have hdirs : h.faults (h.clock + 1) = .none := hclear _ (by omega) (by omega)
    obtain ⟨hne, hmoves⟩ := hmove k hfirst.2.1
    refine not_allOrNothing_of_wp ?_ hall
    unfold writeAtomic
    refine wp_enter (fun _ _ => ?_) (fun _ hnot => absurd hdirs hnot) ?_
    · rw [wp_bind]
      have hrun := tempfileAttempts_ok (h := (h.tick h.files).tick h.files) hfirst
        (show k < 0 + 128 by omega) fun t hlo hhi => hclear t
          (by rw [Host.clock_tick, Host.clock_tick] at hlo; omega)
          (by rw [Host.clock_tick, Host.clock_tick] at hhi; omega)
      have hwrite : h.faults (h.clock + 1 + 1 + k + 1) = .none := hclear _ (by omega) (by omega)
      have hsync : h.faults (h.clock + 1 + 1 + k + 1 + 1) = .none := hclear _ (by omega) (by omega)
      rw [show h.clock + (k + 5) = h.clock + 1 + 1 + k + 1 + 2 by omega] at hloses
      exact wp_of_ok hrun
        (wp_fill_lost hmoves hne (put_self _ _ _) (hkept k hfirst.2.1) hwrite hsync hloses)
    · rintro ⟨part, hkill⟩
      exact absurd hkill (hlives part)
  · intro hsafe
    refine allOrNothing_of_wp hold ?_
    unfold writeAtomic
    refine wp_enter (fun hlives hdirs => ?_) (fun _ _ => ⟨hpath, Or.inl hpath⟩) fun _ =>
      Or.inl hpath
    rw [wp_bind]
    refine wp_tempfileAttempts (fun k hfirst hk hclear => ?_)
      (fun t ht => ?_) fun k t hfree ht => ?_
    · obtain ⟨hne, hmoves⟩ := hmove k hfirst.2.1
      refine wp_fill_whole hmoves hne (put_self _ _ _) (hkept k hfirst.2.1) ?_
      rintro ⟨hwrite, hsync, hloses⟩
      have hwrite' : h.faults (h.clock + 1 + 1 + k + 1) = .none := hwrite
      have hsync' : h.faults (h.clock + 1 + 1 + k + 1 + 1) = .none := hsync
      have hloses' : Loses h.faults (h.clock + 1 + 1 + k + 1 + 2) := hloses
      refine hsafe ⟨k, by omega, hfirst, hlives, fun t hlo hhi => ?_, ?_⟩
      · rcases Nat.lt_or_ge t (h.clock + 2) with ht | ht
        · obtain rfl : t = h.clock + 1 := by omega
          exact hdirs
        rcases Nat.lt_or_ge t (h.clock + k + 3) with ht' | ht'
        · exact hclear t ht (by rw [Host.clock_tick, Host.clock_tick]; omega)
        obtain rfl | rfl : t = h.clock + 1 + 1 + k + 1 ∨ t = h.clock + 1 + 1 + k + 1 + 1 := by omega
        · exact hwrite'
        · exact hsync'
      · rw [show h.clock + (k + 5) = h.clock + 1 + 1 + k + 1 + 2 by omega]
        exact hloses'
    · have hpath' : t.files path = some old := by
        rw [ht]
        exact hpath
      exact ⟨fun _ => hpath', Or.inl hpath'⟩
    · refine Or.inl ?_
      rw [ht]
      exact hkept k hfree

end PinCard

theorem writeKeyfileBytes_all_or_nothing_iff (name : String) (bytes : Bytes)
    (hpath : h.files path = some old) (hold : old.synced = true) :
    AllOrNothing (writeKeyfileBytes name path bytes true h) path old.bytes bytes ↔
      ¬(validateKeyfileBytes bytes = .ok () ∧ h.files (path.parent.join name) = none ∧
        LosesAfter h.faults h.clock 5) := by
  rcases hvalid : validateKeyfileBytes bytes with e | _
  · rw [writeKeyfileBytes_invalid hvalid]
    refine ⟨fun _ hbad => ?_, fun _ => allOrNothing_of_wp hold ((wp_fail e _ h).mpr hpath)⟩
    exact absurd hbad.1 (by simp)
  · rw [writeKeyfileBytes_valid hvalid,
      writeThroughTemporary_all_or_nothing_iff _ name bytes hpath hold]
    exact not_congr ⟨fun hloses => ⟨rfl, hloses⟩, fun hloses => hloses.2⟩

/-- **A replacement is all or nothing exactly when the window is not hit.**  For each of the four
writers, called to overwrite a file that is on the disk, and for every script of failures and
crashes. -/
theorem replacement_all_or_nothing_iff (hpath : h.files path = some old)
    (hold : old.synced = true) :
    (∀ temporary c, path ≠ temporary → h.files temporary = some c →
      (AllOrNothing (persistOutput temporary path true h) path old.bytes c.bytes ↔
        ¬(h.fault = .none ∧ Loses h.faults (h.clock + 1)))) ∧
    (∀ name bytes, AllOrNothing (writeKeyfileBytes name path bytes true h) path old.bytes bytes ↔
      ¬(validateKeyfileBytes bytes = .ok () ∧ h.files (path.parent.join name) = none ∧
        LosesAfter h.faults h.clock 5)) ∧
    (∀ name bytes, AllOrNothing (Keycard.writeAtomic name bytes path true h) path old.bytes bytes ↔
      ¬(h.files (path.parent.join name) = none ∧ LosesAfter h.faults h.clock 5)) ∧
    (∀ draws bytes, AllOrNothing (PinCard.writeAtomic draws bytes path true h) path old.bytes
      bytes ↔
      ¬∃ k < 128, PinCard.FirstFree h.files path.parent draws 0 k ∧
        LosesAfter h.faults h.clock (k + 5)) :=
  ⟨fun _ _ hne htemp => persistOutput_all_or_nothing_iff hne htemp hpath hold,
    fun name bytes => writeKeyfileBytes_all_or_nothing_iff name bytes hpath hold,
    fun name bytes => writeThroughTemporary_all_or_nothing_iff _ name bytes hpath hold,
    fun draws bytes => PinCard.writeAtomic_all_or_nothing_iff draws bytes hpath hold⟩

/-- An output and the temporary that is to replace it, both on the disk. -/
def replacing (faults : ℕ → Fault) : Host Path where
  files p := if p = ["out"] then some ⟨[1, 2, 3], true⟩
    else if p = [".tmp"] then some ⟨[4, 5], true⟩ else none
  faults := faults
  reads _ := 1
  clock := 0

/-- Without a failure nothing is lost. -/
theorem replacement_all_or_nothing_quiet :
    AllOrNothing (persistOutput [".tmp"] ["out"] true (replacing fun _ => .none)) ["out"] [1, 2, 3]
      [4, 5] := by
  have hpath : (replacing fun _ => .none).files ["out"] = some ⟨[1, 2, 3], true⟩ := rfl
  refine ((replacement_all_or_nothing_iff hpath rfl).1 [".tmp"] ⟨[4, 5], true⟩
    (by decide) rfl).mpr ?_
  rintro ⟨-, -, -, hmissed⟩
  exact hmissed ⟨rfl, rfl⟩

/-- The rename fails: the call reports it, and nothing is at the path. -/
theorem replacement_lost :
    (persistOutput [".tmp"] ["out"] true
      (replacing fun t => if t = 3 then .fail 0 else .none)).1 = .error (.io .device) ∧
    ¬AllOrNothing (persistOutput [".tmp"] ["out"] true
      (replacing fun t => if t = 3 then .fail 0 else .none)) ["out"] [1, 2, 3] [4, 5] := by
  refine ⟨by decide +kernel, fun hall => ?_⟩
  have hnothing : Found (persistOutput [".tmp"] ["out"] true
      (replacing fun t => if t = 3 then .fail 0 else .none)) ["out"] none := by
    have hfiles : (persistOutput [".tmp"] ["out"] true
        (replacing fun t => if t = 3 then .fail 0 else .none)).2.files ["out"] = none := by
      decide +kernel
    have hend : (persistOutput [".tmp"] ["out"] true
        (replacing fun t => if t = 3 then .fail 0 else .none)).1 = .error (.io .device) := by
      decide +kernel
    rw [Found, hend]
    show none = Option.map _ _
    rw [hfiles, Option.map_none]
  rcases (hall none hnothing).1 with hold | hnew
  · exact absurd hold (by simp)
  · exact absurd hnew (by simp)

end OrIsyVra
