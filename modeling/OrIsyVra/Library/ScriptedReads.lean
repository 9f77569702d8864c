import OrIsyVra.Library.DurableFile

/-!
# What a script lets a program read

A `Reading` is what a program that only reads comes to, said without the program: it uses up a
script call by call and takes spans of an image.  Of an error it says only that there is one (what
was to be read is *lost*).  `ReadsAs img P p r R` says that on a device with that image the program
`p` does what the reading `r` says: the same ending, the same calls left in the script, the file
untouched, and `R` of the two results and the device after them.

The rules follow the program: one for each call, one for each construct.
-/

namespace DurableFile

open ByteString FaultProgram

/-- What the calls of a script let one see. -/
abbrev Reading := Prog (List Fault) Unit

namespace Reading

variable {ε α : Type}

/-- One call that delivers nothing. -/
def turn : Reading Unit
  | [] => (.ok (), [])
  | .none :: fs => (.ok (), fs)
  | .damaged _ :: fs => (.ok (), fs)
  | .fail _ :: fs => (.error (), fs)
  | .kill _ :: fs => (.crash, fs)
  | .powerLoss :: fs => (.crash, fs)

/-- One call that moves to an offset. -/
def moveTo (off : ℕ) : Reading Unit := do
  turn
  if off < maxOffset then pure () else Prog.fail ()

/-- One call that reads `n` bytes of the image. -/
def span (img : Bytes) (lo n : ℕ) : Reading Bytes := fun fs =>
  let delivered := match fs with
    | .damaged bs :: _ => resize bs n
    | _ => slice img lo n
  (do
    turn
    if lo + n ≤ img.length then pure delivered else Prog.fail () : Reading Bytes) fs

/-- No call: what has been read is looked at. -/
def judge : Except ε α → Reading α
  | .ok a => pure a
  | .error _ => Prog.fail ()

/-- What is lost is taken for absent. -/
def orNone (r : Reading α) : Reading (Option α) := do
  match ← (Prog.attempt r : Reading (Except Unit α)) with
  | .ok a => pure (some a)
  | .error _ => pure none

end Reading

variable {τ ε α β γ δ : Type}

/-- How a program has ended, and what the reading says of it. -/
inductive Matches (d : Device τ) (R : α → β → Device τ → Prop) :
    Outcome ε α × Device τ → Outcome Unit β × List Fault → Prop where
  | ok {a : α} {b : β} {d' : Device τ} : d'.disk = d.disk → R a b d' →
      Matches d R (.ok a, d') (.ok b, d'.faults)
  | lost {e : ε} {d' : Device τ} : d'.disk = d.disk → Matches d R (.error e, d')
      (.error (), d'.faults)
  | dead {d' : Device τ} : d'.disk = d.disk → Matches d R (.crash, d') (.crash, d'.faults)

namespace Matches

variable {d d' : Device τ} {R R' : α → β → Device τ → Prop} {x : Outcome ε α × Device τ}
  {y : Outcome Unit β × List Fault}

theorem mono (h : Matches d R x y) (hR : ∀ a b d, R a b d → R' a b d) : Matches d R' x y := by
  cases h with
  | ok hdisk hab => exact .ok hdisk (hR _ _ _ hab)
  | lost hdisk => exact .lost hdisk
  | dead hdisk => exact .dead hdisk

/-- What has come before has left the file alone. -/
theorem behind (h : Matches d' R x y) (hd : d'.disk = d.disk) : Matches d R x y := by
  cases h with
  | ok hdisk hab => exact .ok (hdisk.trans hd) hab
  | lost hdisk => exact .lost (hdisk.trans hd)
  | dead hdisk => exact .dead (hdisk.trans hd)

end Matches

/-- On a device with the image the program does what the reading says. -/
def ReadsAs (img : Bytes) (P : Device τ → Prop) (p : Prog (Device τ) ε α) (r : Reading β)
    (R : α → β → Device τ → Prop) : Prop :=
  ∀ d, d.disk.view = img → P d → Matches d R (p d) (r d.faults)

namespace ReadsAs

variable {img : Bytes} {P P' : Device τ → Prop} {p : Prog (Device τ) ε α} {r : Reading β}
  {R R' : α → β → Device τ → Prop} {S : γ → δ → Device τ → Prop}

theorem mono (h : ReadsAs img P p r R) (hP : ∀ d, P' d → P d) (hR : ∀ a b d, R a b d → R' a b d) :
    ReadsAs img P' p r R' :=
  fun d hd hPd => (h d hd (hP d hPd)).mono hR

theorem pure {a : α} {b : β} (h : ∀ d, P d → R a b d) :
    ReadsAs img P (Pure.pure a : Prog (Device τ) ε α) (Pure.pure b) R :=
  fun d _ hP => .ok rfl (h d hP)

theorem fail (e : ε) : ReadsAs img P (Prog.fail e) (Prog.fail ()) R := fun _ _ _ => .lost rfl

theorem bind {f : α → Prog (Device τ) ε γ} {g : β → Reading δ} (h : ReadsAs img P p r R)
    (hf : ∀ a b, ReadsAs img (R a b) (f a) (g b) S) : ReadsAs img P (p >>= f) (r >>= g) S := by
  intro d hd hP
  have hends := h d hd hP
  rcases hp : p d with ⟨o, d'⟩
  rcases hr : r d.faults with ⟨o', fs⟩
  rw [hp, hr] at hends
  cases hends with
  | ok hdisk hab =>
    rw [bind_ok hp, bind_ok hr]
    exact (hf _ _ d' (hdisk ▸ hd) hab).behind hdisk
  | lost hdisk =>
    rw [bind_error hp, bind_error hr]
    exact .lost hdisk
  | dead hdisk =>
    rw [bind_crash hp, bind_crash hr]
    exact .dead hdisk

/-- A fact that holds before is at hand. -/
theorem given {c : Prop} (h : c → ReadsAs img P p r R) : ReadsAs img (fun d => c ∧ P d) p r R :=
  fun d hd hP => h hP.1 d hd hP.2

theorem judge (x : Except ε α) :
    ReadsAs img P (Prog.ofExcept x) (Reading.judge x) fun a b d => a = b ∧ x = .ok a ∧ P d := by
  intro d _ hP
  cases x with
  | ok a => exact .ok rfl ⟨rfl, rfl, hP⟩
  | error e => exact .lost rfl

theorem ite {c c' : Prop} [Decidable c] [Decidable c'] {q : Prog (Device τ) ε α} {s : Reading β}
    (hc : c ↔ c') (h : c → ReadsAs img P p r R) (h' : ¬c → ReadsAs img P q s R) :
    ReadsAs img P (if c then p else q) (if c' then r else s) R := by
  by_cases htest : c
  · rw [if_pos htest, if_pos (hc.mp htest)]
    exact h htest
  · rw [if_neg htest, if_neg fun h => htest (hc.mpr h)]
    exact h' htest

/-- An error that is caught is a loss that is taken for absence. -/
theorem attempt {f : Except ε α → γ} {S : γ → Option β → Device τ → Prop} (h : ReadsAs img P p r R)
    (hok : ∀ a b d, R a b d → S (f (.ok a)) (some b) d) (herror : ∀ e d, S (f (.error e)) none d) :
    ReadsAs img P ((do let x ← Prog.attempt p; Pure.pure (f x)) : Prog (Device τ) ε γ)
      r.orNone S := by
  intro d hd hP
  have hends := h d hd hP
  rcases hp : p d with ⟨o, d'⟩
  rcases hr : r d.faults with ⟨o', fs⟩
  rw [hp, hr] at hends
  unfold Reading.orNone
  cases hends with
  | ok hdisk hab =>
    rw [bind_ok (attempt_ok hp), bind_ok (attempt_ok hr)]
    exact .ok hdisk (hok _ _ _ hab)
  | lost hdisk =>
    rw [bind_ok (attempt_error hp), bind_ok (attempt_error hr)]
    exact .ok hdisk (herror _ _)
  | dead hdisk =>
    rw [bind_crash (attempt_crash hp), bind_crash (attempt_crash hr)]
    exact .dead hdisk

/-! ## The calls -/

variable [IoError ε]

/-- A call without an effect on the disk takes a turn, and then does what it does. -/
theorem quietCall {run : Prog (Device τ) ε α} {g : Unit → Reading β}
    (h : ∀ d fs, d.disk.view = img → P d → Matches d R (run { d with faults := fs }) (g () fs)) :
    ReadsAs img P (DurableFile.quietCall run) (Reading.turn >>= g) R := by
  intro d hd hP
  rcases d with ⟨disk, present, cursor, faults, trace⟩
  cases faults with
  | nil => exact h ⟨disk, present, cursor, [], trace⟩ [] hd hP
  | cons f fs =>
    cases f with
    | none => exact h _ fs hd hP
    | damaged bs => exact h _ fs hd hP
    | fail part => exact .lost rfl
    | kill part => exact .dead rfl
    | powerLoss => exact .dead rfl

theorem openFile : ReadsAs img (fun d : Device τ => d.present = true)
    (openFile false : Prog (Device τ) ε Unit) Reading.turn fun _ _ d => d.cursor = 0 := by
  have hturn : Reading.turn = Reading.turn >>= fun _ => Pure.pure () :=
    (bind_pure Reading.turn).symm
  rw [hturn]
  refine quietCall fun d fs _ hpresent => ?_
  rw [if_neg (by decide), if_pos hpresent]
  exact .ok rfl rfl

theorem seek (off : ℕ) : ReadsAs img P (DurableFile.seek off : Prog (Device τ) ε Unit)
    (Reading.moveTo off) fun _ _ d => d.cursor = off := by
  refine quietCall fun d fs _ _ => ?_
  by_cases hoff : off < maxOffset
  · rw [if_pos hoff, if_pos hoff]
    exact .ok rfl rfl
  · rw [if_neg hoff, if_neg hoff]
    exact .lost rfl

theorem readExact (lo n : ℕ) : ReadsAs img (fun d : Device τ => d.cursor = lo)
    (DurableFile.readExact n : Prog (Device τ) ε Bytes) (Reading.span img lo n)
    fun a b d => a = b ∧ d.cursor = lo + n := by
  have hdeliver : ∀ (delivered : Bytes) (d : Device τ) (fs : List Fault), d.disk.view = img →
      d.cursor = lo → Matches d (fun a b d => a = b ∧ d.cursor = lo + n)
        ((deliver n delivered : Prog (Device τ) ε Bytes) { d with faults := fs })
        ((if lo + n ≤ img.length then Pure.pure delivered else Prog.fail () :
          Reading Bytes) fs) := by
    intro delivered d fs hd hcursor
    unfold deliver
    rw [hd, hcursor]
    by_cases hn : lo + n ≤ img.length
    · rw [if_pos hn, if_pos hn]
      exact .ok rfl ⟨rfl, rfl⟩
    · rw [if_neg hn, if_neg hn]
      exact .lost rfl
  have hquiet := quietCall (ε := ε) (P := fun d : Device τ => d.cursor = lo)
    (g := fun _ => if lo + n ≤ img.length then Pure.pure (slice img lo n) else Prog.fail ())
    fun d fs hd hcursor => hdeliver (slice img lo n) d fs hd hcursor
  intro d hd hcursor
  have hq := hquiet d hd hcursor
  rw [← hd, ← hcursor] at hq
  rw [← hd, ← hcursor]
  have hdamaged := fun bs fs => hdeliver (resize bs n) d fs hd hcursor
  rw [← hd, ← hcursor] at hdamaged
  unfold DurableFile.readExact Reading.span
  rcases d with ⟨disk, present, cursor, faults, trace⟩
  cases faults with
  | nil => exact hq
  | cons f fs =>
    cases f with
    | damaged bs => exact hdamaged bs fs
    | none => exact hq
    | fail part => exact hq
    | kill part => exact hq
    | powerLoss => exact hq

theorem fileLen : ReadsAs img P (DurableFile.fileLen : Prog (Device τ) ε ℕ) Reading.turn
    fun n _ _ => n = img.length := by
  have hturn : Reading.turn = Reading.turn >>= fun _ => Pure.pure () :=
    (bind_pure Reading.turn).symm
  rw [hturn]
  refine quietCall fun d fs hd _ => ?_
  rw [← hd]
  exact .ok rfl rfl

end ReadsAs

/-! ## Scripts without damage -/

/-- No read delivers anything but what is there. -/
def Undamaged (fs : List Fault) : Prop := ∀ bs, Fault.damaged bs ∉ fs

/-- The next `n` calls work. -/
def Works (fs : List Fault) (n : ℕ) : Prop := ∀ f ∈ fs.take n, f = .none

section

variable {fs fs' : List Fault} {img : Bytes}

theorem Undamaged.drop (h : Undamaged fs) (n : ℕ) : Undamaged (fs.drop n) :=
  fun bs hbs => h bs (List.mem_of_mem_drop hbs)

theorem works_zero (fs : List Fault) : Works fs 0 := fun _ hf => absurd hf List.not_mem_nil

theorem works_add {m n : ℕ} : Works fs (m + n) ↔ Works fs m ∧ Works (fs.drop m) n := by
  unfold Works
  rw [List.take_add]
  exact List.forall_mem_append

namespace Reading

theorem turn_eq_ok (h : Undamaged fs) : turn fs = (.ok (), fs') ↔ Works fs 1 ∧ fs' = fs.drop 1 := by
  cases fs with
  | nil =>
    constructor
    · intro hturn
      exact ⟨fun _ hf => absurd hf List.not_mem_nil, (Prod.mk.inj hturn).2.symm⟩
    · rintro ⟨-, rfl⟩
      rfl
  | cons f rest =>
    have hworks : Works (f :: rest) 1 ↔ f = .none := by simp [Works]
    rw [hworks]
    cases f with
    | damaged bs => exact absurd List.mem_cons_self (h bs)
    | none =>
      constructor
      · exact fun hturn => ⟨rfl, (Prod.mk.inj hturn).2.symm⟩
      · rintro ⟨-, rfl⟩
        rfl
    | fail part => exact ⟨fun hturn => absurd hturn fail_ne_ok, fun hf => absurd hf.1 (by simp)⟩
    | kill part =>
      exact ⟨fun hturn => absurd hturn (by simp [turn]), fun hf => absurd hf.1 (by simp)⟩
    | powerLoss =>
      exact ⟨fun hturn => absurd hturn (by simp [turn]), fun hf => absurd hf.1 (by simp)⟩

theorem moveTo_eq_ok (h : Undamaged fs) {off : ℕ} :
    moveTo off fs = (.ok (), fs') ↔ off < maxOffset ∧ Works fs 1 ∧ fs' = fs.drop 1 := by
  unfold moveTo
  rw [bind_eq_ok]
  constructor
  · rintro ⟨_, fs₁, hturn, hoff⟩
    split at hoff
    · next hlt =>
      obtain ⟨hworks, rfl⟩ := (turn_eq_ok h).mp hturn
      exact ⟨hlt, hworks, (pure_eq_ok.mp hoff).2.symm⟩
    · exact absurd hoff fail_ne_ok
  · rintro ⟨hlt, hworks, rfl⟩
    exact ⟨(), _, (turn_eq_ok h).mpr ⟨hworks, rfl⟩, by rw [if_pos hlt]; rfl⟩

theorem span_eq_ok (h : Undamaged fs) {lo n : ℕ} {bs : Bytes} :
    span img lo n fs = (.ok bs, fs') ↔
      lo + n ≤ img.length ∧ bs = slice img lo n ∧ Works fs 1 ∧ fs' = fs.drop 1 := by
  have hspan : span img lo n fs = (do
      turn
      if lo + n ≤ img.length then pure (slice img lo n) else Prog.fail () : Reading Bytes) fs := by
    unfold span
    cases fs with
    | nil => rfl
    | cons f rest =>
      cases f with
      | damaged bs => exact absurd List.mem_cons_self (h bs)
      | none => rfl
      | fail part => rfl
      | kill part => rfl
      | powerLoss => rfl
  rw [hspan, bind_eq_ok]
  constructor
  · rintro ⟨_, fs₁, hturn, hread⟩
    split at hread
    · next hfits =>
      obtain ⟨hworks, rfl⟩ := (turn_eq_ok h).mp hturn
      obtain ⟨rfl, rfl⟩ := pure_eq_ok.mp hread
      exact ⟨hfits, rfl, hworks, rfl⟩
    · exact absurd hread fail_ne_ok
  · rintro ⟨hfits, rfl, hworks, rfl⟩
    exact ⟨(), _, (turn_eq_ok h).mpr ⟨hworks, rfl⟩, by rw [if_pos hfits]; rfl⟩

theorem judge_eq_ok {ε α : Type} {x : Except ε α} {a : α} :
    judge x fs = (.ok a, fs') ↔ x = .ok a ∧ fs = fs' := by
  cases x with
  | ok b => exact pure_eq_ok.trans ⟨fun h => ⟨congrArg _ h.1, h.2⟩, fun h =>
    ⟨Except.ok.inj h.1, h.2⟩⟩
  | error e => exact ⟨fun h => absurd h fail_ne_ok, fun h => absurd h.1 (by simp)⟩

end Reading

end

end DurableFile
