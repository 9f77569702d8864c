import OrIsyVra.Library.ByteString
import OrIsyVra.Library.FaultProgram

/-!
# A file that may lose what was not synced

The storage under a crash-safe file format, and the file calls a program makes on it.

## The disk

A `Disk` is the durable image and the updates issued since the last sync.  The running program sees
the `view`, in which every pending update is applied.  When the power goes, an *arbitrary part* of
the pending updates survives: any collection of sub-ranges of the pending writes, in any order, and
any of the pending length changes (`Disk.CrashImage`).  An update *protects* a range when it cannot
change it; a range that every pending update protects reads the same in the durable image, in the
view and in every crash image (`Disk.slice_view`, `Disk.slice_crashImage`), and that is the only
fact about crash images a proof needs.

## The calls

A `Device` adds the file cursor, a script of what the next calls will do, and a trace on which a
program may note events.  Each call takes the next entry of the script: it may succeed, fail after
any part of its effect, deliver damaged bytes, be cut short by the death of the process (what was
handed to the system stays) or by a power failure.  Past the end of the script every call succeeds.
The rules `wp_seek`, `wp_readExact`, `wp_writeAll`, … say what each call can do; they speak of the
script only through membership, so a proof restricts the faults it allows by a hypothesis on it.
-/

namespace DurableFile

open ByteString FaultProgram

/-! ## Updates -/

/-- A change of a file image. -/
inductive Update where
  | write (off : ℕ) (bs : Bytes)
  | setLen (n : ℕ)
  deriving DecidableEq, Repr

namespace Update

def apply : Update → Bytes → Bytes
  | write off bs, img => overwrite img off bs
  | setLen n, img => resize img n

/-- The update cannot change the `n` bytes from `lo` of an image that has them. -/
def Protects : Update → ℕ → ℕ → Prop
  | write off bs, lo, n => lo + n ≤ off ∨ off + bs.length ≤ lo
  | setLen m, lo, n => lo + n ≤ m

theorem Protects.mono {u : Update} {lo n lo' n' : ℕ} (h : u.Protects lo n) (hlo : lo ≤ lo')
    (hn : lo' + n' ≤ lo + n) : u.Protects lo' n' := by
  cases u with
  | write off bs =>
    simp only [Protects] at h ⊢
    omega
  | setLen m =>
    simp only [Protects] at h ⊢
    omega

theorem length_apply {u : Update} {lo n : ℕ} {img : Bytes} (h : u.Protects lo n)
    (hn : lo + n ≤ img.length) : lo + n ≤ (u.apply img).length := by
  cases u with
  | write off bs => exact hn.trans (le_length_overwrite img bs off)
  | setLen m =>
    rw [apply, length_resize]
    exact h

theorem slice_apply {u : Update} {lo n : ℕ} {img : Bytes} (h : u.Protects lo n)
    (hn : lo + n ≤ img.length) : slice (u.apply img) lo n = slice img lo n := by
  cases u with
  | write off bs => exact slice_overwrite_of_disjoint hn h
  | setLen m => exact slice_resize hn h

/-- A part of an update: a sub-range of a write, or the same length change. -/
inductive Part : Update → Update → Prop where
  | write (off : ℕ) (bs : Bytes) (k n : ℕ) (hk : k ≤ bs.length) :
      Part (.write (off + k) ((bs.drop k).take n)) (.write off bs)
  | setLen (n : ℕ) : Part (.setLen n) (.setLen n)

theorem Part.refl (u : Update) : Part u u := by
  cases u with
  | write off bs =>
    have h := Part.write off bs 0 bs.length (Nat.zero_le _)
    rwa [List.drop_zero, List.take_length] at h
  | setLen n => exact .setLen n

theorem Part.protects {u w : Update} (h : Part u w) {lo n : ℕ} (hw : w.Protects lo n) :
    u.Protects lo n := by
  cases h with
  | write off bs k m hk =>
    simp only [Protects, List.length_take, List.length_drop] at hw ⊢
    omega
  | setLen m => exact hw

end Update

/-- Updates applied in order. -/
def applyAll (us : List Update) (img : Bytes) : Bytes := us.foldl (fun img u => u.apply img) img

@[simp] theorem applyAll_nil (img : Bytes) : applyAll [] img = img := rfl

theorem applyAll_append (us ws : List Update) (img : Bytes) :
    applyAll (us ++ ws) img = applyAll ws (applyAll us img) := List.foldl_append

@[simp] theorem applyAll_snoc (us : List Update) (u : Update) (img : Bytes) :
    applyAll (us ++ [u]) img = u.apply (applyAll us img) := by
  rw [applyAll_append]
  rfl

/-- A range that every update protects survives all of them. -/
theorem slice_applyAll {us : List Update} {lo n : ℕ} (h : ∀ u ∈ us, u.Protects lo n)
    {img : Bytes} (hn : lo + n ≤ img.length) :
    slice (applyAll us img) lo n = slice img lo n ∧ lo + n ≤ (applyAll us img).length := by
  induction us generalizing img with
  | nil => exact ⟨rfl, hn⟩
  | cons u us ih =>
    have hu := h u List.mem_cons_self
    obtain ⟨hs, hl⟩ := ih (fun w hw => h w (List.mem_cons_of_mem u hw)) (Update.length_apply hu hn)
    exact ⟨hs.trans (Update.slice_apply hu hn), hl⟩

/-! ## Disks -/

/-- The durable image, and the updates issued since the last sync, oldest first. -/
structure Disk where
  durable : Bytes
  pending : List Update
  deriving DecidableEq, Repr

namespace Disk

/-- What the running program reads. -/
def view (d : Disk) : Bytes := applyAll d.pending d.durable

/-- Issue an update. -/
def push (d : Disk) (u : Update) : Disk := { d with pending := d.pending ++ [u] }

/-- Issue several updates. -/
def pushAll (d : Disk) (us : List Update) : Disk := { d with pending := d.pending ++ us }

/-- Make everything issued so far durable. -/
def sync (d : Disk) : Disk := ⟨d.view, []⟩

@[simp] theorem view_push (d : Disk) (u : Update) : (d.push u).view = u.apply d.view :=
  applyAll_snoc d.pending u d.durable

@[simp] theorem view_sync (d : Disk) : d.sync.view = d.view := rfl

@[simp] theorem durable_push (d : Disk) (u : Update) : (d.push u).durable = d.durable := rfl

@[simp] theorem pending_push (d : Disk) (u : Update) : (d.push u).pending = d.pending ++ [u] := rfl

@[simp] theorem pushAll_nil (d : Disk) : d.pushAll [] = d := by
  rw [pushAll, List.append_nil]

@[simp] theorem durable_pushAll (d : Disk) (us : List Update) :
    (d.pushAll us).durable = d.durable :=
  rfl

@[simp] theorem pending_pushAll (d : Disk) (us : List Update) :
    (d.pushAll us).pending = d.pending ++ us := rfl

@[simp] theorem view_pushAll (d : Disk) (us : List Update) :
    (d.pushAll us).view = applyAll us d.view := applyAll_append d.pending us d.durable

theorem push_eq_pushAll (d : Disk) (u : Update) : d.push u = d.pushAll [u] := rfl

@[simp] theorem pushAll_pushAll (d : Disk) (us ws : List Update) :
    (d.pushAll us).pushAll ws = d.pushAll (us ++ ws) := by
  rw [pushAll, pushAll, pushAll, List.append_assoc]

@[simp] theorem pushAll_push (d : Disk) (us : List Update) (u : Update) :
    (d.pushAll us).push u = d.pushAll (us ++ [u]) := by
  rw [push_eq_pushAll, pushAll_pushAll]

/-- What a power failure may leave: the durable image with an arbitrary part of the pending updates,
in an arbitrary order. -/
def CrashImage (d : Disk) (img : Bytes) : Prop :=
  ∃ kept : List Update, (∀ u ∈ kept, ∃ w ∈ d.pending, Update.Part u w) ∧
    img = applyAll kept d.durable

variable {d : Disk} {lo n : ℕ} {img : Bytes}

theorem slice_view (h : ∀ u ∈ d.pending, u.Protects lo n) (hn : lo + n ≤ d.durable.length) :
    slice d.view lo n = slice d.durable lo n ∧ lo + n ≤ d.view.length :=
  slice_applyAll h hn

theorem slice_crashImage (h : ∀ u ∈ d.pending, u.Protects lo n)
    (hn : lo + n ≤ d.durable.length) (hc : d.CrashImage img) :
    slice img lo n = slice d.durable lo n ∧ lo + n ≤ img.length := by
  obtain ⟨kept, hkept, rfl⟩ := hc
  refine slice_applyAll (fun u hu => ?_) hn
  obtain ⟨w, hw, hpart⟩ := hkept u hu
  exact hpart.protects (h w hw)

/-- Everything pending may survive. -/
theorem crashImage_view (d : Disk) : d.CrashImage d.view :=
  ⟨d.pending, fun u hu => ⟨u, hu, Update.Part.refl u⟩, rfl⟩

/-- Nothing of it may. -/
theorem crashImage_durable (d : Disk) : d.CrashImage d.durable :=
  ⟨[], fun _ hu => absurd hu List.not_mem_nil, rfl⟩

/-- The second disk comes from the first by issuing updates of a kind, and syncing. -/
inductive Reaches (P : Update → Prop) (d : Disk) : Disk → Prop where
  | refl : Reaches P d d
  | push {d' : Disk} {u : Update} : Reaches P d d' → P u → Reaches P d (d'.push u)
  | sync {d' : Disk} : Reaches P d d' → Reaches P d d'.sync

namespace Reaches

variable {P P' : Update → Prop} {d' d'' : Disk}

theorem pushAll (h : d.Reaches P d') {us : List Update} (hus : ∀ u ∈ us, P u) :
    d.Reaches P (d'.pushAll us) := by
  induction us generalizing d' with
  | nil => rwa [Disk.pushAll_nil]
  | cons u us ih =>
    have hpush := ih (h.push (hus u List.mem_cons_self)) fun w hw =>
      hus w (List.mem_cons_of_mem u hw)
    rwa [Disk.push_eq_pushAll, Disk.pushAll_pushAll] at hpush

theorem mono (h : d.Reaches P d') (hP : ∀ u, P u → P' u) : d.Reaches P' d' := by
  induction h with
  | refl => exact .refl
  | push _ hu ih => exact ih.push (hP _ hu)
  | sync _ ih => exact ih.sync

/-- **A range that every update of the kind protects stays**, durably and in the view. -/
theorem protects (h : d.Reaches P d') (hP : ∀ u, P u → u.Protects lo n)
    (hpending : ∀ u ∈ d.pending, u.Protects lo n) (hlen : lo + n ≤ d.durable.length) :
    slice d'.durable lo n = slice d.durable lo n ∧ lo + n ≤ d'.durable.length ∧
      ∀ u ∈ d'.pending, u.Protects lo n := by
  induction h with
  | refl => exact ⟨rfl, hlen, hpending⟩
  | @push d' u _ hu ih =>
    obtain ⟨hs, hl, hp⟩ := ih
    refine ⟨hs, hl, fun w hw => ?_⟩
    rw [Disk.pending_push] at hw
    rcases List.mem_append.mp hw with hm | hm
    · exact hp w hm
    · rw [List.mem_singleton.mp hm]
      exact hP u hu
  | @sync d' _ ih =>
    obtain ⟨hs, hl, hp⟩ := ih
    obtain ⟨hs', hl'⟩ := slice_applyAll hp hl
    exact ⟨hs'.trans hs, hl', fun w hw => absurd hw List.not_mem_nil⟩

end Reaches

end Disk

/-! ## Devices -/

/-- What the next call on the file does. -/
inductive Fault where
  /-- It succeeds. -/
  | none
  /-- A read succeeds but delivers these bytes; any other call succeeds. -/
  | damaged (bs : Bytes)
  /-- It returns an error; of a write the first `part` bytes have been issued. -/
  | fail (part : ℕ)
  /-- The process dies in it; of a write the first `part` bytes have been issued. -/
  | kill (part : ℕ)
  /-- The power fails in it: the call counts as issued, and nothing of it is durable yet. -/
  | powerLoss
  deriving DecidableEq, Repr

/-- The reasons a file call fails. -/
inductive IoFailure where
  | device
  | unexpectedEof
  | offsetTooLarge
  | notFound
  | alreadyExists
  deriving DecidableEq, Repr

/-- Error types that can carry a failed file call. -/
class IoError (ε : Type) where
  io : IoFailure → ε

/-- A file with its cursor, the script of the calls to come and the trace of noted events. -/
structure Device (τ : Type) where
  disk : Disk
  present : Bool
  cursor : ℕ
  faults : List Fault
  trace : List τ

/-- File offsets are signed 64-bit numbers to the operating system. -/
def maxOffset : ℕ := 2 ^ 63

variable {τ ε α : Type} [IoError ε]

namespace Device

variable {d d' d'' : Device τ} {k k' : Disk}

/-- `d'` comes from `d` by calls that left the disk as `k` and noted nothing. -/
structure Follows (d' d : Device τ) (k : Disk) : Prop where
  disk : d'.disk = k
  trace : d'.trace = d.trace
  faults : d'.faults ⊆ d.faults
  present : d'.present = d.present

theorem Follows.refl (d : Device τ) : d.Follows d d.disk :=
  ⟨rfl, rfl, List.Subset.refl _, rfl⟩

theorem Follows.trans (h' : d''.Follows d' k') (h : d'.Follows d k) : d''.Follows d k' :=
  ⟨h'.disk, h'.trace.trans h.trace, List.Subset.trans h'.faults h.faults,
    h'.present.trans h.present⟩

/-- `d'` comes from `d` by calls that left the disk as `k` and noted the events `es`. -/
structure After (d' d : Device τ) (k : Disk) (es : List τ) : Prop where
  disk : d'.disk = k
  trace : d'.trace = d.trace ++ es
  faults : d'.faults ⊆ d.faults
  present : d'.present = d.present

theorem Follows.after (h : d'.Follows d k) : d'.After d k [] :=
  ⟨h.disk, h.trace.trans (List.append_nil _).symm, h.faults, h.present⟩

theorem After.refl (d : Device τ) : d.After d d.disk [] := (Follows.refl d).after

theorem After.trans {es es' : List τ} (h' : d''.After d' k' es') (h : d'.After d k es) :
    d''.After d k' (es ++ es') :=
  ⟨h'.disk, by rw [h'.trace, h.trace, List.append_assoc], List.Subset.trans h'.faults h.faults,
    h'.present.trans h.present⟩

theorem Follows.trans_after {es : List τ} (h' : d''.Follows d' k') (h : d'.After d k es) :
    d''.After d k' es :=
  ⟨h'.disk, h'.trace.trans h.trace, List.Subset.trans h'.faults h.faults,
    h'.present.trans h.present⟩

/-- Noting one event. -/
theorem After.noted (d : Device τ) (event : τ) :
    Device.After { d with trace := d.trace ++ [event] } d d.disk [event] :=
  ⟨rfl, rfl, List.Subset.refl _, rfl⟩

/-- The script may make a call fail. -/
def MayFail (d : Device τ) : Prop := ∃ part, Fault.fail part ∈ d.faults

/-- The script may stop the program. -/
def MayCrash (d : Device τ) : Prop := (∃ part, Fault.kill part ∈ d.faults) ∨ .powerLoss ∈ d.faults

/-- The script may damage what a read delivers. -/
def MayDamage (d : Device τ) : Prop := ∃ bs, Fault.damaged bs ∈ d.faults

theorem MayFail.mono (h : d'.MayFail) (hf : d'.faults ⊆ d.faults) : d.MayFail :=
  h.imp fun _ hp => hf hp

theorem MayCrash.mono (h : d'.MayCrash) (hf : d'.faults ⊆ d.faults) : d.MayCrash :=
  h.imp (fun h => h.imp fun _ hp => hf hp) fun h => hf h

theorem MayDamage.mono (h : d'.MayDamage) (hf : d'.faults ⊆ d.faults) : d.MayDamage :=
  h.imp fun _ hp => hf hp

end Device

/-! ## Calls -/

/-- A call: what it does when the script lets it, and what it leaves of its effect when it is cut
short. -/
def call (run : Prog (Device τ) ε α) (partly : ℕ → Device τ → Disk)
    (fully : Device τ → Disk) : Prog (Device τ) ε α := fun d =>
  match d.faults with
  | [] => run d
  | f :: fs =>
    let d := { d with faults := fs }
    match f with
    | .none => run d
    | .damaged _ => run d
    | .fail part => (.error (IoError.io .device), { d with disk := partly part d })
    | .kill part => (.crash, { d with disk := partly part d })
    | .powerLoss => (.crash, { d with disk := fully d })

/-- A call that has no effect on the disk when it is cut short. -/
def quietCall (run : Prog (Device τ) ε α) : Prog (Device τ) ε α :=
  call run (fun _ d => d.disk) fun d => d.disk

/-- Open the file, or create it when it must be new. -/
def openFile (createNew : Bool) : Prog (Device τ) ε Unit :=
  quietCall fun d =>
    if createNew then
      if d.present then (.error (IoError.io .alreadyExists), d)
      else (.ok (), { d with present := true, disk := ⟨[], []⟩, cursor := 0 })
    else if d.present then (.ok (), { d with cursor := 0 })
    else (.error (IoError.io .notFound), d)

/-- Move the cursor. -/
def seek (off : ℕ) : Prog (Device τ) ε Unit :=
  quietCall fun d =>
    if off < maxOffset then (.ok (), { d with cursor := off })
    else (.error (IoError.io .offsetTooLarge), d)

/-- What a read of `n` bytes at the cursor does with the bytes it is to deliver. -/
def deliver (n : ℕ) (delivered : Bytes) : Prog (Device τ) ε Bytes := fun d =>
  if d.cursor + n ≤ d.disk.view.length then (.ok delivered, { d with cursor := d.cursor + n })
  else (.error (IoError.io .unexpectedEof), d)

/-- The `n` bytes at the cursor, or an error when the file ends before. -/
def readExact (n : ℕ) : Prog (Device τ) ε Bytes := fun d =>
  match d.faults with
  | .damaged bs :: fs => deliver n (resize bs n) { d with faults := fs }
  | _ => quietCall (deliver n (slice d.disk.view d.cursor n)) d

/-- Write at the cursor. -/
def writeAll (bs : Bytes) : Prog (Device τ) ε Unit :=
  call
    (fun d =>
      if d.cursor + bs.length < maxOffset then
        (.ok (), { d with disk := d.disk.push (.write d.cursor bs), cursor := d.cursor +
          bs.length })
      else (.error (IoError.io .offsetTooLarge), d))
    (fun part d => d.disk.push (.write d.cursor (bs.take part)))
    fun d => d.disk.push (.write d.cursor bs)

/-- Change the length. -/
def setLen (n : ℕ) : Prog (Device τ) ε Unit :=
  call
    (fun d =>
      if n < maxOffset then (.ok (), { d with disk := d.disk.push (.setLen n) })
      else (.error (IoError.io .offsetTooLarge), d))
    (fun part d => if part = 0 then d.disk else d.disk.push (.setLen n))
    fun d => d.disk.push (.setLen n)

/-- The current length. -/
def fileLen : Prog (Device τ) ε ℕ := quietCall fun d => (.ok d.disk.view.length, d)

/-- Wait until everything issued is durable. -/
def syncAll : Prog (Device τ) ε Unit := quietCall fun d => (.ok (), { d with disk := d.disk.sync })

/-- As `syncAll`: the metadata it may skip is not needed to read the file. -/
def syncData : Prog (Device τ) ε Unit := syncAll

/-- Note an event. -/
def note (event : τ) : Prog (Device τ) ε Unit :=
  Prog.modify fun d => { d with trace := d.trace ++ [event] }

/-! ## What a call can do -/

variable {Q : Post (Device τ) ε α} {d : Device τ}

/-- The rule of a call: what it does when it runs, when it fails and when it is cut short. -/
theorem wp_call {run : Prog (Device τ) ε α} {partly : ℕ → Device τ → Disk}
    {fully : Device τ → Disk}
    (hrun : ∀ fs, fs ⊆ d.faults → wp run Q { d with faults := fs })
    (hfail : ∀ fs part, fs ⊆ d.faults → .fail part ∈ d.faults →
      Q.error (IoError.io .device)
        { d with faults := fs, disk := partly part { d with faults := fs } })
    (hkill : ∀ fs part, fs ⊆ d.faults → .kill part ∈ d.faults →
      Q.crash { d with faults := fs, disk := partly part { d with faults := fs } })
    (hpower : ∀ fs, fs ⊆ d.faults → .powerLoss ∈ d.faults →
      Q.crash { d with faults := fs, disk := fully { d with faults := fs } }) :
    wp (call run partly fully) Q d := by
  cases hd : d.faults with
  | nil =>
    have h := hrun [] (List.nil_subset _)
    have hdd : { d with faults := [] } = d := by rw [← hd]
    rw [hdd] at h
    unfold wp call at *
    rw [hd]
    exact h
  | cons f fs =>
    have hsub : fs ⊆ d.faults := by
      rw [hd]
      exact List.subset_cons_self f fs
    have hmem : f ∈ d.faults := by
      rw [hd]
      exact List.mem_cons_self
    have hrun := hrun fs hsub
    unfold wp at hrun
    unfold wp call
    rw [hd]
    cases f with
    | none => exact hrun
    | damaged bs => exact hrun
    | fail part => exact hfail fs part hsub hmem
    | kill part => exact hkill fs part hsub hmem
    | powerLoss => exact hpower fs hsub hmem

/-- The rule of a call without an effect on the disk. -/
theorem wp_quietCall {run : Prog (Device τ) ε α}
    (hrun : ∀ d', d'.Follows d d.disk → d'.cursor = d.cursor → wp run Q d')
    (hfail : ∀ d', d'.Follows d d.disk → d.MayFail → Q.error (IoError.io .device) d')
    (hcrash : ∀ d', d'.Follows d d.disk → d.MayCrash → Q.crash d') :
    wp (quietCall run) Q d :=
  wp_call (fun _ h => hrun _ ⟨rfl, rfl, h, rfl⟩ rfl)
    (fun _ part h hp => hfail _ ⟨rfl, rfl, h, rfl⟩ ⟨part, hp⟩)
    (fun _ part h hp => hcrash _ ⟨rfl, rfl, h, rfl⟩ (Or.inl ⟨part, hp⟩))
    fun _ h hp => hcrash _ ⟨rfl, rfl, h, rfl⟩ (Or.inr hp)

theorem wp_openFile_existing {Q : Post (Device τ) ε Unit}
    (hok : ∀ d', d'.Follows d d.disk → d.present = true → d'.cursor = 0 → Q.ok () d')
    (herror : ∀ d' e, d'.Follows d d.disk → d.MayFail ∨ d.present = false →
      Q.error (IoError.io e) d')
    (hcrash : ∀ d', d'.Follows d d.disk → d.MayCrash → Q.crash d') :
    wp (openFile false) Q d := by
  refine wp_quietCall (fun d' h _ => ?_) (fun d' h hf => herror d' _ h (Or.inl hf)) hcrash
  unfold wp
  simp only [Bool.false_eq_true, if_false]
  by_cases hp : d'.present = true
  · rw [if_pos hp]
    exact hok _ ⟨h.disk, h.trace, h.faults, h.present⟩ (h.present ▸ hp) rfl
  · rw [if_neg hp]
    exact herror _ _ h (Or.inr (h.present ▸ Bool.not_eq_true _ ▸ hp))

/-- A created file is empty. -/
theorem wp_openFile_new {Q : Post (Device τ) ε Unit}
    (hok : ∀ d', d'.Follows { d with present := true } ⟨[], []⟩ → d.present = false →
      d'.cursor = 0 → Q.ok () d')
    (herror : ∀ d' e, d'.Follows d d.disk → d.MayFail ∨ d.present = true →
      Q.error (IoError.io e) d')
    (hcrash : ∀ d', d'.Follows d d.disk → d.MayCrash → Q.crash d') :
    wp (openFile true) Q d := by
  refine wp_quietCall (fun d' h _ => ?_) (fun d' h hf => herror d' _ h (Or.inl hf)) hcrash
  unfold wp
  simp only [if_true]
  by_cases hp : d'.present = true
  · rw [if_pos hp]
    exact herror _ _ h (Or.inr (h.present ▸ hp))
  · rw [if_neg hp]
    exact hok _ ⟨rfl, h.trace, h.faults, rfl⟩ (h.present ▸ Bool.not_eq_true _ ▸ hp) rfl

theorem wp_seek {off : ℕ} {Q : Post (Device τ) ε Unit}
    (hok : ∀ d', d'.Follows d d.disk → d'.cursor = off → off < maxOffset → Q.ok () d')
    (herror : ∀ d' e, d'.Follows d d.disk → d.MayFail ∨ maxOffset ≤ off ∧ e = .offsetTooLarge →
      Q.error (IoError.io e) d')
    (hcrash : ∀ d', d'.Follows d d.disk → d.MayCrash → Q.crash d') :
    wp (seek off) Q d := by
  refine wp_quietCall (fun d' h _ => ?_) (fun d' h hf => herror d' _ h (Or.inl hf)) hcrash
  unfold wp
  dsimp only
  by_cases hoff : off < maxOffset
  · rw [if_pos hoff]
    exact hok _ ⟨h.disk, h.trace, h.faults, h.present⟩ rfl hoff
  · rw [if_neg hoff]
    exact herror _ _ h (Or.inr ⟨by omega, rfl⟩)

/-- A read delivers the bytes of the view at the cursor, unless the script damages them. -/
theorem wp_readExact {n : ℕ} {Q : Post (Device τ) ε Bytes}
    (hok : ∀ d' bs, d'.Follows d d.disk → d'.cursor = d.cursor + n →
      d.cursor + n ≤ d.disk.view.length → bs.length = n →
      bs = slice d.disk.view d.cursor n ∨ d.MayDamage → Q.ok bs d')
    (herror : ∀ d' e, d'.Follows d d.disk →
      d.MayFail ∨ d.disk.view.length < d.cursor + n → Q.error (IoError.io e) d')
    (hcrash : ∀ d', d'.Follows d d.disk → d.MayCrash → Q.crash d') :
    wp (readExact n) Q d := by
  have hrun : ∀ (bs : Bytes) (d' : Device τ), d'.Follows d d.disk → d'.cursor = d.cursor →
      (d.cursor + n ≤ d.disk.view.length → bs.length = n) →
      bs = slice d.disk.view d.cursor n ∨ d.MayDamage → wp (deliver n bs) Q d' := by
    intro bs d' h hcur hlen hbs
    unfold wp deliver
    rw [h.disk, hcur]
    by_cases hn : d.cursor + n ≤ d.disk.view.length
    · rw [if_pos hn]
      exact hok _ bs ⟨rfl, h.trace, h.faults, h.present⟩ rfl hn (hlen hn) hbs
    · rw [if_neg hn]
      exact herror _ _ h (Or.inr (by omega))
  have hquiet : wp (quietCall (deliver n (slice d.disk.view d.cursor n))) Q d :=
    wp_quietCall (fun d' h hcur => hrun _ d' h hcur length_slice (Or.inl rfl))
      (fun d' h hf => herror d' _ h (Or.inl hf)) hcrash
  have hdamaged : ∀ bs fs, d.faults = .damaged bs :: fs →
      wp (deliver n (resize bs n)) Q { d with faults := fs } := by
    intro bs fs hd
    have hsub : fs ⊆ d.faults := by
      rw [hd]
      exact List.subset_cons_self _ fs
    exact hrun (resize bs n) { d with faults := fs } ⟨rfl, rfl, hsub, rfl⟩ rfl
      (fun _ => length_resize bs n) (Or.inr ⟨bs, hd ▸ List.mem_cons_self⟩)
  unfold wp at hquiet hdamaged
  unfold wp readExact
  cases hd : d.faults with
  | nil => exact hquiet
  | cons f fs =>
    cases f with
    | damaged bs => exact hdamaged bs fs hd
    | none => exact hquiet
    | fail part => exact hquiet
    | kill part => exact hquiet
    | powerLoss => exact hquiet

/-- A write, once it is issued, is pending; a failed or interrupted one has issued a prefix. -/
theorem wp_writeAll {bs : Bytes} {Q : Post (Device τ) ε Unit}
    (hok : ∀ d', d'.Follows d (d.disk.push (.write d.cursor bs)) →
      d'.cursor = d.cursor + bs.length → d.cursor + bs.length < maxOffset → Q.ok () d')
    (herror : ∀ d' part e, d'.Follows d (d.disk.push (.write d.cursor (bs.take part))) →
      d.MayFail → Q.error (IoError.io e) d')
    (hlarge : ∀ d' e, d'.Follows d d.disk → maxOffset ≤ d.cursor + bs.length →
      Q.error (IoError.io e) d')
    (hcrash : ∀ d' part, d'.Follows d (d.disk.push (.write d.cursor (bs.take part))) →
      d.MayCrash → (.kill part ∈ d.faults ∨ bs.length ≤ part) → Q.crash d') :
    wp (writeAll bs) Q d := by
  refine wp_call (fun fs hfs => ?_) (fun fs part hfs hp => ?_) (fun fs part hfs hp => ?_)
    fun fs hfs hp => ?_
  · unfold wp
    dsimp only
    by_cases hn : d.cursor + bs.length < maxOffset
    · rw [if_pos hn]
      exact hok _ ⟨rfl, rfl, hfs, rfl⟩ rfl hn
    · rw [if_neg hn]
      exact hlarge _ _ ⟨rfl, rfl, hfs, rfl⟩ (by omega)
  · exact herror _ part _ ⟨rfl, rfl, hfs, rfl⟩ ⟨part, hp⟩
  · exact hcrash _ part ⟨rfl, rfl, hfs, rfl⟩ (Or.inl ⟨part, hp⟩) (Or.inl hp)
  · refine hcrash _ bs.length ⟨?_, rfl, hfs, rfl⟩ (Or.inr hp) (Or.inr le_rfl)
    rw [List.take_length]

theorem wp_setLen {n : ℕ} {Q : Post (Device τ) ε Unit}
    (hok : ∀ d', d'.Follows d (d.disk.push (.setLen n)) → d'.cursor = d.cursor → n < maxOffset →
      Q.ok () d')
    (herror : ∀ d' e, d'.Follows d d.disk ∨ d'.Follows d (d.disk.push (.setLen n)) →
      d.MayFail ∨ maxOffset ≤ n → Q.error (IoError.io e) d')
    (hcrash : ∀ d', d'.Follows d d.disk ∨ d'.Follows d (d.disk.push (.setLen n)) →
      d.MayCrash → Q.crash d') :
    wp (setLen n) Q d := by
  have hpartly : ∀ (fs : List Fault) (part : ℕ), fs ⊆ d.faults →
      ({ d with
        faults := fs
        disk := if part = 0 then d.disk else d.disk.push (.setLen n) } :
          Device τ).Follows d d.disk ∨
      ({ d with
        faults := fs
        disk := if part = 0 then d.disk else d.disk.push (.setLen n) } : Device τ).Follows d
          (d.disk.push (.setLen n)) := by
    intro fs part hfs
    by_cases hp : part = 0
    · exact Or.inl ⟨if_pos hp, rfl, hfs, rfl⟩
    · exact Or.inr ⟨if_neg hp, rfl, hfs, rfl⟩
  refine wp_call (fun fs hfs => ?_) (fun fs part hfs hp => ?_) (fun fs part hfs hp => ?_)
    fun fs hfs hp => ?_
  · unfold wp
    dsimp only
    by_cases hn : n < maxOffset
    · rw [if_pos hn]
      exact hok _ ⟨rfl, rfl, hfs, rfl⟩ rfl hn
    · rw [if_neg hn]
      exact herror _ _ (Or.inl ⟨rfl, rfl, hfs, rfl⟩) (Or.inr (by omega))
  · exact herror _ _ (hpartly fs part hfs) (Or.inl ⟨part, hp⟩)
  · exact hcrash _ (hpartly fs part hfs) (Or.inl ⟨part, hp⟩)
  · exact hcrash _ (Or.inr ⟨rfl, rfl, hfs, rfl⟩) (Or.inr hp)

theorem wp_fileLen {Q : Post (Device τ) ε ℕ}
    (hok : ∀ d', d'.Follows d d.disk → d'.cursor = d.cursor → Q.ok d.disk.view.length d')
    (herror : ∀ d' e, d'.Follows d d.disk → d.MayFail → Q.error (IoError.io e) d')
    (hcrash : ∀ d', d'.Follows d d.disk → d.MayCrash → Q.crash d') :
    wp fileLen Q d := by
  refine wp_quietCall (fun d' h hcur => ?_) (fun d' h hf => herror d' _ h hf) hcrash
  unfold wp
  show Q.ok d'.disk.view.length d'
  rw [h.disk]
  exact hok d' h hcur

theorem wp_syncAll {Q : Post (Device τ) ε Unit}
    (hok : ∀ d', d'.Follows d d.disk.sync → d'.cursor = d.cursor → Q.ok () d')
    (herror : ∀ d' e, d'.Follows d d.disk → d.MayFail → Q.error (IoError.io e) d')
    (hcrash : ∀ d', d'.Follows d d.disk → d.MayCrash → Q.crash d') :
    wp syncAll Q d := by
  refine wp_quietCall (fun d' h hcur => ?_) (fun d' h hf => herror d' _ h hf) hcrash
  unfold wp
  refine hok _ ⟨?_, h.trace, h.faults, h.present⟩ hcur
  show d'.disk.sync = _
  rw [h.disk]

omit [IoError ε] in
@[simp] theorem wp_note (event : τ) (Q : Post (Device τ) ε Unit) (d : Device τ) :
    wp (note event) Q d ↔ Q.ok () { d with trace := d.trace ++ [event] } := wp_modify _ Q d

/-! ## Calls that only read -/

section Reads

variable {d : Device τ}

theorem leaves_quietCall {run : Prog (Device τ) ε α} (h : Leaves Device.disk run) :
    Leaves Device.disk (quietCall run) := by
  intro d
  unfold quietCall call
  split
  · exact h d
  next f fs _ =>
    cases f with
    | none => exact h _
    | damaged bs => exact h _
    | fail part => rfl
    | kill part => rfl
    | powerLoss => rfl

theorem leaves_deliver (n : ℕ) (delivered : Bytes) :
    Leaves Device.disk (deliver n delivered : Prog (Device τ) ε Bytes) := by
  intro d
  unfold deliver
  split <;> rfl

theorem leaves_readExact (n : ℕ) : Leaves Device.disk (readExact n : Prog (Device τ) ε Bytes) := by
  intro d
  unfold readExact
  split
  · exact leaves_deliver n _ _
  · exact leaves_quietCall (leaves_deliver n _) d

/-- The next call reaches the disk, if it is a change of the length to `n`. -/
def reachesLen : List Fault → ℕ → Bool
  | .fail part :: _, _ => part != 0
  | .kill part :: _, _ => part != 0
  | .powerLoss :: _, _ => true
  | _, n => decide (n < maxOffset)

/-- What a change of the length leaves on the disk. -/
theorem disk_setLen (d : Device τ) (n : ℕ) :
    (setLen n d : Outcome ε Unit × Device τ).2.disk =
      if reachesLen d.faults n then d.disk.push (.setLen n) else d.disk := by
  rcases d with ⟨disk, present, cursor, faults, trace⟩
  have hruns : ∀ fs : List Fault,
      (if n < maxOffset then
          ((.ok (), ⟨disk.push (.setLen n), present, cursor, fs, trace⟩) :
            Outcome ε Unit × Device τ)
        else (.error (IoError.io .offsetTooLarge), ⟨disk, present, cursor, fs, trace⟩)).2.disk =
      if decide (n < maxOffset) then disk.push (.setLen n) else disk := by
    intro fs
    by_cases hn : n < maxOffset <;> simp [hn]
  have hpartly : ∀ part : ℕ, (if part = 0 then disk else disk.push (.setLen n)) =
      if part != 0 then disk.push (.setLen n) else disk := by
    intro part
    by_cases hpart : part = 0 <;> simp [hpart]
  cases faults with
  | nil => exact hruns []
  | cons f fs =>
    cases f with
    | none => exact hruns fs
    | damaged bs => exact hruns fs
    | fail part => exact hpartly part
    | kill part => exact hpartly part
    | powerLoss => rfl

theorem view_syncAll (d : Device τ) :
    (syncAll d : Outcome ε Unit × Device τ).2.disk.view = d.disk.view := by
  unfold syncAll quietCall call
  split
  · rfl
  next f fs _ => cases f <;> rfl

end Reads

end DurableFile
