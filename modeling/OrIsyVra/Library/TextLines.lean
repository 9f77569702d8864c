import Mathlib.Data.List.Basic

/-!
# Lines of text

A text is a list of characters.  `lines` cuts it behind every line feed, and takes the line feed,
and a carriage return in front of it, off; `splitOnce` cuts a line at the first separator.  A line
that was written is read back when it has no line feed and does not end in a carriage return
(`lines_append`), and so is what was put in front of and behind a separator (`splitOnce_append`).

`beginsLine` asks for the first characters of the lines without cutting the text, and can be asked
of a part of it (`beginsLine_take`): what no line of a text begins with, no line of a part of it
begins with.
-/

namespace TextLines

abbrev Text := List Char

/-- The pieces of a text, each with the line feed that ends it. -/
def splitInclusive : Text → List Text
  | [] => []
  | c :: cs =>
    if c = '\n' then [c] :: splitInclusive cs
    else
      match splitInclusive cs with
      | [] => [[c]]
      | line :: rest => (c :: line) :: rest

/-- A piece without its line ending. -/
def stripEnding (line : Text) : Text :=
  if line.getLast? = some '\n' then
    if line.dropLast.getLast? = some '\r' then line.dropLast.dropLast else line.dropLast
  else line

def lines (text : Text) : List Text := (splitInclusive text).map stripEnding

def splitOnce (separator : Char) : Text → Option (Text × Text)
  | [] => none
  | c :: cs =>
    if c = separator then some ([], cs)
    else (splitOnce separator cs).map fun parts => (c :: parts.1, parts.2)

theorem splitInclusive_append {line : Text} (h : '\n' ∉ line) (rest : Text) :
    splitInclusive (line ++ '\n' :: rest) = (line ++ ['\n']) :: splitInclusive rest := by
  induction line with
  | nil => exact if_pos rfl
  | cons c line ih =>
    have hc : ¬c = '\n' := fun hc => h (hc ▸ List.mem_cons_self)
    have hline : '\n' ∉ line := fun hmem => h (List.mem_cons_of_mem _ hmem)
    rw [List.cons_append, splitInclusive, if_neg hc, ih hline]
    rfl

theorem stripEnding_append {line : Text} (h : line.getLast? ≠ some '\r') :
    stripEnding (line ++ ['\n']) = line := by
  rw [stripEnding, if_pos (by simp), List.dropLast_concat, if_neg h]

/-- **A written line is read back.** -/
theorem lines_append {line : Text} (hfeed : '\n' ∉ line) (hreturn : line.getLast? ≠ some '\r')
    (rest : Text) : lines (line ++ '\n' :: rest) = line :: lines rest := by
  rw [lines, splitInclusive_append hfeed, List.map_cons, stripEnding_append hreturn]
  rfl

/-- All of them. -/
theorem lines_flatMap {written : List Text}
    (h : ∀ line ∈ written, '\n' ∉ line ∧ line.getLast? ≠ some '\r') :
    lines (written.flatMap fun line => line ++ ['\n']) = written := by
  induction written with
  | nil => rfl
  | cons line rest ih =>
    obtain ⟨⟨hfeed, hreturn⟩, hrest⟩ := List.forall_mem_cons.mp h
    rw [List.flatMap_cons, List.append_assoc, List.singleton_append, lines_append hfeed hreturn,
      ih hrest]

/-- **A line splits at its first separator.** -/
theorem splitOnce_append {separator : Char} {key : Text} (h : separator ∉ key) (value : Text) :
    splitOnce separator (key ++ separator :: value) = some (key, value) := by
  induction key with
  | nil => exact if_pos rfl
  | cons c key ih =>
    have hc : ¬c = separator := fun hc => h (hc ▸ List.mem_cons_self)
    have hkey : separator ∉ key := fun hmem => h (List.mem_cons_of_mem _ hmem)
    rw [List.cons_append, splitOnce, if_neg hc, ih hkey]
    rfl

theorem mem_of_splitOnce {separator : Char} {text key value : Text}
    (h : splitOnce separator text = some (key, value)) : ∀ c ∈ value, c ∈ text := by
  induction text generalizing key with
  | nil => exact absurd h (by simp [splitOnce])
  | cons c cs ih =>
    rw [splitOnce] at h
    split at h
    · obtain ⟨-, rfl⟩ := Prod.mk.inj (Option.some.inj h)
      exact fun d hd => List.mem_cons_of_mem _ hd
    · obtain ⟨⟨key', value'⟩, hrest, hparts⟩ := Option.map_eq_some_iff.mp h
      obtain ⟨-, rfl⟩ := Prod.mk.inj hparts
      exact fun d hd => List.mem_cons_of_mem _ (ih hrest d hd)

/-! ## The characters of a line -/

/-- A piece has a line feed at its end, or none. -/
theorem splitInclusive_shape (text : Text) :
    ∀ piece ∈ splitInclusive text, ∃ line, '\n' ∉ line ∧
    (piece = line ∨ piece = line ++ ['\n']) := by
  induction text with
  | nil => exact fun _ h => absurd h List.not_mem_nil
  | cons c cs ih =>
    intro piece hpiece
    rw [splitInclusive] at hpiece
    split at hpiece
    · next hfeed =>
      rcases List.mem_cons.mp hpiece with rfl | hpiece
      · exact ⟨[], List.not_mem_nil, Or.inr (by rw [hfeed, List.nil_append])⟩
      · exact ih piece hpiece
    next hfeed =>
    rcases hrest : splitInclusive cs with _ | ⟨first, rest⟩ <;> rw [hrest] at hpiece ih
    · rw [List.mem_singleton.mp hpiece]
      exact ⟨[c], fun hmem => hfeed (List.mem_singleton.mp hmem).symm, Or.inl rfl⟩
    rcases List.mem_cons.mp hpiece with rfl | hpiece
    · obtain ⟨line, hline, hfirst⟩ := ih first List.mem_cons_self
      refine ⟨c :: line, fun hmem => ?_, hfirst.imp (fun h => by rw [h]) fun h => by
        rw [h, List.cons_append]⟩
      rcases List.mem_cons.mp hmem with h | h
      · exact hfeed h.symm
      · exact hline h
    · exact ih piece (List.mem_cons_of_mem _ hpiece)

/-- **A line has no line feed.** -/
theorem feed_not_mem_lines {text line : Text} (h : line ∈ lines text) : '\n' ∉ line := by
  obtain ⟨piece, hpiece, rfl⟩ := List.mem_map.mp h
  obtain ⟨line, hline, rfl | rfl⟩ := splitInclusive_shape text piece hpiece
  · unfold stripEnding
    split
    · split
      · exact fun hmem => hline (List.dropLast_subset _ (List.dropLast_subset _ hmem))
      · exact fun hmem => hline (List.dropLast_subset _ hmem)
    · exact hline
  · rw [stripEnding, if_pos (by simp), List.dropLast_concat]
    split
    · exact fun hmem => hline (List.dropLast_subset _ hmem)
    · exact hline

/-! ## The first characters of the lines -/

/-- Some line begins with the character; the flag says whether the text stands at the begin of a
line. -/
def beginsLine (d : Char) : Bool → Text → Bool
  | _, [] => false
  | first, c :: cs => first && c == d || beginsLine d (c == '\n') cs

theorem head?_of_dropLast {line : Text} {d : Char} (h : line.dropLast.head? = some d) :
    line.head? = some d := by
  match line with
  | [] => exact h
  | [_] => exact absurd h (by simp)
  | _ :: _ :: _ => exact h

theorem head?_of_stripEnding {piece : Text} {d : Char} (h : (stripEnding piece).head? = some d) :
    piece.head? = some d := by
  unfold stripEnding at h
  split at h
  · split at h
    · exact head?_of_dropLast (head?_of_dropLast h)
    · exact head?_of_dropLast h
  · exact h

theorem head?_ne_of_splitInclusive {d : Char} {first : Bool} {text : Text}
    (h : beginsLine d first text = false) :
    (first = true → ∀ piece ∈ splitInclusive text, piece.head? ≠ some d) ∧
      ∀ piece ∈ (splitInclusive text).tail, piece.head? ≠ some d := by
  induction text generalizing first with
  | nil => exact ⟨fun _ _ h => absurd h List.not_mem_nil, fun _ h => absurd h List.not_mem_nil⟩
  | cons c cs ih =>
    rw [beginsLine, Bool.or_eq_false_iff] at h
    obtain ⟨hhead, hrest⟩ := h
    obtain ⟨hall, htail⟩ := ih hrest
    have hc : first = true → c ≠ d := by
      rintro rfl
      rwa [Bool.true_and, beq_eq_false_iff_ne] at hhead
    rw [splitInclusive]
    split
    · next hfeed =>
      have hpieces := hall (by rw [hfeed]; rfl)
      refine ⟨fun hfirst piece hpiece => ?_, hpieces⟩
      rcases List.mem_cons.mp hpiece with rfl | hpiece
      · exact fun heq => hc hfirst (Option.some.inj heq)
      · exact hpieces piece hpiece
    · rcases hrest : splitInclusive cs with _ | ⟨line, rest⟩ <;> rw [hrest] at htail
      · refine ⟨fun hfirst piece hpiece => ?_, fun _ h => absurd h List.not_mem_nil⟩
        rw [List.mem_singleton.mp hpiece]
        exact fun heq => hc hfirst (Option.some.inj heq)
      · refine ⟨fun hfirst piece hpiece => ?_, htail⟩
        rcases List.mem_cons.mp hpiece with rfl | hpiece
        · exact fun heq => hc hfirst (Option.some.inj heq)
        · exact htail piece hpiece

/-- **No line begins with the character.** -/
theorem head?_ne_of_lines {d : Char} {text line : Text} (h : beginsLine d true text = false)
    (hline : line ∈ lines text) : line.head? ≠ some d := by
  obtain ⟨piece, hpiece, rfl⟩ := List.mem_map.mp hline
  exact fun heq => (head?_ne_of_splitInclusive h).1 rfl piece hpiece (head?_of_stripEnding heq)

/-- A part of a text begins no line that the text does not begin. -/
theorem beginsLine_take {d : Char} {first : Bool} {text : Text}
    (h : beginsLine d first text = false) (n : ℕ) : beginsLine d first (text.take n) = false := by
  induction text generalizing first n with
  | nil => rwa [List.take_nil]
  | cons c cs ih =>
    cases n with
    | zero => rfl
    | succ n =>
      rw [beginsLine, Bool.or_eq_false_iff] at h
      rw [List.take_succ_cons, beginsLine, Bool.or_eq_false_iff]
      exact ⟨h.1, ih h.2 n⟩

/-- Within a line nothing begins. -/
theorem beginsLine_append {d : Char} {line : Text} (h : '\n' ∉ line) (rest : Text) :
    beginsLine d false (line ++ rest) = beginsLine d false rest := by
  induction line with
  | nil => rfl
  | cons c line ih =>
    have hc : (c == '\n') = false := beq_eq_false_iff_ne.mpr fun hc => h (hc ▸ List.mem_cons_self)
    rw [List.cons_append, beginsLine, hc, Bool.false_and, Bool.false_or,
      ih fun hmem => h (List.mem_cons_of_mem _ hmem)]

end TextLines
