import InlineMarkup.Document.Markdown

/-! Escaping: what the backslashes in canonical markdown leave as it is. -/

namespace InlineMarkup.Markdown

variable {prev : Option Char} {c : Char} {s : List Char}

theorem escapeFrom_eq (prev : Option Char) (out s : List Char) :
    escapeFrom prev out s = out.reverse ++ escapeFrom prev [] s := by
  induction s generalizing prev out with
  | nil => simp [escapeFrom]
  | cons c s ih =>
    rw [escapeFrom, ih, escapeFrom, ih (some c) (c :: _)]
    split <;> simp

theorem escapeFrom_cons (prev : Option Char) (c : Char) (s : List Char) :
    escapeFrom prev [] (c :: s) =
      (if needsEscape prev c s.head? then ['\\', c] else [c]) ++ escapeFrom (some c) [] s := by
  rw [escapeFrom, escapeFrom_eq]
  split <;> rfl

theorem escapeFrom_ne_nil (hs : s ≠ []) : escapeFrom prev [] s ≠ [] := by
  cases s with
  | nil => exact absurd rfl hs
  | cons c s =>
    rw [escapeFrom_cons]
    split <;> simp

/-- A backslash comes before a character, never after it. -/
theorem getLast?_escapeFrom (prev : Option Char) (s : List Char) :
    (escapeFrom prev [] s).getLast? = s.getLast? := by
  induction s generalizing prev with
  | nil => rfl
  | cons c s ih =>
    rw [escapeFrom_cons, List.getLast?_append, ih]
    cases s with
    | nil => split <;> rfl
    | cons d s => simp [List.getLast?_cons]

theorem getLast?_escape (s : List Char) :
    (escape s).getLast? = s.getLast? := getLast?_escapeFrom none s

/-- At the start of a text every trigger takes a backslash. -/
theorem head?_escape (c : Char) (s : List Char) :
    (escape (c :: s)).head? = some (if isTrigger c then '\\' else c) := by
  have hneeds : needsEscape none c s.head? = isTrigger c := by simp [needsEscape]
  rw [escape, escapeFrom_cons, hneeds]
  split <;> rfl

theorem head?_escape_ne {s : List Char} (hc : isTrigger c) (hb : c ≠ '\\') :
    (escape s).head? ≠ some c := by
  cases s with
  | nil => simp [escape, escapeFrom]
  | cons d s =>
    rw [head?_escape]
    split
    · simpa using Ne.symm hb
    · rintro ⟨⟩
      contradiction

/-- What comes before a text counts only as far as it is part of a word. -/
theorem escapeFrom_congr {prev' : Option Char}
    (h : prev.any Unicode.isAlphanumeric = prev'.any Unicode.isAlphanumeric) (s : List Char) :
    escapeFrom prev [] s = escapeFrom prev' [] s := by
  cases s with
  | nil => rfl
  | cons c s => rw [escapeFrom_cons, escapeFrom_cons, needsEscape, needsEscape, h]

/-- What comes after a text does not count if it ends in no trigger. -/
theorem escapeFrom_append {t : List Char} (hlast : ∀ c ∈ s.getLast?, ¬isTrigger c) :
    escapeFrom prev [] (s ++ t) = escapeFrom prev [] s ++ escapeFrom (s.getLast?.or prev) [] t := by
  induction s generalizing prev with
  | nil => rfl
  | cons c s ih =>
    cases s with
    | nil =>
      have hplain (next : Option Char) : ¬needsEscape prev c next := by
        simp [needsEscape, hlast c rfl]
      simp [escapeFrom_cons, hplain, escapeFrom]
    | cons d s =>
      rw [List.cons_append, escapeFrom_cons, ih hlast, escapeFrom_cons prev, List.append_assoc]
      rfl

theorem isTrigger_of_needsEscape {next : Option Char} (h : needsEscape prev c next) :
    isTrigger c := by
  simp only [needsEscape, Bool.and_eq_true] at h
  exact h.1

end InlineMarkup.Markdown
