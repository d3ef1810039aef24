/-!
# Lines

A text has one line more than it has line feeds. Files may also end their lines with a carriage
return, alone or before the line feed.
-/

namespace CallByNeed.Text

/-- The lines of a text, without the line feeds between them. -/
def splitLines : List Char → List (List Char)
  | [] => [[]]
  | c :: cs =>
    if c = '\n' then [] :: splitLines cs
    else
      match splitLines cs with
      | [] => [[c]]
      | line :: lines => (c :: line) :: lines

/-- The lines of a text, without the line feeds between them. -/
def lines (s : String) : List String :=
  (splitLines s.toList).map String.ofList

/-- A text has at least one line. -/
theorem splitLines_ne_nil (cs : List Char) : splitLines cs ≠ [] := by
  cases cs with
  | nil => simp [splitLines]
  | cons c cs =>
    rw [splitLines]
    split
    · simp
    · split <;> simp

/-- The lines of a text, with line feeds between them, are the text again. -/
theorem intercalate_lines (s : String) : "\n".intercalate (lines s) = s := by
  suffices h : ∀ cs, "\n".intercalate ((splitLines cs).map String.ofList) = String.ofList cs by
    simpa [lines] using h s.toList
  intro cs
  induction cs with
  | nil => rfl
  | cons c cs ih =>
    rw [splitLines, String.ofList_cons]
    split
    · next hc =>
      subst hc
      have hl : (splitLines cs).map String.ofList ≠ [] := by simpa using splitLines_ne_nil cs
      rw [List.map_cons, String.intercalate_cons_of_ne_nil hl, ih]
      rfl
    · cases hl : splitLines cs with
      | nil => exact absurd hl (splitLines_ne_nil cs)
      | cons line rest =>
        rw [hl] at ih
        simpa [String.ofList_cons] using ih

/-- A text in which every line ends with a line feed alone. -/
def unifyNewlines : List Char → List Char
  | [] => []
  | '\r' :: '\n' :: cs => '\n' :: unifyNewlines cs
  | '\r' :: cs => '\n' :: unifyNewlines cs
  | c :: cs => c :: unifyNewlines cs

end CallByNeed.Text
