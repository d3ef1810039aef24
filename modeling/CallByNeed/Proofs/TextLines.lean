import CallByNeed.Text.Lines
import Mathlib.Data.List.Basic
import Mathlib.Data.List.Induction
import Mathlib.Tactic.Common

/-!
# Lines of a text

A text is cut into lines at its line feeds, and nowhere else (`splitLines_append_feed`). Lines that
hold no line feed, one below the other, are cut into the same lines again (`lines_intercalate`), and
the line around a place in a text reaches from the last line feed before the place to the next one
behind it (`getElem?_splitLines`).
-/

namespace CallByNeed.Text

/-- The lines around a line feed are those before it and those behind it. -/
theorem splitLines_append_feed (cs ds : List Char) :
    splitLines (cs ++ '\n' :: ds) = splitLines cs ++ splitLines ds := by
  induction cs with
  | nil => simp [splitLines]
  | cons c cs ih =>
    rw [List.cons_append, splitLines, splitLines, ih]
    by_cases hc : c = '\n'
    · rw [if_pos hc, if_pos hc, List.cons_append]
    · rw [if_neg hc, if_neg hc]
      cases hlines : splitLines cs with
      | nil => exact absurd hlines (splitLines_ne_nil cs)
      | cons line rest => rfl

/-- A text without a line feed is one line. -/
theorem splitLines_of_not_mem {cs : List Char} (h : '\n' ∉ cs) : splitLines cs = [cs] := by
  induction cs with
  | nil => rfl
  | cons c cs ih =>
    rw [List.mem_cons, not_or] at h
    rw [splitLines, if_neg (Ne.symm h.1), ih h.2]

/-- There is one line more than there are line feeds. -/
theorem length_splitLines (cs : List Char) : (splitLines cs).length = cs.count '\n' + 1 := by
  induction cs with
  | nil => rfl
  | cons c cs ih =>
    rw [splitLines]
    by_cases hc : c = '\n'
    · rw [if_pos hc, hc, List.length_cons, ih, List.count_cons_self]
    · rw [if_neg hc, List.count_cons_of_ne hc]
      cases hlines : splitLines cs with
      | nil => exact absurd hlines (splitLines_ne_nil cs)
      | cons line rest =>
        rw [hlines] at ih
        exact ih

/-- No line holds a line feed. -/
theorem not_mem_of_mem_splitLines {cs line : List Char} (h : line ∈ splitLines cs) :
    '\n' ∉ line := by
  induction cs generalizing line with
  | nil => simp_all [splitLines]
  | cons c cs ih =>
    rw [splitLines] at h
    by_cases hc : c = '\n'
    · rw [if_pos hc, List.mem_cons] at h
      rcases h with rfl | h
      · exact List.not_mem_nil
      · exact ih h
    · rw [if_neg hc] at h
      cases hlines : splitLines cs with
      | nil => exact absurd hlines (splitLines_ne_nil cs)
      | cons first rest =>
        rw [hlines] at h ih
        rcases List.mem_cons.1 h with rfl | h
        · rw [List.mem_cons, not_or]
          exact ⟨Ne.symm hc, ih List.mem_cons_self⟩
        · exact ih (List.mem_cons_of_mem _ h)

/-- The first line of a text reaches to its first line feed. -/
theorem getElem?_zero_splitLines (cs : List Char) :
    (splitLines cs)[0]? = some (cs.takeWhile (· != '\n')) := by
  induction cs with
  | nil => rfl
  | cons c cs ih =>
    rw [splitLines]
    by_cases hc : c = '\n'
    · simp [hc]
    · rw [if_neg hc]
      cases hlines : splitLines cs with
      | nil => exact absurd hlines (splitLines_ne_nil cs)
      | cons line rest => simp_all

/-- The line around a place has as many lines before it as there are line feeds before the place. -/
theorem getElem?_splitLines (before after : List Char) :
    (splitLines (before ++ after))[before.count '\n']? =
      some ((before.reverse.takeWhile (· != '\n')).reverse ++ after.takeWhile (· != '\n')) := by
  induction before using List.reverseRecOn generalizing after with
  | nil => simpa using getElem?_zero_splitLines after
  | append_singleton before c ih =>
    rw [List.append_assoc, List.singleton_append, List.count_append, List.reverse_append]
    by_cases hc : c = '\n'
    · -- the line starts at the place, and all lines before the line feed come first
      have hcount : before.count '\n' + [c].count '\n' = (splitLines before).length := by
        rw [length_splitLines, hc, List.count_singleton_self]
      rw [hcount, hc, splitLines_append_feed, List.getElem?_append_right (Nat.le_refl _),
        Nat.sub_self, getElem?_zero_splitLines]
      rfl
    · simpa [hc] using ih (c :: after)

/-- Lines one below the other are cut apart again. -/
theorem lines_intercalate {l : List String} (hne : l ≠ []) (hl : ∀ line ∈ l, '\n' ∉ line.toList) :
    lines ("\n".intercalate l) = l := by
  induction l with
  | nil => exact absurd rfl hne
  | cons line rest ih =>
    obtain ⟨hline, hrest⟩ := List.forall_mem_cons.1 hl
    cases rest with
    | nil => simp [lines, splitLines_of_not_mem hline]
    | cons line' rest =>
      have htail := ih (by simp) hrest
      rw [lines] at htail ⊢
      rw [String.intercalate_cons_of_ne_nil (by simp), String.toList_append, String.toList_append,
        List.append_assoc, show "\n".toList = ['\n'] from rfl, List.singleton_append,
        splitLines_append_feed, splitLines_of_not_mem hline, List.map_append, htail]
      simp

end CallByNeed.Text
