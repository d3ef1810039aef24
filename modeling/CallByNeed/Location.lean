/-!
# Places in a text

A place is a line and a column, both counted from one in characters. Since a session reads several
texts, a place also says which of them it is in.
-/

namespace CallByNeed

/-- A place in one of the texts of a session. -/
structure Location where
  /-- The number of the text, in the order in which the session read them. -/
  text : Nat
  /-- The line, counted from one. -/
  line : Int
  /-- The column, counted from one. -/
  column : Int
deriving DecidableEq, Repr, Inhabited

namespace Location

/-- The first place of a text. -/
def first (text : Nat) : Location :=
  ⟨text, 1, 1⟩

/-- The place after a character: only a line feed starts a new line. -/
def next (l : Location) (c : Char) : Location :=
  if c = '\n' then { l with line := l.line + 1, column := 1 }
  else { l with column := l.column + 1 }

/-- The place after a run of characters. -/
def after (l : Location) (cs : List Char) : Location :=
  cs.foldl next l

@[simp]
theorem after_nil (l : Location) : l.after [] = l :=
  rfl

@[simp]
theorem after_cons (l : Location) (c : Char) (cs : List Char) :
    l.after (c :: cs) = (l.next c).after cs :=
  rfl

/-- Walking through two runs of characters is walking through one after the other. -/
theorem after_append (l : Location) (cs ds : List Char) :
    l.after (cs ++ ds) = (l.after cs).after ds :=
  List.foldl_append

/-- Walking through a text does not leave it. -/
@[simp]
theorem text_after (l : Location) (cs : List Char) : (l.after cs).text = l.text := by
  induction cs generalizing l with
  | nil => rfl
  | cons c cs ih => rw [after_cons, ih, next]; split <;> rfl

/-- Line and column, divided by a colon. -/
def toText (l : Location) : String :=
  l.line.repr ++ ":" ++ l.column.repr

end Location

end CallByNeed
