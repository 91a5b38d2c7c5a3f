namespace Scriptlet.Text

/-- A line and a column, both counted from one. A column counts characters, and only a line feed
starts a new line. `⟨0, 0⟩` is the place of an end that follows no token at all. -/
structure Position where
  line : Nat
  column : Nat
  deriving DecidableEq, Repr

namespace Position

def start : Position := ⟨1, 1⟩

def nowhere : Position := ⟨0, 0⟩

def next (p : Position) (c : Char) : Position :=
  if c = '\n' then ⟨p.line + 1, 1⟩ else ⟨p.line, p.column + 1⟩

/-- The place right after the characters `cs` that begin at `p`. -/
def after (p : Position) (cs : List Char) : Position :=
  cs.foldl next p

@[simp]
theorem after_nil (p : Position) : p.after [] = p := rfl

@[simp]
theorem after_cons (p : Position) (c : Char) (cs : List Char) :
    p.after (c :: cs) = (p.next c).after cs := rfl

theorem after_append (p : Position) (cs ds : List Char) :
    p.after (cs ++ ds) = (p.after cs).after ds := by
  simp [after]

def describe (p : Position) : String :=
  s!"Line: {p.line}, Column: {p.column}"

end Position

end Scriptlet.Text
