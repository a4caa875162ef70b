/-!
Positions in a text, as a row and a byte column.

A point also measures a stretch of text: the rows it spans, and the columns after
its last line break. `a + b` is where a stretch `b` ends that starts at `a`, and
`b - a` is the stretch between two points of one text.
-/

namespace Reparse

structure Point where
  row : Nat := 0
  column : Nat := 0
  deriving DecidableEq, Repr, Inhabited

namespace Point

def zero : Point := {}

/-- A stretch that spans a line break forgets the column it started in. -/
def add (a b : Point) : Point :=
  if b.row > 0 then ⟨a.row + b.row, b.column⟩ else ⟨a.row, a.column + b.column⟩

/-- The stretch from `b` to `a`, nothing where `a` is not after `b`. -/
def sub (a b : Point) : Point :=
  if a.row > b.row then ⟨a.row - b.row, a.column⟩ else ⟨0, a.column - b.column⟩

instance : Add Point := ⟨add⟩
instance : Sub Point := ⟨sub⟩

theorem add_def (a b : Point) : a + b =
    if b.row > 0 then ⟨a.row + b.row, b.column⟩ else ⟨a.row, a.column + b.column⟩ := rfl

theorem sub_def (a b : Point) : a - b =
    if a.row > b.row then ⟨a.row - b.row, a.column⟩ else ⟨0, a.column - b.column⟩ := rfl

/-- Rows first, then columns. -/
instance : Ord Point where
  compare a b := (compare a.row b.row).then (compare a.column b.column)

/-- The point one byte further: byte 10 ends a row. -/
def next (p : Point) (byte : UInt8) : Point :=
  if byte = 10 then ⟨p.row + 1, 0⟩ else ⟨p.row, p.column + 1⟩

/-- The stretch that `text` covers. -/
def ofBytes (text : List UInt8) : Point :=
  text.foldl next zero

def render (p : Point) : String :=
  "(" ++ toString p.row ++ ", " ++ toString p.column ++ ")"

end Point

end Reparse
