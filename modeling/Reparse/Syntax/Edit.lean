import Reparse.Syntax.Subtree

/-!
Edits of subtrees.

An edit is given from the start of the subtree it is applied to. It copies every node
whose window touches it, marks it as changed and resizes it; all other subtrees stay what
they are. Inserted text goes to the first child that touches the edit, and later children
only give up what was deleted of them.
-/

namespace Reparse

/-- The text from `start` to `oldStop` gives way to text that ends at `newStop`. -/
structure Edit where
  start : Extent
  oldStop : Extent
  newStop : Extent
  deriving DecidableEq, Repr

namespace Edit

/-- Nothing is deleted. -/
def isInsertion (e : Edit) : Bool := e.oldStop.bytes == e.start.bytes

def isNothing (e : Edit) : Bool := e.isInsertion && e.newStop.bytes == e.start.bytes

/-- The edit as seen from the place `left`. -/
def relativeTo (e : Edit) (left : Extent) : Edit :=
  ⟨e.start.monus left, e.oldStop.monus left, e.newStop.monus left⟩

/-- The edit without its text, for a node that only looked at it. -/
def mark (e : Edit) : Edit := ⟨e.start, e.start, e.start⟩

/-- The edit once its new text has found a place. -/
def deletion (e : Edit) : Edit := { e with newStop := e.start }

/-- The size of a text after the edit. -/
def resize (e : Edit) (size : Extent) : Extent :=
  if e.isNothing then size else e.newStop + size.monus e.oldStop

end Edit

/-- What an edit does to the children of a node from one of them on: the edit still owed,
whether it can still insert at the end of a child, where the child starts and whether it is
the first. -/
structure Pass where
  owed : Edit
  inserts : Bool
  left : Extent := {}
  first : Bool := true

namespace Pass

/-- The place after a child of the given size. -/
def after (p : Pass) (size : Extent) : Pass :=
  { p with left := p.left + size, first := false }

/-- The child's window ends before the edit. -/
def isBefore (p : Pass) (child : Subtree) : Bool :=
  p.left.bytes + child.window < p.owed.start.bytes

/-- The child starts after the edit, or just at its end without being empty or first. -/
def isAfter (p : Pass) (child : Subtree) : Bool :=
  p.left.bytes > p.owed.oldStop.bytes
    || (p.left.bytes == p.owed.oldStop.bytes && child.size.bytes > 0 && !p.first)

/-- The child's own text touches the edit, not only its window. -/
def touches (p : Pass) (child : Subtree) : Bool :=
  let right := p.left.bytes + child.size.bytes
  right > p.owed.start.bytes || (right == p.owed.start.bytes && p.inserts)

/-- The edit that the child gets. -/
def share (p : Pass) (child : Subtree) : Edit :=
  if p.touches child then p.owed.relativeTo p.left else (p.owed.relativeTo p.left).mark

/-- What is owed to the children after one that got its share. -/
def settle (p : Pass) (child : Subtree) : Pass :=
  if p.touches child then { p with owed := p.owed.deletion, inserts := false } else p

end Pass

namespace Subtree

mutual

/-- The subtree after the edit, and the next free stamp. -/
def edit (e : Edit) (fresh : Stamp) : Subtree → Subtree × Stamp
  | ⟨_, info, children⟩ =>
    let (children, fresh) := editChildren ⟨e, e.isInsertion, {}, true⟩ fresh children
    (⟨fresh, { info with size := e.resize info.size, changed := true }, children⟩, fresh + 1)

def editChildren (p : Pass) (fresh : Stamp) : List Subtree → List Subtree × Stamp
  | [] => ([], fresh)
  | child :: rest =>
    if p.isBefore child then
      let (rest, fresh) := editChildren (p.after child.size) fresh rest
      (child :: rest, fresh)
    else if p.isAfter child then (child :: rest, fresh)
    else
      let (edited, fresh) := child.edit (p.share child) fresh
      let (rest, fresh) := editChildren ((p.settle child).after child.size) fresh rest
      (edited :: rest, fresh)

end

end Subtree

end Reparse
