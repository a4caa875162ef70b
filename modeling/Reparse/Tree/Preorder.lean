import Reparse.Tree.Cursor

/-!
Visiting every visible node of a tree, parents before children.
-/

namespace Reparse

/-- A walk that has not begun, that is at a cursor's node, or that is finished. -/
inductive Preorder where
  | before (start : Cursor)
  | on (here : Cursor)
  | finished

namespace Preorder

def ofTree (t : Tree) : Preorder := .before t.walk

def current? : Preorder → Option Node
  | before _ | finished => none
  | .on here => some here.node

/-- To the closest next sibling of the node or of what lies around it. Each step up leaves a
frame behind. -/
def leave : (frames : List Frame) → Cursor → Preorder
  | [], _ => .finished
  | _ :: frames, c =>
    match c.nextSibling with
    | (true, next) => .on next
    | (false, _) =>
      match c.parent with
      | (true, parent) => leave frames parent
      | (false, _) => .finished

/-- To the next node: the first child, or what comes after. -/
def advance : Preorder → Preorder
  | before start => .on start
  | .on here =>
    match here.firstChild with
    | (true, child) => .on child
    | (false, c) => leave c.frames c
  | finished => .finished

def visit : (steps : Nat) → Preorder → List Cursor
  | 0, _ => []
  | steps + 1, p =>
    match p.advance with
    | .on here => here :: visit steps (.on here)
    | _ => []

end Preorder

/-- A cursor at each visible node. There are no more of them than subtrees. -/
def Tree.preorder (t : Tree) : List Cursor :=
  Preorder.visit t.root.count (.ofTree t)

end Reparse
