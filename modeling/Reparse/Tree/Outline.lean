import Reparse.Tree.Preorder

/-!
Trees as readers see them: one row for each visible node, in pre-order, free of stamps and
of everything that only the parser needs. Two trees of one outline cannot be told apart by
looking at nodes. The census counts the same nodes by going down the subtrees themselves.
-/

namespace Reparse

structure NodeInfo where
  kind : String
  symbol : Symbol
  range : Range
  named : Bool
  extra : Bool
  error : Bool
  missing : Bool
  hasError : Bool
  changed : Bool
  childCount : Nat
  namedChildCount : Nat
  deriving DecidableEq, Repr

def Node.info (n : Node) : NodeInfo where
  kind := n.kind
  symbol := n.symbol
  range := n.range
  named := n.isNamed
  extra := n.isExtra
  error := n.isError
  missing := n.isMissing
  hasError := n.hasError
  changed := n.hasChanges
  childCount := n.childCount
  namedChildCount := n.namedChildCount

structure Row where
  depth : Nat
  field : Option String
  node : NodeInfo
  deriving DecidableEq, Repr

def Cursor.row (c : Cursor) : Row := ⟨c.depth, c.fieldName?, c.node.info⟩

def Tree.outline (t : Tree) : List Row := t.preorder.map Cursor.row

/-- How many visible nodes a tree has, how many of them are errors or missing, and how deep
the deepest lies. -/
structure Census where
  nodes : Nat
  errors : Nat
  missing : Nat
  depth : Nat
  deriving DecidableEq, Repr

namespace Census

/-- Counts a subtree that shows at a depth. -/
def add (c : Census) (depth : Nat) (t : Subtree) : Census where
  nodes := c.nodes + 1
  errors := if t.isError then c.errors + 1 else c.errors
  missing := if t.info.missing then c.missing + 1 else c.missing
  depth := max c.depth depth

mutual

/-- Counts what shows below a subtree, its children at `depth`. -/
def addBelow (depth : Nat) (c : Census) : Subtree → Census
  | ⟨_, _, children⟩ => addAmong depth c children

/-- Counts what shows of some subtrees. What shows through a hidden one lies as deep as if it
were in its place. -/
def addAmong (depth : Nat) (c : Census) : List Subtree → Census
  | [] => c
  | t :: rest =>
    let c := if t.visible then addBelow (depth + 1) (c.add depth t) t else addBelow depth c t
    addAmong depth c rest

end

end Census

/-- The root counts even if it is hidden. -/
def Tree.census (t : Tree) : Census :=
  Census.addBelow 1 (Census.add ⟨0, 0, 0, 0⟩ 0 t.root) t.root

end Reparse
