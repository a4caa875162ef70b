import Reparse.Syntax.Subtree

/-!
A cursor over an old tree, moving left to right in step with the parser.

The cursor is the list of subtrees still to come, in text order, and the place of the first
of them. It can only move on: past the first subtree, or to that subtree's children.
-/

namespace Reparse

structure ReuseCursor where
  offset : Nat := 0
  pending : List Subtree := []
  deriving Repr

/-- What an old tree offers: a node to push whole, or a token to go on with. -/
inductive Reuse where
  | node (tree : Subtree)
  | token (tree : Subtree)
  deriving Repr

namespace ReuseCursor

def ofTree (root : Subtree) : ReuseCursor := ⟨0, [root]⟩

def empty : ReuseCursor := {}

def current? (c : ReuseCursor) : Option Subtree := c.pending.head?

/-- A cursor that has come to the end is beyond every text. -/
def place (c : ReuseCursor) : Nat :=
  if c.pending.isEmpty then 4294967295 else c.offset

/-- Past the current subtree. -/
def advance (c : ReuseCursor) : ReuseCursor :=
  match c.pending with
  | [] => c
  | t :: rest => ⟨c.offset + t.size.bytes, rest⟩

/-- To the children of the current subtree, if it has any. -/
def descend (c : ReuseCursor) : Bool × ReuseCursor :=
  match c.pending with
  | ⟨_, _, first :: others⟩ :: rest => (true, { c with pending := first :: others ++ rest })
  | _ => (false, c)

/-- What to do about one subtree. -/
inductive Verdict where
  | answer (found : Option Reuse)
  | skip
  | enter
  deriving Repr

/-- A token can be taken over if its text did not change and it is read alike. -/
def takesToken (t : Subtree) (mode : LexMode) : Bool :=
  !t.info.changed && !t.isError && !t.info.missing && t.info.lexMode == mode

/-- A node can be taken over if, besides, the parser was in the same state before it. -/
def takesNode (t : Subtree) (state : StateId) (mode : LexMode) : Bool :=
  t.isReusable && t.info.parseState == state && t.firstLeaf.info.lexMode == mode

def judge (t : Subtree) (offset position : Nat) (state : StateId) (mode : LexMode) : Verdict :=
  if offset < position then
    if offset + t.size.bytes > position && !t.isLeaf then .enter else .skip
  else if offset > position then .answer none
  else if t.isLeaf then
    if t.size.bytes = 0 then .skip
    else if takesToken t mode then .answer (some (.token t))
    else .answer none
  else if takesNode t state mode then .answer (some (.node t))
  else .enter

/-- Looks for a subtree at `position` that the parser can take in `state`, where the next
token would be read in `mode`. -/
def findIn (position : Nat) (state : StateId) (mode : LexMode) (offset : Nat) :
    List Subtree → Option Reuse × ReuseCursor
  | [] => (none, ⟨offset, []⟩)
  | t :: rest =>
    match judge t offset position state mode with
    | .answer found => (found, ⟨offset, t :: rest⟩)
    | .skip => findIn position state mode (offset + t.size.bytes) rest
    | .enter => findIn position state mode offset (t.children ++ rest)
  termination_by pending => Subtree.countAll pending
  decreasing_by
    all_goals
      simp only [Subtree.countAll, Subtree.countAll_append, Subtree.count_eq]
      omega

def find (c : ReuseCursor) (position : Nat) (state : StateId) (mode : LexMode) :
    Option Reuse × ReuseCursor :=
  findIn position state mode c.offset c.pending

end ReuseCursor

end Reparse
