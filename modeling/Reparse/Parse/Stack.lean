import Reparse.Syntax.Subtree

/-!
The parse stack: subtrees, each with the state reached by pushing it.

Entries are kept top first, and lists of popped subtrees read in text order, the bottom
one first. Extras ride along without counting: a pop of `n` subtrees takes `n` entries that
are no extras and the extras between them.
-/

namespace Reparse

/-- `position` is where the entry ends in the text, `epoch` how many recoveries there were
when it was pushed. -/
structure Entry where
  tree : Subtree
  state : StateId
  position : Extent
  epoch : Nat
  deriving Repr, Inhabited

/-- The number of entries is at hand, since every step of a parse asks for it. -/
structure Stack where
  base : StateId
  entries : List Entry := []
  length : Nat := entries.length
  length_eq : length = entries.length := by rfl
  deriving Repr

/-- A place where recovery could cut the stack: the entries that would remain, the state on
top of them, and the subtrees that would go, extras not counted, with their whole size. -/
structure Cut where
  remaining : Nat
  state : StateId
  trees : Nat
  size : Extent
  deriving DecidableEq, Repr

namespace Stack

/-- How many entries recovery looks at, extras included. -/
def lookback : Nat := 64

/-- The state on top of some entries. -/
def stateOver (s : Stack) : List Entry → StateId
  | [] => s.base
  | e :: _ => e.state

/-- Where some entries end. -/
def positionOver : List Entry → Extent
  | [] => .zero
  | e :: _ => e.position

def topState (s : Stack) : StateId := s.stateOver s.entries

def topPosition (s : Stack) : Extent := positionOver s.entries

def push (s : Stack) (tree : Subtree) (state : StateId) (epoch : Nat) : Stack where
  base := s.base
  entries := ⟨tree, state, s.topPosition + tree.size, epoch⟩ :: s.entries
  length := s.length + 1
  length_eq := by simp [s.length_eq]

/-- The stack without its topmost `count` entries. -/
def without (s : Stack) (count : Nat) : Stack where
  base := s.base
  entries := s.entries.drop count
  length := s.length - count
  length_eq := by simp [s.length_eq]

/-- The subtrees of some entries in text order. -/
def trees (entries : List Entry) : List Subtree := (entries.map (·.tree)).reverse

/-- Takes off the extras above the topmost other entry. -/
def popExtras (s : Stack) : List Subtree × Stack :=
  let extras := s.entries.takeWhile (·.tree.extra)
  (trees extras, s.without extras.length)

/-- The topmost entries down to the `count`-th of them that is no extra; all if there are not
so many. -/
def takeCount : (count : Nat) → List Entry → List Entry
  | 0, _ | _ + 1, [] => []
  | count + 1, e :: rest => e :: takeCount (if e.tree.extra then count + 1 else count) rest
  termination_by structural _ entries => entries

/-- Takes off `count` subtrees; fewer if there are no more. The epoch is that of the lowest
entry taken. -/
def popCount (s : Stack) (count : Nat) : List Subtree × Option Nat × Stack :=
  let taken := takeCount count s.entries
  (trees taken, taken.getLast?.map (·.epoch), s.without taken.length)

/-- Takes off all but the lowest `remaining` entries. -/
def popTo (s : Stack) (remaining : Nat) : List Subtree × Stack :=
  let count := s.length - remaining
  (trees (s.entries.take count), s.without count)

def popAll (s : Stack) : List Subtree × Stack := s.popTo 0

/-- The states after the recent entries that are no extras, latest first, and the base
state if nothing lies deeper. Extras change no state, so this is all that reductions can
see. -/
def recentStates (s : Stack) : List StateId :=
  let states := ((s.entries.take lookback).filter (!·.tree.extra)).map (·.state)
  if s.length ≤ lookback then states ++ [s.base] else states

/-- Takes off the topmost error node if only extras lie on it, with those extras: the node,
the extras and the node's epoch. -/
def popError (s : Stack) : Option (Subtree × List Subtree × Nat × Stack) :=
  let extras := (s.entries.take lookback).takeWhile (·.tree.extra)
  let (above, found) := extras.span fun e => !(e.tree.isError && !e.tree.isLeaf)
  match found with
  | [] => none
  | error :: _ =>
    some (error.tree, trees above, error.epoch, s.without (above.length + 1))

/-- The cuts among `looks` entries, from the top, when `popped` subtrees lie above them. -/
def cutsIn (s : Stack) (maxTrees : Nat) :
    (looks popped : Nat) → (remaining : Nat) → List Entry → List Cut
  | 0, _, _, _ | _, _, _, [] => []
  | looks + 1, popped, remaining, e :: rest =>
    if e.tree.extra then cutsIn s maxTrees looks popped (remaining - 1) rest
    else if maxTrees < popped + 1 then []
    else
      ⟨remaining - 1, s.stateOver rest, popped + 1, s.topPosition - positionOver rest⟩
        :: cutsIn s maxTrees looks (popped + 1) (remaining - 1) rest

/-- Where the stack can be cut below a subtree that is no extra, at most `maxTrees` of them
deep, from the top down. -/
def cuts (s : Stack) (maxTrees : Nat) : List Cut :=
  s.cutsIn maxTrees lookback 0 s.length s.entries

end Stack

end Reparse
