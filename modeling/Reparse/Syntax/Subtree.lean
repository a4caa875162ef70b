import Reparse.Language
import Reparse.Parse.Cost

/-!
Subtrees: what parses are made of.

A subtree knows its size but not its place, so one subtree can stand in many trees, and
in a later tree at another place. Everything that a subtree derives from its children is
kept in its summary. Its stamp tells it apart from subtrees that look alike: two subtrees
of one stamp are one subtree.
-/

namespace Reparse

abbrev Stamp := Nat

/-- What is known of a subtree without its children.

`parseState` is the parser's state when the subtree was pushed, `lookahead` how many bytes
past its end had a say in it, `lexMode` the mode its first token was read in. A subtree is
`changed` if an edit touched it, and `fragile` if it was built across an error recovery. -/
structure Summary where
  symbol : Symbol
  parseState : StateId := 0
  size : Extent := {}
  lookahead : Nat := 0
  errorCost : Nat := 0
  lexMode : LexMode := {}
  production : ProductionId := 0
  precedence : Int := 0
  visibleCount : Nat := 0
  namedCount : Nat := 0
  visible : Bool := false
  named : Bool := false
  extra : Bool := false
  missing : Bool := false
  changed : Bool := false
  fragile : Bool := false
  deriving DecidableEq, Repr, Inhabited

structure Subtree where
  stamp : Stamp
  info : Summary
  children : List Subtree
  deriving Repr, Inhabited

namespace Subtree

abbrev symbol (t : Subtree) : Symbol := t.info.symbol
abbrev size (t : Subtree) : Extent := t.info.size
abbrev extra (t : Subtree) : Bool := t.info.extra
abbrev visible (t : Subtree) : Bool := t.info.visible

/-- How far the bytes reach that the subtree depends on, from its start. -/
def window (t : Subtree) : Nat := t.size.bytes + t.info.lookahead

def isError (t : Subtree) : Bool := t.symbol == Symbol.error

def hasError (t : Subtree) : Bool := t.info.errorCost > 0

def isLeaf (t : Subtree) : Bool := t.children.isEmpty

/-- A parser may take it over without looking inside. -/
def isReusable (t : Subtree) : Bool :=
  !t.info.changed && !t.hasError && !t.info.fragile && !t.info.missing && t.size.bytes > 0

def firstLeaf : Subtree → Subtree
  | ⟨stamp, info, []⟩ => ⟨stamp, info, []⟩
  | ⟨_, _, first :: _⟩ => first.firstLeaf

mutual

/-- The number of subtrees in it, itself included. -/
def count : Subtree → Nat
  | ⟨_, _, children⟩ => countAll children + 1

def countAll : List Subtree → Nat
  | [] => 0
  | t :: rest => t.count + countAll rest

end

theorem count_eq (t : Subtree) : t.count = countAll t.children + 1 := by
  cases t; rfl

theorem countAll_append (a b : List Subtree) :
    countAll (a ++ b) = countAll a + countAll b := by
  induction a with
  | nil => simp [countAll]
  | cons t rest ih => simp [countAll, ih, Nat.add_assoc]

theorem countAll_reverse (a : List Subtree) : countAll a.reverse = countAll a := by
  induction a with
  | nil => rfl
  | cons t rest ih => simp [countAll, countAll_append, ih, Nat.add_comm]

end Subtree

namespace Summary

/-- A subtree of the symbol before anything is known of its text. -/
def blank (lang : Language) (symbol : Symbol) (parseState : StateId) : Summary :=
  let traits := lang.traits symbol
  { symbol, parseState, visible := traits.visible, named := traits.named, extra := traits.extra }

def isError (s : Summary) : Bool := s.symbol == Symbol.error

/-- Counts a further child, what the error of the node itself costs aside. A hidden child
counts for what shows through it. -/
def add (s : Summary) (child : Subtree) : Summary :=
  let size := s.size + child.size
  let (visibleMore, namedMore) :=
    if child.visible then (1, if child.info.named then 1 else 0)
    else if child.isLeaf then (0, 0)
    else (child.info.visibleCount, child.info.namedCount)
  { s with
    size
    lookahead :=
      max (s.size.bytes + s.lookahead) (size.bytes + child.info.lookahead) - size.bytes
    errorCost := Cost.sum s.errorCost child.info.errorCost
    precedence := s.precedence + child.info.precedence
    visibleCount := s.visibleCount + visibleMore
    namedCount := s.namedCount + namedMore }

/-- The summary of a node whose children `had` are followed by `more`. The cost of an error
node depends on all its children at once, so it is taken off first and put back at the end. -/
def append (s : Summary) (had more : List Subtree) : Summary :=
  let lexMode :=
    match had, more with
    | [], first :: _ => first.info.lexMode
    | _, _ => s.lexMode
  if s.isError then
    let bare := { s with lexMode, errorCost := s.errorCost - Cost.skipped had.length s.size }
    let all := more.foldl add bare
    let own := Cost.skipped (had.length + more.length) all.size
    { all with errorCost := Cost.sum all.errorCost own }
  else more.foldl add { s with lexMode }

/-- The summary of a node made of children. An error node pays for itself even when it has
none. -/
def ofChildren (lang : Language) (symbol : Symbol) (children : List Subtree)
    (production : ProductionId) (parseState : StateId) : Summary :=
  { blank lang symbol parseState with production, extra := false }.append [] children

end Summary

namespace Subtree

/-- A token. One that nothing matched costs what skipping its text costs. -/
def leaf (stamp : Stamp) (lang : Language) (symbol : Symbol) (size : Extent) (lookahead : Nat)
    (parseState : StateId) (lexMode : LexMode) : Subtree :=
  let errorCost := if symbol = Symbol.error then Cost.skipped 0 size else 0
  ⟨stamp, { Summary.blank lang symbol parseState with size, lookahead, lexMode, errorCost }, []⟩

/-- A token of no width that the parser pretends to see. -/
def missingLeaf (stamp : Stamp) (lang : Language) (symbol : Symbol) (parseState : StateId)
    (lexMode : LexMode) : Subtree :=
  ⟨stamp,
    { Summary.blank lang symbol parseState with
      lexMode, missing := true, extra := false, errorCost := Cost.missing },
    []⟩

def node (stamp : Stamp) (lang : Language) (symbol : Symbol) (children : List Subtree)
    (production : ProductionId) (parseState : StateId) : Subtree :=
  ⟨stamp, .ofChildren lang symbol children production parseState, children⟩

/-- Skipped tokens or abandoned subtrees. It is an extra, so no production counts it. -/
def errorNode (stamp : Stamp) (lang : Language) (children : List Subtree)
    (parseState : StateId) : Subtree :=
  ⟨stamp, { Summary.ofChildren lang Symbol.error children 0 parseState with extra := true },
    children⟩

/-- A new subtree with further children at the end. -/
def append (stamp : Stamp) (t : Subtree) (more : List Subtree) : Subtree :=
  ⟨stamp, t.info.append t.children more, t.children ++ more⟩

/-- The subtree as pushed in another state or as an extra: itself if nothing changes, else
a copy under the stamp `fresh`. -/
def placed (fresh : Stamp) (t : Subtree) (parseState : StateId) (extra : Bool) : Subtree :=
  if t.info.parseState = parseState ∧ t.info.extra = extra then t
  else ⟨fresh, { t.info with parseState, extra }, t.children⟩

end Subtree

end Reparse
