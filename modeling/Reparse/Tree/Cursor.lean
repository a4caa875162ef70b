import Reparse.Tree.Node

/-!
Cursors: walking over the visible nodes of a tree.

A cursor keeps every subtree from the node it was made at down to the current one, hidden
ones included, each with the siblings after it. On the way down it passes through hidden
subtrees, so the visible ones below them come in their place. It never leaves the node it
was made at.
-/

namespace Reparse

/-- A subtree on the way down: its place, how many siblings before it are no extras, and
the siblings after it. -/
structure Frame where
  subtree : Subtree
  position : Extent
  index : Nat := 0
  later : List Subtree := []

namespace Frame

def stop (f : Frame) : Extent := f.position + f.subtree.size

/-- The index of the sibling after it. -/
def nextIndex (f : Frame) : Nat := if f.subtree.extra then f.index else f.index + 1

/-- Some visible node would be lost without it. -/
def shows (t : Subtree) : Bool := t.visible || t.info.visibleCount > 0

/-- The first of some siblings that is visible or has something visible below it. -/
def firstShown (position : Extent) (index : Nat) : List Subtree → Option Frame
  | [] => none
  | t :: rest =>
    if shows t then some ⟨t, position, index, rest⟩
    else firstShown (position + t.size) (if t.extra then index else index + 1) rest

end Frame

/-- The frames above the current one are listed from the inside out. -/
structure Cursor where
  tree : Tree
  current : Frame
  above : List Frame := []

def Node.walk (n : Node) : Cursor := ⟨n.tree, ⟨n.subtree, n.position, 0, []⟩, []⟩

def Tree.walk (t : Tree) : Cursor := t.rootNode.walk

namespace Cursor

def node (c : Cursor) : Node := ⟨c.tree, c.current.subtree, c.current.position⟩

def frames (c : Cursor) : List Frame := c.current :: c.above

/-- The cursor at a path of frames, itself if there is none. -/
def withFrames (c : Cursor) : List Frame → Cursor
  | [] => c
  | f :: above => { c with current := f, above }

/-- How many visible subtrees there are from below the node it was made at down to the
current one. -/
def depth (c : Cursor) : Nat := c.frames.dropLast.countP (·.subtree.visible)

/-! ### Fields -/

/-- The field given to a frame by the frame above it, or handed down through hidden frames
from further above. -/
def fieldOf (lang : Language) (innermost : Bool) : List Frame → Option FieldId
  | f :: parent :: above =>
    if (!innermost && f.subtree.visible) || f.subtree.extra then none
    else
      lang.ownField? parent.subtree.info.production f.index
        <|> fieldOf lang false (parent :: above)
  | _ => none

def field? (c : Cursor) : Option FieldId := fieldOf c.tree.language true c.frames

def fieldName? (c : Cursor) : Option String := c.field?.bind c.tree.language.fieldName?

/-! ### Down -/

mutual

/-- The frames down to the first visible subtree below one, before those in `above`, and
whether there is one. -/
def descend (position : Extent) (above : List Frame) : Subtree → List Frame × Bool
  | ⟨_, _, children⟩ => descendAmong position 0 above children

def descendAmong (position : Extent) (index : Nat) (above : List Frame) :
    List Subtree → List Frame × Bool
  | [] => (above, false)
  | t :: rest =>
    if t.visible then (⟨t, position, index, rest⟩ :: above, true)
    else if t.info.visibleCount > 0 then descend position (⟨t, position, index, rest⟩ :: above) t
    else descendAmong (position + t.size) (if t.extra then index else index + 1) above rest

end

/-- To the first child. -/
def firstChild (c : Cursor) : Bool × Cursor :=
  let (frames, found) := descend c.current.position c.frames c.current.subtree
  (found, c.withFrames frames)

mutual

/-- The frames down to the first visible subtree below one that ends after `goal`, with its
number, when `number` children came before. -/
def seek (goal : Nat) (position : Extent) (number : Nat) (above : List Frame) :
    Subtree → Option (Nat × List Frame)
  | ⟨_, _, children⟩ => seekAmong goal position 0 number above children

def seekAmong (goal : Nat) (position : Extent) (index number : Nat) (above : List Frame) :
    List Subtree → Option (Nat × List Frame)
  | [] => none
  | t :: rest =>
    let f : Frame := ⟨t, position, index, rest⟩
    if f.stop.bytes > goal then
      if t.visible then some (number, f :: above)
      else if t.info.visibleCount > 0 then seek goal position number (f :: above) t
      else seekAmong goal f.stop f.nextIndex number above rest
    else
      let passed := if t.visible then 1 else t.info.visibleCount
      seekAmong goal f.stop f.nextIndex (number + passed) above rest

end

/-- To the first child that ends after a byte. The answer is the child's number. -/
def firstChildForByte (c : Cursor) (goal : Nat) : Option Nat × Cursor :=
  match seek goal c.current.position 0 c.frames c.current.subtree with
  | some (number, frames) => (some number, c.withFrames frames)
  | none => (none, c)

/-- Whether a subtree at a place can hold a range: it reaches the end of the range and goes
past its start, or is empty and just at its start. -/
def reaches (f : Frame) (start stop : Nat) : Bool :=
  stop ≤ f.stop.bytes
    && (if f.position.bytes = f.stop.bytes then start ≤ f.stop.bytes else start < f.stop.bytes)

mutual

/-- The frames down to the smallest relevant subtree that holds a range, where `best` are
those of the smallest so far. -/
def enclose (start stop : Nat) (anonymous : Bool) (position : Extent) (above best : List Frame) :
    Subtree → List Frame
  | ⟨_, _, children⟩ => encloseAmong start stop anonymous position 0 above best children

def encloseAmong (start stop : Nat) (anonymous : Bool) (position : Extent) (index : Nat)
    (above best : List Frame) : List Subtree → List Frame
  | [] => best
  | t :: rest =>
    let f : Frame := ⟨t, position, index, rest⟩
    if reaches f start stop then
      if start < position.bytes then best
      else
        let best := if Node.isRelevant anonymous t then f :: above else best
        enclose start stop anonymous position (f :: above) best t
    else encloseAmong start stop anonymous f.stop f.nextIndex above best rest

end

/-- To the smallest visible node that holds a range, the current one if none is smaller. -/
def enclosing (c : Cursor) (start stop : Nat) (anonymous : Bool) : Cursor :=
  c.withFrames
    (enclose start stop anonymous c.current.position c.frames c.frames c.current.subtree)

/-! ### Along and up -/

/-- The frames at the next visible or showing sibling of the innermost frame, or of a hidden
frame around it. -/
def nextAmong (innermost : Bool) : List Frame → Option (List Frame)
  | f :: parent :: above =>
    if !innermost && f.subtree.visible then none
    else
      match Frame.firstShown f.stop f.nextIndex f.later with
      | some next => some (next :: parent :: above)
      | none => nextAmong false (parent :: above)
  | _ => none

/-- To the next sibling. -/
def nextSibling (c : Cursor) : Bool × Cursor :=
  match nextAmong true c.frames with
  | none => (false, c)
  | some frames =>
    let c := c.withFrames frames
    if c.current.subtree.visible then (true, c) else (true, c.firstChild.2)

/-- The frames at the innermost visible one; the outermost counts as visible. -/
def visibleAmong : List Frame → List Frame
  | f :: parent :: above =>
    if f.subtree.visible then f :: parent :: above else visibleAmong (parent :: above)
  | frames => frames

/-- To the closest visible ancestor. -/
def parent (c : Cursor) : Bool × Cursor :=
  match visibleAmong c.above with
  | [] => (false, c)
  | frames => (true, c.withFrames frames)

end Cursor

/-! ### What nodes find by walking -/

namespace Node

/-- As many steps to the next sibling as asked, if there are that many. -/
def steps (c : Cursor) : Nat → Option Cursor
  | 0 => some c
  | n + 1 =>
    match c.nextSibling with
    | (true, c) => steps c n
    | (false, _) => none

/-- The current node and then as many siblings after it as asked; the last one again where
there are no more. -/
def take (c : Cursor) : Nat → List Node
  | 0 => []
  | n + 1 => c.node :: take c.nextSibling.2 n

def children (n : Node) : List Node := take n.walk.firstChild.2 n.childCount

def namedChildren (n : Node) : List Node := n.children.filter (·.isNamed)

/-- The name of the field that the child of that number is in. -/
def fieldNameForChild? (n : Node) (index : Nat) : Option String :=
  match n.walk.firstChild with
  | (true, c) => (steps c index).bind (·.fieldName?)
  | (false, _) => none

/-- The first of the current node and its next siblings that a test picks, among `limit` of
them. -/
def along (pick : Node → Bool) : (limit : Nat) → Cursor → Option Cursor
  | 0, _ => none
  | limit + 1, c =>
    if pick c.node then some c
    else
      match c.nextSibling with
      | (true, next) => along pick limit next
      | (false, _) => none

/-- The last relevant node before `target`, from the current one on, or `last` if there is
none; nothing if `target` does not come among `limit` nodes. -/
def lastBefore (target : Node) (anonymous : Bool) : (limit : Nat) → Option Node → Cursor →
    Option Node
  | 0, _, _ => none
  | limit + 1, last, c =>
    if c.node.same target then last
    else
      match c.nextSibling with
      | (true, next) =>
        let last := if isRelevant anonymous c.node.subtree then some c.node else last
        lastBefore target anonymous limit last next
      | (false, _) => none

/-- The cursor after a move, if it moved. -/
def moved? (c : Bool × Cursor) : Option Cursor := if c.1 then some c.2 else none

/-- The first relevant sibling after the node. There are no more siblings than subtrees
below the parent. -/
def nextRelevant? (n : Node) (anonymous : Bool) : Option Node := do
  let parent ← n.parent?
  let limit := parent.subtree.count
  let here ← along (·.same n) limit (← moved? parent.walk.firstChild)
  let next ← along (isRelevant anonymous ·.subtree) limit (← moved? here.nextSibling)
  return next.node

/-- The last relevant sibling before the node. -/
def prevRelevant? (n : Node) (anonymous : Bool) : Option Node := do
  let parent ← n.parent?
  lastBefore n anonymous parent.subtree.count none (← moved? parent.walk.firstChild)

def nextSibling? (n : Node) : Option Node := n.nextRelevant? true
def prevSibling? (n : Node) : Option Node := n.prevRelevant? true
def nextNamedSibling? (n : Node) : Option Node := n.nextRelevant? false
def prevNamedSibling? (n : Node) : Option Node := n.prevRelevant? false

/-- The smallest visible node within this one that holds a range. -/
def descendant (n : Node) (start stop : Nat) : Node := (n.walk.enclosing start stop true).node

/-- The smallest visible and named node within this one that holds a range. -/
def namedDescendant (n : Node) (start stop : Nat) : Node :=
  (n.walk.enclosing start stop false).node

/-- Goes up from `n` until the next step is `holder`. -/
def below (holder : Node) : (steps : Nat) → Node → Option Node
  | 0, _ => none
  | steps + 1, n =>
    match n.parent? with
    | none => none
    | some parent => if parent.same holder then some n else below holder steps parent

/-- The child that is `descendant` or holds it. No way up is longer than the tree. -/
def childWith? (n descendant : Node) : Option Node :=
  below n descendant.tree.root.count descendant

end Node

end Reparse
