import Reparse.Tree.Node

/-!
What differs between a tree that was edited and the tree of the parse after it.

Both are walked together. Subtrees that are one and the same at the same place match
outright, the others are compared by symbol and shape, and the stretches where the shapes
part ways are collected.
-/

namespace Reparse

/-- A subtree and where it starts. -/
structure Placed where
  tree : Subtree
  start : Extent

def Placed.stop (p : Placed) : Extent := p.start + p.tree.size

namespace Changes

/-- Adds a stretch to stretches of which the latest comes first. It widens the latest if it
does not start after that ends, and otherwise counts unless it is empty. -/
def add (ranges : List Range) (start stop : Extent) : List Range :=
  let fresh :=
    if start.bytes < stop.bytes then [⟨start.bytes, stop.bytes, start.point, stop.point⟩] else []
  match ranges with
  | [] => fresh
  | last :: rest =>
    if start.bytes ≤ last.stopByte then
      if stop.bytes > last.stopByte then
        { last with stopByte := stop.bytes, stopPoint := stop.point } :: rest
      else last :: rest
    else fresh ++ last :: rest

inductive Comparison where
  | matching
  | unclear
  | differing
  deriving DecidableEq, Repr

def compare (old new : Placed) : Comparison :=
  let a := old.tree.info
  let b := new.tree.info
  if a.symbol ≠ b.symbol ∨ a.visible ≠ b.visible ∨ a.extra ≠ b.extra then .differing
  else if old.tree.stamp = new.tree.stamp ∧ old.start.bytes = new.start.bytes ∧ !a.changed then
    .matching
  else .unclear

def lesser (a b : Extent) : Extent := if a.bytes ≤ b.bytes then a else b
def greater (a b : Extent) : Extent := if a.bytes ≥ b.bytes then a else b

/-- The stretch that two subtrees cover together. -/
def addBoth (ranges : List Range) (old new : Placed) : List Range :=
  add ranges (lesser old.start new.start) (greater old.stop new.stop)

/-- The stretch that all of some subtrees cover together. -/
def addSpan (ranges : List Range) : List Placed → List Range
  | [] => ranges
  | first :: rest =>
    let start := rest.foldl (fun start p => lesser start p.start) first.start
    let stop := rest.foldl (fun stop p => greater stop p.stop) first.stop
    add ranges start stop

def childrenAt (start : Extent) : List Subtree → List Placed
  | [] => []
  | t :: rest => ⟨t, start⟩ :: childrenAt (start + t.size) rest

/-- Drops pairs from the front as long as they match. -/
def dropMatching : List Placed → List Placed → List Placed × List Placed
  | old :: olds, new :: news =>
    if compare old new = .matching then dropMatching olds news else (old :: olds, new :: news)
  | olds, news => (olds, news)

/-- The children between those that match from the left and those that match from the
right. -/
def middle (olds news : List Placed) : List Placed × List Placed :=
  let (olds, news) := dropMatching olds news
  let (olds, news) := dropMatching olds.reverse news.reverse
  (olds.reverse, news.reverse)

/-- Two tokens, or a token and a node, that do not stand for the same text. -/
def leavesDiffer (old new : Placed) : Bool :=
  old.tree.children.length != new.tree.children.length
    || old.start.bytes != new.start.bytes
    || old.tree.size.bytes != new.tree.size.bytes
    || old.tree.info.missing != new.tree.info.missing

def weight (pairs : List (Placed × Placed)) : Nat :=
  Subtree.countAll (pairs.map (·.1.tree))

private theorem countAll_childrenAt (ts : List Subtree) (start : Extent) :
    Subtree.countAll ((childrenAt start ts).map (·.tree)) = Subtree.countAll ts := by
  induction ts generalizing start with
  | nil => rfl
  | cons t rest ih => simp [childrenAt, Subtree.countAll, ih]

private theorem countAll_dropMatching (olds news : List Placed) :
    Subtree.countAll ((dropMatching olds news).1.map (·.tree))
      ≤ Subtree.countAll (olds.map (·.tree)) := by
  induction olds generalizing news with
  | nil => simp [dropMatching]
  | cons old olds ih =>
    cases news with
    | nil => simp [dropMatching]
    | cons new news =>
      unfold dropMatching
      split
      · have := ih news
        simp only [List.map_cons, Subtree.countAll]
        omega
      · exact Nat.le_refl _

private theorem countAll_middle (olds news : List Placed) :
    Subtree.countAll ((middle olds news).1.map (·.tree))
      ≤ Subtree.countAll (olds.map (·.tree)) := by
  have front := countAll_dropMatching olds news
  have back := countAll_dropMatching (dropMatching olds news).1.reverse
    (dropMatching olds news).2.reverse
  simp only [List.map_reverse, Subtree.countAll_reverse] at back
  simp only [middle, List.map_reverse, Subtree.countAll_reverse]
  omega

private theorem weight_zip_le (olds news : List Placed) :
    weight (olds.zip news) ≤ Subtree.countAll (olds.map (·.tree)) := by
  induction olds generalizing news with
  | nil => simp [weight, Subtree.countAll]
  | cons old olds ih =>
    cases news with
    | nil => simp [weight, Subtree.countAll]
    | cons new news =>
      have := ih news
      simp only [weight, List.zip_cons_cons, List.map_cons, Subtree.countAll] at this ⊢
      omega

/-- Compares pairs of subtrees, the first of them first, and below a pair its children from
left to right. -/
def diff (ranges : List Range) : List (Placed × Placed) → List Range
  | [] => ranges
  | (old, new) :: pending =>
    match compare old new with
    | .matching => diff ranges pending
    | .differing => diff (addBoth ranges old new) pending
    | .unclear =>
      if old.tree.isLeaf || new.tree.isLeaf then
        diff (if leavesDiffer old new then addBoth ranges old new else ranges) pending
      else
        let between :=
          middle (childrenAt old.start old.tree.children) (childrenAt new.start new.tree.children)
        if between.1.length = between.2.length then
          diff ranges (between.1.zip between.2 ++ pending)
        else diff (addSpan ranges (between.1 ++ between.2)) pending
  termination_by pending => weight pending
  decreasing_by
    all_goals
      have zipped := weight_zip_le
        (middle (childrenAt old.start old.tree.children)
          (childrenAt new.start new.tree.children)).1
        (middle (childrenAt old.start old.tree.children)
          (childrenAt new.start new.tree.children)).2
      have kept := countAll_middle (childrenAt old.start old.tree.children)
        (childrenAt new.start new.tree.children)
      rw [countAll_childrenAt] at kept
      simp only [weight, List.map_append, Subtree.countAll_append, List.map_cons,
        Subtree.countAll, Subtree.count_eq] at zipped kept ⊢
      omega

/-- Stretches in order of their start, then of their end, then of their points. -/
def inOrder (a b : Range) : Bool :=
  ((Ord.compare a.startByte b.startByte).then
    ((Ord.compare a.stopByte b.stopByte).then
      ((Ord.compare a.startPoint b.startPoint).then
        (Ord.compare a.stopPoint b.stopPoint)))).isLE

/-- Joins sorted stretches that overlap or touch. -/
def merge (ranges : List Range) : List Range :=
  (ranges.foldl
    (fun merged r => add merged ⟨r.startByte, r.startPoint⟩ ⟨r.stopByte, r.stopPoint⟩) []).reverse

def between (old new : Subtree) : List Range :=
  merge ((diff [] [(⟨old, .zero⟩, ⟨new, .zero⟩)]).reverse.mergeSort inOrder)

end Changes

/-- The stretches where the structure of a new tree differs from that of an old one that was
edited to fit the new text. -/
def Tree.changedRanges (old new : Tree) : List Range := Changes.between old.root new.root

end Reparse
