import Reparse.Proofs.Tree.Navigation

/-!
Named children.

A node counts how many of its children are named, and by number they are the named ones of its
children in a row (`Tree.namedChildren_agree`), as long as no anonymous child has named children of
its own. Counting goes into whatever does not count, and so into such a child too, as if it were
hidden: it finds what is no child of the node (`Tree.ofGrouped_named_astray`).
-/

namespace Reparse

namespace Node

variable {n : Node}

theorem namedChildren_eq_shown (made : n.subtree.Constructed) :
    n.namedChildren = n.shown.filter (·.isNamed) := by
  rw [namedChildren, children_eq_shown made]

/-- Of what shows, the named nodes are those that count if anonymous ones do not. -/
theorem filter_shown (n : Node) : n.shown.filter (·.isNamed)
    = ((n.subtree.shown n.position).filter fun c => isRelevant false c.1).map n.locate := by
  rw [shown, List.filter_map]
  congr 1
  apply List.filter_congr
  intro c member
  have visible := Subtree.visible_of_mem_shown n.position n.subtree member
  simp [isRelevant, visible, locate, isNamed]

theorem namedChildCount_eq (made : n.subtree.Constructed) :
    n.namedChildCount = n.namedChildren.length := by
  rw [namedChildren_eq_shown made, filter_shown, List.length_map, ← List.countP_eq_length_filter]
  exact (made.tallied false n.position).symm

/-- A number of thirty-two bits is not cut down. -/
theorem namedChild?_eq (made : n.subtree.Constructed)
    (plain : ∀ m ∈ n.shown, m.isNamed = false → m.namedChildCount = 0) {i : Nat}
    (bound : i < 4294967296) : n.namedChild? i = n.namedChildren[i]? := by
  have below : ∀ c ∈ n.subtree.shown n.position, isRelevant false c.1 = false →
      relevantCount false c.1 = 0 := by
    rintro ⟨c, p⟩ member irrelevant
    have visible : c.visible = true := Subtree.visible_of_mem_shown n.position n.subtree member
    have anonymous : c.info.named = false := by simpa [isRelevant, visible] using irrelevant
    exact plain (n.locate (c, p)) (List.mem_map_of_mem member) anonymous
  have found := Subtree.childIn_eq_shown false n.position i n.subtree made below
  rw [namedChild?, Nat.mod_eq_of_lt bound, found, namedChildren_eq_shown made, filter_shown,
    List.getElem?_map]

end Node

/-- As long as no anonymous child of a node has named children, the named children by number are
those of the children in a row that are named, and there are as many as the node counts. -/
theorem Tree.namedChildren_agree {t : Tree} (made : t.root.Constructed) {n : Node}
    (holds : t.Holds n)
    (plain : ∀ m ∈ n.children, m.isNamed = false → m.namedChildCount = 0) :
    n.namedChildCount = n.namedChildren.length
      ∧ ∀ i < 4294967296, n.namedChild? i = n.namedChildren[i]?
        ∧ ((n.namedChild? i).isSome ↔ i < n.namedChildCount) := by
  have here := holds.constructed made
  have count := Node.namedChildCount_eq here
  rw [Node.children_eq_shown here] at plain
  refine ⟨count, fun i bound => ?_⟩
  have found := Node.namedChild?_eq here plain bound
  refine ⟨found, ?_⟩
  rw [found, count]
  simp

/-- A list of nothing but an `a`, which in turn holds two lists and an `a`, the first list and the
`a` in a hidden subtree. An `a` is visible and not named. -/
def Tree.ofGrouped : Tree where
  root :=
    let lang := Language.ofLists
    let a (stamp : Stamp) : Subtree := .leaf stamp lang 1 (.ofBytes [97]) 0 1 {}
    let list (stamp : Stamp) : Subtree := .node stamp lang 2 [a (stamp + 1)] 0 1
    let hidden := Subtree.node 2 lang Symbol.stop [list 3, a 5] 0 1
    .node 0 lang 2 [.node 1 lang 1 [hidden, list 6] 0 1] 0 1
  language := .ofLists
  revision := 0

theorem Tree.ofGrouped_constructed : ofGrouped.root.Constructed := by
  have list {stamp : Stamp} : (Subtree.node stamp Language.ofLists 2
      [.leaf (stamp + 1) .ofLists 1 (.ofBytes [97]) 0 1 {}] 0 1).Constructed :=
    .node (List.forall_mem_singleton.mpr .leaf)
  refine .node (List.forall_mem_singleton.mpr (.node ?_))
  refine List.forall_mem_cons.mpr ⟨.node ?_, List.forall_mem_singleton.mpr list⟩
  exact List.forall_mem_cons.mpr ⟨list, List.forall_mem_singleton.mpr .leaf⟩

/-- The `a` that holds the lists has them as its named children. -/
theorem Tree.ofGrouped_namedChildren_agree : ∃ n, ofGrouped.rootNode.direct = [n]
    ∧ n.namedChildCount = 2 ∧ (n.namedChild? 1).map (·.startByte) = some 2
    ∧ n.namedChild? 2 = none := by
  refine ⟨_, rfl, ?_⟩
  have holds : ofGrouped.Holds _ := .direct .root (List.mem_singleton_self _)
  obtain ⟨count, each⟩ := namedChildren_agree ofGrouped_constructed holds (by decide)
  refine ⟨count, ?_, ?_⟩
  · rw [(each 1 (by decide)).1]
    rfl
  · rw [(each 2 (by decide)).1]
    rfl

/-- The outer list counts no named children and has none in a row, but by number the first list in
the `a` is one of them. -/
theorem Tree.ofGrouped_named_astray :
    ofGrouped.root.Constructed ∧ ofGrouped.Holds ofGrouped.rootNode
      ∧ ofGrouped.rootNode.namedChildCount = 0
      ∧ ofGrouped.rootNode.namedChildren[0]? = none
      ∧ (ofGrouped.rootNode.namedChild? 0).map (·.subtree.stamp) = some 3 :=
  ⟨ofGrouped_constructed, .root, rfl, rfl, rfl⟩

end Reparse
