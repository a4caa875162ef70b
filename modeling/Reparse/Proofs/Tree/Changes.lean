import Mathlib.Tactic.SplitIfs
import Reparse.Proofs.Tree.Ranges

/-!
Outside the changed ranges two trees look the same.

Where no range covers a byte, its chains in the two trees are the same (`Changes.between_sound`).
Both trees are walked in step, and each pair on the way is either reported or agrees
(`Changes.diff_spec`). Pairs that are still to come do not start before what was reported, even if
the trees have drifted apart (`Changes.Ready`), which is why no stretch gets lost when ranges are
collected.
-/

namespace Reparse

namespace Subtree

/-- Two subtrees of one stamp, one in each tree, are one subtree. -/
def StampsTell (old new : Subtree) : Prop :=
  ∀ u v x y, Occurs u old x → Occurs v new y → u.stamp = v.stamp → u = v

theorem StampsTell.of_mem {old new c d : Subtree} (stamps : StampsTell old new)
    (child : c ∈ old.children) (child' : d ∈ new.children) : StampsTell c d := by
  obtain ⟨x, inside⟩ := occurs_of_mem child
  obtain ⟨y, inside'⟩ := occurs_of_mem child'
  exact fun u v z w below below' => stamps u v _ _ (inside.trans below) (inside'.trans below')

end Subtree

namespace Changes

open Placed

/-! ### One pair -/

/-- Trees whose nodes are as long as their children, and in which stamps tell subtrees apart. -/
structure Comparable (old new : Subtree) : Prop where
  old_tiled : old.Everywhere (fun _ => Subtree.Tiled) 0
  new_tiled : new.Everywhere (fun _ => Subtree.Tiled) 0
  stamps : Subtree.StampsTell old new

theorem Comparable.of_mem {old new c d : Subtree} (comparable : Comparable old new)
    (child : c ∈ old.children) (child' : d ∈ new.children) : Comparable c d :=
  ⟨comparable.old_tiled.of_mem child, comparable.new_tiled.of_mem child',
    comparable.stamps.of_mem child child'⟩

variable {old new : Placed} {olds news : List Placed} {ranges : List Range} {b : Nat}

theorem alike_of_compare (similar : compare old new ≠ .differing) : Alike old new := by
  unfold compare at similar
  dsimp only at similar
  split_ifs at similar with differing
  · exact absurd rfl similar
  all_goals
    simp only [not_or, ne_eq, not_not] at differing
    exact ⟨differing.1, differing.2.1, differing.2.2⟩

/-- What matches is one subtree at one byte. -/
theorem Comparable.same (comparable : Comparable old.tree new.tree)
    (matching : compare old new = .matching) : Same old new := by
  unfold compare at matching
  dsimp only at matching
  split_ifs at matching with _ one
  exact ⟨comparable.stamps _ _ _ _ .here .here one.1, one.2.1⟩

theorem Comparable.sameChain (comparable : Comparable old.tree new.tree)
    (matching : compare old new = .matching) : SameChain (old.chain b) (new.chain b) :=
  (comparable.same matching).sameChain comparable.old_tiled

theorem sameLeaf_of_leavesDiffer (leaf : old.tree.isLeaf || new.tree.isLeaf)
    (same : leavesDiffer old new = false) : SameLeaf old new := by
  simp only [leavesDiffer, Bool.or_eq_false_iff, bne_eq_false_iff_eq] at same
  obtain ⟨⟨⟨count, start⟩, size⟩, missing⟩ := same
  simp only [Subtree.isLeaf, Bool.or_eq_true, List.isEmpty_iff] at leaf
  have both : old.tree.children = [] ∧ new.tree.children = [] := by
    rcases leaf with leaf | leaf
    · rw [leaf, List.length_nil] at count
      exact ⟨leaf, List.length_eq_zero_iff.mp count.symm⟩
    · rw [leaf, List.length_nil] at count
      exact ⟨List.length_eq_zero_iff.mp count, leaf⟩
  exact ⟨both.1, both.2, start, by rw [stop_bytes, stop_bytes, start, size], missing⟩

/-! ### Children -/

/-- What is dropped from the front matches. -/
theorem dropMatching_spec
    (tell : ∀ o ∈ olds, ∀ n ∈ news, compare o n = .matching → Same o n) :
    ∃ front front', olds = front ++ (dropMatching olds news).1
      ∧ news = front' ++ (dropMatching olds news).2 ∧ List.Forall₂ Same front front' := by
  fun_induction dropMatching olds news with
  | case1 old olds new news matching ih =>
    obtain ⟨front, front', ofOlds, ofNews, pairs⟩ := ih fun o member n member' =>
      tell o (List.mem_cons_of_mem _ member) n (List.mem_cons_of_mem _ member')
    have same := tell old List.mem_cons_self new List.mem_cons_self matching
    refine ⟨old :: front, new :: front', ?_, ?_, .cons same pairs⟩
    · rw [List.cons_append, ← ofOlds]
    · rw [List.cons_append, ← ofNews]
  | case2 => exact ⟨[], [], rfl, rfl, .nil⟩
  | case3 => exact ⟨[], [], rfl, rfl, .nil⟩

/-- What is left out on both sides of the middle matches. -/
theorem middle_spec (tell : ∀ o ∈ olds, ∀ n ∈ news, compare o n = .matching → Same o n) :
    ∃ front front' back back', olds = front ++ (middle olds news).1 ++ back
      ∧ news = front' ++ (middle olds news).2 ++ back'
      ∧ List.Forall₂ Same front front' ∧ List.Forall₂ Same back back' := by
  obtain ⟨front, front', ofOlds, ofNews, pairs⟩ := dropMatching_spec tell
  have tell' : ∀ o ∈ (dropMatching olds news).1.reverse, ∀ n ∈ (dropMatching olds news).2.reverse,
      compare o n = .matching → Same o n := by
    intro o member n member'
    rw [List.mem_reverse] at member member'
    exact tell o (ofOlds ▸ List.mem_append_right _ member) n
      (ofNews ▸ List.mem_append_right _ member')
  obtain ⟨back, back', ofRest, ofRest', pairs'⟩ := dropMatching_spec tell'
  rw [List.reverse_eq_iff, List.reverse_append] at ofRest ofRest'
  refine ⟨front, front', back.reverse, back'.reverse, ?_, ?_, pairs,
    List.forall₂_reverse_iff.mpr pairs'⟩
  · rw [List.append_assoc]
    exact ofOlds.trans (congrArg (front ++ ·) ofRest)
  · rw [List.append_assoc]
    exact ofNews.trans (congrArg (front' ++ ·) ofRest')

/-- The children of two nodes, of which those that match on either side are left out. -/
def inside (old new : Placed) : List Placed × List Placed := middle old.children new.children

/-- Two nodes to compare and what their children come to. -/
structure Opened (old new : Placed) : Prop where
  comparable : Comparable old.tree new.tree
  alike : Alike old new
  old_node : old.tree.children ≠ []
  new_node : new.tree.children ≠ []

theorem Comparable.opened (comparable : Comparable old.tree new.tree)
    (unclear : compare old new = .unclear) (leafless : ¬ (old.tree.isLeaf || new.tree.isLeaf)) :
    Opened old new := by
  simp only [Subtree.isLeaf, Bool.or_eq_true, List.isEmpty_iff, not_or] at leafless
  exact ⟨comparable, alike_of_compare (by rw [unclear]; nofun), leafless.1, leafless.2⟩

namespace Opened

variable (opened : Opened old new)
include opened

theorem old_tiled : old.tree.Tiled := (Subtree.everywhere_iff.mp opened.comparable.old_tiled).1

theorem new_tiled : new.tree.Tiled := (Subtree.everywhere_iff.mp opened.comparable.new_tiled).1

theorem child {o n : Placed} (oldChild : o ∈ old.children) (newChild : n ∈ new.children) :
    Comparable o.tree n.tree :=
  opened.comparable.of_mem (tree_mem_of_mem_children oldChild) (tree_mem_of_mem_children newChild)

theorem split : ∃ front front' back back', old.children = front ++ (inside old new).1 ++ back
    ∧ new.children = front' ++ (inside old new).2 ++ back'
    ∧ List.Forall₂ Same front front' ∧ List.Forall₂ Same back back' :=
  middle_spec fun _ oldChild _ newChild => (opened.child oldChild newChild).same

theorem sameChain
    (between : SameChain (chainIn b (inside old new).1) (chainIn b (inside old new).2)) :
    SameChain (old.chain b) (new.chain b) := by
  obtain ⟨front, front', back, back', ofOld, ofNew, fronts, backs⟩ := opened.split
  have whole {olds news : List Placed} (pairs : List.Forall₂ Same olds news)
      (children : ∀ o ∈ olds, o ∈ old.children) : SameChain (chainIn b olds) (chainIn b news) := by
    refine sameChain_of_pairs (((List.forall₂_and_left _ _).mpr ⟨children, pairs⟩).imp ?_)
    rintro o n ⟨child, same⟩
    exact same.sameChain (opened.comparable.old_tiled.of_mem (tree_mem_of_mem_children child))
  refine sameChain_of_children opened.alike opened.old_tiled opened.old_node opened.new_tiled
    opened.new_node ?_
  rw [ofOld, ofNew]
  refine ((whole fronts ?_).append between).append (whole backs ?_)
  · intro o member
    rw [ofOld]
    exact List.mem_append_left _ (List.mem_append_left _ member)
  · intro o member
    rw [ofOld]
    exact List.mem_append_right _ member

theorem old_sublist : (inside old new).1.Sublist old.children := by
  obtain ⟨_, _, _, _, ofOld, -⟩ := opened.split
  rw [ofOld]
  exact (List.sublist_append_right _ _).trans (List.sublist_append_left _ _)

theorem new_sublist : (inside old new).2.Sublist new.children := by
  obtain ⟨_, _, _, _, -, ofNew, -⟩ := opened.split
  rw [ofNew]
  exact (List.sublist_append_right _ _).trans (List.sublist_append_left _ _)

theorem old_within {o : Placed} (member : o ∈ (inside old new).1) :
    old.start.bytes ≤ o.start.bytes ∧ o.stop.bytes ≤ old.stop.bytes :=
  (abut_children opened.old_tiled opened.old_node).of_mem (opened.old_sublist.subset member)

theorem new_within {n : Placed} (member : n ∈ (inside old new).2) :
    new.start.bytes ≤ n.start.bytes ∧ n.stop.bytes ≤ new.stop.bytes :=
  (abut_children opened.new_tiled opened.new_node).of_mem (opened.new_sublist.subset member)

theorem old_ordered :
    (inside old new).1.Pairwise fun p q => p.stop.bytes ≤ q.start.bytes :=
  (abut_children opened.old_tiled opened.old_node).ordered.sublist opened.old_sublist

theorem new_ordered :
    (inside old new).2.Pairwise fun p q => p.stop.bytes ≤ q.start.bytes :=
  (abut_children opened.new_tiled opened.new_node).ordered.sublist opened.new_sublist

/-- What is left starts before both nodes end, even where one of them has nothing left. -/
theorem le_stop (some : (inside old new).1 ≠ [] ∨ (inside old new).2 ≠ []) {n : Nat}
    (least : ∀ p ∈ (inside old new).1 ++ (inside old new).2, n ≤ p.start.bytes) :
    n ≤ old.stop.bytes ∧ n ≤ new.stop.bytes := by
  obtain ⟨front, front', back, back', ofOld, ofNew, fronts, backs⟩ := opened.split
  have full := children_ne_nil opened.old_node
  have full' := children_ne_nil opened.new_node
  have abut := abut_children opened.old_tiled opened.old_node
  have abut' := abut_children opened.new_tiled opened.new_node
  rw [ofOld] at abut full
  rw [ofNew] at abut' full'
  obtain ⟨d, abut, abutBack⟩ := abut_append.mp abut
  obtain ⟨c, abutFront, abut⟩ := abut_append.mp abut
  obtain ⟨d', abut', abutBack'⟩ := abut_append.mp abut'
  obtain ⟨c', abutFront', abut'⟩ := abut_append.mp abut'
  obtain ⟨least, least'⟩ := List.forall_mem_append.mp least
  have low : (inside old new).1 ≠ [] → n ≤ c := fun some => abut.le_start some least
  have low' : (inside old new).2 ≠ [] → n ≤ c' := fun some => abut'.le_start some least'
  -- What matches on one side pins what is left of both nodes to one byte.
  have early : n ≤ d ∧ n ≤ d' := by
    have := abut.le
    have := abut'.le
    by_cases frontless : front = []
    · by_cases backless : back = []
      · subst frontless backless
        cases fronts
        cases backs
        have := low (by simpa using full)
        have := low' (by simpa using full')
        omega
      · have := (Abut.of_same backs abutBack abutBack' backless).1
        have := some.imp low low'
        omega
    · have := (Abut.of_same fronts abutFront abutFront' frontless).2
      have := some.imp low low'
      omega
  exact ⟨Nat.le_trans early.1 abutBack.le, Nat.le_trans early.2 abutBack'.le⟩

end Opened

/-! ### All pairs -/

theorem pairwise_zip {R S : Placed → Placed → Prop} {olds news : List Placed}
    (left : olds.Pairwise R) (right : news.Pairwise S) :
    (olds.zip news).Pairwise fun p q => R p.1 q.1 ∧ S p.2 q.2 := by
  induction left generalizing news with
  | nil => exact .nil
  | @cons o olds first _ ih =>
    cases right with
    | nil => exact .nil
    | @cons n news first' right =>
      refine .cons ?_ (ih right)
      rintro ⟨o', n'⟩ member
      obtain ⟨isOld, isNew⟩ := List.of_mem_zip member
      exact ⟨first o' isOld, first' n' isNew⟩

/-- What was reported, and the pairs to come: both trees are walked from left to right, and no
pair starts before what was reported. -/
structure Ready (ranges : List Range) (pending : List (Placed × Placed)) : Prop where
  separated : Separated ranges
  sorted : ∀ r ∈ ranges, ∀ p ∈ pending,
    r.startByte ≤ p.1.start.bytes ∧ r.startByte ≤ p.2.start.bytes
  ordered : pending.Pairwise fun p q =>
    p.1.stop.bytes ≤ q.1.start.bytes ∧ p.2.stop.bytes ≤ q.2.start.bytes

/-- What is found of some pairs in the end: what no range covers is the same in both trees. -/
structure Found (ranges : List Range) (pending : List (Placed × Placed)) (found : List Range) :
    Prop where
  separated : Separated found
  kept : ∀ b, Covered ranges b → Covered found b
  same : ∀ b, ¬ Covered found b → ∀ p ∈ pending, SameChain (p.1.chain b) (p.2.chain b)

variable {pending : List (Placed × Placed)} {reported : List Range}

theorem Found.cons (rest : Found ranges pending reported)
    (same : ∀ b, ¬ Covered reported b → SameChain (old.chain b) (new.chain b)) :
    Found ranges ((old, new) :: pending) reported where
  separated := rest.separated
  kept := rest.kept
  same b uncovered := List.forall_mem_cons.mpr ⟨same b uncovered, rest.same b uncovered⟩

namespace Ready

theorem skip (ready : Ready ranges ((old, new) :: pending)) : Ready ranges pending where
  separated := ready.separated
  sorted r member := (List.forall_mem_cons.mp (ready.sorted r member)).2
  ordered := (List.pairwise_cons.mp ready.ordered).2

theorem before (ready : Ready ranges ((old, new) :: pending)) {r : Range} (member : r ∈ ranges) :
    r.startByte ≤ old.start.bytes ∧ r.startByte ≤ new.start.bytes :=
  ready.sorted r member (old, new) List.mem_cons_self

theorem after (ready : Ready ranges ((old, new) :: pending)) {q : Placed × Placed}
    (member : q ∈ pending) :
    old.stop.bytes ≤ q.1.start.bytes ∧ new.stop.bytes ≤ q.2.start.bytes :=
  (List.pairwise_cons.mp ready.ordered).1 q member

/-- A pair may be reported by any subtrees of it, of which one starts before both end. -/
theorem report (ready : Ready ranges ((old, new) :: pending)) (ps : List Placed)
    (within : ∀ p ∈ ps, old.start.bytes ≤ p.start.bytes ∨ new.start.bytes ≤ p.start.bytes)
    (le_stop : ∀ n, (∀ p ∈ ps, n ≤ p.start.bytes) → n ≤ old.stop.bytes ∧ n ≤ new.stop.bytes)
    (same : ∀ b, (∀ p ∈ ps, ¬ p.Covers b) → SameChain (old.chain b) (new.chain b))
    (rest : Ready (addSpan ranges ps) pending → Found (addSpan ranges ps) pending reported) :
    Found ranges ((old, new) :: pending) reported := by
  have sorted : ∀ r ∈ ranges, ∀ p ∈ ps, r.startByte ≤ p.start.bytes := by
    intro r member p isIn
    have := ready.before member
    have := within p isIn
    omega
  obtain ⟨separated, sorted, kept, covers⟩ := addSpan_spec ready.separated sorted
  have ready' : Ready (addSpan ranges ps) pending := by
    refine ⟨separated, fun r member q isIn => ?_, ready.skip.ordered⟩
    have := le_stop r.startByte (sorted r member)
    have := ready.after isIn
    omega
  have found := rest ready'
  have fewer : Found ranges pending _ :=
    ⟨found.separated, fun b covered => found.kept b (kept b covered), found.same⟩
  refine fewer.cons fun b uncovered => same b fun p isIn covered => uncovered ?_
  exact found.kept b (covers p isIn b covered)

theorem reportBoth (ready : Ready ranges ((old, new) :: pending))
    (rest : Ready (addBoth ranges old new) pending →
      Found (addBoth ranges old new) pending reported) :
    Found ranges ((old, new) :: pending) reported := by
  have := old.start_le_stop
  have := new.start_le_stop
  refine ready.report [old, new] ?_ ?_ ?_ rest
  · simp
  · simp only [List.forall_mem_cons]
    omega
  · intro b uncovered
    simp only [List.forall_mem_cons] at uncovered
    exact sameChain_of_uncovered uncovered.1 uncovered.2.1

/-- The pair gives way to pairs of children. -/
theorem descend (ready : Ready ranges ((old, new) :: pending)) (opened : Opened old new) :
    Ready ranges ((inside old new).1.zip (inside old new).2 ++ pending) := by
  have within : ∀ p ∈ (inside old new).1.zip (inside old new).2,
      (old.start.bytes ≤ p.1.start.bytes ∧ p.1.stop.bytes ≤ old.stop.bytes)
        ∧ new.start.bytes ≤ p.2.start.bytes ∧ p.2.stop.bytes ≤ new.stop.bytes := by
    rintro ⟨o, n⟩ member
    obtain ⟨isOld, isNew⟩ := List.of_mem_zip member
    exact ⟨opened.old_within isOld, opened.new_within isNew⟩
  refine ⟨ready.separated, fun r member => List.forall_mem_append.mpr ⟨fun p isIn => ?_, ?_⟩,
    List.pairwise_append.mpr
      ⟨pairwise_zip opened.old_ordered opened.new_ordered, ready.skip.ordered, ?_⟩⟩
  · have := ready.before member
    have := within p isIn
    omega
  · exact ready.skip.sorted r member
  · intro p isIn q later
    have := within p isIn
    have := ready.after later
    omega

/-- Nodes that have not as many children left as each other are reported by what is left. -/
theorem reportInside (ready : Ready ranges ((old, new) :: pending)) (opened : Opened old new)
    (unequal : (inside old new).1.length ≠ (inside old new).2.length)
    (rest : Ready (addSpan ranges ((inside old new).1 ++ (inside old new).2)) pending →
      Found (addSpan ranges ((inside old new).1 ++ (inside old new).2)) pending reported) :
    Found ranges ((old, new) :: pending) reported := by
  have some : (inside old new).1 ≠ [] ∨ (inside old new).2 ≠ [] := by
    refine not_and_or.mp fun neither => unequal ?_
    rw [neither.1, neither.2]
  refine ready.report _ ?_ (fun _ least => opened.le_stop some least) ?_ rest
  · refine List.forall_mem_append.mpr ⟨fun p isIn => ?_, fun p isIn => ?_⟩
    · exact .inl (opened.old_within isIn).1
    · exact .inr (opened.new_within isIn).1
  · intro b uncovered
    obtain ⟨ofOld, ofNew⟩ := List.forall_mem_append.mp uncovered
    exact opened.sameChain (sameChain_among_uncovered ofOld ofNew)

end Ready

/-- What is found of the pairs of children is found of the nodes. -/
theorem Found.ascend
    (found : Found ranges ((inside old new).1.zip (inside old new).2 ++ pending) reported)
    (opened : Opened old new) (equal : (inside old new).1.length = (inside old new).2.length) :
    Found ranges ((old, new) :: pending) reported := by
  have split (b : Nat) (uncovered : ¬ Covered reported b) :=
    List.forall_mem_append.mp (found.same b uncovered)
  have rest : Found ranges pending reported :=
    ⟨found.separated, found.kept, fun b uncovered => (split b uncovered).2⟩
  refine rest.cons fun b uncovered => opened.sameChain (sameChain_of_pairs ?_)
  refine List.forall₂_iff_zip.mpr ⟨equal, fun {o n} isIn => ?_⟩
  exact (split b uncovered).1 (o, n) isIn

theorem diff_spec (ready : Ready ranges pending)
    (comparable : ∀ p ∈ pending, Comparable p.1.tree p.2.tree) :
    Found ranges pending (diff ranges pending) := by
  fun_induction diff ranges pending with
  | case1 => exact ⟨ready.separated, fun _ covered => covered, nofun⟩
  | case2 ranges old new pending matching ih =>
    obtain ⟨here, later⟩ := List.forall_mem_cons.mp comparable
    exact (ih ready.skip later).cons fun _ _ => here.sameChain matching
  | case3 ranges old new pending differing ih =>
    obtain ⟨-, later⟩ := List.forall_mem_cons.mp comparable
    exact ready.reportBoth fun ready => ih ready later
  | case4 ranges old new pending unclear leaf ih =>
    obtain ⟨-, later⟩ := List.forall_mem_cons.mp comparable
    cases differ : leavesDiffer old new with
    | true =>
      rw [differ] at ih
      exact ready.reportBoth fun ready => ih ready later
    | false =>
      rw [differ] at ih
      refine (ih ready.skip later).cons fun b _ => sameChain_of_leaf ?_ ?_
      · exact alike_of_compare (by rw [unclear]; nofun)
      · exact sameLeaf_of_leavesDiffer leaf differ
  | case5 ranges old new pending unclear leafless between equal ih =>
    obtain ⟨here, later⟩ := List.forall_mem_cons.mp comparable
    have opened := here.opened unclear leafless
    refine (ih (ready.descend opened) ?_).ascend opened equal
    refine List.forall_mem_append.mpr ⟨fun p isIn => ?_, later⟩
    obtain ⟨isOld, isNew⟩ := List.of_mem_zip isIn
    exact opened.child (opened.old_sublist.subset isOld) (opened.new_sublist.subset isNew)
  | case6 ranges old new pending unclear leafless between unequal ih =>
    obtain ⟨here, later⟩ := List.forall_mem_cons.mp comparable
    exact ready.reportInside (here.opened unclear leafless) unequal fun ready => ih ready later

/-! ### Whole trees -/

/-- Changed ranges are not empty, in order, and apart, and outside of them nothing has changed. -/
theorem between_sound (old new : Subtree) (oldTiled : old.Everywhere (fun _ => Subtree.Tiled) 0)
    (newTiled : new.Everywhere (fun _ => Subtree.Tiled) 0)
    (stamps : Subtree.StampsTell old new) :
    (∀ r ∈ between old new, r.startByte < r.stopByte)
      ∧ (between old new).Pairwise (fun earlier later => earlier.stopByte < later.startByte)
      ∧ ∀ b, ¬ Covered (between old new) b →
        (b < old.size.bytes ↔ b < new.size.bytes)
          ∧ SameChain (old.chain b .zero) (new.chain b .zero) := by
  have ready : Ready [] [(⟨old, .zero⟩, ⟨new, .zero⟩)] :=
    ⟨separated_nil, nofun, List.pairwise_singleton ..⟩
  have found := diff_spec ready (by simpa using ⟨oldTiled, newTiled, stamps⟩)
  have separated := found.separated
  rw [between, merge_mergeSort separated]
  refine ⟨fun r member => separated.nonempty r (List.mem_reverse.mp member),
    List.pairwise_reverse.mpr separated.apart, fun b uncovered => ?_⟩
  have same : SameChain (old.chain b .zero) (new.chain b .zero) := by
    refine found.same b (fun covered => uncovered ?_) _ List.mem_cons_self
    obtain ⟨r, member, inside⟩ := covered
    exact ⟨r, List.mem_reverse.mpr member, inside⟩
  have outside := same.eq_nil_iff
  rw [show old.chain b .zero = chain b ⟨old, .zero⟩ from rfl,
    show new.chain b .zero = chain b ⟨new, .zero⟩ from rfl, chain_eq_nil_iff, chain_eq_nil_iff,
    not_iff_not, covers_root, covers_root] at outside
  exact ⟨outside, same⟩

/-! ### Two small trees -/

/-- A token of one byte. -/
def tokenOf (stamp : Stamp) (symbol : Symbol) : Subtree :=
  ⟨stamp, { symbol, size := .ofBytes [97] }, []⟩

def nodeOf (stamp : Stamp) (first second : Subtree) : Subtree :=
  ⟨stamp, { symbol := 4, size := first.size + second.size }, [first, second]⟩

section

variable {stamp stamp' stamp'' : Stamp} {symbol symbol' : Symbol} {u first second : Subtree}
  {x : Extent}

theorem occurs_tokenOf (inside : Subtree.Occurs u (tokenOf stamp symbol) x) :
    u = tokenOf stamp symbol := by
  rcases Subtree.occurs_iff.mp inside with ⟨here, -⟩ | below
  · exact here
  · exact absurd below Subtree.not_occursIn_nil

theorem occurs_nodeOf (inside : Subtree.Occurs u (nodeOf stamp (tokenOf stamp' symbol)
    (tokenOf stamp'' symbol')) x) :
    u = nodeOf stamp (tokenOf stamp' symbol) (tokenOf stamp'' symbol')
      ∨ u = tokenOf stamp' symbol ∨ u = tokenOf stamp'' symbol' := by
  rcases Subtree.occurs_iff.mp inside with ⟨here, -⟩ | below
  · exact .inl here
  · rcases Subtree.occursIn_cons.mp below with below | ⟨y, -, below⟩
    · exact .inr (.inl (occurs_tokenOf below))
    · rcases Subtree.occursIn_cons.mp below with below | ⟨z, -, below⟩
      · exact .inr (.inr (occurs_tokenOf below))
      · exact absurd below Subtree.not_occursIn_nil

theorem nodeOf_tiled : (nodeOf stamp (tokenOf stamp' symbol) (tokenOf stamp'' symbol')).Everywhere
    (fun _ => Subtree.Tiled) 0 := by
  intro u x inside
  rcases occurs_nodeOf inside with rfl | rfl | rfl
  · intro _
    rfl
  · exact absurd rfl
  · exact absurd rfl

end

/-- A token that gives way to another one is a changed range, and the token before it is not. -/
theorem nodeOf_between_sound :
    between (nodeOf 3 (tokenOf 1 1) (tokenOf 2 1)) (nodeOf 5 (tokenOf 1 1) (tokenOf 4 3))
        = [⟨1, 2, ⟨0, 1⟩, ⟨0, 2⟩⟩]
      ∧ SameChain ((nodeOf 3 (tokenOf 1 1) (tokenOf 2 1)).chain 0 .zero)
        ((nodeOf 5 (tokenOf 1 1) (tokenOf 4 3)).chain 0 .zero) := by
  have stamps : Subtree.StampsTell (nodeOf 3 (tokenOf 1 1) (tokenOf 2 1))
      (nodeOf 5 (tokenOf 1 1) (tokenOf 4 3)) := by
    intro u v x y inOld inNew same
    rcases occurs_nodeOf inOld with rfl | rfl | rfl
    all_goals rcases occurs_nodeOf inNew with rfl | rfl | rfl
    all_goals first | rfl | cases same
  have ranges : between (nodeOf 3 (tokenOf 1 1) (tokenOf 2 1))
      (nodeOf 5 (tokenOf 1 1) (tokenOf 4 3)) = [⟨1, 2, ⟨0, 1⟩, ⟨0, 2⟩⟩] := by
    decide +kernel
  obtain ⟨-, -, sound⟩ := between_sound _ _ nodeOf_tiled nodeOf_tiled stamps
  rw [ranges] at sound
  exact ⟨ranges, (sound 0 (by simp [Covered])).2⟩

end Changes

end Reparse
