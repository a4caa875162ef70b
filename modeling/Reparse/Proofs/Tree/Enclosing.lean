import Reparse.Proofs.Tree.Named
import Reparse.Proofs.Tree.Nesting

/-!
The smallest node that holds a range.

What is visible below a node and holds a range that is not empty lies one in the other
(`Subtree.spanning_chain`): of subtrees side by side only one can hold it. A search for the range
goes down into that one and ends at the last of them (`Cursor.enclose_last`), which is the smallest
(`Node.smallest_enclosing`).
-/

namespace Reparse

open Subtree (total Nested NestedIn visibleAmong everywhereIn_cons everywhereIn_singleton tiled_node
  tiled_leaf)

namespace Subtree

variable {start stop : Nat}

/-! ### What holds a range -/

/-- The subtree at a place holds the range from `start` to `stop`. -/
def spans (start stop : Nat) (c : Subtree × Extent) : Bool :=
  c.2.bytes ≤ start && stop ≤ c.2.bytes + c.1.size.bytes

theorem spans_iff {c : Subtree × Extent} : spans start stop c
    ↔ c.2.bytes ≤ start ∧ stop ≤ c.2.bytes + c.1.size.bytes := by
  simp [spans]

/-- It holds the range and counts. -/
def encloses (anonymous : Bool) (start stop : Nat) (c : Subtree × Extent) : Bool :=
  Node.isRelevant anonymous c.1 && spans start stop c

variable {anonymous : Bool} {c : Subtree × Extent} {position : Extent} {t : Subtree}
  {ts : List Subtree}

theorem filter_encloses_eq_nil {cs : List (Subtree × Extent)}
    (none : ∀ c ∈ cs, ¬ spans start stop c) : cs.filter (encloses anonymous start stop) = [] :=
  List.filter_eq_nil_iff.mpr fun c member both => none c member (Bool.and_eq_true_iff.mp both).2

/-- What holds the range of a row is its first subtree, or lies below it, or comes after. -/
theorem filter_encloses_cons (t : Subtree) (rest : List Subtree) (position : Extent) :
    (visibleAmong position (t :: rest)).filter (encloses anonymous start stop)
      = (if encloses anonymous start stop (t, position) then [(t, position)] else [])
        ++ ((t.visibleBelow position).filter (encloses anonymous start stop)
          ++ (visibleAmong (position + t.size) rest).filter (encloses anonymous start stop)) := by
  rw [visibleAmong, List.append_assoc, List.filter_append, List.filter_append]
  congr 1
  by_cases visible : t.visible
  · rw [if_pos visible, List.filter_singleton]
    cases encloses anonymous start stop (t, position) <;> rfl
  · simp [encloses, Node.isRelevant, visible]

/-- Nothing that starts too late holds the range. -/
theorem NestedIn.not_spans_of_lt (nested : NestedIn ts) (late : start < position.bytes)
    (member : c ∈ visibleAmong position ts) : ¬ spans start stop c := by
  have within := nested.visible_within member
  rw [spans_iff]
  omega

/-- Nothing in a subtree that ends too soon holds the range. -/
theorem Nested.not_spans_of_lt (nested : t.Nested)
    (early : position.bytes + t.size.bytes < stop) (member : c ∈ t.visibleBelow position) :
    ¬ spans start stop c := by
  have within := nested.visible_within member
  rw [spans_iff]
  omega

/-- If a subtree holds the range, nothing after it does. -/
theorem NestedIn.not_spans_after (nested : NestedIn ts) (some : start < stop)
    (whole : stop ≤ position.bytes + t.size.bytes)
    (member : c ∈ visibleAmong (position + t.size) ts) : ¬ spans start stop c := by
  refine nested.not_spans_of_lt ?_ member
  rw [Extent.add_bytes]
  omega

mutual

/-- Of what is visible and holds the range, each lies below those before it. -/
theorem spanning_chain (some : start < stop) (position : Extent) : ∀ t : Subtree, t.Nested →
    ((t.visibleBelow position).filter (spans start stop)).Pairwise
      fun a b => b ∈ a.1.visibleBelow a.2
  | ⟨_, _, children⟩, nested => spanningAmong_chain some position children (nested_iff.mp nested).2

theorem spanningAmong_chain (some : start < stop) (position : Extent) :
    ∀ ts : List Subtree, NestedIn ts →
      ((visibleAmong position ts).filter (spans start stop)).Pairwise
        fun a b => b ∈ a.1.visibleBelow a.2
  | [], _ => .nil
  | t :: rest, nested => by
    obtain ⟨first, others⟩ := nestedIn_cons.mp nested
    have down := spanning_chain some position t first
    have along := spanningAmong_chain some (position + t.size) rest others
    -- What holds the range up to the end of `t` leaves nothing for what comes after.
    have apart (a b : Subtree × Extent) (whole : a.2.bytes + a.1.size.bytes
        ≤ position.bytes + t.size.bytes) (spansA : spans start stop a)
        (member : b ∈ visibleAmong (position + t.size) rest) : ¬ spans start stop b :=
      others.not_spans_after some (Nat.le_trans (spans_iff.mp spansA).2 whole) member
    rw [visibleAmong, List.append_assoc, List.filter_append, List.filter_append,
      List.pairwise_append, List.pairwise_append]
    refine ⟨?_, ⟨down, along, ?_⟩, ?_⟩
    · split
      · exact (List.pairwise_singleton _ _).filter _
      · exact .nil
    · intro a inT b inRest
      obtain ⟨inT, spansA⟩ := List.mem_filter.mp inT
      obtain ⟨inRest, spansB⟩ := List.mem_filter.mp inRest
      exact absurd spansB (apart a b (first.visible_within inT).2 spansA inRest)
    · intro a here b later
      obtain ⟨here, spansA⟩ := List.mem_filter.mp here
      split at here
      · obtain rfl := List.mem_singleton.mp here
        rcases List.mem_append.mp later with inT | inRest
        · exact (List.mem_filter.mp inT).1
        · obtain ⟨inRest, spansB⟩ := List.mem_filter.mp inRest
          exact absurd spansB (apart (t, position) b (Nat.le_refl _) spansA inRest)
      · cases here

end

end Subtree

open Subtree (spans encloses spans_iff filter_encloses_cons filter_encloses_eq_nil)

namespace Cursor

variable {start stop : Nat} {anonymous : Bool}

/-! ### Where the search ends -/

/-- What some frames lead to. -/
def tip (frames : List Frame) : Option (Subtree × Extent) :=
  frames.head?.map fun f => (f.subtree, f.position)

/-- A range that is not empty can be in a subtree just if the subtree goes on to its end. -/
theorem reaches_iff (some : start < stop) (f : Frame) :
    reaches f start stop = true ↔ stop ≤ f.stop.bytes := by
  rw [reaches, Bool.and_eq_true_iff]
  constructor
  · rintro ⟨whole, -⟩
    exact of_decide_eq_true whole
  · intro whole
    refine ⟨decide_eq_true whole, ?_⟩
    split <;> exact decide_eq_true (by omega)

mutual

/-- The search ends at the last of what is visible, counts and holds the range. -/
theorem enclose_last (some : start < stop) (position : Extent) (above best : List Frame) :
    ∀ t : Subtree, t.Nested →
      tip (enclose start stop anonymous position above best t)
        = ((t.visibleBelow position).filter (encloses anonymous start stop)).getLast?.or (tip best)
  | ⟨_, _, children⟩, nested =>
    encloseAmong_last some position 0 above best children (Subtree.nested_iff.mp nested).2

theorem encloseAmong_last (some : start < stop) (position : Extent) (index : Nat)
    (above best : List Frame) : ∀ ts : List Subtree, NestedIn ts →
      tip (encloseAmong start stop anonymous position index above best ts)
        = ((Subtree.visibleAmong position ts).filter (encloses anonymous start stop)).getLast?.or
          (tip best)
  | [], _ => rfl
  | t :: rest, nested => by
    obtain ⟨first, others⟩ := Subtree.nestedIn_cons.mp nested
    have reaches := reaches_iff some ⟨t, position, index, rest⟩
    rw [encloseAmong]
    dsimp only
    split
    next whole =>
      have whole : stop ≤ position.bytes + t.size.bytes := reaches.mp whole
      split
      next late =>
        rw [filter_encloses_eq_nil fun c => nested.not_spans_of_lt late]
        rfl
      next inTime =>
        let f : Frame := ⟨t, position, index, rest⟩
        have down := enclose_last some position (f :: above)
          (if Node.isRelevant anonymous t then f :: above else best) t first
        have holds : spans start stop (t, position) = true :=
          spans_iff.mpr ⟨Nat.not_lt.mp inTime, whole⟩
        have here : encloses anonymous start stop (t, position) = Node.isRelevant anonymous t := by
          simp [encloses, holds]
        rw [down, filter_encloses_cons, here,
          filter_encloses_eq_nil fun c => others.not_spans_after some whole, List.append_nil,
          List.getLast?_append, Option.or_assoc]
        refine congrArg (Option.or _) ?_
        split <;> rfl
    next short =>
      have short : position.bytes + t.size.bytes < stop :=
        Nat.lt_of_not_le fun whole => short (reaches.mpr whole)
      have along := encloseAmong_last some (position + t.size)
        (if t.extra then index else index + 1) above best rest others
      have here : ¬ encloses anonymous start stop (t, position) = true := fun both =>
        absurd (spans_iff.mp (Bool.and_eq_true_iff.mp both).2).2 (Nat.not_le.mpr short)
      rw [filter_encloses_cons, if_neg here,
        filter_encloses_eq_nil fun c => first.not_spans_of_lt short]
      exact along

end

theorem node_withFrames (c : Cursor) (frames : List Frame) :
    (c.withFrames frames).node = ((tip frames).map c.node.locate).getD c.node := by
  cases frames <;> rfl

end Cursor

/-! ### Nodes -/

namespace Node

variable {n : Node} {start stop : Nat} {anonymous : Bool}

/-- All that is visible below a node, parents before children. -/
def descendants (n : Node) : List Node := (n.subtree.visibleBelow n.position).map n.locate

/-- The bytes from `start` to `stop` are the node's. -/
def Spans (n : Node) (start stop : Nat) : Prop := n.startByte ≤ start ∧ stop ≤ n.stopByte

/-- `d` is the smallest of the nodes that hold the bytes from `start` to `stop`, of `n` itself and
those below it that count: all that are visible, or just the named ones of these. -/
structure Smallest (n : Node) (start stop : Nat) (anonymous : Bool) (d : Node) : Prop where
  below : d = n ∨ d ∈ n.descendants ∧ isRelevant anonymous d.subtree
  spans : d.Spans start stop
  around : ∀ m ∈ n.descendants, isRelevant anonymous m.subtree → m.Spans start stop →
    m = d ∨ d ∈ m.descendants

/-- The nodes below that count and hold a range, the outermost first. -/
def enclosers (n : Node) (start stop : Nat) (anonymous : Bool) : List Node :=
  ((n.subtree.visibleBelow n.position).filter (encloses anonymous start stop)).map n.locate

theorem mem_enclosers {m : Node} : m ∈ n.enclosers start stop anonymous
    ↔ m ∈ n.descendants ∧ isRelevant anonymous m.subtree ∧ m.Spans start stop := by
  have encloses_iff (c : Subtree × Extent) : encloses anonymous start stop c
      ↔ isRelevant anonymous (n.locate c).subtree ∧ (n.locate c).Spans start stop := by
    rw [encloses, Bool.and_eq_true_iff, spans_iff]
    rfl
  simp only [enclosers, descendants, List.mem_map, List.mem_filter, encloses_iff]
  constructor
  · rintro ⟨c, ⟨member, holds⟩, rfl⟩
    exact ⟨⟨c, member, rfl⟩, holds⟩
  · rintro ⟨⟨c, member, rfl⟩, holds⟩
    exact ⟨c, ⟨member, holds⟩, rfl⟩

/-- They lie one in the other. -/
theorem enclosers_chain (nested : n.subtree.Nested) (some : start < stop) :
    (n.enclosers start stop anonymous).Pairwise fun a b => b ∈ a.descendants := by
  have chain := Subtree.spanning_chain some n.position n.subtree nested
  have each : (n.subtree.visibleBelow n.position).filter (encloses anonymous start stop)
      = ((n.subtree.visibleBelow n.position).filter (spans start stop)).filter
          fun c => isRelevant anonymous c.1 := by
    rw [List.filter_filter]
    rfl
  rw [enclosers, each, List.pairwise_map]
  exact (chain.filter _).imp fun below => List.mem_map_of_mem below

/-- The search leads to the last of them, and nowhere else if there is none. -/
theorem enclosing_eq (nested : n.subtree.Nested) (some : start < stop) :
    (n.walk.enclosing start stop anonymous).node
      = (n.enclosers start stop anonymous).getLast?.getD n := by
  have last := @Cursor.enclose_last start stop anonymous some n.position n.walk.frames n.walk.frames
    n.subtree nested
  rw [Cursor.enclosing, Cursor.node_withFrames]
  refine (congrArg (fun c => (c.map n.locate).getD n) last).trans ?_
  rw [enclosers, List.getLast?_map]
  cases List.getLast? _ <;> rfl

/-- A search for a range within a node ends at the smallest node that holds it. -/
theorem smallest_enclosing (nested : n.subtree.Nested) (some : start < stop)
    (inside : n.Spans start stop) (anonymous : Bool) :
    n.Smallest start stop anonymous (n.walk.enclosing start stop anonymous).node := by
  have chain := @enclosers_chain n start stop anonymous nested some
  rw [enclosing_eq nested some]
  cases List.eq_nil_or_concat' (n.enclosers start stop anonymous) with
  | inl none =>
    rw [none]
    refine ⟨.inl rfl, inside, fun m below relevant spans => ?_⟩
    have member := mem_enclosers.mpr ⟨below, relevant, spans⟩
    rw [none] at member
    cases member
  | inr found =>
    obtain ⟨outer, d, all⟩ := found
    have last : d ∈ n.enclosers start stop anonymous := by simp [all]
    obtain ⟨below, relevant, spans⟩ := mem_enclosers.mp last
    rw [all, List.getLast?_concat, Option.getD_some]
    refine ⟨.inr ⟨below, relevant⟩, spans, fun m below relevant spans => ?_⟩
    have member := mem_enclosers.mpr ⟨below, relevant, spans⟩
    rw [all] at member chain
    rcases List.mem_append.mp member with before | is
    · exact .inr ((List.pairwise_append.mp chain).2.2 m before d (List.mem_singleton_self d))
    · exact .inl (List.mem_singleton.mp is)

end Node

/-- In a tree whose nodes are as long as their children together, looking up a range that is not
empty within a node gives the smallest node that holds it: the node itself or one below it, and all
others that hold the range lie around the one found. Looking for named nodes does so among these. -/
theorem Tree.descendant_smallest {t : Tree}
    (sums : ∀ m, t.Holds m → m.subtree.children ≠ [] →
      m.subtree.size.bytes = (total m.subtree.children).bytes)
    {n : Node} (holds : t.Holds n) {start stop : Nat} (some : start < stop)
    (inside : n.Spans start stop) :
    n.Smallest start stop true (n.descendant start stop)
      ∧ n.Smallest start stop false (n.namedDescendant start stop) := by
  have nested := holds.nested_of_sums sums
  exact ⟨Node.smallest_enclosing nested some inside true,
    Node.smallest_enclosing nested some inside false⟩

theorem Tree.ofGrouped_tiled : ofGrouped.root.Everywhere (fun _ => Subtree.Tiled) 0 := by
  have list {stamp : Stamp} {place : Nat} : (Subtree.node stamp Language.ofLists 2
      [.leaf (stamp + 1) .ofLists 1 (.ofBytes [97]) 0 1 {}] 0 1).Everywhere
        (fun _ => Subtree.Tiled) place :=
    tiled_node (everywhereIn_singleton.mpr (tiled_leaf rfl))
  refine tiled_node (everywhereIn_singleton.mpr (tiled_node ?_))
  refine everywhereIn_cons.mpr ⟨tiled_node ?_, everywhereIn_singleton.mpr list⟩
  exact everywhereIn_cons.mpr ⟨list, everywhereIn_singleton.mpr (tiled_leaf rfl)⟩

/-- The second list holds the last of the text, which is the `a` in it. -/
theorem Tree.ofGrouped_descendant_smallest :
    (ofGrouped.rootNode.descendant 2 3).subtree.stamp = 7
      ∧ (ofGrouped.rootNode.namedDescendant 2 3).subtree.stamp = 6
      ∧ ofGrouped.rootNode.Smallest 2 3 false (ofGrouped.rootNode.namedDescendant 2 3) := by
  have inside : ofGrouped.rootNode.Spans 2 3 := ⟨by decide, by decide⟩
  obtain ⟨-, named⟩ := descendant_smallest
    (fun m holds inner => congrArg Extent.bytes (ofGrouped_tiled _ _ holds.occurs inner)) .root
    (by decide) inside
  exact ⟨rfl, rfl, named⟩

end Reparse
