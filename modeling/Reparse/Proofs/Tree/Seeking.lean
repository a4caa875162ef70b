import Reparse.Proofs.Tree.Nesting

/-!
The first child past a byte.

Whatever a search for the first child past a byte finds is that child (`Cursor.seek_first`). But it
goes into the first hidden subtree that ends past the byte and does not come back from there. If
that has children to show and ends in hidden text with the byte in it, nothing is found, though a
later child ends past the byte (`Tree.ofHoisted_seek_astray`). Unless there is such a subtree, the
search finds the child if there is one (`Tree.firstChildForByte_first`).
-/

namespace Reparse

open Subtree (Constructed Nested NestedIn shown shownAmong)

namespace Subtree

variable {position : Extent} {t : Subtree}

/-! ### Hidden subtrees -/

mutual

/-- The hidden subtrees of a subtree that starts at a position, with nothing visible between, each
with its own position. -/
def veils (position : Extent) : Subtree → List (Subtree × Extent)
  | ⟨_, _, children⟩ => veilsAmong position children

def veilsAmong (position : Extent) : List Subtree → List (Subtree × Extent)
  | [] => []
  | t :: rest =>
    (if t.visible then [] else (t, position) :: t.veils position)
      ++ veilsAmong (position + t.size) rest

end

/-- The byte where the subtree at a place ends. -/
def stopOf (c : Subtree × Extent) : Nat := (c.2 + c.1.size).bytes

/-- Each hidden subtree that ends past a byte has nothing to show or shows something that ends past
it too. -/
def Clear (goal : Nat) (veils : List (Subtree × Extent)) : Prop :=
  ∀ h ∈ veils, h.1.shown h.2 ≠ [] → goal < stopOf h → ∃ c ∈ h.1.shown h.2, goal < stopOf c

/-- What shows of a subtree ends with it at the latest. -/
theorem Nested.stopOf_le (nested : t.Nested) {c : Subtree × Extent}
    (member : c ∈ t.shown position) : stopOf c ≤ (position + t.size).bytes :=
  (nested.visible_within ((shown_sublist_visibleBelow t position).subset member)).2

end Subtree

open Subtree (veils veilsAmong stopOf Clear)

/-- What is on a path into a subtree has room for its children if all of the subtree has. -/
theorem Frame.Path.nested {r : Node} {frames : List Frame} (nested : r.subtree.Nested)
    (path : Frame.Path r frames) : ∀ f ∈ frames, f.subtree.Nested :=
  fun f frame => (path.inherited Nested.child nested f frame).1

namespace Cursor

/-! ### Ways that end past a byte -/

/-- The byte where a way ends. -/
def stopByte (frames : List Frame) : Nat := (frames.head?.map (·.stop.bytes)).getD 0

/-- `w` is the way of that number, and the first of all that ends past the byte. -/
structure FirstPast (goal : Nat) (ways : List (List Frame)) (i : Nat) (w : List Frame) : Prop where
  at_i : ways[i]? = some w
  past : goal < stopByte w
  before : ∀ v ∈ ways.take i, stopByte v ≤ goal

variable {goal number index i : Nat} {a b ways : List (List Frame)} {w above : List Frame}
  {position : Extent} {f : Frame}

theorem FirstPast.append (first : FirstPast goal a i w) : FirstPast goal (a ++ b) i w := by
  have inside := (List.getElem?_eq_some_iff.mp first.at_i).1
  refine ⟨?_, first.past, ?_⟩
  · rw [List.getElem?_append_left inside]
    exact first.at_i
  · rw [List.take_append_of_le_length (Nat.le_of_lt inside)]
    exact first.before

theorem FirstPast.after (none : ∀ v ∈ a, stopByte v ≤ goal) (first : FirstPast goal b i w) :
    FirstPast goal (a ++ b) (a.length + i) w := by
  refine ⟨?_, first.past, ?_⟩
  · rw [List.getElem?_append_right (Nat.le_add_right _ _), Nat.add_sub_cancel_left]
    exact first.at_i
  · rw [List.take_length_add_append]
    intro v member
    exact (List.mem_append.mp member).elim (none v) (first.before v)

/-- Ways down end where what shows ends. -/
theorem stopByte_waysDown (position : Extent) (above : List Frame) (t : Subtree) :
    (waysDown position above t).map stopByte = (t.shown position).map stopOf :=
  waysDown_ends (fun _ _ => rfl) position above t

theorem stopByte_waysDown_le {t : Subtree} {bound : Nat} :
    (∀ w ∈ waysDown position above t, stopByte w ≤ bound)
      ↔ ∀ c ∈ t.shown position, stopOf c ≤ bound := by
  rw [← List.forall_mem_map (f := stopByte) (P := (· ≤ bound)), stopByte_waysDown,
    List.forall_mem_map]

theorem length_waysInto (made : f.subtree.Constructed) :
    (waysInto (f :: above)).length
      = if f.subtree.visible then 1 else f.subtree.info.visibleCount := by
  rw [waysInto]
  split
  · rfl
  · exact length_waysDown made f.position (f :: above)

/-- Ways into a frame do not end past it. -/
theorem stopByte_waysInto (nested : f.subtree.Nested) :
    ∀ v ∈ waysInto (f :: above), stopByte v ≤ f.stop.bytes := by
  intro v member
  rw [waysInto] at member
  split at member
  · rw [List.mem_singleton.mp member]
    exact Nat.le_refl _
  · exact stopByte_waysDown_le.mpr (fun c => nested.stopOf_le) v member

/-! ### What a search finds -/

mutual

/-- What is found is the first of the ways down that ends past the byte. -/
theorem seek_first {found : Nat × List Frame} (position : Extent) (number : Nat)
    (above : List Frame) : ∀ t : Subtree, t.Constructed → t.Nested →
      seek goal position number above t = some found →
      ∃ i, found.1 = number + i ∧ FirstPast goal (waysDown position above t) i found.2
  | ⟨_, _, children⟩, made, nested, seen =>
    seekAmong_first position 0 number above children (fun _ => made.child)
      (Subtree.nested_iff.mp nested).2 seen

theorem seekAmong_first {found : Nat × List Frame} (position : Extent) (index number : Nat)
    (above : List Frame) : ∀ ts : List Subtree, (∀ c ∈ ts, c.Constructed) → NestedIn ts →
      seekAmong goal position index number above ts = some found →
      ∃ i, found.1 = number + i ∧ FirstPast goal (waysAmong position index above ts) i found.2
  | [], _, _, seen => by cases seen
  | t :: rest, made, nested, seen => by
    obtain ⟨first, others⟩ := List.forall_mem_cons.mp made
    obtain ⟨room, along⟩ := Subtree.nestedIn_cons.mp nested
    let f : Frame := ⟨t, position, index, rest⟩
    have count : (waysInto (f :: above)).length = _ := length_waysInto first
    rw [seekAmong] at seen
    rw [waysAmong_cons]
    dsimp only at seen
    split at seen
    next past =>
      split at seen
      next visible =>
        cases seen
        refine ⟨0, rfl, FirstPast.append ⟨?_, past, nofun⟩⟩
        rw [waysInto, if_pos visible]
        rfl
      next hidden =>
        split at seen
        next some =>
          obtain ⟨i, is, down⟩ := seek_first position number (f :: above) t first room seen
          refine ⟨i, is, FirstPast.append ?_⟩
          rw [waysInto, if_neg hidden]
          exact down
        next none =>
          rw [if_neg hidden, Nat.eq_zero_of_not_pos none] at count
          rw [List.length_eq_zero_iff.mp count, List.nil_append]
          exact seekAmong_first f.stop f.nextIndex number above rest others along seen
    next short =>
      obtain ⟨i, is, later⟩ := seekAmong_first f.stop f.nextIndex _ above rest others along seen
      refine ⟨(waysInto (f :: above)).length + i, ?_, later.after fun v member => ?_⟩
      · rw [count, is, Nat.add_assoc]
      · exact Nat.le_trans (stopByte_waysInto room v member) (Nat.not_lt.mp short)

end

mutual

/-- If nothing is found, no way down ends past the byte, unless something hidden ends past all that
it shows and past the byte. -/
theorem seek_none (position : Extent) (number : Nat) (above : List Frame) :
    ∀ t : Subtree, t.Constructed → t.Nested → Clear goal (t.veils position) →
      seek goal position number above t = none →
      ∀ w ∈ waysDown position above t, stopByte w ≤ goal
  | ⟨_, _, children⟩, made, nested, clear, missed =>
    seekAmong_none position 0 number above children (fun _ => made.child)
      (Subtree.nested_iff.mp nested).2 clear missed

theorem seekAmong_none (position : Extent) (index number : Nat) (above : List Frame) :
    ∀ ts : List Subtree, (∀ c ∈ ts, c.Constructed) → NestedIn ts →
      Clear goal (veilsAmong position ts) →
      seekAmong goal position index number above ts = none →
      ∀ w ∈ waysAmong position index above ts, stopByte w ≤ goal
  | [], _, _, _, _ => nofun
  | t :: rest, made, nested, clear, missed => by
    obtain ⟨first, others⟩ := List.forall_mem_cons.mp made
    obtain ⟨room, along⟩ := Subtree.nestedIn_cons.mp nested
    let f : Frame := ⟨t, position, index, rest⟩
    obtain ⟨inside, after⟩ := List.forall_mem_append.mp clear
    have later (number : Nat) :=
      seekAmong_none f.stop f.nextIndex number above rest others along after
    have count : (waysInto (f :: above)).length = _ := length_waysInto first
    rw [seekAmong] at missed
    rw [waysAmong_cons, List.forall_mem_append]
    dsimp only at missed
    split at missed
    next past =>
      split at missed
      next => cases missed
      next hidden =>
        rw [if_neg hidden] at inside
        obtain ⟨here, below⟩ := List.forall_mem_cons.mp inside
        split at missed
        next some =>
          -- All that shows of `t` ends too soon, but then something else would be found first.
          have down := seek_none position number (f :: above) t first room below missed
          have ends := stopByte_waysDown_le.mp down
          have shows : t.shown position ≠ [] := by
            rw [← List.length_pos_iff, first.counted position]
            exact some
          obtain ⟨c, member, late⟩ := here shows past
          exact absurd (ends c member) (Nat.not_le.mpr late)
        next none =>
          rw [if_neg hidden, Nat.eq_zero_of_not_pos none] at count
          rw [List.length_eq_zero_iff.mp count]
          exact ⟨nofun, later number missed⟩
    next short =>
      refine ⟨fun v member => ?_, later _ missed⟩
      exact Nat.le_trans (stopByte_waysInto room v member) (Nat.not_lt.mp short)

end

/-- The children end where the ways to them do. -/
theorem stopByte_waysFrom (c : Cursor) :
    (waysFrom c.frames).map stopByte = c.node.shown.map Node.stopByte := by
  rw [Node.shown, List.map_map]
  exact stopByte_waysDown c.current.position c.frames c.current.subtree

end Cursor

/-! ### Nodes -/

namespace Node

/-- The hidden subtrees that children of a node may show through. -/
def veils (n : Node) : List Node := (n.subtree.veils n.position).map n.locate

/-- No hidden subtree that children of the node show through goes on past the byte after all of
these children. -/
def Clear (n : Node) (goal : Nat) : Prop :=
  ∀ h ∈ n.veils, h.shown ≠ [] → goal < h.stopByte → ∃ m ∈ h.shown, goal < m.stopByte

theorem Clear.veils {n : Node} {goal : Nat} (clear : n.Clear goal) :
    Subtree.Clear goal (n.subtree.veils n.position) := by
  intro h member shows past
  have shows : (n.locate h).shown ≠ [] := by
    intro none
    exact shows (List.map_eq_nil_iff.mp none)
  obtain ⟨m, shown, late⟩ := clear (n.locate h) (List.mem_map_of_mem member) shows past
  obtain ⟨c, child, rfl⟩ := List.mem_map.mp shown
  exact ⟨c, child, late⟩

end Node

namespace Cursor

variable {c : Cursor} {goal i : Nat} {k : Cursor}

/-- What is found is a child, and the first that ends past the byte. -/
theorem firstChildForByte_some (made : c.current.subtree.Constructed)
    (nested : c.current.subtree.Nested) (found : c.firstChildForByte goal = (some i, k)) :
    c.kids[i]? = some k ∧ c.node.shown[i]? = some k.node ∧ goal < k.node.stopByte
      ∧ ∀ m ∈ c.node.shown.take i, m.stopByte ≤ goal := by
  rw [firstChildForByte] at found
  split at found
  next number frames seen =>
    cases found
    obtain ⟨_, is, first⟩ := seek_first c.current.position 0 c.frames c.current.subtree made nested
      seen
    obtain rfl : i = _ := is.trans (Nat.zero_add _)
    have at_i : (waysFrom c.frames)[i]? = some frames := first.at_i
    have kid : c.kids[i]? = some (c.withFrames frames) := by
      rw [kids, List.getElem?_map, at_i]
      rfl
    refine ⟨kid, ?_, ?_, fun m member => ?_⟩
    · rw [← kids_nodes, List.getElem?_map, kid]
      rfl
    · have way : Frame.Way c.frames frames := mem_waysFrom.mp (List.mem_of_getElem? at_i)
      cases frames with
      | nil => exact absurd rfl way.ne_nil
      | cons => exact first.past
    · have ends := List.mem_map_of_mem (f := Node.stopByte) member
      rw [List.map_take, ← stopByte_waysFrom, ← List.map_take] at ends
      obtain ⟨v, earlier, is⟩ := List.mem_map.mp ends
      rw [← is]
      exact first.before v earlier
  next => cases found

theorem firstChildForByte_none (missed : c.firstChildForByte goal = (none, k)) : k = c := by
  rw [firstChildForByte] at missed
  split at missed
  next => cases missed
  next =>
    cases missed
    rfl

/-- If no child is found, none ends past the byte, as long as none is behind a hidden subtree that
does. -/
theorem stopByte_le_of_none (made : c.current.subtree.Constructed)
    (nested : c.current.subtree.Nested) (clear : c.node.Clear goal)
    (missed : (c.firstChildForByte goal).1 = none) : ∀ m ∈ c.node.shown, m.stopByte ≤ goal := by
  rw [firstChildForByte] at missed
  split at missed
  next => cases missed
  next seen =>
    have ends := seek_none c.current.position 0 c.frames c.current.subtree made nested clear.veils
      seen
    intro m child
    obtain ⟨s, shown, rfl⟩ := List.mem_map.mp child
    exact stopByte_waysDown_le.mp ends s shown

end Cursor

/-- Wherever a cursor has come to, what it finds for a byte is the first child that ends after it,
under the number of that child, and if it finds nothing it stays. Unless a hidden subtree that
children show through goes on past the byte after all of these children, it finds nothing just if
no child ends after the byte. -/
theorem Tree.firstChildForByte_first {t : Tree} (made : t.root.Assembled) {r : Node}
    (holds : t.Holds r) {c : Cursor} (walks : Cursor.Walks r c) (goal : Nat) :
    (∀ i k, c.firstChildForByte goal = (some i, k) →
      c.kids[i]? = some k ∧ c.node.children[i]? = some k.node ∧ goal < k.node.stopByte
        ∧ ∀ m ∈ c.node.children.take i, m.stopByte ≤ goal)
    ∧ (∀ k, c.firstChildForByte goal = (none, k) → k = c)
    ∧ (c.node.Clear goal → ((c.firstChildForByte goal).1 = none
        ↔ ∀ m ∈ c.node.children, m.stopByte ≤ goal)) := by
  have outer := holds.constructed made.constructed
  have path := (walks.stands outer).resting.path
  have here : c.current.subtree.Constructed := (walks.stands outer).current outer
  have nested : c.current.subtree.Nested :=
    path.nested (holds.nested made.nested) _ List.mem_cons_self
  rw [Node.children_eq_shown here]
  refine ⟨fun i k found => Cursor.firstChildForByte_some here nested found,
    fun k missed => Cursor.firstChildForByte_none missed, fun clear => ⟨?_, fun early => ?_⟩⟩
  · exact Cursor.stopByte_le_of_none here nested clear
  · cases found : c.firstChildForByte goal with
    | mk answer k =>
      cases answer with
      | none => rfl
      | some i =>
        obtain ⟨-, child, late, -⟩ := Cursor.firstChildForByte_some here nested found
        exact absurd (early _ (List.mem_of_getElem? child)) (Nat.not_le.mpr late)

/-- Past the hidden subtree there is the second `a`. -/
theorem Tree.ofHoisted_firstChildForByte_first :
    (ofHoisted.walk.firstChildForByte 2).1 = some 1
      ∧ (ofHoisted.walk.firstChildForByte 2).2.node.startByte = 2
      ∧ ¬ ∀ m ∈ ofHoisted.rootNode.children, m.stopByte ≤ 2 := by
  obtain ⟨-, -, none⟩ := firstChildForByte_first ofHoisted_assembled .root .start 2
  have early : ∀ h ∈ ofHoisted.rootNode.veils, h.stopByte ≤ 2 := by decide
  have clear : ofHoisted.rootNode.Clear 2 :=
    fun h hidden _ late => absurd (early h hidden) (Nat.not_le.mpr late)
  refine ⟨rfl, rfl, fun all => ?_⟩
  have missed : (ofHoisted.walk.firstChildForByte 2).1 = Option.none := (none clear).mpr all
  cases missed

/-- The second `a` ends after the line break in the hidden subtree, but is not found for it. -/
theorem Tree.ofHoisted_seek_astray :
    ofHoisted.root.Assembled ∧ (ofHoisted.walk.firstChildForByte 1).1 = none
      ∧ ∃ m ∈ ofHoisted.walk.node.children, 1 < m.stopByte := by
  exact ⟨ofHoisted_assembled, rfl, by decide⟩

end Reparse
