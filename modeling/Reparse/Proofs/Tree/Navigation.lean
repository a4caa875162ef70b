import Reparse.Proofs.Tree.Ways

/-!
Cursors find what shows.

Every move of a cursor leads to the first of the ways it could go (`Cursor.firstChild_eq`,
`Cursor.nextSibling_eq`). Wherever the moves have led, the cursor stands at the end of such a way or
where it was made, and moves lead to all of these places (`Cursor.walks_iff_stands`). So going on
from sibling to sibling runs through all that shows, and the way up from each leads back
(`Cursor.Stands.tours`).
-/

namespace Reparse

open Subtree (total structural Constructed)

namespace Cursor

open Reparse.Frame (Path Through Way)

variable {r : Node} {frames above w : List Frame} {c : Cursor}

/-! ### Down -/

/-- A way leads into a frame just if something visible would be lost without it. -/
theorem waysInto_eq_nil {f : Frame} (made : f.subtree.Constructed) :
    waysInto (f :: above) = [] ↔ Frame.shows f.subtree = false := by
  have count := length_waysDown made f.position (f :: above)
  rw [waysInto, Frame.shows, waysFrom]
  by_cases visible : f.subtree.visible
  · simp [visible]
  · simp [visible, ← count]

mutual

/-- The way down leads to the first that shows. -/
theorem descend_eq (position : Extent) (above : List Frame) : ∀ t : Subtree, t.Constructed →
    descend position above t
      = ((waysDown position above t).head?.map (·, true)).getD (above, false)
  | ⟨_, _, children⟩, made => descendAmong_eq position 0 above children fun _ => made.child

theorem descendAmong_eq (position : Extent) (index : Nat) (above : List Frame) :
    ∀ ts : List Subtree, (∀ c ∈ ts, c.Constructed) →
      descendAmong position index above ts
        = ((waysAmong position index above ts).head?.map (·, true)).getD (above, false)
  | [], _ => rfl
  | t :: rest, made => by
    obtain ⟨first, others⟩ := List.forall_mem_cons.mp made
    have down := descend_eq position (⟨t, position, index, rest⟩ :: above) t first
    have along := descendAmong_eq (position + t.size) (if t.extra then index else index + 1) above
      rest others
    have count := length_waysDown first position (⟨t, position, index, rest⟩ :: above)
    rw [descendAmong, waysAmong_cons, waysInto, waysFrom]
    -- The count decides whether to go down, so the way down is never without an end.
    by_cases visible : t.visible
    · rw [if_pos visible, if_pos visible]
      rfl
    · rw [if_neg visible, if_neg visible]
      split
      next some =>
        obtain ⟨w, more, ways⟩ := List.exists_cons_of_length_pos (count ▸ some)
        rw [down, ways]
        rfl
      next none =>
        have ways := List.length_eq_zero_iff.mp (count.trans (Nat.eq_zero_of_not_pos none))
        rw [along, ways, List.nil_append]

end

/-! ### Along -/

/-- Some ways begin with those into a frame, and there are such. -/
structure Opens (f : Frame) (above : List Frame) (ways : List (List Frame)) : Prop where
  made : f.subtree.Constructed
  some : waysInto (f :: above) ≠ []
  first : ∃ more, ways = waysInto (f :: above) ++ more

/-- The ways begin with those into the first that shows. -/
theorem firstShown_opens (ts : List Subtree) (made : ∀ c ∈ ts, c.Constructed) (position : Extent)
    (index : Nat) (above : List Frame) :
    match Frame.firstShown position index ts with
    | none => waysAmong position index above ts = []
    | some f => Opens f above (waysAmong position index above ts) := by
  induction ts generalizing position index with
  | nil => rfl
  | cons t rest ih =>
    obtain ⟨first, others⟩ := List.forall_mem_cons.mp made
    have into := @waysInto_eq_nil above ⟨t, position, index, rest⟩ first
    rw [waysAmong_cons, Frame.firstShown]
    by_cases shows : Frame.shows t
    · rw [if_pos shows]
      refine ⟨first, fun none => ?_, _, rfl⟩
      rw [into, shows] at none
      cases none
    · rw [if_neg shows, into.mpr (Bool.eq_false_iff.mpr shows), List.nil_append]
      exact ih others _ _

/-- What still shows after the innermost frame begins with what the next sibling leads into. -/
theorem nextAmong_opens (made : ∀ f ∈ frames, ∀ u ∈ f.later, u.Constructed) (innermost : Bool) :
    match nextAmong innermost frames with
    | none => waysOn innermost frames = []
    | some next => ∃ f above, next = f :: above ∧ Opens f above (waysOn innermost frames) := by
  induction frames generalizing innermost with
  | nil => rfl
  | cons f above ih =>
    cases above with
    | nil => rfl
    | cons parent above =>
      obtain ⟨later, others⟩ := List.forall_mem_cons.mp made
      have along := firstShown_opens f.later later f.stop f.nextIndex (parent :: above)
      rw [waysOn, nextAmong]
      by_cases bounded : (!innermost && f.subtree.visible) = true
      · rw [if_pos bounded, if_pos bounded]
      · rw [if_neg bounded, if_neg bounded]
        cases first : Frame.firstShown f.stop f.nextIndex f.later with
        | none =>
          rw [first] at along
          rw [along]
          exact ih others false
        | some next =>
          rw [first] at along
          obtain ⟨more, ways⟩ := along.first
          refine ⟨next, _, rfl, along.made, along.some, more ++ waysOn false (parent :: above), ?_⟩
          rw [ways, List.append_assoc]

/-! ### What the moves answer -/

/-- The answer of a move that leads to a cursor or nowhere. -/
def moved (c : Cursor) : Option Cursor → Bool × Cursor
  | some next => (true, next)
  | none => (false, c)

/-- Where there are frames to go to, it does not matter where a cursor comes from. -/
theorem withFrames_withFrames (c : Cursor) (frames : List Frame) (some : w ≠ []) :
    (c.withFrames frames).withFrames w = c.withFrames w := by
  cases w with
  | nil => exact absurd rfl some
  | cons => cases frames <;> rfl

theorem frames_withFrames (c : Cursor) (some : w ≠ []) : (c.withFrames w).frames = w := by
  cases w with
  | nil => exact absurd rfl some
  | cons => rfl

/-- The first child is the first that shows. -/
theorem firstChild_eq (made : c.current.subtree.Constructed) :
    c.firstChild = c.moved c.kids.head? := by
  have down := descend_eq c.current.position c.frames c.current.subtree made
  rw [firstChild, kids, frames, waysFrom, ← frames, down]
  cases waysDown c.current.position c.frames c.current.subtree <;> rfl

/-- The next sibling is the first that shows of what comes after. -/
theorem nextSibling_eq (made : ∀ f ∈ c.frames, ∀ u ∈ f.later, u.Constructed) :
    c.nextSibling = c.moved ((waysOn true c.frames).map c.withFrames).head? := by
  have opens := nextAmong_opens made true
  rw [nextSibling]
  cases next : nextAmong true c.frames with
  | none =>
    rw [next] at opens
    rw [opens]
    rfl
  | some frames =>
    rw [next] at opens
    obtain ⟨f, above, rfl, opens⟩ := opens
    obtain ⟨more, ways⟩ := opens.first
    have nonempty := opens.some
    rw [ways]
    by_cases visible : f.subtree.visible
    · rw [waysInto, if_pos visible]
      exact if_pos visible
    · -- A hidden sibling that shows something is passed through at once.
      rw [waysInto, if_neg visible] at nonempty ⊢
      have into := @firstChild_eq (c.withFrames (f :: above)) opens.made
      obtain ⟨w, others, down⟩ := List.exists_cons_of_ne_nil nonempty
      have way : Way (f :: above) w := mem_waysFrom.mp (down ▸ List.mem_cons_self)
      have first : (c.withFrames (f :: above)).kids.head? = some (c.withFrames w) := by
        rw [kids]
        change ((waysFrom (f :: above)).map _).head? = _
        rw [down, List.map_cons, List.head?_cons, withFrames_withFrames c _ way.ne_nil]
      rw [first] at into
      rw [down]
      refine (if_neg visible).trans ?_
      rw [into]
      rfl

theorem visibleAmong_through (through : Through above frames) :
    visibleAmong frames = visibleAmong above := by
  induction through with
  | here => rfl
  | hidden _ _ hidden ih =>
    rw [visibleAmong, hidden, if_neg Bool.false_ne_true]
    exact ih

/-- To the parent is up through hidden frames only. -/
theorem through_visibleAmong (path : Path r frames) : Through (visibleAmong frames) frames := by
  induction path with
  | start => exact .here
  | @down f parent above _ child ih =>
    rw [visibleAmong]
    split
    next => exact .here
    next hidden => exact .hidden ih child (Bool.eq_false_iff.mpr hidden)

/-! ### Where cursors stand -/

/-- Where a move may end: at a visible frame, or at the one that the walk began at. -/
structure Resting (r : Node) (frames : List Frame) : Prop where
  path : Path r frames
  rests : frames.tail = [] ∨ ∀ f ∈ frames.head?, f.subtree.visible = true

theorem Resting.visible {f holder : Frame} (resting : Resting r (f :: holder :: above)) :
    f.subtree.visible = true :=
  resting.rests.resolve_left (List.cons_ne_nil _ _) f rfl

theorem Resting.of_visible {f holder : Frame} (path : Path r (holder :: above))
    (child : f.ChildOf holder) (visible : f.subtree.visible = true) :
    Resting r (f :: holder :: above) := by
  refine ⟨.down path child, .inr ?_⟩
  rintro f ⟨⟩
  exact visible

theorem Resting.of_way (path : Path r above) (way : Way above w) : Resting r w := by
  cases way with
  | visible through child visible => exact .of_visible (through.path path) child visible

/-- There is nothing after what a cursor can rest at before it goes up. -/
theorem Resting.waysOn_eq (resting : Resting r frames) : waysOn false frames = [] := by
  cases resting.path with
  | start => rfl
  | down _ _ =>
    rw [waysOn, resting.visible]
    rfl

theorem Resting.visibleAmong_eq (resting : Resting r frames) : visibleAmong frames = frames := by
  cases resting.path with
  | start => rfl
  | down _ _ => rw [visibleAmong, if_pos resting.visible]

theorem resting_visibleAmong (path : Path r frames) : Resting r (visibleAmong frames) := by
  induction path with
  | start => exact ⟨.start, .inl rfl⟩
  | @down f parent above path child ih =>
    rw [visibleAmong]
    split
    next visible => exact .of_visible path child visible
    next => exact ih

/-- A cursor of the walk that began at a node. -/
structure Stands (r : Node) (c : Cursor) : Prop where
  tree_eq : c.tree = r.tree
  resting : Resting r c.frames

theorem Stands.withFrames (stands : Stands r c) (resting : Resting r frames) :
    Stands r (c.withFrames frames) := by
  cases frames with
  | nil => exact stands
  | cons f above => exact ⟨stands.tree_eq, resting⟩

theorem Stands.kid (stands : Stands r c) {k : Cursor} (kid : k ∈ c.kids) : Stands r k := by
  obtain ⟨w, member, rfl⟩ := List.mem_map.mp kid
  exact stands.withFrames (.of_way stands.resting.path (mem_waysFrom.mp member))

theorem Stands.current (stands : Stands r c) (made : r.subtree.Constructed) :
    c.current.subtree.Constructed :=
  (stands.resting.path.constructed made _ List.mem_cons_self).1

theorem Stands.later (stands : Stands r c) (made : r.subtree.Constructed) :
    ∀ f ∈ c.frames, ∀ u ∈ f.later, u.Constructed :=
  fun f frame => (stands.resting.path.constructed made f frame).2

/-! ### Where moves end -/

theorem Stands.firstChild (stands : Stands r c) (made : r.subtree.Constructed) :
    Stands r c.firstChild.2 := by
  rw [firstChild_eq (stands.current made)]
  cases first : c.kids.head? with
  | none => exact stands
  | some k => exact stands.kid (List.mem_of_head? first)

theorem Stands.nextSibling (stands : Stands r c) (made : r.subtree.Constructed) :
    Stands r c.nextSibling.2 := by
  rw [nextSibling_eq (stands.later made)]
  cases next : ((waysOn true c.frames).map c.withFrames).head? with
  | none => exact stands
  | some k =>
    obtain ⟨w, member, rfl⟩ := List.mem_map.mp (List.mem_of_head? next)
    obtain ⟨g, above, path, way⟩ := way_of_mem_waysOn stands.resting.path member
    exact stands.withFrames (.of_way path way)

theorem Stands.parent (stands : Stands r c) : Stands r c.parent.2 := by
  obtain ⟨tree, current, above⟩ := c
  cases stands.resting.path with
  | start => exact stands
  | down path _ =>
    have resting := resting_visibleAmong path
    rw [Cursor.parent]
    dsimp only
    split
    · exact stands
    · exact stands.withFrames resting

mutual

/-- What a search by bytes comes to is one of the ways down. -/
theorem mem_waysDown_of_seek {goal number : Nat} {position : Extent} {above : List Frame}
    {found : Nat × List Frame} : ∀ t : Subtree, seek goal position number above t = some found →
      found.2 ∈ waysDown position above t
  | ⟨_, _, children⟩, seen => mem_waysAmong_of_seek children seen

theorem mem_waysAmong_of_seek {goal number index : Nat} {position : Extent} {above : List Frame}
    {found : Nat × List Frame} : ∀ ts : List Subtree,
      seekAmong goal position index number above ts = some found →
      found.2 ∈ waysAmong position index above ts
  | [], seen => by cases seen
  | t :: rest, seen => by
    rw [seekAmong] at seen
    rw [waysAmong_cons, List.mem_append, waysInto]
    dsimp only at seen
    split at seen
    · split at seen
      next visible =>
        cases seen
        rw [if_pos visible]
        exact .inl (List.mem_singleton_self _)
      next hidden =>
        split at seen
        · rw [if_neg hidden]
          exact .inl (mem_waysDown_of_seek t seen)
        · exact .inr (mem_waysAmong_of_seek rest seen)
    · exact .inr (mem_waysAmong_of_seek rest seen)

end

theorem Stands.firstChildForByte (stands : Stands r c) (goal : Nat) :
    Stands r (c.firstChildForByte goal).2 := by
  rw [Cursor.firstChildForByte]
  split
  next number frames seen =>
    have way : Way c.frames frames := mem_waysFrom.mp (mem_waysDown_of_seek _ seen)
    exact stands.withFrames (.of_way stands.resting.path way)
  next => exact stands

mutual

/-- A search for what holds a range ends where a cursor may rest. -/
theorem resting_enclose (start stop : Nat) (anonymous : Bool) {above best : List Frame} :
    ∀ (t : Subtree) (g : Frame), g.subtree = t → Path r (g :: above) → Resting r best →
      Resting r (enclose start stop anonymous g.position (g :: above) best t)
  | ⟨_, _, children⟩, g, is, path, resting => by
    have among := resting_encloseAmong start stop anonymous children g [] (by rw [is]; rfl) path
      resting
    rwa [Subtree.total_nil, add_zero] at among

theorem resting_encloseAmong (start stop : Nat) (anonymous : Bool) {above best : List Frame} :
    ∀ (ts : List Subtree) (g : Frame) (before : List Subtree),
      g.subtree.children = before ++ ts → Path r (g :: above) → Resting r best →
      Resting r (encloseAmong start stop anonymous (g.position + total before)
        (structural before).length (g :: above) best ts)
  | [], _, _, _, _, resting => resting
  | t :: rest, g, before, children, path, resting => by
    let f : Frame := ⟨t, g.position + total before, (structural before).length, rest⟩
    have child : f.ChildOf g := ⟨before, children, rfl, rfl⟩
    rw [encloseAmong]
    dsimp only
    split
    · split
      · exact resting
      · refine resting_enclose start stop anonymous t f rfl (.down path child) ?_
        split
        next relevant => exact .of_visible path child (Bool.and_eq_true_iff.mp relevant).1
        next => exact resting
    · obtain ⟨before', children', place, index⟩ := child.later
      rw [place, index]
      exact resting_encloseAmong start stop anonymous rest g before' children' path resting

end

theorem Stands.enclosing (stands : Stands r c) (start stop : Nat) (anonymous : Bool) :
    Stands r (c.enclosing start stop anonymous) :=
  stands.withFrames
    (resting_enclose start stop anonymous _ c.current rfl stands.resting.path stands.resting)

/-- A cursor that was made at a node and moved about. -/
inductive Walks (r : Node) : Cursor → Prop
  | start : Walks r r.walk
  | firstChild {c : Cursor} (walks : Walks r c) : Walks r c.firstChild.2
  | nextSibling {c : Cursor} (walks : Walks r c) : Walks r c.nextSibling.2
  | parent {c : Cursor} (walks : Walks r c) : Walks r c.parent.2
  | firstChildForByte {c : Cursor} (walks : Walks r c) (goal : Nat) :
      Walks r (c.firstChildForByte goal).2
  | enclosing {c : Cursor} (walks : Walks r c) (start stop : Nat) (anonymous : Bool) :
      Walks r (c.enclosing start stop anonymous)

/-- A cursor never leaves the node it was made at, and rests at what is visible. -/
theorem Walks.stands (made : r.subtree.Constructed) (walks : Walks r c) : Stands r c := by
  induction walks with
  | start => exact ⟨rfl, .start, .inl rfl⟩
  | firstChild _ ih => exact ih.firstChild made
  | nextSibling _ ih => exact ih.nextSibling made
  | parent _ ih => exact ih.parent
  | firstChildForByte _ goal ih => exact ih.firstChildForByte goal
  | enclosing _ start stop anonymous ih => exact ih.enclosing start stop anonymous

/-! ### Tours -/

/-- The moves of a cursor go through some cursors one by one and back from each of them. -/
structure Tours (c : Cursor) (kids : List Cursor) : Prop where
  first : c.firstChild = c.moved kids.head?
  next : ∀ (i : Nat) (k : Cursor), kids[i]? = some k → k.nextSibling = k.moved kids[i + 1]?
  back : ∀ k ∈ kids, k.parent = (true, c)

theorem Stands.nextSibling_kid (stands : Stands r c) (made : r.subtree.Constructed) {i : Nat}
    {k : Cursor} (at_i : c.kids[i]? = some k) : k.nextSibling = k.moved c.kids[i + 1]? := by
  have later := (stands.kid (List.mem_of_getElem? at_i)).later made
  rw [kids, List.getElem?_map, Option.map_eq_some_iff] at at_i
  obtain ⟨w, at_i, rfl⟩ := at_i
  have way (w) (member : w ∈ waysFrom c.frames) : Way c.frames w := mem_waysFrom.mp member
  have followed : Followed (waysOn false c.frames) (waysFrom c.frames) :=
    followed_waysDown c.current.position c.current c.above c.current.subtree
  have on := followed.getElem? at_i
  rw [stands.resting.waysOn_eq, List.append_nil] at on
  have cursors : ((waysFrom c.frames).drop (i + 1)).map (c.withFrames w).withFrames
      = c.kids.drop (i + 1) := by
    rw [kids, ← List.map_drop]
    exact List.map_congr_left fun w' after =>
      withFrames_withFrames c w (way w' (List.mem_of_mem_drop after)).ne_nil
  rw [nextSibling_eq later, frames_withFrames c (way w (List.mem_of_getElem? at_i)).ne_nil, on, cursors,
    List.head?_drop]

theorem Stands.parent_kid (stands : Stands r c) {k : Cursor} (kid : k ∈ c.kids) :
    k.parent = (true, c) := by
  obtain ⟨w, member, rfl⟩ := List.mem_map.mp kid
  cases mem_waysFrom.mp member with
  | visible through _ _ =>
    have up := (visibleAmong_through through).trans stands.resting.visibleAmong_eq
    rw [Cursor.parent, Cursor.withFrames]
    dsimp only
    rw [up]
    rfl

theorem Stands.tours (stands : Stands r c) (made : r.subtree.Constructed) : c.Tours c.kids where
  first := firstChild_eq (stands.current made)
  next _ _ at_i := stands.nextSibling_kid made at_i
  back _ kid := stands.parent_kid kid

/-- What a tour goes through can be walked to. -/
theorem Tours.walks {kids : List Cursor} (tours : c.Tours kids) (walks : Walks r c) :
    ∀ k ∈ kids, Walks r k := by
  have reached (i : Nat) : ∀ k, kids[i]? = some k → Walks r k := by
    induction i with
    | zero =>
      intro k at_0
      have next := walks.firstChild
      rw [tours.first, List.head?_eq_getElem?, at_0] at next
      exact next
    | succ i ih =>
      intro k at_next
      have inside : i < kids.length := by
        have := (List.getElem?_eq_some_iff.mp at_next).1
        omega
      have at_i := List.getElem?_eq_getElem inside
      have next := (ih _ at_i).nextSibling
      rw [tours.next i _ at_i, at_next] at next
      exact next
  intro k kid
  obtain ⟨i, at_i⟩ := List.mem_iff_getElem?.mp kid
  exact reached i k at_i

/-- Going on from one of the cursors passes all that are left. -/
theorem Tours.take {kids : List Cursor} (tours : c.Tours kids) (m : Nat) {i : Nat} {k : Cursor}
    (at_i : kids[i]? = some k) (rest : i + m = kids.length) :
    Node.take k m = (kids.drop i).map node := by
  induction m generalizing i k with
  | zero =>
    have past : kids.length ≤ i := Nat.le_of_eq rest.symm
    rw [List.drop_eq_nil_of_le past]
    rfl
  | succ m ih =>
    obtain ⟨inside, is⟩ := List.getElem?_eq_some_iff.mp at_i
    rw [List.drop_eq_getElem_cons inside, is, List.map_cons, Node.take, tours.next i k at_i]
    refine congrArg (k.node :: ·) ?_
    cases next : kids[i + 1]? with
    | none =>
      have past := List.getElem?_eq_none_iff.mp next
      obtain rfl : m = 0 := by omega
      rw [List.drop_eq_nil_of_le past]
      rfl
    | some k' => exact ih next (by omega)

end Cursor

/-! ### Nodes -/

/-- The children in a row are what shows of the node. -/
theorem Node.children_eq_shown {n : Node} (made : n.subtree.Constructed) : n.children = n.shown := by
  have stands : Cursor.Stands n n.walk := Cursor.Walks.start.stands made
  have tours := stands.tours made
  have nodes : n.walk.kids.map (·.node) = n.shown := n.walk.kids_nodes
  have count := childCount_eq_shown made
  rw [← nodes, List.length_map] at count
  rw [children, tours.first, count, ← nodes]
  cases kids : n.walk.kids with
  | nil => rfl
  | cons k rest =>
    rw [kids] at tours
    exact tours.take _ rfl (Nat.zero_add _)

/-- A list of two `a`s, the first of them in a hidden subtree, with an empty hidden one before and a
hidden leaf after it. -/
def Tree.ofHoisted : Tree where
  root :=
    let lang := Language.ofLists
    let a (stamp : Stamp) : Subtree := .leaf stamp lang 1 (.ofBytes [97]) 0 1 {}
    let hidden (stamp : Stamp) (children : List Subtree) : Subtree :=
      .node stamp lang Symbol.stop children 0 1
    .node 6 lang 2 [hidden 0 [], hidden 3 [a 1, .leaf 2 lang Symbol.stop (.ofBytes [10]) 0 1 {}],
      (a 4).placed 5 2 false] 0 1
  language := .ofLists
  revision := 0

end Reparse
