import Reparse.Proofs.Tree.Shown
import Reparse.Tree.Cursor

/-!
The ways that a cursor could go.

A cursor may pass through any number of hidden subtrees in one move. All the ways down from where
it is to what shows there are laid out in a list (`Cursor.waysDown`), and so are those that are
still to come after a place (`Cursor.waysOn`). The first are just the paths through hidden frames to
a visible one (`Cursor.mem_waysFrom`), each followed by the others in order
(`Cursor.followed_waysDown`).
-/

namespace Reparse

open Subtree (total structural Constructed shown shownAmong)

/-! ### Where frames lie -/

namespace Frame

/-- The frame of a child of the subtree above it. -/
def ChildOf (f parent : Frame) : Prop :=
  ∃ before, parent.subtree.children = before ++ f.subtree :: f.later
    ∧ f.position = parent.position + total before ∧ f.index = (structural before).length

/-- The frames from a subtree up to the one that the walk began at. -/
inductive Path (r : Node) : List Frame → Prop
  | start : Path r [⟨r.subtree, r.position, 0, []⟩]
  | down {f parent : Frame} {above : List Frame} (path : Path r (parent :: above))
      (child : f.ChildOf parent) : Path r (f :: parent :: above)

variable {r : Node} {f parent : Frame} {above frames : List Frame}

/-- What passes on to children holds along a path, and of what comes later. -/
theorem Path.inherited {P : Subtree → Prop} (inherits : ∀ {t c}, P t → c ∈ t.children → P c)
    (outer : P r.subtree) (path : Path r frames) :
    ∀ f ∈ frames, P f.subtree ∧ ∀ u ∈ f.later, P u := by
  induction path with
  | start => exact List.forall_mem_singleton.mpr ⟨outer, nofun⟩
  | @down f parent above _ child ih =>
    obtain ⟨before, children, -, -⟩ := child
    have inside := (ih parent List.mem_cons_self).1
    refine List.forall_mem_cons.mpr
      ⟨⟨inherits inside ?_, fun u later => inherits inside ?_⟩, ih⟩
    · simp [children]
    · simp [children, later]

/-- What is on a path through a constructed subtree, and what comes later, is constructed. -/
theorem Path.constructed (made : r.subtree.Constructed) (path : Path r frames) :
    ∀ f ∈ frames, f.subtree.Constructed ∧ ∀ u ∈ f.later, u.Constructed :=
  path.inherited Constructed.child made

/-- The frames of the siblings after a child. -/
theorem ChildOf.later (child : f.ChildOf parent) :
    ∃ before, parent.subtree.children = before ++ f.later
      ∧ f.stop = parent.position + total before ∧ f.nextIndex = (structural before).length := by
  obtain ⟨before, children, position, index⟩ := child
  refine ⟨before ++ [f.subtree], by simp [children], ?_, ?_⟩
  · rw [stop, position, Subtree.total_append, Subtree.total_cons, Subtree.total_nil, add_zero,
      add_assoc]
  · rw [nextIndex, index, Subtree.structural_append, List.length_append]
    by_cases extra : f.subtree.extra
    · rw [if_pos extra, Subtree.structural_singleton_extra extra]
      rfl
    · rw [if_neg extra, Subtree.structural_singleton (Bool.eq_false_iff.mpr extra)]
      rfl

/-- Some frames, or such as lead on from them through hidden subtrees only. -/
inductive Through (above : List Frame) : List Frame → Prop
  | here : Through above above
  | hidden {f parent : Frame} {rest : List Frame} (through : Through above (parent :: rest))
      (child : f.ChildOf parent) (hidden : f.subtree.visible = false) :
      Through above (f :: parent :: rest)

/-- A way from some frames down to a visible subtree, through hidden ones only. -/
inductive Way (above : List Frame) : List Frame → Prop
  | visible {f parent : Frame} {rest : List Frame} (through : Through above (parent :: rest))
      (child : f.ChildOf parent) (visible : f.subtree.visible = true) :
      Way above (f :: parent :: rest)

theorem Path.ne_nil (path : Path r frames) : frames ≠ [] := by
  cases path <;> exact List.cons_ne_nil _ _

theorem Way.ne_nil (way : Way above frames) : frames ≠ [] := by
  cases way
  exact List.cons_ne_nil _ _

theorem Through.path (path : Path r above) (through : Through above frames) : Path r frames := by
  induction through with
  | here => exact path
  | hidden _ child _ ih => exact .down ih child

theorem Through.length_le (through : Through above frames) : above.length ≤ frames.length := by
  induction through with
  | here => exact Nat.le_refl _
  | hidden _ _ _ ih => exact Nat.le_succ_of_le ih

end Frame

namespace Cursor

open Reparse.Frame (Path Through Way)

/-! ### Ways -/

mutual

/-- The ways from a subtree down to what shows of it, in order. The frames in `above` are those
down to the subtree. -/
def waysDown (position : Extent) (above : List Frame) : Subtree → List (List Frame)
  | ⟨_, _, children⟩ => waysAmong position 0 above children

def waysAmong (position : Extent) (index : Nat) (above : List Frame) :
    List Subtree → List (List Frame)
  | [] => []
  | t :: rest =>
    let f : Frame := ⟨t, position, index, rest⟩
    (if t.visible then [f :: above] else waysDown position (f :: above) t)
      ++ waysAmong f.stop f.nextIndex above rest

end

/-- The ways down from the innermost of some frames. -/
def waysFrom : List Frame → List (List Frame)
  | [] => []
  | f :: above => waysDown f.position (f :: above) f.subtree

/-- The ways that end in a frame if it is visible, and else go on through it. -/
def waysInto : List Frame → List (List Frame)
  | [] => []
  | f :: above => if f.subtree.visible then [f :: above] else waysFrom (f :: above)

/-- The ways to what shows after the innermost frame without leaving a visible one. -/
def waysOn (innermost : Bool) : List Frame → List (List Frame)
  | f :: parent :: above =>
    if !innermost && f.subtree.visible then []
    else waysAmong f.stop f.nextIndex (parent :: above) f.later ++ waysOn false (parent :: above)
  | _ => []

/-- The cursors at what shows of the current subtree, in order. -/
def kids (c : Cursor) : List Cursor := (waysFrom c.frames).map c.withFrames

variable {position : Extent} {index : Nat} {above : List Frame} {t : Subtree}

theorem waysDown_eq (t : Subtree) :
    waysDown position above t = waysAmong position 0 above t.children := by
  cases t
  rfl

theorem waysAmong_cons (t : Subtree) (rest : List Subtree) :
    waysAmong position index above (t :: rest)
      = waysInto (⟨t, position, index, rest⟩ :: above)
        ++ waysAmong (position + t.size) (if t.extra then index else index + 1) above rest :=
  rfl

section Ends

variable {α : Type} {g : List Frame → α} {h : Subtree × Extent → α}

mutual

/-- The ways down end at what shows. -/
theorem waysDown_ends (ends : ∀ f above, g (f :: above) = h (f.subtree, f.position))
    (position : Extent) (above : List Frame) :
    ∀ t : Subtree, (waysDown position above t).map g = (t.shown position).map h
  | ⟨_, _, children⟩ => waysAmong_ends ends position 0 above children

theorem waysAmong_ends (ends : ∀ f above, g (f :: above) = h (f.subtree, f.position))
    (position : Extent) (index : Nat) (above : List Frame) :
    ∀ ts : List Subtree, (waysAmong position index above ts).map g = (shownAmong position ts).map h
  | [] => rfl
  | t :: rest => by
    have down := waysDown_ends ends position (⟨t, position, index, rest⟩ :: above) t
    have along := waysAmong_ends ends (position + t.size) (if t.extra then index else index + 1)
      above rest
    rw [waysAmong_cons, shownAmong, List.map_append, List.map_append, along, waysInto, waysFrom]
    split
    · exact congrArg (· :: _) (ends _ _)
    · rw [down]

end

end Ends

/-- As many ways lead down as the subtree counts. -/
theorem length_waysDown (made : t.Constructed) (position : Extent) (above : List Frame) :
    (waysDown position above t).length = t.info.visibleCount := by
  have ends := congrArg List.length
    (@waysDown_ends Unit (fun _ => ()) (fun _ => ()) (fun _ _ => rfl) position above t)
  rwa [List.length_map, List.length_map, made.counted] at ends

theorem kids_nodes (c : Cursor) : c.kids.map node = c.node.shown := by
  rw [kids, List.map_map]
  exact waysDown_ends (fun _ _ => rfl) c.current.position c.frames c.current.subtree

/-! ### Where ways lead -/

mutual

/-- The ways from a subtree that is reached through hidden ones are ways from where that began. -/
theorem way_of_mem_waysDown {outer above w : List Frame} : ∀ (t : Subtree) (g : Frame),
    g.subtree = t → Through outer (g :: above) → w ∈ waysDown g.position (g :: above) t →
      Way outer w
  | ⟨_, _, children⟩, g, is, through, member =>
    way_of_mem_waysAmong children g [] (by rw [is]; rfl) through (by
      rw [Subtree.total_nil, add_zero]
      exact member)

theorem way_of_mem_waysAmong {outer above w : List Frame} :
    ∀ (ts : List Subtree) (g : Frame) (before : List Subtree),
      g.subtree.children = before ++ ts → Through outer (g :: above) →
      w ∈ waysAmong (g.position + total before) (structural before).length (g :: above) ts →
      Way outer w
  | [], _, _, _, _, member => by cases member
  | t :: rest, g, before, children, through, member => by
    let f : Frame := ⟨t, g.position + total before, (structural before).length, rest⟩
    have child : f.ChildOf g := ⟨before, children, rfl, rfl⟩
    obtain ⟨before', children', stop, index⟩ := child.later
    rw [waysAmong_cons] at member
    rcases List.mem_append.mp member with member | member
    · rw [waysInto] at member
      split at member
      next visible =>
        rw [List.mem_singleton.mp member]
        exact .visible through child visible
      next hidden =>
        exact way_of_mem_waysDown t f rfl (.hidden through child (Bool.eq_false_iff.mpr hidden))
          member
    · refine way_of_mem_waysAmong rest g before' children' through ?_
      rw [← stop, ← index]
      exact member

end

/-- The ways from some of the children on are the last of all. -/
theorem waysAmong_suffix (before ts : List Subtree) (position : Extent) (index : Nat)
    (above : List Frame) :
    waysAmong (position + total before) (index + (structural before).length) above ts
      <:+ waysAmong position index above (before ++ ts) := by
  induction before generalizing position index with
  | nil =>
    rw [Subtree.total_nil, add_zero]
    exact List.suffix_refl _
  | cons b before ih =>
    have passed : (structural (b :: before)).length
        = (if b.extra then 0 else 1) + (structural before).length := by
      cases extra : b.extra <;> simp [structural, extra, Nat.add_comm]
    have rest := ih (position + b.size) (if b.extra then index else index + 1)
    rw [List.cons_append, waysAmong_cons, Subtree.total_cons, ← add_assoc, passed]
    refine List.IsSuffix.trans ?_ (List.suffix_append _ _)
    cases extra : b.extra <;> simpa [extra, Nat.add_assoc] using rest

variable {r : Node} {g : Frame} {frames w : List Frame}

theorem waysInto_subset {f parent : Frame} (child : f.ChildOf parent) :
    waysInto (f :: parent :: above) ⊆ waysFrom (parent :: above) := by
  obtain ⟨before, children, position, index⟩ := child
  have last := waysAmong_suffix before (f.subtree :: f.later) parent.position 0 (parent :: above)
  rw [Nat.zero_add, ← position, ← index, ← children, ← waysDown_eq, waysAmong_cons] at last
  exact fun w member => last.subset (List.mem_append_left _ member)

theorem waysFrom_subset (through : Through above frames) : waysFrom frames ⊆ waysFrom above := by
  induction through with
  | here => exact List.Subset.refl _
  | @hidden f parent rest _ child hidden ih =>
    have into := @waysInto_subset rest f parent child
    rw [waysInto, hidden, if_neg Bool.false_ne_true] at into
    exact List.Subset.trans into ih

/-- All the ways down are laid out. -/
theorem mem_waysFrom : w ∈ waysFrom (g :: above) ↔ Way (g :: above) w := by
  constructor
  · exact way_of_mem_waysDown g.subtree g rfl .here
  · rintro @⟨f, parent, rest, through, child, visible⟩
    apply waysFrom_subset through
    apply waysInto_subset child
    rw [waysInto, if_pos visible]
    exact List.mem_singleton_self _

/-- What is still to come after a place lies below some frame around it. -/
theorem way_of_mem_waysOn {innermost : Bool} (path : Path r frames)
    (member : w ∈ waysOn innermost frames) : ∃ g above, Path r (g :: above) ∧ Way (g :: above) w := by
  induction path generalizing innermost with
  | start => cases member
  | @down f parent above path child ih =>
    rw [waysOn] at member
    split at member
    next => cases member
    next =>
      rcases List.mem_append.mp member with member | member
      · obtain ⟨before, children, stop, index⟩ := child.later
        rw [stop, index] at member
        exact ⟨parent, above, path, way_of_mem_waysAmong f.later parent before children .here member⟩
      · exact ih member

/-! ### The order of the ways -/

/-- After each of some ways come the others in order, and then `last`. -/
def Followed (last : List (List Frame)) : List (List Frame) → Prop
  | [] => True
  | w :: more => waysOn true w = more ++ last ∧ Followed last more

theorem Followed.append {a b last : List (List Frame)} (first : Followed (b ++ last) a)
    (second : Followed last b) : Followed last (a ++ b) := by
  induction a with
  | nil => exact second
  | cons w a ih =>
    obtain ⟨here, more⟩ := first
    exact ⟨here.trans (List.append_assoc a b last).symm, ih more⟩

theorem Followed.getElem? {ways last : List (List Frame)} (followed : Followed last ways) {i : Nat}
    (at_i : ways[i]? = some w) : waysOn true w = ways.drop (i + 1) ++ last := by
  induction ways generalizing i with
  | nil => cases at_i
  | cons first more ih =>
    cases i with
    | zero => exact Option.some.inj at_i ▸ followed.1
    | succ i => exact ih followed.2 at_i

mutual

/-- Behind each way down come the others, and behind the last what comes after the subtree. -/
theorem followed_waysDown (position : Extent) (g : Frame) (above : List Frame) : ∀ t : Subtree,
    Followed (waysOn false (g :: above)) (waysDown position (g :: above) t)
  | ⟨_, _, children⟩ => followed_waysAmong position 0 g above children

theorem followed_waysAmong (position : Extent) (index : Nat) (g : Frame) (above : List Frame) :
    ∀ ts : List Subtree,
      Followed (waysOn false (g :: above)) (waysAmong position index (g :: above) ts)
  | [] => trivial
  | t :: rest => by
    have down := followed_waysDown position ⟨t, position, index, rest⟩ (g :: above) t
    have along := followed_waysAmong (position + t.size) (if t.extra then index else index + 1) g
      above rest
    rw [waysAmong_cons]
    refine Followed.append ?_ along
    rw [waysInto]
    by_cases visible : t.visible
    · rw [if_pos visible]
      exact ⟨rfl, trivial⟩
    · -- What comes after a hidden subtree are its later siblings, and then what comes after `g`.
      rw [if_neg visible]
      rw [waysOn, if_neg (by simp [visible])] at down
      exact down

end

end Cursor

end Reparse
