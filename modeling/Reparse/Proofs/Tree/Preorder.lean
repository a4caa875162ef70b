import Reparse.Proofs.Tree.Navigation
import Reparse.Tree.Preorder

/-!
Walking through a whole tree.

Below a node there is what shows of it, and below each of these in turn (`Node.visible_eq`). All the
ways down to what is visible below a frame are laid out in a list (`Cursor.trailsFrom`), and so are
those that are still to come after it (`Cursor.trailsOn`). A walk always goes on to the first of them
(`Cursor.Stands.advance`) and what is still to come from there are the others
(`Cursor.coming_of_suffix_trailsDown`), so it runs through all of them just once and then is
finished (`Tree.preorder_visits`).
-/

namespace Reparse

open Subtree (total structural Constructed shown shownAmong)

/-! ### What is visible -/

namespace Subtree

mutual

/-- What is visible below a subtree that starts at a position, parents before children, each with
its own position. -/
def visibleBelow (position : Extent) : Subtree → List (Subtree × Extent)
  | ⟨_, _, children⟩ => visibleAmong position children

def visibleAmong (position : Extent) : List Subtree → List (Subtree × Extent)
  | [] => []
  | t :: rest =>
    (if t.visible then [(t, position)] else []) ++ t.visibleBelow position
      ++ visibleAmong (position + t.size) rest

end

mutual

/-- It is what shows of the subtree, each followed by what is visible below. -/
theorem visibleBelow_eq (position : Extent) : ∀ t : Subtree,
    t.visibleBelow position = (t.shown position).flatMap fun c => c :: c.1.visibleBelow c.2
  | ⟨_, _, children⟩ => visibleAmong_eq position children

theorem visibleAmong_eq (position : Extent) : ∀ ts : List Subtree,
    visibleAmong position ts
      = (shownAmong position ts).flatMap fun c => c :: c.1.visibleBelow c.2
  | [] => rfl
  | t :: rest => by
    have below := visibleBelow_eq position t
    rw [visibleAmong, shownAmong, List.flatMap_append, ← visibleAmong_eq (position + t.size) rest]
    by_cases visible : t.visible
    · simp [visible]
    · simp [visible, ← below]

end

end Subtree

/-- The node and all that is visible below it, parents before children. -/
def Node.visible (n : Node) : List Node :=
  n :: (n.subtree.visibleBelow n.position).map n.locate

/-- First comes the node itself, then each node that shows of it with all that is visible below. -/
theorem Node.visible_eq (n : Node) : n.visible = n :: n.shown.flatMap Node.visible := by
  rw [visible, Subtree.visibleBelow_eq, shown, List.map_flatMap, List.flatMap_map]
  rfl

namespace Cursor

open Reparse.Frame (Path Through Way)

variable {r : Node} {frames above w : List Frame} {c : Cursor}

/-! ### Trails -/

mutual

/-- The ways from a subtree down to all that is visible below it, in order. The frames in `above`
are those down to the subtree. -/
def trailsDown (position : Extent) (above : List Frame) : Subtree → List (List Frame)
  | ⟨_, _, children⟩ => trailsAmong position 0 above children

def trailsAmong (position : Extent) (index : Nat) (above : List Frame) :
    List Subtree → List (List Frame)
  | [] => []
  | t :: rest =>
    let f : Frame := ⟨t, position, index, rest⟩
    (if t.visible then [f :: above] else []) ++ trailsDown position (f :: above) t
      ++ trailsAmong f.stop f.nextIndex above rest

end

/-- The ways down from the innermost of some frames. -/
def trailsFrom : List Frame → List (List Frame)
  | [] => []
  | f :: above => trailsDown f.position (f :: above) f.subtree

/-- The ways to all that comes after the innermost frame and what lies below it. -/
def trailsOn : List Frame → List (List Frame)
  | f :: parent :: above =>
    trailsAmong f.stop f.nextIndex (parent :: above) f.later ++ trailsOn (parent :: above)
  | _ => []

/-- All that comes after a place in a walk. -/
def coming (frames : List Frame) : List (List Frame) := trailsFrom frames ++ trailsOn frames

/-- Each of some ways with the trails that lead on from it. -/
def spread (ways : List (List Frame)) : List (List Frame) :=
  ways.flatMap fun w => w :: trailsFrom w

variable {position : Extent} {index : Nat}

theorem spread_append (a b : List (List Frame)) : spread (a ++ b) = spread a ++ spread b :=
  List.flatMap_append

mutual

theorem trailsDown_eq (position : Extent) (above : List Frame) : ∀ t : Subtree,
    trailsDown position above t = spread (waysDown position above t)
  | ⟨_, _, children⟩ => trailsAmong_eq position 0 above children

theorem trailsAmong_eq (position : Extent) (index : Nat) (above : List Frame) :
    ∀ ts : List Subtree,
      trailsAmong position index above ts = spread (waysAmong position index above ts)
  | [] => rfl
  | t :: rest => by
    have down := trailsDown_eq position (⟨t, position, index, rest⟩ :: above) t
    have along := trailsAmong_eq (position + t.size) (if t.extra then index else index + 1) above
      rest
    rw [waysAmong_cons, spread_append, ← along, waysInto, trailsAmong]
    by_cases visible : t.visible
    · simp [visible, spread, trailsFrom, Frame.stop, Frame.nextIndex]
    · simp [visible, waysFrom, ← down, Frame.stop, Frame.nextIndex]

end

theorem trailsFrom_eq (frames : List Frame) : trailsFrom frames = spread (waysFrom frames) := by
  cases frames with
  | nil => rfl
  | cons f above => exact trailsDown_eq ..

section Ends

variable {α : Type} {g : List Frame → α} {h : Subtree × Extent → α}

mutual

/-- The trails down end at what is visible. -/
theorem trailsDown_ends (ends : ∀ f above, g (f :: above) = h (f.subtree, f.position))
    (position : Extent) (above : List Frame) : ∀ t : Subtree,
      (trailsDown position above t).map g = (t.visibleBelow position).map h
  | ⟨_, _, children⟩ => trailsAmong_ends ends position 0 above children

theorem trailsAmong_ends (ends : ∀ f above, g (f :: above) = h (f.subtree, f.position))
    (position : Extent) (index : Nat) (above : List Frame) : ∀ ts : List Subtree,
      (trailsAmong position index above ts).map g = (Subtree.visibleAmong position ts).map h
  | [] => rfl
  | t :: rest => by
    let f : Frame := ⟨t, position, index, rest⟩
    have down := trailsDown_ends ends position (f :: above) t
    have along := trailsAmong_ends ends f.stop f.nextIndex above rest
    have here : (if t.visible then [f :: above] else []).map g
        = (if t.visible then [(t, position)] else []).map h := by
      split
      · exact congrArg (fun a => [a]) (ends f above)
      · rfl
    rw [trailsAmong, Subtree.visibleAmong]
    simp only [List.map_append]
    rw [here, down, along]
    rfl

end

end Ends

mutual

/-- There are fewer trails down than subtrees. -/
theorem length_trailsDown_lt (position : Extent) (above : List Frame) : ∀ t : Subtree,
    (trailsDown position above t).length < t.count
  | ⟨_, _, children⟩ => Nat.lt_succ_of_le (length_trailsAmong_le position 0 above children)

theorem length_trailsAmong_le (position : Extent) (index : Nat) (above : List Frame) :
    ∀ ts : List Subtree, (trailsAmong position index above ts).length ≤ Subtree.countAll ts
  | [] => Nat.le_refl 0
  | t :: rest => by
    let f : Frame := ⟨t, position, index, rest⟩
    have down := length_trailsDown_lt position (f :: above) t
    have along := length_trailsAmong_le f.stop f.nextIndex above rest
    have here : (if t.visible then [f :: above] else []).length ≤ 1 := by split <;> simp
    calc (trailsAmong position index above (t :: rest)).length
      _ = (if t.visible then [f :: above] else []).length
            + (trailsDown position (f :: above) t).length
            + (trailsAmong f.stop f.nextIndex above rest).length := by
        rw [trailsAmong, List.length_append, List.length_append]
      _ ≤ t.count + Subtree.countAll rest := by omega

end

/-! ### Where trails lead -/

mutual

/-- The trails down from a frame of a walk lead to where a cursor may rest. -/
theorem resting_of_mem_trailsDown : ∀ (t : Subtree) (g : Frame), g.subtree = t →
    ∀ {above : List Frame}, Path r (g :: above) → w ∈ trailsDown g.position (g :: above) t →
      Resting r w
  | ⟨_, _, children⟩, g, is, _, path, member =>
    resting_of_mem_trailsAmong children g [] (by rw [is]; rfl) path (by
      rw [Subtree.total_nil, add_zero]
      exact member)

theorem resting_of_mem_trailsAmong : ∀ (ts : List Subtree) (g : Frame) (before : List Subtree),
    g.subtree.children = before ++ ts → ∀ {above : List Frame}, Path r (g :: above) →
      w ∈ trailsAmong (g.position + total before) (structural before).length (g :: above) ts →
      Resting r w
  | [], _, _, _, _, _, member => by cases member
  | t :: rest, g, before, children, above, path, member => by
    let f : Frame := ⟨t, g.position + total before, (structural before).length, rest⟩
    have child : f.ChildOf g := ⟨before, children, rfl, rfl⟩
    obtain ⟨before', children', stop, index⟩ := child.later
    rw [trailsAmong, List.mem_append, List.mem_append] at member
    rcases member with (here | below) | later
    · split at here
      next visible =>
        rw [List.mem_singleton.mp here]
        exact .of_visible path child visible
      next => cases here
    · exact resting_of_mem_trailsDown t f rfl (.down path child) below
    · refine resting_of_mem_trailsAmong rest g before' children' path ?_
      rw [← stop, ← index]
      exact later

end

theorem resting_of_mem_trailsOn (path : Path r frames) (member : w ∈ trailsOn frames) :
    Resting r w := by
  induction path with
  | start => cases member
  | @down f parent above path child ih =>
    rw [trailsOn, List.mem_append] at member
    rcases member with later | outside
    · obtain ⟨before, children, stop, index⟩ := child.later
      rw [stop, index] at later
      exact resting_of_mem_trailsAmong f.later parent before children path later
    · exact ih outside

theorem resting_of_mem_coming (path : Path r frames) (member : w ∈ coming frames) :
    Resting r w := by
  rcases List.mem_append.mp member with below | after
  · cases frames with
    | nil => cases below
    | cons g above => exact resting_of_mem_trailsDown g.subtree g rfl path below
  · exact resting_of_mem_trailsOn path after

/-! ### What is still to come -/

/-- What comes after hidden frames is what shows there, and then what comes after the visible frame
around them. -/
theorem trailsOn_hidden (frames : List Frame) :
    trailsOn frames = spread (waysOn false frames) ++ trailsOn (visibleAmong frames) := by
  induction frames with
  | nil => rfl
  | cons f above ih =>
    cases above with
    | nil => rfl
    | cons parent above =>
      rw [visibleAmong, waysOn]
      by_cases visible : f.subtree.visible
      · simp [visible, spread]
      · simp only [visible, Bool.not_false, Bool.and_false, Bool.false_eq_true, ↓reduceIte]
        rw [trailsOn, trailsAmong_eq, spread_append, List.append_assoc, ← ih]

/-- What comes after a frame is what is left to go on to, and then what comes after its parent. -/
theorem trailsOn_cons (f : Frame) (above : List Frame) :
    trailsOn (f :: above)
      = spread (waysOn true (f :: above)) ++ trailsOn (visibleAmong above) := by
  cases above with
  | nil => rfl
  | cons parent above =>
    rw [trailsOn, trailsAmong_eq, trailsOn_hidden (parent :: above), ← List.append_assoc,
      ← spread_append]
    rfl

/-- The head of a suffix of two lists in a row is in one of them. -/
theorem cons_suffix_append {α : Type} {a b more : List α} {x : α} (last : x :: more <:+ a ++ b) :
    x :: more <:+ b ∨ ∃ rest, x :: rest <:+ a ∧ more = rest ++ b := by
  obtain ⟨front, split⟩ := last
  rcases List.append_eq_append_iff.mp split with ⟨rest, a_eq, rest_eq⟩ | ⟨back, -, b_eq⟩
  · cases rest with
    | nil => exact .inl ⟨[], rest_eq⟩
    | cons y rest =>
      obtain ⟨rfl, more_eq⟩ := List.cons_eq_cons.mp rest_eq
      exact .inr ⟨rest, ⟨front, a_eq.symm⟩, more_eq⟩
  · exact .inl ⟨back, b_eq.symm⟩

mutual

/-- From each of the trails down, the others are still to come, and then what comes after the
subtree. -/
theorem coming_of_suffix_trailsDown {more : List (List Frame)} (position : Extent) (g : Frame)
    (above : List Frame) : ∀ t : Subtree, w :: more <:+ trailsDown position (g :: above) t →
      coming w = more ++ trailsOn (g :: above)
  | ⟨_, _, children⟩, last => coming_of_suffix_trailsAmong position 0 g above children last

theorem coming_of_suffix_trailsAmong {more : List (List Frame)} (position : Extent) (index : Nat)
    (g : Frame) (above : List Frame) : ∀ ts : List Subtree,
      w :: more <:+ trailsAmong position index (g :: above) ts →
      coming w = more ++ trailsOn (g :: above)
  | [], last => by cases List.suffix_nil.mp last
  | t :: rest, last => by
    let f : Frame := ⟨t, position, index, rest⟩
    rw [trailsAmong] at last
    rcases cons_suffix_append last with along | ⟨before, ahead, rfl⟩
    · exact coming_of_suffix_trailsAmong f.stop f.nextIndex g above rest along
    · -- What comes after the first subtree are its later siblings, and then what comes after `g`.
      rw [List.append_assoc]
      change coming w = before ++ trailsOn (f :: g :: above)
      rcases cons_suffix_append ahead with down | ⟨none, here, rfl⟩
      · exact coming_of_suffix_trailsDown position f (g :: above) t down
      · split at here
        next =>
          rcases List.suffix_cons_iff.mp here with is | nowhere
          · obtain ⟨rfl, rfl⟩ := List.cons_eq_cons.mp is
            rfl
          · cases List.suffix_nil.mp nowhere
        next => cases List.suffix_nil.mp here

end

/-- A walk that goes on to the first of some trails, if there is one. -/
def onTo (c : Cursor) : List (List Frame) → Preorder
  | [] => .finished
  | w :: _ => .on (c.withFrames w)

theorem onTo_withFrames (c : Cursor) {trails : List (List Frame)}
    (resting : ∀ w ∈ trails, Resting r w) (frames : List Frame) :
    (c.withFrames frames).onTo trails = c.onTo trails := by
  cases trails with
  | nil => rfl
  | cons w more =>
    rw [onTo, onTo, withFrames_withFrames c frames (resting w List.mem_cons_self).path.ne_nil]

/-- Wherever there are frames above, the way up leads to the visible one among them. -/
theorem parent_eq (around : Resting r (visibleAmong c.above)) :
    c.parent = (true, c.withFrames (visibleAmong c.above)) := by
  rw [Cursor.parent]
  cases frames : visibleAmong c.above with
  | nil =>
    rw [frames] at around
    cases around.path
  | cons g outer => rfl

/-- Each step up leaves a frame behind, so as many steps as there are frames find what comes
after. -/
theorem Stands.leave (made : r.subtree.Constructed) {fuel : List Frame} (stands : Stands r c)
    (enough : c.frames.length ≤ fuel.length) :
    Preorder.leave fuel c = c.onTo (trailsOn c.frames) := by
  induction fuel generalizing c with
  | nil => cases enough
  | cons _ fuel ih =>
    have on : trailsOn c.frames = spread (waysOn true c.frames) ++ trailsOn (visibleAmong c.above) :=
      trailsOn_cons c.current c.above
    rw [Preorder.leave, nextSibling_eq (stands.later made), on]
    cases waysOn true c.frames with
    | cons w more => rfl
    | nil =>
      -- Nothing is left around the node, so what comes is what comes after its parent.
      obtain ⟨tree, current, above⟩ := c
      cases stands.resting.path with
      | start => rfl
      | @down _ holder above path child =>
        have around := resting_visibleAmong path
        have shorter := (through_visibleAmong path).length_le
        have up := stands.withFrames around
        have frames := frames_withFrames ⟨tree, current, holder :: above⟩ around.path.ne_nil
        have after := ih up (by rw [frames]; exact shorter.trans (Nat.le_of_succ_le_succ enough))
        rw [frames, onTo_withFrames _ fun w => resting_of_mem_trailsOn around.path] at after
        rw [parent_eq around]
        exact after

/-- A walk goes on to the first of what is still to come. -/
theorem Stands.advance (made : r.subtree.Constructed) (stands : Stands r c) :
    (Preorder.on c).advance = c.onTo (coming c.frames) := by
  rw [Preorder.advance, firstChild_eq (stands.current made), kids, coming, trailsFrom_eq]
  cases waysFrom c.frames with
  | nil => exact stands.leave made (Nat.le_refl _)
  | cons w more => rfl

/-! ### The whole walk -/

/-- All the places of a walk that begins at a node. -/
def course (n : Node) : List (List Frame) := n.walk.frames :: trailsFrom n.walk.frames

variable {more trails : List (List Frame)}

theorem resting_of_mem_course (member : w ∈ course r) : Resting r w := by
  have start : Resting r r.walk.frames := ⟨.start, .inl rfl⟩
  rcases List.mem_cons.mp member with rfl | below
  · exact start
  · exact resting_of_mem_coming start.path (List.mem_append_left _ below)

/-- From each place of the walk, the others are still to come. -/
theorem coming_of_suffix_course (last : w :: more <:+ course r) : coming w = more := by
  rcases List.suffix_cons_iff.mp last with start | below
  · obtain ⟨rfl, rfl⟩ := List.cons_eq_cons.mp start
    exact List.append_nil _
  · exact (coming_of_suffix_trailsDown _ _ _ _ below).trans (List.append_nil _)

/-- A walk that goes on to some of the places goes on to the others from there. -/
theorem advance_onTo (made : r.subtree.Constructed) (last : trails <:+ course r) :
    (r.walk.onTo trails).advance = r.walk.onTo trails.tail := by
  cases trails with
  | nil => rfl
  | cons w more =>
    have resting : Resting r w := resting_of_mem_course (last.subset List.mem_cons_self)
    have start : Stands r r.walk := ⟨rfl, .start, .inl rfl⟩
    have frames : (r.walk.withFrames w).frames = w := frames_withFrames r.walk resting.path.ne_nil
    have others : ∀ v ∈ more, Resting r v := fun v member =>
      resting_of_mem_course (last.subset (List.mem_cons_of_mem w member))
    calc (Preorder.on (r.walk.withFrames w)).advance
      _ = (r.walk.withFrames w).onTo (coming w) := by
        rw [(start.withFrames resting).advance made, frames]
      _ = r.walk.onTo more := by
        rw [coming_of_suffix_course last, onTo_withFrames r.walk others w]

theorem visit_onTo (made : r.subtree.Constructed) (steps : Nat) {p : Preorder}
    (last : trails <:+ course r) (next : p.advance = r.walk.onTo trails) :
    Preorder.visit steps p = (trails.take steps).map r.walk.withFrames := by
  induction steps generalizing p trails with
  | zero => rfl
  | succ steps ih =>
    rw [Preorder.visit, next]
    cases trails with
    | nil => rfl
    | cons w more =>
      have on := ih ((List.suffix_cons w more).trans last) (advance_onTo made last)
      rw [List.take_succ_cons, List.map_cons, ← on]
      rfl

end Cursor

namespace Tree

variable {t : Tree}

open Cursor (course Walks Resting)

/-- The walk is as long as it needs to be. -/
theorem preorder_eq (made : t.root.Constructed) :
    t.preorder = (course t.rootNode).map t.walk.withFrames := by
  have count : (course t.rootNode).length ≤ t.root.count :=
    Cursor.length_trailsDown_lt t.walk.current.position t.walk.frames t.root
  have visited := @Cursor.visit_onTo t.rootNode _ made t.root.count (.ofTree t)
    (List.suffix_refl _) rfl
  rwa [List.take_of_length_le count] at visited

end Tree

end Reparse
