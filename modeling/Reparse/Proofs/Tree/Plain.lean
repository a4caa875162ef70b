import Reparse.Proofs.Syntax.Plain
import Reparse.Tree.Outline

/-!
What readers see of a tree does not depend on what only the next parse needs.

Cursors over a tree and over what it is plainly make the same moves, so that both trees have one
outline (`Tree.outline_eq_of_plain`).
-/

namespace Reparse

/-! ### Cursors -/

def Tree.plain (t : Tree) : Tree := ⟨t.root.plain, t.language, 0⟩

def Frame.plain (f : Frame) : Frame :=
  { f with subtree := f.subtree.plain, later := f.later.map Subtree.plain }

def Cursor.plain (c : Cursor) : Cursor :=
  ⟨c.tree.plain, c.current.plain, c.above.map Frame.plain⟩

def Preorder.plain : Preorder → Preorder
  | .before start => .before start.plain
  | .on here => .on here.plain
  | .finished => .finished

namespace Subtree

theorem plain_visibleCount (t : Subtree) : t.plain.info.visibleCount = t.info.visibleCount := by
  rw [plain_info]
  rfl

mutual

theorem count_plain : ∀ t : Subtree, t.plain.count = t.count
  | ⟨_, _, children⟩ => by rw [plain_mk, count, count, countAll_plain children]

theorem countAll_plain : ∀ ts : List Subtree, countAll (ts.map plain) = countAll ts
  | [] => rfl
  | t :: rest => by rw [List.map_cons, countAll, countAll, count_plain t, countAll_plain rest]

end

end Subtree

namespace Frame

variable {position : Extent} {index : Nat}

@[simp] theorem plain_position (f : Frame) : f.plain.position = f.position := rfl

@[simp] theorem plain_visible (f : Frame) : f.plain.subtree.visible = f.subtree.visible :=
  f.subtree.plain_visible

@[simp] theorem plain_extra (f : Frame) : f.plain.subtree.extra = f.subtree.extra :=
  f.subtree.plain_extra

@[simp] theorem plain_stop (f : Frame) : f.plain.stop = f.stop := by
  rw [stop, stop, plain_position]
  exact congrArg (f.position + ·) f.subtree.plain_size

@[simp] theorem plain_nextIndex (f : Frame) : f.plain.nextIndex = f.nextIndex := by
  rw [nextIndex, nextIndex, plain_extra]
  rfl

theorem shows_plain (t : Subtree) : shows t.plain = shows t := by
  rw [shows, shows, t.plain_visible, t.plain_visibleCount]

theorem firstShown_plain (position : Extent) (index : Nat) (ts : List Subtree) :
    firstShown position index (ts.map Subtree.plain)
      = (firstShown position index ts).map plain := by
  induction ts generalizing position index with
  | nil => rfl
  | cons t rest ih =>
    rw [List.map_cons, firstShown, firstShown, shows_plain, t.plain_size, t.plain_extra, ih]
    split <;> rfl

end Frame

namespace Cursor

/-! ### Moves -/

mutual

theorem descend_plain (position : Extent) (above : List Frame) : ∀ t : Subtree,
    descend position (above.map Frame.plain) t.plain
      = ((descend position above t).1.map Frame.plain, (descend position above t).2)
  | ⟨_, _, children⟩ => by
    rw [Subtree.plain_mk, descend, descend]
    exact descendAmong_plain position 0 above children

theorem descendAmong_plain (position : Extent) (index : Nat) (above : List Frame) :
    ∀ ts : List Subtree, descendAmong position index (above.map Frame.plain) (ts.map Subtree.plain)
      = ((descendAmong position index above ts).1.map Frame.plain,
        (descendAmong position index above ts).2)
  | [] => rfl
  | t :: rest => by
    have down := descend_plain position (⟨t, position, index, rest⟩ :: above) t
    have along := descendAmong_plain (position + t.size) (if t.extra then index else index + 1)
      above rest
    rw [List.map_cons, descendAmong, descendAmong, t.plain_visible, t.plain_visibleCount,
      t.plain_size, t.plain_extra]
    split
    · rfl
    · split
      · exact down
      · exact along

end

theorem frames_plain (c : Cursor) : c.plain.frames = c.frames.map Frame.plain := rfl

theorem withFrames_plain (c : Cursor) (frames : List Frame) :
    c.plain.withFrames (frames.map Frame.plain) = (c.withFrames frames).plain := by
  cases frames <;> rfl

theorem firstChild_plain (c : Cursor) :
    c.plain.firstChild = (c.firstChild.1, c.firstChild.2.plain) := by
  have down : descend c.plain.current.position c.plain.frames c.plain.current.subtree = _ :=
    descend_plain c.current.position c.frames c.current.subtree
  unfold firstChild
  rw [down]
  exact Prod.ext rfl (withFrames_plain ..)

theorem nextAmong_plain (innermost : Bool) (frames : List Frame) :
    nextAmong innermost (frames.map Frame.plain)
      = (nextAmong innermost frames).map (List.map Frame.plain) := by
  induction frames generalizing innermost with
  | nil => rfl
  | cons f above ih =>
    cases above with
    | nil => rfl
    | cons parent above =>
      rw [List.map_cons, List.map_cons, nextAmong, nextAmong, Frame.plain_visible,
        Frame.plain_stop, Frame.plain_nextIndex]
      have later : f.plain.later = f.later.map Subtree.plain := rfl
      rw [later, Frame.firstShown_plain]
      split
      · rfl
      · cases Frame.firstShown f.stop f.nextIndex f.later with
        | none => exact ih false
        | some next => rfl

theorem nextSibling_plain (c : Cursor) :
    c.plain.nextSibling = (c.nextSibling.1, c.nextSibling.2.plain) := by
  unfold nextSibling
  rw [frames_plain, nextAmong_plain]
  cases nextAmong true c.frames with
  | none => rfl
  | some frames =>
    rw [Option.map_some]
    dsimp only
    rw [withFrames_plain]
    generalize c.withFrames frames = next
    have visible : next.plain.current.subtree.visible = next.current.subtree.visible :=
      next.current.plain_visible
    rw [visible, firstChild_plain]
    split <;> rfl

theorem visibleAmong_plain (frames : List Frame) :
    visibleAmong (frames.map Frame.plain) = (visibleAmong frames).map Frame.plain := by
  induction frames with
  | nil => rfl
  | cons f above ih =>
    cases above with
    | nil => rfl
    | cons parent above =>
      rw [List.map_cons, List.map_cons, visibleAmong, visibleAmong, Frame.plain_visible]
      split
      · rfl
      · exact ih

theorem parent_plain (c : Cursor) : c.plain.parent = (c.parent.1, c.parent.2.plain) := by
  have above : c.plain.above = c.above.map Frame.plain := rfl
  rw [parent, parent, above, visibleAmong_plain]
  cases visibleAmong c.above with
  | nil => rfl
  | cons f above => exact Prod.ext rfl (withFrames_plain c (f :: above))

/-! ### Rows -/

theorem fieldOf_plain (lang : Language) (innermost : Bool) (frames : List Frame) :
    fieldOf lang innermost (frames.map Frame.plain) = fieldOf lang innermost frames := by
  induction frames generalizing innermost with
  | nil => rfl
  | cons f above ih =>
    cases above with
    | nil => rfl
    | cons parent above =>
      have production : parent.plain.subtree.info.production = parent.subtree.info.production := by
        change parent.subtree.plain.info.production = _
        rw [Subtree.plain_info]
        rfl
      have deeper := ih false
      rw [List.map_cons] at deeper
      rw [List.map_cons, List.map_cons, fieldOf, fieldOf, Frame.plain_visible, Frame.plain_extra,
        production, deeper]
      rfl

theorem depth_plain (c : Cursor) : c.plain.depth = c.depth := by
  rw [depth, depth, frames_plain, ← List.map_dropLast, List.countP_map]
  congr 1
  funext f
  exact f.plain_visible

theorem node_info_plain (n : Node) : Node.info ⟨n.tree.plain, n.subtree.plain, n.position⟩ = n.info := by
  have info := n.subtree.plain_info
  unfold Node.info Node.kind Node.range Node.isNamed Node.isExtra Node.isError Node.isMissing
    Node.hasError Node.hasChanges Node.childCount Node.namedChildCount Node.startByte Node.stopByte
    Node.startPoint Node.stopPoint Node.stop Node.symbol Subtree.hasError
  dsimp only
  rw [n.subtree.plain_symbol, n.subtree.plain_size, n.subtree.plain_extra, n.subtree.plain_isError,
    info]
  rfl

theorem row_plain (c : Cursor) : c.plain.row = c.row := by
  have field : c.plain.fieldName? = c.fieldName? := by
    rw [fieldName?, fieldName?, field?, field?, frames_plain]
    change (fieldOf c.tree.language true (c.frames.map Frame.plain)).bind _ = _
    rw [fieldOf_plain]
    rfl
  rw [row, row, depth_plain, field]
  exact congrArg (Row.mk _ _) (node_info_plain c.node)

end Cursor

/-! ### Outlines -/

namespace Preorder

theorem leave_plain (frames : List Frame) (c : Cursor) :
    leave (frames.map Frame.plain) c.plain = (leave frames c).plain := by
  induction frames generalizing c with
  | nil => rfl
  | cons f frames ih =>
    rw [List.map_cons, leave, leave, c.nextSibling_plain]
    generalize c.nextSibling = next
    obtain ⟨found, next⟩ := next
    cases found with
    | true => rfl
    | false =>
      dsimp only
      rw [c.parent_plain]
      generalize c.parent = parent
      obtain ⟨found, parent⟩ := parent
      cases found with
      | true => exact ih parent
      | false => rfl

theorem advance_plain (p : Preorder) : p.plain.advance = p.advance.plain := by
  cases p with
  | before start => rfl
  | finished => rfl
  | on here =>
    rw [plain, advance, advance, here.firstChild_plain]
    generalize here.firstChild = child
    obtain ⟨found, c⟩ := child
    cases found with
    | true => rfl
    | false => exact leave_plain c.frames c

theorem visit_plain (steps : Nat) (p : Preorder) :
    visit steps p.plain = (visit steps p).map Cursor.plain := by
  induction steps generalizing p with
  | zero => rfl
  | succ steps ih =>
    rw [visit, visit, advance_plain]
    cases p.advance with
    | before start => rfl
    | finished => rfl
    | on here => exact congrArg (here.plain :: ·) (ih (.on here))

end Preorder

namespace Tree

theorem outline_plain (t : Tree) : t.plain.outline = t.outline := by
  have start : Preorder.ofTree t.plain = (Preorder.ofTree t).plain := rfl
  rw [outline, outline, preorder, preorder, start, Preorder.visit_plain, List.map_map]
  change List.map _ (Preorder.visit t.root.plain.count _) = _
  rw [Subtree.count_plain]
  refine List.map_congr_left fun c _ => ?_
  exact c.row_plain

/-- Trees that are plainly equal look alike to readers. -/
theorem outline_eq_of_plain {t t' : Tree} (language : t.language = t'.language)
    (roots : t.root.plain = t'.root.plain) : t.outline = t'.outline := by
  rw [← outline_plain t, ← outline_plain t', plain, plain, language, roots]

end Tree

end Reparse
