import Reparse.Proofs.Syntax.Occurrence
import Reparse.Syntax.Edit

/-!
What an edit does to a subtree.

The edited subtree is as large as the text after the edit, and so is every node in it
(`Subtree.edit_spec`). Whatever in it is not marked as changed was there before and depends on
no byte that the edit touched: either its window ends before the edit and it stays at its place,
or it starts after what was deleted and moves along with the text (`Edit.Carries`). All of this
counts bytes, since points are taken on trust.

A pass over the children of a node is in one of two stages (`Pass.Stage`): it owes the whole
edit, or the new text has found a place and only the deletion is left.
-/

namespace Reparse

/-! ### Edits in bytes -/

namespace Edit

/-- What a text of `size` bytes can take: the edit starts within it, unless it does nothing,
and at its end it only inserts or only deletes. -/
structure Fits (e : Edit) (size : Nat) : Prop where
  start_le_oldStop : e.start.bytes ≤ e.oldStop.bytes
  start_le_newStop : e.start.bytes ≤ e.newStop.bytes
  within : e.start.bytes < size
    ∨ (e.start.bytes = size
      ∧ (e.oldStop.bytes = e.start.bytes ∨ e.newStop.bytes = e.start.bytes))
    ∨ (e.oldStop.bytes = e.start.bytes ∧ e.newStop.bytes = e.start.bytes)

/-- What depends on the bytes from `x` to `x + window` in a text of `size` bytes does not depend
on what the edit replaces, and starts at `y` afterwards. -/
def Carries (e : Edit) (size x window y : Nat) : Prop :=
  (x + window < e.start.bytes ∧ y = x)
    ∨ (e.oldStop.bytes ≤ x ∧ e.oldStop.bytes < size ∧ y + e.oldStop.bytes = x + e.newStop.bytes)

/-- How many bytes are left of `size` after the edit. -/
def resized (e : Edit) (size : Nat) : Nat :=
  if e.oldStop.bytes = e.start.bytes ∧ e.newStop.bytes = e.start.bytes then size
  else e.newStop.bytes + (size - e.oldStop.bytes)

theorem resize_bytes (e : Edit) (size : Extent) : (e.resize size).bytes = e.resized size.bytes := by
  unfold resize resized isNothing isInsertion
  simp only [Bool.and_eq_true, beq_iff_eq]
  split
  · rfl
  · rw [Extent.add_bytes, Extent.monus_bytes]

/-- Any text can take a mark. -/
theorem mark_fits (e : Edit) (size : Nat) : e.mark.Fits size :=
  ⟨Nat.le_refl _, Nat.le_refl _, .inr (.inr ⟨rfl, rfl⟩)⟩

/-- What is carried along keeps within what the window becomes. -/
theorem Fits.window_le {e : Edit} {size x window y lookahead : Nat} (fits : e.Fits size)
    (carries : e.Carries size x window y) (inside : x + window ≤ size + lookahead) :
    y + window ≤ e.resized size + lookahead := by
  have := fits.start_le_newStop
  have := fits.within
  unfold Carries at carries
  unfold resized
  split <;> omega

theorem relativeTo_start_bytes (e : Edit) (left : Extent) :
    (e.relativeTo left).start.bytes = e.start.bytes - left.bytes := Extent.monus_bytes _ _

theorem relativeTo_oldStop_bytes (e : Edit) (left : Extent) :
    (e.relativeTo left).oldStop.bytes = e.oldStop.bytes - left.bytes := Extent.monus_bytes _ _

theorem relativeTo_newStop_bytes (e : Edit) (left : Extent) :
    (e.relativeTo left).newStop.bytes = e.newStop.bytes - left.bytes := Extent.monus_bytes _ _

end Edit

/-! ### The stages of a pass -/

namespace Pass

/-- How far a pass has come with the edit `e` of a node, when the next child will start at
`now`. -/
inductive Stage (e : Edit) (now : Nat) (p : Pass) : Prop
  | owing (owed : p.owed = e) (inserts : p.inserts = e.isInsertion) (place : now = p.left.bytes)
      (before : p.left.bytes ≤ e.start.bytes)
      (passed : p.first = false → e.oldStop.bytes = e.start.bytes → p.left.bytes < e.start.bytes)
  | paid (owed : p.owed = e.deletion) (inserts : p.inserts = false) (later : p.first = false)
      (after : e.start.bytes ≤ p.left.bytes)
      (place : now = e.newStop.bytes + (p.left.bytes - e.oldStop.bytes))

theorem stage_start (e : Edit) : Stage e 0 ⟨e, e.isInsertion, {}, true⟩ :=
  .owing rfl rfl rfl (Nat.zero_le _) nofun

variable {e : Edit} {now size : Nat} {p : Pass} {c : Subtree}

theorem touches_iff : p.touches c ↔
    p.owed.start.bytes < p.left.bytes + c.size.bytes
      ∨ (p.left.bytes + c.size.bytes = p.owed.start.bytes ∧ p.inserts) := by
  simp [touches]

theorem isBefore_iff : p.isBefore c ↔ p.left.bytes + c.window < p.owed.start.bytes := by
  simp [isBefore]

theorem isAfter_iff : p.isAfter c ↔
    p.owed.oldStop.bytes < p.left.bytes
      ∨ (p.left.bytes = p.owed.oldStop.bytes ∧ 0 < c.size.bytes ∧ p.first = false) := by
  simp [isAfter, and_assoc]

theorem isInsertion_iff : e.isInsertion ↔ e.oldStop.bytes = e.start.bytes := by
  simp [Edit.isInsertion]

/-- Nothing lies after an edit that is still owed. -/
theorem Stage.paid_of_isAfter (stage : Stage e now p) (fits : e.Fits size) (isAfter : p.isAfter c) :
    now = e.newStop.bytes + (p.left.bytes - e.oldStop.bytes) ∧ e.oldStop.bytes ≤ p.left.bytes
      ∧ (c.size.bytes = 0 → e.oldStop.bytes < p.left.bytes) := by
  rw [isAfter_iff] at isAfter
  have := fits.start_le_oldStop
  cases stage with
  | owing owed _ _ before passed =>
    rw [owed] at isAfter
    rcases isAfter with isAfter | ⟨atEnd, _, later⟩
    · omega
    · have := passed later (by omega)
      omega
  | paid owed _ _ after place =>
    rw [owed] at isAfter
    change e.oldStop.bytes < _ ∨ _ = e.oldStop.bytes ∧ _ at isAfter
    exact ⟨place, by omega, by omega⟩

theorem Stage.owing_of_isBefore (stage : Stage e now p) (isBefore : p.isBefore c) :
    now = p.left.bytes ∧ p.left.bytes + c.window < e.start.bytes
      ∧ Stage e (now + c.size.bytes) (p.after c.size) := by
  rw [isBefore_iff] at isBefore
  cases stage with
  | owing owed inserts place before passed =>
    rw [owed] at isBefore
    have : c.size.bytes ≤ c.window := Nat.le_add_right _ _
    refine ⟨place, isBefore, .owing owed inserts (by rw [place]; rfl) ?_ fun _ _ => ?_⟩
    all_goals
      simp only [Pass.after, Extent.add_bytes]
      omega
  | paid owed _ _ after _ =>
    rw [owed] at isBefore
    change _ < e.start.bytes at isBefore
    omega

/-- What a child gets of the edit and where that leaves the pass. -/
structure Stage.Shared (e : Edit) (size now : Nat) (p : Pass) (c : Subtree) : Prop where
  fits : (p.share c).Fits c.size.bytes
  carries : ∀ {x window y}, (p.share c).Carries c.size.bytes x window y →
    e.Carries size (p.left.bytes + x) window (now + y)
  next : Stage e (now + (p.share c).resized c.size.bytes) ((p.settle c).after c.size)

theorem share_of_touches (touches : p.touches c) : p.share c = p.owed.relativeTo p.left := by
  rw [share, if_pos touches]

theorem share_of_not_touches (touches : ¬ p.touches c) :
    p.share c = (p.owed.relativeTo p.left).mark := by
  rw [share, if_neg touches]

theorem settle_of_touches (touches : p.touches c) :
    p.settle c = { p with owed := p.owed.deletion, inserts := false } := by
  rw [settle, if_pos touches]

theorem settle_of_not_touches (touches : ¬ p.touches c) : p.settle c = p := by
  rw [settle, if_neg touches]

theorem after_settle_left : ((p.settle c).after c.size).left = p.left + c.size := by
  simp only [Pass.after, Pass.settle]
  split <;> rfl

/-- A child that touches the edit gets all that is owed, and leaves the deletion at most. -/
theorem Stage.shared_of_touches (stage : Stage e now p) (fits : e.Fits size)
    (notAfter : ¬ p.isAfter c) (room : p.left.bytes + c.size.bytes ≤ size) (touches : p.touches c) :
    Stage.Shared e size now p c := by
  have share := share_of_touches touches
  have settle := settle_of_touches touches
  rw [isAfter_iff] at notAfter
  have ordered := fits.start_le_oldStop
  have grows := fits.start_le_newStop
  have within := fits.within
  cases stage with
  | owing owed inserts place before passed =>
    rw [touches_iff, owed, inserts, isInsertion_iff] at touches
    rw [owed] at share settle
    constructor
    · rw [share]
      constructor
      all_goals
        simp only [Edit.relativeTo_start_bytes, Edit.relativeTo_oldStop_bytes,
          Edit.relativeTo_newStop_bytes]
        omega
    · intro x window y carries
      rw [share] at carries
      simp only [Edit.Carries, Edit.relativeTo_start_bytes, Edit.relativeTo_oldStop_bytes,
        Edit.relativeTo_newStop_bytes] at carries ⊢
      omega
    · rw [settle, share]
      refine .paid rfl rfl rfl ?_ ?_
      · change e.start.bytes ≤ p.left.bytes + c.size.bytes
        omega
      · simp only [Edit.resized, Edit.relativeTo_start_bytes, Edit.relativeTo_oldStop_bytes,
          Edit.relativeTo_newStop_bytes, Pass.after, Extent.add_bytes]
        split <;> omega
  | paid owed inserts later after place =>
    rw [owed] at notAfter share settle
    change ¬ (e.oldStop.bytes < _ ∨ _ = e.oldStop.bytes ∧ _) at notAfter
    simp only [later, and_true] at notAfter
    constructor
    · rw [share]
      constructor
      all_goals
        simp only [Edit.relativeTo_start_bytes, Edit.relativeTo_oldStop_bytes,
          Edit.relativeTo_newStop_bytes, Edit.deletion, or_true, and_true]
        omega
    · intro x window y carries
      rw [share] at carries
      simp only [Edit.Carries, Edit.relativeTo_start_bytes, Edit.relativeTo_oldStop_bytes,
        Edit.relativeTo_newStop_bytes, Edit.deletion] at carries ⊢
      omega
    · rw [settle, share]
      refine .paid rfl rfl rfl ?_ ?_
      · change e.start.bytes ≤ p.left.bytes + c.size.bytes
        omega
      · simp only [Edit.resized, Edit.relativeTo_start_bytes, Edit.relativeTo_oldStop_bytes,
          Edit.relativeTo_newStop_bytes, Edit.deletion, Pass.after, Extent.add_bytes]
        split <;> omega

/-- A child that only looked at the edit gets its mark, and stays as large as it was. -/
theorem Stage.shared_of_not_touches (stage : Stage e now p) (fits : e.Fits size)
    (touches : ¬ p.touches c) : Stage.Shared e size now p c := by
  have share := share_of_not_touches touches
  have settle := settle_of_not_touches touches
  have ordered := fits.start_le_oldStop
  rw [touches_iff] at touches
  refine ⟨?_, fun {x window y} carries => ?_, ?_⟩
  · rw [share]
    exact Edit.mark_fits ..
  · rw [share] at carries
    simp only [Edit.Carries, Edit.mark, Edit.relativeTo_start_bytes] at carries ⊢
    cases stage with
    | owing owed inserts place before passed =>
      rw [owed] at touches carries
      omega
    | paid owed inserts later after place =>
      rw [owed] at touches carries
      change ¬ (e.start.bytes < _ ∨ _) at touches
      simp only [Edit.deletion] at carries
      omega
  · rw [settle, share]
    cases stage with
    | owing owed inserts place before passed =>
      rw [owed, inserts, isInsertion_iff] at touches
      refine .owing owed inserts ?_ ?_ fun _ _ => ?_
      all_goals
        simp only [Edit.resized, Edit.mark, Pass.after, Extent.add_bytes, and_self, if_true]
        omega
    | paid owed inserts later after place =>
      rw [owed] at touches
      change ¬ (e.start.bytes < _ ∨ _) at touches
      refine .paid owed inserts rfl ?_ ?_
      all_goals
        simp only [Edit.resized, Edit.mark, Pass.after, Extent.add_bytes, and_self, if_true]
        omega

theorem Stage.shared (stage : Stage e now p) (fits : e.Fits size)
    (notAfter : ¬ p.isAfter c) (room : p.left.bytes + c.size.bytes ≤ size) :
    Stage.Shared e size now p c := by
  by_cases touches : p.touches c
  · exact stage.shared_of_touches fits notAfter room touches
  · exact stage.shared_of_not_touches fits touches

end Pass

namespace Subtree

/-! ### Trees that were edited -/

/-- What every node keeps through edits: it is as long as its children together, and its window
covers the windows of whatever below it is not changed. -/
structure Aged (t : Subtree) : Prop where
  bytes_eq : t.children ≠ [] → t.size.bytes = (total t.children).bytes
  window_le : ∀ {u x}, Occurs u t x → u.info.changed = false → x.bytes + u.window ≤ t.window

/-- What an edit makes of a subtree. -/
structure Edited (e : Edit) (t new : Subtree) : Prop where
  changed : new.info.changed = true
  bytes_eq : new.size.bytes = e.resized t.size.bytes
  survivor : ∀ {u y}, Occurs u new y → u.info.changed = false →
    ∃ x, OccursIn u t.children x ∧ e.Carries t.size.bytes x.bytes u.window y.bytes
  aged : ∀ {u y}, Occurs u new y → u.Aged

/-- What a pass makes of the children from one of them on. -/
structure EditedIn (e : Edit) (size now : Nat) (p : Pass) (ts new : List Subtree) : Prop where
  bytes_eq : now + (total new).bytes = e.resized size
  survivor : ∀ {u y}, OccursIn u new y → u.info.changed = false →
    ∃ x, OccursIn u ts x
      ∧ e.Carries size (p.left.bytes + x.bytes) u.window (now + y.bytes)
  aged : ∀ {u y}, OccursIn u new y → u.Aged

section EditedIn

variable {e : Edit} {size now : Nat} {p : Pass} {ts : List Subtree}

/-- At the end of the children the edit has been paid. -/
theorem editedIn_nil (fits : e.Fits size) (stage : p.Stage e now) (later : p.first = false)
    (whole : p.left.bytes = size) : EditedIn e size now p [] [] := by
  refine ⟨?_, fun inside => absurd inside not_occursIn_nil,
    fun inside => absurd inside not_occursIn_nil⟩
  have ordered := fits.start_le_oldStop
  have grows := fits.start_le_newStop
  have within := fits.within
  simp only [total_nil, Extent.zero_bytes, Edit.resized]
  cases stage with
  | owing _ _ place before passed =>
    have := passed later
    split <;> omega
  | paid _ _ _ after place => split <;> omega

/-- What comes after the edit stays what it is. -/
theorem editedIn_after {c : Subtree} (fits : e.Fits size) (stage : p.Stage e now)
    (isAfter : p.isAfter c) (whole : p.left.bytes + (total (c :: ts)).bytes = size)
    (aged : ∀ {u x}, OccursIn u (c :: ts) x → u.Aged) : EditedIn e size now p (c :: ts) (c :: ts) := by
  obtain ⟨place, after, beyond⟩ := stage.paid_of_isAfter fits isAfter
  have ordered := fits.start_le_oldStop
  have grows := fits.start_le_newStop
  rw [total_cons, Extent.add_bytes] at whole
  refine ⟨?_, fun {u y} inside _ => ⟨y, inside, .inr (by omega)⟩, aged⟩
  rw [total_cons, Extent.add_bytes]
  simp only [Edit.resized]
  split <;> omega

/-- What is made of a child and of those after it makes up what is made of all. -/
theorem EditedIn.cons {p' : Pass} {c new : Subtree} {others : List Subtree}
    (tail : EditedIn e size (now + new.size.bytes) p' ts others)
    (left : p'.left = p.left + c.size)
    (head : ∀ {u y}, Occurs u new y → u.info.changed = false →
      ∃ x, Occurs u c x ∧ e.Carries size (p.left.bytes + x.bytes) u.window (now + y.bytes))
    (aged : ∀ {u y}, Occurs u new y → u.Aged) : EditedIn e size now p (c :: ts) (new :: others) where
  bytes_eq := by
    rw [total_cons, Extent.add_bytes, ← Nat.add_assoc]
    exact tail.bytes_eq
  survivor := by
    intro u y inside unchanged
    rcases occursIn_cons.mp inside with inNew | ⟨z, rfl, inRest⟩
    · obtain ⟨x, inside, carries⟩ := head inNew unchanged
      exact ⟨x, .head inside, carries⟩
    · obtain ⟨x, inside, carries⟩ := tail.survivor inRest unchanged
      refine ⟨c.size + x, .tail inside, ?_⟩
      rw [left, Extent.add_bytes] at carries
      rw [Extent.add_bytes, Extent.add_bytes, ← Nat.add_assoc, ← Nat.add_assoc]
      exact carries
  aged := by
    intro u y inside
    rcases occursIn_cons.mp inside with inNew | ⟨z, rfl, inRest⟩
    · exact aged inNew
    · exact tail.aged inRest

theorem editChildren_spec (fits : e.Fits size) (ts : List Subtree)
    (each : ∀ c ∈ ts, ∀ {e : Edit}, e.Fits c.size.bytes → ∀ fresh,
      Edited e c (c.edit e fresh).1)
    (aged : ∀ {u x}, OccursIn u ts x → u.Aged) (stage : p.Stage e now)
    (some : p.first = true → ts ≠ []) (whole : p.left.bytes + (total ts).bytes = size)
    (fresh : Stamp) : EditedIn e size now p ts (editChildren p fresh ts).1 := by
  induction ts generalizing now p fresh with
  | nil => exact editedIn_nil fits stage (by simpa using some) whole
  | cons c rest ih =>
    have agedC : ∀ {u x}, Occurs u c x → u.Aged := fun inside => aged (.head inside)
    have ih {now : Nat} {p : Pass} := @ih now p
      (fun c member => each c (List.mem_cons_of_mem _ member)) (fun inside => aged (.tail inside))
    have split : p.left.bytes + c.size.bytes + (total rest).bytes = size := by
      rw [← whole, total_cons, Extent.add_bytes, Nat.add_assoc]
    rw [editChildren]
    split
    · rename_i isBefore
      obtain ⟨place, windowed, next⟩ := stage.owing_of_isBefore isBefore
      refine (ih next nofun split fresh).cons rfl (fun {u y} inside unchanged => ?_) agedC
      have := (agedC .here).window_le inside unchanged
      exact ⟨y, inside, .inl (by omega)⟩
    · split
      · rename_i isAfter
        exact editedIn_after fits stage isAfter whole aged
      · rename_i notAfter
        have shared := stage.shared fits notAfter (by omega)
        have edited := each c List.mem_cons_self shared.fits fresh
        have next := shared.next
        rw [← edited.bytes_eq] at next
        have tail := ih next nofun (by rw [Pass.after_settle_left, Extent.add_bytes]; exact split)
          (c.edit (p.share c) fresh).2
        refine tail.cons Pass.after_settle_left (fun inside unchanged => ?_) edited.aged
        obtain ⟨x, inside, carries⟩ := edited.survivor inside unchanged
        exact ⟨x, .under inside, shared.carries carries⟩

end EditedIn

/-- Edits keep every node as long as its children together. What they do not mark as changed lay
below the root before and is carried along. -/
theorem edit_spec (t : Subtree) {e : Edit} (fits : e.Fits t.size.bytes)
    (aged : ∀ {u x}, Occurs u t x → u.Aged) (fresh : Stamp) : Edited e t (t.edit e fresh).1 := by
  induction t using Subtree.induction generalizing e fresh with
  | node t ih =>
    obtain ⟨stamp, info, children⟩ := t
    have root := aged .here
    by_cases leaf : children = []
    · subst leaf
      refine ⟨rfl, e.resize_bytes info.size, ?_, ?_⟩
      · rintro u y (_ | inside) unchanged
        · cases unchanged
        · exact absurd inside not_occursIn_nil
      · rintro u y (_ | inside)
        · refine ⟨fun some => absurd rfl some, ?_⟩
          rintro u y (_ | inside) unchanged
          · cases unchanged
          · exact absurd inside not_occursIn_nil
        · exact absurd inside not_occursIn_nil
    · have below : EditedIn e info.size.bytes 0 ⟨e, e.isInsertion, {}, true⟩ children
          (editChildren ⟨e, e.isInsertion, {}, true⟩ fresh children).1 := by
        refine editChildren_spec fits children ?_ (fun inside => aged (.under inside))
          (Pass.stage_start e) (fun _ => leaf) ?_ fresh
        · intro c member e fits fresh
          refine ih c member fits (fun inside => ?_) fresh
          obtain ⟨before, after, rfl⟩ := List.append_of_mem member
          exact aged (.under (occursIn_of_mem inside))
        · exact (Nat.zero_add _).trans (root.bytes_eq leaf).symm
      have survivor {u : Subtree} {y : Extent}
          (inside : Occurs u (edit e fresh ⟨stamp, info, children⟩).1 y)
          (unchanged : u.info.changed = false) : ∃ x, OccursIn u children x
            ∧ e.Carries info.size.bytes x.bytes u.window y.bytes := by
        rcases inside with _ | inside
        · cases unchanged
        · obtain ⟨x, inside, carries⟩ := below.survivor inside unchanged
          exact ⟨x, inside, by simpa using carries⟩
      refine ⟨rfl, e.resize_bytes info.size, survivor, ?_⟩
      rintro u y (_ | inside)
      · refine ⟨fun _ => ?_, fun {u x} inside unchanged => ?_⟩
        · have := below.bytes_eq
          rw [Nat.zero_add] at this
          exact (e.resize_bytes info.size).trans this.symm
        · obtain ⟨x, inside, carries⟩ := survivor inside unchanged
          have := fits.window_le carries (root.window_le (.under inside) unchanged)
          rwa [← e.resize_bytes info.size] at this
      · exact below.aged inside

end Subtree

end Reparse
