import Reparse.Parse.Reuse
import Reparse.Proofs.Syntax.Edit

/-!
What the cursor over an old tree finds.

The cursor only moves on, past subtrees or into them, so what holds of the old tree at its
places holds of what is still to come, and no text is lost on the way (`Ahead.findIn`). What it
offers comes next in the old tree, at the place it was asked for, and passed the tests for being
taken over (`findIn_offers`).
-/

namespace Reparse

open Subtree (total EverywhereIn Everywhere)

namespace ReuseCursor

/-- What is to come of an old tree: `P` holds of it at its places, every node is as long as its
children, and it ends at `stop`. -/
structure Ahead (P : Nat → Subtree → Prop) (stop : Nat) (c : ReuseCursor) : Prop where
  holds : EverywhereIn P c.offset c.pending
  aged : EverywhereIn (fun _ => Subtree.Aged) c.offset c.pending
  stop_eq : c.offset + (total c.pending).bytes = stop

/-- What was offered at `position` to a parser in `state`. -/
inductive Offers (position : Nat) (state : StateId) (mode : LexMode) (c : ReuseCursor) :
    Reuse → Prop
  | node {t : Subtree} (place : c.offset = position) (next : c.pending.head? = some t)
      (inner : t.children ≠ []) (takes : takesNode t state mode) :
      Offers position state mode c (.node t)
  | token {t : Subtree} (place : c.offset = position) (next : c.pending.head? = some t)
      (leaf : t.children = []) (some : 0 < t.size.bytes) (takes : takesToken t mode) :
      Offers position state mode c (.token t)

variable {P : Nat → Subtree → Prop} {position offset stop : Nat} {state : StateId}
  {mode : LexMode} {t : Subtree} {rest pending : List Subtree} {c : ReuseCursor}

theorem judge_enter (verdict : judge t offset position state mode = .enter) :
    t.children ≠ [] := by
  intro leaf
  have isLeaf : t.isLeaf = true := by simp [Subtree.isLeaf, leaf]
  simp only [judge, isLeaf] at verdict
  repeat' split at verdict
  all_goals simp_all

theorem judge_answer {found : Reuse}
    (verdict : judge t offset position state mode = .answer (some found)) :
    offset = position
      ∧ ((found = .node t ∧ t.children ≠ [] ∧ takesNode t state mode)
        ∨ (found = .token t ∧ t.children = [] ∧ 0 < t.size.bytes ∧ takesToken t mode)) := by
  unfold judge at verdict
  split at verdict
  · split at verdict <;> cases verdict
  · split at verdict
    · cases verdict
    · refine ⟨by omega, ?_⟩
      split at verdict
      · rename_i leaf
        have leaf : t.children = [] := List.isEmpty_iff.mp leaf
        split at verdict
        · cases verdict
        · split at verdict
          · cases verdict
            exact .inr ⟨rfl, leaf, by omega, by assumption⟩
          · cases verdict
      · rename_i inner
        have inner : t.children ≠ [] := fun leaf => inner (List.isEmpty_iff.mpr leaf)
        split at verdict
        · cases verdict
          exact .inl ⟨rfl, inner, by assumption⟩
        · cases verdict

theorem Ahead.skip (ahead : Ahead P stop ⟨offset, t :: rest⟩) :
    Ahead P stop ⟨offset + t.size.bytes, rest⟩ where
  holds := (Subtree.everywhereIn_cons.mp ahead.holds).2
  aged := (Subtree.everywhereIn_cons.mp ahead.aged).2
  stop_eq := by
    have := ahead.stop_eq
    simp only [Subtree.total_cons, Extent.add_bytes] at this
    dsimp only
    omega

theorem Ahead.enter (ahead : Ahead P stop ⟨offset, t :: rest⟩) (inner : t.children ≠ []) :
    Ahead P stop ⟨offset, t.children ++ rest⟩ := by
  have bytes : t.size.bytes = (total t.children).bytes :=
    ((Subtree.everywhereIn_cons.mp ahead.aged).1 t 0 .here).bytes_eq inner
  refine ⟨ahead.holds.enter bytes, ahead.aged.enter bytes, ?_⟩
  have := ahead.stop_eq
  simp only [Subtree.total_cons, Subtree.total_append, Extent.add_bytes] at this ⊢
  omega

/-- Looking for a subtree keeps account of the text that is to come. -/
theorem Ahead.findIn (ahead : Ahead P stop ⟨offset, pending⟩) (position : Nat)
    (state : StateId) (mode : LexMode) :
    Ahead P stop (findIn position state mode offset pending).2 := by
  fun_induction ReuseCursor.findIn position state mode offset pending with
  | case1 offset => exact ahead
  | case2 offset t rest found verdict => exact ahead
  | case3 offset t rest verdict ih => exact ih ahead.skip
  | case4 offset t rest verdict ih => exact ih (ahead.enter (judge_enter verdict))

/-- Where nothing is to come nothing is found. -/
theorem find_of_nil (done : c.pending = []) :
    c.find position state mode = (none, ⟨c.offset, []⟩) := by
  rw [find, done, ReuseCursor.findIn]

theorem findIn_offers {found : Reuse} {after : ReuseCursor}
    (found_eq : findIn position state mode offset pending = (some found, after)) :
    Offers position state mode after found := by
  fun_induction ReuseCursor.findIn position state mode offset pending with
  | case1 offset => cases found_eq
  | case2 offset t rest answer verdict =>
    cases found_eq
    obtain ⟨place, ⟨rfl, inner, takes⟩ | ⟨rfl, leaf, some, takes⟩⟩ := judge_answer verdict
    · exact .node place rfl inner takes
    · exact .token place rfl leaf some takes
  | case3 offset t rest verdict ih => exact ih found_eq
  | case4 offset t rest verdict ih => exact ih found_eq

/-- What comes next lies at the cursor's place and ends within the old tree. -/
theorem Ahead.next (ahead : Ahead P stop c) (next : c.pending.head? = some t) :
    Everywhere P c.offset t ∧ c.offset + t.size.bytes ≤ stop := by
  obtain ⟨offset, pending⟩ := c
  cases pending with
  | nil => cases next
  | cons first rest =>
    cases next
    have := ahead.stop_eq
    simp only [Subtree.total_cons, Extent.add_bytes] at this
    exact ⟨(Subtree.everywhereIn_cons.mp ahead.holds).1, by dsimp only; omega⟩

end ReuseCursor

end Reparse
