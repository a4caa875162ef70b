import Reparse.Proofs.Text.Extent
import Reparse.Syntax.Subtree

/-!
What the summary of a node says about its children.

Adding children to a summary changes what is derived from them and nothing else
(`Summary.append_unchanged`). The size of a node is the sum of its children's sizes
(`Summary.append_size`), its window covers theirs (`Summary.reach_le_append`,
`Summary.window_le_append`), and it costs something as soon as a child does or the node is an
error (`Summary.append_errorCost_pos`, `Summary.append_errorCost_of_error`).
-/

namespace Reparse

theorem Cost.sum_pos {a b : Nat} (h : 0 < a ∨ 0 < b) : 0 < Cost.sum a b := by
  have : 0 < Cost.ceiling := by decide
  exact Nat.lt_min.mpr ⟨by omega, this⟩

theorem Cost.sum_eq_zero {a b : Nat} : Cost.sum a b = 0 ↔ a = 0 ∧ b = 0 := by
  constructor
  · intro h
    by_contra nonzero
    have := Cost.sum_pos (a := a) (b := b) (by omega)
    omega
  · rintro ⟨rfl, rfl⟩
    rfl

theorem Cost.skipped_pos (trees : Nat) (size : Extent) : 0 < Cost.skipped trees size := by
  have : Cost.perRecovery = 500 := rfl
  unfold Cost.skipped
  omega

namespace Subtree

/-- The size of some subtrees side by side. -/
def total (ts : List Subtree) : Extent := (ts.map (·.size)).sum

@[simp] theorem total_nil : total [] = 0 := rfl

@[simp] theorem total_cons (t : Subtree) (ts : List Subtree) :
    total (t :: ts) = t.size + total ts := by
  simp [total]

@[simp] theorem total_append (a b : List Subtree) : total (a ++ b) = total a + total b := by
  simp [total]

/-- The subtrees that are no extras. -/
def structural (ts : List Subtree) : List Subtree := ts.filter (!·.extra)

section Structural

variable {a b : List Subtree} {t : Subtree}

@[simp] theorem structural_nil : structural [] = [] := rfl

@[simp] theorem structural_append : structural (a ++ b) = structural a ++ structural b :=
  List.filter_append _ _

theorem structural_singleton (regular : t.extra = false) : structural [t] = [t] := by
  simp [structural, regular]

theorem structural_singleton_extra (extra : t.extra = true) : structural [t] = [] := by
  simp [structural, extra]

end Structural

end Subtree

namespace Summary

open Subtree (total)

/-- How far a node of the summary reaches from its start: its window. -/
def reach (s : Summary) : Nat := s.size.bytes + s.lookahead

/-! ### One child -/

theorem add_size (s : Summary) (t : Subtree) : (s.add t).size = s.size + t.size := rfl

theorem add_errorCost (s : Summary) (t : Subtree) :
    (s.add t).errorCost = Cost.sum s.errorCost t.info.errorCost := rfl

theorem add_reach (s : Summary) (t : Subtree) :
    (s.add t).reach = max s.reach (s.size.bytes + t.window) := by
  simp only [reach, add, Subtree.window, Extent.add_bytes]
  omega

/-! ### Any number of children -/

theorem foldl_add_size (ts : List Subtree) (s : Summary) :
    (ts.foldl add s).size = s.size + total ts := by
  induction ts generalizing s with
  | nil => simp
  | cons t ts ih => rw [List.foldl_cons, ih, add_size, Subtree.total_cons, add_assoc]

theorem reach_le_foldl_add (ts : List Subtree) (s : Summary) :
    s.reach ≤ (ts.foldl add s).reach := by
  induction ts generalizing s with
  | nil => exact Nat.le_refl _
  | cons t ts ih =>
    have := ih (s.add t)
    rw [add_reach] at this
    rw [List.foldl_cons]
    omega

theorem window_le_foldl_add (before : List Subtree) (t : Subtree) (after : List Subtree)
    (s : Summary) :
    s.size.bytes + (total before).bytes + t.window
      ≤ ((before ++ t :: after).foldl add s).reach := by
  have := reach_le_foldl_add after ((before.foldl add s).add t)
  rw [add_reach, foldl_add_size] at this
  simp only [Extent.add_bytes] at this
  rw [List.foldl_append, List.foldl_cons]
  omega

/-- What a child does not count towards stays as it is. -/
theorem foldl_add_unchanged {α : Type} (f : Summary → α) (same : ∀ s t, f (s.add t) = f s)
    (ts : List Subtree) (s : Summary) : f (ts.foldl add s) = f s := by
  induction ts generalizing s with
  | nil => rfl
  | cons t ts ih => rw [List.foldl_cons, ih, same]

theorem foldl_add_errorCost_eq_zero (ts : List Subtree) (s : Summary) :
    (ts.foldl add s).errorCost = 0 ↔
      s.errorCost = 0 ∧ ∀ t ∈ ts, t.info.errorCost = 0 := by
  induction ts generalizing s with
  | nil => simp
  | cons t ts ih =>
    rw [List.foldl_cons, ih, add_errorCost, Cost.sum_eq_zero]
    simp [and_assoc]

/-! ### Appending children -/

/-- The summary that further children are added to: an error node's own cost is off, and a
node that had no children reads its first token like the first of them. -/
def opened (s : Summary) (had more : List Subtree) : Summary :=
  { s with
    lexMode :=
      match had, more with
      | [], first :: _ => first.info.lexMode
      | _, _ => s.lexMode
    errorCost := if s.isError then s.errorCost - Cost.skipped had.length s.size else s.errorCost }

theorem append_eq (s : Summary) (had more : List Subtree) :
    s.append had more =
      let all := more.foldl add (s.opened had more)
      { all with
        errorCost :=
          if s.isError then
            Cost.sum all.errorCost (Cost.skipped (had.length + more.length) all.size)
          else all.errorCost } := by
  unfold append opened
  cases s.isError with
  | true => rfl
  | false => rfl

theorem append_unchanged {α : Type} (f : Summary → α) (same : ∀ s t, f (s.add t) = f s)
    (apart : ∀ (s : Summary) lexMode errorCost, f { s with lexMode, errorCost } = f s)
    (s : Summary) (had more : List Subtree) : f (s.append had more) = f s := by
  have cost (s : Summary) (errorCost : Nat) : f { s with errorCost } = f s :=
    apart s s.lexMode errorCost
  rw [append_eq, cost, foldl_add_unchanged f same]
  exact apart s _ _

theorem append_reach_eq (s : Summary) (had more : List Subtree) :
    (s.append had more).reach = (more.foldl add (s.opened had more)).reach := by
  rw [append_eq]
  rfl

theorem append_size (s : Summary) (had more : List Subtree) :
    (s.append had more).size = s.size + total more := by
  rw [append_eq]
  exact foldl_add_size more (s.opened had more)

theorem reach_le_append (s : Summary) (had more : List Subtree) :
    s.reach ≤ (s.append had more).reach := by
  rw [append_reach_eq]
  exact reach_le_foldl_add more (s.opened had more)

theorem window_le_append (s : Summary) (had before : List Subtree) (t : Subtree)
    (after : List Subtree) :
    s.size.bytes + (total before).bytes + t.window
      ≤ (s.append had (before ++ t :: after)).reach := by
  rw [append_reach_eq]
  exact window_le_foldl_add before t after (s.opened had (before ++ t :: after))

theorem append_errorCost_of_error {s : Summary} (error : s.isError) (had more : List Subtree) :
    0 < (s.append had more).errorCost := by
  rw [append_eq]
  simp only [error, if_true]
  exact Cost.sum_pos (.inr (Cost.skipped_pos _ _))

theorem append_errorCost_eq_zero {s : Summary} (regular : ¬ s.isError) (had more : List Subtree) :
    (s.append had more).errorCost = 0 ↔
      s.errorCost = 0 ∧ ∀ t ∈ more, t.info.errorCost = 0 := by
  rw [append_eq]
  simp only [regular]
  rw [if_neg Bool.false_ne_true, foldl_add_errorCost_eq_zero]
  simp only [opened, regular]
  rw [if_neg Bool.false_ne_true]

/-! ### Nodes -/

variable (lang : Language) (symbol : Symbol) (children : List Subtree) (production : ProductionId)
  (parseState : StateId)

theorem ofChildren_unchanged {α : Type} (f : Summary → α) (same : ∀ s t, f (s.add t) = f s)
    (apart : ∀ (s : Summary) lexMode errorCost, f { s with lexMode, errorCost } = f s) :
    f (ofChildren lang symbol children production parseState)
      = f { blank lang symbol parseState with production, extra := false } :=
  append_unchanged f same apart _ [] children

@[simp] theorem ofChildren_size :
    (ofChildren lang symbol children production parseState).size = total children := by
  rw [ofChildren, append_size]
  exact zero_add _

@[simp] theorem ofChildren_symbol :
    (ofChildren lang symbol children production parseState).symbol = symbol :=
  ofChildren_unchanged _ _ _ _ _ (·.symbol) (fun _ _ => rfl) (fun _ _ _ => rfl)

@[simp] theorem ofChildren_parseState :
    (ofChildren lang symbol children production parseState).parseState = parseState :=
  ofChildren_unchanged _ _ _ _ _ (·.parseState) (fun _ _ => rfl) (fun _ _ _ => rfl)

@[simp] theorem ofChildren_production :
    (ofChildren lang symbol children production parseState).production = production :=
  ofChildren_unchanged _ _ _ _ _ (·.production) (fun _ _ => rfl) (fun _ _ _ => rfl)

@[simp] theorem ofChildren_extra :
    (ofChildren lang symbol children production parseState).extra = false :=
  ofChildren_unchanged _ _ _ _ _ (·.extra) (fun _ _ => rfl) (fun _ _ _ => rfl)

@[simp] theorem ofChildren_missing :
    (ofChildren lang symbol children production parseState).missing = false :=
  ofChildren_unchanged _ _ _ _ _ (·.missing) (fun _ _ => rfl) (fun _ _ _ => rfl)

@[simp] theorem ofChildren_changed :
    (ofChildren lang symbol children production parseState).changed = false :=
  ofChildren_unchanged _ _ _ _ _ (·.changed) (fun _ _ => rfl) (fun _ _ _ => rfl)

theorem window_le_ofChildren (before : List Subtree) (t : Subtree) (after : List Subtree) :
    (total before).bytes + t.window
      ≤ (ofChildren lang symbol (before ++ t :: after) production parseState).reach := by
  have := window_le_append
    { blank lang symbol parseState with production, extra := false } [] before t after
  exact Nat.le_trans (by simp [blank]) this

theorem ofChildren_errorCost_of_error :
    0 < (ofChildren lang Symbol.error children production parseState).errorCost :=
  append_errorCost_of_error rfl _ _

theorem ofChildren_errorCost_eq_zero (regular : symbol ≠ Symbol.error) :
    (ofChildren lang symbol children production parseState).errorCost = 0 ↔
      ∀ t ∈ children, t.info.errorCost = 0 := by
  rw [ofChildren, append_errorCost_eq_zero]
  · exact and_iff_right rfl
  · simpa [isError, blank] using regular

end Summary

end Reparse
