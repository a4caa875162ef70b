import Reparse.Proofs.Syntax.Summary

/-!
Growing a node comes to the same as building it at once.

The summary of a node that gets further children is folded on from what it was
(`Summary.append_append`), so it does not matter in how many parts the children come. An error node
takes its own price off and puts a higher one on each time; these telescope, also where a cost has
come to the ceiling in between (`Cost.reprice`).
-/

namespace Reparse

open Subtree (total)

namespace Cost

variable {b own : Nat}

theorem sum_eq (a b : Nat) : sum a b = min (a + b) ceiling := rfl

/-- Further costs take nothing off, save that sums stay at the ceiling. -/
theorem le_foldl_sum (costs : List Nat) (a : Nat) : min a ceiling ≤ costs.foldl sum a := by
  induction costs generalizing a with
  | nil => exact Nat.min_le_left _ _
  | cons b costs ih =>
    refine Nat.le_trans ?_ (ih (sum a b))
    rw [sum_eq]
    omega

/-- A price that is put on, and taken off again before a higher one is put on, makes no difference.
-/
theorem reprice (costs : List Nat) (a : Nat) (le : own ≤ b) :
    sum (costs.foldl sum (sum a own - own)) b = sum (costs.foldl sum a) b := by
  rw [sum_eq a]
  by_cases below : a + own ≤ ceiling
  · rw [Nat.min_eq_left below, Nat.add_sub_cancel]
  · -- What the ceiling cut off is less than the price, so that both sides come to the ceiling.
    have direct := le_foldl_sum costs a
    have repriced := le_foldl_sum costs (min (a + own) ceiling - own)
    rw [sum_eq, sum_eq]
    omega

/-- Skipping more costs no less. -/
theorem skipped_mono (trees more : Nat) (size extra : Extent) :
    skipped trees size ≤ skipped (trees + more) (size + extra) := by
  have rows : size.point.row ≤ (size + extra).point.row := by
    rw [Extent.add_def, Point.add_def]
    dsimp only
    split
    · exact Nat.le_add_right ..
    · exact Nat.le_refl _
  have lines := Nat.mul_le_mul_left perSkippedLine rows
  have bytes := Nat.mul_le_mul_left perSkippedByte (Nat.le_add_right size.bytes extra.bytes)
  have trees := Nat.mul_le_mul_left perSkippedTree (Nat.le_add_right trees more)
  unfold skipped
  rw [Extent.add_bytes]
  omega

end Cost

namespace Summary

variable {s s' : Summary}

/-! ### Parts of a summary -/

/-- What is summed up child by child: all but the mode of the first token, and the cost, of which an
error node has a share of its own. -/
def tallied (s : Summary) : Summary := { s with lexMode := {}, errorCost := 0 }

theorem eq_of_tallied (tallied : s.tallied = s'.tallied) (lexMode : s.lexMode = s'.lexMode)
    (errorCost : s.errorCost = s'.errorCost) : s = s' := by
  cases s
  cases s'
  simp only [Summary.tallied, mk.injEq] at tallied
  simp_all

theorem foldl_add_tallied (ts : List Subtree) (s : Summary) :
    (ts.foldl add s).tallied = (ts.foldl add s.tallied).tallied := by
  induction ts generalizing s with
  | nil => rfl
  | cons t ts ih =>
    rw [List.foldl_cons, List.foldl_cons, ih, ih (s.tallied.add t)]
    rfl

theorem append_tallied (s : Summary) (had more : List Subtree) :
    (s.append had more).tallied = (more.foldl add s).tallied := by
  rw [append_eq, foldl_add_tallied _ s]
  exact foldl_add_tallied more (s.opened had more)

/-- The mode of a node's first token is that of its first child. -/
theorem append_lexMode (s : Summary) (had more : List Subtree) :
    (s.append had more).lexMode =
      match had, more with
      | [], first :: _ => first.info.lexMode
      | _, _ => s.lexMode := by
  rw [append_eq]
  exact foldl_add_unchanged (·.lexMode) (fun _ _ => rfl) more (s.opened had more)

theorem foldl_add_errorCost (ts : List Subtree) (s : Summary) :
    (ts.foldl add s).errorCost = (ts.map (·.info.errorCost)).foldl Cost.sum s.errorCost := by
  induction ts generalizing s with
  | nil => rfl
  | cons t ts ih => exact ih (s.add t)

theorem append_errorCost (s : Summary) (had more : List Subtree) :
    (s.append had more).errorCost =
      if s.isError then
        Cost.sum ((more.map (·.info.errorCost)).foldl Cost.sum
            (s.errorCost - Cost.skipped had.length s.size))
          (Cost.skipped (had.length + more.length) (s.size + total more))
      else (more.map (·.info.errorCost)).foldl Cost.sum s.errorCost := by
  rw [append_eq]
  dsimp only
  rw [foldl_add_errorCost, foldl_add_size]
  cases error : s.isError <;> simp [opened, error]

/-! ### Growing further -/

/-- Children that come in two parts are summed up like all of them at once. -/
theorem append_append (s : Summary) (had a b : List Subtree) :
    (s.append had a).append (had ++ a) b = s.append had (a ++ b) := by
  have error : (s.append had a).isError = s.isError :=
    append_unchanged (·.isError) (fun _ _ => rfl) (fun _ _ _ => rfl) s had a
  refine eq_of_tallied ?_ ?_ ?_
  · rw [append_tallied, foldl_add_tallied, append_tallied, append_tallied, ← foldl_add_tallied,
      List.foldl_append]
  · rw [append_lexMode, append_lexMode, append_lexMode]
    cases had <;> cases a <;> rfl
  · rw [append_errorCost, error, append_errorCost, append_errorCost, append_size, List.map_append,
      List.foldl_append, List.foldl_append, Subtree.total_append, ← add_assoc, List.length_append,
      List.length_append, ← Nat.add_assoc]
    cases s.isError with
    | false => rfl
    | true => exact Cost.reprice _ _ (Cost.skipped_mono ..)

/-- The state that a node is pushed in has no part in its summary, nor whether it is an extra. -/
theorem append_placed (s : Summary) (had more : List Subtree) (parseState : StateId)
    (extra : Bool) :
    { s with parseState, extra }.append had more
      = { s.append had more with parseState, extra } := by
  have along (ts : List Subtree) (s : Summary) :
      ts.foldl add { s with parseState, extra } = { ts.foldl add s with parseState, extra } := by
    induction ts generalizing s with
    | nil => rfl
    | cons t ts ih => exact ih (s.add t)
  have opens : opened { s with parseState, extra } had more
      = { s.opened had more with parseState, extra } := rfl
  rw [append_eq, append_eq, opens, along]
  rfl

theorem ofChildren_eq_placed (lang : Language) (symbol : Symbol) (ts : List Subtree)
    (production : ProductionId) (parseState : StateId) :
    ofChildren lang symbol ts production parseState
      = { ofChildren lang symbol ts production 0 with parseState, extra := false } :=
  append_placed { blank lang symbol 0 with production, extra := false } [] ts parseState false

end Summary

namespace Subtree

theorem errorNode_info (stamp : Stamp) (lang : Language) (ts : List Subtree)
    (parseState : StateId) :
    (errorNode stamp lang ts parseState).info
      = { Summary.ofChildren lang Symbol.error ts 0 0 with parseState, extra := true } :=
  congrArg (fun s : Summary => { s with extra := true }) (Summary.ofChildren_eq_placed ..)

/-- A node that gets further children is the node that is made of all of them. -/
theorem append_node (stamp stamp' : Stamp) (lang : Language) (symbol : Symbol)
    (xs ys : List Subtree) (production : ProductionId) (parseState : StateId) :
    (node stamp lang symbol xs production parseState).append stamp' ys
      = node stamp' lang symbol (xs ++ ys) production parseState :=
  congrArg (Subtree.mk stamp' · (xs ++ ys)) (Summary.append_append _ [] xs ys)

/-- So is an error node. -/
theorem append_errorNode (stamp stamp' : Stamp) (lang : Language) (xs ys : List Subtree)
    (parseState : StateId) :
    (errorNode stamp lang xs parseState).append stamp' ys
      = errorNode stamp' lang (xs ++ ys) parseState := by
  have info : (errorNode stamp lang xs parseState).info.append xs ys
      = (errorNode stamp' lang (xs ++ ys) parseState).info := by
    rw [errorNode_info, errorNode_info, Summary.append_placed]
    exact congrArg (fun s : Summary => { s with parseState, extra := true })
      (Summary.append_append _ [] xs ys)
  exact congrArg (Subtree.mk stamp' · (xs ++ ys)) info

/-- Growing twice is growing once. -/
theorem append_append (stamp stamp' : Stamp) (t : Subtree) (xs ys : List Subtree) :
    (t.append stamp xs).append stamp' ys = t.append stamp' (xs ++ ys) := by
  have info : (t.append stamp xs).info.append (t.children ++ xs) ys
      = t.info.append t.children (xs ++ ys) := Summary.append_append _ _ _ _
  unfold append at info ⊢
  rw [info, List.append_assoc]

end Subtree

end Reparse
