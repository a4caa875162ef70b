import Reparse.Proofs.Lex.Token

/-!
What a token of the byte automaton depends on.

Two texts agree from two places on if the same bytes follow, and the end if it comes so soon
(`Agree`). Where texts agree as far as a token reaches, the same token is read in both
(`Language.tableToken_agree`).
-/

namespace Reparse

/-- The next `count` bytes of two texts are the same. -/
def Agree (input input' : Array UInt8) (place place' count : Nat) : Prop :=
  ∀ i < count, input'[place' + i]? = input[place + i]?

variable {input input' : Array UInt8} {place place' count : Nat}

theorem Agree.symm (agree : Agree input input' place place' count) :
    Agree input' input place' place count :=
  fun i lt => (agree i lt).symm

theorem Agree.refl (input : Array UInt8) (place count : Nat) :
    Agree input input place place count :=
  fun _ _ => rfl

theorem Agree.trans {input'' : Array UInt8} {place'' : Nat}
    (agree : Agree input input' place place' count)
    (agree' : Agree input' input'' place' place'' count) :
    Agree input input'' place place'' count :=
  fun i lt => (agree' i lt).trans (agree i lt)

theorem Agree.mono (agree : Agree input input' place place' count) {less : Nat} (le : less ≤ count) :
    Agree input input' place place' less :=
  fun i lt => agree i (Nat.lt_of_lt_of_le lt le)

/-- Part of what is the same is the same. -/
theorem Agree.within (agree : Agree input input' place place' count) {offset less : Nat}
    (le : offset + less ≤ count) : Agree input input' (place + offset) (place' + offset) less := by
  intro i lt
  rw [Nat.add_assoc, Nat.add_assoc]
  exact agree (offset + i) (by omega)

theorem Agree.extract (agree : Agree input input' place place' count) {size : Nat}
    (le : size ≤ count) : input'.extract place' (place' + size)
      = input.extract place (place + size) := by
  refine Array.ext_getElem? fun i => ?_
  by_cases lt : i < size
  · have same := agree i (by omega)
    rw [Array.getElem?_extract, Array.getElem?_extract]
    by_cases inside : place + i < input.size
    · rw [Array.getElem?_eq_getElem inside] at same
      have inside' := (Array.getElem?_eq_some_iff.mp same).1
      rw [if_pos (by omega), if_pos (by omega), same, Array.getElem?_eq_getElem inside]
    · rw [Array.getElem?_eq_none (Nat.not_lt.mp inside)] at same
      have beyond := Array.getElem?_eq_none_iff.mp same
      rw [if_neg (by omega), if_neg (by omega)]
  · rw [Array.getElem?_eq_none, Array.getElem?_eq_none]
    · rw [Array.size_extract]
      omega
    · rw [Array.size_extract]
      omega

namespace Language

variable {lang : Language} {w w' : Walk} {state : LexStateId}

/-- One walk is where the other is, counted from `place'` instead of `place`. -/
structure Walk.Shifts (place place' : Nat) (w w' : Walk) : Prop where
  position : ∃ i, w.position = place + i ∧ w'.position = place' + i
  accepted : ∃ found : Option (Symbol × Nat),
    w.accepted = found.map (fun (symbol, i) => (symbol, place + i))
      ∧ w'.accepted = found.map (fun (symbol, i) => (symbol, place' + i))

theorem walk_position_le (lang : Language) (input : Array UInt8) (remaining : Nat)
    (state : LexStateId) (w : Walk) : w.position ≤ (lang.walk input remaining state w).position := by
  induction remaining generalizing state w with
  | zero => exact Nat.le_refl _
  | succ remaining ih =>
    rw [walk]
    split
    · split
      · exact Nat.le_refl _
      · refine Nat.le_trans (Nat.le_succ w.position) ?_
        exact ih _ ⟨w.position + 1, _⟩
    · exact Nat.le_refl _

/-- Walks over texts that agree go the same way. -/
theorem walk_agree {remaining remaining' : Nat} (shifts : Walk.Shifts place place' w w')
    (left : remaining = input.size - w.position) (left' : remaining' = input'.size - w'.position)
    (agree : Agree input input' place place' count)
    (within : (lang.walk input remaining state w).position < place + count) :
    Walk.Shifts place place' (lang.walk input remaining state w)
      (lang.walk input' remaining' state w') := by
  induction remaining generalizing state w w' remaining' with
  | zero =>
    obtain ⟨i, position, position'⟩ := shifts.position
    rw [walk] at within
    have same := agree i (by omega)
    have beyond : input.size ≤ w.position := by omega
    rw [← position, ← position', Array.getElem?_eq_none beyond] at same
    have beyond' := Array.getElem?_eq_none_iff.mp same
    obtain rfl : remaining' = 0 := by omega
    exact shifts
  | succ remaining ih =>
    obtain ⟨i, position, position'⟩ := shifts.position
    have before := lang.walk_position_le input (remaining + 1) state w
    have same := agree i (by omega)
    have inside : w.position < input.size := by omega
    rw [← position, ← position', Array.getElem?_eq_getElem inside] at same
    have inside' := (Array.getElem?_eq_some_iff.mp same).1
    obtain ⟨remaining', rfl⟩ : ∃ n, remaining' = n + 1 := ⟨remaining' - 1, by omega⟩
    rw [walk] at within ⊢
    rw [walk, same]
    rw [Array.getElem?_eq_getElem inside] at within ⊢
    cases found : lang.lexState? state with
    | none => exact shifts
    | some here =>
      rw [found] at within
      dsimp only at within ⊢
      cases goes : here.next? input[w.position] with
      | none => exact shifts
      | some target =>
        rw [goes] at within
        dsimp only at within ⊢
        refine ih ⟨⟨i + 1, by dsimp only; omega, by dsimp only; omega⟩, ?_⟩ (by dsimp only; omega)
          (by dsimp only; omega) within
        cases (lang.lexState? target).bind (·.accepted?) with
        | none => exact shifts.accepted
        | some symbol =>
          refine ⟨some (symbol, i + 1), ?_, ?_⟩
          · rw [Option.map_some, position, Nat.add_assoc]
          · rw [Option.map_some, position', Nat.add_assoc]

/-- What the automaton reads depends on the bytes up to its reach alone. -/
theorem tableToken_agree (agree : Agree input input' place place' count)
    (within : (lang.tableToken input state place).1.reach ≤ place + count) :
    ∃ symbol size reach,
      (lang.tableToken input state place).1 = ⟨symbol, place, place + size, place + reach⟩
        ∧ (lang.tableToken input' state place').1
          = ⟨symbol, place', place' + size, place' + reach⟩ := by
  have walked : (lang.walk input (input.size - place) state ⟨place, none⟩).position
      < place + count := by
    unfold tableToken at within
    dsimp only at within
    split at within <;> dsimp only at within <;> omega
  have shifts := @walk_agree input input' place place' count lang ⟨place, none⟩ ⟨place', none⟩
    state _ _ ⟨⟨0, rfl, rfl⟩, none, rfl, rfl⟩ rfl rfl agree walked
  unfold tableToken
  dsimp only
  obtain ⟨⟨i, position, position'⟩, found, accepted, accepted'⟩ := shifts
  rw [accepted, accepted', position, position']
  cases found with
  | some found =>
    obtain ⟨symbol, size⟩ := found
    exact ⟨symbol, size, i + 1, rfl, rfl⟩
  | none =>
    refine ⟨Symbol.error, 1, max (i + 1) 2, ?_, ?_⟩
    · simp only [Option.map_none, Token.mk.injEq, true_and]
      omega
    · simp only [Option.map_none, Token.mk.injEq, true_and]
      omega

end Language

end Reparse
