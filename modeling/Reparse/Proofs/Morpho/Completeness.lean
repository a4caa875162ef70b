import Reparse.Proofs.Morpho.Grammar

/-!
Every text of the grammar is accepted by the table.

The table is run on states and symbols alone (`Accepts`). The grammar does not say how operators
associate, but a yield of an expression is a chain of operands whatever its derivation
(`chain_of_yields`), and so the argument is by the length of what is yielded: chains are reduced
as the two operators on hand demand (`accepts_chain`), everything else as it is written down.
-/

namespace Reparse.Morpho

variable {q p done target : StateId} {a b : Symbol} {u v w : List Symbol} {rest : List StateId}
  {r : Reduction}

/-! ### Running the table -/

/-- From the states on a stack the table accepts the symbols that come, the end the last. -/
inductive Accepts : List StateId → List Symbol → Prop
  | accept {q : StateId} {rest : List StateId} (action : cell q Symbol.stop = some .accept) :
      Accepts (q :: rest) [Symbol.stop]
  | shift {q target : StateId} {rest : List StateId} {a : Symbol} {w : List Symbol}
      (action : cell q a = some (.shift target)) (after : Accepts (target :: q :: rest) w) :
      Accepts (q :: rest) (a :: w)
  | reduce {q p target : StateId} {rest deeper : List StateId} {a : Symbol} {w : List Symbol}
      {r : Reduction} (action : cell q a = some (.reduce r))
      (left : (q :: rest).drop r.count = p :: deeper)
      (goto : cell p r.symbol = some (.shift target))
      (after : Accepts (target :: p :: deeper) (a :: w)) : Accepts (q :: rest) (a :: w)

/-- What is shifted is accepted by the states after it. -/
theorem Accepts.shifted (accepts : Accepts (q :: rest) (a :: w))
    (action : cell q a = some (.shift target)) : Accepts (target :: q :: rest) w := by
  generalize is : a :: w = symbols at accepts
  cases accepts with
  | accept accepted =>
    cases is
    rw [accepted] at action
    cases action
  | shift action' after =>
    cases is
    rw [action'] at action
    cases action
    exact after
  | reduce action' =>
    cases is
    rw [action'] at action
    cases action

/-- What is reduced is accepted by the states after the reduction. -/
theorem Accepts.reduced (accepts : Accepts (q :: rest) (a :: w))
    (action : cell q a = some (.reduce r)) : ∃ p target deeper,
      (q :: rest).drop r.count = p :: deeper ∧ cell p r.symbol = some (.shift target)
        ∧ Accepts (target :: p :: deeper) (a :: w) := by
  generalize is : a :: w = symbols at accepts
  cases accepts with
  | accept accepted =>
    cases is
    rw [accepted] at action
    cases action
  | shift action' =>
    cases is
    rw [action'] at action
    cases action
  | reduce action' left goto after =>
    cases is
    rw [action'] at action
    cases action
    exact ⟨_, _, _, left, goto, after⟩

/-- The next symbol is one of these. -/
def Begins (symbols w : List Symbol) : Prop := ∃ a ∈ symbols, ∃ rest, w = a :: rest

/-- A state's reduction before some symbols. -/
theorem Accepts.reduceOn {symbols : List Symbol} (begins : Begins symbols w)
    (action : ∀ a ∈ symbols, cell q a = some (.reduce r)) {deeper : List StateId}
    (left : (q :: rest).drop r.count = p :: deeper) (goto : cell p r.symbol = some (.shift target))
    (after : Accepts (target :: p :: deeper) w) : Accepts (q :: rest) w := by
  obtain ⟨a, member, rest, rfl⟩ := begins
  exact .reduce (action a member) left goto after

theorem Begins.mono {symbols more : List Symbol} (begins : Begins symbols w)
    (sub : ∀ a ∈ symbols, a ∈ more) : Begins more w := by
  obtain ⟨a, member, rest, rfl⟩ := begins
  exact ⟨a, sub a member, rest, rfl⟩

/-! ### Chains of operands -/

/-- What binds tighter than every operator. -/
def Operand (u : List Symbol) : Prop :=
  u = [identifier] ∨ u = [integer]
    ∨ ∃ v, u = openParen :: (v ++ [closeParen]) ∧ Yields (.rule expression) v

/-- Operators with the operands after them. -/
def joined (links : List (Symbol × List Symbol)) : List Symbol :=
  links.flatMap fun (operator, operand) => operator :: operand

def Links (links : List (Symbol × List Symbol)) : Prop :=
  ∀ link ∈ links, (link.1 = plus ∨ link.1 = star) ∧ Operand link.2

/-- Operands joined by operators. -/
def Chain (u : List Symbol) : Prop :=
  ∃ first links, u = first ++ joined links ∧ Operand first ∧ Links links

theorem Chain.join (left : Chain u) (operator : a = plus ∨ a = star) (right : Chain v) :
    Chain (u ++ a :: v) := by
  obtain ⟨first, links, rfl, firstIs, linksAre⟩ := left
  obtain ⟨next, more, rfl, nextIs, moreAre⟩ := right
  refine ⟨first, links ++ (a, next) :: more, by simp [joined], firstIs, fun link member => ?_⟩
  rcases List.mem_append.mp member with member | member
  · exact linksAre link member
  · rcases List.mem_cons.mp member with rfl | member
    · exact ⟨operator, nextIs⟩
    · exact moreAre link member

/-- Where an expression may begin, with the state after it. -/
def expects : List (StateId × StateId) :=
  [(1, 9), (3, 9), (12, 9), (27, 9), (11, 25), (17, 29), (34, 40)]

/-- The same with the right operands of operators. -/
def opens : List (StateId × StateId) := expects ++ [(20, 30), (21, 31)]

/-- Where a statement may begin, with the state after it. -/
def states : List (StateId × StateId) := [(1, 4), (3, 18), (12, 28), (27, 37)]

theorem Begins.append {symbols : List Symbol} (begins : Begins symbols u) (w : List Symbol) :
    Begins symbols (u ++ w) := by
  obtain ⟨a, member, rest, rfl⟩ := begins
  exact ⟨a, member, rest ++ w, rfl⟩

end Reparse.Morpho
