import Mathlib.Data.List.Basic
import Reparse.Morpho.Table
import Reparse.Proofs.Grammar.Soundness

/-!
What the parse table of Morpho says.

The table is read row by row (`action?_eq`), and what holds of all its cells is checked cell by
cell. The rules of the grammar are those that the reductions stand for, with lists and
repetitions spelled out (`rules`).

A parse stack without extras is a path through the table (`Path`). Seen from its top there are
only few ways back as far as any reduction reaches (`ways`), so that a check of them all says of
every path what a reduction finds on it: the right-hand side of a rule over a state with a goto
(`Path.reduce`). The same check bounds how many reductions there are in a row, by the two states
on top (`rank`).
-/

namespace Reparse.Morpho

/-! ### Checks -/

/-- A check of what is in a list looks at the list, even where there are only finitely many states
and symbols to go through. -/
instance (priority := 2000) decidableEach {α : Type} {p : α → Prop} [DecidablePred p]
    (l : List α) : Decidable (∀ a ∈ l, p a) :=
  List.decidableBAll p l

instance (priority := 2000) decidableEachSome {α : Type} {p : α → Prop} [DecidablePred p]
    (o : Option α) : Decidable (∀ a ∈ o, p a) :=
  Option.decidableForallMem o

/-! ### Rows and cells -/

/-- Lists of one length joined together keep their elements at regular places. -/
theorem getElem?_flatMap {α β : Type} {f : α → List β} {n : Nat} (l : List α)
    (length : ∀ a ∈ l, (f a).length = n) {x : Nat} (inside : x < n) (i : Nat) :
    (l.flatMap f)[i * n + x]? = l[i]?.bind fun a => (f a)[x]? := by
  induction l generalizing i with
  | nil => simp
  | cons a l ih =>
    have first := length a List.mem_cons_self
    rw [List.flatMap_cons]
    cases i with
    | zero =>
      rw [Nat.zero_mul, Nat.zero_add, List.getElem?_append_left (by omega)]
      simp
    | succ i =>
      have later : (i + 1) * n + x - n = i * n + x := by
        rw [Nat.succ_mul]
        omega
      rw [List.getElem?_append_right (by rw [first, Nat.succ_mul]; omega), first, later,
        ih fun b member => length b (List.mem_cons_of_mem _ member)]
      simp

/-- The action of a state and a symbol, as its row has it. -/
def cell (q : StateId) (symbol : Symbol) : Option Action :=
  (rows[q.toNat]?.getD []).lookup symbol

variable {q target : StateId} {symbol : Symbol} {action : Action} {r : Reduction}

theorem action?_eq (handle : Nat) (q : StateId) (symbol : Symbol) :
    (language handle).action? q symbol = cell q symbol := by
  have known : ∀ row ∈ rows, ∀ cell ∈ row, cell.1.toNat < symbols.length := by decide +kernel
  have unknown : ∀ row ∈ rows, symbols.length ≤ symbol.toNat → row.lookup symbol = none := by
    intro row member beyond
    rw [List.lookup_eq_none_iff]
    intro cell inRow
    have := known row member cell inRow
    rw [bne_iff_ne]
    rintro rfl
    omega
  change (if symbol.toNat < symbols.length then
    (rows.flatMap cellsOf).toArray[q.toNat * symbols.length + symbol.toNat]?.join else none) = _
  rw [cell]
  split
  · rename_i inside
    rw [List.getElem?_toArray, getElem?_flatMap rows (by simp [cellsOf]) inside]
    cases rows[q.toNat]? with
    | none => rfl
    | some row => simp [cellsOf, inside]
  · rename_i beyond
    cases found : rows[q.toNat]? with
    | none => rfl
    | some row => exact (unknown row (List.mem_of_getElem? found) (by omega)).symm

/-- All that the table has to say: a state, a symbol and the action there. -/
def cells : List (StateId × Symbol × Action) :=
  rows.zipIdx.flatMap fun (row, q) => row.map fun (symbol, action) => (q.toUInt16, symbol, action)

theorem mem_cells (found : cell q symbol = some action) :
    (q, symbol, action) ∈ cells := by
  rw [cell] at found
  cases has : rows[q.toNat]? with
  | none =>
    rw [has] at found
    cases found
  | some row =>
    rw [has] at found
    have member := List.mk_mem_zipIdx_iff_getElem?.mpr has
    obtain ⟨before, after, is, -⟩ := List.lookup_eq_some_iff.mp found
    have is : row = before ++ (symbol, action) :: after := is
    refine List.mem_flatMap.mpr ⟨_, member, List.mem_map.mpr ⟨(symbol, action), ?_, ?_⟩⟩
    · rw [is]
      simp
    · simp

/-! ### Cell by cell -/

/-- Where there is an action the symbol is no extra. -/
theorem structural_of_cell (found : cell q symbol = some action) :
    ((language 0).traits symbol).extra = false := by
  have each : ∀ cell ∈ cells, ((language 0).traits cell.2.1).extra = false := by decide +kernel
  exact each _ (mem_cells found)

/-- The end of the input is not shifted, and the start state not come back to. The state in which
a parse is accepted comes after the whole file only. -/
theorem shift_spec (found : cell q symbol = some (.shift target)) :
    symbol ≠ Symbol.stop ∧ target ≠ StateId.error ∧ target ≠ StateId.start
      ∧ (target = 2 ↔ symbol = sourceFile) ∧ (symbol = sourceFile → q = StateId.start) := by
  have each : ∀ cell ∈ cells, cell.2.2 = .shift cell.2.2.landing →
      cell.2.1 ≠ Symbol.stop ∧ cell.2.2.landing ≠ StateId.error
        ∧ cell.2.2.landing ≠ StateId.start ∧ (cell.2.2.landing = 2 ↔ cell.2.1 = sourceFile)
        ∧ (cell.2.1 = sourceFile → cell.1 = StateId.start) := by decide +kernel
  exact each _ (mem_cells found) rfl

/-- A parse is accepted at the end of the input, after the whole file. -/
theorem accept_spec (found : cell q symbol = some .accept) :
    q = 2 ∧ symbol = Symbol.stop := by
  have each : ∀ cell ∈ cells, cell.2.2 = .accept → cell.1 = 2 ∧ cell.2.1 = Symbol.stop := by
    decide +kernel
  exact each _ (mem_cells found) rfl

/-! ### Rules -/

/-- What the reductions stand for: a symbol, and the symbols that it is made of. -/
def rules : List (Symbol × List Symbol) := [
  (sourceFile, []),
  (sourceFile, [sourceFileRepeat]),
  (sourceFileRepeat, [statement]),
  (sourceFileRepeat, [sourceFileRepeat, statement]),
  (statement, [expressionStatement]),
  (statement, [declarationStatement]),
  (statement, [printStatement]),
  (statement, [block]),
  (expressionStatement, [expression, semicolon]),
  (declarationStatement, [varWord, declarationList, semicolon]),
  (declarationList, [variableDeclaration]),
  (declarationList, [declarationList, comma, variableDeclaration]),
  (variableDeclaration, [identifier]),
  (variableDeclaration, [identifier, equal, expression]),
  (printStatement, [printWord, expression, semicolon]),
  (block, [openBrace, closeBrace]),
  (block, [openBrace, blockRepeat, closeBrace]),
  (blockRepeat, [statement]),
  (blockRepeat, [blockRepeat, statement]),
  (expression, [identifier]),
  (expression, [integer]),
  (expression, [binaryExpression]),
  (expression, [parenthesizedExpression]),
  (binaryExpression, [expression, plus, expression]),
  (binaryExpression, [expression, star, expression]),
  (parenthesizedExpression, [openParen, expression, closeParen])]

/-- A rule is for a nonterminal, which is no extra, and does not mention the whole file nor the
end of the input. Only the whole file can be nothing. -/
theorem rules_spec : ∀ rule ∈ rules,
    tokenCount ≤ rule.1.toNat ∧ rule.1.toNat < symbols.length
      ∧ ((language 0).traits rule.1).extra = false
      ∧ sourceFile ∉ rule.2 ∧ Symbol.stop ∉ rule.2 ∧ (rule.2 = [] → rule.1 = sourceFile) := by
  decide +kernel

/-! ### Ways back -/

/-- Moves in a row, the last first: the symbol of each and the state beneath it. -/
abbrev Way := List (Symbol × StateId)

/-- The state that the moves to `q` started from. -/
def base (q : StateId) : Way → StateId
  | [] => q
  | (_, p) :: way => base p way

/-- The state beneath the last move. -/
def beneath : Way → StateId
  | [] => StateId.start
  | (_, p) :: _ => p

/-- The moves that may have come last when the state is `q`. -/
def before (q : StateId) : Way :=
  cells.filterMap fun (p, symbol, action) => if action = .shift q then some (symbol, p) else none

/-- The moves that may have been the last `n`. -/
def ways : (n : Nat) → StateId → List Way
  | 0, _ => [[]]
  | n + 1, q => (before q).flatMap fun (symbol, p) => (ways n p).map ((symbol, p) :: ·)

/-- The moves from the start of a parse to `q`. -/
inductive Path : (q : StateId) → Way → Prop
  | start : Path StateId.start []
  | move {p q : StateId} {symbol : Symbol} {way : Way} (path : Path p way)
      (shift : cell p symbol = some (.shift q)) : Path q ((symbol, p) :: way)

theorem mem_before {p : StateId} (shift : cell p symbol = some (.shift q)) :
    (symbol, p) ∈ before q :=
  List.mem_filterMap.mpr ⟨_, mem_cells shift, if_pos rfl⟩

variable {way : Way}

/-- As many moves back as there are, but not more than `n`. -/
theorem Path.split (path : Path q way) (n : Nat) : ∃ last rest, way = last ++ rest
    ∧ last ∈ ways last.length q ∧ Path (base q last) rest ∧ last.length ≤ n
    ∧ (last.length < n → rest = []) := by
  induction n generalizing q way with
  | zero => exact ⟨[], way, rfl, List.mem_singleton.mpr rfl, path, Nat.le_refl _, nofun⟩
  | succ n ih =>
    cases path with
    | start => exact ⟨[], [], rfl, List.mem_singleton.mpr rfl, .start, Nat.zero_le _, fun _ => rfl⟩
    | @move p _ symbol way path shift =>
      obtain ⟨last, rest, rfl, member, onward, le, short⟩ := ih path
      refine ⟨(symbol, p) :: last, rest, rfl, ?_, onward, Nat.succ_le_succ le, fun lt => ?_⟩
      · exact List.mem_flatMap.mpr ⟨_, mem_before shift, List.mem_map.mpr ⟨last, member, rfl⟩⟩
      · exact short (Nat.lt_of_succ_lt_succ lt)

/-- Nothing but the start of a parse is in the start state. -/
theorem Path.of_start (path : Path StateId.start way) : way = [] := by
  cases path with
  | start => rfl
  | move path shift => exact absurd rfl (shift_spec shift).2.2.1

/-! ### Reductions -/

/-- Where there is a goto, the state it leads to. -/
def goto? (q : StateId) (symbol : Symbol) : Option StateId :=
  match cell q symbol with
  | some (.shift target) => some target
  | _ => none

/-- How many reductions in a row may have led to `q` over the state `under`. -/
def rank (q under : StateId) : Nat :=
  if q = 15 then if under = 21 then 1 else if under = 20 then 3 else 5
  else
    ([(16, 1), (31, 2), (30, 4), (9, 6), (25, 6), (29, 6), (40, 6), (23, 7), (39, 7), (22, 8),
      (5, 1), (6, 1), (7, 1), (8, 1), (4, 2), (18, 2), (28, 2), (37, 2), (3, 3), (27, 3),
      (2, 4)].lookup q).getD 0

theorem rank_le (q under : StateId) : rank q under ≤ 8 := by
  have listed : ∀ entry ∈ [((16 : StateId), 1), (31, 2), (30, 4), (9, 6), (25, 6), (29, 6), (40, 6),
      (23, 7), (39, 7), (22, 8), (5, 1), (6, 1), (7, 1), (8, 1), (4, 2), (18, 2), (28, 2), (37, 2),
      (3, 3), (27, 3), (2, 4)], entry.2 ≤ 8 := by decide
  unfold rank
  split
  · split
    · omega
    · split <;> omega
  · generalize found : List.lookup q _ = rank
    cases rank with
    | none => exact Nat.zero_le _
    | some rank =>
      obtain ⟨before, after, is, -⟩ := List.lookup_eq_some_iff.mp found
      exact listed (q, rank) (by rw [is]; simp)

/-- The reductions in the table with their states. -/
def reductions : List (StateId × Reduction) :=
  (cells.filterMap fun (q, _, action) =>
    match action with
    | .reduce r => some (q, r)
    | _ => none).eraseDups

theorem mem_reductions (found : cell q symbol = some (.reduce r)) : (q, r) ∈ reductions :=
  List.mem_eraseDups.mpr (List.mem_filterMap.mpr ⟨_, mem_cells found, rfl⟩)

/-- What a reduction finds on top of any path: what a rule makes of it, over a state that has a
goto. It never comes to the bottom early. -/
theorem reductions_spec : ∀ reduction ∈ reductions,
    (∀ last ∈ ways reduction.2.count reduction.1,
      (reduction.2.symbol, (last.map (·.1)).reverse) ∈ rules
        ∧ ∃ target ∈ goto? (base reduction.1 last) reduction.2.symbol,
          rank reduction.1 (beneath last) + 1 ≤ rank target (base reduction.1 last))
      ∧ ∀ n < reduction.2.count, ∀ last ∈ ways n reduction.1,
        base reduction.1 last ≠ StateId.start := by
  decide +kernel

theorem goto?_spec (found : goto? q symbol = some target) : cell q symbol = some (.shift target) := by
  unfold goto? at found
  split at found
  · cases found
    assumption
  · cases found

/-- A reduction takes the right-hand side of a rule off a path, and there is a goto after it. -/
theorem Path.reduce (path : Path q way) (action : cell q symbol = some (.reduce r)) :
    ∃ last rest target, way = last ++ rest ∧ last.length = r.count
      ∧ (r.symbol, (last.map (·.1)).reverse) ∈ rules ∧ Path (base q last) rest
      ∧ cell (base q last) r.symbol = some (.shift target)
      ∧ rank q (beneath way) + 1 ≤ rank target (base q last) := by
  obtain ⟨exact, early⟩ := reductions_spec _ (mem_reductions action)
  obtain ⟨last, rest, rfl, member, onward, le, short⟩ := path.split r.count
  have count : last.length = r.count := by
    refine Nat.le_antisymm le (Nat.not_lt.mp fun lt => ?_)
    rw [short lt] at onward
    refine early _ lt last member ?_
    generalize base q last = bottom at onward
    cases onward
    rfl
  have member' := member
  rw [count] at member'
  obtain ⟨rule, target, found, more⟩ := exact last member'
  refine ⟨last, rest, target, rfl, count, rule, onward, goto?_spec found, ?_⟩
  cases last with
  | cons move last => exact more
  | nil =>
    have whole := (rules_spec _ rule).2.2.2.2.2 rfl
    obtain rfl : q = StateId.start := (shift_spec (goto?_spec found)).2.2.2.2 whole
    rw [List.nil_append] at path
    rw [path.of_start]
    exact more

end Reparse.Morpho
