import Mathlib
import Reparse.Proofs.Parse.Path

/-!
Simulated reductions.

To find a missing token recovery makes reductions on states only (`Session.simulate`). As long as
extras repeat the state beneath them, the states that it begins with are the uppermost of those
that the entries pass through (`Stack.recentStates_prefix`), and one simulated reduction leaves the
uppermost of those that the reduction itself leaves (`Session.reduceStates_prefix`). So an insertion
makes the reductions of a simulation one by one, and what the simulation knows of the stack stays
true (`Session.inRow_simulated`, `Session.simulation_tracks`). Each simulated run is one that the
stack could make (`Session.simulate_reduces`).

Both runs are limited, and not alike: the simulation counts states, the base state with them, and
the insertion counts entries. A missing token that is chosen is inserted unless it takes exactly as
many reductions as the insertion may make (`Session.missingToken?_inserts`), and that can happen
(`Language.ofNested_not_inserted`).
-/

namespace Reparse

/-! ### States beneath each other -/

namespace Stack

variable {s s' : Stack} {lang : Language} {P : Nat → Subtree → Prop} {above entries rest : List Entry}
  {q : StateId} {t : Subtree}

/-- The states that some entries pass through, extras aside, latest first, down to the base state. -/
def statesOver (s : Stack) : List Entry → List StateId
  | [] => [s.base]
  | e :: rest => if e.tree.extra then s.statesOver rest else e.state :: s.statesOver rest

def states (s : Stack) : List StateId := s.statesOver s.entries

/-- Every extra repeats the state beneath it. -/
def ExtrasRepeat (s : Stack) : Prop :=
  Over (fun e below => e.tree.extra = true → e.state = s.stateOver below) s.entries

theorem Settled.extrasRepeat (settled : s.Settled lang P) : s.ExtrasRepeat :=
  settled.mono fun _ _ entry => entry.extra_state

theorem ExtrasRepeat.of_entries (repeats : s.ExtrasRepeat)
    (split : s.entries = above ++ s'.entries) (base : s'.base = s.base) : s'.ExtrasRepeat := by
  unfold ExtrasRepeat at repeats ⊢
  rw [stateOver_congr base]
  rw [split] at repeats
  exact repeats.beneath

theorem ExtrasRepeat.push (repeats : s.ExtrasRepeat) {epoch : Nat}
    (state : t.extra = true → q = s.topState) : (s.push t q epoch).ExtrasRepeat :=
  ⟨state, repeats⟩

theorem ExtrasRepeat.pushAll (repeats : s.ExtrasRepeat) (state : s.topState = q)
    (ts : List Subtree) (epoch : Nat) : (s.pushAll ts q epoch).ExtrasRepeat := by
  induction ts generalizing s with
  | nil => exact repeats
  | cons t ts ih => exact ih (repeats.push fun _ => state.symm) rfl

/-- Uppermost is the state on top. -/
theorem ExtrasRepeat.states_eq (repeats : s.ExtrasRepeat) :
    ∃ deeper, s.states = s.topState :: deeper := by
  unfold ExtrasRepeat at repeats
  unfold states topState
  generalize s.entries = entries at repeats
  induction entries with
  | nil => exact ⟨[], rfl⟩
  | cons e rest ih =>
    obtain ⟨deeper, below⟩ := ih repeats.2
    rw [statesOver]
    split
    next extra =>
      refine ⟨deeper, below.trans ?_⟩
      rw [← repeats.1 extra]
      rfl
    next => exact ⟨_, rfl⟩

theorem ExtrasRepeat.eq_topState (repeats : s.ExtrasRepeat) {deeper : List StateId}
    (seen : q :: deeper <+: s.states) : q = s.topState := by
  obtain ⟨_, top⟩ := repeats.states_eq
  rw [top] at seen
  exact (List.cons_prefix_cons.mp seen).1

theorem statesOver_congr (base : s'.base = s.base) : s'.statesOver = s.statesOver := by
  funext entries
  induction entries with
  | nil => exact congrArg (fun q => [q]) base
  | cons e rest ih => rw [statesOver, statesOver, ih]

theorem statesOver_extras (extras : ∀ e ∈ above, e.tree.extra = true) :
    s.statesOver (above ++ rest) = s.statesOver rest := by
  induction above with
  | nil => rfl
  | cons e above ih =>
    obtain ⟨first, others⟩ := List.forall_mem_cons.mp extras
    rw [List.cons_append, statesOver, if_pos first, ih others]

/-- To take some subtrees off is to leave their states. -/
theorem statesOver_takeCount {count : Nat} (enough : count < (s.statesOver entries).length) :
    s.statesOver (entries.drop (takeCount count entries).length)
      = (s.statesOver entries).drop count := by
  induction entries generalizing count with
  | nil =>
    obtain rfl : count = 0 := Nat.lt_one_iff.mp enough
    rfl
  | cons e rest ih =>
    cases count with
    | zero => rfl
    | succ count =>
      rw [takeCount, List.length_cons, List.drop_succ_cons]
      rw [statesOver] at enough ⊢
      split
      next extra =>
        rw [if_pos extra] at enough
        exact ih enough
      next regular =>
        rw [if_neg regular] at enough
        exact ih (Nat.lt_of_succ_lt_succ enough)

/-! ### The recent states -/

theorem statesOver_eq : s.statesOver entries
    = ((entries.filter (!·.tree.extra)).map (·.state)) ++ [s.base] := by
  induction entries with
  | nil => rfl
  | cons e rest ih =>
    rw [statesOver, ih]
    by_cases extra : e.tree.extra
    · simp [extra]
    · simp [extra]

theorem recentStates_prefix (s : Stack) : s.recentStates <+: s.states := by
  rw [states, statesOver_eq, recentStates]
  split
  next short =>
    rw [List.take_of_length_le (s.length_eq ▸ short)]
  next =>
    exact ((((List.take_prefix lookback s.entries).filter _).map _).trans (List.prefix_append _ _))

/-- There are no more recent states than entries, save for the base state beneath few entries, none
of which is an extra. -/
theorem length_recentStates (s : Stack) : s.recentStates.length ≤ s.length
    ∨ s.recentStates.length = s.length + 1 ∧ (∀ e ∈ s.entries, e.tree.extra = false)
      ∧ s.length ≤ lookback := by
  have fewer := List.length_filter_le (fun e : Entry => !e.tree.extra) s.entries
  rw [s.length_eq, recentStates]
  by_cases short : s.length ≤ lookback
  · rw [s.length_eq] at short
    rw [if_pos (s.length_eq ▸ short), List.take_of_length_le short, List.length_append,
      List.length_map, List.length_singleton]
    by_cases all : (s.entries.filter (!·.tree.extra)).length = s.entries.length
    · refine .inr ⟨congrArg (· + 1) all, fun e member => ?_, short⟩
      simpa using List.length_filter_eq_length_iff.mp all e member
    · exact .inl (by omega)
  · have taken := List.length_filter_le (fun e : Entry => !e.tree.extra) (s.entries.take lookback)
    rw [List.length_take, ← s.length_eq] at taken
    rw [if_neg short, List.length_map, ← s.length_eq]
    exact .inl (by omega)

end Stack

/-! ### Reductions on states -/

namespace Session

variable {lang : Language} {s s' : Session} {r : Reduction} {above taken : List Entry}
  {under : Stack} {symbol lookahead : Symbol} {view left : List StateId} {target : StateId} {k : Nat}
  {rs : List Reduction}

theorem Reduces.under_repeats (reduces : s.Reduces r above taken under)
    (repeats : s.stack.ExtrasRepeat) : under.ExtrasRepeat :=
  repeats.of_entries (reduces.split.trans (List.append_assoc ..).symm) reduces.base

/-- A reduction on a stack that has enough subtrees leaves the states beneath those that it takes,
and one more on top of them. -/
theorem Reduces.states (reduces : s.Reduces r above taken under) (repeats : s.stack.ExtrasRepeat)
    (enough : r.count < s.stack.states.length) :
    under.states = s.stack.states.drop r.count
      ∧ (s.reduce r).stack.states = s.lang.next under.topState r.symbol :: under.states
      ∧ (s.reduce r).stack.ExtrasRepeat := by
  have same : s.stack.states = s.stack.statesOver (taken ++ under.entries) := by
    rw [Stack.states, reduces.split, Stack.statesOver_extras reduces.extras]
  refine ⟨?_, ?_, ?_⟩
  · rw [same] at enough ⊢
    have beneath := Stack.statesOver_takeCount enough
    rw [← reduces.taken_eq, List.drop_left] at beneath
    rw [Stack.states, Stack.statesOver_congr reduces.base]
    exact beneath
  · obtain ⟨lifted, entries, -, extras⟩ := reduces.entries
    have base : (s.reduce r).stack.base = under.base := by
      rw [reduces.eq]
      exact Stack.pushAll_base ..
    have node : (s.reducedEntry r taken under).tree.extra = false := reducedNode_extra ..
    rw [Stack.states, entries, Stack.statesOver_extras extras, Stack.statesOver_congr base,
      Stack.statesOver, node, if_neg Bool.false_ne_true]
    rfl
  · rw [reduces.eq]
    exact ((reduces.under_repeats repeats).push fun extra => absurd extra (by simp)).pushAll rfl _ _

/-- A simulated reduction leaves the uppermost of the states that the reduction leaves. -/
theorem reduceStates_prefix (repeats : s.stack.ExtrasRepeat) (seen : view <+: s.stack.states)
    (reduced : reduceStates s.lang r view = some left) :
    left <+: (s.reduce r).stack.states ∧ (s.reduce r).stack.ExtrasRepeat := by
  obtain ⟨above, taken, under, reduces⟩ := s.reduces r
  rw [reduceStates] at reduced
  split at reduced
  next => cases reduced
  next below deeper beneath =>
    dsimp only at reduced
    split at reduced
    next => cases reduced
    next =>
      obtain rfl := Option.some.inj reduced
      -- The simulation never takes the last state that it knows, so there are subtrees enough.
      have enough : r.count < view.length := by
        by_contra short
        rw [List.drop_eq_nil_of_le (Nat.le_of_not_lt short)] at beneath
        cases beneath
      obtain ⟨under_eq, after, repeats'⟩ :=
        reduces.states repeats (Nat.lt_of_lt_of_le enough seen.length_le)
      have inner : below :: deeper <+: under.states := by
        rw [under_eq, ← beneath]
        exact seen.drop r.count
      have state : below = under.topState := (reduces.under_repeats repeats).eq_topState inner
      rw [after, ← state]
      exact ⟨List.cons_prefix_cons.mpr ⟨rfl, inner⟩, repeats'⟩

/-! ### Reductions in a row -/

/-- A number of steps in a row, with what each of them makes; none if one of them is not possible. -/
def inRow {α β : Type} (step : α → Option (β × α)) : (steps : Nat) → α → Option (List β × α)
  | 0, a => some ([], a)
  | steps + 1, a =>
    (step a).bind fun (made, next) =>
      (inRow step steps next).map fun (others, last) => (made :: others, last)

theorem inRow_succ {α β : Type} {step : α → Option (β × α)} {a last : α} {all : List β} :
    inRow step (k + 1) a = some (all, last) ↔ ∃ made next others, step a = some (made, next)
      ∧ inRow step k next = some (others, last) ∧ all = made :: others := by
  rw [inRow]
  constructor
  · intro row
    obtain ⟨⟨made, next⟩, first, row⟩ := Option.bind_eq_some_iff.mp row
    obtain ⟨⟨others, last'⟩, rest, eq⟩ := Option.map_eq_some_iff.mp row
    obtain ⟨rfl, rfl⟩ := Prod.mk.inj eq
    exact ⟨made, next, others, first, rest, rfl⟩
  · rintro ⟨made, next, others, first, rest, rfl⟩
    rw [first, Option.bind_some]
    dsimp only
    rw [rest, Option.map_some]

/-- A step of a simulation that is a reduction. -/
def simulateStep? (lang : Language) (symbol : Symbol) :
    List StateId → Option (Reduction × List StateId)
  | [] => none
  | top :: deeper =>
    match lang.action? top symbol with
    | some (.reduce r) => (reduceStates lang r (top :: deeper)).map (r, ·)
    | _ => none

/-- A step of an insertion that is a reduction. -/
def insertStep? (symbol : Symbol) (s : Session) : Option (Reduction × Session) :=
  match s.lang.action? s.stack.topState symbol with
  | some (.reduce r) => some (r, s.reduce r)
  | _ => none

theorem simulateStep?_eq_some : simulateStep? lang symbol view = some (r, left) ↔
    ∃ top deeper, view = top :: deeper ∧ lang.action? top symbol = some (.reduce r)
      ∧ reduceStates lang r view = some left := by
  constructor
  · intro step
    cases view with
    | nil => cases step
    | cons top deeper =>
      rw [simulateStep?] at step
      split at step
      next action =>
        obtain ⟨_, reduced, eq⟩ := Option.map_eq_some_iff.mp step
        obtain ⟨rfl, rfl⟩ := Prod.mk.inj eq
        exact ⟨top, deeper, rfl, action, reduced⟩
      next => cases step
  · rintro ⟨top, deeper, rfl, action, reduced⟩
    rw [simulateStep?, action]
    dsimp only
    rw [reduced, Option.map_some]

theorem insertStep?_eq_some : s.insertStep? symbol = some (r, s') ↔
    s.lang.action? s.stack.topState symbol = some (.reduce r) ∧ s' = s.reduce r := by
  rw [insertStep?]
  constructor
  · intro step
    split at step
    next action =>
      obtain ⟨rfl, rfl⟩ := Prod.mk.inj (Option.some.inj step)
      exact ⟨action, rfl⟩
    next => cases step
  · rintro ⟨action, rfl⟩
    rw [action]

/-- After reductions in a row a simulation goes on from the states that they leave. -/
theorem simulate_inRow (row : inRow (simulateStep? lang symbol) k view = some (rs, left))
    (steps : Nat) : simulate lang symbol (k + steps) view = simulate lang symbol steps left := by
  induction k generalizing view rs with
  | zero =>
    obtain ⟨-, rfl⟩ := Prod.mk.inj (Option.some.inj row)
    rw [Nat.zero_add]
  | succ k ih =>
    obtain ⟨r, next, others, step, rest, -⟩ := inRow_succ.mp row
    obtain ⟨top, deeper, rfl, action, reduced⟩ := simulateStep?_eq_some.mp step
    rw [Nat.add_right_comm, simulate, action]
    dsimp only
    rw [reduced]
    exact ih rest

/-- A simulation that finds the state after a shift makes reductions in a row first. -/
theorem inRow_of_simulate {steps : Nat} (found : simulate lang symbol steps view = some target) :
    ∃ k rs top deeper, k < steps
      ∧ inRow (simulateStep? lang symbol) k view = some (rs, top :: deeper)
      ∧ lang.action? top symbol = some (.shift target) := by
  induction steps generalizing view with
  | zero => cases found
  | succ steps ih =>
    cases view with
    | nil => cases found
    | cons top deeper =>
      rw [simulate] at found
      split at found
      next shifts =>
        cases found
        exact ⟨0, [], top, deeper, Nat.succ_pos _, rfl, shifts⟩
      next r action =>
        obtain ⟨left, reduced, found⟩ := Option.bind_eq_some_iff.mp found
        obtain ⟨k, rs, last, under, within, row, shifts⟩ := ih found
        have step : simulateStep? lang symbol (top :: deeper) = some (r, left) :=
          simulateStep?_eq_some.mpr ⟨top, deeper, rfl, action, reduced⟩
        exact ⟨k + 1, r :: rs, last, under, Nat.succ_lt_succ within,
          inRow_succ.mpr ⟨r, left, rs, step, row, rfl⟩, shifts⟩
      next => cases found
      next => cases found

/-- A simulated reduction is made on the stack too, and leaves the states of which it knows the
uppermost. -/
theorem simulateStep?_insertStep? (repeats : s.stack.ExtrasRepeat)
    (seen : view <+: s.stack.states) (step : simulateStep? s.lang symbol view = some (r, left)) :
    s.insertStep? symbol = some (r, s.reduce r) ∧ left <+: (s.reduce r).stack.states
      ∧ (s.reduce r).stack.ExtrasRepeat := by
  obtain ⟨top, deeper, rfl, action, reduced⟩ := simulateStep?_eq_some.mp step
  obtain rfl : top = s.stack.topState := repeats.eq_topState seen
  exact ⟨insertStep?_eq_some.mpr ⟨action, rfl⟩, reduceStates_prefix repeats seen reduced⟩

/-- Simulated reductions in a row are made on the stack one by one, and leave the states of which
they know the uppermost. -/
theorem inRow_simulated (repeats : s.stack.ExtrasRepeat) (seen : view <+: s.stack.states)
    (row : inRow (simulateStep? s.lang symbol) k view = some (rs, left)) :
    ∃ s', inRow (insertStep? symbol) k s = some (rs, s') ∧ left <+: s'.stack.states
      ∧ s'.stack.ExtrasRepeat := by
  induction k generalizing s view rs with
  | zero =>
    obtain ⟨rfl, rfl⟩ := Prod.mk.inj (Option.some.inj row)
    exact ⟨s, rfl, seen, repeats⟩
  | succ k ih =>
    obtain ⟨r, next, others, step, rest, rfl⟩ := inRow_succ.mp row
    obtain ⟨made, seen', repeats'⟩ := simulateStep?_insertStep? repeats seen step
    obtain ⟨s', row', after⟩ := @ih (s.reduce r) next others repeats' seen' rest
    exact ⟨s', inRow_succ.mpr ⟨r, s.reduce r, others, made, row', rfl⟩, after⟩

/-- Reductions in a row that a symbol brings about. -/
inductive ReducesTo (symbol : Symbol) (s' : Session) : Nat → Session → Prop
  | here : ReducesTo symbol s' 0 s'
  | reduce {s : Session} {r : Reduction} {k : Nat}
      (action : s.lang.action? s.stack.topState symbol = some (.reduce r))
      (rest : ReducesTo symbol s' k (s.reduce r)) : ReducesTo symbol s' (k + 1) s

theorem ReducesTo.lang_eq (reduces : ReducesTo symbol s' k s) : s'.lang = s.lang := by
  induction reduces with
  | here => rfl
  | reduce _ _ ih => exact ih

theorem reducesTo_of_inRow (row : inRow (insertStep? symbol) k s = some (rs, s')) :
    ReducesTo symbol s' k s := by
  induction k generalizing s rs with
  | zero =>
    obtain ⟨-, rfl⟩ := Prod.mk.inj (Option.some.inj row)
    exact .here
  | succ k ih =>
    obtain ⟨r, next, others, step, rest, -⟩ := inRow_succ.mp row
    obtain ⟨action, rfl⟩ := insertStep?_eq_some.mp step
    exact .reduce action (ih rest)

/-- Whatever a simulation comes to, as many reductions as it makes come to on the stack. -/
theorem simulate_reduces (repeats : s.stack.ExtrasRepeat) (seen : view <+: s.stack.states)
    {steps : Nat} (found : simulate s.lang symbol steps view = some target) :
    ∃ k s', k < steps ∧ ReducesTo symbol s' k s
      ∧ s.lang.action? s'.stack.topState symbol = some (.shift target) := by
  obtain ⟨k, rs, top, deeper, within, row, shifts⟩ := inRow_of_simulate found
  obtain ⟨s', row', seen', repeats'⟩ := inRow_simulated repeats seen row
  refine ⟨k, s', within, reducesTo_of_inRow row', ?_⟩
  rwa [← repeats'.eq_topState seen']

/-! ### Insertions -/

/-- A missing leaf of a symbol on top, which the table shifts to `target`. -/
def pushMissing (s : Session) (symbol : Symbol) (target : StateId) : Session :=
  let top := s.stack.topState
  let leaf := Subtree.missingLeaf s.fresh s.lang symbol top (s.lang.lexMode top)
  { s with fresh := s.fresh + 1 }.push leaf target s.epoch

@[simp] theorem pushMissing_topState (s : Session) (symbol : Symbol) (target : StateId) :
    (s.pushMissing symbol target).stack.topState = target := rfl

/-- `k` reductions that a symbol brings about lead to where it is shifted, and then the parser could
go on with `lookahead`. -/
structure Admits (s : Session) (symbol lookahead : Symbol) (k : Nat) (s' : Session)
    (target : StateId) : Prop where
  reduces : ReducesTo symbol s' k s
  shifts : s.lang.action? s'.stack.topState symbol = some (.shift target)
  fits : (s.lang.action? target lookahead).isSome = true

/-- Reductions are made and a missing leaf of the symbol is pushed, so that the parser can go on
with `lookahead`. -/
def Inserts (s : Session) (symbol lookahead : Symbol) : Prop :=
  ∃ k s' target, s.Admits symbol lookahead k s' target
    ∧ s.insertMissing symbol = s'.pushMissing symbol target

/-- In the state on top after that the table has an action on `lookahead`. -/
theorem Inserts.fits (inserts : s.Inserts symbol lookahead) :
    (s.lang.action? (s.insertMissing symbol).stack.topState lookahead).isSome = true := by
  obtain ⟨k, s', target, admits, inserted⟩ := inserts
  rw [inserted, pushMissing_topState]
  exact admits.fits

theorem insertIn_reducesTo (reduces : ReducesTo symbol s' k s) (steps : Nat) :
    s.insertIn symbol (k + steps) = s'.insertIn symbol steps := by
  induction reduces with
  | here => rw [Nat.zero_add]
  | @reduce s r k action rest ih =>
    rw [Nat.add_right_comm, insertIn, action]
    exact ih

theorem insertIn_shift (shifts : s.lang.action? s.stack.topState symbol = some (.shift target))
    (steps : Nat) : s.insertIn symbol (steps + 1) = s.pushMissing symbol target := by
  rw [insertIn, shifts]
  rfl

/-- In every state that a parse comes through extras repeat the state beneath them. -/
theorem Good.extrasRepeat {P : Nat → Subtree → Prop} (good : s.Good P) (reaches : Reaches s' s) :
    s'.stack.ExtrasRepeat :=
  (good.reaches reaches).1.extrasRepeat

/-- What is chosen to be inserted could be inserted. -/
theorem missingToken?_admits (repeats : s.stack.ExtrasRepeat)
    (chosen : s.missingToken? lookahead = some symbol) :
    ∃ k s' target, s.Admits symbol lookahead k s' target
      ∧ k < s.stack.recentStates.length + s.lang.table.stateCount := by
  have helps := List.find?_some chosen
  rw [Session.helps, Bool.and_eq_true, Option.any_eq_true] at helps
  obtain ⟨-, target, simulated, fits⟩ := helps
  obtain ⟨k, s', within, reduces, shifts⟩ :=
    simulate_reduces repeats s.stack.recentStates_prefix simulated
  exact ⟨k, s', target, ⟨reduces, shifts, fits⟩, within⟩

/-- A missing token that is chosen is inserted, after the reductions that it brings about, and the
parser can go on with `lookahead`. Only if these are exactly as many as the insertion may make,
which takes few entries none of which is an extra, it ends before the token is pushed. -/
theorem missingToken?_inserts (repeats : s.stack.ExtrasRepeat)
    (chosen : s.missingToken? lookahead = some symbol) :
    ∃ k s' target, s.Admits symbol lookahead k s' target
      ∧ (k < s.reductionLimit ∧ s.insertMissing symbol = s'.pushMissing symbol target
        ∨ k = s.reductionLimit ∧ s.insertMissing symbol = s'
          ∧ (∀ e ∈ s.stack.entries, e.tree.extra = false) ∧ s.stack.length ≤ Stack.lookback) := by
  obtain ⟨k, s', target, admits, within⟩ := missingToken?_admits repeats chosen
  refine ⟨k, s', target, admits, ?_⟩
  have shifts : s'.lang.action? s'.stack.topState symbol = some (.shift target) := by
    rw [admits.reduces.lang_eq]
    exact admits.shifts
  rw [insertMissing]
  by_cases enough : k < s.reductionLimit
  · obtain ⟨more, limit⟩ := Nat.exists_eq_add_of_lt enough
    refine .inl ⟨enough, ?_⟩
    rw [limit, Nat.add_assoc, insertIn_reducesTo admits.reduces, insertIn_shift shifts]
  · -- The simulation may have made one step more than the insertion, if it began with the base state.
    rw [reductionLimit] at enough
    rcases s.stack.length_recentStates with fewer | ⟨more, regular, few⟩
    · omega
    · have all : k = s.reductionLimit := by
        rw [reductionLimit]
        omega
      refine .inr ⟨all, ?_, regular, few⟩
      rw [← all]
      exact insertIn_reducesTo admits.reduces 0

end Session

/-! ### Where a chosen token is not inserted -/

/-- Towers of `a`s, an `m` that closes them and a `z`, with any blanks between them. Before an `m` the
`a`s come down one by one, each by two reductions. -/
def Table.ofNested : Table where
  version := 1
  symbols := #[⟨"end", {}⟩, ⟨"a", { visible := true, named := true }⟩,
    ⟨"m", { visible := true, named := true }⟩, ⟨"z", { visible := true, named := true }⟩,
    ⟨"blank", { visible := true, named := true, extra := true }⟩,
    ⟨"tower", { visible := true, named := true }⟩, ⟨"rest", { visible := true, named := true }⟩,
    ⟨"file", { visible := true, named := true }⟩]
  tokenCount := 5
  lexStates := #[⟨[], [⟨97, 97, 1⟩, ⟨109, 109, 2⟩, ⟨122, 122, 3⟩, ⟨32, 32, 4⟩]⟩, ⟨[⟨1, 0⟩], []⟩,
    ⟨[⟨2, 0⟩], []⟩, ⟨[⟨3, 0⟩], []⟩, ⟨[⟨4, 0⟩], []⟩]
  modes := #[{}, {}, {}, {}, {}, {}, {}, {}, {}]
  cells := #[
    none, none, none, none, none, none, none, none,
    none, some (.shift 2), none, none, none, some (.shift 5), none, some (.shift 8),
    none, some (.shift 2), some (.reduce ⟨6, 0, 0, 0⟩), none, none, some (.shift 4),
      some (.shift 3), none,
    none, none, some (.reduce ⟨5, 2, 0, 0⟩), none, none, none, none, none,
    none, none, some (.reduce ⟨6, 1, 0, 0⟩), none, none, none, none, none,
    none, none, some (.shift 6), none, none, none, none, none,
    none, none, none, some (.shift 7), none, none, none, none,
    some (.reduce ⟨7, 3, 0, 0⟩), none, none, none, none, none, none, none,
    some .accept, none, none, none, none, none, none, none]

namespace Language

def ofNested : Language := { handle := 0, table := .ofNested }

theorem load_ofNested : load 0 Table.ofNested.encode none = .ok ofNested :=
  load_of_decode (by decide +kernel) none

theorem ofNested_extrasRepeat {input : Array UInt8} {s : Session}
    (reaches : Session.Reaches s (Session.start ofNested {} input none 0)) :
    s.stack.ExtrasRepeat :=
  (@start_good ofNested {} input none 0 (sound_of_load load_ofNested) nofun).extrasRepeat reaches

/-- An `m` is inserted between an `a` with a blank after it and a `z`: the blank is an extra, so the
limits do not matter. -/
theorem ofNested_inserted : ∃ s, Session.Reaches s (Session.start ofNested {} #[97, 32, 122] none 0)
    ∧ s.missingToken? 3 = some 2 ∧ s.Inserts 2 3 := by
  have runs : ((Session.start ofNested {} #[97, 32, 122] none 0).after 2).map (fun s =>
      (s.missingToken? 3, s.stack.entries.map (·.tree.extra)))
      = some (some 2, [true, false]) := by cbv
  obtain ⟨s, rounds, facts⟩ := Option.map_eq_some_iff.mp runs
  obtain ⟨chosen, extras⟩ := Prod.mk.inj facts
  have reaches := Session.reaches_of_after rounds
  refine ⟨s, reaches, chosen, ?_⟩
  obtain ⟨k, s', target, admits, ⟨-, inserted⟩ | ⟨-, -, regular, -⟩⟩ :=
    Session.missingToken?_inserts (ofNested_extrasRepeat reaches) chosen
  · exact ⟨k, s', target, admits, inserted⟩
  · have none : true ∉ s.stack.entries.map (·.tree.extra) := by
      simpa using regular
    rw [extras] at none
    exact absurd List.mem_cons_self none

/-- Nine `a`s take eighteen reductions to come down, as many as an insertion may make on nine
entries. The `m` that is to be inserted before the `z` is not pushed. -/
theorem ofNested_not_inserted : load 0 Table.ofNested.encode none = .ok ofNested
    ∧ ∃ s, Session.Reaches s
        (Session.start ofNested {} #[97, 97, 97, 97, 97, 97, 97, 97, 97, 122] none 0)
      ∧ s.stack.ExtrasRepeat ∧ s.missingToken? 3 = some 2 ∧ ¬ s.Inserts 2 3 := by
  refine ⟨load_ofNested, ?_⟩
  have runs : ((Session.start ofNested {} #[97, 97, 97, 97, 97, 97, 97, 97, 97, 122] none 0).after
      9).map (fun s => (s.missingToken? 3, (s.insertMissing 2).stack.entries.map
        (·.tree.info.missing))) = some (some 2, [false]) := by cbv
  obtain ⟨s, rounds, facts⟩ := Option.map_eq_some_iff.mp runs
  obtain ⟨chosen, present⟩ := Prod.mk.inj facts
  have reaches := Session.reaches_of_after rounds
  refine ⟨s, reaches, ofNested_extrasRepeat reaches, chosen, ?_⟩
  rintro ⟨k, s', target, -, inserted⟩
  rw [inserted] at present
  cases present

end Language

/-! ### Simulations and insertions side by side -/

/-- Simulated reductions track those of an insertion step by step. Where extras repeat the state
beneath them and the first `k` steps of a simulation on the recent states are reductions, the first
`k` steps of the insertion are the same reductions. Both go on from there, and the states that the
simulation knows then, those that it kept beneath those that it pushed, are the uppermost, as many
as they are, of the base state and those of the entries that are no extras. -/
theorem Session.simulation_tracks {s : Session} (repeats : s.stack.ExtrasRepeat) {symbol : Symbol}
    {k : Nat} (within : k ≤ s.reductionLimit) {rs : List Reduction} {view : List StateId}
    (simulated : inRow (simulateStep? s.lang symbol) k s.stack.recentStates = some (rs, view)) :
    ∃ s', inRow (insertStep? symbol) k s = some (rs, s')
      ∧ s.insertMissing symbol = s'.insertIn symbol (s.reductionLimit - k)
      ∧ (∀ steps, simulate s.lang symbol (k + steps) s.stack.recentStates
          = simulate s.lang symbol steps view)
      ∧ view = (((s'.stack.entries.filter (!·.tree.extra)).map (·.state))
          ++ [s'.stack.base]).take view.length := by
  obtain ⟨s', inserted, seen, -⟩ := inRow_simulated repeats s.stack.recentStates_prefix simulated
  refine ⟨s', inserted, ?_, simulate_inRow simulated, ?_⟩
  · rw [insertMissing, ← insertIn_reducesTo (reducesTo_of_inRow inserted), Nat.add_sub_cancel' within]
  · rw [← Stack.statesOver_eq]
    exact List.prefix_iff_eq_take.mp seen

/-- After two `a`s, each with a blank after it, an `m` brings about four reductions: of nothing, of
two subtrees beneath a blank, of one, and of two subtrees with a blank between them. -/
theorem Language.ofNested_simulation_tracks : ∃ s,
    Session.Reaches s (Session.start ofNested {} #[97, 32, 97, 32, 122] none 0)
      ∧ s.stack.entries.map (·.tree.extra) = [true, false, true, false]
      ∧ s.stack.ExtrasRepeat ∧ 4 ≤ s.reductionLimit
      ∧ Session.inRow (Session.simulateStep? s.lang 2) 4 s.stack.recentStates
        = some ([⟨6, 0, 0, 0⟩, ⟨5, 2, 0, 0⟩, ⟨6, 1, 0, 0⟩, ⟨5, 2, 0, 0⟩], [5, 1])
      ∧ ∃ s', Session.inRow (Session.insertStep? 2) 4 s
          = some ([⟨6, 0, 0, 0⟩, ⟨5, 2, 0, 0⟩, ⟨6, 1, 0, 0⟩, ⟨5, 2, 0, 0⟩], s')
        ∧ s.insertMissing 2 = s'.insertIn 2 (s.reductionLimit - 4)
        ∧ (∀ steps, Session.simulate s.lang 2 (4 + steps) s.stack.recentStates
            = Session.simulate s.lang 2 steps [5, 1])
        ∧ [5, 1] = (((s'.stack.entries.filter (!·.tree.extra)).map (·.state))
            ++ [s'.stack.base]).take 2 := by
  have runs : ((Session.start ofNested {} #[97, 32, 97, 32, 122] none 0).after 4).map (fun s =>
      (Session.inRow (Session.simulateStep? s.lang 2) 4 s.stack.recentStates,
        s.stack.entries.map (·.tree.extra), s.reductionLimit))
      = some (some ([⟨6, 0, 0, 0⟩, ⟨5, 2, 0, 0⟩, ⟨6, 1, 0, 0⟩, ⟨5, 2, 0, 0⟩], [5, 1]),
        [true, false, true, false], 13) := by cbv
  obtain ⟨s, rounds, facts⟩ := Option.map_eq_some_iff.mp runs
  obtain ⟨simulated, facts⟩ := Prod.mk.inj facts
  obtain ⟨extras, limit⟩ := Prod.mk.inj facts
  have reaches := Session.reaches_of_after rounds
  have repeats := ofNested_extrasRepeat reaches
  have within : 4 ≤ s.reductionLimit := by omega
  exact ⟨s, reaches, extras, repeats, within, simulated,
    Session.simulation_tracks repeats within simulated⟩

end Reparse
