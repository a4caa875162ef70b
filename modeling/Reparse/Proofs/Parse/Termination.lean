import Mathlib.Data.Set.Card
import Reparse.Proofs.Grammar.Soundness
import Reparse.Proofs.Tree.History

/-!
Every parse comes to an end.

Two things can keep a parse busy at one place. Reductions in a row are bounded by the stack:
each takes a subtree off it, or builds one of nothing, and of those only as many can follow one
another as there are states (`Session.pull_reduced`). Everything else gets on in the text or is
a recovery, and recoveries at one place are counted (`Session.push_moved`). Both measures fit
into the rounds that a run is given, so that it always finds a root (`Language.parse_ends_always`).

No more is asked of the table than that building nodes of nothing comes to an end, and of the end
of the input that it is no extra.
-/

namespace Reparse

open Subtree (total)

/-! ### Nodes made of nothing -/

namespace Language

/-- Before `symbol` a node is built of nothing in state `q`, and leads to `q'`. -/
def Empties (lang : Language) (symbol : Symbol) (q q' : StateId) : Prop :=
  ∃ r, lang.action? q symbol = some (.reduce r) ∧ r.count = 0 ∧ q' = lang.next q r.symbol

/-- Nodes of nothing cannot be built for ever. -/
def Settling (lang : Language) : Prop :=
  ∀ symbol q, ¬ Relation.TransGen (lang.Empties symbol) q q

/-- The states that building nodes of nothing leads to. -/
def ahead (lang : Language) (symbol : Symbol) (q : StateId) : Set Nat :=
  { n | ∃ q', Relation.TransGen (lang.Empties symbol) q q' ∧ q'.toNat = n }

/-- How many of these states there are. -/
noncomputable def height (lang : Language) (symbol : Symbol) (q : StateId) : Nat :=
  (lang.ahead symbol q).ncard

variable {lang : Language} {symbol : Symbol} {q q' : StateId}

/-- A goto leads to a state of the table, the error state if nowhere else. -/
theorem next_lt (sound : lang.table.Sound) (q : StateId) (symbol : Symbol) :
    (lang.next q symbol).toNat < lang.table.stateCount := by
  unfold next
  split
  · rename_i target found
    exact sound.shifts_lt target (Table.mem_cells_of_action? found).2
  · have := sound.one_lt_states
    exact Nat.lt_trans Nat.zero_lt_one this

theorem ahead_subset (sound : lang.table.Sound) (symbol : Symbol) (q : StateId) :
    lang.ahead symbol q ⊆ ↑(Finset.range lang.table.stateCount) := by
  rintro n ⟨q', leads, rfl⟩
  rw [Finset.coe_range, Set.mem_Iio]
  cases leads with
  | single step =>
    obtain ⟨r, -, -, rfl⟩ := step
    exact next_lt sound _ _
  | tail _ step =>
    obtain ⟨r, -, -, rfl⟩ := step
    exact next_lt sound _ _

theorem height_le (sound : lang.table.Sound) (symbol : Symbol) (q : StateId) :
    lang.height symbol q ≤ lang.table.stateCount := by
  have := Set.ncard_le_ncard (lang.ahead_subset sound symbol q) (Finset.finite_toSet _)
  rwa [Set.ncard_coe_finset, Finset.card_range] at this

/-- Building a node of nothing leaves fewer states ahead. -/
theorem height_lt (sound : lang.table.Sound) (settling : lang.Settling)
    (step : lang.Empties symbol q q') : lang.height symbol q' < lang.height symbol q := by
  refine Set.ncard_lt_ncard ⟨?_, fun back => ?_⟩
    ((Finset.finite_toSet _).subset (lang.ahead_subset sound symbol q))
  · rintro n ⟨q₂, leads, rfl⟩
    exact ⟨q₂, .head step leads, rfl⟩
  · obtain ⟨q₂, leads, same⟩ := back ⟨q', .single step, rfl⟩
    rw [UInt16.toNat_inj.mp same] at leads
    exact settling symbol q' leads

end Language

/-- They are not where a node of nothing cannot be followed by another. -/
theorem Language.settling_of_once {lang : Language}
    (once : ∀ {symbol q q' q₂}, lang.Empties symbol q q' → ¬ lang.Empties symbol q' q₂) :
    lang.Settling := by
  intro symbol q loops
  obtain ⟨q', first, rest⟩ := Relation.TransGen.head'_iff.mp loops
  rcases Relation.ReflTransGen.cases_head rest with rfl | ⟨q₂, second, -⟩
  · exact once first first
  · exact once first second

namespace Session

variable {s s' : Session} {P : Nat → Subtree → Prop} {token root : Subtree} {symbol : Symbol}

/-! ### Reductions in a row -/

/-- One as long as there are only extras on the stack: a reduction that finds nothing to take
happens once. -/
def bare (s : Session) : Nat := if s.stack.entries.all (·.tree.extra) then 1 else 0

/-- How many reductions there may still be, nodes made of nothing aside. -/
def room (s : Session) : Nat :=
  s.stack.entries.length + s.lang.table.stateCount + s.bare + 1 - s.reductions

/-- How long reductions in a row can still go on. -/
noncomputable def pull (s : Session) : Nat :=
  s.room * (s.lang.table.stateCount + 1)
    + match s.lookahead with
      | some t => s.lang.height t.symbol s.stack.topState
      | none => s.lang.table.stateCount

theorem pull_some (lookahead : s.lookahead = some token) :
    s.pull = s.room * (s.lang.table.stateCount + 1)
      + s.lang.height token.symbol s.stack.topState := by
  rw [pull, lookahead]

theorem pull_none (lookahead : s.lookahead = none) :
    s.pull = s.room * (s.lang.table.stateCount + 1) + s.lang.table.stateCount := by
  rw [pull, lookahead]

theorem reduce_bare (s : Session) (r : Reduction) : (s.reduce r).bare = 0 := by
  obtain ⟨above, taken, under, reduces⟩ := s.reduces r
  refine if_neg fun all => ?_
  rw [List.all_eq_true] at all
  rw [reduces.eq, reducedOver] at all
  have node := all _ (Stack.mem_pushAll List.mem_cons_self)
  simp at node

/-- A reduction leaves room for fewer, or it made a node of nothing and moved on to another
state. -/
theorem Ready.reduce_room (ready : s.Ready P) {r : Reduction}
    (action : s.lang.action? s.stack.topState symbol = some (.reduce r))
    (within : s.reductions ≤ s.reductionLimit) :
    (s.reduce r).room + 1 ≤ s.room
      ∨ (s.reduce r).room = s.room
        ∧ s.lang.Empties symbol s.stack.topState (s.reduce r).stack.topState := by
  have bare := s.reduce_bare r
  obtain ⟨above, taken, under, split, base, extras, regular, taken_eq, reduced⟩ := s.reduces r
  have length : (s.reduce r).stack.entries.length + taken.length
      = s.stack.entries.length + 1 := by
    rw [reduced, reducedOver, Stack.length_pushAll, split]
    simp [Stack.trees]
    omega
  have limit : s.reductionLimit = s.stack.entries.length + s.lang.table.stateCount := by
    rw [reductionLimit, s.stack.length_eq]
  have reductions : (s.reduce r).reductions = s.reductions + 1 := rfl
  have lang : (s.reduce r).lang = s.lang := rfl
  unfold room
  rw [bare, reductions, lang]
  by_cases none : taken = []
  · by_cases nothing : r.count = 0
    · refine (Nat.lt_or_ge 0 s.bare).imp (fun _ => ?_) fun _ => ⟨?_, r, action, nothing, ?_⟩
      · simp only [none, List.length_nil] at length
        omega
      · simp only [none, List.length_nil] at length
        omega
      · have state : s.stack.topState = under.topState := by
          rw [none, List.nil_append] at split
          rw [← Stack.stateOver_entries base]
          exact ready.settled.stateOver_extras split extras
        rw [reduced, reducedOver, state]
        exact Stack.topState_pushAll rfl _ _
    · left
      have empty : under.entries = [] := by
        rw [none, List.nil_append] at taken_eq
        obtain ⟨count, is⟩ := Nat.exists_eq_succ_of_ne_zero nothing
        rw [is] at taken_eq
        cases found : under.entries with
        | nil => rfl
        | cons e rest =>
          rw [found, Stack.takeCount] at taken_eq
          cases taken_eq
      have all : s.bare = 1 := by
        rw [none, empty, List.append_nil, List.append_nil] at split
        refine if_pos (List.all_eq_true.mpr ?_)
        rw [split]
        exact extras
      simp only [none, List.length_nil] at length
      omega
  · left
    have some : 0 < taken.length := List.length_pos_iff.mpr none
    omega

/-- Two measures in one: as long as the second stays below a bound, it may grow where the first
falls. -/
theorem lex_lt {a a' b b' bound : Nat} (le : b' ≤ bound)
    (falls : a' + 1 ≤ a ∨ a' = a ∧ b' < b) : a' * (bound + 1) + b' < a * (bound + 1) + b := by
  rcases falls with falls | ⟨rfl, falls⟩
  · have := Nat.mul_le_mul_right (bound + 1) falls
    rw [Nat.add_mul, Nat.one_mul] at this
    omega
  · omega

/-- Acting on a token by a reduction brings the next move closer. -/
theorem Ready.pull_reduced (ready : s.Ready P) (sound : s.lang.table.Sound)
    (settling : s.lang.Settling) (acts : s.Acts token (.reduced s')) :
    s'.pull < s.room * (s.lang.table.stateCount + 1) + s.lang.height token.symbol s.stack.topState
      := by
  cases acts with
  | @reduce r action =>
    obtain ⟨action, within⟩ := action?_reduce action
    refine lex_lt (s.lang.height_le sound _ _) ?_
    rcases ready.reduce_room action within with falls | ⟨same, empties⟩
    · exact .inl falls
    · exact .inr ⟨same, s.lang.height_lt sound settling empties⟩

/-! ### Moves in a row -/

/-- How many recoveries there were where the stack ends. -/
def used (s : Session) : Nat :=
  if s.failedAt = some s.stack.topPosition.bytes then s.attempts else 0

/-- How far the parse still is from its end: what it has not read, and at one place the
recoveries that are left. -/
def distance (s : Session) : Nat :=
  (s.input.size - s.stack.topPosition.bytes) * (s.options.maxAttempts + 2 + 1)
    + (s.options.maxAttempts + 2 - s.used)

/-- To get on in the text is to come closer. -/
theorem distance_lt_of_further (alike : Alike s s')
    (further : s.stack.topPosition.bytes < s'.stack.topPosition.bytes)
    (inside : s'.stack.topPosition.bytes ≤ s.input.size) : s'.distance < s.distance := by
  obtain ⟨-, input, options⟩ := alike
  unfold distance
  rw [input, options]
  exact lex_lt (Nat.sub_le _ _) (.inl (by omega))

/-- So is to use up one more recovery at the same place. -/
theorem distance_lt_of_used (alike : Alike s s')
    (same : s'.stack.topPosition.bytes = s.stack.topPosition.bytes)
    (more : s'.used = s.used + 1) (left : s'.used ≤ s.options.maxAttempts + 1) :
    s'.distance < s.distance := by
  obtain ⟨-, input, options⟩ := alike
  unfold distance
  rw [input, options, same]
  exact lex_lt (Nat.sub_le _ _) (.inr ⟨rfl, by omega⟩)

/-- Once a recovery is counted, it is one more at its place. -/
theorem used_of_counted {s₁ : Session} (reading : Reading s.countAttempt s₁)
    (restacks : Restacks s₁ s')
    (same : s'.stack.topPosition.bytes = s.stack.topPosition.bytes) :
    s'.used = s.used + 1 ∧ s'.used = s₁.attempts := by
  have failed : s'.failedAt = some s.stack.topPosition.bytes := by
    obtain ⟨⟨_, _, _, _, -, rfl⟩, -⟩ := reading
    obtain ⟨_, _, _, _, rfl⟩ := restacks
    rfl
  have counted : s₁.attempts = s.used + 1 := by
    rw [reading.attempts_eq, countAttempt, used]
    dsimp only
    split <;> rfl
  have kept : s'.attempts = s₁.attempts := by
    obtain ⟨_, _, _, _, rfl⟩ := restacks
    rfl
  have used : s'.used = s'.attempts := if_pos (by rw [same, failed])
  exact ⟨used.trans (kept.trans counted), used.trans kept⟩

theorem alike_of_counted {s₁ : Session} (reading : Reading s.countAttempt s₁)
    (restacks : Restacks s₁ s') : Alike s s' := by
  obtain ⟨⟨_, _, _, _, -, rfl⟩, -⟩ := reading
  obtain ⟨_, _, _, _, rfl⟩ := restacks
  exact ⟨rfl, rfl, rfl⟩

/-- Without force, wrapping ends a parse or had recoveries left. -/
theorem wrap_none {force : Bool} (goes : (s.wrap force).1 = none) : force = false := by
  unfold wrap at goes
  dsimp only at goes
  split at goes
  · cases goes
  · rename_i calm
    simp only [Bool.or_eq_true, not_or, Bool.not_eq_true] at calm
    exact calm.1

/-- A recovery that stays at its place brings the end closer if it was not the last. -/
theorem distance_lt_of_counted {s₁ : Session} (reading : Reading s.countAttempt s₁)
    (restacks : Restacks s₁ s') (place : s'.stack.topPosition = s₁.stack.topPosition)
    (left : s₁.attempts ≤ s₁.options.maxAttempts + 1) : s'.distance < s.distance := by
  have same : s'.stack.topPosition.bytes = s.stack.topPosition.bytes := by
    rw [place]
    exact congrArg (·.topPosition.bytes) reading.stack_eq
  obtain ⟨more, counted⟩ := used_of_counted reading restacks same
  refine distance_lt_of_used (alike_of_counted reading restacks) same more ?_
  rw [counted]
  exact left.trans (Nat.le_of_eq (congrArg (·.maxAttempts + 1) reading.options_eq))

/-- A recovery that goes on brings the end closer. -/
theorem Ready.recovers_distance (ready : s.Ready P) (builds : Builds s.lang s.input P)
    (recovers : s.Recovers P s.stack.topState token none s') :
    s'.distance < s.distance := by
  have inside := ((ready.recovers builds recovers).2 rfl).1.inside
  obtain ⟨s₀, reading₀, restacks₀⟩ := recovers.restacks
  have alike := alike_of_counted reading₀ restacks₀
  generalize answer : none = answered at recovers
  cases recovers with
  | @skip s₁ more reading regular row =>
    obtain ⟨ready₁, older⟩ := ready.counted reading
    have stack : s₁.stack = s.stack := reading.stack_eq
    have row₁ : s₁.Row P s₁.stack.topPosition.bytes (token :: more) := by
      rw [stack]
      exact row.congr reading.input_eq
    obtain ⟨-, place⟩ := ready₁.skipTokens older row₁
    rw [stack] at place
    have some := row.1.some regular
    rw [alike.2.1] at inside
    refine distance_lt_of_further alike ?_ inside
    rw [place, Subtree.total_cons, Extent.add_bytes, Extent.add_bytes]
    omega
  | @insert s₁ symbol reading helps attempts =>
    obtain ⟨ready₁, older⟩ := ready.counted reading
    have builds₁ : Builds s₁.lang s₁.input P := by
      rw [reading.lang_eq, reading.input_eq]
      exact builds
    have place := (ready₁.insertIn builds₁ (Stack.stale_of_lt older)
      (missingToken?_spec ready₁.table helps).1 s₁.reductionLimit).2
    exact distance_lt_of_counted reading (insertIn_restacks ..) place (by omega)
  | @pop s₁ cut reading found attempts =>
    obtain ⟨ready₁, older⟩ := ready.counted reading
    have place := (ready₁.popInto older (List.mem_of_find?_eq_some found)).2
    exact distance_lt_of_counted reading ⟨_, _, _, _, rfl⟩ place (by omega)
  | @wrap s₁ reading atEnd =>
    obtain ⟨ready₁, older⟩ := ready.counted reading
    have place := ((ready₁.wrap older _).2 answer.symm).2
    have calm := wrap_none answer.symm
    simp only [decide_eq_false_iff_not] at calm
    exact distance_lt_of_counted reading (wrap_restacks ..) place (by omega)

/-- Any move brings the end closer. -/
theorem Ready.acts_distance (ready : s.Ready P) (builds : Builds s.lang s.input P)
    (next : s.Next P s.stack.topPosition.bytes token)
    (structural : (s.lang.traits Symbol.stop).extra = false)
    (acts : s.Acts token (.moved s')) : s'.distance < s.distance := by
  have shifted (target : StateId) (extra : Bool) (regular : token.symbol ≠ Symbol.stop) :
      (s.shift s.stack.topState target token extra).distance < s.distance := by
    have some := next.some regular
    have inside := next.inside ready.inside
    refine distance_lt_of_further ⟨rfl, rfl, rfl⟩ ?_ ?_
    all_goals
      rw [shift_topPosition, Extent.add_bytes]
      omega
  cases acts with
  | shift action => exact shifted _ false (action?_shift action).2
  | shiftExtra action extra =>
    refine shifted _ true fun stop => ?_
    rw [stop, structural] at extra
    cases extra.2
  | recover action regular eq =>
    have recovers := s.recover_recovers s.stack.topState token ready.makes ready.remembers next
    rw [eq] at recovers
    exact ready.recovers_distance builds recovers

/-! ### Runs -/

theorem Ready.reduce_distance (ready : s.Ready P) (r : Reduction) :
    (s.reduce r).distance = s.distance := by
  unfold distance used
  rw [ready.reduce_topPosition r]
  rfl

/-- A whole node that is taken over takes up text. -/
theorem Ready.reused_distance (ready : s.Ready P)
    (fetches : s.Fetches s.stack.topState none s') : s'.distance < s.distance := by
  have inside := (ready.fetch fetches).1.inside
  cases fetches with
  | @node t reuse found =>
    obtain ⟨offers, -, -⟩ := ready.offered found
    cases offers with
    | node place next inner takes =>
      obtain ⟨-, -, -, -, some⟩ := isReusable_spec (takesNode_reusable takes).1
      refine distance_lt_of_further ⟨rfl, rfl, rfl⟩ ?_ inside
      exact Nat.lt_add_of_pos_right some

/-- A move brings the end closer, and a reduction the next move. -/
theorem Good.closer (good : s.Good P) (sound : s.lang.table.Sound)
    (settling : s.lang.Settling) (structural : (s.lang.traits Symbol.stop).extra = false) :
    (∀ s', s.step = .moved s' → s'.distance < s.distance)
      ∧ ∀ s', s.step = .reduced s' → s'.distance = s.distance ∧ s'.pull < s.pull := by
  have steps := s.step_steps
  generalize s.step = step at steps ⊢
  cases steps with
  | @act token _ lookahead acts =>
    obtain ⟨ready, next, -⟩ := good.act lookahead
    refine ⟨?_, ?_⟩
    · rintro s' rfl
      exact ready.acts_distance good.builds next structural acts
    · rintro s' rfl
      have pulled := ready.pull_reduced sound settling acts
      refine ⟨?_, ?_⟩
      · cases acts with
        | reduce action => exact ready.reduce_distance _
      · rw [pull_some lookahead]
        exact pulled
  | @fetch token s₁ _ lookahead fetches acts =>
    obtain ⟨ready, builds, next, -⟩ := good.fetch fetches
    obtain ⟨_, _, _, _, _, rfl⟩ := fetches.frame_token
    refine ⟨?_, ?_⟩
    · rintro s' rfl
      exact ready.acts_distance builds next structural acts
    · rintro s' rfl
      have pulled := ready.pull_reduced sound settling acts
      refine ⟨?_, ?_⟩
      · cases acts with
        | reduce action => exact ready.reduce_distance _
      · rw [pull_none lookahead]
        have := s.lang.height_le sound token.symbol s.stack.topState
        exact Nat.lt_of_lt_of_le pulled (Nat.add_le_add_left this _)
  | reuse lookahead fetches =>
    refine ⟨?_, nofun⟩
    rintro s' ⟨⟩
    exact good.ready.reused_distance fetches

/-- Reductions in a row fit into those that a run allows. -/
theorem pull_le_reductionBound (s : Session) (sound : s.lang.table.Sound) :
    s.pull ≤ s.reductionBound := by
  have pull : s.pull ≤ s.room * (s.lang.table.stateCount + 1) + s.lang.table.stateCount := by
    cases lookahead : s.lookahead with
    | none => exact Nat.le_of_eq (pull_none lookahead)
    | some t =>
      rw [pull_some lookahead]
      exact Nat.add_le_add_left (s.lang.height_le sound _ _) _
  have room : s.room ≤ s.stack.length + s.lang.table.stateCount + 2 := by
    have : s.bare ≤ 1 := by
      unfold bare
      split <;> omega
    rw [room, s.stack.length_eq]
    omega
  calc s.pull ≤ s.room * (s.lang.table.stateCount + 1) + s.lang.table.stateCount := pull
    _ ≤ (s.stack.length + s.lang.table.stateCount + 2) * (s.lang.table.stateCount + 1)
        + 2 * (s.lang.table.stateCount + 1) := by
      have := Nat.mul_le_mul_right (s.lang.table.stateCount + 1) room
      omega
    _ = s.reductionBound := by rw [← Nat.add_mul, Nat.mul_comm, reductionBound]

/-- With rounds enough for what is left, a run finds a root. -/
theorem Good.runs {rounds reductions : Nat} (good : s.Good P)
    (sound : s.lang.table.Sound) (settling : s.lang.Settling)
    (structural : (s.lang.traits Symbol.stop).extra = false) (far : s.distance ≤ rounds)
    (near : s.pull ≤ reductions) : (s.runWithin rounds reductions).1.isSome := by
  fun_induction runWithin rounds reductions s with
  | case1 => rfl
  | case2 rounds s s₁ step =>
    have := ((good.closer sound settling structural).2 s₁ step).2
    omega
  | case3 rounds s s₁ step reductions ih =>
    obtain ⟨same, closer⟩ := (good.closer sound settling structural).2 s₁ step
    obtain ⟨lang, -, -⟩ := good.alike s₁ (.inr step)
    rw [← lang] at sound settling structural
    exact ih (good.step s₁ (.inr step)) sound settling structural (by omega) (by omega)
  | case4 reductions s s₁ step =>
    have := (good.closer sound settling structural).1 s₁ step
    omega
  | case5 reductions s s₁ step rounds ih =>
    have closer := (good.closer sound settling structural).1 s₁ step
    obtain ⟨lang, -, -⟩ := good.alike s₁ (.inl step)
    rw [← lang] at sound settling structural
    exact ih (good.step s₁ (.inl step)) sound settling structural (by omega)
      (s₁.pull_le_reductionBound sound)

/-- A whole run has that many rounds. -/
theorem start_distance (lang : Language) (options : Options) (input : Array UInt8)
    (old : Option Subtree) (fresh : Stamp) :
    (start lang options input old fresh).distance
      ≤ (start lang options input old fresh).roundBound := by
  have place : (start lang options input old fresh).stack.topPosition.bytes = 0 := rfl
  have size : (start lang options input old fresh).input.size = input.size := rfl
  have attempts : (start lang options input old fresh).options = options := rfl
  unfold distance roundBound
  rw [place, size, attempts, Nat.sub_zero]
  calc input.size * (options.maxAttempts + 2 + 1)
        + (options.maxAttempts + 2 - (start lang options input old fresh).used)
      ≤ (input.size + 1) * (options.maxAttempts + 4) := by
        have := Nat.mul_le_mul_left input.size
          (by omega : options.maxAttempts + 2 + 1 ≤ options.maxAttempts + 4)
        rw [Nat.add_mul]
        omega
    _ ≤ _ := Nat.mul_le_mul_right _ (by omega)

end Session

/-! ### Parses -/

variable {lang : Language} {options : Options} {input : Array UInt8} {old : Option Tree}
  {fresh : Stamp}

/-- Where building nodes of nothing comes to an end, every parse has a tree. -/
theorem Language.parse_isSome (sound : lang.table.Sound) (settling : lang.Settling)
    (structural : (lang.traits Symbol.stop).extra = false)
    (kept : ∀ o, old = some o → o.language.same lang → o.root.Kept (fun _ => Subtree.Sound lang)) :
    ∃ t, (lang.parse options input old fresh).tree = some t := by
  have good : (Session.start lang options input (lang.usable input old) fresh).Good _ :=
    start_good sound kept
  have found := good.runs sound settling structural (Session.start_distance ..)
    (Session.pull_le_reductionBound _ sound)
  obtain ⟨root, run⟩ := Option.isSome_iff_exists.mp found
  exact ⟨_, congrArg (Option.map fun root => Tree.mk root lang _) run⟩

theorem Language.ofLists_settling : ofLists.Settling := by
  refine settling_of_once ?_
  rintro symbol q _ q₂ ⟨r, -, -, rfl⟩ ⟨r', reduce, nothing, -⟩
  have start := ofLists_reduce reduce nothing
  unfold next at start
  split at start
  · rename_i shift
    rcases ofLists_shift shift with ⟨rfl, -⟩ | rfl <;> cases start
  · cases start

theorem Language.ofLists_parse_isSome (input : Array UInt8) :
    ∃ t, (ofLists.parse {} input none 0).tree = some t :=
  parse_isSome (sound_of_load load_ofLists) ofLists_settling (by decide) nofun

end Reparse
