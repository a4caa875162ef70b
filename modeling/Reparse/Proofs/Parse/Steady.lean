import Reparse.Proofs.Parse.Lexed
import Reparse.Proofs.Parse.Lockstep
import Reparse.Proofs.Parse.Reductions
import Reparse.Proofs.Parse.Smooth

/-!
Languages in which a reduction does not change how the next token is read.

A token is read in the mode of the state on top, but by the time it is shifted there may have been
reductions, and a parser that takes over the reduced node reads the token after them. In a steady
language (`Language.Steady`) both are the same mode, a reduction takes only what was pushed, and
extras are pushed everywhere. Then parses that go along no old tree (`Session.Unaided`) always have
the token at hand that stands in the text (`Unaided.takes`), and agreeing ones clear it alike, the
one with fewer reductions behind it if the other does (`Clears.same`).
-/

namespace Reparse

open Subtree (total structural)

/-! ### Steady languages -/

namespace Language

/-- From the state `q` on no reduction takes more than was pushed since. -/
def Floor (lang : Language) (q : StateId) : Prop :=
  ∀ (path : List Symbol) (symbol : Symbol) (r : Reduction),
    lang.action? (path.foldl lang.next q) symbol = some (.reduce r) → r.count ≤ path.length

/-- What holds of a language if the table and the modes were made for each other.

No reduction reaches below the start of the stack, and none takes a node of nothing, which lies
below the extras before it. A reduction leads to a state of the same mode. -/
structure Steady (lang : Language) : Prop extends lang.Firm where
  unscanned : lang.scanner = none
  stop_regular : (lang.traits Symbol.stop).extra = false
  extras_free : ∀ {q symbol}, (lang.traits symbol).extra = true → lang.action? q symbol = none
  grounded : lang.Floor StateId.start
  nothing : ∀ {q symbol r}, lang.action? q symbol = some (.reduce r) → r.count = 0 →
    lang.Floor (lang.next q r.symbol)
  level : ∀ {path : List Symbol} {q symbol r}, path.length = r.count →
    lang.action? (path.foldl lang.next q) symbol = some (.reduce r) →
    lang.lexMode (lang.next q r.symbol) = lang.lexMode (path.foldl lang.next q)

/-- It is enough to know of each state how much was pushed at least. -/
theorem floor_of_depth {lang : Language} (depth : StateId → Nat)
    (step : ∀ q symbol, depth (lang.next q symbol) ≤ depth q + 1)
    (reduces : ∀ q symbol r, lang.action? q symbol = some (.reduce r) → r.count ≤ depth q)
    {q : StateId} (zero : depth q = 0) : lang.Floor q := by
  have within (path : List Symbol) (q : StateId) :
      depth (path.foldl lang.next q) ≤ depth q + path.length := by
    induction path generalizing q with
    | nil => exact Nat.le_refl _
    | cons symbol path ih =>
      have first := step q symbol
      have rest := ih (lang.next q symbol)
      rw [List.foldl_cons, List.length_cons]
      omega
  intro path symbol r action
  have taken := reduces _ _ _ action
  have pushed := within path q
  omega

end Language

/-! ### Paths -/

namespace Stack

variable {lang : Language} {s : Stack} {P : Nat → Subtree → Prop} {above rest : List Entry}

/-- The symbols of the entries that are no extras, lowest first. -/
def path (entries : List Entry) : List Symbol := (structural (trees entries)).map (·.symbol)

theorem length_path (entries : List Entry) :
    (path entries).length = (structural (trees entries)).length :=
  List.length_map _

theorem path_append : path (above ++ rest) = path rest ++ path above := by
  rw [path, trees_append, Subtree.structural_append, List.map_append]
  rfl

/-- Extras do not count. -/
theorem path_extras (extras : ∀ e ∈ above, e.tree.extra = true) : path above = [] := by
  have none : structural (trees above) = [] := by
    refine List.filter_eq_nil_iff.mpr fun t member => ?_
    obtain ⟨e, inAbove, rfl⟩ := mem_trees.mp member
    simp [extras e inAbove]
  rw [path, none, List.map_nil]

/-- The state on top of some entries is where their symbols lead. -/
theorem stateOver_path (held : Over (fun e below =>
      e.Settled lang P (s.stateOver below) (positionOver below)) (above ++ rest)) :
    s.stateOver (above ++ rest) = (path above).foldl lang.next (s.stateOver rest) := by
  induction above with
  | nil => rfl
  | cons e above ih =>
    obtain ⟨settled, held⟩ := held
    have one : e :: above = [e] ++ above := rfl
    rw [one, path_append, List.foldl_append, ← ih held, List.append_assoc]
    change e.state = _
    cases extra : e.tree.extra with
    | true =>
      rw [path_extras (List.forall_mem_singleton.mpr extra)]
      exact settled.extra_state extra
    | false =>
      rw [path, trees_cons, trees_nil, List.nil_append, Subtree.structural_singleton extra]
      exact settled.next_state extra

end Stack

namespace Session

variable {s : Session} {P : Nat → Subtree → Prop} {r : Reduction} {symbol : Symbol}
  {above taken : List Entry} {under : Stack}

/-- Before a reduction the state on top is where the subtrees lead that it takes. -/
theorem Reduces.topState_path (reduces : s.Reduces r above taken under)
    (settled : s.stack.Settled s.lang P) :
    s.stack.topState = (Stack.path taken).foldl s.lang.next under.topState := by
  have held := settled
  unfold Stack.Settled at held
  rw [reduces.split] at held
  rw [reduces.topState_eq settled, Stack.stateOver_path held.beneath,
    Stack.stateOver_entries reduces.base]

/-- In a steady language a reduction takes as many subtrees as it counts. -/
theorem Reduces.counted (reduces : s.Reduces r above taken under) (ready : s.Ready P)
    (steady : s.lang.Steady) (action : s.lang.action? s.stack.topState symbol = some (.reduce r)) :
    (Stack.path taken).length = r.count := by
  rw [Stack.length_path]
  refine Nat.le_antisymm reduces.count.1 (Nat.le_of_not_lt fun short => ?_)
  have bottom : under.topState = StateId.start := by
    rw [Stack.topState, reduces.count.2 short, Stack.stateOver, reduces.base, ready.base]
  rw [reduces.topState_path ready.settled, bottom] at action
  have enough := steady.grounded _ _ _ action
  rw [Stack.length_path] at enough
  omega

/-- There the next token is read after the reduction as before. -/
theorem Reduces.lexMode_eq (reduces : s.Reduces r above taken under) (ready : s.Ready P)
    (steady : s.lang.Steady) (action : s.lang.action? s.stack.topState symbol = some (.reduce r)) :
    s.lang.lexMode (s.lang.next under.topState r.symbol) = s.lang.lexMode s.stack.topState := by
  have counted := reduces.counted ready steady action
  rw [reduces.topState_path ready.settled] at action ⊢
  exact steady.level counted action

/-- There what was pushed in a state that no reduction reaches below is not taken. -/
theorem Reduces.not_floor (reduces : s.Reduces r above taken under) (ready : s.Ready P)
    (steady : s.lang.Steady) (action : s.lang.action? s.stack.topState symbol = some (.reduce r))
    {e : Entry} (member : e ∈ taken) (regular : e.tree.extra = false) :
    ¬ s.lang.Floor e.state := by
  intro floor
  obtain ⟨upper, lower, rfl⟩ := List.append_of_mem member
  have counted := reduces.counted ready steady action
  have held := ready.settled
  unfold Stack.Settled at held
  rw [reduces.split, List.append_assoc] at held
  have top : s.stack.topState = (Stack.path upper).foldl s.lang.next e.state := by
    rw [reduces.topState_eq ready.settled, List.append_assoc, Stack.stateOver_path held.beneath]
    rfl
  rw [top] at action
  have within := floor _ _ _ action
  have one : upper ++ e :: lower = upper ++ ([e] ++ lower) := rfl
  have single : (Stack.path [e]).length = 1 := by
    rw [Stack.length_path, Stack.trees_cons, Stack.trees_nil, List.nil_append,
      Subtree.structural_singleton regular]
    rfl
  rw [one, Stack.path_append, Stack.path_append, List.length_append, List.length_append,
    single] at counted
  omega

/-! ### Along no old tree -/

/-- A parse of `input` between rounds that goes along no old tree. The token at hand is the one that
stands there, as it is read in the mode of the state on top. -/
structure Unaided (lang : Language) (input : Array UInt8) (s : Session) : Prop where
  good : s.Good (Subtree.Made lang input True)
  lang_eq : s.lang = lang
  input_eq : s.input = input
  alone : s.reuse.pending = []
  hand : ∀ t, s.lookahead = some t →
    t.Lexed lang input (lang.lexMode s.stack.topState) s.stack.topPosition.bytes

/-- `t` is the next token of a parse that goes along no old tree, and `n` has taken it. -/
structure Takes (lang : Language) (input : Array UInt8) (s : Session) (t : Subtree) (n : Session) :
    Prop where
  take : s.take = (some t, n)
  stack_eq : n.stack = s.stack
  same : Same { s with lookahead := none } n
  reductions_eq : n.reductions = s.reductions
  lexed : t.Lexed lang input (lang.lexMode s.stack.topState) s.stack.topPosition.bytes
  unaided : n.Unaided lang input
  bare : n.lookahead = none
  next : n.Next (Subtree.Made lang input True) n.stack.topPosition.bytes t
  noted : n.stack.topPosition.bytes + t.window ≤ n.seen

variable {lang : Language} {input : Array UInt8} {s' n n' : Session} {t t' : Subtree} {q : StateId}

theorem readLeaf_lexed (remembers : s.Remembers) (state : StateId) (mode : LexMode) (offset : Nat) :
    (s.readLeaf state mode offset).1.Lexed s.lang s.input mode offset := by
  have is := tokenAt_eq remembers mode offset
  have reading := Reading.tokenAt s mode offset
  unfold readLeaf
  generalize s.tokenAt mode offset = read at is reading ⊢
  obtain ⟨token, s₁⟩ := read
  dsimp only at is reading ⊢
  refine ⟨s₁.fresh, state, ?_⟩
  rw [← is, Language.tokenLeaf, ← reading.lang_eq, ← reading.input_eq]
  rfl

/-- A token that was not taken over stands in the text. -/
theorem Fetches.offered_or_lexed (fetches : s.Fetches q (some t) s') (remembers : s.Remembers) :
    (∃ reuse, s.reuse.find s.stack.topPosition.bytes q (s.lang.lexMode q) = (some (.token t), reuse))
      ∨ t.Lexed s.lang s.input (s.lang.lexMode q) s.stack.topPosition.bytes := by
  cases fetches with
  | token found => exact .inl ⟨_, found⟩
  | @lexed leaf reuse s'' found read =>
    have lexed := readLeaf_lexed (s := { s with reuse }) remembers q (s.lang.lexMode q)
      s.stack.topPosition.bytes
    rw [read] at lexed
    exact .inr lexed

theorem start_unaided (sound : lang.table.Sound) (options : Options) (input : Array UInt8)
    (fresh : Stamp) : (start lang options input none fresh).Unaided lang input :=
  ⟨start_good sound Language.makes_made builds_made none nofun, rfl, rfl, rfl, nofun⟩

/-- The next token is at hand, or it is read. -/
theorem Unaided.takes (unaided : s.Unaided lang input) : ∃ t n, s.Takes lang input t n := by
  obtain ⟨good, lang_eq, input_eq, alone, hand⟩ := unaided
  cases here : s.lookahead with
  | some t =>
    obtain ⟨ready, next, noted⟩ := good.act here
    exact ⟨t, { s with lookahead := none }, take_of_lookahead here, rfl, ⟨⟨rfl, rfl, rfl⟩, rfl, rfl,
      rfl, rfl⟩, rfl, hand t here, ⟨.of_ready ready good.builds rfl, lang_eq, input_eq, alone, nofun⟩,
      rfl, next, noted⟩
  | none =>
    have fetches := s.nextLookahead_fetches s.stack.topState
    have takes := take_of_bare here
    generalize s.nextLookahead s.stack.topState = answer at fetches takes
    obtain ⟨next, n⟩ := answer
    have none := alone
    obtain ⟨alone, some⟩ := fetches.scratch alone
    cases next with
    | none => exact absurd rfl some
    | some t =>
      obtain ⟨ready, builds, next, noted⟩ := good.fetch fetches
      have bare := fetches.lookahead_eq.trans here
      have lexed : t.Lexed s.lang s.input (s.lang.lexMode s.stack.topState)
          s.stack.topPosition.bytes := by
        refine (fetches.offered_or_lexed good.ready.remembers).resolve_left ?_
        rintro ⟨reuse, found⟩
        rw [ReuseCursor.find_of_nil none] at found
        cases found
      have frame := fetches.frame_token
      have same := fetches.same
      have keeps : n.lang = s.lang ∧ n.input = s.input ∧ n.reductions = s.reductions := by
        obtain ⟨_, _, _, _, _, rfl⟩ := frame
        exact ⟨rfl, rfl, rfl⟩
      refine ⟨t, n, takes, fetches.stack_eq, ?_, keeps.2.2, lang_eq ▸ input_eq ▸ lexed,
        ⟨.of_ready ready builds bare, keeps.1.trans lang_eq, keeps.2.1.trans input_eq, alone, ?_⟩,
        bare, next, noted⟩
      · rw [← here]
        exact same
      · intro t' there
        rw [bare] at there
        cases there

/-! ### Rounds without recovery -/

/-- With no more reductions behind it a session does what the other does. -/
theorem action?_mono (lang : s'.lang = s.lang) (length : s'.stack.length = s.stack.length)
    (fewer : s'.reductions ≤ s.reductions) {action : Action}
    (found : s.action? q symbol = some action) : s'.action? q symbol = some action := by
  have limit : s'.reductionLimit = s.reductionLimit := by
    rw [reductionLimit, reductionLimit, lang, length]
  cases action with
  | shift target =>
    obtain ⟨is, regular⟩ := action?_shift found
    rw [Session.action?, lang, is]
    exact if_neg regular
  | reduce r =>
    obtain ⟨is, within⟩ := action?_reduce found
    rw [Session.action?, lang, is, limit]
    exact if_neg (by omega)
  | accept =>
    obtain ⟨is, stop⟩ := action?_accept found
    rw [Session.action?, lang, is]
    exact if_pos stop

/-- On a token that is known a session acts like one that agrees with it and has no fewer reductions
behind it. -/
theorem Same.act_known (same : Same s s') (steady : s.lang.Steady)
    (fewer : s'.reductions ≤ s.reductions) (knows : s.Knows q t) (tokens : t.plain = t'.plain) :
    s'.Knows q t' ∧ Step.Goes (fun s s' => Same s s' ∧ s'.reductions ≤ s.reductions)
      (s.act q t) (s'.act q t') := by
  have symbol := Subtree.symbol_of_plain tokens
  have error := Subtree.isError_of_plain tokens
  unfold Session.act
  rw [← symbol, ← error, same.alike.1]
  cases found : s.action? q t.symbol with
  | some action =>
    have found' := action?_mono same.alike.1 (Stack.length_same same.stack).symm fewer found
    rw [found']
    refine ⟨.inl (by rw [← symbol, found']; rfl), ?_⟩
    cases action with
    | shift target => exact .moved ⟨same.shift tokens .., Nat.le_refl 0⟩
    | reduce r =>
      have reduced := same.reduce r
      exact .reduced ⟨⟨reduced.alike, reduced.stack, congrArg some tokens, reduced.failedAt,
        reduced.attempts⟩, Nat.succ_le_succ fewer⟩
    | accept => exact .done same.accept
  | none =>
    obtain ⟨regular, extra⟩ : t.isError = false ∧ (s.lang.traits t.symbol).extra = true := by
      refine knows.resolve_left fun some => ?_
      rw [found] at some
      cases some
    have found' : s'.action? q t.symbol = none := by
      rw [Session.action?, same.alike.1, steady.extras_free extra]
    have pushes : (!t.isError && (s.lang.traits t.symbol).extra) = true := by
      rw [regular, extra]
      rfl
    rw [found']
    dsimp only
    rw [if_pos pushes, if_pos pushes]
    refine ⟨.inr ⟨error.symm.trans regular, ?_⟩, .moved ⟨same.shift tokens .., Nat.le_refl 0⟩⟩
    rw [← symbol, same.alike.1]
    exact extra

theorem Takes.topState (takes : s.Takes lang input t n) : s.stack.topState = n.stack.topState :=
  takes.same.topState

/-- What is known is not recovered from. -/
theorem Knows.absurd (knows : s.Knows q t) (action : s.action? q t.symbol = none)
    (regular : t.isError = true ∨ (s.lang.traits t.symbol).extra = false) : False := by
  rcases knows with some | ⟨isNot, extra⟩
  · rw [action] at some
    cases some
  · rw [isNot, extra] at regular
    rcases regular with is | is <;> cases is

theorem Takes.step (takes : s.Takes lang input t n) : s.step = n.act n.stack.topState t := by
  rw [step_of_take takes.take, takes.topState]

theorem Takes.knows (takes : s.Takes lang input t n) (calm : s.Calm) :
    n.Knows n.stack.topState t := by
  rw [← takes.topState]
  exact calm t n takes.take

/-- There is one token to take. -/
theorem Takes.calm (takes : s.Takes lang input t n) (knows : n.Knows n.stack.topState t) :
    s.Calm := by
  intro t' n' is
  rw [takes.take] at is
  cases is
  rw [takes.topState]
  exact knows

/-- A round that is no recovery keeps the token at hand, or there is none afterwards. -/
theorem Unaided.step (unaided : s.Unaided lang input) (steady : lang.Steady) (calm : s.Calm) :
    ∀ s', s.step = .moved s' ∨ s.step = .reduced s' → s'.Unaided lang input := by
  obtain ⟨t, n, takes⟩ := unaided.takes
  have knows := takes.knows calm
  have lexed := takes.lexed
  have place := congrArg Extent.bytes takes.same.topPosition
  change s.stack.topPosition.bytes = n.stack.topPosition.bytes at place
  rw [takes.step]
  rw [takes.topState, place] at lexed
  obtain ⟨good, rfl, rfl, alone, -⟩ := takes.unaided
  have acts := n.act_acts t
  have kept := good.ready.acts good.builds takes.bare takes.next takes.noted acts
  have frame := good.ready.acts_frame takes.next acts
  intro s' goes
  obtain ⟨⟨lang_eq, input_eq, -⟩, reuse⟩ := frame s' goes
  refine ⟨kept s' goes, lang_eq, input_eq, reuse ▸ alone, ?_⟩
  generalize n.act n.stack.topState t = step at acts goes
  intro t' there
  cases acts with
  | shift =>
    rcases goes with ⟨⟨⟩⟩ | ⟨⟨⟩⟩
    have bare := takes.bare.symm.trans there
    cases bare
  | shiftExtra =>
    rcases goes with ⟨⟨⟩⟩ | ⟨⟨⟩⟩
    have bare := takes.bare.symm.trans there
    cases bare
  | @reduce r action =>
    rcases goes with ⟨⟨⟩⟩ | ⟨⟨⟩⟩
    cases there
    obtain ⟨above, taken, under, reduces⟩ := n.reduces r
    have action := (action?_reduce action).1
    have mode := reduces.lexMode_eq good.ready steady action
    have top : (n.reduce r).stack.topState = n.lang.next under.topState r.symbol := by
      rw [reduces.eq, reducedOver]
      exact Stack.topState_pushAll rfl _ _
    change t.Lexed n.lang n.input (n.lang.lexMode (n.reduce r).stack.topState)
      (n.reduce r).stack.topPosition.bytes
    rw [top, mode, good.ready.reduce_topPosition]
    exact lexed
  | recover action regular | fail action regular => exact (knows.absurd action regular).elim
  | accept => rcases goes with ⟨⟨⟩⟩ | ⟨⟨⟩⟩

/-- Agreeing sessions that take plainly equal tokens do the same in a round that is no recovery, the
one with fewer reductions behind it if the other does. -/
theorem Takes.goes (takes : s.Takes lang input t n) (steady : lang.Steady) (calm : s.Calm)
    (same : Same s s') (fewer : s'.reductions ≤ s.reductions) (take' : s'.take = (some t', n'))
    (same' : Same { s' with lookahead := none } n') (reductions : n'.reductions = s'.reductions)
    (tokens : t.plain = t'.plain) :
    s'.Calm ∧ Step.Goes (fun s s' => Same s s' ∧ s'.reductions ≤ s.reductions) s.step s'.step := by
  have bare : Same { s with lookahead := none } { s' with lookahead := none } :=
    ⟨same.alike, same.stack, rfl, same.failedAt, same.attempts⟩
  have taken : Same n n' := (takes.same.symm.trans bare).trans same'
  have fewer' : n'.reductions ≤ n.reductions := by
    rw [takes.reductions_eq, reductions]
    exact fewer
  have steady' : n.lang.Steady := takes.unaided.lang_eq ▸ steady
  obtain ⟨knows, goes⟩ := taken.act_known steady' fewer' (takes.knows calm) tokens
  rw [← takes.topState, same.topState] at knows goes
  refine ⟨fun token s₁ is => ?_, ?_⟩
  · rw [take'] at is
    cases is
    exact knows
  · rw [takes.step, step_of_take take', ← takes.topState, same.topState]
    exact goes

/-- So agreeing parses along no old tree do the same. -/
theorem Unaided.goes (unaided : s.Unaided lang input) (unaided' : s'.Unaided lang input)
    (steady : lang.Steady) (same : Same s s') (fewer : s'.reductions ≤ s.reductions)
    (calm : s.Calm) : s'.Calm ∧ Step.Goes (fun s s' => Same s s' ∧ s'.reductions ≤ s.reductions)
      s.step s'.step := by
  obtain ⟨t, n, takes⟩ := unaided.takes
  obtain ⟨t', n', takes'⟩ := unaided'.takes
  have lexed' := takes'.lexed
  rw [← same.topState, ← same.topPosition] at lexed'
  exact takes.goes steady calm same fewer takes'.take takes'.same takes'.reductions_eq
    (takes.lexed.plain_eq lexed')

/-- They clear the same root in as many rounds. -/
theorem Clears.same {root : Subtree} {rounds : Nat} (clears : s.Clears root rounds)
    (steady : lang.Steady) (unaided : s.Unaided lang input) (unaided' : s'.Unaided lang input)
    (same : Same s s') (fewer : s'.reductions ≤ s.reductions) :
    ∃ root', s'.Clears root' rounds ∧ root'.plain = root.plain := by
  induction clears generalizing s' with
  | done calm step =>
    obtain ⟨calm', goes⟩ := unaided.goes unaided' steady same fewer calm
    generalize step' : s'.step = round at goes
    rw [step] at goes
    cases goes with
    | done roots => exact ⟨_, .done calm' step', roots.symm⟩
  | @reduced s s₁ rounds calm step rest ih =>
    obtain ⟨calm', goes⟩ := unaided.goes unaided' steady same fewer calm
    generalize step' : s'.step = round at goes
    rw [step] at goes
    cases goes with
    | reduced related =>
      obtain ⟨root', clears, plain⟩ := ih (unaided.step steady calm _ (.inr step))
        (unaided'.step steady calm' _ (.inr step')) related.1 related.2
      exact ⟨root', .reduced calm' step' clears, plain⟩
  | @moved s s₁ rounds calm step rest ih =>
    obtain ⟨calm', goes⟩ := unaided.goes unaided' steady same fewer calm
    generalize step' : s'.step = round at goes
    rw [step] at goes
    cases goes with
    | moved related =>
      obtain ⟨root', clears, plain⟩ := ih (unaided.step steady calm _ (.inl step))
        (unaided'.step steady calm' _ (.inl step')) related.1 related.2
      exact ⟨root', .moved calm' step' clears, plain⟩

end Session

end Reparse
