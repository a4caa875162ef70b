import Reparse.Proofs.Morpho.Subtrees

/-!
The parse stack of Morpho as a path through its table.

Without its extras a stack is a path (`Parses.path`), so what a reduction takes off it is the
right-hand side of a rule, over a state with a goto (`Parses.finds`). Every node is therefore
formed (`Parses.reduced`), and the reductions in a row are never more than the parser allows
(`Capped.action?_eq`).
-/

namespace Reparse

open Subtree (total structural Everywhere EverywhereIn)

namespace Morpho

variable {handle : Nat} {input : Array UInt8} {P : Nat → Subtree → Prop} {q : StateId}
  {symbol : Symbol} {r : Reduction}

/-! ### Ways down a stack -/

/-- The moves that some entries of a stack stand for, extras aside. -/
def wayOf (s : Stack) : List Entry → Way
  | [] => []
  | e :: rest =>
    if e.tree.extra then wayOf s rest else (e.tree.symbol, s.stateOver rest) :: wayOf s rest

/-- The moves of a whole stack. -/
def way (s : Stack) : Way := wayOf s s.entries

variable {s : Stack} {e : Entry} {above rest : List Entry}

theorem wayOf_extras (extras : ∀ e ∈ above, e.tree.extra = true) :
    wayOf s (above ++ rest) = wayOf s rest := by
  induction above with
  | nil => rfl
  | cons e above ih =>
    rw [List.cons_append, wayOf, if_pos (extras e List.mem_cons_self)]
    exact ih fun e member => extras e (List.mem_cons_of_mem _ member)

theorem wayOf_congr {s' : Stack} (base : s'.base = s.base) : wayOf s' = wayOf s := by
  funext entries
  induction entries with
  | nil => rfl
  | cons e rest ih => rw [wayOf, wayOf, ih, Stack.stateOver_congr base]

theorem way_push {t : Subtree} (regular : t.extra = false) (target : StateId) (epoch : Nat) :
    way (s.push t target epoch) = (t.symbol, s.topState) :: way s := by
  rw [way, Stack.push_entries, wayOf, regular, if_neg Bool.false_ne_true,
    wayOf_congr (s := s) (Stack.push_base ..), Stack.stateOver_congr (s := s) (Stack.push_base ..)]
  rfl

theorem way_pushExtra {t : Subtree} (extra : t.extra = true) (target : StateId) (epoch : Nat) :
    way (s.push t target epoch) = way s := by
  rw [way, Stack.push_entries, wayOf, extra, if_pos rfl,
    wayOf_congr (s := s) (Stack.push_base ..)]
  rfl

/-- The moves of the topmost entries, and of what lies beneath. -/
theorem wayOf_append (s : Stack) (above rest : List Entry) : ∃ last,
    wayOf s (above ++ rest) = last ++ wayOf s rest
      ∧ (last.map (·.1)).reverse = (structural (Stack.trees above)).map (·.symbol) := by
  induction above with
  | nil => exact ⟨[], rfl, rfl⟩
  | cons e above ih =>
    obtain ⟨last, split, symbols⟩ := ih
    rw [List.cons_append, wayOf, Stack.trees_cons, Subtree.structural_append]
    split
    · rename_i extra
      refine ⟨last, split, ?_⟩
      rw [Subtree.structural_singleton_extra extra, List.append_nil]
      exact symbols
    · rename_i regular
      refine ⟨(e.tree.symbol, _) :: last, by rw [split]; rfl, ?_⟩
      rw [Subtree.structural_singleton (by simpa using regular), List.map_append, ← symbols]
      simp

/-! ### Stacks are paths -/

/-- An entry that is no extra is moved to from the state beneath it. -/
theorem shift_of_settled {under : StateId} {left : Extent}
    (settled : e.Settled (language handle) P under left)
    (formed : Formed handle input left.bytes e.tree) (regular : e.tree.extra = false) :
    cell under e.tree.symbol = some (.shift e.state) := by
  rw [← action?_eq handle]
  cases formed with
  | token lexed =>
    refine settled.shifted regular lexed.children_eq ?_
    rcases lexed.takes with ⟨some, -⟩ | ⟨stop, -⟩
    · exact .inl some
    · have terminal : Symbol.stop.toNat < tokenCount := by decide
      rw [stop]
      exact .inr terminal
  | missing leaf _ _ terminal => exact settled.shifted regular leaf (.inr terminal)
  | error _ extra =>
    rw [regular] at extra
    cases extra
  | node _ _ _ goto =>
    obtain ⟨target, found⟩ := goto
    rw [settled.parseState_eq regular] at found
    rw [settled.next_state regular, Language.next, action?_eq, found]

/-- The entries of a settled stack, extras aside, are a path. -/
theorem path_of_over (base : s.base = StateId.start) {entries : List Entry}
    (held : Stack.Over (fun e rest =>
      e.Settled (language handle) P (s.stateOver rest) (Stack.positionOver rest)) entries)
    (formed : ∀ {place t}, P place t → Formed handle input place t) :
    Path (s.stateOver entries) (wayOf s entries) := by
  induction entries with
  | nil =>
    rw [Stack.stateOver, base]
    exact .start
  | cons e rest ih =>
    obtain ⟨settled, held⟩ := held
    rw [wayOf, Stack.stateOver]
    split
    · rename_i extra
      rw [settled.extra_state extra]
      exact ih held
    · rename_i regular
      exact .move (ih held) (shift_of_settled settled (formed (settled.holds _ _ .here))
        (by simpa using regular))

/-- What moves started from is the state beneath the entries that they stand for. -/
theorem base_of_over {last : Way} {tail : List Entry}
    (held : Stack.Over (fun e rest =>
      e.Settled (language handle) P (s.stateOver rest) (Stack.positionOver rest)) (above ++ tail))
    (split : wayOf s (above ++ tail) = last ++ wayOf s tail) :
    base (s.stateOver (above ++ tail)) last = s.stateOver tail := by
  induction above generalizing last with
  | nil =>
    have none : last = [] := List.self_eq_append_left.mp split
    rw [none]
    rfl
  | cons e above ih =>
    obtain ⟨settled, held⟩ := held
    rw [List.cons_append, wayOf] at split
    rw [List.cons_append, Stack.stateOver]
    split at split
    · rename_i extra
      rw [settled.extra_state extra]
      exact ih held split
    · obtain ⟨deeper, split', -⟩ := wayOf_append s above tail
      rw [split', ← List.cons_append] at split
      obtain rfl := List.append_cancel_right split
      exact ih held split'

end Morpho

namespace Session

open Morpho

variable {handle : Nat} {input : Array UInt8} {P : Nat → Subtree → Prop} {s s' : Session}
  {symbol : Symbol} {r : Reduction} {above taken : List Entry} {under : Stack}

/-- A session that parses `input` as Morpho, and only holds formed subtrees. -/
structure Parses (handle : Nat) (input : Array UInt8) (P : Nat → Subtree → Prop) (s : Session) :
    Prop where
  ready : s.Ready P
  lang : s.lang = language handle
  input_eq : s.input = input
  formed : ∀ {place t}, P place t → Formed handle input place t

theorem Parses.over (parses : s.Parses handle input P) : Stack.Over (fun e rest =>
    e.Settled (language handle) P (s.stack.stateOver rest) (Stack.positionOver rest))
    s.stack.entries := by
  have := parses.ready.settled
  rw [parses.lang] at this
  exact this

theorem Parses.path (parses : s.Parses handle input P) :
    Path s.stack.topState (way s.stack) :=
  path_of_over parses.ready.base parses.over parses.formed

/-! ### Reductions -/

/-- What a reduction of `taken` finds: the moves `last` are the right-hand side of a rule, no more
than is counted, over a state with a goto to `target`. -/
structure Finds (s : Session) (r : Reduction) (taken : List Entry) (under : Stack) (last : Way)
    (target : StateId) : Prop where
  way_eq : way s.stack = last ++ wayOf s.stack under.entries
  length_eq : last.length = r.count
  base_eq : base s.stack.topState last = under.topState
  rule : (r.symbol, (structural (Stack.trees taken)).map (·.symbol)) ∈ rules
  count : (structural (Stack.trees taken)).length = r.count
  goto : cell under.topState r.symbol = some (.shift target)
  rank_lt : rank s.stack.topState (beneath (way s.stack)) < rank target under.topState

/-- Only nonterminals are reduced to. -/
theorem Finds.nonterminal {last : Way} {target : StateId} (finds : s.Finds r taken under last target) :
    tokenCount ≤ r.symbol.toNat ∧ r.symbol ≠ Symbol.error := by
  have known := rules_spec _ finds.rule
  refine ⟨known.1, fun error => ?_⟩
  have symbol_lt : r.symbol.toNat < symbols.length := known.2.1
  rw [error] at symbol_lt
  exact absurd symbol_lt (by decide)

theorem Parses.finds (parses : s.Parses handle input P)
    (action : cell s.stack.topState symbol = some (.reduce r))
    (reduces : s.Reduces r above taken under) : ∃ last target, s.Finds r taken under last target := by
  have held := parses.over
  have state := reduces.topState_eq parses.ready.settled
  obtain ⟨last, split, symbols⟩ := wayOf_append s.stack taken under.entries
  have whole : way s.stack = last ++ wayOf s.stack under.entries := by
    rw [way, reduces.split, wayOf_extras reduces.extras, split]
  obtain ⟨last', rest, target, split', count, rule, -, goto, more⟩ := parses.path.reduce action
  rw [whole] at split'
  have counted : last.length = (structural (Stack.trees taken)).length := by
    rw [← last.length_map (f := (·.1)), ← List.length_reverse, symbols, List.length_map]
  have exact : last.length = r.count := by
    have le := Stack.takeCount_le r.count (taken ++ under.entries)
    rw [← reduces.taken_eq, ← counted] at le
    refine Nat.le_antisymm le (Nat.not_lt.mp fun lt => ?_)
    have all := @Stack.takeCount_short r.count (taken ++ under.entries)
      (by rwa [← reduces.taken_eq, ← counted])
    rw [← reduces.taken_eq] at all
    have none : under.entries = [] := List.self_eq_append_right.mp all
    rw [none, wayOf, List.append_nil] at split'
    have := congrArg List.length split'
    rw [List.length_append] at this
    omega
  obtain ⟨rfl, -⟩ := List.append_inj split' (exact.trans count.symm)
  have bottom : base s.stack.topState last = under.topState := by
    rw [state, ← Stack.stateOver_entries reduces.base]
    rw [reduces.split] at held
    exact base_of_over held.beneath split
  rw [symbols] at rule
  rw [bottom] at goto more
  exact ⟨last, target, whole, exact, bottom, rule, counted.symm.trans exact, goto, more⟩

/-- After a reduction the goto is the last move. -/
theorem Parses.reduce_path (parses : s.Parses handle input P)
    (reduces : s.Reduces r above taken under) {last : Way} {target : StateId}
    (finds : s.Finds r taken under last target) :
    (s.reduce r).stack.topState = target
      ∧ way (s.reduce r).stack = (r.symbol, under.topState) :: wayOf s.stack under.entries := by
  obtain ⟨lifted, entries, -, extras⟩ := reduces.entries
  have base : (s.reduce r).stack.base = s.stack.base := by
    rw [reduces.eq]
    exact (Stack.pushAll_base _ _ _).trans reduces.base
  constructor
  · have next : s.lang.next under.topState r.symbol = target := by
      rw [parses.lang, Language.next, Morpho.action?_eq, finds.goto]
    rw [reduces.eq, reducedOver, next]
    exact Stack.topState_pushAll (Stack.topState_push ..) _ _
  · have regular : (s.reducedEntry r taken under).tree.extra = false := reducedNode_extra ..
    have symbol_eq : (s.reducedEntry r taken under).tree.symbol = r.symbol := reducedNode_symbol ..
    rw [way, entries, wayOf_extras extras, wayOf, regular, if_neg Bool.false_ne_true,
      wayOf_congr base, Stack.stateOver_congr base, Stack.stateOver_entries reduces.base, symbol_eq]

/-- The node that a reduction makes is formed. -/
theorem Parses.reduced (parses : s.Parses handle input P)
    (action : cell s.stack.topState symbol = some (.reduce r))
    (reduces : s.Reduces r above taken under) (place : Nat) :
    Formed handle input place (s.reducedNode r taken under) := by
  obtain ⟨last, target, finds⟩ := parses.finds action reduces
  refine .node ?_ (reducedNode_extra ..) (reducedNode_size ..) ⟨target, ?_⟩
  · rw [reducedNode_symbol, reducedNode_children]
    exact finds.rule
  · rw [reducedNode_parseState, reducedNode_symbol]
    exact finds.goto

/-! ### The cap on reductions -/

/-- There were no more reductions in a row than can have led to the two states on top. -/
def Capped (s : Session) : Prop := s.reductions ≤ rank s.stack.topState (beneath (way s.stack))

theorem capped_of_none (none : s.reductions = 0) : s.Capped := by
  rw [Capped, none]
  exact Nat.zero_le _

/-- What the table says is done. -/
theorem Capped.action?_eq (capped : s.Capped) (lang : s.lang = language handle) (q : StateId)
    (symbol : Symbol) : s.action? q symbol = cell q symbol := by
  have within : ¬ s.reductions > s.reductionLimit := by
    have few := Nat.le_trans capped (rank_le _ _)
    have states : s.lang.table.stateCount = 41 := by
      rw [lang]
      rfl
    rw [reductionLimit, states]
    omega
  rw [Session.action?, lang, Morpho.action?_eq]
  split
  · rename_i target found
    rw [if_neg (shift_spec found).1, found]
  · rename_i r found
    rw [if_neg within, found]
  · rename_i found
    rw [if_pos (accept_spec found).2, found]
  · rename_i found
    rw [found]

theorem Parses.reduce_capped (parses : s.Parses handle input P) (capped : s.Capped)
    (action : cell s.stack.topState symbol = some (.reduce r)) : (s.reduce r).Capped := by
  obtain ⟨above, taken, under, reduces⟩ := s.reduces r
  obtain ⟨last, target, finds⟩ := parses.finds action reduces
  obtain ⟨top, path⟩ := parses.reduce_path reduces finds
  have counted : (s.reduce r).reductions = s.reductions + 1 := rfl
  rw [Capped, top, path, counted]
  exact Nat.lt_of_le_of_lt capped finds.rank_lt

theorem Parses.insertIn_capped (parses : s.Parses handle input P) (capped : s.Capped)
    (builds : Builds s.lang s.input P) (stale : s.stack.Stale s.epoch) (symbol : Symbol)
    (steps : Nat) : (s.insertIn symbol steps).Capped := by
  induction steps generalizing s with
  | zero => exact capped
  | succ steps ih =>
    rw [insertIn]
    dsimp only
    split
    · rename_i r action
      have ready := parses.ready.reduce action fun above taken under reduces =>
        builds.inserted rfl rfl parses.ready action reduces (reduces.stale stale).1
      obtain ⟨above, taken, under, reduces⟩ := s.reduces r
      rw [parses.lang, Morpho.action?_eq] at action
      exact ih ⟨ready, parses.lang, parses.input_eq, parses.formed⟩
        (parses.reduce_capped capped action) builds (reduces.stale stale).2
    · exact capped_of_none rfl
    · exact capped
    · exact capped

theorem skipTokens_capped (s : Session) (state : StateId) (tokens : List Subtree) :
    (s.skipTokens state tokens).Capped := by
  unfold skipTokens
  split <;> exact capped_of_none rfl

theorem wrap_capped (s : Session) (force : Bool) (goes : (s.wrap force).1 = none) :
    (s.wrap force).2.Capped := by
  unfold wrap at goes ⊢
  dsimp only at goes ⊢
  split at goes
  · cases goes
  · rename_i calm
    rw [if_neg calm]
    split <;> exact capped_of_none rfl

theorem Parses.recovers_capped (parses : s.Parses handle input P) (capped : s.Capped)
    (builds : Builds s.lang s.input P) {lookahead : Subtree} {state : StateId}
    (recovers : s.Recovers P state lookahead none s') : s'.Capped := by
  generalize goes : (none : Option Subtree) = root at recovers
  cases recovers with
  | skip => exact skipTokens_capped ..
  | @insert s₁ symbol reading =>
    obtain ⟨ready, older⟩ := parses.ready.counted reading
    obtain ⟨⟨_, _, _, _, -, rfl⟩, -⟩ := reading
    have parses₁ : Parses handle input P _ :=
      ⟨ready, parses.lang, parses.input_eq, parses.formed⟩
    exact parses₁.insertIn_capped capped builds (Stack.stale_of_lt older) symbol _
  | pop => exact capped_of_none rfl
  | wrap => exact wrap_capped _ _ goes.symm

/-! ### Between rounds -/

/-- A parse of Morpho between rounds. -/
structure Running (handle : Nat) (input : Array UInt8) (P : Nat → Subtree → Prop) (s : Session) :
    Prop where
  good : s.Good P
  lang : s.lang = language handle
  input_eq : s.input = input
  formed : ∀ {place t}, P place t → Formed handle input place t
  capped : s.Capped

variable {token : Subtree} {next : Option Subtree}

theorem Running.parses (running : s.Running handle input P) : s.Parses handle input P :=
  ⟨running.good.ready, running.lang, running.input_eq, running.formed⟩

theorem Fetches.capped {state : StateId} (fetches : s.Fetches state next s') (capped : s.Capped) :
    s'.Capped := by
  cases next with
  | none =>
    cases fetches with
    | node => exact capped_of_none rfl
  | some token =>
    obtain ⟨_, _, _, _, _, rfl⟩ := fetches.frame_token
    exact capped

theorem Parses.acts_capped (parses : s.Parses handle input P) (capped : s.Capped)
    (builds : Builds s.lang s.input P) (next : s.Next P s.stack.topPosition.bytes token)
    {step : Step} (acts : s.Acts token step) :
    ∀ s', step = .moved s' ∨ step = .reduced s' → s'.Capped := by
  rintro s' (rfl | rfl)
  · cases acts with
    | shift => exact capped_of_none rfl
    | shiftExtra => exact capped_of_none rfl
    | recover action regular eq =>
      have recovers := s.recover_recovers s.stack.topState token parses.ready.makes
        parses.ready.remembers next
      rw [eq] at recovers
      exact parses.recovers_capped capped builds recovers
  · cases acts with
    | reduce action =>
      rw [capped.action?_eq parses.lang] at action
      exact parses.reduce_capped capped action

theorem Running.step_capped (running : s.Running handle input P) :
    ∀ s', s.step = .moved s' ∨ s.step = .reduced s' → s'.Capped := by
  have steps := s.step_steps
  generalize s.step = step at steps ⊢
  obtain ⟨good, lang, input_eq, formed, capped⟩ := running
  cases steps with
  | act lookahead acts =>
    obtain ⟨ready, next, -⟩ := good.act lookahead
    have parses : Parses handle input P _ := ⟨ready, lang, input_eq, formed⟩
    exact parses.acts_capped capped good.builds next acts
  | fetch lookahead fetches acts =>
    obtain ⟨ready, builds, next, -⟩ := good.fetch fetches
    have capped := fetches.capped capped
    obtain ⟨_, _, _, _, _, rfl⟩ := fetches.frame_token
    have parses : Parses handle input P _ := ⟨ready, lang, input_eq, formed⟩
    exact parses.acts_capped capped builds next acts
  | reuse lookahead fetches =>
    rintro s' (⟨⟨⟩⟩ | ⟨⟨⟩⟩)
    exact fetches.capped capped

theorem Running.step (running : s.Running handle input P) :
    ∀ s', s.step = .moved s' ∨ s.step = .reduced s' → s'.Running handle input P := by
  intro s' next
  obtain ⟨lang, input_eq, -⟩ := running.good.alike s' next
  exact ⟨running.good.step s' next, lang.trans running.lang, input_eq.trans running.input_eq,
    running.formed, running.step_capped s' next⟩

end Session

/-! ### Nodes -/

namespace Morpho

/-- The nodes of a parse are shaped if what else is wanted holds of them. -/
theorem shaped_reduced {C : Nat → Subtree → Prop} {s : Session} {taken above : List Entry}
    {under : Stack} (lang : s.lang = language handle) (input_eq : s.input = input)
    (ready : s.Ready (Shaped handle input C))
    (action : s.lang.action? s.stack.topState symbol = some (.reduce r))
    (reduces : s.Reduces r above taken under)
    (more : C under.topPosition.bytes (s.reducedNode r taken under)) :
    Shaped handle input C under.topPosition.bytes (s.reducedNode r taken under) := by
  rw [lang, action?_eq] at action
  have parses : s.Parses handle input _ := ⟨ready, lang, input_eq, (·.formed)⟩
  exact ⟨(Session.reducedNode_sums ..).sound _, parses.reduced action reduces _, more⟩

end Morpho

end Reparse
