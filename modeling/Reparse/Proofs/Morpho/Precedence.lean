import Reparse.Proofs.Morpho.Acceptance
import Reparse.Proofs.Morpho.Operands
import Reparse.Proofs.Parse.Growing

/-!
Operations of Morpho bind as the grammar has it, in texts with errors too.

A sum that lies open on the stack was completed before a token that is no `*`, and that token is still
the next one (`Session.Graded`). Whatever a recovery does instead leaves an error over the sum: the
node of what is skipped or given up, or a token that is missing, which in Morpho is always pushed once
it is chosen (`Session.Parses.inserted`). So a `*` that follows a sum makes a node with errors only,
and all other operations have the operands that they should (`Morpho.parse_binds`).
-/

namespace Reparse

open Subtree (structural Occurs OccursIn occurs_iff Everywhere)

namespace Morpho

variable {handle : Nat} {input : Array UInt8} {P : Nat → Subtree → Prop} {t : Subtree}
  {s s' : Stack} {above : List Entry} {run : List Subtree} {lang : Language} {q : StateId}
  {stamp : Stamp} {place : Nat}

/-! ### Pushing and taking off -/

theorem InOrder.under (order : InOrder s) (split : s.entries = above ++ s'.entries)
    (base : s'.base = s.base) : InOrder s' := by
  unfold InOrder at order
  rw [split] at order
  exact inOrder_of_over order.beneath base

theorem InOrder.pushExtra (order : InOrder s) (extra : t.extra = true) (binds : BindsAll t)
    (q : StateId) (epoch : Nat) : InOrder (s.push t q epoch) :=
  inOrder_of_over (s := s) ⟨ranked_of_extra extra binds, order⟩ rfl

/-- No sum lies open under an error. -/
theorem not_exposed_push (extra : t.extra = true) (error : t.hasError = true) (q : StateId)
    (epoch : Nat) : ¬ Exposed (s.push t q epoch).entries := by
  rw [Stack.push_entries, Exposed, if_pos extra, error]
  exact fun exposed => Bool.noConfusion exposed.1

/-- A token may be pushed unless it is a `*` and follows a sum that lies open. -/
theorem InOrder.pushLeaf (order : InOrder s) (leaf : t.children = [])
    (other : t.symbol ≠ binaryExpression)
    (times : t.symbol = star → t.hasError = false → ¬ Exposed s.entries) (q : StateId)
    (epoch : Nat) : InOrder (s.push t q epoch) := by
  have bare := unwrapped_of_leaf leaf
  refine inOrder_of_over (s := s) ⟨⟨bindsAll_of_leaf leaf, fun _ _ => ?_, fun _ _ => ?_,
    fun _ => times⟩, order⟩ rfl
  · exact bare.symm ▸ other
  · exact bare.symm ▸ not_isSum_of_leaf leaf

theorem not_exposed_pushLeaf (leaf : t.children = []) (regular : t.extra = false) (q : StateId)
    (epoch : Nat) : ¬ Exposed (s.push t q epoch).entries := by
  rw [Stack.push_entries, exposed_cons regular, unwrapped_of_leaf leaf]
  exact not_isSum_of_leaf leaf

theorem errorNode_hasError (stamp : Stamp) (lang : Language) (ts : List Subtree) (q : StateId) :
    (Subtree.errorNode stamp lang ts q).hasError = true :=
  decide_eq_true (Summary.ofChildren_errorCost_of_error ..)

/-- What skipping tokens leaves. -/
theorem InOrder.skipped (order : InOrder s) (lang : Language) (q : StateId) (stamp : Stamp)
    (leaves : ∀ t ∈ run, t.children = []) :
    InOrder (s.skipped lang q stamp run).2 ∧ BindsAll (s.skipped lang q stamp run).1
      ∧ (s.skipped lang q stamp run).1.hasError = true := by
  have tokens : ∀ t ∈ run, BindsAll t := fun t member => bindsAll_of_leaf (leaves t member)
  unfold Stack.skipped
  split
  next error extras epoch below popped =>
    obtain ⟨above, e, rest, split, rfl, rfl, -, rfl, base, -, isError, -, -⟩ :=
      Stack.popError_spec popped
    have all := order.bindsAll
    rw [split] at all
    obtain ⟨bindsAbove, bindsRest⟩ := List.forall_mem_append.mp all
    have bindsError := bindsRest e List.mem_cons_self
    have grown : (e.tree.append stamp (Stack.trees above ++ run)).isError = true :=
      (Summary.append_isError ..).trans isError
    refine ⟨order.under (split.trans (List.append_cons ..)) base,
      bindsAll_of_error grown (List.forall_mem_append.mpr ⟨fun c => bindsError.child,
        List.forall_mem_append.mpr ⟨Stack.forall_trees.mpr bindsAbove, tokens⟩⟩), ?_⟩
    exact decide_eq_true (Summary.append_errorCost_of_error isError _ _)
  next =>
    exact ⟨order, bindsAll_of_error (Subtree.errorNode_isError ..) tokens,
      errorNode_hasError ..⟩

theorem Lexed.symbol_ne (lexed : Lexed handle input place t) : t.symbol ≠ binaryExpression := by
  intro is
  have terminal := lexed.terminal
  rw [is] at terminal
  exact absurd terminal (by decide)

end Morpho

namespace Session

open Morpho

variable {handle : Nat} {input : Array UInt8} {P : Nat → Subtree → Prop} {s s' : Session}
  {symbol lookahead : Symbol} {token root : Subtree} {step : Step} {q : StateId} {k : Nat}

/-! ### Recovery -/

theorem skipTokens_inOrder (order : InOrder s.stack) {tokens : List Subtree}
    (some : tokens ≠ []) (leaves : ∀ t ∈ tokens, t.children = []) :
    InOrder (s.skipTokens q tokens).stack ∧ ¬ Exposed (s.skipTokens q tokens).stack.entries := by
  obtain ⟨epoch, stack⟩ := s.skipTokens_stack q tokens
  obtain ⟨below, binds, error⟩ := order.skipped s.lang q s.fresh leaves
  have extra := (s.stack.skipped_spec s.lang q s.fresh some).1
  rw [stack]
  exact ⟨below.pushExtra extra binds _ _, not_exposed_push extra error _ _⟩

theorem popInto_inOrder (order : InOrder s.stack) (cut : Cut) :
    InOrder (s.popInto cut).stack ∧ ¬ Exposed (s.popInto cut).stack.entries := by
  have split := (List.take_append_drop (s.stack.length - cut.remaining) s.stack.entries).symm
  have below : InOrder (s.stack.popTo cut.remaining).2 := order.under split rfl
  have binds : BindsAll (.errorNode s.fresh s.lang (s.stack.popTo cut.remaining).1 cut.state) :=
    bindsAll_of_error (Subtree.errorNode_isError ..) (Stack.forall_trees.mpr fun e member =>
      order.bindsAll e (List.mem_of_mem_take member))
  exact ⟨below.pushExtra rfl binds _ _, not_exposed_push rfl (errorNode_hasError ..) _ _⟩

/-- Wrapping leaves an error at most. -/
theorem wrap_inOrder (order : InOrder s.stack) (force : Bool) :
    (InOrder (s.wrap force).2.stack ∧ ¬ Exposed (s.wrap force).2.stack.entries)
      ∧ ∀ root, (s.wrap force).1 = some root → ∀ c ∈ root.children, BindsAll c := by
  obtain ⟨trees, entries, base⟩ := s.stack.popAll_spec
  have binds : ∀ c ∈ s.stack.popAll.1, BindsAll c := by
    rw [trees]
    exact Stack.forall_trees.mpr order.bindsAll
  have nothing : s.stack.entries = s.stack.entries ++ s.stack.popAll.2.entries := by
    rw [entries, List.append_nil]
  have bare : InOrder s.stack.popAll.2 := order.under nothing base
  have closed : ¬ Exposed s.stack.popAll.2.entries := by
    rw [entries]
    exact id
  unfold Session.wrap
  generalize s.stack.popAll = popped at binds bare closed ⊢
  obtain ⟨ts, stack⟩ := popped
  dsimp only at binds bare closed ⊢
  split
  · refine ⟨⟨bare, closed⟩, ?_⟩
    rintro _ ⟨⟩
    exact binds
  · split
    · exact ⟨⟨bare, closed⟩, nofun⟩
    · refine ⟨⟨bare.pushExtra rfl ?_ _ _, not_exposed_push rfl (errorNode_hasError ..) _ _⟩, nofun⟩
      exact bindsAll_of_error (Subtree.errorNode_isError ..) binds

/-- Reductions in a row keep the stack in order, and are counted. -/
theorem Parses.reducesTo_inOrder (parses : s.Parses handle input P) (capped : s.Capped)
    (builds : Builds s.lang s.input P) (stale : s.stack.Stale s.epoch) (order : InOrder s.stack)
    (reduces : ReducesTo symbol s' k s) :
    s'.Capped ∧ InOrder s'.stack ∧ s'.reductions = s.reductions + k := by
  induction reduces with
  | here => exact ⟨capped, order, rfl⟩
  | @reduce s r k action rest ih =>
    have ready := parses.ready.reduce action fun above taken under reduces =>
      builds.inserted rfl rfl parses.ready action reduces (reduces.stale stale).1
    obtain ⟨above, taken, under, reduces⟩ := s.reduces r
    rw [parses.lang, Morpho.action?_eq] at action
    obtain ⟨capped', order', counted⟩ :=
      ih ⟨ready, parses.lang, parses.input_eq, parses.formed⟩ (parses.reduce_capped capped action)
        builds (reduces.stale stale).2 (parses.reduce_inOrder action order).1
    have one : (s.reduce r).reductions = s.reductions + 1 := rfl
    exact ⟨capped', order', by omega⟩

/-- A missing token that is chosen is pushed, over a stack in order. -/
theorem Parses.inserted (parses : s.Parses handle input P) (capped : s.Capped)
    (builds : Builds s.lang s.input P) (stale : s.stack.Stale s.epoch) (order : InOrder s.stack)
    (chosen : s.missingToken? lookahead = some symbol) : ∃ (s' : Session) (target : StateId),
      s.insertMissing symbol = s'.pushMissing symbol target ∧ InOrder s'.stack := by
  obtain ⟨k, s', target, admits, -⟩ :=
    missingToken?_admits parses.ready.settled.extrasRepeat chosen
  obtain ⟨capped', order', counted⟩ :=
    parses.reducesTo_inOrder capped builds stale order admits.reduces
  refine ⟨s', target, ?_, order'⟩
  have few : s'.reductions ≤ 8 := Nat.le_trans capped' (rank_le _ _)
  have states : s.lang.table.stateCount = 41 := by
    rw [parses.lang]
    rfl
  have shifts := admits.shifts
  rw [← admits.reduces.lang_eq] at shifts
  obtain ⟨more, limit⟩ : ∃ more, s.reductionLimit = k + (more + 1) := by
    refine ⟨s.reductionLimit - k - 1, ?_⟩
    rw [reductionLimit, states]
    omega
  rw [insertMissing, limit, insertIn_reducesTo admits.reduces, insertIn_shift shifts]

theorem pushMissing_inOrder (order : InOrder s.stack) (terminal : symbol.toNat < tokenCount)
    (target : StateId) : InOrder (s.pushMissing symbol target).stack
      ∧ ¬ Exposed (s.pushMissing symbol target).stack.entries := by
  have costs : 0 < Cost.missing := by decide
  refine ⟨order.pushLeaf rfl (fun is => ?_) (fun _ clean => ?_) _ _,
    not_exposed_pushLeaf rfl rfl _ _⟩
  · have is : symbol = binaryExpression := is
    rw [is] at terminal
    exact absurd terminal (by decide)
  · exact absurd costs (of_decide_eq_false clean)

theorem Row.leaves {start : Nat} {tokens : List Subtree} (row : s.Row P start tokens) :
    ∀ t ∈ tokens, t.children = [] := by
  induction tokens generalizing start with
  | nil => nofun
  | cons t rest ih => exact List.forall_mem_cons.mpr ⟨row.1.leaf, ih row.2⟩

theorem Parses.recovers_inOrder (parses : s.Parses handle input P) (capped : s.Capped)
    (builds : Builds s.lang s.input P) (order : InOrder s.stack) {found : Option Subtree}
    (recovers : s.Recovers P q token found s') :
    (InOrder s'.stack ∧ ¬ Exposed s'.stack.entries)
      ∧ ∀ root, found = some root → ∀ c ∈ root.children, BindsAll c := by
  have kept {s₁ : Session} (reading : Reading s.countAttempt s₁) : InOrder s₁.stack := by
    rw [reading.stack_eq]
    exact order
  cases recovers with
  | skip reading _ row =>
    exact ⟨skipTokens_inOrder (kept reading) (List.cons_ne_nil _ _) row.leaves, nofun⟩
  | @insert s₁ symbol reading helps =>
    obtain ⟨ready, older⟩ := parses.ready.counted reading
    have terminal := (missingToken?_spec ready.table helps).1
    have order := kept reading
    obtain ⟨⟨_, _, _, _, -, rfl⟩, -⟩ := reading
    have parses₁ : Parses handle input P _ := ⟨ready, parses.lang, parses.input_eq, parses.formed⟩
    obtain ⟨s₂, target, inserted, order⟩ :=
      parses₁.inserted capped builds (Stack.stale_of_lt older) order helps
    rw [inserted]
    replace terminal : symbol.toNat < s.lang.table.tokenCount := terminal
    rw [parses.lang] at terminal
    exact ⟨pushMissing_inOrder order terminal target, nofun⟩
  | pop reading => exact ⟨popInto_inOrder (kept reading) _, nofun⟩
  | wrap reading => exact wrap_inOrder (kept reading) _

/-! ### Rounds -/

/-- A token that may follow a sum that lies open. -/
def Follows (token : Subtree) : Prop :=
  token.symbol ≠ Morpho.star ∧ ((language 0).traits token.symbol).extra = false

/-- A parse from scratch between rounds, with its stack in order. Under a sum that lies open the next
token is known. -/
structure Graded (s : Session) : Prop where
  scratch : s.reuse.pending = []
  order : InOrder s.stack
  faces : Exposed s.stack.entries → ∃ token, s.lookahead = some token ∧ Follows token

/-- A round leaves the stack in order, or a root that binds as it should. -/
inductive Grades : Step → Prop
  | moved {s' : Session} (graded : s'.Graded) : Grades (.moved s')
  | reduced {s' : Session} (graded : s'.Graded) : Grades (.reduced s')
  | done {root : Subtree} {last : Session} (binds : ∀ c ∈ root.children, BindsAll c) :
      Grades (.done root last)

theorem accept_bindsAll (order : InOrder s.stack) : ∀ c ∈ s.accept.1.children, BindsAll c := by
  have all := order.bindsAll
  have made := s.accept_as
  generalize s.accept.1 = root at made
  cases made with
  | extras => exact Stack.forall_trees.mpr all
  | @alone e entries =>
    exact fun c => (all e (by rw [entries]; exact List.mem_cons_self)).child
  | @opened above below e split =>
    rw [split] at all
    obtain ⟨bindsAbove, bindsRest⟩ := List.forall_mem_append.mp all
    obtain ⟨bindsTop, bindsBelow⟩ := List.forall_mem_cons.mp bindsRest
    exact List.forall_mem_append.mpr ⟨List.forall_mem_append.mpr
      ⟨Stack.forall_trees.mpr bindsBelow, fun c => bindsTop.child⟩, Stack.forall_trees.mpr bindsAbove⟩

/-- Whatever happens to the next token, the stack stays in order, and a root binds as it should. -/
theorem Parses.acts_graded (parses : s.Parses handle input P) (capped : s.Capped)
    (builds : Builds s.lang s.input P) (scratch : s.reuse.pending = []) (order : InOrder s.stack)
    (follows : Exposed s.stack.entries → Follows token)
    (next : s.Next P s.stack.topPosition.bytes token) (acts : s.Acts token step) :
    Grades step := by
  have lexed := lexed_of_next next parses.formed
  have leaf (q : StateId) (extra : Bool) : (token.placed s.fresh q extra).children = [] := by
    rw [Subtree.placed_children, next.leaf]
  have recovered {found : Option Subtree} {s' : Session}
      (eq : s.recover s.stack.topState token = (found, s')) :=
    parses.recovers_inOrder capped builds order (eq ▸ s.recover_recovers s.stack.topState token
      parses.ready.makes parses.ready.remembers next)
  have still (s' : Session) (goes : step = .moved s' ∨ step = .reduced s') :
      s'.reuse.pending = [] := by
    rw [(parses.ready.acts_frame next acts s' goes).2, scratch]
  cases acts with
  | @shift target action =>
    refine .moved ⟨still _ (.inl rfl), order.pushLeaf (leaf _ _) ?_ ?_ _ _, fun exposed => ?_⟩
    · rw [Subtree.placed_symbol]
      exact lexed.symbol_ne
    · rw [Subtree.placed_symbol]
      exact fun times _ exposed => (follows exposed).1 times
    · exact absurd exposed (not_exposed_pushLeaf (leaf _ _) (Subtree.placed_extra ..) _ _)
  | @reduce r action =>
    rw [capped.action?_eq parses.lang] at action
    obtain ⟨order, exposes⟩ := parses.reduce_inOrder action order
    refine .reduced ⟨still _ (.inr rfl), order, fun exposed => ⟨token, rfl, ?_, structural_of_cell action⟩⟩
    rcases exposes exposed with before | sum
    · exact (follows before).1
    · rintro times
      rw [sum, times, sum_star] at action
      cases action
  | accept => exact .done (accept_bindsAll order)
  | shiftExtra action extra =>
    refine .moved ⟨still _ (.inl rfl), order.pushExtra (Subtree.placed_extra ..)
      (bindsAll_of_leaf (leaf _ _)) _ _, fun exposed => ?_⟩
    rw [shift_stack, Stack.push_entries, Exposed, if_pos (Subtree.placed_extra ..)] at exposed
    have structural := (follows exposed.2).2
    have extra := extra.2
    rw [parses.lang] at extra
    exact absurd (structural.symm.trans extra) Bool.false_ne_true
  | recover action regular eq =>
    obtain ⟨⟨order, closed⟩, -⟩ := recovered eq
    exact .moved ⟨still _ (.inl rfl), order, fun exposed => absurd exposed closed⟩
  | fail action regular eq => exact .done ((recovered eq).2 _ rfl)

theorem Running.step_graded (running : s.Running handle input P) (graded : s.Graded) :
    Grades s.step := by
  have steps := s.step_steps
  generalize s.step = step at steps ⊢
  obtain ⟨good, lang, input_eq, formed, capped⟩ := running
  obtain ⟨scratch, order, faces⟩ := graded
  cases steps with
  | @act token _ lookahead acts =>
    obtain ⟨ready, next, -⟩ := good.act lookahead
    have parses : Parses handle input P _ := ⟨ready, lang, input_eq, formed⟩
    refine parses.acts_graded capped good.builds scratch order (fun exposed => ?_) next acts
    obtain ⟨token', is, follows⟩ := faces exposed
    obtain rfl : token = token' := Option.some.inj (lookahead.symm.trans is)
    exact follows
  | fetch lookahead fetches acts =>
    obtain ⟨ready, builds, next, -⟩ := good.fetch fetches
    have capped := fetches.capped capped
    have scratch := (fetches.scratch scratch).1
    obtain ⟨_, _, _, _, _, rfl⟩ := fetches.frame_token
    have parses : Parses handle input P _ := ⟨ready, lang, input_eq, formed⟩
    refine parses.acts_graded capped builds scratch order (fun exposed => ?_) next acts
    obtain ⟨token', is, -⟩ := faces exposed
    rw [lookahead] at is
    cases is
  | reuse lookahead fetches => exact absurd rfl (fetches.scratch scratch).2

theorem Running.ends_bindsAll (running : s.Running handle input P) (graded : s.Graded)
    (ends : Ends root s' s) : ∀ c ∈ root.children, BindsAll c := by
  induction ends with
  | done step =>
    have grades := running.step_graded graded
    rw [step] at grades
    cases grades with
    | done binds => exact binds
  | reduced step _ ih =>
    have grades := running.step_graded graded
    rw [step] at grades
    cases grades with
    | reduced graded => exact ih (running.step _ (.inr step)) graded
  | moved step _ ih =>
    have grades := running.step_graded graded
    rw [step] at grades
    cases grades with
    | moved graded => exact ih (running.step _ (.inl step)) graded

end Session

/-! ### The tree -/

namespace Morpho

variable {handle : Nat} {input : Array UInt8} {t root : Subtree} {place : Nat}

/-- An operation has an operator between two operands. -/
theorem Formed.operation (formed : Formed handle input place t) (is : t.symbol = binaryExpression) :
    ∃ left op right, structural t.children = [left, op, right]
      ∧ (op.symbol = plus ∨ op.symbol = star) := by
  have rule := formed.rule (by rw [is]; decide) (by rw [is]; decide)
  rw [is] at rule
  obtain ⟨_, parts, operator⟩ := operation_rule rule
  obtain ⟨left, op, right, children, -, rfl, -⟩ := triple_of_symbols parts
  exact ⟨left, op, right, children, operator⟩

/-- No hidden node is left around an operand. -/
theorem unwrapped_symbol_ne (formed : Everywhere (Formed handle input) place t) :
    (unwrapped t).symbol ≠ expression := by
  induction t using unwrapped.induct generalizing place with
  | case1 t c only is ih =>
    rw [unwrapped_of_expression is only]
    have member : c ∈ t.children :=
      List.mem_of_mem_filter (by rw [← structural, only]; exact List.mem_singleton_self c)
    obtain ⟨y, down⟩ := Subtree.occurs_of_mem member
    exact ih (formed.of_occurs down)
  | case2 t c only other =>
    rw [unwrapped_of_ne other]
    exact other
  | case3 t many =>
    intro is
    by_cases own : t.symbol = expression
    · have rule := (formed t 0 .here).rule (by rw [own]; decide) (by rw [own]; decide)
      rw [own] at rule
      have one := expression_rule rule
      rw [List.length_map] at one
      obtain ⟨c, only⟩ := List.length_eq_one_iff.mp one
      exact many c only
    · rw [unwrapped_of_ne own] at is
      exact own is

/-- The root of a parse is an error or the whole file. -/
theorem rooted_symbol (rooted : Session.Rooted (language handle) input P root)
    (formed : ∀ {place t}, P place t → Formed handle input place t) :
    root.isError = true ∨ root.symbol = sourceFile := by
  rcases rooted.origin with failed | ⟨s, lang, input_eq, ready, accepts, rfl⟩
  · exact .inl failed.isError
  · rw [action?_eq] at accepts
    have parses : s.Parses handle input P := ⟨ready, lang, input_eq, formed⟩
    obtain ⟨above, e, below, -, -, -, -, whole, is⟩ := parses.accepted accepts
    exact .inr (by rw [is, Session.acceptedRoot_symbol, whole])

/-- In the tree of any text, with errors or without, an operation that has no errors in it binds as the
grammar has it. The right operand of a `*` is no operation, that of a `+` no sum, and the left
operand of a `*` is no sum either, without the hidden nodes around operands. -/
theorem parse_binds (handle : Nat) (options : Options) (input : Array UInt8) (fresh : Stamp) :
    ∃ t, ((language handle).parse options input none fresh).tree = some t
      ∧ ∀ u x, Occurs u t.root x → u.symbol = binaryExpression → u.hasError = false →
        ∃ left op right, structural u.children = [left, op, right]
          ∧ (op.symbol = plus ∨ op.symbol = star)
          ∧ (unwrapped left).symbol ≠ expression ∧ (unwrapped right).symbol ≠ expression
          ∧ (op.symbol = star →
              (unwrapped right).symbol ≠ binaryExpression ∧ ¬ IsSum (unwrapped left))
          ∧ (op.symbol = plus → ¬ IsSum (unwrapped right)) := by
  obtain ⟨t, parsed⟩ : ∃ t, ((language handle).parse options input none fresh).tree = some t :=
    parse_isSome options input fresh nofun
  obtain ⟨-, last, ends⟩ := Language.parse_ends parsed
  have running := start_running handle options input fresh
  have binds := running.ends_bindsAll ⟨rfl, trivial, False.elim⟩ ends
  have rooted := running.good.ends ends
  refine ⟨t, parsed, fun u x inside is clean => ?_⟩
  have below : OccursIn u t.root.children x := by
    refine (occurs_iff.mp inside).resolve_left ?_
    rintro ⟨rfl, -⟩
    rcases rooted_symbol rooted (·.formed) with error | whole
    · rw [beq_iff_eq.mp error] at is
      cases is
    · rw [whole] at is
      cases is
  obtain ⟨before, c, after, y, children, -, inC⟩ := below.split
  obtain ⟨place, formed⟩ : ∃ place, Everywhere (Formed handle input) place u := by
    have holds := rooted.holds (language_firm handle)
    rw [children] at holds
    exact ⟨_, (holds.of_split.of_occurs inC).mono fun _ _ shaped => shaped.formed⟩
  obtain ⟨left, op, right, parts, operator⟩ := (formed u 0 .here).operation is
  have operand {c : Subtree} (member : c ∈ structural u.children) :
      (unwrapped c).symbol ≠ expression := by
    obtain ⟨y, down⟩ := Subtree.occurs_of_mem (List.mem_of_mem_filter member)
    exact unwrapped_symbol_ne (formed.of_occurs down)
  rw [parts] at operand
  have own : Binds u := binds c (by simp [children]) u y inC
  exact ⟨left, op, right, parts, operator, operand (by simp), operand (by simp),
    own is clean left op right parts⟩

end Morpho

end Reparse
