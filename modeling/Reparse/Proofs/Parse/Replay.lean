import Reparse.Proofs.Parse.Steady

/-!
Nodes that are parsed again.

In a steady language a node that a parse made without a recovery stands for a stretch of it: wherever
the text agrees as far as the node depends on it, and the parser is in the state that the node was
made in, a parse that goes along no old tree and has no recovery before it comes past the node, with
fewer rounds left to the same root (`Language.Replays`). For tokens this is a single round
(`Subtree.Lexed.replays`). For a node it is a run over its children and the extras after them up to
the token that brought its reduction about. That token was read before the reduction and the extras
lie on the node, but the state after the node reads them as they were read (`Stretch.replays`).
-/

namespace Reparse

open Subtree (total structural)

namespace Session

variable {lang : Language} {input : Array UInt8} {s s' s₁ s₂ : Session} {t root : Subtree}
  {ts ts' : List Subtree} {k m : Nat}

/-! ### Rounds that move on -/

/-- A number of rounds, none of them a recovery, each of which moves on. -/
inductive Moves (s' : Session) : Nat → Session → Prop
  | done : Moves s' 0 s'
  | moved {s s₁ : Session} {rounds : Nat} (calm : s.Calm) (step : s.step = .moved s₁)
      (rest : Moves s' rounds s₁) : Moves s' (rounds + 1) s

theorem Moves.clears (moves : Moves s' m s) (clears : s'.Clears root k) :
    s.Clears root (k + m) := by
  induction moves with
  | done => exact clears
  | moved calm step rest ih => exact .moved calm step ih

/-- What clears a root does so in as many rounds less after some of them. -/
theorem Moves.rest (moves : Moves s' m s) (clears : s.Clears root k) :
    ∃ j, k = j + m ∧ s'.Clears root j := by
  induction moves generalizing k with
  | done => exact ⟨k, rfl, clears⟩
  | moved calm step rest ih =>
    cases clears with
    | done _ is =>
      rw [step] at is
      cases is
    | reduced _ is =>
      rw [step] at is
      cases is
    | moved _ is clears =>
      rw [step] at is
      cases is
      obtain ⟨j, is, clears⟩ := ih clears
      exact ⟨j, congrArg Nat.succ is, clears⟩

/-! ### Passing subtrees -/

/-- The parse `s` is at `s'` when it has the subtrees `ts` behind it and no token at hand. -/
structure Passes (lang : Language) (input : Array UInt8) (s : Session) (ts : List Subtree)
    (s' : Session) : Prop where
  unaided : s'.Unaided lang input
  bare : s'.lookahead = none
  options_eq : s'.options = s.options
  failedAt_eq : s'.failedAt = s.failedAt
  attempts_eq : s'.attempts = s.attempts
  reductions_le : s'.reductions ≤ s.reductions
  stack : s'.stack.plain = (s.stack.follow lang ts).plain

theorem Passes.refl (unaided : s.Unaided lang input) (bare : s.lookahead = none) :
    s.Passes lang input [] s :=
  ⟨unaided, bare, rfl, rfl, rfl, Nat.le_refl _, rfl⟩

theorem Passes.trans (passes : s.Passes lang input ts s₁) (passes' : s₁.Passes lang input ts' s₂) :
    s.Passes lang input (ts ++ ts') s₂ where
  unaided := passes'.unaided
  bare := passes'.bare
  options_eq := passes'.options_eq.trans passes.options_eq
  failedAt_eq := passes'.failedAt_eq.trans passes.failedAt_eq
  attempts_eq := passes'.attempts_eq.trans passes.attempts_eq
  reductions_le := passes'.reductions_le.trans passes.reductions_le
  stack := by
    rw [Stack.follow_append]
    exact passes'.stack.trans (Stack.follow_same passes.stack)

theorem Passes.topState (passes : s.Passes lang input ts s') :
    s'.stack.topState = ts.foldl lang.after s.stack.topState := by
  rw [Stack.topState_same passes.stack, Stack.follow_topState]

theorem Passes.place (passes : s.Passes lang input ts s') :
    s'.stack.topPosition.bytes = s.stack.topPosition.bytes + (total ts).bytes := by
  rw [Stack.topPosition_same passes.stack, Stack.follow_topPosition, Extent.add_bytes]

/-- Sessions that pass the same subtrees agree. -/
theorem Passes.same (passes : s.Passes lang input ts s₁) (passes' : s.Passes lang input ts' s₂)
    (stack : s₁.stack.plain = s₂.stack.plain) : Same s₁ s₂ where
  alike := ⟨passes'.unaided.lang_eq.trans passes.unaided.lang_eq.symm,
    passes'.unaided.input_eq.trans passes.unaided.input_eq.symm,
    passes'.options_eq.trans passes.options_eq.symm⟩
  stack := stack
  lookahead := by rw [passes.bare, passes'.bare]
  failedAt := passes.failedAt_eq.trans passes'.failedAt_eq.symm
  attempts := passes.attempts_eq.trans passes'.attempts_eq.symm

/-- A token that is an extra, or that the table shifts, is passed in a round. -/
theorem Unaided.pass (unaided : s.Unaided lang input) (steady : lang.Steady)
    (lexed : t.Lexed lang input (lang.lexMode s.stack.topState) s.stack.topPosition.bytes)
    (action : t.extra = true ∨ t.symbol ≠ Symbol.stop
      ∧ ∃ target, lang.action? s.stack.topState t.symbol = some (.shift target)) :
    ∃ s', s.Calm ∧ s.step = .moved s' ∧ s.Passes lang input [t] s' := by
  obtain ⟨t', n, takes⟩ := unaided.takes
  have tokens := takes.lexed.plain_eq lexed
  have symbol := Subtree.symbol_of_plain tokens
  have extra := Subtree.extra_of_plain tokens
  have lang_eq := takes.unaided.lang_eq
  have traits := takes.lexed.extra_eq
  rw [takes.topState] at action
  have acts : n.Knows n.stack.topState t' ∧ n.act n.stack.topState t'
      = .moved (n.shift n.stack.topState (lang.after n.stack.topState t') t' t'.extra) := by
    rcases action with isExtra | ⟨going, target, shift⟩
    · rw [← extra] at isExtra
      have regular := takes.lexed.regular isExtra
      rw [isExtra] at traits
      have none : n.action? n.stack.topState t'.symbol = none := by
        rw [Session.action?, lang_eq, steady.extras_free traits.symm]
      refine ⟨.inr ⟨regular, lang_eq ▸ traits.symm⟩, ?_⟩
      rw [Session.act, none, Language.after, isExtra, regular, lang_eq, ← traits]
      rfl
    · rw [← symbol] at going shift
      have found : n.action? n.stack.topState t'.symbol = some (.shift target) := by
        rw [Session.action?, lang_eq, shift]
        exact if_neg going
      have regular : t'.extra = false := by
        by_contra isExtra
        rw [Bool.not_eq_false, traits] at isExtra
        rw [steady.extras_free isExtra] at shift
        cases shift
      refine ⟨.inl (found ▸ rfl), ?_⟩
      rw [Session.act, found, Language.after, regular, Language.next, shift]
      rfl
  have calm := takes.calm acts.1
  have step := takes.step.trans acts.2
  refine ⟨_, calm, step, unaided.step steady calm _ (.inl step), takes.bare, takes.same.alike.2.2,
    takes.same.failedAt.symm, takes.same.attempts.symm, Nat.zero_le _, ?_⟩
  have after : lang.after n.stack.topState t' = lang.after s.stack.topState t := by
    rw [Language.after, Language.after, extra, symbol, takes.topState]
  rw [after]
  exact Stack.push_same takes.same.stack.symm ((Subtree.placed_same rfl _ _).trans tokens) ..

/-! ### Reading again -/

theorem Clears.calm (clears : s.Clears root k) : s.Calm := by
  cases clears with
  | done calm | reduced calm | moved calm => exact calm

theorem Clears.after_reduced (clears : s.Clears root k) (step : s.step = .reduced s') :
    ∃ j, k = j + 1 ∧ s'.Clears root j := by
  cases clears with
  | done _ is =>
    rw [step] at is
    cases is
  | reduced _ is rest =>
    rw [step] at is
    cases is
    exact ⟨_, rfl, rest⟩
  | moved _ is =>
    rw [step] at is
    cases is

/-- A round that is no recovery reduces if the table says so. -/
theorem Takes.reduces {n : Session} {r : Reduction} (takes : s.Takes lang input t n)
    (steady : lang.Steady) (calm : s.Calm)
    (action : lang.action? s.stack.topState t.symbol = some (.reduce r)) :
    s.step = .reduced { n.reduce r with lookahead := some t } := by
  have lang_eq := takes.unaided.lang_eq
  rw [takes.topState] at action
  have found : n.action? n.stack.topState t.symbol = some (.reduce r) := by
    rcases takes.knows calm with some | ⟨-, extra⟩
    · rw [Session.action?, lang_eq, action] at some ⊢
      dsimp only at some ⊢
      split at some
      · cases some
      next few => exact if_neg few
    · rw [lang_eq] at extra
      rw [steady.extras_free extra] at action
      cases action
  rw [takes.step, Session.act, found]

/-- A session has the token that it has read at hand again. -/
theorem Takes.holds {n : Session} (takes : s.Takes lang input t n) :
    { n with lookahead := some t }.Unaided lang input where
  good := by
    obtain ⟨ready, builds, -⟩ := takes.unaided.good
    refine ⟨⟨ready.table, ready.makes, ready.base, ready.settled, ready.dated, ready.stale,
      ready.inside, ready.remembers, ready.ahead⟩, builds, ?_⟩
    rintro t' ⟨⟩
    exact ⟨takes.next.congr rfl, takes.noted⟩
  lang_eq := takes.unaided.lang_eq
  input_eq := takes.unaided.input_eq
  alone := takes.unaided.alone
  hand := by
    rintro t' ⟨⟩
    have lexed := takes.lexed
    rw [takes.same.topState, takes.same.topPosition] at lexed
    exact lexed

/-- What a session clears that has read the next token, one clears that has yet to read it. -/
theorem Clears.unread {n : Session} (clears : n.Clears root k) (steady : lang.Steady)
    (unaided : n.Unaided lang input) (there : n.lookahead = some t)
    (unaided' : s.Unaided lang input) (same : Same { n with lookahead := none } s)
    (fewer : s.reductions ≤ n.reductions) :
    ∃ root', s.Clears root' k ∧ root'.plain = root.plain := by
  obtain ⟨t', n', takes⟩ := unaided'.takes
  have bare : s.lookahead = none := by
    have none := same.lookahead
    rwa [Option.map_none, eq_comm, Option.map_eq_none_iff] at none
  have lexed := unaided.hand t there
  have topState : n.stack.topState = s.stack.topState := same.topState
  have topPosition : n.stack.topPosition = s.stack.topPosition := same.topPosition
  rw [topState, topPosition] at lexed
  have tokens := lexed.plain_eq takes.lexed
  have taken : Same { s with lookahead := none } n' := takes.same
  have agrees : Same n { n' with lookahead := some t' } :=
    ⟨⟨taken.alike.1.trans same.alike.1, taken.alike.2.1.trans same.alike.2.1,
        taken.alike.2.2.trans same.alike.2.2⟩, same.stack.trans taken.stack,
      by rw [there, Option.map_some, tokens]; rfl, same.failedAt.trans taken.failedAt,
      same.attempts.trans taken.attempts⟩
  obtain ⟨root', held, plain⟩ := clears.same steady unaided takes.holds agrees
    (takes.reductions_eq.trans_le fewer)
  refine ⟨root', held.of_take ?_ takes.topState, plain⟩
  rw [takes.take, take_of_lookahead rfl, ← takes.bare]

/-- A parse may as well have no extras on top and no token at hand. -/
theorem Unaided.lower (unaided : s.Unaided lang input) :
    { s with stack := s.stack.popExtras.2, lookahead := none, reductions := 0 }.Unaided lang
      input :=
  ⟨.of_ready unaided.good.ready.lower unaided.good.builds rfl, unaided.lang_eq, unaided.input_eq,
    unaided.alone, nofun⟩

end Session

variable {lang : Language} {input input' : Array UInt8} {place place' stop rounds : Nat}
  {q : StateId} {mode : LexMode} {s n : Session} {r : Reduction} {t token root : Subtree}
  {ts children extras : List Subtree}

/-! ### Replays -/

namespace Language

/-- Wherever a text agrees as far as `t` depends on it, a parse along no old tree that has no
recovery before it comes past `t` in state `q`, with fewer rounds left. -/
def Replays (lang : Language) (input : Array UInt8) (place : Nat) (q : StateId) (t : Subtree) :
    Prop :=
  ∀ ⦃input' : Array UInt8⦄ ⦃place' : Nat⦄ ⦃s : Session⦄ ⦃root : Subtree⦄ ⦃rounds : Nat⦄,
    Agree input input' place place' t.window → s.Unaided lang input' → s.lookahead = none →
    s.stack.topState = q → s.stack.topPosition.bytes = place' → s.Clears root rounds →
    ∃ s' root' fewer, s.Passes lang input' [t] s' ∧ s'.Clears root' fewer ∧ fewer < rounds
      ∧ root'.plain = root.plain

theorem Replays.agree (replays : lang.Replays input place q t)
    (agree : Agree input input' place place' t.window) : lang.Replays input' place' q t :=
  fun _ _ _ _ _ agree' => replays (agree.trans agree')

end Language

/-- A token that was read in a state is passed again, if it is an extra or shifted there. -/
theorem Subtree.Lexed.replays (lexed : t.Lexed lang input (lang.lexMode q) place)
    (steady : lang.Steady) (action : t.extra = true ∨ t.symbol ≠ Symbol.stop
      ∧ ∃ target, lang.action? q t.symbol = some (.shift target)) :
    lang.Replays input place q t := by
  rintro input' place' s root rounds agree unaided bare rfl rfl clears
  obtain ⟨s', calm, step, passes⟩ :=
    unaided.pass steady (lexed.agree steady.unscanned agree) action
  obtain ⟨fewer, rfl, rest⟩ := (Session.Moves.moved calm step .done).rest clears
  exact ⟨s', root, fewer, passes, rest, Nat.lt_succ_self _, rfl⟩

/-! ### Rows -/

namespace Language

/-- Subtrees side by side, each of which is replayed in the state after those before it and depends
on nothing from `stop` on. -/
def ReplaysRow (lang : Language) (input : Array UInt8) (stop : Nat) :
    (place : Nat) → StateId → List Subtree → Prop
  | _, _, [] => True
  | place, q, t :: rest => place + t.window ≤ stop ∧ lang.Replays input place q t
    ∧ ReplaysRow lang input stop (place + t.size.bytes) (lang.after q t) rest

theorem replaysRow_append {a b : List Subtree} :
    lang.ReplaysRow input stop place q (a ++ b) ↔ lang.ReplaysRow input stop place q a
      ∧ lang.ReplaysRow input stop (place + (total a).bytes) (a.foldl lang.after q) b := by
  induction a generalizing place q with
  | nil => simp [ReplaysRow]
  | cons t a ih =>
    rw [List.cons_append, ReplaysRow, ReplaysRow, ih, and_assoc, and_assoc, Subtree.total_cons,
      Extent.add_bytes, Nat.add_assoc]
    rfl

/-- A parse comes past all of a row. -/
theorem ReplaysRow.passes (row : lang.ReplaysRow input stop place q ts)
    (agree : Agree input input' place place' (stop - place)) (unaided : s.Unaided lang input')
    (bare : s.lookahead = none) (state : s.stack.topState = q)
    (at_place : s.stack.topPosition.bytes = place') (clears : s.Clears root rounds) :
    ∃ s' root' fewer, s.Passes lang input' ts s' ∧ s'.Clears root' fewer ∧ fewer ≤ rounds
      ∧ root'.plain = root.plain := by
  induction ts generalizing place place' q s root rounds with
  | nil => exact ⟨s, root, rounds, .refl unaided bare, clears, Nat.le_refl _, rfl⟩
  | cons t rest ih =>
    obtain ⟨window, replays, row⟩ := row
    obtain ⟨s₁, root₁, fewer₁, passes₁, clears₁, less, plain₁⟩ :=
      replays (agree.mono (by omega)) unaided bare state at_place clears
    have size : t.size.bytes ≤ t.window := Nat.le_add_right _ _
    obtain ⟨s₂, root₂, fewer₂, passes₂, clears₂, le, plain₂⟩ := ih row (agree.within (by omega))
      passes₁.unaided passes₁.bare (passes₁.topState.trans (by rw [state]; rfl))
      (by
        rw [passes₁.place, at_place, Subtree.total_cons, Subtree.total_nil, add_zero])
      clears₁
    exact ⟨s₂, root₂, fewer₂, passes₁.trans passes₂, clears₂, by omega, plain₂.trans plain₁⟩

/-- Extras side by side that are read in a mode and depend on nothing from `stop` on. -/
def ExtrasRow (lang : Language) (input : Array UInt8) (mode : LexMode) (stop : Nat) :
    (place : Nat) → List Subtree → Prop
  | _, [] => True
  | place, t :: rest => place + t.window ≤ stop ∧ t.extra = true ∧ t.Lexed lang input mode place
    ∧ ExtrasRow lang input mode stop (place + t.size.bytes) rest

/-- They are passed in every state of that mode, each in a round. -/
theorem ExtrasRow.passes (row : lang.ExtrasRow input mode stop place ts) (steady : lang.Steady)
    (agree : Agree input input' place place' (stop - place)) (unaided : s.Unaided lang input')
    (bare : s.lookahead = none) (state : lang.lexMode s.stack.topState = mode)
    (at_place : s.stack.topPosition.bytes = place') :
    ∃ s', s'.Moves ts.length s ∧ s.Passes lang input' ts s' := by
  induction ts generalizing place place' s with
  | nil => exact ⟨s, .done, .refl unaided bare⟩
  | cons t rest ih =>
    obtain ⟨window, extra, lexed, row⟩ := row
    have lexed := lexed.agree steady.unscanned (agree.mono (by omega))
    rw [← state, ← at_place] at lexed
    obtain ⟨s₁, calm, step, passes₁⟩ := unaided.pass steady lexed (.inl extra)
    have size : t.size.bytes ≤ t.window := Nat.le_add_right _ _
    have stays : lang.after s.stack.topState t = s.stack.topState := if_pos extra
    obtain ⟨s₂, moves, passes₂⟩ := ih row (agree.within (by omega)) passes₁.unaided passes₁.bare
      (by
        rw [passes₁.topState, List.foldl_cons, List.foldl_nil, stays, state])
      (by
        rw [passes₁.place, at_place, Subtree.total_cons, Subtree.total_nil, add_zero])
    exact ⟨s₂, .moved calm step moves, passes₁.trans passes₂⟩

/-! ### Stretches -/

/-- A stretch of a parse that a reduction makes a node of: the subtrees it takes in state `q`, the
extras after them and the token before which they are reduced. None of this depends on the text
from `stop` on, and the state after the node reads tokens as the state before the reduction. -/
structure Stretch (lang : Language) (input : Array UInt8) (place : Nat) (q : StateId)
    (r : Reduction) (children extras : List Subtree) (token : Subtree) (stop : Nat) : Prop where
  row : lang.ReplaysRow input stop place q children
  lifted : lang.ExtrasRow input (lang.lexMode (children.foldl lang.after q)) stop
    (place + (total children).bytes) extras
  lexed : token.Lexed lang input (lang.lexMode (children.foldl lang.after q))
    (place + (total children).bytes + (total extras).bytes)
  within : place + (total children).bytes + (total extras).bytes + token.window ≤ stop
  action : lang.action? (children.foldl lang.after q) token.symbol = some (.reduce r)
  level : lang.lexMode (lang.next q r.symbol) = lang.lexMode (children.foldl lang.after q)
  parts : r.Matches children extras

/-- A stretch is parsed again, and the node made of it is the same. -/
theorem Stretch.replays (stretch : lang.Stretch input place q r children extras token stop)
    (steady : lang.Steady) (makes : r.Makes lang children t) (window : stop ≤ place + t.window) :
    lang.Replays input place q t := by
  rintro input' place' s root rounds agree unaided bare rfl rfl clears
  have within := stretch.within
  have extrasOnly := stretch.parts.allExtra
  obtain ⟨s₁, root₁, fewer, passes₁, clears₁, le, plain₁⟩ :=
    stretch.row.passes (agree.mono (by omega)) unaided bare rfl rfl clears
  have later : Agree input input' (place + (total children).bytes)
      (s.stack.topPosition.bytes + (total children).bytes)
      (stop - (place + (total children).bytes)) := agree.within (by omega)
  obtain ⟨s₂, moves, passes₂⟩ := stretch.lifted.passes steady later passes₁.unaided passes₁.bare
    (by rw [passes₁.topState]) passes₁.place
  obtain ⟨k, rfl, clears₂⟩ := moves.rest clears₁
  -- The token after the extras is there, and brings the reduction about.
  have state₂ : s₂.stack.topState = children.foldl lang.after s.stack.topState := by
    rw [passes₂.topState, ← Stack.follow_topState, Stack.follow_extras extrasOnly,
      Stack.topState_pushAll rfl, passes₁.topState]
  have place₂ := passes₂.place
  rw [passes₁.place] at place₂
  have lexed := stretch.lexed.agree steady.unscanned (later.within (by omega))
  rw [← state₂, ← place₂] at lexed
  obtain ⟨t', n, takes⟩ := passes₂.unaided.takes
  have action := stretch.action
  rw [← state₂, ← Subtree.symbol_of_plain (takes.lexed.plain_eq lexed)] at action
  have step := takes.reduces steady clears₂.calm action
  obtain ⟨j, rfl, clears₃⟩ := clears₂.after_reduced step
  have unaided₃ := passes₂.unaided.step steady clears₂.calm _ (.inr step)
  -- The extras come off the node again, so that the stack is as if it had been taken over.
  have passed := passes₁.trans passes₂
  have stack := takes.same.stack.symm.trans passed.stack
  rw [Stack.follow_append] at stack
  have reduced : (n.reduce r).stack.plain
      = ((s.stack.follow lang [t]).follow lang extras).plain :=
    stretch.parts.reduce_stack makes takes.unaided.lang_eq stack
  have regular : ∀ e ∈ (s.stack.follow lang [t]).entries.head?, e.tree.extra = false := by
    rintro e ⟨⟩
    exact makes.regular
  have lowered : (n.reduce r).stack.popExtras.2.plain = (s.stack.follow lang [t]).plain := by
    rw [(Stack.popExtras_same reduced).2, Stack.follow_extras extrasOnly,
      Stack.popExtras_pushAll extrasOnly regular]
  have low : s.Passes lang input' [t] { n.reduce r with
      stack := (n.reduce r).stack.popExtras.2, lookahead := none, reductions := 0 } :=
    ⟨unaided₃.lower, rfl, takes.same.alike.2.2.trans passed.options_eq,
      takes.same.failedAt.symm.trans passed.failedAt_eq,
      takes.same.attempts.symm.trans passed.attempts_eq, Nat.zero_le _, lowered⟩
  -- There they are read again, and so is the token.
  obtain ⟨l, moves', passes'⟩ := stretch.lifted.passes steady later low.unaided low.bare
    (by rw [low.topState, ← stretch.level, ← makes.after]; rfl)
    (by rw [low.place, Subtree.total_cons, Subtree.total_nil, add_zero, makes.size_eq])
  have same : Session.Same { n.reduce r with lookahead := none } l :=
    ⟨⟨passes'.unaided.lang_eq.trans low.unaided.lang_eq.symm,
        passes'.unaided.input_eq.trans low.unaided.input_eq.symm, passes'.options_eq⟩,
      reduced.trans ((Stack.follow_same lowered).symm.trans passes'.stack.symm),
      congrArg (Option.map Subtree.plain) passes'.bare.symm, passes'.failedAt_eq.symm,
      passes'.attempts_eq.symm⟩
  obtain ⟨root', clears', plain'⟩ := clears₃.unread steady unaided₃ rfl passes'.unaided same
    (passes'.reductions_le.trans (Nat.zero_le _))
  exact ⟨_, root', _, low, moves'.clears clears', by omega, plain'.trans plain₁⟩

end Language

end Reparse
