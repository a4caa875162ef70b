import Reparse.Proofs.Morpho.Acceptance
import Reparse.Proofs.Parse.Lockstep

/-!
Parses of Morpho from scratch.

A parse that goes along no old tree reads every token off the text (`Session.Scratch`), so what
comes of it depends on nothing that tells agreeing sessions apart: two of them join (`Same.joins`).
A parse along an old tree takes the same step as one from scratch that it agrees with, unless it
takes over a whole node (`Same.step`).
-/

namespace Reparse

open Subtree (total structural Everywhere EverywhereIn)

namespace Session

open Morpho

variable {handle : Nat} {input : Array UInt8} {P : Nat → Subtree → Prop} {s s' : Session}
  {t t' : Subtree}

/-! ### Rounds -/

theorem Running.few (running : s.Running handle input P) : s.Few := by
  have few := Nat.le_trans running.capped (rank_le _ _)
  have states : s.lang.table.stateCount = 41 := by
    rw [running.lang]
    rfl
  rw [Few, states]
  omega

theorem Running.remembers (running : s.Running handle input P) : s.Remembers :=
  running.good.ready.remembers

theorem step_of_lookahead (here : s.lookahead = some t) :
    s.step = { s with lookahead := none }.act s.stack.topState t := by
  rw [step, here]

/-- A session without a token at hand takes over a node, or it goes on like one that has the next
token at hand. -/
theorem Running.fetch (running : s.Running handle input P) (bare : s.lookahead = none) :
    (∃ s₁, s.Fetches s.stack.topState none s₁ ∧ s.step = .moved s₁)
      ∨ ∃ (t : Subtree) (n : Session), s.Fetches s.stack.topState (some t) { n with lookahead := none }
        ∧ n.Running handle input P ∧ n.lookahead = some t ∧ n.step = s.step
        ∧ Lexed handle input s.stack.topPosition.bytes t := by
  have fetches := s.nextLookahead_fetches s.stack.topState
  generalize answers : s.nextLookahead s.stack.topState = answer at fetches
  obtain ⟨next, s₁⟩ := answer
  cases next with
  | none =>
    have step : s.step = .moved s₁ := by simp only [Session.step, bare, answers]
    exact .inl ⟨s₁, fetches, step⟩
  | some t =>
    have step : s.step = s₁.act s.stack.topState t := by simp only [Session.step, bare, answers]
    obtain ⟨ready, builds, next, noted⟩ := running.good.fetch fetches
    have capped := fetches.capped running.capped
    have frame := fetches.frame_token
    have stack := fetches.stack_eq
    have there := fetches.lookahead_eq.trans bare
    have lexed := lexed_of_next next running.formed
    rw [stack] at lexed
    have same : { s₁ with lookahead := none } = s₁ := by rw [← there]
    refine .inr ⟨t, { s₁ with lookahead := some t }, ?_, ⟨⟨⟨ready.table, ready.makes, ready.base,
      ready.settled, ready.dated, ready.stale, ready.inside, ready.remembers, ready.ahead⟩, builds,
      ?_⟩, ?_, ?_, running.formed, capped⟩, rfl, ?_, lexed⟩
    · exact same.symm ▸ fetches
    · rintro _ ⟨⟩
      exact ⟨next.congr rfl, noted⟩
    · obtain ⟨_, _, _, _, _, rfl⟩ := frame
      exact running.lang
    · obtain ⟨_, _, _, _, _, rfl⟩ := frame
      exact running.input_eq
    · rw [step_of_lookahead rfl, step]
      change { s₁ with lookahead := none }.act s₁.stack.topState t = s₁.act s.stack.topState t
      rw [same, stack]

/-! ### Parses from scratch -/

/-- A parse of Morpho between rounds that goes along no old tree. -/
structure Scratch (handle : Nat) (input : Array UInt8) (s : Session) : Prop where
  running : s.Running handle input (Shaped handle input Anything)
  alone : s.reuse.pending = []

theorem Scratch.step (scratch : s.Scratch handle input) :
    ∀ s', s.step = .moved s' ∨ s.step = .reduced s' → s'.Scratch handle input := by
  intro s' goes
  refine ⟨scratch.running.step s' goes, ?_⟩
  have steps := s.step_steps
  generalize s.step = step at steps goes
  obtain ⟨running, alone⟩ := scratch
  cases steps with
  | act lookahead acts =>
    obtain ⟨ready, next, -⟩ := running.good.act lookahead
    rw [(ready.acts_frame next acts s' goes).2]
    exact alone
  | fetch lookahead fetches acts =>
    obtain ⟨ready, -, next, -⟩ := running.good.fetch fetches
    rw [(ready.acts_frame next acts s' goes).2]
    exact (fetches.scratch alone).1
  | reuse lookahead fetches => exact absurd rfl (fetches.scratch alone).2

/-- From scratch a token comes next. -/
theorem Scratch.fetch (scratch : s.Scratch handle input) (bare : s.lookahead = none) :
    ∃ (t : Subtree) (n : Session), s.Fetches s.stack.topState (some t) { n with lookahead := none }
      ∧ n.Scratch handle input ∧ n.lookahead = some t ∧ n.step = s.step
      ∧ Lexed handle input s.stack.topPosition.bytes t := by
  obtain ⟨s₁, fetches, -⟩ | ⟨t, n, fetches, running, lookahead, step, lexed⟩ :=
    scratch.running.fetch bare
  · exact absurd rfl (fetches.scratch scratch.alone).2
  · exact ⟨t, n, fetches, ⟨running, (fetches.scratch scratch.alone).1⟩, lookahead, step, lexed⟩

/-- Agreeing sessions with a token at hand act alike. -/
theorem Same.step_of_lookahead {P' : Nat → Subtree → Prop} {input' : Array UInt8}
    (same : Same s s') (running : s.Running handle input P)
    (running' : s'.Running handle input' P') (here : s.lookahead = some t) :
    Step.Goes Same s.step s'.step := by
  have lookahead := same.lookahead
  rw [here, Option.map_some, eq_comm, Option.map_eq_some_iff] at lookahead
  obtain ⟨t', here', tokens⟩ := lookahead
  rw [Session.step_of_lookahead here, Session.step_of_lookahead here', ← same.topState]
  have taken : Same { s with lookahead := none } { s' with lookahead := none } :=
    ⟨same.alike, same.stack, rfl, same.failedAt, same.attempts⟩
  exact taken.act running.few running'.few running.remembers running'.remembers _ tokens.symm

/-- A parse takes over a node, or it takes the same step as one from scratch that it agrees
with. -/
theorem Same.step (same : Same s s') (running : s.Running handle input P)
    (scratch : s'.Scratch handle input) :
    (s.lookahead = none ∧ ∃ s₁, s.Fetches s.stack.topState none s₁ ∧ s.step = .moved s₁)
      ∨ Step.Goes Same s.step s'.step := by
  cases here : s.lookahead with
  | some t => exact .inr (same.step_of_lookahead running scratch.running here)
  | none =>
    refine (running.fetch here).imp (⟨rfl, ·⟩) ?_
    rintro ⟨t, n, fetches, running₁, lookahead, step, lexed⟩
    have bare := same.lookahead
    rw [here, Option.map_none, eq_comm, Option.map_eq_none_iff] at bare
    obtain ⟨t', n', fetches', scratch', lookahead', step', lexed'⟩ := scratch.fetch bare
    rw [← same.topPosition] at lexed'
    have fetched := (fetches.same.symm.trans same).trans fetches'.same
    have same₁ : Same n n' := ⟨fetched.alike, fetched.stack, by
      rw [lookahead, lookahead', Option.map_some, Option.map_some, lexed.plain_eq lexed'],
      fetched.failedAt, fetched.attempts⟩
    rw [← step, ← step']
    exact same₁.step_of_lookahead running₁ scratch'.running lookahead

/-- Parses from scratch that agree come to the same roots. -/
theorem Same.joins (same : Same s s') (scratch : s.Scratch handle input)
    (scratch' : s'.Scratch handle input) : Joins s s' := by
  have comes {s s' : Session} (same : Same s s') (scratch : s.Scratch handle input)
      (scratch' : s'.Scratch handle input) {root : Subtree} (comes : s.Comes root) :
      s'.Comes root := by
    obtain ⟨found, last, ends, rfl⟩ := comes
    refine ends.comes (R := fun s s' => Same s s' ∧ s.Scratch handle input
      ∧ s'.Scratch handle input) ?_ ⟨same, scratch, scratch'⟩
    rintro s s' ⟨same, scratch, scratch'⟩
    refine .inl (((same.step scratch.running scratch').resolve_left ?_).with ?_)
    · rintro ⟨-, s₁, fetches, -⟩
      exact absurd rfl (fetches.scratch scratch.alone).2
    · exact fun _ _ goes goes' same => ⟨same, scratch.step _ goes, scratch'.step _ goes'⟩
  exact fun _ => ⟨comes same scratch scratch', comes same.symm scratch' scratch⟩

end Session

end Reparse
