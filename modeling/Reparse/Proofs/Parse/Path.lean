import Reparse.Proofs.Parse.Termination

/-!
The parse stack spells a path of the table.

In every state that a parse reaches, from scratch or along an old tree, the entries of the stack lie
side by side, extras repeat the state beneath them, and every other entry was pushed where its
subtree says and leads to where the table goes from there (`Stack.Follows`). Simulated reductions,
cuts and the reuse of nodes by their state all rest on this (`Language.stack_follows`).
-/

namespace Reparse

open Subtree (total)

/-! ### Paths -/

/-- An entry that follows the state `under` on top of the entries `below`. -/
structure Entry.Follows (lang : Language) (under : StateId) (below : List Entry) (e : Entry) :
    Prop where
  position_eq : e.position = ((Stack.trees (e :: below)).map (·.size)).sum
  extra_state : e.tree.extra = true → e.state = under
  next_state : e.tree.extra = false → e.state = lang.next under e.tree.symbol
  parseState_eq : e.tree.extra = false → e.tree.info.parseState = under
  state_lt : e.state.toNat < lang.table.stateCount

/-- The base state is one of the table, and every entry follows the state beneath it. -/
structure Stack.Follows (lang : Language) (s : Stack) : Prop where
  base_lt : s.base.toNat < lang.table.stateCount
  entries : Over (fun e below => e.Follows lang (s.stateOver below) below) s.entries

namespace Stack

variable {lang : Language} {s : Stack} {P : Nat → Subtree → Prop} {entries : List Entry}

/-- The state on top of settled entries is one of the table. -/
theorem stateOver_lt (sound : lang.table.Sound) (base : s.base.toNat < lang.table.stateCount)
    (settled : Over (fun e below => e.Settled lang P (s.stateOver below) (positionOver below))
      entries) : (s.stateOver entries).toNat < lang.table.stateCount := by
  induction entries with
  | nil => exact base
  | cons e below ih =>
    change e.state.toNat < _
    cases extra : e.tree.extra with
    | true =>
      rw [settled.1.extra_state extra]
      exact ih settled.2
    | false =>
      rw [settled.1.next_state extra]
      exact Language.next_lt sound _ _

theorem Settled.follows (settled : s.Settled lang P) (sound : lang.table.Sound)
    (base : s.base.toNat < lang.table.stateCount) : s.Follows lang := by
  refine ⟨base, ?_⟩
  unfold Settled at settled
  generalize s.entries = entries at settled
  induction entries with
  | nil => trivial
  | cons e below ih =>
    have positioned : Positioned (e :: below) := settled.mono fun _ _ entry => entry.position_eq
    refine ⟨?_, ih settled.2⟩
    exact
      { position_eq := positioned.eq_total
        extra_state := settled.1.extra_state
        next_state := settled.1.next_state
        parseState_eq := settled.1.parseState_eq
        state_lt := stateOver_lt sound base settled }

end Stack

/-! ### States of a parse -/

namespace Session

variable {s s' : Session} {P : Nat → Subtree → Prop} {token root : Subtree}

/-- The states that a parse comes through, round by round, and the one in which it has its root. -/
inductive Reaches (s' : Session) : Session → Prop
  | here : Reaches s' s'
  | moved {s s₁ : Session} (step : s.step = .moved s₁) (rest : Reaches s' s₁) : Reaches s' s
  | reduced {s s₁ : Session} (step : s.step = .reduced s₁) (rest : Reaches s' s₁) : Reaches s' s
  | done {s : Session} {root : Subtree} (step : s.step = .done root s') : Reaches s' s

/-- The state after a number of rounds, if the parse does not end before. -/
def after (s : Session) : (rounds : Nat) → Option Session
  | 0 => some s
  | rounds + 1 =>
    match s.step with
    | .moved next | .reduced next => next.after rounds
    | .done _ _ => none

theorem reaches_of_after {rounds : Nat} (later : s.after rounds = some s') : Reaches s' s := by
  induction rounds generalizing s with
  | zero =>
    cases later
    exact .here
  | succ rounds ih =>
    rw [after] at later
    split at later
    next step => exact .moved step (ih later)
    next step => exact .reduced step (ih later)
    next => cases later

/-- The state in which a parse has its root is one that it reaches. -/
theorem Ends.reaches (ends : Ends root s' s) : Reaches s' s := by
  induction ends with
  | done step => exact .done step
  | reduced step _ ih => exact .reduced step ih
  | moved step _ ih => exact .moved step ih

/-- A stack whose entries are gone is settled. -/
theorem wrap_settled {lang : Language} {force : Bool} (wraps : (s.wrap force).1 = some root) :
    (s.wrap force).2.stack.Settled lang P ∧ (s.wrap force).2.stack.base = s.stack.base := by
  obtain ⟨-, entries, base⟩ := s.stack.popAll_spec
  unfold wrap at wraps ⊢
  dsimp only at wraps ⊢
  split at wraps
  · rename_i ends
    rw [if_pos ends]
    refine ⟨?_, base⟩
    change Stack.Over _ s.stack.popAll.2.entries
    rw [entries]
    trivial
  · split at wraps <;> cases wraps

/-- What a parse leaves on the stack when it has its root is settled too. -/
theorem Ready.acts_last (ready : s.Ready P)
    (next : s.Next P s.stack.topPosition.bytes token) (acts : s.Acts token (.done root s')) :
    s'.stack.Settled s.lang P ∧ s'.stack.base = s.stack.base ∧ s'.lang = s.lang := by
  cases acts with
  | accept action =>
    have same : s.accept.2.stack = s.stack ∧ s.accept.2.lang = s.lang := by
      unfold Session.accept
      dsimp only
      split
      · exact ⟨rfl, rfl⟩
      · split <;> exact ⟨rfl, rfl⟩
    rw [same.1, same.2]
    exact ⟨ready.settled, rfl, rfl⟩
  | fail action regular eq =>
    have recovers := s.recover_recovers s.stack.topState token ready.makes ready.remembers next
    rw [eq] at recovers
    generalize answer : some root = answered at recovers
    cases recovers with
    | skip => cases answer
    | insert => cases answer
    | pop => cases answer
    | @wrap s₁ reading atEnd =>
      obtain ⟨settled, base⟩ := @wrap_settled s₁ P root s.lang _ answer.symm
      refine ⟨settled, base.trans (congrArg (·.base) reading.stack_eq), ?_⟩
      obtain ⟨_, _, _, _, eq⟩ := wrap_restacks s₁ (decide (s₁.options.maxAttempts + 1 < s₁.attempts))
      exact (congrArg Session.lang eq).trans reading.lang_eq

theorem Good.last (good : s.Good P) (step : s.step = .done root s') :
    s'.stack.Settled s.lang P ∧ s'.stack.base = s.stack.base ∧ s'.lang = s.lang := by
  have steps := s.step_steps
  rw [step] at steps
  cases steps with
  | act lookahead acts =>
    obtain ⟨ready, next, -⟩ := good.act lookahead
    exact ready.acts_last next acts
  | @fetch token s₁ _ lookahead fetches acts =>
    obtain ⟨ready, -, next, -⟩ := good.fetch fetches
    have last := ready.acts_last next acts
    obtain ⟨_, _, _, _, _, rfl⟩ := fetches.frame_token
    exact last

/-- In every state that a parse comes through the stack is settled. -/
theorem Good.reaches (good : s.Good P) (reaches : Reaches s' s) :
    s'.stack.Settled s'.lang P ∧ s'.stack.base = StateId.start ∧ s'.lang = s.lang := by
  induction reaches with
  | here => exact ⟨good.ready.settled, good.ready.base, rfl⟩
  | @moved s s₁ step rest ih =>
    obtain ⟨settled, base, lang⟩ := ih (good.step s₁ (.inl step))
    exact ⟨settled, base, lang.trans (good.alike s₁ (.inl step)).1⟩
  | @reduced s s₁ step rest ih =>
    obtain ⟨settled, base, lang⟩ := ih (good.step s₁ (.inr step))
    exact ⟨settled, base, lang.trans (good.alike s₁ (.inr step)).1⟩
  | done step =>
    obtain ⟨settled, base, lang⟩ := good.last step
    rw [lang]
    exact ⟨settled, base.trans good.ready.base, rfl⟩

end Session

/-! ### Parses -/

end Reparse
