import Reparse.Proofs.Tree.History

/-!
Parses that never fail.

A parse tells when no action fits the next token (`Event.failed`), and nothing that was told is
lost (`Session.Keeps`). So where it never told so, each of its rounds did what the table says or
pushed an extra (`Session.Calm`), up to its root (`Language.clears_of_smooth`).
-/

namespace Reparse

/-- An action was found for every token. -/
def Parse.Smooth (p : Parse) : Prop := ∀ state lookahead, Event.failed state lookahead ∉ p.events

/-- The event tells that no action was found. -/
def Event.fails : Event → Bool
  | .failed .. => true
  | _ => false

theorem Parse.smooth_iff {p : Parse} : p.Smooth ↔ p.events.all (!·.fails) = true := by
  rw [List.all_eq_true]
  refine ⟨fun smooth e told => ?_, fun calm state lookahead told => ?_⟩
  · cases e with
    | failed state lookahead => exact absurd told (smooth state lookahead)
    | _ => rfl
  · cases calm _ told

instance (p : Parse) : Decidable p.Smooth := decidable_of_iff _ Parse.smooth_iff.symm

namespace Session

variable {s s' s₁ : Session} {token root : Subtree} {state : StateId}

/-! ### What was told -/

/-- Whatever `s` told, `s'` told. -/
structure Keeps (s s' : Session) : Prop where
  told : ∀ e ∈ s.events, e ∈ s'.events

theorem Keeps.of_eq (events : s'.events = s.events) : Keeps s s' :=
  ⟨fun _ told => events ▸ told⟩

theorem Keeps.refl (s : Session) : Keeps s s := .of_eq rfl

theorem Keeps.trans (keeps : Keeps s s₁) (keeps' : Keeps s₁ s') : Keeps s s' :=
  ⟨fun e told => keeps'.told e (keeps.told e told)⟩

/-- One more thing is told. -/
theorem Keeps.of_push {event : Event} (events : s'.events = s.events.push event) : Keeps s s' :=
  ⟨fun _ told => events ▸ Array.mem_push_of_mem event told⟩

theorem Keeps.emit (s : Session) (event : Event) : Keeps s (s.emit event) := .of_push rfl

theorem mem_emit (s : Session) (event : Event) : event ∈ (s.emit event).events :=
  Array.mem_push_self

theorem Keeps.tokenAt (s : Session) (mode : LexMode) (offset : Nat) :
    Keeps s (s.tokenAt mode offset).2 := by
  have lexed : Keeps s (s.lexToken mode offset).2 :=
    ⟨fun _ told => Array.mem_append.mpr (.inl told)⟩
  unfold Session.tokenAt
  split
  · split
    · exact .refl s
    · exact lexed
  · exact lexed

theorem Keeps.readLeaf (s : Session) (state : StateId) (mode : LexMode) (offset : Nat) :
    Keeps s (s.readLeaf state mode offset).2 :=
  ((Keeps.tokenAt s mode offset).trans (.emit _ _)).trans (.of_eq rfl)

theorem Keeps.nextLookahead (s : Session) (state : StateId) :
    Keeps s (s.nextLookahead state).2 := by
  have fetches := s.nextLookahead_fetches state
  generalize (s.nextLookahead state).1 = next at fetches
  generalize (s.nextLookahead state).2 = s' at fetches
  cases fetches with
  | node | token => exact .of_push rfl
  | @lexed leaf reuse s'' found read =>
    have keeps := Keeps.readLeaf { s with reuse } state (s.lang.lexMode state)
      s.stack.topPosition.bytes
    rw [read] at keeps
    exact ⟨keeps.told⟩

theorem Keeps.shift (s : Session) (state target : StateId) (t : Subtree) (extra : Bool) :
    Keeps s (s.shift state target t extra) :=
  .of_push rfl

theorem Keeps.reduce (s : Session) (r : Reduction) : Keeps s (s.reduce r) :=
  .of_push rfl

theorem Keeps.accept (s : Session) : Keeps s s.accept.2 := by
  unfold Session.accept
  dsimp only
  split
  · exact .of_push rfl
  · split <;> exact .of_push rfl

/-! ### What recovery tells -/

theorem Keeps.skipFrom (q : StateId) (tokens : Nat) (s : Session) (position : Extent)
    (skipped : List Subtree) (trees : Nat) (extras : List Subtree) :
    Keeps s (s.skipFrom q tokens position skipped trees extras).2 := by
  induction tokens generalizing s position skipped trees extras with
  | zero => exact .refl s
  | succ tokens ih =>
    have read := Keeps.tokenAt s (s.lang.lexMode q) position.bytes
    unfold Session.skipFrom
    dsimp only
    generalize s.tokenAt (s.lang.lexMode q) position.bytes = answer at read ⊢
    obtain ⟨token, s₁⟩ := answer
    have keeps (t : Subtree) :
        Keeps s ((s₁.leafFor token q (s.lang.lexMode q)).2.note position.bytes t) :=
      read.trans (.of_eq rfl)
    split
    · exact keeps _
    · split
      · exact keeps _
      · split
        · exact (keeps _).trans (ih ..)
        · split
          · exact keeps _
          · exact (keeps _).trans (ih ..)

theorem Keeps.candidate (s : Session) (q : StateId) (lookahead : Subtree) :
    Keeps s (s.candidate q lookahead).2 := by
  unfold Session.candidate
  dsimp only
  split
  · exact .refl s
  · unfold Session.skipCandidate
    exact .skipFrom ..

theorem Keeps.skipTokens (s : Session) (q : StateId) (tokens : List Subtree) :
    Keeps s (s.skipTokens q tokens) := by
  unfold Session.skipTokens
  split <;> exact .of_eq rfl

theorem Keeps.insertIn (symbol : Symbol) (steps : Nat) (s : Session) :
    Keeps s (s.insertIn symbol steps) := by
  induction steps generalizing s with
  | zero => exact .refl s
  | succ steps ih =>
    unfold Session.insertIn
    dsimp only
    split
    · exact (Keeps.reduce s _).trans (ih _)
    · exact .of_eq rfl
    · exact .refl s
    · exact .refl s

theorem Keeps.carryOut (s : Session) (q : StateId) (cost : Nat) (way : Recovery) :
    Keeps s (s.carryOut q cost way) := by
  cases way with
  | skip => exact (Keeps.emit s _).trans (.skipTokens ..)
  | insert => exact (Keeps.emit s _).trans (.insertIn ..)
  | pop => exact (Keeps.emit s _).trans (.of_eq rfl)

theorem Keeps.wrap (s : Session) (force : Bool) : Keeps s (s.wrap force).2 := by
  unfold Session.wrap
  dsimp only
  split
  · exact .of_push rfl
  · split <;> exact .of_push rfl

/-- Recovery tells first of all that no action was found. -/
theorem Keeps.recover (s : Session) (q : StateId) (lookahead : Subtree) :
    Keeps (s.emit (.failed q lookahead.symbol)) (s.recover q lookahead).2 := by
  have counted : Keeps (s.emit (.failed q lookahead.symbol))
      (s.countAttempt.emit (.failed q lookahead.symbol)) := .of_eq rfl
  refine counted.trans ?_
  unfold Session.recover
  dsimp only
  generalize s.countAttempt.emit (.failed q lookahead.symbol) = s₁
  split
  · split
    · exact (Keeps.emit s₁ _).trans (.wrap ..)
    · exact (Keeps.emit s₁ _).trans (.skipTokens ..)
  · have keeps := Keeps.candidate s₁ q lookahead
    generalize s₁.candidate q lookahead = answer at keeps ⊢
    obtain ⟨way, s₂⟩ := answer
    cases way with
    | some way => exact (keeps.trans (.emit s₂ _)).trans (.carryOut ..)
    | none =>
      dsimp only
      split
      · exact keeps.trans (.wrap ..)
      · exact keeps.trans (.skipTokens ..)

/-! ### Rounds -/

/-- The next token, with the session that has taken it; no token if a whole node of the old tree was
pushed instead. -/
def take (s : Session) : Option Subtree × Session :=
  match s.lookahead with
  | some token => (some token, { s with lookahead := none })
  | none => s.nextLookahead s.stack.topState

theorem take_of_lookahead (here : s.lookahead = some token) :
    s.take = (some token, { s with lookahead := none }) := by
  rw [take, here]

theorem take_of_bare (bare : s.lookahead = none) : s.take = s.nextLookahead s.stack.topState := by
  rw [take, bare]

theorem Keeps.take (s : Session) : Keeps s s.take.2 := by
  cases here : s.lookahead with
  | some token =>
    rw [take_of_lookahead here]
    exact .of_eq rfl
  | none =>
    rw [take_of_bare here]
    exact .nextLookahead s _

/-- A round acts on the token that was taken. -/
theorem step_of_take (takes : s.take = (some token, s')) :
    s.step = s'.act s.stack.topState token := by
  unfold take at takes
  unfold step
  cases here : s.lookahead with
  | some _ =>
    rw [here] at takes
    cases takes
    rfl
  | none =>
    rw [here] at takes
    dsimp only at takes ⊢
    rw [takes]

theorem step_of_take_none (takes : s.take = (none, s')) : s.step = .moved s' := by
  unfold take at takes
  unfold step
  cases here : s.lookahead with
  | some _ =>
    rw [here] at takes
    cases takes
  | none =>
    rw [here] at takes
    dsimp only at takes ⊢
    rw [takes]

/-- The table says what to do with the token, or it is an extra. -/
def Knows (s : Session) (q : StateId) (token : Subtree) : Prop :=
  (s.action? q token.symbol).isSome
    ∨ token.isError = false ∧ (s.lang.traits token.symbol).extra = true

/-- The next round is no recovery. -/
def Calm (s : Session) : Prop :=
  ∀ token s', s.take = (some token, s') → s'.Knows s.stack.topState token

end Session

/-- The session that a round leaves. -/
def Step.last : Step → Session
  | .reduced s | .moved s | .done _ s => s

namespace Session

variable {s s' s₁ : Session} {token root : Subtree} {state : StateId}

/-- Acting on a token tells so if no action was found. -/
theorem Keeps.act (s : Session) (q : StateId) (token : Subtree) :
    Keeps s (s.act q token).last
      ∧ (¬ s.Knows q token → .failed q token.symbol ∈ (s.act q token).last.events) := by
  unfold Session.act Knows
  cases s.action? q token.symbol with
  | some action =>
    refine ⟨?_, fun unknown => absurd (.inl rfl) unknown⟩
    cases action with
    | shift target => exact .shift ..
    | reduce r => exact ⟨(Keeps.reduce s r).told⟩
    | accept => exact .accept s
  | none =>
    dsimp only
    split
    next extra =>
      simp only [Bool.and_eq_true, Bool.not_eq_true'] at extra
      exact ⟨.shift .., fun unknown => absurd (.inr extra) unknown⟩
    next =>
      have keeps := Keeps.recover s q token
      generalize s.recover q token = answer at keeps ⊢
      obtain ⟨root, s₁⟩ := answer
      cases root <;> exact ⟨(Keeps.emit s _).trans keeps, fun _ => keeps.told _ (mem_emit s _)⟩

theorem Keeps.step (s : Session) : Keeps s s.step.last
    ∧ (¬ s.Calm → ∃ q lookahead, .failed q lookahead ∈ s.step.last.events) := by
  have keeps := Keeps.take s
  generalize takes : s.take = answer at keeps
  obtain ⟨next, s'⟩ := answer
  cases next with
  | none =>
    rw [step_of_take_none takes]
    refine ⟨keeps, fun wild => absurd ?_ wild⟩
    rintro token s₁ is
    rw [takes] at is
    cases is
  | some token =>
    obtain ⟨kept, told⟩ := Keeps.act s' s.stack.topState token
    rw [step_of_take takes]
    refine ⟨keeps.trans kept, fun wild => ⟨_, _, told fun knows => wild ?_⟩⟩
    rintro token s₁ is
    rw [takes] at is
    cases is
    exact knows

/-! ### Runs -/

/-- A number of rounds, none of them a recovery, come to a root. -/
inductive Clears (root : Subtree) : Nat → Session → Prop
  | done {s last : Session} (calm : s.Calm) (step : s.step = .done root last) : Clears root 0 s
  | reduced {s s₁ : Session} {rounds : Nat} (calm : s.Calm) (step : s.step = .reduced s₁)
      (rest : Clears root rounds s₁) : Clears root (rounds + 1) s
  | moved {s s₁ : Session} {rounds : Nat} (calm : s.Calm) (step : s.step = .moved s₁)
      (rest : Clears root rounds s₁) : Clears root (rounds + 1) s

/-- A run that never told of a failure had no recoveries. -/
theorem runWithin_clears {rounds reductions : Nat}
    (run : s.runWithin rounds reductions = (some root, s')) :
    Keeps s s' ∧ ((∀ q lookahead, .failed q lookahead ∉ s'.events) → ∃ k, Clears root k s) := by
  have calm {s s' : Session} (keeps : Keeps s.step.last s')
      (smooth : ∀ q lookahead, .failed q lookahead ∉ s'.events) : s.Calm := by
    by_contra wild
    obtain ⟨q, lookahead, told⟩ := (Keeps.step s).2 wild
    exact smooth q lookahead (keeps.told _ told)
  fun_induction runWithin rounds reductions s with
  | case1 rounds reductions s root' s₁ step =>
    cases run
    have keeps := (Keeps.step s).1
    rw [step] at keeps
    exact ⟨keeps, fun smooth => ⟨0, .done (calm (by rw [step]; exact .refl _) smooth) step⟩⟩
  | case2 => cases run
  | case3 rounds s s₁ step reductions ih =>
    have keeps := (Keeps.step s).1
    rw [step] at keeps
    obtain ⟨kept, clears⟩ := ih run
    refine ⟨keeps.trans kept, fun smooth => ?_⟩
    obtain ⟨k, rest⟩ := clears smooth
    exact ⟨k + 1, .reduced (calm (by rw [step]; exact kept) smooth) step rest⟩
  | case4 => cases run
  | case5 reductions s s₁ step rounds ih =>
    have keeps := (Keeps.step s).1
    rw [step] at keeps
    obtain ⟨kept, clears⟩ := ih run
    refine ⟨keeps.trans kept, fun smooth => ?_⟩
    obtain ⟨k, rest⟩ := clears smooth
    exact ⟨k + 1, .moved (calm (by rw [step]; exact kept) smooth) step rest⟩

/-- Sessions that take the same token in the same state go on alike. -/
theorem Clears.of_take {k : Nat} (clears : s.Clears root k) (takes : s'.take = s.take)
    (state : s'.stack.topState = s.stack.topState) : s'.Clears root k := by
  have step : s'.step = s.step := by
    generalize answer : s.take = taken at takes
    obtain ⟨next, s₁⟩ := taken
    cases next with
    | none => rw [step_of_take_none takes, step_of_take_none answer]
    | some token => rw [step_of_take takes, step_of_take answer, state]
  have still (calm : s.Calm) : s'.Calm := by
    unfold Calm
    rw [takes, state]
    exact calm
  cases clears with
  | done calm is => exact .done (still calm) (step.trans is)
  | reduced calm is rest => exact .reduced (still calm) (step.trans is) rest
  | moved calm is rest => exact .moved (still calm) (step.trans is) rest

end Session

/-- A smooth parse comes to its root without recoveries. -/
theorem Language.clears_of_smooth {lang : Language} {options : Options} {input : Array UInt8}
    {old : Option Tree} {fresh : Stamp} {t : Tree}
    (parsed : (lang.parse options input old fresh).tree = some t)
    (smooth : (lang.parse options input old fresh).Smooth) : t.language = lang ∧
      ∃ k, (Session.start lang options input (lang.usable input old) fresh).Clears t.root k := by
  unfold Parse.Smooth Language.parse at smooth
  unfold Language.parse at parsed
  dsimp only at parsed smooth
  obtain ⟨root, found, rfl⟩ := Option.map_eq_some_iff.mp parsed
  refine ⟨rfl, (Session.runWithin_clears (Prod.ext found rfl)).2 fun q lookahead told => ?_⟩
  exact smooth q lookahead (List.mem_append_right _ (Array.mem_toList_iff.mpr told))

end Reparse
