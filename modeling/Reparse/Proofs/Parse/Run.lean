import Reparse.Parse.Parser
import Reparse.Proofs.Parse.Recovery

/-!
The rounds of a parse, and what they come to.

`Session.Steps` says what one round does, case by case, and `Session.Ends` that rounds in a row
lead to a root. A round keeps a session good (`Good.step`), and the root that a good session
ends with was made by a parse (`Good.ends`).
-/

namespace Reparse

open Subtree (total Everywhere EverywhereIn)

/-- No token can be taken for the end, and none is pushed where a parse could be accepted. -/
structure Language.Firm (lang : Language) : Prop where
  stop_unlexed : ¬ lang.Lexes Symbol.stop
  not_accepting : ∀ {q symbol target}, lang.Lexes symbol →
    lang.action? q symbol = some (.shift target) →
    lang.action? target Symbol.stop ≠ some .accept

namespace Session

variable {s s' : Session} {P : Nat → Subtree → Prop} {token root : Subtree} {state : StateId}
  {symbol : Symbol}

/-! ### Actions -/

theorem action?_shift {target : StateId} (action : s.action? state symbol = some (.shift target)) :
    s.lang.action? state symbol = some (.shift target) ∧ symbol ≠ Symbol.stop := by
  unfold Session.action? at action
  split at action
  · split at action
    · cases action
    · cases action
      exact ⟨by assumption, by assumption⟩
  · split at action <;> cases action
  · split at action <;> cases action
  · cases action

theorem action?_reduce {r : Reduction} (action : s.action? state symbol = some (.reduce r)) :
    s.lang.action? state symbol = some (.reduce r) ∧ s.reductions ≤ s.reductionLimit := by
  unfold Session.action? at action
  split at action
  · split at action <;> cases action
  · split at action
    · cases action
    · cases action
      exact ⟨by assumption, by omega⟩
  · split at action <;> cases action
  · cases action

theorem action?_accept (action : s.action? state symbol = some .accept) :
    s.lang.action? state symbol = some .accept ∧ symbol = Symbol.stop := by
  unfold Session.action? at action
  split at action
  · split at action <;> cases action
  · split at action <;> cases action
  · split at action
    · exact ⟨by assumption, by assumption⟩
    · cases action
  · cases action

/-! ### One round -/

/-- What happens to the next token. -/
inductive Acts (s : Session) (token : Subtree) : Step → Prop
  | shift {target : StateId}
      (action : s.action? s.stack.topState token.symbol = some (.shift target)) :
      Acts s token (.moved (s.shift s.stack.topState target token false))
  | reduce {r : Reduction} (action : s.action? s.stack.topState token.symbol = some (.reduce r)) :
      Acts s token (.reduced { s.reduce r with lookahead := some token })
  | accept (action : s.action? s.stack.topState token.symbol = some .accept) :
      Acts s token (.done s.accept.1 s.accept.2)
  | shiftExtra (action : s.action? s.stack.topState token.symbol = none)
      (extra : token.isError = false ∧ (s.lang.traits token.symbol).extra = true) :
      Acts s token (.moved (s.shift s.stack.topState s.stack.topState token true))
  | recover {s' : Session} (action : s.action? s.stack.topState token.symbol = none)
      (regular : token.isError = true ∨ (s.lang.traits token.symbol).extra = false)
      (eq : s.recover s.stack.topState token = (none, s')) : Acts s token (.moved s')
  | fail {root : Subtree} {s' : Session}
      (action : s.action? s.stack.topState token.symbol = none)
      (regular : token.isError = true ∨ (s.lang.traits token.symbol).extra = false)
      (eq : s.recover s.stack.topState token = (some root, s')) : Acts s token (.done root s')

theorem act_acts (s : Session) (token : Subtree) :
    s.Acts token (s.act s.stack.topState token) := by
  unfold act
  split
  · rename_i action
    exact .shift action
  · rename_i action
    exact .reduce action
  · rename_i action
    exact .accept action
  · rename_i action
    split
    · rename_i extra
      simp only [Bool.and_eq_true, Bool.not_eq_true'] at extra
      exact .shiftExtra action extra
    · rename_i regular
      have regular : token.isError = true ∨ (s.lang.traits token.symbol).extra = false := by
        cases error : token.isError
        · simpa [error] using regular
        · exact .inl rfl
      split
      · rename_i eq
        exact .fail action regular eq
      · rename_i eq
        exact .recover action regular eq

/-- What a round does: it acts on the token at hand or on the next one, or it takes over a whole
node. -/
inductive Steps (s : Session) : Step → Prop
  | act {token : Subtree} {step : Step} (lookahead : s.lookahead = some token)
      (acts : { s with lookahead := none }.Acts token step) : Steps s step
  | fetch {token : Subtree} {s' : Session} {step : Step} (lookahead : s.lookahead = none)
      (fetches : s.Fetches s.stack.topState (some token) s') (acts : s'.Acts token step) :
      Steps s step
  | reuse {s' : Session} (lookahead : s.lookahead = none)
      (fetches : s.Fetches s.stack.topState none s') : Steps s (.moved s')

/-- Looking for the next token changes nothing else if it finds one. -/
theorem Fetches.frame_token (fetches : s.Fetches state (some token) s') :
    ∃ reuse seen cached fresh events, s' = { s with reuse, seen, cached, fresh, events } := by
  cases fetches with
  | token found => exact ⟨_, _, _, _, _, rfl⟩
  | @lexed _ reuse s'' found read =>
    have reading := Reading.readLeaf { s with reuse } state (s.lang.lexMode state)
      s.stack.topPosition.bytes
    rw [read] at reading
    obtain ⟨⟨_, _, _, _, -, rfl⟩, -⟩ := reading
    exact ⟨_, _, _, _, _, rfl⟩

theorem Fetches.stack_eq (fetches : s.Fetches state (some token) s') : s'.stack = s.stack := by
  obtain ⟨_, _, _, _, _, rfl⟩ := fetches.frame_token
  rfl

theorem step_steps (s : Session) : s.Steps s.step := by
  unfold step
  dsimp only
  split
  · rename_i token lookahead
    exact .act lookahead (act_acts { s with lookahead := none } token)
  · rename_i lookahead
    have fetches := s.nextLookahead_fetches s.stack.topState
    split
    · rename_i token s' next
      rw [next] at fetches
      have acts := act_acts s' token
      rw [fetches.stack_eq] at acts
      exact .fetch lookahead fetches acts
    · rename_i s' next
      rw [next] at fetches
      exact .reuse lookahead fetches

/-! ### Rounds in a row -/

/-- Rounds from a session on come to a root. -/
inductive Ends (root : Subtree) (last : Session) : Session → Prop
  | done {s : Session} (step : s.step = .done root last) : Ends root last s
  | reduced {s s₁ : Session} (step : s.step = .reduced s₁) (rest : Ends root last s₁) :
      Ends root last s
  | moved {s s₁ : Session} (step : s.step = .moved s₁) (rest : Ends root last s₁) :
      Ends root last s

theorem runWithin_ends {rounds reductions : Nat}
    (run : s.runWithin rounds reductions = (some root, s')) : Ends root s' s := by
  fun_induction runWithin rounds reductions s with
  | case1 rounds reductions s root' s₁ step =>
    cases run
    exact .done step
  | case2 => cases run
  | case3 rounds s s₁ step reductions ih => exact .reduced step (ih run)
  | case4 => cases run
  | case5 reductions s s₁ step rounds ih => exact .moved step (ih run)

/-! ### Good sessions -/

/-- Between rounds a session is ready, and the token at hand comes next and was looked at. -/
structure Good (P : Nat → Subtree → Prop) (s : Session) : Prop where
  ready : s.Ready P
  builds : Builds s.lang s.input P
  next : ∀ t, s.lookahead = some t → s.Next P s.stack.topPosition.bytes t
    ∧ s.stack.topPosition.bytes + t.window ≤ s.seen

theorem Good.of_ready (ready : s.Ready P) (builds : Builds s.lang s.input P)
    (lookahead : s.lookahead = none) : s.Good P :=
  ⟨ready, builds, fun t here => by rw [lookahead] at here; cases here⟩

/-- Looking for the next token pushes a node at most. -/
theorem Fetches.frame {next : Option Subtree} (fetches : s.Fetches state next s') :
    ∃ stack reuse seen reductions cached fresh events,
      s' = { s with stack, reuse, seen, reductions, cached, fresh, events } := by
  cases next with
  | some token =>
    obtain ⟨_, _, _, _, _, rfl⟩ := fetches.frame_token
    exact ⟨_, _, _, _, _, _, _, rfl⟩
  | none =>
    cases fetches with
    | node found => exact ⟨_, _, _, _, _, _, _, rfl⟩

theorem Fetches.lookahead_eq {next : Option Subtree} (fetches : s.Fetches state next s') :
    s'.lookahead = s.lookahead := by
  obtain ⟨_, _, _, _, _, _, _, rfl⟩ := fetches.frame
  rfl

/-- What acting on a token leaves is good again; a reduction keeps the token. -/
theorem Ready.acts (ready : s.Ready P) (builds : Builds s.lang s.input P)
    (lookahead : s.lookahead = none) (next : s.Next P s.stack.topPosition.bytes token)
    (noted : s.stack.topPosition.bytes + token.window ≤ s.seen) {step : Step}
    (acts : s.Acts token step) :
    (∀ s', step = .moved s' ∨ step = .reduced s' → s'.Good P) := by
  rintro s' (rfl | rfl)
  · cases acts with
    | shift action =>
      exact .of_ready (ready.shift next (action?_shift action).1) builds lookahead
    | shiftExtra action extra =>
      exact .of_ready (ready.shiftExtra next noted extra.1 extra.2) builds lookahead
    | recover action regular eq =>
      have recovers := s.recover_recovers s.stack.topState token ready.makes ready.remembers next
      rw [eq] at recovers
      have after := ((ready.recovers builds recovers).2 rfl).1
      obtain ⟨s₁, ⟨⟨_, _, _, _, -, rfl⟩, -⟩, ⟨_, _, _, _, rfl⟩⟩ := recovers.restacks
      exact .of_ready after builds lookahead
  · cases acts with
    | @reduce r action =>
      have action := (action?_reduce action).1
      have after := ready.reduce action fun above taken under reduces =>
        builds.acted rfl rfl ready next noted action reduces
      have place := ready.reduce_topPosition r
      refine ⟨⟨after.table, after.makes, after.base, after.settled, after.dated, after.stale,
        after.inside, after.remembers, after.ahead⟩, builds, ?_⟩
      rintro t ⟨⟩
      have there : (s.reduce r).Next P s.stack.topPosition.bytes token := next.congr rfl
      rw [← place] at there noted
      exact ⟨there.congr rfl, noted⟩

/-- Taking the token at hand leaves a ready session. -/
theorem Good.act (good : s.Good P) (lookahead : s.lookahead = some token) :
    { s with lookahead := none }.Ready P
      ∧ { s with lookahead := none }.Next P s.stack.topPosition.bytes token
      ∧ s.stack.topPosition.bytes + token.window ≤ s.seen := by
  obtain ⟨ready, builds, next⟩ := good
  obtain ⟨next, noted⟩ := next token lookahead
  exact ⟨⟨ready.table, ready.makes, ready.base, ready.settled, ready.dated, ready.stale,
    ready.inside, ready.remembers, ready.ahead⟩, next.congr rfl, noted⟩

/-- Fetching a token leaves a ready session too. -/
theorem Good.fetch (good : s.Good P) (fetches : s.Fetches s.stack.topState (some token) s') :
    s'.Ready P ∧ Builds s'.lang s'.input P ∧ s'.Next P s'.stack.topPosition.bytes token
      ∧ s'.stack.topPosition.bytes + token.window ≤ s'.seen := by
  obtain ⟨ready, next⟩ := good.ready.fetch fetches
  obtain ⟨stack, next, noted⟩ := next token rfl
  rw [← stack] at next noted
  refine ⟨ready, ?_, next, noted⟩
  obtain ⟨_, _, _, _, _, rfl⟩ := fetches.frame_token
  exact good.builds

/-- Every round that goes on leaves a good session. -/
theorem Good.step (good : s.Good P) :
    ∀ s', s.step = .moved s' ∨ s.step = .reduced s' → s'.Good P := by
  have steps := s.step_steps
  generalize s.step = step at steps ⊢
  cases steps with
  | act lookahead acts =>
    obtain ⟨ready, next, noted⟩ := good.act lookahead
    exact ready.acts good.builds rfl next noted acts
  | @fetch token s₁ _ lookahead fetches acts =>
    obtain ⟨ready, builds, next, noted⟩ := good.fetch fetches
    exact ready.acts builds (fetches.lookahead_eq.trans lookahead) next noted acts
  | @reuse s₁ lookahead fetches =>
    rintro s' (⟨⟨⟩⟩ | ⟨⟨⟩⟩)
    have ready := (good.ready.fetch fetches).1
    have builds : Builds s₁.lang s₁.input P := by
      obtain ⟨_, _, _, _, _, _, _, rfl⟩ := fetches.frame
      exact good.builds
    exact .of_ready ready builds (fetches.lookahead_eq.trans lookahead)

/-! ### The root -/

/-- The root made of a stack on which the extras `trailing` lie over `rest`. -/
def acceptedRoot (s : Session) (trailing : List Subtree) : List Entry → Subtree
  | [] => s.errorRoot trailing
  | top :: below =>
    if below.isEmpty && trailing.isEmpty then top.tree
    else
      let children := Stack.trees below ++ top.tree.children ++ trailing
      let info := Summary.ofChildren s.lang top.tree.symbol children top.tree.info.production
        top.tree.info.parseState
      ⟨s.fresh, s.reaching { info with fragile := top.tree.info.fragile }, children⟩

theorem accept_eq (s : Session) :
    s.accept.1 = s.acceptedRoot s.stack.popExtras.1 s.stack.popExtras.2.entries := by
  unfold accept acceptedRoot
  have same : (s.emit .accepted).stack.popExtras = s.stack.popExtras := rfl
  dsimp only
  rw [same]
  generalize s.stack.popExtras = popped
  obtain ⟨trailing, stack⟩ := popped
  dsimp only
  generalize stack.entries = rest
  cases rest with
  | nil => rfl
  | cons top below =>
    dsimp only
    split <;> rfl

/-- The root that accepting makes of the subtree `e` and what lies around its children. -/
def openedRoot (s : Session) (e : Entry) (children : List Subtree) : Subtree :=
  let info := Summary.ofChildren s.lang e.tree.symbol children e.tree.info.production
    e.tree.info.parseState
  ⟨s.fresh, s.reaching { info with fragile := e.tree.info.fragile }, children⟩

theorem openedRoot_sums (s : Session) (e : Entry) (children : List Subtree) :
    (s.openedRoot e children).info.Sums children :=
  (Summary.ofChildren_sums ..).reaching _ _ _

/-- What the root of an accepted parse is made of: of extras only, of the one subtree on the stack,
or of the topmost that is no extra, which is opened between what lies below and above it. -/
inductive AcceptsAs (s : Session) : Subtree → Prop
  | extras (extras : ∀ e ∈ s.stack.entries, e.tree.extra = true) :
      AcceptsAs s (s.errorRoot (Stack.trees s.stack.entries))
  | alone {e : Entry} (entries : s.stack.entries = [e]) (regular : e.tree.extra = false) :
      AcceptsAs s e.tree
  | opened {above below : List Entry} {e : Entry} (split : s.stack.entries = above ++ e :: below)
      (extras : ∀ x ∈ above, x.tree.extra = true) (regular : e.tree.extra = false)
      (others : Stack.trees below ++ Stack.trees above ≠ []) :
      AcceptsAs s (s.openedRoot e (Stack.trees below ++ e.tree.children ++ Stack.trees above))

theorem accept_as (s : Session) : s.AcceptsAs s.accept.1 := by
  obtain ⟨above, rest, split, trailing, rest_eq, -, extras, regular⟩ := s.stack.popExtras_spec
  rw [accept_eq, trailing, rest_eq]
  cases rest with
  | nil =>
    rw [List.append_nil] at split
    rw [acceptedRoot, ← split]
    exact .extras (split ▸ extras)
  | cons e below =>
    have regular : e.tree.extra = false := regular e rfl
    rw [acceptedRoot]
    split
    next alone =>
      obtain ⟨none, bare⟩ : below = [] ∧ above = [] := by simpa [Stack.trees] using alone
      rw [none, bare] at split
      exact .alone split regular
    next company => exact .opened split extras regular (by simpa [Stack.trees] using company)

/-- Where a parse can be accepted, a leaf that is no extra takes up no text. -/
theorem empty_leaf_of_firm {lang : Language} (firm : lang.Firm) {under : StateId} {left : Extent}
    {e : Entry} (settled : e.Settled lang P under left) (sound : e.tree.Sound lang)
    (regular : e.tree.extra = false) (leaf : e.tree.children = [])
    (accepts : lang.action? e.state Symbol.stop = some .accept) : e.tree.size = 0 := by
  refine sound.empty leaf ?_
  by_contra some
  have some : 0 < e.tree.size.bytes := Nat.pos_of_ne_zero some
  exact firm.not_accepting (sound.lexes leaf some) (settled.shifted regular leaf (.inl some)) accepts

/-- So what is opened is as large as what it gives for itself. -/
theorem Ready.total_opened (ready : s.Ready P) (firm : s.lang.Firm)
    (accepts : s.lang.action? s.stack.topState Symbol.stop = some .accept)
    {above below : List Entry} {e : Entry} (split : s.stack.entries = above ++ e :: below)
    (extras : ∀ x ∈ above, x.tree.extra = true) (regular : e.tree.extra = false) :
    total e.tree.children = e.tree.size := by
  have held := ready.settled
  unfold Stack.Settled at held
  rw [split] at held
  have entry := held.beneath.1
  have sound := ready.makes.sound (entry.holds _ _ .here)
  rw [ready.settled.stateOver_extras split extras] at accepts
  by_cases leaf : e.tree.children = []
  · rw [empty_leaf_of_firm firm entry sound regular leaf accepts, leaf, Subtree.total_nil]
  · exact (sound.size_eq leaf).symm

/-- Whatever the language, the root was made by a parse. -/
theorem Ready.accept_whole (ready : s.Ready P) : s.accept.1.Whole s.lang := by
  obtain ⟨holds, -⟩ := ready.settled.trees (List.append_nil s.stack.entries).symm
  have sound : EverywhereIn (fun _ => Subtree.Sound s.lang) 0 (Stack.trees s.stack.entries) :=
    holds.mono fun _ _ => ready.makes.sound
  have made := s.accept_as
  generalize s.accept.1 = root at made
  cases made with
  | extras => exact .of_sums (s.errorRoot_sums _) s.fresh sound
  | alone entries =>
    rw [entries, Stack.trees_cons, Stack.trees_nil, List.nil_append,
      Subtree.everywhereIn_singleton] at sound
    exact sound
  | @opened above below e split =>
    rw [split, Stack.trees_append, Stack.trees_cons, Subtree.everywhereIn_append,
      Subtree.everywhereIn_append, Subtree.everywhereIn_singleton] at sound
    obtain ⟨⟨soundBelow, soundTop⟩, soundAbove⟩ := sound
    have children : EverywhereIn (fun _ => Subtree.Sound s.lang) 0
        (Stack.trees below ++ e.tree.children ++ Stack.trees above) := by
      rw [Subtree.everywhereIn_append, Subtree.everywhereIn_append]
      exact ⟨⟨soundBelow, (Subtree.everywhere_iff.mp soundTop).2⟩, soundAbove⟩
    exact .of_sums (s.openedRoot_sums e _) s.fresh children

/-- What holds of the subtrees on the stack holds below the root. -/
theorem Ready.accept_holds (ready : s.Ready P) (firm : s.lang.Firm)
    (accepts : s.lang.action? s.stack.topState Symbol.stop = some .accept)
    {Q : Nat → Subtree → Prop} (holds : EverywhereIn Q 0 (Stack.trees s.stack.entries)) :
    EverywhereIn Q 0 s.accept.1.children := by
  have made := s.accept_as
  generalize s.accept.1 = root at made
  cases made with
  | extras => exact holds
  | @alone e entries =>
    rw [entries, Stack.trees_cons, Stack.trees_nil, List.nil_append,
      Subtree.everywhereIn_singleton] at holds
    exact (Subtree.everywhere_iff.mp holds).2
  | @opened above below e split extras regular =>
    have within := ready.total_opened firm accepts split extras regular
    rw [split, Stack.trees_append, Stack.trees_cons, Subtree.everywhereIn_append,
      Subtree.everywhereIn_append, Subtree.everywhereIn_singleton] at holds
    obtain ⟨⟨holdsBelow, holdsTop⟩, holdsAbove⟩ := holds
    change EverywhereIn Q 0 (Stack.trees below ++ e.tree.children ++ Stack.trees above)
    rw [Subtree.everywhereIn_append, Subtree.everywhereIn_append, Subtree.total_append, within]
    refine ⟨⟨holdsBelow, (Subtree.everywhere_iff.mp holdsTop).2⟩, ?_⟩
    simpa using holdsAbove

/-- What was read before the end of the input, all of it and nothing else, ends up in the root. -/
theorem Ready.accept (ready : s.Ready P) (firm : s.lang.Firm)
    (accepts : s.lang.action? s.stack.topState Symbol.stop = some .accept) :
    EverywhereIn P 0 s.accept.1.children ∧ s.accept.1.size = total s.accept.1.children
      ∧ s.accept.1.size = s.stack.topPosition := by
  have place := ready.topPosition_eq
  obtain ⟨holds, -⟩ := ready.settled.trees (List.append_nil s.stack.entries).symm
  refine ⟨ready.accept_holds firm accepts holds, ?_⟩
  have made := s.accept_as
  generalize s.accept.1 = root at made
  rw [place]
  cases made with
  | extras =>
    have size : (s.errorRoot (Stack.trees s.stack.entries)).size
        = total (Stack.trees s.stack.entries) := (s.errorRoot_sums _).size_eq
    exact ⟨size, size⟩
  | @alone e entries regular =>
    have within := @Ready.total_opened _ _ ready firm accepts [] _ _ entries nofun regular
    rw [entries, Stack.trees_cons, Stack.trees_nil, List.nil_append, Subtree.total_cons,
      Subtree.total_nil, add_zero]
    exact ⟨within.symm, rfl⟩
  | @opened above below e split extras regular =>
    have within := ready.total_opened firm accepts split extras regular
    have size : (s.openedRoot e (Stack.trees below ++ e.tree.children ++ Stack.trees above)).size
        = total (Stack.trees below ++ e.tree.children ++ Stack.trees above) :=
      (s.openedRoot_sums e _).size_eq
    refine ⟨size, size.trans ?_⟩
    rw [split, Stack.trees_append, Stack.trees_cons]
    simp only [Subtree.total_append, Subtree.total_cons, Subtree.total_nil, add_zero, within]

/-- Before the end of the input there is nothing that was not read. -/
theorem Ready.at_end (ready : s.Ready P) (next : s.Next P s.stack.topPosition.bytes token)
    (firm : s.lang.Firm) (stop : token.symbol = Symbol.stop) :
    s.stack.topPosition.bytes = s.input.size := by
  rcases next.takes with ⟨some, -⟩ | ⟨-, beyond, -⟩
  · have := (ready.makes.sound next.made).lexes next.leaf some
    rw [stop] at this
    exact absurd this firm.stop_unlexed
  · exact Nat.le_antisymm ready.inside beyond

/-- What a parse gives for a root: it was made by a parse, spans the input, and `P` holds of all
below it. It is an error, or the parse was accepted. -/
structure Rooted (lang : Language) (input : Array UInt8) (P : Nat → Subtree → Prop)
    (root : Subtree) : Prop where
  whole : root.Whole lang
  holds : lang.Firm → EverywhereIn P 0 root.children
  size_eq : lang.Firm → root.size = total root.children
  spans : lang.Firm → root.size.bytes = input.size
  origin : Failed lang input P root ∨ ∃ s : Session, s.lang = lang ∧ s.input = input ∧ s.Ready P
    ∧ lang.action? s.stack.topState Symbol.stop = some .accept ∧ s.accept.1 = root

theorem Ready.acts_done (ready : s.Ready P) (builds : Builds s.lang s.input P)
    (next : s.Next P s.stack.topPosition.bytes token) (acts : s.Acts token (.done root s')) :
    Rooted s.lang s.input P root := by
  cases acts with
  | accept action =>
    obtain ⟨accepts, stop⟩ := action?_accept action
    rw [stop] at accepts
    exact ⟨ready.accept_whole, fun firm => (ready.accept firm accepts).1,
      fun firm => (ready.accept firm accepts).2.1,
      fun firm => by rw [(ready.accept firm accepts).2.2]; exact ready.at_end next firm stop,
      .inr ⟨s, rfl, rfl, ready, accepts, rfl⟩⟩
  | fail action regular eq =>
    have recovers := s.recover_recovers s.stack.topState token ready.makes ready.remembers next
    rw [eq] at recovers
    obtain ⟨stop, failed, size⟩ := (ready.recovers builds recovers).1 root rfl
    obtain ⟨stamp, info, children⟩ := root
    refine ⟨?_, fun _ => failed.holds, fun _ => failed.sums.size_eq, fun firm => ?_, .inl failed⟩
    · exact .of_sums failed.sums stamp (failed.holds.mono fun _ _ => ready.makes.sound)
    · rw [size]
      exact ready.at_end next firm stop

theorem Good.done (good : s.Good P) (step : s.step = .done root s') :
    Rooted s.lang s.input P root := by
  have steps := s.step_steps
  rw [step] at steps
  cases steps with
  | act lookahead acts =>
    obtain ⟨ready, next, -⟩ := good.act lookahead
    exact ready.acts_done good.builds next acts
  | @fetch token s₁ _ lookahead fetches acts =>
    obtain ⟨ready, builds, next, -⟩ := good.fetch fetches
    have done := ready.acts_done builds next acts
    obtain ⟨_, _, _, _, _, rfl⟩ := fetches.frame_token
    exact done

/-- Two sessions parse the same text in the same way. -/
def Alike (s s' : Session) : Prop :=
  s'.lang = s.lang ∧ s'.input = s.input ∧ s'.options = s.options

/-- What acting on a token leaves as it is: the text with how it is parsed, and the old tree. -/
theorem Ready.acts_frame (ready : s.Ready P)
    (next : s.Next P s.stack.topPosition.bytes token) {step : Step}
    (acts : s.Acts token step) :
    ∀ s', step = .moved s' ∨ step = .reduced s' → Alike s s' ∧ s'.reuse = s.reuse := by
  rintro s' (rfl | rfl)
  · cases acts with
    | shift action => exact ⟨⟨rfl, rfl, rfl⟩, rfl⟩
    | shiftExtra action extra => exact ⟨⟨rfl, rfl, rfl⟩, rfl⟩
    | recover action regular eq =>
      have recovers := s.recover_recovers s.stack.topState token ready.makes ready.remembers next
      rw [eq] at recovers
      obtain ⟨s₁, ⟨⟨_, _, _, _, -, rfl⟩, -⟩, ⟨_, _, _, _, rfl⟩⟩ := recovers.restacks
      exact ⟨⟨rfl, rfl, rfl⟩, rfl⟩
  · cases acts with
    | reduce action => exact ⟨⟨rfl, rfl, rfl⟩, rfl⟩

/-- A round does not change what is parsed, nor how. -/
theorem Good.alike (good : s.Good P) :
    ∀ s', s.step = .moved s' ∨ s.step = .reduced s' → Alike s s' := by
  have steps := s.step_steps
  generalize s.step = step at steps ⊢
  cases steps with
  | act lookahead acts =>
    obtain ⟨ready, next, -⟩ := good.act lookahead
    exact fun s' goes => (ready.acts_frame next acts s' goes).1
  | @fetch token s₁ _ lookahead fetches acts =>
    obtain ⟨ready, -, next, -⟩ := good.fetch fetches
    have frame := ready.acts_frame next acts
    obtain ⟨_, _, _, _, _, rfl⟩ := fetches.frame_token
    exact fun s' goes => (frame s' goes).1
  | reuse lookahead fetches =>
    rintro s' (⟨⟨⟩⟩ | ⟨⟨⟩⟩)
    obtain ⟨_, _, _, _, _, _, _, rfl⟩ := fetches.frame
    exact ⟨rfl, rfl, rfl⟩

/-- The root that a parse ends with was made by it. -/
theorem Good.ends (good : s.Good P) (ends : Ends root s' s) : Rooted s.lang s.input P root := by
  induction ends with
  | done step => exact good.done step
  | @reduced s s₁ step rest ih =>
    have next := ih (good.step s₁ (.inr step))
    obtain ⟨lang, input, -⟩ := good.alike s₁ (.inr step)
    rwa [lang, input] at next
  | @moved s s₁ step rest ih =>
    have next := ih (good.step s₁ (.inl step))
    obtain ⟨lang, input, -⟩ := good.alike s₁ (.inl step)
    rwa [lang, input] at next

end Session

end Reparse
