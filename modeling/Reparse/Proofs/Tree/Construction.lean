import Reparse.Proofs.Parse.Lockstep
import Reparse.Proofs.Tree.Shown

/-!
Trees are made of subtrees by their constructors alone.

All that a parse has at hand is genuine: it is constructed, and only leaves of it stand for missing
tokens (`Subtree.Genuine`). That holds of what lies on its stack, of its next token, and of what is
still to come of the old tree (`Session.Built`). Each round keeps it so, whatever the grammar and
the recoveries, and a parse ends in a genuine root (`Session.Built.ends`). So every tree that parses
and edits lead to is genuine (`Tree.Obtained.genuine`), and what is proved of constructed trees
holds of all of them.
-/

namespace Reparse

namespace Subtree

/-! ### Genuine subtrees -/

/-- Nothing in it that stands for a missing token has children. -/
inductive Bare : Subtree → Prop
  | intro {t : Subtree} (leaf : t.info.missing = true → t.children = [])
      (below : ∀ c ∈ t.children, Bare c) : Bare t

variable {t c : Subtree} {stamp : Stamp} {lang : Language} {ts : List Subtree} {state : StateId}

theorem Bare.leaf (bare : t.Bare) (missing : t.info.missing = true) : t.children = [] := by
  cases bare with
  | intro leaf _ => exact leaf missing

theorem Bare.child (bare : t.Bare) : ∀ c ∈ t.children, c.Bare := by
  cases bare with
  | intro _ below => exact below

theorem Bare.edit (bare : t.Bare) (e : Edit) (stamp : Stamp) : (t.edit e stamp).1.Bare := by
  induction bare generalizing e stamp with
  | @intro t leaf below ih =>
    obtain ⟨_, info, children⟩ := t
    refine .intro (fun missing => ?_) fun c member => ?_
    · obtain rfl : children = [] := leaf missing
      rfl
    · rcases mem_editChildren member with same | ⟨b, before, e', stamp', rfl⟩
      · exact below c same
      · exact ih b before e' stamp'

/-- All that parses and edits make: constructed, and missing in leaves alone. -/
structure Genuine (t : Subtree) : Prop where
  constructed : t.Constructed
  bare : t.Bare

theorem Genuine.child (genuine : t.Genuine) (child : c ∈ t.children) : c.Genuine :=
  ⟨genuine.constructed.child child, genuine.bare.child c child⟩

theorem Genuine.of_occurs {x : Extent} (genuine : t.Genuine) (inside : Occurs c t x) : c.Genuine :=
  inside.hands_on (fun _ _ => Genuine.child) genuine

theorem genuine_leaf {symbol : Symbol} {size : Extent} {lookahead : Nat} {mode : LexMode} :
    (leaf stamp lang symbol size lookahead state mode).Genuine :=
  ⟨.leaf, .intro (fun _ => rfl) nofun⟩

theorem genuine_missingLeaf {symbol : Symbol} {mode : LexMode} :
    (missingLeaf stamp lang symbol state mode).Genuine :=
  ⟨.missingLeaf, .intro (fun _ => rfl) nofun⟩

theorem genuine_node {symbol : Symbol} {production : ProductionId} (stamp : Stamp)
    (genuine : ∀ c ∈ ts, c.Genuine) : (node stamp lang symbol ts production state).Genuine :=
  ⟨.node fun c member => (genuine c member).constructed,
    .intro (fun missing => nomatch (Summary.ofChildren_missing ..).symm.trans missing)
      fun c member => (genuine c member).bare⟩

theorem genuine_errorNode (genuine : ∀ c ∈ ts, c.Genuine) :
    (errorNode stamp lang ts state).Genuine :=
  ⟨.errorNode fun c member => (genuine c member).constructed,
    .intro (fun missing => nomatch (Summary.ofChildren_missing ..).symm.trans missing)
      fun c member => (genuine c member).bare⟩

/-- What has children already may get more of them. -/
theorem Genuine.append (genuine : t.Genuine) (inner : t.children ≠ [])
    (more : ∀ c ∈ ts, c.Genuine) : (t.append stamp ts).Genuine := by
  refine ⟨.append genuine.constructed fun c member => (more c member).constructed, .intro ?_ ?_⟩
  · intro missing
    have same : (t.info.append t.children ts).missing = t.info.missing :=
      Summary.append_unchanged (·.missing) (fun _ _ => rfl) (fun _ _ _ => rfl) ..
    exact absurd (genuine.bare.leaf (same ▸ missing)) inner
  · exact List.forall_mem_append.mpr ⟨genuine.bare.child, fun c member => (more c member).bare⟩

theorem Genuine.placed (genuine : t.Genuine) {extra : Bool} :
    (t.placed stamp state extra).Genuine := by
  refine ⟨.placed genuine.constructed, ?_⟩
  unfold Subtree.placed
  split
  · exact genuine.bare
  · exact .intro genuine.bare.leaf genuine.bare.child

theorem Genuine.edit (genuine : t.Genuine) {e : Edit} : (t.edit e stamp).1.Genuine :=
  ⟨.edit genuine.constructed, genuine.bare.edit e stamp⟩

theorem Genuine.noted (genuine : t.Genuine) {precedence : Int} {fragile : Bool} {lookahead : Nat} :
    Genuine ⟨stamp, { t.info with precedence, fragile, lookahead }, t.children⟩ :=
  ⟨.noted genuine.constructed, .intro genuine.bare.leaf genuine.bare.child⟩

end Subtree

open Subtree (Genuine genuine_leaf genuine_missingLeaf genuine_node genuine_errorNode)

namespace Session

variable {s s' : Session} {t root : Subtree} {q : StateId} {symbol : Symbol}

/-- All subtrees that a parse has at hand are genuine. -/
structure Built (s : Session) : Prop where
  stack : ∀ e ∈ s.stack.entries, e.tree.Genuine
  lookahead : ∀ t, s.lookahead = some t → t.Genuine
  pending : ∀ t ∈ s.reuse.pending, t.Genuine

/-! ### The stack -/

theorem Built.restack (built : s.Built) (restacks : Restacks s s')
    (stack : ∀ e ∈ s'.stack.entries, e.tree.Genuine) : s'.Built := by
  obtain ⟨_, _, _, _, rfl⟩ := restacks
  exact ⟨stack, built.lookahead, built.pending⟩

theorem Built.reading (built : s.Built) (reading : Reading s s') : s'.Built := by
  obtain ⟨⟨_, _, _, _, -, rfl⟩, -⟩ := reading
  exact ⟨built.stack, built.lookahead, built.pending⟩

theorem genuine_trees {entries : List Entry} (made : ∀ e ∈ entries, e.tree.Genuine) :
    ∀ t ∈ Stack.trees entries, t.Genuine := by
  intro t member
  obtain ⟨e, inside, rfl⟩ := Stack.mem_trees.mp member
  exact made e inside

theorem Built.shift (built : s.Built) (made : t.Genuine) (q target : StateId) (extra : Bool) :
    (s.shift q target t extra).Built := by
  refine built.restack (s.shift_restacks ..) ?_
  rw [shift_stack, Stack.push_entries]
  exact List.forall_mem_cons.mpr ⟨.placed made, built.stack⟩

theorem Built.reduce (built : s.Built) (r : Reduction) : (s.reduce r).Built := by
  obtain ⟨above, taken, under, reduces⟩ := s.reduces r
  have made := built.stack
  rw [reduces.split] at made
  obtain ⟨above_made, taken_made, under_made⟩ :=
    And.imp_right List.forall_mem_append.mp (List.forall_mem_append.mp made)
  have node : (s.reducedNode r taken under).Genuine :=
    .noted (genuine_node s.fresh (genuine_trees taken_made))
  refine built.restack (s.reduce_restacks r) ?_
  obtain ⟨lifted, entries, trees, -⟩ := reduces.entries
  rw [entries]
  refine List.forall_mem_append.mpr ⟨fun e member => ?_,
    List.forall_mem_cons.mpr ⟨node, under_made⟩⟩
  refine genuine_trees above_made e.tree ?_
  rw [← trees]
  exact Stack.mem_trees.mpr ⟨e, member, rfl⟩

/-! ### Recovery -/

theorem genuine_skipFrom (rounds : Nat) {position : Extent} {skipped extras : List Subtree}
    {trees : Nat} (made : ∀ t ∈ extras ++ skipped, t.Genuine) :
    ∀ found trees', (s.skipFrom q rounds position skipped trees extras).1 = some (found, trees') →
      ∀ t ∈ found, t.Genuine := by
  have nothing (found : List Subtree) (trees' : Nat) (is : none = some (found, trees')) :
      ∀ t ∈ found, t.Genuine := by
    cases is
  induction rounds generalizing s position skipped trees extras with
  | zero => exact nothing
  | succ rounds ih =>
    unfold skipFrom
    dsimp only
    generalize s.tokenAt (s.lang.lexMode q) position.bytes = answer
    have leaf : (answer.2.leafFor answer.1 q (s.lang.lexMode q)).1.Genuine := genuine_leaf
    generalize answer.2.leafFor answer.1 q (s.lang.lexMode q) = made' at leaf
    have longer := List.forall_mem_cons.mpr ⟨leaf, made⟩
    split
    · rintro _ _ ⟨⟩ t member
      exact made t (List.mem_append_right _ (List.mem_reverse.mp member))
    · split
      · exact nothing
      · split
        · exact ih longer
        · split
          · exact nothing
          · exact ih longer

theorem genuine_skipCandidate (made : t.Genuine) {cost : Nat} {tokens : List Subtree}
    (found : (s.skipCandidate q t).1 = some (cost, .skip tokens)) :
    ∀ x ∈ tokens, x.Genuine := by
  unfold skipCandidate at found
  dsimp only at found
  have walked := @genuine_skipFrom s q
    (s.input.size - (s.stack.topPosition + t.size).bytes + 1) (s.stack.topPosition + t.size) [t] []
    1 (List.forall_mem_singleton.mpr made)
  obtain ⟨⟨tokens', trees⟩, is, same⟩ := Option.map_eq_some_iff.mp found
  cases same
  exact walked _ _ is

/-- Only genuine tokens are skipped. -/
theorem genuine_candidate (made : t.Genuine) {cost : Nat} {tokens : List Subtree}
    (found : (s.candidate q t).1 = some (cost, .skip tokens)) : ∀ x ∈ tokens, x.Genuine := by
  have skips (cost : Nat) (tokens : List Subtree)
      (found : (if t.symbol = Symbol.stop then (none, s) else s.skipCandidate q t).1
        = some (cost, .skip tokens)) : ∀ x ∈ tokens, x.Genuine := by
    split at found
    · cases found
    · exact genuine_skipCandidate made found
  unfold candidate at found
  dsimp only at found
  generalize (if t.symbol = Symbol.stop then (none, s) else s.skipCandidate q t) = skip at skips found
  obtain ⟨skip, s'⟩ := skip
  dsimp only at skips found
  rcases cheaper_cases (cheaper skip ((s'.missingToken? t.symbol).map fun symbol =>
    (Cost.missing, .insert symbol))) ((s'.cutFor? t.symbol).map fun cut =>
    (Cost.skipped cut.trees cut.size, .pop cut)) with is | is
  · rw [is] at found
    rcases cheaper_cases skip ((s'.missingToken? t.symbol).map fun symbol =>
      (Cost.missing, .insert symbol)) with is | is
    · exact skips _ _ (is ▸ found)
    · rw [is] at found
      obtain ⟨_, -, is⟩ := Option.map_eq_some_iff.mp found
      cases is
  · rw [is] at found
    obtain ⟨_, -, is⟩ := Option.map_eq_some_iff.mp found
    cases is

theorem Built.skipTokens (built : s.Built) {tokens : List Subtree}
    (made : ∀ t ∈ tokens, t.Genuine) : (s.skipTokens q tokens).Built := by
  refine built.restack (skipTokens_restacks ..) ?_
  unfold Session.skipTokens
  split
  next error extras epoch stack popped =>
    obtain ⟨above, e, rest, split, rfl, rfl, -, rfl, -, -, -, inner, -⟩ :=
      Stack.popError_spec popped
    have all := built.stack
    rw [split] at all
    obtain ⟨above_made, below_made⟩ := List.forall_mem_append.mp all
    obtain ⟨error_made, rest_made⟩ := List.forall_mem_cons.mp below_made
    refine List.forall_mem_cons.mpr ⟨error_made.append inner ?_, rest_made⟩
    exact List.forall_mem_append.mpr ⟨genuine_trees above_made, made⟩
  next => exact List.forall_mem_cons.mpr ⟨genuine_errorNode made, built.stack⟩

theorem Built.insertIn (built : s.Built) (steps : Nat) : (s.insertIn symbol steps).Built := by
  induction steps generalizing s with
  | zero => exact built
  | succ steps ih =>
    rw [Session.insertIn]
    dsimp only
    split
    · exact ih (built.reduce _)
    · exact built.restack ⟨_, _, _, _, rfl⟩
        (List.forall_mem_cons.mpr ⟨genuine_missingLeaf, built.stack⟩)
    · exact built
    · exact built

theorem Built.popInto (built : s.Built) (cut : Cut) : (s.popInto cut).Built := by
  refine built.restack ⟨_, _, _, _, rfl⟩ (List.forall_mem_cons.mpr ⟨genuine_errorNode ?_, ?_⟩)
  · exact genuine_trees fun e member => built.stack e (List.mem_of_mem_take member)
  · exact fun e member => built.stack e (List.mem_of_mem_drop member)

theorem Built.wrap (built : s.Built) (force : Bool) :
    (s.wrap force).2.Built ∧ ∀ root, (s.wrap force).1 = some root → root.Genuine := by
  obtain ⟨trees, entries, -⟩ := s.stack.popAll_spec
  have made : ∀ t ∈ s.stack.popAll.1, t.Genuine := trees ▸ genuine_trees built.stack
  have bare : { s with stack := s.stack.popAll.2 }.Built :=
    built.restack ⟨_, _, _, _, rfl⟩ (by rw [entries]; exact nofun)
  unfold Session.wrap
  generalize s.stack.popAll = popped at made bare ⊢
  obtain ⟨ts, stack⟩ := popped
  dsimp only at made bare ⊢
  split
  · refine ⟨bare.restack ⟨_, _, _, _, rfl⟩ bare.stack, ?_⟩
    rintro _ ⟨⟩
    exact .noted (genuine_node s.fresh made)
  · split
    · exact ⟨bare.restack ⟨_, _, _, _, rfl⟩ bare.stack, nofun⟩
    · exact ⟨bare.restack ⟨_, _, _, _, rfl⟩
        (List.forall_mem_cons.mpr ⟨genuine_errorNode made, bare.stack⟩), nofun⟩

theorem Built.carryOut (built : s.Built) {cost : Nat} {way : Recovery}
    (made : ∀ tokens, way = .skip tokens → ∀ t ∈ tokens, t.Genuine) :
    (s.carryOut q cost way).Built := by
  have told (event : Event) : (s.emit event).Built := built.reading (.emit s event)
  cases way with
  | skip tokens => exact (told _).skipTokens (made tokens rfl)
  | insert symbol => exact (told _).insertIn _
  | pop cut => exact (told _).popInto cut

theorem Built.recover (built : s.Built) (q : StateId) (made : t.Genuine) :
    (s.recover q t).2.Built ∧ ∀ root, (s.recover q t).1 = some root → root.Genuine := by
  have counted : (s.countAttempt.emit (.failed q t.symbol)).Built :=
    ⟨built.stack, built.lookahead, built.pending⟩
  have alone : ∀ x ∈ [t], x.Genuine := List.forall_mem_singleton.mpr made
  unfold Session.recover
  dsimp only
  generalize s.countAttempt.emit (.failed q t.symbol) = s at counted ⊢
  split
  · have told (position : Nat) := counted.reading (.emit s (.gaveUp position s.options.maxAttempts))
    split
    · exact (told _).wrap _
    · exact ⟨(told _).skipTokens alone, nofun⟩
  · have read := counted.reading (Reading.candidate s q t)
    have skipped := fun cost tokens => @genuine_candidate s t q made cost tokens
    generalize s.candidate q t = candidate at read skipped ⊢
    obtain ⟨best, s'⟩ := candidate
    split
    next cost way s'' is =>
      cases is
      refine ⟨(read.reading (.emit _ _)).carryOut ?_, nofun⟩
      rintro tokens rfl
      exact skipped cost tokens rfl
    next s'' is =>
      cases is
      split
      · exact read.wrap _
      · exact ⟨read.skipTokens alone, nofun⟩

/-! ### Rounds -/

theorem Built.accept (built : s.Built) : s.accept.1.Genuine := by
  have made := s.accept_as
  generalize s.accept.1 = root at made
  cases made with
  | extras => exact .noted (genuine_node s.fresh (genuine_trees built.stack))
  | @alone e entries => exact built.stack e (by rw [entries]; exact List.mem_cons_self)
  | @opened above below e split =>
    have all := built.stack
    rw [split] at all
    obtain ⟨above_made, rest_made⟩ := List.forall_mem_append.mp all
    obtain ⟨top_made, below_made⟩ := List.forall_mem_cons.mp rest_made
    refine .noted (genuine_node s.fresh fun c member => ?_)
    rcases List.mem_append.mp member with member | member
    · rcases List.mem_append.mp member with member | member
      · exact genuine_trees below_made c member
      · exact top_made.child member
    · exact genuine_trees above_made c member

theorem genuine_findIn {pending : List Subtree} (made : ∀ t ∈ pending, t.Genuine)
    (position : Nat) (q : StateId) (mode : LexMode) (offset : Nat) :
    ∀ t ∈ (ReuseCursor.findIn position q mode offset pending).2.pending, t.Genuine := by
  fun_induction ReuseCursor.findIn position q mode offset pending with
  | case1 offset => exact made
  | case2 offset t rest found verdict => exact made
  | case3 offset t rest verdict ih => exact ih (List.forall_mem_cons.mp made).2
  | case4 offset t rest verdict ih =>
    obtain ⟨first, others⟩ := List.forall_mem_cons.mp made
    exact ih (List.forall_mem_append.mpr ⟨fun c => first.child, others⟩)

/-- What an old tree offers is still to come of it. -/
theorem genuine_offer {position offset : Nat} {mode : LexMode} {pending : List Subtree}
    {after : ReuseCursor} {found : Reuse} (made : ∀ t ∈ pending, t.Genuine)
    (eq : ReuseCursor.findIn position q mode offset pending = (some found, after)) :
    ∀ t, found = .node t ∨ found = .token t → t.Genuine := by
  have later := genuine_findIn made position q mode offset
  rw [eq] at later
  intro t is
  have head : after.pending.head? = some t := by
    cases ReuseCursor.findIn_offers eq with
    | node _ next =>
      rcases is with ⟨⟨⟩⟩ | ⟨⟨⟩⟩
      exact next
    | token _ next =>
      rcases is with ⟨⟨⟩⟩ | ⟨⟨⟩⟩
      exact next
  exact later t (List.mem_of_mem_head? head)

theorem Built.fetch (built : s.Built) {next : Option Subtree} (fetches : s.Fetches q next s') :
    s'.Built ∧ ∀ t, next = some t → t.Genuine := by
  have pending {found : Option Reuse} {reuse : ReuseCursor}
      (eq : s.reuse.find s.stack.topPosition.bytes q (s.lang.lexMode q) = (found, reuse)) :
      ∀ t ∈ reuse.pending, t.Genuine := by
    have later := genuine_findIn built.pending s.stack.topPosition.bytes q (s.lang.lexMode q)
      s.reuse.offset
    replace eq : ReuseCursor.findIn _ _ _ _ _ = _ := eq
    rwa [eq] at later
  cases fetches with
  | @node t reuse found =>
    have offered : t.Genuine := genuine_offer built.pending found t (.inl rfl)
    refine ⟨⟨?_, built.lookahead, pending found⟩, nofun⟩
    exact List.forall_mem_cons.mpr ⟨offered, built.stack⟩
  | @token t reuse found =>
    have offered : t.Genuine := genuine_offer built.pending found t (.inr rfl)
    refine ⟨⟨built.stack, built.lookahead, pending found⟩, ?_⟩
    rintro _ ⟨⟩
    exact offered
  | @lexed leaf reuse s₁ found read =>
    have here : { s with reuse }.Built := ⟨built.stack, built.lookahead, pending found⟩
    have reading := Reading.readLeaf { s with reuse } q (s.lang.lexMode q) s.stack.topPosition.bytes
    rw [read] at reading
    refine ⟨(here.reading reading).reading (.note ..), ?_⟩
    rintro _ ⟨⟩
    unfold readLeaf leafFor at read
    cases read
    exact genuine_leaf

theorem Built.acts (built : s.Built) (made : t.Genuine) {step : Step} (acts : s.Acts t step) :
    (∀ next, step = .moved next ∨ step = .reduced next → next.Built)
      ∧ ∀ root last, step = .done root last → root.Genuine := by
  cases acts with
  | shift action =>
    refine ⟨?_, nofun⟩
    rintro _ (⟨⟨⟩⟩ | ⟨⟨⟩⟩)
    exact built.shift made _ _ _
  | reduce action =>
    refine ⟨?_, nofun⟩
    rintro _ (⟨⟨⟩⟩ | ⟨⟨⟩⟩)
    have reduced := built.reduce ‹_›
    refine ⟨reduced.stack, ?_, reduced.pending⟩
    rintro _ ⟨⟩
    exact made
  | accept action =>
    refine ⟨nofun, ?_⟩
    rintro _ _ ⟨⟩
    exact built.accept
  | shiftExtra action extra =>
    refine ⟨?_, nofun⟩
    rintro _ (⟨⟨⟩⟩ | ⟨⟨⟩⟩)
    exact built.shift made _ _ _
  | recover action regular eq =>
    refine ⟨?_, nofun⟩
    rintro _ (⟨⟨⟩⟩ | ⟨⟨⟩⟩)
    have recovered := (built.recover s.stack.topState made).1
    rw [eq] at recovered
    exact recovered
  | fail action regular eq =>
    refine ⟨nofun, ?_⟩
    rintro _ _ ⟨⟩
    have recovered := (built.recover s.stack.topState made).2
    rw [eq] at recovered
    exact recovered _ rfl

/-- A round leaves all that is at hand genuine, and so is the root that it ends with. -/
theorem Built.step (built : s.Built) :
    (∀ next, s.step = .moved next ∨ s.step = .reduced next → next.Built)
      ∧ ∀ root last, s.step = .done root last → root.Genuine := by
  have steps := s.step_steps
  generalize s.step = step at steps ⊢
  cases steps with
  | act lookahead acts =>
    have bare : { s with lookahead := none }.Built := ⟨built.stack, nofun, built.pending⟩
    exact bare.acts (built.lookahead _ lookahead) acts
  | fetch lookahead fetches acts =>
    obtain ⟨later, made⟩ := built.fetch fetches
    exact later.acts (made _ rfl) acts
  | reuse lookahead fetches =>
    refine ⟨?_, nofun⟩
    rintro _ (⟨⟨⟩⟩ | ⟨⟨⟩⟩)
    exact (built.fetch fetches).1

theorem Built.ends (built : s.Built) {last : Session} (ends : Ends root last s) :
    root.Genuine := by
  induction ends with
  | done step => exact built.step.2 _ _ step
  | reduced step _ ih => exact ih (built.step.1 _ (.inr step))
  | moved step _ ih => exact ih (built.step.1 _ (.inl step))

end Session

variable {lang : Language} {options : Options} {input : Array UInt8} {old : Option Tree}
  {fresh : Stamp} {t : Tree}

/-- Whatever a parse starts along is at hand. -/
theorem Session.start_built (made : ∀ root, lang.usable input old = some root → root.Genuine) :
    (Session.start lang options input (lang.usable input old) fresh).Built := by
  refine ⟨nofun, nofun, ?_⟩
  cases usable : lang.usable input old with
  | none => exact nofun
  | some root => exact List.forall_mem_singleton.mpr (made root usable)

/-- All trees that parses and edits lead to are genuine. -/
theorem Tree.Obtained.genuine (obtained : Obtained lang t) : t.root.Genuine := by
  induction obtained with
  | parsed before tree ih =>
    obtain ⟨-, last, ends⟩ := Language.parse_ends tree
    refine (Session.start_built fun root usable => ?_).ends ends
    obtain ⟨o, found, rfl⟩ := Option.map_eq_some_iff.mp usable
    obtain ⟨is, fits⟩ := Option.filter_eq_some_iff.mp found
    exact ih o is (Bool.and_eq_true_iff.mp fits).1
  | edited before e fresh ih => exact .edit ih

end Reparse
