import Reparse.Proofs.Parse.Replay

/-!
What a parse without recoveries makes is replayed.

Along no old tree and without recoveries, a parse of a steady language has on its stack tokens that
stand in the text as they were read, nodes that are replayed in the state they were made in, and
nodes of nothing, which no reduction reaches (`Entry.Replayable`). So each reduction makes a node of
a stretch (`Session.Takes.stretch`), each round keeps the stack so (`Session.Unaided.replayable`),
and in the end so is all below the root (`Session.Clears.replayable`). What was so in one text is so
in another, where the texts agree as far as it depends on them
(`Subtree.Replayable.everywhere_agree`).
-/

namespace Reparse

open Subtree (total structural Everywhere EverywhereIn)

variable {lang : Language} {input input' : Array UInt8} {place place' stop : Nat} {q : StateId}
  {P : Nat → Subtree → Prop}

/-! ### Subtrees -/

namespace Subtree

variable {t : Subtree}

/-- A subtree that a parse along no old tree comes to again: a token as it was read, or a node that
is replayed in the state that it was made in. -/
structure Replayable (lang : Language) (input : Array UInt8) (place : Nat) (t : Subtree) : Prop where
  sound : t.Sound lang
  token : t.children = [] → 0 < t.size.bytes → t.Lexed lang input t.info.lexMode place
  node : t.extra = false → t.children ≠ [] → lang.Replays input place t.info.parseState t

theorem Replayable.everywhere_agree (unscanned : lang.scanner = none)
    (replayable : Everywhere (Replayable lang input) place t)
    (agree : Agree input input' place place' t.window) :
    Everywhere (Replayable lang input') place' t := by
  intro u x inside
  have whole : t.Whole lang :=
    (replayable.mono fun _ _ here => here.sound : Everywhere (fun _ => Sound lang) place t)
  have here := agree.within (whole.window_le inside)
  obtain ⟨sound, token, node⟩ := replayable u x inside
  exact ⟨sound, fun leaf some => (token leaf some).agree unscanned here,
    fun regular inner => (node regular inner).agree here⟩

/-- A token that is not the end of the input is replayable. -/
theorem Lexed.replayable {mode : LexMode} (lexed : t.Lexed lang input mode place)
    (sound : t.Sound lang) : Everywhere (Replayable lang input) place t := by
  rw [everywhere_iff, lexed.children_eq]
  refine ⟨⟨sound, fun _ _ => lexed.lexMode_eq.symm ▸ lexed, fun _ inner => ?_⟩, everywhereIn_nil⟩
  exact absurd lexed.children_eq inner

/-- An extra that was read in the mode. -/
structure Stray (mode : LexMode) (t : Subtree) : Prop where
  extra : t.extra = true
  leaf : t.children = []
  lexMode_eq : t.info.lexMode = mode
  some : 0 < t.size.bytes

end Subtree

/-! ### Entries -/

/-- An entry that was pushed onto the state `under` with its text starting at `left`: its subtree is
replayable, and a token was read in the mode of that state. A leaf may also be a node of nothing,
and what is pushed on it is all that a reduction takes. -/
structure Entry.Replayable (lang : Language) (input : Array UInt8) (under : StateId) (left : Extent)
    (e : Entry) : Prop where
  replayable : Everywhere (Subtree.Replayable lang input) left.bytes e.tree
  leaf : e.tree.children = [] → (e.tree.info.lexMode = lang.lexMode under ∧ 0 < e.tree.size.bytes)
    ∨ (e.tree.extra = false ∧ lang.Floor e.state)
  extra_leaf : e.tree.extra = true → e.tree.children = []

/-- What a reduction may take is replayed. -/
theorem Entry.Replayable.replays {e : Entry} {left : Extent}
    (replayable : e.Replayable lang input q left) (settled : e.Settled lang P q left)
    (steady : lang.Steady) (taken : e.tree.extra = false → ¬ lang.Floor e.state) :
    lang.Replays input left.bytes q e.tree := by
  have here := replayable.replayable _ _ .here
  by_cases leaf : e.tree.children = []
  · rcases replayable.leaf leaf with ⟨mode, some⟩ | ⟨regular, floor⟩
    · have lexed := here.token leaf some
      rw [mode] at lexed
      refine lexed.replays steady ?_
      cases extra : e.tree.extra with
      | true => exact .inl rfl
      | false =>
        refine .inr ⟨fun stop => ?_, _, settled.shifted extra leaf (.inl some)⟩
        exact steady.stop_unlexed (stop ▸ here.sound.lexes leaf some)
    · exact absurd floor (taken regular)
  · have regular : e.tree.extra = false := by
      by_contra extra
      exact leaf (replayable.extra_leaf (by simpa using extra))
    have node := here.node regular leaf
    rwa [settled.parseState_eq regular] at node

namespace Stack

variable {s : Stack} {above rest : List Entry}

/-- Every entry is replayable on those beneath it. -/
def Replayable (lang : Language) (input : Array UInt8) (s : Stack) : Prop :=
  Over (fun e rest => e.Replayable lang input (s.stateOver rest) (positionOver rest)) s.entries

theorem Replayable.push (replayable : s.Replayable lang input) {t : Subtree} (epoch : Nat)
    (entry : Entry.Replayable lang input s.topState s.topPosition
      ⟨t, q, s.topPosition + t.size, epoch⟩) : (s.push t q epoch).Replayable lang input :=
  ⟨entry, replayable⟩

theorem Replayable.of_entries {s' : Stack} (replayable : s.Replayable lang input)
    (split : s.entries = above ++ s'.entries) (base : s'.base = s.base) :
    s'.Replayable lang input := by
  unfold Replayable at replayable ⊢
  rw [split] at replayable
  rw [stateOver_congr base]
  exact replayable.beneath

/-- The subtrees of the topmost entries side by side. -/
theorem Replayable.trees (replayable : s.Replayable lang input) (settled : s.Settled lang P)
    (split : s.entries = above ++ rest) :
    EverywhereIn (Subtree.Replayable lang input) (positionOver rest).bytes (Stack.trees above) := by
  have positioned := settled.positioned
  unfold Replayable at replayable
  rw [split] at positioned replayable
  exact positioned.everywhereIn (replayable.mono fun _ _ entry => entry.replayable)

/-- Extras on top were read in the mode of the state on top. -/
theorem Replayable.strays (replayable : s.Replayable lang input) (settled : s.Settled lang P)
    (split : s.entries = above ++ rest) (extras : ∀ e ∈ above, e.tree.extra = true) :
    ∀ t ∈ Stack.trees above, t.Stray (lang.lexMode s.topState) := by
  intro t member
  obtain ⟨e, inAbove, rfl⟩ := mem_trees.mp member
  have extra := extras e inAbove
  obtain ⟨upper, lower, rfl⟩ := List.append_of_mem inAbove
  have split' : s.entries = (upper ++ [e]) ++ (lower ++ rest) := by
    rw [split, List.append_assoc, List.append_assoc]
    rfl
  have state := settled.stateOver_extras split' fun x member => by
    refine extras x ?_
    simp only [List.mem_append, List.mem_cons, List.not_mem_nil, or_false] at member ⊢
    exact member.imp_right .inl
  unfold Replayable at replayable
  rw [split, List.append_assoc] at replayable
  have entry := replayable.beneath.1
  have leaf := entry.extra_leaf extra
  rcases entry.leaf leaf with ⟨mode, some⟩ | ⟨regular, -⟩
  · exact ⟨extra, leaf, by rw [mode, state]; rfl, some⟩
  · rw [extra] at regular
    cases regular

/-- Extras that were read in the mode of the state on top may be pushed back. -/
theorem Replayable.pushAll (replayable : s.Replayable lang input) {ts : List Subtree} (epoch : Nat)
    (holds : EverywhereIn (Subtree.Replayable lang input) s.topPosition.bytes ts)
    (strays : ∀ t ∈ ts, t.Stray (lang.lexMode s.topState)) :
    (s.pushAll ts s.topState epoch).Replayable lang input := by
  generalize state : s.topState = q at strays
  induction ts generalizing s with
  | nil => exact replayable
  | cons t ts ih =>
    obtain ⟨first, others⟩ := Subtree.everywhereIn_cons.mp holds
    have stray := strays t List.mem_cons_self
    have pushed : (s.push t q epoch).Replayable lang input := replayable.push epoch
      ⟨first, fun _ => .inl ⟨state ▸ stray.lexMode_eq, stray.some⟩, fun _ => stray.leaf⟩
    exact ih pushed others rfl fun t member => strays t (List.mem_cons_of_mem _ member)

/-- The entries on top of a stack are a row if each of them is replayed. -/
theorem replaysRow_of_over {under : Stack} {entries : List Entry}
    (held : Over (fun e rest => e.Settled lang P (under.stateOver rest) (positionOver rest))
      (entries ++ under.entries))
    (each : ∀ {upper e lower}, entries = upper ++ e :: lower →
      lang.Replays input (positionOver (lower ++ under.entries)).bytes
        (under.stateOver (lower ++ under.entries)) e.tree)
    (windows : ∀ {before c after}, Stack.trees entries = before ++ c :: after →
      under.topPosition.bytes + (total before).bytes + c.window ≤ stop) :
    lang.ReplaysRow input stop under.topPosition.bytes under.topState (Stack.trees entries) := by
  induction entries with
  | nil => trivial
  | cons e rest ih =>
    rw [List.cons_append] at held
    obtain ⟨-, held⟩ := held
    have row := ih held
      (fun {upper x lower} split =>
        each ((congrArg (e :: ·) split).trans List.cons_append.symm))
      (fun {before c after} split => windows (by
        rw [Stack.trees_cons, split, List.append_assoc, List.cons_append]))
    have last := windows (Stack.trees_cons ..)
    have replays := each (List.nil_append _).symm
    have positioned : Positioned (rest ++ under.entries) :=
      held.mono fun _ _ entry => entry.position_eq
    rw [← positioned.add_total, ← after_over held, Extent.add_bytes] at replays
    rw [Stack.trees_cons, Language.replaysRow_append]
    exact ⟨row, last, replays, trivial⟩

end Stack

/-- Extras that were looked at are passed wherever tokens are read as they were. -/
theorem Language.extrasRow_of_strays {mode : LexMode} {ts : List Subtree}
    (holds : EverywhereIn (Subtree.Replayable lang input) place ts)
    (strays : ∀ t ∈ ts, t.Stray mode) (noted : Stack.Noted stop place ts) :
    lang.ExtrasRow input mode stop place ts := by
  induction ts generalizing place with
  | nil => trivial
  | cons t rest ih =>
    obtain ⟨first, others⟩ := Subtree.everywhereIn_cons.mp holds
    have stray := strays t List.mem_cons_self
    have lexed := (first _ _ .here).token stray.leaf stray.some
    rw [stray.lexMode_eq] at lexed
    exact ⟨noted.1 stray.extra (lexed.regular stray.extra), stray.extra, lexed,
      ih others (fun t member => strays t (List.mem_cons_of_mem _ member)) noted.2⟩

namespace Session

variable {s n : Session} {t root : Subtree} {r : Reduction} {above taken : List Entry}
  {under : Stack} {rounds : Nat}

/-! ### Rounds -/

/-- What a reduction makes a node of is a stretch, unless it is nothing. -/
theorem Takes.stretch (takes : s.Takes lang input t n) (steady : lang.Steady)
    (replayable : n.stack.Replayable lang input)
    (action : lang.action? n.stack.topState t.symbol = some (.reduce r))
    (reduces : n.Reduces r above taken under) (inner : taken ≠ []) :
    lang.Stretch input under.topPosition.bytes under.topState r (Stack.trees taken)
      (Stack.trees above) t
      (under.topPosition.bytes + (n.reducedNode r taken under).window) := by
  have lexed := takes.lexed
  rw [← takes.stack_eq] at lexed
  obtain ⟨good, rfl, rfl, -, -⟩ := takes.unaided
  have ready := good.ready
  have seen := n.reducedNode_seen_le r taken under
  have counted := reduces.counted ready steady action
  rw [Stack.length_path] at counted
  have held := reduces.over ready.settled
  have recorded := replayable
  unfold Stack.Replayable at recorded
  rw [reduces.split, ← Stack.stateOver_congr reduces.base] at recorded
  have each : ∀ {upper e lower}, taken = upper ++ e :: lower →
      n.lang.Replays n.input (Stack.positionOver (lower ++ under.entries)).bytes
        (under.stateOver (lower ++ under.entries)) e.tree := by
    intro upper e lower split
    have settled := held
    have entry := recorded.beneath
    rw [split, List.append_assoc] at settled entry
    refine entry.beneath.1.replays settled.beneath.1 steady fun regular => ?_
    exact reduces.not_floor ready steady action (split ▸ List.mem_append_right _ List.mem_cons_self)
      regular
  have row := Stack.replaysRow_of_over held each fun {before c after} split => by
    rw [Nat.add_assoc]
    exact Nat.add_le_add_left (n.window_le_reducedNode r taken under split) _
  have top := reduces.after_taken ready.settled
  have place := reduces.place_eq ready.settled
  have holdsAbove := replayable.trees ready.settled reduces.split
  have beneath : Stack.positionOver (taken ++ under.entries)
      = under.topPosition + total (Stack.trees taken) :=
    (ready.settled.positioned.beneath reduces.split).add_total.symm
  rw [beneath, Extent.add_bytes] at holdsAbove
  have noting := reduces.noted ready.settled ready.dated
  refine
    { row
      lifted := ?_
      lexed := ?_
      within := ?_
      action := ?_
      level := ?_
      parts := reduces.parts inner counted }
  · rw [top]
    exact Language.extrasRow_of_strays holdsAbove
      (replayable.strays ready.settled reduces.split reduces.extras) (noting.mono seen)
  · rw [top, place]
    exact lexed
  · rw [place]
    exact Nat.le_trans takes.noted seen
  · rw [top]
    exact action
  · rw [top]
    exact reduces.lexMode_eq ready steady action

/-- A reduction leaves the node on the stack, which is replayable, and the extras on it, which are
read there as they were. -/
theorem Takes.replayable_reduce (takes : s.Takes lang input t n) (steady : lang.Steady)
    (replayable : n.stack.Replayable lang input)
    (action : lang.action? n.stack.topState t.symbol = some (.reduce r)) :
    (n.reduce r).stack.Replayable lang input := by
  obtain ⟨above, taken, under, reduces⟩ := n.reduces r
  have stretch := takes.stretch steady replayable action reduces
  obtain ⟨good, rfl, rfl, -, -⟩ := takes.unaided
  have ready := good.ready
  have mode := reduces.lexMode_eq ready steady action
  have counted := reduces.counted ready steady action
  have split := reduces.split.trans (List.append_assoc _ _ _).symm
  have holds := replayable.trees ready.settled split
  have strays := replayable.strays ready.settled reduces.split reduces.extras
  rw [Stack.trees_append, Subtree.everywhereIn_append, ← Extent.add_bytes] at holds
  rw [← mode] at strays
  rw [reduces.eq]
  refine Stack.Replayable.pushAll (s := under.push ..) ?_ _ ?_ strays
  · refine (replayable.of_entries split reduces.base).push _ ⟨?_, fun leaf => ?_, fun extra => ?_⟩
    · refine Subtree.everywhere_iff.mpr ⟨⟨(n.reducedNode_sums r taken under).sound _, ?_, ?_⟩,
        holds.1⟩
      · intro leaf some
        rw [reducedNode_children] at leaf
        rw [reducedNode_size, leaf] at some
        cases some
      · intro _ inner
        rw [reducedNode_parseState]
        refine (stretch fun none => inner ?_).replays steady (n.reducedNode_makes r taken under)
          (Nat.le_refl _)
        rw [reducedNode_children, none, Stack.trees_nil]
    · have none : Stack.path taken = [] := by
        have leaf : Stack.trees taken = [] := leaf
        rw [Stack.path, leaf]
        rfl
      have top := reduces.topState_path ready.settled
      rw [none, List.foldl_nil] at top
      rw [none] at counted
      exact .inr ⟨reducedNode_extra .., top ▸ steady.nothing action counted.symm⟩
    · rw [reducedNode_extra] at extra
      cases extra
  · rw [Stack.topPosition_push, reducedNode_size]
    exact holds.2

/-- Every round that is no recovery keeps the stack replayable. -/
theorem Unaided.replayable (unaided : s.Unaided lang input) (steady : lang.Steady) (calm : s.Calm)
    (replayable : s.stack.Replayable lang input) :
    ∀ s', s.step = .moved s' ∨ s.step = .reduced s' → s'.stack.Replayable lang input := by
  obtain ⟨t, n, takes⟩ := unaided.takes
  have knows := takes.knows calm
  have lexed := takes.lexed
  have lang_eq := takes.unaided.lang_eq
  rw [← takes.stack_eq] at replayable lexed
  rw [takes.step]
  have acts := n.act_acts t
  generalize n.act n.stack.topState t = step at acts
  -- A token is pushed as it was read.
  have pushed {state : StateId} {extra : Bool} (is : (lang.traits t.symbol).extra = extra)
      (going : t.symbol ≠ Symbol.stop) :
      (n.stack.push (t.placed n.fresh n.stack.topState extra) state n.epoch).Replayable lang
        input := by
    have placed := lexed.placed is n.fresh n.stack.topState
    have sound := (takes.next.made.sound).placed takes.next.leaf n.fresh n.stack.topState extra
    refine replayable.push _ ⟨placed.replayable sound, fun _ => .inl ⟨placed.lexMode_eq, ?_⟩,
      fun _ => placed.children_eq⟩
    rw [Subtree.placed_size]
    exact takes.next.some going
  intro s' goes
  cases acts with
  | @shift target action =>
    rcases goes with ⟨⟨⟩⟩ | ⟨⟨⟩⟩
    obtain ⟨shift, going⟩ := action?_shift action
    refine pushed ?_ going
    by_contra extra
    rw [lang_eq, steady.extras_free (by simpa using extra)] at shift
    cases shift
  | shiftExtra action extra =>
    rcases goes with ⟨⟨⟩⟩ | ⟨⟨⟩⟩
    rw [lang_eq] at extra
    refine pushed extra.2 fun stop => ?_
    have regular := extra.2
    rw [stop, steady.stop_regular] at regular
    cases regular
  | @reduce r action =>
    rcases goes with ⟨⟨⟩⟩ | ⟨⟨⟩⟩
    exact takes.replayable_reduce steady replayable (lang_eq ▸ (action?_reduce action).1)
  | recover action regular | fail action regular => exact (knows.absurd action regular).elim
  | accept => rcases goes with ⟨⟨⟩⟩ | ⟨⟨⟩⟩

/-- What comes of rounds that are no recoveries is replayable below the root. -/
theorem Clears.replayable (clears : s.Clears root rounds) (steady : lang.Steady)
    (unaided : s.Unaided lang input) (replayable : s.stack.Replayable lang input) :
    EverywhereIn (Subtree.Replayable lang input) 0 root.children := by
  induction clears with
  | @done s last calm step =>
    obtain ⟨t, n, takes⟩ := unaided.takes
    have knows := takes.knows calm
    rw [← takes.stack_eq] at replayable
    rw [takes.step] at step
    obtain ⟨good, rfl, rfl, -, -⟩ := takes.unaided
    have ready := good.ready
    have acts := n.act_acts t
    rw [step] at acts
    cases acts with
    | accept action =>
      obtain ⟨accepts, stop⟩ := action?_accept action
      rw [stop] at accepts
      exact ready.accept_holds steady.toFirm accepts
        (replayable.trees ready.settled (List.append_nil _).symm)
    | fail action regular => exact (knows.absurd action regular).elim
  | @reduced s s₁ rounds calm step rest ih =>
    exact ih (unaided.step steady calm _ (.inr step))
      (unaided.replayable steady calm replayable _ (.inr step))
  | @moved s s₁ rounds calm step rest ih =>
    exact ih (unaided.step steady calm _ (.inl step))
      (unaided.replayable steady calm replayable _ (.inl step))

end Session

end Reparse
