import Reparse.Parse.Recovery
import Reparse.Proofs.Parse.Cuts
import Reparse.Proofs.Parse.Session

/-!
What recovery does to a parse.

A recovery is counted and then does one of four things: it skips tokens from the next one on,
inserts a missing token, gives up the topmost subtrees, or, at the end of the input, makes the
whole stack one error (`Session.recover_recovers`). Each of them keeps the session ready, and
the last leaves a root that spans what was read (`Ready.recovers`).
-/

namespace Reparse

open Subtree (total Everywhere EverywhereIn)

namespace Session

variable {s s' : Session} {P : Nat → Subtree → Prop} {t : Subtree} {state : StateId} {start : Nat}

/-! ### Tokens in a row -/

/-- Tokens of the text side by side, the first of them at `start`. -/
def Row (s : Session) (P : Nat → Subtree → Prop) (start : Nat) : List Subtree → Prop
  | [] => True
  | t :: rest => s.Next P start t ∧ Row s P (start + t.size.bytes) rest

theorem row_append {a b : List Subtree} :
    s.Row P start (a ++ b)
      ↔ s.Row P start a ∧ s.Row P (start + (total a).bytes) b := by
  induction a generalizing start with
  | nil => simp [Row]
  | cons t a ih =>
    rw [List.cons_append, Row, Row, ih, and_assoc, Subtree.total_cons, Extent.add_bytes,
      Nat.add_assoc]

theorem Row.congr {tokens : List Subtree} (row : s.Row P start tokens)
    (input : s'.input = s.input) : s'.Row P start tokens := by
  induction tokens generalizing start with
  | nil => trivial
  | cons t rest ih => exact ⟨row.1.congr input, ih row.2⟩

theorem Row.reading {tokens : List Subtree} (row : s.Row P start tokens)
    (reading : Reading s s') : s'.Row P start tokens :=
  row.congr reading.input_eq

theorem Row.unread {tokens : List Subtree} (row : s'.Row P start tokens)
    (reading : Reading s s') : s.Row P start tokens :=
  row.congr reading.input_eq.symm

theorem Row.everywhere {tokens : List Subtree} (row : s.Row P start tokens) :
    EverywhereIn P start tokens := by
  induction tokens generalizing start with
  | nil => exact Subtree.everywhereIn_nil
  | cons t rest ih => exact Subtree.everywhereIn_cons.mpr ⟨row.1.everywhere, ih row.2⟩

theorem Row.inside {tokens : List Subtree} (row : s.Row P start tokens)
    (inside : start ≤ s.input.size) : start + (total tokens).bytes ≤ s.input.size := by
  induction tokens generalizing start with
  | nil => exact inside
  | cons t rest ih =>
    have := ih row.2 (row.1.inside inside)
    rw [Subtree.total_cons, Extent.add_bytes]
    omega

/-- Skipping reads on, and what it gives up are tokens in a row that begin with those it had. -/
theorem skipFrom_spec (s : Session) (tokens : Nat) {position : Extent}
    {skipped extras : List Subtree} (trees : Nat) (makes : s.lang.Makes s.input s.fresh P)
    (remembers : s.Remembers)
    (row : s.Row P start (extras ++ skipped).reverse)
    (place : position.bytes = start + (total (extras ++ skipped).reverse).bytes) :
    Reading s (s.skipFrom state tokens position skipped trees extras).2
      ∧ ∀ found trees', (s.skipFrom state tokens position skipped trees extras).1
          = some (found, trees') →
        s.Row P start found ∧ skipped.reverse <+: found := by
  induction tokens generalizing s position skipped extras trees with
  | zero => exact ⟨.refl s, nofun⟩
  | succ tokens ih =>
    have is := tokenAt_eq remembers (s.lang.lexMode state) position.bytes
    have read := Reading.tokenAt s (s.lang.lexMode state) position.bytes
    unfold skipFrom
    dsimp only
    generalize s.tokenAt (s.lang.lexMode state) position.bytes = answer at is read ⊢
    obtain ⟨token, s₁⟩ := answer
    dsimp only at is read ⊢
    have lang := read.lang_eq
    have input := read.input_eq
    rw [← lang, ← input] at is
    rw [← lang]
    have next := (leafFor_next (read.makes makes) is).unread read
    have reading := read.trans (.leafFor s₁ token state (s₁.lang.lexMode state))
    generalize s₁.leafFor token state (s₁.lang.lexMode state) = made at next reading ⊢
    obtain ⟨leaf, s₂⟩ := made
    dsimp only at next reading ⊢
    have reading := reading.trans (.note s₂ position.bytes leaf)
    rw [place] at next
    have longer : (s₂.note position.bytes leaf).Row P start
        (leaf :: (extras ++ skipped)).reverse := by
      rw [List.reverse_cons, row_append]
      exact ⟨row.reading reading, next.reading reading, trivial⟩
    have further : (position + leaf.size).bytes
        = start + (total (leaf :: (extras ++ skipped)).reverse).bytes := by
      rw [List.reverse_cons, Subtree.total_append, Extent.add_bytes, Extent.add_bytes, place,
        Subtree.total_cons, Subtree.total_nil, add_zero, Nat.add_assoc]
    have remembers := reading.remembers remembers
    have makes := reading.makes makes
    split
    · refine ⟨reading, ?_⟩
      rintro _ _ ⟨⟩
      rw [List.reverse_append, row_append] at row
      exact ⟨row.1, List.prefix_rfl⟩
    · split
      · exact ⟨reading, nofun⟩
      · split
        · obtain ⟨reading', found⟩ := @ih (s₂.note position.bytes leaf) (position + leaf.size)
            skipped (leaf :: extras) trees makes remembers longer further
          refine ⟨reading.trans reading', fun tokens trees eq => ?_⟩
          obtain ⟨row, begins⟩ := found tokens trees eq
          exact ⟨row.unread reading, begins⟩
        · split
          · exact ⟨reading, nofun⟩
          · obtain ⟨reading', found⟩ := @ih (s₂.note position.bytes leaf)
              (position + leaf.size) (leaf :: (extras ++ skipped)) [] (trees + 1) makes
              remembers longer further
            refine ⟨reading.trans reading', fun tokens trees eq => ?_⟩
            obtain ⟨row, begins⟩ := found tokens trees eq
            refine ⟨row.unread reading, List.IsPrefix.trans ?_ begins⟩
            rw [List.reverse_cons, List.reverse_append, List.append_assoc]
            exact List.prefix_append _ _

/-! ### The ways on -/

/-- What a recovery before the token `lookahead` comes to, once it is counted. Only before the
end of the input the stack is wrapped, by force if the attempts ran out twice. -/
inductive Recovers (P : Nat → Subtree → Prop) (s : Session) (state : StateId) (lookahead : Subtree) :
    Option Subtree → Session → Prop
  | skip {s₁ : Session} {more : List Subtree} (reading : Reading s.countAttempt s₁)
      (regular : lookahead.symbol ≠ Symbol.stop)
      (row : s.Row P s.stack.topPosition.bytes (lookahead :: more)) :
      Recovers P s state lookahead none (s₁.skipTokens state (lookahead :: more))
  | insert {s₁ : Session} {symbol : Symbol} (reading : Reading s.countAttempt s₁)
      (helps : s₁.missingToken? lookahead.symbol = some symbol)
      (attempts : s₁.attempts ≤ s₁.options.maxAttempts) :
      Recovers P s state lookahead none (s₁.insertMissing symbol)
  | pop {s₁ : Session} {cut : Cut} (reading : Reading s.countAttempt s₁)
      (found : s₁.cutFor? lookahead.symbol = some cut)
      (attempts : s₁.attempts ≤ s₁.options.maxAttempts) :
      Recovers P s state lookahead none (s₁.popInto cut)
  | wrap {s₁ : Session} (reading : Reading s.countAttempt s₁)
      (atEnd : lookahead.symbol = Symbol.stop) :
      Recovers P s state lookahead
        (s₁.wrap (decide (s₁.options.maxAttempts + 1 < s₁.attempts))).1
        (s₁.wrap (decide (s₁.options.maxAttempts + 1 < s₁.attempts))).2

/-- The second of two candidates is taken over the first, or the first. -/
theorem cheaper_cases (best next : Option (Nat × Recovery)) :
    cheaper best next = best ∨ cheaper best next = next := by
  unfold cheaper
  split
  · split
    · exact .inr rfl
    · exact .inl rfl
  · exact .inl rfl
  · exact .inr rfl

theorem skipCandidate_spec (s : Session) (first : Subtree) (makes : s.lang.Makes s.input s.fresh P)
    (remembers : s.Remembers)
    (next : s.Next P s.stack.topPosition.bytes first) :
    Reading s (s.skipCandidate state first).2
      ∧ ∀ cost way, (s.skipCandidate state first).1 = some (cost, way) →
        ∃ more, way = .skip (first :: more)
          ∧ s.Row P s.stack.topPosition.bytes (first :: more) := by
  obtain ⟨reading, spec⟩ := @skipFrom_spec P state s.stack.topPosition.bytes s
    (s.input.size - (s.stack.topPosition + first.size).bytes + 1)
    (s.stack.topPosition + first.size) [first] [] 1 makes remembers ⟨next, trivial⟩ (by simp)
  refine ⟨reading, fun cost way found => ?_⟩
  obtain ⟨⟨tokens, trees⟩, found, is⟩ := Option.map_eq_some_iff.mp found
  obtain ⟨row, more, rfl⟩ := spec tokens trees found
  exact ⟨more, (Prod.mk.inj is).2.symm, row⟩

/-- What is inserted is a terminal, and not the end of the input. -/
theorem missingToken?_spec (table : s.lang.table.Sound) {lookahead symbol : Symbol}
    (found : s.missingToken? lookahead = some symbol) :
    symbol.toNat < s.lang.table.tokenCount ∧ symbol ≠ Symbol.stop := by
  have member := List.mem_of_find?_eq_some found
  simp only [List.mem_map, List.mem_range] at member
  obtain ⟨i, before, rfl⟩ := member
  have := table.tokens_le
  have := table.symbols_lt
  have size : Symbol.error.toNat = 65535 := rfl
  have toNat : (i + 1).toUInt16.toNat = i + 1 := by
    rw [Nat.toUInt16_eq, UInt16.toNat_ofNat']
    exact Nat.mod_eq_of_lt (by omega)
  refine ⟨by omega, fun stop => ?_⟩
  rw [stop] at toNat
  cases toNat

/-- The best way out of an error is one that is open. -/
theorem candidate_cases (s : Session) (state : StateId) (lookahead : Subtree)
    (makes : s.lang.Makes s.input s.fresh P) (remembers : s.Remembers)
    (next : s.Next P s.stack.topPosition.bytes lookahead) :
    ∃ s₁, (s.candidate state lookahead).2 = s₁ ∧ Reading s s₁
      ∧ ∀ cost way, (s.candidate state lookahead).1 = some (cost, way) →
        (∃ more, lookahead.symbol ≠ Symbol.stop ∧ way = .skip (lookahead :: more)
            ∧ s.Row P s.stack.topPosition.bytes (lookahead :: more))
          ∨ (∃ symbol, way = .insert symbol ∧ s₁.missingToken? lookahead.symbol = some symbol)
          ∨ ∃ cut, way = .pop cut ∧ s₁.cutFor? lookahead.symbol = some cut := by
  unfold candidate
  dsimp only
  have skips : ∃ skip s₁, (if lookahead.symbol = Symbol.stop then (none, s)
        else s.skipCandidate state lookahead) = (skip, s₁) ∧ Reading s s₁
      ∧ ∀ cost way, skip = some (cost, way) → ∃ more, lookahead.symbol ≠ Symbol.stop
        ∧ way = .skip (lookahead :: more)
        ∧ s.Row P s.stack.topPosition.bytes (lookahead :: more) := by
    split
    · exact ⟨none, s, rfl, .refl s, nofun⟩
    · rename_i regular
      obtain ⟨reading, spec⟩ := s.skipCandidate_spec lookahead makes remembers next
      refine ⟨_, _, rfl, reading, fun cost way found => ?_⟩
      obtain ⟨more, is, row⟩ := spec cost way found
      exact ⟨more, regular, is, row⟩
  obtain ⟨skip, s₁, eq, reading, spec⟩ := skips
  rw [eq]
  dsimp only
  refine ⟨s₁, rfl, reading, fun cost way found => ?_⟩
  rcases cheaper_cases (cheaper skip ((s₁.missingToken? lookahead.symbol).map fun symbol =>
    (Cost.missing, .insert symbol))) ((s₁.cutFor? lookahead.symbol).map fun cut =>
    (Cost.skipped cut.trees cut.size, .pop cut)) with is | is
  · rw [is] at found
    rcases cheaper_cases skip ((s₁.missingToken? lookahead.symbol).map fun symbol =>
      (Cost.missing, .insert symbol)) with is | is
    · rw [is] at found
      exact .inl (spec cost way found)
    · rw [is] at found
      obtain ⟨symbol, helps, is⟩ := Option.map_eq_some_iff.mp found
      exact .inr (.inl ⟨symbol, (Prod.mk.inj is).2.symm, helps⟩)
  · rw [is] at found
    obtain ⟨cut, cuts, is⟩ := Option.map_eq_some_iff.mp found
    exact .inr (.inr ⟨cut, (Prod.mk.inj is).2.symm, cuts⟩)

theorem recover_recovers (s : Session) (state : StateId) (lookahead : Subtree)
    (makes : s.lang.Makes s.input s.fresh P) (remembers : s.Remembers)
    (next : s.Next P s.stack.topPosition.bytes lookahead) :
    s.Recovers P state lookahead (s.recover state lookahead).1
      (s.recover state lookahead).2 := by
  unfold recover
  dsimp only
  have counted : Reading s.countAttempt
      (s.countAttempt.emit (.failed state lookahead.symbol)) := .emit _ _
  generalize s.countAttempt.emit (.failed state lookahead.symbol) = s₁ at counted ⊢
  split
  · have reading := counted.trans
      (.emit s₁ (.gaveUp s.stack.topPosition.bytes s₁.options.maxAttempts))
    split
    · rename_i atEnd
      exact .wrap reading (beq_iff_eq.mp atEnd)
    · rename_i regular
      exact .skip reading (by simpa using regular) ⟨next, trivial⟩
  · rename_i attempts
    have place : s₁.stack.topPosition.bytes = s.stack.topPosition.bytes :=
      congrArg (·.topPosition.bytes) counted.stack_eq
    have next₁ : s₁.Next P s₁.stack.topPosition.bytes lookahead := by
      rw [place]
      exact next.congr counted.input_eq
    have remembers₁ : s₁.Remembers := counted.remembers remembers
    obtain ⟨s₂, eq, reading, cases⟩ := s₁.candidate_cases state lookahead
      (counted.makes makes) remembers₁ next₁
    have reading := counted.trans reading
    have within : s₂.attempts ≤ s₂.options.maxAttempts := by
      rw [reading.attempts_eq, reading.options_eq, ← counted.attempts_eq, ← counted.options_eq]
      exact Nat.le_of_not_lt attempts
    split
    · rename_i cost way s₂' found
      obtain rfl : s₂' = s₂ := by rw [← eq, found]
      rcases cases cost way (by rw [found]) with
        ⟨more, regular, rfl, row⟩ | ⟨symbol, rfl, helps⟩ | ⟨cut, rfl, cuts⟩
      · rw [place] at row
        have row : s.Row P _ _ := row.congr counted.input_eq.symm
        exact .skip ((reading.trans (.emit _ _)).trans (.emit _ _)) regular row
      · exact .insert ((reading.trans (.emit _ _)).trans (.emit _ _)) helps within
      · exact .pop ((reading.trans (.emit _ _)).trans (.emit _ _)) cuts within
    · rename_i s₂' found
      obtain rfl : s₂' = s₂ := by rw [← eq, found]
      have calm : decide (s₂'.options.maxAttempts + 1 < s₂'.attempts) = false := by
        simp only [decide_eq_false_iff_not]
        omega
      split
      · rename_i atEnd
        rw [← calm]
        exact .wrap reading (beq_iff_eq.mp atEnd)
      · rename_i regular
        exact .skip reading (by simpa using regular) ⟨next, trivial⟩

theorem skipTokens_restacks (s : Session) (state : StateId) (tokens : List Subtree) :
    Restacks s (s.skipTokens state tokens) := by
  unfold skipTokens
  split <;> exact ⟨_, _, _, _, rfl⟩

theorem insertIn_restacks (s : Session) (symbol : Symbol) (steps : Nat) :
    Restacks s (s.insertIn symbol steps) := by
  induction steps generalizing s with
  | zero => exact ⟨_, _, _, _, rfl⟩
  | succ steps ih =>
    rw [insertIn]
    dsimp only
    split
    · exact (s.reduce_restacks _).trans (ih _)
    · exact ⟨_, _, _, _, rfl⟩
    · exact ⟨_, _, _, _, rfl⟩
    · exact ⟨_, _, _, _, rfl⟩

theorem wrap_restacks (s : Session) (force : Bool) : Restacks s (s.wrap force).2 := by
  unfold wrap
  dsimp only
  split
  · exact ⟨_, _, _, _, rfl⟩
  · split <;> exact ⟨_, _, _, _, rfl⟩

/-- A recovery is counted, reads ahead and rebuilds the stack; all else stays. -/
theorem Recovers.restacks {lookahead : Subtree} {root : Option Subtree}
    (recovers : s.Recovers P state lookahead root s') :
    ∃ s₁, Reading s.countAttempt s₁ ∧ Restacks s₁ s' := by
  cases recovers with
  | @skip s₁ more reading => exact ⟨s₁, reading, skipTokens_restacks ..⟩
  | @insert s₁ symbol reading => exact ⟨s₁, reading, insertIn_restacks ..⟩
  | @pop s₁ cut reading => exact ⟨s₁, reading, ⟨_, _, _, _, rfl⟩⟩
  | @wrap s₁ reading => exact ⟨s₁, reading, wrap_restacks ..⟩

/-! ### Ready sessions -/

/-- Once a recovery is counted, all on the stack is older than it. -/
theorem Ready.counted (ready : s.Ready P) {s₁ : Session} (reading : Reading s.countAttempt s₁) :
    s₁.Ready P ∧ ∀ e ∈ s₁.stack.entries, e.epoch < s₁.epoch := by
  have counted : s.countAttempt.Ready P :=
    ⟨ready.table, ready.makes, ready.base, ready.settled,
      ready.dated.mono (Nat.le_succ _) (Nat.le_refl _), fun erred => (ready.stale erred).mono
        (Nat.le_succ _), ready.inside, ready.remembers, ready.ahead⟩
  refine ⟨counted.reading reading, ?_⟩
  obtain ⟨⟨_, _, _, _, -, rfl⟩, -⟩ := reading
  exact fun e member => Nat.lt_succ_of_le (ready.dated.le e member)

/-- What is left when entries are taken off may get an error on top. -/
theorem Ready.error (ready : s.Ready P) {above : List Entry} {stack : Stack} {epoch : Nat}
    (split : s.stack.entries = above ++ stack.entries) (base : stack.base = s.stack.base)
    (older : ∀ e ∈ s.stack.entries, e.epoch < s.epoch)
    (later : ∀ e ∈ stack.entries, e.epoch ≤ epoch) (le : epoch ≤ s.epoch)
    (holds : Everywhere P stack.topPosition.bytes t) (extra : t.extra = true)
    (error : t.isError = true)
    (inside : stack.topPosition.bytes + t.size.bytes ≤ s.input.size) :
    ({ s with stack, fresh := s.fresh + 1 }.push t stack.topState epoch).Ready P := by
  have dated := (ready.dated.of_entries split).push (t := t) (q := stack.topState) later le
    (fun regular => by rw [extra] at regular; cases regular)
    (fun _ regular => by rw [error] at regular; cases regular)
  refine ready.restack ⟨_, _, _, _, rfl⟩ (Nat.le_succ _) base
    ((ready.settled.of_entries split base).pushExtra epoch holds extra rfl) dated (fun _ => ?_)
    inside
  refine (Stack.stale_of_lt fun e member => ?_).pushExtra extra
  exact older e (split ▸ List.mem_append_right _ member)

/-- The error node on top takes in the extras on it and the tokens that follow. -/
theorem Ready.grow (ready : s.Ready P) {tokens extras : List Subtree}
    {error : Subtree} {epoch : Nat} {stack : Stack}
    (older : ∀ e ∈ s.stack.entries, e.epoch < s.epoch)
    (row : s.Row P s.stack.topPosition.bytes tokens)
    (popped : s.stack.popError = some (error, extras, epoch, stack)) :
    ({ s with stack, fresh := s.fresh + 1 }.push (error.append s.fresh (extras ++ tokens))
        s.stack.topState epoch).Ready P
      ∧ stack.topPosition + (error.append s.fresh (extras ++ tokens)).size
        = s.stack.topPosition + total tokens := by
  obtain ⟨above, e, rest, split, rfl, rfl, rfl, rfl, base, extra, isError, inner, allExtra⟩ :=
    Stack.popError_spec popped
  have split : s.stack.entries = (above ++ [e]) ++ stack.entries := by
    rw [List.append_assoc, List.singleton_append]
    exact split
  have state : s.stack.topState = stack.topState := by
    rw [← Stack.stateOver_entries base]
    refine ready.settled.stateOver_extras split fun a member => ?_
    rcases List.mem_append.mp member with member | member
    · exact allExtra a member
    · rw [List.mem_singleton.mp member]
      exact extra
  obtain ⟨holds, position⟩ := ready.settled.trees split
  rw [Stack.trees_append, Stack.trees_cons, Stack.trees_nil, List.nil_append,
    Subtree.everywhereIn_append, Subtree.everywhereIn_singleton] at holds
  rw [Stack.trees_append, Stack.trees_cons, Stack.trees_nil, List.nil_append,
    Subtree.total_append] at position
  rw [Subtree.total_cons, Subtree.total_nil, add_zero] at holds position
  have sound := ready.makes.sound (holds.1 _ _ .here)
  have sums := sound.append_sums isError inner (Stack.trees above ++ tokens)
  have size : (e.tree.append s.fresh (Stack.trees above ++ tokens)).size
      = e.tree.size + (total (Stack.trees above) + total tokens) := by
    rw [sound.size_eq inner, ← Subtree.total_append, ← Subtree.total_append]
    exact sums.size_eq
  have place : stack.topPosition + (e.tree.append s.fresh (Stack.trees above ++ tokens)).size
      = s.stack.topPosition + total tokens := by
    rw [size, ← position, add_assoc, add_assoc]
    rfl
  have grownExtra : (e.tree.append s.fresh (Stack.trees above ++ tokens)).extra = true := by
    rw [← extra]
    exact Summary.append_unchanged (·.extra) (fun _ _ => rfl) (fun _ _ _ => rfl) _ _ _
  have grownError : (e.tree.append s.fresh (Stack.trees above ++ tokens)).isError = true :=
    (Summary.append_isError ..).trans isError
  have everywhere := ready.makes.everywhere_errors sums grownError grownExtra (by
      rw [Subtree.everywhereIn_append, Subtree.everywhereIn_append, ← sound.size_eq inner]
      refine ⟨(Subtree.everywhere_iff.mp holds.1).2, holds.2, ?_⟩
      have := row.everywhere
      rwa [← position, Extent.add_bytes, Extent.add_bytes, ← Nat.add_assoc] at this)
  have sorted := ready.dated.sorted
  rw [split, List.append_assoc, List.pairwise_append] at sorted
  rw [state]
  refine ⟨ready.error split base older (List.pairwise_cons.mp sorted.2.1).1 ?_ everywhere
    grownExtra grownError ?_, place⟩
  · exact ready.dated.le e (by rw [split]; simp)
  · exact Nat.le_trans (Nat.le_of_eq (congrArg Extent.bytes place)) (row.inside ready.inside)

/-- Tokens go into an error node, which may have been there before. -/
theorem Ready.skipTokens (ready : s.Ready P) {tokens : List Subtree}
    (older : ∀ e ∈ s.stack.entries, e.epoch < s.epoch)
    (row : s.Row P s.stack.topPosition.bytes tokens) :
    (s.skipTokens s.stack.topState tokens).Ready P
      ∧ (s.skipTokens s.stack.topState tokens).stack.topPosition
        = s.stack.topPosition + total tokens := by
  unfold Session.skipTokens
  split
  · rename_i error extras epoch stack popped
    exact ready.grow older row popped
  · have sums := @Subtree.errorNode_sums s.lang s.fresh tokens s.stack.topState
    have size : (Subtree.errorNode s.fresh s.lang tokens s.stack.topState).size = total tokens :=
      sums.size_eq
    refine ⟨@Ready.error _ _ _ ready [] s.stack s.epoch (List.nil_append _).symm rfl older ready.dated.le
      (Nat.le_refl _) ?_ rfl (Subtree.errorNode_isError ..) ?_, ?_⟩
    · exact ready.makes.everywhere_errors sums (Subtree.errorNode_isError s.fresh ..) rfl
        row.everywhere
    · rw [size]
      exact row.inside ready.inside
    · rw [← size]
      rfl

/-- A missing token settles in the state the table leads to. -/
theorem Ready.missing (ready : s.Ready P) {symbol : Symbol} {target : StateId}
    (terminal : symbol.toNat < s.lang.table.tokenCount)
    (action : s.lang.action? s.stack.topState symbol = some (.shift target)) :
    ({ s with fresh := s.fresh + 1 }.push (.missingLeaf s.fresh s.lang symbol s.stack.topState
      (s.lang.lexMode s.stack.topState)) target s.epoch).Ready P := by
  have made : P s.stack.topPosition.bytes _ := ready.makes.missing terminal action s.fresh (Nat.le_refl _)
  have place : s.stack.topPosition + (0 : Extent) = s.stack.topPosition := add_zero _
  refine ready.restack ⟨_, _, _, _, rfl⟩ (Nat.le_succ _) rfl ?_ ?_ ?_ ?_
  · exact ready.settled.push s.epoch
      { position_eq := rfl
        holds := Subtree.everywhere_iff.mpr ⟨made, Subtree.everywhereIn_nil⟩
        extra_state := fun extra => absurd extra Bool.false_ne_true
        next_state := fun _ => by
          change target = s.lang.next s.stack.topState symbol
          rw [Language.next, action]
        parseState_eq := fun _ => rfl
        shifted := fun _ _ _ => action }
  · exact ready.dated.push ready.dated.le (Nat.le_refl _) (fun _ inner => absurd rfl inner)
      fun extra => absurd extra Bool.false_ne_true
  · exact fun erred => absurd erred (Stack.not_erred_push rfl)
  · exact Nat.le_trans (Nat.le_of_eq (congrArg Extent.bytes place)) ready.inside

theorem Ready.insertIn (ready : s.Ready P) (builds : Builds s.lang s.input P)
    (stale : s.stack.Stale s.epoch) {symbol : Symbol}
    (terminal : symbol.toNat < s.lang.table.tokenCount) (steps : Nat) :
    (s.insertIn symbol steps).Ready P
      ∧ (s.insertIn symbol steps).stack.topPosition = s.stack.topPosition := by
  induction steps generalizing s with
  | zero => exact ⟨ready, rfl⟩
  | succ steps ih =>
    rw [Session.insertIn]
    dsimp only
    split
    · rename_i r action
      have after := ready.reduce action fun above taken under reduces =>
        builds.inserted rfl rfl ready action reduces (reduces.stale stale).1
      obtain ⟨above, taken, under, reduces⟩ := s.reduces r
      obtain ⟨after, place⟩ := ih after builds (reduces.stale stale).2 terminal
      exact ⟨after, place.trans (ready.reduce_topPosition r)⟩
    · rename_i target action
      exact ⟨ready.missing terminal action, add_zero _⟩
    · exact ⟨ready, rfl⟩
    · exact ⟨ready, rfl⟩

/-- The topmost entries may become one error node. -/
theorem Ready.enclose (ready : s.Ready P) {above : List Entry} {stack : Stack}
    (older : ∀ e ∈ s.stack.entries, e.epoch < s.epoch)
    (split : s.stack.entries = above ++ stack.entries) (base : stack.base = s.stack.base) :
    ({ s with stack, fresh := s.fresh + 1 }.push
        (.errorNode s.fresh s.lang (Stack.trees above) stack.topState) stack.topState
        s.epoch).Ready P
      ∧ stack.topPosition + total (Stack.trees above) = s.stack.topPosition := by
  obtain ⟨holds, place⟩ := ready.settled.trees split
  have sums := @Subtree.errorNode_sums s.lang s.fresh (Stack.trees above) stack.topState
  have everywhere := ready.makes.everywhere_errors sums (Subtree.errorNode_isError s.fresh ..) rfl
    holds
  refine ⟨ready.error split base older (fun e member => ?_) (Nat.le_refl _) everywhere rfl
    (Subtree.errorNode_isError ..) ?_, place⟩
  · exact ready.dated.le e (split ▸ List.mem_append_right _ member)
  · have inside := ready.inside
    rw [← place, ← sums.size_eq] at inside
    exact inside

/-- Giving up subtrees makes them an error node in the state beneath them. -/
theorem Ready.popInto (ready : s.Ready P) {maxTrees : Nat} {cut : Cut}
    (older : ∀ e ∈ s.stack.entries, e.epoch < s.epoch) (found : cut ∈ s.stack.cuts maxTrees) :
    (s.popInto cut).Ready P
      ∧ (s.popInto cut).stack.topPosition = s.stack.topPosition := by
  have state := (ready.settled.positioned.foretold found).topState_eq
  obtain ⟨above, split, popped⟩ := s.stack.popTo_split cut.remaining
  obtain ⟨after, place⟩ := ready.enclose older split rfl
  rw [← popped, state] at after
  refine ⟨after, ?_⟩
  have sums := @Subtree.errorNode_sums s.lang s.fresh (Stack.trees above) cut.state
  rw [← place, ← sums.size_eq, ← popped]
  rfl

theorem errorRoot_sums (s : Session) (children : List Subtree) :
    (s.errorRoot children).info.Sums children :=
  (Summary.ofChildren_sums s.lang Symbol.error children 0 s.stack.base).reaching
    (Summary.ofChildren s.lang Symbol.error children 0 s.stack.base).precedence
    (Summary.ofChildren s.lang Symbol.error children 0 s.stack.base).fragile
    (s.seen - (Summary.ofChildren s.lang Symbol.error children 0 s.stack.base).size.bytes)

/-- The root that a parse leaves if only an error is left. -/
structure Failed (lang : Language) (input : Array UInt8) (P : Nat → Subtree → Prop)
    (root : Subtree) : Prop where
  sums : root.info.Sums root.children
  isError : root.isError = true
  holds : EverywhereIn P 0 root.children
  makes : lang.Makes input root.stamp P

/-- Wrapping the stack leaves an error as large as all that was on it, as a node on the stack or
as the root. -/
theorem Ready.wrap (ready : s.Ready P) (older : ∀ e ∈ s.stack.entries, e.epoch < s.epoch)
    (force : Bool) :
    (∀ root, (s.wrap force).1 = some root →
      Failed s.lang s.input P root ∧ root.size = s.stack.topPosition)
    ∧ ((s.wrap force).1 = none → (s.wrap force).2.Ready P
      ∧ (s.wrap force).2.stack.topPosition = s.stack.topPosition) := by
  obtain ⟨trees, entries, base⟩ := s.stack.popAll_spec
  have split : s.stack.entries = s.stack.entries ++ s.stack.popAll.2.entries := by
    rw [entries, List.append_nil]
  obtain ⟨holds, place⟩ := ready.settled.trees split
  unfold Session.wrap
  generalize s.stack.popAll = popped at trees entries base split holds place ⊢
  obtain ⟨trees', stack⟩ := popped
  dsimp only at trees entries base split holds place ⊢
  subst trees
  have top : stack.topState = stack.base := by rw [Stack.topState, entries, Stack.stateOver]
  have bottom : stack.topPosition = 0 := by rw [Stack.topPosition, entries, Stack.positionOver]; rfl
  change EverywhereIn _ stack.topPosition.bytes _ at holds
  change stack.topPosition + _ = _ at place
  rw [bottom] at holds
  split
  · refine ⟨?_, nofun⟩
    rintro _ ⟨⟩
    have sums := errorRoot_sums
      ({ s with stack }.emit (.wrapped (Stack.trees s.stack.entries).length))
      (Stack.trees s.stack.entries)
    rw [bottom, zero_add] at place
    exact ⟨⟨sums, Summary.ofChildren_isError .., holds, ready.makes⟩, sums.size_eq.trans place⟩
  · split
    · rename_i empty
      refine ⟨nofun, fun _ => ?_⟩
      have same : stack.topPosition = s.stack.topPosition := by
        rw [List.isEmpty_iff.mp empty, Subtree.total_nil, add_zero] at place
        exact place
      refine ⟨ready.restack ⟨_, _, _, _, rfl⟩ (Nat.le_refl _) base (ready.settled.of_entries split base)
        (Stack.dated_empty entries) (fun _ => Stack.stale_of_lt ?_) ?_, same⟩
      · simp [Session.emit, entries]
      · exact Nat.le_trans (Nat.le_of_eq (congrArg Extent.bytes same)) ready.inside
    · refine ⟨nofun, fun _ => ?_⟩
      obtain ⟨after, _⟩ := (ready.reading (.emit s (.wrapped (Stack.trees s.stack.entries).length))
        ).enclose older split base
      rw [top] at after
      have sums := @Subtree.errorNode_sums s.lang s.fresh (Stack.trees s.stack.entries)
        stack.base
      rw [← sums.size_eq] at place
      exact ⟨after, place⟩

/-- Recovery keeps a session ready, or ends the parse with an error root that spans all that was
read. It never goes back in the text. -/
theorem Ready.recovers (ready : s.Ready P) (builds : Builds s.lang s.input P) {lookahead : Subtree}
    {root : Option Subtree} (recovers : s.Recovers P s.stack.topState lookahead root s') :
    (∀ t, root = some t → lookahead.symbol = Symbol.stop ∧ Failed s.lang s.input P t
        ∧ t.size = s.stack.topPosition)
      ∧ (root = none → s'.Ready P
        ∧ s.stack.topPosition.bytes ≤ s'.stack.topPosition.bytes) := by
  cases recovers with
  | @skip s₁ more reading regular row =>
    refine ⟨nofun, fun _ => ?_⟩
    obtain ⟨ready₁, older⟩ := ready.counted reading
    have stack : s₁.stack = s.stack := reading.stack_eq
    have row₁ : s₁.Row P s₁.stack.topPosition.bytes (lookahead :: more) := by
      rw [stack]
      exact row.congr reading.input_eq
    obtain ⟨after, place⟩ := ready₁.skipTokens older row₁
    rw [stack] at after place
    exact ⟨after, by rw [place]; exact Nat.le_add_right _ _⟩
  | @insert s₁ symbol reading helps attempts =>
    refine ⟨nofun, fun _ => ?_⟩
    obtain ⟨ready₁, older⟩ := ready.counted reading
    have builds₁ : Builds s₁.lang s₁.input P := by
      rw [reading.lang_eq, reading.input_eq]
      exact builds
    obtain ⟨after, place⟩ := ready₁.insertIn builds₁ (Stack.stale_of_lt older)
      (missingToken?_spec ready₁.table helps).1 s₁.reductionLimit
    rw [reading.stack_eq] at place
    exact ⟨after, Nat.le_of_eq (congrArg Extent.bytes place.symm)⟩
  | @pop s₁ cut reading found attempts =>
    refine ⟨nofun, fun _ => ?_⟩
    obtain ⟨ready₁, older⟩ := ready.counted reading
    obtain ⟨after, place⟩ := ready₁.popInto older (List.mem_of_find?_eq_some found)
    rw [reading.stack_eq] at place
    exact ⟨after, Nat.le_of_eq (congrArg Extent.bytes place.symm)⟩
  | @wrap s₁ reading atEnd =>
    obtain ⟨ready₁, older⟩ := ready.counted reading
    obtain ⟨ends, goes⟩ := ready₁.wrap older
      (decide (s₁.options.maxAttempts + 1 < s₁.attempts))
    rw [reading.stack_eq] at ends goes
    rw [reading.lang_eq, reading.input_eq] at ends
    refine ⟨fun t found => ⟨atEnd, ends t found⟩, fun none => ?_⟩
    obtain ⟨after, place⟩ := goes none
    exact ⟨after, Nat.le_of_eq (congrArg Extent.bytes place.symm)⟩

end Session

end Reparse
