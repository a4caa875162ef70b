import Reparse.Proofs.Parse.Plain

/-!
Sessions that agree take the same steps.

Sessions that agree recover alike (`Same.recover`) and act alike on plainly equal tokens
(`Same.act`). Whatever their next tokens come from, they join (`Session.Joins`) if they come to the
same roots, plainly.
-/

namespace Reparse

open Subtree (total)

/-- A way out of an error, with the tokens to skip as they are plainly. -/
def Recovery.plain : Recovery → Recovery
  | .skip tokens => .skip (tokens.map Subtree.plain)
  | .insert symbol => .insert symbol
  | .pop cut => .pop cut

namespace Session

variable {s s' s₁ s₁' : Session} {t t' : Subtree} {state : StateId}

/-! ### Tokens -/

/-- The same token stands in the same text. -/
theorem Alike.tokenAt (alike : Alike s s') (remembers : s.Remembers) (remembers' : s'.Remembers)
    (mode : LexMode) (offset : Nat) : (s.tokenAt mode offset).1 = (s'.tokenAt mode offset).1 := by
  rw [tokenAt_eq remembers, tokenAt_eq remembers', alike.1, alike.2.1]

theorem Alike.leafFor (alike : Alike s s') (token : Token) (q q' : StateId) (mode : LexMode) :
    (s.leafFor token q mode).1.plain = (s'.leafFor token q' mode).1.plain := by
  unfold Session.leafFor
  rw [alike.1, alike.2.1]
  exact Subtree.plain_ext rfl rfl

theorem Alike.emit (alike : Alike s s') (event event' : Event) :
    Alike (s.emit event) (s'.emit event') :=
  alike

/-! ### Skipping -/

theorem Reading.skipFrom (q : StateId) (tokens : Nat) (s : Session) (position : Extent)
    (skipped : List Subtree) (trees : Nat) (extras : List Subtree) :
    Reading s (s.skipFrom q tokens position skipped trees extras).2 := by
  induction tokens generalizing s position skipped trees extras with
  | zero => exact .refl s
  | succ tokens ih =>
    have read := Reading.tokenAt s (s.lang.lexMode q) position.bytes
    unfold Session.skipFrom
    dsimp only
    generalize s.tokenAt (s.lang.lexMode q) position.bytes = answer at read ⊢
    obtain ⟨token, s₁⟩ := answer
    have reading := (read.trans (.leafFor s₁ token q (s.lang.lexMode q))).trans
      (.note _ position.bytes (s₁.leafFor token q (s.lang.lexMode q)).1)
    split
    · exact reading
    · split
      · exact reading
      · split
        · exact reading.trans (ih ..)
        · split
          · exact reading
          · exact reading.trans (ih ..)

/-- What is left of tokens to skip when only what they are plainly counts. -/
def plainSkip (found : Option (List Subtree × Nat)) : Option (List Subtree × Nat) :=
  found.map fun (tokens, trees) => (tokens.map Subtree.plain, trees)

theorem Same.skipFrom (same : Same s s') (few : s.Few) (few' : s'.Few) (remembers : s.Remembers)
    (remembers' : s'.Remembers) (q : StateId) (tokens : Nat) (position : Extent)
    {skipped skipped' extras extras' : List Subtree}
    (skips : skipped.map Subtree.plain = skipped'.map Subtree.plain) (trees : Nat)
    (lifts : extras.map Subtree.plain = extras'.map Subtree.plain) :
    plainSkip (s.skipFrom q tokens position skipped trees extras).1
      = plainSkip (s'.skipFrom q tokens position skipped' trees extras').1 := by
  induction tokens generalizing s s' position skipped skipped' trees extras extras' with
  | zero => rfl
  | succ tokens ih =>
    have is := same.alike.tokenAt remembers remembers' (s.lang.lexMode q) position.bytes
    have read := Reading.tokenAt s (s.lang.lexMode q) position.bytes
    have read' := Reading.tokenAt s' (s.lang.lexMode q) position.bytes
    unfold Session.skipFrom
    dsimp only
    rw [same.alike.1]
    generalize s.tokenAt (s.lang.lexMode q) position.bytes = answer at is read ⊢
    generalize s'.tokenAt (s.lang.lexMode q) position.bytes = answer' at is read' ⊢
    obtain ⟨token, s₁⟩ := answer
    obtain ⟨token', s₁'⟩ := answer'
    obtain rfl : token = token' := is
    have leaves := (same.reading read read').alike.leafFor token q q (s.lang.lexMode q)
    have reading := read.trans (.leafFor s₁ token q (s.lang.lexMode q))
    have reading' := read'.trans (.leafFor s₁' token q (s.lang.lexMode q))
    generalize s₁.leafFor token q (s.lang.lexMode q) = made at leaves reading ⊢
    generalize s₁'.leafFor token q (s.lang.lexMode q) = made' at leaves reading' ⊢
    obtain ⟨leaf, s₂⟩ := made
    obtain ⟨leaf', s₂'⟩ := made'
    dsimp only at leaves reading reading' ⊢
    have reading := reading.trans (.note s₂ position.bytes leaf)
    have reading' := reading'.trans (.note s₂' position.bytes leaf')
    have same := same.reading reading reading'
    have few := few.reading reading
    have few' := few'.reading reading'
    have symbol := Subtree.symbol_of_plain leaves
    have size := Subtree.size_of_plain leaves
    have action := action?_same same.alike.1 few few' q leaf.symbol
    have again (position : Extent) {skipped skipped' extras extras' : List Subtree} (trees : Nat)
        (skips : skipped.map Subtree.plain = skipped'.map Subtree.plain)
        (lifts : extras.map Subtree.plain = extras'.map Subtree.plain) :=
      ih same few few' (reading.remembers remembers) (reading'.remembers remembers') position skips
        trees lifts
    rw [← symbol, ← size, ← action, ← Subtree.isError_of_plain leaves,
      ← Subtree.extra_of_plain leaves, same.alike.2.2]
    split
    · simp only [plainSkip, Option.map_some, List.map_reverse, skips]
    · split
      · rfl
      · split
        · refine again _ _ skips ?_
          rw [List.map_cons, List.map_cons, leaves, lifts]
        · split
          · rfl
          · refine again _ _ ?_ rfl
            simp only [List.map_append, List.map_cons, leaves, lifts, skips]

theorem Reading.skipCandidate (s : Session) (q : StateId) (t : Subtree) :
    Reading s (s.skipCandidate q t).2 := by
  have reading := Reading.skipFrom q (s.input.size - (s.stack.topPosition + t.size).bytes + 1) s
    (s.stack.topPosition + t.size) [t] 1 []
  exact reading

theorem totalSize_plain (ts : List Subtree) : totalSize (ts.map Subtree.plain) = totalSize ts := by
  unfold totalSize
  rw [List.foldl_map]
  simp only [Subtree.plain_size]

/-- What a candidate comes to when only what its tokens are plainly counts. -/
def plainWay (way : Option (Nat × Recovery)) : Option (Nat × Recovery) :=
  way.map fun (cost, way) => (cost, way.plain)

theorem plainWay_cheaper (best next : Option (Nat × Recovery)) :
    plainWay (cheaper best next) = cheaper (plainWay best) (plainWay next) := by
  cases best with
  | none => cases next <;> rfl
  | some b =>
    cases next with
    | none => rfl
    | some n =>
      simp only [plainWay, Option.map_some, cheaper]
      split <;> rfl

theorem Same.skipCandidate (same : Same s s') (few : s.Few) (few' : s'.Few)
    (remembers : s.Remembers) (remembers' : s'.Remembers) (q : StateId)
    (first : t.plain = t'.plain) :
    plainWay (s.skipCandidate q t).1 = plainWay (s'.skipCandidate q t').1 := by
  have found := same.skipFrom few few' remembers remembers' q
    (s.input.size - (s.stack.topPosition + t.size).bytes + 1) (s.stack.topPosition + t.size)
    (show [t].map Subtree.plain = [t'].map Subtree.plain by simp [first]) 1
    (show ([] : List Subtree).map Subtree.plain = [].map Subtree.plain from rfl)
  unfold Session.skipCandidate
  dsimp only
  rw [same.alike.2.1, ← same.topPosition, ← Subtree.size_of_plain first]
  generalize s.skipFrom q _ _ [t] 1 [] = answer at found
  generalize s'.skipFrom q _ _ [t'] 1 [] = answer' at found
  obtain ⟨found₁, s₁⟩ := answer
  obtain ⟨found₁', s₁'⟩ := answer'
  have way (found : Option (List Subtree × Nat)) : plainWay (found.map fun (tokens, trees) =>
        (Cost.skipped trees (totalSize tokens), .skip tokens))
      = (plainSkip found).map fun (tokens, trees) =>
        (Cost.skipped trees (totalSize tokens), .skip tokens) := by
    cases found with
    | none => rfl
    | some found => simp only [plainWay, plainSkip, Option.map_some, totalSize_plain, Recovery.plain]
  dsimp only at found ⊢
  rw [way, way, found]

/-! ### Candidates -/

theorem Same.missingToken? (same : Same s s') (symbol : Symbol) :
    s.missingToken? symbol = s'.missingToken? symbol := by
  unfold Session.missingToken? Session.helps
  rw [same.alike.1, ← Stack.plain_recentStates s.stack, same.stack, Stack.plain_recentStates]

theorem Same.cutFor? (same : Same s s') (symbol : Symbol) :
    s.cutFor? symbol = s'.cutFor? symbol := by
  unfold Session.cutFor?
  rw [same.alike.1, same.alike.2.2, ← Stack.plain_cuts s.stack, same.stack, Stack.plain_cuts]

theorem Reading.candidate (s : Session) (q : StateId) (t : Subtree) :
    Reading s (s.candidate q t).2 := by
  unfold Session.candidate
  dsimp only
  split
  · exact .refl s
  · exact .skipCandidate s q t

theorem Same.candidate (same : Same s s') (few : s.Few) (few' : s'.Few) (remembers : s.Remembers)
    (remembers' : s'.Remembers) (q : StateId) (first : t.plain = t'.plain) :
    plainWay (s.candidate q t).1 = plainWay (s'.candidate q t').1 := by
  have symbol := Subtree.symbol_of_plain first
  have skips : plainWay (if t.symbol = Symbol.stop then (none, s) else s.skipCandidate q t).1
        = plainWay (if t.symbol = Symbol.stop then (none, s') else s'.skipCandidate q t').1
      ∧ Reading s (if t.symbol = Symbol.stop then (none, s) else s.skipCandidate q t).2
      ∧ Reading s' (if t.symbol = Symbol.stop then (none, s') else s'.skipCandidate q t').2 := by
    split
    · exact ⟨rfl, .refl s, .refl s'⟩
    · exact ⟨same.skipCandidate few few' remembers remembers' q first,
        .skipCandidate s q t, .skipCandidate s' q t'⟩
  unfold Session.candidate
  dsimp only
  rw [← symbol]
  generalize (if t.symbol = Symbol.stop then (none, s) else s.skipCandidate q t) = skip at skips ⊢
  generalize (if t.symbol = Symbol.stop then (none, s') else s'.skipCandidate q t') = skip' at skips ⊢
  obtain ⟨ways, reading, reading'⟩ := skips
  have same := same.reading reading reading'
  rw [plainWay_cheaper, plainWay_cheaper, plainWay_cheaper, plainWay_cheaper, ways,
    same.missingToken?, same.cutFor?]

/-! ### Carrying out -/

theorem Same.skipTokens (same : Same s s') (q : StateId) {tokens tokens' : List Subtree}
    (skips : tokens.map Subtree.plain = tokens'.map Subtree.plain) :
    Same (s.skipTokens q tokens) (s'.skipTokens q tokens') := by
  refine same.restack (skipTokens_restacks ..) (skipTokens_restacks ..) ?_
  have popped := s.stack.plain_popError
  rw [same.stack, Stack.plain_popError] at popped
  unfold Session.skipTokens
  cases found : s.stack.popError with
  | none =>
    rw [found, Option.map_none, Option.map_eq_none_iff] at popped
    rw [popped]
    dsimp only
    rw [same.alike.1]
    exact Stack.push_same same.stack (Subtree.errorNode_plain s.lang _ _ q q skips) ..
  | some popped =>
    obtain ⟨error, extras, epoch, stack⟩ := popped
    rw [found, Option.map_some, Option.map_eq_some_iff] at popped
    obtain ⟨⟨error', extras', epoch', stack'⟩, found', is⟩ := popped
    simp only [Prod.mk.injEq] at is
    obtain ⟨errors, lifts, -, rest⟩ := is
    rw [found']
    refine Stack.push_same rest.symm (Subtree.append_plain errors.symm _ _ ?_) ..
    rw [List.map_append, List.map_append, lifts, skips]

theorem Same.insertIn (same : Same s s') (symbol : Symbol) (steps : Nat) :
    Same (s.insertIn symbol steps) (s'.insertIn symbol steps) := by
  induction steps generalizing s s' with
  | zero => exact same
  | succ steps ih =>
    rw [Session.insertIn, Session.insertIn, same.alike.1, ← same.topState]
    dsimp only
    split
    · exact ih (same.reduce _)
    · exact same.restack ⟨_, _, _, _, rfl⟩ ⟨_, _, _, _, by rw [← same.alike.1]; rfl⟩
        (Stack.push_same same.stack (Subtree.plain_ext rfl rfl) ..)
    · exact same
    · exact same

theorem Same.insertMissing (same : Same s s') (symbol : Symbol) :
    Same (s.insertMissing symbol) (s'.insertMissing symbol) := by
  have limit : s'.reductionLimit = s.reductionLimit := by
    rw [reductionLimit, reductionLimit, same.alike.1, Stack.length_same same.stack]
  rw [Session.insertMissing, Session.insertMissing, limit]
  exact same.insertIn symbol _

theorem Same.popInto (same : Same s s') (cut : Cut) : Same (s.popInto cut) (s'.popInto cut) := by
  obtain ⟨trees, rest⟩ := Stack.popTo_same same.stack cut.remaining
  refine same.restack ⟨_, _, _, _, rfl⟩ ⟨_, _, _, _, rfl⟩ ?_
  have errors := Subtree.errorNode_plain s.lang s.fresh s'.fresh cut.state cut.state trees
  rw [← same.alike.1] at errors
  unfold Session.popInto
  rw [← same.alike.1]
  exact Stack.push_same rest errors ..

theorem Same.carryOut (same : Same s s') (q : StateId) (cost : Nat) {way way' : Recovery}
    (ways : way.plain = way'.plain) : Same (s.carryOut q cost way) (s'.carryOut q cost way') := by
  have told (event event' : Event) : Same (s.emit event) (s'.emit event') :=
    same.reading (.emit s event) (.emit s' event')
  cases way with
  | skip tokens =>
    cases way' with
    | skip tokens' => exact (told _ _).skipTokens q (Recovery.skip.inj ways)
    | insert => cases ways
    | pop => cases ways
  | insert symbol =>
    cases way' with
    | skip => cases ways
    | insert symbol' =>
      obtain rfl := Recovery.insert.inj ways
      exact (told _ _).insertMissing symbol
    | pop => cases ways
  | pop cut =>
    cases way' with
    | skip => cases ways
    | insert => cases ways
    | pop cut' =>
      obtain rfl := Recovery.pop.inj ways
      exact (told _ _).popInto cut

/-! ### Recoveries -/

theorem Same.wrap (same : Same s s') (few : s.Few) (few' : s'.Few) (force : Bool) :
    (s.wrap force).1.map Subtree.plain = (s'.wrap force).1.map Subtree.plain
      ∧ Same (s.wrap force).2 (s'.wrap force).2 := by
  obtain ⟨trees, rest⟩ := Stack.popTo_same same.stack 0
  have base := congrArg Stack.base rest
  have none : (s'.stack.popAll).1.isEmpty = (s.stack.popAll).1.isEmpty := by
    have emptiness := congrArg List.isEmpty trees
    rw [List.isEmpty_map, List.isEmpty_map] at emptiness
    exact emptiness.symm
  rw [Stack.plain_base, Stack.plain_base] at base
  unfold Session.wrap
  change (s.stack.popAll.1.map _) = _ at trees
  change s.stack.popAll.2.base = _ at base
  change s.stack.popAll.2.plain = _ at rest
  generalize s.stack.popAll = popped at trees base none rest ⊢
  change _ = s'.stack.popAll.1.map _ at trees
  change _ = s'.stack.popAll.2.base at base
  change _ = s'.stack.popAll.2.plain at rest
  generalize s'.stack.popAll = popped' at trees base none rest ⊢
  obtain ⟨ts, stack⟩ := popped
  obtain ⟨ts', stack'⟩ := popped'
  dsimp only at trees base none rest ⊢
  have bare : Same ({ s with stack }.emit (.wrapped ts.length))
      ({ s' with stack := stack' }.emit (.wrapped ts'.length)) :=
    same.restack ⟨_, _, _, _, rfl⟩ ⟨_, _, _, _, rfl⟩ rest
  have action := action?_same bare.alike.1 (by exact few) (by exact few') stack.base Symbol.stop
  rw [none, ← base, ← action]
  split
  · exact ⟨congrArg some (bare.errorRoot trees),
      bare.restack ⟨_, _, _, _, rfl⟩ ⟨_, _, _, _, rfl⟩ rest⟩
  · split
    · exact ⟨rfl, bare.restack ⟨_, _, _, _, rfl⟩ ⟨_, _, _, _, rfl⟩ rest⟩
    · refine ⟨rfl, bare.restack ⟨_, _, _, _, rfl⟩ ⟨_, _, _, _, rfl⟩ ?_⟩
      have errors := Subtree.errorNode_plain s.lang s.fresh s'.fresh stack.base stack.base trees
      rw [← same.alike.1] at errors
      exact Stack.push_same rest (by rw [← same.alike.1]; exact errors) ..

theorem Same.countAttempt (same : Same s s') : Same s.countAttempt s'.countAttempt := by
  refine ⟨same.alike, same.stack, same.lookahead, ?_, ?_⟩
  · exact congrArg (fun place : Extent => some place.bytes) same.topPosition
  · unfold Session.countAttempt
    dsimp only
    rw [same.failedAt, same.attempts, same.topPosition]

/-- Sessions that agree recover alike before plainly equal tokens. -/
theorem Same.recover (same : Same s s') (few : s.Few) (few' : s'.Few) (remembers : s.Remembers)
    (remembers' : s'.Remembers) (q : StateId) (tokens : t.plain = t'.plain) :
    (s.recover q t).1.map Subtree.plain = (s'.recover q t').1.map Subtree.plain
      ∧ Same (s.recover q t).2 (s'.recover q t').2 := by
  have symbol := Subtree.symbol_of_plain tokens
  have skips (s s' : Session) (same : Same s s') :
      Same (s.skipTokens q [t]) (s'.skipTokens q [t']) :=
    same.skipTokens q (by simp [tokens])
  unfold Session.recover
  dsimp only
  rw [← symbol, ← same.topPosition]
  generalize place : s.stack.topPosition.bytes = position
  have same := same.countAttempt.reading (.emit s.countAttempt (.failed q t.symbol))
    (.emit s'.countAttempt (.failed q t.symbol))
  have few : (s.countAttempt.emit (.failed q t.symbol)).Few := few
  have few' : (s'.countAttempt.emit (.failed q t.symbol)).Few := few'
  have remembers : (s.countAttempt.emit (.failed q t.symbol)).Remembers := remembers
  have remembers' : (s'.countAttempt.emit (.failed q t.symbol)).Remembers := remembers'
  generalize s.countAttempt.emit (.failed q t.symbol) = s₁ at same few remembers ⊢
  generalize s'.countAttempt.emit (.failed q t.symbol) = s₁' at same few' remembers' ⊢
  rw [same.alike.2.2, ← same.attempts]
  split
  · have attempts : (s₁.emit (.gaveUp position s₁.options.maxAttempts)).attempts
        = (s₁'.emit (.gaveUp position s₁.options.maxAttempts)).attempts := same.attempts
    have same := same.reading (.emit s₁ (.gaveUp position s₁.options.maxAttempts))
      (.emit s₁' (.gaveUp position s₁.options.maxAttempts))
    rw [← attempts]
    split
    · exact same.wrap few few' _
    · exact ⟨rfl, skips _ _ same⟩
  · have ways := same.candidate few few' remembers remembers' q tokens
    have reading := Reading.candidate s₁ q t
    have reading' := Reading.candidate s₁' q t'
    have same := same.reading reading reading'
    have few := few.reading reading
    have few' := few'.reading reading'
    generalize s₁.candidate q t = answer at ways same few ⊢
    generalize s₁'.candidate q t' = answer' at ways same few' ⊢
    obtain ⟨way, s₂⟩ := answer
    obtain ⟨way', s₂'⟩ := answer'
    cases way with
    | none =>
      have none : way' = none := by
        rw [plainWay, plainWay, Option.map_none, eq_comm, Option.map_eq_none_iff] at ways
        exact ways
      rw [none]
      dsimp only
      split
      · exact same.wrap few few' false
      · exact ⟨rfl, skips _ _ same⟩
    | some way =>
      obtain ⟨cost, way⟩ := way
      rw [plainWay, plainWay, Option.map_some, eq_comm, Option.map_eq_some_iff] at ways
      obtain ⟨⟨cost', way'⟩, rfl, is⟩ := ways
      obtain ⟨rfl, ways⟩ := Prod.mk.inj is
      exact ⟨rfl, (same.reading (.emit _ _) (.emit _ _)).carryOut q _ ways.symm⟩

/-! ### Rounds -/

end Session

/-- Two rounds go on alike: to sessions that are related, or to plainly equal roots. -/
inductive Step.Goes (R : Session → Session → Prop) : Step → Step → Prop
  | reduced {s s' : Session} (related : R s s') : Goes R (.reduced s) (.reduced s')
  | moved {s s' : Session} (related : R s s') : Goes R (.moved s) (.moved s')
  | done {root root' : Subtree} {s s' : Session} (roots : root.plain = root'.plain) :
      Goes R (.done root s) (.done root' s')

/-- More may be known of the sessions that the rounds lead to. -/
theorem Step.Goes.with {R R' : Session → Session → Prop} {step step' : Step}
    (goes : Goes R step step')
    (more : ∀ s s', (step = .moved s ∨ step = .reduced s) → (step' = .moved s' ∨ step' = .reduced s') →
      R s s' → R' s s') : Goes R' step step' := by
  cases goes with
  | reduced related => exact .reduced (more _ _ (.inr rfl) (.inr rfl) related)
  | moved related => exact .moved (more _ _ (.inl rfl) (.inl rfl) related)
  | done roots => exact .done roots

namespace Session

variable {s s' : Session} {t t' : Subtree}

/-- Sessions that agree act alike on plainly equal tokens. -/
theorem Same.act (same : Same s s') (few : s.Few) (few' : s'.Few) (remembers : s.Remembers)
    (remembers' : s'.Remembers) (q : StateId) (tokens : t.plain = t'.plain) :
    Step.Goes Same (s.act q t) (s'.act q t') := by
  have action := action?_same same.alike.1 few few' q t.symbol
  unfold Session.act
  rw [← Subtree.symbol_of_plain tokens, ← action, ← Subtree.isError_of_plain tokens, same.alike.1]
  split
  · exact .moved (same.shift tokens ..)
  · rename_i r _
    have reduced := same.reduce r
    exact .reduced ⟨reduced.alike, reduced.stack, by simp [tokens], reduced.failedAt,
      reduced.attempts⟩
  · exact .done same.accept
  · split
    · exact .moved (same.shift tokens ..)
    · obtain ⟨roots, same⟩ := same.recover few few' remembers remembers' q tokens
      generalize s.recover q t = answer at roots same ⊢
      generalize s'.recover q t' = answer' at roots same ⊢
      obtain ⟨root, s₁⟩ := answer
      obtain ⟨root', s₁'⟩ := answer'
      cases root with
      | none =>
        have none : root' = none := by
          rw [Option.map_none, eq_comm, Option.map_eq_none_iff] at roots
          exact roots
        rw [none]
        exact .moved same
      | some root =>
        rw [Option.map_some, eq_comm, Option.map_eq_some_iff] at roots
        obtain ⟨root', rfl, is⟩ := roots
        exact .done is.symm

/-! ### What parses come to -/

/-- The rounds from a session on come to a root that is plainly `root`. -/
def Comes (s : Session) (root : Subtree) : Prop :=
  ∃ found last, Ends found last s ∧ found.plain = root

/-- Two sessions come to the same roots, plainly. -/
def Joins (s s' : Session) : Prop := ∀ root, s.Comes root ↔ s'.Comes root

theorem Joins.symm (joins : Joins s s') : Joins s' s := fun root => (joins root).symm

theorem Joins.trans {s'' : Session} (joins : Joins s s') (joins' : Joins s' s'') : Joins s s'' :=
  fun root => (joins root).trans (joins' root)

/-- What a session comes to is settled by its next round. -/
theorem Joins.of_step (step : s.step = s'.step) : Joins s s' := by
  have comes {s s' : Session} (step : s.step = s'.step) {root : Subtree} (comes : s.Comes root) :
      s'.Comes root := by
    obtain ⟨found, last, ends, plain⟩ := comes
    refine ⟨found, last, ?_, plain⟩
    cases ends with
    | done done => exact .done (step ▸ done)
    | reduced reduced rest => exact .reduced (step ▸ reduced) rest
    | moved moved rest => exact .moved (step ▸ moved) rest
  exact fun root => ⟨comes step, comes step.symm⟩

theorem Joins.of_moved (moved : s.step = .moved s') : Joins s s' := by
  refine fun root => ⟨?_, ?_⟩
  · rintro ⟨found, last, ends, plain⟩
    refine ⟨found, last, ?_, plain⟩
    cases ends with
    | done step => rw [moved] at step; cases step
    | reduced step => rw [moved] at step; cases step
    | moved step rest => rw [moved] at step; cases step; exact rest
  · rintro ⟨found, last, ends, plain⟩
    exact ⟨found, last, .moved moved ends, plain⟩

theorem Joins.of_reduced (reduced : s.step = .reduced s') : Joins s s' := by
  refine fun root => ⟨?_, ?_⟩
  · rintro ⟨found, last, ends, plain⟩
    refine ⟨found, last, ?_, plain⟩
    cases ends with
    | done step => rw [reduced] at step; cases step
    | reduced step rest => rw [reduced] at step; cases step; exact rest
    | moved step => rw [reduced] at step; cases step
  · rintro ⟨found, last, ends, plain⟩
    exact ⟨found, last, .reduced reduced ends, plain⟩

/-- What a session comes to, every session comes to that goes on alike: related ones take the same
round, or the first moves on while the other stays where it is, plainly. -/
theorem Ends.comes {R : Session → Session → Prop}
    (goes : ∀ {s s'}, R s s' → Step.Goes R s.step s'.step
      ∨ ∃ s₁ s₁', s.step = .moved s₁ ∧ Joins s' s₁' ∧ R s₁ s₁')
    {root : Subtree} {last : Session} (ends : Ends root last s) (related : R s s') :
    s'.Comes root.plain := by
  induction ends generalizing s' with
  | done step =>
    rcases goes related with goes | ⟨s₁, s₁', moved, -, -⟩
    · generalize step' : s'.step = round at goes
      rw [step] at goes
      cases goes with
      | done roots => exact ⟨_, _, .done step', roots.symm⟩
    · rw [step] at moved
      cases moved
  | reduced step rest ih =>
    rcases goes related with goes | ⟨s₁, s₁', moved, -, -⟩
    · generalize step' : s'.step = round at goes
      rw [step] at goes
      cases goes with
      | reduced related => exact (Joins.of_reduced step' _).mpr (ih related)
    · rw [step] at moved
      cases moved
  | moved step rest ih =>
    rcases goes related with goes | ⟨s₁, s₁', moved, joins, related⟩
    · generalize step' : s'.step = round at goes
      rw [step] at goes
      cases goes with
      | moved related => exact (Joins.of_moved step' _).mpr (ih related)
    · rw [step] at moved
      cases moved
      exact (joins _).mpr (ih related)

/-- There is one root that rounds from a session come to. -/
theorem Ends.root_eq {root root' : Subtree} {last last' : Session} (ends : Ends root last s)
    (ends' : Ends root' last' s) : root = root' := by
  induction ends with
  | done step =>
    cases ends' with
    | done step' => rw [step] at step'; cases step'; rfl
    | reduced step' => rw [step] at step'; cases step'
    | moved step' => rw [step] at step'; cases step'
  | reduced step _ ih =>
    cases ends' with
    | done step' => rw [step] at step'; cases step'
    | reduced step' rest => rw [step] at step'; cases step'; exact ih rest
    | moved step' => rw [step] at step'; cases step'
  | moved step _ ih =>
    cases ends' with
    | done step' => rw [step] at step'; cases step'
    | reduced step' => rw [step] at step'; cases step'
    | moved step' rest => rw [step] at step'; cases step'; exact ih rest

end Session

end Reparse
