import Reparse.Proofs.Lex.Locality
import Reparse.Proofs.Parse.Reading
import Reparse.Proofs.Syntax.Plain

/-!
Tokens on the stack.

A token is a leaf that stands in the text as it is read in some mode (`Subtree.Lexed`). There is one
at every place (`Subtree.Lexed.plain_eq`), pushing leaves it a token, and in another text the same
token stands where as much is the same as it depends on (`Subtree.Lexed.agree`).
-/

namespace Reparse

/-- The leaf of a token that is read in a mode. -/
def Language.tokenLeaf (lang : Language) (input : Array UInt8) (stamp : Stamp) (mode : LexMode)
    (token : Token) (state : StateId) : Subtree :=
  .leaf stamp lang token.symbol (.ofBytes (input.extract token.start token.stop).toList)
    token.lookahead state mode

namespace Subtree

variable {lang : Language} {input input' : Array UInt8} {mode : LexMode} {place place' : Nat}
  {t t' : Subtree}

/-- The subtree is the token that stands at the place, as it is read in the mode. -/
def Lexed (lang : Language) (input : Array UInt8) (mode : LexMode) (place : Nat) (t : Subtree) :
    Prop :=
  ∃ stamp state, t = lang.tokenLeaf input stamp mode (lang.tokenAt input mode place).1 state

theorem tokenLeaf_size (stamp : Stamp) (token : Token) (state : StateId) :
    (lang.tokenLeaf input stamp mode token state).size
      = .ofBytes (input.extract token.start token.stop).toList :=
  rfl

/-- The leaf of the token at a place ends where the token does. -/
theorem tokenLeaf_stop (inside : place < input.size) (stamp : Stamp) (state : StateId) :
    place + (lang.tokenLeaf input stamp mode (lang.tokenAt input mode place).1 state).size.bytes
      = (lang.tokenAt input mode place).1.stop := by
  have spec : lang.TokenSpec input place (lang.tokenAt input mode place).1 :=
    Language.tokenAt_spec inside
  have start := spec.start_eq
  have := spec.start_lt
  have := spec.stop_le
  rw [tokenLeaf_size, start, Extent.ofBytes_bytes, Array.length_toList, Array.size_extract]
  omega

/-- It depends on the text as far as the token reaches. -/
theorem tokenLeaf_window (inside : place < input.size) (stamp : Stamp) (state : StateId) :
    place + (lang.tokenLeaf input stamp mode (lang.tokenAt input mode place).1 state).window
      = (lang.tokenAt input mode place).1.reach := by
  have spec : lang.TokenSpec input place (lang.tokenAt input mode place).1 :=
    Language.tokenAt_spec inside
  have := spec.stop_lt
  rw [Subtree.window, ← Nat.add_assoc, tokenLeaf_stop inside]
  change (lang.tokenAt input mode place).1.stop
    + ((lang.tokenAt input mode place).1.reach - (lang.tokenAt input mode place).1.stop) = _
  omega

theorem Lexed.children_eq (lexed : t.Lexed lang input mode place) : t.children = [] := by
  obtain ⟨stamp, state, rfl⟩ := lexed
  rfl

theorem Lexed.lexMode_eq (lexed : t.Lexed lang input mode place) : t.info.lexMode = mode := by
  obtain ⟨stamp, state, rfl⟩ := lexed
  rfl

theorem Lexed.extra_eq (lexed : t.Lexed lang input mode place) :
    t.extra = (lang.traits t.symbol).extra := by
  obtain ⟨stamp, state, rfl⟩ := lexed
  rfl

/-- An error is no extra. -/
theorem Lexed.regular (lexed : t.Lexed lang input mode place) (extra : t.extra = true) :
    t.isError = false := by
  rw [lexed.extra_eq] at extra
  rw [isError, beq_eq_false_iff_ne]
  intro error
  rw [error] at extra
  cases extra

/-- There is one token at a place. -/
theorem Lexed.plain_eq (lexed : t.Lexed lang input mode place)
    (lexed' : t'.Lexed lang input mode place) : t.plain = t'.plain := by
  obtain ⟨stamp, state, rfl⟩ := lexed
  obtain ⟨stamp', state', rfl⟩ := lexed'
  exact plain_ext rfl rfl

/-- A token takes up text, or it is the end of the input. -/
theorem Lexed.takes (lexed : t.Lexed lang input mode place) :
    (0 < t.size.bytes ∧ place + t.size.bytes ≤ input.size)
      ∨ (t.symbol = Symbol.stop ∧ input.size ≤ place ∧ t.size = 0) := by
  obtain ⟨stamp, state, rfl⟩ := lexed
  exact Session.leaf_takes rfl rfl

/-- A token that is pushed as what it is stays a token. -/
theorem Lexed.placed (lexed : t.Lexed lang input mode place) {extra : Bool}
    (is : (lang.traits t.symbol).extra = extra) (stamp : Stamp) (state : StateId) :
    (t.placed stamp state extra).Lexed lang input mode place := by
  have same := lexed.extra_eq.trans is
  obtain ⟨stamp', state', rfl⟩ := lexed
  unfold Subtree.placed
  split
  · exact ⟨stamp', state', rfl⟩
  · rw [← same]
    exact ⟨stamp, state, rfl⟩

/-! ### In other texts -/

/-- A token that is shifted as a whole has the same leaf in a text that agrees as far as it goes. -/
theorem tokenLeaf_shifts {token token' : Token} {count : Nat}
    (shifts : Token.Shifts place place' token token')
    (agree : Agree input input' place place' count) (within : token.stop ≤ place + count)
    (stamp : Stamp) (state : StateId) :
    lang.tokenLeaf input stamp mode token state = lang.tokenLeaf input' stamp mode token' state := by
  obtain ⟨symbol, size, reach, rfl, rfl⟩ := shifts
  have text := agree.extract (Nat.le_of_add_le_add_left within)
  have lookahead : (⟨symbol, place, place + size, place + reach⟩ : Token).lookahead
      = (⟨symbol, place', place' + size, place' + reach⟩ : Token).lookahead := by
    rw [Token.lookahead, Token.lookahead, Nat.add_sub_add_left, Nat.add_sub_add_left]
  rw [Language.tokenLeaf, Language.tokenLeaf, text, lookahead]

/-- Where another text agrees as far as a token depends on it, the same token stands. -/
theorem Lexed.agree (lexed : t.Lexed lang input mode place) (unscanned : lang.scanner = none)
    (agree : Agree input input' place place' t.window) : t.Lexed lang input' mode place' := by
  obtain ⟨stamp, state, rfl⟩ := lexed
  refine ⟨stamp, state, ?_⟩
  by_cases inside : place < input.size
  · have spec : lang.TokenSpec input place (lang.tokenAt input mode place).1 :=
      Language.tokenAt_spec inside
    have := spec.start_lt
    have := spec.stop_lt
    have reach := @tokenLeaf_window lang input mode place inside stamp state
    have inside' : place' < input'.size := by
      have same := agree 0 (by omega)
      rw [Nat.add_zero, Nat.add_zero, Array.getElem?_eq_getElem inside] at same
      exact (Array.getElem?_eq_some_iff.mp same).1
    refine tokenLeaf_shifts ?_ agree (by omega) stamp state
    have plain := @Language.tokenAt_plain input place lang mode inside (.inr unscanned)
    have plain' := @Language.tokenAt_plain input' place' lang mode inside' (.inr unscanned)
    rw [plain] at reach agree ⊢
    rw [plain']
    exact Language.tableToken_agree agree (Nat.le_of_eq reach.symm)
  · have beyond := Nat.le_of_not_lt inside
    rw [Language.tokenAt_end beyond] at agree ⊢
    have same := agree 0 (by simp [Subtree.window, Language.tokenLeaf, leaf, Token.lookahead])
    rw [Nat.add_zero, Nat.add_zero, Array.getElem?_eq_none beyond] at same
    rw [Language.tokenAt_end (Array.getElem?_eq_none_iff.mp same)]
    simp [Language.tokenLeaf, Token.lookahead]

end Subtree

end Reparse
