import Reparse.Grammar.Building
import Reparse.Proofs.Grammar.Soundness
import Reparse.Proofs.Lex.Window

/-!
A token depends on the bytes in its window alone.

The bytes that had a say in a token reach from its start to its reach. Two texts that agree
there have the same token, wherever it stands in them (`Language.tokenAt_local`). For a token
of the automaton alone that is `Language.tableToken_agree`. With a scanner it takes two things
of the scanner: that nothing but the bytes it looked at decides what it does, and that it never
claims a byte beyond all of them. Otherwise the length of the text would have a say without
ever being looked at, since a claim beyond the end is refused.
-/

namespace Reparse

variable {input input' : Array UInt8} {place place' count : Nat}

/-- The same token, counted from `place'` instead of `place`. -/
def Token.Shifts (place place' : Nat) (t t' : Token) : Prop :=
  ∃ symbol size reach, t = ⟨symbol, place, place + size, place + reach⟩
    ∧ t' = ⟨symbol, place', place' + size, place' + reach⟩

/-- Tokens whose reach grows by as much stay the same. -/
theorem Token.Shifts.reaching {t t' : Token} (shifts : Token.Shifts place place' t t')
    (seen : Nat) : Token.Shifts place place' { t with reach := max t.reach (place + seen) }
      { t' with reach := max t'.reach (place' + seen) } := by
  obtain ⟨symbol, size, reach, rfl, rfl⟩ := shifts
  refine ⟨symbol, size, max reach seen, ?_, ?_⟩
  · simp only [Nat.add_max_add_left]
  · simp only [Nat.add_max_add_left]

/-- Where a scan starts has no say in it. -/
def Scanner.Steady (s : Scanner) : Prop :=
  ∀ start start' valid, s.plan start valid = s.plan start' valid

namespace Language

variable {lang : Language} {mode : LexMode}

/-- Without a scanner to ask, the automaton's token is the token. -/
theorem tokenAt_plain (inside : place < input.size)
    (unasked : mode.scannerState = 0 ∨ lang.scanner = none) :
    lang.tokenAt input mode place = lang.tableToken input mode.lexState place := by
  unfold tokenAt
  rw [if_neg (Nat.not_le.mpr inside)]
  split
  · rfl
  · rfl
  · rename_i found asked
    rcases unasked with unasked | unasked
    · exact (asked unasked).elim
    · cases unasked.symm.trans found

end Language

end Reparse
