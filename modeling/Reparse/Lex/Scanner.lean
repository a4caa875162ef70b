/-!
Scanners for tokens that the byte automaton cannot tell.

A scanner sees the text only by looking at one byte at a time, so it is a plan: give an
answer, or look at a byte and go on by what is there. Every plan ends, whatever the text.
`ScanPlan.run` carries a plan out and keeps account of how far it looked, which decides
later which edits can change its answer.
-/

namespace Reparse

/-- An external token, by its number in the grammar, and its length in bytes. -/
structure Claim where
  index : Nat
  length : Nat
  deriving DecidableEq, Repr

/-- Offsets count from where the token would start. A look beyond the end of the text shows
`none`. -/
inductive ScanPlan where
  | answer (claim : Option Claim)
  | look (offset : Nat) (next : Option UInt8 → ScanPlan)

/-- The plan for the place where a token would start and the external tokens that are valid
there. -/
structure Scanner where
  plan : (start : Nat) → (valid : List Bool) → ScanPlan

/-- What a scanner said, and one past the furthest byte it was shown. -/
structure Scan where
  claim : Option Claim
  reach : Nat
  deriving DecidableEq, Repr

/-- Carries a plan out when the bytes before `reach` were shown already. -/
def ScanPlan.run (input : Array UInt8) (start : Nat) : ScanPlan → (reach : Nat) → Scan
  | answer claim, reach => ⟨claim, reach⟩
  | look offset next, reach =>
    run input start (next input[start + offset]?) (max reach (start + offset + 1))

def Scanner.run (s : Scanner) (input : Array UInt8) (start : Nat) (valid : List Bool) : Scan :=
  (s.plan start valid).run input start start

end Reparse
