import Reparse.Text.Extent

/-!
What errors cost. Recovery takes the cheapest way out, and a tree's cost sums up
how erroneous it is.
-/

namespace Reparse.Cost

def perRecovery : Nat := 500
def perMissingToken : Nat := 110
def perSkippedTree : Nat := 100
def perSkippedLine : Nat := 30
def perSkippedByte : Nat := 1

/-- The cost of turning `trees` subtrees that cover `size` into an error. -/
def skipped (trees : Nat) (size : Extent) : Nat :=
  perRecovery + perSkippedTree * trees + perSkippedByte * size.bytes
    + perSkippedLine * size.point.row

/-- The cost of pretending to see a token. -/
def missing : Nat := perRecovery + perMissingToken

/-- The cost at which sums stop growing. -/
def ceiling : Nat := 4294967295

/-- A sum that stays at the ceiling once it gets there. -/
def sum (a b : Nat) : Nat := Nat.min (a + b) ceiling

end Reparse.Cost
