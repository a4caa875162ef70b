import Reparse.Tree.Basic

/-!
Changing a text and describing the change.
-/

namespace Reparse

/-- The bytes from `start` to `oldStop` give way to `insert`. -/
structure Splice where
  start : Nat
  oldStop : Nat
  insert : List UInt8
  deriving DecidableEq, Repr

namespace Splice

def apply (s : Splice) (text : List UInt8) : List UInt8 :=
  text.take s.start ++ s.insert ++ text.drop s.oldStop

/-- The edit in bytes and points that the splice makes to `text`. -/
def inputEdit (s : Splice) (text : List UInt8) : InputEdit where
  start := .ofBytes (text.take s.start)
  oldStop := .ofBytes (text.take s.oldStop)
  newStop := .ofBytes (text.take s.start ++ s.insert)

end Splice

end Reparse
