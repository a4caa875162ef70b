import Reparse.Tree.Changes
import Std.Data.HashSet

/-!
What a new tree has in common with an old one.
-/

namespace Reparse

namespace Subtree

mutual

def stamps (known : Std.HashSet Stamp) : Subtree → Std.HashSet Stamp
  | ⟨stamp, _, children⟩ => stampsOf (known.insert stamp) children

def stampsOf (known : Std.HashSet Stamp) : List Subtree → Std.HashSet Stamp
  | [] => known
  | t :: rest => stampsOf (t.stamps known) rest

end

mutual

/-- The largest known subtrees from a place on, in text order, each after the ones found
before. -/
def known (stamps : Std.HashSet Stamp) (start : Extent) (found : Array Placed) :
    Subtree → Array Placed
  | t@⟨stamp, _, children⟩ =>
    if stamps.contains stamp then found.push ⟨t, start⟩
    else knownAmong stamps start found children

def knownAmong (stamps : Std.HashSet Stamp) (start : Extent) (found : Array Placed) :
    List Subtree → Array Placed
  | [] => found
  | t :: rest => knownAmong stamps (start + t.size) (t.known stamps start found) rest

end

end Subtree

/-- The largest subtrees of the new tree that are also subtrees of the old one. -/
def Tree.shared (old new : Tree) : List Placed :=
  (new.root.known (old.root.stamps {}) .zero #[]).toList

end Reparse
