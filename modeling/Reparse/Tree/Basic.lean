import Reparse.Event
import Reparse.Syntax.Edit
import Reparse.Syntax.Sexp

/-!
Trees: a root, the language it was parsed in, and a count of what happened to it since.
-/

namespace Reparse

/-- The revision is 0 for a tree parsed from scratch, and grows with every edit and with
every parse that starts from the tree. -/
structure Tree where
  root : Subtree
  language : Language
  revision : Nat

/-- A change of a text: the bytes from `start` to `oldStop` become those from `start` to
`newStop`. The points are taken on trust. -/
structure InputEdit where
  start : Extent
  oldStop : Extent
  newStop : Extent
  deriving DecidableEq, Repr

/-- The place with its byte offset cut down to thirty-two bits. -/
def Extent.narrow (e : Extent) : Extent := { e with bytes := e.bytes % 4294967296 }

/-- The edit as a text of the given size can take it: what it replaces lies within the text,
and nothing ends before it starts. -/
def InputEdit.within (e : InputEdit) (size : Extent) : Edit :=
  let start := e.start.narrow.min size
  let oldStop := e.oldStop.narrow.min size
  let newStop := e.newStop.narrow
  { start
    oldStop := if oldStop.bytes < start.bytes then start else oldStop
    newStop := if newStop.bytes < start.bytes then start else newStop }

namespace Tree

/-- The tree was edited and not parsed again. -/
def isStale (t : Tree) : Bool := t.root.info.changed

/-- The tree for the text after an edit, what was done, and the next free stamp. Nodes that
the edit touches are marked as changed until the next parse. -/
def edit (t : Tree) (e : InputEdit) (fresh : Stamp) : Tree × Event × Stamp :=
  let e := e.within t.root.size
  let (root, fresh) := t.root.edit e fresh
  ({ t with root, revision := t.revision + 1 },
    .edited e.start.bytes e.oldStop.bytes e.newStop.bytes, fresh)

def toSexp (t : Tree) : String := t.root.toSexp t.language

def describe (t : Tree) : String := "\x7bTree " ++ t.toSexp ++ "\x7d"

end Tree

end Reparse
