import Reparse.Text.Point

/-!
Sizes and places in a text, measured in bytes and as a point at once.

Extents add along a text: the extent of `a ++ b` is the sum of the two. An extent
counted from the start of a text is a place in it.
-/

namespace Reparse

structure Extent where
  bytes : Nat := 0
  point : Point := {}
  deriving DecidableEq, Repr, Inhabited

namespace Extent

def zero : Extent := {}

def add (a b : Extent) : Extent := ⟨a.bytes + b.bytes, a.point + b.point⟩

def sub (a b : Extent) : Extent := ⟨a.bytes - b.bytes, a.point - b.point⟩

instance : Add Extent := ⟨add⟩
instance : Sub Extent := ⟨sub⟩

theorem add_def (a b : Extent) : a + b = ⟨a.bytes + b.bytes, a.point + b.point⟩ := rfl

theorem sub_def (a b : Extent) : a - b = ⟨a.bytes - b.bytes, a.point - b.point⟩ := rfl

@[simp] theorem add_bytes (a b : Extent) : (a + b).bytes = a.bytes + b.bytes := rfl

@[simp] theorem sub_bytes (a b : Extent) : (a - b).bytes = a.bytes - b.bytes := rfl

/-- The shorter in bytes; of two equally long ones the second. -/
def min (a b : Extent) : Extent :=
  if a.bytes < b.bytes then a else b

/-- What is left of `a` past `b`; nothing unless `a` is longer. -/
def monus (a b : Extent) : Extent :=
  if a.bytes > b.bytes then a - b else zero

def ofBytes (text : List UInt8) : Extent :=
  ⟨text.length, Point.ofBytes text⟩

end Extent

end Reparse
