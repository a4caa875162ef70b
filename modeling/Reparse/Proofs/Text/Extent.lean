import Mathlib.Algebra.BigOperators.Group.List.Basic
import Reparse.Text.Extent

/-!
Points and extents add up along a text.

Both are monoids, so the extents of a list of stretches have a sum, and measuring a text is
a homomorphism (`Extent.ofBytes_append`): a text cut into pieces is as large as its pieces
are together, wherever it is cut.
-/

namespace Reparse

namespace Point

instance : Zero Point := ⟨zero⟩

theorem zero_def : (0 : Point) = ⟨0, 0⟩ := rfl

instance : AddMonoid Point where
  add_assoc a b c := by
    simp only [add_def]
    by_cases hb : b.row > 0
    · have either : b.row + c.row > 0 := by omega
      by_cases hc : c.row > 0 <;> simp [hb, hc, either, Nat.add_assoc]
    · have hb : b.row = 0 := by omega
      by_cases hc : c.row > 0 <;> simp [hb, hc, Nat.add_assoc]
  zero_add a := by
    simp only [add_def, zero_def]
    split
    · simp
    · cases a
      simp_all
  add_zero a := by simp [add_def, zero_def]
  nsmul := nsmulRec

/-- Going on from a point byte by byte is adding the stretch that the bytes cover. -/
theorem foldl_next (text : List UInt8) (p : Point) : text.foldl next p = p + ofBytes text := by
  induction text generalizing p with
  | nil => exact (add_zero p).symm
  | cons b rest ih =>
    rw [ofBytes, List.foldl_cons, List.foldl_cons, ih, ih (next zero b), ← add_assoc]
    congr 1
    by_cases hb : b = 10 <;> simp [next, zero, add_def, hb]

theorem ofBytes_append (a b : List UInt8) : ofBytes (a ++ b) = ofBytes a + ofBytes b := by
  rw [ofBytes, List.foldl_append, foldl_next]
  rfl

/-- The stretch from a point to where `b` ends after it is `b`. -/
theorem add_sub_cancel (a b : Point) : a + b - a = b := by
  obtain ⟨row, column⟩ := b
  by_cases some : row > 0
  · simp [add_def, sub_def, some]
  · obtain rfl : row = 0 := by omega
    simp [add_def, sub_def]

end Point

namespace Extent

instance : Zero Extent := ⟨zero⟩

theorem zero_def : (0 : Extent) = ⟨0, 0⟩ := rfl

@[simp] theorem zero_bytes : (0 : Extent).bytes = 0 := rfl

instance : AddMonoid Extent where
  add_assoc a b c := by simp [add_def, add_assoc]
  zero_add a := by simp [add_def, zero_def]
  add_zero a := by simp [add_def, zero_def]
  nsmul := nsmulRec

@[simp] theorem ofBytes_bytes (text : List UInt8) : (ofBytes text).bytes = text.length := rfl

@[simp] theorem ofBytes_nil : ofBytes [] = 0 := rfl

theorem ofBytes_eq_zero {text : List UInt8} (empty : (ofBytes text).bytes = 0) :
    ofBytes text = 0 := by
  rw [List.length_eq_zero_iff.mp empty, ofBytes_nil]

theorem ofBytes_append (a b : List UInt8) : ofBytes (a ++ b) = ofBytes a + ofBytes b := by
  simp [ofBytes, add_def, Point.ofBytes_append]

/-- The stretch from a place to where `b` ends after it is `b`. -/
theorem add_sub_cancel (a b : Extent) : a + b - a = b := by
  simp [sub_def, Point.add_sub_cancel, add_def]

theorem monus_bytes (a b : Extent) : (a.monus b).bytes = a.bytes - b.bytes := by
  unfold monus
  split
  · rfl
  · have : a.bytes - b.bytes = 0 := by omega
    exact this.symm

/-- What is left of a text past its front. -/
theorem monus_ofBytes_append (front rest : List UInt8) :
    (ofBytes (front ++ rest)).monus (ofBytes front) = ofBytes rest := by
  unfold monus
  split
  · rw [ofBytes_append, add_sub_cancel]
  · rename_i short
    have : rest = [] := by
      rw [← List.length_eq_zero_iff]
      simp only [ofBytes_bytes, List.length_append] at short
      omega
    rw [this]
    rfl

/-- Nothing is left of a text past one that is as long. -/
theorem monus_eq_zero {a b : Extent} (short : a.bytes ≤ b.bytes) : a.monus b = 0 :=
  if_neg (Nat.not_lt.mpr short)

theorem min_bytes (a b : Extent) : (a.min b).bytes = Min.min a.bytes b.bytes := by
  unfold min
  split <;> omega

end Extent

end Reparse
