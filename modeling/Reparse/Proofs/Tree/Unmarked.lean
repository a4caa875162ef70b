import Mathlib
import Reparse.Proofs.Tree.Spliced
import Reparse.Proofs.Parse.Termination

/-!
What edits leave unmarked.

After any number of splices, whatever in a tree is not marked as changed is a subtree of the parsed
tree, and the bytes that it depends on, in its window, are those that it was built from, the end of
the text included (`Language.unmarked_reads_same`). A mark stops at a child whose window misses the
edit, so this rests on windows that cover those of all that lies below (`Subtree.Whole.window_le`).
-/

namespace Reparse

open Subtree (Everywhere Occurs)

/-- The subtree stands in the tree `root` of `text₀`, and its window shows the same bytes in `text`
at its place as there. -/
def Subtree.Rests (root : Subtree) (text₀ text : List UInt8) (place : Nat) (u : Subtree) : Prop :=
  ∃ x, Occurs u root x ∧ ∀ i < u.window, text[place + i]? = text₀[x.bytes + i]?

variable {lang : Language} {root u : Subtree} {text₀ text : List UInt8}

/-- A parsed tree rests on its own text. -/
theorem Subtree.Whole.rests (whole : root.Whole lang) : root.Kept (Rests root text₀ text₀) where
  aged _ _ inside := whole.aged inside
  fresh u x inside _ v y below := by
    refine ⟨x + y, inside.trans below, fun i _ => ?_⟩
    rw [Nat.zero_add, Extent.add_bytes]

/-- What a splice carries along keeps resting on the first text, and so does all below it. -/
theorem Splice.rests_of_carries {s : Splice} (whole : root.Whole lang) (fits : s.Fits text)
    (short : text.length < room) (short' : (s.apply text).length < room) {size : Extent}
    {x y : Nat} (carries : ((s.inputEdit text).within size).Carries size.bytes x u.window y)
    (rests : Everywhere (Subtree.Rests root text₀ text) x u) :
    Everywhere (Subtree.Rests root text₀ (s.apply text)) y u := by
  intro v z below
  obtain ⟨origin, inside, same⟩ := rests v z below
  obtain ⟨_, top, -⟩ := rests u 0 .here
  have covered : z.bytes + v.window ≤ u.window :=
    Subtree.Whole.window_le (whole.of_occurs top).anywhere below
  refine ⟨origin, inside, fun i lt => ?_⟩
  rw [← same i lt, Nat.add_assoc, Nat.add_assoc]
  exact getElem?_of_carries fits short short' carries (by omega)

/-- Through any number of splices what is not marked keeps resting on the first text. -/
theorem Tree.Spliced.kept {t₀ t : Tree} (spliced : Spliced t₀ text₀ t text)
    (short : text₀.length < Splice.room) (whole : t₀.root.Whole lang) :
    t.root.Kept (Subtree.Rests t₀.root text₀ text) := by
  induction spliced with
  | refl => exact whole.rests
  | @splice t text before s fits short' fresh ih =>
    refine Subtree.edit_kept ih.aged (Subtree.everywhere_iff.mp ih.fresh).2
      (InputEdit.within_fits _ _) (fun carries rests => ?_) fresh
    exact s.rests_of_carries whole fits (before.short short) short' carries rests

end Reparse
