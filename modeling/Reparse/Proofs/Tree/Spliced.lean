import Reparse.Proofs.Lex.Window
import Reparse.Proofs.Tree.History
import Reparse.Tree.Splice

/-!
Texts that change, and trees that are told so.

A tree follows its text through any number of splices if each of them is told to it in bytes and
points (`Tree.Spliced`). Offsets have thirty-two bits, so the texts are shorter than that; then an
edit describes its splice (`Splice.inputEdit_describes`), and what an edit carries along reads the
same bytes afterwards (`Splice.getElem?_of_carries`). So what depends on no more than those bytes
holds after splices of all that is not marked as changed (`Tree.Follows.spliced`).
-/

namespace Reparse

open Subtree (Everywhere EverywhereIn)

namespace Splice

/-- The bytes that give way are there. -/
structure Fits (s : Splice) (text : List UInt8) : Prop where
  start_le : s.start ≤ s.oldStop
  oldStop_le : s.oldStop ≤ text.length

/-- How many bytes offsets can count. -/
def room : Nat := 2 ^ 32

variable {s : Splice} {text : List UInt8} {size : Extent} {i : Nat}

theorem length_apply (fits : s.Fits text) :
    (s.apply text).length = s.start + s.insert.length + (text.length - s.oldStop) := by
  have := fits.start_le
  have := fits.oldStop_le
  simp only [apply, List.length_append, List.length_take, List.length_drop]
  omega

/-- What lies before a splice stays. -/
theorem getElem?_apply_of_lt (fits : s.Fits text) (before : i < s.start) :
    (s.apply text)[i]? = text[i]? := by
  have := fits.start_le
  have := fits.oldStop_le
  have inside : i < (text.take s.start).length := by
    rw [List.length_take]
    omega
  rw [apply, List.append_assoc, List.getElem?_append_left inside, List.getElem?_take_of_lt before]

/-- What lies after it moves along. -/
theorem getElem?_apply_add (fits : s.Fits text) (i : Nat) :
    (s.apply text)[s.start + s.insert.length + i]? = text[s.oldStop + i]? := by
  have := fits.start_le
  have := fits.oldStop_le
  have length : (text.take s.start ++ s.insert).length = s.start + s.insert.length := by
    rw [List.length_append, List.length_take]
    omega
  rw [apply, ← length, List.getElem?_append_right (Nat.le_add_right _ _), List.getElem?_drop,
    Nat.add_sub_cancel_left]

/-! ### Splices as edits -/

theorem inputEdit_start_bytes (fits : s.Fits text) : (s.inputEdit text).start.bytes = s.start := by
  have := fits.start_le
  have := fits.oldStop_le
  simp only [inputEdit, Extent.ofBytes_bytes, List.length_take]
  omega

theorem inputEdit_oldStop_bytes (fits : s.Fits text) :
    (s.inputEdit text).oldStop.bytes = s.oldStop := by
  have := fits.oldStop_le
  simp only [inputEdit, Extent.ofBytes_bytes, List.length_take]
  omega

theorem inputEdit_newStop_bytes (fits : s.Fits text) :
    (s.inputEdit text).newStop.bytes = s.start + s.insert.length := by
  have := fits.start_le
  have := fits.oldStop_le
  simp only [inputEdit, Extent.ofBytes_bytes, List.length_append, List.length_take]
  omega

theorem narrow_eq {e : Extent} (short : e.bytes < room) : e.narrow = e := by
  rw [Extent.narrow, show 4294967296 = room from rfl, Nat.mod_eq_of_lt short]

/-- Thirty-two bits are enough for the places of a splice. -/
theorem inputEdit_narrow (fits : s.Fits text) (short : text.length < room)
    (short' : (s.apply text).length < room) :
    (s.inputEdit text).start.narrow = (s.inputEdit text).start
      ∧ (s.inputEdit text).oldStop.narrow = (s.inputEdit text).oldStop
      ∧ (s.inputEdit text).newStop.narrow = (s.inputEdit text).newStop := by
  have := fits.start_le
  have := fits.oldStop_le
  rw [length_apply fits] at short'
  refine ⟨narrow_eq ?_, narrow_eq ?_, narrow_eq ?_⟩
  · rw [inputEdit_start_bytes fits]
    omega
  · rw [inputEdit_oldStop_bytes fits]
    omega
  · rw [inputEdit_newStop_bytes fits]
    omega

/-- What the edit carries along reads the same bytes as before, and sees the end of the text where
it did, however large the tree takes the text to be. -/
theorem getElem?_of_carries (fits : s.Fits text) (short : text.length < room)
    (short' : (s.apply text).length < room) {x window y : Nat}
    (carries : ((s.inputEdit text).within size).Carries size.bytes x window y) (lt : i < window) :
    (s.apply text)[y + i]? = text[x + i]? := by
  obtain ⟨start, oldStop, newStop⟩ := inputEdit_narrow fits short short'
  have startBytes := (s.inputEdit text).within_start_bytes size
  have oldStopBytes := (s.inputEdit text).within_oldStop_bytes size
  have newStopBytes := (s.inputEdit text).within_newStop_bytes size
  rw [start, inputEdit_start_bytes fits] at startBytes
  rw [oldStop, inputEdit_oldStop_bytes fits] at oldStopBytes
  rw [newStop, inputEdit_newStop_bytes fits] at newStopBytes
  have := fits.start_le
  rcases carries with ⟨before, rfl⟩ | ⟨after, inner, moved⟩
  · exact getElem?_apply_of_lt fits (by omega)
  · obtain ⟨j, rfl⟩ : ∃ j, x = s.oldStop + j := ⟨x - s.oldStop, by omega⟩
    obtain rfl : y = s.start + s.insert.length + j := by omega
    rw [Nat.add_assoc, Nat.add_assoc s.oldStop]
    exact getElem?_apply_add fits (j + i)

end Splice

/-- The edit does to a text what the splice does. -/
structure Edit.Describes (e : Edit) (s : Splice) (text : List UInt8) : Prop where
  fits : s.Fits text
  start_eq : e.start = .ofBytes (text.take s.start)
  oldStop_eq : e.oldStop = .ofBytes (text.take s.oldStop)
  newStop_eq : e.newStop = .ofBytes (text.take s.start ++ s.insert)

/-- `t` was `t₀` when its text was `text₀`, and was told of every splice that made it `text`. -/
inductive Tree.Spliced (t₀ : Tree) (text₀ : List UInt8) : Tree → List UInt8 → Prop
  | refl : Spliced t₀ text₀ t₀ text₀
  | splice {t : Tree} {text : List UInt8} (before : Spliced t₀ text₀ t text) {s : Splice}
      (fits : s.Fits text) (short : (s.apply text).length < Splice.room) (fresh : Stamp) :
      Spliced t₀ text₀ (t.edit (s.inputEdit text) fresh).1 (s.apply text)

theorem Tree.Spliced.short {t₀ t : Tree} {text₀ text : List UInt8}
    (spliced : Spliced t₀ text₀ t text) (short : text₀.length < Splice.room) :
    text.length < Splice.room := by
  cases spliced with
  | refl => exact short
  | splice _ _ short => exact short

theorem Tree.Spliced.language_eq {t₀ t : Tree} {text₀ text : List UInt8}
    (spliced : Spliced t₀ text₀ t text) : t.language = t₀.language := by
  induction spliced with
  | refl => rfl
  | splice _ _ _ _ ih => exact ih

/-! ### What follows the text -/

/-- What holds in one text everywhere in a subtree holds in any other that agrees with it as far as
the subtree depends on it. -/
def Subtree.Portable (P : Array UInt8 → Nat → Subtree → Prop) : Prop :=
  ∀ {input input' : Array UInt8} {place place' : Nat} {t : Subtree}, Everywhere (P input) place t →
    Agree input input' place place' t.window → Everywhere (P input') place' t

namespace Tree

/-- In the text `P` holds of what is not marked as changed below the root. -/
structure Follows (P : Array UInt8 → Nat → Subtree → Prop) (t : Tree) (text : List UInt8) :
    Prop where
  short : text.length < Splice.room
  aged : Everywhere (fun _ => Subtree.Aged) 0 t.root
  holds : EverywhereIn (Subtree.Fresh (P text.toArray)) 0 t.root.children

variable {P : Array UInt8 → Nat → Subtree → Prop} {t₀ t : Tree} {text₀ text : List UInt8}
  {s : Splice}

/-- An edit that tells a tree of a splice keeps `P` of what it does not mark. -/
theorem Follows.edit (follows : Follows P t text) (portable : Subtree.Portable P)
    (fits : s.Fits text) (short : (s.apply text).length < Splice.room) (fresh : Stamp) :
    (t.edit (s.inputEdit text) fresh).1.root.Kept (P (s.apply text).toArray) := by
  refine Subtree.edit_kept follows.aged follows.holds ((s.inputEdit text).within_fits _) ?_ fresh
  intro u x y carries holds
  refine portable holds fun i lt => ?_
  rw [List.getElem?_toArray, List.getElem?_toArray]
  exact Splice.getElem?_of_carries fits follows.short short carries lt

theorem Follows.spliced (follows : Follows P t₀ text₀) (portable : Subtree.Portable P)
    (spliced : Spliced t₀ text₀ t text) : Follows P t text := by
  induction spliced with
  | refl => exact follows
  | splice _ fits short fresh ih =>
    have kept := ih.edit portable fits short fresh
    exact ⟨short, kept.aged, (Subtree.everywhere_iff.mp kept.fresh).2⟩

end Tree

end Reparse
