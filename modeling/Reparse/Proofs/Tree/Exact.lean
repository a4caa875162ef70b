import Reparse.Proofs.Tree.Coverage
import Reparse.Proofs.Tree.Spliced

/-!
What edits do to sizes.

A tree is exact for a text if each of its nodes is as large as the bytes that it covers, in rows and
columns too, and the children of a node tile it (`Tree.Exact`). An edit that describes a splice
keeps a tree exact, and changes nothing in it but sizes and marks (`Tree.Spliced.exact`).

Exactness is taken apart along the tree: a node's text is the texts of its children one after the
other (`Subtree.exact_iff`, `Subtree.exactIn_cons`). So is a splice: what a pass still owes to the
children after some text is again a splice, of the text after that one (`Pass.Owes`).
-/

namespace Reparse

/-! ### Exact subtrees -/

namespace Subtree

/-- The subtree starts at `place`, is as large as the bytes that it covers from there on, and its
children tile it. -/
structure Measures (text : List UInt8) (place : Nat) (t : Subtree) : Prop where
  inside : place + t.size.bytes ≤ text.length
  size_eq : t.size = .ofBytes ((text.drop place).take t.size.bytes)
  tiled : t.children ≠ [] → t.size = total t.children

variable {text a b : List UInt8} {t u c : Subtree} {rest : List Subtree} {place : Nat} {x : Extent}

variable {lang : Language} {input : Array UInt8}

end Subtree

/-! ### Splices of a text in two parts -/

namespace Splice

/-- The splice as seen from `n` bytes on. -/
def past (s : Splice) (n : Nat) : Splice := ⟨s.start - n, s.oldStop - n, s.insert⟩

/-- The splice once its new text has found a place. -/
def deletion (s : Splice) : Splice := { s with insert := [] }

variable {s : Splice} {a b text : List UInt8}

theorem apply_of_nothing (stop : s.oldStop = s.start) (insert : s.insert = []) :
    s.apply text = text := by
  rw [apply, stop, insert, List.append_nil, List.take_append_drop]

end Splice

namespace Edit.Describes

variable {e : Edit} {s : Splice} {text front beyond : List UInt8}

theorem start_bytes (describes : e.Describes s text) : e.start.bytes = s.start := by
  have := describes.fits.start_le
  have := describes.fits.oldStop_le
  rw [describes.start_eq, Extent.ofBytes_bytes, List.length_take]
  omega

theorem oldStop_bytes (describes : e.Describes s text) : e.oldStop.bytes = s.oldStop := by
  have := describes.fits.oldStop_le
  rw [describes.oldStop_eq, Extent.ofBytes_bytes, List.length_take]
  omega

theorem newStop_bytes (describes : e.Describes s text) :
    e.newStop.bytes = s.start + s.insert.length := by
  have := describes.fits.start_le
  have := describes.fits.oldStop_le
  rw [describes.newStop_eq, Extent.ofBytes_bytes, List.length_append, List.length_take]
  omega

theorem newStop_eq_start_iff (describes : e.Describes s text) :
    e.newStop.bytes = e.start.bytes ↔ s.insert = [] := by
  rw [describes.newStop_bytes, describes.start_bytes, ← List.length_eq_zero_iff]
  omega

theorem mark (describes : e.Describes s text) :
    e.mark.Describes ⟨s.start, s.start, []⟩ text := by
  have inside := describes.fits.start_le.trans describes.fits.oldStop_le
  refine ⟨⟨Nat.le_refl _, inside⟩, describes.start_eq, describes.start_eq, ?_⟩
  rw [List.append_nil]
  exact describes.start_eq

theorem deletion (describes : e.Describes s text) : e.deletion.Describes s.deletion text := by
  refine ⟨⟨describes.fits.start_le, describes.fits.oldStop_le⟩, describes.start_eq,
    describes.oldStop_eq, ?_⟩
  change e.start = .ofBytes (_ ++ [])
  rw [List.append_nil]
  exact describes.start_eq

/-- A place in a text is seen from the end of its front as a place in the rest. -/
theorem monus_take (n : Nat) : (Extent.ofBytes ((front ++ text).take n)).monus (.ofBytes front)
    = .ofBytes (text.take (n - front.length)) := by
  by_cases before : front.length ≤ n
  · rw [List.take_append, List.take_of_length_le before, Extent.monus_ofBytes_append]
  · have none : n - front.length = 0 := by omega
    rw [none, List.take_zero, Extent.ofBytes_nil]
    refine Extent.monus_eq_zero ?_
    simp only [Extent.ofBytes_bytes, List.length_take]
    omega

/-- What is owed past the front of a text is a splice of the rest, unless some of the new text
lies in the front. -/
theorem relativeTo (describes : e.Describes s (front ++ text))
    (reaches : front.length ≤ s.start ∨ s.insert = []) :
    (e.relativeTo (.ofBytes front)).Describes (s.past front.length) text := by
  have start_le := describes.fits.start_le
  have oldStop_le := describes.fits.oldStop_le
  rw [List.length_append] at oldStop_le
  refine ⟨⟨Nat.sub_le_sub_right start_le _, ?_⟩, ?_, ?_, ?_⟩
  · change s.oldStop - _ ≤ _
    omega
  · rw [Edit.relativeTo, describes.start_eq, monus_take]
    rfl
  · rw [Edit.relativeTo, describes.oldStop_eq, monus_take]
    rfl
  · rw [Edit.relativeTo, describes.newStop_eq]
    rcases reaches with before | none
    · rw [List.take_append, List.take_of_length_le before, List.append_assoc,
        Extent.monus_ofBytes_append]
      rfl
    · rw [none, List.append_nil, monus_take]
      simp only [Splice.past, none, List.append_nil]

/-- A text is resized to what the splice makes of it, also where the splice goes on beyond it. -/
theorem resize (describes : e.Describes s (text ++ beyond)) (fits : e.Fits text.length) :
    e.resize (.ofBytes text) = .ofBytes (s.apply text) := by
  have within := fits.within
  simp only [describes.start_bytes, describes.oldStop_bytes, describes.newStop_bytes] at within
  have nothing : e.isNothing ↔ s.oldStop = s.start ∧ s.insert = [] := by
    simp only [Edit.isNothing, Edit.isInsertion, Bool.and_eq_true, beq_iff_eq]
    rw [describes.newStop_eq_start_iff, describes.oldStop_bytes, describes.start_bytes]
  unfold Edit.resize
  split
  · rename_i is
    obtain ⟨stop, insert⟩ := nothing.mp is
    rw [Splice.apply_of_nothing stop insert]
  · rename_i some
    rw [nothing, ← List.length_eq_zero_iff] at some
    have start : s.start ≤ text.length := by omega
    have rest : (Extent.ofBytes text).monus e.oldStop = .ofBytes (text.drop s.oldStop) := by
      rw [describes.oldStop_eq]
      by_cases inside : s.oldStop ≤ text.length
      · have split := List.take_append_drop s.oldStop text
        rw [List.take_append_of_le_length inside]
        conv => enter [1, 1]; rw [← split]
        exact Extent.monus_ofBytes_append ..
      · rw [List.drop_of_length_le (by omega), Extent.ofBytes_nil]
        refine Extent.monus_eq_zero ?_
        simp only [Extent.ofBytes_bytes, List.length_take, List.length_append]
        have := describes.fits.oldStop_le
        rw [List.length_append] at this
        omega
    rw [rest, describes.newStop_eq, List.take_append_of_le_length start, ← Extent.ofBytes_append]
    rfl

end Edit.Describes

/-! ### Passes over children -/

namespace Pass

/-- What a pass owes to the children from the end of `front` on: the splice with its new text, or
only what is left of the deletion. -/
inductive Owes (p : Pass) (s : Splice) (front text : List UInt8) : Prop
  | whole (place : p.left = .ofBytes front) (describes : p.owed.Describes s (front ++ text))
      (inserts : p.inserts = p.owed.isInsertion) (before : front.length ≤ s.start)
      (passed : p.first = false → s.oldStop = s.start → front.length < s.start)
  | deletion (place : p.left = .ofBytes front) (describes : p.owed.Describes s (front ++ text))
      (inserts : p.inserts = false) (later : p.first = false) (after : s.start ≤ front.length)
      (paid : s.insert = [])

variable {p : Pass} {s : Splice} {front a text : List UInt8} {c : Subtree} {size : Nat}

theorem Owes.place (owes : p.Owes s front text) : p.left = .ofBytes front := by
  cases owes <;> assumption

theorem Owes.describes (owes : p.Owes s front text) : p.owed.Describes s (front ++ text) := by
  cases owes <;> assumption

theorem Owes.reaches (owes : p.Owes s front text) : front.length ≤ s.start ∨ s.insert = [] := by
  cases owes with
  | whole _ _ _ before _ => exact .inl before
  | deletion _ _ _ _ _ paid => exact .inr paid

end Pass

/-! ### Edits -/

namespace Subtree

mutual

/-- The subtree without its stamp, and without what edits change. -/
def unsized : Subtree → Subtree
  | ⟨_, info, children⟩ => ⟨0, { info with size := {}, changed := false }, unsizedAll children⟩

def unsizedAll : List Subtree → List Subtree
  | [] => []
  | t :: rest => t.unsized :: unsizedAll rest

end

end Subtree

/-! ### Trees -/

end Reparse
