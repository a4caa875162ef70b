import Reparse.Proofs.Tree.History

/-!
What a root is made of, for any language.

Accepting makes a root of the topmost subtree that is no extra and what lies around it
(`Ready.accept_parts`). If that subtree is a token, the root takes its place and its text is gone,
so what lay after it moves towards the start by as much. Languages in which no token leads to where
a parse is accepted have no such roots (`Language.Firm`). For all others `Session.Parted` keeps
account of the text that is gone, and a root as long as the input shows that none is.
-/

namespace Reparse

open Subtree (total Everywhere EverywhereIn)

namespace Session

variable {s s' : Session} {P : Nat → Subtree → Prop} {root : Subtree} {lang : Language}
  {input : Array UInt8}

/-- The children of a root in two parts: `P` holds in the first, and in the second as if `gone`
more bytes lay before it. The root itself was made last, unless it was all that lay on the stack. -/
structure Parted (lang : Language) (input : Array UInt8) (P : Nat → Subtree → Prop)
    (root : Subtree) (gone : Nat) : Prop where
  parts : ∃ front back, root.children = front ++ back ∧ EverywhereIn P 0 front
    ∧ EverywhereIn P ((total front).bytes + gone) back
  made : P 0 root ∨ (lang.Makes input root.stamp P ∧ root.info.missing = false)

/-- If no text is gone, `P` holds of all below the root. -/
theorem Parted.holds (parted : Parted lang input P root 0) : EverywhereIn P 0 root.children := by
  obtain ⟨⟨front, back, children, holdsFront, holdsBack⟩, -⟩ := parted
  rw [children, Subtree.everywhereIn_append, Nat.zero_add]
  exact ⟨holdsFront, holdsBack⟩

/-- So it does if it holds all the more of what lies further to the start. -/
theorem Parted.holds_of_antitone {gone : Nat} (parted : Parted lang input P root gone)
    (antitone : ∀ {place place' t}, place' ≤ place → P place t → P place' t) :
    EverywhereIn P 0 root.children := by
  obtain ⟨⟨front, back, children, holdsFront, holdsBack⟩, -⟩ := parted
  rw [children, Subtree.everywhereIn_append, Nat.zero_add]
  exact ⟨holdsFront, fun u x inside => antitone (by omega) (holdsBack u x inside)⟩

theorem Failed.parted (failed : Failed lang input P root) : Parted lang input P root 0 where
  parts := ⟨root.children, [], (List.append_nil _).symm, failed.holds, Subtree.everywhereIn_nil⟩
  made := .inr ⟨failed.makes, failed.sums.present⟩

/-- What lay on the stack ends up in the root, less the text of a token that became it. -/
theorem Ready.accept_parts (ready : s.Ready P) : ∃ gone,
    Parted s.lang s.input P s.accept.1 gone
      ∧ s.accept.1.size.bytes + gone = s.stack.topPosition.bytes := by
  have length := congrArg Extent.bytes ready.topPosition_eq
  obtain ⟨holds, -⟩ := ready.settled.trees (List.append_nil s.stack.entries).symm
  have bottom : Stack.positionOver [] = 0 := rfl
  rw [bottom] at holds
  have made := s.accept_as
  generalize s.accept.1 = root at made
  cases made with
  | extras =>
    have sums := s.errorRoot_sums (Stack.trees s.stack.entries)
    refine ⟨0, ⟨⟨_, [], (List.append_nil _).symm, holds, Subtree.everywhereIn_nil⟩,
      .inr ⟨ready.makes, sums.present⟩⟩, ?_⟩
    rw [length]
    exact congrArg Extent.bytes sums.size_eq
  | @alone e entries =>
    rw [entries, Stack.trees_cons, Stack.trees_nil, List.nil_append,
      Subtree.everywhereIn_singleton] at holds
    obtain ⟨holdsRoot, holdsWithin⟩ := Subtree.everywhere_iff.mp holds
    refine ⟨0, ⟨⟨_, [], (List.append_nil _).symm, holdsWithin, Subtree.everywhereIn_nil⟩,
      .inl holdsRoot⟩, ?_⟩
    rw [length, entries]
    simp
  | @opened above below e split =>
    rw [split, Stack.trees_append, Stack.trees_cons] at holds length
    simp only [Subtree.everywhereIn_append, Subtree.everywhereIn_singleton, Subtree.total_append,
      Subtree.total_cons, Subtree.total_nil, add_zero, Extent.add_bytes] at holds length
    obtain ⟨⟨holdsBelow, holdsTop⟩, holdsAbove⟩ := holds
    obtain ⟨holdsRoot, holdsWithin⟩ := Subtree.everywhere_iff.mp holdsTop
    have sound := ready.makes.sound holdsRoot
    have sums := s.openedRoot_sums e (Stack.trees below ++ e.tree.children ++ Stack.trees above)
    have size := congrArg Extent.bytes sums.size_eq
    simp only [Subtree.total_append, Extent.add_bytes] at size
    have front : EverywhereIn P 0 (Stack.trees below ++ e.tree.children) :=
      Subtree.everywhereIn_append.mpr ⟨holdsBelow, holdsWithin⟩
    -- A token takes its text with it, and a node is as long as its children.
    obtain ⟨gone, kept⟩ : ∃ gone, (total e.tree.children).bytes + gone = e.tree.size.bytes := by
      by_cases leaf : e.tree.children = []
      · exact ⟨_, by rw [leaf]; exact Nat.zero_add _⟩
      · exact ⟨0, congrArg Extent.bytes (sound.size_eq leaf).symm⟩
    refine ⟨gone, ⟨⟨_, _, rfl, front, ?_⟩, .inr ⟨ready.makes, sums.present⟩⟩, ?_⟩
    · rw [Subtree.total_append, Extent.add_bytes, Nat.add_assoc, kept]
      simpa using holdsAbove
    · refine (congrArg (· + gone) size).trans ?_
      omega

/-- What the root of a parse is made of. If it is as long as the input, no text is gone. -/
theorem Rooted.parted (rooted : Rooted lang input P root) : ∃ gone, Parted lang input P root gone
    ∧ (root.size.bytes = input.size → gone = 0) := by
  rcases rooted.origin with failed | ⟨s, rfl, rfl, ready, -, rfl⟩
  · exact ⟨0, failed.parted, fun _ => rfl⟩
  · obtain ⟨gone, parted, length⟩ := ready.accept_parts
    have inside := ready.inside
    exact ⟨gone, parted, fun spans => by omega⟩

end Session

end Reparse
