import Reparse.Proofs.Grammar.Soundness
import Reparse.Proofs.Parse.Stack

/-!
Where the stack can be cut.

A recovery that gives up subtrees looks at cuts of the stack, and never takes entries off to see
what a cut would leave. A cut lies below an entry that is no extra, among the recent entries and not
under too many others that are no extras (`Stack.Cuttable`), and there is one for each such entry
(`Stack.mem_cuts`). As long as entries end where the entries up to them end (`Stack.Positioned`),
and they do on every stack that is made by pushing and popping (`Stack.Made.positioned`), a cut
foretells what popping down to it comes to (`Stack.cuts_foretell`): positions are subtracted, but
across line breaks too that gives the size of what lies between them.
-/

namespace Reparse

open Subtree (total structural)

namespace Stack

variable {s : Stack} {e e' : Entry} {entries above below rest : List Entry} {cut : Cut}
  {maxTrees looks popped remaining : Nat}

/-! ### Cuts -/

/-- The entries can be cut below `e`, which is no extra and lies among the first `looks` of them and
among the first `most` that are no extras. -/
structure Cuttable (entries : List Entry) (looks most : Nat) (above : List Entry) (e : Entry)
    (below : List Entry) : Prop where
  split : entries = above ++ e :: below
  regular : e.tree.extra = false
  near : above.length < looks
  few : (structural (Stack.trees above)).length < most

/-- The cut below `above` and one more entry, with `popped` subtrees above them. -/
def cutBelow (s : Stack) (popped : Nat) (above below : List Entry) : Cut where
  remaining := below.length
  state := s.stateOver below
  trees := popped + (structural (Stack.trees above)).length + 1
  size := s.topPosition - positionOver below

theorem length_structural_cons (e : Entry) (above : List Entry) :
    (structural (Stack.trees (e :: above))).length
      = (structural (Stack.trees above)).length + if e.tree.extra then 0 else 1 := by
  rw [trees_cons, Subtree.structural_append, List.length_append]
  cases extra : e.tree.extra with
  | true =>
    rw [Subtree.structural_singleton_extra extra]
    rfl
  | false =>
    rw [Subtree.structural_singleton extra]
    rfl

/-- Entries can be cut below the first of them, if it is no extra, or further down. -/
theorem cuttable_cons {most : Nat} : Cuttable (e :: rest) (looks + 1) most above e' below ↔
    above = [] ∧ e' = e ∧ below = rest ∧ e.tree.extra = false ∧ 0 < most
      ∨ ∃ under, above = e :: under
        ∧ Cuttable rest looks (most - if e.tree.extra then 0 else 1) under e' below := by
  constructor
  · rintro ⟨split, regular, near, few⟩
    cases above with
    | nil =>
      obtain ⟨rfl, rfl⟩ := List.cons.inj split
      exact .inl ⟨rfl, rfl, rfl, regular, few⟩
    | cons _ under =>
      obtain ⟨rfl, rfl⟩ := List.cons.inj split
      rw [length_structural_cons] at few
      exact .inr ⟨under, rfl, rfl, regular, Nat.lt_of_succ_lt_succ near, by omega⟩
  · rintro (⟨rfl, rfl, rfl, regular, some⟩ | ⟨under, rfl, rfl, regular, near, few⟩)
    · exact ⟨rfl, regular, Nat.succ_pos _, some⟩
    · refine ⟨rfl, regular, Nat.succ_lt_succ near, ?_⟩
      rw [length_structural_cons]
      omega

theorem cutBelow_cons (popped : Nat) (e : Entry) (above below : List Entry) :
    s.cutBelow popped (e :: above) below
      = s.cutBelow (popped + if e.tree.extra then 0 else 1) above below := by
  rw [cutBelow, cutBelow, length_structural_cons]
  congr 1
  omega

/-- What the cuts of some entries are, made from those of the entries beneath the first. -/
theorem cuts_cons :
    (∃ above e' below, Cuttable (e :: rest) (looks + 1) (maxTrees - popped) above e' below
      ∧ cut = s.cutBelow popped above below) ↔
    (e.tree.extra = false ∧ popped < maxTrees) ∧ cut = s.cutBelow popped [] rest
      ∨ ∃ above e' below, Cuttable rest looks
            (maxTrees - (popped + if e.tree.extra then 0 else 1)) above e' below
          ∧ cut = s.cutBelow (popped + if e.tree.extra then 0 else 1) above below := by
  rw [← Nat.sub_sub]
  constructor
  · rintro ⟨above, e', below, cuttable, rfl⟩
    rcases cuttable_cons.mp cuttable with ⟨rfl, rfl, rfl, regular, some⟩ | ⟨under, rfl, deeper⟩
    · exact .inl ⟨⟨regular, Nat.lt_of_sub_pos some⟩, rfl⟩
    · exact .inr ⟨under, e', below, deeper, cutBelow_cons ..⟩
  · rintro (⟨⟨regular, some⟩, rfl⟩ | ⟨under, e', below, cuttable, rfl⟩)
    · exact ⟨[], e, rest,
        cuttable_cons.mpr (.inl ⟨rfl, rfl, rfl, regular, Nat.sub_pos_of_lt some⟩), rfl⟩
    · exact ⟨e :: under, e', below, cuttable_cons.mpr (.inr ⟨under, rfl, cuttable⟩),
        (cutBelow_cons ..).symm⟩

/-- The cuts are those below each entry that the entries can be cut below. -/
theorem mem_cutsIn (length : remaining = entries.length) :
    cut ∈ s.cutsIn maxTrees looks popped remaining entries ↔ ∃ above e below,
      Cuttable entries looks (maxTrees - popped) above e below
        ∧ cut = s.cutBelow popped above below := by
  induction entries generalizing looks popped remaining with
  | nil =>
    have none : s.cutsIn maxTrees looks popped remaining [] = [] := by cases looks <;> rfl
    rw [none]
    constructor
    · exact nofun
    · rintro ⟨above, e, below, cuttable, -⟩
      exact absurd cuttable.split.symm
        (List.append_ne_nil_of_right_ne_nil _ (List.cons_ne_nil _ _))
  | cons e rest ih =>
    have beneath : remaining - 1 = rest.length := by
      rw [length, List.length_cons, Nat.add_sub_cancel]
    cases looks with
    | zero =>
      constructor
      · exact nofun
      · rintro ⟨above, _, below, cuttable, -⟩
        exact absurd cuttable.near (Nat.not_lt_zero _)
    | succ looks =>
      rw [cutsIn, cuts_cons]
      cases extra : e.tree.extra with
      | true =>
        simp only [if_true, Bool.true_eq_false, false_and, false_or]
        exact ih beneath
      | false =>
        simp only [Bool.false_eq_true, if_false, true_and]
        by_cases more : popped < maxTrees
        · rw [if_neg (Nat.not_lt.mpr more), List.mem_cons, ih beneath, beneath]
          simp only [more, true_and]
          rfl
        · -- There is no subtree left to give up.
          rw [if_pos (Nat.lt_succ_of_le (Nat.not_lt.mp more))]
          constructor
          · exact nofun
          · rintro (⟨some, -⟩ | ⟨above, _, below, cuttable, -⟩)
            · exact absurd some more
            · have few := cuttable.few
              omega

theorem mem_cuts : cut ∈ s.cuts maxTrees ↔ ∃ above e below,
    Cuttable s.entries lookback maxTrees above e below ∧ cut = s.cutBelow 0 above below :=
  mem_cutsIn s.length_eq

/-- Each cut leaves fewer entries than the one before. -/
theorem cutsIn_pairwise (length : remaining = entries.length) :
    (s.cutsIn maxTrees looks popped remaining entries).Pairwise
      fun upper lower => lower.remaining < upper.remaining := by
  induction entries generalizing looks popped remaining with
  | nil => cases looks <;> exact .nil
  | cons e rest ih =>
    have beneath : remaining - 1 = rest.length := by
      rw [length, List.length_cons, Nat.add_sub_cancel]
    cases looks with
    | zero => exact .nil
    | succ looks =>
      rw [cutsIn]
      split
      · exact ih beneath
      · split
        · exact .nil
        · refine .cons (fun lower found => ?_) (ih beneath)
          obtain ⟨above, e', below, cuttable, rfl⟩ := (mem_cutsIn beneath).mp found
          change below.length < remaining - 1
          rw [beneath, cuttable.split, List.length_append, List.length_cons]
          omega

/-! ### What a cut foretells -/

/-- Popping `s` down to the cut leaves as many entries as it says, with its state on top, and gives
subtrees that begin with one that is no extra, as many without the extras and as large together as
it says. -/
structure Foretold (s : Stack) (cut : Cut) : Prop where
  length_eq : (s.popTo cut.remaining).2.length = cut.remaining
  topState_eq : (s.popTo cut.remaining).2.topState = cut.state
  begins : ∃ t ts, (s.popTo cut.remaining).1 = t :: ts ∧ t.extra = false
  trees_eq : (structural (s.popTo cut.remaining).1).length = cut.trees
  size_eq : total (s.popTo cut.remaining).1 = cut.size

theorem Cuttable.foretold {most : Nat} (cuttable : Cuttable s.entries looks most above e below)
    (positioned : Positioned s.entries) : s.Foretold (s.cutBelow 0 above below) := by
  have split : s.entries = (above ++ [e]) ++ below := by
    rw [List.append_assoc, List.singleton_append]
    exact cuttable.split
  obtain ⟨given, left, base⟩ := popTo_spec split
  have trees : Stack.trees (above ++ [e]) = e.tree :: Stack.trees above := by
    rw [trees_append]
    rfl
  refine ⟨?_, ?_, ⟨e.tree, Stack.trees above, given.trans trees, cuttable.regular⟩, ?_, ?_⟩
  · rw [Stack.length_eq]
    exact congrArg List.length left
  · change (s.popTo below.length).2.topState = s.stateOver below
    rw [← stateOver_entries base, left]
  · change (structural (s.popTo below.length).1).length = 0 + _ + 1
    rw [given, trees, structural, List.filter_cons_of_pos (by simpa using cuttable.regular),
      Nat.zero_add]
    rfl
  · -- What lies above the cut ends at the top, so subtracting leaves its size.
    change total (s.popTo below.length).1 = positionOver s.entries - positionOver below
    rw [split] at positioned
    rw [given, split, ← positioned.add_total, Extent.add_sub_cancel]

theorem Positioned.foretold (positioned : Positioned s.entries) (found : cut ∈ s.cuts maxTrees) :
    s.Foretold cut := by
  obtain ⟨above, e, below, cuttable, rfl⟩ := mem_cuts.mp found
  exact cuttable.foretold positioned

/-! ### Stacks made by pushing and popping -/

/-- The stacks that come of an empty one by pushes and pops. -/
inductive Made : Stack → Prop
  | empty (base : StateId) : Made { base }
  | push {s : Stack} (made : Made s) (t : Subtree) (state : StateId) (epoch : Nat) :
      Made (s.push t state epoch)
  | popExtras {s : Stack} (made : Made s) : Made s.popExtras.2
  | popCount {s : Stack} (made : Made s) (count : Nat) : Made (s.popCount count).2.2
  | popTo {s : Stack} (made : Made s) (remaining : Nat) : Made (s.popTo remaining).2
  | popError {s : Stack} (made : Made s) {error : Subtree} {extras : List Subtree} {epoch : Nat}
      {stack : Stack} (popped : s.popError = some (error, extras, epoch, stack)) : Made stack

theorem Positioned.beneath (positioned : Positioned entries) (split : entries = above ++ rest) :
    Positioned rest := by
  rw [split] at positioned
  exact Over.beneath positioned

theorem Positioned.without (positioned : Positioned s.entries) (count : Nat) :
    Positioned (s.without count).entries :=
  positioned.beneath (List.take_append_drop count s.entries).symm

/-- On a stack that is made by pushing and popping every entry ends where it should. -/
theorem Made.positioned (made : s.Made) : Positioned s.entries := by
  induction made with
  | empty => trivial
  | push _ t state epoch ih => exact ⟨rfl, ih⟩
  | popExtras _ ih => exact ih.without _
  | popCount _ count ih => exact ih.without _
  | popTo _ remaining ih => exact ih.without _
  | popError _ popped ih =>
    obtain ⟨above, e, rest, split, -, -, -, rfl, -⟩ := popError_spec popped
    rw [← List.singleton_append, ← List.append_assoc] at split
    exact ih.beneath split

/-- Cuts foretell pops. On every stack made by pushing and popping, popping down to a cut leaves the
entries and the state that it says, and gives subtrees that begin with one that is no extra, at most
`maxTrees` without the extras, as many and as large as it says. The cuts leave fewer and fewer
entries, and they are below just those entries that are no extras and lie among the recent ones and
among the first `maxTrees` that are no extras. -/
theorem cuts_foretell (made : s.Made) (maxTrees : Nat) :
    (∀ cut ∈ s.cuts maxTrees, s.Foretold cut ∧ cut.trees ≤ maxTrees)
      ∧ (s.cuts maxTrees).Pairwise (fun upper lower => lower.remaining < upper.remaining)
      ∧ ∀ remaining, (∃ cut ∈ s.cuts maxTrees, cut.remaining = remaining) ↔
        ∃ above e below, Cuttable s.entries lookback maxTrees above e below
          ∧ below.length = remaining := by
  refine ⟨fun cut found => ?_, cutsIn_pairwise s.length_eq, fun remaining => ⟨?_, ?_⟩⟩
  · refine ⟨made.positioned.foretold found, ?_⟩
    obtain ⟨above, e, below, cuttable, rfl⟩ := mem_cuts.mp found
    have few := cuttable.few
    change 0 + (structural (Stack.trees above)).length + 1 ≤ maxTrees
    omega
  · rintro ⟨cut, found, rfl⟩
    obtain ⟨above, e, below, cuttable, rfl⟩ := mem_cuts.mp found
    exact ⟨above, e, below, cuttable, rfl⟩
  · rintro ⟨above, e, below, cuttable, rfl⟩
    exact ⟨s.cutBelow 0 above below, mem_cuts.mpr ⟨above, e, below, cuttable, rfl⟩, rfl⟩

/-- Words over several lines and, as extras, what lies between them. One word more was pushed and
taken off again. -/
def ofLines : Stack :=
  let leaf (text : List UInt8) (extra : Bool) : Subtree :=
    (Subtree.leaf 0 .ofLists 1 (.ofBytes text) 1 2 {}).placed 1 2 extra
  let stack := (⟨1, [], 0, rfl⟩ : Stack).push (leaf [97] false) 2 0 |>.push (leaf [10] true) 2 0
    |>.push (leaf [97, 10, 97] false) 3 0 |>.push (leaf [32] true) 3 0 |>.push (leaf [97] false) 2 0
  (stack.popCount 1).2.2.push (leaf [97, 97, 10] false) 2 1 |>.push (leaf [10, 32] true) 2 1

theorem ofLines_made : ofLines.Made := by
  unfold ofLines
  exact .push (.push (.popCount (.push (.push (.push (.push (.push (.empty 1) ..) ..) ..) ..) ..) 1)
    ..) ..

/-- Of the three words the upper two may be given up, with the extras above each. -/
theorem ofLines_cuts_foretell : ofLines.Made
    ∧ ofLines.cuts 2 = [⟨4, 3, 1, ⟨5, ⟨2, 1⟩⟩⟩, ⟨2, 2, 2, ⟨9, ⟨3, 1⟩⟩⟩]
    ∧ (∀ cut ∈ ofLines.cuts 2, ofLines.Foretold cut ∧ cut.trees ≤ 2)
    ∧ (ofLines.cuts 2).Pairwise (fun upper lower => lower.remaining < upper.remaining)
    ∧ ∀ remaining, (∃ cut ∈ ofLines.cuts 2, cut.remaining = remaining) ↔
      ∃ above e below, Cuttable ofLines.entries lookback 2 above e below
        ∧ below.length = remaining :=
  ⟨ofLines_made, by decide, cuts_foretell ofLines_made 2⟩

end Stack

end Reparse
