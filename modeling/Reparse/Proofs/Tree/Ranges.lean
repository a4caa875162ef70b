import Reparse.Proofs.Tree.Chain

/-!
How stretches are collected.

Ranges are kept with the latest first, none of them empty and with a byte at least between any two
(`Changes.Separated`). A stretch that starts no earlier than all of them keeps them so, and
afterwards they cover what they did before and the stretch (`Changes.add_separated`,
`Changes.covered_add`). Ranges that are collected like this are sorted and merged already
(`Changes.merge_mergeSort`).
-/

namespace Reparse

namespace Changes

/-- The byte is inside one of the ranges. -/
def Covered (ranges : List Range) (b : Nat) : Prop :=
  ∃ r ∈ ranges, r.startByte ≤ b ∧ b < r.stopByte

/-- Ranges of which the latest comes first: none is empty, and no two touch. -/
structure Separated (ranges : List Range) : Prop where
  nonempty : ∀ r ∈ ranges, r.startByte < r.stopByte
  apart : ranges.Pairwise fun later earlier => earlier.stopByte < later.startByte

variable {ranges rest : List Range} {last : Range} {start stop : Extent} {b : Nat}

theorem separated_nil : Separated [] := ⟨nofun, .nil⟩

theorem separated_cons : Separated (last :: rest) ↔ last.startByte < last.stopByte
    ∧ (∀ r ∈ rest, r.stopByte < last.startByte) ∧ Separated rest := by
  constructor
  · rintro ⟨nonempty, apart⟩
    obtain ⟨latest, apart⟩ := List.pairwise_cons.mp apart
    obtain ⟨some, nonempty⟩ := List.forall_mem_cons.mp nonempty
    exact ⟨some, latest, nonempty, apart⟩
  · rintro ⟨some, latest, nonempty, apart⟩
    exact ⟨List.forall_mem_cons.mpr ⟨some, nonempty⟩, .cons latest apart⟩

theorem covered_cons : Covered (last :: rest) b ↔
    (last.startByte ≤ b ∧ b < last.stopByte) ∨ Covered rest b := by
  simp only [Covered, List.mem_cons, or_and_right, exists_or, exists_eq_left]

/-! ### One more stretch -/

/-- What the next stretch becomes if it does not touch the latest range. -/
def fresh (start stop : Extent) : List Range :=
  if start.bytes < stop.bytes then [⟨start.bytes, stop.bytes, start.point, stop.point⟩] else []

theorem mem_fresh {r : Range} : r ∈ fresh start stop ↔ start.bytes < stop.bytes
    ∧ r = ⟨start.bytes, stop.bytes, start.point, stop.point⟩ := by
  unfold fresh
  by_cases some : start.bytes < stop.bytes
  · simp [some]
  · simp [some]

theorem covered_fresh_append : Covered (fresh start stop ++ ranges) b ↔
    Covered ranges b ∨ start.bytes ≤ b ∧ b < stop.bytes := by
  unfold fresh
  by_cases some : start.bytes < stop.bytes
  · rw [if_pos some, List.singleton_append, covered_cons, or_comm]
  · have nothing : ¬ (start.bytes ≤ b ∧ b < stop.bytes) := by omega
    rw [if_neg some, List.nil_append, or_iff_left nothing]

theorem separated_fresh_append (separated : Separated ranges)
    (after : ∀ r ∈ ranges, r.stopByte < start.bytes) : Separated (fresh start stop ++ ranges) := by
  unfold fresh
  by_cases some : start.bytes < stop.bytes
  · rw [if_pos some, List.singleton_append, separated_cons]
    exact ⟨some, after, separated⟩
  · rwa [if_neg some]

/-- The three ways in which a stretch is added. -/
theorem add_cases (ranges : List Range) (start stop : Extent) :
    (add ranges start stop = fresh start stop ++ ranges
      ∧ ∀ last ∈ ranges.head?, last.stopByte < start.bytes)
    ∨ ∃ last rest, ranges = last :: rest ∧ start.bytes ≤ last.stopByte
      ∧ (stop.bytes ≤ last.stopByte ∧ add ranges start stop = ranges
        ∨ last.stopByte < stop.bytes ∧ add ranges start stop
          = { last with stopByte := stop.bytes, stopPoint := stop.point } :: rest) := by
  cases ranges with
  | nil => exact .inl ⟨(List.append_nil _).symm, nofun⟩
  | cons last rest =>
    by_cases touches : start.bytes ≤ last.stopByte
    · refine .inr ⟨last, rest, rfl, touches, ?_⟩
      simp only [add, touches, if_true]
      by_cases wider : stop.bytes > last.stopByte
      · exact .inr ⟨wider, if_pos wider⟩
      · exact .inl ⟨Nat.le_of_not_lt wider, if_neg wider⟩
    · refine .inl ⟨by simp only [add, touches, if_false]; rfl, ?_⟩
      simpa using touches

/-- Every range was there before, or its start is that of the stretch or of a range that was. -/
theorem start_of_mem_add {r : Range} (member : r ∈ add ranges start stop) :
    r.startByte = start.bytes ∨ ∃ r' ∈ ranges, r.startByte = r'.startByte := by
  rcases add_cases ranges start stop with ⟨same, -⟩ | ⟨last, rest, rfl, -, ⟨-, same⟩ | ⟨-, same⟩⟩
  · rw [same, List.mem_append] at member
    rcases member with member | member
    · rw [(mem_fresh.mp member).2]
      exact .inl rfl
    · exact .inr ⟨r, member, rfl⟩
  · rw [same] at member
    exact .inr ⟨r, member, rfl⟩
  · rw [same] at member
    rcases List.mem_cons.mp member with rfl | member
    · exact .inr ⟨last, List.mem_cons_self, rfl⟩
    · exact .inr ⟨r, List.mem_cons_of_mem _ member, rfl⟩

/-- The latest range reaches farthest. -/
theorem Separated.after_of_head (separated : Separated ranges) {n : Nat}
    (head : ∀ last ∈ ranges.head?, last.stopByte < n) : ∀ r ∈ ranges, r.stopByte < n := by
  cases ranges with
  | nil => nofun
  | cons last rest =>
    obtain ⟨some, latest, -⟩ := separated_cons.mp separated
    have here : last.stopByte < n := head last rfl
    refine List.forall_mem_cons.mpr ⟨here, fun r member => ?_⟩
    have := latest r member
    omega

theorem add_separated (separated : Separated ranges) : Separated (add ranges start stop) := by
  rcases add_cases ranges start stop with
    ⟨same, head⟩ | ⟨last, rest, rfl, -, ⟨-, same⟩ | ⟨wider, same⟩⟩
  · rw [same]
    exact separated_fresh_append separated (separated.after_of_head head)
  · rwa [same]
  · obtain ⟨some, latest, others⟩ := separated_cons.mp separated
    rw [same, separated_cons]
    exact ⟨Nat.lt_trans some wider, latest, others⟩

theorem covered_add (sorted : ∀ r ∈ ranges, r.startByte ≤ start.bytes) :
    Covered (add ranges start stop) b ↔
      Covered ranges b ∨ start.bytes ≤ b ∧ b < stop.bytes := by
  rcases add_cases ranges start stop with
    ⟨same, -⟩ | ⟨last, rest, rfl, touches, ⟨narrow, same⟩ | ⟨wider, same⟩⟩
  · rw [same, covered_fresh_append]
  · have before := sorted last List.mem_cons_self
    rw [same, covered_cons]
    exact (or_iff_left_of_imp fun inside => .inl (by omega)).symm
  · have before := sorted last List.mem_cons_self
    have wide : (last.startByte ≤ b ∧ b < stop.bytes) ↔
        (last.startByte ≤ b ∧ b < last.stopByte) ∨ start.bytes ≤ b ∧ b < stop.bytes := by
      omega
    rw [same, covered_cons, covered_cons, or_right_comm]
    exact or_congr_left wide

/-! ### Stretches that some subtrees cover together -/

theorem le_lesser {a b : Extent} {n : Nat} :
    n ≤ (lesser a b).bytes ↔ n ≤ a.bytes ∧ n ≤ b.bytes := by
  unfold lesser
  split
  · omega
  · omega

theorem greater_le {a b : Extent} {n : Nat} :
    (greater a b).bytes ≤ n ↔ a.bytes ≤ n ∧ b.bytes ≤ n := by
  unfold greater
  split
  · omega
  · omega

variable {ps : List Placed} {n : Nat}

theorem le_foldl_lesser : n ≤ (ps.foldl (fun start p => lesser start p.start) start).bytes ↔
    n ≤ start.bytes ∧ ∀ p ∈ ps, n ≤ p.start.bytes := by
  induction ps generalizing start with
  | nil => simp
  | cons p ps ih => rw [List.foldl_cons, ih, le_lesser, List.forall_mem_cons, and_assoc]

theorem foldl_greater_le : (ps.foldl (fun stop p => greater stop p.stop) stop).bytes ≤ n ↔
    stop.bytes ≤ n ∧ ∀ p ∈ ps, p.stop.bytes ≤ n := by
  induction ps generalizing stop with
  | nil => simp
  | cons p ps ih => rw [List.foldl_cons, ih, greater_le, List.forall_mem_cons, and_assoc]

theorem addSpan_eq (ranges : List Range) (some : ps ≠ []) :
    ∃ start stop, addSpan ranges ps = add ranges start stop
      ∧ (∀ n, n ≤ start.bytes ↔ ∀ p ∈ ps, n ≤ p.start.bytes)
      ∧ ∀ n, stop.bytes ≤ n ↔ ∀ p ∈ ps, p.stop.bytes ≤ n := by
  cases ps with
  | nil => exact absurd rfl some
  | cons first rest =>
    refine ⟨_, _, rfl, fun n => ?_, fun n => ?_⟩
    · rw [le_foldl_lesser, List.forall_mem_cons]
    · rw [foldl_greater_le, List.forall_mem_cons]

/-- What is known of ranges that were collected from subtrees. -/
theorem addSpan_spec (separated : Separated ranges)
    (sorted : ∀ r ∈ ranges, ∀ p ∈ ps, r.startByte ≤ p.start.bytes) :
    Separated (addSpan ranges ps)
      ∧ (∀ r ∈ addSpan ranges ps, ∀ p ∈ ps, r.startByte ≤ p.start.bytes)
      ∧ (∀ b, Covered ranges b → Covered (addSpan ranges ps) b)
      ∧ ∀ p ∈ ps, ∀ b, p.Covers b → Covered (addSpan ranges ps) b := by
  by_cases some : ps = []
  · subst some
    exact ⟨separated, nofun, fun _ covered => covered, nofun⟩
  · obtain ⟨start, stop, same, least, most⟩ := addSpan_eq ranges some
    have before : ∀ r ∈ ranges, r.startByte ≤ start.bytes :=
      fun r member => (least _).mpr (sorted r member)
    have starts := (least _).mp (Nat.le_refl _)
    have stops := (most _).mp (Nat.le_refl _)
    rw [same]
    refine ⟨add_separated separated, fun r member p isIn => ?_,
      fun b covered => (covered_add before).mpr (.inl covered), fun p isIn b covers => ?_⟩
    · rcases start_of_mem_add member with is | ⟨r', member, is⟩
      · rw [is]
        exact starts p isIn
      · rw [is]
        exact sorted r' member p isIn
    · have := starts p isIn
      have := stops p isIn
      obtain ⟨_, _⟩ := covers
      exact (covered_add before).mpr (.inr (by omega))

/-! ### Sorting and merging -/

theorem inOrder_of_lt {r r' : Range} (lt : r.startByte < r'.startByte) : inOrder r r' = true := by
  have first : Ord.compare r.startByte r'.startByte = .lt := Nat.compare_eq_lt.mpr lt
  rw [inOrder, first]
  rfl

theorem add_separated_eq {r : Range} (separated : Separated (r :: rest)) :
    add rest ⟨r.startByte, r.startPoint⟩ ⟨r.stopByte, r.stopPoint⟩ = r :: rest := by
  obtain ⟨some, latest, -⟩ := separated_cons.mp separated
  rcases add_cases rest ⟨r.startByte, r.startPoint⟩ ⟨r.stopByte, r.stopPoint⟩ with
    ⟨same, -⟩ | ⟨last, rest, rfl, touches, -⟩
  · rw [same, fresh, if_pos some]
    rfl
  · have := latest last List.mem_cons_self
    change r.startByte ≤ last.stopByte at touches
    omega

theorem merge_reverse (separated : Separated ranges) : merge ranges.reverse = ranges.reverse := by
  unfold merge
  congr 1
  induction ranges with
  | nil => rfl
  | cons r rest ih =>
    rw [List.reverse_cons, List.foldl_append, ih (separated_cons.mp separated).2.2]
    exact add_separated_eq separated

/-- Ranges that were collected in order are sorted and merged already. -/
theorem merge_mergeSort (separated : Separated ranges) :
    merge (ranges.reverse.mergeSort inOrder) = ranges.reverse := by
  rw [List.mergeSort_of_pairwise, merge_reverse separated]
  rw [List.pairwise_reverse]
  have nonempty := separated.nonempty
  refine separated.apart.imp_of_mem fun _ member apart => inOrder_of_lt ?_
  have := nonempty _ member
  omega

end Changes

end Reparse
