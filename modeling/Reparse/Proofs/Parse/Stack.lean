import Mathlib.Data.List.TakeDrop
import Mathlib.Data.List.TakeWhile
import Reparse.Parse.Stack
import Reparse.Proofs.Syntax.Soundness

/-!
What the parse stack holds.

The entries of a settled stack (`Stack.Settled`) lie side by side in the text, each ends where
it says, and its state follows from the state beneath it: an extra repeats that state, and any
other entry goes to where the table leads from it. Pushing keeps a stack settled if the new
entry is (`Settled.push`), entries that end where they say are as large as their subtrees
(`Positioned.add_total`), and every way to take entries off splits the stack in two
(`popExtras_spec`, `popCount_spec`, `popTo_spec`, `popError_spec`).
-/

namespace Reparse

open Subtree (total structural EverywhereIn Everywhere)

/-- An entry that was pushed onto the state `under` with its text starting at `left`. -/
structure Entry.Settled (lang : Language) (P : Nat → Subtree → Prop) (under : StateId)
    (left : Extent) (e : Entry) : Prop where
  position_eq : e.position = left + e.tree.size
  holds : Everywhere P left.bytes e.tree
  extra_state : e.tree.extra = true → e.state = under
  next_state : e.tree.extra = false → e.state = lang.next under e.tree.symbol
  parseState_eq : e.tree.extra = false → e.tree.info.parseState = under
  shifted : e.tree.extra = false → e.tree.children = [] →
    0 < e.tree.size.bytes ∨ e.tree.symbol.toNat < lang.table.tokenCount →
    lang.action? under e.tree.symbol = some (.shift e.state)

namespace Stack

variable {s : Stack} {e : Entry} {above below rest : List Entry}

/-! ### Entries -/

/-- `P` holds of every entry with those beneath it. -/
def Over (P : Entry → List Entry → Prop) : List Entry → Prop
  | [] => True
  | e :: rest => P e rest ∧ Over P rest

theorem Over.beneath {P : Entry → List Entry → Prop} (held : Over P (above ++ rest)) :
    Over P rest := by
  induction above with
  | nil => exact held
  | cons e above ih => exact ih held.2

theorem Over.mono {P Q : Entry → List Entry → Prop} {entries : List Entry}
    (weaker : ∀ e rest, P e rest → Q e rest) (held : Over P entries) : Over Q entries := by
  induction entries with
  | nil => trivial
  | cons e rest ih => exact ⟨weaker e rest held.1, ih held.2⟩

@[simp] theorem trees_nil : trees [] = [] := rfl

@[simp] theorem trees_cons : trees (e :: rest) = trees rest ++ [e.tree] := by
  simp [trees]

theorem trees_append : trees (above ++ rest) = trees rest ++ trees above := by
  simp [trees]

@[simp] theorem mem_trees {t : Subtree} : t ∈ trees above ↔ ∃ e ∈ above, e.tree = t := by
  simp [trees]

theorem total_trees_bytes_eq_zero :
    (total (trees above)).bytes = 0 ↔ ∀ e ∈ above, e.tree.size.bytes = 0 := by
  induction above with
  | nil => simp
  | cons e above ih =>
    rw [trees_cons, Subtree.total_append, Extent.add_bytes, Subtree.total_cons, Subtree.total_nil,
      add_zero, List.forall_mem_cons, ← ih]
    omega

@[simp] theorem push_entries (t : Subtree) (q : StateId) (epoch : Nat) :
    (s.push t q epoch).entries = ⟨t, q, s.topPosition + t.size, epoch⟩ :: s.entries := rfl

@[simp] theorem push_base (t : Subtree) (q : StateId) (epoch : Nat) :
    (s.push t q epoch).base = s.base := rfl

@[simp] theorem topState_push (t : Subtree) (q : StateId) (epoch : Nat) :
    (s.push t q epoch).topState = q := rfl

@[simp] theorem topPosition_push (t : Subtree) (q : StateId) (epoch : Nat) :
    (s.push t q epoch).topPosition = s.topPosition + t.size := rfl

@[simp] theorem without_base (count : Nat) : (s.without count).base = s.base := rfl

theorem without_entries (split : s.entries = above ++ rest) :
    (s.without above.length).entries = rest := by
  simp [without, split]

/-! ### Taking entries off -/

theorem extra_of_mem_takeWhile {entries : List Entry}
    (member : e ∈ entries.takeWhile (·.tree.extra)) : e.tree.extra = true := by
  have := List.mem_takeWhile_imp member
  exact this

theorem popExtras_spec (s : Stack) : ∃ above rest, s.entries = above ++ rest
    ∧ s.popExtras.1 = trees above ∧ s.popExtras.2.entries = rest ∧ s.popExtras.2.base = s.base
    ∧ (∀ e ∈ above, e.tree.extra = true) ∧ ∀ e ∈ rest.head?, e.tree.extra = false := by
  have split := (List.takeWhile_append_dropWhile (p := (·.tree.extra)) (l := s.entries)).symm
  refine ⟨_, _, split, rfl, without_entries split, rfl,
    fun _ => extra_of_mem_takeWhile, ?_⟩
  intro e member
  have := List.head?_dropWhile_not (fun e : Entry => e.tree.extra) s.entries
  rw [Option.mem_def.mp member] at this
  exact this

theorem takeCount_prefix (count : Nat) (entries : List Entry) :
    takeCount count entries <+: entries := by
  induction entries generalizing count with
  | nil => cases count <;> exact List.nil_prefix
  | cons e rest ih =>
    cases count with
    | zero => exact List.nil_prefix
    | succ count => exact List.cons_prefix_cons.mpr ⟨rfl, ih _⟩

/-- No more subtrees are taken than are counted, extras aside. -/
theorem takeCount_le (count : Nat) (entries : List Entry) :
    (structural (trees (takeCount count entries))).length ≤ count := by
  induction entries generalizing count with
  | nil => cases count <;> exact Nat.zero_le _
  | cons e rest ih =>
    cases count with
    | zero => exact Nat.zero_le _
    | succ count =>
      rw [takeCount, trees_cons, Subtree.structural_append, List.length_append]
      split
      · rename_i extra
        rw [Subtree.structural_singleton_extra extra]
        exact ih (count + 1)
      · rename_i regular
        rw [Subtree.structural_singleton (by simpa using regular)]
        exact Nat.succ_le_succ (ih count)

/-- Where there are enough subtrees all that are counted are taken. -/
theorem takeCount_short {count : Nat} {entries : List Entry}
    (short : (structural (trees (takeCount count entries))).length < count) :
    takeCount count entries = entries := by
  induction entries generalizing count with
  | nil => cases count <;> rfl
  | cons e rest ih =>
    cases count with
    | zero => cases short
    | succ count =>
      rw [takeCount, trees_cons, Subtree.structural_append, List.length_append] at short
      rw [takeCount]
      congr 1
      split at short
      · rename_i extra
        rw [if_pos extra]
        exact ih (by rwa [Subtree.structural_singleton_extra extra] at short)
      · rename_i regular
        rw [if_neg regular]
        rw [Subtree.structural_singleton (by simpa using regular)] at short
        exact ih (Nat.lt_of_succ_lt_succ short)

/-- What a reduction takes depends on which subtrees are extras, and not on what lies beneath. -/
theorem takeCount_congr {count : Nat} {taken taken' rest rest' : List Entry}
    (same : trees taken' = trees taken)
    (taken_eq : taken = takeCount count (taken ++ rest))
    (counted : (structural (trees taken)).length = count) :
    takeCount count (taken' ++ rest') = taken' := by
  replace same : taken'.map (·.tree) = taken.map (·.tree) := List.reverse_injective same
  induction taken generalizing taken' count with
  | nil =>
    obtain rfl := List.map_eq_nil_iff.mp same
    subst counted
    cases rest' <;> rfl
  | cons e taken ih =>
    rw [List.map_cons, List.map_eq_cons_iff] at same
    obtain ⟨e', taken', rfl, tree, same⟩ := same
    cases count with
    | zero => cases taken_eq
    | succ count =>
      rw [List.cons_append, takeCount] at taken_eq
      rw [List.cons_append, takeCount, tree]
      rw [trees_cons, Subtree.structural_append, List.length_append] at counted
      congr 1
      refine ih (List.cons.inj taken_eq).2 ?_ same
      split
      · rename_i extra
        rwa [Subtree.structural_singleton_extra extra] at counted
      · rename_i regular
        rw [Subtree.structural_singleton (by simpa using regular)] at counted
        exact Nat.succ.inj counted

theorem popCount_spec (s : Stack) (count : Nat) : ∃ taken rest, s.entries = taken ++ rest
    ∧ taken = takeCount count s.entries ∧ (s.popCount count).1 = trees taken
    ∧ (s.popCount count).2.1 = taken.getLast?.map (·.epoch)
    ∧ (s.popCount count).2.2.entries = rest ∧ (s.popCount count).2.2.base = s.base := by
  obtain ⟨rest, split⟩ := takeCount_prefix count s.entries
  exact ⟨_, rest, split.symm, rfl, rfl, rfl, without_entries split.symm, rfl⟩

theorem popTo_spec (split : s.entries = above ++ rest) :
    (s.popTo rest.length).1 = trees above ∧ (s.popTo rest.length).2.entries = rest
      ∧ (s.popTo rest.length).2.base = s.base := by
  have count : s.length - rest.length = above.length := by
    rw [s.length_eq, split, List.length_append]
    omega
  simp only [popTo, count]
  refine ⟨?_, without_entries split, rfl⟩
  rw [split, List.take_left]

theorem popTo_split (s : Stack) (remaining : Nat) : ∃ above,
    s.entries = above ++ (s.popTo remaining).2.entries ∧ (s.popTo remaining).1 = trees above :=
  ⟨_, (List.take_append_drop _ _).symm, rfl⟩

theorem popAll_spec (s : Stack) : s.popAll.1 = trees s.entries ∧ s.popAll.2.entries = []
    ∧ s.popAll.2.base = s.base :=
  @popTo_spec s s.entries [] (List.append_nil _).symm

theorem popError_spec {error : Subtree} {extras : List Subtree} {epoch : Nat} {stack : Stack}
    (popped : s.popError = some (error, extras, epoch, stack)) :
    ∃ above e rest, s.entries = above ++ e :: rest ∧ error = e.tree ∧ extras = trees above
      ∧ epoch = e.epoch ∧ stack.entries = rest ∧ stack.base = s.base ∧ e.tree.extra = true
      ∧ e.tree.isError = true ∧ e.tree.children ≠ [] ∧ ∀ e ∈ above, e.tree.extra = true := by
  unfold popError at popped
  dsimp only at popped
  rw [List.span_eq_takeWhile_dropWhile] at popped
  dsimp only at popped
  generalize hextras : (s.entries.take lookback).takeWhile (·.tree.extra) = extras at popped
  have allExtra (e : Entry) (member : e ∈ extras) : e.tree.extra = true := by
    rw [← hextras] at member
    exact extra_of_mem_takeWhile member
  have whole : s.entries = extras
      ++ ((s.entries.take lookback).dropWhile (·.tree.extra) ++ s.entries.drop lookback) := by
    rw [← hextras, ← List.append_assoc, List.takeWhile_append_dropWhile, List.take_append_drop]
  have parts := List.takeWhile_append_dropWhile
    (p := fun e : Entry => !(e.tree.isError && !e.tree.isLeaf)) (l := extras)
  have atError := List.head?_dropWhile_not
    (fun e : Entry => !(e.tree.isError && !e.tree.isLeaf)) extras
  generalize extras.takeWhile _ = above at parts popped
  split at popped
  · cases popped
  · rename_i e deeper found
    rw [found] at parts atError
    have atError : e.tree.isError = true ∧ e.tree.isLeaf = false := by simpa using atError
    simp only [Option.some.injEq, Prod.mk.injEq] at popped
    obtain ⟨rfl, rfl, rfl, rfl⟩ := popped
    have split : s.entries = (above ++ [e])
        ++ (deeper ++ ((s.entries.take lookback).dropWhile (·.tree.extra)
          ++ s.entries.drop lookback)) := by
      rw [← List.append_assoc, List.append_assoc above, List.singleton_append, parts]
      exact whole
    have length : above.length + 1 = (above ++ [e]).length := by simp
    rw [length]
    refine ⟨above, e, _, split.trans (by rw [List.append_assoc above, List.singleton_append]),
      rfl, rfl, rfl, without_entries split, rfl, ?_, atError.1, ?_, ?_⟩
    · exact allExtra e (by rw [← parts]; simp)
    · intro none
      simp [Subtree.isLeaf, none] at atError
    · intro a member
      exact allExtra a (by rw [← parts]; exact List.mem_append_left _ member)

/-! ### Positions -/

/-- Every entry ends where its subtree does that starts where the entries beneath end. -/
def Positioned (entries : List Entry) : Prop :=
  Over (fun e below => e.position = positionOver below + e.tree.size) entries

/-- The topmost of some entries are as large as their subtrees. -/
theorem Positioned.add_total (positioned : Positioned (above ++ rest)) :
    positionOver rest + total (trees above) = positionOver (above ++ rest) := by
  induction above with
  | nil => exact add_zero _
  | cons e above ih =>
    rw [trees_cons, Subtree.total_append, ← add_assoc, ih positioned.2, Subtree.total_cons,
      Subtree.total_nil, add_zero]
    exact positioned.1.symm

theorem Positioned.eq_total {entries : List Entry} (positioned : Positioned entries) :
    positionOver entries = total (trees entries) := by
  have whole := @Positioned.add_total entries [] (by rwa [List.append_nil])
  rw [List.append_nil] at whole
  exact whole.symm.trans (zero_add _)

/-- What holds everywhere in the entries holds so in the subtrees of the topmost side by side. -/
theorem Positioned.everywhereIn {P : Nat → Subtree → Prop} (positioned : Positioned (above ++ rest))
    (held : Over (fun e below => Everywhere P (positionOver below).bytes e.tree) (above ++ rest)) :
    EverywhereIn P (positionOver rest).bytes (trees above) := by
  induction above with
  | nil => exact Subtree.everywhereIn_nil
  | cons e above ih =>
    obtain ⟨holds, held⟩ := held
    have beneath : Positioned (above ++ rest) := positioned.2
    rw [trees_cons, Subtree.everywhereIn_append, Subtree.everywhereIn_singleton]
    refine ⟨ih beneath held, ?_⟩
    rwa [List.append_eq, ← beneath.add_total, Extent.add_bytes] at holds

/-! ### Settled stacks -/

variable {lang : Language} {P : Nat → Subtree → Prop}

/-- Every entry is settled on those beneath it. -/
def Settled (lang : Language) (P : Nat → Subtree → Prop) (s : Stack) : Prop :=
  Over (fun e rest => e.Settled lang P (s.stateOver rest) (positionOver rest)) s.entries

theorem Settled.positioned (settled : s.Settled lang P) : Positioned s.entries :=
  settled.mono fun _ _ entry => entry.position_eq

theorem stateOver_entries {s' : Stack} (base : s'.base = s.base) :
    s.stateOver s'.entries = s'.topState := by
  unfold topState
  cases s'.entries with
  | nil => exact base.symm
  | cons => rfl

theorem stateOver_congr {s' : Stack} (base : s'.base = s.base) : s'.stateOver = s.stateOver := by
  funext entries
  cases entries with
  | nil => exact base
  | cons => rfl

theorem Settled.of_entries {s' : Stack} (settled : s.Settled lang P)
    (split : s.entries = above ++ s'.entries) (base : s'.base = s.base) :
    s'.Settled lang P := by
  unfold Settled at settled ⊢
  rw [split] at settled
  rw [stateOver_congr base]
  exact settled.beneath

theorem Settled.push (settled : s.Settled lang P) {t : Subtree} {q : StateId} (epoch : Nat)
    (entry : Entry.Settled lang P s.topState s.topPosition
      ⟨t, q, s.topPosition + t.size, epoch⟩) : (s.push t q epoch).Settled lang P :=
  ⟨entry, settled⟩

/-- An extra may be pushed wherever it holds, and repeats the state. -/
theorem Settled.pushExtra (settled : s.Settled lang P) {t : Subtree} {q : StateId} (epoch : Nat)
    (holds : Everywhere P s.topPosition.bytes t) (extra : t.extra = true) (state : q = s.topState) :
    (s.push t q epoch).Settled lang P := by
  have notRegular : ¬ t.extra = false := by simp [extra]
  exact settled.push epoch
    { position_eq := rfl
      holds
      extra_state := fun _ => state
      next_state := fun regular => absurd regular notRegular
      parseState_eq := fun regular => absurd regular notRegular
      shifted := fun regular => absurd regular notRegular }

/-- The subtrees of the topmost entries, with the text they take up. -/
theorem Settled.trees (settled : s.Settled lang P) (split : s.entries = above ++ rest) :
    EverywhereIn P (positionOver rest).bytes (Stack.trees above)
      ∧ positionOver rest + total (Stack.trees above) = s.topPosition := by
  have positioned := settled.positioned
  unfold Settled at settled
  rw [split] at positioned settled
  exact ⟨positioned.everywhereIn (settled.mono fun _ _ entry => entry.holds),
    positioned.add_total.trans (congrArg positionOver split.symm)⟩

/-- Extras on top do not change the state. -/
theorem Settled.stateOver_extras (settled : s.Settled lang P) (split : s.entries = above ++ rest)
    (extras : ∀ e ∈ above, e.tree.extra = true) : s.topState = s.stateOver rest := by
  unfold Settled topState at *
  rw [split] at settled ⊢
  clear split
  induction above with
  | nil => rfl
  | cons e above ih =>
    have := ih settled.2 (fun e member => extras e (List.mem_cons_of_mem _ member))
    rw [← this]
    exact settled.1.extra_state (extras e List.mem_cons_self)

/-! ### Pushing extras back -/

/-- Several subtrees pushed in one state. -/
def pushAll (s : Stack) (ts : List Subtree) (q : StateId) (epoch : Nat) : Stack :=
  ts.foldl (fun s t => s.push t q epoch) s

theorem pushAll_base (ts : List Subtree) (q : StateId) (epoch : Nat) :
    (s.pushAll ts q epoch).base = s.base := by
  induction ts generalizing s with
  | nil => rfl
  | cons t ts ih => exact ih

/-- The entries that are pushed, topmost first. -/
theorem pushAll_entries (ts : List Subtree) (q : StateId) (epoch : Nat) :
    ∃ pushed, (s.pushAll ts q epoch).entries = pushed ++ s.entries ∧ trees pushed = ts
      ∧ ∀ e ∈ pushed, e.epoch = epoch := by
  induction ts generalizing s with
  | nil => exact ⟨[], rfl, rfl, nofun⟩
  | cons t ts ih =>
    obtain ⟨pushed, entries, made, epochs⟩ := @ih (s.push t q epoch)
    refine ⟨pushed ++ [⟨t, q, s.topPosition + t.size, epoch⟩], ?_, ?_, ?_⟩
    · rw [List.append_assoc, List.singleton_append]
      exact entries
    · rw [trees_append, made]
      rfl
    · intro e member
      rcases List.mem_append.mp member with member | member
      · exact epochs e member
      · rw [List.mem_singleton.mp member]

theorem length_pushAll (ts : List Subtree) (q : StateId) (epoch : Nat) :
    (s.pushAll ts q epoch).entries.length = ts.length + s.entries.length := by
  induction ts generalizing s with
  | nil => exact (Nat.zero_add _).symm
  | cons t ts ih =>
    have := @ih (s.push t q epoch)
    rw [push_entries, List.length_cons] at this
    change ((s.push t q epoch).pushAll ts q epoch).entries.length = _
    rw [List.length_cons]
    omega

theorem mem_pushAll {ts : List Subtree} {q : StateId} {epoch : Nat} (member : e ∈ s.entries) :
    e ∈ (s.pushAll ts q epoch).entries := by
  induction ts generalizing s with
  | nil => exact member
  | cons t ts ih => exact ih (List.mem_cons_of_mem _ member)

theorem topPosition_pushAll (ts : List Subtree) (q : StateId) (epoch : Nat) :
    (s.pushAll ts q epoch).topPosition = s.topPosition + total ts := by
  induction ts generalizing s with
  | nil => exact (add_zero _).symm
  | cons t ts ih =>
    rw [Subtree.total_cons, ← add_assoc]
    exact ih

theorem topState_pushAll {q : StateId} (state : s.topState = q) (ts : List Subtree)
    (epoch : Nat) : (s.pushAll ts q epoch).topState = q := by
  induction ts generalizing s with
  | nil => exact state
  | cons t ts ih => exact ih rfl

theorem Settled.pushAll (settled : s.Settled lang P) {ts : List Subtree} (epoch : Nat)
    (holds : EverywhereIn P s.topPosition.bytes ts) (extras : ∀ t ∈ ts, t.extra = true) :
    (s.pushAll ts s.topState epoch).Settled lang P := by
  generalize state : s.topState = q
  induction ts generalizing s with
  | nil => exact settled
  | cons t ts ih =>
    obtain ⟨first, others⟩ := Subtree.everywhereIn_cons.mp holds
    have pushed := settled.pushExtra epoch first (extras t List.mem_cons_self) state.symm
    exact ih pushed others (fun t member => extras t (List.mem_cons_of_mem _ member)) rfl

end Stack

end Reparse
