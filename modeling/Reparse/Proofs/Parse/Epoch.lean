import Reparse.Proofs.Parse.Stack

/-!
When the entries of a parse stack were pushed.

Recoveries are counted, and an entry keeps the count from when the lowest of its subtrees was
pushed. Entries further up are never older (`Stack.Dated`), and nodes that were built across a
recovery are older than the last one. What lies below an error on top of the stack is older too,
but for nodes made of nothing since (`Stack.Stale`).
-/

namespace Reparse

open Subtree (total)

namespace Stack

variable {s : Stack} {e : Entry} {above rest : List Entry} {t : Subtree} {q : StateId}
  {epoch epoch' seen seen' place : Nat}

/-! ### What was looked at -/

/-- What the extras among some subtrees side by side depend on was looked at, errors aside. -/
def Noted (seen : Nat) : (place : Nat) → List Subtree → Prop
  | _, [] => True
  | place, t :: rest =>
    (t.extra = true → t.isError = false → place + t.window ≤ seen)
      ∧ Noted seen (place + t.size.bytes) rest

theorem noted_append {a b : List Subtree} :
    Noted seen place (a ++ b)
      ↔ Noted seen place a ∧ Noted seen (place + (total a).bytes) b := by
  induction a generalizing place with
  | nil => simp [Noted]
  | cons t a ih =>
    rw [List.cons_append, Noted, Noted, ih, and_assoc, Subtree.total_cons, Extent.add_bytes,
      Nat.add_assoc]

theorem Noted.mono {ts : List Subtree} (noted : Noted seen place ts) (le : seen ≤ seen') :
    Noted seen' place ts := by
  induction ts generalizing place with
  | nil => trivial
  | cons t rest ih =>
    exact ⟨fun extra regular => Nat.le_trans (noted.1 extra regular) le, ih noted.2⟩

/-! ### Dated stacks -/

/-- Entries further up are not older, none is ahead of the count, and a node built across a
recovery is older than the last one. -/
structure Dated (s : Stack) (epoch seen : Nat) : Prop where
  sorted : s.entries.Pairwise fun e below => below.epoch ≤ e.epoch
  le : ∀ e ∈ s.entries, e.epoch ≤ epoch
  fragile : ∀ e ∈ s.entries, e.tree.extra = false → e.tree.children ≠ [] →
    e.tree.info.fragile = true → e.epoch < epoch
  noted : Noted seen 0 (trees s.entries)

theorem dated_empty (empty : s.entries = []) : s.Dated epoch seen := by
  constructor <;> simp [empty, Noted]

theorem Dated.mono (dated : s.Dated epoch seen) (epochs : epoch ≤ epoch') (le : seen ≤ seen') :
    s.Dated epoch' seen' where
  sorted := dated.sorted
  le e member := Nat.le_trans (dated.le e member) epochs
  fragile e member regular inner fragile :=
    Nat.lt_of_lt_of_le (dated.fragile e member regular inner fragile) epochs
  noted := dated.noted.mono le

theorem Dated.of_entries {s' : Stack} (dated : s.Dated epoch seen)
    (split : s.entries = above ++ s'.entries) : s'.Dated epoch seen := by
  obtain ⟨sorted, le, fragile, noted⟩ := dated
  rw [split] at sorted le fragile noted
  rw [trees_append, noted_append] at noted
  exact ⟨(List.pairwise_append.mp sorted).2.1, fun e member => le e (List.mem_append_right _ member),
    fun e member => fragile e (List.mem_append_right _ member), noted.1⟩

/-- What is pushed must not be older than the stack, and what it depends on must be noted. -/
theorem Dated.push (dated : s.Dated epoch seen) (later : ∀ e ∈ s.entries, e.epoch ≤ epoch')
    (le : epoch' ≤ epoch)
    (fragile : t.extra = false → t.children ≠ [] → t.info.fragile = true → epoch' < epoch)
    (noted : t.extra = true → t.isError = false →
      (total (trees s.entries)).bytes + t.window ≤ seen) :
    (s.push t q epoch').Dated epoch seen where
  sorted := List.pairwise_cons.mpr ⟨later, dated.sorted⟩
  le := by
    intro e member
    rcases List.mem_cons.mp member with rfl | member
    · exact le
    · exact dated.le e member
  fragile := by
    intro e member
    rcases List.mem_cons.mp member with rfl | member
    · exact fragile
    · exact dated.fragile e member
  noted := by
    rw [push_entries, trees_cons, noted_append, Nat.zero_add]
    exact ⟨dated.noted, noted, trivial⟩

/-- Extras may be put back on top. -/
theorem Dated.pushAll {ts : List Subtree} (dated : s.Dated epoch seen)
    (extras : ∀ t ∈ ts, t.extra = true)
    (noted : Noted seen (total (trees s.entries)).bytes ts) :
    (s.pushAll ts q epoch).Dated epoch seen := by
  induction ts generalizing s with
  | nil => exact dated
  | cons t ts ih =>
    have extra := extras t List.mem_cons_self
    have pushed := dated.push (q := q) dated.le (Nat.le_refl epoch)
      (fun regular => by rw [extra] at regular; cases regular) noted.1
    refine ih pushed (fun t member => extras t (List.mem_cons_of_mem _ member)) ?_
    have place : (total (trees (s.push t q epoch).entries)).bytes
        = (total (trees s.entries)).bytes + t.size.bytes := by
      rw [push_entries, trees_cons, Subtree.total_append, Subtree.total_cons, Subtree.total_nil,
        add_zero, Extent.add_bytes]
    rw [place]
    exact noted.2

/-! ### Errors on top -/

/-- There is an error among the extras on top. -/
def Erred (s : Stack) : Prop :=
  ∃ e ∈ s.entries.takeWhile (·.tree.extra), e.tree.isError = true

/-- Below the extras on top everything is older than `epoch`, or takes up no text. -/
def Stale (s : Stack) (epoch : Nat) : Prop :=
  ∃ above fresh old, s.entries = above ++ (fresh ++ old)
    ∧ (∀ e ∈ above, e.tree.extra = true)
    ∧ (∀ e ∈ fresh, e.tree.extra = false ∧ e.tree.size.bytes = 0)
    ∧ ∀ e ∈ old, e.epoch < epoch

theorem Stale.mono (stale : s.Stale epoch) (le : epoch ≤ epoch') : s.Stale epoch' := by
  obtain ⟨above, fresh, old, split, extras, empties, older⟩ := stale
  exact ⟨above, fresh, old, split, extras, empties,
    fun e member => Nat.lt_of_lt_of_le (older e member) le⟩

theorem stale_of_lt (older : ∀ e ∈ s.entries, e.epoch < epoch) : s.Stale epoch :=
  ⟨[], [], s.entries, rfl, nofun, nofun, older⟩

theorem Stale.pushExtra (stale : s.Stale epoch) (extra : t.extra = true) :
    (s.push t q epoch').Stale epoch := by
  obtain ⟨above, fresh, old, split, extras, empties, older⟩ := stale
  refine ⟨⟨t, q, s.topPosition + t.size, epoch'⟩ :: above, fresh, old, ?_, ?_, empties, older⟩
  · rw [push_entries, split]
    rfl
  · exact List.forall_mem_cons.mpr ⟨extra, extras⟩

theorem not_erred_push (regular : t.extra = false) : ¬ (s.push t q epoch).Erred := by
  simp [Erred, regular]

theorem erred_pushExtra (extra : t.extra = true) (regular : t.isError = false)
    (erred : (s.push t q epoch).Erred) : s.Erred := by
  obtain ⟨e, member, error⟩ := erred
  rw [push_entries, List.takeWhile_cons, if_pos extra] at member
  rcases List.mem_cons.mp member with rfl | member
  · rw [regular] at error
    cases error
  · exact ⟨e, member, error⟩

/-- The extras on top are all that lies above the topmost other entry. -/
theorem erred_iff (split : s.entries = above ++ rest) (extras : ∀ e ∈ above, e.tree.extra = true)
    (regular : ∀ e ∈ rest.head?, e.tree.extra = false) :
    s.Erred ↔ ∃ e ∈ above, e.tree.isError = true := by
  have top : s.entries.takeWhile (·.tree.extra) = above := by
    rw [split, List.takeWhile_append_of_pos extras]
    cases rest with
    | nil => exact List.append_nil _
    | cons e rest => simp [regular e rfl]
  rw [Erred, top]

/-- Above the topmost other entry a stale stack only has extras. -/
theorem Stale.split (stale : s.Stale epoch) (split : s.entries = above ++ rest)
    (extras : ∀ e ∈ above, e.tree.extra = true)
    (regular : ∀ e ∈ rest.head?, e.tree.extra = false) :
    ∃ fresh old, rest = fresh ++ old ∧ (∀ e ∈ fresh, e.tree.extra = false ∧ e.tree.size.bytes = 0)
      ∧ ∀ e ∈ old, e.epoch < epoch := by
  obtain ⟨above', fresh, old, split', extras', empties, older⟩ := stale
  rw [split] at split'
  rcases List.append_eq_append_iff.mp split' with ⟨more, rfl, is⟩ | ⟨more, rfl, is⟩
  · cases more with
    | nil => exact ⟨fresh, old, is, empties, older⟩
    | cons e more =>
      have extra := extras' e (by simp)
      rw [is] at regular
      rw [regular e rfl] at extra
      cases extra
  · cases more with
    | nil => exact ⟨fresh, old, is.symm, empties, older⟩
    | cons e more =>
      have extra := extras e (by simp)
      cases fresh with
      | nil =>
        rw [List.nil_append] at is
        refine ⟨[], rest, rfl, nofun, fun e member => older e ?_⟩
        rw [is]
        exact List.mem_append_right _ member
      | cons e' fresh =>
        obtain ⟨rfl, -⟩ := List.cons.inj is
        rw [(empties e' List.mem_cons_self).1] at extra
        cases extra

end Stack

end Reparse
