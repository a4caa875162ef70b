import Reparse.Proofs.Syntax.Summary

/-!
Where subtrees lie in one another.

`Subtree.Occurs u t x` says that `u` is `t` or lies below it, with its text starting `x` after
the start of `t`. What holds of a tree everywhere is stated along this relation
(`Subtree.Everywhere`), for a tree that starts at some byte of a text, and comes apart again
into the root and the children side by side (`everywhere_iff`). If every node has room for its
children, all that lies in a tree lies within its bytes (`Everywhere.within`).
-/

namespace Reparse

namespace Subtree

mutual

/-- `u` is the subtree itself or lies below it, `x` after its start. -/
inductive Occurs (u : Subtree) : Subtree → Extent → Prop
  | here : Occurs u u 0
  | under {t : Subtree} {x : Extent} (inside : OccursIn u t.children x) : Occurs u t x

/-- `u` occurs in one of some subtrees side by side, `x` after the start of the first. -/
inductive OccursIn (u : Subtree) : List Subtree → Extent → Prop
  | head {t : Subtree} {rest : List Subtree} {x : Extent} (inside : Occurs u t x) :
      OccursIn u (t :: rest) x
  | tail {t : Subtree} {rest : List Subtree} {x : Extent} (inside : OccursIn u rest x) :
      OccursIn u (t :: rest) (t.size + x)

end

variable {u t : Subtree} {x : Extent} {a b rest : List Subtree}

theorem occurs_iff : Occurs u t x ↔ (u = t ∧ x = 0) ∨ OccursIn u t.children x := by
  constructor
  · rintro (_ | inside)
    · exact .inl ⟨rfl, rfl⟩
    · exact .inr inside
  · rintro (⟨rfl, rfl⟩ | inside)
    · exact .here
    · exact .under inside

theorem not_occursIn_nil : ¬ OccursIn u [] x := nofun

theorem occursIn_cons :
    OccursIn u (t :: rest) x ↔ Occurs u t x ∨ ∃ y, x = t.size + y ∧ OccursIn u rest y := by
  constructor
  · rintro (inside | inside)
    · exact .inl inside
    · exact .inr ⟨_, rfl, inside⟩
  · rintro (inside | ⟨y, rfl, inside⟩)
    · exact .head inside
    · exact .tail inside

theorem occursIn_append :
    OccursIn u (a ++ b) x ↔ OccursIn u a x ∨ ∃ y, x = total a + y ∧ OccursIn u b y := by
  induction a generalizing x with
  | nil => simp [not_occursIn_nil]
  | cons t a ih =>
    rw [List.cons_append, occursIn_cons, occursIn_cons, or_assoc]
    refine or_congr_right ⟨?_, ?_⟩
    · rintro ⟨y, rfl, inside⟩
      rcases ih.mp inside with inA | ⟨z, rfl, inB⟩
      · exact .inl ⟨y, rfl, inA⟩
      · exact .inr ⟨z, by rw [total_cons, add_assoc], inB⟩
    · rintro (⟨y, rfl, inA⟩ | ⟨z, rfl, inB⟩)
      · exact ⟨y, rfl, ih.mpr (.inl inA)⟩
      · exact ⟨total a + z, by rw [total_cons, add_assoc], ih.mpr (.inr ⟨z, rfl, inB⟩)⟩

/-- Every list in which a subtree occurs splits at the tree that holds it. -/
theorem OccursIn.split (inside : OccursIn u rest x) :
    ∃ before t after y, rest = before ++ t :: after ∧ x = total before + y ∧ Occurs u t y := by
  induction rest generalizing x with
  | nil => exact absurd inside not_occursIn_nil
  | cons t rest ih =>
    rcases occursIn_cons.mp inside with inT | ⟨y, rfl, inRest⟩
    · exact ⟨[], t, rest, x, rfl, (zero_add x).symm, inT⟩
    · obtain ⟨before, c, after, z, rfl, rfl, inC⟩ := ih inRest
      exact ⟨t :: before, c, after, z, rfl, by rw [total_cons, add_assoc], inC⟩

theorem occursIn_of_mem {before after : List Subtree} (inside : Occurs u t x) :
    OccursIn u (before ++ t :: after) (total before + x) :=
  occursIn_append.mpr (.inr ⟨x, rfl, .head inside⟩)

theorem Occurs.child {before c after} (children : t.children = before ++ c :: after) :
    Occurs c t (total before) := by
  have := @occursIn_of_mem c c 0 before after .here
  rw [add_zero, ← children] at this
  exact .under this

theorem occurs_of_mem {c : Subtree} (child : c ∈ t.children) : ∃ x, Occurs c t x := by
  obtain ⟨before, after, children⟩ := List.append_of_mem child
  exact ⟨_, Occurs.child children⟩

/-- Induction over subtrees by way of their children. -/
theorem induction {motive : Subtree → Prop}
    (node : ∀ t : Subtree, (∀ c ∈ t.children, motive c) → motive t) (t : Subtree) : motive t :=
  @Subtree.rec motive (fun ts => ∀ c ∈ ts, motive c)
    (fun stamp info children ih => node ⟨stamp, info, children⟩ ih)
    nofun (fun _ _ head tail => List.forall_mem_cons.mpr ⟨head, tail⟩) t

/-- What lies below a subtree of a tree lies in the tree. -/
theorem Occurs.trans {v : Subtree} {y : Extent} (outer : Occurs u t x) (inner : Occurs v u y) :
    Occurs v t (x + y) := by
  induction t using Subtree.induction generalizing x with
  | node t ih =>
    rcases occurs_iff.mp outer with ⟨rfl, rfl⟩ | outer
    · rwa [zero_add]
    · obtain ⟨before, c, after, z, children, rfl, inC⟩ := outer.split
      have := ih c (by simp [children]) inC
      rw [add_assoc]
      exact .under (children ▸ occursIn_of_mem this)

/-- What a subtree hands on to its children it hands on to all that lies in it. -/
theorem Occurs.hands_on {P : Subtree → Prop} (child : ∀ t c, P t → c ∈ t.children → P c)
    (inside : Occurs u t x) (holds : P t) : P u := by
  induction t using Subtree.induction generalizing x with
  | node t ih =>
    rcases occurs_iff.mp inside with ⟨rfl, rfl⟩ | inside
    · exact holds
    · obtain ⟨before, c, after, y, children, rfl, inC⟩ := inside.split
      have member : c ∈ t.children := by simp [children]
      exact ih c member inC (child t c holds member)

/-! ### What holds everywhere in a tree -/

/-- `P` holds of the subtree and all below it, each with the byte where it starts, when the
subtree itself starts at `place`. -/
def Everywhere (P : Nat → Subtree → Prop) (place : Nat) (t : Subtree) : Prop :=
  ∀ u x, Occurs u t x → P (place + x.bytes) u

/-- `P` holds everywhere in some subtrees side by side. -/
def EverywhereIn (P : Nat → Subtree → Prop) (place : Nat) (ts : List Subtree) : Prop :=
  ∀ u x, OccursIn u ts x → P (place + x.bytes) u

variable {P Q : Nat → Subtree → Prop} {place : Nat}

theorem everywhere_iff :
    Everywhere P place t ↔ P place t ∧ EverywhereIn P place t.children := by
  constructor
  · intro every
    exact ⟨every t 0 .here, fun u x inside => every u x (.under inside)⟩
  · rintro ⟨root, below⟩ u x inside
    rcases occurs_iff.mp inside with ⟨rfl, rfl⟩ | inside
    · exact root
    · exact below u x inside

theorem everywhereIn_nil : EverywhereIn P place [] :=
  fun _ _ inside => absurd inside not_occursIn_nil

theorem everywhereIn_append :
    EverywhereIn P place (a ++ b) ↔
      EverywhereIn P place a ∧ EverywhereIn P (place + (total a).bytes) b := by
  constructor
  · intro every
    refine ⟨fun u x inside => every u x (occursIn_append.mpr (.inl inside)), ?_⟩
    intro u x inside
    have := every u (total a + x) (occursIn_append.mpr (.inr ⟨x, rfl, inside⟩))
    rwa [Extent.add_bytes, ← Nat.add_assoc] at this
  · rintro ⟨everyA, everyB⟩ u x inside
    rcases occursIn_append.mp inside with inA | ⟨y, rfl, inB⟩
    · exact everyA u x inA
    · have := everyB u y inB
      rwa [Nat.add_assoc, ← Extent.add_bytes] at this

theorem everywhereIn_singleton : EverywhereIn P place [t] ↔ Everywhere P place t := by
  constructor
  · intro every u x inside
    exact every u x (.head inside)
  · intro every u x inside
    rcases occursIn_cons.mp inside with inside | ⟨_, _, inside⟩
    · exact every u x inside
    · exact absurd inside not_occursIn_nil

theorem everywhereIn_cons :
    EverywhereIn P place (t :: rest) ↔
      Everywhere P place t ∧ EverywhereIn P (place + t.size.bytes) rest := by
  rw [← List.singleton_append, everywhereIn_append, everywhereIn_singleton]
  simp

/-- The children of a node may take its place if they are as long together. -/
theorem EverywhereIn.enter (every : EverywhereIn P place (t :: rest))
    (bytes : t.size.bytes = (total t.children).bytes) :
    EverywhereIn P place (t.children ++ rest) := by
  obtain ⟨here, others⟩ := everywhereIn_cons.mp every
  rw [everywhereIn_append, ← bytes]
  exact ⟨(everywhere_iff.mp here).2, others⟩

theorem EverywhereIn.of_split {before after : List Subtree}
    (every : EverywhereIn P place (before ++ t :: after)) :
    Everywhere P (place + (total before).bytes) t :=
  (everywhereIn_cons.mp (everywhereIn_append.mp every).2).1

theorem Everywhere.mono (weaker : ∀ here u, P here u → Q here u) (every : Everywhere P place t) :
    Everywhere Q place t :=
  fun u x inside => weaker _ u (every u x inside)

theorem EverywhereIn.mono (weaker : ∀ here u, P here u → Q here u) (every : EverywhereIn P place rest) :
    EverywhereIn Q place rest :=
  fun u x inside => weaker _ u (every u x inside)

/-- What does not depend on the place holds at every place. -/
theorem Everywhere.anywhere {P : Subtree → Prop} {other : Nat}
    (every : Everywhere (fun _ => P) place t) : Everywhere (fun _ => P) other t :=
  every

/-- What holds everywhere in a tree does so in what lies below it. -/
theorem Everywhere.of_occurs (every : Everywhere P place t) (inside : Occurs u t x) :
    Everywhere P (place + x.bytes) u := by
  intro v y below
  have := every v (x + y) (inside.trans below)
  rwa [Extent.add_bytes, ← Nat.add_assoc] at this

/-- What holds at any place holds of every child. -/
theorem Everywhere.of_mem {P : Subtree → Prop} {c : Subtree}
    (every : Everywhere (fun _ => P) place t) (child : c ∈ t.children) :
    Everywhere (fun _ => P) place c := by
  obtain ⟨x, inside⟩ := occurs_of_mem child
  exact (every.of_occurs inside).anywhere

theorem EverywhereIn.of_occursIn (every : EverywhereIn P place rest) (inside : OccursIn u rest x) :
    Everywhere P (place + x.bytes) u := by
  obtain ⟨before, t, after, y, rfl, rfl, inT⟩ := inside.split
  rw [Extent.add_bytes, ← Nat.add_assoc]
  exact every.of_split.of_occurs inT

/-! ### Trees whose nodes have room -/

/-- A node is at least as long as its children together. -/
def Roomy (t : Subtree) : Prop := (total t.children).bytes ≤ t.size.bytes

/-- What lies in a tree whose nodes have room for their children lies within its bytes. -/
theorem Everywhere.within (roomy : Everywhere (fun _ => Roomy) place t) (inside : Occurs u t x) :
    x.bytes + u.size.bytes ≤ t.size.bytes := by
  induction t using Subtree.induction generalizing x place with
  | node t ih =>
    rcases occurs_iff.mp inside with ⟨rfl, rfl⟩ | inside
    · exact Nat.le_of_eq (Nat.zero_add _)
    · obtain ⟨root, below⟩ := everywhere_iff.mp roomy
      obtain ⟨before, c, after, y, children, rfl, inC⟩ := inside.split
      rw [children] at below
      have := ih c (by simp [children]) below.of_split inC
      rw [Roomy, children, total_append, total_cons] at root
      simp only [Extent.add_bytes] at root ⊢
      omega

/-- A node is as large as its children together. -/
def Tiled (t : Subtree) : Prop := t.children ≠ [] → t.size = total t.children

theorem Roomy.of_bytes_eq (bytes_eq : t.children ≠ [] → t.size.bytes = (total t.children).bytes) :
    t.Roomy := by
  unfold Roomy
  cases children : t.children with
  | nil => exact Nat.zero_le _
  | cons c rest =>
    have := bytes_eq (by simp [children])
    rw [children] at this
    exact Nat.le_of_eq this.symm

theorem Tiled.roomy (tiled : t.Tiled) : t.Roomy :=
  .of_bytes_eq fun inner => congrArg Extent.bytes (tiled inner)

theorem tiled_node {stamp : Stamp} {lang : Language} {symbol : Symbol} {production : ProductionId}
    {parseState : StateId} (below : EverywhereIn (fun _ => Tiled) place rest) :
    Everywhere (fun _ => Tiled) place (.node stamp lang symbol rest production parseState) := by
  refine everywhere_iff.mpr ⟨?_, below⟩
  intro _
  exact Summary.ofChildren_size ..

theorem tiled_leaf (leaf : t.children = []) : Everywhere (fun _ => Tiled) place t := by
  refine everywhere_iff.mpr ⟨fun inner => absurd leaf inner, ?_⟩
  rw [leaf]
  exact everywhereIn_nil

theorem Everywhere.roomy (tiled : Everywhere (fun _ => Tiled) place t) :
    Everywhere (fun _ => Roomy) place t :=
  tiled.mono fun _ _ => Tiled.roomy

/-! ### Where subtrees stand, computed -/

mutual

/-- The stamps of all subtrees of a tree that starts at `place`, each with the byte it starts at. -/
def stamped (place : Nat) : Subtree → List (Stamp × Nat)
  | ⟨stamp, _, children⟩ => (stamp, place) :: stampedIn place children

def stampedIn (place : Nat) : List Subtree → List (Stamp × Nat)
  | [] => []
  | t :: rest => t.stamped place ++ stampedIn (place + t.size.bytes) rest

end

end Subtree

end Reparse
