import Mathlib.Data.List.Forall2
import Reparse.Proofs.Syntax.Occurrence
import Reparse.Tree.Changes

/-!
The nodes that a byte lies in.

From the root of a tree down to a leaf, these are its chain (`Subtree.chain`): where nodes are
tiled by their children, the chain holds every node in which the byte lies, and no other
(`Placed.mem_chain_iff`).

Chains of one byte in two trees are the same if they are as long as each other and alike from node
to node, and end in the same leaf (`Placed.SameChain`). Those of two nodes are, if those in their
children are (`Placed.sameChain_of_children`), and children can be compared one by one
(`Placed.sameChain_of_pairs`) and stretch by stretch (`Placed.SameChain.append`).
-/

namespace Reparse

open Changes (childrenAt)

/-- The byte is one of those that the subtree stands for. -/
def Placed.Covers (p : Placed) (b : Nat) : Prop := p.start.bytes ≤ b ∧ b < p.stop.bytes

instance (p : Placed) (b : Nat) : Decidable (p.Covers b) :=
  inferInstanceAs (Decidable (_ ∧ _))

theorem Placed.stop_bytes (p : Placed) : p.stop.bytes = p.start.bytes + p.tree.size.bytes := rfl

theorem Placed.start_le_stop (p : Placed) : p.start.bytes ≤ p.stop.bytes :=
  Nat.le_add_right _ _

namespace Subtree

mutual

/-- The subtrees that a byte lies in, from this one down to a leaf, if this one starts there. -/
def chain (b : Nat) (start : Extent) : Subtree → List Placed
  | t@⟨_, _, children⟩ =>
    if Placed.Covers ⟨t, start⟩ b then ⟨t, start⟩ :: chainAmong b start children else []

def chainAmong (b : Nat) (start : Extent) : List Subtree → List Placed
  | [] => []
  | t :: rest =>
    if Placed.Covers ⟨t, start⟩ b then t.chain b start else chainAmong b (start + t.size) rest

end

end Subtree

namespace Placed

theorem covers_root {t : Subtree} {b : Nat} : Covers ⟨t, .zero⟩ b ↔ b < t.size.bytes := by
  have start : Extent.zero.bytes = 0 := rfl
  simp only [Covers, stop_bytes, start, Nat.zero_le, true_and, Nat.zero_add]

/-! ### Subtrees side by side -/

/-- The children, each where it starts. -/
def children (p : Placed) : List Placed := childrenAt p.start p.tree.children

def chain (b : Nat) (p : Placed) : List Placed := p.tree.chain b p.start

/-- The chain through the subtree in which the byte lies. -/
def chainIn (b : Nat) : List Placed → List Placed
  | [] => []
  | p :: rest => if p.Covers b then p.chain b else chainIn b rest

/-- Each subtree starts where the one before it ends, the first and the last as given. -/
def Abut (start stop : Nat) : List Placed → Prop
  | [] => start = stop
  | p :: rest => p.start.bytes = start ∧ Abut p.stop.bytes stop rest

variable {p : Placed} {ps qs : List Placed} {b start stop : Nat}

theorem abut_append :
    Abut start stop (ps ++ qs) ↔ ∃ between, Abut start between ps ∧ Abut between stop qs := by
  induction ps generalizing start with
  | nil => simp [Abut]
  | cons p ps ih => simp [Abut, ih, and_assoc]

theorem Abut.le (abut : Abut start stop ps) : start ≤ stop := by
  induction ps generalizing start with
  | nil => exact Nat.le_of_eq abut
  | cons p ps ih =>
    have := p.start_le_stop
    have := ih abut.2
    have := abut.1
    omega

theorem Abut.of_mem (abut : Abut start stop ps) (member : p ∈ ps) :
    start ≤ p.start.bytes ∧ p.stop.bytes ≤ stop := by
  obtain ⟨before, after, rfl⟩ := List.append_of_mem member
  obtain ⟨between, front, back⟩ := abut_append.mp abut
  have := front.le
  have := back.1
  have := back.2.le
  omega

theorem Abut.le_start (abut : Abut start stop ps) (some : ps ≠ []) {n : Nat}
    (least : ∀ p ∈ ps, n ≤ p.start.bytes) : n ≤ start := by
  cases ps with
  | nil => exact absurd rfl some
  | cons p ps =>
    rw [← abut.1]
    exact least p List.mem_cons_self

theorem Abut.ordered (abut : Abut start stop ps) :
    ps.Pairwise fun p q => p.stop.bytes ≤ q.start.bytes := by
  induction ps generalizing start with
  | nil => exact .nil
  | cons p ps ih => exact .cons (fun q member => (abut.2.of_mem member).1) (ih abut.2)

theorem Abut.covers_iff (abut : Abut start stop ps) :
    (∃ p ∈ ps, p.Covers b) ↔ start ≤ b ∧ b < stop := by
  induction ps generalizing start with
  | nil =>
    have : start = stop := abut
    simp only [List.not_mem_nil, false_and, exists_false, false_iff]
    omega
  | cons p ps ih =>
    have := abut.1
    have := p.start_le_stop
    have := abut.2.le
    have split : (∃ q ∈ p :: ps, q.Covers b) ↔ p.Covers b ∨ ∃ q ∈ ps, q.Covers b := by simp
    rw [split, ih abut.2, Covers]
    omega

theorem mem_childrenAt {x : Extent} {ts : List Subtree} : p ∈ childrenAt x ts ↔
    ∃ before t after, ts = before ++ t :: after ∧ p = ⟨t, x + Subtree.total before⟩ := by
  induction ts generalizing x with
  | nil => simp [childrenAt]
  | cons t ts ih =>
    rw [childrenAt, List.mem_cons, ih]
    constructor
    · rintro (rfl | ⟨before, c, after, rfl, rfl⟩)
      · exact ⟨[], t, ts, rfl, by rw [Subtree.total_nil, add_zero]⟩
      · exact ⟨t :: before, c, after, rfl, by rw [Subtree.total_cons, add_assoc]⟩
    · rintro ⟨_ | ⟨_, before⟩, c, after, split, rfl⟩
      · cases split
        exact .inl (by rw [Subtree.total_nil, add_zero])
      · cases split
        exact .inr ⟨before, c, after, rfl, by rw [Subtree.total_cons, add_assoc]⟩

theorem abut_childrenAt (x : Extent) (ts : List Subtree) :
    Abut x.bytes (x + Subtree.total ts).bytes (childrenAt x ts) := by
  induction ts generalizing x with
  | nil => rw [Subtree.total_nil, add_zero]; rfl
  | cons t ts ih =>
    refine ⟨rfl, ?_⟩
    rw [Subtree.total_cons, ← add_assoc]
    exact ih (x + t.size)

theorem tree_mem_of_mem_children {c : Placed} (child : c ∈ p.children) :
    c.tree ∈ p.tree.children := by
  obtain ⟨before, t, after, split, rfl⟩ := mem_childrenAt.mp child
  simp [split]

theorem children_ne_nil (node : p.tree.children ≠ []) : p.children ≠ [] := by
  unfold children
  cases ofTree : p.tree.children with
  | nil => exact absurd ofTree node
  | cons t ts => nofun

theorem abut_children (tiled : p.tree.Tiled) (node : p.tree.children ≠ []) :
    Abut p.start.bytes p.stop.bytes p.children := by
  have := abut_childrenAt p.start p.tree.children
  rwa [← tiled node] at this

/-! ### Chains -/

theorem chainAmong_eq (x : Extent) (ts : List Subtree) :
    Subtree.chainAmong b x ts = chainIn b (childrenAt x ts) := by
  induction ts generalizing x with
  | nil => rfl
  | cons t ts ih =>
    simp only [Subtree.chainAmong, childrenAt, chainIn, ih]
    rfl

theorem chain_eq (p : Placed) (b : Nat) :
    p.chain b = if p.Covers b then p :: chainIn b p.children else [] := by
  obtain ⟨⟨stamp, info, children⟩, x⟩ := p
  simp only [chain, Subtree.chain, chainAmong_eq]
  rfl

theorem chain_eq_nil_iff : p.chain b = [] ↔ ¬ p.Covers b := by
  rw [chain_eq]
  by_cases covers : p.Covers b
  · simp [covers]
  · simp [covers]

theorem chainIn_eq_nil_iff : chainIn b ps = [] ↔ ∀ p ∈ ps, ¬ p.Covers b := by
  induction ps with
  | nil => simp [chainIn]
  | cons p ps ih =>
    by_cases covers : p.Covers b
    · simp [chainIn, covers, chain_eq_nil_iff]
    · simp [chainIn, covers, ih]

theorem chainIn_append_of_nil (none : chainIn b ps = []) :
    chainIn b (ps ++ qs) = chainIn b qs := by
  induction ps with
  | nil => rfl
  | cons p ps ih =>
    obtain ⟨first, others⟩ := List.forall_mem_cons.mp (chainIn_eq_nil_iff.mp none)
    rw [List.cons_append, chainIn, if_neg first, ih (chainIn_eq_nil_iff.mpr others)]

theorem chainIn_append_of_ne_nil (some : chainIn b ps ≠ []) :
    chainIn b (ps ++ qs) = chainIn b ps := by
  induction ps with
  | nil => exact absurd rfl some
  | cons p ps ih =>
    rw [chainIn] at some
    rw [List.cons_append, chainIn, chainIn]
    by_cases covers : p.Covers b
    · rw [if_pos covers, if_pos covers]
    · rw [if_neg covers] at some
      rw [if_neg covers, if_neg covers, ih some]

/-- The byte lies in a node if and only if it lies in one of the children. -/
theorem covers_iff_chainIn (tiled : p.tree.Tiled) (node : p.tree.children ≠ []) :
    p.Covers b ↔ chainIn b p.children ≠ [] := by
  rw [ne_eq, chainIn_eq_nil_iff]
  simp only [not_forall, not_not, exists_prop]
  exact (abut_children tiled node).covers_iff.symm

theorem exists_of_mem_chainIn {q : Placed} (member : q ∈ chainIn b ps) :
    ∃ p ∈ ps, q ∈ p.chain b := by
  induction ps with
  | nil => cases member
  | cons p ps ih =>
    rw [chainIn] at member
    by_cases covers : p.Covers b
    · rw [if_pos covers] at member
      exact ⟨p, List.mem_cons_self, member⟩
    · rw [if_neg covers] at member
      obtain ⟨p', isIn, member⟩ := ih member
      exact ⟨p', List.mem_cons_of_mem _ isIn, member⟩

/-- Of subtrees side by side, no two cover one byte. -/
theorem Abut.chainIn_eq (abut : Abut start stop ps) (member : p ∈ ps) (covers : p.Covers b) :
    chainIn b ps = p.chain b := by
  obtain ⟨before, after, rfl⟩ := List.append_of_mem member
  have earlier := (List.pairwise_append.mp abut.ordered).2.2
  have none : chainIn b before = [] := by
    refine chainIn_eq_nil_iff.mpr fun q isIn covered => ?_
    have := earlier q isIn p List.mem_cons_self
    obtain ⟨_, _⟩ := covered
    obtain ⟨_, _⟩ := covers
    omega
  rw [chainIn_append_of_nil none, chainIn, if_pos covers]

theorem Covers.around {q : Placed} {x : Extent} (covers : q.Covers b)
    (tiled : p.tree.Everywhere (fun _ => Subtree.Tiled) 0) (start : q.start = p.start + x)
    (inside : Subtree.Occurs q.tree p.tree x) : p.Covers b := by
  have := tiled.roomy.within inside
  have bytes : q.start.bytes = p.start.bytes + x.bytes := congrArg Extent.bytes start
  rw [Covers, stop_bytes] at covers ⊢
  omega

/-- The chain of a byte holds every node in which the byte lies, and no other. -/
theorem mem_chain_iff {q : Placed} (tiled : p.tree.Everywhere (fun _ => Subtree.Tiled) 0) :
    q ∈ p.chain b ↔
      q.Covers b ∧ ∃ x, q.start = p.start + x ∧ Subtree.Occurs q.tree p.tree x := by
  obtain ⟨t, y⟩ := p
  induction t using Subtree.induction generalizing y with
  | node t ih =>
    rw [chain_eq]
    constructor
    · intro member
      by_cases covers : Covers ⟨t, y⟩ b
      · rw [if_pos covers] at member
        rcases List.mem_cons.mp member with rfl | member
        · exact ⟨covers, 0, (add_zero _).symm, .here⟩
        · obtain ⟨c, child, member⟩ := exists_of_mem_chainIn member
          obtain ⟨before, u, after, split, rfl⟩ := mem_childrenAt.mp child
          have below : u ∈ t.children := tree_mem_of_mem_children child
          obtain ⟨covers, x, start, inside⟩ := (ih u below _ (tiled.of_mem below)).mp member
          refine ⟨covers, Subtree.total before + x, by rw [start, add_assoc], .under ?_⟩
          rw [split]
          exact Subtree.occursIn_of_mem inside
      · rw [if_neg covers] at member
        cases member
    · rintro ⟨covers, x, start, inside⟩
      rw [if_pos (covers.around tiled start inside)]
      rcases Subtree.occurs_iff.mp inside with ⟨same, rfl⟩ | below
      · rw [add_zero] at start
        obtain ⟨_, _⟩ := q
        cases same
        cases start
        exact List.mem_cons_self
      · obtain ⟨before, u, after, z, split, rfl, inU⟩ := below.split
        have placed : (⟨u, y + Subtree.total before⟩ : Placed) ∈ children ⟨t, y⟩ :=
          mem_childrenAt.mpr ⟨before, u, after, split, rfl⟩
        have child : u ∈ t.children := tree_mem_of_mem_children placed
        have abut := abut_children (Subtree.everywhere_iff.mp tiled).1 (List.ne_nil_of_mem child)
        rw [← add_assoc] at start
        have covers' : Covers ⟨u, y + Subtree.total before⟩ b :=
          covers.around (tiled.of_mem child) start inU
        rw [abut.chainIn_eq placed covers']
        exact List.mem_cons_of_mem _
          ((ih u child _ (tiled.of_mem child)).mpr ⟨covers, z, start, inU⟩)

/-! ### Chains that look the same -/

/-- Nodes of one symbol that are both visible or not, and both extra or not. -/
structure Alike (old new : Placed) : Prop where
  symbol : old.tree.symbol = new.tree.symbol
  visible : old.tree.visible = new.tree.visible
  extra : old.tree.extra = new.tree.extra

/-- Leaves of the same bytes that both stand for a missing token or not. -/
structure SameLeaf (old new : Placed) : Prop where
  old_leaf : old.tree.children = []
  new_leaf : new.tree.children = []
  start : old.start.bytes = new.start.bytes
  stop : old.stop.bytes = new.stop.bytes
  missing : old.tree.info.missing = new.tree.info.missing

/-- Chains that are alike from node to node and end in the same leaf. -/
structure SameChain (olds news : List Placed) : Prop where
  alike : List.Forall₂ Alike olds news
  leaf : ∀ old ∈ olds.getLast?, ∀ new ∈ news.getLast?, SameLeaf old new

variable {old new : Placed} {olds news olds' news' : List Placed}

theorem sameChain_nil : SameChain [] [] := ⟨.nil, nofun⟩

theorem SameChain.eq_nil_iff (same : SameChain olds news) : olds = [] ↔ news = [] := by
  rw [← List.length_eq_zero_iff, same.alike.length_eq, List.length_eq_zero_iff]

theorem SameChain.cons (same : SameChain olds news) (alike : Alike old new) (more : olds ≠ []) :
    SameChain (old :: olds) (new :: news) := by
  refine ⟨.cons alike same.alike, ?_⟩
  rw [List.getLast?_cons_of_ne_nil more, List.getLast?_cons_of_ne_nil (mt same.eq_nil_iff.mpr more)]
  exact same.leaf

theorem sameChain_of_uncovered (ofOld : ¬ old.Covers b) (ofNew : ¬ new.Covers b) :
    SameChain (old.chain b) (new.chain b) := by
  rw [chain_eq_nil_iff.mpr ofOld, chain_eq_nil_iff.mpr ofNew]
  exact sameChain_nil

theorem sameChain_of_leaf (alike : Alike old new) (leaf : SameLeaf old new) :
    SameChain (old.chain b) (new.chain b) := by
  have nothing {p : Placed} (leaf : p.tree.children = []) : chainIn b p.children = [] := by
    rw [children, leaf]
    rfl
  have both : new.Covers b ↔ old.Covers b := by rw [Covers, Covers, leaf.start, leaf.stop]
  rw [chain_eq, chain_eq, nothing leaf.old_leaf, nothing leaf.new_leaf]
  by_cases covers : old.Covers b
  · rw [if_pos covers, if_pos (both.mpr covers)]
    refine ⟨.cons alike .nil, ?_⟩
    rintro _ ⟨⟩ _ ⟨⟩
    exact leaf
  · rw [if_neg covers, if_neg (mt both.mp covers)]
    exact sameChain_nil

theorem sameChain_of_children (alike : Alike old new) (oldTiled : old.tree.Tiled)
    (oldNode : old.tree.children ≠ []) (newTiled : new.tree.Tiled)
    (newNode : new.tree.children ≠ [])
    (below : SameChain (chainIn b old.children) (chainIn b new.children)) :
    SameChain (old.chain b) (new.chain b) := by
  have inOld := covers_iff_chainIn (b := b) oldTiled oldNode
  have inNew := covers_iff_chainIn (b := b) newTiled newNode
  rw [ne_eq, ← below.eq_nil_iff] at inNew
  rw [chain_eq, chain_eq]
  by_cases some : chainIn b old.children = []
  · rw [if_neg (mt inOld.mp (not_not.mpr some)), if_neg (mt inNew.mp (not_not.mpr some))]
    exact sameChain_nil
  · rw [if_pos (inOld.mpr some), if_pos (inNew.mpr some)]
    exact below.cons alike some

theorem sameChain_among_uncovered (ofOlds : ∀ p ∈ olds, ¬ p.Covers b)
    (ofNews : ∀ p ∈ news, ¬ p.Covers b) : SameChain (chainIn b olds) (chainIn b news) := by
  rw [chainIn_eq_nil_iff.mpr ofOlds, chainIn_eq_nil_iff.mpr ofNews]
  exact sameChain_nil

theorem sameChain_of_pairs
    (pairs : List.Forall₂ (fun old new => SameChain (chain b old) (chain b new)) olds news) :
    SameChain (chainIn b olds) (chainIn b news) := by
  induction pairs with
  | nil => exact sameChain_nil
  | @cons old new olds news same _ ih =>
    have both : ¬ old.Covers b ↔ ¬ new.Covers b := by
      rw [← chain_eq_nil_iff, ← chain_eq_nil_iff, same.eq_nil_iff]
    rw [chainIn, chainIn]
    by_cases covers : old.Covers b
    · rw [if_pos covers, if_pos ((not_iff_not.mp both).mp covers)]
      exact same
    · rw [if_neg covers, if_neg (both.mp covers)]
      exact ih

theorem SameChain.append (first : SameChain (chainIn b olds) (chainIn b news))
    (second : SameChain (chainIn b olds') (chainIn b news')) :
    SameChain (chainIn b (olds ++ olds')) (chainIn b (news ++ news')) := by
  by_cases none : chainIn b olds = []
  · rw [chainIn_append_of_nil none, chainIn_append_of_nil (first.eq_nil_iff.mp none)]
    exact second
  · rw [chainIn_append_of_ne_nil none, chainIn_append_of_ne_nil (mt first.eq_nil_iff.mpr none)]
    exact first

/-- One subtree at one byte. -/
structure Same (old new : Placed) : Prop where
  tree : old.tree = new.tree
  start : old.start.bytes = new.start.bytes

theorem Same.stop_eq (same : Same old new) : old.stop.bytes = new.stop.bytes := by
  rw [stop_bytes, stop_bytes, same.tree, same.start]

theorem same_childrenAt {x y : Extent} (start : x.bytes = y.bytes) (ts : List Subtree) :
    List.Forall₂ Same (childrenAt x ts) (childrenAt y ts) := by
  induction ts generalizing x y with
  | nil => exact .nil
  | cons t ts ih =>
    have next : (x + t.size).bytes = (y + t.size).bytes := by
      rw [Extent.add_bytes, Extent.add_bytes, start]
    exact .cons ⟨rfl, start⟩ (ih next)

theorem Same.sameChain (same : Same old new)
    (tiled : old.tree.Everywhere (fun _ => Subtree.Tiled) 0) :
    SameChain (old.chain b) (new.chain b) := by
  obtain ⟨t, x⟩ := old
  obtain ⟨t', y⟩ := new
  obtain ⟨rfl, start⟩ := same
  induction t using Subtree.induction generalizing x y with
  | node t ih =>
    by_cases leaf : t.children = []
    · refine sameChain_of_leaf ⟨rfl, rfl, rfl⟩ ⟨leaf, leaf, start, ?_, rfl⟩
      exact Same.stop_eq ⟨rfl, start⟩
    · have here := (Subtree.everywhere_iff.mp tiled).1
      have below : ∀ c ∈ childrenAt x t.children, c.tree ∈ t.children :=
        fun _ child => tree_mem_of_mem_children (p := ⟨t, x⟩) child
      have pairs := (List.forall₂_and_left _ _).mpr ⟨below, same_childrenAt start t.children⟩
      refine sameChain_of_children ⟨rfl, rfl, rfl⟩ here leaf here leaf
        (sameChain_of_pairs (pairs.imp ?_))
      rintro ⟨c, z⟩ ⟨c', z'⟩ ⟨child, tree, start⟩
      cases tree
      exact ih c child z (tiled.of_mem child) z' start

theorem Abut.of_same {start' stop' : Nat} (pairs : List.Forall₂ Same olds news)
    (abut : Abut start stop olds) (abut' : Abut start' stop' news) :
    olds ≠ [] → start = start' ∧ stop = stop' := by
  induction pairs generalizing start start' with
  | nil => exact absurd rfl
  | @cons old new olds news same pairs ih =>
    intro _
    refine ⟨abut.1.symm.trans (same.start.trans abut'.1), ?_⟩
    by_cases last : olds = []
    · subst last
      cases pairs
      exact abut.2.symm.trans (same.stop_eq.trans abut'.2)
    · exact (ih abut.2 abut'.2 last).2

end Placed

end Reparse
