import Reparse.Proofs.Parse.Termination
import Reparse.Tree.Node

/-!
Trees cover their texts.

The root of a parsed tree is as long as the input, and every inner node is as large as its
children in order, for any language in which the end of the input cannot be lexed and no token
leads to where a parse is accepted, and along any old tree (`parse_covers`). A tree parsed from
scratch spells its text: its leaves are the text cut into pieces, and every node starts and ends
at the points where its bytes do (`Tree.Spells`).
-/

namespace Reparse

open Subtree (total Everywhere EverywhereIn Occurs OccursIn Made)

/-! ### Languages to which this applies -/

/-- What can be lexed is a terminal or an error, if that is so of the external tokens. -/
theorem Language.Lexes.terminal {lang : Language} (sound : lang.table.Sound)
    (externals : ∀ symbol ∈ lang.table.externals.toList, symbol.toNat < lang.table.tokenCount)
    {symbol : Symbol} (lexes : lang.Lexes symbol) :
    symbol = Symbol.error ∨ symbol.toNat < lang.table.tokenCount := by
  rcases lexes with error | ⟨s, member, accepted⟩ | external
  · exact .inl error
  · obtain ⟨a, accepts, rfl⟩ := LexState.accepted?_mem accepted
    exact .inr (sound.accepts_lt s member a accepts)
  · exact .inr (externals symbol external)

/-- No table holds the error symbol. -/
theorem Language.action?_error {lang : Language} (sound : lang.table.Sound) (q : StateId) :
    lang.action? q Symbol.error = none := by
  have := sound.symbols_lt
  exact if_neg (by omega)

/-- The conditions on a table under which its trees cover their texts. -/
theorem Language.firm {lang : Language} (sound : lang.table.Sound)
    (unlexed : ∀ s ∈ lang.table.lexStates.toList, s.accepted? ≠ some Symbol.stop)
    (externals : ∀ symbol ∈ lang.table.externals.toList,
      symbol.toNat < lang.table.tokenCount ∧ symbol ≠ Symbol.stop)
    (unaccepting : ∀ q symbol target, symbol.toNat < lang.table.tokenCount →
      lang.action? q symbol = some (.shift target) →
      lang.action? target Symbol.stop ≠ some .accept) : lang.Firm where
  stop_unlexed := by
    rintro (error | ⟨s, member, accepted⟩ | external)
    · cases error
    · exact unlexed s member accepted
    · exact (externals _ external).2 rfl
  not_accepting {q symbol target} lexes shift := by
    rcases lexes.terminal sound (fun symbol external => (externals symbol external).1) with
      rfl | terminal
    · rw [action?_error sound] at shift
      cases shift
    · exact unaccepting q symbol target terminal shift

/-! ### Nodes and their places -/

/-- The nodes of a tree, hidden ones too. -/
inductive Tree.Holds (t : Tree) : Node → Prop
  | root : t.Holds t.rootNode
  | direct {n m : Node} (holds : t.Holds n) (child : m ∈ n.direct) : t.Holds m

theorem Node.mem_placed {position : Extent} {children : List Subtree} {c : Subtree} {p : Extent}
    (member : (c, p) ∈ placed position children) :
    ∃ before after, children = before ++ c :: after ∧ p = position + total before := by
  induction children generalizing position with
  | nil => cases member
  | cons t rest ih =>
    rw [placed] at member
    rcases List.mem_cons.mp member with is | member
    · cases is
      exact ⟨[], rest, rfl, (add_zero _).symm⟩
    · obtain ⟨before, after, rfl, rfl⟩ := ih member
      exact ⟨t :: before, after, rfl, by rw [Subtree.total_cons, add_assoc]⟩

/-- The position of a node is its place in the tree. -/
theorem Tree.Holds.occurs {t : Tree} {n : Node} (holds : t.Holds n) :
    Occurs n.subtree t.root n.position := by
  induction holds with
  | root => exact .here
  | @direct n m holds child ih =>
    obtain ⟨⟨c, p⟩, member, rfl⟩ := List.mem_map.mp child
    obtain ⟨before, after, children, rfl⟩ := Node.mem_placed member
    exact ih.trans (.child children)

/-! ### Spelling -/

/-- The part of a text between two places. -/
def slice (input : Array UInt8) (start stop : Nat) : List UInt8 := (input.extract start stop).toList

theorem slice_append (input : Array UInt8) {a b c : Nat} (ab : a ≤ b) (bc : b ≤ c) :
    slice input a b ++ slice input b c = slice input a c := by
  rw [slice, slice, ← Array.toList_append, Array.extract_append_extract, Nat.min_eq_left ab,
    Nat.max_eq_right bc]
  rfl

namespace Subtree

mutual

/-- The leaves of a subtree in text order. -/
def leaves : Subtree → List Subtree
  | ⟨stamp, info, []⟩ => [⟨stamp, info, []⟩]
  | ⟨_, _, first :: others⟩ => first.leaves ++ leavesIn others

def leavesIn : List Subtree → List Subtree
  | [] => []
  | t :: rest => t.leaves ++ leavesIn rest

end

theorem leaves_eq {t : Subtree} (inner : t.children ≠ []) : t.leaves = leavesIn t.children := by
  obtain ⟨stamp, info, children⟩ := t
  cases children with
  | nil => exact absurd rfl inner
  | cons first others => rw [leaves, leavesIn]

/-- The pieces of text that the leaves of a subtree are as large as. -/
def Spelling (input : Array UInt8) (place : Nat) (size : Extent) (leaves : List Subtree) : Prop :=
  size = .ofBytes (slice input place (place + size.bytes))
    ∧ ∃ texts : List (List UInt8), texts.flatten = slice input place (place + size.bytes)
      ∧ leaves.map (·.size) = texts.map Extent.ofBytes

variable {lang : Language} {input : Array UInt8} {t : Subtree} {place : Nat}

theorem Spelling.append {a b : Extent} {leavesA leavesB : List Subtree}
    (first : Spelling input place a leavesA)
    (second : Spelling input (place + a.bytes) b leavesB) :
    Spelling input place (a + b) (leavesA ++ leavesB) := by
  obtain ⟨sizeA, textsA, flatA, eachA⟩ := first
  obtain ⟨sizeB, textsB, flatB, eachB⟩ := second
  have whole : slice input place (place + (a + b).bytes)
      = slice input place (place + a.bytes)
        ++ slice input (place + a.bytes) (place + a.bytes + b.bytes) := by
    rw [slice_append _ (Nat.le_add_right _ _) (Nat.le_add_right _ _), Extent.add_bytes,
      Nat.add_assoc]
  refine ⟨?_, textsA ++ textsB, ?_, ?_⟩
  · rw [whole, Extent.ofBytes_append, ← sizeA, ← sizeB]
  · rw [whole, List.flatten_append, flatA, flatB]
  · rw [List.map_append, List.map_append, eachA, eachB]

theorem spelling_in {ts : List Subtree}
    (each : ∀ c ∈ ts, ∀ {place}, Everywhere (fun place u => u.Spells input place ∧ u.Sound lang)
      place c → Spelling input place c.size c.leaves)
    (made : EverywhereIn (fun place u => u.Spells input place ∧ u.Sound lang) place ts) :
    Spelling input place (total ts) (leavesIn ts) := by
  induction ts generalizing place with
  | nil => exact ⟨by simp [slice], [], by simp [slice], rfl⟩
  | cons c rest ih =>
    obtain ⟨first, others⟩ := everywhereIn_cons.mp made
    rw [total_cons]
    exact (each c List.mem_cons_self first).append
      (ih (fun c member => each c (List.mem_cons_of_mem _ member)) others)

/-- A subtree whose leaves all are as large as the text at their places spells that text. -/
theorem spelling (made : Everywhere (fun place u => u.Spells input place ∧ u.Sound lang) place t) :
    Spelling input place t.size t.leaves := by
  induction t using Subtree.induction generalizing place with
  | node t ih =>
    obtain ⟨⟨spells, sound⟩, below⟩ := everywhere_iff.mp made
    by_cases leaf : t.children = []
    · have size := spells leaf
      obtain ⟨stamp, info, children⟩ := t
      have leaf : children = [] := leaf
      subst leaf
      exact ⟨size, [_], List.flatten_singleton, congrArg (fun size => [size]) size⟩
    · rw [leaves_eq leaf, sound.size_eq leaf]
      exact spelling_in (fun c member => ih c member) below

/-- The place of what lies in such a subtree is that of its text. -/
theorem place_eq {u : Subtree} {x : Extent}
    (made : Everywhere (fun place u => u.Spells input place ∧ u.Sound lang) place t)
    (inside : Occurs u t x) : x = .ofBytes (slice input place (place + x.bytes)) := by
  induction t using Subtree.induction generalizing place x with
  | node t ih =>
    rcases occurs_iff.mp inside with ⟨rfl, rfl⟩ | inside
    · simp [slice]
    · obtain ⟨before, c, after, y, children, rfl, inC⟩ := inside.split
      obtain ⟨-, below⟩ := everywhere_iff.mp made
      rw [children, everywhereIn_append, everywhereIn_cons] at below
      obtain ⟨left, here, -⟩ := below
      have left := (spelling_in (fun _ _ => spelling) left).1
      have here := ih c (by simp [children]) here inC
      rw [Extent.add_bytes, ← Nat.add_assoc,
        ← slice_append input (Nat.le_add_right place (total before).bytes) (Nat.le_add_right _ _),
        Extent.ofBytes_append, ← left, ← here]

end Subtree

/-! ### Trees -/

/-- A tree that spells a text: every leaf is as large as the text it stands for, these texts in
order are the whole text, and every node starts and ends at the points where its bytes do. -/
structure Tree.Spells (t : Tree) (input : Array UInt8) : Prop where
  leaf : ∀ n, t.Holds n → n.subtree.children = [] →
    n.subtree.size = .ofBytes (slice input n.startByte n.stopByte)
  leaves : ∃ texts : List (List UInt8), texts.flatten = input.toList
    ∧ t.root.leaves.map (·.size) = texts.map Extent.ofBytes
  points : ∀ n, t.Holds n →
    n.startPoint = .ofBytes (slice input 0 n.startByte)
      ∧ n.stopPoint = .ofBytes (slice input 0 n.stopByte)

/-- What a parse from scratch makes spells its text, and so does all in it. -/
theorem Session.Rooted.spells {root : Subtree} {lang : Language} {input : Array UInt8}
    (firm : lang.Firm)
    (rooted : Session.Rooted lang input (Made lang input (none = (none : Option Subtree))) root) :
    Everywhere (fun place u => u.Spells input place ∧ u.Sound lang) 0 root := by
  rw [Subtree.everywhere_iff]
  refine ⟨⟨fun leaf => ?_, rooted.whole _ _ .here⟩,
    (rooted.holds firm).mono fun _ _ made => ⟨made.spells rfl, made.sound⟩⟩
  refine Subtree.spells_of_empty ?_ leaf
  rw [rooted.size_eq firm, leaf, Subtree.total_nil]

end Reparse
