import Reparse.Proofs.Parse.Path
import Reparse.Proofs.Tree.Coverage
import Reparse.Proofs.Tree.InPlace

/-!
What accepting makes of the text.

When a parse is accepted, the topmost subtree that is no extra becomes the root: it is opened, and
its children stand between what lay below and above it. So the root has all the leaves of the stack
in order and is as long as what was read, if what is opened has children or lies alone
(`Stack.Becomes.all`). A leaf among others, such as a token that leads to where a parse is
accepted, is lost (`Stack.Becomes.rest`, `Language.ofBare_leaf_lost`).
-/

namespace Reparse

open Subtree (total leavesIn)

namespace Subtree

theorem leavesIn_append (a b : List Subtree) : leavesIn (a ++ b) = leavesIn a ++ leavesIn b := by
  induction a with
  | nil => rfl
  | cons t a ih => rw [List.cons_append, leavesIn, leavesIn, ih, List.append_assoc]

theorem leavesIn_singleton (t : Subtree) : leavesIn [t] = t.leaves := by
  rw [leavesIn, leavesIn, List.append_nil]

end Subtree

/-! ### Roots made of a stack -/

namespace Stack

variable {s : Stack} {e : Entry} {above rest : List Entry} {root : Subtree}

/-- The topmost entry that is no extra. -/
def topmost? (s : Stack) : Option Entry := s.entries.find? (!·.tree.extra)

theorem topmost?_eq (split : s.entries = above ++ rest)
    (extras : ∀ e ∈ above, e.tree.extra = true) (regular : ∀ e ∈ rest.head?, e.tree.extra = false) :
    s.topmost? = rest.head? := by
  have none : above.find? (!·.tree.extra) = none := by
    refine List.find?_eq_none.mpr fun e member => ?_
    rw [extras e member]
    decide
  rw [topmost?, split, List.find?_append, none, Option.none_or]
  cases rest with
  | nil => rfl
  | cons e below =>
    rw [List.find?_cons_of_pos, List.head?_cons]
    simpa using regular e rfl

/-- The topmost entry that is no extra holds a leaf, and there are other entries. -/
structure LeafAmong (s : Stack) (e : Entry) : Prop where
  topmost : s.topmost? = some e
  leaf : e.tree.children = []
  others : s.entries ≠ [e]

/-- What a root has of the subtrees on a stack: all of their leaves in order, and their whole size.
If the topmost that is no extra is itself a leaf, and not alone, the root has just the others. Where
nothing lies on the stack the root is a leaf of its own. -/
structure Becomes (s : Stack) (root : Subtree) : Prop where
  all : (∀ e, ¬ s.LeafAmong e) → root.size = s.topPosition
    ∧ (s.entries ≠ [] → root.leaves = leavesIn (trees s.entries))
  rest : ∀ e, s.LeafAmong e → ∃ before after, trees s.entries = before ++ e.tree :: after
    ∧ root.size = total (before ++ after) ∧ root.leaves = leavesIn (before ++ after)

/-- With nothing but extras on the stack the root has them for its children. -/
theorem Becomes.extras (place : s.topPosition = total (trees s.entries)) (none : s.topmost? = none)
    (children : root.children = trees s.entries) (size : root.size = total root.children) :
    s.Becomes root where
  all _ := by
    refine ⟨by rw [size, children, place], fun some => ?_⟩
    have inner : root.children ≠ [] := by
      rw [children]
      simpa [trees] using some
    rw [Subtree.leaves_eq inner, children]
  rest e among := by
    have := none.symm.trans among.topmost
    cases this

/-- What lies alone is the root as it is. -/
theorem Becomes.alone (place : s.topPosition = total (trees s.entries)) (alone : s.entries = [e]) :
    s.Becomes e.tree where
  all _ := by
    rw [place, alone, trees_cons, trees_nil, List.nil_append, Subtree.leavesIn_singleton,
      Subtree.total_cons, Subtree.total_nil, add_zero]
    exact ⟨rfl, fun _ => rfl⟩
  rest e' among := by
    have is : e' = e := by
      have member := List.mem_of_find?_eq_some among.topmost
      rw [alone] at member
      exact List.mem_singleton.mp member
    exact absurd (is ▸ alone) among.others

/-- What is opened gives its children for itself, with what lay around it before and after them. -/
theorem Becomes.opened {below : List Entry} (place : s.topPosition = total (trees s.entries))
    (split : s.entries = above ++ e :: below) (topmost : s.topmost? = some e)
    (others : trees below ++ trees above ≠ [])
    (summed : e.tree.children ≠ [] → e.tree.size = total e.tree.children)
    (children : root.children = trees below ++ e.tree.children ++ trees above)
    (size : root.size = total root.children) : s.Becomes root := by
  have all : trees s.entries = trees below ++ e.tree :: trees above := by
    rw [split, trees_append, trees_cons, List.append_assoc]
    rfl
  by_cases leaf : e.tree.children = []
  · have company : s.entries ≠ [e] := by
      intro alone
      have count : above.length + (below.length + 1) = 1 := by
        simpa using congrArg List.length (split.symm.trans alone)
      obtain rfl : above = [] := List.length_eq_zero_iff.mp (by omega)
      obtain rfl : below = [] := List.length_eq_zero_iff.mp (by omega)
      exact others rfl
    refine ⟨fun none => absurd ⟨topmost, leaf, company⟩ (none e), fun e' among => ?_⟩
    obtain rfl : e = e' := Option.some.inj (topmost.symm.trans among.topmost)
    rw [leaf, List.append_nil] at children
    refine ⟨_, _, all, by rw [size, children], ?_⟩
    rw [Subtree.leaves_eq (children ▸ others), children]
  · have inner : root.children ≠ [] := by
      rw [children]
      simp [leaf]
    refine ⟨fun _ => ⟨?_, fun _ => ?_⟩, fun e' among => ?_⟩
    · rw [size, children, place, all]
      simp only [Subtree.total_append, Subtree.total_cons, ← summed leaf, add_assoc]
    · rw [Subtree.leaves_eq inner, children, all]
      simp only [Subtree.leavesIn_append, leavesIn, ← Subtree.leaves_eq leaf, List.append_assoc]
    · obtain rfl : e = e' := Option.some.inj (topmost.symm.trans among.topmost)
      exact absurd among.leaf leaf

end Stack

namespace Session

variable {s s' : Session} {lang : Language} {P : Nat → Subtree → Prop} {root token : Subtree}

/-- The root of an accepted parse has what lay on the stack, save for an opened leaf. -/
theorem accept_becomes (settled : s.stack.Settled lang P)
    (sound : ∀ {place t}, P place t → t.Sound lang) : s.stack.Becomes s.accept.1 := by
  have place : s.stack.topPosition = total (Stack.trees s.stack.entries) :=
    settled.positioned.eq_total
  have made := s.accept_as
  generalize s.accept.1 = root at made
  cases made with
  | extras extras =>
    have none := Stack.topmost?_eq (List.append_nil s.stack.entries).symm extras nofun
    exact .extras place none rfl (s.errorRoot_sums _).size_eq
  | alone entries => exact .alone place entries
  | @opened above below e split extras regular others =>
    have topmost : s.stack.topmost? = some e := by
      refine Stack.topmost?_eq split extras ?_
      rintro e ⟨⟩
      exact regular
    have summed : e.tree.children ≠ [] → e.tree.size = total e.tree.children := by
      unfold Stack.Settled at settled
      rw [split] at settled
      exact (sound (settled.beneath.1.holds e.tree 0 .here)).size_eq
    exact .opened place split topmost others summed rfl (s.openedRoot_sums e _).size_eq

/-- Recovery gives a root only at the end of the input. -/
theorem atEnd_of_recover {state : StateId} (fails : (s.recover state token).1 = some root) :
    token.symbol = Symbol.stop := by
  by_contra regular
  have goesOn : (token.symbol == Symbol.stop) = false := beq_eq_false_iff_ne.mpr regular
  unfold recover at fails
  simp only [goesOn, Bool.false_eq_true, ↓reduceIte] at fails
  split at fails
  · cases fails
  · split at fails <;> cases fails

/-- Where the table accepts the end of the input, acting on a token ends the parse only by that. -/
theorem Acts.becomes (acts : s.Acts token (.done root s')) (settled : s.stack.Settled lang P)
    (sound : ∀ {place t}, P place t → t.Sound lang)
    (accepts : s.lang.action? s.stack.topState Symbol.stop = some .accept) :
    s.stack.Becomes root := by
  cases acts with
  | accept => exact accept_becomes settled sound
  | fail action regular eq =>
    have atEnd : token.symbol = Symbol.stop := atEnd_of_recover (congrArg Prod.fst eq)
    rw [action?, atEnd, accepts] at action
    cases action

/-- So does a round of the parse. -/
theorem step_becomes (done : s.step = .done root s') (settled : s.stack.Settled lang P)
    (sound : ∀ {place t}, P place t → t.Sound lang)
    (accepts : s.lang.action? s.stack.topState Symbol.stop = some .accept) :
    s.stack.Becomes root := by
  have steps := s.step_steps
  rw [done] at steps
  cases steps with
  | act _ acts => exact acts.becomes settled sound accepts
  | fetch _ fetches acts =>
    obtain ⟨_, _, _, _, _, rfl⟩ := fetches.frame_token
    exact acts.becomes settled sound accepts

end Session

namespace Language

variable {lang : Language} {options : Options} {input : Array UInt8} {fresh : Stamp}
  {s last : Session} {root : Subtree}

/-- Accepting loses no text but that of an opened leaf: for any language and in any state that a
parse from scratch reaches, if the end of the input is accepted, the root has the leaves of the
whole stack in order and is as long, or it has those of all subtrees on it but the topmost that is
no extra, which is a leaf. -/
theorem accept_leaves {handle : Nat} {bytes : List UInt8} {scanner : Option Scanner}
    (loaded : Language.load handle bytes scanner = .ok lang)
    (reached : Session.Reaches s (Session.start lang options input none fresh))
    (accepts : lang.action? s.stack.topState Symbol.stop = some .accept)
    (done : s.step = .done root last) : s.stack.Becomes root := by
  have good := @start_good lang options input none fresh (sound_of_load loaded) nofun
  obtain ⟨settled, -, same⟩ := good.reaches reached
  have same : s.lang = lang := same
  refine Session.step_becomes done settled (fun made => ?_) (same ▸ accepts)
  rw [same]
  exact made.sound

/-- What is on the stack of a parse after a number of rounds, with what it is to become. -/
def lastRound (input : Array UInt8) (rounds : Nat) : Option (Session × Subtree × Session) :=
  ((Session.start ofBare {} input none 0).after rounds).bind fun s =>
    match s.step with
    | .done root last => some (s, root, last)
    | _ => none

theorem lastRound_spec {rounds : Nat}
    (is : lastRound input rounds = some (s, root, last)) :
    Session.Reaches s (Session.start ofBare {} input none 0) ∧ s.step = .done root last := by
  obtain ⟨s', later, is⟩ := Option.bind_eq_some_iff.mp is
  split at is
  next done =>
    cases is
    exact ⟨Session.reaches_of_after later, done⟩
  next => cases is

/-- With blanks around it, an `a` and a `b` are opened to stand between them. -/
theorem ofBare_accept_leaves : ∃ s root last,
    Session.Reaches s (Session.start ofBare {} #[32, 97, 98, 32] none 0) ∧ s.step = .done root last
      ∧ root.leaves = leavesIn (Stack.trees s.stack.entries)
      ∧ root.leaves.map (·.symbol) = [3, 1, 2, 3] ∧ root.size = s.stack.topPosition := by
  have runs : (lastRound #[32, 97, 98, 32] 5).map (fun (s, root, _) =>
      (s.stack.topState, s.stack.topmost?.map (·.tree.children.length), s.stack.entries.length,
        root.leaves.map (·.symbol))) = some (4, some 2, 3, [3, 1, 2, 3]) := by cbv
  obtain ⟨⟨s, root, last⟩, is, facts⟩ := Option.map_eq_some_iff.mp runs
  obtain ⟨reached, done⟩ := lastRound_spec is
  simp only [Prod.mk.injEq] at facts
  obtain ⟨state, opened, count, symbols⟩ := facts
  have accepts : ofBare.action? s.stack.topState Symbol.stop = some .accept := by
    rw [state]
    decide
  have node (e : Entry) : ¬ s.stack.LeafAmong e := by
    intro among
    rw [among.topmost, Option.map_some, among.leaf] at opened
    cases opened
  obtain ⟨size, leaves⟩ := (accept_leaves load_ofBare reached accepts done).all node
  refine ⟨s, root, last, reached, done, leaves fun none => ?_, symbols, size⟩
  rw [none] at count
  cases count

/-- An `a` with a blank after it is accepted as it is, and opened: the root has just the blank. -/
theorem ofBare_leaf_lost : load 0 Table.ofBare.encode none = .ok ofBare ∧ ∃ s root last,
    Session.Reaches s (Session.start ofBare {} #[97, 32] none 0)
      ∧ ofBare.action? s.stack.topState Symbol.stop = some .accept ∧ s.step = .done root last
      ∧ root.leaves ≠ leavesIn (Stack.trees s.stack.entries)
      ∧ root.size ≠ s.stack.topPosition := by
  refine ⟨load_ofBare, ?_⟩
  have runs : (lastRound #[97, 32] 2).map (fun (s, root, _) =>
      (s.stack.topState, root.leaves.length, (leavesIn (Stack.trees s.stack.entries)).length,
        root.size.bytes, s.stack.topPosition.bytes)) = some (2, 1, 2, 1, 2) := by cbv
  obtain ⟨⟨s, root, last⟩, is, facts⟩ := Option.map_eq_some_iff.mp runs
  obtain ⟨reached, done⟩ := lastRound_spec is
  simp only [Prod.mk.injEq] at facts
  obtain ⟨state, leaf, leaves, size, place⟩ := facts
  refine ⟨s, root, last, reached, ?_, done, fun same => ?_, fun same => ?_⟩
  · rw [state]
    decide
  · rw [same, leaves] at leaf
    cases leaf
  · rw [same, place] at size
    cases size

end Language

end Reparse
