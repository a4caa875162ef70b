import Reparse.Proofs.Parse.Session

/-!
The cursor over an old tree against a search that starts over.

A parser asks for subtrees further and further on in its text, and the cursor never goes back. It
need not: what it has passed or entered starts before all that will be asked for, or takes up no
text (`ReuseCursor.findIn_later`). So each answer is the one that a search of the whole old tree
gives (`ReuseCursor.answers_search`): the outermost node at the place that can be taken over, and
else the token that stands there (`ReuseCursor.Search`).
-/

namespace Reparse

open Subtree (total EverywhereIn Everywhere Occurs OccursIn Tiled tiled_node tiled_leaf)

/-! ### What starts at a byte -/

namespace Subtree

/-- `u` takes up text and starts at `place` in some subtrees side by side, the first of which starts
at `offset`. -/
def StartsIn (offset : Nat) (ts : List Subtree) (place : Nat) (u : Subtree) : Prop :=
  0 < u.size.bytes ∧ ∃ x, OccursIn u ts x ∧ offset + x.bytes = place

/-- `u` takes up text and starts at byte `place` of a tree. -/
def Starts (root : Subtree) (place : Nat) (u : Subtree) : Prop :=
  0 < u.size.bytes ∧ ∃ x, Occurs u root x ∧ x.bytes = place

variable {root t u : Subtree} {rest ts : List Subtree} {offset place : Nat}

theorem startsIn_singleton : StartsIn 0 [root] place u ↔ Starts root place u := by
  unfold StartsIn Starts
  simp only [Nat.zero_add]
  refine and_congr_right fun _ => exists_congr fun x => and_congr_left fun _ => ?_
  rw [occursIn_cons]
  exact or_iff_left fun ⟨_, _, inside⟩ => not_occursIn_nil inside

theorem not_startsIn_nil : ¬ StartsIn offset [] place u :=
  fun ⟨_, _, inside, _⟩ => not_occursIn_nil inside

theorem StartsIn.le (starts : StartsIn offset ts place u) : offset ≤ place := by
  obtain ⟨-, x, -, rfl⟩ := starts
  exact Nat.le_add_right _ _

theorem startsIn_cons : StartsIn offset (t :: rest) place u
    ↔ (0 < u.size.bytes ∧ ∃ x, Occurs u t x ∧ offset + x.bytes = place)
      ∨ StartsIn (offset + t.size.bytes) rest place u := by
  constructor
  · rintro ⟨some, x, inside, rfl⟩
    rcases occursIn_cons.mp inside with first | ⟨y, rfl, later⟩
    · exact .inl ⟨some, x, first, rfl⟩
    · exact .inr ⟨some, y, later, by rw [Extent.add_bytes, Nat.add_assoc]⟩
  · rintro (⟨some, x, inside, rfl⟩ | ⟨some, y, inside, rfl⟩)
    · exact ⟨some, x, .head inside, rfl⟩
    · exact ⟨some, _, .tail inside, by rw [Extent.add_bytes, Nat.add_assoc]⟩

/-- What is past with all its text has nothing to offer, nor has a token that starts too soon or
takes up no text. -/
theorem startsIn_skip (tiled : Everywhere (fun _ => Tiled) offset t)
    (passed : offset + t.size.bytes ≤ place
      ∨ t.children = [] ∧ (offset < place ∨ t.size.bytes = 0)) :
    StartsIn offset (t :: rest) place u ↔ StartsIn (offset + t.size.bytes) rest place u := by
  rw [startsIn_cons]
  refine or_iff_right ?_
  rintro ⟨some, x, inside, rfl⟩
  have within := tiled.roomy.within inside
  rcases passed with past | ⟨leaf, before⟩
  · omega
  · rcases occurs_iff.mp inside with ⟨rfl, rfl⟩ | inside
    · rcases before with before | empty
      · exact Nat.lt_irrefl _ before
      · omega
    · rw [leaf] at inside
      exact not_occursIn_nil inside

/-- Among the children of a node there is all that there is in the node, but for the node itself. -/
theorem startsIn_enter (tiled : t.Tiled) (inner : t.children ≠ []) :
    StartsIn offset (t :: rest) place u
      ↔ (0 < t.size.bytes ∧ u = t ∧ offset = place)
        ∨ StartsIn offset (t.children ++ rest) place u := by
  have size : (total t.children).bytes = t.size.bytes :=
    congrArg Extent.bytes (tiled inner).symm
  rw [startsIn_cons]
  constructor
  · rintro (⟨some, x, inside, rfl⟩ | ⟨some, x, inside, rfl⟩)
    · rcases occurs_iff.mp inside with ⟨rfl, rfl⟩ | inside
      · exact .inl ⟨some, rfl, rfl⟩
      · exact .inr ⟨some, x, occursIn_append.mpr (.inl inside), rfl⟩
    · refine .inr ⟨some, total t.children + x, occursIn_append.mpr (.inr ⟨x, rfl, inside⟩), ?_⟩
      rw [Extent.add_bytes, size, Nat.add_assoc]
  · rintro (⟨some, rfl, rfl⟩ | ⟨some, x, inside, rfl⟩)
    · exact .inl ⟨some, 0, .here, rfl⟩
    · rcases occursIn_append.mp inside with below | ⟨y, rfl, later⟩
      · exact .inl ⟨some, x, .under below, rfl⟩
      · exact .inr ⟨some, y, later, by rw [Extent.add_bytes, size, Nat.add_assoc]⟩

/-- What lies below a subtree is smaller. -/
theorem Occurs.count_lt {x : Extent} (inside : Occurs u t x) : u = t ∨ u.count < t.count := by
  induction t using Subtree.induction generalizing x with
  | node t ih =>
    rcases occurs_iff.mp inside with ⟨rfl, -⟩ | inside
    · exact .inl rfl
    · obtain ⟨before, c, after, y, children, -, inC⟩ := inside.split
      have counts : t.count = countAll before + (c.count + countAll after) + 1 := by
        rw [count_eq, children, countAll_append, countAll]
      rcases ih c (by simp [children]) inC with rfl | smaller
      · exact .inr (by omega)
      · exact .inr (by omega)

end Subtree

namespace ReuseCursor

open Subtree (StartsIn Starts startsIn_skip startsIn_enter)

variable {there there' : Subtree → Prop} {position offset place : Nat} {state : StateId}
  {mode : LexMode} {t u root : Subtree} {rest pending : List Subtree} {c : ReuseCursor}

/-! ### The search -/

/-- A parser in a state can take over the node whole, where the next token would be read in a
mode. -/
structure FitsNode (state : StateId) (mode : LexMode) (t : Subtree) : Prop where
  inner : t.children ≠ []
  reusable : t.isReusable = true
  state_eq : t.info.parseState = state
  mode_eq : t.firstLeaf.info.lexMode = mode

/-- A parser can go on with the token. -/
structure FitsToken (mode : LexMode) (t : Subtree) : Prop where
  unchanged : t.info.changed = false
  regular : t.isError = false
  present : t.info.missing = false
  mode_eq : t.info.lexMode = mode

/-- What a search gives, where `there` are the subtrees at the place that take up text: the node
that fits and holds all others that do, or, if there is none, the only token there if it can be
gone on with. -/
inductive Search (there : Subtree → Prop) (state : StateId) (mode : LexMode) : Option Reuse → Prop
  | node {t : Subtree} (here : there t) (fits : FitsNode state mode t)
      (outermost : ∀ u, there u → FitsNode state mode u → ∃ x, Occurs u t x ∧ x.bytes = 0) :
      Search there state mode (some (.node t))
  | token {t : Subtree} (unfit : ∀ u, there u → ¬ FitsNode state mode u) (here : there t)
      (leaf : t.children = []) (only : ∀ u, there u → u.children = [] → u = t)
      (fits : FitsToken mode t) : Search there state mode (some (.token t))
  | nothing (unfit : ∀ u, there u → ¬ FitsNode state mode u)
      (stale : ∀ u, there u → u.children = [] → ¬ FitsToken mode u) : Search there state mode none

/-- A search has one answer. -/
theorem Search.unique {found found' : Option Reuse} (search : Search there state mode found)
    (search' : Search there state mode found') : found = found' := by
  cases search with
  | @node t here fits outermost =>
    cases search' with
    | @node t' here' fits' outermost' =>
      obtain ⟨x, inside, -⟩ := outermost t' here' fits'
      obtain ⟨y, inside', -⟩ := outermost' t here fits
      rcases inside.count_lt with rfl | smaller
      · rfl
      · rcases inside'.count_lt with rfl | smaller'
        · rfl
        · omega
    | token unfit => exact absurd fits (unfit t here)
    | nothing unfit => exact absurd fits (unfit t here)
  | @token t unfit here leaf only fits =>
    cases search' with
    | @node t' here' fits' => exact absurd fits' (unfit t' here')
    | @token t' _ here' leaf' => rw [only t' here' leaf']
    | nothing _ stale => exact absurd fits (stale t here leaf)
  | nothing unfit stale =>
    cases search' with
    | @node t' here' fits' => exact absurd fits' (unfit t' here')
    | @token t' _ here' leaf' _ fits' => exact absurd fits' (stale t' here' leaf')
    | nothing => rfl

theorem Search.congr {found : Option Reuse} (same : ∀ u, there u ↔ there' u)
    (search : Search there state mode found) : Search there' state mode found := by
  rwa [← funext fun u => propext (same u)]

/-- Something more may be there that neither fits nor is a token. -/
theorem Search.more {found : Option Reuse} (less : ∀ u, there' u → there u)
    (unfit : ∀ u, there u → ¬ there' u → u.children ≠ [] ∧ ¬ FitsNode state mode u)
    (search : Search there' state mode found) : Search there state mode found := by
  have fit {u} (here : there u) (fits : FitsNode state mode u) : there' u := by
    by_contra gone
    exact (unfit u here gone).2 fits
  have token {u} (here : there u) (leaf : u.children = []) : there' u := by
    by_contra gone
    exact (unfit u here gone).1 leaf
  cases search with
  | node here fits outermost =>
    exact .node (less _ here) fits fun u there fits => outermost u (fit there fits) fits
  | token none here leaf only fits =>
    exact .token (fun u there fits => none u (fit there fits) fits) (less _ here) leaf
      (fun u there leaf => only u (token there leaf) leaf) fits
  | nothing none stale =>
    exact .nothing (fun u there fits => none u (fit there fits) fits)
      fun u there leaf => stale u (token there leaf) leaf

theorem takesNode_iff (inner : t.children ≠ []) : takesNode t state mode ↔ FitsNode state mode t := by
  simp only [takesNode, Bool.and_eq_true, beq_iff_eq]
  constructor
  · rintro ⟨⟨reusable, state⟩, mode⟩
    exact ⟨inner, reusable, state, mode⟩
  · rintro ⟨-, reusable, state, mode⟩
    exact ⟨⟨reusable, state⟩, mode⟩

theorem takesToken_iff : takesToken t mode ↔ FitsToken mode t := by
  simp only [takesToken, Bool.and_eq_true, Bool.not_eq_true', beq_iff_eq]
  constructor
  · rintro ⟨⟨⟨unchanged, regular⟩, present⟩, mode⟩
    exact ⟨unchanged, regular, present, mode⟩
  · rintro ⟨unchanged, regular, present, mode⟩
    exact ⟨⟨⟨unchanged, regular⟩, present⟩, mode⟩

/-! ### One call -/

/-- Why a subtree is passed. -/
theorem judge_skip (verdict : judge t offset position state mode = .skip) :
    offset ≤ position ∧ (offset + t.size.bytes ≤ position
      ∨ t.children = [] ∧ (offset < position ∨ t.size.bytes = 0)) := by
  unfold judge at verdict
  split at verdict
  next before =>
    split at verdict
    next => cases verdict
    next passed =>
      refine ⟨Nat.le_of_lt before, ?_⟩
      simp only [gt_iff_lt, Bool.and_eq_true, decide_eq_true_eq, Bool.not_eq_true', not_and,
        Bool.not_eq_false, Subtree.isLeaf, List.isEmpty_iff] at passed
      by_cases past : offset + t.size.bytes ≤ position
      · exact .inl past
      · exact .inr ⟨passed (Nat.lt_of_not_le past), .inl before⟩
  next after =>
    split at verdict
    next => cases verdict
    next here =>
      refine ⟨by omega, ?_⟩
      split at verdict
      next leaf =>
        split at verdict
        next empty => exact .inr ⟨List.isEmpty_iff.mp leaf, .inr empty⟩
        next => split at verdict <;> cases verdict
      next => split at verdict <;> cases verdict

/-- Why a subtree is entered: it starts too soon, or cannot be taken over whole. -/
theorem judge_enter_unfit (verdict : judge t offset position state mode = .enter) :
    offset ≤ position ∧ (offset = position → ¬ FitsNode state mode t) := by
  unfold judge at verdict
  split at verdict
  next before => exact ⟨Nat.le_of_lt before, fun here => absurd here (Nat.ne_of_lt before)⟩
  next after =>
    split at verdict
    next => cases verdict
    next here =>
      refine ⟨by omega, fun _ fits => ?_⟩
      split at verdict
      next leaf => exact fits.inner (List.isEmpty_iff.mp leaf)
      next =>
        split at verdict
        next => cases verdict
        next unfit => exact unfit ((takesNode_iff fits.inner).mpr fits)

/-- Why there is no answer: the cursor is past the place, or at a token that will not do. -/
theorem judge_nothing (verdict : judge t offset position state mode = .answer none) :
    position < offset ∨ offset = position ∧ t.children = [] ∧ 0 < t.size.bytes
      ∧ ¬ FitsToken mode t := by
  unfold judge at verdict
  split at verdict
  next => split at verdict <;> cases verdict
  next =>
    split at verdict
    next past => exact .inl past
    next =>
      refine .inr ⟨by omega, ?_⟩
      split at verdict
      next leaf =>
        split at verdict
        next => cases verdict
        next some =>
          split at verdict
          next => cases verdict
          next unfit =>
            exact ⟨List.isEmpty_iff.mp leaf, Nat.pos_of_ne_zero some, mt takesToken_iff.mpr unfit⟩
      next => split at verdict <;> cases verdict

/-- Where a token that takes up text comes next, nothing else that does starts there. -/
theorem eq_of_startsIn_leaf (leaf : t.children = []) (some : 0 < t.size.bytes)
    (starts : StartsIn offset (t :: rest) offset u) : u = t := by
  rcases Subtree.startsIn_cons.mp starts with ⟨-, x, inside, -⟩ | later
  · rcases Subtree.occurs_iff.mp inside with ⟨is, -⟩ | inside
    · exact is
    · rw [leaf] at inside
      exact absurd inside Subtree.not_occursIn_nil
  · have := later.le
    omega

/-- One call answers like a search of what is to come. -/
theorem findIn_search (tiled : EverywhereIn (fun _ => Tiled) offset pending) (position : Nat)
    (state : StateId) (mode : LexMode) :
    Search (StartsIn offset pending position) state mode
      (findIn position state mode offset pending).1 := by
  fun_induction findIn position state mode offset pending with
  | case1 offset =>
    exact .nothing (fun u starts => absurd starts Subtree.not_startsIn_nil)
      fun u starts => absurd starts Subtree.not_startsIn_nil
  | case2 offset t rest found verdict =>
    have first : StartsIn offset (t :: rest) offset t ↔ 0 < t.size.bytes :=
      ⟨And.left, fun some => ⟨some, 0, .head .here, rfl⟩⟩
    cases found with
    | none =>
      rcases judge_nothing verdict with past | ⟨rfl, leaf, some, unfit⟩
      · have nothing (u) (starts : StartsIn offset (t :: rest) position u) : False :=
          absurd starts.le (Nat.not_le.mpr past)
        exact .nothing (fun u starts => (nothing u starts).elim)
          fun u starts => (nothing u starts).elim
      · refine .nothing (fun u starts fits => ?_) fun u starts _ => ?_
        · rw [eq_of_startsIn_leaf leaf some starts] at fits
          exact fits.inner leaf
        · rwa [eq_of_startsIn_leaf leaf some starts]
    | some found =>
      obtain ⟨rfl, ⟨rfl, inner, takes⟩ | ⟨rfl, leaf, some, takes⟩⟩ := judge_answer verdict
      · have fits := (takesNode_iff inner).mp takes
        have some := (Session.isReusable_spec fits.reusable).2.2.2.2
        refine .node (first.mpr some) fits fun u starts _ => ?_
        -- What comes later starts past the node, which takes up text.
        rcases Subtree.startsIn_cons.mp starts with ⟨-, x, inside, place⟩ | later
        · exact ⟨x, inside, by omega⟩
        · have := later.le
          omega
      · refine .token (fun u starts fits => ?_) (first.mpr some) leaf
          (fun u starts _ => eq_of_startsIn_leaf leaf some starts) (takesToken_iff.mp takes)
        rw [eq_of_startsIn_leaf leaf some starts] at fits
        exact fits.inner leaf
  | case3 offset t rest verdict ih =>
    obtain ⟨here, others⟩ := Subtree.everywhereIn_cons.mp tiled
    exact (ih others).congr fun u => (startsIn_skip here (judge_skip verdict).2).symm
  | case4 offset t rest verdict ih =>
    have inner := judge_enter verdict
    obtain ⟨-, unfit⟩ := judge_enter_unfit verdict
    have here : t.Tiled := (Subtree.everywhereIn_cons.mp tiled).1 t 0 .here
    -- Only the node itself is gone, and it does not fit.
    refine (ih (tiled.enter (congrArg Extent.bytes (here inner)))).more
      (fun u below => (startsIn_enter here inner).mpr (.inr below)) fun u starts gone => ?_
    obtain ⟨-, rfl, place⟩ := ((startsIn_enter here inner).mp starts).resolve_right gone
    exact ⟨inner, unfit place⟩

theorem findIn_tiled (tiled : EverywhereIn (fun _ => Tiled) offset pending) (position : Nat)
    (state : StateId) (mode : LexMode) :
    EverywhereIn (fun _ => Tiled) (findIn position state mode offset pending).2.offset
      (findIn position state mode offset pending).2.pending := by
  fun_induction findIn position state mode offset pending with
  | case1 offset => exact tiled
  | case2 offset t rest found verdict => exact tiled
  | case3 offset t rest verdict ih => exact ih (Subtree.everywhereIn_cons.mp tiled).2
  | case4 offset t rest verdict ih =>
    have here : t.Tiled := (Subtree.everywhereIn_cons.mp tiled).1 t 0 .here
    exact ih (tiled.enter (congrArg Extent.bytes (here (judge_enter verdict))))

/-- One call loses nothing that starts further on. -/
theorem findIn_later (tiled : EverywhereIn (fun _ => Tiled) offset pending)
    (later : position < place) :
    StartsIn offset pending place u
      ↔ StartsIn (findIn position state mode offset pending).2.offset
        (findIn position state mode offset pending).2.pending place u := by
  fun_induction findIn position state mode offset pending with
  | case1 offset => exact Iff.rfl
  | case2 offset t rest found verdict => exact Iff.rfl
  | case3 offset t rest verdict ih =>
    obtain ⟨here, others⟩ := Subtree.everywhereIn_cons.mp tiled
    obtain ⟨before, passed⟩ := judge_skip verdict
    have passed : offset + t.size.bytes ≤ place
        ∨ t.children = [] ∧ (offset < place ∨ t.size.bytes = 0) := by
      rcases passed with passed | ⟨leaf, -⟩
      · exact .inl (by omega)
      · exact .inr ⟨leaf, .inl (by omega)⟩
    exact (startsIn_skip here passed).trans (ih others)
  | case4 offset t rest verdict ih =>
    have here : t.Tiled := (Subtree.everywhereIn_cons.mp tiled).1 t 0 .here
    have inner := judge_enter verdict
    obtain ⟨before, -⟩ := judge_enter_unfit verdict
    have enter : StartsIn offset (t :: rest) place u
        ↔ StartsIn offset (t.children ++ rest) place u := by
      refine (startsIn_enter here inner).trans (or_iff_right ?_)
      rintro ⟨-, -, place⟩
      omega
    exact enter.trans (ih (tiled.enter (congrArg Extent.bytes (here inner))))

/-! ### Calls in a row -/

/-- What is asked of the cursor. -/
structure Query where
  position : Nat
  state : StateId
  mode : LexMode

/-- The answers of the cursor to one query after the other. -/
def answers (c : ReuseCursor) : List Query → List (Option Reuse)
  | [] => []
  | q :: queries =>
    let (found, c) := c.find q.position q.state q.mode
    found :: answers c queries

/-- Where the queries go further and further on, the answers are those of searches of what was to
come at first. -/
theorem answers_search_ahead {c : ReuseCursor}
    (tiled : EverywhereIn (fun _ => Tiled) c.offset c.pending) {queries : List Query}
    (increasing : queries.Pairwise (·.position < ·.position)) :
    List.Forall₂ (fun q found => Search (StartsIn c.offset c.pending q.position) q.state q.mode found)
      queries (c.answers queries) := by
  induction queries generalizing c with
  | nil => exact .nil
  | cons q queries ih =>
    obtain ⟨further, increasing⟩ := List.pairwise_cons.mp increasing
    refine .cons (findIn_search tiled q.position q.state q.mode) ?_
    obtain ⟨length, each⟩ :=
      List.forall₂_iff_zip.mp (ih (findIn_tiled tiled q.position q.state q.mode) increasing)
    refine List.forall₂_iff_zip.mpr ⟨length, ?_⟩
    intro q' found member
    have later := further q' (List.of_mem_zip member).1
    exact (each member).congr fun u => (findIn_later tiled later).symm

/-- The cursor answers like a search that starts over: asked further and further on in the text, it
gives each time the outermost node at the place that fits, or, if there is none, the token that
stands there if it can be gone on with. -/
theorem answers_search (tiled : root.Everywhere (fun _ => Tiled) 0) {queries : List Query}
    (increasing : queries.Pairwise (·.position < ·.position)) :
    List.Forall₂ (fun q found => Search (root.Starts q.position) q.state q.mode found) queries
      ((ofTree root).answers queries) := by
  have tiled : EverywhereIn (fun _ => Tiled) 0 [root] := Subtree.everywhereIn_singleton.mpr tiled
  refine (answers_search_ahead (c := ofTree root) tiled increasing).imp fun q found search => ?_
  exact search.congr fun u => Subtree.startsIn_singleton

/-- A list of one `a`, which a parser in state 1 may take over. -/
def innerList : Subtree :=
  .node 1 Language.ofLists 2 [.leaf 0 Language.ofLists 1 (.ofBytes [97]) 0 1 {}] 0 1

/-- A further `a`. -/
def lastToken : Subtree := .leaf 2 Language.ofLists 1 (.ofBytes [97]) 0 2 {}

/-- A longer list, with an empty one in front. -/
def outerList : Subtree :=
  .node 4 Language.ofLists 2 [.node 3 Language.ofLists 2 [] 0 1, innerList, lastToken] 0 2

theorem outerList_tiled : outerList.Everywhere (fun _ => Tiled) 0 := by
  apply tiled_node
  rw [Subtree.everywhereIn_cons, Subtree.everywhereIn_cons, Subtree.everywhereIn_singleton]
  refine ⟨tiled_leaf rfl, tiled_node ?_, tiled_leaf rfl⟩
  exact Subtree.everywhereIn_singleton.mpr (tiled_leaf rfl)

/-- In state 1 the outer list, which was made in state 2, is entered for the inner one, and after
that there is a token and then nothing. -/
theorem outerList_answers_search :
    (ofTree outerList).answers [⟨0, 1, {}⟩, ⟨1, 1, {}⟩, ⟨2, 1, {}⟩]
        = [some (.node innerList), some (.token lastToken), none]
      ∧ Search (outerList.Starts 0) 1 {} (some (.node innerList))
      ∧ Search (outerList.Starts 1) 1 {} (some (.token lastToken))
      ∧ Search (outerList.Starts 2) 1 {} none := by
  have given : (ofTree outerList).answers [⟨0, 1, {}⟩, ⟨1, 1, {}⟩, ⟨2, 1, {}⟩]
      = [some (.node innerList), some (.token lastToken), none] := by cbv
  have search :=
    @answers_search outerList outerList_tiled [⟨0, 1, {}⟩, ⟨1, 1, {}⟩, ⟨2, 1, {}⟩] (by simp)
  rw [given] at search
  cases search with
  | cons first others =>
    cases others with
    | cons second others =>
      cases others with
      | cons third _ => exact ⟨given, first, second, third⟩

end ReuseCursor

end Reparse
