import Reparse.Proofs.Syntax.Growth
import Reparse.Proofs.Tree.Shown

/-!
What a subtree keeps in its summary is what its children say.

However a node was grown and placed, its summary is the one that all its children make at once
(`Subtree.Inner.info_eq`), save for the state it was pushed in and whether it is an extra. Everything
that a reader takes from a summary instead of going down the tree is derived from that: sizes, the
first mode, what shows, errors, and how far any descendant looks (`Subtree.Composed.summarized`).
-/

namespace Reparse

namespace Subtree

/-! ### How subtrees come about -/

/-- What is made of children, errors among them, in however many parts they came and wherever it was
pushed. -/
inductive Inner : Subtree → Prop
  | node {stamp : Stamp} {lang : Language} {symbol : Symbol} {children : List Subtree}
      {production : ProductionId} {parseState : StateId} :
      Inner (node stamp lang symbol children production parseState)
  | errorNode {stamp : Stamp} {lang : Language} {children : List Subtree} {parseState : StateId} :
      Inner (errorNode stamp lang children parseState)
  | append {stamp : Stamp} {t : Subtree} {more : List Subtree} (inner : Inner t) :
      Inner (append stamp t more)
  | placed {stamp : Stamp} {t : Subtree} {parseState : StateId} {extra : Bool} (inner : Inner t) :
      Inner (t.placed stamp parseState extra)

/-- What the constructors of subtrees make, in any order. A token never grows. -/
inductive Composed : Subtree → Prop
  | leaf {stamp : Stamp} {lang : Language} {symbol : Symbol} {size : Extent} {lookahead : Nat}
      {parseState : StateId} {lexMode : LexMode} :
      Composed (leaf stamp lang symbol size lookahead parseState lexMode)
  | missingLeaf {stamp : Stamp} {lang : Language} {symbol : Symbol} {parseState : StateId}
      {lexMode : LexMode} : Composed (missingLeaf stamp lang symbol parseState lexMode)
  | node {stamp : Stamp} {lang : Language} {symbol : Symbol} {children : List Subtree}
      {production : ProductionId} {parseState : StateId} (made : ∀ c ∈ children, Composed c) :
      Composed (node stamp lang symbol children production parseState)
  | errorNode {stamp : Stamp} {lang : Language} {children : List Subtree} {parseState : StateId}
      (made : ∀ c ∈ children, Composed c) : Composed (errorNode stamp lang children parseState)
  | append {stamp : Stamp} {t : Subtree} {more : List Subtree} (made : Composed t)
      (inner : t.Inner) (others : ∀ c ∈ more, Composed c) : Composed (append stamp t more)
  | placed {stamp : Stamp} {t : Subtree} {parseState : StateId} {extra : Bool}
      (made : Composed t) : Composed (t.placed stamp parseState extra)

variable {t u c : Subtree} {x : Extent}

theorem placed_info (t : Subtree) (stamp : Stamp) (parseState : StateId) (extra : Bool) :
    (t.placed stamp parseState extra).info = { t.info with parseState, extra } := by
  unfold placed
  split
  · rename_i same
    rw [← same.1, ← same.2]
  · rfl

/-- The summary of a node is the one that its children make at once. -/
theorem Inner.info_eq (inner : t.Inner) : ∃ lang symbol production parseState extra,
    t.info = { Summary.ofChildren lang symbol t.children production 0 with parseState, extra } := by
  induction inner with
  | @node _ lang symbol _ production parseState =>
    exact ⟨lang, symbol, production, parseState, false, Summary.ofChildren_eq_placed ..⟩
  | @errorNode stamp lang children parseState =>
    exact ⟨lang, Symbol.error, 0, parseState, true, errorNode_info stamp lang children parseState⟩
  | @append stamp t more _ ih =>
    obtain ⟨lang, symbol, production, parseState, extra, info⟩ := ih
    refine ⟨lang, symbol, production, parseState, extra, ?_⟩
    change t.info.append t.children more = _
    rw [info, Summary.append_placed]
    exact congrArg (fun s : Summary => { s with parseState, extra })
      (Summary.append_append _ [] t.children more)
  | @placed stamp t parseState extra _ ih =>
    obtain ⟨lang, symbol, production, _, _, info⟩ := ih
    refine ⟨lang, symbol, production, parseState, extra, ?_⟩
    rw [placed_info, placed_children, info]

/-- A token says of itself whether something is wrong with it, and has no children to say anything
of. -/
structure Token (t : Subtree) : Prop where
  children_eq : t.children = []
  hasError_iff : t.hasError = true ↔ t.isError = true ∨ t.info.missing = true

theorem Composed.cases (made : t.Composed) : t.Token ∨ t.Inner := by
  induction made with
  | @leaf stamp lang symbol size =>
    refine .inl ⟨rfl, ?_⟩
    by_cases error : symbol = Symbol.error
    · simp [Subtree.leaf, hasError, isError, Summary.blank, error, Cost.skipped_pos]
    · simp [Subtree.leaf, hasError, isError, Summary.blank, error]
  | missingLeaf =>
    have costs : 0 < Cost.missing := by decide
    exact .inl ⟨rfl, by simp [Subtree.missingLeaf, hasError, costs]⟩
  | node => exact .inr .node
  | errorNode => exact .inr .errorNode
  | append _ inner => exact .inr inner.append
  | @placed stamp t parseState extra _ ih =>
    refine ih.imp (fun token => ⟨?_, ?_⟩) .placed
    · rw [placed_children, token.children_eq]
    · have same : (t.placed stamp parseState extra).isError = t.isError :=
        congrArg (· == Symbol.error) (t.placed_symbol ..)
      have hasError := token.hasError_iff
      unfold Subtree.hasError at hasError ⊢
      rw [placed_info, same]
      exact hasError

theorem Composed.child (made : t.Composed) (child : c ∈ t.children) : c.Composed := by
  induction made generalizing c with
  | leaf | missingLeaf => cases child
  | node made _ | errorNode made _ => exact made c child
  | append _ _ others ih _ => exact (List.mem_append.mp child).elim ih (others c)
  | placed _ ih =>
    rw [placed_children] at child
    exact ih child

theorem Composed.constructed (made : t.Composed) : t.Constructed := by
  induction made with
  | leaf => exact .leaf
  | missingLeaf => exact .missingLeaf
  | node _ ih => exact .node ih
  | errorNode _ ih => exact .errorNode ih
  | append _ _ _ ih others => exact ih.append others
  | placed _ ih => exact ih.placed

/-! ### What a node takes from its children -/

theorem Inner.size_eq (inner : t.Inner) : t.size = total t.children := by
  obtain ⟨lang, symbol, production, parseState, extra, info⟩ := inner.info_eq
  rw [size, info]
  exact Summary.ofChildren_size ..

theorem Inner.lexMode_eq (inner : t.Inner) (first : c ∈ t.children.head?) :
    t.info.lexMode = c.info.lexMode := by
  obtain ⟨lang, symbol, production, parseState, extra, info⟩ := inner.info_eq
  obtain ⟨rest, children⟩ := List.head?_eq_some_iff.mp first
  rw [info, children]
  exact Summary.append_lexMode ..

theorem Inner.missing_eq (inner : t.Inner) : t.info.missing = false := by
  obtain ⟨lang, symbol, production, parseState, extra, info⟩ := inner.info_eq
  rw [info]
  exact Summary.ofChildren_missing ..

/-- Something is wrong with a node if it is an error or something is wrong with a child. -/
theorem Inner.hasError_iff (inner : t.Inner) :
    t.hasError = true ↔ t.isError = true ∨ ∃ c ∈ t.children, c.hasError = true := by
  obtain ⟨lang, symbol, production, parseState, extra, info⟩ := inner.info_eq
  have isError : t.isError = (symbol == Symbol.error) := by
    rw [Subtree.isError, Subtree.symbol, info]
    exact congrArg (· == Symbol.error) (Summary.ofChildren_symbol ..)
  have cost : t.info.errorCost
      = (Summary.ofChildren lang symbol t.children production 0).errorCost := by rw [info]
  unfold hasError
  rw [isError, cost]
  by_cases error : symbol = Symbol.error
  · subst error
    simp [Summary.ofChildren_errorCost_of_error]
  · have cheap := Summary.ofChildren_errorCost_eq_zero lang symbol t.children production 0 error
    simp [error, Nat.pos_iff_ne_zero, cheap]

theorem Inner.window_le (inner : t.Inner) {before after : List Subtree}
    (children : t.children = before ++ c :: after) :
    (total before).bytes + c.window ≤ t.window := by
  obtain ⟨lang, symbol, production, parseState, extra, info⟩ := inner.info_eq
  rw [window.eq_1 t, info, size, info, children]
  exact Summary.window_le_ofChildren ..

/-! ### Exact summaries -/

/-- What a subtree keeps in its summary is what is in the tree. What shows of it is looked up from
some place on; the place does not matter. -/
structure Summarized (t : Subtree) : Prop where
  size_eq : t.children ≠ [] → t.size = total t.children
  visibleCount_eq : t.info.visibleCount = (t.shown 0).length
  namedCount_eq : t.info.namedCount = (t.shown 0).countP fun c => c.1.info.named
  hasError_iff : t.hasError = true ↔ ∃ u x, Occurs u t x
    ∧ (u.isError = true ∨ u.info.missing = true ∧ u.isLeaf = true)
  lexMode_eq : ∀ c ∈ t.children.head?, t.info.lexMode = c.info.lexMode
  window_le : ∀ u x, Occurs u t x → x.bytes + u.window ≤ t.window

/-- An error or a missing token anywhere in a subtree shows in its cost, and nothing else does. -/
theorem Composed.hasError_iff (made : t.Composed) : t.hasError = true ↔ ∃ u x, Occurs u t x
    ∧ (u.isError = true ∨ u.info.missing = true ∧ u.isLeaf = true) := by
  induction t using Subtree.induction with
  | node t ih =>
    rcases made.cases with token | inner
    · rw [token.hasError_iff]
      have leaf : t.isLeaf = true := List.isEmpty_iff.mpr token.children_eq
      constructor
      · intro wrong
        exact ⟨t, 0, .here, wrong.imp_right fun missing => ⟨missing, leaf⟩⟩
      · rintro ⟨u, x, inside, wrong⟩
        rcases occurs_iff.mp inside with ⟨rfl, -⟩ | below
        · exact wrong.imp_right And.left
        · rw [token.children_eq] at below
          exact absurd below not_occursIn_nil
    · rw [inner.hasError_iff]
      constructor
      · rintro (error | ⟨c, child, wrong⟩)
        · exact ⟨t, 0, .here, .inl error⟩
        · obtain ⟨u, x, inside, wrong⟩ := (ih c child (made.child child)).mp wrong
          obtain ⟨y, down⟩ := occurs_of_mem child
          exact ⟨u, y + x, down.trans inside, wrong⟩
      · rintro ⟨u, x, inside, wrong⟩
        rcases occurs_iff.mp inside with ⟨rfl, -⟩ | below
        · refine wrong.imp_right fun missing => ?_
          rw [inner.missing_eq] at missing
          exact absurd missing.1 Bool.false_ne_true
        · obtain ⟨before, c, after, y, children, -, inC⟩ := below.split
          have child : c ∈ t.children := by simp [children]
          exact .inr ⟨c, child, (ih c child (made.child child)).mpr ⟨u, y, inC, wrong⟩⟩

/-- No descendant looks further than the subtree itself. -/
theorem Composed.window_le (made : t.Composed) (inside : Occurs u t x) :
    x.bytes + u.window ≤ t.window := by
  induction t using Subtree.induction generalizing x with
  | node t ih =>
    rcases occurs_iff.mp inside with ⟨rfl, rfl⟩ | below
    · exact Nat.le_of_eq (Nat.zero_add _)
    · obtain ⟨before, c, after, y, children, rfl, inC⟩ := below.split
      have child : c ∈ t.children := by simp [children]
      rcases made.cases with token | inner
      · rw [token.children_eq] at child
        cases child
      · have within := ih c child (made.child child) inC
        have whole := inner.window_le children
        rw [Extent.add_bytes]
        omega

/-- Whatever the constructors of subtrees make, in any order, has an exact summary. -/
theorem Composed.summarized (made : t.Composed) : t.Summarized where
  size_eq some := by
    rcases made.cases with token | inner
    · exact absurd token.children_eq some
    · exact inner.size_eq
  visibleCount_eq := (made.constructed.counted 0).symm
  namedCount_eq := by
    have tallied : t.tallyShown false 0 = t.info.namedCount := made.constructed.tallied false 0
    rw [← tallied]
    refine List.countP_congr fun c member => ?_
    simp [Node.isRelevant, visible_of_mem_shown 0 t member]
  hasError_iff := made.hasError_iff
  lexMode_eq c first := by
    rcases made.cases with token | inner
    · rw [token.children_eq] at first
      cases first
    · exact inner.lexMode_eq first
  window_le _ _ inside := made.window_le inside

/-- An error node over a token that nothing matches grows by a missing `a` and a hidden node that an
`a` and a list show through. -/
theorem ofLists_summarized :
    let a := leaf 0 .ofLists 1 ⟨1, ⟨0, 1⟩⟩ 2 StateId.start {}
    let list := node 1 .ofLists 2 [a] 0 StateId.start
    let hidden := node 2 .ofLists Symbol.stop [a, list] 0 StateId.start
    let error := errorNode 3 .ofLists [leaf 4 .ofLists Symbol.error ⟨1, ⟨0, 1⟩⟩ 0 StateId.start {}]
      StateId.start
    let t := error.append 5 [missingLeaf 6 .ofLists 1 StateId.start {}, hidden.placed 7 3 true]
    t.Composed ∧ t.Summarized ∧ t.size.bytes = 3 ∧ t.info.visibleCount = 4
      ∧ t.info.namedCount = 2 ∧ t.window = 5 := by
  intro a list hidden error t
  have made_a : a.Composed := .leaf
  have made_list : list.Composed := .node (List.forall_mem_singleton.mpr made_a)
  have made_hidden : hidden.Composed :=
    .node (List.forall_mem_cons.mpr ⟨made_a, List.forall_mem_singleton.mpr made_list⟩)
  have made_error : error.Composed := .errorNode (List.forall_mem_singleton.mpr .leaf)
  have made : t.Composed := made_error.append .errorNode
    (List.forall_mem_cons.mpr ⟨.missingLeaf, List.forall_mem_singleton.mpr made_hidden.placed⟩)
  exact ⟨made, made.summarized, by decide, by decide, by decide, by decide⟩

end Subtree

end Reparse
