import Reparse.Proofs.Morpho.Stack

/-!
Operands on a parse stack of Morpho.

What an operator may have for its operands is laid down on the stack before the operation is built.
Over a `*` no operation can be completed but the one that the `*` belongs to, and over a `+` none but
a product, since the states there shift no other operator. A sum beneath a `*` has something wrong
between them, or the `*` itself was not there: a sum is completed before another token only. All this
is kept by each reduction (`Session.Parses.reduce_inOrder`).
-/

namespace Reparse

open Subtree (structural Occurs occurs_iff)

theorem Stack.forall_trees {entries : List Entry} {A : Subtree → Prop} :
    (∀ t ∈ trees entries, A t) ↔ ∀ e ∈ entries, A e.tree := by
  simp [trees]

namespace Morpho

variable {handle : Nat} {input : Array UInt8} {P : Nat → Subtree → Prop} {t u c : Subtree}
  {s s' : Stack} {e : Entry} {above below rest : List Entry} {q target : StateId} {x : Extent}

/-! ### Operations and their operands -/

theorem sizeOf_lt_of_mem (member : c ∈ t.children) : sizeOf c < sizeOf t := by
  obtain ⟨stamp, info, children⟩ := t
  have smaller : sizeOf c < sizeOf children := List.sizeOf_lt_of_mem member
  rw [Subtree.mk.sizeOf_spec]
  omega

/-- An operand without the hidden nodes around it. -/
def unwrapped (t : Subtree) : Subtree :=
  match _only : structural t.children with
  | [c] => if t.symbol = expression then unwrapped c else t
  | _ => t
termination_by t
decreasing_by
  have inside : c ∈ structural t.children := by rw [_only]; exact List.mem_singleton_self c
  exact sizeOf_lt_of_mem (List.mem_of_mem_filter inside)

/-- An operation with a `+`. -/
def IsSum (t : Subtree) : Prop :=
  t.symbol = binaryExpression
    ∧ ∃ left op right, structural t.children = [left, op, right] ∧ op.symbol = plus

/-- An operation without errors binds as the grammar has it: a factor on the right is no operation, a
term on the right no sum, and nothing that is multiplied is a sum. -/
def Binds (t : Subtree) : Prop :=
  t.symbol = binaryExpression → t.hasError = false →
    ∀ left op right, structural t.children = [left, op, right] →
      (op.symbol = star →
          (unwrapped right).symbol ≠ binaryExpression ∧ ¬ IsSum (unwrapped left))
        ∧ (op.symbol = plus → ¬ IsSum (unwrapped right))

/-- All operations in a subtree bind as they should. -/
def BindsAll (t : Subtree) : Prop := ∀ u x, Occurs u t x → Binds u

theorem unwrapped_of_ne (other : t.symbol ≠ expression) : unwrapped t = t := by
  unfold unwrapped
  split
  · exact if_neg other
  · rfl

theorem unwrapped_of_expression (is : t.symbol = expression) (only : structural t.children = [c]) :
    unwrapped t = unwrapped c := by
  rw [unwrapped]
  split
  next c' only' =>
    obtain rfl : c' = c := (List.cons.inj (only'.symm.trans only)).1
    exact if_pos is
  next many => exact absurd only (many c)

theorem not_isSum_of_leaf (leaf : t.children = []) : ¬ IsSum t := by
  rintro ⟨-, left, op, right, children, -⟩
  rw [leaf] at children
  cases children

theorem unwrapped_of_leaf (leaf : t.children = []) : unwrapped t = t := by
  rw [unwrapped]
  split
  next c only =>
    rw [leaf] at only
    cases only
  next => rfl

theorem binds_of_ne (other : t.symbol ≠ binaryExpression) : Binds t :=
  fun is => absurd is other

theorem bindsAll_of (own : Binds t) (below : ∀ c ∈ t.children, BindsAll c) : BindsAll t := by
  intro u x inside
  rcases occurs_iff.mp inside with ⟨rfl, -⟩ | inside
  · exact own
  · obtain ⟨before, c, after, y, children, -, inC⟩ := inside.split
    exact below c (by simp [children]) u y inC

theorem BindsAll.child (all : BindsAll t) (child : c ∈ t.children) : BindsAll c := by
  obtain ⟨y, down⟩ := Subtree.occurs_of_mem child
  exact fun u x inside => all u (y + x) (down.trans inside)

theorem bindsAll_of_leaf (leaf : t.children = []) : BindsAll t := by
  refine bindsAll_of (fun _ _ left op right children => ?_) (by rw [leaf]; exact nofun)
  rw [leaf] at children
  cases children

theorem bindsAll_of_error (error : t.isError = true) (below : ∀ c ∈ t.children, BindsAll c) :
    BindsAll t := by
  refine bindsAll_of (binds_of_ne ?_) below
  rw [beq_iff_eq.mp error]
  decide

/-- The rules of an operation have an operator between two operands. -/
theorem operation_rule {parts : List Symbol} (rule : (binaryExpression, parts) ∈ rules) :
    ∃ op, parts = [expression, op, expression] ∧ (op = plus ∨ op = star) := by
  have each : ∀ rule ∈ rules, rule.1 = binaryExpression →
      rule.2 = [expression, plus, expression] ∨ rule.2 = [expression, star, expression] := by decide
  rcases each _ rule rfl with is | is
  · exact ⟨plus, is, .inl rfl⟩
  · exact ⟨star, is, .inr rfl⟩

/-- The rules of a hidden node have one part. -/
theorem expression_rule {parts : List Symbol} (rule : (expression, parts) ∈ rules) :
    parts.length = 1 := by
  have each : ∀ rule ∈ rules, rule.1 = expression → rule.2.length = 1 := by decide
  exact each _ rule rfl

theorem triple_of_symbols {ts : List Subtree} {op : Symbol}
    (is : ts.map (·.symbol) = [expression, op, expression]) : ∃ left mid right,
      ts = [left, mid, right] ∧ left.symbol = expression ∧ mid.symbol = op
        ∧ right.symbol = expression := by
  obtain ⟨left, rest, rfl, leftSymbol, is⟩ := List.map_eq_cons_iff.mp is
  obtain ⟨mid, rest, rfl, midSymbol, is⟩ := List.map_eq_cons_iff.mp is
  obtain ⟨right, rest, rfl, rightSymbol, is⟩ := List.map_eq_cons_iff.mp is
  obtain rfl := List.map_eq_nil_iff.mp is
  exact ⟨left, mid, right, rfl, leftSymbol, midSymbol, rightSymbol⟩

/-! ### The states around an operator -/

/-- The states over an operator, and those over the operand after it. -/
def plusState : StateId := 20
def starState : StateId := 21
def sumState : StateId := 30
def productState : StateId := 31

theorem plus_shift (shift : cell q plus = some (.shift target)) :
    target = plusState ∧ q ≠ sumState ∧ q ≠ productState := by
  have each : ∀ cell ∈ cells, cell.2.2 = .shift cell.2.2.landing → cell.2.1 = plus →
      cell.2.2.landing = plusState ∧ cell.1 ≠ sumState ∧ cell.1 ≠ productState := by decide +kernel
  exact each _ (mem_cells shift) rfl rfl

theorem star_shift (shift : cell q star = some (.shift target)) :
    target = starState ∧ q ≠ productState := by
  have each : ∀ cell ∈ cells, cell.2.2 = .shift cell.2.2.landing → cell.2.1 = star →
      cell.2.2.landing = starState ∧ cell.1 ≠ productState := by decide +kernel
  exact each _ (mem_cells shift) rfl rfl

theorem operand_shift : cell plusState expression = some (.shift sumState)
    ∧ cell starState expression = some (.shift productState) := by decide +kernel

/-- A sum is not completed before a `*`. -/
theorem sum_star : cell sumState star = some (.shift starState) := by decide +kernel

/-! ### Sums that lie open -/

/-- A sum lies on top of some entries, under nothing but extras without errors. -/
def Exposed : List Entry → Prop
  | [] => False
  | e :: rest =>
    if e.tree.extra then e.tree.hasError = false ∧ Exposed rest else IsSum (unwrapped e.tree)

theorem exposed_append (extras : ∀ e ∈ above, e.tree.extra = true) :
    Exposed (above ++ rest) ↔ (∀ e ∈ above, e.tree.hasError = false) ∧ Exposed rest := by
  induction above with
  | nil => simp
  | cons e above ih =>
    obtain ⟨first, others⟩ := List.forall_mem_cons.mp extras
    rw [List.cons_append, Exposed, if_pos first, ih others, List.forall_mem_cons, and_assoc]

theorem exposed_cons (regular : e.tree.extra = false) :
    Exposed (e :: rest) ↔ IsSum (unwrapped e.tree) := by
  rw [Exposed, regular, if_neg Bool.false_ne_true]

/-! ### Stacks in order -/

/-- An entry over others can become an operand, or an operator, of what binds as it should. -/
structure Ranked (s : Stack) (e : Entry) (rest : List Entry) : Prop where
  binds : BindsAll e.tree
  factor : e.tree.extra = false → s.stateOver rest = starState →
    (unwrapped e.tree).symbol ≠ binaryExpression
  term : e.tree.extra = false → s.stateOver rest = plusState → ¬ IsSum (unwrapped e.tree)
  times : e.tree.extra = false → e.tree.symbol = star → e.tree.hasError = false → ¬ Exposed rest

def InOrder (s : Stack) : Prop := Stack.Over (Ranked s) s.entries

theorem inOrder_of_over (held : Stack.Over (Ranked s) s'.entries) (base : s'.base = s.base) :
    InOrder s' := by
  refine held.mono fun e rest ranked => ?_
  have same := Stack.stateOver_congr base
  exact ⟨ranked.binds, same ▸ ranked.factor, same ▸ ranked.term, ranked.times⟩

theorem ranked_of_extra (extra : e.tree.extra = true) (binds : BindsAll e.tree) :
    Ranked s e rest := by
  have never {A : Prop} (regular : e.tree.extra = false) : A := by
    rw [extra] at regular
    cases regular
  exact ⟨binds, never, never, never⟩

theorem InOrder.bindsAll (order : InOrder s) : ∀ e ∈ s.entries, BindsAll e.tree := by
  unfold InOrder at order
  generalize s.entries = entries at order
  induction entries with
  | nil => nofun
  | cons e rest ih => exact List.forall_mem_cons.mpr ⟨order.1.binds, ih order.2⟩

/-- Extras may be put on top. -/
theorem over_extras (extras : ∀ e ∈ above, e.tree.extra = true ∧ BindsAll e.tree)
    (held : Stack.Over (Ranked s) rest) : Stack.Over (Ranked s) (above ++ rest) := by
  induction above with
  | nil => exact held
  | cons e above ih =>
    obtain ⟨first, others⟩ := List.forall_mem_cons.mp extras
    exact ⟨ranked_of_extra first.1 first.2, ih others⟩

/-- The last of the subtrees on some entries that are no extras is the topmost. -/
theorem topmost_of_structural {entries : List Entry} (ts : List Subtree)
    (is : structural (Stack.trees entries) = ts ++ [t]) : ∃ above e below,
      entries = above ++ e :: below ∧ (∀ a ∈ above, a.tree.extra = true) ∧ e.tree = t
        ∧ e.tree.extra = false ∧ structural (Stack.trees below) = ts := by
  induction entries with
  | nil => simp at is
  | cons e rest ih =>
    rw [Stack.trees_cons, Subtree.structural_append] at is
    by_cases extra : e.tree.extra = true
    · rw [Subtree.structural_singleton_extra extra, List.append_nil] at is
      obtain ⟨above, e', below, rfl, extras, found⟩ := ih is
      exact ⟨e :: above, e', below, rfl, List.forall_mem_cons.mpr ⟨extra, extras⟩, found⟩
    · have regular : e.tree.extra = false := by simpa using extra
      rw [Subtree.structural_singleton regular] at is
      obtain ⟨others, last⟩ := List.append_inj' is rfl
      exact ⟨[], e, rest, rfl, nofun, (List.cons.inj last).1, regular, others⟩

theorem extras_of_structural {entries : List Entry}
    (none : structural (Stack.trees entries) = []) : ∀ e ∈ entries, e.tree.extra = true := by
  intro e member
  have := List.filter_eq_nil_iff.mp none e.tree (Stack.mem_trees.mpr ⟨e, member, rfl⟩)
  simpa using this

/-! ### Operations on a stack -/

/-- The entries settle on each other. -/
def Standing (handle : Nat) (P : Nat → Subtree → Prop) (s : Stack) : List Entry → Prop :=
  Stack.Over fun e rest =>
    e.Settled (language handle) P (s.stateOver rest) (Stack.positionOver rest)

theorem Standing.beneath (standing : Standing handle P s (above ++ rest)) :
    Standing handle P s rest := Stack.Over.beneath standing

theorem Standing.stateOver (standing : Standing handle P s (above ++ rest))
    (extras : ∀ e ∈ above, e.tree.extra = true) :
    s.stateOver (above ++ rest) = s.stateOver rest := by
  induction above with
  | nil => rfl
  | cons e above ih =>
    obtain ⟨first, others⟩ := List.forall_mem_cons.mp extras
    exact (standing.1.extra_state first).trans (ih standing.2 others)

/-- An entry is moved to from the state of the next one beneath it. -/
theorem Standing.shift {rest : List Entry} (standing : Standing handle P s (e :: (above ++ rest)))
    (formed : ∀ {place t}, P place t → Formed handle input place t)
    (regular : e.tree.extra = false) (extras : ∀ e ∈ above, e.tree.extra = true) :
    cell (s.stateOver rest) e.tree.symbol = some (.shift e.state) := by
  rw [← Standing.stateOver standing.2 extras]
  exact shift_of_settled standing.1 (formed (standing.1.holds _ _ .here)) regular

/-- Entries that an operation can be made of: an operator between two operands, each moved to from the
state of the one beneath, and what being in order says of them. -/
structure Laid (s : Stack) (op : Symbol) (taken under : List Entry) (left mid right : Entry) :
    Prop where
  parts : structural (Stack.trees taken) = [left.tree, mid.tree, right.tree]
  operator : mid.tree.symbol = op
  leftShift : cell (s.stateOver under) expression = some (.shift left.state)
  midShift : cell left.state op = some (.shift mid.state)
  rightShift : cell mid.state expression = some (.shift right.state)
  top : s.stateOver (taken ++ under) = right.state
  factor : mid.state = starState → (unwrapped right.tree).symbol ≠ binaryExpression
  term : mid.state = plusState → ¬ IsSum (unwrapped right.tree)
  times : op = star → (∀ e ∈ taken, e.tree.hasError = false) → ¬ IsSum (unwrapped left.tree)

section Laid

variable {taken under : List Entry} {node : Subtree} {op : Symbol} {left mid right : Entry}

theorem laid_of_symbols (standing : Standing handle P s (taken ++ under))
    (formed : ∀ {place t}, P place t → Formed handle input place t)
    (ranked : Stack.Over (Ranked s) (taken ++ under))
    (symbols : (structural (Stack.trees taken)).map (·.symbol) = [expression, op, expression]) :
    ∃ left mid right, Laid s op taken under left mid right := by
  obtain ⟨left, mid, right, parts, leftSymbol, midSymbol, rightSymbol⟩ := triple_of_symbols symbols
  have whole := parts
  obtain ⟨above, r, middle, rfl, extras, rfl, regularR, parts⟩ :=
    topmost_of_structural [left, mid] parts
  obtain ⟨between, o, lower, rfl, extrasR, rfl, regularO, parts⟩ :=
    topmost_of_structural [left] parts
  obtain ⟨deeper, l, bottom, rfl, extrasO, rfl, regularL, parts⟩ :=
    topmost_of_structural [] parts
  have extrasL := extras_of_structural parts
  have top : s.stateOver ((above ++ r :: (between ++ o :: (deeper ++ l :: bottom))) ++ under)
      = r.state := by
    rw [List.append_assoc] at standing ⊢
    exact standing.stateOver extras
  simp only [List.append_assoc, List.cons_append] at standing ranked
  have atRight : Standing handle P s (r :: _) := standing.beneath
  have atMid : Standing handle P s (o :: _) := Standing.beneath atRight.2
  have atLeft : Standing handle P s (l :: _) := Standing.beneath atMid.2
  have rightShift := atRight.shift formed regularR extrasR
  have midShift := atMid.shift formed regularO extrasO
  have leftShift := atLeft.shift formed regularL extrasL
  rw [Stack.stateOver, rightSymbol] at rightShift
  rw [Stack.stateOver, midSymbol] at midShift
  rw [leftSymbol] at leftShift
  have rankedRight := ranked.beneath.1
  have rankedMid := ranked.beneath.2.beneath.1
  have overMid : s.stateOver (between ++ o :: (deeper ++ l :: (bottom ++ under))) = o.state :=
    Standing.stateOver atRight.2 extrasR
  refine ⟨l, o, r, whole, midSymbol, leftShift, midShift, rightShift, top,
    fun times => rankedRight.factor regularR (overMid.trans times),
    fun adds => rankedRight.term regularR (overMid.trans adds), fun times clean isSum => ?_⟩
  refine rankedMid.times regularO (midSymbol.trans times) (clean o (by simp)) ?_
  exact (exposed_append extrasO).mpr ⟨fun e member => clean e (by simp [member]),
    (exposed_cons regularL).mpr isSum⟩

theorem Laid.isSum (laid : Laid s op taken under left mid right)
    (children : node.children = Stack.trees taken) (isSum : IsSum node) : op = plus := by
  obtain ⟨-, left', mid', right', parts, adds⟩ := isSum
  rw [children, laid.parts] at parts
  obtain ⟨-, parts⟩ := List.cons.inj parts
  rw [← laid.operator, (List.cons.inj parts).1, adds]

theorem Laid.binds (laid : Laid s op taken under left mid right)
    (children : node.children = Stack.trees taken)
    (clean : node.hasError = false → ∀ e ∈ taken, e.tree.hasError = false) : Binds node := by
  rintro - free left' mid' right' parts
  rw [children, laid.parts] at parts
  simp only [List.cons.injEq] at parts
  obtain ⟨rfl, rfl, rfl, -⟩ := parts
  have midShift := laid.midShift
  rw [← laid.operator] at midShift
  constructor
  · intro times
    rw [times] at midShift
    exact ⟨laid.factor (star_shift midShift).1,
      laid.times (laid.operator.symm.trans times) (clean free)⟩
  · intro adds
    rw [adds] at midShift
    exact laid.term (plus_shift midShift).1

/-- No operation is made over a `*`. -/
theorem Laid.not_times (laid : Laid s op taken under left mid right) (operator : op = plus ∨ op = star) :
    s.stateOver under ≠ starState := by
  intro times
  have leftShift := laid.leftShift
  rw [times, operand_shift.2] at leftShift
  have product : productState = left.state := Action.shift.inj (Option.some.inj leftShift)
  rcases operator with rfl | rfl
  · exact (plus_shift laid.midShift).2.2 product.symm
  · exact (star_shift laid.midShift).2 product.symm

/-- No sum is made over a `+`. -/
theorem Laid.not_adds (laid : Laid s op taken under left mid right)
    (children : node.children = Stack.trees taken) (adds : s.stateOver under = plusState) :
    ¬ IsSum node := by
  intro isSum
  have leftShift := laid.leftShift
  have midShift := laid.midShift
  rw [adds, operand_shift.1] at leftShift
  rw [laid.isSum children isSum] at midShift
  exact (plus_shift midShift).2.1 (Action.shift.inj (Option.some.inj leftShift)).symm

/-- A sum is completed in one state only. -/
theorem Laid.after_sum (laid : Laid s op taken under left mid right)
    (children : node.children = Stack.trees taken) (isSum : IsSum node) :
    s.stateOver (taken ++ under) = sumState := by
  have midShift := laid.midShift
  have rightShift := laid.rightShift
  rw [laid.isSum children isSum] at midShift
  rw [(plus_shift midShift).1, operand_shift.1] at rightShift
  rw [laid.top]
  exact (Action.shift.inj (Option.some.inj rightShift)).symm

end Laid

end Morpho

/-! ### Reductions -/

namespace Session

open Morpho

variable {handle : Nat} {input : Array UInt8} {P : Nat → Subtree → Prop} {s : Session}
  {symbol : Symbol} {r : Reduction} {above taken : List Entry} {under : Stack}

/-- A node without errors is made of what has none. -/
theorem reducedNode_clean (regular : r.symbol ≠ Symbol.error)
    (clean : (s.reducedNode r taken under).hasError = false) :
    ∀ e ∈ taken, e.tree.hasError = false := by
  intro e member
  have free : (s.reducedNode r taken under).info.errorCost = 0 := by
    simpa [Subtree.hasError] using clean
  have each := (Summary.ofChildren_errorCost_eq_zero s.lang r.symbol (Stack.trees taken)
    r.production under.topState regular).mp free
  simp [Subtree.hasError, each e.tree (Stack.mem_trees.mpr ⟨e, member, rfl⟩)]

theorem Reduces.taken_one (reduces : s.Reduces r above taken under) (count : r.count = 1)
    (one : (structural (Stack.trees taken)).length = 1) :
    ∃ e, taken = [e] ∧ e.tree.extra = false := by
  cases taken with
  | nil => cases one
  | cons e more =>
    have regular := reduces.regular e rfl
    have taken_eq := reduces.taken_eq
    rw [count, List.cons_append, Stack.takeCount, regular, if_neg Bool.false_ne_true,
      Stack.takeCount] at taken_eq
    exact ⟨e, taken_eq, regular⟩

/-- What a reduction makes is in order on what is left beneath it. If it is a sum, or nothing else than
one, there was one on top before, or the state was that after a sum. -/
structure Suits (s : Session) (r : Reduction) (taken : List Entry) (under : Stack) : Prop where
  ranked : Ranked s.stack (s.reducedEntry r taken under) under.entries
  exposes : IsSum (unwrapped (s.reducedNode r taken under)) →
    Exposed (taken ++ under.entries) ∨ s.stack.topState = sumState

theorem reducedNode_ne_star (nonterminal : tokenCount ≤ r.symbol.toNat) :
    (s.reducedNode r taken under).symbol ≠ Morpho.star := by
  intro is
  rw [← reducedNode_symbol s r taken under, is] at nonterminal
  exact absurd nonterminal (by decide)

theorem suits_operation {op : Symbol} {left mid right : Entry}
    (laid : Laid s.stack op taken under.entries left mid right)
    (operator : op = plus ∨ op = Morpho.star) (is : r.symbol = binaryExpression)
    (nonterminal : tokenCount ≤ r.symbol.toNat)
    (state : s.stack.topState = s.stack.stateOver (taken ++ under.entries))
    (below : ∀ e ∈ taken, BindsAll e.tree) : s.Suits r taken under := by
  have symbol_eq : (s.reducedNode r taken under).symbol = binaryExpression :=
    (reducedNode_symbol ..).trans is
  have regular : r.symbol ≠ Symbol.error := by
    rw [is]
    decide
  have bare : unwrapped (s.reducedNode r taken under) = s.reducedNode r taken under := by
    refine unwrapped_of_ne ?_
    rw [symbol_eq]
    decide
  refine ⟨⟨?_, fun _ times => absurd times (laid.not_times operator), fun _ adds => ?_,
    fun _ times => absurd times (reducedNode_ne_star nonterminal)⟩, fun isSum => .inr ?_⟩
  · exact bindsAll_of (laid.binds rfl (reducedNode_clean regular)) (Stack.forall_trees.mpr below)
  · exact bare.symm ▸ laid.not_adds rfl adds
  · rw [state]
    exact laid.after_sum rfl (bare ▸ isSum)

theorem suits_wrapper {e : Entry} (single : e.tree.extra = false) (is : r.symbol = expression)
    (nonterminal : tokenCount ≤ r.symbol.toNat) (top : Ranked s.stack e under.entries) :
    s.Suits r [e] under := by
  have symbol_eq : (s.reducedNode r [e] under).symbol = expression :=
    (reducedNode_symbol ..).trans is
  have inner : unwrapped (s.reducedNode r [e] under) = unwrapped e.tree :=
    unwrapped_of_expression symbol_eq (Subtree.structural_singleton single)
  have binds : Binds (s.reducedNode r [e] under) := by
    refine binds_of_ne ?_
    rw [symbol_eq]
    decide
  refine ⟨⟨bindsAll_of binds (List.forall_mem_singleton.mpr top.binds), fun _ atop => ?_,
    fun _ atop => ?_, fun _ times => absurd times (reducedNode_ne_star nonterminal)⟩,
    fun isSum => .inl ?_⟩
  · exact inner.symm ▸ top.factor single atop
  · exact inner.symm ▸ top.term single atop
  · exact (exposed_cons single).mpr (inner ▸ isSum)

theorem suits_other (nonterminal : tokenCount ≤ r.symbol.toNat)
    (operation : r.symbol ≠ binaryExpression) (wrapper : r.symbol ≠ expression)
    (below : ∀ e ∈ taken, BindsAll e.tree) : s.Suits r taken under := by
  rw [← reducedNode_symbol s r taken under] at operation wrapper
  have bare : unwrapped (s.reducedNode r taken under) = s.reducedNode r taken under :=
    unwrapped_of_ne wrapper
  have noSum : ¬ IsSum (unwrapped (s.reducedNode r taken under)) := by
    rw [bare]
    exact fun isSum => operation isSum.1
  exact ⟨⟨bindsAll_of (binds_of_ne operation) (Stack.forall_trees.mpr below),
    fun _ _ => bare.symm ▸ operation, fun _ _ => noSum,
    fun _ times => absurd times (reducedNode_ne_star nonterminal)⟩, fun isSum => absurd isSum noSum⟩

theorem Parses.reduced_suits (parses : s.Parses handle input P) (order : InOrder s.stack)
    {last : Way} {target : StateId} (reduces : s.Reduces r above taken under)
    (finds : s.Finds r taken under last target) : s.Suits r taken under := by
  have standing : Standing handle P s.stack s.stack.entries := parses.over
  have ranked := order
  have below := order.bindsAll
  unfold InOrder at ranked
  rw [reduces.split] at standing ranked below
  replace standing := standing.beneath
  replace ranked := ranked.beneath
  replace below := (List.forall_mem_append.mp (List.forall_mem_append.mp below).2).1
  by_cases operation : r.symbol = binaryExpression
  · obtain ⟨op, rule, operator⟩ := operation_rule (operation ▸ finds.rule)
    obtain ⟨left, mid, right, laid⟩ := laid_of_symbols standing parses.formed ranked rule
    exact suits_operation laid operator operation finds.nonterminal.1
      (reduces.topState_eq parses.ready.settled) below
  · by_cases wrapper : r.symbol = expression
    · have one : (structural (Stack.trees taken)).length = 1 := by
        have := expression_rule (wrapper ▸ finds.rule)
        rwa [List.length_map] at this
      obtain ⟨e, rfl, single⟩ := reduces.taken_one (finds.count.symm.trans one) one
      exact suits_wrapper single wrapper finds.nonterminal.1 ranked.1
    · exact suits_other finds.nonterminal.1 operation wrapper below

/-- A reduction keeps the stack in order. A sum lies open after it only if one did before, or in the
state after a sum. -/
theorem Parses.reduce_inOrder (parses : s.Parses handle input P)
    (action : cell s.stack.topState symbol = some (.reduce r)) (order : InOrder s.stack) :
    InOrder (s.reduce r).stack
      ∧ (Exposed (s.reduce r).stack.entries →
        Exposed s.stack.entries ∨ s.stack.topState = sumState) := by
  obtain ⟨above, taken, under, reduces⟩ := s.reduces r
  obtain ⟨last, target, finds⟩ := parses.finds action reduces
  obtain ⟨lifted, entries, trees, extras⟩ := reduces.entries
  obtain ⟨ranked, sums⟩ := parses.reduced_suits order reduces finds
  have same (A : Subtree → Prop) : (∀ e ∈ lifted, A e.tree) ↔ ∀ e ∈ above, A e.tree := by
    rw [← Stack.forall_trees, trees, Stack.forall_trees]
  have base : (s.reduce r).stack.base = s.stack.base := by
    rw [reduces.eq]
    exact (Stack.pushAll_base _ _ _).trans reduces.base
  constructor
  · have all := order
    unfold InOrder at all
    rw [reduces.split] at all
    have binds : ∀ e ∈ lifted, BindsAll e.tree := (same BindsAll).mpr fun e member =>
      order.bindsAll e (by rw [reduces.split]; exact List.mem_append_left _ member)
    refine inOrder_of_over (s := s.stack) ?_ base
    rw [entries]
    refine over_extras (fun e member => ⟨extras e member, binds e member⟩) ⟨ranked, ?_⟩
    exact all.beneath.beneath
  · rw [entries, exposed_append extras, exposed_cons (reducedNode_extra ..)]
    rintro ⟨clean, isSum⟩
    refine (sums isSum).imp_left fun exposed => ?_
    rw [reduces.split, exposed_append reduces.extras]
    exact ⟨(same (·.hasError = false)).mp clean, exposed⟩

end Session

end Reparse
