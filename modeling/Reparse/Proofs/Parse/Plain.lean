import Reparse.Proofs.Parse.Run
import Reparse.Proofs.Syntax.Plain

/-!
Sessions that go on alike.

What a parse does next depends on the text and on what its subtrees are plainly, not on where it
took them from: sessions that agree in this (`Session.Same`) act alike on plainly equal tokens, in
recoveries too (`Session.act_same`). Where the next token is taken from, how far was looked and how
often the parse recovered may differ, and so may the reductions in a row as long as there are few.
-/

namespace Reparse

open Subtree (total structural)

/-! ### Plain stacks -/

def Entry.plain (e : Entry) : Entry := { e with tree := e.tree.plain, epoch := 0 }

namespace Stack

def plain (s : Stack) : Stack where
  base := s.base
  entries := s.entries.map Entry.plain

variable {s s' : Stack} {entries : List Entry}

theorem ext_entries (base : s.base = s'.base) (entries : s.entries = s'.entries) : s = s' := by
  obtain ⟨_, _, length, length_eq⟩ := s
  obtain ⟨_, _, length', length_eq'⟩ := s'
  obtain rfl := base
  obtain rfl := entries
  obtain rfl : length = length' := length_eq.trans length_eq'.symm
  rfl

@[simp] theorem plain_base : s.plain.base = s.base := rfl

@[simp] theorem plain_entries : s.plain.entries = s.entries.map Entry.plain := rfl

@[simp] theorem plain_length : s.plain.length = s.length := by
  rw [s.plain.length_eq, plain_entries, List.length_map, s.length_eq]

theorem plain_stateOver (s : Stack) (entries : List Entry) :
    s.plain.stateOver (entries.map Entry.plain) = s.stateOver entries := by
  cases entries <;> rfl

theorem plain_positionOver (entries : List Entry) :
    positionOver (entries.map Entry.plain) = positionOver entries := by
  cases entries <;> rfl

@[simp] theorem plain_topState : s.plain.topState = s.topState := plain_stateOver s s.entries

@[simp] theorem plain_topPosition : s.plain.topPosition = s.topPosition :=
  plain_positionOver s.entries

theorem plain_trees (entries : List Entry) :
    trees (entries.map Entry.plain) = (trees entries).map Subtree.plain := by
  rw [trees, trees, List.map_map, List.map_reverse, List.map_map]
  rfl

theorem plain_push (s : Stack) (t : Subtree) (q : StateId) (epoch : Nat) :
    (s.push t q epoch).plain = s.plain.push t.plain q 0 := by
  refine ext_entries rfl ?_
  rw [plain_entries, push_entries, push_entries, plain_topPosition, t.plain_size]
  rfl

theorem plain_without (s : Stack) (count : Nat) : (s.without count).plain = s.plain.without count :=
  ext_entries rfl List.map_drop

theorem plain_pushAll (s : Stack) (ts : List Subtree) (q : StateId) (epoch : Nat) :
    (s.pushAll ts q epoch).plain = s.plain.pushAll (ts.map Subtree.plain) q 0 := by
  induction ts generalizing s with
  | nil => rfl
  | cons t ts ih =>
    have pushed := ih (s.push t q epoch)
    rw [plain_push] at pushed
    exact pushed

/-- What a test of subtrees says of entries is said of the plain ones, if it does not look at what
is not plain. -/
theorem plain_takeWhile {p : Subtree → Bool} (plain : ∀ t : Subtree, p t.plain = p t)
    (entries : List Entry) : (entries.map Entry.plain).takeWhile (fun e => p e.tree)
      = (entries.takeWhile fun e => p e.tree).map Entry.plain := by
  rw [List.takeWhile_map]
  congr 2
  funext e
  exact plain e.tree

theorem plain_dropWhile {p : Subtree → Bool} (plain : ∀ t : Subtree, p t.plain = p t)
    (entries : List Entry) : (entries.map Entry.plain).dropWhile (fun e => p e.tree)
      = (entries.dropWhile fun e => p e.tree).map Entry.plain := by
  rw [List.dropWhile_map]
  congr 2
  funext e
  exact plain e.tree

theorem plain_popExtras (s : Stack) :
    s.plain.popExtras = (s.popExtras.1.map Subtree.plain, s.popExtras.2.plain) := by
  simp only [popExtras, plain_entries]
  rw [plain_takeWhile fun t => t.plain_extra, plain_trees, List.length_map, plain_without]

theorem plain_takeCount (count : Nat) (entries : List Entry) :
    takeCount count (entries.map Entry.plain) = (takeCount count entries).map Entry.plain := by
  induction entries generalizing count with
  | nil => cases count <;> rfl
  | cons e rest ih =>
    cases count with
    | zero => rfl
    | succ count =>
      rw [List.map_cons, takeCount, takeCount, List.map_cons, ih]
      have extra : e.plain.tree.extra = e.tree.extra := e.tree.plain_extra
      rw [extra]

theorem plain_popCount (s : Stack) (count : Nat) :
    (s.plain.popCount count).1 = (s.popCount count).1.map Subtree.plain
      ∧ (s.plain.popCount count).2.2 = (s.popCount count).2.2.plain := by
  simp only [popCount, plain_entries, plain_takeCount, plain_trees, List.length_map, plain_without,
    and_self]

theorem plain_popTo (s : Stack) (remaining : Nat) :
    s.plain.popTo remaining = ((s.popTo remaining).1.map Subtree.plain, (s.popTo remaining).2.plain)
    := by
  simp only [popTo, plain_entries, plain_length, ← List.map_take, plain_trees, plain_without]

theorem plain_recentStates (s : Stack) : s.plain.recentStates = s.recentStates := by
  have regular : (fun e : Entry => !e.tree.extra) ∘ Entry.plain = fun e => !e.tree.extra := by
    funext e
    exact congrArg Bool.not e.tree.plain_extra
  have states : (fun e : Entry => e.state) ∘ Entry.plain = fun e => e.state := rfl
  simp only [recentStates, plain_entries, plain_length, plain_base, ← List.map_take, List.filter_map,
    regular, List.map_map, states]

/-- An error node that can grow. -/
theorem plain_stops (t : Subtree) :
    (!(t.plain.isError && !t.plain.isLeaf)) = !(t.isError && !t.isLeaf) := by
  rw [t.plain_isError, t.plain_isLeaf]

theorem plain_popError (s : Stack) : s.plain.popError = s.popError.map
    fun (error, extras, _, stack) => (error.plain, extras.map Subtree.plain, 0, stack.plain) := by
  simp only [popError, plain_entries, ← List.map_take, List.span_eq_takeWhile_dropWhile]
  rw [plain_takeWhile fun t => t.plain_extra]
  generalize (s.entries.take lookback).takeWhile (·.tree.extra) = extras
  have above := plain_takeWhile (p := fun t => !(t.isError && !t.isLeaf)) plain_stops extras
  have found := plain_dropWhile (p := fun t => !(t.isError && !t.isLeaf)) plain_stops extras
  rw [found, above]
  cases extras.dropWhile fun e => !(e.tree.isError && !e.tree.isLeaf) with
  | nil => rfl
  | cons e deeper =>
    rw [plain_trees, List.length_map]
    exact congrArg (fun stack => some (_, _, _, stack)) (s.plain_without _).symm

theorem plain_cutsIn (s : Stack) (maxTrees looks popped remaining : Nat) (entries : List Entry) :
    s.plain.cutsIn maxTrees looks popped remaining (entries.map Entry.plain)
      = s.cutsIn maxTrees looks popped remaining entries := by
  induction entries generalizing looks popped remaining with
  | nil => cases looks <;> rfl
  | cons e rest ih =>
    cases looks with
    | zero => rfl
    | succ looks =>
      have extra : e.plain.tree.extra = e.tree.extra := e.tree.plain_extra
      rw [List.map_cons, cutsIn, cutsIn, extra, ih, ih, plain_stateOver, plain_positionOver,
        plain_topPosition]

theorem plain_cuts (s : Stack) (maxTrees : Nat) : s.plain.cuts maxTrees = s.cuts maxTrees := by
  rw [cuts, cuts, plain_length]
  exact s.plain_cutsIn ..

/-- Stacks that are plainly equal pop plainly equal subtrees, and stay so. -/
theorem popExtras_same (same : s.plain = s'.plain) :
    s.popExtras.1.map Subtree.plain = s'.popExtras.1.map Subtree.plain
      ∧ s.popExtras.2.plain = s'.popExtras.2.plain := by
  have popped := s.plain_popExtras
  rw [same, plain_popExtras, Prod.mk.injEq] at popped
  exact ⟨popped.1.symm, popped.2.symm⟩

theorem popCount_same (same : s.plain = s'.plain) (count : Nat) :
    (s.popCount count).1.map Subtree.plain = (s'.popCount count).1.map Subtree.plain
      ∧ (s.popCount count).2.2.plain = (s'.popCount count).2.2.plain := by
  rw [← (s.plain_popCount count).1, ← (s.plain_popCount count).2, same]
  exact s'.plain_popCount count

theorem popTo_same (same : s.plain = s'.plain) (remaining : Nat) :
    (s.popTo remaining).1.map Subtree.plain = (s'.popTo remaining).1.map Subtree.plain
      ∧ (s.popTo remaining).2.plain = (s'.popTo remaining).2.plain := by
  have popped := s.plain_popTo remaining
  rw [same, plain_popTo, Prod.mk.injEq] at popped
  exact ⟨popped.1.symm, popped.2.symm⟩

theorem topState_same (same : s.plain = s'.plain) : s.topState = s'.topState := by
  rw [← plain_topState, same, plain_topState]

theorem topPosition_same (same : s.plain = s'.plain) : s.topPosition = s'.topPosition := by
  rw [← plain_topPosition, same, plain_topPosition]

theorem length_same (same : s.plain = s'.plain) : s.length = s'.length := by
  rw [← plain_length, same, plain_length]

theorem push_same (same : s.plain = s'.plain) {t t' : Subtree} (trees : t.plain = t'.plain)
    (q : StateId) (epoch epoch' : Nat) : (s.push t q epoch).plain = (s'.push t' q epoch').plain := by
  rw [plain_push, plain_push, same, trees]

theorem pushAll_same (same : s.plain = s'.plain) {ts ts' : List Subtree}
    (trees : ts.map Subtree.plain = ts'.map Subtree.plain) (q : StateId) (epoch epoch' : Nat) :
    (s.pushAll ts q epoch).plain = (s'.pushAll ts' q epoch').plain := by
  rw [plain_pushAll, plain_pushAll, same, trees]

end Stack

/-! ### Stacks that go on -/

/-- The state after a subtree: an extra leaves it as it is. -/
def Language.after (lang : Language) (q : StateId) (t : Subtree) : StateId :=
  if t.extra then q else lang.next q t.symbol

namespace Stack

variable {s s' : Stack} {ts : List Subtree} {lang : Language}

/-- The stack with further subtrees, each pushed in the state after it. -/
def follow (lang : Language) (s : Stack) (ts : List Subtree) : Stack :=
  ts.foldl (fun s t => s.push t (lang.after s.topState t) 0) s

/-- The state on top of some entries is where their subtrees lead. -/
theorem after_over {P : Nat → Subtree → Prop} {under : Stack} {entries : List Entry}
    (held : Over (fun e rest => e.Settled lang P (under.stateOver rest) (positionOver rest))
      (entries ++ under.entries)) :
    (trees entries).foldl lang.after under.topState = under.stateOver (entries ++ under.entries) := by
  induction entries with
  | nil => rfl
  | cons e rest ih =>
    obtain ⟨settled, held⟩ := held
    rw [trees_cons, List.foldl_append, ih held, List.foldl_cons, List.foldl_nil, Language.after]
    split
    · rename_i extra
      exact (settled.extra_state extra).symm
    · rename_i regular
      exact (settled.next_state (by simpa using regular)).symm

theorem follow_append (s : Stack) (lang : Language) (ts ts' : List Subtree) :
    s.follow lang (ts ++ ts') = (s.follow lang ts).follow lang ts' :=
  List.foldl_append

theorem follow_base : (s.follow lang ts).base = s.base := by
  induction ts generalizing s with
  | nil => rfl
  | cons t ts ih => exact ih

theorem follow_entries (s : Stack) (lang : Language) (ts : List Subtree) :
    ∃ pushed, (s.follow lang ts).entries = pushed ++ s.entries ∧ trees pushed = ts := by
  induction ts generalizing s with
  | nil => exact ⟨[], rfl, rfl⟩
  | cons t ts ih =>
    obtain ⟨pushed, entries, made⟩ := ih (s.push t (lang.after s.topState t) 0)
    refine ⟨pushed ++ [⟨t, lang.after s.topState t, s.topPosition + t.size, 0⟩], ?_, ?_⟩
    · rw [List.append_assoc, List.singleton_append]
      exact entries
    · rw [trees_append, made]
      rfl

theorem follow_topState : (s.follow lang ts).topState = ts.foldl lang.after s.topState := by
  induction ts generalizing s with
  | nil => rfl
  | cons t ts ih => exact ih

theorem follow_topPosition : (s.follow lang ts).topPosition = s.topPosition + total ts := by
  induction ts generalizing s with
  | nil => exact (add_zero _).symm
  | cons t ts ih =>
    rw [Subtree.total_cons, ← add_assoc]
    exact ih

/-- Plainly equal stacks go on alike. -/
theorem follow_same (same : s.plain = s'.plain) :
    (s.follow lang ts).plain = (s'.follow lang ts).plain := by
  induction ts generalizing s s' with
  | nil => exact same
  | cons t ts ih =>
    refine ih ?_
    dsimp only
    rw [topState_same same]
    exact push_same same rfl ..

theorem follow_extras (extras : ∀ t ∈ ts, t.extra = true) :
    s.follow lang ts = s.pushAll ts s.topState 0 := by
  generalize state : s.topState = q
  induction ts generalizing s with
  | nil => rfl
  | cons t ts ih =>
    have stays : lang.after s.topState t = q := by
      rw [Language.after, if_pos (extras t List.mem_cons_self), state]
    change (s.push t (lang.after s.topState t) 0).follow lang ts = (s.push t q 0).pushAll ts q 0
    rw [stays]
    exact ih (fun t member => extras t (List.mem_cons_of_mem _ member)) rfl

/-- Extras on top come off again. -/
theorem popExtras_pushAll (extras : ∀ t ∈ ts, t.extra = true)
    (regular : ∀ e ∈ s.entries.head?, e.tree.extra = false) (q : StateId) (epoch : Nat) :
    (s.pushAll ts q epoch).popExtras = (ts, s) := by
  obtain ⟨pushed, entries, made, -⟩ := s.pushAll_entries ts q epoch
  have onTop : ∀ e ∈ pushed, e.tree.extra = true :=
    fun e member => extras e.tree (made ▸ mem_trees.mpr ⟨e, member, rfl⟩)
  have top : (s.pushAll ts q epoch).entries.takeWhile (·.tree.extra) = pushed := by
    rw [entries, List.takeWhile_append_of_pos onTop]
    cases below : s.entries with
    | nil => exact List.append_nil _
    | cons e rest => simp [regular e (by rw [below]; rfl)]
  rw [popExtras, top]
  exact Prod.ext made (ext_entries (pushAll_base ..) (without_entries entries))

end Stack

namespace Session

variable {s s' s₁ s₁' : Session} {t t' : Subtree} {state : StateId}

/-! ### Sessions that agree -/

/-- Two sessions parse the same text in the same way, hold plainly equal subtrees in the same
states, and had their last recovery at the same place. -/
structure Same (s s' : Session) : Prop where
  alike : Alike s s'
  stack : s.stack.plain = s'.stack.plain
  lookahead : s.lookahead.map Subtree.plain = s'.lookahead.map Subtree.plain
  failedAt : s.failedAt = s'.failedAt
  attempts : s.attempts = s'.attempts

theorem Same.symm (same : Same s s') : Same s' s :=
  ⟨⟨same.alike.1.symm, same.alike.2.1.symm, same.alike.2.2.symm⟩, same.stack.symm,
    same.lookahead.symm, same.failedAt.symm, same.attempts.symm⟩

theorem Same.trans {s'' : Session} (same : Same s s') (same' : Same s' s'') : Same s s'' :=
  ⟨⟨same'.alike.1.trans same.alike.1, same'.alike.2.1.trans same.alike.2.1,
      same'.alike.2.2.trans same.alike.2.2⟩, same.stack.trans same'.stack,
    same.lookahead.trans same'.lookahead, same.failedAt.trans same'.failedAt,
    same.attempts.trans same'.attempts⟩

theorem Reading.same (reading : Reading s s') : Same s s' := by
  obtain ⟨⟨_, _, _, _, -, rfl⟩, -⟩ := reading
  exact ⟨⟨rfl, rfl, rfl⟩, rfl, rfl, rfl, rfl⟩

/-- Reading ahead does not tell sessions apart. -/
theorem Same.reading (same : Same s s') (reading : Reading s s₁) (reading' : Reading s' s₁') :
    Same s₁ s₁' :=
  (reading.same.symm.trans same).trans reading'.same

/-- Nor does a move that leaves plainly equal stacks. -/
theorem Same.restack (same : Same s s') (restacks : Restacks s s₁) (restacks' : Restacks s' s₁')
    (stack : s₁.stack.plain = s₁'.stack.plain) : Same s₁ s₁' := by
  obtain ⟨_, _, _, _, rfl⟩ := restacks
  obtain ⟨_, _, _, _, rfl⟩ := restacks'
  exact ⟨same.alike, stack, same.lookahead, same.failedAt, same.attempts⟩

theorem Same.topState (same : Same s s') : s.stack.topState = s'.stack.topState :=
  Stack.topState_same same.stack

theorem Same.topPosition (same : Same s s') : s.stack.topPosition = s'.stack.topPosition :=
  Stack.topPosition_same same.stack

theorem push_restacks (s : Session) (t : Subtree) (q : StateId) (epoch : Nat) :
    Restacks s (s.push t q epoch) :=
  ⟨_, _, _, _, rfl⟩

theorem Same.push (same : Same s s') (trees : t.plain = t'.plain) (q : StateId)
    (epoch epoch' : Nat) : Same (s.push t q epoch) (s'.push t' q epoch') :=
  same.restack (s.push_restacks t q epoch) (s'.push_restacks t' q epoch')
    (Stack.push_same same.stack trees q epoch epoch')

/-- Reading the next token does not tell sessions apart. -/
theorem Fetches.same {state : StateId} (fetches : s.Fetches state (some t) s') : Same s s' := by
  obtain ⟨_, _, _, _, _, rfl⟩ := fetches.frame_token
  exact ⟨⟨rfl, rfl, rfl⟩, rfl, rfl, rfl, rfl⟩

/-! ### Actions -/

/-- So few reductions in a row that none is refused. -/
def Few (s : Session) : Prop := s.reductions ≤ s.lang.table.stateCount

theorem Few.reading (few : s.Few) (reading : Reading s s') : s'.Few := by
  obtain ⟨⟨_, _, _, _, -, rfl⟩, -⟩ := reading
  exact few

theorem Few.within (few : s.Few) : ¬ s.reductions > s.reductionLimit := by
  have : s.reductions ≤ s.lang.table.stateCount := few
  rw [reductionLimit]
  omega

theorem action?_same (lang : s'.lang = s.lang) (few : s.Few) (few' : s'.Few) (q : StateId)
    (symbol : Symbol) : s.action? q symbol = s'.action? q symbol := by
  unfold Session.action?
  rw [lang]
  simp only [if_neg few.within, if_neg few'.within]

theorem Same.shift (same : Same s s') (tokens : t.plain = t'.plain) (q target : StateId)
    (extra : Bool) : Same (s.shift q target t extra) (s'.shift q target t' extra) :=
  same.restack (shift_restacks ..) (shift_restacks ..)
    (Stack.push_same same.stack (Subtree.placed_plain tokens ..) ..)

/-- What a reduction makes of the stack: a node over what is left, and the extras on it. -/
theorem reduce_stack (s : Session) (r : Reduction) {children : List Subtree} {under : Stack}
    (popped : (s.stack.popExtras.2.popCount r.count).1 = children)
    (left : (s.stack.popExtras.2.popCount r.count).2.2 = under) : ∃ info : Summary, ∃ epoch,
    info.plain = { (Summary.ofChildren s.lang r.symbol children r.production under.topState).plain with
      precedence := (Summary.ofChildren s.lang r.symbol children r.production
        under.topState).plain.precedence + r.precedence }
    ∧ (s.reduce r).stack
      = (under.push ⟨s.fresh, info, children⟩ (s.lang.next under.topState r.symbol) epoch).pushAll
          s.stack.popExtras.1 (s.lang.next under.topState r.symbol) s.epoch := by
  subst popped left
  exact ⟨_, _, rfl, rfl⟩

theorem Same.reduce (same : Same s s') (r : Reduction) : Same (s.reduce r) (s'.reduce r) := by
  refine same.restack (reduce_restacks s r) (reduce_restacks s' r) ?_
  obtain ⟨extras, rest⟩ := Stack.popExtras_same same.stack
  obtain ⟨children, under⟩ := Stack.popCount_same rest r.count
  generalize popped : (s.stack.popExtras.2.popCount r.count).1 = taken at children
  generalize popped' : (s'.stack.popExtras.2.popCount r.count).1 = taken' at children
  generalize left : (s.stack.popExtras.2.popCount r.count).2.2 = below at under
  generalize left' : (s'.stack.popExtras.2.popCount r.count).2.2 = below' at under
  obtain ⟨info, epoch, plain, stack⟩ := s.reduce_stack r popped left
  obtain ⟨info', epoch', plain', stack'⟩ := s'.reduce_stack r popped' left'
  rw [same.alike.1, ← Stack.topState_same under] at plain' stack'
  rw [← Summary.ofChildren_plain s.lang r.symbol r.production below.topState below.topState
    children] at plain'
  rw [stack, stack']
  exact Stack.pushAll_same
    (Stack.push_same under (Subtree.plain_ext (plain.trans plain'.symm) children) ..) extras ..

theorem Same.errorRoot (same : Same s s') {ts ts' : List Subtree}
    (trees : ts.map Subtree.plain = ts'.map Subtree.plain) :
    (s.errorRoot ts).plain = (s'.errorRoot ts').plain := by
  refine Subtree.plain_ext ?_ trees
  rw [same.alike.1]
  exact Summary.ofChildren_plain s.lang Symbol.error 0 s.stack.base s'.stack.base trees

theorem Same.accept (same : Same s s') : s.accept.1.plain = s'.accept.1.plain := by
  rw [accept_eq, accept_eq]
  obtain ⟨trailing, rest⟩ := Stack.popExtras_same same.stack
  have entries := congrArg Stack.entries rest
  rw [Stack.plain_entries, Stack.plain_entries] at entries
  generalize s.stack.popExtras.2.entries = rest at entries
  generalize s'.stack.popExtras.2.entries = rest' at entries
  cases rest with
  | nil =>
    rw [List.map_nil, eq_comm, List.map_eq_nil_iff] at entries
    rw [entries]
    exact same.errorRoot trailing
  | cons top below =>
    rw [List.map_cons, eq_comm, List.map_eq_cons_iff] at entries
    obtain ⟨top', below', rfl, first, entries⟩ := entries
    have tree : top'.tree.plain = top.tree.plain := congrArg Entry.tree first
    have none : below'.isEmpty = below.isEmpty := by
      rw [← List.isEmpty_map (f := Entry.plain), entries, List.isEmpty_map]
    have bare : s'.stack.popExtras.1.isEmpty = s.stack.popExtras.1.isEmpty := by
      rw [← List.isEmpty_map (f := Subtree.plain), ← trailing, List.isEmpty_map]
    have lower : (Stack.trees below').map Subtree.plain = (Stack.trees below).map Subtree.plain := by
      rw [← Stack.plain_trees, ← Stack.plain_trees, entries]
    unfold acceptedRoot
    dsimp only
    rw [none, bare]
    split
    · exact tree.symm
    · have children : (Stack.trees below ++ top.tree.children ++ s.stack.popExtras.1).map
            Subtree.plain
          = (Stack.trees below' ++ top'.tree.children ++ s'.stack.popExtras.1).map
            Subtree.plain := by
        simp only [List.map_append, lower, trailing, Subtree.children_of_plain tree]
      have info := Subtree.info_of_plain tree
      have production : top'.tree.info.plain.production = top.tree.info.plain.production := by
        rw [info]
      change top'.tree.info.production = top.tree.info.production at production
      refine Subtree.plain_ext ?_ children
      rw [same.alike.1, Subtree.symbol_of_plain tree, production]
      exact Summary.ofChildren_plain s.lang top.tree.symbol top.tree.info.production
        top.tree.info.parseState top'.tree.info.parseState children

end Session

/-! ### What a reduction takes -/

/-- Below the extras on top of a stack `r` takes just the children. -/
structure Reduction.Matches (r : Reduction) (children extras : List Subtree) : Prop where
  taken : ∃ taken rest, Stack.trees taken = children
    ∧ taken = Stack.takeCount r.count (taken ++ rest) ∧ (structural children).length = r.count
  regular : ∃ t, children.getLast? = some t ∧ t.extra = false
  allExtra : ∀ t ∈ extras, t.extra = true

/-- `t` is plainly what `r` makes of the children. -/
structure Reduction.Makes (r : Reduction) (lang : Language) (children : List Subtree)
    (t : Subtree) : Prop where
  children_eq : t.children = children
  info : ∃ q, t.info.plain
    = { (Summary.ofChildren lang r.symbol children r.production q).plain with
        precedence := (Summary.ofChildren lang r.symbol children r.production q).plain.precedence
          + r.precedence }

namespace Reduction

variable {r : Reduction} {lang : Language} {children extras : List Subtree} {t : Subtree}

theorem Makes.regular (makes : r.Makes lang children t) : t.extra = false := by
  obtain ⟨-, q, info⟩ := makes
  have extra : t.info.plain.extra = false := by
    rw [info]
    exact Summary.ofChildren_extra ..
  exact extra

theorem Makes.size_eq (makes : r.Makes lang children t) : t.size = total children := by
  obtain ⟨-, q, info⟩ := makes
  have size : t.info.plain.size = total children := by
    rw [info]
    exact Summary.ofChildren_size ..
  exact size

theorem Makes.after (makes : r.Makes lang children t) (q : StateId) :
    lang.after q t = lang.next q r.symbol := by
  have regular := makes.regular
  obtain ⟨-, q', info⟩ := makes
  have symbol : t.info.plain.symbol = r.symbol := by
    rw [info]
    exact Summary.ofChildren_symbol ..
  change t.symbol = r.symbol at symbol
  rw [Language.after, regular, if_neg Bool.false_ne_true, symbol]

/-- Where the children were pushed, and the extras on them, the stack comes apart so. -/
theorem Matches.popped (parts : r.Matches children extras) (lang : Language) (s : Stack) :
    ((s.follow lang children).follow lang extras).popExtras = (extras, s.follow lang children)
    ∧ ((s.follow lang children).popCount r.count).1 = children
    ∧ ((s.follow lang children).popCount r.count).2.2 = s := by
  obtain ⟨pushed, entries, trees⟩ := s.follow_entries lang children
  obtain ⟨taken, rest, is, taken_eq, counted⟩ := parts.taken
  rw [← is] at counted
  have all : Stack.takeCount r.count (s.follow lang children).entries = pushed := by
    rw [entries]
    exact Stack.takeCount_congr (trees.trans is.symm) taken_eq counted
  refine ⟨?_, ?_, ?_⟩
  · rw [Stack.follow_extras parts.allExtra]
    refine Stack.popExtras_pushAll parts.allExtra (fun e top => ?_) _ _
    obtain ⟨t, last, regular⟩ := parts.regular
    rw [← trees, Stack.trees, List.getLast?_reverse] at last
    cases pushed with
    | nil => cases last
    | cons e' pushed =>
      rw [entries] at top
      cases top
      cases last
      exact regular
  · rw [Stack.popCount, all]
    exact trees
  · rw [Stack.popCount, all]
    exact Stack.ext_entries Stack.follow_base (Stack.without_entries entries)

/-- A reduction puts the node in place of the children. -/
theorem Matches.reduce_stack (parts : r.Matches children extras) (makes : r.Makes lang children t)
    {n : Session} (lang_eq : n.lang = lang) {s : Stack}
    (stack : n.stack.plain = ((s.follow lang children).follow lang extras).plain) :
    (n.reduce r).stack.plain = ((s.follow lang [t]).follow lang extras).plain := by
  obtain ⟨popExtras, popped, left⟩ := parts.popped lang s
  generalize (s.follow lang children).follow lang extras = whole at stack popExtras
  have same : Session.Same n { n with stack := whole } := ⟨⟨rfl, rfl, rfl⟩, stack, rfl, rfl, rfl⟩
  have popped : (whole.popExtras.2.popCount r.count).1 = children := by
    rw [popExtras]
    exact popped
  have left : (whole.popExtras.2.popCount r.count).2.2 = s := by
    rw [popExtras]
    exact left
  obtain ⟨info, epoch, plain, reduced⟩ := Session.reduce_stack { n with stack := whole } r popped left
  dsimp only at plain reduced
  obtain ⟨q', is⟩ := makes.info
  have node : (⟨n.fresh, info, children⟩ : Subtree).plain = t.plain := by
    rw [Subtree.plain_mk, t.plain_eq, makes.children_eq, plain, is, lang_eq]
    rw [Summary.ofChildren_plain lang r.symbol r.production s.topState q' rfl]
  have top : (s.follow lang [t]).topState = lang.next s.topState r.symbol := makes.after s.topState
  rw [(same.reduce r).stack, reduced, popExtras, Stack.follow_extras parts.allExtra, top, lang_eq]
  refine Stack.pushAll_same ?_ rfl ..
  change _ = (s.push t (lang.after s.topState t) 0).plain
  rw [makes.after]
  exact Stack.push_same rfl node ..

end Reduction

namespace Session

variable {s : Session} {P : Nat → Subtree → Prop} {r : Reduction} {above taken : List Entry}
  {under : Stack}

theorem reducedNode_makes (s : Session) (r : Reduction) (taken : List Entry) (under : Stack) :
    r.Makes s.lang (Stack.trees taken) (s.reducedNode r taken under) :=
  ⟨rfl, under.topState, rfl⟩

/-- What a reduction takes led to the state on top. -/
theorem Reduces.after_taken (reduces : s.Reduces r above taken under)
    (settled : s.stack.Settled s.lang P) :
    (Stack.trees taken).foldl s.lang.after under.topState = s.stack.topState := by
  rw [Stack.after_over (reduces.over settled), Stack.stateOver_congr reduces.base,
    reduces.topState_eq settled]

/-- A reduction that finds as many subtrees as it counts, and some, takes just these. -/
theorem Reduces.parts (reduces : s.Reduces r above taken under) (inner : taken ≠ [])
    (counted : (structural (Stack.trees taken)).length = r.count) :
    r.Matches (Stack.trees taken) (Stack.trees above) where
  taken := ⟨taken, under.entries, rfl, reduces.taken_eq, counted⟩
  regular := by
    cases first : taken with
    | nil => exact absurd first inner
    | cons e rest =>
      refine ⟨e.tree, ?_, reduces.regular e (by rw [first]; rfl)⟩
      rw [Stack.trees_cons, List.getLast?_append]
      rfl
  allExtra := by
    intro t member
    obtain ⟨e, inAbove, rfl⟩ := Stack.mem_trees.mp member
    exact reduces.extras e inAbove

end Session

end Reparse
