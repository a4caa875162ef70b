import Reparse.Proofs.Tree.Coverage

/-!
What shows of a subtree: its visible children, and in the place of each hidden child what shows of
that.

The counts that a subtree keeps are the number of what shows of it and the number of what is named
of that, however it came about (`Subtree.Constructed.tallied`), so children by number are what shows
in order (`Node.child?_eq_shown`). Places are summed up from the sizes on the way and say nothing
about what shows: only counts are kept by an edit.
-/

namespace Reparse

namespace Subtree

/-! ### What is made of subtrees -/

/-- What comes of the constructors of subtrees in any language, of growing a subtree, of pushing it
in another state, of edits of any kind, and of what a parser notes down on a new node. -/
inductive Constructed : Subtree → Prop
  | leaf {stamp : Stamp} {lang : Language} {symbol : Symbol} {size : Extent} {lookahead : Nat}
      {parseState : StateId} {lexMode : LexMode} :
      Constructed (leaf stamp lang symbol size lookahead parseState lexMode)
  | missingLeaf {stamp : Stamp} {lang : Language} {symbol : Symbol} {parseState : StateId}
      {lexMode : LexMode} : Constructed (missingLeaf stamp lang symbol parseState lexMode)
  | node {stamp : Stamp} {lang : Language} {symbol : Symbol} {children : List Subtree}
      {production : ProductionId} {parseState : StateId} (made : ∀ c ∈ children, Constructed c) :
      Constructed (node stamp lang symbol children production parseState)
  | errorNode {stamp : Stamp} {lang : Language} {children : List Subtree} {parseState : StateId}
      (made : ∀ c ∈ children, Constructed c) :
      Constructed (errorNode stamp lang children parseState)
  | append {stamp : Stamp} {t : Subtree} {more : List Subtree} (made : Constructed t)
      (others : ∀ c ∈ more, Constructed c) : Constructed (append stamp t more)
  | placed {stamp : Stamp} {t : Subtree} {parseState : StateId} {extra : Bool}
      (made : Constructed t) : Constructed (t.placed stamp parseState extra)
  | edit {e : Edit} {stamp : Stamp} {t : Subtree} (made : Constructed t) :
      Constructed (t.edit e stamp).1
  | noted {stamp : Stamp} {t : Subtree} {precedence : Int} {fragile : Bool} {lookahead : Nat}
      (made : Constructed t) :
      Constructed ⟨stamp, { t.info with precedence, fragile, lookahead }, t.children⟩

/-- The children after an edit are the children before it, some of them edited. -/
theorem mem_editChildren {c : Subtree} {ts : List Subtree} {p : Pass} {fresh : Stamp}
    (member : c ∈ (editChildren p fresh ts).1) :
    c ∈ ts ∨ ∃ b ∈ ts, ∃ e stamp, c = (b.edit e stamp).1 := by
  induction ts generalizing p fresh with
  | nil => exact .inl member
  | cons t rest ih =>
    have later {p fresh} (member : c ∈ (editChildren p fresh rest).1) :
        c ∈ t :: rest ∨ ∃ b ∈ t :: rest, ∃ e stamp, c = (b.edit e stamp).1 :=
      (ih member).imp (List.mem_cons_of_mem t) fun ⟨b, before, edited⟩ =>
        ⟨b, List.mem_cons_of_mem t before, edited⟩
    rw [editChildren] at member
    split at member
    · rcases List.mem_cons.mp member with rfl | member
      · exact .inl List.mem_cons_self
      · exact later member
    · split at member
      · exact .inl member
      · rcases List.mem_cons.mp member with rfl | member
        · exact .inr ⟨t, List.mem_cons_self, _, _, rfl⟩
        · exact later member

/-- The children of what is made are made. -/
theorem Constructed.child {t c : Subtree} (made : Constructed t) (child : c ∈ t.children) :
    Constructed c := by
  induction made generalizing c with
  | leaf | missingLeaf => cases child
  | node made _ | errorNode made _ => exact made c child
  | append _ others ih _ => exact (List.mem_append.mp child).elim ih (others c)
  | placed _ ih =>
    rw [placed_children] at child
    exact ih child
  | @edit e stamp t _ ih =>
    obtain ⟨_, info, children⟩ := t
    rcases mem_editChildren child with child | ⟨b, before, e, stamp, rfl⟩
    · exact ih child
    · exact .edit (ih before)
  | noted _ ih => exact ih child

/-- What lies in a constructed subtree is constructed. -/
theorem Constructed.of_occurs {t u : Subtree} {x : Extent} (made : t.Constructed)
    (inside : Occurs u t x) : u.Constructed :=
  inside.hands_on (fun _ _ => Constructed.child) made

/-! ### What shows -/

mutual

/-- What shows of a subtree that starts at a position, in order, each with its own position. -/
def shown (position : Extent) : Subtree → List (Subtree × Extent)
  | ⟨_, _, children⟩ => shownAmong position children

def shownAmong (position : Extent) : List Subtree → List (Subtree × Extent)
  | [] => []
  | t :: rest =>
    (if t.visible then [(t, position)] else t.shown position)
      ++ shownAmong (position + t.size) rest

end

theorem shown_eq (t : Subtree) (position : Extent) :
    t.shown position = shownAmong position t.children := by
  cases t
  rfl

mutual

/-- What shows does not depend on the place. -/
theorem shown_subtrees (p q : Extent) : ∀ t : Subtree,
    (t.shown p).map Prod.fst = (t.shown q).map Prod.fst
  | ⟨_, _, children⟩ => shownAmong_subtrees p q children

theorem shownAmong_subtrees (p q : Extent) : ∀ ts : List Subtree,
    (shownAmong p ts).map Prod.fst = (shownAmong q ts).map Prod.fst
  | [] => rfl
  | t :: rest => by
    have along := shownAmong_subtrees (p + t.size) (q + t.size) rest
    rw [shownAmong, shownAmong, List.map_append, List.map_append, along]
    split
    · rfl
    · rw [shown_subtrees p q t]

end

mutual

/-- What shows of a subtree is visible. -/
theorem visible_of_mem_shown {c : Subtree × Extent} (position : Extent) : ∀ t : Subtree,
    c ∈ t.shown position → c.1.visible = true
  | ⟨_, _, children⟩, member => visible_of_mem_shownAmong position children member

theorem visible_of_mem_shownAmong {c : Subtree × Extent} (position : Extent) :
    ∀ ts : List Subtree, c ∈ shownAmong position ts → c.1.visible = true
  | [], member => by cases member
  | t :: rest, member => by
    rw [shownAmong] at member
    rcases List.mem_append.mp member with first | later
    · split at first
      next visible =>
        rw [List.mem_singleton.mp first]
        exact visible
      next => exact visible_of_mem_shown position t first
    · exact visible_of_mem_shownAmong (position + t.size) rest later

end

/-! ### What is counted -/

/-- The subtree knows how much shows of it. -/
def Counted (t : Subtree) : Prop := ∀ position, (t.shown position).length = t.info.visibleCount

/-- How much shows of a subtree, or how much of that is named. -/
def tallyShown (anonymous : Bool) (position : Extent) (t : Subtree) : Nat :=
  (t.shown position).countP fun c => Node.isRelevant anonymous c.1

def tallyAmong (anonymous : Bool) (position : Extent) (ts : List Subtree) : Nat :=
  (shownAmong position ts).countP fun c => Node.isRelevant anonymous c.1

/-- The subtree knows how much shows of it, or how much of that is named. -/
def Tallied (anonymous : Bool) (t : Subtree) : Prop :=
  ∀ position, t.tallyShown anonymous position = Node.relevantCount anonymous t

variable {anonymous : Bool} {t : Subtree}

theorem tallyShown_eq (t : Subtree) (position : Extent) :
    t.tallyShown anonymous position = tallyAmong anonymous position t.children := by
  rw [tallyShown, shown_eq, tallyAmong]

theorem tallyShown_anywhere (p q : Extent) (t : Subtree) :
    t.tallyShown anonymous p = t.tallyShown anonymous q := by
  have same := congrArg (List.countP (Node.isRelevant anonymous)) (shown_subtrees p q t)
  rwa [List.countP_map, List.countP_map] at same

theorem tallyAmong_nil (position : Extent) : tallyAmong anonymous position [] = 0 := rfl

theorem tallyAmong_cons (t : Subtree) (rest : List Subtree) (position : Extent) :
    tallyAmong anonymous position (t :: rest)
      = (if t.visible then (if Node.isRelevant anonymous t then 1 else 0)
          else t.tallyShown anonymous position)
        + tallyAmong anonymous (position + t.size) rest := by
  rw [tallyAmong, shownAmong, List.countP_append]
  split
  · rw [List.countP_singleton]
    rfl
  · rfl

theorem tallyAmong_append (a b : List Subtree) (position : Extent) :
    tallyAmong anonymous position (a ++ b)
      = tallyAmong anonymous position a + tallyAmong anonymous (position + total a) b := by
  induction a generalizing position with
  | nil => rw [total_nil, add_zero, tallyAmong_nil, Nat.zero_add, List.nil_append]
  | cons t a ih =>
    rw [List.cons_append, tallyAmong_cons, tallyAmong_cons, ih, total_cons, add_assoc,
      Nat.add_assoc]

end Subtree

namespace Summary

open Subtree (Tallied tallyAmong)

variable {anonymous : Bool} {t : Subtree} {ts more : List Subtree}

/-- How much is counted to show, or how much of that to be named. -/
def tally (anonymous : Bool) (s : Summary) : Nat :=
  if anonymous then s.visibleCount else s.namedCount

/-- A hidden leaf counts for nothing, whatever its own count is. -/
theorem add_tally (tallied : t.Tallied anonymous) (s : Summary) (position : Extent) :
    (s.add t).tally anonymous = s.tally anonymous + tallyAmong anonymous position [t] := by
  have below : t.isLeaf → Node.relevantCount anonymous t = 0 := by
    intro leaf
    rw [← tallied position, t.tallyShown_eq, List.isEmpty_iff.mp leaf]
    rfl
  rw [Subtree.tallyAmong_cons, Subtree.tallyAmong_nil, Nat.add_zero, tallied position]
  cases anonymous
  · by_cases visible : t.visible
    · simp [tally, add, Node.isRelevant, visible]
    · by_cases leaf : t.isLeaf
      · simp [tally, add, visible, leaf, below leaf]
      · simp [tally, add, visible, leaf, Node.relevantCount]
  · by_cases visible : t.visible
    · simp [tally, add, Node.isRelevant, visible]
    · by_cases leaf : t.isLeaf
      · simp [tally, add, visible, leaf, below leaf]
      · simp [tally, add, visible, leaf, Node.relevantCount]

theorem foldl_add_tally (tallied : ∀ c ∈ ts, c.Tallied anonymous) (s : Summary)
    (position : Extent) :
    (ts.foldl add s).tally anonymous = s.tally anonymous + tallyAmong anonymous position ts := by
  induction ts generalizing s position with
  | nil => rfl
  | cons t rest ih =>
    obtain ⟨first, others⟩ := List.forall_mem_cons.mp tallied
    rw [List.foldl_cons, ih others (s.add t) (position + t.size), add_tally first s position,
      Subtree.tallyAmong_cons, Subtree.tallyAmong_cons, Subtree.tallyAmong_nil, Nat.add_zero,
      Nat.add_assoc]

theorem append_tally (tallied : ∀ c ∈ more, c.Tallied anonymous) (s : Summary)
    (had : List Subtree) (position : Extent) :
    (s.append had more).tally anonymous
      = s.tally anonymous + tallyAmong anonymous position more := by
  rw [append_eq]
  exact foldl_add_tally tallied (s.opened had more) position

theorem ofChildren_tally (tallied : ∀ c ∈ ts, c.Tallied anonymous) (lang : Language)
    (symbol : Symbol) (production : ProductionId) (parseState : StateId) (position : Extent) :
    (ofChildren lang symbol ts production parseState).tally anonymous
      = tallyAmong anonymous position ts := by
  rw [ofChildren, append_tally tallied _ [] position]
  cases anonymous <;> exact Nat.zero_add _

end Summary

namespace Subtree

variable {anonymous : Bool} {t : Subtree}

mutual

theorem tallyShown_edit (e : Edit) (fresh : Stamp) (p q : Extent) : ∀ t : Subtree,
    (t.edit e fresh).1.tallyShown anonymous p = t.tallyShown anonymous q
  | ⟨_, _, children⟩ => tallyAmong_editChildren _ fresh p q children

/-- An edit changes neither what is visible and named nor how it lies in the tree. -/
theorem tallyAmong_editChildren (pass : Pass) (fresh : Stamp) (p q : Extent) :
    ∀ ts : List Subtree,
      tallyAmong anonymous p (editChildren pass fresh ts).1 = tallyAmong anonymous q ts
  | [] => rfl
  | t :: rest => by
    rw [editChildren]
    split
    · have along := tallyAmong_editChildren (pass.after t.size) fresh (p + t.size) (q + t.size)
        rest
      dsimp only
      rw [tallyAmong_cons, tallyAmong_cons, along, tallyShown_anywhere p q]
    · split
      · have same := congrArg (List.countP (Node.isRelevant anonymous))
          (shownAmong_subtrees p q (t :: rest))
        rwa [List.countP_map, List.countP_map] at same
      · have down := tallyShown_edit (pass.share t) fresh p q t
        have visible : (t.edit (pass.share t) fresh).1.visible = t.visible := by
          cases t
          rfl
        have relevant : Node.isRelevant anonymous (t.edit (pass.share t) fresh).1
            = Node.isRelevant anonymous t := by
          cases t
          rfl
        dsimp only
        rw [tallyAmong_cons, tallyAmong_cons, visible, relevant, down,
          tallyAmong_editChildren _ _ _ (q + t.size) rest]

end

/-- Whatever is made of subtrees knows how much shows of it, and how much of that is named. -/
theorem Constructed.tallied (made : Constructed t) (anonymous : Bool) : t.Tallied anonymous := by
  induction made with
  | leaf | missingLeaf =>
    intro position
    cases anonymous <;> rfl
  | node _ ih | errorNode _ ih =>
    intro position
    exact (Summary.ofChildren_tally ih _ _ _ _ position).symm
  | @append stamp t more _ _ ih others =>
    intro position
    have had := ih position
    rw [tallyShown_eq] at had ⊢
    change tallyAmong anonymous position (t.children ++ more) = _
    rw [tallyAmong_append, had]
    exact (Summary.append_tally others t.info t.children _).symm
  | @placed stamp t _ _ _ ih =>
    intro position
    rw [tallyShown_eq, placed_children, ← tallyShown_eq, ih position]
    unfold Subtree.placed
    split <;> rfl
  | @edit e stamp t _ ih =>
    intro position
    rw [tallyShown_edit e stamp position position t, ih position]
    cases t
    rfl
  | @noted stamp t _ _ _ _ ih =>
    intro position
    rw [tallyShown_eq, ← tallyShown_eq t, ih position]
    rfl

/-- All that shows counts unless only what is named does. -/
theorem relevant_of_mem_shown {c : Subtree × Extent} {position : Extent}
    (member : c ∈ t.shown position) : Node.isRelevant true c.1 = true := by
  simp [Node.isRelevant, visible_of_mem_shown position t member]

theorem Constructed.counted (made : Constructed t) : t.Counted := by
  intro position
  have all : t.tallyShown true position = (t.shown position).length :=
    List.countP_eq_length.mpr fun _ => relevant_of_mem_shown
  rw [← all]
  exact made.tallied true position

/-! ### Children by number -/

mutual

/-- Counting children off finds the one of that number among what shows, or among what is named of
it if nothing else that shows has named children of its own. -/
theorem childIn_eq_shown (anonymous : Bool) (position : Extent) (index : Nat) : ∀ t : Subtree,
    t.Constructed → (∀ c ∈ t.shown position, Node.isRelevant anonymous c.1 = false →
        Node.relevantCount anonymous c.1 = 0) →
    Node.childIn anonymous position index t
      = ((t.shown position).filter fun c => Node.isRelevant anonymous c.1)[index]?
  | ⟨_, _, children⟩, made, plain =>
    childAmong_eq_shown anonymous position index children (fun _ => made.child) plain

theorem childAmong_eq_shown (anonymous : Bool) (position : Extent) (index : Nat) :
    ∀ ts : List Subtree, (∀ c ∈ ts, c.Constructed) →
      (∀ c ∈ shownAmong position ts, Node.isRelevant anonymous c.1 = false →
        Node.relevantCount anonymous c.1 = 0) →
      Node.childAmong anonymous position index ts
        = ((shownAmong position ts).filter fun c => Node.isRelevant anonymous c.1)[index]?
  | [], _, _ => rfl
  | t :: rest, made, plain => by
    obtain ⟨first, others⟩ := List.forall_mem_cons.mp made
    rw [shownAmong] at plain
    obtain ⟨here, later⟩ := List.forall_mem_append.mp plain
    have along (index : Nat) :=
      childAmong_eq_shown anonymous (position + t.size) index rest others later
    rw [Node.childAmong, shownAmong, List.filter_append, along, along]
    by_cases visible : t.visible
    · rw [if_pos visible] at here ⊢
      by_cases relevant : Node.isRelevant anonymous t
      · simp [relevant, List.getElem?_cons]
      · -- It shows and does not count, so nothing may be counted below it.
        have none := here (t, position) (List.mem_singleton_self _) (Bool.eq_false_iff.mpr relevant)
        simp [relevant, none]
    · have irrelevant : ¬ Node.isRelevant anonymous t = true := by simp [Node.isRelevant, visible]
      rw [if_neg visible] at here ⊢
      have down := childIn_eq_shown anonymous position index t first here
      have count : Node.relevantCount anonymous t
          = ((t.shown position).filter fun c => Node.isRelevant anonymous c.1).length := by
        rw [← List.countP_eq_length_filter]
        exact (first.tallied anonymous position).symm
      rw [if_neg irrelevant, down, count]
      split
      next below => rw [List.getElem?_append_left below]
      next past => rw [List.getElem?_append_right (Nat.not_lt.mp past)]

end

end Subtree

/-! ### Nodes -/

/-- The nodes of a constructed tree are constructed. -/
theorem Tree.Holds.constructed {t : Tree} (made : t.root.Constructed) {n : Node}
    (holds : t.Holds n) : n.subtree.Constructed :=
  made.of_occurs holds.occurs

namespace Node

/-- The nodes that show of a node, in order. -/
def shown (n : Node) : List Node := (n.subtree.shown n.position).map n.locate

variable {n : Node}

theorem childCount_eq_shown (made : n.subtree.Constructed) : n.childCount = n.shown.length := by
  rw [shown, List.length_map, made.counted, childCount]

end Node

end Reparse
