import Reparse.Proofs.Syntax.Edit
import Reparse.Proofs.Tree.Preorder

/-!
Nodes lie within one another.

In a tree made by the constructors of subtrees and by edits that its text can take, every subtree
has room for its children (`Subtree.Assembled.nested`). Edits of trees are such edits
(`Tree.edit_assembled`). An edit may leave more room than the children need: what is inserted where
no child touches it belongs to the parent alone. It never leaves less, so what lies below a node
lies within the bytes of the node (`Subtree.Nested.place_within`).
-/

namespace Reparse

open Subtree (total total_cons Occurs OccursIn Everywhere EverywhereIn)

namespace Subtree

variable {t u : Subtree} {ts : List Subtree} {x position : Extent}

/-! ### Room for the children -/

/-- Every subtree has room for its children. -/
def Nested (t : Subtree) : Prop := Everywhere (fun _ => Roomy) 0 t

/-- Subtrees side by side, in each of which every subtree has room for its children. -/
def NestedIn (ts : List Subtree) : Prop := EverywhereIn (fun _ => Roomy) 0 ts

theorem nested_iff : t.Nested ↔ t.Roomy ∧ NestedIn t.children := everywhere_iff

theorem nestedIn_nil : NestedIn [] := everywhereIn_nil

theorem nestedIn_cons : NestedIn (t :: ts) ↔ t.Nested ∧ NestedIn ts := everywhereIn_cons

theorem nestedIn_append {more : List Subtree} :
    NestedIn (ts ++ more) ↔ NestedIn ts ∧ NestedIn more := everywhereIn_append

theorem nestedIn_iff : NestedIn ts ↔ ∀ c ∈ ts, c.Nested := by
  induction ts with
  | nil => simp [nestedIn_nil]
  | cons t rest ih => rw [nestedIn_cons, ih, List.forall_mem_cons]

theorem Nested.child {c : Subtree} (nested : t.Nested) (child : c ∈ t.children) : c.Nested :=
  nestedIn_iff.mp (nested_iff.mp nested).2 c child

theorem Nested.of_occurs (nested : t.Nested) (inside : Occurs u t x) : u.Nested :=
  Everywhere.of_occurs nested inside

/-- What lies below a subtree lies within its bytes. -/
theorem Nested.within (nested : t.Nested) (inside : Occurs u t x) :
    x.bytes + u.size.bytes ≤ t.size.bytes :=
  Everywhere.within nested inside

theorem NestedIn.within (nested : NestedIn ts) (inside : OccursIn u ts x) :
    x.bytes + u.size.bytes ≤ (total ts).bytes := by
  obtain ⟨before, t, after, y, rfl, rfl, inT⟩ := inside.split
  have here : t.Nested := nestedIn_iff.mp nested t (by simp)
  have := here.within inT
  rw [total_append, total_cons]
  simp only [Extent.add_bytes]
  omega

/-! ### Edits -/

/-- What an edit makes of the children from one of them on, when the first will start at `now` and
the parent had `size` bytes. -/
structure RoomIn (e : Edit) (size now : Nat) (new : List Subtree) : Prop where
  bytes_le : now + (total new).bytes ≤ e.resized size
  nested : NestedIn new

mutual

/-- An edit that a text can take leaves room for all children. -/
theorem edit_nested {e : Edit} (fresh : Stamp) : ∀ t : Subtree, e.Fits t.size.bytes → t.Nested →
    (t.edit e fresh).1.Nested
  | ⟨_, info, children⟩, fits, nested => by
    obtain ⟨roomy, below⟩ := nested_iff.mp nested
    have room : (0 : Extent).bytes + (total children).bytes ≤ info.size.bytes :=
      (Nat.zero_add _).trans_le roomy
    have edited := editChildren_nested fits (Pass.stage_start e) fresh children room below
    refine nested_iff.mpr ⟨?_, edited.nested⟩
    have bytes_le := edited.bytes_le
    rw [Nat.zero_add, ← e.resize_bytes] at bytes_le
    exact bytes_le

theorem editChildren_nested {e : Edit} {size now : Nat} {p : Pass} (fits : e.Fits size)
    (stage : p.Stage e now) (fresh : Stamp) : ∀ ts : List Subtree,
      p.left.bytes + (total ts).bytes ≤ size → NestedIn ts →
      RoomIn e size now (editChildren p fresh ts).1
  | [], room, _ => by
    have ordered := fits.start_le_oldStop
    have grows := fits.start_le_newStop
    refine ⟨?_, nestedIn_nil⟩
    simp only [editChildren, total_nil, Extent.zero_bytes, Edit.resized] at room ⊢
    cases stage with
    | owing _ _ place before _ => split <;> omega
    | paid _ _ _ after place => split <;> omega
  | t :: rest, room, nested => by
    obtain ⟨first, others⟩ := nestedIn_cons.mp nested
    rw [total_cons, Extent.add_bytes] at room
    rw [editChildren]
    split
    next isBefore =>
      obtain ⟨place, -, next⟩ := stage.owing_of_isBefore isBefore
      have along := editChildren_nested fits next fresh rest
        (by simp only [Pass.after, Extent.add_bytes]; omega) others
      have bytes_le := along.bytes_le
      refine ⟨?_, nestedIn_cons.mpr ⟨first, along.nested⟩⟩
      dsimp only
      rw [total_cons, Extent.add_bytes]
      omega
    next =>
      split
      next isAfter =>
        obtain ⟨place, after, -⟩ := stage.paid_of_isAfter fits isAfter
        have ordered := fits.start_le_oldStop
        have grows := fits.start_le_newStop
        refine ⟨?_, nested⟩
        rw [total_cons, Extent.add_bytes, Edit.resized]
        split <;> omega
      next notAfter =>
        have shared := stage.shared fits notAfter (by omega)
        have edited := edit_nested fresh t shared.fits first
        have size_eq : (t.edit (p.share t) fresh).1.size.bytes
            = (p.share t).resized t.size.bytes := by
          cases t
          exact Edit.resize_bytes _ _
        have left : ((p.settle t).after t.size).left.bytes = p.left.bytes + t.size.bytes := by
          rw [Pass.after_settle_left, Extent.add_bytes]
        have along := editChildren_nested fits shared.next (t.edit (p.share t) fresh).2 rest
          (by omega) others
        have bytes_le := along.bytes_le
        refine ⟨?_, nestedIn_cons.mpr ⟨edited, along.nested⟩⟩
        dsimp only
        rw [total_cons, Extent.add_bytes, size_eq]
        omega

end

/-! ### What is made of subtrees -/

/-- What comes of the constructors of subtrees in any language, of growing a subtree, of pushing it
in another state, of edits that its text can take, and of what a parser notes down on a new node. -/
inductive Assembled : Subtree → Prop
  | leaf {stamp : Stamp} {lang : Language} {symbol : Symbol} {size : Extent} {lookahead : Nat}
      {parseState : StateId} {lexMode : LexMode} :
      Assembled (leaf stamp lang symbol size lookahead parseState lexMode)
  | missingLeaf {stamp : Stamp} {lang : Language} {symbol : Symbol} {parseState : StateId}
      {lexMode : LexMode} : Assembled (missingLeaf stamp lang symbol parseState lexMode)
  | node {stamp : Stamp} {lang : Language} {symbol : Symbol} {children : List Subtree}
      {production : ProductionId} {parseState : StateId} (made : ∀ c ∈ children, Assembled c) :
      Assembled (node stamp lang symbol children production parseState)
  | errorNode {stamp : Stamp} {lang : Language} {children : List Subtree} {parseState : StateId}
      (made : ∀ c ∈ children, Assembled c) :
      Assembled (errorNode stamp lang children parseState)
  | append {stamp : Stamp} {t : Subtree} {more : List Subtree} (made : Assembled t)
      (others : ∀ c ∈ more, Assembled c) : Assembled (append stamp t more)
  | placed {stamp : Stamp} {t : Subtree} {parseState : StateId} {extra : Bool}
      (made : Assembled t) : Assembled (t.placed stamp parseState extra)
  | edit {e : Edit} {stamp : Stamp} {t : Subtree} (made : Assembled t)
      (fits : e.Fits t.size.bytes) : Assembled (t.edit e stamp).1
  | noted {stamp : Stamp} {t : Subtree} {precedence : Int} {fragile : Bool} {lookahead : Nat}
      (made : Assembled t) :
      Assembled ⟨stamp, { t.info with precedence, fragile, lookahead }, t.children⟩

theorem Assembled.constructed (made : Assembled t) : Constructed t := by
  induction made with
  | leaf => exact .leaf
  | missingLeaf => exact .missingLeaf
  | node _ ih => exact .node ih
  | errorNode _ ih => exact .errorNode ih
  | append _ _ ih others => exact .append ih others
  | placed _ ih => exact .placed ih
  | edit _ _ ih => exact .edit ih
  | noted _ ih => exact .noted ih

/-- What is derived from the children does not matter, only that they are no longer together. -/
theorem Nested.of_children {stamp : Stamp} {info : Summary} {children : List Subtree}
    (room : (total children).bytes ≤ info.size.bytes) (below : ∀ c ∈ children, c.Nested) :
    Nested ⟨stamp, info, children⟩ :=
  nested_iff.mpr ⟨room, nestedIn_iff.mpr below⟩

/-- All that is assembled has room for its children. -/
theorem Assembled.nested (made : Assembled t) : t.Nested := by
  induction made with
  | leaf | missingLeaf => exact .of_children (Nat.zero_le _) nofun
  | node _ ih =>
    refine .of_children ?_ ih
    rw [Summary.ofChildren_size]
  | @errorNode _ lang children _ _ ih =>
    refine .of_children ?_ ih
    change (total children).bytes ≤ (Summary.ofChildren lang Symbol.error children 0 _).size.bytes
    rw [Summary.ofChildren_size]
  | @append stamp t more _ _ ih others =>
    obtain ⟨room, below⟩ := nested_iff.mp ih
    refine nested_iff.mpr ⟨?_, nestedIn_append.mpr ⟨below, nestedIn_iff.mpr others⟩⟩
    change (total (t.children ++ more)).bytes ≤ (t.info.append t.children more).size.bytes
    rw [Summary.append_size, total_append]
    exact Nat.add_le_add_right room _
  | placed _ ih =>
    obtain ⟨room, below⟩ := nested_iff.mp ih
    refine nested_iff.mpr ⟨?_, ?_⟩
    · rwa [Roomy, placed_children, placed_size]
    · rwa [placed_children]
  | edit _ fits ih => exact edit_nested _ _ fits ih
  | noted _ ih =>
    obtain ⟨room, below⟩ := nested_iff.mp ih
    exact nested_iff.mpr ⟨room, below⟩

/-! ### All places -/

mutual

/-- All subtrees of one that starts at a position, itself first, each with its own position. -/
def places (position : Extent) : Subtree → List (Subtree × Extent)
  | ⟨stamp, info, children⟩ => (⟨stamp, info, children⟩, position) :: placesAmong position children

def placesAmong (position : Extent) : List Subtree → List (Subtree × Extent)
  | [] => []
  | t :: rest => t.places position ++ placesAmong (position + t.size) rest

end

theorem places_eq (t : Subtree) (position : Extent) :
    t.places position = (t, position) :: placesAmong position t.children := by
  cases t
  rfl

theorem placesAmong_eq (position : Extent) (ts : List Subtree) :
    placesAmong position ts = (Node.placed position ts).flatMap fun c => c.1.places c.2 := by
  induction ts generalizing position with
  | nil => rfl
  | cons t rest ih => rw [placesAmong, Node.placed, List.flatMap_cons, ih]

mutual

/-- As many as the subtree counts. -/
theorem length_places (position : Extent) : ∀ t : Subtree, (t.places position).length = t.count
  | ⟨_, _, children⟩ => congrArg (· + 1) (length_placesAmong position children)

theorem length_placesAmong (position : Extent) : ∀ ts : List Subtree,
    (placesAmong position ts).length = countAll ts
  | [] => rfl
  | t :: rest => by
    rw [placesAmong, List.length_append, length_places position t,
      length_placesAmong (position + t.size) rest, countAll]

end

mutual

/-- What stands at a place lies there. -/
theorem occurs_of_mem_places {c : Subtree × Extent} (position : Extent) : ∀ t : Subtree,
    c ∈ t.places position → ∃ x, Occurs c.1 t x ∧ c.2 = position + x
  | ⟨_, _, children⟩, member => by
    rw [places_eq] at member
    rcases List.mem_cons.mp member with rfl | member
    · exact ⟨0, .here, (add_zero _).symm⟩
    · obtain ⟨x, inside, place⟩ := occurs_of_mem_placesAmong position children member
      exact ⟨x, .under inside, place⟩

theorem occurs_of_mem_placesAmong {c : Subtree × Extent} (position : Extent) :
    ∀ ts : List Subtree, c ∈ placesAmong position ts → ∃ x, OccursIn c.1 ts x ∧ c.2 = position + x
  | [], member => by cases member
  | t :: rest, member => by
    rw [placesAmong] at member
    rcases List.mem_append.mp member with here | later
    · obtain ⟨x, inside, place⟩ := occurs_of_mem_places position t here
      exact ⟨x, .head inside, place⟩
    · obtain ⟨x, inside, place⟩ := occurs_of_mem_placesAmong (position + t.size) rest later
      exact ⟨t.size + x, .tail inside, by rw [place, add_assoc]⟩

end

mutual

/-- What is visible below a subtree is what is visible of all places below it. -/
theorem visibleBelow_eq_filter (position : Extent) : ∀ t : Subtree,
    t.visibleBelow position = (placesAmong position t.children).filter (·.1.visible)
  | ⟨_, _, children⟩ => visibleAmong_eq_filter position children

theorem visibleAmong_eq_filter (position : Extent) : ∀ ts : List Subtree,
    visibleAmong position ts = (placesAmong position ts).filter (·.1.visible)
  | [] => rfl
  | t :: rest => by
    have below := visibleBelow_eq_filter position t
    have along := visibleAmong_eq_filter (position + t.size) rest
    rw [visibleAmong, placesAmong, places_eq, below, along, List.filter_append, List.filter_cons]
    split <;> rfl

end

/-- What shows of a subtree comes in order among what is visible below it. -/
theorem shown_sublist_visibleBelow (t : Subtree) (position : Extent) :
    (t.shown position).Sublist (t.visibleBelow position) := by
  rw [visibleBelow_eq]
  induction t.shown position with
  | nil => exact .slnil
  | cons c rest ih =>
    rw [List.flatMap_cons, List.cons_append]
    exact (ih.trans (List.sublist_append_right _ _)).cons_cons c

/-! ### What lies within -/

variable {c : Subtree × Extent}

theorem NestedIn.place_within (nested : NestedIn ts) (member : c ∈ placesAmong position ts) :
    position.bytes ≤ c.2.bytes
      ∧ c.2.bytes + c.1.size.bytes ≤ position.bytes + (total ts).bytes := by
  obtain ⟨x, inside, place⟩ := occurs_of_mem_placesAmong position ts member
  have within := nested.within inside
  rw [place, Extent.add_bytes]
  omega

/-- What lies below a subtree lies within its bytes. -/
theorem Nested.place_within (nested : t.Nested) (member : c ∈ placesAmong position t.children) :
    position.bytes ≤ c.2.bytes
      ∧ c.2.bytes + c.1.size.bytes ≤ position.bytes + t.size.bytes := by
  obtain ⟨room, below⟩ := nested_iff.mp nested
  obtain ⟨first, last⟩ := below.place_within member
  exact ⟨first, Nat.le_trans last (Nat.add_le_add_left room _)⟩

theorem NestedIn.visible_within (nested : NestedIn ts) (member : c ∈ visibleAmong position ts) :
    position.bytes ≤ c.2.bytes
      ∧ c.2.bytes + c.1.size.bytes ≤ position.bytes + (total ts).bytes := by
  rw [visibleAmong_eq_filter] at member
  exact nested.place_within (List.mem_of_mem_filter member)

/-- So does what is visible below it. -/
theorem Nested.visible_within (nested : t.Nested) (member : c ∈ t.visibleBelow position) :
    position.bytes ≤ c.2.bytes
      ∧ c.2.bytes + c.1.size.bytes ≤ position.bytes + t.size.bytes := by
  rw [visibleBelow_eq_filter] at member
  exact nested.place_within (List.mem_of_mem_filter member)

end Subtree

/-! ### Nodes -/

theorem Node.placed_of_split (position : Extent) (before : List Subtree) (c : Subtree)
    (after : List Subtree) :
    (c, position + total before) ∈ Node.placed position (before ++ c :: after) := by
  induction before generalizing position with
  | nil => simp [Node.placed]
  | cons t before ih =>
    rw [List.cons_append, Node.placed, total_cons, ← add_assoc]
    exact List.mem_cons_of_mem _ (ih (position + t.size))

/-- Induction over nodes by way of their direct children. -/
theorem Node.induction {motive : Node → Prop}
    (node : ∀ n : Node, (∀ c ∈ n.direct, motive c) → motive n) (n : Node) : motive n := by
  obtain ⟨tree, subtree, position⟩ := n
  induction subtree using Subtree.induction generalizing position with
  | node s ih =>
    refine node _ fun c child => ?_
    obtain ⟨⟨u, p⟩, member, rfl⟩ := List.mem_map.mp child
    obtain ⟨before, after, children, -⟩ := Node.mem_placed member
    have children : s.children = before ++ u :: after := children
    exact ih u (by simp [children]) p

/-- All that lies below a node of a tree is a node of the tree. -/
theorem Tree.Holds.occurring {t : Tree} {u : Subtree} {x : Extent} {n : Node} (holds : t.Holds n)
    (inside : Occurs u n.subtree x) : t.Holds (n.locate (u, n.position + x)) := by
  induction n using Node.induction generalizing x with
  | node n ih =>
    rcases Subtree.occurs_iff.mp inside with ⟨rfl, rfl⟩ | inside
    · rw [add_zero]
      exact holds
    · obtain ⟨before, c, after, y, children, rfl, inC⟩ := inside.split
      have child : (c, n.position + total before) ∈ Node.placed n.position n.subtree.children := by
        rw [children]
        exact Node.placed_of_split n.position before c after
      have direct := List.mem_map_of_mem (f := n.locate) child
      have := ih _ direct (.direct holds direct) inC
      rwa [← add_assoc]

/-- The nodes of a tree have room for their children if all of the tree has. -/
theorem Tree.Holds.nested {t : Tree} (nested : t.root.Nested) {n : Node} (holds : t.Holds n) :
    n.subtree.Nested :=
  nested.of_occurs holds.occurs

/-- So do the nodes of a tree in which all are as long as their children together. -/
theorem Tree.Holds.nested_of_sums {t : Tree}
    (sums : ∀ m, t.Holds m → m.subtree.children ≠ [] →
      m.subtree.size.bytes = (total m.subtree.children).bytes) {n : Node} (holds : t.Holds n) :
    n.subtree.Nested := by
  intro u x inside
  exact .of_bytes_eq (sums _ (holds.occurring inside))

/-- An edit of a tree is cut down to what the text can take. -/
theorem Tree.edit_assembled {t : Tree} (made : t.root.Assembled) (e : InputEdit) (fresh : Stamp) :
    (t.edit e fresh).1.root.Assembled :=
  .edit made (e.within_fits t.root.size)

theorem Tree.ofHoisted_assembled : ofHoisted.root.Assembled :=
  .node <| List.forall_mem_cons.mpr ⟨.node nofun, List.forall_mem_cons.mpr
    ⟨.node <| List.forall_mem_cons.mpr ⟨.leaf, List.forall_mem_singleton.mpr .leaf⟩,
      List.forall_mem_singleton.mpr (.placed .leaf)⟩⟩

end Reparse
