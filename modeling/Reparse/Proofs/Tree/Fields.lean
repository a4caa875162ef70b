import Mathlib
import Reparse.Proofs.Tree.Seeking

/-!
Children by field.

A cursor reads the field of where it is off the frames above it, and a node looks for the child of
a field along its production. As long as hidden children hand out no fields of their own, both go
by the direct child that a child shows through: the children that a cursor reports in a field are
what shows of the direct children that the production puts there (`Node.labelled_eq`). The search
ends at the first of those, whether or not anything shows of it
(`Tree.ofOptional_field_astray`). If something does, it is the first child in the field
(`Tree.childByFieldId?_first`).
-/

namespace Reparse

open Subtree (Constructed shown shownAmong veils veilsAmong)

/-! ### Productions -/

namespace Language

variable {lang : Language} {production : ProductionId} {field : FieldId} {index : Nat}

/-- A production that gives fields to its children itself, and to each child one at most. -/
structure GivesFields (lang : Language) (production : ProductionId) : Prop where
  own : ∀ e ∈ lang.fieldMap production, e.inherited = false
  once : ((lang.fieldMap production).map (·.child)).Nodup

/-- The entries of a field in a production. -/
def entriesOf (lang : Language) (production : ProductionId) (field : FieldId) : List FieldEntry :=
  (lang.fieldMap production).filter (·.field == field)

theorem GivesFields.ownField?_eq (gives : lang.GivesFields production) {e : FieldEntry}
    (member : e ∈ lang.fieldMap production) :
    lang.ownField? production e.child.toNat = some e.field := by
  have fits : (!e.inherited && e.child.toNat == e.child.toNat) = true := by
    simp [gives.own e member]
  cases found : (lang.fieldMap production).find?
      fun e' => !e'.inherited && e'.child.toNat == e.child.toNat with
  | none => exact absurd fits (List.find?_eq_none.mp found e member)
  | some e' =>
    have same : e'.child = e.child := by
      have := List.find?_some found
      simp only [Bool.and_eq_true, beq_iff_eq] at this
      exact UInt8.toNat_inj.mp this.2
    obtain rfl := List.inj_on_of_nodup_map gives.once (List.mem_of_find?_eq_some found) member same
    rw [ownField?, found, Option.map_some]

/-- What the search finds in the entries of a field is what the cursor finds in all of them. -/
theorem GivesFields.entry_isSome (gives : lang.GivesFields production) :
    ((lang.entriesOf production field).find? (·.child.toNat == index)).isSome
      ↔ lang.ownField? production index = some field := by
  rw [List.find?_isSome]
  constructor
  · rintro ⟨e, member, at_index⟩
    obtain ⟨member, is⟩ := List.mem_filter.mp member
    rw [← beq_iff_eq.mp at_index, ← beq_iff_eq.mp is]
    exact gives.ownField?_eq member
  · intro own
    obtain ⟨e, found, is⟩ := Option.map_eq_some_iff.mp own
    have fits := List.find?_some found
    simp only [Bool.and_eq_true] at fits
    exact ⟨e, List.mem_filter.mpr ⟨List.mem_of_find?_eq_some found, beq_iff_eq.mpr is⟩, fits.2⟩

end Language

/-! ### Fields of what shows -/

theorem Subtree.veils_eq (t : Subtree) (position : Extent) :
    t.veils position = veilsAmong position t.children := by
  cases t
  rfl

/-- A hidden subtree that gives nothing that shows of it a field of its own nor keeps one from it. -/
structure Subtree.HandsOn (lang : Language) (t : Subtree) : Prop where
  bare : t.children ≠ [] → lang.fieldMap t.info.production = []
  regular : ∀ c ∈ t.children, c.extra = false

namespace Cursor

variable {lang : Language} {f g : Frame} {above w : List Frame}

theorem fieldOf_cons (lang : Language) (innermost : Bool) (f g : Frame) (above : List Frame) :
    fieldOf lang innermost (f :: g :: above)
      = if (!innermost && f.subtree.visible) || f.subtree.extra then none
        else lang.ownField? g.subtree.info.production f.index <|> fieldOf lang false (g :: above) :=
  rfl

theorem fieldOf_innermost (lang : Language) :
    fieldOf lang true (f :: g :: above)
      = if f.subtree.extra then none
        else
          lang.ownField? g.subtree.info.production f.index <|> fieldOf lang false (g :: above) := by
  rw [fieldOf_cons]
  simp

/-- A hidden frame hands its field on. -/
theorem fieldOf_hidden (lang : Language) (hidden : f.subtree.visible = false) :
    fieldOf lang false (f :: g :: above) = fieldOf lang true (f :: g :: above) := by
  rw [fieldOf_cons, fieldOf_cons, hidden]
  rfl

/-- A visible frame keeps its field to itself. -/
theorem fieldOf_visible (lang : Language) (visible : f.subtree.visible = true) :
    fieldOf lang false (f :: g :: above) = none := by
  rw [fieldOf_cons, visible]
  rfl

theorem ownField?_bare {production : ProductionId} (bare : lang.fieldMap production = [])
    (index : Nat) : lang.ownField? production index = none := by
  rw [Language.ownField?, bare]
  rfl

mutual

/-- All that shows of a hidden subtree is in the field that the subtree is in. -/
theorem fieldOf_waysDown (position : Extent) (f : Frame) (above : List Frame) : ∀ t : Subtree,
    f.subtree = t → t.HandsOn lang → (∀ h ∈ t.veils position, h.1.HandsOn lang) →
      ∀ w ∈ waysDown position (f :: above) t, fieldOf lang true w = fieldOf lang false (f :: above)
  | ⟨_, _, children⟩, is, hands, veiled =>
    fieldOf_waysAmong position 0 f above children (fun some => by rw [is]; exact hands.bare some)
      hands.regular veiled

theorem fieldOf_waysAmong (position : Extent) (index : Nat) (f : Frame) (above : List Frame) :
    ∀ ts : List Subtree, (ts ≠ [] → lang.fieldMap f.subtree.info.production = []) →
      (∀ c ∈ ts, c.extra = false) → (∀ h ∈ veilsAmong position ts, h.1.HandsOn lang) →
      ∀ w ∈ waysAmong position index (f :: above) ts,
        fieldOf lang true w = fieldOf lang false (f :: above)
  | [], _, _, _ => nofun
  | t :: rest, bare, regular, veiled => by
    obtain ⟨here, later⟩ := List.forall_mem_cons.mp regular
    have none := ownField?_bare (bare (List.cons_ne_nil t rest)) index
    rw [veilsAmong] at veiled
    obtain ⟨inside, along⟩ := List.forall_mem_append.mp veiled
    rw [waysAmong_cons, List.forall_mem_append]
    refine ⟨?_, fieldOf_waysAmong _ _ f above rest (fun _ => bare (List.cons_ne_nil t rest)) later
      along⟩
    rw [waysInto]
    by_cases visible : t.visible
    · rw [if_pos visible, List.forall_mem_singleton, fieldOf_innermost]
      simp [here, none]
    · rw [if_neg visible] at inside ⊢
      obtain ⟨hands, below⟩ := List.forall_mem_cons.mp inside
      intro w member
      rw [fieldOf_waysDown position ⟨t, position, index, rest⟩ (f :: above) t rfl hands below w
        member, fieldOf_hidden _ (Bool.eq_false_iff.mpr visible), fieldOf_innermost]
      simp [here, none]

end

/-- What shows of a child of a node is in the field that the node gives to the child. -/
theorem fieldOf_waysInto (hands : f.subtree.visible = false → f.subtree.HandsOn lang
      ∧ ∀ h ∈ f.subtree.veils f.position, h.1.HandsOn lang) :
    ∀ w ∈ waysInto [f, g], fieldOf lang true w
      = if f.subtree.extra then none else lang.ownField? g.subtree.info.production f.index := by
  have given : fieldOf lang true [f, g]
      = if f.subtree.extra then none else lang.ownField? g.subtree.info.production f.index := by
    have last : fieldOf lang false [g] = none := rfl
    rw [fieldOf_innermost, last]
    simp
  rw [waysInto]
  by_cases visible : f.subtree.visible
  · rw [if_pos visible, List.forall_mem_singleton]
    exact given
  · have hidden := Bool.eq_false_iff.mpr visible
    obtain ⟨here, below⟩ := hands hidden
    rw [if_neg visible]
    intro w member
    rw [fieldOf_waysDown f.position f [g] f.subtree rfl here below w member,
      fieldOf_hidden _ hidden]
    exact given

end Cursor

/-! ### Direct children in a field -/

namespace Subtree

variable {lang : Language} {production : ProductionId} {field : FieldId} {position : Extent}
  {index : Nat}

/-- Of some children of a node those that its production puts in a field, each with its place.
`index` counts the children before that are no extras. -/
def heldAmong (lang : Language) (production : ProductionId) (field : FieldId) (position : Extent)
    (index : Nat) : List Subtree → List (Subtree × Extent)
  | [] => []
  | t :: rest =>
    (if t.extra = false ∧ lang.ownField? production index = some field then [(t, position)] else [])
      ++ heldAmong lang production field (position + t.size)
        (if t.extra then index else index + 1) rest

/-- What shows of a subtree or is it. -/
def revealed (c : Subtree × Extent) : List (Subtree × Extent) :=
  if c.1.visible then [c] else c.1.shown c.2

theorem fieldAmong_nil (ts : List Subtree) (position : Extent) (index : Nat) :
    Node.fieldAmong lang field [] position index ts = none := by
  induction ts generalizing position index with
  | nil => rfl
  | cons t rest ih =>
    rw [Node.fieldAmong, List.find?_nil, ih, ih]
    split <;> rfl

/-- The search ends at the first child that the production puts in the field. -/
theorem fieldAmong_eq (gives : lang.GivesFields production) (ts : List Subtree)
    (made : ∀ c ∈ ts, c.Constructed) (position : Extent) (index : Nat) :
    Node.fieldAmong lang field (lang.entriesOf production field) position index ts
      = (heldAmong lang production field position index ts).head?.bind (revealed · |>.head?) := by
  induction ts generalizing position index with
  | nil => rfl
  | cons t rest ih =>
    obtain ⟨first, others⟩ := List.forall_mem_cons.mp made
    have found := @gives.entry_isSome lang production field index
    rw [Node.fieldAmong, heldAmong]
    by_cases extra : t.extra
    · simp [extra, ih others]
    · rw [if_neg extra]
      cases entry : (lang.entriesOf production field).find? (·.child.toNat == index) with
      | none =>
        have other : lang.ownField? production index ≠ some field := by
          intro own
          have := found.mpr own
          rw [entry] at this
          cases this
        simp [extra, other, ih others]
      | some e =>
        have own : lang.ownField? production index = some field := found.mp (by rw [entry]; rfl)
        have inherited : e.inherited = false :=
          gives.own e (List.mem_of_mem_filter (List.mem_of_find?_eq_some entry))
        rw [if_pos ⟨Bool.eq_false_iff.mpr extra, own⟩]
        by_cases visible : t.visible
        · simp [visible, revealed]
        · have all := fun c => @relevant_of_mem_shown t c position
          have child := childIn_eq_shown true position 0 t first
            fun c member irrelevant => by simp [all c member] at irrelevant
          rw [List.filter_eq_self.mpr all, ← List.head?_eq_getElem?] at child
          simp [visible, inherited, revealed, child]

end Subtree

open Subtree (heldAmong revealed fieldAmong_eq fieldAmong_nil)

namespace Cursor

variable {lang : Language} {field : FieldId} {g : Frame} {α : Type} {e : List Frame → α}
  {h : Subtree × Extent → α}

theorem waysInto_ends (ends : ∀ f above, e (f :: above) = h (f.subtree, f.position)) (f : Frame)
    (above : List Frame) :
    (waysInto (f :: above)).map e = (revealed (f.subtree, f.position)).map h := by
  rw [waysInto, revealed]
  split
  · exact congrArg (fun x => [x]) (ends f above)
  · exact waysDown_ends ends f.position (f :: above) f.subtree

/-- The ways whose ends a cursor reports in a field are those through the children that the
production puts there. -/
theorem labelled_waysAmong (ends : ∀ f above, e (f :: above) = h (f.subtree, f.position))
    (position : Extent) (index : Nat) (ts : List Subtree)
    (hands : ∀ u ∈ veilsAmong position ts, u.1.HandsOn lang) :
    ((waysAmong position index [g] ts).filter fun w => fieldOf lang true w = some field).map e
      = ((heldAmong lang g.subtree.info.production field position index ts).flatMap revealed).map
          h := by
  induction ts generalizing position index with
  | nil => rfl
  | cons t rest ih =>
    rw [veilsAmong] at hands
    obtain ⟨inside, along⟩ := List.forall_mem_append.mp hands
    have given := @fieldOf_waysInto lang ⟨t, position, index, rest⟩ g fun hidden => by
      rw [if_neg (Bool.eq_false_iff.mp hidden)] at inside
      exact List.forall_mem_cons.mp inside
    rw [waysAmong_cons, heldAmong, List.filter_append, List.map_append, List.flatMap_append,
      List.map_append, ih _ _ along]
    congr 1
    by_cases held : t.extra = false ∧ lang.ownField? g.subtree.info.production index = some field
    · rw [if_pos held, List.filter_eq_self.mpr fun w member => by
        rw [given w member]
        simp [held.1, held.2]]
      exact (waysInto_ends ends _ _).trans (by rw [List.flatMap_singleton])
    · rw [if_neg held, List.filter_eq_nil_iff.mpr fun w member => ?_]
      · rfl
      · rw [given w member]
        cases extra : t.extra with
        | true => simp
        | false => simpa [extra] using held

end Cursor

/-! ### Nodes -/

namespace Node

variable {n : Node} {field : FieldId}

/-- The direct children that the production puts in a field, hidden ones too. -/
def inField (n : Node) (field : FieldId) : List Node :=
  (heldAmong n.tree.language n.subtree.info.production field n.position 0 n.subtree.children).map
    n.locate

/-- What shows of a node or is it. -/
def revealed (n : Node) : List Node := if n.subtree.visible then [n] else n.shown

theorem revealed_locate (n : Node) (c : Subtree × Extent) :
    (n.locate c).revealed = (Subtree.revealed c).map n.locate := by
  rw [revealed, Subtree.revealed]
  change (if c.1.visible then _ else _) = _
  split <;> rfl

/-- The children that a cursor reports in a field are what shows of the direct children there. -/
theorem labelled_eq (hands : ∀ h ∈ n.veils, h.subtree.HandsOn n.tree.language)
    (field : FieldId) :
    (n.walk.kids.filter fun k => k.field? = some field).map (·.node)
      = (n.inField field).flatMap revealed := by
  have frames : n.walk.frames = [⟨n.subtree, n.position, 0, []⟩] := rfl
  have field_eq (w) (way : w ∈ Cursor.waysFrom n.walk.frames) :
      (n.walk.withFrames w).field? = Cursor.fieldOf n.tree.language true w := by
    have some : w ≠ [] := (Cursor.mem_waysFrom.mp way).ne_nil
    rw [Cursor.field?, Cursor.frames_withFrames _ some]
    cases w <;> rfl
  have labelled := @Cursor.labelled_waysAmong n.tree.language field ⟨n.subtree, n.position, 0, []⟩ _
    (fun w => (n.walk.withFrames w).node) n.locate (fun _ _ => rfl) n.position 0 n.subtree.children
    fun u member => hands (n.locate u) (List.mem_map_of_mem (by rwa [Subtree.veils_eq]))
  rw [← Cursor.waysDown_eq] at labelled
  rw [Cursor.kids, List.filter_map, List.map_map, List.filter_congr fun w way => by
    rw [Function.comp_apply, field_eq w way]]
  refine Eq.trans labelled ?_
  rw [inField, List.flatMap_map, List.map_flatMap]
  simp only [revealed_locate]

/-- The first child in the field hides and nothing shows of it. -/
def Veiled (n : Node) (field : FieldId) : Prop :=
  ∃ h, (n.inField field).head? = some h ∧ h.revealed = []

theorem childByFieldId?_eq (made : n.subtree.Constructed)
    (gives : n.tree.language.GivesFields n.subtree.info.production) (some : 0 < field) :
    n.childByFieldId? field = (n.inField field).head?.bind (·.revealed.head?) := by
  have found := @fieldAmong_eq _ _ field gives n.subtree.children (fun _ => made.child)
    n.position 0
  have all : fieldIn n.tree.language field n.position n.subtree
      = fieldAmong n.tree.language field
          (n.tree.language.entriesOf n.subtree.info.production field) n.position 0
          n.subtree.children := by
    obtain ⟨-, ⟨_, info, children⟩, _⟩ := n
    rw [fieldIn]
    split
    next none => rw [Language.entriesOf, List.isEmpty_iff.mp none, fieldAmong_nil]
    next => rfl
  rw [childByFieldId?, if_neg (by rintro rfl; cases some), all, found, inField, List.head?_map,
    Option.map_bind, Option.bind_map]
  congr 1
  funext c
  rw [Function.comp_apply, Function.comp_apply, revealed_locate, List.head?_map]

end Node

/-- A node finds for a field the first of its children that a cursor reports in it, unless the first
direct child that the production puts there is hidden and has nothing to show. Then it finds none.
The production is to give its fields itself, and hidden children are to give none of their own. -/
theorem Tree.childByFieldId?_first {t : Tree} (made : t.root.Constructed) {n : Node}
    (holds : t.Holds n) (gives : n.tree.language.GivesFields n.subtree.info.production)
    (hands : ∀ h ∈ n.veils, h.subtree.HandsOn n.tree.language) :
    ∃ kids, n.walk.Tours kids ∧ kids.map (·.node) = n.children ∧ ∀ field, 0 < field →
      (n.Veiled field → n.childByFieldId? field = none)
      ∧ (¬ n.Veiled field →
        n.childByFieldId? field = (kids.find? fun k => k.field? = some field).map (·.node)) := by
  have here := holds.constructed made
  have stands : Cursor.Stands n n.walk := Cursor.Walks.start.stands here
  refine ⟨n.walk.kids, stands.tours here, ?_, fun field some => ?_⟩
  · rw [Node.children_eq_shown here, Cursor.kids_nodes]
    rfl
  · have labelled := Node.labelled_eq hands field
    rw [Node.childByFieldId?_eq here gives some, ← List.head?_filter, ← List.head?_map, labelled]
    constructor
    · rintro ⟨h, first, nothing⟩
      rw [first, Option.bind_some, nothing]
      rfl
    · intro unveiled
      cases held : n.inField field with
      | nil => rfl
      | cons h rest =>
        have shows : h.revealed ≠ [] := fun nothing => unveiled ⟨h, by rw [held]; rfl, nothing⟩
        rw [List.flatMap_cons, List.head?_append_of_ne_nil _ shows]
        rfl

/-! ### Fields of an optional child -/

/-- A file is an `a` after a `b` that may be left out and is hidden. Both are in the field `f`. -/
def Table.ofOptional : Table where
  version := 1
  symbols := #[⟨"end", {}⟩, ⟨"a", { visible := true, named := true }⟩,
    ⟨"b", { visible := true, named := true }⟩, ⟨"option", {}⟩,
    ⟨"file", { visible := true, named := true }⟩]
  tokenCount := 3
  fields := #["f"]
  productions := #[[], [⟨1, 0, false⟩, ⟨1, 1, false⟩]]
  lexStates := #[⟨[], [⟨97, 97, 1⟩, ⟨98, 98, 2⟩]⟩, ⟨[⟨1, 0⟩], []⟩, ⟨[⟨2, 0⟩], []⟩]
  modes := #[{}, {}, {}, {}, {}, {}]
  cells := #[
    none, none, none, none, none,
    none, some (.reduce ⟨3, 0, 0, 0⟩), some (.shift 5), some (.shift 2), some (.shift 4),
    none, some (.shift 3), none, none, none,
    some (.reduce ⟨4, 2, 1, 0⟩), none, none, none, none,
    some .accept, none, none, none, none,
    none, some (.reduce ⟨3, 1, 0, 0⟩), none, none, none]

def Language.ofOptional : Language := { handle := 0, table := .ofOptional }

theorem Language.load_ofOptional : load 0 Table.ofOptional.encode none = .ok ofOptional :=
  load_of_decode (by decide +kernel) none

/-- An `a` in a file, after what is in its hidden part. -/
def Tree.ofOptional (first : Stamp) (before : List Subtree) : Tree where
  root :=
    let lang := Language.ofOptional
    let option : Subtree := .node (first + 1) lang 3 before 0 1
    .node (first + 4) lang 4
      [⟨first + 1, { option.info with lookahead := 2 }, before⟩,
        .leaf (first + 2) lang 1 (.ofBytes [97]) 1 2 {}] 1 1
  language := .ofOptional
  revision := 0

/-- The `b` of `ba`. -/
def Subtree.ofOptional : Subtree := .leaf 0 .ofOptional 2 (.ofBytes [98]) 1 1 {}

/-- Such trees come of parses. -/
theorem Language.ofOptional_parses :
    (ofOptional.parse {} #[97] none 0).tree = some (.ofOptional 0 [])
      ∧ (ofOptional.parse {} #[98, 97] none 0).tree = some (.ofOptional 2 [.ofOptional]) :=
  ⟨by cbv, by cbv⟩

theorem Tree.ofOptional_constructed {first : Stamp} {before : List Subtree}
    (made : ∀ c ∈ before, c.Constructed) : (ofOptional first before).root.Constructed := by
  have option : (Subtree.node (first + 1) .ofOptional 3 before 0 1).Constructed := .node made
  exact .node (List.forall_mem_cons.mpr ⟨.noted option, List.forall_mem_singleton.mpr .leaf⟩)

theorem Tree.ofOptional_gives (first : Stamp) (before : List Subtree) :
    (ofOptional first before).language.GivesFields
      (ofOptional first before).root.info.production :=
  (⟨by decide, by decide⟩ : Language.ofOptional.GivesFields 1)

/-- The `b` in the hidden part is the first of the two that a cursor reports in the field. -/
theorem Tree.ofOptional_childByFieldId?_first :
    let t := ofOptional 2 [.ofOptional]
    (Language.ofOptional.parse {} #[98, 97] none 0).tree = some t
      ∧ (t.rootNode.childByFieldId? 1).map (·.subtree) = some .ofOptional
      ∧ ∃ kids, t.walk.Tours kids ∧ kids.map (·.node) = t.rootNode.children
        ∧ t.rootNode.childByFieldId? 1
          = (kids.find? fun k => k.field? = some 1).map (·.node) := by
  have made : ∀ c ∈ [Subtree.ofOptional], c.Constructed := List.forall_mem_singleton.mpr .leaf
  obtain ⟨kids, tours, nodes, each⟩ := childByFieldId?_first (ofOptional_constructed made) .root
    (ofOptional_gives 2 [.ofOptional]) (List.forall_mem_singleton.mpr ⟨fun _ => rfl, by decide⟩)
  refine ⟨Language.ofOptional_parses.2, rfl, kids, tours, nodes, (each 1 (by decide)).2 ?_⟩
  rintro ⟨h, first, nothing⟩
  obtain rfl := Option.some.inj first
  cases nothing

/-- With the hidden part left out a cursor reports the only `a` in the field, and the search by the
field does not find it. -/
theorem Tree.ofOptional_field_astray :
    let t := ofOptional 0 []
    Language.load 0 Table.ofOptional.encode none = .ok Language.ofOptional
      ∧ (Language.ofOptional.parse {} #[97] none 0).tree = some t
      ∧ t.language.GivesFields t.rootNode.subtree.info.production
      ∧ (∀ h ∈ t.rootNode.veils, h.subtree.HandsOn .ofOptional)
      ∧ t.walk.firstChild.1 = true
      ∧ t.walk.firstChild.2.field? = some 1
      ∧ t.rootNode.childByFieldId? 1 = none :=
  ⟨Language.load_ofOptional, Language.ofOptional_parses.1, ofOptional_gives _ _,
    List.forall_mem_singleton.mpr ⟨nofun, nofun⟩, rfl, rfl, rfl⟩

end Reparse
