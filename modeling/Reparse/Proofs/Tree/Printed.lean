import Reparse.Proofs.Tree.Construction
import Reparse.Proofs.Tree.Fields
import Reparse.Proofs.Tree.Preorder

/-!
Printing a tree along a walk.

A cursor goes round a tree (`Round.advance`): it enters each node and what shows of it in turn, and
leaves the node after that (`Cursor.Stands.leads`). On the way down fields are handed on just as
a cursor would look them up (`Cursor.writeChildren_eq`). So a walk that prints each node where it
enters it, under the field that the cursor reports there, writes the S-expression
(`Tree.toSexp_walk`). Unnamed nodes with children are the exception, since the S-expression hands
their field on too, and so are hidden missing leaves, since no cursor comes there.
-/

namespace Reparse

open Subtree (Constructed Genuine Occurs)

/-! ### Walks around a tree -/

/-- A walk that is about to enter or to leave the node of a cursor, or that is finished. -/
inductive Round where
  | entering (c : Cursor)
  | leaving (c : Cursor)
  | finished

namespace Round

/-- From the start of a node into its first child, or to its end if there is none. From the end of a
node into its next sibling, or to the end of its parent. -/
def advance : Round → Round
  | entering c =>
    match c.firstChild with
    | (true, child) => entering child
    | (false, c) => leaving c
  | leaving c =>
    match c.nextSibling with
    | (true, next) => entering next
    | (false, c) =>
      match c.parent with
      | (true, parent) => leaving parent
      | (false, _) => finished
  | finished => finished

/-- A walk comes through some rounds, one after the other, and then to another. -/
inductive Leads : Round → List Round → Round → Prop
  | here {p : Round} : Leads p [] p
  | on {p q : Round} {passed : List Round} (rest : Leads p.advance passed q) :
      Leads p (p :: passed) q

theorem Leads.trans {p q s : Round} {passed more : List Round} (first : Leads p passed q)
    (second : Leads q more s) : Leads p (passed ++ more) s := by
  induction first with
  | here => exact second
  | on _ ih => exact .on (ih second)

def entered? : Round → Option Cursor
  | entering c => some c
  | _ => none

end Round

namespace Cursor

/-- A walk prints where it began, named nodes and missing nodes. -/
def isPrinted (c : Cursor) : Bool := c.above.isEmpty || c.node.isNamed || c.node.isMissing

/-- A blank but where the walk began, the name of the field, and the name in parentheses. -/
def heading (c : Cursor) : String :=
  (if c.above.isEmpty then "" else " ")
    ++ (match c.fieldName? with
        | some name => name ++ ": "
        | none => "")
    ++ c.current.subtree.opening c.tree.language

end Cursor

namespace Round

/-- What is printed of a node that is entered or left. -/
def shown : Round → String
  | entering c => if c.isPrinted then c.heading else ""
  | leaving c => if c.isPrinted then ")" else ""
  | finished => ""

def print (passed : List Round) : String := String.join (passed.map shown)

@[simp] theorem print_nil : print [] = "" := rfl

@[simp] theorem print_cons (p : Round) (passed : List Round) :
    print (p :: passed) = p.shown ++ print passed :=
  String.join_cons

@[simp] theorem print_append (passed more : List Round) :
    print (passed ++ more) = print passed ++ print more := by
  rw [print, List.map_append, String.join_append]
  rfl

end Round

namespace Cursor

open Round (Leads)

variable {r : Node} {c k : Cursor} {frames above w : List Frame} {tree : Tree}

/-! ### Where walks lead -/

mutual

/-- The rounds of a walk through what is visible below a subtree. -/
def roundsDown (tree : Tree) (position : Extent) (above : List Frame) : Subtree → List Round
  | ⟨_, _, children⟩ => roundsAmong tree position 0 above children

def roundsAmong (tree : Tree) (position : Extent) (index : Nat) (above : List Frame) :
    List Subtree → List Round
  | [] => []
  | t :: rest =>
    let f : Frame := ⟨t, position, index, rest⟩
    let here : Cursor := ⟨tree, f, above⟩
    (if t.visible then
        .entering here :: (roundsDown tree position (f :: above) t ++ [.leaving here])
      else roundsDown tree position (f :: above) t)
      ++ roundsAmong tree f.stop f.nextIndex above rest

end

/-- The rounds through what is visible below a cursor. -/
def roundsBelow (c : Cursor) : List Round :=
  roundsDown c.tree c.current.position c.frames c.current.subtree

/-- The rounds through the node of a cursor and what is visible below it. -/
def rounds (c : Cursor) : List Round := .entering c :: (c.roundsBelow ++ [.leaving c])

mutual

/-- They go through what shows, one after the other. -/
theorem roundsDown_eq (c : Cursor) (position : Extent) (above : List Frame) : ∀ t : Subtree,
    roundsDown c.tree position above t
      = ((waysDown position above t).map c.withFrames).flatMap rounds
  | ⟨_, _, children⟩ => roundsAmong_eq c position 0 above children

theorem roundsAmong_eq (c : Cursor) (position : Extent) (index : Nat) (above : List Frame) :
    ∀ ts : List Subtree, roundsAmong c.tree position index above ts
      = ((waysAmong position index above ts).map c.withFrames).flatMap rounds
  | [] => rfl
  | t :: rest => by
    let f : Frame := ⟨t, position, index, rest⟩
    have down := roundsDown_eq c position (f :: above) t
    have along := roundsAmong_eq c f.stop f.nextIndex above rest
    rw [roundsAmong, waysAmong, List.map_append, List.flatMap_append, along]
    congr 1
    split
    · rw [List.map_singleton, List.flatMap_singleton]
      rfl
    · exact down

end

theorem roundsBelow_eq (c : Cursor) : c.roundsBelow = c.kids.flatMap rounds :=
  roundsDown_eq c c.current.position c.frames c.current.subtree

/-- There is less to go through below a child. -/
theorem length_roundsBelow_lt (kid : k ∈ c.kids) : k.roundsBelow.length < c.roundsBelow.length := by
  obtain ⟨before, after, kids⟩ := List.append_of_mem kid
  rw [roundsBelow_eq c, kids, List.flatMap_append, List.flatMap_cons, rounds]
  simp only [List.length_append, List.length_cons]
  omega

/-- After a child of a tour comes the next one, or the end of the node. -/
theorem Tours.advance {kids rest : List Cursor} (tours : c.Tours kids) {i : Nat}
    (left : kids.drop i = k :: rest) :
    (Round.leaving k).advance = (rest.head?.map Round.entering).getD (.leaving c) := by
  have at_i : kids[i]? = some k := by
    rw [← List.head?_drop, left]
    rfl
  have after : kids[i + 1]? = rest.head? := by
    rw [← List.head?_drop, ← List.tail_drop, left]
    rfl
  rw [Round.advance, tours.next i k at_i, after]
  cases rest with
  | nil =>
    change (match k.parent with
      | (true, parent) => Round.leaving parent
      | (false, _) => .finished) = _
    rw [tours.back k (List.mem_of_getElem? at_i)]
    rfl
  | cons next rest => rfl

theorem leads_rounds {q : Round} {more : List Round}
    (below : Leads (.entering k) (.entering k :: k.roundsBelow) (.leaving k))
    (after : Leads (Round.leaving k).advance more q) :
    Leads (.entering k) (k.rounds ++ more) q := by
  rw [rounds, List.cons_append, List.append_assoc]
  exact below.trans (.on after)

/-- From a child of a tour a walk goes on through the others, and then leaves the node. -/
theorem Tours.leads {kids rest : List Cursor} (tours : c.Tours kids)
    (each : ∀ k ∈ kids, Leads (.entering k) (.entering k :: k.roundsBelow) (.leaving k)) {i : Nat}
    (left : kids.drop i = k :: rest) :
    Leads (.entering k) ((k :: rest).flatMap rounds) (.leaving c) := by
  induction rest generalizing i k with
  | nil =>
    refine leads_rounds (each k (List.mem_of_mem_drop (left ▸ List.mem_cons_self))) ?_
    rw [tours.advance left]
    exact .here
  | cons next rest ih =>
    refine leads_rounds (each k (List.mem_of_mem_drop (left ▸ List.mem_cons_self))) ?_
    rw [tours.advance left]
    have left : kids.drop (i + 1) = next :: rest := by
      rw [← List.tail_drop, left]
      rfl
    exact ih left

/-- A walk that enters a node goes through all that is visible below it, and then leaves it. -/
theorem Stands.leads (made : r.subtree.Constructed) (stands : Stands r c) :
    Leads (.entering c) (.entering c :: c.roundsBelow) (.leaving c) := by
  induction size : c.roundsBelow.length using Nat.strong_induction_on generalizing c with
  | _ size ih =>
    have tours := stands.tours made
    have each (k) (kid : k ∈ c.kids) :
        Leads (.entering k) (.entering k :: k.roundsBelow) (.leaving k) :=
      ih _ (size ▸ length_roundsBelow_lt kid) (stands.kid kid) rfl
    rw [roundsBelow_eq]
    refine .on ?_
    rw [Round.advance, tours.first]
    cases kids : c.kids with
    | nil => exact .here
    | cons k rest =>
      exact tours.leads each (by rw [List.drop_zero, kids])

/-! ### What walks come to -/

mutual

/-- What a walk enters below a subtree are the places of a walk in preorder. -/
theorem entered_roundsDown (c : Cursor) (position : Extent) (above : List Frame) : ∀ t : Subtree,
    (roundsDown c.tree position above t).filterMap Round.entered?
      = (trailsDown position above t).map c.withFrames
  | ⟨_, _, children⟩ => entered_roundsAmong c position 0 above children

theorem entered_roundsAmong (c : Cursor) (position : Extent) (index : Nat) (above : List Frame) :
    ∀ ts : List Subtree, (roundsAmong c.tree position index above ts).filterMap Round.entered?
      = (trailsAmong position index above ts).map c.withFrames
  | [] => rfl
  | t :: rest => by
    let f : Frame := ⟨t, position, index, rest⟩
    have down := entered_roundsDown c position (f :: above) t
    have along := entered_roundsAmong c f.stop f.nextIndex above rest
    rw [roundsAmong, trailsAmong, List.filterMap_append, List.map_append, List.map_append, along,
      ← down]
    by_cases visible : t.visible
    · simp [visible, f, Round.entered?, withFrames]
    · simp [visible, f]

end

end Cursor

/-! ### What is printed -/

namespace Subtree

variable {lang : Language} {out : String} {field : Option FieldId} {t : Subtree}

/-- If it is visible without a name, it is a leaf, and if it is missing, it is visible. -/
structure Printable (t : Subtree) : Prop where
  unnamed : t.visible = true → t.info.named = false → t.children = []
  missing : t.info.missing = true → t.visible = true

theorem writeSexp_of_written (written : t.isWritten = true) :
    t.writeSexp lang out field
      = writeChildren lang
          (out ++ " "
            ++ (match field.bind lang.fieldName? with
                | some name => name ++ ": "
                | none => "")
            ++ t.opening lang)
          t.info.production none 0 t.children ++ ")" := by
  obtain ⟨_, _, _⟩ := t
  rw [writeSexp]
  exact if_pos written

theorem writeSexp_of_not_written (unwritten : t.isWritten = false) :
    t.writeSexp lang out field = writeChildren lang out t.info.production field 0 t.children := by
  obtain ⟨_, _, _⟩ := t
  rw [writeSexp, if_neg (Bool.eq_false_iff.mp unwritten)]

end Subtree

namespace Cursor

open Subtree (Printable Everywhere EverywhereIn everywhere_iff everywhereIn_cons writeChildren
  writeSexp_of_written writeSexp_of_not_written)

variable {place : Nat} {f g : Frame} {above : List Frame} {tree : Tree} {out : String}

theorem roundsDown_children (position : Extent) (t : Subtree) :
    roundsDown tree position above t = roundsAmong tree position 0 above t.children := by
  cases t
  rfl

/-- The rounds through a frame if it is visible, and else through what shows of it. -/
def roundsInto (tree : Tree) (f : Frame) (above : List Frame) : List Round :=
  if f.subtree.visible then rounds ⟨tree, f, above⟩
  else roundsDown tree f.position (f :: above) f.subtree

theorem roundsAmong_cons (position : Extent) (index : Nat) (t : Subtree) (rest : List Subtree) :
    roundsAmong tree position index above (t :: rest)
      = roundsInto tree ⟨t, position, index, rest⟩ above
        ++ roundsAmong tree (position + t.size) (if t.extra then index else index + 1) above rest :=
  rfl

theorem isPrinted_eq (visible : f.subtree.visible = true) :
    isPrinted ⟨tree, f, g :: above⟩ = f.subtree.isWritten := by
  rw [Subtree.isWritten, visible, Bool.true_and, Bool.or_comm]
  rfl

/-- What is written of a subtree is what a walk through it prints, if that is so of its children. -/
theorem writeSexp_of_children (here : f.subtree.Printable)
    (within : ∀ out, writeChildren tree.language out f.subtree.info.production
        (fieldOf tree.language false (f :: g :: above)) 0 f.subtree.children
      = out ++ Round.print (roundsAmong tree f.position 0 (f :: g :: above) f.subtree.children))
    (out : String) :
    f.subtree.writeSexp tree.language out (fieldOf tree.language true (f :: g :: above))
      = out ++ Round.print (roundsInto tree f (g :: above)) := by
  rw [roundsInto]
  cases visible : f.subtree.visible with
  | false =>
    have unwritten : f.subtree.isWritten = false := by
      have present : f.subtree.info.missing = false :=
        Bool.eq_false_iff.mpr fun missing => by simp [here.missing missing] at visible
      simp [Subtree.isWritten, visible, present]
    rw [writeSexp_of_not_written unwritten, ← fieldOf_hidden _ visible, within,
      if_neg Bool.false_ne_true, roundsDown_children]
  | true =>
    have printed := @isPrinted_eq f g above tree visible
    rw [if_pos rfl, rounds, roundsBelow, Round.print_cons, Round.print_append, Round.print_cons,
      Round.print_nil, Round.shown, Round.shown, printed, roundsDown_children]
    cases written : f.subtree.isWritten with
    | true =>
      have heading : heading ⟨tree, f, g :: above⟩
          = " " ++ (match (fieldOf tree.language true (f :: g :: above)).bind
                tree.language.fieldName? with
              | some name => name ++ ": "
              | none => "") ++ f.subtree.opening tree.language := rfl
      rw [writeSexp_of_written written, ← fieldOf_visible tree.language visible, within, if_pos rfl,
        if_pos rfl, heading]
      simp only [String.append_assoc, String.append_empty]
      rfl
    | false =>
      have leaf : f.subtree.children = [] := by
        simp only [Subtree.isWritten, visible, Bool.true_and, Bool.or_eq_false_iff] at written
        exact here.unnamed visible written.2
      rw [writeSexp_of_not_written written]
      dsimp only
      rw [leaf]
      simp [writeChildren, roundsAmong]

mutual

/-- What is written of a subtree is what a walk through it prints. -/
theorem writeSexp_eq (f g : Frame) (above : List Frame) : ∀ t : Subtree, f.subtree = t →
    Everywhere (fun _ => Printable) place t → ∀ out,
      t.writeSexp tree.language out (fieldOf tree.language true (f :: g :: above))
        = out ++ Round.print (roundsInto tree f (g :: above))
  | ⟨_, _, children⟩, is, printable, out => by
    obtain ⟨here, below⟩ := everywhere_iff.mp printable
    have within := writeChildren_eq f.position 0 f (g :: above) children below
    rw [← is] at here ⊢
    refine writeSexp_of_children here ?_ out
    rw [is]
    rw [is] at within
    exact within

/-- What is written of some children of a node is what a walk through them prints. -/
theorem writeChildren_eq (position : Extent) (index : Nat) (g : Frame) (above : List Frame) :
    ∀ ts : List Subtree, EverywhereIn (fun _ => Printable) place ts → ∀ out,
      writeChildren tree.language out g.subtree.info.production
          (fieldOf tree.language false (g :: above)) index ts
        = out ++ Round.print (roundsAmong tree position index (g :: above) ts)
  | [], _, out => by
    rw [writeChildren, roundsAmong, Round.print_nil, String.append_empty]
  | t :: rest, printable, out => by
    let f : Frame := ⟨t, position, index, rest⟩
    obtain ⟨first, others⟩ := everywhereIn_cons.mp printable
    have into := writeSexp_eq f g above t rfl first out
    have along := writeChildren_eq f.stop f.nextIndex g above rest others
    rw [writeChildren, roundsAmong_cons, Round.print_append, ← String.append_assoc, ← into,
      fieldOf_innermost]
    refine Eq.trans ?_ (along _)
    by_cases extra : t.extra
    · simp [extra, f, Frame.nextIndex]
    · simp [extra, f, Frame.nextIndex]

end

end Cursor

/-- The walk around a tree begins where it enters the root and comes through the places of a walk in
preorder until it is finished. -/
theorem Tree.walk_leads {t : Tree} (made : t.root.Constructed) :
    Round.Leads (.entering t.walk) t.walk.rounds .finished
      ∧ t.walk.rounds.filterMap Round.entered? = t.preorder := by
  have stands : Cursor.Stands t.rootNode t.walk := Cursor.Walks.start.stands made
  refine ⟨?_, ?_⟩
  · exact (stands.leads made).trans (.on .here)
  · rw [preorder_eq made]
    have below := Cursor.entered_roundsDown t.walk .zero t.walk.frames t.root
    rw [Cursor.rounds, List.filterMap_cons, List.filterMap_append]
    exact congrArg (t.walk :: ·) ((List.append_nil _).trans below)

/-- The S-expression is what a walk around the tree prints, if every visible subtree without a name
is a leaf and every missing leaf is visible. Of the root, of each named node and of each missing one
it prints the name of the field that the cursor reports, if there is one, and the name in
parentheses, which close when the walk leaves the node. -/
theorem Tree.toSexp_walk {t : Tree} (genuine : t.root.Genuine)
    (unnamed : ∀ u x, Occurs u t.root x → u.visible = true → u.info.named = false →
      u.isLeaf = true)
    (missing : ∀ u x, Occurs u t.root x → u.info.missing = true → u.isLeaf = true →
      u.visible = true) :
    ∃ passed, Round.Leads (.entering t.walk) passed .finished
      ∧ passed.filterMap Round.entered? = t.preorder
      ∧ Round.print passed = t.toSexp := by
  obtain ⟨leads, entered⟩ := walk_leads genuine.constructed
  refine ⟨_, leads, entered, ?_⟩
  have printable : Subtree.EverywhereIn (fun _ => Subtree.Printable) 0 t.root.children := by
    intro u x inside
    have below : Occurs u t.root x := .under inside
    exact ⟨fun visible plain => List.isEmpty_iff.mp (unnamed u x below visible plain), fun absent =>
      missing u x below absent
        (List.isEmpty_iff.mpr ((genuine.of_occurs below).bare.leaf absent))⟩
  have among : Subtree.writeChildren t.language (t.root.opening t.language)
        t.root.info.production none 0 t.root.children
      = t.root.opening t.language
        ++ Round.print (Cursor.roundsAmong t .zero 0 t.walk.frames t.root.children) :=
    Cursor.writeChildren_eq .zero 0 t.walk.current [] t.root.children printable _
  have heading : t.walk.heading = t.root.opening t.language := by
    change "" ++ "" ++ t.root.opening t.language = _
    rw [String.empty_append, String.empty_append]
  rw [toSexp, Subtree.toSexp, among, Cursor.rounds, Cursor.roundsBelow, Cursor.roundsDown_children,
    Round.print_cons, Round.print_append, Round.print_cons, Round.print_nil, Round.shown,
    Round.shown, heading, String.append_empty, ← String.append_assoc]
  rfl

/-! ### Fields that are handed on -/

/-- The tree of `b`, where an `a` is missing. -/
def Tree.ofMissing : Tree where
  root :=
    let lang := Language.ofOptional
    let option : Subtree := .node 3 lang 3 [.ofOptional] 0 1
    let file : Subtree := .node 6 lang 4
      [⟨3, { option.info with fragile := true }, [.ofOptional]⟩, .missingLeaf 4 lang 1 2 {}] 1 1
    ⟨6, { file.info with fragile := true }, file.children⟩
  language := .ofOptional
  revision := 0

theorem Tree.ofMissing_parsed :
    (Language.ofOptional.parse {} #[98] none 0).tree = some ofMissing := by
  cbv

theorem Tree.ofMissing_printable : ofMissing.root.Everywhere (fun _ => Subtree.Printable) 0 :=
  have b : Subtree.ofOptional.Everywhere (fun _ => Subtree.Printable) 0 :=
    Subtree.everywhere_iff.mpr ⟨⟨nofun, nofun⟩, Subtree.everywhereIn_nil⟩
  have absent :
      (Subtree.missingLeaf 4 .ofOptional 1 2 {}).Everywhere (fun _ => Subtree.Printable) 1 :=
    Subtree.everywhere_iff.mpr ⟨⟨nofun, fun _ => rfl⟩, Subtree.everywhereIn_nil⟩
  Subtree.everywhere_iff.mpr ⟨⟨nofun, nofun⟩, Subtree.everywhereIn_cons.mpr
    ⟨Subtree.everywhere_iff.mpr ⟨⟨nofun, nofun⟩, Subtree.everywhereIn_singleton.mpr b⟩,
      Subtree.everywhereIn_singleton.mpr absent⟩⟩

/-- The field of the hidden part is printed before the `b` in it. -/
theorem Tree.ofMissing_toSexp_walk :
    (Language.ofOptional.parse {} #[98] none 0).tree = some ofMissing
      ∧ ∃ passed, Round.Leads (.entering ofMissing.walk) passed .finished
        ∧ Round.print passed = "(file f: (b) f: (MISSING a))" := by
  have genuine : ofMissing.root.Genuine := (Obtained.scratch ofMissing_parsed).genuine
  have printable := ofMissing_printable
  obtain ⟨passed, leads, -, print⟩ := toSexp_walk genuine
    (fun u x inside visible unnamed => List.isEmpty_iff.mpr
      ((printable u x inside).unnamed visible unnamed))
    (fun u x inside missing _ => (printable u x inside).missing missing)
  exact ⟨ofMissing_parsed, passed, leads, print.trans rfl⟩

end Reparse
