import Reparse.Text.Utf8
import Reparse.Tree.Basic

/-!
Nodes: subtrees of a tree at their places in its text.

Hidden subtrees are no nodes to a reader: the visible ones among their descendants stand in
for them, so the children of a node are the visible subtrees below it with nothing but
hidden ones between.
-/

namespace Reparse

structure Node where
  tree : Tree
  subtree : Subtree
  position : Extent

def Tree.rootNode (t : Tree) : Node := ⟨t, t.root, .zero⟩

/-- A stretch of a text in bytes and points. -/
structure Range where
  startByte : Nat := 0
  stopByte : Nat := 0
  startPoint : Point := {}
  stopPoint : Point := {}
  deriving DecidableEq, Repr, Inhabited

namespace Node

/-- The same subtree at the same place. -/
def same (a b : Node) : Bool :=
  a.subtree.stamp == b.subtree.stamp && a.position.bytes == b.position.bytes

instance : BEq Node := ⟨same⟩

def symbol (n : Node) : Symbol := n.subtree.symbol
def kind (n : Node) : String := (n.tree.language.symbolName? n.symbol).getD ""
def isNamed (n : Node) : Bool := n.subtree.info.named
def isExtra (n : Node) : Bool := n.subtree.extra
def isMissing (n : Node) : Bool := n.subtree.info.missing
def isError (n : Node) : Bool := n.subtree.isError
def hasError (n : Node) : Bool := n.subtree.hasError
def hasChanges (n : Node) : Bool := n.subtree.info.changed

def stop (n : Node) : Extent := n.position + n.subtree.size
def startByte (n : Node) : Nat := n.position.bytes
def stopByte (n : Node) : Nat := n.stop.bytes
def startPoint (n : Node) : Point := n.position.point
def stopPoint (n : Node) : Point := n.stop.point
def range (n : Node) : Range := ⟨n.startByte, n.stopByte, n.startPoint, n.stopPoint⟩

def childCount (n : Node) : Nat := n.subtree.info.visibleCount
def namedChildCount (n : Node) : Nat := n.subtree.info.namedCount

/-! ### Children by number -/

/-- Counts as a child: visible, and named unless anonymous ones count too. -/
def isRelevant (anonymous : Bool) (t : Subtree) : Bool :=
  t.visible && (anonymous || t.info.named)

/-- How many children show through a subtree. -/
def relevantCount (anonymous : Bool) (t : Subtree) : Nat :=
  if anonymous then t.info.visibleCount else t.info.namedCount

mutual

/-- The child number `index` of a subtree at `position`, with its place. -/
def childIn (anonymous : Bool) (position : Extent) (index : Nat) :
    Subtree → Option (Subtree × Extent)
  | ⟨_, _, children⟩ => childAmong anonymous position index children

def childAmong (anonymous : Bool) (position : Extent) (index : Nat) :
    List Subtree → Option (Subtree × Extent)
  | [] => none
  | t :: rest =>
    if isRelevant anonymous t then
      if index = 0 then some (t, position)
      else childAmong anonymous (position + t.size) (index - 1) rest
    else if index < relevantCount anonymous t then childIn anonymous position index t
    else childAmong anonymous (position + t.size) (index - relevantCount anonymous t) rest

end

/-- A node of the same tree. -/
def locate (n : Node) : Subtree × Extent → Node
  | (subtree, position) => ⟨n.tree, subtree, position⟩

/-- The number is cut down to thirty-two bits. -/
def child? (n : Node) (index : Nat) : Option Node :=
  (childIn true n.position (index % 4294967296) n.subtree).map n.locate

/-- The number counts named children only, and is cut down to thirty-two bits. -/
def namedChild? (n : Node) (index : Nat) : Option Node :=
  (childIn false n.position (index % 4294967296) n.subtree).map n.locate

/-! ### Children by field -/

mutual

/-- The first child in a field. A hidden child that holds the field in turn is searched for
it; a hidden one that is the field gives its own first child. -/
def fieldIn (lang : Language) (field : FieldId) (position : Extent) :
    Subtree → Option (Subtree × Extent)
  | ⟨_, info, children⟩ =>
    let entries := (lang.fieldMap info.production).filter (·.field == field)
    if entries.isEmpty then none else fieldAmong lang field entries position 0 children

/-- `index` counts the children before that are no extras. -/
def fieldAmong (lang : Language) (field : FieldId) (entries : List FieldEntry)
    (position : Extent) (index : Nat) : List Subtree → Option (Subtree × Extent)
  | [] => none
  | t :: rest =>
    if t.extra then fieldAmong lang field entries (position + t.size) index rest
    else
      match entries.find? (·.child.toNat == index) with
      | none => fieldAmong lang field entries (position + t.size) (index + 1) rest
      | some entry =>
        if t.visible then some (t, position)
        else if entry.inherited then fieldIn lang field position t
        else childIn true position 0 t

end

def childByFieldId? (n : Node) (field : FieldId) : Option Node :=
  if field = 0 then none
  else (fieldIn n.tree.language field n.position n.subtree).map n.locate

def childByField? (n : Node) (name : String) : Option Node :=
  (n.tree.language.fieldFor? name).bind n.childByFieldId?

/-! ### Parents -/

/-- The direct children of a subtree, hidden ones too, with their places. -/
def placed (position : Extent) : List Subtree → List (Subtree × Extent)
  | [] => []
  | t :: rest => (t, position) :: placed (position + t.size) rest

def direct (n : Node) : List Node := (placed n.position n.subtree.children).map n.locate

/-- The node could lie below this one. -/
def mayHold (n target : Node) : Bool :=
  !n.subtree.isLeaf && n.startByte ≤ target.startByte && target.stopByte ≤ n.stopByte

/-- The direct children that could hold `target`, the last of them first. -/
def holders (n target : Node) : List Node :=
  (n.direct.filter (·.mayHold target)).reverse

private theorem countAll_filter_le (n : Node) (p : Node → Bool) (position : Extent) :
    ∀ children : List Subtree,
      Subtree.countAll ((((placed position children).map n.locate).filter p).map (·.subtree))
        ≤ Subtree.countAll children := by
  intro children
  induction children generalizing position with
  | nil => simp [placed, Subtree.countAll]
  | cons t rest ih =>
    have := ih (position + t.size)
    simp only [placed, List.map_cons, List.filter_cons]
    split
    · simpa [Subtree.countAll, Node.locate] using this
    · simp only [Subtree.countAll]; omega

theorem countAll_holders (n target : Node) :
    Subtree.countAll ((n.holders target).map (·.subtree)) < n.subtree.count := by
  have h := countAll_filter_le n (·.mayHold target) n.position n.subtree.children
  rw [holders, List.map_reverse, Subtree.countAll_reverse, Subtree.count_eq]
  exact Nat.lt_succ_of_le h

/-- Searches below pending nodes, the first of them first; each comes with the closest
visible node at or above it, which is the parent of what is found directly below. -/
def parentIn (target : Node) : List (Node × Node) → Option Node
  | [] => none
  | (n, ancestor) :: rest =>
    if n.direct.any (·.same target) then some ancestor
    else
      parentIn target
        ((n.holders target).map (fun h => (h, if h.subtree.visible then h else ancestor)) ++ rest)
  termination_by pending => Subtree.countAll (pending.map (·.1.subtree))
  decreasing_by
    have := countAll_holders n target
    simp only [List.map_append, List.map_map, Function.comp_def, List.map_cons,
      Subtree.countAll_append, Subtree.countAll]
    omega

/-- The closest visible ancestor. The root has none. -/
def parent? (n : Node) : Option Node :=
  let root := n.tree.rootNode
  if n.same root then none else parentIn n [(root, root)]

/-! ### Text -/

/-- The node's part of a text, none of it if the text is too short. -/
def text (n : Node) (source : Array UInt8) : Except Utf8.Fault String :=
  if n.stopByte ≤ source.size then
    Utf8.decode (source.extract n.startByte n.stopByte).toList
  else Utf8.decode []

def toSexp (n : Node) : String := n.subtree.toSexp n.tree.language

def describe (n : Node) : String :=
  "\x7bNode " ++ n.kind ++ " " ++ n.startPoint.render ++ " - " ++ n.stopPoint.render ++ "\x7d"

end Node

end Reparse
