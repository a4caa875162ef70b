import Reparse.Syntax.Subtree

/-!
Subtrees as S-expressions.

The root, the named visible nodes and the missing tokens are written, each in parentheses
after a blank, with the field that it stands in. A hidden node hands its field on to the
children that have none of their own.
-/

namespace Reparse.Subtree

variable (lang : Language)

/-- A node's opening parenthesis and name. -/
def opening (t : Subtree) : String :=
  let name := lang.nameOf t.symbol
  if t.info.missing then
    "(MISSING " ++ (if t.info.named then name else Quoted.quote name)
  else "(" ++ name

def isWritten (t : Subtree) : Bool := t.info.missing || (t.visible && t.info.named)

mutual

/-- Writes a subtree below the root after `out`, where `field` is its field. -/
def writeSexp (out : String) (field : Option FieldId) : Subtree → String
  | t@⟨_, info, children⟩ =>
    if t.isWritten then
      let label :=
        match field.bind lang.fieldName? with
        | some name => name ++ ": "
        | none => ""
      writeChildren (out ++ " " ++ label ++ t.opening lang) info.production none 0 children ++ ")"
    else writeChildren out info.production field 0 children

/-- Writes children of a node: `index` counts those before that are no extras, and
`inherited` is the field that a hidden parent hands on. -/
def writeChildren (out : String) (production : ProductionId) (inherited : Option FieldId)
    (index : Nat) : List Subtree → String
  | [] => out
  | child :: rest =>
    if child.extra then
      writeChildren (child.writeSexp out none) production inherited index rest
    else
      let field := lang.ownField? production index <|> inherited
      writeChildren (child.writeSexp out field) production inherited (index + 1) rest

end

def toSexp (t : Subtree) : String :=
  writeChildren lang (t.opening lang) t.info.production none 0 t.children ++ ")"

end Reparse.Subtree
