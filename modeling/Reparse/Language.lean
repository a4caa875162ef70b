import Reparse.Grammar.Decoding
import Reparse.Lex.Scanner
import Reparse.Text.Quoted

/-!
Loaded grammars, and what can be asked of them.

A language is a table that was checked, with a scanner for its external tokens if it has
one. Two languages loaded apart stay apart even when their tables agree: the handle tells
them apart, and a tree belongs to one handle.
-/

namespace Reparse

structure Language where
  handle : Nat
  table : Table
  scanner : Option Scanner := none

namespace Language

def load (handle : Nat) (bytes : List UInt8) (scanner : Option Scanner) :
    Except LoadError Language := do
  return { handle, table := ← Table.decode bytes, scanner }

/-- Both come from one load. -/
def same (a b : Language) : Bool := a.handle == b.handle

variable (lang : Language)

def symbolName? (symbol : Symbol) : Option String :=
  if symbol = Symbol.error then some "ERROR"
  else lang.table.symbols[symbol.toNat]?.map (·.name)

/-- A symbol's name in messages. -/
def nameOf (symbol : Symbol) : String := (lang.symbolName? symbol).getD "?"

/-- The first visible symbol of that name, among the named ones or the others. -/
def symbolFor? (name : String) (named : Bool) : Option Symbol :=
  if named && name == "ERROR" then some Symbol.error
  else
    (lang.table.symbols.findIdx? fun s =>
      s.name == name && s.traits.visible && s.traits.named == named).map (·.toUInt16)

def traits (symbol : Symbol) : Traits :=
  if symbol = Symbol.error then { visible := true, named := true }
  else (lang.table.symbols[symbol.toNat]?.map (·.traits)).getD {}

def fieldName? (field : FieldId) : Option String :=
  if field = 0 then none else lang.table.fields[field.toNat - 1]?

def fieldFor? (name : String) : Option FieldId :=
  (lang.table.fields.findIdx? (· == name)).map fun i => (i + 1).toUInt16

def fieldMap (production : ProductionId) : List FieldEntry :=
  lang.table.productions[production.toNat]?.getD []

/-- The field that a production itself gives to a child, entries of nested fields aside. -/
def ownField? (production : ProductionId) (child : Nat) : Option FieldId :=
  ((lang.fieldMap production).find? fun e => !e.inherited && e.child.toNat == child).map (·.field)

def action? (state : StateId) (symbol : Symbol) : Option Action :=
  lang.table.action? state symbol

/-- Where a shift or a goto leads, the error state if nowhere. -/
def next (state : StateId) (symbol : Symbol) : StateId :=
  match lang.action? state symbol with
  | some (.shift target) => target
  | _ => StateId.error

def lexMode (state : StateId) : LexMode :=
  lang.table.modes[state.toNat]?.getD {}

def lexState? (id : LexStateId) : Option LexState :=
  lang.table.lexStates[id.toNat]?

/-- Which external tokens a scanner state lets through. -/
def enabled (scannerState : UInt16) : List Bool :=
  if scannerState = 0 then [] else lang.table.scannerStates[scannerState.toNat]?.getD []

def external? (index : Nat) : Option Symbol := lang.table.externals[index]?

def describe : String :=
  let name :=
    match lang.table.name with
    | some name => "Some(" ++ Quoted.quote name ++ ")"
    | none => "None"
  "Language \x7b name: " ++ name
    ++ ", version: " ++ toString lang.table.version
    ++ ", symbol_count: " ++ toString lang.table.symbolCount
    ++ ", state_count: " ++ toString lang.table.stateCount ++ " \x7d"

end Language

end Reparse
