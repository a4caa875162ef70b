import Reparse.Grammar.Basic

/-!
Building a table piece by piece. Every `add` gives the number by which the rest of
the table refers to the new piece.

The cells are laid out by symbol, so symbols come before `withStates`.
-/

namespace Reparse.Table

def addSymbol (t : Table) (name : String) (traits : Traits) : Table × Symbol :=
  let symbol := t.symbols.size.toUInt16
  ({ t with symbols := t.symbols.push ⟨name, traits⟩ }, symbol)

/-- Fields count from 1. -/
def addField (t : Table) (name : String) : Table × FieldId :=
  let field := (t.fields.size + 1).toUInt16
  ({ t with fields := t.fields.push name }, field)

def addProduction (t : Table) (entries : List FieldEntry) : Table × ProductionId :=
  let production := t.productions.size.toUInt16
  ({ t with productions := t.productions.push entries }, production)

def addLexState (t : Table) (state : LexState) : Table × LexStateId :=
  let id := t.lexStates.size.toUInt16
  ({ t with lexStates := t.lexStates.push state }, id)

/-- The given number of states, new ones in lex mode `mode` and without actions. -/
def withStates (t : Table) (count : Nat) (mode : LexMode) : Table :=
  { t with
    modes := resize t.modes count mode
    cells := resize t.cells (count * t.symbolCount) none }
where
  resize {α : Type} (items : Array α) (count : Nat) (fill : α) : Array α :=
    items.take count ++ Array.replicate (count - items.size) fill

def withCellCount (t : Table) (count : Nat) : Table :=
  { t with cells := withStates.resize t.cells count none }

def setMode (t : Table) (state : Nat) (mode : LexMode) : Table :=
  { t with modes := t.modes.setIfInBounds state mode }

/-- A cell outside the table is left alone. -/
def setAction (t : Table) (state : StateId) (symbol : Symbol) (action : Action) : Table :=
  { t with cells := t.cells.setIfInBounds (t.cellIndex state symbol) (some action) }

/-- External tokens are numbered from 0. -/
def addExternal (t : Table) (symbol : Symbol) : Table × Nat :=
  let index := t.externals.size
  ({ t with externals := t.externals.push symbol }, index)

/-- Scanner state 0 stands for no scanner: the first call puts it in, with every
external token off. -/
def addScannerState (t : Table) (valid : List Bool) : Table × UInt16 :=
  let known :=
    if t.scannerStates.isEmpty then #[List.replicate t.externals.size false]
    else t.scannerStates
  let id := known.size.toUInt16
  ({ t with scannerStates := known.push valid }, id)

end Reparse.Table
