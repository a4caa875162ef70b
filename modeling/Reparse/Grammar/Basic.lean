/-!
Grammar tables: symbols, fields, the byte automaton of the tokens and the table of
parse actions.

A table refers to its parts by number. `Table.fault?` (in `Validity`) says whether
every such number leads somewhere.
-/

namespace Reparse

abbrev Symbol := UInt16
abbrev StateId := UInt16
abbrev FieldId := UInt16
abbrev ProductionId := UInt16
abbrev LexStateId := UInt16

/-- The end of the input. -/
def Symbol.stop : Symbol := 0

/-- What no token matches, and what recovery gives up on. No table holds it. -/
def Symbol.error : Symbol := 65535

/-- Where a missing goto leads. -/
def StateId.error : StateId := 0

def StateId.start : StateId := 1

/-- How a symbol shows in a tree. Hidden symbols give way to their children, and
extras may stand anywhere. -/
structure Traits where
  visible : Bool := false
  named : Bool := false
  extra : Bool := false
  supertype : Bool := false
  deriving DecidableEq, Repr, Inhabited

structure SymbolInfo where
  name : String
  traits : Traits
  deriving DecidableEq, Repr, Inhabited

/-- Gives a field to the child that has `child` children before it, extras not
counted. -/
structure FieldEntry where
  field : FieldId
  child : UInt8
  inherited : Bool
  deriving DecidableEq, Repr, Inhabited

/-- A lower priority number wins. -/
structure Acceptance where
  symbol : Symbol
  priority : UInt16
  deriving DecidableEq, Repr, Inhabited

/-- A move on any byte from `low` to `high`. -/
structure Transition where
  low : UInt8
  high : UInt8
  target : LexStateId
  deriving DecidableEq, Repr, Inhabited

structure LexState where
  accepts : List Acceptance := []
  transitions : List Transition := []
  deriving DecidableEq, Repr, Inhabited

namespace LexState

/-- The first transition that holds the byte decides. -/
def next? (s : LexState) (byte : UInt8) : Option LexStateId :=
  (s.transitions.find? fun t => t.low ≤ byte && byte ≤ t.high).map (·.target)

/-- The better of two acceptances: the second only if its priority is lower. -/
def preferred (best : Option Acceptance) (a : Acceptance) : Option Acceptance :=
  match best with
  | none => some a
  | some b => if a.priority < b.priority then some a else some b

/-- The lowest priority, and of equal ones the earliest. -/
def accepted? (s : LexState) : Option Symbol :=
  (s.accepts.foldl preferred none).map (·.symbol)

end LexState

/-- Where the lexer starts in a parse state. Scanner state 0 means no scanner. -/
structure LexMode where
  lexState : LexStateId := 0
  scannerState : UInt16 := 0
  deriving DecidableEq, Repr, Inhabited

/-- Pops `count` children, extras not counted, and builds `symbol` from them. -/
structure Reduction where
  symbol : Symbol
  count : Nat
  production : ProductionId
  precedence : Int := 0
  deriving DecidableEq, Repr, Inhabited

inductive Action where
  | shift (state : StateId)
  | reduce (r : Reduction)
  | accept
  deriving DecidableEq, Repr, Inhabited

/-- A compiled grammar. Symbols below `tokenCount` are terminals, field number `i`
is named by `fields[i - 1]`, and the cell of a state and a symbol is number
`state * symbols.size + symbol`. A nonterminal's cell shifts to its goto state. -/
structure Table where
  version : UInt32 := 2
  name : Option String := none
  symbols : Array SymbolInfo := #[]
  tokenCount : Nat := 0
  fields : Array String := #[]
  productions : Array (List FieldEntry) := #[]
  lexStates : Array LexState := #[]
  modes : Array LexMode := #[]
  cells : Array (Option Action) := #[]
  externals : Array Symbol := #[]
  scannerStates : Array (List Bool) := #[]
  deriving DecidableEq, Repr, Inhabited

namespace Table

def symbolCount (t : Table) : Nat := t.symbols.size

def stateCount (t : Table) : Nat := t.modes.size

def cellIndex (t : Table) (state : StateId) (symbol : Symbol) : Nat :=
  state.toNat * t.symbolCount + symbol.toNat

def action? (t : Table) (state : StateId) (symbol : Symbol) : Option Action :=
  if symbol.toNat < t.symbolCount then t.cells[t.cellIndex state symbol]?.join else none

end Table

end Reparse
