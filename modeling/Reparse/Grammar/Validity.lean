import Reparse.Grammar.Error

/-!
Whether every number in a table leads somewhere. The first fault counts, in the order
states, cells, lex states, lex modes, field maps, actions, external tokens.
-/

namespace Reparse.Table

def symbolFault? (t : Table) (symbol : Symbol) : Option LoadError :=
  if symbol.toNat < t.symbolCount then none
  else some (.unknownSymbol symbol t.symbolCount)

def shapeFault? (t : Table) : Option LoadError :=
  if t.stateCount ≤ StateId.start.toNat then some (.corrupt .tooFewStates)
  else if t.cells.size ≠ t.stateCount * t.symbolCount then some (.corrupt .cellCount)
  else none

def acceptanceFault? (t : Table) (index : Nat) (a : Acceptance) : Option LoadError :=
  t.symbolFault? a.symbol <|>
    if a.symbol.toNat < t.tokenCount then none
    else some (.corrupt (.acceptsNonterminal index a.symbol))

def transitionFault? (t : Table) (index : Nat) (move : Transition) : Option LoadError :=
  if move.target.toNat < t.lexStates.size then none
  else some (.corrupt (.jump index move.target))

def lexStateFault? (t : Table) (index : Nat) (s : LexState) : Option LoadError :=
  s.accepts.findSome? (t.acceptanceFault? index) <|>
    s.transitions.findSome? (t.transitionFault? index)

def modeFault? (t : Table) (state : Nat) (mode : LexMode) : Option LoadError :=
  if t.lexStates.size ≤ mode.lexState.toNat then
    some (.corrupt (.lexState state mode.lexState))
  else if mode.scannerState ≠ 0 ∧ t.scannerStates.size ≤ mode.scannerState.toNat then
    some (.corrupt (.scannerState state mode.scannerState))
  else none

def fieldFault? (t : Table) (entry : FieldEntry) : Option LoadError :=
  if entry.field = 0 ∨ t.fields.size < entry.field.toNat then
    some (.corrupt (.field entry.field))
  else none

def actionFault? (t : Table) : Action → Option LoadError
  | .shift state =>
    if state.toNat < t.stateCount then none else some (.corrupt (.shift state))
  | .reduce r =>
    t.symbolFault? r.symbol <|>
      if r.symbol.toNat < t.tokenCount then some (.corrupt (.reducesToTerminal r.symbol))
      else if r.production ≠ 0 ∧ t.productions.size ≤ r.production.toNat then
        some (.corrupt (.production r.production))
      else none
  | .accept => none

def fault? (t : Table) : Option LoadError :=
  t.shapeFault?
    <|> t.lexStates.toList.zipIdx.findSome? (fun (s, index) => t.lexStateFault? index s)
    <|> t.modes.toList.zipIdx.findSome? (fun (mode, state) => t.modeFault? state mode)
    <|> t.productions.toList.findSome? (·.findSome? t.fieldFault?)
    <|> t.cells.toList.findSome? (·.bind t.actionFault?)
    <|> t.externals.toList.findSome? t.symbolFault?

/-- Every number in the table leads somewhere. -/
def validate (t : Table) : Except LoadError Unit :=
  match t.fault? with
  | some fault => .error fault
  | none => .ok ()

end Reparse.Table
