import Reparse.Grammar.Basic

/-!
Why bytes are no grammar table. Each cause is a value, and `LoadError.message` puts
it in words.
-/

namespace Reparse

namespace Encoding

/-- The versions that can be read. Tables carry a name from version 2 on. -/
def oldestVersion : UInt32 := 1
def newestVersion : UInt32 := 2
def namedVersion : UInt32 := 2

def headerSize : Nat := 40

end Encoding

/-- The parts of an encoded table that a reader asks for by name. -/
inductive Part where
  | magic | version
  | symbolCount | tokenCount | fieldCount | stateCount | lexStateCount | productionCount
  | externalCount | bodyLength
  | symbolName | symbolTraits | fieldName
  | fieldMapLength | fieldId | fieldChild | fieldInheritance
  | acceptCount | acceptedSymbol | acceptPriority
  | transitionCount | transitionRange | transitionTarget
  | lexMode
  | action | shiftState | reduceSymbol | reduceCount | reduceProduction | reducePrecedence
  | external | scannerStateCount | scannerState
  | languageName
  deriving DecidableEq, Repr

def Part.text : Part → String
  | magic => "magic"
  | version => "version"
  | symbolCount => "symbol count"
  | tokenCount => "token count"
  | fieldCount => "field count"
  | stateCount => "state count"
  | lexStateCount => "lex state count"
  | productionCount => "production count"
  | externalCount => "external token count"
  | bodyLength => "body length"
  | symbolName => "symbol name"
  | symbolTraits => "symbol metadata"
  | fieldName => "field name"
  | fieldMapLength => "field map length"
  | fieldId => "field id"
  | fieldChild => "field child index"
  | fieldInheritance => "field inheritance"
  | acceptCount => "accept count"
  | acceptedSymbol => "accepted symbol"
  | acceptPriority => "accept priority"
  | transitionCount => "transition count"
  | transitionRange => "transition range"
  | transitionTarget => "transition target"
  | lexMode => "lex mode"
  | action => "parse action"
  | shiftState => "shift state"
  | reduceSymbol => "reduce symbol"
  | reduceCount => "reduce child count"
  | reduceProduction => "reduce production"
  | reducePrecedence => "reduce precedence"
  | external => "external token"
  | scannerStateCount => "external state count"
  | scannerState => "external token set"
  | languageName => "language name"

/-- What is wrong with the bytes or the numbers of a table. -/
inductive Corruption where
  | tooShort (size : Nat)
  | noSignature
  | shortHeader (size : Nat)
  | bodyLength (declared found : Nat)
  | tooManySymbols (count : Nat)
  | tokenCount (tokens symbols : Nat)
  | oversizedCells
  | truncated (part : Part) (offset : Nat)
  | notText (part : Part)
  | unknownAction (tag : UInt8) (offset : Nat)
  | trailing (count : Nat)
  | tooFewStates
  | cellCount
  | acceptsNonterminal (index : Nat) (symbol : Symbol)
  | jump (index : Nat) (target : LexStateId)
  | lexState (state : Nat) (target : LexStateId)
  | scannerState (state : Nat) (target : UInt16)
  | field (id : FieldId)
  | shift (target : StateId)
  | reducesToTerminal (symbol : Symbol)
  | production (id : ProductionId)
  deriving DecidableEq, Repr

def Corruption.reason : Corruption → String
  | tooShort size => toString size ++ " bytes is too short for a table header"
  | noSignature => "missing MORF signature"
  | shortHeader size =>
    "header needs " ++ toString Encoding.headerSize ++ " bytes, found " ++ toString size
  | bodyLength declared found =>
    "header declares a " ++ toString declared ++ " byte body, found " ++ toString found
  | tooManySymbols count => toString count ++ " symbols do not fit in a symbol id"
  | tokenCount tokens symbols =>
    "token count " ++ toString tokens ++ " is out of range for " ++ toString symbols ++ " symbols"
  | oversizedCells => "parse table is larger than the table body"
  | truncated part offset => "truncated " ++ part.text ++ " at byte " ++ toString offset
  | notText part => part.text ++ " is not UTF-8"
  | unknownAction tag offset =>
    "unknown parse action tag " ++ toString tag ++ " at byte " ++ toString offset
  | trailing count => toString count ++ " unexpected bytes after the last section"
  | tooFewStates => "a table needs an error state and a start state"
  | cellCount => "parse table dimensions do not match the header"
  | acceptsNonterminal index symbol =>
    "lex state " ++ toString index ++ " accepts nonterminal " ++ toString symbol
  | jump index target =>
    "lex state " ++ toString index ++ " jumps to missing state " ++ toString target
  | lexState state target =>
    "parse state " ++ toString state ++ " uses missing lex state " ++ toString target
  | scannerState state target =>
    "parse state " ++ toString state ++ " uses missing external lex state "
      ++ toString target
  | field id => "field id " ++ toString id ++ " is out of range"
  | shift target => "shift to missing state " ++ toString target
  | reducesToTerminal symbol => "reduction to terminal " ++ toString symbol
  | production id => "missing production " ++ toString id

inductive LoadError where
  | incompatibleVersion (version : UInt32)
  | corrupt (corruption : Corruption)
  | unknownSymbol (symbol : Symbol) (symbolCount : Nat)
  deriving DecidableEq, Repr

def LoadError.message : LoadError → String
  | incompatibleVersion version =>
    "incompatible grammar table version " ++ toString version ++ ", expected "
      ++ toString Encoding.oldestVersion ++ " through " ++ toString Encoding.newestVersion
  | corrupt corruption => "corrupt grammar table: " ++ corruption.reason
  | unknownSymbol symbol symbolCount =>
    "grammar table references symbol " ++ toString symbol ++ ", but only "
      ++ toString symbolCount ++ " symbols exist"

end Reparse
