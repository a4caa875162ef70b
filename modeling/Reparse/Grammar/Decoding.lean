import Reparse.Grammar.Encoding
import Reparse.Grammar.Validity

/-!
Reading a table from bytes.

A reader takes bytes off the front of what is left and counts them, so that it can say
where bytes ran out. `Table.decode` reads the header, checks its counts, reads every
section and then checks the table's own references.
-/

namespace Reparse

namespace Decoding

/-- The bytes not read yet, and how many were read before them. -/
structure Source where
  rest : List UInt8
  offset : Nat := 0

abbrev Reader := StateT Source (Except LoadError)

def corrupt {α : Type} (corruption : Corruption) : Reader α :=
  throw (.corrupt corruption)

def take (count : Nat) (part : Part) : Reader (List UInt8) := fun s =>
  let (taken, rest) := s.rest.splitAt count
  if taken.length < count then .error (.corrupt (.truncated part s.offset))
  else .ok (taken, ⟨rest, s.offset + count⟩)

/-- The number that little-endian digits stand for. -/
def ofDigits (bytes : List UInt8) : Nat :=
  bytes.foldr (fun byte n => byte.toNat + 256 * n) 0

def byte (part : Part) : Reader UInt8 := fun s =>
  match s.rest with
  | [] => .error (.corrupt (.truncated part s.offset))
  | b :: rest => .ok (b, ⟨rest, s.offset + 1⟩)

def word (part : Part) : Reader UInt16 :=
  return (ofDigits (← take 2 part)).toUInt16

def double (part : Part) : Reader Nat :=
  return ofDigits (← take 4 part)

def flag (part : Part) : Reader Bool :=
  return (← byte part) != 0

def text (part : Part) : Reader String := do
  let length ← word part
  let bytes ← take length.toNat part
  match String.fromUTF8? ⟨bytes.toArray⟩ with
  | some s => return s
  | none => corrupt (.notText part)

/-- Reads `count` items after those in `items`. -/
def repeated {α : Type} (item : Reader α) : Nat → Array α → Reader (Array α)
  | 0, items, s => .ok (items, s)
  | count + 1, items, s =>
    match item s with
    | .error e => .error e
    | .ok (a, s) => repeated item count (items.push a) s

def many {α : Type} (count : Nat) (item : Reader α) : Reader (Array α) :=
  repeated item count #[]

def counted {α : Type} (part : Part) (item : Reader α) : Reader (List α) := do
  let count ← word part
  return (← many count.toNat item).toList

end Decoding

open Decoding

/-- Bits beyond the four traits are ignored. -/
def Traits.ofFlags (flags : UInt8) : Traits where
  visible := flags &&& 1 != 0
  named := flags &&& 2 != 0
  extra := flags &&& 4 != 0
  supertype := flags &&& 8 != 0

def SymbolInfo.read : Reader SymbolInfo := do
  let name ← text .symbolName
  return ⟨name, .ofFlags (← byte .symbolTraits)⟩

def FieldEntry.read : Reader FieldEntry := do
  let field ← word .fieldId
  let child ← byte .fieldChild
  return ⟨field, child, ← flag .fieldInheritance⟩

def Acceptance.read : Reader Acceptance := do
  let symbol ← word .acceptedSymbol
  return ⟨symbol, ← word .acceptPriority⟩

def Transition.read : Reader Transition := do
  let low ← byte .transitionRange
  let high ← byte .transitionRange
  return ⟨low, high, ← word .transitionTarget⟩

def LexState.read : Reader LexState := do
  let accepts ← counted .acceptCount Acceptance.read
  return ⟨accepts, ← counted .transitionCount Transition.read⟩

def LexMode.read : Reader LexMode := do
  let lexState ← word .lexMode
  return ⟨lexState, ← word .lexMode⟩

/-- The number between -2 ^ 15 and 2 ^ 15 that sixteen bits stand for. -/
def Reduction.precedenceOf (bits : UInt16) : Int :=
  Int.bmod bits.toNat 65536

def Reduction.read : Reader Reduction := do
  let symbol ← word .reduceSymbol
  let count ← word .reduceCount
  let production ← word .reduceProduction
  return ⟨symbol, count.toNat, production, precedenceOf (← word .reducePrecedence)⟩

def Action.read : Reader (Option Action) := do
  let offset := (← get).offset
  let tag ← byte .action
  if tag = Encoding.tagNone then return none
  else if tag = Encoding.tagShift then return some (.shift (← word .shiftState))
  else if tag = Encoding.tagReduce then return some (.reduce (← Reduction.read))
  else if tag = Encoding.tagAccept then return some .accept
  else corrupt (.unknownAction tag offset)

namespace Table

/-- The counts of an encoded table's header. -/
structure Header where
  version : UInt32
  symbols : Nat
  tokens : Nat
  fields : Nat
  states : Nat
  lexStates : Nat
  productions : Nat
  externals : Nat
  bodyLength : Nat

def Header.read (size : Nat) : Reader Header := do
  if size < 8 then corrupt (.tooShort size)
  let magic ← take 4 .magic
  if magic ≠ Encoding.signature then corrupt .noSignature
  let version := (← double .version).toUInt32
  if version < Encoding.oldestVersion ∨ Encoding.newestVersion < version then
    throw (.incompatibleVersion version)
  if size < Encoding.headerSize then corrupt (.shortHeader size)
  let symbols ← double .symbolCount
  let tokens ← double .tokenCount
  let fields ← double .fieldCount
  let states ← double .stateCount
  let lexStates ← double .lexStateCount
  let productions ← double .productionCount
  let externals ← double .externalCount
  let bodyLength ← double .bodyLength
  return { version, symbols, tokens, fields, states, lexStates, productions, externals, bodyLength }

/-- What can be said against the counts before the sections are read. -/
def Header.fault? (h : Header) (size : Nat) : Option Corruption :=
  if h.bodyLength ≠ size - Encoding.headerSize then
    some (.bodyLength h.bodyLength (size - Encoding.headerSize))
  else if Symbol.error.toNat ≤ h.symbols then some (.tooManySymbols h.symbols)
  else if h.tokens = 0 ∨ h.symbols < h.tokens then some (.tokenCount h.tokens h.symbols)
  else if h.bodyLength < h.states * h.symbols then some .oversizedCells
  else none

def readSections (h : Header) : Reader Table := do
  let symbols ← many h.symbols SymbolInfo.read
  let fields ← many h.fields (text .fieldName)
  let productions ← many h.productions (counted .fieldMapLength FieldEntry.read)
  let lexStates ← many h.lexStates LexState.read
  let modes ← many h.states LexMode.read
  let cells ← many (h.states * h.symbols) Action.read
  let externals ← many h.externals (word .external)
  let rows ← word .scannerStateCount
  let scannerStates ← many rows.toNat (return (← many h.externals (flag .scannerState)).toList)
  let name ←
    if Encoding.namedVersion ≤ h.version then some <$> text .languageName else pure none
  return {
    version := h.version, tokenCount := h.tokens
    name, symbols, fields, productions, lexStates, modes, cells, externals, scannerStates }

def read (size : Nat) : Reader Table := do
  let header ← Header.read size
  if let some corruption := header.fault? size then corrupt corruption
  let table ← readSections header
  let left := (← get).rest
  unless left.isEmpty do corrupt (.trailing left.length)
  return table

/-- The table that the bytes stand for, with every reference checked. -/
def decode (bytes : List UInt8) : Except LoadError Table := do
  let (table, _) ← read bytes.length ⟨bytes, 0⟩
  table.validate
  return table

end Table

end Reparse
