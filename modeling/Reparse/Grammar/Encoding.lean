import Reparse.Grammar.Error

/-!
Writing a table as bytes.

A header of forty bytes holds the signature `MORF`, the version, seven counts and the
length of what follows. Then come the sections: symbols, fields, field maps, lex states,
lex modes, cells, external tokens and scanner states, and the name in versions that have
one. Numbers are little-endian, lists and texts follow their length, and an action starts
with a tag. `Decoding` reads this back.
-/

namespace Reparse

namespace Encoding

def signature : List UInt8 := [77, 79, 82, 70]

def tagNone : UInt8 := 0
def tagShift : UInt8 := 1
def tagReduce : UInt8 := 2
def tagAccept : UInt8 := 3

/-- The low two bytes of a number. -/
def word (n : Nat) : List UInt8 := [n.toUInt8, (n / 256).toUInt8]

/-- The low four bytes of a number. -/
def double (n : Nat) : List UInt8 :=
  [n.toUInt8, (n / 256).toUInt8, (n / 65536).toUInt8, (n / 16777216).toUInt8]

def flag (b : Bool) : UInt8 := if b then 1 else 0

def text (s : String) : List UInt8 :=
  word s.utf8ByteSize ++ s.toUTF8.toList

/-- A list after its length. -/
def counted {α : Type} (item : α → List UInt8) (items : List α) : List UInt8 :=
  word items.length ++ items.flatMap item

end Encoding

open Encoding

/-- One bit per trait. -/
def Traits.flags (t : Traits) : UInt8 :=
  flag t.visible ||| flag t.named <<< 1 ||| flag t.extra <<< 2 ||| flag t.supertype <<< 3

def SymbolInfo.encode (s : SymbolInfo) : List UInt8 :=
  text s.name ++ [s.traits.flags]

def FieldEntry.encode (e : FieldEntry) : List UInt8 :=
  word e.field.toNat ++ [e.child, flag e.inherited]

def Acceptance.encode (a : Acceptance) : List UInt8 :=
  word a.symbol.toNat ++ word a.priority.toNat

def Transition.encode (t : Transition) : List UInt8 :=
  [t.low, t.high] ++ word t.target.toNat

def LexState.encode (s : LexState) : List UInt8 :=
  counted Acceptance.encode s.accepts ++ counted Transition.encode s.transitions

def LexMode.encode (m : LexMode) : List UInt8 :=
  word m.lexState.toNat ++ word m.scannerState.toNat

/-- A precedence is written in two's complement. -/
def Reduction.encode (r : Reduction) : List UInt8 :=
  word r.symbol.toNat ++ word r.count ++ word r.production.toNat
    ++ word (r.precedence % 65536).toNat

def Action.encode : Option Action → List UInt8
  | none => [tagNone]
  | some (.shift state) => tagShift :: word state.toNat
  | some (.reduce r) => tagReduce :: r.encode
  | some .accept => [tagAccept]

namespace Table

/-- One cell per state and symbol; cells that the table lacks are empty. -/
def encodedCells (t : Table) : List (Option Action) :=
  let count := t.stateCount * t.symbolCount
  t.cells.toList.take count ++ List.replicate (count - t.cells.size) none

/-- One entry per external token; entries that the row lacks are off. -/
def encodedRow (t : Table) (valid : List Bool) : List UInt8 :=
  (valid.take t.externals.size ++ List.replicate (t.externals.size - valid.length) false).map flag

def body (t : Table) : List UInt8 :=
  t.symbols.toList.flatMap SymbolInfo.encode
    ++ t.fields.toList.flatMap text
    ++ t.productions.toList.flatMap (counted FieldEntry.encode)
    ++ t.lexStates.toList.flatMap LexState.encode
    ++ t.modes.toList.flatMap LexMode.encode
    ++ t.encodedCells.flatMap Action.encode
    ++ t.externals.toList.flatMap (fun symbol => word symbol.toNat)
    ++ counted t.encodedRow t.scannerStates.toList
    ++ (if namedVersion ≤ t.version then text (t.name.getD "") else [])

def header (t : Table) (bodyLength : Nat) : List UInt8 :=
  signature
    ++ double t.version.toNat
    ++ double t.symbolCount
    ++ double t.tokenCount
    ++ double t.fields.size
    ++ double t.stateCount
    ++ double t.lexStates.size
    ++ double t.productions.size
    ++ double t.externals.size
    ++ double bodyLength

def encode (t : Table) : List UInt8 :=
  t.header t.body.length ++ t.body

end Table

end Reparse
