import Reparse.Morpho.Symbols

/-!
The byte automaton of Morpho's tokens.

State 0 is where every token starts. A word walks through the states of a keyword as long
as it is a beginning of that keyword, and accepts as an identifier all the while; at the
keyword's end both accept and the keyword has the lower priority.
-/

namespace Reparse.Morpho

def startState : LexStateId := 0
def whitespaceState : LexStateId := 1
def slashState : LexStateId := 2
def commentState : LexStateId := 3
def integerState : LexStateId := 4
def identifierState : LexStateId := 5
def punctuationState : LexStateId := 6
def varState : LexStateId := 15
def printState : LexStateId := 18

/-- The tokens of one byte, in the order of their states from `punctuationState` on. -/
def punctuation : List (UInt8 × Symbol) := [
  (61, equal), (44, comma), (59, semicolon), (43, plus), (42, star),
  (40, openParen), (41, closeParen), (123, openBrace), (125, closeBrace)]

def varBytes : List UInt8 := [118, 97, 114]
def printBytes : List UInt8 := [112, 114, 105, 110, 116]

def digits : Transition := ⟨48, 57, identifierState⟩

def letters : List Transition :=
  [⟨65, 90, identifierState⟩, ⟨95, 95, identifierState⟩, ⟨97, 122, identifierState⟩]

def blanks : List Transition := [⟨9, 13, whitespaceState⟩, ⟨32, 32, whitespaceState⟩]

/-- Keywords give way to identifiers. -/
def asIdentifier : Acceptance := ⟨identifier, 1⟩

/-- The states after each byte of a keyword, when `rest` is left of it and the state
before them was the one before `state`. -/
def keywordStates (symbol : Symbol) (state : LexStateId) : (rest : List UInt8) → List LexState
  | [] => [⟨[⟨symbol, 0⟩, asIdentifier], digits :: letters⟩]
  | byte :: rest =>
    ⟨[asIdentifier], ⟨byte, byte, state + 1⟩ :: digits :: letters⟩
      :: keywordStates symbol (state + 1) rest

def starts : LexState where
  transitions :=
    blanks ++ [⟨47, 47, slashState⟩, ⟨48, 57, integerState⟩]
      ++ punctuation.zipIdx.map (fun ((byte, _), i) => ⟨byte, byte, punctuationState + i.toUInt16⟩)
      ++ [⟨118, 118, varState⟩, ⟨112, 112, printState⟩]
      ++ letters

def lexStates : List LexState :=
  [starts,
    ⟨[⟨whitespace, 0⟩], blanks⟩,
    ⟨[], [⟨47, 47, commentState⟩]⟩,
    ⟨[⟨comment, 0⟩], [⟨0, 9, commentState⟩, ⟨11, 255, commentState⟩]⟩,
    ⟨[⟨integer, 0⟩], [⟨48, 57, integerState⟩]⟩,
    ⟨[asIdentifier], digits :: letters⟩]
    ++ punctuation.map (fun (_, symbol) => ⟨[⟨symbol, 0⟩], []⟩)
    ++ keywordStates varWord varState varBytes.tail
    ++ keywordStates printWord printState printBytes.tail

end Reparse.Morpho
