import Reparse.Language
import Reparse.Morpho.Tokens

/-!
The parse table of Morpho and the language made of it.

Each state is one row, under the items it stands for. The table is SLR(1): a reduction is
made on the tokens that can follow what it builds.
-/

namespace Reparse.Morpho

def statementStart : List Symbol := [identifier, integer, openParen, varWord, printWord, openBrace]

def afterRepeat : List Symbol := statementStart ++ [Symbol.stop]

def afterBlockRepeat : List Symbol := statementStart ++ [closeBrace]

def afterStatement : List Symbol := statementStart ++ [closeBrace, Symbol.stop]

def afterExpression : List Symbol := [semicolon, comma, plus, star, closeParen]

def afterDeclaration : List Symbol := [semicolon, comma]

abbrev Row := List (Symbol × Action)

/-- A shift, or a goto after a nonterminal. -/
def move (symbol : Symbol) (target : StateId) : Symbol × Action := (symbol, .shift target)

def reduceOn (lookaheads : List Symbol) (symbol : Symbol) (count : Nat)
    (production : ProductionId) : Row :=
  lookaheads.map fun lookahead => (lookahead, .reduce { symbol, count, production })

/-- Where an expression may begin; `done` is the state after it. -/
def expressionRow (done : StateId) : Row := [
  move identifier 13, move integer 14, move openParen 17,
  move expression done, move binaryExpression 15, move parenthesizedExpression 16]

/-- Where a statement may begin; `done` is the state after it. -/
def statementRow (done : StateId) : Row :=
  expressionRow 9 ++ [
    move varWord 10, move printWord 11, move openBrace 12,
    move statement done, move expressionStatement 5, move declarationStatement 6,
    move printStatement 7, move block 8]

def operators : Row := [move plus 20, move star 21]

def rows : List Row := [
  -- 0: the error state
  [],
  -- 1: the start of the file
  statementRow 4 ++ reduceOn [Symbol.stop] sourceFile 0 noFields
    ++ [move sourceFile 2, move sourceFileRepeat 3],
  -- 2: source_file .
  [(Symbol.stop, .accept)],
  -- 3: source_file_repeat1 . _statement
  statementRow 18 ++ reduceOn [Symbol.stop] sourceFile 1 noFields,
  -- 4: _statement . (first in the file)
  reduceOn afterRepeat sourceFileRepeat 1 noFields,
  -- 5 to 8: a complete statement of each kind
  reduceOn afterStatement statement 1 noFields,
  reduceOn afterStatement statement 1 noFields,
  reduceOn afterStatement statement 1 noFields,
  reduceOn afterStatement statement 1 noFields,
  -- 9: _expression . ";"
  move semicolon 19 :: operators,
  -- 10: "var" . declarations
  [move identifier 24, move variableDeclaration 23, move declarationList 22],
  -- 11: "print" . _expression ";"
  expressionRow 25,
  -- 12: "{" . statements "}"
  statementRow 28 ++ [move closeBrace 26, move blockRepeat 27],
  -- 13 to 16: an expression made of a single child
  reduceOn afterExpression expression 1 noFields,
  reduceOn afterExpression expression 1 noFields,
  reduceOn afterExpression expression 1 noFields,
  reduceOn afterExpression expression 1 noFields,
  -- 17: "(" . _expression ")"
  expressionRow 29,
  -- 18: source_file_repeat1 _statement .
  reduceOn afterRepeat sourceFileRepeat 2 noFields,
  -- 19: _expression ";" .
  reduceOn afterStatement expressionStatement 2 noFields,
  -- 20 and 21: _expression operator . _expression
  expressionRow 30,
  expressionRow 31,
  -- 22: "var" declarations . ";"
  [move semicolon 32, move comma 33],
  -- 23: variable_declaration . (first in the list)
  reduceOn afterDeclaration declarationList 1 noFields,
  -- 24: identifier . ("=" _expression)?
  move equal 34 :: reduceOn afterDeclaration variableDeclaration 1 nameField,
  -- 25: "print" _expression . ";"
  move semicolon 35 :: operators,
  -- 26: "{" "}" .
  reduceOn afterStatement block 2 noFields,
  -- 27: "{" block_repeat1 . "}"
  statementRow 37 ++ [move closeBrace 36],
  -- 28: _statement . (first in a block)
  reduceOn afterBlockRepeat blockRepeat 1 noFields,
  -- 29: "(" _expression . ")"
  move closeParen 38 :: operators,
  -- 30: _expression "+" _expression .
  move star 21 :: reduceOn [semicolon, comma, plus, closeParen] binaryExpression 3 binaryFields,
  -- 31: _expression "*" _expression .
  reduceOn afterExpression binaryExpression 3 binaryFields,
  -- 32: "var" declarations ";" .
  reduceOn afterStatement declarationStatement 3 noFields,
  -- 33: declarations "," . variable_declaration
  [move identifier 24, move variableDeclaration 39],
  -- 34: identifier "=" . _expression
  expressionRow 40,
  -- 35: "print" _expression ";" .
  reduceOn afterStatement printStatement 3 noFields,
  -- 36: "{" block_repeat1 "}" .
  reduceOn afterStatement block 3 noFields,
  -- 37: block_repeat1 _statement .
  reduceOn afterBlockRepeat blockRepeat 2 noFields,
  -- 38: "(" _expression ")" .
  reduceOn afterExpression parenthesizedExpression 3 noFields,
  -- 39: declarations "," variable_declaration .
  reduceOn afterDeclaration declarationList 3 noFields,
  -- 40: identifier "=" _expression .
  operators ++ reduceOn afterDeclaration variableDeclaration 3 nameAndValueFields]

/-- A row's cells, one for each symbol. -/
def cellsOf (row : Row) : List (Option Action) :=
  (List.range symbols.length).map fun i => row.lookup i.toUInt16

def table : Table where
  name := some "morpho"
  symbols := symbols.toArray
  tokenCount := tokenCount
  fields := fields.toArray
  productions := productions.toArray
  lexStates := lexStates.toArray
  modes := (rows.map fun _ => ⟨startState, 0⟩).toArray
  cells := (rows.flatMap cellsOf).toArray

def language (handle : Nat) : Language := { handle, table }

end Reparse.Morpho
