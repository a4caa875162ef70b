import Reparse.Grammar.Basic

/-!
The symbols and fields of Morpho, a small language of declarations, expressions and
blocks:

```text
source_file           := _statement*
_statement            := expression_statement | declaration_statement
                       | print_statement | block
expression_statement  := _expression ";"
declaration_statement := "var" variable_declaration ("," variable_declaration)* ";"
variable_declaration  := name: identifier ("=" value: _expression)?
print_statement       := "print" _expression ";"
block                 := "{" _statement* "}"
_expression           := identifier | integer | binary_expression
                       | parenthesized_expression
binary_expression     := left: _expression operator: ("+" | "*") right: _expression
parenthesized_expression := "(" _expression ")"
```

`*` binds tighter than `+`, and both associate to the left. Whitespace and comments from
`//` to the end of the line are extras. Hidden symbols start with an underscore or stand
for a repetition.
-/

namespace Reparse.Morpho

def identifier : Symbol := 1
def integer : Symbol := 2
def varWord : Symbol := 3
def printWord : Symbol := 4
def equal : Symbol := 5
def comma : Symbol := 6
def semicolon : Symbol := 7
def plus : Symbol := 8
def star : Symbol := 9
def openParen : Symbol := 10
def closeParen : Symbol := 11
def openBrace : Symbol := 12
def closeBrace : Symbol := 13
def comment : Symbol := 14
def whitespace : Symbol := 15

def sourceFile : Symbol := 16
def statement : Symbol := 17
def expressionStatement : Symbol := 18
def declarationStatement : Symbol := 19
def variableDeclaration : Symbol := 20
def printStatement : Symbol := 21
def block : Symbol := 22
def expression : Symbol := 23
def binaryExpression : Symbol := 24
def parenthesizedExpression : Symbol := 25
def sourceFileRepeat : Symbol := 26
def blockRepeat : Symbol := 27
def declarationList : Symbol := 28

def named : Traits := { visible := true, named := true }
def anonymous : Traits := { visible := true }
def hidden : Traits := {}
def supertype : Traits := { supertype := true }

/-- In the order of their numbers, the end of the input first. -/
def symbols : List SymbolInfo := [
  ⟨"end", hidden⟩,
  ⟨"identifier", named⟩, ⟨"integer", named⟩,
  ⟨"var", anonymous⟩, ⟨"print", anonymous⟩,
  ⟨"=", anonymous⟩, ⟨",", anonymous⟩, ⟨";", anonymous⟩, ⟨"+", anonymous⟩, ⟨"*", anonymous⟩,
  ⟨"(", anonymous⟩, ⟨")", anonymous⟩, ⟨"\x7b", anonymous⟩, ⟨"\x7d", anonymous⟩,
  ⟨"comment", { named with extra := true }⟩, ⟨"whitespace", { anonymous with extra := true }⟩,
  ⟨"source_file", named⟩,
  ⟨"_statement", supertype⟩,
  ⟨"expression_statement", named⟩, ⟨"declaration_statement", named⟩,
  ⟨"variable_declaration", named⟩, ⟨"print_statement", named⟩, ⟨"block", named⟩,
  ⟨"_expression", supertype⟩,
  ⟨"binary_expression", named⟩, ⟨"parenthesized_expression", named⟩,
  ⟨"source_file_repeat1", hidden⟩, ⟨"block_repeat1", hidden⟩,
  ⟨"_variable_declaration_list", hidden⟩]

def tokenCount : Nat := 16

def fields : List String := ["left", "name", "operator", "right", "value"]

def noFields : ProductionId := 0
def binaryFields : ProductionId := 1
def nameField : ProductionId := 2
def nameAndValueFields : ProductionId := 3

def productions : List (List FieldEntry) := [
  [],
  [⟨1, 0, false⟩, ⟨3, 1, false⟩, ⟨4, 2, false⟩],
  [⟨2, 0, false⟩],
  [⟨2, 0, false⟩, ⟨5, 2, false⟩]]

end Reparse.Morpho
