import Reparse.Event

/-!
Cutting a text into tokens.

A token is the longest match of the byte automaton from the lex state of the mode. Where
the mode has a scanner state, the scanner is asked first. There is always a token: the
end at the end, and one byte of error where nothing matches. A token's reach is one past
the last byte that had a say in it.
-/

namespace Reparse

structure Token where
  symbol : Symbol
  start : Nat
  stop : Nat
  reach : Nat
  deriving DecidableEq, Repr, Inhabited

/-- How many bytes past its end the token depends on. -/
def Token.lookahead (t : Token) : Nat := t.reach - t.stop

/-- Where the automaton stopped, and the last token it accepted on the way with its end. -/
structure Walk where
  position : Nat
  accepted : Option (Symbol × Nat) := none
  deriving DecidableEq, Repr

namespace Language

variable (lang : Language) (input : Array UInt8)

/-- Moves on while the automaton does, at most to the end of the input, which is
`remaining` bytes away. -/
def walk : (remaining : Nat) → LexStateId → Walk → Walk
  | 0, _, w => w
  | remaining + 1, state, w =>
    match input[w.position]?, lang.lexState? state with
    | some byte, some here =>
      match here.next? byte with
      | none => w
      | some target =>
        let position := w.position + 1
        let accepted :=
          match (lang.lexState? target).bind (·.accepted?) with
          | some symbol => some (symbol, position)
          | none => w.accepted
        walk remaining target ⟨position, accepted⟩
    | _, _ => w

/-- The automaton's token. The byte it stopped at, or the end, was looked at too. -/
def tableToken (state : LexStateId) (offset : Nat) : Token × List Event :=
  let w := lang.walk input (input.size - offset) state ⟨offset, none⟩
  match w.accepted with
  | some (symbol, stop) => (⟨symbol, offset, stop, w.position + 1⟩, [])
  | none =>
    (⟨Symbol.error, offset, offset + 1, max (w.position + 1) (offset + 2)⟩, [.noToken offset])

/-- A claim counts if it takes bytes that are there and names a token that is valid. -/
def claimed? (claim : Claim) (valid : List Bool) (offset : Nat) : Option Token :=
  if claim.length = 0 ∨ input.size < offset + claim.length then none
  else if valid[claim.index]? ≠ some true then none
  else
    (lang.external? claim.index).map fun symbol =>
      ⟨symbol, offset, offset + claim.length, offset + claim.length + 1⟩

/-- The token that starts at `offset`. What a scanner looked at counts towards the reach
even when its answer does not. -/
def tokenAt (mode : LexMode) (offset : Nat) : Token × List Event :=
  if input.size ≤ offset then
    (⟨Symbol.stop, input.size, input.size, input.size + 1⟩, [])
  else
    match mode.scannerState, lang.scanner with
    | 0, _ | _, none => lang.tableToken input mode.lexState offset
    | scannerState, some scanner =>
      let valid := lang.enabled scannerState
      let scan := scanner.run input offset valid
      match scan.claim.bind fun claim => lang.claimed? input claim valid offset with
      | some token =>
        ({ token with reach := max token.reach scan.reach },
          [.scannerCall offset valid, .externalToken token.symbol token.start token.stop])
      | none =>
        let (token, events) := lang.tableToken input mode.lexState offset
        ({ token with reach := max token.reach scan.reach },
          .scannerCall offset valid :: events)

end Language

end Reparse
