import Reparse.Parse.Session

/-!
Recovery from errors.

When no action fits the next token there are three ways on: skip tokens until one fits,
pretend that a missing token is there, or give up subtrees at the top of the stack. The
cheapest is taken, the earlier of equally cheap ones. Where none is open the token is
skipped, and at the end of the input the whole stack becomes one error.
-/

namespace Reparse

/-- A way out of an error. -/
inductive Recovery where
  | skip (tokens : List Subtree)
  | insert (symbol : Symbol)
  | pop (cut : Cut)
  deriving Repr

namespace Session

/-! ### Skipping -/

/-- Reads on from `position` until a token fits `state`. `skipped` holds the tokens skipped
so far, latest first, of which `trees` are no extras, and `extras` those read since, which
are skipped only if a further token is. -/
def skipFrom (state : StateId) : (tokens : Nat) → Session → (position : Extent) →
    (skipped : List Subtree) → (trees : Nat) → (extras : List Subtree) →
    Option (List Subtree × Nat) × Session
  | 0, s, _, _, _, _ => (none, s)
  | tokens + 1, s, position, skipped, trees, extras =>
    let mode := s.lang.lexMode state
    let (token, s) := s.tokenAt mode position.bytes
    let (leaf, s) := s.leafFor token state mode
    let s := s.note position.bytes leaf
    if (s.action? state leaf.symbol).isSome then (some (skipped.reverse, trees), s)
    else if leaf.symbol = Symbol.stop then (none, s)
    else
      let position := position + leaf.size
      if !leaf.isError && leaf.extra then
        skipFrom state tokens s position skipped trees (leaf :: extras)
      else if s.options.maxSkipped < trees + 1 then (none, s)
      else skipFrom state tokens s position (leaf :: extras ++ skipped) (trees + 1) []

def totalSize (trees : List Subtree) : Extent :=
  trees.foldl (fun size t => size + t.size) .zero

/-- The tokens from `first` on to skip, and what that costs. No more tokens can come than
there are bytes left, and then the end. -/
def skipCandidate (s : Session) (state : StateId) (first : Subtree) :
    Option (Nat × Recovery) × Session :=
  let position := s.stack.topPosition + first.size
  let (found, s) :=
    skipFrom state (s.input.size - position.bytes + 1) s position [first] 1 []
  (found.map fun (tokens, trees) => (Cost.skipped trees (totalSize tokens), .skip tokens), s)

/-- Puts tokens into an error node. An error node with only extras on it grows instead. -/
def skipTokens (s : Session) (state : StateId) (tokens : List Subtree) : Session :=
  match s.stack.popError with
  | some (error, extras, epoch, stack) =>
    let grown := error.append s.fresh (extras ++ tokens)
    { s with stack, fresh := s.fresh + 1 }.push grown state epoch
  | none =>
    let error := Subtree.errorNode s.fresh s.lang tokens state
    { s with fresh := s.fresh + 1 }.push error state s.epoch

/-! ### Inserting a missing token -/

/-- A reduction on a stack of which only states are known, latest first. It must leave a
state, and that state must have a goto. -/
def reduceStates (lang : Language) (r : Reduction) (states : List StateId) :
    Option (List StateId) :=
  match states.drop r.count with
  | [] => none
  | below :: deeper =>
    let target := lang.next below r.symbol
    if target = StateId.error then none else some (target :: below :: deeper)

/-- The state after the reductions that `symbol` brings about and its shift. -/
def simulate (lang : Language) (symbol : Symbol) : (steps : Nat) → List StateId → Option StateId
  | 0, _ | _, [] => none
  | steps + 1, top :: deeper =>
    match lang.action? top symbol with
    | some (.shift target) => some target
    | some (.reduce r) => (reduceStates lang r (top :: deeper)).bind (simulate lang symbol steps)
    | some .accept | none => none

/-- With `symbol` inserted, the parser could go on with `lookahead`. -/
def helps (s : Session) (states : List StateId) (lookahead symbol : Symbol) : Bool :=
  !(s.lang.traits symbol).extra &&
    (simulate s.lang symbol (states.length + s.lang.table.stateCount) states).any fun top =>
      (s.lang.action? top lookahead).isSome

/-- The first terminal but the end that helps. -/
def missingToken? (s : Session) (lookahead : Symbol) : Option Symbol :=
  let states := s.stack.recentStates
  let terminals := (List.range (s.lang.table.tokenCount - 1)).map fun i => (i + 1).toUInt16
  terminals.find? (s.helps states lookahead)

def insertIn (symbol : Symbol) : (steps : Nat) → Session → Session
  | 0, s => s
  | steps + 1, s =>
    let top := s.stack.topState
    match s.lang.action? top symbol with
    | some (.reduce r) => insertIn symbol steps (s.reduce r)
    | some (.shift target) =>
      let leaf := Subtree.missingLeaf s.fresh s.lang symbol top (s.lang.lexMode top)
      { s with fresh := s.fresh + 1 }.push leaf target s.epoch
    | some .accept | none => s

/-- Makes the reductions that `symbol` brings about and pushes it as missing. -/
def insertMissing (s : Session) (symbol : Symbol) : Session :=
  insertIn symbol s.reductionLimit s

/-! ### Giving up subtrees -/

/-- The shallowest cut that the parser could go on from. -/
def cutFor? (s : Session) (lookahead : Symbol) : Option Cut :=
  (s.stack.cuts s.options.maxPopped).find? fun cut =>
    (s.lang.action? cut.state lookahead).isSome

def popInto (s : Session) (cut : Cut) : Session :=
  let (popped, stack) := s.stack.popTo cut.remaining
  let error := Subtree.errorNode s.fresh s.lang popped cut.state
  { s with stack, fresh := s.fresh + 1 }.push error cut.state s.epoch

/-! ### The end of the input -/

/-- Makes the whole stack one error. It is the root if the start state cannot finish after
it, or by force. -/
def wrap (s : Session) (force : Bool) : Option Subtree × Session :=
  let (trees, stack) := s.stack.popAll
  let s := { s with stack }.emit (.wrapped trees.length)
  if force || (s.action? stack.base Symbol.stop).isNone then
    (some (s.errorRoot trees), { s with fresh := s.fresh + 1 })
  else if trees.isEmpty then (none, { s with reductions := 0 })
  else
    let error := Subtree.errorNode s.fresh s.lang trees stack.base
    (none, { s with fresh := s.fresh + 1 }.push error stack.base s.epoch)

/-! ### The choice -/

/-- Of two candidates the second only if it is cheaper. -/
def cheaper (best : Option (Nat × Recovery)) (next : Option (Nat × Recovery)) :
    Option (Nat × Recovery) :=
  match best, next with
  | some b, some n => if n.1 < b.1 then some n else some b
  | some b, none => some b
  | none, next => next

/-- The best way out of an error before `lookahead`, with its cost. -/
def candidate (s : Session) (state : StateId) (lookahead : Subtree) :
    Option (Nat × Recovery) × Session :=
  let (skip, s) :=
    if lookahead.symbol = Symbol.stop then (none, s) else s.skipCandidate state lookahead
  let insert := (s.missingToken? lookahead.symbol).map fun symbol => (Cost.missing, .insert symbol)
  let pop := (s.cutFor? lookahead.symbol).map fun cut => (Cost.skipped cut.trees cut.size, .pop cut)
  (cheaper (cheaper skip insert) pop, s)

def carryOut (s : Session) (state : StateId) (cost : Nat) : Recovery → Session
  | .skip tokens => (s.emit (.skipping tokens.length cost)).skipTokens state tokens
  | .insert symbol => (s.emit (.inserting symbol cost)).insertMissing symbol
  | .pop cut => (s.emit (.popping cut.state cut.trees cost)).popInto cut

/-- Counts a recovery at the top of the stack. -/
def countAttempt (s : Session) : Session :=
  let position := s.stack.topPosition.bytes
  { s with
    epoch := s.epoch + 1
    failedAt := some position
    attempts := if s.failedAt = some position then s.attempts + 1 else 1 }

/-- Gets past a token that no action fits. Gives the root if only an error is left. -/
def recover (s : Session) (state : StateId) (lookahead : Subtree) : Option Subtree × Session :=
  let position := s.stack.topPosition.bytes
  let atEnd := lookahead.symbol == Symbol.stop
  let s := s.countAttempt.emit (.failed state lookahead.symbol)
  let limit := s.options.maxAttempts
  if limit < s.attempts then
    let s := s.emit (.gaveUp position limit)
    if atEnd then s.wrap (limit + 1 < s.attempts) else (none, s.skipTokens state [lookahead])
  else
    match s.candidate state lookahead with
    | (some (cost, recovery), s) =>
      (none, (s.emit (.recovering position cost)).carryOut state cost recovery)
    | (none, s) => if atEnd then s.wrap false else (none, s.skipTokens state [lookahead])

end Session

end Reparse
