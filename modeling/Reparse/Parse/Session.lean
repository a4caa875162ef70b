import Reparse.Lex.Token
import Reparse.Parse.Reuse
import Reparse.Parse.Stack

/-!
The state of a parse, and the moves that need no recovery.

A session reads tokens off the text, or takes them over from an old tree, and shifts and
reduces over its stack. It keeps how far any byte was looked at, so that every node can say
what it depends on.
-/

namespace Reparse

/-- Bounds on the work of recovery: tokens that one recovery may skip, subtrees that it may
give up, and recoveries at one place before a token is skipped anyway. -/
structure Options where
  maxSkipped : Nat := 8
  maxPopped : Nat := 8
  maxAttempts : Nat := 16
  deriving DecidableEq, Repr, Inhabited

/-- `seen` is one past the furthest byte looked at, `epoch` counts recoveries, `failedAt`
is where the last one was and `attempts` how many there were at that place, `reductions`
counts since the last push that was none, and `fresh` is the next free stamp. -/
structure Session where
  lang : Language
  input : Array UInt8
  options : Options := {}
  stack : Stack := { base := StateId.start }
  reuse : ReuseCursor := {}
  lookahead : Option Subtree := none
  seen : Nat := 0
  epoch : Nat := 0
  failedAt : Option Nat := none
  attempts : Nat := 0
  reductions : Nat := 0
  cached : Option (Nat × LexMode × Token) := none
  fresh : Stamp := 0
  events : Array Event := #[]

namespace Session

def emit (s : Session) (event : Event) : Session :=
  { s with events := s.events.push event }

/-- Takes account of what a subtree at `start` depends on. -/
def note (s : Session) (start : Nat) (t : Subtree) : Session :=
  { s with seen := max s.seen (start + t.window) }

/-- Anything but a reduction was pushed. -/
def push (s : Session) (t : Subtree) (state : StateId) (epoch : Nat) : Session :=
  { s with stack := s.stack.push t state epoch, reductions := 0 }

/-! ### Tokens -/

def lexToken (s : Session) (mode : LexMode) (offset : Nat) : Token × Session :=
  let (token, events) := s.lang.tokenAt s.input mode offset
  (token, { s with cached := some (offset, mode, token), events := s.events ++ events.toArray })

/-- The token at a place, remembered from the last time if it was asked for then. -/
def tokenAt (s : Session) (mode : LexMode) (offset : Nat) : Token × Session :=
  match s.cached with
  | some (place, cachedMode, token) =>
    if place = offset ∧ cachedMode = mode then (token, s) else s.lexToken mode offset
  | none => s.lexToken mode offset

def leafFor (s : Session) (token : Token) (state : StateId) (mode : LexMode) :
    Subtree × Session :=
  let text := (s.input.extract token.start token.stop).toList
  let leaf :=
    Subtree.leaf s.fresh s.lang token.symbol (.ofBytes text) token.lookahead state mode
  (leaf, { s with fresh := s.fresh + 1 })

def readLeaf (s : Session) (state : StateId) (mode : LexMode) (offset : Nat) :
    Subtree × Session :=
  let (token, s) := s.tokenAt mode offset
  let s := s.emit (.lexed token.symbol (token.stop - token.start) mode.lexState)
  s.leafFor token state mode

/-- The next token, from the old tree or the text; none if a whole node of the old tree was
pushed instead. -/
def nextLookahead (s : Session) (state : StateId) : Option Subtree × Session :=
  let position := s.stack.topPosition.bytes
  let mode := s.lang.lexMode state
  let (found, reuse) := s.reuse.find position state mode
  let s := { s with reuse }
  match found with
  | some (.node t) =>
    let s := (s.emit (.reusedNode t.symbol)).note position t
    (none, s.push t (s.lang.next state t.symbol) s.epoch)
  | some (.token t) =>
    let s := (s.emit (.reusedToken t.symbol)).note position t
    (some t, s)
  | none =>
    let (leaf, s) := s.readLeaf state mode position
    (some leaf, s.note position leaf)

/-! ### Actions -/

/-- More reductions than this in a row lead nowhere. -/
def reductionLimit (s : Session) : Nat := s.stack.length + s.lang.table.stateCount

/-- The table's action, unless it could not get on: the end is never shifted, nothing else
is accepted, and reductions come to an end. -/
def action? (s : Session) (state : StateId) (symbol : Symbol) : Option Action :=
  match s.lang.action? state symbol with
  | some (.shift target) => if symbol = Symbol.stop then none else some (.shift target)
  | some (.reduce r) => if s.reductions > s.reductionLimit then none else some (.reduce r)
  | some .accept => if symbol = Symbol.stop then some .accept else none
  | none => none

/-- Pushes a token in front of which the parser was in `state`. -/
def shift (s : Session) (state target : StateId) (token : Subtree) (extra : Bool) : Session :=
  let s := s.emit (if extra then .shiftedExtra token.symbol else .shifted target)
  let placed := token.placed s.fresh state extra
  { s with fresh := s.fresh + 1 }.push placed target s.epoch

/-- Builds a node of the topmost subtrees; extras above them stay above it. A node whose
lowest child was pushed before the last recovery is fragile. -/
def reduce (s : Session) (r : Reduction) : Session :=
  let (extras, stack) := s.stack.popExtras
  let (children, epoch, stack) := stack.popCount r.count
  let parentState := stack.topState
  let target := s.lang.next parentState r.symbol
  let info := Summary.ofChildren s.lang r.symbol children r.production parentState
  let stop := stack.topPosition.bytes + info.size.bytes
  let info :=
    { info with
      precedence := info.precedence + r.precedence
      fragile := epoch.any (· != s.epoch)
      lookahead := max info.lookahead (s.seen - stop) }
  let stack := stack.push ⟨s.fresh, info, children⟩ target (epoch.getD s.epoch)
  let stack := extras.foldl (fun stack extra => stack.push extra target s.epoch) stack
  let s := s.emit (.reduced r.symbol children.length)
  { s with stack, reductions := s.reductions + 1, fresh := s.fresh + 1 }

/-- A root depends on everything that was looked at. -/
def reaching (s : Session) (info : Summary) : Summary :=
  { info with lookahead := max info.lookahead (s.seen - info.size.bytes) }

def errorRoot (s : Session) (children : List Subtree) : Subtree :=
  let info := Summary.ofChildren s.lang Symbol.error children 0 s.stack.base
  ⟨s.fresh, s.reaching info, children⟩

/-- The root of the finished parse. What lies before and after the topmost subtree that is
no extra becomes part of that subtree. -/
def accept (s : Session) : Subtree × Session :=
  let s := s.emit .accepted
  let (trailing, stack) := s.stack.popExtras
  match stack.entries with
  | [] => (s.errorRoot trailing, { s with fresh := s.fresh + 1 })
  | top :: below =>
    let root := top.tree
    if below.isEmpty && trailing.isEmpty then (root, s)
    else
      let children := Stack.trees below ++ root.children ++ trailing
      let info :=
        Summary.ofChildren s.lang root.symbol children root.info.production root.info.parseState
      let info := s.reaching { info with fragile := root.info.fragile }
      (⟨s.fresh, info, children⟩, { s with fresh := s.fresh + 1 })

end Session

end Reparse
