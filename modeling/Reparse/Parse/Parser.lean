import Reparse.Parse.Recovery
import Reparse.Tree.Basic

/-!
Parsing a text, from scratch or from an old tree.

Parsing has no failure: what the grammar cannot explain ends up in error nodes or is mended
with missing tokens. `Session.step` is one round of the parser, and `Session.run` goes on
until a root is found. Rounds that only reduce and rounds that get on in the text or recover
are bounded apart, the latter by the length of the text and of the old tree.
-/

namespace Reparse

/-- One round of a parse: a reduction, anything else that goes on, or the root. -/
inductive Step where
  | reduced (s : Session)
  | moved (s : Session)
  | done (root : Subtree) (s : Session)

namespace Session

/-- What happens to `token` as the next one. -/
def act (s : Session) (state : StateId) (token : Subtree) : Step :=
  match s.action? state token.symbol with
  | some (.shift target) => .moved (s.shift state target token false)
  | some (.reduce r) => .reduced { s.reduce r with lookahead := some token }
  | some .accept =>
    let (root, s) := s.accept
    .done root s
  | none =>
    if !token.isError && (s.lang.traits token.symbol).extra then
      .moved (s.shift state state token true)
    else
      match s.recover state token with
      | (some root, s) => .done root s
      | (none, s) => .moved s

def step (s : Session) : Step :=
  let state := s.stack.topState
  match s.lookahead with
  | some token => { s with lookahead := none }.act state token
  | none =>
    match s.nextLookahead state with
    | (some token, s) => s.act state token
    | (none, s) => .moved s

/-- Reductions in a row: each either takes something off the stack or is one of a chain that
passes every state at most once, and the limit grows only with the stack. -/
def reductionBound (s : Session) : Nat :=
  (s.lang.table.stateCount + 1) * (s.stack.length + s.lang.table.stateCount + 4)

/-- Rounds that are no reductions: each byte and each subtree of the old tree is passed once,
and recovery stays at one place for a limited number of attempts. -/
def roundBound (s : Session) : Nat :=
  (s.input.size + Subtree.countAll s.reuse.pending + 1) * (s.options.maxAttempts + 4)

/-- Runs up to `rounds` rounds that are no reductions, with up to `reductions` before the
next of them. There is no root if that does not do. -/
def runWithin (rounds reductions : Nat) (s : Session) : Option Subtree × Session :=
  match s.step with
  | .done root s => (some root, s)
  | .reduced s =>
    match reductions with
    | 0 => (none, s)
    | reductions + 1 => runWithin rounds reductions s
  | .moved s =>
    match rounds with
    | 0 => (none, s)
    | rounds + 1 => runWithin rounds s.reductionBound s
  termination_by (rounds, reductions)

def run (s : Session) : Option Subtree × Session :=
  runWithin s.roundBound s.reductionBound s

/-- A parse of `input` about to start, along an old root if there is one. -/
def start (lang : Language) (options : Options) (input : Array UInt8) (old : Option Subtree)
    (fresh : Stamp) : Session :=
  { lang, input, options, fresh
    reuse := old.elim .empty .ofTree
    events := #[.begun input.size] }

end Session

/-- An old tree is of use if it is of the same language and describes a text of that size. -/
def Tree.fits (t : Tree) (lang : Language) (input : Array UInt8) : Bool :=
  t.language.same lang && t.root.size.bytes == input.size

/-- What a parse gives: its tree, what it reported, and the next free stamp. -/
structure Parse where
  tree : Option Tree
  events : List Event
  fresh : Stamp

/-- Parses `input`, taking over what it can of an old tree that was edited to fit it. -/
def Language.parse (lang : Language) (options : Options) (input : Array UInt8)
    (old : Option Tree) (fresh : Stamp) : Parse :=
  let usable := old.filter (·.fits lang input)
  let (root, s) := (Session.start lang options input (usable.map (·.root)) fresh).run
  let revision := usable.elim 0 (·.revision + 1)
  let ignored := if old.isSome && usable.isNone then [.ignoredOldTree] else []
  { tree := root.map fun root => ⟨root, lang, revision⟩
    events := ignored ++ s.events.toList
    fresh := s.fresh }

/-- A parser: the language it is set to, its options, and whether anyone listens. -/
structure Parser where
  language : Option Language := none
  options : Options := {}
  listening : Bool := false

namespace Parser

/-- No parse without a language. -/
def parse (p : Parser) (input : Array UInt8) (old : Option Tree) (fresh : Stamp) :
    Option Parse :=
  p.language.map fun lang => lang.parse p.options input old fresh

/-- What a listener hears of a parse. -/
def heard (p : Parser) (events : List Event) : List (Topic × String) :=
  match p.language with
  | some lang => if p.listening then events.filterMap (·.message? lang) else []
  | none => []

def describe (p : Parser) : String :=
  let language :=
    match p.language with
    | some lang => "Some(" ++ lang.describe ++ ")"
    | none => "None"
  "Parser \x7b language: " ++ language
    ++ ", has_logger: " ++ toString p.listening
    ++ ", options: ParserOptions \x7b max_skipped_tokens: " ++ toString p.options.maxSkipped
    ++ ", max_popped_entries: " ++ toString p.options.maxPopped
    ++ ", max_recovery_attempts: " ++ toString p.options.maxAttempts ++ " \x7d \x7d"

end Parser

end Reparse
