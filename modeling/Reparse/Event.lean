import Reparse.Language

/-!
What a parse reports while it runs.

Every event is a value, in the order in which things happened. Some are messages for a
listener, about parsing or about lexing, and all but the scanner calls are reported at a
level.
-/

namespace Reparse

inductive Level where
  | trace | debug | warn
  deriving DecidableEq, Repr

inductive Topic where
  | parse | lex
  deriving DecidableEq, Repr

def Topic.label : Topic → String
  | .parse => "Parse"
  | .lex => "Lex"

inductive Event where
  | scannerCall (start : Nat) (valid : List Bool)
  | externalToken (symbol : Symbol) (start stop : Nat)
  | noToken (offset : Nat)
  | begun (length : Nat)
  | reusedNode (symbol : Symbol)
  | reusedToken (symbol : Symbol)
  | lexed (symbol : Symbol) (size : Nat) (lexState : LexStateId)
  | shifted (state : StateId)
  | shiftedExtra (symbol : Symbol)
  | reduced (symbol : Symbol) (children : Nat)
  | accepted
  | failed (state : StateId) (lookahead : Symbol)
  | gaveUp (position limit : Nat)
  | recovering (position cost : Nat)
  | skipping (count cost : Nat)
  | inserting (symbol : Symbol) (cost : Nat)
  | popping (state : StateId) (depth cost : Nat)
  | wrapped (count : Nat)
  | edited (start oldStop newStop : Nat)
  | ignoredOldTree
  deriving DecidableEq, Repr

namespace Event

/-- The message for a listener, if the event is one. -/
def message? (lang : Language) : Event → Option (Topic × String)
  | begun length => some (.parse, "new_parse length:" ++ toString length)
  | reusedNode symbol => some (.parse, "reuse_node symbol:" ++ lang.nameOf symbol)
  | reusedToken symbol => some (.parse, "reuse_lookahead symbol:" ++ lang.nameOf symbol)
  | lexed symbol size lexState =>
    some (.lex, "lexed_lookahead sym:" ++ lang.nameOf symbol ++ ", size:" ++ toString size
      ++ ", lex_state:" ++ toString lexState)
  | shifted state => some (.parse, "shift state:" ++ toString state)
  | shiftedExtra symbol => some (.parse, "shift_extra symbol:" ++ lang.nameOf symbol)
  | reduced symbol children =>
    some (.parse, "reduce sym:" ++ lang.nameOf symbol ++ ", child_count:" ++ toString children)
  | accepted => some (.parse, "accept")
  | failed state lookahead =>
    some (.parse, "detect_error state:" ++ toString state ++ ", lookahead:" ++ lang.nameOf lookahead)
  | skipping count cost =>
    some (.parse, "recover_by_skipping count:" ++ toString count ++ ", cost:" ++ toString cost)
  | inserting symbol cost =>
    some (.parse, "recover_with_missing symbol:" ++ lang.nameOf symbol ++ ", cost:" ++ toString cost)
  | popping state depth cost =>
    some (.parse, "recover_to_previous state:" ++ toString state ++ ", depth:" ++ toString depth
      ++ ", cost:" ++ toString cost)
  | wrapped count => some (.parse, "wrap_in_error count:" ++ toString count)
  | _ => none

/-- The line that the event is reported as. -/
def report? (lang : Language) (event : Event) : Option (Level × String) :=
  match event with
  | scannerCall .. => none
  | externalToken symbol start stop =>
    some (.trace, "external token " ++ lang.nameOf symbol ++ " at " ++ toString start ++ ".."
      ++ toString stop)
  | noToken offset => some (.trace, "no token matches at byte " ++ toString offset)
  | recovering position cost =>
    some (.debug, "recovering at byte " ++ toString position ++ " with cost " ++ toString cost)
  | gaveUp position limit =>
    some (.debug, "giving up on recovery at byte " ++ toString position ++ " after "
      ++ toString limit ++ " attempts")
  | edited start oldStop newStop =>
    some (.debug, "edit " ++ toString start ++ ".." ++ toString oldStop ++ " -> " ++ toString start
      ++ ".." ++ toString newStop)
  | ignoredOldTree =>
    some (.warn, "ignoring a previous tree that does not describe this input")
  | event =>
    (event.message? lang).map fun (topic, text) => (.trace, topic.label ++ " " ++ text)

end Event

end Reparse
