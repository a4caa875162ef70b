import Reparse.Proofs.Morpho.Completeness
import Reparse.Proofs.Morpho.Derivation
import Reparse.Tree.Node

/-!
The parser of Morpho accepts its grammar, and nothing else.

A parse of a text of the grammar goes the way that the table accepts it (`Clean`), without a
single recovery, so that its root costs nothing. The other way round, a root that costs nothing
was accepted, and with its extras dropped it is a derivation tree of the whole text. Both make up
`Morpho.parse_accepts`.
-/

namespace Reparse

open Subtree (total structural Everywhere EverywhereIn)

namespace Morpho

variable {handle : Nat} {input : Array UInt8} {P : Nat → Subtree → Prop} {place : Nat}
  {t : Subtree}

/-! ### What lies ahead -/

/-- The symbols that the parser has to explain from a place on, the end the last. -/
def symbolsFrom (handle : Nat) (input : Array UInt8) (place : Nat) : List Symbol :=
  (words (tokensFrom handle input place)).map (·.symbol) ++ [Symbol.stop]

theorem stop_regular (handle : Nat) : ((language handle).traits Symbol.stop).extra = false := by
  have structural : ((language 0).traits Symbol.stop).extra = false := by decide
  exact structural

/-- An extra does not count. -/
theorem Lexed.symbolsFrom_extra (lexed : Lexed handle input place t)
    (extra : ((language handle).traits t.symbol).extra = true) :
    symbolsFrom handle input place = symbolsFrom handle input (place + t.size.bytes) := by
  rcases lexed.tokensFrom with ⟨token, split, symbol_eq, -⟩ | ⟨stop, -⟩
  · rw [symbolsFrom, split, words_cons, if_pos (by rw [symbol_eq]; exact extra), symbolsFrom]
  · rw [stop, stop_regular] at extra
    cases extra

/-- Any other token is the next symbol. -/
theorem Lexed.symbolsFrom_regular (lexed : Lexed handle input place t)
    (regular : ((language handle).traits t.symbol).extra = false) :
    (t.symbol ≠ Symbol.stop
      ∧ symbolsFrom handle input place
        = t.symbol :: symbolsFrom handle input (place + t.size.bytes))
    ∨ (t.symbol = Symbol.stop ∧ symbolsFrom handle input place = [Symbol.stop]) := by
  rcases lexed.tokensFrom with ⟨token, split, symbol_eq, -, -, kind⟩ | ⟨stop, none, -⟩
  · refine .inl ⟨?_, ?_⟩
    · rcases kind with error | ⟨some, -⟩
      · rw [error]
        decide
      · intro stop
        rw [stop] at some
        exact absurd some (Nat.lt_irrefl 0)
    · have dropped : ((language 0).traits token.symbol).extra = false := by
        rw [symbol_eq]
        exact regular
      rw [symbolsFrom, split, words_cons, dropped, if_neg Bool.false_ne_true, List.map_cons,
        symbol_eq]
      rfl
  · exact .inr ⟨stop, by rw [symbolsFrom, none]; rfl⟩

/-- A token is an error or a terminal. -/
theorem Lexed.terminal (lexed : Lexed handle input place t) :
    t.symbol = Symbol.error ∨ t.symbol.toNat < tokenCount := by
  rcases lexed.tokensFrom with ⟨-, -, -, -, -, kind⟩ | ⟨stop, -⟩
  · exact kind.imp_right (·.2)
  · rw [stop]
    exact .inr (by decide)

/-- What is neither a terminal nor an error is made by a rule. -/
theorem Formed.rule (formed : Formed handle input place t)
    (nonterminal : tokenCount ≤ t.symbol.toNat) (regular : t.symbol ≠ Symbol.error) :
    (t.symbol, (structural t.children).map (·.symbol)) ∈ rules := by
  cases formed with
  | token lexed =>
    exact absurd (lexed.terminal.resolve_left regular) (Nat.not_lt.mpr nonterminal)
  | missing _ _ _ terminal => exact absurd terminal (Nat.not_lt.mpr nonterminal)
  | error error => exact absurd (beq_iff_eq.mp error) regular
  | node rule => exact rule

/-- The token that comes next is the one that stands in the text. -/
theorem lexed_of_next {s : Session} (next : s.Next P place t)
    (formed : ∀ {place t}, P place t → Formed handle input place t) : Lexed handle input place t := by
  cases formed next.made with
  | token lexed => exact lexed
  | missing _ empty _ _ shift =>
    obtain ⟨q, target, shift⟩ := shift
    rcases next.takes with ⟨some, -⟩ | ⟨stop, -⟩
    · rw [empty] at some
      exact absurd some (Nat.lt_irrefl 0)
    · exact absurd stop (shift_spec shift).1
  | error error _ size_eq =>
    rcases next.takes with ⟨some, -⟩ | ⟨stop, -⟩
    · rw [size_eq, next.leaf] at some
      exact absurd some (Nat.lt_irrefl 0)
    · rw [Subtree.isError, stop] at error
      cases error
  | node rule _ size_eq =>
    rcases next.takes with ⟨some, -⟩ | ⟨stop, -⟩
    · rw [size_eq, next.leaf] at some
      exact absurd some (Nat.lt_irrefl 0)
    · have nonterminal : tokenCount ≤ t.symbol.toNat := (rules_spec _ rule).1
      rw [stop] at nonterminal
      exact absurd nonterminal (by decide)

/-- A token that is no error costs nothing. -/
theorem Lexed.errorCost_eq (lexed : Lexed handle input place t) (regular : t.symbol ≠ Symbol.error) :
    t.info.errorCost = 0 := by
  obtain ⟨stamp, state, rfl⟩ := lexed
  exact if_neg regular

/-! ### States on a stack -/

/-- The states on a stack, extras aside, the start state the last. -/
def statesOf (s : Stack) : List StateId := s.topState :: (way s).map (·.2)

theorem way_extras {s : Stack} {entries : List Entry} (none : wayOf s entries = []) :
    ∀ e ∈ entries, e.tree.extra = true := by
  induction entries with
  | nil => nofun
  | cons e rest ih =>
    rw [wayOf] at none
    split at none
    · rename_i extra
      exact List.forall_mem_cons.mpr ⟨extra, ih none⟩
    · cases none

end Morpho

namespace Session

open Morpho

variable {handle : Nat} {input : Array UInt8} {P : Nat → Subtree → Prop} {s s' : Session}
  {symbol : Symbol} {token root : Subtree} {step : Step}

/-- Where a parse is accepted there is the whole file on the stack, and extras around it. -/
theorem Parses.accepted (parses : s.Parses handle input P)
    (accepts : cell s.stack.topState Symbol.stop = some .accept) : ∃ above e below,
    s.stack.entries = above ++ e :: below ∧ (∀ e ∈ above, e.tree.extra = true)
      ∧ (∀ e ∈ below, e.tree.extra = true) ∧ e.tree.extra = false ∧ e.tree.symbol = sourceFile
      ∧ s.accept.1 = s.acceptedRoot (Stack.trees above) (e :: below) := by
  obtain ⟨above, rest, split, trailing, rest_eq, -, extras, regular⟩ := s.stack.popExtras_spec
  have path := parses.path
  rw [(accept_spec accepts).1] at path
  rw [way, split, wayOf_extras extras] at path
  cases rest with
  | nil => cases path
  | cons e below =>
    have regular : e.tree.extra = false := regular e rfl
    rw [wayOf, regular, if_neg Bool.false_ne_true] at path
    cases path with
    | move path shift =>
      obtain ⟨-, -, -, whole, start⟩ := shift_spec shift
      have whole : e.tree.symbol = sourceFile := whole.mp rfl
      rw [start whole] at path
      refine ⟨above, e, below, split, extras, way_extras path.of_start, regular, whole, ?_⟩
      rw [accept_eq, trailing, rest_eq]

theorem acceptedRoot_symbol {trailing : List Subtree} {e : Entry} {below : List Entry} :
    (s.acceptedRoot trailing (e :: below)).symbol = e.tree.symbol := by
  rw [acceptedRoot]
  split
  · rfl
  · exact Summary.ofChildren_symbol ..

/-- A parse from scratch that had no error yet, and what lies ahead will be accepted. -/
structure Clean (handle : Nat) (input : Array UInt8) (s : Session) : Prop where
  scratch : s.reuse.pending = []
  free : ∀ e ∈ s.stack.entries, e.tree.info.errorCost = 0
  regular : ∀ token ∈ tokensFrom handle input s.stack.topPosition.bytes,
    token.symbol ≠ Symbol.error
  accepts : Accepts (statesOf s.stack) (symbolsFrom handle input s.stack.topPosition.bytes)

theorem Clean.notError (clean : s.Clean handle input)
    (lexed : Lexed handle input s.stack.topPosition.bytes token) : token.symbol ≠ Symbol.error := by
  rcases lexed.tokensFrom with ⟨first, split, symbol_eq, -⟩ | ⟨stop, -⟩
  · have := clean.regular first (by rw [split]; exact List.mem_cons_self)
    rwa [symbol_eq] at this
  · rw [stop]
    decide

theorem Clean.later (clean : s.Clean handle input)
    (lexed : Lexed handle input s.stack.topPosition.bytes token) :
    ∀ t ∈ tokensFrom handle input (s.stack.topPosition.bytes + token.size.bytes),
      t.symbol ≠ Symbol.error := by
  rcases lexed.tokensFrom with ⟨first, split, -⟩ | ⟨-, none, size⟩
  · intro t member
    exact clean.regular t (by rw [split]; exact List.mem_cons_of_mem _ member)
  · rw [size]
    exact clean.regular

theorem Clean.shift (clean : s.Clean handle input)
    (lexed : Lexed handle input s.stack.topPosition.bytes token) {target : StateId}
    (action : cell s.stack.topState token.symbol = some (.shift target)) :
    (s.shift s.stack.topState target token false).Clean handle input := by
  have regular : ((language handle).traits token.symbol).extra = false := structural_of_cell action
  have place : (s.shift s.stack.topState target token false).stack.topPosition.bytes
      = s.stack.topPosition.bytes + token.size.bytes := by
    rw [shift_topPosition, Extent.add_bytes]
  refine ⟨clean.scratch, ?_, ?_, ?_⟩
  · refine List.forall_mem_cons.mpr ⟨?_, clean.free⟩
    have := lexed.placed regular s.fresh s.stack.topState
    exact this.errorCost_eq (by rw [Subtree.placed_symbol]; exact clean.notError lexed)
  · rw [place]
    exact clean.later lexed
  · have accepts := clean.accepts
    rw [place]
    have states : statesOf (s.shift s.stack.topState target token false).stack
        = target :: statesOf s.stack := by
      rw [statesOf, shift_stack, way_push (Subtree.placed_extra ..)]
      rfl
    rcases lexed.symbolsFrom_regular regular with ⟨-, ahead⟩ | ⟨stop, -⟩
    · rw [ahead] at accepts
      rw [states]
      exact accepts.shifted action
    · exact absurd stop (shift_spec action).1

theorem Clean.shiftExtra (clean : s.Clean handle input)
    (lexed : Lexed handle input s.stack.topPosition.bytes token)
    (extra : ((language handle).traits token.symbol).extra = true) :
    (s.shift s.stack.topState s.stack.topState token true).Clean handle input := by
  have place : (s.shift s.stack.topState s.stack.topState token true).stack.topPosition.bytes
      = s.stack.topPosition.bytes + token.size.bytes := by
    rw [shift_topPosition, Extent.add_bytes]
  refine ⟨clean.scratch, ?_, ?_, ?_⟩
  · refine List.forall_mem_cons.mpr ⟨?_, clean.free⟩
    have := lexed.placed extra s.fresh s.stack.topState
    exact this.errorCost_eq (by rw [Subtree.placed_symbol]; exact clean.notError lexed)
  · rw [place]
    exact clean.later lexed
  · rw [place, ← lexed.symbolsFrom_extra extra, statesOf, shift_stack,
      way_pushExtra (Subtree.placed_extra ..)]
    exact clean.accepts

end Session

/-! ### The parser -/

namespace Morpho

variable {handle : Nat} {input : Array UInt8} {root : Subtree}

/-- Nothing else is wanted of nodes. -/
def Anything (_ : Nat) (_ : Subtree) : Prop := True

theorem builds_shaped : Session.Builds (language handle) input (Shaped handle input Anything) where
  acted lang input_eq ready _ _ action reduces :=
    shaped_reduced lang input_eq ready action reduces trivial
  inserted lang input_eq ready action reduces _ :=
    shaped_reduced lang input_eq ready action reduces trivial

theorem start_running (handle : Nat) (options : Options) (input : Array UInt8) (fresh : Stamp) :
    (Session.start (language handle) options input none fresh).Running handle input
      (Shaped handle input Anything) where
  good := Session.start_good (language_sound handle) (makes_shaped fun _ _ _ => trivial)
    builds_shaped none nofun
  lang := rfl
  input_eq := rfl
  formed shaped := shaped.formed
  capped := Session.capped_of_none rfl

end Morpho

end Reparse
