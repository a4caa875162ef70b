import Reparse.Proofs.Morpho.Table
import Reparse.Proofs.Parse.Lexed
import Reparse.Proofs.Parse.Run
import Reparse.Proofs.Parse.Termination

/-!
The subtrees that a parse of Morpho is made of.

Morpho is read alike in every state, so a token depends on its place alone (`Lexed`). All other
subtrees are missing tokens, errors, and nodes that a rule of the grammar makes (`Formed`). What a
parse needs to know of a subtree is that it is sound, formed, and whatever else may be wanted of
nodes without errors (`Shaped`).
-/

namespace Reparse

namespace Morpho

open Subtree (total structural Everywhere EverywhereIn)

variable {handle : Nat} {q target : StateId} {symbol : Symbol} {input : Array UInt8} {place : Nat}
  {t : Subtree}

/-! ### The language -/

theorem table_sound : table.Sound :=
  Table.sound_of_fault?_eq_none (by decide +kernel) (by decide) (by decide)

theorem language_sound (handle : Nat) : (language handle).table.Sound := table_sound

/-- Tokens are read alike everywhere. -/
@[simp] theorem lexMode_eq (handle : Nat) (q : StateId) : (language handle).lexMode q = {} := by
  change ((rows.map fun _ => LexMode.mk startState 0).toArray[q.toNat]?).getD {} = {}
  rw [List.getElem?_toArray, List.getElem?_map]
  cases rows[q.toNat]? <;> rfl

theorem lexes_spec (lexes : (language handle).Lexes symbol) :
    symbol = Symbol.error ∨ (0 < symbol.toNat ∧ symbol.toNat < tokenCount) := by
  have each : ∀ s ∈ lexStates, ∀ symbol ∈ s.accepted?,
      0 < symbol.toNat ∧ symbol.toNat < tokenCount := by decide +kernel
  rcases lexes with error | ⟨s, member, accepted⟩ | external
  · exact .inl error
  · exact .inr (each s member symbol accepted)
  · cases external

theorem cell_error (q : StateId) : cell q Symbol.error = none := by
  have each : ∀ cell ∈ cells, cell.2.1 ≠ Symbol.error := by decide +kernel
  cases found : cell q Symbol.error with
  | none => rfl
  | some action => exact absurd rfl (each _ (mem_cells found))

theorem language_firm (handle : Nat) : (language handle).Firm where
  stop_unlexed lexes := by
    rcases lexes_spec lexes with error | ⟨some, -⟩
    · cases error
    · exact absurd some (Nat.lt_irrefl 0)
  not_accepting {q symbol target} lexes shift accepts := by
    rw [action?_eq] at shift accepts
    obtain ⟨rfl, -⟩ := accept_spec accepts
    obtain rfl : symbol = sourceFile := (shift_spec shift).2.2.2.1.mp rfl
    rcases lexes_spec lexes with error | ⟨-, terminal⟩
    · cases error
    · exact absurd terminal (by decide)

/-- A node of nothing is only built at the start. -/
theorem language_settling (handle : Nat) : (language handle).Settling := by
  have starts : ∀ reduction ∈ reductions, reduction.2.count = 0 →
      reduction.1 = StateId.start ∧ reduction.2.symbol = sourceFile := by decide +kernel
  refine Language.settling_of_once ?_
  rintro symbol q _ q₂ ⟨r, reduce, nothing, rfl⟩ ⟨r', reduce', nothing', -⟩
  rw [action?_eq] at reduce reduce'
  obtain ⟨rfl, whole⟩ := starts _ (mem_reductions reduce) nothing
  obtain ⟨start, -⟩ := starts _ (mem_reductions reduce') nothing'
  have onward : (language 0).next StateId.start sourceFile = 2 := by decide +kernel
  change (language 0).next _ _ = _ at start
  rw [whole, onward] at start
  cases start

/-- A parse of Morpho always has a tree. -/
theorem parse_isSome (options : Options) (input : Array UInt8) {old : Option Tree} (fresh : Stamp)
    (kept : ∀ o, old = some o → o.language.same (language handle) →
      o.root.Kept (fun _ => Subtree.Sound (language handle))) :
    ∃ t, ((language handle).parse options input old fresh).tree = some t :=
  have structural : ((language 0).traits Symbol.stop).extra = false := by decide
  Language.parse_isSome (language_sound handle) (language_settling handle) structural kept

/-! ### Formed subtrees -/

/-- The token that stands at a place. -/
def tokenAt (handle : Nat) (input : Array UInt8) (place : Nat) : Token :=
  ((language handle).tokenAt input {} place).1

/-- The leaf of a token. -/
def leafOf (handle : Nat) (input : Array UInt8) (stamp : Stamp) (token : Token) (state : StateId) :
    Subtree :=
  .leaf stamp (language handle) token.symbol
    (.ofBytes (input.extract token.start token.stop).toList) token.lookahead state {}

/-- The subtree is the token that stands at the place. -/
def Lexed (handle : Nat) (input : Array UInt8) (place : Nat) (t : Subtree) : Prop :=
  ∃ stamp state, t = leafOf handle input stamp (tokenAt handle input place) state

/-- What a subtree is in a parse of `input`: a token, a missing token, an error, or what a rule of
the grammar makes in a state with a goto. -/
inductive Formed (handle : Nat) (input : Array UInt8) (place : Nat) (t : Subtree) : Prop
  | token (lexed : Lexed handle input place t)
  | missing (leaf : t.children = []) (empty : t.size = 0) (missing : t.info.missing = true)
      (terminal : t.symbol.toNat < tokenCount)
      (shift : ∃ q target, cell q t.symbol = some (.shift target)) (regular : t.extra = false)
  | error (error : t.isError = true) (extra : t.extra = true) (size_eq : t.size = total t.children)
  | node (rule : (t.symbol, (structural t.children).map (·.symbol)) ∈ rules)
      (regular : t.extra = false) (size_eq : t.size = total t.children)
      (goto : ∃ target, cell t.info.parseState t.symbol = some (.shift target))

/-- What may be wanted of nodes holds of leaves and errors at no cost. -/
def Bare (C : Nat → Subtree → Prop) : Prop :=
  ∀ place t, t.children = [] ∨ t.isError = true → C place t

/-- A subtree that a parse of `input` makes at `place`, with what else is wanted of nodes. -/
structure Shaped (handle : Nat) (input : Array UInt8) (C : Nat → Subtree → Prop) (place : Nat)
    (t : Subtree) : Prop where
  sound : t.Sound (language handle)
  formed : Formed handle input place t
  more : C place t

/-- All modes are one here. -/
theorem lexed_iff : Lexed handle input place t ↔ t.Lexed (language handle) input {} place :=
  Iff.rfl

theorem Lexed.children_eq (lexed : Lexed handle input place t) : t.children = [] :=
  Subtree.Lexed.children_eq (lexed_iff.mp lexed)

theorem Lexed.extra_eq (lexed : Lexed handle input place t) :
    t.extra = ((language handle).traits t.symbol).extra :=
  Subtree.Lexed.extra_eq (lexed_iff.mp lexed)

/-- There is one token at a place. -/
theorem Lexed.plain_eq (lexed : Lexed handle input place t) {t' : Subtree}
    (lexed' : Lexed handle input place t') : t.plain = t'.plain :=
  Subtree.Lexed.plain_eq (lexed_iff.mp lexed) (lexed_iff.mp lexed')

/-- Where another text agrees as far as a token depends on it, the same token stands. -/
theorem Lexed.agree (lexed : Lexed handle input place t) {input' : Array UInt8} {place' : Nat}
    (agree : Agree input input' place place' t.window) : Lexed handle input' place' t :=
  Subtree.Lexed.agree (lexed_iff.mp lexed) rfl agree

/-- A token takes up text, or it is the end of the input. -/
theorem Lexed.takes (lexed : Lexed handle input place t) :
    (0 < t.size.bytes ∧ place + t.size.bytes ≤ input.size)
      ∨ (t.symbol = Symbol.stop ∧ input.size ≤ place ∧ t.size = 0) :=
  Subtree.Lexed.takes (lexed_iff.mp lexed)

/-- A token pushed as what it is stays a token. -/
theorem Lexed.placed (lexed : Lexed handle input place t) {extra : Bool}
    (is : ((language handle).traits t.symbol).extra = extra) (stamp : Stamp) (state : StateId) :
    Lexed handle input place (t.placed stamp state extra) :=
  Subtree.Lexed.placed (lexed_iff.mp lexed) is stamp state

theorem extra_eq_of_shift (shift : ∃ q target, cell q symbol = some (.shift target)) :
    ((language handle).traits symbol).extra = false := by
  obtain ⟨q, target, found⟩ := shift
  exact structural_of_cell found

/-- A leaf may be pushed where the table shifts it. -/
theorem Formed.shifted (formed : Formed handle input place t) (leaf : t.children = [])
    (action : cell q t.symbol = some (.shift target)) (stamp : Stamp) :
    Formed handle input place (t.placed stamp q false) := by
  have structural : ((language handle).traits t.symbol).extra = false :=
    structural_of_cell action
  cases formed with
  | token lexed => exact .token (lexed.placed structural stamp q)
  | missing _ empty missing terminal shift =>
    refine .missing ?_ ?_ ?_ ?_ ?_ (Subtree.placed_extra ..)
    · rw [Subtree.placed_children, leaf]
    · rw [Subtree.placed_size, empty]
    · unfold Subtree.placed
      split <;> exact missing
    · rw [Subtree.placed_symbol]
      exact terminal
    · rw [Subtree.placed_symbol]
      exact shift
  | error error =>
    rw [beq_iff_eq.mp error, cell_error] at action
    cases action
  | node rule regular size_eq goto =>
    refine .node ?_ (Subtree.placed_extra ..) ?_ ⟨target, ?_⟩
    · rw [Subtree.placed_symbol, Subtree.placed_children]
      exact rule
    · rw [Subtree.placed_size, Subtree.placed_children]
      exact size_eq
    · rw [Subtree.placed_parseState, Subtree.placed_symbol]
      exact action

/-- Only tokens are pushed as extras without being errors. -/
theorem Formed.lexed_of_extra (formed : Formed handle input place t) (regular : t.isError = false)
    (extra : ((language handle).traits t.symbol).extra = true) : Lexed handle input place t := by
  cases formed with
  | token lexed => exact lexed
  | missing _ _ _ _ shift =>
    rw [extra_eq_of_shift shift] at extra
    cases extra
  | error error =>
    rw [regular] at error
    cases error
  | node rule =>
    have structural : ((language handle).traits t.symbol).extra = false :=
      (rules_spec _ rule).2.2.1
    rw [structural] at extra
    cases extra

/-- Tokens, missing tokens and errors are shaped. -/
theorem makes_shaped {C : Nat → Subtree → Prop} (bare : Bare C) {first : Stamp} :
    (language handle).Makes input first (Shaped handle input C) where
  sound shaped := shaped.sound
  read {place state token} is stamp after := by
    have made : Subtree.Made (language handle) input True place _ :=
      Language.makes_made.read is stamp after
    refine ⟨made.sound, .token ⟨stamp, state, ?_⟩, bare _ _ (.inl rfl)⟩
    rw [lexMode_eq] at is ⊢
    rw [is]
    rfl
  shifted {place t state target} shaped leaf action stamp _ := by
    rw [action?_eq] at action
    refine ⟨shaped.sound.placed leaf stamp _ _, shaped.formed.shifted leaf action stamp,
      bare _ _ (.inl ?_)⟩
    rw [Subtree.placed_children, leaf]
  lifted {place t} shaped leaf regular _ extra stamp _ state := by
    have lexed := (shaped.formed.lexed_of_extra regular extra).placed extra stamp state
    exact ⟨shaped.sound.placed leaf stamp _ _, .token lexed, bare _ _ (.inl lexed.children_eq)⟩
  missing {place state symbol target} terminal action stamp _ := by
    rw [action?_eq] at action
    exact ⟨Subtree.missingLeaf_sound, .missing rfl rfl rfl terminal ⟨state, target, action⟩ rfl,
      bare _ _ (.inl rfl)⟩
  errors sums error extra _ stamp _ :=
    ⟨sums.sound stamp, .error error extra sums.size_eq, bare _ _ (.inr error)⟩

end Morpho

end Reparse
