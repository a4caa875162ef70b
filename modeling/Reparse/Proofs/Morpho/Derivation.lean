import Reparse.Proofs.Morpho.Grammar
import Reparse.Proofs.Morpho.Stack

/-!
A tree of Morpho without errors derives its text.

With extras dropped, the subtrees of a parse are derivation trees by the rules of the table
(`Derives`), and so what they are made of is yielded by the grammar (`Derives.yields`). Where a
subtree costs nothing, its tokens are those that stand in the text one after another, with no
error among them (`reads`).
-/

namespace Reparse

open Subtree (total structural Everywhere EverywhereIn)

namespace Morpho

variable {handle : Nat} {input : Array UInt8} {C : Nat → Subtree → Prop} {place : Nat}
  {t : Subtree} {ts : List Subtree} {tokens : List Token}

/-! ### Tokens -/

/-- The tokens of a text from a place on. -/
def tokensFrom (handle : Nat) (input : Array UInt8) (place : Nat) : List Token :=
  (language handle).tokensFrom input {} place

/-- The tokens that count: all but whitespace and comments. -/
def words (tokens : List Token) : List Token :=
  tokens.filter fun token => token.symbol != whitespace && token.symbol != comment

@[simp] theorem words_append (a b : List Token) : words (a ++ b) = words a ++ words b :=
  List.filter_append _ _

/-- Whitespace and comments are the extras. -/
theorem extra_iff (handle : Nat) (a : Symbol) :
    ((language handle).traits a).extra = true ↔ a = whitespace ∨ a = comment := by
  have each : ∀ i < symbols.length, ((language 0).traits i.toUInt16).extra = true ↔
      i.toUInt16 = whitespace ∨ i.toUInt16 = comment := by decide +kernel
  by_cases known : a.toNat < symbols.length
  · have := each a.toNat known
    rwa [show a.toNat.toUInt16 = a by simp] at this
  · have beyond : symbols.toArray[a.toNat]? = none := by
      rw [List.getElem?_toArray]
      exact List.getElem?_eq_none (Nat.not_lt.mp known)
    have none : ((language handle).traits a).extra = false := by
      have unknown : (language handle).table.symbols[a.toNat]? = none := beyond
      rw [Language.traits, unknown]
      split <;> rfl
    rw [none]
    refine ⟨nofun, ?_⟩
    rintro (rfl | rfl) <;> exact absurd (by decide) known

theorem words_cons {token : Token} (tokens : List Token) :
    words (token :: tokens)
      = if ((language 0).traits token.symbol).extra then words tokens else token :: words tokens := by
  have extra := extra_iff 0 token.symbol
  rw [words, List.filter_cons]
  by_cases is : token.symbol = whitespace ∨ token.symbol = comment
  · rw [if_pos (extra.mpr is), if_neg (by rcases is with is | is <;> simp [is])]
    rfl
  · rw [if_neg (fun holds => is (extra.mp holds)), if_pos (by simpa [not_or] using is)]
    rfl

/-- A token is the first of those from its place on, or it is the end of the input. -/
theorem Lexed.tokensFrom (lexed : Lexed handle input place t) :
    (∃ token, tokensFrom handle input place
        = token :: tokensFrom handle input (place + t.size.bytes)
      ∧ token.symbol = t.symbol ∧ token.start = place ∧ token.stop = place + t.size.bytes
      ∧ (t.symbol = Symbol.error ∨ (0 < t.symbol.toNat ∧ t.symbol.toNat < tokenCount)))
    ∨ (t.symbol = Symbol.stop ∧ tokensFrom handle input place = [] ∧ t.size = 0) := by
  rcases lexed.takes with ⟨some, room⟩ | ⟨stop, beyond, empty⟩
  · have inside : place < input.size := by omega
    have spec : (language handle).TokenSpec input place (tokenAt handle input place) :=
      Language.tokenAt_spec inside
    obtain ⟨stamp, state, rfl⟩ := lexed
    have stop : place + (leafOf handle input stamp (tokenAt handle input place) state).size.bytes
        = (tokenAt handle input place).stop := Subtree.tokenLeaf_stop inside stamp state
    refine .inl ⟨tokenAt handle input place, ?_, rfl, spec.start_eq, stop.symm,
      lexes_spec spec.lexes⟩
    rw [stop]
    exact Language.tokensFrom_inside inside
  · exact .inr ⟨stop, Language.tokensFrom_end beyond, empty⟩

/-! ### Derivations -/

mutual

/-- Without its extras, the subtree at `place` is a derivation tree of the tokens. -/
inductive Derives : (place : Nat) → Subtree → List Token → Prop
  | token {place : Nat} {t : Subtree} {token : Token} (leaf : t.children = [])
      (terminal : t.symbol.toNat < tokenCount) (symbol_eq : token.symbol = t.symbol)
      (start_eq : token.start = place) (stop_eq : token.stop = place + t.size.bytes) :
      Derives place t [token]
  | node {place : Nat} {t : Subtree} {tokens : List Token}
      (rule : (t.symbol, (structural t.children).map (·.symbol)) ∈ rules)
      (children : DerivesIn place t.children tokens) : Derives place t tokens

/-- The same of subtrees side by side, the first of them at `place`. -/
inductive DerivesIn : (place : Nat) → List Subtree → List Token → Prop
  | nil {place : Nat} : DerivesIn place [] []
  | extra {place : Nat} {t : Subtree} {ts : List Subtree} {tokens : List Token}
      (extra : t.extra = true) (rest : DerivesIn (place + t.size.bytes) ts tokens) :
      DerivesIn place (t :: ts) tokens
  | cons {place : Nat} {t : Subtree} {ts : List Subtree} {first tokens : List Token}
      (regular : t.extra = false) (derives : Derives place t first)
      (rest : DerivesIn (place + t.size.bytes) ts tokens) :
      DerivesIn place (t :: ts) (first ++ tokens)

end

mutual

/-- What is derived is yielded by the grammar. -/
theorem Derives.yields {place : Nat} {t : Subtree} {tokens : List Token} :
    Derives place t tokens → Yields (meaning t.symbol) (tokens.map (·.symbol))
  | .token _ terminal symbol_eq _ _ => by
    have means : ∀ i < tokenCount, meaning i.toUInt16 = .word i.toUInt16 := by decide +kernel
    have means := means t.symbol.toNat terminal
    rw [show t.symbol.toNat.toUInt16 = t.symbol by simp] at means
    rw [means, List.map_cons, List.map_nil, symbol_eq]
    exact .word t.symbol
  | .node rule children => yields_of_rule rule children.yieldsAll

theorem DerivesIn.yieldsAll {place : Nat} {ts : List Subtree} {tokens : List Token} :
    DerivesIn place ts tokens →
      YieldsAll ((structural ts).map (·.symbol)) (tokens.map (·.symbol))
  | .nil => .nil
  | .extra extra rest => by
    rw [← List.singleton_append, Subtree.structural_append,
      Subtree.structural_singleton_extra extra]
    exact rest.yieldsAll
  | .cons regular derives rest => by
    rw [← List.singleton_append, Subtree.structural_append,
      Subtree.structural_singleton regular, List.map_append, List.map_append]
    exact .cons derives.yields rest.yieldsAll

end

/-! ### Trees without errors -/

/-- The tokens of a subtree are those that stand in the text, without errors. -/
structure Reads (handle : Nat) (input : Array UInt8) (place : Nat) (size : Nat)
    (tokens : List Token) : Prop where
  split : tokensFrom handle input place = tokens ++ tokensFrom handle input (place + size)
  regular : ∀ token ∈ tokens, token.symbol ≠ Symbol.error

theorem Reads.append {size size' : Nat} {more : List Token}
    (first : Reads handle input place size tokens)
    (second : Reads handle input (place + size) size' more) :
    Reads handle input place (size + size') (tokens ++ more) where
  split := by rw [first.split, second.split, List.append_assoc, Nat.add_assoc]
  regular token member := by
    rcases List.mem_append.mp member with member | member
    · exact first.regular token member
    · exact second.regular token member

/-- A subtree without errors whose text is read as it stands. -/
def ReadsTree (handle : Nat) (input : Array UInt8) (C : Nat → Subtree → Prop) (t : Subtree) : Prop :=
  ∀ place, Everywhere (Shaped handle input C) place t → t.info.errorCost = 0 →
    t.symbol ≠ Symbol.stop → ∃ tokens, Reads handle input place t.size.bytes tokens
      ∧ (t.extra = true → words tokens = []) ∧ (t.extra = false → Derives place t (words tokens))

theorem reads_children (each : ∀ t ∈ ts, ReadsTree handle input C t)
    (shaped : EverywhereIn (Shaped handle input C) place ts)
    (free : ∀ t ∈ ts, t.info.errorCost = 0) (going : ∀ t ∈ ts, t.symbol ≠ Symbol.stop) :
    ∃ tokens, Reads handle input place (total ts).bytes tokens
      ∧ DerivesIn place ts (words tokens) := by
  induction ts generalizing place with
  | nil => exact ⟨[], ⟨rfl, nofun⟩, .nil⟩
  | cons t ts ih =>
    obtain ⟨shaped, others⟩ := Subtree.everywhereIn_cons.mp shaped
    obtain ⟨first, reads, whenExtra, whenRegular⟩ := each t List.mem_cons_self place shaped
      (free t List.mem_cons_self) (going t List.mem_cons_self)
    obtain ⟨tokens, reads', derives⟩ := ih (fun t member => each t (List.mem_cons_of_mem _ member))
      others (fun t member => free t (List.mem_cons_of_mem _ member))
      (fun t member => going t (List.mem_cons_of_mem _ member))
    refine ⟨first ++ tokens, ?_, ?_⟩
    · rw [Subtree.total_cons, Extent.add_bytes]
      exact reads.append reads'
    · rw [words_append]
      cases extra : t.extra with
      | true =>
        rw [whenExtra extra]
        exact .extra extra derives
      | false => exact .cons extra (whenRegular extra) derives

/-- The children that a rule asks for, and extras, go before the end of the input. -/
theorem going_of_rule (rule : (t.symbol, (structural t.children).map (·.symbol)) ∈ rules)
    (shaped : EverywhereIn (Shaped handle input C) place t.children)
    (free : ∀ c ∈ t.children, c.info.errorCost = 0) :
    ∀ c ∈ t.children, c.symbol ≠ Symbol.stop := by
  intro c member stop
  obtain ⟨before, after, split⟩ := List.append_of_mem member
  rw [split, Subtree.everywhereIn_append, Subtree.everywhereIn_cons] at shaped
  have shaped := shaped.2.1 _ _ .here
  have clean := shaped.sound.clean (free c member)
  cases extra : c.extra with
  | false =>
    refine (rules_spec _ rule).2.2.2.2.1 (List.mem_map.mpr ⟨c, ?_, stop⟩)
    exact List.mem_filter.mpr ⟨member, by simp [extra]⟩
  | true =>
    cases shaped.formed with
    | token lexed =>
      have same := lexed.extra_eq
      have structural : ((language 0).traits Symbol.stop).extra = false := by decide
      rw [extra, stop] at same
      exact absurd (same.trans structural) Bool.noConfusion
    | missing _ _ missing =>
      rw [clean.2.1] at missing
      cases missing
    | error error =>
      rw [clean.1] at error
      cases error
    | node _ regular =>
      rw [extra] at regular
      cases regular

/-- What a rule makes without errors derives its text. -/
theorem reads_of_rule (each : ∀ c ∈ t.children, ReadsTree handle input C c)
    (rule : (t.symbol, (structural t.children).map (·.symbol)) ∈ rules)
    (shaped : EverywhereIn (Shaped handle input C) place t.children)
    (free : ∀ c ∈ t.children, c.info.errorCost = 0) :
    ∃ tokens, Reads handle input place (total t.children).bytes tokens
      ∧ Derives place t (words tokens) := by
  obtain ⟨tokens, reads, derives⟩ :=
    reads_children each shaped free (going_of_rule rule shaped free)
  exact ⟨tokens, reads, .node rule derives⟩

theorem reads (handle : Nat) (input : Array UInt8) (C : Nat → Subtree → Prop) (t : Subtree) :
    ReadsTree handle input C t := by
  induction t using Subtree.induction with
  | node t ih =>
    intro place shaped free going
    obtain ⟨here, below⟩ := Subtree.everywhere_iff.mp shaped
    obtain ⟨regular, present, -, freeBelow⟩ := here.sound.clean free
    cases here.formed with
    | token lexed =>
      rcases lexed.tokensFrom with ⟨token, split, symbol_eq, start_eq, stop_eq, kind⟩ | ⟨stop, -⟩
      · have notError : t.symbol ≠ Symbol.error := fun error => by
          rw [Subtree.isError, error] at regular
          cases regular
        have terminal := kind.resolve_left notError
        have extra : t.extra = ((language 0).traits token.symbol).extra := by
          rw [symbol_eq]
          exact lexed.extra_eq
        refine ⟨[token], ⟨split, ?_⟩, fun is => ?_, fun is => ?_⟩
        · rw [List.forall_mem_singleton, symbol_eq]
          exact notError
        · rw [words_cons, ← extra, is]
          rfl
        · rw [words_cons, ← extra, is]
          exact .token lexed.children_eq terminal.2 symbol_eq start_eq stop_eq
      · exact absurd stop going
    | missing _ _ missing =>
      rw [present] at missing
      cases missing
    | error error =>
      rw [regular] at error
      cases error
    | node rule notExtra size_eq =>
      obtain ⟨tokens, reads, derives⟩ := reads_of_rule ih rule below freeBelow
      rw [← size_eq] at reads
      refine ⟨tokens, reads, fun is => ?_, fun _ => derives⟩
      rw [notExtra] at is
      cases is

end Morpho

end Reparse
