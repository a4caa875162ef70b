import Reparse.Parse.Session
import Reparse.Proofs.Syntax.Soundness

/-!
Reading ahead, and what a predicate on subtrees must allow for to hold of all that a parse makes.

Reading ahead changes nothing but notes (`Session.Reading`), and every token it finds is the one
that stands there (`readLeaf_next`). What is proved of parses is proved for any predicate `P` on
subtrees and their places that holds of tokens, missing tokens and errors (`Language.Makes`); how
it comes to hold of nodes is left to those who state it.
-/

namespace Reparse

open Subtree (total Everywhere EverywhereIn)

/-- `P` holds of whatever a parse of `input` makes at some place under a stamp from `first` on,
nodes and roots aside. -/
structure Language.Makes (lang : Language) (input : Array UInt8) (first : Stamp)
    (P : Nat → Subtree → Prop) : Prop where
  sound : ∀ {place t}, P place t → t.Sound lang
  read : ∀ {place state token}, token = (lang.tokenAt input (lang.lexMode state) place).1 →
    ∀ stamp ≥ first, P place (.leaf stamp lang token.symbol
      (.ofBytes (input.extract token.start token.stop).toList) token.lookahead state
      (lang.lexMode state))
  shifted : ∀ {place t state target}, P place t → t.children = [] →
    lang.action? state t.symbol = some (.shift target) →
    ∀ stamp ≥ first, P place (t.placed stamp state false)
  lifted : ∀ {place t}, P place t → t.children = [] → t.isError = false → t.info.missing = false →
    (lang.traits t.symbol).extra = true →
    ∀ stamp ≥ first, ∀ state, P place (t.placed stamp state true)
  missing : ∀ {place state symbol target}, symbol.toNat < lang.table.tokenCount →
    lang.action? state symbol = some (.shift target) →
    ∀ stamp ≥ first, P place (.missingLeaf stamp lang symbol state (lang.lexMode state))
  errors : ∀ {place info children}, Summary.Sums info children → info.isError = true →
    info.extra = true → EverywhereIn P place children →
    ∀ stamp ≥ first, P place ⟨stamp, info, children⟩

section Makes

variable {lang : Language} {input : Array UInt8} {first : Stamp} {P : Nat → Subtree → Prop}

theorem Language.Makes.everywhere_errors (makes : lang.Makes input first P) {place : Nat}
    {info : Summary} {children : List Subtree} (sums : info.Sums children)
    (error : info.isError = true) (extra : info.extra = true)
    (holds : EverywhereIn P place children) : Everywhere P place ⟨first, info, children⟩ := by
  rw [Subtree.everywhere_iff]
  exact ⟨makes.errors sums error extra holds first (Nat.le_refl _), holds⟩

/-- What is made later has later stamps. -/
theorem Language.Makes.later (makes : lang.Makes input first P) {next : Stamp}
    (le : first ≤ next) : lang.Makes input next P where
  sound := makes.sound
  read is stamp after := makes.read is stamp (Nat.le_trans le after)
  shifted made leaf action stamp after :=
    makes.shifted made leaf action stamp (Nat.le_trans le after)
  lifted made leaf regular present extra stamp after :=
    makes.lifted made leaf regular present extra stamp (Nat.le_trans le after)
  missing terminal action stamp after := makes.missing terminal action stamp (Nat.le_trans le after)
  errors sums error extra holds stamp after :=
    makes.errors sums error extra holds stamp (Nat.le_trans le after)

end Makes

namespace Session

variable {s s' : Session} {P : Nat → Subtree → Prop} {t : Subtree}

/-! ### Reading ahead -/

/-- The token that is remembered is the one that stands there. -/
def Remembers (s : Session) : Prop :=
  ∀ place mode token, s.cached = some (place, mode, token) →
    token = (s.lang.tokenAt s.input mode place).1

/-- What reading ahead may change. -/
structure Reading (s s' : Session) : Prop where
  eq : ∃ seen cached fresh events, s.seen ≤ seen ∧ s' = { s with seen, cached, fresh, events }
  remembers : s.Remembers → s'.Remembers
  fresh_le : s.fresh ≤ s'.fresh

theorem Reading.refl (s : Session) : Reading s s :=
  ⟨⟨_, _, _, _, Nat.le_refl _, rfl⟩, id, Nat.le_refl _⟩

theorem Reading.trans {s₁ s₂ s₃ : Session} (first : Reading s₁ s₂) (second : Reading s₂ s₃) :
    Reading s₁ s₃ := by
  obtain ⟨⟨_, _, _, _, le, rfl⟩, remembers, fresh⟩ := first
  obtain ⟨⟨_, _, _, _, le', rfl⟩, remembers', fresh'⟩ := second
  exact ⟨⟨_, _, _, _, Nat.le_trans le le', rfl⟩, remembers' ∘ remembers, Nat.le_trans fresh fresh'⟩

theorem Reading.emit (s : Session) (event : Event) : Reading s (s.emit event) :=
  ⟨⟨_, _, _, _, Nat.le_refl _, rfl⟩, id, Nat.le_refl _⟩

theorem Reading.note (s : Session) (start : Nat) (t : Subtree) : Reading s (s.note start t) :=
  ⟨⟨_, _, _, _, Nat.le_max_left _ _, rfl⟩, id, Nat.le_refl _⟩

theorem Reading.leafFor (s : Session) (token : Token) (state : StateId) (mode : LexMode) :
    Reading s (s.leafFor token state mode).2 :=
  ⟨⟨_, _, _, _, Nat.le_refl _, rfl⟩, id, Nat.le_succ _⟩

theorem Reading.lexToken (s : Session) (mode : LexMode) (offset : Nat) :
    Reading s (s.lexToken mode offset).2 := by
  refine ⟨⟨_, _, _, _, Nat.le_refl _, rfl⟩, ?_, Nat.le_refl _⟩
  rintro - place mode token cached
  cases cached
  rfl

theorem Reading.tokenAt (s : Session) (mode : LexMode) (offset : Nat) :
    Reading s (s.tokenAt mode offset).2 := by
  unfold Session.tokenAt
  split
  · split
    · exact .refl s
    · exact .lexToken s mode offset
  · exact .lexToken s mode offset

/-- The token at a place is always the one that stands there, remembered or not. -/
theorem tokenAt_eq (remembers : s.Remembers) (mode : LexMode) (offset : Nat) :
    (s.tokenAt mode offset).1 = (s.lang.tokenAt s.input mode offset).1 := by
  unfold Session.tokenAt
  split
  · rename_i place mode' token cached
    split
    · rename_i same
      obtain ⟨rfl, rfl⟩ := same
      exact remembers _ _ _ cached
    · rfl
  · rfl

theorem Reading.readLeaf (s : Session) (state : StateId) (mode : LexMode) (offset : Nat) :
    Reading s (s.readLeaf state mode offset).2 :=
  ((Reading.tokenAt s mode offset).trans (.emit _ _)).trans (.leafFor _ _ _ _)

theorem Reading.lang_eq (reading : Reading s s') : s'.lang = s.lang := by
  obtain ⟨⟨_, _, _, _, -, rfl⟩, -⟩ := reading
  rfl

theorem Reading.input_eq (reading : Reading s s') : s'.input = s.input := by
  obtain ⟨⟨_, _, _, _, -, rfl⟩, -⟩ := reading
  rfl

theorem Reading.stack_eq (reading : Reading s s') : s'.stack = s.stack := by
  obtain ⟨⟨_, _, _, _, -, rfl⟩, -⟩ := reading
  rfl

theorem Reading.attempts_eq (reading : Reading s s') : s'.attempts = s.attempts := by
  obtain ⟨⟨_, _, _, _, -, rfl⟩, -⟩ := reading
  rfl

theorem Reading.options_eq (reading : Reading s s') : s'.options = s.options := by
  obtain ⟨⟨_, _, _, _, -, rfl⟩, -⟩ := reading
  rfl

theorem Reading.makes (reading : Reading s s') (makes : s.lang.Makes s.input s.fresh P) :
    s'.lang.Makes s'.input s'.fresh P := by
  rw [reading.lang_eq, reading.input_eq]
  exact makes.later reading.fresh_le

/-! ### Tokens -/

/-- A token that may come next after `position`: it takes up text that is there, or it is the end
of the input. It is never one that is missing. -/
structure Next (s : Session) (P : Nat → Subtree → Prop) (position : Nat) (t : Subtree) :
    Prop where
  leaf : t.children = []
  made : P position t
  takes : (0 < t.size.bytes ∧ position + t.size.bytes ≤ s.input.size)
    ∨ (t.symbol = Symbol.stop ∧ s.input.size ≤ position ∧ t.size = 0)
  present : t.info.missing = false

theorem Next.everywhere {position : Nat} (next : s.Next P position t) :
    Everywhere P position t := by
  rw [Subtree.everywhere_iff, next.leaf]
  exact ⟨next.made, Subtree.everywhereIn_nil⟩

theorem Next.inside {position : Nat} (next : s.Next P position t)
    (inside : position ≤ s.input.size) : position + t.size.bytes ≤ s.input.size := by
  rcases next.takes with ⟨-, room⟩ | ⟨-, -, size⟩
  · exact room
  · rw [size]
    exact inside

theorem Next.some {position : Nat} (next : s.Next P position t)
    (regular : t.symbol ≠ Symbol.stop) : 0 < t.size.bytes := by
  rcases next.takes with ⟨some, -⟩ | ⟨stop, -⟩
  · exact some
  · exact absurd stop regular

/-- How far a token that is read reaches in the text. -/
theorem leaf_takes {lang : Language} {input : Array UInt8} {mode : LexMode} {offset : Nat}
    {token : Token} (is : token = (lang.tokenAt input mode offset).1) {size : Extent}
    (size_eq : size = .ofBytes (input.extract token.start token.stop).toList) :
    (0 < size.bytes ∧ offset + size.bytes ≤ input.size)
      ∨ (token.symbol = Symbol.stop ∧ input.size ≤ offset ∧ size = 0) := by
  by_cases inside : offset < input.size
  · have spec : lang.TokenSpec input offset (lang.tokenAt input mode offset).1 :=
      Language.tokenAt_spec inside
    rw [← is] at spec
    have := spec.start_eq
    have := spec.start_lt
    have := spec.stop_le
    have bytes : size.bytes = token.stop - offset := by
      simp only [size_eq, Extent.ofBytes_bytes, Array.length_toList, Array.size_extract]
      omega
    exact .inl (by omega)
  · rw [Language.tokenAt_end (Nat.le_of_not_lt inside)] at is
    exact .inr ⟨by rw [is], Nat.le_of_not_lt inside, by rw [size_eq, is]; simp⟩

theorem leafFor_next (makes : s.lang.Makes s.input s.fresh P) {token : Token} {state : StateId}
    {offset : Nat} (is : token = (s.lang.tokenAt s.input (s.lang.lexMode state) offset).1) :
    s.Next P offset (s.leafFor token state (s.lang.lexMode state)).1 :=
  ⟨rfl, makes.read is s.fresh (Nat.le_refl _), leaf_takes is rfl, rfl⟩

/-- Which tokens may come next depends on the text alone. -/
theorem Next.congr {position : Nat} (next : s.Next P position t) (input : s'.input = s.input) :
    s'.Next P position t := by
  refine ⟨next.leaf, next.made, ?_, next.present⟩
  rw [input]
  exact next.takes

theorem Next.reading {position : Nat} (next : s.Next P position t) (reading : Reading s s') :
    s'.Next P position t :=
  next.congr reading.input_eq

theorem Next.unread {position : Nat} (next : s'.Next P position t) (reading : Reading s s') :
    s.Next P position t :=
  next.congr reading.input_eq.symm

/-- A leaf that is read may come next. -/
theorem readLeaf_next (makes : s.lang.Makes s.input s.fresh P) (remembers : s.Remembers)
    (state : StateId) (offset : Nat) :
    (s.readLeaf state (s.lang.lexMode state) offset).2.Next P offset
      (s.readLeaf state (s.lang.lexMode state) offset).1 := by
  have is := tokenAt_eq remembers (s.lang.lexMode state) offset
  have reading := Reading.tokenAt s (s.lang.lexMode state) offset
  unfold readLeaf
  generalize s.tokenAt (s.lang.lexMode state) offset = read at is reading ⊢
  obtain ⟨token, s₁⟩ := read
  dsimp only at is reading ⊢
  have makes := reading.makes makes
  have lang := reading.lang_eq
  have input := reading.input_eq
  rw [← lang, ← input] at is
  rw [← lang]
  have next := leafFor_next
    (s := s₁.emit (.lexed token.symbol (token.stop - token.start) (s₁.lang.lexMode state).lexState))
    makes is
  exact next.reading (.leafFor _ _ _ _)

end Session

end Reparse
