import Reparse.Lex.Token

/-!
What every token is like, whatever the grammar and the scanner.

Before the end of the input a token starts where it was asked for, takes at least one byte,
stays within the input and depends on the byte after it (`tokenAt_spec`). Its symbol is one
that lexing can give (`Language.Lexes`). At the end there is only the end token. One token after
another covers the text (`Language.tokensFrom`).
-/

namespace Reparse

namespace Language

/-- The symbols of tokens that take up text: accepted by some lex state, named by an external
token, or the error symbol. -/
def Lexes (lang : Language) (symbol : Symbol) : Prop :=
  symbol = Symbol.error ∨ (∃ s ∈ lang.table.lexStates.toList, s.accepted? = some symbol)
    ∨ symbol ∈ lang.table.externals.toList

variable (lang : Language) (input : Array UInt8)

/-- Tokens that a walk may have accepted after `offset`. -/
def Walk.Sound (offset : Nat) (w : Walk) : Prop :=
  w.position ≤ input.size ∧ ∀ symbol stop, w.accepted = some (symbol, stop) →
    offset < stop ∧ stop ≤ w.position ∧ lang.Lexes symbol

theorem lexState?_mem {id : LexStateId} {state : LexState} (h : lang.lexState? id = some state) :
    state ∈ lang.table.lexStates.toList := by
  rw [lexState?, Array.getElem?_eq_some_iff] at h
  obtain ⟨bound, rfl⟩ := h
  exact Array.mem_toList_iff.mpr (Array.getElem_mem bound)

theorem walk_sound {offset remaining : Nat} {state : LexStateId} {w : Walk}
    (start : offset ≤ w.position) (sound : Walk.Sound lang input offset w) :
    Walk.Sound lang input offset (lang.walk input remaining state w) := by
  induction remaining generalizing state w with
  | zero => exact sound
  | succ remaining ih =>
    rw [walk]
    split
    · rename_i byte here hbyte _
      split
      · exact sound
      · rename_i target _
        have inside : w.position < input.size := (Array.getElem?_eq_some_iff.mp hbyte).1
        refine ih (by exact Nat.le_succ_of_le start) ⟨by exact inside, ?_⟩
        intro symbol stop taken
        dsimp only at taken
        change offset < stop ∧ stop ≤ w.position + 1 ∧ lang.Lexes symbol
        split at taken
        · rename_i accepted haccepted
          obtain ⟨rfl, rfl⟩ : accepted = symbol ∧ w.position + 1 = stop := by simpa using taken
          obtain ⟨next, hnext, haccepts⟩ := Option.bind_eq_some_iff.mp haccepted
          exact ⟨Nat.lt_succ_of_le start, Nat.le_refl _,
            .inr (.inl ⟨next, lang.lexState?_mem hnext, haccepts⟩)⟩
        · obtain ⟨after, before, lexes⟩ := sound.2 symbol stop taken
          exact ⟨after, Nat.le_succ_of_le before, lexes⟩
    · exact sound

/-- What holds of a token that was asked for at `offset`, before the end. -/
structure TokenSpec (offset : Nat) (t : Token) : Prop where
  start_eq : t.start = offset
  start_lt : offset < t.stop
  stop_le : t.stop ≤ input.size
  stop_lt : t.stop < t.reach
  lexes : lang.Lexes t.symbol

variable {lang input}

theorem TokenSpec.reaching {offset : Nat} {t : Token} (spec : lang.TokenSpec input offset t)
    (reach : Nat) : lang.TokenSpec input offset { t with reach := max t.reach reach } :=
  ⟨spec.start_eq, spec.start_lt, spec.stop_le,
    Nat.lt_of_lt_of_le spec.stop_lt (Nat.le_max_left _ _), spec.lexes⟩

theorem tableToken_spec {state : LexStateId} {offset : Nat} (inside : offset < input.size) :
    lang.TokenSpec input offset (lang.tableToken input state offset).1 := by
  have sound : Walk.Sound lang input offset
      (lang.walk input (input.size - offset) state ⟨offset, none⟩) :=
    lang.walk_sound input (Nat.le_refl offset) ⟨Nat.le_of_lt inside, by simp⟩
  unfold tableToken
  dsimp only
  split
  · rename_i symbol stop accepted
    obtain ⟨after, before, lexes⟩ := sound.2 symbol stop accepted
    exact ⟨rfl, after, Nat.le_trans before sound.1, Nat.lt_succ_of_le before, lexes⟩
  · exact ⟨rfl, Nat.lt_succ_self _, inside,
      Nat.lt_of_lt_of_le (Nat.lt_succ_self _) (Nat.le_max_right _ _), .inl rfl⟩

theorem claimed?_spec {claim : Claim} {valid : List Bool} {offset : Nat} {t : Token}
    (h : lang.claimed? input claim valid offset = some t) : lang.TokenSpec input offset t := by
  unfold claimed? at h
  split at h
  · cases h
  · split at h
    · cases h
    · rename_i room _
      obtain ⟨symbol, external, rfl⟩ := Option.map_eq_some_iff.mp h
      obtain ⟨bound, rfl⟩ := Array.getElem?_eq_some_iff.mp external
      exact ⟨rfl, by dsimp only; omega, by dsimp only; omega, Nat.lt_succ_self _,
        .inr (.inr (Array.mem_toList_iff.mpr (Array.getElem_mem bound)))⟩

theorem tokenAt_spec {mode : LexMode} {offset : Nat} (inside : offset < input.size) :
    lang.TokenSpec input offset (lang.tokenAt input mode offset).1 := by
  unfold tokenAt
  rw [if_neg (Nat.not_le.mpr inside)]
  split
  · exact tableToken_spec inside
  · exact tableToken_spec inside
  · dsimp only
    split
    · rename_i token claimed
      obtain ⟨claim, -, hclaim⟩ := Option.bind_eq_some_iff.mp claimed
      exact (claimed?_spec hclaim).reaching _
    · exact (tableToken_spec inside).reaching _

theorem tokenAt_end {mode : LexMode} {offset : Nat} (beyond : input.size ≤ offset) :
    lang.tokenAt input mode offset
      = (⟨Symbol.stop, input.size, input.size, input.size + 1⟩, []) := by
  rw [tokenAt, if_pos beyond]

/-! ### Tokens in a row -/

/-- The tokens of a text from a place to the end, all read in one mode. -/
def tokensFrom (lang : Language) (input : Array UInt8) (mode : LexMode) (place : Nat) :
    List Token :=
  if _ : place < input.size then
    let token := (lang.tokenAt input mode place).1
    token :: lang.tokensFrom input mode token.stop
  else []
  termination_by input.size - place
  decreasing_by
    have spec : lang.TokenSpec input place (lang.tokenAt input mode place).1 := tokenAt_spec ‹_›
    have := spec.start_lt
    omega

theorem tokensFrom_inside {mode : LexMode} {place : Nat} (inside : place < input.size) :
    lang.tokensFrom input mode place
      = (lang.tokenAt input mode place).1
        :: lang.tokensFrom input mode (lang.tokenAt input mode place).1.stop := by
  rw [tokensFrom, dif_pos inside]

theorem tokensFrom_end {mode : LexMode} {place : Nat} (beyond : input.size ≤ place) :
    lang.tokensFrom input mode place = [] := by
  rw [tokensFrom, dif_neg (Nat.not_lt.mpr beyond)]

end Language

end Reparse
