import Reparse.Proofs.Lex.Locality

/-!
The automaton's token is the longest one.

Where the automaton is after some bytes of a text is said apart from how a token is looked for
(`Language.stateAfter?`), and so is which of its acceptances a lex state gives (`LexState.Gives`).
The token ends at the last place at which the automaton is in a state that accepts anything, however
far it went on from there, and its reach takes in the byte at which the automaton gave up
(`Language.tokenAt_longest`).
-/

namespace Reparse

/-! ### Acceptances -/

namespace LexState

variable {s : LexState} {a b : Acceptance} {symbol : Symbol}

/-- No other acceptance has a lower priority number, and none before it has the same. -/
def Gives (s : LexState) (a : Acceptance) : Prop :=
  ∃ before after, s.accepts = before ++ a :: after
    ∧ (∀ b ∈ before, a.priority < b.priority) ∧ ∀ b ∈ after, a.priority ≤ b.priority

theorem foldl_preferred_of_le {later : List Acceptance}
    (least : ∀ b ∈ later, a.priority ≤ b.priority) : later.foldl preferred (some a) = some a := by
  induction later with
  | nil => rfl
  | cons b rest ih =>
    obtain ⟨first, others⟩ := List.forall_mem_cons.mp least
    have kept : preferred (some a) b = some a := if_neg (UInt16.not_lt.mpr first)
    rw [List.foldl_cons, kept]
    exact ih others

/-- Whatever was the best, a better one that comes later takes its place. -/
theorem preferred_foldl_of_lt {earlier : List Acceptance} {best : Option Acceptance}
    (worse : ∀ b ∈ earlier, a.priority < b.priority) (start : ∀ b ∈ best, a.priority < b.priority) :
    preferred (earlier.foldl preferred best) a = some a := by
  induction earlier generalizing best with
  | nil =>
    cases best with
    | none => rfl
    | some b => exact if_pos (start b rfl)
  | cons c rest ih =>
    obtain ⟨first, others⟩ := List.forall_mem_cons.mp worse
    refine ih others fun b chosen => ?_
    cases best with
    | none =>
      cases chosen
      exact first
    | some d =>
      unfold preferred at chosen
      dsimp only at chosen
      split at chosen
      · cases chosen
        exact first
      · cases chosen
        exact start _ rfl

theorem Gives.accepted?_eq (gives : s.Gives a) : s.accepted? = some a.symbol := by
  obtain ⟨before, after, accepts, worse, least⟩ := gives
  rw [accepted?, accepts, List.foldl_append, List.foldl_cons,
    preferred_foldl_of_lt worse (by simp), foldl_preferred_of_le least]
  rfl

/-- A lex state that accepts anything gives one of its acceptances. -/
theorem exists_gives {accepts : List Acceptance} (some : accepts ≠ [])
    (transitions : List Transition) : ∃ a, Gives ⟨accepts, transitions⟩ a := by
  induction accepts with
  | nil => exact absurd rfl some
  | cons a rest ih =>
    by_cases alone : rest = []
    · exact ⟨a, [], rest, rfl, nofun, by simp [alone]⟩
    · obtain ⟨b, before, after, split, worse, least⟩ := ih alone
      change rest = before ++ b :: after at split
      by_cases first : a.priority ≤ b.priority
      · refine ⟨a, [], rest, rfl, nofun, fun c member => ?_⟩
        rw [split, List.mem_append, List.mem_cons] at member
        rcases member with before | rfl | after
        · exact UInt16.le_trans first (UInt16.le_of_lt (worse c before))
        · exact first
        · exact UInt16.le_trans first (least c after)
      · refine ⟨b, a :: before, after, by simp [split], ?_, least⟩
        exact List.forall_mem_cons.mpr ⟨UInt16.not_le.mp first, worse⟩

theorem gives_of_accepted? (accepted : s.accepted? = some symbol) :
    ∃ a, s.Gives a ∧ symbol = a.symbol := by
  have some : s.accepts ≠ [] := by
    intro none
    rw [accepted?, none] at accepted
    cases accepted
  obtain ⟨a, gives⟩ := exists_gives some s.transitions
  exact ⟨a, gives, Option.some.inj (accepted.symm.trans gives.accepted?_eq)⟩

theorem accepts_eq_nil_of_accepted? (refused : s.accepted? = none) : s.accepts = [] := by
  by_cases none : s.accepts = []
  · exact none
  · obtain ⟨a, gives⟩ := exists_gives none s.transitions
    cases gives.accepted?_eq.symm.trans refused

end LexState

namespace Language

variable {lang : Language} {input : Array UInt8} {start : LexStateId} {place stop : Nat}

/-! ### Runs -/

/-- The state after some bytes, if there is one: each byte takes the first transition that holds
it. -/
def runOn (lang : Language) : LexStateId → List UInt8 → Option LexStateId
  | state, [] => some state
  | state, byte :: rest =>
    match (lang.lexState? state).bind (·.next? byte) with
    | some target => lang.runOn target rest
    | none => none

/-- The state after the bytes of a text from one place to another. -/
def stateAfter? (lang : Language) (input : Array UInt8) (start : LexStateId) (place stop : Nat) :
    Option LexStateId :=
  lang.runOn start (input.extract place stop).toList

/-- The automaton takes the bytes from one place to another, at least one of them, and the state
that it is in then accepts something. -/
def CouldEnd (lang : Language) (input : Array UInt8) (start : LexStateId) (place stop : Nat) :
    Prop :=
  place < stop ∧ stop ≤ input.size ∧ ∃ state here, lang.stateAfter? input start place stop = some state
    ∧ lang.lexState? state = some here ∧ here.accepts ≠ []

theorem runOn_append (state : LexStateId) (a b : List UInt8) :
    lang.runOn state (a ++ b) = (lang.runOn state a).bind (lang.runOn · b) := by
  induction a generalizing state with
  | nil => rfl
  | cons byte a ih =>
    rw [List.cons_append, runOn, runOn]
    split
    · exact ih _
    · rfl

theorem stateAfter?_self (lang : Language) (input : Array UInt8) (start : LexStateId)
    (place : Nat) : lang.stateAfter? input start place place = some start := by
  rw [stateAfter?, Array.extract_eq_empty_of_le (by omega)]
  rfl

/-- One byte further is one transition further. -/
theorem stateAfter?_succ (le : place ≤ stop) (inside : stop < input.size) :
    lang.stateAfter? input start place (stop + 1)
      = (lang.stateAfter? input start place stop).bind fun state =>
          (lang.lexState? state).bind (·.next? input[stop]) := by
  have more : input.extract place (stop + 1) = (input.extract place stop).push input[stop] := by
    rw [Array.push_extract_getElem inside, Nat.min_eq_left le]
  rw [stateAfter?, more, Array.toList_push, runOn_append]
  congr 1
  funext state
  rw [runOn]
  split
  next takes => rw [takes]; rfl
  next gaveUp => rw [gaveUp]

/-- Where the automaton gave up it does not go on. -/
theorem stateAfter?_eq_none_of_le {further : Nat} (le : place ≤ stop)
    (gaveUp : lang.stateAfter? input start place stop = none) (after : stop ≤ further)
    (within : further ≤ input.size) : lang.stateAfter? input start place further = none := by
  obtain ⟨more, rfl⟩ := Nat.exists_eq_add_of_le after
  induction more with
  | zero => exact gaveUp
  | succ more ih =>
    rw [← Nat.add_assoc, stateAfter?_succ (by omega) (by omega), ih (by omega) (by omega)]
    rfl

/-! ### Walks -/

/-- A walk that has come to a state, with the last place at which it could have ended. -/
structure Walk.Comes (lang : Language) (input : Array UInt8) (start : LexStateId) (place : Nat)
    (state : LexStateId) (w : Walk) : Prop where
  le_position : place ≤ w.position
  position_le : w.position ≤ input.size
  state_eq : lang.stateAfter? input start place w.position = some state
  accepted : match w.accepted with
    | none => ∀ stop ≤ w.position, ¬ lang.CouldEnd input start place stop
    | some (symbol, last) => lang.CouldEnd input start place last
        ∧ (∃ state here a, lang.stateAfter? input start place last = some state
          ∧ lang.lexState? state = some here ∧ here.Gives a ∧ symbol = a.symbol)
        ∧ ∀ stop ≤ w.position, lang.CouldEnd input start place stop → stop ≤ last

variable {state target : LexStateId} {w : Walk} {here : LexState}

theorem Walk.comes_start (inside : place ≤ input.size) :
    Walk.Comes lang input start place start ⟨place, none⟩ where
  le_position := Nat.le_refl place
  position_le := inside
  state_eq := stateAfter?_self lang input start place
  accepted := fun _ le could => Nat.not_lt.mpr le could.1

/-- One transition further the walk could have ended here, or else where it could have before. -/
theorem Walk.Comes.next (comes : Walk.Comes lang input start place state w)
    (inside : w.position < input.size) (found : lang.lexState? state = some here)
    (goes : here.next? input[w.position] = some target) :
    Walk.Comes lang input start place target
      ⟨w.position + 1, match (lang.lexState? target).bind (·.accepted?) with
        | some symbol => some (symbol, w.position + 1)
        | none => w.accepted⟩ := by
  have after : lang.stateAfter? input start place (w.position + 1) = some target := by
    rw [stateAfter?_succ comes.le_position inside, comes.state_eq, Option.bind_some, found,
      Option.bind_some, goes]
  have earlier {stop : Nat} (le : stop ≤ w.position + 1) (here : stop ≠ w.position + 1) :
      stop ≤ w.position := by omega
  refine ⟨Nat.le_succ_of_le comes.le_position, inside, after, ?_⟩
  cases accepts : (lang.lexState? target).bind (·.accepted?) with
  | some symbol =>
    obtain ⟨next, isNext, accepted⟩ := Option.bind_eq_some_iff.mp accepts
    obtain ⟨a, gives, symbol_eq⟩ := LexState.gives_of_accepted? accepted
    have some : next.accepts ≠ [] := by
      intro none
      rw [LexState.accepted?, none] at accepted
      cases accepted
    exact ⟨⟨Nat.lt_succ_of_le comes.le_position, inside, target, next, after, isNext, some⟩,
      ⟨target, next, a, after, isNext, gives, symbol_eq⟩, fun stop le _ => le⟩
  | none =>
    -- Nothing is accepted here, so the last place stays what it was.
    have not_here : ¬ lang.CouldEnd input start place (w.position + 1) := by
      rintro ⟨-, -, state, next, isState, isNext, some⟩
      obtain rfl := Option.some.inj (after.symm.trans isState)
      rw [isNext] at accepts
      exact some (LexState.accepts_eq_nil_of_accepted? accepts)
    have kept := comes.accepted
    dsimp only
    split at kept
    next => exact fun stop le could => kept stop (earlier le (fun is => not_here (is ▸ could))) could
    next =>
      obtain ⟨could, gives, longest⟩ := kept
      exact ⟨could, gives,
        fun stop le could => longest stop (earlier le (fun is => not_here (is ▸ could))) could⟩

/-- The walk goes on as far as the automaton does, and knows where it could have ended. -/
theorem walk_comes {remaining : Nat} (comes : Walk.Comes lang input start place state w)
    (left : remaining = input.size - w.position) :
    ∃ target, Walk.Comes lang input start place target (lang.walk input remaining state w)
      ∧ ∀ stop ≤ input.size, (lang.stateAfter? input start place stop).isSome →
        stop ≤ (lang.walk input remaining state w).position := by
  induction remaining generalizing state w with
  | zero =>
    refine ⟨state, comes, fun stop within _ => ?_⟩
    rw [walk]
    omega
  | succ remaining ih =>
    have inside : w.position < input.size := by omega
    -- Where no transition holds the next byte, the automaton gives up for good.
    have gives_up (stuck : (lang.lexState? state).bind (·.next? input[w.position]) = none) :
        ∀ stop ≤ input.size, (lang.stateAfter? input start place stop).isSome →
          stop ≤ w.position := by
      intro stop within goes
      by_cases further : w.position < stop
      · have none : lang.stateAfter? input start place (w.position + 1) = none := by
          rw [stateAfter?_succ comes.le_position inside, comes.state_eq, Option.bind_some, stuck]
        rw [stateAfter?_eq_none_of_le (Nat.le_succ_of_le comes.le_position) none further within]
          at goes
        cases goes
      · exact Nat.le_of_not_lt further
    rw [walk, Array.getElem?_eq_getElem inside]
    cases found : lang.lexState? state with
    | none => exact ⟨state, comes, gives_up (by rw [found]; rfl)⟩
    | some here =>
      dsimp only
      cases goes : here.next? input[w.position] with
      | none => exact ⟨state, comes, gives_up (by rw [found]; exact goes)⟩
      | some target => exact ih (comes.next inside found goes) (by dsimp only; omega)

/-! ### Tokens -/

/-- With no scanner to ask, the token before the end of the text goes up to the last place at which
the automaton accepts something, with the symbol of the lowest priority number there and the first
of these, or it is an error of one byte if there is no such place. All places that the automaton
comes to lie before its reach. Nothing is asked of the table. -/
theorem tokenAt_longest {mode : LexMode} (inside : place < input.size)
    (unasked : mode.scannerState = 0 ∨ lang.scanner = none) :
    let token := (lang.tokenAt input mode place).1
    token.start = place
      ∧ ((lang.CouldEnd input mode.lexState place token.stop
          ∧ (∃ state here a, lang.stateAfter? input mode.lexState place token.stop = some state
            ∧ lang.lexState? state = some here ∧ here.Gives a ∧ token.symbol = a.symbol)
          ∧ ∀ stop, lang.CouldEnd input mode.lexState place stop → stop ≤ token.stop)
        ∨ ((∀ stop, ¬ lang.CouldEnd input mode.lexState place stop)
          ∧ token.symbol = Symbol.error ∧ token.stop = place + 1))
      ∧ ∀ stop ≤ input.size, (lang.stateAfter? input mode.lexState place stop).isSome →
        stop < token.reach := by
  have begun : Walk.Comes lang input mode.lexState place mode.lexState ⟨place, none⟩ :=
    Walk.comes_start (Nat.le_of_lt inside)
  obtain ⟨state, comes, furthest⟩ := walk_comes begun rfl
  have walked (stop : Nat) (could : lang.CouldEnd input mode.lexState place stop) :
      stop ≤ (lang.walk input (input.size - place) mode.lexState ⟨place, none⟩).position := by
    obtain ⟨-, within, state, -, isState, -⟩ := could
    exact furthest stop within (by rw [isState]; rfl)
  have last := comes.accepted
  rw [tokenAt_plain inside unasked, tableToken]
  dsimp only
  split at last
  next none =>
    rw [none]
    refine ⟨rfl, .inr ⟨fun stop could => last stop (walked stop could) could, rfl, rfl⟩,
      fun stop within goes => ?_⟩
    exact Nat.lt_of_lt_of_le (Nat.lt_succ_of_le (furthest stop within goes)) (Nat.le_max_left _ _)
  next symbol stop some =>
    rw [some]
    obtain ⟨could, gives, longest⟩ := last
    refine ⟨rfl, .inl ⟨could, gives, fun stop could => longest stop (walked stop could) could⟩,
      fun stop within goes => Nat.lt_succ_of_le (furthest stop within goes)⟩

/-- An `a`, which `bbc` may follow to make another token of it. After the `a` alone three symbols are
accepted. -/
def ofPrefixes : Language where
  handle := 0
  table :=
    { Table.ofLists with
      lexStates := #[⟨[], [⟨97, 97, 1⟩]⟩, ⟨[⟨2, 1⟩, ⟨1, 0⟩, ⟨0, 0⟩], [⟨98, 98, 2⟩]⟩,
        ⟨[], [⟨98, 98, 3⟩]⟩, ⟨[], [⟨99, 99, 4⟩]⟩, ⟨[⟨2, 0⟩], []⟩] }

/-- In `abbd` the automaton goes on for two bytes after the `a` before it gives up at the `d`. -/
theorem ofPrefixes_tokenAt_longest :
    (ofPrefixes.tokenAt #[97, 98, 98, 100] {} 0).1 = ⟨1, 0, 1, 4⟩
      ∧ (∀ stop, ofPrefixes.CouldEnd #[97, 98, 98, 100] 0 0 stop → stop ≤ 1)
      ∧ ∀ stop ≤ 4, (ofPrefixes.stateAfter? #[97, 98, 98, 100] 0 0 stop).isSome → stop < 4 := by
  have token : (ofPrefixes.tokenAt #[97, 98, 98, 100] {} 0).1 = ⟨1, 0, 1, 4⟩ := by decide
  obtain ⟨-, ends, reach⟩ := @tokenAt_longest ofPrefixes #[97, 98, 98, 100] 0 {} (by decide)
    (.inl rfl)
  rw [token] at ends reach
  refine ⟨token, ?_, reach⟩
  rcases ends with ⟨-, -, longest⟩ | ⟨-, error, -⟩
  · exact longest
  · cases error

end Language

end Reparse
