import Reparse.Language

/-!
What loading promises of a table.

`Table.Sound` gathers the facts that the parser relies on: cells for every state and symbol,
shifts and acceptances that lead somewhere, reductions to nonterminals, and symbols enough
below the one that stands for errors. Every table that decodes is sound
(`Table.sound_of_decode`), so every loaded language has a sound table (`Language.sound_of_load`).
-/

namespace Reparse

structure Table.Sound (t : Table) : Prop where
  cells_size : t.cells.size = t.stateCount * t.symbolCount
  one_lt_states : 1 < t.stateCount
  symbols_lt : t.symbolCount < Symbol.error.toNat
  tokens_pos : 0 < t.tokenCount
  tokens_le : t.tokenCount ≤ t.symbolCount
  accepts_lt : ∀ s ∈ t.lexStates.toList, ∀ a ∈ s.accepts, a.symbol.toNat < t.tokenCount
  shifts_lt : ∀ q, some (.shift q) ∈ t.cells.toList → q.toNat < t.stateCount
  reduces_ge : ∀ r, some (.reduce r) ∈ t.cells.toList → t.tokenCount ≤ r.symbol.toNat

namespace Table

variable {t : Table}

/-! ### From the checks -/

theorem acceptanceFault?_eq_none {index : Nat} {a : Acceptance}
    (h : t.acceptanceFault? index a = none) : a.symbol.toNat < t.tokenCount := by
  unfold acceptanceFault? at h
  rw [Option.orElse_eq_orElse, Option.orElse_eq_or, Option.or_eq_none_iff] at h
  have second := h.2
  split at second
  · assumption
  · cases second

theorem actionFault?_shift_eq_none {q : StateId} (h : t.actionFault? (.shift q) = none) :
    q.toNat < t.stateCount := by
  simp only [actionFault?] at h
  split at h
  · assumption
  · cases h

theorem actionFault?_reduce_eq_none {r : Reduction} (h : t.actionFault? (.reduce r) = none) :
    t.tokenCount ≤ r.symbol.toNat := by
  simp only [actionFault?] at h
  rw [Option.orElse_eq_orElse, Option.orElse_eq_or, Option.or_eq_none_iff] at h
  have second := h.2
  split at second
  · cases second
  · omega

theorem shapeFault?_eq_none (h : t.shapeFault? = none) :
    1 < t.stateCount ∧ t.cells.size = t.stateCount * t.symbolCount := by
  unfold shapeFault? at h
  split at h
  · cases h
  · rename_i states
    split at h
    · cases h
    · rename_i cells
      have : StateId.start.toNat = 1 := rfl
      exact ⟨by omega, Decidable.not_not.mp cells⟩

/-- A table without faults is sound if its counts are. -/
theorem sound_of_fault?_eq_none (h : t.fault? = none)
    (symbols : t.symbolCount < Symbol.error.toNat)
    (tokens : 0 < t.tokenCount ∧ t.tokenCount ≤ t.symbolCount) : t.Sound := by
  simp only [fault?, Option.orElse_eq_orElse, Option.orElse_eq_or, Option.or_eq_none_iff] at h
  obtain ⟨shape, lexStates, -, -, cells, -⟩ := h
  obtain ⟨states, size⟩ := shapeFault?_eq_none shape
  rw [List.findSome?_eq_none_iff] at lexStates cells
  refine ⟨size, states, symbols, tokens.1, tokens.2, ?_, ?_, ?_⟩
  · intro s hs a ha
    obtain ⟨index, hindex⟩ := List.mem_iff_getElem?.mp hs
    have fault := lexStates _ (List.mk_mem_zipIdx_iff_getElem?.mpr hindex)
    simp only [lexStateFault?, Option.orElse_eq_orElse, Option.orElse_eq_or,
      Option.or_eq_none_iff, List.findSome?_eq_none_iff] at fault
    exact acceptanceFault?_eq_none (fault.1 a ha)
  · intro q hq
    exact actionFault?_shift_eq_none (cells _ hq)
  · intro r hr
    exact actionFault?_reduce_eq_none (cells _ hr)

end Table

/-! ### From the bytes -/

namespace Decoding

/-- Two readers in a row give a result only if both do. -/
theorem bind_eq_ok {α β : Type} {first : Reader α} {second : α → Reader β} {s s' : Source} {b : β}
    (h : (first >>= second) s = .ok (b, s')) :
    ∃ a mid, first s = .ok (a, mid) ∧ second a mid = .ok (b, s') := by
  change (first s >>= fun p => second p.1 p.2) = .ok (b, s') at h
  cases hf : first s with
  | error e => simp [hf, bind, Except.bind] at h
  | ok p => exact ⟨p.1, p.2, rfl, by simpa [hf, bind, Except.bind] using h⟩

theorem pure_eq_ok {α : Type} {a b : α} {s s' : Source}
    (h : (pure a : Reader α) s = .ok (b, s')) : a = b := by
  cases h
  rfl

theorem size_of_repeated {α : Type} {item : Reader α} {count : Nat} {items got : Array α}
    {s s' : Source} (h : repeated item count items s = .ok (got, s')) :
    got.size = items.size + count := by
  induction count generalizing items s with
  | zero =>
    cases h
    rfl
  | succ count ih =>
    rw [repeated] at h
    split at h
    · cases h
    · rw [ih h, Array.size_push]
      omega

theorem size_of_many {α : Type} {item : Reader α} {count : Nat} {got : Array α} {s s' : Source}
    (h : many count item s = .ok (got, s')) : got.size = count := by
  rw [size_of_repeated h]
  exact Nat.zero_add count

end Decoding

namespace Table

open Decoding

theorem readSections_counts {h : Header} {t : Table} {s s' : Source}
    (read : readSections h s = .ok (t, s')) :
    t.symbolCount = h.symbols ∧ t.tokenCount = h.tokens := by
  obtain ⟨symbols, _, hsymbols, read⟩ := bind_eq_ok read
  obtain ⟨_, _, _, read⟩ := bind_eq_ok read
  obtain ⟨_, _, _, read⟩ := bind_eq_ok read
  obtain ⟨_, _, _, read⟩ := bind_eq_ok read
  obtain ⟨_, _, _, read⟩ := bind_eq_ok read
  obtain ⟨_, _, _, read⟩ := bind_eq_ok read
  obtain ⟨_, _, _, read⟩ := bind_eq_ok read
  obtain ⟨_, _, _, read⟩ := bind_eq_ok read
  obtain ⟨_, _, _, read⟩ := bind_eq_ok read
  have counts := size_of_many hsymbols
  split at read <;>
    · obtain ⟨_, _, _, read⟩ := bind_eq_ok read
      cases pure_eq_ok read
      exact ⟨counts, rfl⟩

theorem Header.counts_of_fault?_eq_none {h : Header} {size : Nat} (sound : h.fault? size = none) :
    h.symbols < Symbol.error.toNat ∧ 0 < h.tokens ∧ h.tokens ≤ h.symbols := by
  unfold Header.fault? at sound
  split at sound
  · cases sound
  · split at sound
    · cases sound
    · split at sound
      · cases sound
      · omega

theorem read_counts {t : Table} {size : Nat} {s s' : Source} (h : read size s = .ok (t, s')) :
    t.symbolCount < Symbol.error.toNat ∧ 0 < t.tokenCount ∧ t.tokenCount ≤ t.symbolCount := by
  obtain ⟨header, _, _, h⟩ := bind_eq_ok h
  cases fault : header.fault? size with
  | some corruption =>
    simp only [fault] at h
    obtain ⟨_, _, h, _⟩ := bind_eq_ok h
    cases h
  | none =>
    simp only [fault] at h
    obtain ⟨table, _, sections, h⟩ := bind_eq_ok h
    obtain ⟨left, _, _, h⟩ := bind_eq_ok h
    have same : table = t := by
      split at h
      · exact pure_eq_ok h
      · obtain ⟨_, _, h, _⟩ := bind_eq_ok h
        cases h
    obtain ⟨symbols, tokens⟩ := readSections_counts sections
    rw [← same, symbols, tokens]
    exact header.counts_of_fault?_eq_none fault

theorem sound_of_decode {bytes : List UInt8} {t : Table} (h : decode bytes = .ok t) : t.Sound := by
  unfold decode at h
  cases hread : read bytes.length ⟨bytes, 0⟩ with
  | error e => simp [hread, bind, Except.bind] at h
  | ok p =>
    have checked : p.1.validate = .ok () ∧ p.1 = t := by
      cases hvalid : p.1.validate with
      | error e => simp [hread, hvalid, bind, Except.bind] at h
      | ok _ => exact ⟨rfl, by simpa [hread, hvalid, bind, Except.bind, pure, Except.pure] using h⟩
    obtain ⟨valid, rfl⟩ := checked
    have none : p.1.fault? = none := by
      unfold validate at valid
      split at valid
      · cases valid
      · assumption
    obtain ⟨t, after⟩ := p
    obtain ⟨symbols, tokens⟩ := read_counts hread
    exact sound_of_fault?_eq_none none symbols tokens

end Table

/-! ### Uses -/

/-- The symbol that a lex state accepts is one of its acceptances. -/
theorem LexState.accepted?_mem {s : LexState} {symbol : Symbol}
    (accepted : s.accepted? = some symbol) : ∃ a ∈ s.accepts, a.symbol = symbol := by
  obtain ⟨a, best, rfl⟩ := Option.map_eq_some_iff.mp accepted
  refine ⟨a, ?_, rfl⟩
  have holds (accepts : List Acceptance) (init : Option Acceptance)
      (best : accepts.foldl preferred init = some a) : a ∈ accepts ∨ init = some a := by
    induction accepts generalizing init with
    | nil => exact .inr best
    | cons b rest ih =>
      rcases ih _ best with member | chosen
      · exact .inl (List.mem_cons_of_mem _ member)
      · unfold preferred at chosen
        split at chosen
        · cases chosen
          exact .inl List.mem_cons_self
        · split at chosen
          · cases chosen
            exact .inl List.mem_cons_self
          · exact .inr chosen
  rcases holds s.accepts none best with member | none
  · exact member
  · cases none

/-- An action stands in some cell. -/
theorem Table.mem_cells_of_action? {t : Table} {q : StateId} {symbol : Symbol} {action : Action}
    (found : t.action? q symbol = some action) :
    symbol.toNat < t.symbolCount ∧ some action ∈ t.cells.toList := by
  unfold action? at found
  split at found
  · rename_i known
    obtain ⟨bound, is⟩ := Array.getElem?_eq_some_iff.mp (Option.join_eq_some_iff.mp found)
    exact ⟨known, is ▸ Array.mem_toList_iff.mpr (Array.getElem_mem bound)⟩
  · cases found

theorem Language.sound_of_load {handle : Nat} {bytes : List UInt8} {scanner : Option Scanner}
    {lang : Language} (h : load handle bytes scanner = .ok lang) : lang.table.Sound := by
  unfold load at h
  cases hdecode : Table.decode bytes with
  | error e => simp [hdecode, bind, Except.bind] at h
  | ok t =>
    simp only [hdecode, bind, Except.bind, pure, Except.pure, Except.ok.injEq] at h
    rw [← h]
    exact Table.sound_of_decode hdecode

theorem Table.decode_eq_ok_of_toOption {bytes : List UInt8} {t : Table}
    (decodes : (decode bytes).toOption = some t) : decode bytes = .ok t := by
  cases decoded : decode bytes with
  | error e =>
    rw [decoded] at decodes
    cases decodes
  | ok t' =>
    rw [decoded] at decodes
    cases decodes
    rfl

theorem Language.load_of_decode {handle : Nat} {bytes : List UInt8} {t : Table}
    (decodes : (Table.decode bytes).toOption = some t) (scanner : Option Scanner) :
    load handle bytes scanner = .ok { handle, table := t, scanner } := by
  unfold load
  rw [Table.decode_eq_ok_of_toOption decodes]
  rfl

/-- The state that an action shifts to. -/
def Action.landing : Action → StateId
  | shift target => target
  | _ => StateId.error

/-! ### A small grammar -/

/-- Texts of any number of `a`s, each of which makes a list longer. -/
def Table.ofLists : Table where
  version := 1
  symbols := #[⟨"end", {}⟩, ⟨"a", { visible := true }⟩, ⟨"list", { visible := true, named := true }⟩]
  tokenCount := 2
  lexStates := #[⟨[], [⟨97, 97, 1⟩]⟩, ⟨[⟨1, 0⟩], []⟩]
  modes := #[{}, {}, {}, {}]
  cells := #[
    none, none, none,
    some (.reduce ⟨2, 0, 0, 0⟩), some (.reduce ⟨2, 0, 0, 0⟩), some (.shift 2),
    some .accept, some (.shift 3), none,
    some (.reduce ⟨2, 2, 0, 0⟩), some (.reduce ⟨2, 2, 0, 0⟩), none]

def Language.ofLists : Language := { handle := 0, table := .ofLists }

theorem Language.load_ofLists : load 0 Table.ofLists.encode none = .ok .ofLists :=
  load_of_decode (by decide +kernel) none

theorem Language.ofLists_action? {q : StateId} {symbol : Symbol} {action : Action}
    (found : ofLists.action? q symbol = some action) : ∃ place < 12,
      symbol.toNat < 3 ∧ place = q.toNat * 3 + symbol.toNat
        ∧ Table.ofLists.cells[place]?.join = some action := by
  obtain ⟨known, -⟩ := Table.mem_cells_of_action? found
  rw [action?, Table.action?, if_pos known] at found
  have inside := (Array.getElem?_eq_some_iff.mp (Option.join_eq_some_iff.mp found)).1
  exact ⟨_, inside, known, rfl, found⟩

theorem Language.ofLists_shift {q target : StateId} {symbol : Symbol}
    (shift : ofLists.action? q symbol = some (.shift target)) :
    target = 2 ∧ symbol = 2 ∨ target = 3 := by
  have cells : ∀ place < 12, ∀ action ∈ Table.ofLists.cells[place]?.join,
      action = .shift action.landing →
        action.landing = 2 ∧ place = 5 ∨ action.landing = 3 := by decide
  obtain ⟨place, inside, known, place_eq, found⟩ := ofLists_action? shift
  rcases cells place inside _ found rfl with ⟨two, five⟩ | three
  · refine .inl ⟨two, UInt16.toNat_inj.mp ?_⟩
    change symbol.toNat = 2
    omega
  · exact .inr three

theorem Language.ofLists_reduce {q : StateId} {symbol : Symbol} {r : Reduction}
    (reduce : ofLists.action? q symbol = some (.reduce r)) (nothing : r.count = 0) :
    q = StateId.start := by
  have cells : ∀ place < 12, (Table.ofLists.cells[place]?.join.any fun action =>
      match action with
      | .reduce r => r.count == 0
      | _ => false) → place = 3 ∨ place = 4 := by decide
  obtain ⟨place, inside, known, place_eq, found⟩ := ofLists_action? reduce
  have starts := cells place inside (by simp [found, nothing])
  refine UInt16.toNat_inj.mp ?_
  change q.toNat = 1
  omega

end Reparse
