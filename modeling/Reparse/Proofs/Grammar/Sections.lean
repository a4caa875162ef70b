import Mathlib.Data.List.Basic
import Mathlib.Tactic.SplitIfs
import Reparse.Proofs.Grammar.Layout

/-!
How the parts of a table lie in bytes.

Each reader of a part of a table reads a layout of that part, and so does the reader of all that
stands behind a header (`Table.sections_readBy`). What the layout writes is what encoding writes
(`Table.encode_sections`), `Table.sectionRoles` says how closely decoding looks at each of these
bytes (`Table.roles_sections`), and `Table.fits_sections` for which tables there is room.
-/

namespace Reparse

open Decoding Layout

/-! ### Symbols and fields -/

def SymbolInfo.layout : Layout SymbolInfo :=
  (Layout.text.pair .traits).view (fun s => (s.name, s.traits)) fun p => ⟨p.1, p.2⟩

/-- Of the byte behind a symbol's name, the bits of the four traits count. -/
def SymbolInfo.roles (s : SymbolInfo) : List ByteRole :=
  List.replicate (2 + s.name.utf8ByteSize) .plain ++ [.traits]

theorem SymbolInfo.encode_layout : layout.encode = SymbolInfo.encode := by
  funext s
  simp [layout, SymbolInfo.encode]

theorem SymbolInfo.roles_layout : layout.roles = SymbolInfo.roles := by
  funext s
  simp [layout, SymbolInfo.roles]

theorem SymbolInfo.layout_readBy : layout.ReadBy SymbolInfo.read :=
  ((text_readBy .symbolName).pair (traits_readBy .symbolTraits)).through (fun _ _ => rfl)
    (by simp [SymbolInfo.read])

def FieldEntry.layout : Layout FieldEntry :=
  (Layout.word.pair (.pair .byte .flag)).view (fun e => (e.field, e.child, e.inherited))
    fun p => ⟨p.1, p.2.1, p.2.2⟩

/-- Of the last byte of an entry, all that counts is whether it is zero. -/
def FieldEntry.roles (_ : FieldEntry) : List ByteRole := [.plain, .plain, .plain, .truth]

theorem FieldEntry.encode_layout : layout.encode = FieldEntry.encode := rfl

theorem FieldEntry.roles_layout : layout.roles = FieldEntry.roles := rfl

theorem FieldEntry.layout_readBy : layout.ReadBy FieldEntry.read :=
  ((word_readBy .fieldId).pair ((byte_readBy .fieldChild).pair
    (flag_readBy .fieldInheritance))).through (fun _ _ => rfl) (by simp [FieldEntry.read])

/-! ### Lex states and lex modes -/

def Acceptance.layout : Layout Acceptance :=
  (Layout.word.pair .word).view (fun a => (a.symbol, a.priority)) fun p => ⟨p.1, p.2⟩

theorem Acceptance.encode_layout : layout.encode = Acceptance.encode := rfl

theorem Acceptance.layout_readBy : layout.ReadBy Acceptance.read :=
  ((word_readBy .acceptedSymbol).pair (word_readBy .acceptPriority)).through (fun _ _ => rfl)
    (by simp [Acceptance.read])

def Transition.layout : Layout Transition :=
  (Layout.byte.pair (.pair .byte .word)).view (fun t => (t.low, t.high, t.target))
    fun p => ⟨p.1, p.2.1, p.2.2⟩

theorem Transition.encode_layout : layout.encode = Transition.encode := rfl

theorem Transition.layout_readBy : layout.ReadBy Transition.read :=
  ((byte_readBy .transitionRange).pair ((byte_readBy .transitionRange).pair
    (word_readBy .transitionTarget))).through (fun _ _ => rfl) (by simp [Transition.read])

namespace LexState

def layout : Layout LexState :=
  (Acceptance.layout.counted.pair Transition.layout.counted).view
    (fun s => (s.accepts, s.transitions)) fun p => ⟨p.1, p.2⟩

theorem encode_layout : layout.encode = LexState.encode := by
  funext s
  simp [layout, LexState.encode, Acceptance.encode_layout, Transition.encode_layout]

/-- All of every byte of a lex state counts. -/
theorem roles_layout (s : LexState) : layout.roles s = List.replicate s.encode.length .plain := by
  rw [← encode_layout, ← layout.length_roles, List.eq_replicate_iff]
  refine ⟨rfl, fun role member => ?_⟩
  have acceptance (a : Acceptance) : Acceptance.layout.roles a = List.replicate 4 .plain := rfl
  have transition (t : Transition) : Transition.layout.roles t = List.replicate 4 .plain := rfl
  simp only [layout, roles_view, roles_pair, roles_counted, List.mem_append, List.mem_flatMap,
    List.mem_replicate, acceptance, transition] at member
  rcases member with (⟨-, plain⟩ | ⟨_, -, -, plain⟩) | (⟨-, plain⟩ | ⟨_, -, -, plain⟩)
  · exact plain
  · exact plain
  · exact plain
  · exact plain

theorem layout_readBy : layout.ReadBy LexState.read :=
  ((counted_readBy Acceptance.layout_readBy .acceptCount).pair
    (counted_readBy Transition.layout_readBy .transitionCount)).through (fun _ _ => rfl)
    (by simp [LexState.read])

end LexState

def LexMode.layout : Layout LexMode :=
  (Layout.word.pair .word).view (fun m => (m.lexState, m.scannerState)) fun p => ⟨p.1, p.2⟩

theorem LexMode.encode_layout : layout.encode = LexMode.encode := rfl

theorem LexMode.layout_readBy : layout.ReadBy LexMode.read :=
  ((word_readBy .lexMode).pair (word_readBy .lexMode)).through (fun _ _ => rfl)
    (by simp [LexMode.read])

/-! ### Actions -/

namespace Reduction

/-- The sixteen bits that stand for a precedence. -/
def precedenceBits (precedence : Int) : UInt16 := (precedence % 65536).toNat.toUInt16

theorem toNat_precedenceBits (precedence : Int) :
    ((precedenceBits precedence).toNat : Int) = precedence % 65536 := by
  rw [precedenceBits, toNat_toUInt16]
  omega

theorem precedenceOf_eq (bits : UInt16) : precedenceOf bits =
    if (bits.toNat : Int) % 65536 < 32768 then (bits.toNat : Int) % 65536
    else (bits.toNat : Int) % 65536 - 65536 :=
  Int.bmod_def _ 65536

theorem precedenceBits_precedenceOf (bits : UInt16) :
    precedenceBits (precedenceOf bits) = bits := by
  have := bits.toNat_lt
  have there := toNat_precedenceBits (precedenceOf bits)
  have back := precedenceOf_eq bits
  apply UInt16.toNat_inj.mp
  split at back
  · omega
  · omega

theorem precedenceOf_precedenceBits {precedence : Int} :
    precedenceOf (precedenceBits precedence) = precedence ↔
      -32768 ≤ precedence ∧ precedence ≤ 32767 := by
  rw [precedenceOf_eq, toNat_precedenceBits]
  omega

def layout : Layout Reduction :=
  (Layout.word.pair (.pair .word (.pair .word .word))).view
    (fun r => (r.symbol, r.count.toUInt16, r.production, precedenceBits r.precedence))
    fun p => ⟨p.1, p.2.1.toNat, p.2.2.1, precedenceOf p.2.2.2⟩

theorem encode_layout (r : Reduction) : layout.encode r = r.encode := by
  have bits : (precedenceBits r.precedence).toNat = (r.precedence % 65536).toNat := by
    have := toNat_precedenceBits r.precedence
    omega
  simp [layout, Reduction.encode, bits, word_mod]

theorem fits_layout {r : Reduction} : layout.Fits r ↔
    r.count ≤ 65535 ∧ -32768 ≤ r.precedence ∧ r.precedence ≤ 32767 := by
  rw [← precedenceOf_precedenceBits]
  obtain ⟨symbol, count, production, precedence⟩ := r
  simp only [layout, fits_view, fits_pair, fits_word, true_and, mk.injEq, and_true,
    toNat_toUInt16]
  refine and_congr ?_ Iff.rfl
  omega

theorem layout_readBy : layout.ReadBy Reduction.read :=
  ((word_readBy .reduceSymbol).pair ((word_readBy .reduceCount).pair
    ((word_readBy .reduceProduction).pair (word_readBy .reducePrecedence)))).through
    (fun p _ => by simp [precedenceBits_precedenceOf]) (by simp [Reduction.read])

end Reduction

namespace Action

/-- The first byte of a cell. -/
def tag : Option Action → UInt8
  | none => Encoding.tagNone
  | some (.shift _) => Encoding.tagShift
  | some (.reduce _) => Encoding.tagReduce
  | some .accept => Encoding.tagAccept

def reduction? : Option Action → Option Reduction
  | some (.reduce r) => some r
  | _ => none

/-- What stands behind a tag. -/
def tagged (tag : UInt8) : Layout (Option Action) :=
  if tag = Encoding.tagNone then .settled (some none)
  else if tag = Encoding.tagShift then
    Layout.word.view (fun a => (a.map Action.landing).getD 0) fun q => some (.shift q)
  else if tag = Encoding.tagReduce then
    Reduction.layout.view (fun a => (reduction? a).getD default) fun r => some (.reduce r)
  else if tag = Encoding.tagAccept then .settled (some (some .accept))
  else .settled none

def layout : Layout (Option Action) := Layout.byte.andThen tag tagged

theorem tag_eq_of_fits {t : UInt8} {a : Option Action} (fits : (tagged t).Fits a) : tag a = t := by
  unfold tagged at fits
  split_ifs at fits with none shift reduce accept
  · cases fits
    exact none.symm
  · rw [← fits.2]
    exact shift.symm
  · rw [← fits.2]
    exact reduce.symm
  · cases fits
    exact accept.symm
  · cases fits

theorem layout_readBy : layout.ReadBy Action.read := by
  refine .located fun s => (byte_readBy .action).bind (fun tag => ?_) fun _ _ => tag_eq_of_fits
  exact .ite (pure_readBy _) (.ite ((word_readBy .shiftState).view fun _ _ => rfl)
    (.ite (Reduction.layout_readBy.view fun _ _ => rfl)
      (.ite (pure_readBy _) (corrupt_readBy _))))

theorem encode_layout : layout.encode = Action.encode := by
  funext a
  match a with
  | none => rfl
  | some (.shift q) => rfl
  | some (.reduce r) => exact congrArg (Encoding.tagReduce :: ·) r.encode_layout
  | some .accept => rfl

theorem roles_layout (a : Option Action) :
    layout.roles a = List.replicate (Action.encode a).length .plain := by
  match a with
  | none => rfl
  | some (.shift q) => rfl
  | some (.reduce r) => rfl
  | some .accept => rfl

theorem encode_ne_nil (a : Option Action) : Action.encode a ≠ [] := by
  match a with
  | none => nofun
  | some (.shift q) => nofun
  | some (.reduce r) => nofun
  | some .accept => nofun

theorem fits_layout {a : Option Action} : layout.Fits a ↔ ∀ r, a = some (.reduce r) →
    r.count ≤ 65535 ∧ -32768 ≤ r.precedence ∧ r.precedence ≤ 32767 := by
  match a with
  | none => exact ⟨nofun, fun _ => ⟨trivial, rfl⟩⟩
  | some (.shift q) => exact ⟨nofun, fun _ => ⟨trivial, fits_word, rfl⟩⟩
  | some .accept => exact ⟨nofun, fun _ => ⟨trivial, rfl⟩⟩
  | some (.reduce r) =>
    have same : layout.Fits (some (.reduce r)) ↔ Reduction.layout.Fits r :=
      ⟨fun fits => fits.2.1, fun fits => ⟨trivial, fits, rfl⟩⟩
    rw [same, Reduction.fits_layout]
    constructor
    · intro fits _ is
      cases is
      exact fits
    · intro fits
      exact fits r rfl

end Action

namespace Table

variable {t : Table} {bodyLength : Nat}

/-! ### Scanner states and names -/

/-- Which external tokens are on in a scanner state. -/
def rowLayout (externals : Nat) : Layout (List Bool) :=
  (Layout.flag.array externals).view List.toArray Array.toList

theorem encode_rowLayout {row : List Bool} (size : row.length = t.externals.size) :
    (rowLayout t.externals.size).encode row = t.encodedRow row := by
  rw [encodedRow, ← size, List.take_length, Nat.sub_self, List.replicate_zero, List.append_nil]
  exact List.map_eq_flatMap.symm

theorem roles_rowLayout {externals : Nat} {row : List Bool} :
    (rowLayout externals).roles row = row.map fun _ => .truth :=
  List.map_eq_flatMap.symm

theorem fits_rowLayout {externals : Nat} {row : List Bool} :
    (rowLayout externals).Fits row ↔ row.length = externals := by
  simp [rowLayout]

theorem rowLayout_readBy (externals : Nat) :
    (rowLayout externals).ReadBy (return (← many externals (flag .scannerState)).toList) :=
  (many_readBy (flag_readBy .scannerState) externals).view fun _ _ => Array.toArray_toList

def scannerLayout (externals : Nat) : Layout (Array (List Bool)) :=
  (rowLayout externals).counted.view Array.toList List.toArray

theorem encode_scannerLayout (sizes : ∀ row ∈ t.scannerStates, row.length = t.externals.size) :
    (scannerLayout t.externals.size).encode t.scannerStates
      = Encoding.counted t.encodedRow t.scannerStates.toList := by
  have rows : t.scannerStates.toList.flatMap (rowLayout t.externals.size).encode
      = t.scannerStates.toList.flatMap t.encodedRow :=
    List.flatMap_congr fun row member => encode_rowLayout (sizes row (by simpa using member))
  simp [scannerLayout, Encoding.counted, rows]

theorem roles_scannerLayout {externals : Nat} {rows : Array (List Bool)} :
    (scannerLayout externals).roles rows
      = List.replicate 2 .plain ++ rows.toList.flatMap fun row => row.map fun _ => .truth := by
  simp only [scannerLayout, roles_view, roles_counted]
  exact congrArg _ (List.flatMap_congr fun row _ => roles_rowLayout)

theorem fits_scannerLayout {externals : Nat} {rows : Array (List Bool)} :
    (scannerLayout externals).Fits rows ↔
      rows.size ≤ 65535 ∧ ∀ row ∈ rows, row.length = externals := by
  simp [scannerLayout, fits_rowLayout]

def readScannerStates (externals : Nat) : Reader (Array (List Bool)) := do
  let rows ← word .scannerStateCount
  many rows.toNat (return (← many externals (flag .scannerState)).toList)

theorem scannerLayout_readBy (externals : Nat) :
    (scannerLayout externals).ReadBy (readScannerStates externals) :=
  (counted_readBy (rowLayout_readBy externals) .scannerStateCount).through (fun _ _ => rfl)
    (by simp [readScannerStates, Decoding.counted])

/-- A name, in versions that have one. -/
def nameLayout (version : UInt32) : Layout (Option String) :=
  if Encoding.namedVersion ≤ version then Layout.text.view (·.getD "") some
  else .settled (some none)

theorem encode_nameLayout {version : UInt32} {name : Option String} :
    (nameLayout version).encode name
      = if Encoding.namedVersion ≤ version then Encoding.text (name.getD "") else [] := by
  unfold nameLayout
  by_cases named : Encoding.namedVersion ≤ version
  · simp [named]
  · simp only [named, if_false]
    rfl

theorem roles_nameLayout {version : UInt32} {name : Option String} :
    (nameLayout version).roles name
      = if Encoding.namedVersion ≤ version then
          List.replicate (2 + (name.getD "").utf8ByteSize) .plain
        else [] := by
  unfold nameLayout
  by_cases named : Encoding.namedVersion ≤ version
  · simp [named]
  · simp only [named, if_false]
    rfl

theorem fits_nameLayout {version : UInt32} {name : Option String} :
    (nameLayout version).Fits name ↔
      if Encoding.namedVersion ≤ version then ∃ s, name = some s ∧ s.utf8ByteSize ≤ 65535
      else name = none := by
  unfold nameLayout
  by_cases named : Encoding.namedVersion ≤ version
  · simp only [named, if_true]
    cases name with
    | none => simp
    | some s => simp
  · simp only [named, if_false, settled, Option.some.injEq]
    exact eq_comm

def readName (version : UInt32) : Reader (Option String) :=
  if Encoding.namedVersion ≤ version then some <$> text .languageName else pure none

theorem nameLayout_readBy (version : UInt32) : (nameLayout version).ReadBy (readName version) :=
  .ite ((text_readBy .languageName).through (fun _ _ => rfl) (by simp)) (pure_readBy none)

/-! ### All sections -/

/-- What stands behind a header, in order. -/
def sections (h : Header) : Layout Table :=
  ((SymbolInfo.layout.array h.symbols).pair <|
    (Layout.text.array h.fields).pair <|
    (FieldEntry.layout.counted.array h.productions).pair <|
    (LexState.layout.array h.lexStates).pair <|
    (LexMode.layout.array h.states).pair <|
    (Action.layout.array (h.states * h.symbols)).pair <|
    (Layout.word.array h.externals).pair <|
    (scannerLayout h.externals).pair <|
    nameLayout h.version).view
  (fun t => (t.symbols, t.fields, t.productions, t.lexStates, t.modes, t.cells, t.externals,
    t.scannerStates, t.name))
  fun (symbols, fields, productions, lexStates, modes, cells, externals, scannerStates, name) =>
    { version := h.version, tokenCount := h.tokens, name, symbols, fields, productions, lexStates,
      modes, cells, externals, scannerStates }

theorem readSections_eq (h : Header) : readSections h = (do
    let symbols ← many h.symbols SymbolInfo.read
    let fields ← many h.fields (text .fieldName)
    let productions ← many h.productions (counted .fieldMapLength FieldEntry.read)
    let lexStates ← many h.lexStates LexState.read
    let modes ← many h.states LexMode.read
    let cells ← many (h.states * h.symbols) Action.read
    let externals ← many h.externals (word .external)
    let scannerStates ← readScannerStates h.externals
    let name ← readName h.version
    return {
      version := h.version, tokenCount := h.tokens
      name, symbols, fields, productions, lexStates, modes, cells, externals, scannerStates }) := by
  by_cases named : Encoding.namedVersion ≤ h.version
  · simp only [readSections, readScannerStates, readName, named, if_true, bind_assoc]
  · simp only [readSections, readScannerStates, readName, named, if_false, bind_assoc]

theorem sections_readBy (h : Header) : (sections h).ReadBy (readSections h) :=
  ((many_readBy SymbolInfo.layout_readBy h.symbols).pair <|
    (many_readBy (text_readBy .fieldName) h.fields).pair <|
    (many_readBy (counted_readBy FieldEntry.layout_readBy .fieldMapLength) h.productions).pair <|
    (many_readBy LexState.layout_readBy h.lexStates).pair <|
    (many_readBy LexMode.layout_readBy h.states).pair <|
    (many_readBy Action.layout_readBy (h.states * h.symbols)).pair <|
    (many_readBy (word_readBy .external) h.externals).pair <|
    (scannerLayout_readBy h.externals).pair <|
    nameLayout_readBy h.version).through (fun _ _ => rfl) (by
      rw [readSections_eq]
      simp only [bind_assoc, pure_bind])

/-- What the header of an encoded table says. -/
def counts (t : Table) (bodyLength : Nat) : Header where
  version := t.version
  symbols := t.symbolCount
  tokens := t.tokenCount
  fields := t.fields.size
  states := t.stateCount
  lexStates := t.lexStates.size
  productions := t.productions.size
  externals := t.externals.size
  bodyLength

theorem fits_sections : (sections (t.counts bodyLength)).Fits t ↔
    (∀ s ∈ t.symbols, s.name.utf8ByteSize ≤ 65535)
      ∧ (∀ name ∈ t.fields, name.utf8ByteSize ≤ 65535)
      ∧ (∀ entries ∈ t.productions, entries.length ≤ 65535)
      ∧ (∀ s ∈ t.lexStates, s.accepts.length ≤ 65535 ∧ s.transitions.length ≤ 65535)
      ∧ (t.cells.size = t.stateCount * t.symbolCount
        ∧ ∀ cell ∈ t.cells, ∀ r, cell = some (.reduce r) →
          r.count ≤ 65535 ∧ -32768 ≤ r.precedence ∧ r.precedence ≤ 32767)
      ∧ (t.scannerStates.size ≤ 65535 ∧ ∀ row ∈ t.scannerStates, row.length = t.externals.size)
      ∧ if Encoding.namedVersion ≤ t.version then ∃ s, t.name = some s ∧ s.utf8ByteSize ≤ 65535
        else t.name = none := by
  simp only [sections, fits_view, fits_pair, fits_array]
  simp [counts, symbolCount, stateCount, SymbolInfo.layout, FieldEntry.layout, LexState.layout,
    Acceptance.layout, Transition.layout, LexMode.layout, Action.fits_layout, fits_scannerLayout,
    fits_nameLayout]

theorem encodedCells_eq (size : t.cells.size = t.stateCount * t.symbolCount) :
    t.encodedCells = t.cells.toList := by
  rw [encodedCells, ← size, Nat.sub_self, List.replicate_zero, List.append_nil]
  exact List.take_of_length_le (Nat.le_refl _)

theorem encode_sections (fits : (sections (t.counts bodyLength)).Fits t) :
    (sections (t.counts bodyLength)).encode t = t.body := by
  obtain ⟨-, -, -, -, ⟨cells, -⟩, ⟨-, rows⟩, -⟩ := fits_sections.mp fits
  have texts : Layout.text.encode = Encoding.text := funext fun _ => encode_text
  have entries : FieldEntry.layout.counted.encode = Encoding.counted FieldEntry.encode :=
    funext fun _ => encode_counted
  simp only [sections, counts, body, encode_view, encode_pair, encode_array, texts, entries,
    SymbolInfo.encode_layout, LexState.encode_layout, LexMode.encode_layout, Action.encode_layout,
    encode_scannerLayout rows, encode_nameLayout, encodedCells_eq cells, List.append_assoc]
  rfl

/-- How decoding looks at the bytes behind the header of an encoded table. -/
def sectionRoles (t : Table) : List ByteRole :=
  t.symbols.toList.flatMap SymbolInfo.roles
    ++ t.fields.toList.flatMap (fun name => List.replicate (2 + name.utf8ByteSize) .plain)
    ++ t.productions.toList.flatMap (fun entries =>
      List.replicate 2 .plain ++ entries.flatMap FieldEntry.roles)
    ++ t.lexStates.toList.flatMap (fun s => List.replicate s.encode.length .plain)
    ++ t.modes.toList.flatMap (fun mode => List.replicate mode.encode.length .plain)
    ++ t.cells.toList.flatMap (fun cell => List.replicate (Action.encode cell).length .plain)
    ++ t.externals.toList.flatMap (fun _ => List.replicate 2 .plain)
    ++ (List.replicate 2 .plain
      ++ t.scannerStates.toList.flatMap fun row => row.map fun _ => .truth)
    ++ (if Encoding.namedVersion ≤ t.version then
        List.replicate (2 + (t.name.getD "").utf8ByteSize) .plain
      else [])

theorem roles_sections : (sections (t.counts bodyLength)).roles t = t.sectionRoles := by
  have texts : Layout.text.roles = fun name => List.replicate (2 + name.utf8ByteSize) .plain :=
    funext fun _ => roles_text
  have lexStates := funext LexState.roles_layout
  have actions := funext Action.roles_layout
  simp only [sections, counts, sectionRoles, roles_view, roles_pair, roles_array, texts, lexStates,
    actions, SymbolInfo.roles_layout, roles_scannerLayout, roles_nameLayout, List.append_assoc]
  rfl

end Table

end Reparse
