import Mathlib.Algebra.Group.Nat.Defs
import Reparse.Proofs.Grammar.Header
import Reparse.Proofs.Grammar.Sections

/-!
Tables as bytes and back.

Bytes decode to a table if and only if encoding has room for the table, the table is valid, and
the bytes are read like the ones that encoding writes (`Table.decode_eq_ok_iff`). So decoding
undoes encoding (`Table.decode_encode`), and encoding undoes decoding but for the bytes of which
decoding looks at a part only (`Table.encode_of_decode`).

Where a table ends nothing may follow, and nothing may be missing, even if the header says so
(`Table.decode_cut_or_continued`): no body of a table goes on where another one ends.
-/

namespace Reparse.Table

open Decoding Layout

variable {t : Table} {b w : List UInt8} {bodyLength : Nat}

/-! ### From the front to the end -/

/-- The header of the table can be written and will be read. -/
structure Announced (t : Table) (bodyLength : Nat) : Prop where
  supported : Supported t.version
  counts : (Header.layout t.version).Fits (t.counts bodyLength)

theorem header_eq (t : Table) (bodyLength : Nat) :
    t.header bodyLength
      = signed t.version ++ (Header.layout t.version).encode (t.counts bodyLength) := by
  simp [header, signed, Header.layout, counts, symbolCount, stateCount]

theorem length_header (t : Table) (bodyLength : Nat) : (t.header bodyLength).length = 40 := rfl

theorem Header.read_header (announced : t.Announced bodyLength) (size : Nat) (long : 40 ≤ size)
    (rest : List UInt8) :
    Header.read size ⟨t.header bodyLength ++ rest, 0⟩ = .ok (t.counts bodyLength, ⟨rest, 40⟩) := by
  have version := readVersion_signed announced.supported size
    ((layout t.version).encode (t.counts bodyLength) ++ rest)
  have headerSize : Encoding.headerSize = 40 := rfl
  rw [if_neg (by omega), if_neg (by omega)] at version
  rw [read_eq, header_eq, List.append_assoc, bind_of_ok version]
  refine (layout_readBy t.version).ok_iff.mpr ⟨_, ⟨announced.counts, ?_⟩, rfl, rfl⟩
  exact readsAs_plain (n := 32).mpr ⟨rfl, rfl⟩

theorem Header.read_eq_ok {size : Nat} {s s' : Source} {h : Header}
    (read : Header.read size s = .ok (h, s')) :
    40 ≤ size ∧ Supported h.version ∧ (layout h.version).Fits h
      ∧ s.rest = signed h.version ++ (layout h.version).encode h ++ s'.rest := by
  rw [read_eq] at read
  obtain ⟨version, mid, first, second⟩ := bind_eq_ok read
  obtain ⟨long, supported, rest⟩ := readVersion_eq_ok first
  obtain ⟨w, ⟨fits, same⟩, rest', -⟩ := (layout_readBy version).ok_iff.mp second
  obtain rfl : h.version = version := by rw [← fits.2]
  obtain ⟨-, rfl⟩ := (readsAs_plain (n := 32)).mp same
  refine ⟨long, supported, fits, ?_⟩
  rw [rest, rest', List.append_assoc]

theorem read_eq_ok_iff {size : Nat} {s s' : Source} : read size s = .ok (t, s') ↔
    ∃ h mid, Header.read size s = .ok (h, mid) ∧ h.fault? size = none
      ∧ readSections h mid = .ok (t, s') ∧ s'.rest = [] := by
  constructor
  · intro h
    obtain ⟨header, mid, first, h⟩ := bind_eq_ok h
    refine ⟨header, mid, first, ?_⟩
    cases fault : header.fault? size with
    | some corruption =>
      simp only [fault] at h
      obtain ⟨_, _, h, -⟩ := bind_eq_ok h
      cases h
    | none =>
      simp only [fault] at h
      obtain ⟨table, mid', second, h⟩ := bind_eq_ok h
      obtain ⟨last, _, got, h⟩ := bind_eq_ok h
      cases got
      by_cases done : mid'.rest.isEmpty
      · rw [if_pos done] at h
        cases h
        exact ⟨rfl, second, List.isEmpty_iff.mp done⟩
      · rw [if_neg done] at h
        obtain ⟨_, _, h, -⟩ := bind_eq_ok h
        cases h
  · rintro ⟨header, mid, first, fault, second, done⟩
    unfold read
    rw [bind_of_ok first]
    simp only [fault]
    rw [bind_of_ok second]
    have done : s'.rest.isEmpty = true := List.isEmpty_iff.mpr done
    change (if s'.rest.isEmpty = true then _ else _ : Reader Table) s' = _
    rw [if_pos done]
    rfl

/-- Behind a header that can be read, nothing but a corruption is found. -/
theorem read_corrupt {size : Nat} {s mid : Source} {h : Header} {e : LoadError}
    (header : Header.read size s = .ok (h, mid)) (failed : read size s = .error e) :
    ∃ c, e = .corrupt c := by
  unfold read at failed
  rw [bind_of_ok header] at failed
  cases fault : h.fault? size with
  | some corruption =>
    simp only [fault] at failed
    cases failed
    exact ⟨_, rfl⟩
  | none =>
    simp only [fault] at failed
    rcases bind_eq_error failed with failed | ⟨table, mid', -, failed⟩
    · exact (sections_readBy h).corrupt failed
    · rcases bind_eq_error failed with failed | ⟨last, _, got, failed⟩
      · cases failed
      · cases got
        by_cases done : mid'.rest.isEmpty
        · rw [if_pos done] at failed
          cases failed
        · rw [if_neg done] at failed
          cases failed
          exact ⟨_, rfl⟩

theorem decode_eq_ok_iff_read : decode b = .ok t ↔
    (∃ s', read b.length ⟨b, 0⟩ = .ok (t, s')) ∧ t.validate = .ok () := by
  unfold decode
  cases readTable : read b.length ⟨b, 0⟩ with
  | error e => simp [bind, Except.bind]
  | ok p =>
    obtain ⟨table, s'⟩ := p
    constructor
    · intro h
      cases valid : table.validate with
      | error e => simp [valid, bind, Except.bind] at h
      | ok _ =>
        simp [valid, bind, Except.bind, pure, Except.pure] at h
        exact ⟨⟨s', by rw [h]⟩, h ▸ valid⟩
    · rintro ⟨⟨_, same⟩, valid⟩
      cases same
      simp [valid, bind, Except.bind, pure, Except.pure]

theorem decode_of_read_error {e : LoadError} (failed : read b.length ⟨b, 0⟩ = .error e) :
    decode b = .error e := by
  unfold decode
  rw [failed]
  rfl

theorem counts_of_fits {h : Header} (fits : (sections h).Fits t) : h = t.counts h.bodyLength := by
  simp only [sections, fits_view, fits_pair, fits_array] at fits
  obtain ⟨⟨⟨symbols, -⟩, ⟨fields, -⟩, ⟨productions, -⟩, ⟨lexStates, -⟩, ⟨modes, -⟩, -,
    ⟨externals, -⟩, -⟩, made⟩ := fits
  rw [← made, counts, symbolCount, stateCount]
  simp only [symbols, fields, productions, lexStates, modes, externals]

theorem decode_eq_ok_iff_written : decode b = .ok t ↔
    (∃ w, b = t.header w.length ++ w ∧ t.Announced w.length
      ∧ (t.counts w.length).fault? (40 + w.length) = none
      ∧ (sections (t.counts w.length)).Written t w) ∧ t.validate = .ok () := by
  rw [decode_eq_ok_iff_read]
  refine and_congr_left fun _ => ?_
  simp only [read_eq_ok_iff]
  constructor
  · rintro ⟨s', h, mid, header, fault, sections, done⟩
    obtain ⟨long, supported, fits, front⟩ := Header.read_eq_ok header
    obtain ⟨w, written, rest, -⟩ := (sections_readBy h).ok_iff.mp sections
    rw [done, List.append_nil] at rest
    rw [rest] at front
    have same := counts_of_fits written.1
    have length : h.bodyLength = b.length - 40 := (Header.fault?_eq_none_iff.mp fault).1
    have version : h.version = t.version := congrArg Header.version same
    rw [version] at supported fits front
    rw [same] at fits front fault written
    rw [← header_eq] at front
    change b = t.header h.bodyLength ++ w at front
    have all : b.length = 40 + w.length := by
      rw [front, List.length_append, length_header]
    obtain bodyLength : h.bodyLength = w.length := by omega
    rw [bodyLength] at front fits fault written
    rw [all] at fault
    exact ⟨w, front, ⟨supported, fits⟩, fault, written⟩
  · rintro ⟨w, rfl, announced, fault, written⟩
    have length : (t.header w.length ++ w).length = 40 + w.length := by
      rw [List.length_append, length_header]
    refine ⟨⟨[], 40 + w.length⟩, t.counts w.length, ⟨w, 40⟩,
      Header.read_header announced _ (by omega) w, ?_, ?_, rfl⟩
    · rw [length]
      exact fault
    · exact (sections_readBy _).ok_iff.mpr ⟨w, written, (List.append_nil w).symm, rfl⟩

/-! ### Room -/

/-- What encoding has room for. -/
structure Encodable (t : Table) : Prop where
  named : t.version = 1 ∧ t.name = none ∨ t.version = 2 ∧ t.name.isSome
  tokens_pos : 1 ≤ t.tokenCount
  tokens_le : t.tokenCount ≤ t.symbolCount
  symbols_lt : t.symbolCount < 65535
  symbol_names : ∀ s ∈ t.symbols, s.name.utf8ByteSize ≤ 65535
  field_names : ∀ name ∈ t.fields, name.utf8ByteSize ≤ 65535
  name_le : ∀ name, t.name = some name → name.utf8ByteSize ≤ 65535
  productions_le : ∀ entries ∈ t.productions, entries.length ≤ 65535
  lexStates_le : ∀ s ∈ t.lexStates, s.accepts.length ≤ 65535 ∧ s.transitions.length ≤ 65535
  reductions : ∀ r, some (.reduce r) ∈ t.cells →
    r.count ≤ 65535 ∧ -32768 ≤ r.precedence ∧ r.precedence ≤ 32767
  scannerStates_le : t.scannerStates.size ≤ 65535
  rows : ∀ row ∈ t.scannerStates, row.length = t.externals.size
  fields_lt : t.fields.size < 2 ^ 32
  states_lt : t.stateCount < 2 ^ 32
  lexStates_lt : t.lexStates.size < 2 ^ 32
  productions_lt : t.productions.size < 2 ^ 32
  externals_lt : t.externals.size < 2 ^ 32
  body_lt : t.body.length < 2 ^ 32

theorem named_iff : (t.version = 1 ∧ t.name = none ∨ t.version = 2 ∧ t.name.isSome)
      ∧ (∀ name, t.name = some name → name.utf8ByteSize ≤ 65535) ↔
    Supported t.version
      ∧ if Encoding.namedVersion ≤ t.version then ∃ s, t.name = some s ∧ s.utf8ByteSize ≤ 65535
        else t.name = none := by
  have unnamed : ¬ Encoding.namedVersion ≤ 1 := by decide
  have named : Encoding.namedVersion ≤ 2 := by decide
  rw [supported_iff]
  constructor
  · rintro ⟨⟨version, name⟩ | ⟨version, name⟩, short⟩
    · rw [version, if_neg unnamed]
      exact ⟨.inl rfl, name⟩
    · obtain ⟨s, is⟩ := Option.isSome_iff_exists.mp name
      rw [version, if_pos named]
      exact ⟨.inr rfl, s, is, short s is⟩
  · rintro ⟨version | version, name⟩
    · rw [version, if_neg unnamed] at name
      exact ⟨.inl ⟨version, name⟩, by simp [name]⟩
    · rw [version, if_pos named] at name
      obtain ⟨s, is, short⟩ := name
      refine ⟨.inr ⟨version, by simp [is]⟩, ?_⟩
      intro name is'
      cases is.symm.trans is'
      exact short

theorem length_le_flatMap (cells : List (Option Action)) :
    cells.length ≤ (cells.flatMap Action.encode).length := by
  induction cells with
  | nil => exact Nat.le_refl _
  | cons cell cells ih =>
    have := List.length_pos_iff.mpr (Action.encode_ne_nil cell)
    rw [List.flatMap_cons, List.length_append, List.length_cons]
    omega

/-- A cell takes up a byte at least. -/
theorem cells_le_body (size : t.cells.size = t.stateCount * t.symbolCount) :
    t.stateCount * t.symbolCount ≤ t.body.length := by
  have cells := length_le_flatMap t.cells.toList
  rw [Array.length_toList, size] at cells
  simp only [body, encodedCells_eq size, List.length_append]
  omega

theorem fits_counts : (Header.layout t.version).Fits (t.counts bodyLength) ↔
    t.symbolCount < 2 ^ 32 ∧ t.tokenCount < 2 ^ 32 ∧ t.fields.size < 2 ^ 32
      ∧ t.stateCount < 2 ^ 32 ∧ t.lexStates.size < 2 ^ 32 ∧ t.productions.size < 2 ^ 32
      ∧ t.externals.size < 2 ^ 32 ∧ bodyLength < 2 ^ 32 := by
  simp [Header.layout, counts]

theorem size_of_validate (valid : t.validate = .ok ()) :
    t.cells.size = t.stateCount * t.symbolCount := by
  have sound : t.fault? = none := by
    unfold validate at valid
    split at valid
    · cases valid
    · assumption
  simp only [fault?, Option.orElse_eq_orElse, Option.orElse_eq_or, Option.or_eq_none_iff] at sound
  exact (shapeFault?_eq_none sound.1).2

theorem encodable_iff (valid : t.validate = .ok ()) : t.Encodable ↔
    t.Announced t.body.length ∧ (t.counts t.body.length).fault? (40 + t.body.length) = none
      ∧ (sections (t.counts t.body.length)).Fits t := by
  have size := size_of_validate valid
  have cells := cells_le_body size
  rw [fits_sections, Header.fault?_eq_none_iff, and_comm (a := Announced ..)]
  constructor
  · intro h
    obtain ⟨supported, name⟩ := named_iff.mp ⟨h.named, h.name_le⟩
    refine ⟨⟨⟨?_, h.symbols_lt, ⟨h.tokens_pos, h.tokens_le⟩, cells⟩, h.symbol_names, h.field_names,
      h.productions_le, h.lexStates_le, ⟨size, ?_⟩, ⟨h.scannerStates_le, h.rows⟩, name⟩, supported,
      ?_⟩
    · change t.body.length = _
      omega
    · rintro cell member r rfl
      exact h.reductions r member
    · have := h.symbols_lt
      have := h.tokens_le
      exact fits_counts.mpr ⟨by omega, by omega, h.fields_lt, h.states_lt, h.lexStates_lt,
        h.productions_lt, h.externals_lt, h.body_lt⟩
  · rintro ⟨⟨⟨-, symbols, ⟨pos, le⟩, -⟩, symbolNames, fieldNames, productions, lexStates,
      ⟨-, reductions⟩, ⟨scanners, rows⟩, name⟩, supported, counts⟩
    obtain ⟨named, short⟩ := named_iff.mpr ⟨supported, name⟩
    obtain ⟨-, -, fields, states, lexCount, productionCount, externals, body⟩ :=
      fits_counts.mp counts
    exact ⟨named, pos, le, symbols, symbolNames, fieldNames, short, productions, lexStates,
      fun r member => reductions _ member r rfl, scanners, rows, fields, states, lexCount,
      productionCount, externals, body⟩

/-! ### There and back -/

/-- How decoding looks at the bytes of an encoded table. -/
def roles (t : Table) : List ByteRole :=
  List.replicate Encoding.headerSize .plain ++ t.sectionRoles

theorem decode_eq_ok_iff : decode b = .ok t ↔
    t.Encodable ∧ t.validate = .ok () ∧ ReadsAs t.roles t.encode b := by
  rw [decode_eq_ok_iff_written]
  constructor
  · rintro ⟨⟨w, rfl, announced, fault, written⟩, valid⟩
    have length := written.length_eq
    obtain ⟨fits, same⟩ := written
    rw [encode_sections fits] at length same
    rw [roles_sections] at same
    rw [length] at announced fault fits ⊢
    refine ⟨(encodable_iff valid).mpr ⟨announced, fault, fits⟩, valid, ?_⟩
    exact (readsAs_append rfl).mpr ⟨_, _, rfl, readsAs_plain.mpr ⟨rfl, rfl⟩, same⟩
  · rintro ⟨encodable, valid, all⟩
    obtain ⟨announced, fault, fits⟩ := (encodable_iff valid).mp encodable
    obtain ⟨front, w, rfl, header, same⟩ := (readsAs_append rfl).mp all
    obtain ⟨-, rfl⟩ := readsAs_plain.mp header
    have written : (sections (t.counts t.body.length)).Written t w := by
      refine ⟨fits, ?_⟩
      rw [roles_sections, encode_sections fits]
      exact same
    have length := written.length_eq
    rw [encode_sections fits] at length
    rw [← length] at announced fault written ⊢
    exact ⟨⟨w, rfl, announced, fault, written⟩, valid⟩

theorem reads_encode (encodable : t.Encodable) (valid : t.validate = .ok ()) :
    ReadsAs t.roles t.encode t.encode := by
  obtain ⟨-, -, fits⟩ := (encodable_iff valid).mp encodable
  have same := (sections (t.counts t.body.length)).reads_encode t
  rw [encode_sections fits, roles_sections] at same
  exact (readsAs_append rfl).mpr ⟨_, _, rfl, readsAs_plain.mpr ⟨rfl, rfl⟩, same⟩

theorem encodable_ofLists : ofLists.Encodable where
  named := by decide
  tokens_pos := by decide
  tokens_le := by decide
  symbols_lt := by decide
  symbol_names := by decide
  field_names := by decide
  name_le := nofun
  productions_le := by decide
  lexStates_le := by decide
  reductions r member := by
    have small : ∀ cell ∈ ofLists.cells, ∀ r, Action.reduction? cell = some r →
        r.count ≤ 65535 ∧ -32768 ≤ r.precedence ∧ r.precedence ≤ 32767 := by
      simp [ofLists, Action.reduction?]
    exact small _ member r rfl
  scannerStates_le := by decide
  rows := by decide
  fields_lt := by decide
  states_lt := by decide
  lexStates_lt := by decide
  productions_lt := by decide
  externals_lt := by decide
  body_lt := by decide +kernel

/-- Decoding undoes encoding. -/
theorem decode_encode (encodable : t.Encodable) (valid : t.validate = .ok ()) :
    decode t.encode = .ok t :=
  decode_eq_ok_iff.mpr ⟨encodable, valid, reads_encode encodable valid⟩

theorem ofLists_decode_encode :
    ofLists.Encodable ∧ ofLists.validate = .ok () ∧ decode ofLists.encode = .ok ofLists := by
  have valid : ofLists.validate = .ok () := by
    unfold validate
    have sound : ofLists.fault? = none := by decide +kernel
    rw [sound]
  exact ⟨encodable_ofLists, valid, decode_encode encodable_ofLists valid⟩

/-- Encoding undoes decoding, but for the bytes of which decoding looks at a part only: these it
makes canonical. -/
theorem encode_of_decode (decodes : decode b = .ok t) :
    t.roles.length = b.length ∧ t.encode.length = b.length
      ∧ t.encode = List.zipWith ByteRole.canonical t.roles b
      ∧ decode t.encode = .ok t
      ∧ (t.encode = b ↔ ∀ (i : Nat) (role : ByteRole) (x : UInt8),
        t.roles[i]? = some role → b[i]? = some x → role.canonical x = x) := by
  obtain ⟨encodable, valid, reads⟩ := decode_eq_ok_iff.mp decodes
  have itself := reads_encode encodable valid
  refine ⟨reads.1.symm, itself.1.trans reads.1.symm, reads.2.symm,
    decode_eq_ok_iff.mpr ⟨encodable, valid, itself⟩, ?_⟩
  rw [← reads.2]
  exact zipWith_canonical_eq_self reads.1.symm

/-- Bits that stand for no trait are lost. -/
theorem ofLists_encode_of_decode :
    decode (ofLists.encode.set 49 241) = .ok ofLists
      ∧ ofLists.encode
        = List.zipWith ByteRole.canonical ofLists.roles (ofLists.encode.set 49 241) := by
  have decodes : decode (ofLists.encode.set 49 241) = .ok ofLists :=
    decode_eq_ok_of_toOption (by decide +kernel)
  exact ⟨decodes, (encode_of_decode decodes).2.2.1⟩

/-! ### Cut off or continued -/

/-- A header that can be read, and behind it what no table looks like. -/
theorem decode_header_corrupt (announced : t.Announced bodyLength)
    (unread : ∀ t', ¬ (sections (t.counts bodyLength)).Written t' w) :
    ∃ c, decode (t.header bodyLength ++ w) = .error (.corrupt c) := by
  have long : 40 ≤ (t.header bodyLength ++ w).length := by
    rw [List.length_append, length_header]
    omega
  have header := Header.read_header announced _ long w
  cases got : read (t.header bodyLength ++ w).length ⟨t.header bodyLength ++ w, 0⟩ with
  | error e =>
    obtain ⟨c, rfl⟩ := read_corrupt header got
    exact ⟨c, decode_of_read_error got⟩
  | ok p =>
    obtain ⟨h, mid, header', -, body, done⟩ := read_eq_ok_iff.mp got
    cases header.symm.trans header'
    obtain ⟨all, written, rest, -⟩ := (sections_readBy _).ok_iff.mp body
    rw [done, List.append_nil] at rest
    cases rest
    exact absurd written (unread _)

/-- Of two bodies of tables, neither goes on where the other one ends. -/
theorem decode_comparable_corrupt {w' : List UInt8} {m : Nat}
    (written : (sections (t.counts m)).Written t w) (announced : t.Announced bodyLength)
    (comparable : w' <+: w ∨ w <+: w') (different : w' ≠ w) :
    ∃ c, decode (t.header bodyLength ++ w') = .error (.corrupt c) := by
  refine decode_header_corrupt announced fun t' other => different ?_
  rcases comparable with ⟨rest, rfl⟩ | ⟨rest, rfl⟩
  · rw [(sections_readBy (t.counts m)).prefix_free other written, List.append_nil]
  · rw [(sections_readBy (t.counts m)).prefix_free written other, List.append_nil]

theorem decode_short_corrupt {version : UInt32} (supported : Supported version)
    (short : b.length < 40) (front : 8 ≤ b.length → signed version <+: b) :
    ∃ c, decode b = .error (.corrupt c) := by
  have failed : ∃ c, Header.readVersion b.length ⟨b, 0⟩ = .error (.corrupt c) := by
    by_cases tooShort : b.length < 8
    · refine ⟨.tooShort b.length, ?_⟩
      unfold Header.readVersion
      rw [if_pos tooShort]
      rfl
    · obtain ⟨rest, rfl⟩ := front (Nat.le_of_not_lt tooShort)
      rw [Header.readVersion_signed supported, if_neg tooShort]
      exact ⟨_, if_pos short⟩
  obtain ⟨c, failed⟩ := failed
  refine ⟨c, decode_of_read_error ?_⟩
  unfold read
  rw [Header.read_eq]
  exact bind_of_error (bind_of_error failed)

theorem Announced.resize {m : Nat} (announced : t.Announced bodyLength) (small : m < 2 ^ 32) :
    t.Announced m := by
  refine ⟨announced.supported, ?_⟩
  have counts := fits_counts.mp announced.counts
  exact fits_counts.mpr (by omega)

/-- The bytes of a table after its header is made to say how many bytes there are. -/
def withBodyLength (bytes : List UInt8) : List UInt8 :=
  bytes.take 36 ++ Encoding.double (bytes.length - 40) ++ bytes.drop 40

theorem withBodyLength_header :
    withBodyLength (t.header bodyLength ++ w) = t.header w.length ++ w := by
  have size : (t.header bodyLength ++ w).length - 40 = w.length := by
    rw [List.length_append, length_header]
    omega
  rw [withBodyLength, size]
  rfl

/-- A table that is cut off or continued is corrupt, even if its header is made to fit. -/
theorem decode_cut_or_continued (decodes : decode b = .ok t) :
    (∀ n < b.length, (∃ c, decode (b.take n) = .error (.corrupt c))
      ∧ (40 ≤ n → ∃ c, decode (withBodyLength (b.take n)) = .error (.corrupt c)))
    ∧ ∀ x, x ≠ [] → (∃ c, decode (b ++ x) = .error (.corrupt c))
      ∧ ((b ++ x).length - 40 < 2 ^ 32 →
        ∃ c, decode (withBodyLength (b ++ x)) = .error (.corrupt c)) := by
  obtain ⟨⟨w, rfl, announced, -, written⟩, -⟩ := decode_eq_ok_iff_written.mp decodes
  have all : (t.header w.length ++ w).length = 40 + w.length := by
    rw [List.length_append, length_header]
  have small := fits_counts.mp announced.counts
  rw [all]
  constructor
  · intro n fewer
    by_cases short : n < 40
    · refine ⟨decode_short_corrupt announced.supported ?_ ?_, by omega⟩
      · rw [List.length_take]
        omega
      · intro enough
        rw [List.length_take, all] at enough
        rw [header_eq, List.append_assoc]
        exact List.prefix_take_iff.mpr ⟨List.prefix_append _ _, by change 8 ≤ n; omega⟩
    · have cut : (t.header w.length ++ w).take n = t.header w.length ++ w.take (n - 40) := by
        rw [List.take_append, List.take_of_length_le (by rw [length_header]; omega), length_header]
      have different : w.take (n - 40) ≠ w := by
        intro same
        have := congrArg List.length same
        rw [List.length_take] at this
        omega
      have comparable : w.take (n - 40) <+: w := List.take_prefix _ _
      rw [cut, withBodyLength_header]
      refine ⟨decode_comparable_corrupt written announced (.inl comparable) different, fun _ => ?_⟩
      have less := comparable.length_le
      exact decode_comparable_corrupt written (announced.resize (by omega)) (.inl comparable)
        different
  · intro x more
    have comparable : w <+: w ++ x := List.prefix_append _ _
    have different : w ++ x ≠ w := by simpa using more
    rw [List.append_assoc, withBodyLength_header]
    refine ⟨decode_comparable_corrupt written announced (.inr comparable) different, fun few => ?_⟩
    refine decode_comparable_corrupt written (announced.resize ?_) (.inr comparable) different
    rw [List.length_append, length_header] at few
    omega

theorem ofLists_cut_or_continued :
    decode ofLists.encode = .ok ofLists
      ∧ (∃ c, decode (withBodyLength (ofLists.encode.take 60)) = .error (.corrupt c))
      ∧ ∃ c, decode (withBodyLength (ofLists.encode ++ [0])) = .error (.corrupt c) := by
  have decodes : decode ofLists.encode = .ok ofLists :=
    decode_eq_ok_of_toOption (by decide +kernel)
  obtain ⟨cut, continued⟩ := decode_cut_or_continued decodes
  refine ⟨decodes, (cut 60 ?_).2 (by decide), (continued [0] nofun).2 ?_⟩
  · decide +kernel
  · decide +kernel

end Reparse.Table
