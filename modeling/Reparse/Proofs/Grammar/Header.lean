import Mathlib.Tactic.SplitIfs
import Reparse.Proofs.Grammar.Layout

/-!
How the header of a table lies in bytes.

A header starts with the signature and a version. Bytes that start so are read on if there are
enough of them, and are corrupt if there are not (`Table.Header.readVersion_signed`); no others are
read on (`Table.Header.readVersion_eq_ok`). The counts behind the version have a layout like any
other part (`Table.Header.layout_readBy`).
-/

namespace Reparse.Table

open Decoding Layout

/-! ### Counts -/

/-- The counts of a header, which come after its version. -/
def Header.layout (version : UInt32) : Layout Header :=
  (Layout.double.pair <| .pair .double <| .pair .double <| .pair .double <| .pair .double <|
    .pair .double <| .pair .double .double).view
  (fun h => (h.symbols, h.tokens, h.fields, h.states, h.lexStates, h.productions, h.externals,
    h.bodyLength))
  fun (symbols, tokens, fields, states, lexStates, productions, externals, bodyLength) =>
    { version, symbols, tokens, fields, states, lexStates, productions, externals, bodyLength }

def Header.readCounts (version : UInt32) : Reader Header := do
  let symbols ← double .symbolCount
  let tokens ← double .tokenCount
  let fields ← double .fieldCount
  let states ← double .stateCount
  let lexStates ← double .lexStateCount
  let productions ← double .productionCount
  let externals ← double .externalCount
  let bodyLength ← double .bodyLength
  return { version, symbols, tokens, fields, states, lexStates, productions, externals, bodyLength }

theorem Header.layout_readBy (version : UInt32) : (layout version).ReadBy (readCounts version) :=
  ((double_readBy .symbolCount).pair <| (double_readBy .tokenCount).pair <|
    (double_readBy .fieldCount).pair <| (double_readBy .stateCount).pair <|
    (double_readBy .lexStateCount).pair <| (double_readBy .productionCount).pair <|
    (double_readBy .externalCount).pair <| double_readBy .bodyLength).through (fun _ _ => rfl) (by
      simp only [readCounts, bind_assoc, pure_bind])

/-! ### Versions -/

/-- The signature and a version that can be read. -/
def Header.readVersion (size : Nat) : Reader UInt32 := do
  if size < 8 then corrupt (.tooShort size)
  let magic ← take 4 .magic
  if magic ≠ Encoding.signature then corrupt .noSignature
  let version := (← double .version).toUInt32
  if version < Encoding.oldestVersion ∨ Encoding.newestVersion < version then
    throw (.incompatibleVersion version)
  if size < Encoding.headerSize then corrupt (.shortHeader size)
  return version

theorem Header.read_eq (size : Nat) : Header.read size = readVersion size >>= readCounts := by
  unfold Header.read readVersion
  by_cases tooShort : size < 8
  · simp only [tooShort, if_true]
    rfl
  · simp only [tooShort, if_false, bind_assoc]
    congr 1
    funext magic
    by_cases signed : magic = Encoding.signature
    · simp only [signed, ne_eq, not_true_eq_false, if_false, bind_assoc]
      congr 1
      funext version
      by_cases unknown : version.toUInt32 < Encoding.oldestVersion
          ∨ Encoding.newestVersion < version.toUInt32
      · simp only [unknown, if_true]
        rfl
      · simp only [unknown, if_false]
        by_cases short : size < Encoding.headerSize
        · simp only [short, if_true]
          rfl
        · simp only [short, if_false, pure_bind]
          rfl
    · simp only [signed, ne_eq, not_false_eq_true, if_true]
      rfl

/-- What comes before the counts. -/
def signed (version : UInt32) : List UInt8 := Encoding.signature ++ Encoding.double version.toNat

def Supported (version : UInt32) : Prop :=
  Encoding.oldestVersion ≤ version ∧ version ≤ Encoding.newestVersion

theorem supported_iff {version : UInt32} : Supported version ↔ version = 1 ∨ version = 2 := by
  have oldest : Encoding.oldestVersion.toNat = 1 := rfl
  have newest : Encoding.newestVersion.toNat = 2 := rfl
  have one : (1 : UInt32).toNat = 1 := rfl
  have two : (2 : UInt32).toNat = 2 := rfl
  rw [Supported, UInt32.le_iff_toNat_le, UInt32.le_iff_toNat_le, ← UInt32.toNat_inj,
    ← UInt32.toNat_inj]
  omega

theorem toUInt32_toNat (n : UInt32) : n.toNat.toUInt32 = n := by
  rw [Nat.toUInt32_eq, UInt32.ofNat_toNat]

theorem Header.readVersion_signed {version : UInt32} (supported : Supported version) (size : Nat)
    (rest : List UInt8) : readVersion size ⟨signed version ++ rest, 0⟩ =
      if size < 8 then .error (.corrupt (.tooShort size))
      else if size < Encoding.headerSize then .error (.corrupt (.shortHeader size))
      else .ok (version, ⟨rest, 8⟩) := by
  have magic : take 4 .magic ⟨signed version ++ rest, 0⟩
      = .ok (Encoding.signature, ⟨Encoding.double version.toNat ++ rest, 4⟩) :=
    (take_readBy 4 .magic).ok_iff.mpr
      ⟨_, written_bytes.mpr ⟨rfl, rfl⟩, List.append_assoc .., rfl⟩
  have number : Decoding.double .version ⟨Encoding.double version.toNat ++ rest, 4⟩
      = .ok (version.toNat, ⟨rest, 8⟩) :=
    (double_readBy .version).ok_iff.mpr
      ⟨_, ⟨fits_double.mpr version.toNat_lt, readsAs_plain.mpr ⟨rfl, rfl⟩⟩, rfl, rfl⟩
  have known : ¬ (version < Encoding.oldestVersion ∨ Encoding.newestVersion < version) := by
    rintro (older | newer)
    · exact UInt32.not_lt.mpr supported.1 older
    · exact UInt32.not_lt.mpr supported.2 newer
  unfold readVersion
  by_cases tooShort : size < 8
  · simp only [tooShort, if_true]
    rfl
  · simp only [tooShort, if_false]
    rw [bind_of_ok magic, if_neg (fun unsigned => unsigned rfl), bind_of_ok number]
    simp only [toUInt32_toNat, known, if_false]
    by_cases short : size < Encoding.headerSize
    · simp only [short, if_true]
      rfl
    · simp only [short, if_false]
      rfl

theorem Header.readVersion_eq_ok {size : Nat} {s s' : Source} {version : UInt32}
    (h : readVersion size s = .ok (version, s')) :
    Encoding.headerSize ≤ size ∧ Supported version ∧ s.rest = signed version ++ s'.rest := by
  unfold readVersion at h
  by_cases tooShort : size < 8
  · rw [if_pos tooShort] at h
    cases h
  rw [if_neg tooShort] at h
  obtain ⟨magic, mid, one, h⟩ := bind_eq_ok h
  by_cases unsigned : magic ≠ Encoding.signature
  · rw [if_pos unsigned] at h
    cases h
  rw [if_neg unsigned] at h
  obtain ⟨number, mid', two, h⟩ := bind_eq_ok h
  by_cases unknown : number.toUInt32 < Encoding.oldestVersion
      ∨ Encoding.newestVersion < number.toUInt32
  · rw [if_pos unknown] at h
    cases h
  rw [if_neg unknown] at h
  by_cases short : size < Encoding.headerSize
  · rw [if_pos short] at h
    cases h
  rw [if_neg short] at h
  cases h
  obtain ⟨_, written, rest, -⟩ := (take_readBy 4 .magic).ok_iff.mp one
  obtain ⟨-, rfl⟩ := written_bytes.mp written
  obtain ⟨_, ⟨small, same⟩, rest', -⟩ := (double_readBy .version).ok_iff.mp two
  obtain ⟨-, rfl⟩ := readsAs_plain.mp same
  rw [not_or, UInt32.not_lt, UInt32.not_lt] at unknown
  refine ⟨Nat.le_of_not_lt short, unknown, ?_⟩
  have low : number.toUInt32.toNat = number := by
    rw [Nat.toUInt32_eq]
    exact UInt32.toNat_ofNat_of_lt' (fits_double.mp small)
  rw [rest, rest', Decidable.not_not.mp unsigned, signed, low, List.append_assoc]
  rfl

/-! ### Faults -/

theorem Header.fault?_eq_none_iff {h : Header} {size : Nat} : h.fault? size = none ↔
    h.bodyLength = size - 40 ∧ h.symbols < 65535 ∧ (0 < h.tokens ∧ h.tokens ≤ h.symbols)
      ∧ h.states * h.symbols ≤ h.bodyLength := by
  have symbols : Symbol.error.toNat = 65535 := rfl
  have size : Encoding.headerSize = 40 := rfl
  unfold Header.fault?
  rw [symbols, size]
  split_ifs with length many tokens cells
  · rw [false_iff]
    omega
  · rw [false_iff]
    omega
  · rw [false_iff]
    omega
  · rw [false_iff]
    omega
  · rw [eq_self, true_iff]
    omega

end Reparse.Table
