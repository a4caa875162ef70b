/-!
Reading bytes as UTF-8, with the first fault said exactly.

A fault is either a sequence that no continuation can mend, with the number of its bytes
that still fitted together, or a sequence that the text ends in.
-/

namespace Reparse.Utf8

inductive Fault where
  | invalid (length index : Nat)
  | incomplete (index : Nat)
  deriving DecidableEq, Repr

def Fault.message : Fault → String
  | invalid length index =>
    "invalid utf-8 sequence of " ++ toString length ++ " bytes from index " ++ toString index
  | incomplete index => "incomplete utf-8 byte sequence from index " ++ toString index

/-- What must follow a lead byte beyond ASCII: how many bytes, and the range of the first
of them. It leaves out overlong forms, surrogates and numbers beyond the last code point. -/
def followers? (lead : UInt8) : Option (Nat × UInt8 × UInt8) :=
  if lead < 0xc2 then none
  else if lead ≤ 0xdf then some (1, 0x80, 0xbf)
  else if lead = 0xe0 then some (2, 0xa0, 0xbf)
  else if lead = 0xed then some (2, 0x80, 0x9f)
  else if lead ≤ 0xef then some (2, 0x80, 0xbf)
  else if lead = 0xf0 then some (3, 0x90, 0xbf)
  else if lead ≤ 0xf3 then some (3, 0x80, 0xbf)
  else if lead = 0xf4 then some (3, 0x80, 0x8f)
  else none

/-- A sequence under way: where it starts, its bytes so far, the bytes it lacks, and the
range of the next one. Between sequences it has no bytes and lacks none. -/
structure Progress where
  start : Nat := 0
  seen : Nat := 0
  lacking : Nat := 0
  low : UInt8 := 0x80
  high : UInt8 := 0xbf

def Progress.step (p : Progress) (byte : UInt8) : Except Fault Progress :=
  if p.lacking = 0 then
    if byte < 0x80 then .ok { start := p.start + 1 }
    else
      match followers? byte with
      | none => .error (.invalid 1 p.start)
      | some (lacking, low, high) => .ok { start := p.start, seen := 1, lacking, low, high }
  else if p.low ≤ byte ∧ byte ≤ p.high then
    if p.lacking = 1 then .ok { start := p.start + p.seen + 1 }
    else .ok { start := p.start, seen := p.seen + 1, lacking := p.lacking - 1 }
  else .error (.invalid p.seen p.start)

def faultFrom? (p : Progress) : List UInt8 → Option Fault
  | [] => if p.lacking = 0 then none else some (.incomplete p.start)
  | byte :: rest =>
    match p.step byte with
    | .error fault => some fault
    | .ok p => faultFrom? p rest

/-- The first fault of the bytes, if they are no text. -/
def fault? (bytes : List UInt8) : Option Fault := faultFrom? {} bytes

def decode (bytes : List UInt8) : Except Fault String :=
  match fault? bytes with
  | some fault => .error fault
  | none => .ok ((String.fromUTF8? ⟨bytes.toArray⟩).getD "")

end Reparse.Utf8
