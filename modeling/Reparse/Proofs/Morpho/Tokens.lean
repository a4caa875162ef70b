import Reparse.Morpho.Table
import Reparse.Proofs.Lex.Longest

/-!
The tokens of Morpho.

What a token of Morpho looks like is said byte by byte, apart from the automaton (`Lexeme`). The
states of the automaton that a token can go on in for as long as it likes are loops
(`acceptsOn?_loop`); the states of a keyword fall back to those of an identifier wherever a text
leaves the keyword (`acceptsOn?_keyword`). So the automaton accepts exactly the texts that look like
a token (`accepts_iff`), and a token is the longest of these (`tokenAt_lexeme`).
-/

namespace Reparse

/-! ### What an automaton accepts -/

namespace Language

variable {lang : Language} {input : Array UInt8} {start q : LexStateId} {place stop : Nat}
  {here : LexState}

/-- The symbol that the automaton accepts when it has taken a text. -/
def acceptsOn? (lang : Language) (start : LexStateId) (text : List UInt8) : Option Symbol :=
  (lang.runOn start text).bind fun q => (lang.lexState? q).bind (·.accepted?)

theorem acceptsOn?_nil (found : lang.lexState? q = some here) :
    lang.acceptsOn? q [] = here.accepted? := by
  rw [acceptsOn?, runOn, Option.bind_some, found, Option.bind_some]

theorem acceptsOn?_cons (found : lang.lexState? q = some here) (byte : UInt8)
    (rest : List UInt8) : lang.acceptsOn? q (byte :: rest)
      = (here.next? byte).bind fun target => lang.acceptsOn? target rest := by
  rw [acceptsOn?, runOn, found, Option.bind_some]
  cases here.next? byte <;> rfl

/-- In a loop the automaton takes any number of the bytes that lead back to it. -/
theorem acceptsOn?_loop (here : LexState) {p : UInt8 → Bool} {symbol : Symbol}
    (found : lang.lexState? q = some here) (accepts : here.accepted? = some symbol)
    (loops : ∀ byte, here.next? byte = if p byte then some q else none) (text : List UInt8) :
    lang.acceptsOn? q text = if text.all p then some symbol else none := by
  induction text with
  | nil => rw [acceptsOn?_nil found, accepts, List.all_nil, if_pos rfl]
  | cons byte rest ih =>
    rw [acceptsOn?_cons found, loops, List.all_cons]
    cases p byte with
    | false => rfl
    | true => exact ih

theorem couldEnd_iff : lang.CouldEnd input start place stop ↔ place < stop ∧ stop ≤ input.size
    ∧ (lang.acceptsOn? start (input.extract place stop).toList).isSome := by
  refine and_congr_right fun _ => and_congr_right fun _ => ?_
  unfold acceptsOn? stateAfter?
  constructor
  · rintro ⟨q, here, isState, found, some⟩
    obtain ⟨a, gives⟩ := LexState.exists_gives some here.transitions
    rw [isState, Option.bind_some, found, Option.bind_some, gives.accepted?_eq]
    rfl
  · intro accepts
    obtain ⟨symbol, accepts⟩ := Option.isSome_iff_exists.mp accepts
    obtain ⟨q, isState, accepts⟩ := Option.bind_eq_some_iff.mp accepts
    obtain ⟨here, found, accepts⟩ := Option.bind_eq_some_iff.mp accepts
    refine ⟨q, here, isState, found, fun none => ?_⟩
    rw [LexState.accepted?, none] at accepts
    cases accepts

/-- The automaton's token is the longest text that it accepts, or one byte of error. -/
theorem tableToken_accepts (lang : Language) (start : LexStateId) (inside : place ≤ input.size) :
    let token := (lang.tableToken input start place).1
    token.start = place
      ∧ ((place < token.stop ∧ token.stop ≤ input.size
          ∧ lang.acceptsOn? start (input.extract place token.stop).toList = some token.symbol
          ∧ ∀ stop, lang.CouldEnd input start place stop → stop ≤ token.stop)
        ∨ ((∀ stop, ¬ lang.CouldEnd input start place stop)
          ∧ token.symbol = Symbol.error ∧ token.stop = place + 1)) := by
  have begun : Walk.Comes lang input start place start ⟨place, none⟩ := Walk.comes_start inside
  obtain ⟨state, comes, furthest⟩ := walk_comes begun rfl
  have walked (stop : Nat) (could : lang.CouldEnd input start place stop) :
      stop ≤ (lang.walk input (input.size - place) start ⟨place, none⟩).position := by
    obtain ⟨-, within, q, -, isState, -⟩ := could
    exact furthest stop within (by rw [isState]; rfl)
  have last := comes.accepted
  rw [tableToken]
  dsimp only
  split at last
  next none =>
    rw [none]
    exact ⟨rfl, .inr ⟨fun stop could => last stop (walked stop could) could, rfl, rfl⟩⟩
  next symbol stop some =>
    rw [some]
    obtain ⟨could, ⟨q, here, a, isState, found, gives, rfl⟩, longest⟩ := last
    refine ⟨rfl, .inl ⟨could.1, could.2.1, ?_, fun stop could => longest stop (walked stop could)
      could⟩⟩
    rw [acceptsOn?, ← stateAfter?, isState, Option.bind_some, found, Option.bind_some,
      gives.accepted?_eq]

end Language

namespace Morpho

open Reparse.Language (acceptsOn? acceptsOn?_nil acceptsOn?_cons acceptsOn?_loop)

/-! ### What tokens look like -/

def isBlank (byte : UInt8) : Bool := 9 ≤ byte && byte ≤ 13 || byte == 32

def isDigit (byte : UInt8) : Bool := 48 ≤ byte && byte ≤ 57

def isLetter (byte : UInt8) : Bool :=
  65 ≤ byte && byte ≤ 90 || byte == 95 || 97 ≤ byte && byte ≤ 122

def isInWord (byte : UInt8) : Bool := isLetter byte || isDigit byte

def bytesOf (word : String) : List UInt8 := word.toUTF8.toList

/-- Two words are keywords, as a whole only. -/
def wordSymbol (text : List UInt8) : Symbol :=
  if text = bytesOf "var" then varWord else if text = bytesOf "print" then printWord
  else identifier

def signs : List (UInt8 × Symbol) :=
  (bytesOf "=,;+*()\x7b\x7d").zip
    [equal, comma, semicolon, plus, star, openParen, closeParen, openBrace, closeBrace]

/-- A text that is a token of a symbol. -/
inductive Lexeme : Symbol → List UInt8 → Prop
  | blanks {text : List UInt8} (some : text ≠ []) (all : ∀ byte ∈ text, isBlank byte) :
      Lexeme whitespace text
  | remark {line : List UInt8} (within : ∀ byte ∈ line, byte ≠ 10) :
      Lexeme comment (bytesOf "//" ++ line)
  | number {text : List UInt8} (some : text ≠ []) (all : ∀ byte ∈ text, isDigit byte) :
      Lexeme integer text
  | word {first : UInt8} {rest : List UInt8} (begins : isLetter first)
      (goes_on : ∀ byte ∈ rest, isInWord byte) : Lexeme (wordSymbol (first :: rest)) (first :: rest)
  | sign {byte : UInt8} {symbol : Symbol} (listed : (byte, symbol) ∈ signs) : Lexeme symbol [byte]

/-- A slash begins a token only before another. -/
def afterSlash? : List UInt8 → Option Symbol
  | [] => none
  | second :: line =>
    if second = 47 then if line.all (· != 10) then some comment else none else none

/-- The symbol of a text that is a token, by its first byte. -/
def lexeme? : List UInt8 → Option Symbol
  | [] => none
  | first :: rest =>
    if isBlank first then if rest.all isBlank then some whitespace else none
    else if isDigit first then if rest.all isDigit then some integer else none
    else if isLetter first then
      if rest.all isInWord then some (wordSymbol (first :: rest)) else none
    else if first = 47 then afterSlash? rest
    else if rest = [] then signs.lookup first else none

/-- What is checked of every number below 256 holds of every byte. -/
theorem forall_byte {p : UInt8 → Prop} (each : ∀ n < 256, p (UInt8.ofNat n)) (byte : UInt8) :
    p byte := by
  have := each byte.toNat byte.toNat_lt
  rwa [UInt8.ofNat_toNat] at this

theorem bytesOf_slashes (line : List UInt8) : bytesOf "//" ++ line = 47 :: 47 :: line := by
  have slashes : bytesOf "//" = [47, 47] := by decide +kernel
  rw [slashes]
  rfl

theorem class_of_digit {byte : UInt8} : isDigit byte → isBlank byte = false :=
  forall_byte (p := fun byte => isDigit byte → isBlank byte = false) (by decide +kernel) byte

theorem class_of_letter {byte : UInt8} :
    isLetter byte → isBlank byte = false ∧ isDigit byte = false :=
  forall_byte (p := fun byte => isLetter byte → isBlank byte = false ∧ isDigit byte = false)
    (by decide +kernel) byte

theorem mem_signs_of_lookup {byte : UInt8} {symbol : Symbol} (sign : signs.lookup byte = some symbol) :
    (byte, symbol) ∈ signs := by
  obtain ⟨before, after, listed, -⟩ := List.lookup_eq_some_iff.mp sign
  simp [listed]

theorem remark_of_afterSlash? {symbol : Symbol} {rest : List UInt8}
    (is : afterSlash? rest = some symbol) : Lexeme symbol (47 :: rest) := by
  cases rest with
  | nil => cases is
  | cons second line =>
    rw [afterSlash?] at is
    obtain ⟨slash, is⟩ := Option.ite_none_right_eq_some.mp is
    obtain ⟨all, is⟩ := Option.ite_none_right_eq_some.mp is
    rw [slash, ← bytesOf_slashes, ← Option.some.inj is]
    exact .remark (by simpa using all)

theorem lexeme_of_lexeme? {symbol : Symbol} {text : List UInt8} (is : lexeme? text = some symbol) :
    Lexeme symbol text := by
  cases text with
  | nil => cases is
  | cons first rest =>
    rw [lexeme?] at is
    split at is
    next blank =>
      obtain ⟨all, ⟨⟩⟩ := Option.ite_none_right_eq_some.mp is
      exact .blanks (List.cons_ne_nil _ _)
        (List.forall_mem_cons.mpr ⟨blank, List.all_eq_true.mp all⟩)
    split at is
    next digit =>
      obtain ⟨all, ⟨⟩⟩ := Option.ite_none_right_eq_some.mp is
      exact .number (List.cons_ne_nil _ _)
        (List.forall_mem_cons.mpr ⟨digit, List.all_eq_true.mp all⟩)
    split at is
    next letter =>
      obtain ⟨all, ⟨⟩⟩ := Option.ite_none_right_eq_some.mp is
      exact .word letter (List.all_eq_true.mp all)
    split at is
    next slash =>
      subst slash
      exact remark_of_afterSlash? is
    next =>
      obtain ⟨rfl, is⟩ := Option.ite_none_right_eq_some.mp is
      exact .sign (mem_signs_of_lookup is)

theorem lexeme?_of_lexeme {symbol : Symbol} {text : List UInt8} (lexeme : Lexeme symbol text) :
    lexeme? text = some symbol := by
  cases lexeme with
  | blanks some all =>
    obtain ⟨first, rest, rfl⟩ := List.exists_cons_of_ne_nil some
    obtain ⟨blank, all⟩ := List.forall_mem_cons.mp all
    have all : rest.all isBlank = true := List.all_eq_true.mpr all
    rw [lexeme?, if_pos blank, if_pos all]
  | @remark line within =>
    have all : line.all (· != 10) = true := by simpa using within
    rw [bytesOf_slashes, lexeme?, if_neg (by decide), if_neg (by decide), if_neg (by decide),
      if_pos rfl, afterSlash?, if_pos rfl, if_pos all]
  | number some all =>
    obtain ⟨first, rest, rfl⟩ := List.exists_cons_of_ne_nil some
    obtain ⟨digit, all⟩ := List.forall_mem_cons.mp all
    have all : rest.all isDigit = true := List.all_eq_true.mpr all
    rw [lexeme?, class_of_digit digit, if_neg Bool.false_ne_true, if_pos digit, if_pos all]
  | @word first rest begins goes_on =>
    obtain ⟨notBlank, notDigit⟩ := class_of_letter begins
    have all : rest.all isInWord = true := List.all_eq_true.mpr goes_on
    rw [lexeme?, notBlank, notDigit, if_neg Bool.false_ne_true, if_neg Bool.false_ne_true,
      if_pos begins, if_pos all]
  | sign listed =>
    have each : ∀ sign ∈ signs, lexeme? [sign.1] = some sign.2 := by decide +kernel
    exact each _ listed

/-! ### The automaton -/

variable {handle : Nat}

theorem word_next (accepts : List Acceptance) (byte : UInt8) :
    LexState.next? ⟨accepts, digits :: letters⟩ byte
      = if isInWord byte then some identifierState else none :=
  forall_byte (p := fun byte => LexState.next? ⟨[], digits :: letters⟩ byte
    = if isInWord byte then some identifierState else none) (by decide +kernel) byte

theorem acceptsOn?_identifier (text : List UInt8) :
    (language handle).acceptsOn? identifierState text
      = if text.all isInWord then some identifier else none :=
  acceptsOn?_loop ⟨[asIdentifier], digits :: letters⟩ rfl rfl (word_next _) text

theorem lexState?_of_drop (handle : Nat) {q : LexStateId} {here : LexState} {more : List LexState}
    (states : here :: more <+: lexStates.drop q.toNat) :
    (language handle).lexState? q = some here := by
  obtain ⟨after, is⟩ := states
  have first := congrArg (·[0]?) is
  rw [List.getElem?_drop] at first
  exact (List.getElem?_toArray ..).trans first.symm

theorem drop_succ {q : LexStateId} {here : LexState} {more : List LexState}
    (states : here :: more <+: lexStates.drop q.toNat) :
    more <+: lexStates.drop (q + 1).toNat := by
  have inside : q.toNat < lexStates.length := by
    have := states.length_le
    rw [List.length_cons, List.length_drop] at this
    omega
  have count : lexStates.length = 23 := by decide
  have one : (1 : UInt16).toNat = 1 := rfl
  have next : (q + 1).toNat = q.toNat + 1 := by
    rw [UInt16.toNat_add, one]
    exact Nat.mod_eq_of_lt (by omega)
  obtain ⟨after, is⟩ := states
  rw [next, ← List.drop_drop, ← is]
  exact ⟨after, rfl⟩

/-- A text leaves a keyword for an identifier wherever it differs from it. -/
theorem acceptsOn?_keyword (symbol : Symbol) {q : LexStateId} (rest : List UInt8)
    (word : ∀ byte ∈ rest, isInWord byte)
    (states : keywordStates symbol q rest <+: lexStates.drop q.toNat) (text : List UInt8) :
    (language handle).acceptsOn? q text
      = if text.all isInWord then some (if text = rest then symbol else identifier) else none := by
  induction rest generalizing q text with
  | nil =>
    have found := lexState?_of_drop handle states
    cases text with
    | nil => exact acceptsOn?_nil found
    | cons byte text =>
      rw [acceptsOn?_cons found, word_next, List.all_cons]
      cases isInWord byte with
      | false => rfl
      | true => exact acceptsOn?_identifier text
  | cons next rest ih =>
    rw [keywordStates] at states
    have found := lexState?_of_drop handle states
    obtain ⟨inWord, others⟩ := List.forall_mem_cons.mp word
    cases text with
    | nil => exact acceptsOn?_nil found
    | cons byte text =>
      rw [acceptsOn?_cons found]
      by_cases same : byte = next
      · subst same
        have goes : LexState.next? ⟨[asIdentifier], ⟨byte, byte, q + 1⟩ :: digits :: letters⟩ byte
            = some (q + 1) := by simp [LexState.next?]
        rw [goes, Option.bind_some, ih others (drop_succ states), List.all_cons, inWord,
          Bool.true_and]
        simp
      · have leaves : LexState.next? ⟨[asIdentifier], ⟨next, next, q + 1⟩ :: digits :: letters⟩ byte
            = LexState.next? ⟨[asIdentifier], digits :: letters⟩ byte := by
          have apart : ¬ (next ≤ byte ∧ byte ≤ next) :=
            fun between => same (UInt8.le_antisymm between.2 between.1)
          simp [LexState.next?, List.find?_cons, apart]
        rw [leaves, word_next, List.all_cons, if_neg fun is => same (List.cons.inj is).1]
        cases isInWord byte with
        | false => rfl
        | true => exact acceptsOn?_identifier text

def signState (symbol : Symbol) : LexStateId :=
  punctuationState + ((signs.map (·.2)).idxOf symbol).toUInt16

theorem starts_next (byte : UInt8) : starts.next? byte
    = if isBlank byte then some whitespaceState
      else if isDigit byte then some integerState
      else if isLetter byte then
        some (if byte = 118 then varState else if byte = 112 then printState else identifierState)
      else if byte = 47 then some slashState
      else (signs.lookup byte).map signState :=
  forall_byte (p := fun byte => starts.next? byte
    = if isBlank byte then some whitespaceState
      else if isDigit byte then some integerState
      else if isLetter byte then
        some (if byte = 118 then varState else if byte = 112 then printState else identifierState)
      else if byte = 47 then some slashState
      else (signs.lookup byte).map signState)
    (by decide +kernel) byte

/-- After the first letter of a word the automaton is in a keyword or in no keyword any more. -/
theorem acceptsOn?_word (first : UInt8) (rest : List UInt8) :
    (language handle).acceptsOn?
        (if first = 118 then varState else if first = 112 then printState else identifierState) rest
      = if rest.all isInWord then some (wordSymbol (first :: rest)) else none := by
  have var : bytesOf "var" = 118 :: varBytes.tail := by decide +kernel
  have print : bytesOf "print" = 112 :: printBytes.tail := by decide +kernel
  rw [wordSymbol, var, print]
  split
  · subst first
    rw [acceptsOn?_keyword varWord varBytes.tail (by decide +kernel)
      (by decide +kernel)]
    simp
  · split
    · subst first
      rw [acceptsOn?_keyword printWord printBytes.tail (by decide +kernel)
        (by decide +kernel)]
      simp
    · rename_i notVar notPrint
      rw [acceptsOn?_identifier, if_neg fun is => notVar (List.cons.inj is).1,
        if_neg fun is => notPrint (List.cons.inj is).1]

theorem acceptsOn?_slash (rest : List UInt8) :
    (language handle).acceptsOn? slashState rest = afterSlash? rest := by
  have found : (language handle).lexState? slashState = some ⟨[], [⟨47, 47, commentState⟩]⟩ := rfl
  cases rest with
  | nil => rfl
  | cons second line =>
    have next : LexState.next? ⟨[], [⟨47, 47, commentState⟩]⟩ second
        = if second = 47 then some commentState else none :=
      forall_byte (p := fun byte => LexState.next? ⟨[], [⟨47, 47, commentState⟩]⟩ byte
        = if byte = 47 then some commentState else none) (by decide +kernel) second
    have loop : (language handle).acceptsOn? commentState line
        = if line.all (· != 10) then some comment else none :=
      acceptsOn?_loop ⟨[⟨comment, 0⟩], [⟨0, 9, commentState⟩, ⟨11, 255, commentState⟩]⟩ rfl rfl
        (forall_byte (by decide +kernel)) line
    rw [acceptsOn?_cons found, next, afterSlash?]
    split
    · exact loop
    · rfl

theorem acceptsOn?_sign {first : UInt8} {symbol : Symbol} (listed : (first, symbol) ∈ signs)
    (rest : List UInt8) : (language handle).acceptsOn? (signState symbol) rest
      = if rest = [] then some symbol else none := by
  have each : ∀ sign ∈ signs, (language 0).lexState? (signState sign.2)
      = some ⟨[⟨sign.2, 0⟩], []⟩ := by decide +kernel
  have found : (language handle).lexState? (signState symbol) = some ⟨[⟨symbol, 0⟩], []⟩ := by
    have here := each _ listed
    dsimp only at here
    exact here
  cases rest with
  | nil => exact acceptsOn?_nil found
  | cons byte rest => exact acceptsOn?_cons found byte rest

theorem acceptsOn?_start (text : List UInt8) :
    (language handle).acceptsOn? startState text = lexeme? text := by
  have found : (language handle).lexState? startState = some starts := rfl
  cases text with
  | nil => rfl
  | cons first rest =>
    rw [acceptsOn?_cons found, starts_next, lexeme?]
    split
    · exact acceptsOn?_loop ⟨[⟨whitespace, 0⟩], blanks⟩ rfl rfl
        (forall_byte (by decide +kernel)) rest
    split
    · exact acceptsOn?_loop ⟨[⟨integer, 0⟩], [⟨48, 57, integerState⟩]⟩ rfl rfl
        (forall_byte (by decide +kernel)) rest
    split
    · exact acceptsOn?_word first rest
    split
    · exact acceptsOn?_slash rest
    · cases sign : signs.lookup first with
      | none => simp
      | some symbol =>
        exact acceptsOn?_sign (mem_signs_of_lookup sign) rest

theorem accepts_iff {symbol : Symbol} {text : List UInt8} :
    (language handle).acceptsOn? startState text = some symbol ↔ Lexeme symbol text := by
  rw [acceptsOn?_start]
  exact ⟨lexeme_of_lexeme?, lexeme?_of_lexeme⟩

/-! ### Tokens -/

variable {input : Array UInt8} {place stop : Nat}

theorem couldEnd_iff_lexeme : (language handle).CouldEnd input startState place stop
    ↔ place < stop ∧ stop ≤ input.size
      ∧ ∃ symbol, Lexeme symbol (input.extract place stop).toList := by
  rw [Language.couldEnd_iff, Option.isSome_iff_exists]
  simp only [accepts_iff]

theorem Lexeme.ne_nil {symbol : Symbol} {text : List UInt8} (lexeme : Lexeme symbol text) :
    text ≠ [] := by
  cases lexeme with
  | blanks some | number some => exact some
  | remark => rw [bytesOf_slashes]; exact List.cons_ne_nil _ _
  | word | sign => exact List.cons_ne_nil _ _

/-- In the lex state that every token starts in, the token at a place is the longest text from there
on that looks like one, with its symbol. Where none does it is an error of one byte. -/
theorem tokenAt_lexeme (handle : Nat) (scannerState : UInt16) (inside : place < input.size) :
    let token := ((language handle).tokenAt input ⟨startState, scannerState⟩ place).1
    token.start = place
      ∧ ((place < token.stop ∧ token.stop ≤ input.size
          ∧ Lexeme token.symbol (input.extract place token.stop).toList
          ∧ ∀ symbol stop, stop ≤ input.size →
            Lexeme symbol (input.extract place stop).toList → stop ≤ token.stop)
        ∨ ((∀ symbol stop, stop ≤ input.size →
            ¬ Lexeme symbol (input.extract place stop).toList)
          ∧ token.symbol = Symbol.error ∧ token.stop = place + 1)) := by
  have could {symbol : Symbol} {stop : Nat} (within : stop ≤ input.size)
      (lexeme : Lexeme symbol (input.extract place stop).toList) :
      (language handle).CouldEnd input startState place stop := by
    refine couldEnd_iff_lexeme.mpr ⟨Nat.lt_of_not_le fun none => ?_, within, symbol, lexeme⟩
    rw [Array.extract_eq_empty_of_le (by omega)] at lexeme
    exact lexeme.ne_nil rfl
  rw [Language.tokenAt_plain inside (.inr rfl)]
  obtain ⟨starts, ends⟩ := (language handle).tableToken_accepts startState (Nat.le_of_lt inside)
  refine ⟨starts, ?_⟩
  rcases ends with ⟨after, within, accepts, longest⟩ | ⟨none, error, stop⟩
  · exact .inl ⟨after, within, accepts_iff.mp accepts,
      fun symbol stop within lexeme => longest stop (could within lexeme)⟩
  · exact .inr ⟨fun symbol stop within lexeme => none stop (could within lexeme), error, stop⟩

/-- In `print p` the keyword is the first token, and no longer text there is one. -/
theorem tokenAt_lexeme_print :
    ((language 0).tokenAt #[112, 114, 105, 110, 116, 32, 112] ⟨startState, 0⟩ 0).1
        = ⟨printWord, 0, 5, 6⟩
      ∧ ∀ symbol stop, stop ≤ 7 → Lexeme symbol
          ((#[112, 114, 105, 110, 116, 32, 112] : Array UInt8).extract 0 stop).toList →
        stop ≤ 5 := by
  have token : ((language 0).tokenAt #[112, 114, 105, 110, 116, 32, 112] ⟨startState, 0⟩ 0).1
      = ⟨printWord, 0, 5, 6⟩ := by decide +kernel
  obtain ⟨-, ends⟩ := @tokenAt_lexeme #[112, 114, 105, 110, 116, 32, 112] 0 0 0 (by decide)
  rw [token] at ends
  refine ⟨token, ?_⟩
  rcases ends with ⟨-, -, -, longest⟩ | ⟨-, error, -⟩
  · exact longest
  · cases error

end Morpho

end Reparse
