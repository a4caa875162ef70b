import Reparse.Proofs.Morpho.Table

/-!
The grammar of Morpho, and what derives from it.

A grammar gives every symbol a form, with repetitions and choices, as it is written down for
readers. What a form yields is a relation (`Yields`). The rules of the parse table spell
repetitions out by symbols of their own; each of these means a form too (`meaning`), so that what
is derived by the rules is yielded by the grammar (`yields_of_rule`).
-/

namespace Reparse.Morpho

/-! ### Forms -/

/-- What a symbol may be made of. -/
inductive Form where
  | word (symbol : Symbol)
  | rule (symbol : Symbol)
  | seq (first second : Form)
  | either (first second : Form)
  | many (form : Form)
  | maybe (form : Form)
  deriving DecidableEq

instance : Append Form := ⟨.seq⟩
instance : OrOp Form := ⟨.either⟩

/-- The form of every nonterminal. -/
def grammar : List (Symbol × Form) := [
  (sourceFile, .many (.rule statement)),
  (statement, .rule expressionStatement ||| .rule declarationStatement ||| .rule printStatement
    ||| .rule block),
  (expressionStatement, .rule expression ++ .word semicolon),
  (declarationStatement, .word varWord ++ .rule variableDeclaration
    ++ .many (.word comma ++ .rule variableDeclaration) ++ .word semicolon),
  (variableDeclaration, .word identifier ++ .maybe (.word equal ++ .rule expression)),
  (printStatement, .word printWord ++ .rule expression ++ .word semicolon),
  (block, .word openBrace ++ .many (.rule statement) ++ .word closeBrace),
  (expression, .word identifier ||| .word integer ||| .rule binaryExpression
    ||| .rule parenthesizedExpression),
  (binaryExpression, .rule expression ++ (.word plus ||| .word star) ++ .rule expression),
  (parenthesizedExpression, .word openParen ++ .rule expression ++ .word closeParen)]

/-- The words that a form derives. -/
inductive Yields : Form → List Symbol → Prop
  | word (a : Symbol) : Yields (.word a) [a]
  | rule {a : Symbol} {form : Form} {u : List Symbol} (found : grammar.lookup a = some form)
      (yields : Yields form u) : Yields (.rule a) u
  | seq {f g : Form} {u v : List Symbol} (first : Yields f u) (second : Yields g v) :
      Yields (.seq f g) (u ++ v)
  | left {f g : Form} {u : List Symbol} (yields : Yields f u) : Yields (.either f g) u
  | right {f g : Form} {u : List Symbol} (yields : Yields g u) : Yields (.either f g) u
  | done {f : Form} : Yields (.many f) []
  | more {f : Form} {u v : List Symbol} (first : Yields f u) (rest : Yields (.many f) v) :
      Yields (.many f) (u ++ v)
  | without {f : Form} : Yields (.maybe f) []
  | present {f : Form} {u : List Symbol} (yields : Yields f u) : Yields (.maybe f) u

variable {f g : Form} {a : Symbol} {u v : List Symbol}

theorem yields_seq : Yields (f ++ g) u ↔ ∃ v w, u = v ++ w ∧ Yields f v ∧ Yields g w := by
  constructor
  · intro yields
    change Yields (.seq f g) u at yields
    cases yields with
    | seq first second => exact ⟨_, _, rfl, first, second⟩
  · rintro ⟨v, w, rfl, first, second⟩
    exact .seq first second

/-- A repetition yields any number of parts. -/
theorem yields_many : Yields (.many f) u ↔ ∃ parts, u = List.flatten parts ∧ ∀ v ∈ parts, Yields f v := by
  constructor
  · intro yields
    generalize is : Form.many f = form at yields
    induction yields with
    | done => exact ⟨[], rfl, nofun⟩
    | more first rest _ ih =>
      obtain ⟨rfl⟩ := is
      obtain ⟨parts, rfl, each⟩ := ih rfl
      exact ⟨_ :: parts, rfl, List.forall_mem_cons.mpr ⟨first, each⟩⟩
    | word | rule | seq | left | right | without | present => cases is
  · rintro ⟨parts, rfl, each⟩
    induction parts with
    | nil => exact .done
    | cons v parts ih =>
      obtain ⟨first, rest⟩ := List.forall_mem_cons.mp each
      exact .more first (ih rest)

/-- A repetition goes on at its end. -/
theorem Yields.snoc (begun : Yields (.many f) u) (last : Yields f v) : Yields (.many f) (u ++ v) := by
  obtain ⟨parts, rfl, each⟩ := yields_many.mp begun
  refine yields_many.mpr ⟨parts ++ [v], by simp, fun w member => ?_⟩
  rcases List.mem_append.mp member with member | member
  · exact each w member
  · rw [List.mem_singleton.mp member]
    exact last

/-! ### The symbols of the rules -/

/-- What a symbol of the rules stands for. -/
def meaning (a : Symbol) : Form :=
  if a = sourceFileRepeat ∨ a = blockRepeat then .many (.rule statement)
  else if a = declarationList then
    .rule variableDeclaration ++ .many (.word comma ++ .rule variableDeclaration)
  else if a.toNat < tokenCount then .word a
  else .rule a

/-- What symbols in a row derive. -/
inductive YieldsAll : List Symbol → List Symbol → Prop
  | nil : YieldsAll [] []
  | cons {a : Symbol} {row u v : List Symbol} (first : Yields (meaning a) u)
      (rest : YieldsAll row v) : YieldsAll (a :: row) (u ++ v)

variable {row w : List Symbol}

theorem yieldsAll_cons (all : YieldsAll (a :: row) u) :
    ∃ v w, u = v ++ w ∧ Yields (meaning a) v ∧ YieldsAll row w := by
  cases all with
  | cons first rest => exact ⟨_, _, rfl, first, rest⟩

theorem yieldsAll_one (all : YieldsAll [a] u) : Yields (meaning a) u := by
  obtain ⟨v, w, rfl, first, rest⟩ := yieldsAll_cons all
  cases rest
  rwa [List.append_nil]

theorem yieldsAll_two {b : Symbol} (all : YieldsAll [a, b] u) :
    ∃ v w, u = v ++ w ∧ Yields (meaning a) v ∧ Yields (meaning b) w := by
  obtain ⟨v, w, is, first, rest⟩ := yieldsAll_cons all
  exact ⟨v, w, is, first, yieldsAll_one rest⟩

theorem yieldsAll_three {b c : Symbol} (all : YieldsAll [a, b, c] u) :
    ∃ v w x, u = v ++ w ++ x ∧ Yields (meaning a) v ∧ Yields (meaning b) w
      ∧ Yields (meaning c) x := by
  obtain ⟨v, wx, is, first, rest⟩ := yieldsAll_cons all
  obtain ⟨w, x, rfl, second, third⟩ := yieldsAll_two rest
  exact ⟨v, w, x, is.trans (List.append_assoc v w x).symm, first, second, third⟩

/-- What is derived by a rule is what its symbol stands for. -/
theorem yields_of_rule (member : (a, row) ∈ rules) (all : YieldsAll row u) :
    Yields (meaning a) u := by
  simp only [rules, List.mem_cons, Prod.mk.injEq, List.not_mem_nil, or_false] at member
  rcases member with ⟨rfl, rfl⟩ | ⟨rfl, rfl⟩ | ⟨rfl, rfl⟩ | ⟨rfl, rfl⟩ | ⟨rfl, rfl⟩ | ⟨rfl, rfl⟩
    | ⟨rfl, rfl⟩ | ⟨rfl, rfl⟩ | ⟨rfl, rfl⟩ | ⟨rfl, rfl⟩ | ⟨rfl, rfl⟩ | ⟨rfl, rfl⟩ | ⟨rfl, rfl⟩
    | ⟨rfl, rfl⟩ | ⟨rfl, rfl⟩ | ⟨rfl, rfl⟩ | ⟨rfl, rfl⟩ | ⟨rfl, rfl⟩ | ⟨rfl, rfl⟩ | ⟨rfl, rfl⟩
    | ⟨rfl, rfl⟩ | ⟨rfl, rfl⟩ | ⟨rfl, rfl⟩ | ⟨rfl, rfl⟩ | ⟨rfl, rfl⟩ | ⟨rfl, rfl⟩
  -- the whole file
  · cases all
    exact .rule rfl .done
  · exact .rule rfl (yieldsAll_one all)
  · have yields := Yields.more (yieldsAll_one all) .done
    rwa [List.append_nil] at yields
  · obtain ⟨v, w, rfl, begun, last⟩ := yieldsAll_two all
    exact .snoc begun last
  -- statements
  · exact .rule rfl (.left (.left (.left (yieldsAll_one all))))
  · exact .rule rfl (.left (.left (.right (yieldsAll_one all))))
  · exact .rule rfl (.left (.right (yieldsAll_one all)))
  · exact .rule rfl (.right (yieldsAll_one all))
  · obtain ⟨v, w, rfl, first, second⟩ := yieldsAll_two all
    exact .rule rfl (.seq first second)
  -- declarations
  · obtain ⟨v, w, x, rfl, first, second, third⟩ := yieldsAll_three all
    obtain ⟨w₁, w₂, rfl, declaration, others⟩ := yields_seq.mp second
    rw [← List.append_assoc]
    exact .rule rfl (.seq (.seq (.seq first declaration) others) third)
  · have yields := Yields.seq (yieldsAll_one all)
      (.done (f := .word comma ++ .rule variableDeclaration))
    rwa [List.append_nil] at yields
  · obtain ⟨v, w, x, rfl, first, second, third⟩ := yieldsAll_three all
    obtain ⟨v₁, v₂, rfl, declaration, others⟩ := yields_seq.mp first
    rw [List.append_assoc, List.append_assoc]
    exact .seq declaration (.snoc others (.seq second third))
  · have yields := Yields.seq (yieldsAll_one all)
      (.without (f := .word equal ++ .rule expression))
    rw [List.append_nil] at yields
    exact .rule rfl yields
  · obtain ⟨v, w, x, rfl, first, second, third⟩ := yieldsAll_three all
    rw [List.append_assoc]
    exact .rule rfl (.seq first (.present (.seq second third)))
  · obtain ⟨v, w, x, rfl, first, second, third⟩ := yieldsAll_three all
    exact .rule rfl (.seq (.seq first second) third)
  -- blocks
  · obtain ⟨v, w, rfl, first, second⟩ := yieldsAll_two all
    have yields := Yields.seq (.seq first (.done (f := .rule statement))) second
    rw [List.append_nil] at yields
    exact .rule rfl yields
  · obtain ⟨v, w, x, rfl, first, second, third⟩ := yieldsAll_three all
    exact .rule rfl (.seq (.seq first second) third)
  · have yields := Yields.more (yieldsAll_one all) .done
    rwa [List.append_nil] at yields
  · obtain ⟨v, w, rfl, begun, last⟩ := yieldsAll_two all
    exact .snoc begun last
  -- expressions
  · exact .rule rfl (.left (.left (.left (yieldsAll_one all))))
  · exact .rule rfl (.left (.left (.right (yieldsAll_one all))))
  · exact .rule rfl (.left (.right (yieldsAll_one all)))
  · exact .rule rfl (.right (yieldsAll_one all))
  · obtain ⟨v, w, x, rfl, first, second, third⟩ := yieldsAll_three all
    exact .rule rfl (.seq (.seq first (.left second)) third)
  · obtain ⟨v, w, x, rfl, first, second, third⟩ := yieldsAll_three all
    exact .rule rfl (.seq (.seq first (.right second)) third)
  · obtain ⟨v, w, x, rfl, first, second, third⟩ := yieldsAll_three all
    exact .rule rfl (.seq (.seq first second) third)

end Reparse.Morpho
