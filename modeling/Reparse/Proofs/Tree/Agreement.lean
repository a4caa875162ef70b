import Mathlib
import Reparse.Proofs.Parse.Replayable
import Reparse.Proofs.Tree.Coverage
import Reparse.Proofs.Tree.Plain
import Reparse.Proofs.Tree.Spliced

/-!
Parses along edited trees where states read tokens differently.

Lex modes may be assigned to states in any way if the state after a reduction reads the next token
as the state before it did (`Language.Steady`). Then a parse along an edited tree comes to the same
root, plainly, as a parse from scratch that has no recovery, if the tree came of one that had none
(`Session.Clears.along`), and so it looks the same (`Language.reparse_agrees`). Where a reduction
changes how the next token is read, it need not: the token after a node that is taken over is read
after the reduction, and from scratch it is read before (`Language.ofModes_outlines_differ`).
-/

namespace Reparse

open Subtree (total Everywhere EverywhereIn Replayable)

namespace Session

variable {lang : Language} {input : Array UInt8} {s s₁ n : Session} {t root : Subtree}
  {q : StateId} {next : Option Subtree} {rounds stop : Nat}

/-! ### Along a tree -/

/-- A parse of `input` between rounds along an old tree that is of use for it: what is not marked as
changed is replayable. -/
structure Aided (lang : Language) (input : Array UInt8) (s : Session) : Prop where
  good : s.Good (Subtree.Made lang input False)
  lang_eq : s.lang = lang
  input_eq : s.input = input
  ahead : ∃ stop, s.reuse.Ahead (Subtree.Fresh (Replayable lang input)) stop

/-- Whatever it finds, looking for the next token leaves the old tree where the search ended. -/
theorem Fetches.reuse_eq (fetches : s.Fetches q next s₁) :
    s₁.reuse = (s.reuse.find s.stack.topPosition.bytes q (s.lang.lexMode q)).2 := by
  cases fetches with
  | node found => exact (congrArg Prod.snd found).symm
  | token found => exact (congrArg Prod.snd found).symm
  | @lexed leaf reuse s'' found read =>
    have reading := Reading.readLeaf { s with reuse } q (s.lang.lexMode q) s.stack.topPosition.bytes
    rw [read] at reading
    obtain ⟨⟨_, _, _, _, -, rfl⟩, -⟩ := reading
    exact (congrArg Prod.snd found).symm

theorem Fetches.ahead {P : Nat → Subtree → Prop} (fetches : s.Fetches q next s₁)
    (ahead : s.reuse.Ahead P stop) : s₁.reuse.Ahead P stop := by
  rw [fetches.reuse_eq]
  exact ahead.findIn ..

theorem Aided.step (aided : s.Aided lang input) :
    ∀ s', s.step = .moved s' ∨ s.step = .reduced s' → s'.Aided lang input := by
  obtain ⟨good, lang_eq, input_eq, stop, ahead⟩ := aided
  have reuse : ∀ s', s.step = .moved s' ∨ s.step = .reduced s' →
      s'.reuse.Ahead (Subtree.Fresh (Replayable lang input)) stop := by
    have steps := s.step_steps
    generalize s.step = step at steps
    intro s' goes
    cases steps with
    | act lookahead acts =>
      obtain ⟨ready, next, -⟩ := good.act lookahead
      rw [(ready.acts_frame next acts s' goes).2]
      exact ahead
    | fetch lookahead fetches acts =>
      obtain ⟨ready, -, next, -⟩ := good.fetch fetches
      rw [(ready.acts_frame next acts s' goes).2]
      exact fetches.ahead ahead
    | reuse lookahead fetches =>
      rcases goes with ⟨⟨⟩⟩ | ⟨⟨⟩⟩
      exact fetches.ahead ahead
  intro s' goes
  obtain ⟨same_lang, same_input, -⟩ := good.alike s' goes
  exact ⟨good.step s' goes, same_lang.trans lang_eq, same_input.trans input_eq, stop,
    reuse s' goes⟩

/-- What the old tree offers is replayable. -/
theorem Aided.offered (aided : s.Aided lang input) {found : Reuse} {reuse : ReuseCursor}
    (is : s.reuse.find s.stack.topPosition.bytes q (s.lang.lexMode q) = (some found, reuse)) :
    ReuseCursor.Offers s.stack.topPosition.bytes q (lang.lexMode q) reuse found
      ∧ ∀ t, reuse.pending.head? = some t → t.info.changed = false →
        Replayable lang input s.stack.topPosition.bytes t := by
  obtain ⟨-, rfl, -, stop, ahead⟩ := aided
  have after := ahead.findIn s.stack.topPosition.bytes q (s.lang.lexMode q)
  rw [ReuseCursor.find] at is
  rw [is] at after
  have offers := ReuseCursor.findIn_offers is
  have place : reuse.offset = s.stack.topPosition.bytes := by
    cases offers with
    | node place => exact place
    | token place => exact place
  refine ⟨offers, fun t next unchanged => ?_⟩
  have fresh := (after.next next).1 _ _ .here unchanged _ _ .here
  rw [place] at fresh
  exact fresh

/-- So the next token is the one that stands in the text. -/
theorem Aided.lexed (aided : s.Aided lang input)
    (fetches : s.Fetches s.stack.topState (some t) s₁) :
    t.Lexed lang input (lang.lexMode s.stack.topState) s.stack.topPosition.bytes := by
  rcases fetches.offered_or_lexed aided.good.ready.remembers with ⟨reuse, found⟩ | lexed
  · obtain ⟨offers, replayable⟩ := aided.offered found
    cases offers with
    | token place next leaf some takes =>
      have lexed := (replayable t next (takesToken_spec takes).1).token leaf some
      simp only [ReuseCursor.takesToken, Bool.and_eq_true, beq_iff_eq] at takes
      rwa [takes.2] at lexed
  · rwa [aided.lang_eq, aided.input_eq] at lexed

/-- In a round along an old tree a whole node is taken over, or the same happens as along none. -/
theorem Aided.goes (aided : s.Aided lang input) (unaided : n.Unaided lang input)
    (steady : lang.Steady) (same : Same n s) (fewer : s.reductions ≤ n.reductions)
    (calm : n.Calm) : (∃ s₁, s.lookahead = none ∧ s.Fetches s.stack.topState none s₁
        ∧ s.step = .moved s₁)
      ∨ Step.Goes (fun n s => Same n s ∧ s.reductions ≤ n.reductions) n.step s.step := by
  obtain ⟨t, n', takes⟩ := unaided.takes
  cases here : s.lookahead with
  | some t' =>
    -- Agreeing sessions have the same token at hand.
    have there := same.lookahead
    rw [here, Option.map_some, Option.map_eq_some_iff] at there
    obtain ⟨t₀, there, tokens⟩ := there
    have take := takes.take
    rw [take_of_lookahead there] at take
    cases take
    exact .inr (takes.goes steady calm same fewer (take_of_lookahead here)
      ⟨⟨rfl, rfl, rfl⟩, rfl, rfl, rfl, rfl⟩ rfl tokens).2
  | none =>
    have fetches := s.nextLookahead_fetches s.stack.topState
    have take := take_of_bare here
    generalize s.nextLookahead s.stack.topState = answer at fetches take
    obtain ⟨next, s₁⟩ := answer
    cases next with
    | none => exact .inl ⟨s₁, rfl, fetches, step_of_take_none take⟩
    | some t' =>
      have lexed := aided.lexed fetches
      rw [← same.topState, ← same.topPosition] at lexed
      have taken : Same { s with lookahead := none } s₁ := by
        rw [← here]
        exact fetches.same
      have reductions : s₁.reductions = s.reductions := by
        obtain ⟨_, _, _, _, _, rfl⟩ := fetches.frame_token
        rfl
      exact .inr (takes.goes steady calm same fewer take taken reductions
        (takes.lexed.plain_eq lexed)).2

/-- A node that is taken over is replayed. -/
theorem Aided.reuses (aided : s.Aided lang input) (unaided : n.Unaided lang input)
    (same : Same n s) (bare : s.lookahead = none) (clears : n.Clears root rounds)
    (fetches : s.Fetches s.stack.topState none s₁) :
    ∃ m root' fewer, m.Unaided lang input ∧ Same m s₁ ∧ s₁.reductions ≤ m.reductions
      ∧ m.Clears root' fewer ∧ fewer < rounds ∧ root'.plain = root.plain := by
  have lang_eq := aided.lang_eq
  cases fetches with
  | @node t reuse found =>
    obtain ⟨offers, replayable⟩ := aided.offered found
    cases offers with
    | node place next inner takes =>
      obtain ⟨reusable, state⟩ := takesNode_reusable takes
      obtain ⟨unchanged, free, -, -, -⟩ := isReusable_spec reusable
      have here := replayable t next unchanged
      have structural : t.extra = false := (here.sound.clean free).2.2.1 inner
      have bare' := same.lookahead
      rw [bare, Option.map_none, Option.map_eq_none_iff] at bare'
      obtain ⟨m, root', fewer, passes, clears, less, plain⟩ := here.node structural inner
        (.refl _ _ _) unaided bare' (same.topState.trans state.symm)
        (congrArg Extent.bytes same.topPosition) clears
      refine ⟨m, root', fewer, passes.unaided, ?_, Nat.zero_le _, clears, less, plain⟩
      have after : lang.after n.stack.topState t = s.lang.next s.stack.topState t.symbol := by
        rw [Language.after, structural, if_neg Bool.false_ne_true, lang_eq, same.topState]
      have pushed : m.stack.plain
          = (n.stack.push t (lang.after n.stack.topState t) 0).plain := passes.stack
      rw [after] at pushed
      refine ⟨⟨lang_eq.trans passes.unaided.lang_eq.symm,
          aided.input_eq.trans passes.unaided.input_eq.symm,
          same.alike.2.2.trans passes.options_eq.symm⟩,
        pushed.trans (Stack.push_same same.stack rfl ..), ?_,
        passes.failedAt_eq.trans same.failedAt, passes.attempts_eq.trans same.attempts⟩
      rw [passes.bare]
      exact congrArg (Option.map Subtree.plain) bare.symm

/-- What a parse along no old tree clears without a recovery, one along an old tree of use comes to,
plainly. -/
theorem Clears.along (clears : n.Clears root rounds) (steady : lang.Steady)
    (unaided : n.Unaided lang input) (aided : s.Aided lang input) (same : Same n s)
    (fewer : s.reductions ≤ n.reductions) :
    ∃ root' last, Ends root' last s ∧ root'.plain = root.plain := by
  -- A node that is taken over stands for any number of rounds along no old tree.
  induction rounds using Nat.strongRecOn generalizing n s root with
  | ind rounds ih =>
    rcases aided.goes unaided steady same fewer clears.calm with ⟨s₁, bare, fetches, moved⟩ | goes
    · obtain ⟨m, root₁, left, unaided₁, same₁, fewer₁, clears₁, less, plain₁⟩ :=
        aided.reuses unaided same bare clears fetches
      obtain ⟨root', last, ends, plain⟩ :=
        ih left less clears₁ unaided₁ (aided.step s₁ (.inl moved)) same₁ fewer₁
      exact ⟨root', last, .moved moved ends, plain.trans plain₁⟩
    · generalize step' : s.step = round at goes
      cases clears with
      | done calm step =>
        rw [step] at goes
        cases goes with
        | done roots => exact ⟨_, _, .done step', roots.symm⟩
      | reduced calm step rest =>
        rw [step] at goes
        cases goes with
        | reduced related =>
          obtain ⟨root', last, ends, plain⟩ := ih _ (Nat.lt_succ_self _) rest
            (unaided.step steady calm _ (.inr step)) (aided.step _ (.inr step')) related.1 related.2
          exact ⟨root', last, .reduced step' ends, plain⟩
      | moved calm step rest =>
        rw [step] at goes
        cases goes with
        | moved related =>
          obtain ⟨root', last, ends, plain⟩ := ih _ (Nat.lt_succ_self _) rest
            (unaided.step steady calm _ (.inl step)) (aided.step _ (.inl step')) related.1 related.2
          exact ⟨root', last, .moved step' ends, plain⟩

end Session

/-! ### Parses -/

namespace Language

variable {lang : Language} {options₀ options : Options} {input : Array UInt8}
  {fresh₀ fresh₁ : Stamp} {t₀ t t₁ : Tree} {text₀ text : List UInt8} {s : Splice}

/-- The tree of a smooth parse from scratch is of use for its text. -/
theorem follows_of_smooth (sound : lang.table.Sound) (steady : lang.Steady)
    (short : text.length < Splice.room)
    (parsed : (lang.parse options text.toArray none fresh₀).tree = some t)
    (smooth : (lang.parse options text.toArray none fresh₀).Smooth) :
    t.Follows (Replayable lang) text := by
  have none : ∀ o, (none : Option Tree) = some o → o.language.same lang →
      o.root.Kept (fun _ => Subtree.Sound lang) := by
    rintro o ⟨⟩
  obtain ⟨-, k, clears⟩ := clears_of_smooth parsed smooth
  have unaided := Session.start_unaided sound options text.toArray fresh₀
  have replayable := clears.replayable steady unaided trivial
  exact ⟨short, (parse_made sound none parsed).whole.kept.aged,
    fun _ _ inside _ => replayable.of_occursIn inside⟩

/-- Along an old tree of use a parse comes to the root of a smooth parse from scratch, plainly. -/
theorem parse_along {old : Option Tree} (sound : lang.table.Sound) (steady : lang.Steady)
    (settling : lang.Settling)
    (kept : ∀ o, old = some o → o.language.same lang → o.root.Kept (Replayable lang input))
    (parsed : (lang.parse options input none fresh₁).tree = some t₁)
    (smooth : (lang.parse options input none fresh₁).Smooth) (fresh : Stamp) :
    ∃ t', (lang.parse options input old fresh).tree = some t' ∧ t'.language = lang
      ∧ t'.root.plain = t₁.root.plain := by
  obtain ⟨-, k, clears⟩ := clears_of_smooth parsed smooth
  have usable : ∀ u, lang.usable input old = some u →
      u.Kept (Replayable lang input) ∧ u.size.bytes = input.size := usable_kept kept
  have made {u : Subtree} (kept : u.Kept (Replayable lang input)) :
      u.Kept (Subtree.Made lang input False) :=
    ⟨kept.aged, fun v x inside unchanged => (kept.fresh v x inside unchanged).mono
      fun _ _ replayable => ⟨replayable.sound, nofun⟩⟩
  have good : (Session.start lang options input (lang.usable input old) fresh).Good
      (Subtree.Made lang input False) :=
    Session.start_good sound makes_made Session.builds_made _
      fun u is => ⟨made (usable u is).1, (usable u is).2⟩
  have ahead : ∃ stop, (Session.start lang options input (lang.usable input old) fresh).reuse.Ahead
      (Subtree.Fresh (Replayable lang input)) stop := by
    cases found : lang.usable input old with
    | none => exact ⟨0, Subtree.everywhereIn_nil, Subtree.everywhereIn_nil, rfl⟩
    | some u =>
      obtain ⟨kept, -⟩ := usable u found
      exact ⟨_, Subtree.everywhereIn_singleton.mpr kept.fresh,
        Subtree.everywhereIn_singleton.mpr kept.aged, rfl⟩
  obtain ⟨root, last, ends, plain⟩ := clears.along steady
    (Session.start_unaided sound options input fresh₁) ⟨good, rfl, rfl, ahead⟩
    ⟨⟨rfl, rfl, rfl⟩, rfl, rfl, rfl, rfl⟩ (Nat.le_refl _)
  obtain ⟨t', reparsed⟩ : ∃ t', (lang.parse options input old fresh).tree = some t' :=
    parse_isSome sound settling steady.stop_regular fun o is own =>
      ⟨(kept o is own).aged, fun v x inside unchanged =>
        ((kept o is own).fresh v x inside unchanged).mono fun _ _ replayable => replayable.sound⟩
  obtain ⟨language, last', ends'⟩ := parse_ends reparsed
  exact ⟨t', reparsed, language, by rw [ends'.root_eq ends, plain]⟩

/-- Parsing along an edited tree gives what parsing from scratch gives, however the states read
tokens, if a reduction does not change it and the language is otherwise steady: if neither text
takes a recovery to parse from scratch, then along the tree of the first text, told of every splice,
the second has a tree, and it looks like that of the parse from scratch. -/
theorem reparse_agrees {handle : Nat} {bytes : List UInt8}
    (loaded : load handle bytes none = .ok lang) (steady : lang.Steady) (settling : lang.Settling)
    (short₀ : text₀.length < Splice.room)
    (parsed₀ : (lang.parse options₀ text₀.toArray none fresh₀).tree = some t₀)
    (smooth₀ : (lang.parse options₀ text₀.toArray none fresh₀).Smooth)
    (spliced : Tree.Spliced t₀ text₀ t text) (fits : s.Fits text)
    (short : (s.apply text).length < Splice.room)
    (parsed₁ : (lang.parse options (s.apply text).toArray none fresh₁).tree = some t₁)
    (smooth₁ : (lang.parse options (s.apply text).toArray none fresh₁).Smooth)
    (fresh fresh' : Stamp) :
    ∃ t', (lang.parse options (s.apply text).toArray
        (some (t.edit (s.inputEdit text) fresh).1) fresh').tree = some t'
      ∧ t'.outline = t₁.outline := by
  have sound := sound_of_load loaded
  have portable : Subtree.Portable (Replayable lang) :=
    Replayable.everywhere_agree steady.unscanned
  have follows := (follows_of_smooth sound steady short₀ parsed₀ smooth₀).spliced portable spliced
  have kept : ∀ o, some (t.edit (s.inputEdit text) fresh).1 = some o → o.language.same lang →
      o.root.Kept (Replayable lang (s.apply text).toArray) :=
    fun o is _ => Option.some.inj is ▸ follows.edit portable fits short fresh
  obtain ⟨t', reparsed, language, plain⟩ :=
    parse_along sound steady settling kept parsed₁ smooth₁ fresh'
  exact ⟨t', reparsed,
    Tree.outline_eq_of_plain (language.trans (parse_ends parsed₁).1.symm) plain⟩

end Language

/-! ### States that do not read alike -/

/-- An `x`, a `b` and any number of `y`s. The `x` alone is reduced, which leads to state 3, and only
in that state a `b` is read as another token. -/
def Table.ofModes : Table where
  version := 1
  symbols := #[⟨"end", {}⟩, ⟨"x", { visible := true, named := true }⟩,
    ⟨"word", { visible := true, named := true }⟩, ⟨"key", { visible := true, named := true }⟩,
    ⟨"tail", { visible := true, named := true }⟩, ⟨"head", { visible := true, named := true }⟩,
    ⟨"file", { visible := true, named := true }⟩]
  tokenCount := 5
  lexStates := #[
    ⟨[], [⟨120, 120, 2⟩, ⟨98, 98, 3⟩, ⟨121, 121, 5⟩]⟩,
    ⟨[], [⟨120, 120, 2⟩, ⟨98, 98, 4⟩, ⟨121, 121, 5⟩]⟩,
    ⟨[⟨1, 0⟩], []⟩, ⟨[⟨2, 0⟩], []⟩, ⟨[⟨3, 0⟩], []⟩, ⟨[⟨4, 0⟩], [⟨121, 121, 5⟩]⟩]
  modes := #[{}, {}, {}, { lexState := 1 }, {}, {}, {}]
  cells := #[
    none, none, none, none, none, none, none,
    none, some (.shift 2), none, none, none, some (.shift 3), some (.shift 6),
    none, none, some (.reduce ⟨5, 1, 0, 0⟩), some (.reduce ⟨5, 1, 0, 0⟩), none, none, none,
    none, none, some (.shift 4), some (.shift 4), none, none, none,
    none, none, none, none, some (.shift 5), none, none,
    some (.reduce ⟨6, 3, 0, 0⟩), none, none, none, none, none, none,
    some .accept, none, none, none, none, none, none]

def Language.ofModes : Language := { handle := 0, table := .ofModes }

/-- From scratch the `b` is read before the reduction, in the state after the `x`. Along the old
tree it is read after the reduced node, which is taken over. -/
theorem Language.ofModes_outlines_differ :
    load 0 Table.ofModes.encode none = .ok ofModes
      ∧ ∃ t₀ t fresh, (ofModes.parse {} #[120, 98, 121, 121, 121] none 0).tree = some t₀
        ∧ (ofModes.parse {} #[120, 98, 121, 121] (some (t₀.edit
          ((⟨4, 5, []⟩ : Splice).inputEdit [120, 98, 121, 121, 121]) 9).1) 9).tree = some t
        ∧ (ofModes.parse {} #[120, 98, 121, 121] none 0).tree = some fresh
        ∧ t₀.rootNode.hasError = false ∧ fresh.rootNode.hasError = false
        ∧ t.outline ≠ fresh.outline := by
  refine ⟨load_of_decode (by decide +kernel) none, ?_⟩
  have runs : ((ofModes.parse {} #[120, 98, 121, 121, 121] none 0).tree.bind fun t₀ =>
      (ofModes.parse {} #[120, 98, 121, 121] (some (t₀.edit
        ((⟨4, 5, []⟩ : Splice).inputEdit [120, 98, 121, 121, 121]) 9).1) 9).tree.bind fun t =>
      (ofModes.parse {} #[120, 98, 121, 121] none 0).tree.map fun fresh =>
        (t₀.rootNode.hasError, fresh.rootNode.hasError, decide (t.outline = fresh.outline)))
      = some (false, false, false) := by cbv
  obtain ⟨t₀, parsed₀, runs⟩ := Option.bind_eq_some_iff.mp runs
  obtain ⟨t, parsed, runs⟩ := Option.bind_eq_some_iff.mp runs
  obtain ⟨fresh, scratch, facts⟩ := Option.map_eq_some_iff.mp runs
  obtain ⟨free₀, facts⟩ := Prod.mk.inj facts
  obtain ⟨free, differ⟩ := Prod.mk.inj facts
  exact ⟨t₀, t, fresh, parsed₀, parsed, scratch, free₀, free, of_decide_eq_false differ⟩

/-! ### States that read alike where it counts -/

/-- The same texts, with the `b` read as the second token after the `x` already. -/
def Table.ofLevel : Table :=
  { Table.ofModes with modes := #[{}, {}, { lexState := 1 }, { lexState := 1 }, {}, {}, {}] }

namespace Language

def ofLevel : Language := { handle := 0, table := .ofLevel }

theorem load_ofLevel : load 0 Table.ofLevel.encode none = .ok .ofLevel :=
  load_of_decode (by decide +kernel) none

/-- All that the table says. -/
def ofLevelActions : List (StateId × Symbol × Action) :=
  [(1, 1, .shift 2), (1, 5, .shift 3), (1, 6, .shift 6), (2, 2, .reduce ⟨5, 1, 0, 0⟩),
    (2, 3, .reduce ⟨5, 1, 0, 0⟩), (3, 2, .shift 4), (3, 3, .shift 4), (4, 4, .shift 5),
    (5, 0, .reduce ⟨6, 3, 0, 0⟩), (6, 0, .accept)]

theorem ofLevel_action? {q : StateId} {symbol : Symbol} {action : Action}
    (found : ofLevel.action? q symbol = some action) : (q, symbol, action) ∈ ofLevelActions := by
  have cells : ∀ q < 7, ∀ symbol < 7,
      ∀ action ∈ (Table.ofLevel.cells[q * 7 + symbol]?.join : Option Action),
        (UInt16.ofNat q, UInt16.ofNat symbol, action) ∈ ofLevelActions := by decide
  obtain ⟨known, -⟩ := Table.mem_cells_of_action? found
  rw [action?, Table.action?, if_pos known] at found
  have inside := (Array.getElem?_eq_some_iff.mp (Option.join_eq_some_iff.mp found)).1
  have known : symbol.toNat < 7 := known
  have inside : q.toNat * 7 + symbol.toNat < 49 := inside
  have listed := cells q.toNat (by omega) symbol.toNat known action found
  rwa [UInt16.ofNat_toNat, UInt16.ofNat_toNat] at listed

theorem ofLevel_reduce {q : StateId} {symbol : Symbol} {r : Reduction}
    (reduce : ofLevel.action? q symbol = some (.reduce r)) :
    q = 2 ∧ r = ⟨5, 1, 0, 0⟩ ∨ q = 5 ∧ r = ⟨6, 3, 0, 0⟩ := by
  have listed := ofLevel_action? reduce
  simp only [ofLevelActions, List.mem_cons, Prod.mk.injEq, Action.reduce.injEq, reduceCtorEq,
    and_false, false_or, or_false, List.not_mem_nil] at listed
  rcases listed with ⟨is, -, made⟩ | ⟨is, -, made⟩ | ⟨is, -, made⟩
  · exact .inl ⟨is, made⟩
  · exact .inl ⟨is, made⟩
  · exact .inr ⟨is, made⟩

/-- Where a subtree leads, save to the error state. -/
theorem ofLevel_next (q : StateId) (symbol : Symbol) : ofLevel.next q symbol = StateId.error
    ∨ (q, ofLevel.next q symbol) ∈
      ([(1, 2), (1, 3), (1, 6), (3, 4), (4, 5)] : List (StateId × StateId)) := by
  unfold next
  split
  next target shift =>
    have listed := ofLevel_action? shift
    simp only [ofLevelActions, List.mem_cons, Prod.mk.injEq, Action.shift.injEq, reduceCtorEq,
      and_false, false_or, or_false, List.not_mem_nil] at listed
    right
    rcases listed with ⟨rfl, -, rfl⟩ | ⟨rfl, -, rfl⟩ | ⟨rfl, -, rfl⟩ | ⟨rfl, -, rfl⟩
      | ⟨rfl, -, rfl⟩ | ⟨rfl, -, rfl⟩ <;> decide
  next => exact .inl rfl

/-- How many subtrees lie on the stack in a state, at least. -/
def ofLevelDepth (q : StateId) : Nat :=
  if q = 5 then 3 else if q = 4 then 2 else if q = 2 ∨ q = 3 ∨ q = 6 then 1 else 0

theorem ofLevel_floor {q : StateId} (zero : ofLevelDepth q = 0) : ofLevel.Floor q := by
  refine floor_of_depth ofLevelDepth (fun q symbol => ?_) (fun q symbol r reduce => ?_) zero
  · have listed : ∀ step ∈ ([(1, 2), (1, 3), (1, 6), (3, 4), (4, 5)] : List (StateId × StateId)),
        ofLevelDepth step.2 ≤ ofLevelDepth step.1 + 1 := by simp [ofLevelDepth]
    rcases ofLevel_next q symbol with error | step
    · rw [error]
      exact Nat.zero_le _
    · exact listed _ step
  · rcases ofLevel_reduce reduce with ⟨rfl, rfl⟩ | ⟨rfl, rfl⟩ <;> decide

theorem ofLevel_regular (symbol : Symbol) : (ofLevel.traits symbol).extra = false := by
  have listed : ∀ info ∈ ofLevel.table.symbols.toList, info.traits.extra = false := by decide
  unfold traits
  split
  · rfl
  · cases found : ofLevel.table.symbols[symbol.toNat]? with
    | none => rfl
    | some info => exact listed info (Array.mem_toList_iff.mpr (Array.mem_of_getElem? found))

/-- Only a whole file is accepted. -/
theorem ofLevel_unaccepting (q : StateId) (symbol : Symbol) (target : StateId)
    (terminal : symbol.toNat < ofLevel.table.tokenCount)
    (shift : ofLevel.action? q symbol = some (.shift target)) :
    ofLevel.action? target Symbol.stop ≠ some .accept := by
  intro accepts
  have accepted := ofLevel_action? accepts
  have shifted := ofLevel_action? shift
  simp only [ofLevelActions, List.mem_cons, Prod.mk.injEq, Action.shift.injEq, reduceCtorEq,
    and_false, and_true, false_or, or_false, List.not_mem_nil] at accepted shifted
  obtain ⟨rfl, -⟩ := accepted
  rcases shifted with ⟨-, -, is⟩ | ⟨-, -, is⟩ | ⟨-, rfl, -⟩ | ⟨-, -, is⟩ | ⟨-, -, is⟩ | ⟨-, -, is⟩
  · cases is
  · cases is
  · exact absurd terminal (by decide)
  · cases is
  · cases is
  · cases is

theorem ofLevel_steady : ofLevel.Steady where
  toFirm := firm (sound_of_load load_ofLevel) (by decide) nofun ofLevel_unaccepting
  unscanned := rfl
  stop_regular := ofLevel_regular _
  extras_free extra := by
    rw [ofLevel_regular] at extra
    cases extra
  grounded := ofLevel_floor (by decide)
  nothing reduce none := by
    rcases ofLevel_reduce reduce with ⟨-, rfl⟩ | ⟨-, rfl⟩ <;> cases none
  level {path q symbol r} length reduce := by
    -- Each state but the first has one state before it.
    have before {q q' symbol : UInt16} (is : ofLevel.next q symbol = q')
        (some : q' ≠ StateId.error) : (q, q') ∈
          ([(1, 2), (1, 3), (1, 6), (3, 4), (4, 5)] : List (StateId × StateId)) :=
      is ▸ (ofLevel_next q symbol).resolve_left (is ▸ some)
    rcases ofLevel_reduce reduce with ⟨top, rfl⟩ | ⟨top, rfl⟩
    · obtain ⟨a, rfl⟩ := List.length_eq_one_iff.mp length
      have start : q = 1 := by simpa using before top (by decide)
      rw [top, start]
      decide
    · obtain ⟨a, b, c, rfl⟩ := List.length_eq_three.mp length
      have third : ofLevel.next (ofLevel.next q a) b = 4 := by simpa using before top (by decide)
      have second : ofLevel.next q a = 3 := by simpa using before third (by decide)
      have start : q = 1 := by simpa using before second (by decide)
      rw [top, start]
      decide

theorem ofLevel_settling : ofLevel.Settling := by
  refine settling_of_once ?_
  rintro symbol q _ _ ⟨r, reduce, nothing, -⟩ -
  rcases ofLevel_reduce reduce with ⟨-, rfl⟩ | ⟨-, rfl⟩ <;> cases nothing

theorem ofLevel_parse_isSome (input : Array UInt8) :
    ∃ t, (ofLevel.parse {} input none 0).tree = some t :=
  parse_isSome (sound_of_load load_ofLevel) ofLevel_settling (ofLevel_regular _) nofun

/-- The last `y` is taken away, and along the old tree the `b` is the second token, as it is from
scratch. -/
theorem ofLevel_reparse_agrees : ofLevel.lexMode 1 ≠ ofLevel.lexMode 2 ∧ ∃ t₀ t t₁,
    (ofLevel.parse {} #[120, 98, 121, 121, 121] none 0).tree = some t₀
      ∧ (ofLevel.parse {} #[120, 98, 121, 121] (some (t₀.edit
        ((⟨4, 5, []⟩ : Splice).inputEdit [120, 98, 121, 121, 121]) 9).1) 9).tree = some t
      ∧ (ofLevel.parse {} #[120, 98, 121, 121] none 0).tree = some t₁
      ∧ t.outline = t₁.outline := by
  have smooth₀ : (ofLevel.parse {} #[120, 98, 121, 121, 121] none 0).Smooth :=
    Parse.smooth_iff.mpr (by cbv)
  have smooth₁ : (ofLevel.parse {} #[120, 98, 121, 121] none 0).Smooth :=
    Parse.smooth_iff.mpr (by cbv)
  obtain ⟨t₀, parsed₀⟩ := ofLevel_parse_isSome #[120, 98, 121, 121, 121]
  obtain ⟨t₁, parsed₁⟩ := ofLevel_parse_isSome #[120, 98, 121, 121]
  have fits : (⟨4, 5, []⟩ : Splice).Fits [120, 98, 121, 121, 121] := ⟨by decide, by decide⟩
  obtain ⟨t, parsed, outlines⟩ := reparse_agrees load_ofLevel ofLevel_steady ofLevel_settling
    (by decide) parsed₀ smooth₀ .refl fits (by decide) parsed₁ smooth₁ 9 9
  exact ⟨by decide, t₀, t, t₁, parsed₀, parsed, parsed₁, outlines⟩

end Language

end Reparse
