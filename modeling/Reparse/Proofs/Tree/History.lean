import Reparse.Proofs.Parse.Run

/-!
Trees with a history.

A tree is obtained from a language by parsing any text, along any tree obtained before, and by
edits of any kind (`Tree.Obtained`). Whatever happened to it, its nodes are as long as their
children and what is not marked as changed is just as some parse made it (`Obtained.kept`), and
that is all a further parse needs of it (`Session.start_good`).
-/

namespace Reparse

open Subtree (total Everywhere EverywhereIn)

/-! ### What parses make -/

/-- A leaf is as large as the text at its place. -/
def Subtree.Spells (input : Array UInt8) (place : Nat) (t : Subtree) : Prop :=
  t.children = [] → t.size = Extent.ofBytes (input.extract place (place + t.size.bytes)).toList

theorem Subtree.spells_of_empty {input : Array UInt8} {place : Nat} {t : Subtree}
    (size : t.size = 0) : t.Spells input place := by
  intro _
  rw [size]
  simp

/-- A subtree that a parse of `input` made at `place`. Leaves taken over from an old tree need not
be those of the text, so `scratch` says whether there is none. -/
structure Subtree.Made (lang : Language) (input : Array UInt8) (scratch : Prop) (place : Nat)
    (t : Subtree) : Prop where
  sound : t.Sound lang
  spells : scratch → t.Spells input place

section Made

variable {lang : Language} {input : Array UInt8} {scratch : Prop} {first : Stamp}

theorem Summary.Sums.made {info : Summary} {children : List Subtree} (sums : info.Sums children)
    (place : Nat) (stamp : Stamp) : Subtree.Made lang input scratch place ⟨stamp, info, children⟩
    := by
  refine ⟨sums.sound stamp, fun _ leaf => ?_⟩
  have leaf : children = [] := leaf
  have size : info.size = 0 := by rw [sums.size_eq, leaf, Subtree.total_nil]
  exact Subtree.spells_of_empty size leaf

theorem Subtree.Made.placed {place : Nat} {t : Subtree} (made : t.Made lang input scratch place)
    (leaf : t.children = []) (stamp : Stamp) (state : StateId) (extra : Bool) :
    (t.placed stamp state extra).Made lang input scratch place := by
  refine ⟨made.sound.placed leaf stamp state extra, fun alone _ => ?_⟩
  rw [Subtree.placed_size]
  exact made.spells alone leaf

/-- Tokens and errors are made so. -/
theorem Language.makes_made : lang.Makes input first (Subtree.Made lang input scratch) where
  sound made := made.sound
  read {place state token} is stamp _ := by
    have size : ∀ size : Extent, size = .ofBytes (input.extract token.start token.stop).toList →
        (0 < size.bytes → lang.Lexes token.symbol)
          ∧ size = .ofBytes (input.extract place (place + size.bytes)).toList := by
      intro size size_eq
      have takes := Session.leaf_takes is size_eq
      by_cases inside : place < input.size
      · have spec : lang.TokenSpec input place (lang.tokenAt input (lang.lexMode state) place).1 :=
          Language.tokenAt_spec inside
        rw [← is] at spec
        refine ⟨fun _ => spec.lexes, ?_⟩
        have := spec.start_lt
        have := spec.stop_le
        have bytes : size.bytes = token.stop - place := by
          simp only [size_eq, spec.start_eq, Extent.ofBytes_bytes, Array.length_toList,
            Array.size_extract]
          omega
        rw [bytes, Nat.add_sub_cancel' (by omega), size_eq, spec.start_eq]
      · rcases takes with ⟨some, room⟩ | ⟨-, -, rfl⟩
        · omega
        · exact ⟨fun some => absurd some (Nat.lt_irrefl 0), by simp⟩
    obtain ⟨lexes, spells⟩ := size _ rfl
    exact ⟨Subtree.leaf_sound lexes Extent.ofBytes_eq_zero, fun _ _ => spells⟩
  shifted made leaf _ stamp _ := made.placed leaf stamp _ _
  lifted made leaf _ _ _ stamp _ state := made.placed leaf stamp state _
  missing _ _ stamp _ := ⟨Subtree.missingLeaf_sound, fun _ => Subtree.spells_of_empty rfl⟩
  errors sums _ _ _ stamp _ := sums.made _ stamp

/-- So are nodes. -/
theorem Session.builds_made : Builds lang input (Subtree.Made lang input scratch) where
  acted _ _ _ _ _ _ _ := (reducedNode_sums ..).made _ _
  inserted _ _ _ _ _ _ := (reducedNode_sums ..).made _ _

end Made

/-! ### What is kept -/

/-- What a subtree keeps through parses and edits. -/
structure Subtree.Kept (P : Nat → Subtree → Prop) (t : Subtree) : Prop where
  aged : Everywhere (fun _ => Aged) 0 t
  fresh : Everywhere (Fresh P) 0 t

theorem Subtree.Whole.kept {lang : Language} {t : Subtree} (whole : t.Whole lang) :
    t.Kept (fun _ => Sound lang) where
  aged _ _ inside := whole.aged inside
  fresh _ _ inside _ := (whole.of_occurs inside).anywhere

/-- An edit within the text keeps what holds below the root, if it also holds where the edit
carries it. -/
theorem Subtree.edit_kept {P Q : Nat → Subtree → Prop} {t : Subtree}
    (aged : Everywhere (fun _ => Aged) 0 t) (fresh : EverywhereIn (Fresh P) 0 t.children)
    {e : Edit} (fits : e.Fits t.size.bytes)
    (moves : ∀ {u x y}, e.Carries t.size.bytes x u.window y → Everywhere P x u →
      Everywhere Q y u) (stamp : Stamp) :
    (t.edit e stamp).1.Kept Q := by
  have edited := t.edit_spec fits (fun inside => aged _ _ inside) stamp
  refine ⟨fun u x inside => edited.aged inside, fun u y inside unchanged => ?_⟩
  obtain ⟨x, before, carries⟩ := edited.survivor inside unchanged
  have holds := fresh u x before unchanged
  rw [Nat.zero_add] at holds ⊢
  exact moves carries holds

theorem Subtree.Kept.edit {lang : Language} {t : Subtree} (kept : t.Kept (fun _ => Sound lang))
    {e : Edit} (fits : e.Fits t.size.bytes) (stamp : Stamp) :
    (t.edit e stamp).1.Kept (fun _ => Sound lang) :=
  edit_kept kept.aged (everywhere_iff.mp kept.fresh).2 fits (fun _ holds => holds.anywhere) stamp

/-! ### Edits of trees -/

theorem InputEdit.within_start_bytes (e : InputEdit) (size : Extent) :
    (e.within size).start.bytes = min e.start.narrow.bytes size.bytes :=
  Extent.min_bytes _ _

theorem InputEdit.within_oldStop_bytes (e : InputEdit) (size : Extent) :
    (e.within size).oldStop.bytes
      = max (e.within size).start.bytes (min e.oldStop.narrow.bytes size.bytes) := by
  rw [← Extent.min_bytes]
  unfold within
  dsimp only
  split <;> omega

theorem InputEdit.within_newStop_bytes (e : InputEdit) (size : Extent) :
    (e.within size).newStop.bytes
      = max (e.within size).start.bytes e.newStop.narrow.bytes := by
  unfold within
  dsimp only
  split <;> omega

/-- Edits are cut down to what the text can take. -/
theorem InputEdit.within_fits (e : InputEdit) (size : Extent) :
    (e.within size).Fits size.bytes := by
  have start := e.within_start_bytes size
  have oldStop := e.within_oldStop_bytes size
  have newStop := e.within_newStop_bytes size
  constructor <;> omega

/-! ### Obtained trees -/

/-- A tree that came about by parses with one language and edits of their trees. A parse may go
along a tree of another language too: it ignores it. -/
inductive Tree.Obtained (lang : Language) : Tree → Prop
  | parsed {options : Options} {input : Array UInt8} {old : Option Tree} {fresh : Stamp}
      {t : Tree} (before : ∀ o, old = some o → o.language.same lang → Obtained lang o)
      (tree : (lang.parse options input old fresh).tree = some t) : Obtained lang t
  | edited {t : Tree} (before : Obtained lang t) (e : InputEdit) (fresh : Stamp) :
      Obtained lang (t.edit e fresh).1

/-- The old root that a parse goes along, if the old tree is of use. -/
def Language.usable (lang : Language) (input : Array UInt8) (old : Option Tree) : Option Subtree :=
  (old.filter (·.fits lang input)).map (·.root)

variable {lang : Language} {options : Options} {input : Array UInt8} {old : Option Tree}
  {fresh : Stamp} {t : Tree}

/-- What is parsed from scratch is obtained. -/
theorem Tree.Obtained.scratch (parsed : (lang.parse options input none fresh).tree = some t) :
    Obtained lang t := by
  refine .parsed ?_ parsed
  rintro o ⟨⟩

/-- The tree of a parse holds the root that its rounds end with. -/
theorem Language.parse_ends (parsed : (lang.parse options input old fresh).tree = some t) :
    t.language = lang ∧ ∃ last, Session.Ends t.root last
      (Session.start lang options input (lang.usable input old) fresh) := by
  unfold Language.parse at parsed
  dsimp only at parsed
  obtain ⟨root, found, rfl⟩ := Option.map_eq_some_iff.mp parsed
  exact ⟨rfl, _, Session.runWithin_ends (Prod.ext found rfl)⟩

/-- A parse starts in a good session, along any old root that was kept. -/
theorem Session.start_good {P : Nat → Subtree → Prop} (table : lang.table.Sound)
    (makes : lang.Makes input fresh P) (builds : Builds lang input P) (root : Option Subtree)
    (kept : ∀ t, root = some t → t.Kept P ∧ t.size.bytes = input.size) :
    (start lang options input root fresh).Good P := by
  refine .of_ready ⟨table, makes, rfl, trivial, Stack.dated_empty rfl,
    fun _ => Stack.stale_of_lt nofun, Nat.zero_le _, nofun, ?_⟩ builds rfl
  cases root with
  | none => exact ⟨0, Nat.zero_le _, Subtree.everywhereIn_nil, Subtree.everywhereIn_nil, rfl⟩
  | some t =>
    obtain ⟨kept, size⟩ := kept t rfl
    refine ⟨input.size, Nat.le_refl _, ?_, ?_, ?_⟩
    · exact Subtree.everywhereIn_singleton.mpr kept.fresh
    · exact Subtree.everywhereIn_singleton.mpr kept.aged
    · change 0 + (total [t]).bytes = input.size
      rw [Subtree.total_cons, Subtree.total_nil, add_zero, Nat.zero_add, size]

/-- An old tree of use that was kept is as long as the input. -/
theorem Language.usable_kept {P : Nat → Subtree → Prop}
    (kept : ∀ o, old = some o → o.language.same lang → o.root.Kept P) :
    ∀ root, lang.usable input old = some root →
      root.Kept P ∧ root.size.bytes = input.size := by
  intro root usable
  obtain ⟨o, found, rfl⟩ := Option.map_eq_some_iff.mp usable
  obtain ⟨is, fits⟩ := Option.filter_eq_some_iff.mp found
  simp only [Tree.fits, Bool.and_eq_true, beq_iff_eq] at fits
  exact ⟨kept o is fits.1, fits.2⟩

/-- Along an old tree that was kept a parse starts in a good session, whatever the input. -/
theorem Language.start_good (table : lang.table.Sound)
    (kept : ∀ o, old = some o → o.language.same lang → o.root.Kept (fun _ => Subtree.Sound lang)) :
    (Session.start lang options input (lang.usable input old) fresh).Good
      (Subtree.Made lang input (lang.usable input old = none)) := by
  refine Session.start_good table makes_made Session.builds_made _ fun t is => ?_
  obtain ⟨kept, size⟩ := usable_kept kept t is
  refine ⟨⟨kept.aged, fun u x inside unchanged => ?_⟩, size⟩
  exact (kept.fresh u x inside unchanged).mono fun _ _ sound =>
    ⟨sound, fun scratch => by rw [is] at scratch; cases scratch⟩

/-- What the tree of a parse is like, if what was kept of the old tree is sound. -/
theorem Language.parse_made (table : lang.table.Sound)
    (kept : ∀ o, old = some o → o.language.same lang → o.root.Kept (fun _ => Subtree.Sound lang))
    (parsed : (lang.parse options input old fresh).tree = some t) :
    Session.Rooted lang input (Subtree.Made lang input (lang.usable input old = none)) t.root := by
  obtain ⟨-, last, ends⟩ := parse_ends parsed
  exact (start_good table kept).ends ends

/-- Whatever happened to a tree, what it keeps is enough for the next parse. -/
theorem Tree.Obtained.kept (table : lang.table.Sound) (obtained : Obtained lang t) :
    t.root.Kept (fun _ => Subtree.Sound lang) := by
  induction obtained with
  | parsed before tree ih => exact (Language.parse_made table ih tree).whole.kept
  | edited before e fresh ih => exact ih.edit (e.within_fits _) fresh

end Reparse
