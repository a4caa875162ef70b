import Reparse.Proofs.Lex.Token
import Reparse.Proofs.Syntax.Edit

/-!
What every subtree that a parse builds is like.

A sound subtree is as large as its children side by side, its window covers theirs, a leaf that
takes up text stands for a token, and what costs nothing holds no error (`Subtree.Sound`). The
summaries that parsing makes of children are of that kind (`Summary.Sums`): those of nodes and
error nodes, and those of error nodes that grow.
-/

namespace Reparse

open Subtree (total)

/-- What a subtree owes to its children and its token. -/
structure Subtree.Sound (lang : Language) (t : Subtree) : Prop where
  unchanged : t.info.changed = false
  present : t.children ≠ [] → t.info.missing = false
  size_eq : t.children ≠ [] → t.size = total t.children
  window_le : ∀ {before c after}, t.children = before ++ c :: after →
    (total before).bytes + c.window ≤ t.window
  lexes : t.children = [] → 0 < t.size.bytes → lang.Lexes t.symbol
  empty : t.children = [] → t.size.bytes = 0 → t.size = 0
  clean : t.info.errorCost = 0 → t.isError = false ∧ t.info.missing = false
    ∧ (t.children ≠ [] → t.extra = false) ∧ ∀ c ∈ t.children, c.info.errorCost = 0

/-- A summary of some children. -/
structure Summary.Sums (s : Summary) (children : List Subtree) : Prop where
  unchanged : s.changed = false
  present : s.missing = false
  size_eq : s.size = total children
  window_le : ∀ {before c after}, children = before ++ c :: after →
    (total before).bytes + c.window ≤ s.reach
  clean : s.errorCost = 0 → s.isError = false ∧ s.extra = false
    ∧ ∀ c ∈ children, c.info.errorCost = 0

namespace Summary

variable {lang : Language} {s : Summary} {children more : List Subtree}

theorem Sums.sound (sums : s.Sums children) (stamp : Stamp) :
    Subtree.Sound lang ⟨stamp, s, children⟩ where
  unchanged := sums.unchanged
  present _ := sums.present
  size_eq _ := sums.size_eq
  window_le := sums.window_le
  lexes leaf some := by
    have size := sums.size_eq
    change children = [] at leaf
    change 0 < s.size.bytes at some
    rw [size, leaf] at some
    exact absurd some (Nat.lt_irrefl 0)
  empty leaf _ := by
    have leaf : children = [] := leaf
    have size := sums.size_eq
    rw [leaf, Subtree.total_nil] at size
    exact size
  clean free := by
    obtain ⟨regular, structural, children⟩ := sums.clean free
    exact ⟨regular, sums.present, fun _ => structural, children⟩

theorem ofChildren_sums (lang : Language) (symbol : Symbol) (children : List Subtree)
    (production : ProductionId) (parseState : StateId) :
    (ofChildren lang symbol children production parseState).Sums children where
  unchanged := ofChildren_changed ..
  present := ofChildren_missing ..
  size_eq := ofChildren_size ..
  window_le := by
    rintro before c after rfl
    exact window_le_ofChildren ..
  clean free := by
    by_cases regular : symbol = Symbol.error
    · rw [regular] at free
      have := ofChildren_errorCost_of_error lang children production parseState
      omega
    · refine ⟨?_, ofChildren_extra .., (ofChildren_errorCost_eq_zero _ _ _ _ _ regular).mp free⟩
      rw [isError, ofChildren_symbol]
      exact beq_false_of_ne regular

/-- A summary may depend on more of the text, and on things that are not derived from children. -/
theorem Sums.reaching (sums : s.Sums children) (precedence : Int) (fragile : Bool)
    (lookahead : Nat) :
    { s with precedence, fragile, lookahead := max s.lookahead lookahead }.Sums children where
  unchanged := sums.unchanged
  present := sums.present
  size_eq := sums.size_eq
  window_le split := by
    have := sums.window_le split
    simp only [reach] at this ⊢
    omega
  clean := sums.clean

theorem ofChildren_isError (lang : Language) (children : List Subtree) (production : ProductionId)
    (parseState : StateId) :
    (ofChildren lang Symbol.error children production parseState).isError = true := by
  rw [isError, ofChildren_symbol]
  rfl

theorem append_isError (s : Summary) (had more : List Subtree) :
    (s.append had more).isError = s.isError :=
  append_unchanged (·.isError) (fun _ _ => rfl) (fun _ _ _ => rfl) s had more

end Summary

namespace Subtree

variable {lang : Language} {children : List Subtree}

/-! ### Leaves -/

theorem leaf_sound {stamp : Stamp} {symbol : Symbol} {size : Extent} {lookahead : Nat}
    {parseState : StateId} {mode : LexMode} (lexes : 0 < size.bytes → lang.Lexes symbol)
    (empty : size.bytes = 0 → size = 0) :
    Sound lang (leaf stamp lang symbol size lookahead parseState mode) where
  unchanged := rfl
  present some := absurd rfl some
  size_eq some := absurd rfl some
  window_le := by simp [leaf]
  lexes _ := lexes
  empty _ := empty
  clean free := by
    refine ⟨?_, rfl, fun some => absurd rfl some, nofun⟩
    by_cases error : symbol = Symbol.error
    · have := Cost.skipped_pos 0 size
      simp only [leaf, error, if_true] at free
      omega
    · exact beq_false_of_ne error

theorem missingLeaf_sound {stamp : Stamp} {symbol : Symbol} {parseState : StateId}
    {mode : LexMode} : Sound lang (missingLeaf stamp lang symbol parseState mode) where
  unchanged := rfl
  present some := absurd rfl some
  size_eq some := absurd rfl some
  window_le := by simp [missingLeaf]
  lexes _ some := absurd some (Nat.lt_irrefl 0)
  empty _ _ := rfl
  clean free := by
    have : Cost.missing ≠ 0 := by decide
    exact absurd free this

section Placed

variable (t : Subtree) (fresh : Stamp) (parseState : StateId) (extra : Bool)

@[simp] theorem placed_size : (t.placed fresh parseState extra).size = t.size := by
  unfold Subtree.placed
  split <;> rfl

@[simp] theorem placed_symbol : (t.placed fresh parseState extra).symbol = t.symbol := by
  unfold Subtree.placed
  split <;> rfl

@[simp] theorem placed_children : (t.placed fresh parseState extra).children = t.children := by
  unfold Subtree.placed
  split <;> rfl

@[simp] theorem placed_window : (t.placed fresh parseState extra).window = t.window := by
  unfold Subtree.placed
  split <;> rfl

@[simp] theorem placed_extra : (t.placed fresh parseState extra).extra = extra := by
  unfold Subtree.placed
  split
  · rename_i same
    exact same.2
  · rfl

@[simp] theorem placed_parseState :
    (t.placed fresh parseState extra).info.parseState = parseState := by
  unfold Subtree.placed
  split
  · rename_i same
    exact same.1
  · rfl

end Placed

/-- A leaf may be pushed in any state, as an extra or not. -/
theorem Sound.placed {t : Subtree} (sound : Sound lang t) (leaf : t.children = []) (fresh : Stamp)
    (parseState : StateId) (extra : Bool) : Sound lang (t.placed fresh parseState extra) := by
  unfold Subtree.placed
  split
  · exact sound
  · exact
      { unchanged := sound.unchanged
        present := sound.present
        size_eq := sound.size_eq
        window_le := sound.window_le
        lexes := sound.lexes
        empty := sound.empty
        clean := fun free =>
          have ⟨regular, present, _, zero⟩ := sound.clean free
          ⟨regular, present, fun some => absurd leaf some, zero⟩ }

/-! ### Error nodes -/

theorem errorNode_sums (stamp : Stamp) (children : List Subtree) (parseState : StateId) :
    (errorNode stamp lang children parseState).info.Sums children := by
  have sums := Summary.ofChildren_sums lang Symbol.error children 0 parseState
  have costs := Summary.ofChildren_errorCost_of_error lang children 0 parseState
  exact ⟨sums.unchanged, sums.present, sums.size_eq, sums.window_le,
    fun free => absurd free (Nat.pos_iff_ne_zero.mp costs)⟩

theorem errorNode_isError (stamp : Stamp) (children : List Subtree) (parseState : StateId) :
    (errorNode stamp lang children parseState).isError = true :=
  Summary.ofChildren_isError ..

/-- An error node that grows sums up what it had and what is new. -/
theorem Sound.append_sums {t : Subtree} (sound : Sound lang t) (error : t.isError)
    (some : t.children ≠ []) (more : List Subtree) :
    (t.info.append t.children more).Sums (t.children ++ more) := by
  have size := sound.size_eq some
  constructor
  · rw [← sound.unchanged]
    exact Summary.append_unchanged (·.changed) (fun _ _ => rfl) (fun _ _ _ => rfl) _ _ _
  · rw [← sound.present some]
    exact Summary.append_unchanged (·.missing) (fun _ _ => rfl) (fun _ _ _ => rfl) _ _ _
  · rw [Summary.append_size, total_append, ← size]
  · intro before c after split
    rcases List.append_eq_append_iff.mp split with ⟨fromMore, rfl, rest⟩ | ⟨fromHad, had, rest⟩
    · have := Summary.window_le_append t.info t.children fromMore c after
      rw [← rest] at this
      rwa [total_append, Extent.add_bytes, ← size]
    · cases fromHad with
      | nil =>
        rw [List.nil_append] at rest
        rw [List.append_nil] at had
        have := Summary.window_le_append t.info t.children [] c after
        rw [List.nil_append, rest] at this
        rw [← had, ← size]
        simpa using this
      | cons d fromHad =>
        obtain ⟨rfl, rfl⟩ := List.cons.inj rest
        exact Nat.le_trans (sound.window_le had) (Summary.reach_le_append ..)
  · intro free
    have := Summary.append_errorCost_of_error (s := t.info) error t.children more
    omega

/-! ### Whole trees -/

/-- A subtree that a parse made: every subtree in it is sound. -/
def Whole (lang : Language) (t : Subtree) : Prop := Everywhere (fun _ => Sound lang) 0 t

theorem Whole.of_sums {info : Summary} {children : List Subtree} (sums : info.Sums children)
    (stamp : Stamp) {place : Nat} (sound : EverywhereIn (fun _ => Sound lang) place children) :
    Whole lang ⟨stamp, info, children⟩ :=
  everywhere_iff.mpr ⟨sums.sound stamp, sound⟩

/-- The window of a subtree covers the windows of all that lies below it. -/
theorem Whole.window_le {t u : Subtree} {x : Extent} (whole : Whole lang t) (inside : Occurs u t x) :
    x.bytes + u.window ≤ t.window := by
  induction t using Subtree.induction generalizing x with
  | node t ih =>
    rcases occurs_iff.mp inside with ⟨rfl, rfl⟩ | inside
    · exact Nat.le_of_eq (Nat.zero_add _)
    · obtain ⟨before, c, after, y, children, rfl, inC⟩ := inside.split
      have below := ih c (by simp [children]) (whole.of_occurs (.child children)).anywhere inC
      have := (whole t 0 .here).window_le children
      rw [Extent.add_bytes]
      omega

theorem Whole.aged {t u : Subtree} {x : Extent} (whole : Whole lang t) (inside : Occurs u t x) :
    u.Aged where
  bytes_eq some := congrArg Extent.bytes ((whole u x inside).size_eq some)
  window_le below _ := Whole.window_le (whole.of_occurs inside).anywhere below

/-- A tree that costs nothing holds nothing that does. -/
theorem Whole.clean {t u : Subtree} {x : Extent} (whole : Whole lang t)
    (free : t.info.errorCost = 0) (inside : Occurs u t x) : u.info.errorCost = 0 := by
  induction t using Subtree.induction generalizing x with
  | node t ih =>
    rcases occurs_iff.mp inside with ⟨rfl, rfl⟩ | inside
    · exact free
    · obtain ⟨before, c, after, y, children, rfl, inC⟩ := inside.split
      have member : c ∈ t.children := by simp [children]
      exact ih c member (whole.of_occurs (.child children)).anywhere
        ((whole t 0 .here).clean free |>.2.2.2 c member) inC

end Subtree

end Reparse
