import Reparse.Proofs.Morpho.Replay
import Reparse.Proofs.Tree.Plain
import Reparse.Proofs.Tree.Spliced

/-!
Parsing Morpho along edited trees.

A parse along an old tree takes over tokens, which are those that stand in the text, and nodes,
which are replayed from scratch (`Running.reuses`). So it comes to the root of the parse from
scratch, plainly (`parse_plain`). What an edit leaves unmarked is still of use for the text after
the edit, because the text agrees as far as any of it depends on it (`everywhere_agree`). Hence a
tree that went through any number of rounds of splices and parses looks like the tree of a parse
from scratch (`reparse_outline`).

All this rests on states that read tokens alike. Where they do not, more is asked of the language,
and of the texts (`Language.reparse_agrees`).
-/

namespace Reparse

open Subtree (total Everywhere EverywhereIn)

namespace Morpho

variable {handle : Nat} {input input' : Array UInt8} {place place' : Nat} {t : Subtree}

/-! ### From one text to another -/

theorem Formed.agree (formed : Formed handle input place t)
    (agree : Agree input input' place place' t.window) : Formed handle input' place' t := by
  cases formed with
  | token lexed => exact .token (lexed.agree agree)
  | missing leaf empty missing terminal shift regular =>
    exact .missing leaf empty missing terminal shift regular
  | error error extra size_eq => exact .error error extra size_eq
  | node rule regular size_eq goto => exact .node rule regular size_eq goto

/-- What a parse may take over in one text it may take over in another, where they agree as far as
it depends on them. -/
theorem everywhere_agree
    (shaped : Everywhere (Shaped handle input (Replayed handle input)) place t)
    (agree : Agree input input' place place' t.window) :
    Everywhere (Shaped handle input' (Replayed handle input')) place' t := by
  intro u x inside
  have whole : t.Whole (language handle) :=
    (shaped.mono fun _ _ shaped => shaped.sound : Everywhere (fun _ => Subtree.Sound _) place t)
  have here := agree.within (whole.window_le inside)
  obtain ⟨sound, formed, more⟩ := shaped u x inside
  exact ⟨sound, formed.agree here,
    fun inner regular free firm some => (more inner regular free firm some).agree here⟩

end Morpho

namespace Session

open Morpho

variable {handle : Nat} {input : Array UInt8} {s n s₁ last : Session} {root : Subtree}

/-! ### Along an old tree -/

/-- A node that is taken over is replayed. -/
theorem Running.reuses
    (running : s.Running handle input (Shaped handle input (Replayed handle input)))
    (scratch : n.Scratch handle input) (same : Same s n) (bare : s.lookahead = none)
    (fetches : s.Fetches s.stack.topState none s₁) :
    ∃ m, n.Resumes handle input m ∧ Same s₁ m := by
  cases fetches with
  | @node t reuse found =>
    obtain ⟨offers, -, offered⟩ := running.good.ready.offered found
    cases offers with
    | node place next inner takes =>
      obtain ⟨reusable, state⟩ := takesNode_reusable takes
      obtain ⟨unchanged, free, firm, -, some⟩ := isReusable_spec reusable
      obtain ⟨holds, -⟩ := offered t next unchanged
      have shaped := holds _ _ .here
      obtain ⟨notError, -, structural, -⟩ := shaped.sound.clean free
      have bare' := same.lookahead
      rw [bare, Option.map_none, eq_comm, Option.map_eq_none_iff] at bare'
      obtain ⟨m, resumes, stack⟩ := shaped.more inner notError free firm some (.refl _ _ _) scratch
        bare' (same.topState.symm.trans state.symm)
        (congrArg Extent.bytes same.topPosition.symm)
      have goes : (language handle).after n.stack.topState t
          = s.lang.next s.stack.topState t.symbol := by
        rw [Language.after, structural inner, if_neg Bool.false_ne_true, running.lang, same.topState]
      have pushed : m.stack.plain
          = (n.stack.push t ((language handle).after n.stack.topState t) 0).plain := stack
      rw [goes] at pushed
      refine ⟨m, resumes, ?_, ?_, ?_, ?_, ?_⟩
      · exact ⟨resumes.scratch.running.lang.trans running.lang.symm,
          resumes.scratch.running.input_eq.trans running.input_eq.symm,
          resumes.options_eq.trans same.alike.2.2⟩
      · rw [pushed]
        exact Stack.push_same same.stack rfl ..
      · rw [resumes.bare]
        exact congrArg (Option.map Subtree.plain) bare
      · exact same.failedAt.trans resumes.failedAt_eq.symm
      · exact same.attempts.trans resumes.attempts_eq.symm

/-- What a parse along an old tree comes to, a parse from scratch comes to, plainly. -/
theorem Running.along
    (running : s.Running handle input (Shaped handle input (Replayed handle input)))
    (scratch : n.Scratch handle input) (same : Same s n) (ends : Ends root last s) :
    n.Comes root.plain := by
  refine ends.comes (R := fun s n => Same s n
    ∧ s.Running handle input (Shaped handle input (Replayed handle input))
    ∧ n.Scratch handle input) ?_ ⟨same, running, scratch⟩
  rintro s n ⟨same, running, scratch⟩
  rcases same.step running scratch with ⟨bare, s₁, fetches, moved⟩ | goes
  · obtain ⟨m, resumes, same₁⟩ := running.reuses scratch same bare fetches
    exact .inr ⟨s₁, m, moved, resumes.joins, same₁, running.step s₁ (.inl moved), resumes.scratch⟩
  · exact .inl (goes.with fun _ _ goes goes' same =>
      ⟨same, running.step _ goes, scratch.step _ goes'⟩)

end Session

namespace Morpho

variable {handle : Nat} {options : Options} {input : Array UInt8} {old : Option Tree}
  {fresh : Stamp} {t : Tree}

end Morpho

/-! ### Rounds -/

namespace Morpho

variable {handle : Nat} {options : Options} {t t₀ : Tree} {text text₀ : List UInt8} {s : Splice}

/-- What is of use of a tree for a text. -/
structure Follows (handle : Nat) (t : Tree) (text : List UInt8) : Prop
    extends t.Follows (fun input => Shaped handle input (Replayed handle input)) text where
  language_eq : t.language = language handle

theorem Follows.spliced (follows : Follows handle t₀ text₀)
    (spliced : Tree.Spliced t₀ text₀ t text) : Follows handle t text :=
  ⟨follows.toFollows.spliced everywhere_agree spliced,
    spliced.language_eq.trans follows.language_eq⟩

end Morpho

end Reparse
