import Reparse.Proofs.Parse.Simulation
import Reparse.Proofs.Syntax.Growth

/-!
Skipping tokens in one go or in several.

A further skip takes the error node that the last one left off the stack, with the extras that were
pushed on it since, and puts it back grown (`Stack.popError_of_split`). Because growing a node comes
to the same as building it at once, a run of skipped tokens makes one and the same error node in
however many goes it is skipped (`Skipping.leaves`).
-/

namespace Reparse

namespace Stack

variable {s : Stack} {e : Entry} {above rest : List Entry}

/-- An extra that further skipped tokens take in: any but an error node. -/
def RidesAlong (t : Subtree) : Prop :=
  t.extra = true ∧ (t.isError && !t.isLeaf) = false

/-- The error node is found below the extras that came since. -/
theorem popError_of_split (split : s.entries = above ++ e :: rest) (few : above.length < lookback)
    (ride : ∀ a ∈ above, RidesAlong a.tree) (extra : e.tree.extra = true)
    (isError : e.tree.isError = true) (inner : e.tree.children ≠ []) :
    s.popError = some (e.tree, trees above, e.epoch, s.without (above.length + 1)) := by
  have inner : e.tree.isLeaf = false := by
    unfold Subtree.isLeaf
    rwa [List.isEmpty_eq_false_iff]
  obtain ⟨looks, eq⟩ : ∃ looks, lookback = above.length + (looks + 1) :=
    ⟨lookback - above.length - 1, by omega⟩
  have extras : ∃ deeper, (s.entries.take lookback).takeWhile (·.tree.extra)
      = above ++ e :: deeper := by
    refine ⟨(rest.take looks).takeWhile (·.tree.extra), ?_⟩
    rw [split, eq, List.take_length_add_append, List.take_succ_cons,
      List.takeWhile_append_of_pos fun a member => (ride a member).1]
    exact congrArg (above ++ ·) (List.takeWhile_cons_of_pos extra)
  obtain ⟨deeper, extras⟩ := extras
  have atError : (!(e.tree.isError && !e.tree.isLeaf)) = false := by rw [isError, inner]; rfl
  have spans : (above ++ e :: deeper).span (fun e => !(e.tree.isError && !e.tree.isLeaf))
      = (above, e :: deeper) := by
    have passed (a : Entry) (member : a ∈ above) : (!(a.tree.isError && !a.tree.isLeaf)) = true := by
      rw [(ride a member).2]
      rfl
    rw [List.span_eq_takeWhile_dropWhile, List.takeWhile_append_of_pos passed,
      List.dropWhile_append_of_pos passed, List.takeWhile_cons, List.dropWhile_cons, atError]
    simp
  unfold popError
  dsimp only
  rw [extras, spans]

/-- The error node that skipping `run` in `state` leaves, and the stack below it. -/
def skipped (begun : Stack) (lang : Language) (state : StateId) (stamp : Stamp)
    (run : List Subtree) : Subtree × Stack :=
  match begun.popError with
  | some (error, extras, _, below) => (error.append stamp (extras ++ run), below)
  | none => (Subtree.errorNode stamp lang run state, begun)

variable {begun : Stack} {lang : Language} {state : StateId} {stamp : Stamp} {run : List Subtree}

theorem skipped_below (stamp' : Stamp) (run' : List Subtree) :
    (begun.skipped lang state stamp run).2 = (begun.skipped lang state stamp' run').2 := by
  unfold skipped
  split <;> rfl

/-- Skipping on grows the error node to the one that all the tokens make. -/
theorem skipped_append (stamp' : Stamp) (more : List Subtree) :
    (begun.skipped lang state stamp run).1.append stamp' more
      = (begun.skipped lang state stamp' (run ++ more)).1 := by
  unfold skipped
  split
  · rw [Subtree.append_append, List.append_assoc]
  · exact Subtree.append_errorNode ..

theorem skipped_alike (begun : Stack) (lang : Language) (state : StateId) (stamp stamp' : Stamp)
    (run : List Subtree) :
    (begun.skipped lang state stamp run).1.info = (begun.skipped lang state stamp' run).1.info
      ∧ (begun.skipped lang state stamp run).1.children
        = (begun.skipped lang state stamp' run).1.children := by
  unfold skipped
  split <;> exact ⟨rfl, rfl⟩

/-- It is an extra and an error node, which a further skip will find. -/
theorem skipped_spec (begun : Stack) (lang : Language) (state : StateId) (stamp : Stamp)
    (some : run ≠ []) :
    (begun.skipped lang state stamp run).1.extra = true
      ∧ (begun.skipped lang state stamp run).1.isError = true
      ∧ (begun.skipped lang state stamp run).1.children ≠ [] := by
  unfold skipped
  split
  · rename_i error extras epoch below popped
    obtain ⟨above, e, rest, -, rfl, -, -, -, -, extra, isError, inner, -⟩ := popError_spec popped
    refine ⟨?_, (Summary.append_isError ..).trans isError, List.append_ne_nil_of_left_ne_nil inner _⟩
    rw [← extra]
    exact Summary.append_unchanged (·.extra) (fun _ _ => rfl) (fun _ _ _ => rfl) _ _ _
  · exact ⟨rfl, Subtree.errorNode_isError .., some⟩

end Stack

namespace Session

open Stack (RidesAlong lookback)

variable {lang : Language} {state : StateId} {begun stack : Stack} {run above : List Subtree}

theorem skipTokens_stack (s : Session) (state : StateId) (tokens : List Subtree) :
    ∃ epoch, (s.skipTokens state tokens).stack
      = (s.stack.skipped s.lang state s.fresh tokens).2.push
          (s.stack.skipped s.lang state s.fresh tokens).1 state epoch := by
  unfold skipTokens Stack.skipped
  cases s.stack.popError with
  | none => exact ⟨s.epoch, rfl⟩
  | some found => exact ⟨found.2.2.1, rfl⟩

/-- What comes of the stack `begun` while a run of tokens is skipped in several goes. `above` are the
extras that came since the last of them: no more than are looked at for the error node. Sessions
may differ in all that is not named. -/
inductive Skipping (lang : Language) (state : StateId) (begun : Stack) :
    (run above : List Subtree) → Stack → Prop
  | first {s : Session} {tokens : List Subtree} (lang_eq : s.lang = lang)
      (stack_eq : s.stack = begun) (some : tokens ≠ []) :
      Skipping lang state begun tokens [] (s.skipTokens state tokens).stack
  | extra {run above : List Subtree} {stack : Stack} {t : Subtree}
      (skipping : Skipping lang state begun run above stack) (rides : RidesAlong t)
      (few : above.length + 1 < lookback) (epoch : Nat) :
      Skipping lang state begun run (above ++ [t]) (stack.push t state epoch)
  | next {s : Session} {run above tokens : List Subtree}
      (skipping : Skipping lang state begun run above s.stack) :
      Skipping lang state begun (run ++ above ++ tokens) [] (s.skipTokens state tokens).stack

/-- Below the extras that came since there is the error node of the whole run. -/
theorem Skipping.leaves (skipping : Skipping lang state begun run above stack) :
    run ≠ [] ∧ above.length < lookback ∧ (∀ t ∈ above, RidesAlong t)
      ∧ ∃ since stamp epoch, Stack.trees since = above
        ∧ stack.entries = since ++ ((begun.skipped lang state stamp run).2.push
            (begun.skipped lang state stamp run).1 state epoch).entries := by
  induction skipping with
  | @first s tokens lang_eq stack_eq some =>
    obtain ⟨epoch, stack⟩ := s.skipTokens_stack state tokens
    rw [lang_eq, stack_eq] at stack
    exact ⟨some, Nat.zero_lt_succ _, nofun, [], _, epoch, rfl, congrArg Stack.entries stack⟩
  | @extra run above stack t _ rides few epoch ih =>
    obtain ⟨some, -, ride, since, stamp, epoch', rfl, entries⟩ := ih
    refine ⟨some, by simpa using few, ?_, ⟨t, state, stack.topPosition + t.size, epoch⟩ :: since,
      stamp, epoch', Stack.trees_cons, ?_⟩
    · intro t' member
      rcases List.mem_append.mp member with member | member
      · exact ride t' member
      · exact List.mem_singleton.mp member ▸ rides
    · rw [Stack.push_entries, entries]
      rfl
  | @next s run above tokens _ ih =>
    obtain ⟨some, few, ride, since, stamp, epoch, rfl, entries⟩ := ih
    obtain ⟨extra, isError, inner⟩ := begun.skipped_spec lang state stamp some
    have length : (Stack.trees since).length = since.length := by simp [Stack.trees]
    rw [length] at few
    have popped := Stack.popError_of_split entries few
      (fun e member => ride e.tree (Stack.mem_trees.mpr ⟨e, member, rfl⟩)) extra isError inner
    have below := Stack.without_entries (entries.trans (List.append_cons ..))
    rw [List.length_append, List.length_singleton] at below
    refine ⟨by simp [some], Nat.zero_lt_succ _, nofun, [], s.fresh, epoch, rfl, ?_⟩
    unfold skipTokens
    rw [popped]
    dsimp only
    rw [Stack.skipped_append, ← List.append_assoc]
    rw [push, Stack.push_entries, Stack.push_entries, List.nil_append, Stack.topPosition, below,
      Stack.skipped_below s.fresh (run ++ Stack.trees since ++ tokens)]
    rfl

end Session

open Session (Skipping)

/-- A node that grows is the node that is made of all the children at once, whether it is an error
node or any other. So the error node that a run of skipped tokens makes, with the extras between
them, is the same in however many goes they are skipped, and lies on the same entries; only the
stamps and the recovery that it was pushed in may differ. -/
theorem grown_eq_whole (lang : Language) (state : StateId) :
    (∀ (stamp stamp' : Stamp) (symbol : Symbol) (xs ys : List Subtree) (production : ProductionId),
        (Subtree.node stamp lang symbol xs production state).append stamp' ys
          = Subtree.node stamp' lang symbol (xs ++ ys) production state)
      ∧ ∀ (begun stack : Stack) (run : List Subtree), Skipping lang state begun run [] stack →
        ∀ s : Session, s.lang = lang → s.stack = begun →
          ∃ e e' rest, stack.entries = e :: rest
            ∧ (s.skipTokens state run).stack.entries = e' :: rest
            ∧ e.tree.isError = true ∧ e.tree.info = e'.tree.info
            ∧ e.tree.children = e'.tree.children ∧ e.state = e'.state
            ∧ e.position = e'.position := by
  refine ⟨fun stamp stamp' symbol xs ys production => Subtree.append_node .., ?_⟩
  rintro begun stack run skipping s rfl rfl
  obtain ⟨some, -, -, since, stamp, epoch, none, parts⟩ := skipping.leaves
  obtain ⟨epoch', whole⟩ := s.skipTokens_stack state run
  obtain rfl : since = [] := by simpa [Stack.trees] using none
  obtain ⟨-, isError, -⟩ := s.stack.skipped_spec s.lang state stamp some
  obtain ⟨info, children⟩ := s.stack.skipped_alike s.lang state stamp s.fresh run
  rw [List.nil_append, Stack.push_entries, Stack.skipped_below s.fresh run] at parts
  rw [whole, Stack.push_entries]
  refine ⟨_, _, _, parts, rfl, isError, info, children, rfl, ?_⟩
  exact congrArg (fun i : Summary => _ + i.size) info

/-- Two `z`s are skipped one after the other, with a blank between them. -/
theorem Language.ofNested_grown :
    let z := Subtree.leaf 0 ofNested Symbol.error (.ofBytes [122]) 0 StateId.start {}
    let blank := Subtree.leaf 1 ofNested 4 (.ofBytes [32]) 0 StateId.start {}
    let s : Session := { lang := ofNested, input := #[122, 32, 122] }
    ∃ stack, Skipping ofNested StateId.start s.stack [z, blank, z] [] stack
      ∧ stack.entries.map (·.tree.info)
        = (s.skipTokens StateId.start [z, blank, z]).stack.entries.map (·.tree.info) := by
  intro z blank s
  have first : Skipping ofNested StateId.start s.stack [z] [] (s.skipTokens _ [z]).stack :=
    .first rfl rfl (List.cons_ne_nil _ _)
  have between := first.extra (t := blank) ⟨rfl, rfl⟩ (by decide) 0
  have skipping := @Skipping.next _ _ _
    { s with stack := (s.skipTokens StateId.start [z]).stack.push blank StateId.start 0 } _ _ [z] between
  obtain ⟨e, e', rest, parts, whole, -, info, -⟩ :=
    (grown_eq_whole ofNested StateId.start).2 _ _ _ skipping s rfl rfl
  refine ⟨_, skipping, ?_⟩
  rw [parts, List.map_cons, info]
  exact (congrArg (List.map (·.tree.info)) whole).symm

end Reparse
