import Reparse.Proofs.Grammar.Soundness
import Reparse.Proofs.Parse.Epoch
import Reparse.Proofs.Parse.Reading
import Reparse.Proofs.Parse.Reuse

/-!
What holds of a parse at every moment.

A session is ready (`Session.Ready`) if its stack is settled and dated, ends within the input and
holds only what `P` holds of, if it remembers tokens rightly, and if `P` holds of what is to come
of the old tree wherever that is not changed. Every move that needs no recovery keeps a session
ready: taking a token from the text or the old tree (`Ready.fetch`), `Ready.shift`,
`Ready.shiftExtra`, and `Ready.reduce` if `P` holds of the node.
-/

namespace Reparse

open Subtree (total Everywhere EverywhereIn)

/-- What an old tree may hold: `P` holds everywhere in what is not marked as changed. -/
def Subtree.Fresh (P : Nat → Subtree → Prop) (place : Nat) (t : Subtree) : Prop :=
  t.info.changed = false → Everywhere P place t

namespace Session

variable {s s' : Session} {P : Nat → Subtree → Prop} {t : Subtree}

/-! ### Ready sessions -/

structure Ready (P : Nat → Subtree → Prop) (s : Session) : Prop where
  table : s.lang.table.Sound
  makes : s.lang.Makes s.input s.fresh P
  base : s.stack.base = StateId.start
  settled : s.stack.Settled s.lang P
  dated : s.stack.Dated s.epoch s.seen
  stale : s.stack.Erred → s.stack.Stale s.epoch
  inside : s.stack.topPosition.bytes ≤ s.input.size
  remembers : s.Remembers
  ahead : ∃ stop ≤ s.input.size, s.reuse.Ahead (Subtree.Fresh P) stop

theorem Ready.reading (ready : s.Ready P) (reading : Reading s s') : s'.Ready P := by
  have remembers := reading.remembers ready.remembers
  have makes := reading.makes ready.makes
  obtain ⟨⟨_, _, _, _, le, rfl⟩, -⟩ := reading
  exact ⟨ready.table, makes, ready.base, ready.settled,
    ready.dated.mono (Nat.le_refl _) le, ready.stale, ready.inside, remembers, ready.ahead⟩

/-- Where the old tree is to be read from may change. -/
theorem Ready.recursor (ready : s.Ready P) {reuse : ReuseCursor}
    (ahead : ∃ stop ≤ s.input.size, reuse.Ahead (Subtree.Fresh P) stop) :
    { s with reuse }.Ready P :=
  ⟨ready.table, ready.makes, ready.base, ready.settled, ready.dated, ready.stale, ready.inside,
    ready.remembers, ahead⟩

/-- What a move may change: the stack, and what is counted along with it. -/
def Restacks (s s' : Session) : Prop :=
  ∃ stack reductions fresh events, s' = { s with stack, reductions, fresh, events }

theorem Restacks.trans {s₁ s₂ s₃ : Session} (first : Restacks s₁ s₂) (second : Restacks s₂ s₃) :
    Restacks s₁ s₃ := by
  obtain ⟨_, _, _, _, rfl⟩ := first
  obtain ⟨_, _, _, _, rfl⟩ := second
  exact ⟨_, _, _, _, rfl⟩

/-- The stack of a ready session may give way to another that is as good. -/
theorem Ready.restack (ready : s.Ready P) (restacks : Restacks s s') (fresh : s.fresh ≤ s'.fresh)
    (base : s'.stack.base = s.stack.base) (settled : s'.stack.Settled s.lang P)
    (dated : s'.stack.Dated s.epoch s.seen) (stale : s'.stack.Erred → s'.stack.Stale s.epoch)
    (inside : s'.stack.topPosition.bytes ≤ s.input.size) : s'.Ready P := by
  obtain ⟨_, _, _, _, rfl⟩ := restacks
  exact ⟨ready.table, ready.makes.later fresh, base.trans ready.base, settled, dated, stale, inside,
    ready.remembers, ready.ahead⟩

/-- The text read so far is that of the subtrees on the stack. -/
theorem Ready.topPosition_eq (ready : s.Ready P) :
    s.stack.topPosition = total (Stack.trees s.stack.entries) := by
  have := (ready.settled.trees (List.append_nil _).symm).2
  rw [← this]
  exact zero_add _

/-- A parse may as well have no extras on top and no token at hand. -/
theorem Ready.lower (ready : s.Ready P) :
    { s with stack := s.stack.popExtras.2, lookahead := none, reductions := 0 }.Ready P := by
  obtain ⟨above, rest, split, -, rest_eq, base, -, regular⟩ := s.stack.popExtras_spec
  rw [← rest_eq] at split regular
  obtain ⟨-, place⟩ := ready.settled.trees split
  have calm : ¬ s.stack.popExtras.2.Erred := by
    rw [Stack.erred_iff (List.nil_append _).symm nofun regular]
    exact nofun
  refine ⟨ready.table, ready.makes, base.trans ready.base, ready.settled.of_entries split base,
    ready.dated.of_entries split, fun erred => absurd erred calm, ?_, ready.remembers, ready.ahead⟩
  refine Nat.le_trans ?_ ready.inside
  rw [← place, Extent.add_bytes]
  exact Nat.le_add_right _ _

/-! ### From the old tree or the text -/

/-- Where the next token may come from, with the session afterwards. -/
inductive Fetches (s : Session) (state : StateId) : Option Subtree → Session → Prop
  | node {t : Subtree} {reuse : ReuseCursor}
      (found : s.reuse.find s.stack.topPosition.bytes state (s.lang.lexMode state)
        = (some (.node t), reuse)) :
      Fetches s state none
        ((({ s with reuse }.emit (.reusedNode t.symbol)).note s.stack.topPosition.bytes t).push t
          (s.lang.next state t.symbol) s.epoch)
  | token {t : Subtree} {reuse : ReuseCursor}
      (found : s.reuse.find s.stack.topPosition.bytes state (s.lang.lexMode state)
        = (some (.token t), reuse)) :
      Fetches s state (some t)
        (({ s with reuse }.emit (.reusedToken t.symbol)).note s.stack.topPosition.bytes t)
  | lexed {leaf : Subtree} {reuse : ReuseCursor} {s' : Session}
      (found : s.reuse.find s.stack.topPosition.bytes state (s.lang.lexMode state)
        = (none, reuse))
      (read : { s with reuse }.readLeaf state (s.lang.lexMode state) s.stack.topPosition.bytes
        = (leaf, s')) :
      Fetches s state (some leaf) (s'.note s.stack.topPosition.bytes leaf)

theorem nextLookahead_fetches (s : Session) (state : StateId) :
    s.Fetches state (s.nextLookahead state).1 (s.nextLookahead state).2 := by
  unfold nextLookahead
  dsimp only
  split
  · rename_i t found
    exact .node (Prod.ext found rfl)
  · rename_i t found
    exact .token (Prod.ext found rfl)
  · rename_i found
    exact .lexed (Prod.ext found rfl) rfl

/-- Without an old tree the next token is read. -/
theorem Fetches.scratch {state : StateId} {next : Option Subtree} (fetches : s.Fetches state next s')
    (scratch : s.reuse.pending = []) : s'.reuse.pending = [] ∧ next ≠ none := by
  have none : s.reuse.find s.stack.topPosition.bytes state (s.lang.lexMode state)
      = (none, ⟨s.reuse.offset, []⟩) := ReuseCursor.find_of_nil scratch
  cases fetches with
  | node found =>
    rw [none] at found
    cases found
  | token found =>
    rw [none] at found
    cases found
  | @lexed leaf reuse s'' found read =>
    rw [none] at found
    cases found
    have reading := Reading.readLeaf { s with reuse := ⟨s.reuse.offset, []⟩ } state
      (s.lang.lexMode state) s.stack.topPosition.bytes
    rw [read] at reading
    obtain ⟨⟨_, _, _, _, -, rfl⟩, -⟩ := reading
    exact ⟨rfl, nofun⟩

/-- What the old tree offers is what `P` holds of, and takes up text that is there. -/
theorem Ready.offered (ready : s.Ready P) {state : StateId} {found : Reuse}
    {reuse : ReuseCursor}
    (found_eq : s.reuse.find s.stack.topPosition.bytes state (s.lang.lexMode state)
      = (some found, reuse)) :
    ReuseCursor.Offers s.stack.topPosition.bytes state (s.lang.lexMode state) reuse found
      ∧ (∃ stop ≤ s.input.size, reuse.Ahead (Subtree.Fresh P) stop)
      ∧ ∀ t, reuse.pending.head? = some t → t.info.changed = false →
        Everywhere P s.stack.topPosition.bytes t
          ∧ s.stack.topPosition.bytes + t.size.bytes ≤ s.input.size := by
  obtain ⟨stop, inside, ahead⟩ := ready.ahead
  have after := ahead.findIn s.stack.topPosition.bytes state (s.lang.lexMode state)
  rw [ReuseCursor.find] at found_eq
  rw [found_eq] at after
  dsimp only at after
  have offers := ReuseCursor.findIn_offers found_eq
  have place : reuse.offset = s.stack.topPosition.bytes := by
    cases offers with
    | node place => exact place
    | token place => exact place
  refine ⟨offers, ⟨stop, inside, after⟩, fun t next unchanged => ?_⟩
  obtain ⟨fresh, room⟩ := after.next next
  rw [place] at fresh room
  exact ⟨fresh t 0 .here unchanged, by omega⟩

theorem takesToken_spec {mode : LexMode} (takes : ReuseCursor.takesToken t mode) :
    t.info.changed = false ∧ t.info.missing = false := by
  simp only [ReuseCursor.takesToken, Bool.and_eq_true, Bool.not_eq_true'] at takes
  exact ⟨takes.1.1.1, takes.1.2⟩

theorem takesNode_reusable {state : StateId} {mode : LexMode}
    (takes : ReuseCursor.takesNode t state mode) :
    t.isReusable = true ∧ t.info.parseState = state := by
  simp only [ReuseCursor.takesNode, Bool.and_eq_true, beq_iff_eq] at takes
  exact takes.1

theorem isReusable_spec (reusable : t.isReusable = true) :
    t.info.changed = false ∧ t.info.errorCost = 0 ∧ t.info.fragile = false
      ∧ t.info.missing = false ∧ 0 < t.size.bytes := by
  simp only [Subtree.isReusable, Subtree.hasError, Bool.and_eq_true, Bool.not_eq_true',
    decide_eq_false_iff_not, decide_eq_true_eq] at reusable
  obtain ⟨⟨⟨⟨unchanged, free⟩, firm⟩, present⟩, some⟩ := reusable
  exact ⟨unchanged, by omega, firm, present, some⟩

/-- A node that was taken over settles on the stack. -/
theorem Ready.reused (ready : s.Ready P) {reuse : ReuseCursor}
    (found : s.reuse.find s.stack.topPosition.bytes s.stack.topState
      (s.lang.lexMode s.stack.topState) = (some (.node t), reuse)) :
    (s.stack.push t (s.lang.next s.stack.topState t.symbol) s.epoch).Settled s.lang P
      ∧ (∀ seen ≥ s.seen,
        (s.stack.push t (s.lang.next s.stack.topState t.symbol) s.epoch).Dated s.epoch seen)
      ∧ t.extra = false
      ∧ s.stack.topPosition.bytes + t.size.bytes ≤ s.input.size := by
  obtain ⟨offers, -, offered⟩ := ready.offered found
  cases offers with
  | node place next inner takes =>
    obtain ⟨reusable, state⟩ := takesNode_reusable takes
    obtain ⟨unchanged, free, firm, -, -⟩ := isReusable_spec reusable
    obtain ⟨holds, room⟩ := offered t next unchanged
    have sound := ready.makes.sound (holds t 0 .here)
    have structural : t.extra = false := (sound.clean free).2.2.1 inner
    refine ⟨ready.settled.push s.epoch ?_, fun seen le => ?_, structural, room⟩
    · exact
        { position_eq := rfl
          holds
          extra_state := fun extra => absurd extra (by simp [structural])
          next_state := fun _ => rfl
          parseState_eq := fun _ => state
          shifted := fun _ leaf => absurd leaf inner }
    · refine (ready.dated.mono (Nat.le_refl _) le).push ready.dated.le (Nat.le_refl _) ?_ ?_
      · intro _ _ fragile
        rw [firm] at fragile
        cases fragile
      · intro extra
        rw [structural] at extra
        cases extra

/-- Whether it is read or taken over, the next token is there to be acted on, and what it depends
on was looked at. -/
theorem Ready.fetch (ready : s.Ready P) {next : Option Subtree}
    (fetches : s.Fetches s.stack.topState next s') :
    s'.Ready P ∧ ∀ t, next = some t →
      s'.stack = s.stack ∧ s'.Next P s.stack.topPosition.bytes t
        ∧ s.stack.topPosition.bytes + t.window ≤ s'.seen := by
  cases fetches with
  | @node t reuse found =>
    obtain ⟨settled, dated, structural, room⟩ := ready.reused found
    obtain ⟨-, ahead, -⟩ := ready.offered found
    exact ⟨⟨ready.table, ready.makes, ready.base, settled, dated _ (Nat.le_max_left _ _),
      fun erred => absurd erred (Stack.not_erred_push structural), room, ready.remembers, ahead⟩,
      nofun⟩
  | @token t reuse found =>
    obtain ⟨offers, ahead, offered⟩ := ready.offered found
    have reading := (Reading.emit { s with reuse } (.reusedToken t.symbol)).trans
      (.note _ s.stack.topPosition.bytes t)
    refine ⟨(ready.recursor ahead).reading reading, ?_⟩
    rintro _ ⟨⟩
    refine ⟨rfl, ?_, Nat.le_max_right _ _⟩
    cases offers with
    | token place next leaf some takes =>
      obtain ⟨unchanged, present⟩ := takesToken_spec takes
      obtain ⟨holds, room⟩ := offered t next unchanged
      exact ⟨leaf, holds t 0 .here, .inl ⟨some, room⟩, present⟩
  | @lexed leaf reuse s'' found read =>
    obtain ⟨stop, inside, ahead⟩ := ready.ahead
    have after := ahead.findIn s.stack.topPosition.bytes s.stack.topState
      (s.lang.lexMode s.stack.topState)
    have found : ReuseCursor.findIn _ _ _ _ _ = _ := found
    rw [found] at after
    have reading := Reading.readLeaf { s with reuse } s.stack.topState
      (s.lang.lexMode s.stack.topState) s.stack.topPosition.bytes
    have next : Next _ P s.stack.topPosition.bytes _ :=
      readLeaf_next (s := { s with reuse }) ready.makes ready.remembers s.stack.topState
        s.stack.topPosition.bytes
    rw [read] at reading next
    have noted := reading.trans (.note s'' s.stack.topPosition.bytes leaf)
    refine ⟨(ready.recursor ⟨stop, inside, after⟩).reading noted, ?_⟩
    rintro _ ⟨⟩
    exact ⟨noted.stack_eq, next.reading (.note _ _ _), Nat.le_max_right _ _⟩

/-! ### Shifts -/

theorem shift_restacks (s : Session) (state target : StateId) (t : Subtree) (extra : Bool) :
    Restacks s (s.shift state target t extra) :=
  ⟨_, _, _, _, rfl⟩

theorem shift_stack (s : Session) (state target : StateId) (t : Subtree) (extra : Bool) :
    (s.shift state target t extra).stack
      = s.stack.push (t.placed s.fresh state extra) target s.epoch :=
  rfl

theorem shift_topPosition (s : Session) (state target : StateId) (t : Subtree) (extra : Bool) :
    (s.shift state target t extra).stack.topPosition = s.stack.topPosition + t.size := by
  rw [← Subtree.placed_size t s.fresh state extra]
  rfl

/-- A token is pushed in the state the table leads to. -/
theorem Ready.shift (ready : s.Ready P) (next : s.Next P s.stack.topPosition.bytes t)
    {target : StateId}
    (action : s.lang.action? s.stack.topState t.symbol = some (.shift target)) :
    (s.shift s.stack.topState target t false).Ready P := by
  have made := ready.makes.shifted next.made next.leaf action s.fresh (Nat.le_refl _)
  refine ready.restack (s.shift_restacks ..) (Nat.le_succ _) rfl ?_ ?_ ?_ ?_
  · refine ready.settled.push s.epoch
      { position_eq := rfl
        holds := ?_
        extra_state := fun extra => absurd extra (by simp)
        next_state := fun _ => by
          rw [Subtree.placed_symbol, Language.next, action]
        parseState_eq := fun _ => Subtree.placed_parseState ..
        shifted := fun _ _ _ => by
          rw [Subtree.placed_symbol]
          exact action }
    rw [Subtree.everywhere_iff, Subtree.placed_children, next.leaf]
    exact ⟨made, Subtree.everywhereIn_nil⟩
  · refine ready.dated.push ready.dated.le (Nat.le_refl _) (fun _ inner => ?_) (fun extra => ?_)
    · rw [Subtree.placed_children, next.leaf] at inner
      exact absurd rfl inner
    · rw [Subtree.placed_extra] at extra
      cases extra
  · exact fun erred => absurd erred (Stack.not_erred_push (Subtree.placed_extra ..))
  · rw [shift_topPosition]
    exact next.inside ready.inside

/-- An extra is pushed without leaving the state. -/
theorem Ready.shiftExtra (ready : s.Ready P) (next : s.Next P s.stack.topPosition.bytes t)
    (noted : s.stack.topPosition.bytes + t.window ≤ s.seen) (regular : t.isError = false)
    (extra : (s.lang.traits t.symbol).extra = true) :
    (s.shift s.stack.topState s.stack.topState t true).Ready P := by
  have made := ready.makes.lifted next.made next.leaf regular next.present extra s.fresh
    (Nat.le_refl _) s.stack.topState
  have notError : (t.placed s.fresh s.stack.topState true).isError = false := by
    rw [Subtree.isError, Subtree.placed_symbol]
    exact regular
  refine ready.restack (s.shift_restacks ..) (Nat.le_succ _) rfl ?_ ?_ ?_ ?_
  · refine ready.settled.pushExtra s.epoch ?_ (Subtree.placed_extra ..) rfl
    rw [Subtree.everywhere_iff, Subtree.placed_children, next.leaf]
    exact ⟨made, Subtree.everywhereIn_nil⟩
  · refine ready.dated.push ready.dated.le (Nat.le_refl _) (fun regular => ?_) (fun _ _ => ?_)
    · rw [Subtree.placed_extra] at regular
      cases regular
    · rw [← ready.topPosition_eq, Subtree.placed_window]
      exact noted
  · intro erred
    exact (ready.stale (Stack.erred_pushExtra (Subtree.placed_extra ..) notError erred)).pushExtra
      (Subtree.placed_extra ..)
  · rw [shift_topPosition]
    exact next.inside ready.inside

/-! ### Reductions -/

/-- The node that a reduction makes of the entries `taken`, which lie on `under`. -/
def reducedNode (s : Session) (r : Reduction) (taken : List Entry) (under : Stack) : Subtree :=
  let children := Stack.trees taken
  let info := Summary.ofChildren s.lang r.symbol children r.production under.topState
  let stop := under.topPosition.bytes + info.size.bytes
  ⟨s.fresh,
    { info with
      precedence := info.precedence + r.precedence
      fragile := (taken.getLast?.map (·.epoch)).any (· != s.epoch)
      lookahead := max info.lookahead (s.seen - stop) },
    children⟩

/-- What a reduction leaves when the entries `above` lie on those it takes. -/
def reducedOver (s : Session) (r : Reduction) (above taken : List Entry) (under : Stack) : Session :=
  let target := s.lang.next under.topState r.symbol
  let stack := under.push (s.reducedNode r taken under) target
    ((taken.getLast?.map (·.epoch)).getD s.epoch)
  { s with
    stack := stack.pushAll (Stack.trees above) target s.epoch
    reductions := s.reductions + 1
    fresh := s.fresh + 1
    events := s.events.push (.reduced r.symbol (Stack.trees taken).length) }

section ReducedNode

variable (s : Session) (r : Reduction) (taken : List Entry) (under : Stack)

@[simp] theorem reducedNode_children : (s.reducedNode r taken under).children = Stack.trees taken :=
  rfl

@[simp] theorem reducedNode_size : (s.reducedNode r taken under).size = total (Stack.trees taken) :=
  Summary.ofChildren_size ..

@[simp] theorem reducedNode_symbol : (s.reducedNode r taken under).symbol = r.symbol :=
  Summary.ofChildren_symbol ..

@[simp] theorem reducedNode_extra : (s.reducedNode r taken under).extra = false :=
  Summary.ofChildren_extra ..

@[simp] theorem reducedNode_parseState :
    (s.reducedNode r taken under).info.parseState = under.topState :=
  Summary.ofChildren_parseState ..

theorem reducedNode_sums : (s.reducedNode r taken under).info.Sums (Stack.trees taken) :=
  (Summary.ofChildren_sums ..).reaching _ _ _

/-- What a node depends on was looked at when it was made, and that is all that was. -/
theorem reducedNode_seen_le :
    s.seen ≤ under.topPosition.bytes + (s.reducedNode r taken under).window := by
  have size : (s.reducedNode r taken under).size.bytes
      = (Summary.ofChildren s.lang r.symbol (Stack.trees taken) r.production
        under.topState).size.bytes := rfl
  have lookahead : s.seen - (under.topPosition.bytes + (s.reducedNode r taken under).size.bytes)
      ≤ (s.reducedNode r taken under).info.lookahead := Nat.le_max_right _ _
  rw [Subtree.window]
  omega

/-- A node depends on all that is taken into it. -/
theorem window_le_reducedNode {before after : List Subtree} {t : Subtree}
    (split : Stack.trees taken = before ++ t :: after) :
    (total before).bytes + t.window ≤ (s.reducedNode r taken under).window := by
  have within := (s.reducedNode_sums r taken under).window_le split
  rwa [Summary.reach] at within

end ReducedNode

/-- The parts of the stack that a reduction tells apart: the extras `above` stay on top, and the
entries `taken`, which lie on `under`, become a node. -/
structure Reduces (s : Session) (r : Reduction) (above taken : List Entry) (under : Stack) :
    Prop where
  split : s.stack.entries = above ++ (taken ++ under.entries)
  base : under.base = s.stack.base
  extras : ∀ e ∈ above, e.tree.extra = true
  regular : ∀ e ∈ (taken ++ under.entries).head?, e.tree.extra = false
  taken_eq : taken = Stack.takeCount r.count (taken ++ under.entries)
  eq : s.reduce r = s.reducedOver r above taken under

theorem reduces (s : Session) (r : Reduction) : ∃ above taken under,
    s.Reduces r above taken under := by
  obtain ⟨above, rest, split, extras, rest_eq, base, allExtra, regular⟩ := s.stack.popExtras_spec
  obtain ⟨taken, deeper, split', taken_eq, trees, epoch, deeper_eq, base'⟩ :=
    s.stack.popExtras.2.popCount_spec r.count
  rw [rest_eq] at split' taken_eq
  refine ⟨above, taken, (s.stack.popExtras.2.popCount r.count).2.2, ?_, base'.trans base,
    allExtra, ?_, ?_, ?_⟩
  · rw [deeper_eq, ← split']
    exact split
  · rw [deeper_eq, ← split']
    exact regular
  · rw [deeper_eq, ← split']
    exact taken_eq
  · rw [reducedOver, reducedNode, ← extras, ← trees, ← epoch]
    rfl

theorem reduce_restacks (s : Session) (r : Reduction) : Restacks s (s.reduce r) :=
  ⟨_, _, _, _, rfl⟩

section Reduces

variable {r : Reduction} {above taken : List Entry} {under : Stack}

theorem Reduces.under_settled (reduces : s.Reduces r above taken under)
    (settled : s.stack.Settled s.lang P) : under.Settled s.lang P :=
  settled.of_entries (reduces.split.trans (List.append_assoc _ _ _).symm) reduces.base

/-- The subtrees that are taken, and those above them, lie side by side. -/
theorem Reduces.holds (reduces : s.Reduces r above taken under)
    (settled : s.stack.Settled s.lang P) :
    EverywhereIn P under.topPosition.bytes (Stack.trees taken)
      ∧ EverywhereIn P (under.topPosition + total (Stack.trees taken)).bytes (Stack.trees above)
      ∧ under.topPosition + total (Stack.trees taken) + total (Stack.trees above)
        = s.stack.topPosition := by
  obtain ⟨holds, place⟩ := settled.trees (reduces.split.trans (List.append_assoc _ _ _).symm)
  rw [Stack.trees_append, Subtree.everywhereIn_append] at holds
  rw [Stack.trees_append, Subtree.total_append, ← add_assoc] at place
  exact ⟨holds.1, holds.2, place⟩

/-- They reach up to the top. -/
theorem Reduces.place_eq (reduces : s.Reduces r above taken under)
    (settled : s.stack.Settled s.lang P) :
    under.topPosition.bytes + (total (Stack.trees taken)).bytes + (total (Stack.trees above)).bytes
      = s.stack.topPosition.bytes := by
  obtain ⟨-, -, place⟩ := reduces.holds settled
  rw [← place, Extent.add_bytes, Extent.add_bytes]

/-- What the extras above depend on was looked at. -/
theorem Reduces.noted (reduces : s.Reduces r above taken under)
    (settled : s.stack.Settled s.lang P) {epoch seen : Nat} (dated : s.stack.Dated epoch seen) :
    Stack.Noted seen (under.topPosition.bytes + (total (Stack.trees taken)).bytes)
      (Stack.trees above) := by
  have bottom : under.topPosition = total (Stack.trees under.entries) :=
    (reduces.under_settled settled).positioned.eq_total
  have noting := dated.noted
  rw [reduces.split, Stack.trees_append, Stack.noted_append, Stack.trees_append,
    Subtree.total_append, ← bottom, Extent.add_bytes, Nat.zero_add] at noting
  exact noting.2

/-- The entries that are taken are settled on what they lie on. -/
theorem Reduces.over (reduces : s.Reduces r above taken under)
    (settled : s.stack.Settled s.lang P) :
    Stack.Over (fun e rest => e.Settled s.lang P (under.stateOver rest) (Stack.positionOver rest))
      (taken ++ under.entries) := by
  have held := settled
  unfold Stack.Settled at held
  rw [reduces.split, ← Stack.stateOver_congr reduces.base] at held
  exact held.beneath

/-- The state that the node is made in. -/
theorem Reduces.topState_eq (reduces : s.Reduces r above taken under)
    (settled : s.stack.Settled s.lang P) :
    s.stack.topState = s.stack.stateOver (taken ++ under.entries) :=
  settled.stateOver_extras reduces.split reduces.extras

/-- The count that the node gets. -/
def lowest (epoch : Nat) (taken : List Entry) : Nat :=
  (taken.getLast?.map (·.epoch)).getD epoch

theorem reducedNode_fragile (s : Session) (r : Reduction) (taken : List Entry) (under : Stack) :
    (s.reducedNode r taken under).info.fragile = (lowest s.epoch taken != s.epoch) := by
  rw [lowest]
  change (taken.getLast?.map (·.epoch)).any (· != s.epoch) = _
  cases taken.getLast? with
  | none => simp
  | some e => rfl

theorem Reduces.lowest_le (reduces : s.Reduces r above taken under) {seen : Nat}
    (dated : s.stack.Dated s.epoch seen) : lowest s.epoch taken ≤ s.epoch := by
  rw [lowest]
  cases last : taken.getLast? with
  | none => exact Nat.le_refl _
  | some e =>
    refine dated.le e ?_
    rw [reduces.split]
    exact List.mem_append_right _ (List.mem_append_left _ (List.mem_of_getLast? last))

theorem Reduces.le_lowest (reduces : s.Reduces r above taken under) {seen : Nat}
    (dated : s.stack.Dated s.epoch seen) : ∀ e ∈ under.entries, e.epoch ≤ lowest s.epoch taken := by
  intro e member
  have sorted := dated.sorted
  rw [reduces.split, List.pairwise_append, List.pairwise_append] at sorted
  rw [lowest]
  cases last : taken.getLast? with
  | none =>
    refine dated.le e ?_
    rw [reduces.split]
    exact List.mem_append_right _ (List.mem_append_right _ member)
  | some low => exact sorted.2.1.2.2 low (List.mem_of_getLast? last) e member

theorem Reduces.dated (reduces : s.Reduces r above taken under) {seen : Nat}
    (dated : s.stack.Dated s.epoch seen) :
    (s.reduce r).stack.Dated s.epoch seen := by
  rw [reduces.eq]
  have split := reduces.split.trans (List.append_assoc _ _ _).symm
  have noted := dated.noted
  rw [split, Stack.trees_append, Stack.noted_append, Nat.zero_add, Stack.trees_append] at noted
  have pushed := (dated.of_entries split).push (t := s.reducedNode r taken under)
    (q := s.lang.next under.topState r.symbol) (reduces.le_lowest dated) (reduces.lowest_le dated)
    (fun _ _ fragile => ?_) (fun extra => by simp at extra)
  · refine pushed.pushAll (fun t member => ?_) ?_
    · obtain ⟨e, inAbove, rfl⟩ := Stack.mem_trees.mp member
      exact reduces.extras e inAbove
    · have place : total (Stack.trees (under.push (s.reducedNode r taken under)
          (s.lang.next under.topState r.symbol) (lowest s.epoch taken)).entries)
          = total (Stack.trees under.entries) + total (Stack.trees taken) := by
        rw [Stack.push_entries, Stack.trees_cons, Subtree.total_append, Subtree.total_cons,
          Subtree.total_nil, add_zero, reducedNode_size]
      have noted := noted.2
      rw [Stack.noted_append] at noted
      rw [place, Extent.add_bytes]
      exact noted.2
  · rw [reducedNode_fragile, bne_iff_ne] at fragile
    exact Nat.lt_of_le_of_ne (reduces.lowest_le dated) fragile

/-- The node on the stack. -/
def reducedEntry (s : Session) (r : Reduction) (taken : List Entry) (under : Stack) : Entry where
  tree := s.reducedNode r taken under
  state := s.lang.next under.topState r.symbol
  position := under.topPosition + (s.reducedNode r taken under).size
  epoch := lowest s.epoch taken

/-- The entries that a reduction leaves: the extras are back on top of the node. -/
theorem Reduces.entries (reduces : s.Reduces r above taken under) : ∃ lifted,
    (s.reduce r).stack.entries = lifted ++ (s.reducedEntry r taken under :: under.entries)
      ∧ Stack.trees lifted = Stack.trees above ∧ ∀ e ∈ lifted, e.tree.extra = true := by
  rw [reduces.eq]
  obtain ⟨lifted, entries, trees, -⟩ := Stack.pushAll_entries
    (s := under.push (s.reducedNode r taken under) (s.lang.next under.topState r.symbol)
      (lowest s.epoch taken)) (Stack.trees above) (s.lang.next under.topState r.symbol) s.epoch
  refine ⟨lifted, entries, trees, fun e member => ?_⟩
  have : e.tree ∈ Stack.trees above := by
    rw [← trees]
    exact Stack.mem_trees.mpr ⟨e, member, rfl⟩
  obtain ⟨e', inAbove, is⟩ := Stack.mem_trees.mp this
  rw [← is]
  exact reduces.extras e' inAbove

/-- Extras on top stay errors or not. -/
theorem Reduces.erred_iff (reduces : s.Reduces r above taken under) :
    (s.reduce r).stack.Erred ↔ s.stack.Erred := by
  obtain ⟨lifted, entries, trees, extras⟩ := reduces.entries
  rw [Stack.erred_iff reduces.split reduces.extras reduces.regular,
    Stack.erred_iff entries extras (by rintro e ⟨⟩; exact reducedNode_extra ..)]
  have same (es : List Entry) : (∃ e ∈ es, e.tree.isError = true)
      ↔ ∃ t ∈ Stack.trees es, t.isError = true := by simp
  rw [same, same, trees]

/-- On a stale stack a reduction builds across a recovery, or makes a node of nothing, and the
stack stays stale. -/
theorem Reduces.stale (reduces : s.Reduces r above taken under)
    (stale : s.stack.Stale s.epoch) :
    ((s.reducedNode r taken under).info.fragile = true
        ∨ (s.reducedNode r taken under).size.bytes = 0)
      ∧ (s.reduce r).stack.Stale s.epoch := by
  obtain ⟨fresh, old, rest, empties, older⟩ :=
    stale.split reduces.split reduces.extras reduces.regular
  obtain ⟨lifted, entries, -, extras⟩ := reduces.entries
  rcases List.append_eq_append_iff.mp rest with ⟨more, rfl, under_eq⟩ | ⟨more, taken_eq, rfl⟩
  · have nothing : (s.reducedNode r taken under).size.bytes = 0 := by
      rw [reducedNode_size, Stack.total_trees_bytes_eq_zero]
      exact fun e member => (empties e (List.mem_append_left _ member)).2
    refine ⟨.inr nothing, lifted, s.reducedEntry r taken under :: more, old, ?_, extras, ?_, older⟩
    · rw [entries, under_eq]
      rfl
    · exact List.forall_mem_cons.mpr ⟨⟨reducedNode_extra .., nothing⟩,
        fun e member => empties e (List.mem_append_right _ member)⟩
  · cases last : more.getLast? with
    | none =>
      rw [List.getLast?_eq_none_iff.mp last, List.append_nil] at taken_eq
      rw [List.getLast?_eq_none_iff.mp last, List.nil_append] at older
      have nothing : (s.reducedNode r taken under).size.bytes = 0 := by
        rw [reducedNode_size, Stack.total_trees_bytes_eq_zero, taken_eq]
        exact fun e member => (empties e member).2
      refine ⟨.inr nothing, lifted, [s.reducedEntry r taken under], under.entries, entries, extras,
        ?_, older⟩
      exact List.forall_mem_singleton.mpr ⟨reducedNode_extra .., nothing⟩
    | some low =>
      have lowest_eq : lowest s.epoch taken = low.epoch := by
        rw [lowest, taken_eq, List.getLast?_append, last]
        rfl
      have before := older low (List.mem_append_left _ (List.mem_of_getLast? last))
      refine ⟨.inl ?_, lifted, [], s.reducedEntry r taken under :: under.entries, entries, extras,
        nofun, ?_⟩
      · rw [reducedNode_fragile, lowest_eq]
        exact bne_iff_ne.mpr (Nat.ne_of_lt before)
      · exact List.forall_mem_cons.mpr ⟨lt_of_eq_of_lt lowest_eq before,
          fun e member => older e (List.mem_append_right _ member)⟩

end Reduces

/-- A reduction covers the text that its children did. -/
theorem Ready.reduce_topPosition (ready : s.Ready P) (r : Reduction) :
    (s.reduce r).stack.topPosition = s.stack.topPosition := by
  obtain ⟨above, taken, under, reduces⟩ := s.reduces r
  obtain ⟨-, -, position⟩ := reduces.holds ready.settled
  rw [reduces.eq, reducedOver, ← position]
  dsimp only
  rw [Stack.topPosition_pushAll, Stack.topPosition_push, reducedNode_size]

/-- A reduction keeps a session ready if `P` holds of the node that it makes. -/
theorem Ready.reduce (ready : s.Ready P) {r : Reduction} {q : StateId} {symbol : Symbol}
    (action : s.lang.action? q symbol = some (.reduce r))
    (built : ∀ above taken under, s.Reduces r above taken under →
      P under.topPosition.bytes (s.reducedNode r taken under)) :
    (s.reduce r).Ready P := by
  obtain ⟨above, taken, under, reduces⟩ := s.reduces r
  have nonterminal := ready.table.reduces_ge r (Table.mem_cells_of_action? action).2
  obtain ⟨holds, holdsAbove, -⟩ := reduces.holds ready.settled
  have pushed := (reduces.under_settled ready.settled).push (t := s.reducedNode r taken under)
    (q := s.lang.next under.topState r.symbol) (lowest s.epoch taken)
    { position_eq := rfl
      holds := Subtree.everywhere_iff.mpr ⟨built above taken under reduces, holds⟩
      extra_state := fun extra => absurd extra (by simp)
      next_state := fun _ => by rw [reducedNode_symbol]
      parseState_eq := fun _ => reducedNode_parseState ..
      shifted := fun _ leaf some => by
        rw [reducedNode_symbol, reducedNode_size, ← reducedNode_children s r taken under, leaf] at some
        rcases some with some | terminal
        · cases some
        · exact absurd terminal (Nat.not_lt.mpr nonterminal) }
  have lifted := @Stack.Settled.pushAll _ _ _ pushed (Stack.trees above) s.epoch
    (by
      rw [Stack.topPosition_push, reducedNode_size]
      exact holdsAbove)
    (by
      intro t member
      obtain ⟨e, inAbove, rfl⟩ := Stack.mem_trees.mp member
      exact reduces.extras e inAbove)
  refine ready.restack (s.reduce_restacks r) (Nat.le_succ _) ?_ ?_ (reduces.dated ready.dated) ?_ ?_
  · rw [reduces.eq]
    exact (Stack.pushAll_base _ _ _).trans reduces.base
  · rw [reduces.eq]
    exact lifted
  · exact fun erred => (reduces.stale (ready.stale (reduces.erred_iff.mp erred))).2
  · rw [ready.reduce_topPosition r]
    exact ready.inside

/-- `P` holds of every node that a parse of `input` builds: before the token that comes next, or
before one that recovery pretends is there. The latter nodes are built across the recovery, or
are made of nothing. -/
structure Builds (lang : Language) (input : Array UInt8) (P : Nat → Subtree → Prop) : Prop where
  acted : ∀ {s : Session} {token : Subtree} {r : Reduction} {above taken : List Entry}
    {under : Stack}, s.lang = lang → s.input = input → s.Ready P →
    s.Next P s.stack.topPosition.bytes token →
    s.stack.topPosition.bytes + token.window ≤ s.seen →
    s.lang.action? s.stack.topState token.symbol = some (.reduce r) →
    s.Reduces r above taken under → P under.topPosition.bytes (s.reducedNode r taken under)
  inserted : ∀ {s : Session} {symbol : Symbol} {r : Reduction} {above taken : List Entry}
    {under : Stack}, s.lang = lang → s.input = input → s.Ready P →
    s.lang.action? s.stack.topState symbol = some (.reduce r) →
    s.Reduces r above taken under →
    (s.reducedNode r taken under).info.fragile = true
      ∨ (s.reducedNode r taken under).size.bytes = 0 →
    P under.topPosition.bytes (s.reducedNode r taken under)

end Session

end Reparse
