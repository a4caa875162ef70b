import Reparse.Proofs.Parse.Roots
import Reparse.Proofs.Parse.Termination

/-!
Every node of a parse is a reduction of the table.

Children are taken off a stack on which extras, errors and missing tokens lie between the subtrees
that count. What makes the count come out is that errors are extras and missing tokens are none
(`Subtree.Accounted`), which is so of all that a parse makes (`Language.makes_accounted`) and hence
of the nodes that it builds of them (`Session.accounted_reduced`). Only a stack that ends too soon
gives a node fewer children, and then the node starts where the text does.
-/

namespace Reparse

open Subtree (total structural EverywhereIn Occurs OccursIn)

namespace Subtree

/-- A node is what a cell of the table reduces to: it has the symbol and the production of the cell,
and as many children as the cell counts, extras aside. It has fewer only if it starts the text. -/
structure Reduced (lang : Language) (place : Nat) (t : Subtree) (r : Reduction) : Prop where
  cell : ∃ q lookahead, lang.action? q lookahead = some (.reduce r)
  symbol_eq : t.symbol = r.symbol
  production_eq : t.info.production = r.production
  count_le : (structural t.children).length ≤ r.count
  starts : (structural t.children).length < r.count → place = 0

/-- A node is an error, which no reduction counts, or a reduction. A missing token takes up no text
and counts. -/
structure Accounted (lang : Language) (place : Nat) (t : Subtree) : Prop where
  sound : t.Sound lang
  node : t.children ≠ [] →
    t.isError = true ∧ t.extra = true ∨ t.extra = false ∧ ∃ r, t.Reduced lang place r
  missing : t.info.missing = true →
    t.size = 0 ∧ t.extra = false ∧ t.symbol.toNat < lang.table.tokenCount

variable {lang : Language} {place : Nat} {t : Subtree}

/-- What is accounted for is so all the more further to the start. -/
theorem Accounted.antitone {place' : Nat} (le : place' ≤ place) (accounted : t.Accounted lang place) :
    t.Accounted lang place' where
  sound := accounted.sound
  node inner := by
    refine (accounted.node inner).imp_right fun ⟨structural, r, reduced⟩ => ⟨structural, r, ?_⟩
    exact { reduced with starts := fun short => Nat.le_zero.mp (reduced.starts short ▸ le) }
  missing := accounted.missing

/-- A token may be pushed in any state, and as an extra unless it is missing. -/
theorem Accounted.placed (accounted : t.Accounted lang place) (leaf : t.children = [])
    (stamp : Stamp) (state : StateId) {extra : Bool}
    (counts : t.info.missing = true → extra = false) :
    (t.placed stamp state extra).Accounted lang place where
  sound := accounted.sound.placed leaf stamp state extra
  node inner := by
    rw [placed_children, leaf] at inner
    exact absurd rfl inner
  missing missing := by
    have same : (t.placed stamp state extra).info.missing = t.info.missing := by
      unfold Subtree.placed
      split <;> rfl
    rw [same] at missing
    obtain ⟨size, -, terminal⟩ := accounted.missing missing
    rw [placed_size, placed_extra, placed_symbol]
    exact ⟨size, counts missing, terminal⟩

end Subtree

open Subtree (Accounted)

variable {lang : Language} {input : Array UInt8} {first : Stamp}

/-- Tokens, missing tokens and errors are accounted for. -/
theorem Language.makes_accounted : lang.Makes input first (Accounted lang) where
  sound accounted := accounted.sound
  read {place} _ _ is stamp after :=
    have made : Subtree.Made lang input True place _ := makes_made.read is stamp after
    ⟨made.sound, fun inner => absurd rfl inner, nofun⟩
  shifted accounted leaf _ stamp _ := accounted.placed leaf stamp _ fun _ => rfl
  lifted accounted leaf _ present _ stamp _ state :=
    accounted.placed leaf stamp state fun missing => by
      rw [present] at missing
      cases missing
  missing terminal _ _ _ :=
    ⟨Subtree.missingLeaf_sound, fun inner => absurd rfl inner, fun _ => ⟨rfl, rfl, terminal⟩⟩
  errors sums error extra _ stamp _ := by
    refine ⟨sums.sound stamp, fun _ => .inl ⟨error, extra⟩, fun missing => ?_⟩
    rw [sums.present] at missing
    cases missing

namespace Session

variable {s : Session} {q : StateId} {symbol : Symbol} {r : Reduction} {above taken : List Entry}
  {under : Stack}

/-- A reduction takes as many subtrees as it counts, or all that there are. -/
theorem Reduces.count (reduces : s.Reduces r above taken under) :
    (structural (Stack.trees taken)).length ≤ r.count
      ∧ ((structural (Stack.trees taken)).length < r.count → under.entries = []) := by
  have le := Stack.takeCount_le r.count (taken ++ under.entries)
  have all := @Stack.takeCount_short r.count (taken ++ under.entries)
  rw [← reduces.taken_eq] at le all
  exact ⟨le, fun short => List.self_eq_append_right.mp (all short)⟩

theorem accounted_reduced (action : s.lang.action? q symbol = some (.reduce r))
    (reduces : s.Reduces r above taken under) :
    Accounted s.lang under.topPosition.bytes (s.reducedNode r taken under) where
  sound := (reducedNode_sums ..).sound _
  node _ := by
    obtain ⟨le, all⟩ := reduces.count
    refine .inr ⟨reducedNode_extra .., r, ⟨q, symbol, action⟩, reducedNode_symbol ..,
      Summary.ofChildren_production .., le, fun short => ?_⟩
    rw [Stack.topPosition, all short]
    rfl
  missing missing := by
    rw [(reducedNode_sums s r taken under).present] at missing
    cases missing

theorem builds_accounted : Builds lang input (Accounted lang) where
  acted is _ _ _ _ action reduces := is ▸ accounted_reduced action reduces
  inserted is _ _ action reduces _ := is ▸ accounted_reduced action reduces

/-- The root aside, what a parse leaves is accounted for. -/
theorem Rooted.accounted {root : Subtree} (rooted : Rooted lang input (Accounted lang) root) :
    EverywhereIn (Accounted lang) 0 root.children
      ∧ (root.info.missing = true → root.Accounted lang 0) := by
  obtain ⟨gone, parted, -⟩ := rooted.parted
  refine ⟨parted.holds_of_antitone fun le accounted => accounted.antitone le, fun missing => ?_⟩
  refine parted.made.resolve_right fun ⟨_, present⟩ => ?_
  rw [present] at missing
  cases missing

end Session

namespace Language

/-- Below the root of a tree parsed from scratch every node is an error, which is an extra, or it is
what a cell of the table reduces to. A missing token takes up no text and is no extra. -/
theorem parse_reductions {handle : Nat} {bytes : List UInt8} {scanner : Option Scanner}
    (loaded : Language.load handle bytes scanner = .ok lang) {options : Options} {fresh : Stamp}
    {t : Tree} (parsed : (lang.parse options input none fresh).tree = some t) :
    (∀ u x, OccursIn u t.root.children x → u.children ≠ [] →
        u.isError = true ∧ u.extra = true ∨ u.extra = false ∧ ∃ r, u.Reduced lang x.bytes r)
      ∧ ∀ u x, Occurs u t.root x → u.info.missing = true →
        u.children = [] ∧ u.size = 0 ∧ u.extra = false
          ∧ u.symbol.toNat < lang.table.tokenCount := by
  obtain ⟨-, last, ends⟩ := parse_ends parsed
  have good : (Session.start lang options input none fresh).Good (Accounted lang) :=
    Session.start_good (sound_of_load loaded) makes_accounted Session.builds_accounted none nofun
  obtain ⟨below, root⟩ := (good.ends ends).accounted
  have missing {place : Nat} {u : Subtree} (accounted : u.Accounted lang place)
      (missing : u.info.missing = true) : u.children = [] ∧ u.size = 0 ∧ u.extra = false
        ∧ u.symbol.toNat < lang.table.tokenCount := by
    refine ⟨?_, accounted.missing missing⟩
    by_contra inner
    rw [accounted.sound.present inner] at missing
    cases missing
  refine ⟨fun u x inside inner => ?_, fun u x inside absent => ?_⟩
  · have accounted := below u x inside
    rw [Nat.zero_add] at accounted
    exact accounted.node inner
  · rcases Subtree.occurs_iff.mp inside with ⟨rfl, -⟩ | inside
    · exact missing (root absent) absent
    · exact missing (below u x inside) absent

/-- Lists with a line break between two `a`s, which no token matches. -/
theorem ofLists_parse_reductions : ∃ t, (ofLists.parse {} #[97, 10, 97] none 0).tree = some t
    ∧ ∀ u x, OccursIn u t.root.children x → u.children ≠ [] →
      u.isError = true ∧ u.extra = true ∨ u.extra = false ∧ ∃ r, u.Reduced ofLists x.bytes r := by
  obtain ⟨t, parsed⟩ := ofLists_parse_isSome #[97, 10, 97]
  exact ⟨t, parsed, (parse_reductions load_ofLists parsed).1⟩

end Language

end Reparse
