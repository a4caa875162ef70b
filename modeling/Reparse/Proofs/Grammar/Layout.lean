import Reparse.Proofs.Grammar.Soundness

/-!
How values lie in bytes.

A `Layout` says what encoding writes for a value and, byte by byte, how closely decoding looks at
what it reads there. `Layout.ReadBy` ties a reader to a layout: on the bytes of a value, followed
by anything, it gives that value and stops behind them; whatever else it reads, it finds a
corruption.

Readers in a row read layouts in a row (`Layout.ReadBy.bind`), and the layouts of single bytes,
numbers, texts and lists come with their readers. Of two values that are read off the front of the
same bytes, neither takes up more than the other (`Layout.ReadBy.prefix_free`).
-/

namespace Reparse

/-! ### Bytes that are read alike -/

/-- How decoding looks at a byte: at all of it, at a bit per trait, or at whether it is zero. -/
inductive ByteRole where
  | plain
  | traits
  | truth
  deriving DecidableEq, Repr

/-- The byte that encoding writes for what decoding reads in the given one. -/
def ByteRole.canonical : ByteRole → UInt8 → UInt8
  | plain, x => x
  | traits, x => x &&& 15
  | truth, x => if x = 0 then 0 else 1

/-- The bytes `w` are read like `bytes` by one who looks at each in its role. -/
def ReadsAs (roles : List ByteRole) (bytes w : List UInt8) : Prop :=
  w.length = roles.length ∧ List.zipWith ByteRole.canonical roles w = bytes

section

variable {roles roles' : List ByteRole} {bytes bytes' w : List UInt8}

theorem readsAs_nil : ReadsAs [] [] w ↔ w = [] := by
  simp [ReadsAs]

theorem readsAs_append (length : roles.length = bytes.length) :
    ReadsAs (roles ++ roles') (bytes ++ bytes') w ↔
      ∃ u v, w = u ++ v ∧ ReadsAs roles bytes u ∧ ReadsAs roles' bytes' v := by
  constructor
  · rintro ⟨all, reads⟩
    have front : roles.length = (w.take roles.length).length := by
      rw [List.length_take, all, List.length_append]
      omega
    rw [← List.take_append_drop roles.length w, List.zipWith_append front] at reads
    obtain ⟨first, second⟩ := List.append_inj reads (by
      rw [List.length_zipWith, ← front, Nat.min_self, length])
    refine ⟨_, _, (List.take_append_drop roles.length w).symm, ⟨front.symm, first⟩, ?_, second⟩
    rw [List.length_drop, all, List.length_append]
    omega
  · rintro ⟨u, v, rfl, ⟨lengthU, readsU⟩, ⟨lengthV, readsV⟩⟩
    refine ⟨by simp [lengthU, lengthV], ?_⟩
    rw [List.zipWith_append lengthU.symm, readsU, readsV]

theorem readsAs_plain {n : Nat} :
    ReadsAs (List.replicate n .plain) bytes w ↔ bytes.length = n ∧ w = bytes := by
  have same (w : List UInt8) :
      List.zipWith ByteRole.canonical (List.replicate w.length .plain) w = w := by
    induction w with
    | nil => rfl
    | cons x w ih => simpa [List.replicate_succ, ByteRole.canonical] using ih
  constructor
  · rintro ⟨length, reads⟩
    rw [List.length_replicate] at length
    subst length
    rw [same] at reads
    exact ⟨by rw [reads], reads⟩
  · rintro ⟨rfl, rfl⟩
    exact ⟨by simp, same w⟩

theorem readsAs_singleton {role : ByteRole} {b : UInt8} :
    ReadsAs [role] [b] w ↔ ∃ x, w = [x] ∧ role.canonical x = b := by
  constructor
  · rintro ⟨length, reads⟩
    obtain ⟨x, rfl⟩ := List.length_eq_one_iff.mp length
    exact ⟨x, rfl, by simpa using reads⟩
  · rintro ⟨x, rfl, rfl⟩
    exact ⟨rfl, rfl⟩

theorem zipWith_canonical_eq_self (length : roles.length = w.length) :
    List.zipWith ByteRole.canonical roles w = w ↔
      ∀ (i : Nat) (role : ByteRole) (x : UInt8),
        roles[i]? = some role → w[i]? = some x → role.canonical x = x := by
  rw [List.ext_getElem?_iff]
  refine forall_congr' fun i => ?_
  rw [List.getElem?_zipWith]
  by_cases inside : i < w.length
  · rw [List.getElem?_eq_getElem inside, List.getElem?_eq_getElem (length ▸ inside)]
    simp
  · rw [List.getElem?_eq_none (Nat.le_of_not_lt inside)]
    simp

end

/-! ### Readers in a row -/

namespace Decoding

variable {α β : Type} {first : Reader α} {second : α → Reader β} {s s' : Source}

theorem bind_of_ok {mid : Source} {a : α} (one : first s = .ok (a, mid)) :
    (first >>= second) s = second a mid := by
  change (first s >>= fun p => second p.1 p.2) = _
  rw [one]
  rfl

theorem bind_of_error {e : LoadError} (one : first s = .error e) :
    (first >>= second) s = .error e := by
  change (first s >>= fun p => second p.1 p.2) = _
  rw [one]
  rfl

theorem bind_eq_ok_iff {b : β} : (first >>= second) s = .ok (b, s') ↔
    ∃ a mid, first s = .ok (a, mid) ∧ second a mid = .ok (b, s') := by
  refine ⟨bind_eq_ok, ?_⟩
  rintro ⟨a, mid, one, two⟩
  rw [bind_of_ok one, two]

theorem bind_eq_error {e : LoadError} (h : (first >>= second) s = .error e) :
    first s = .error e ∨ ∃ a mid, first s = .ok (a, mid) ∧ second a mid = .error e := by
  cases one : first s with
  | error e' =>
    rw [bind_of_error one] at h
    cases h
    exact .inl rfl
  | ok p =>
    rw [bind_of_ok one] at h
    exact .inr ⟨p.1, p.2, rfl, h⟩

end Decoding

open Decoding

/-! ### Layouts -/

/-- How values of a type lie in bytes: what encoding writes for a value, the role of each of these
bytes, and the values for which there is room. What is written is canonical. -/
structure Layout (α : Type) where
  encode : α → List UInt8
  roles : α → List ByteRole
  Fits : α → Prop
  reads_encode : ∀ a, ReadsAs (roles a) (encode a) (encode a)

namespace Layout

variable {α β : Type}

/-- The bytes stand for the value. -/
def Written (f : Layout α) (a : α) (w : List UInt8) : Prop :=
  f.Fits a ∧ ReadsAs (f.roles a) (f.encode a) w

/-- The reader takes off the front what stands for a value and nothing else, and gives up only
over a corruption. -/
structure ReadBy (f : Layout α) (p : Reader α) : Prop where
  ok_iff : ∀ {s s' : Source} {a : α}, p s = .ok (a, s') ↔
    ∃ w, f.Written a w ∧ s.rest = w ++ s'.rest ∧ s'.offset = s.offset + w.length
  corrupt : ∀ {s : Source} {e : LoadError}, p s = .error e → ∃ c, e = .corrupt c

variable {f : Layout α} {g : Layout β} {p : Reader α} {q : Reader β}

theorem length_roles (f : Layout α) (a : α) : (f.roles a).length = (f.encode a).length :=
  (f.reads_encode a).1.symm

theorem Written.length_eq {a : α} {w : List UInt8} (written : f.Written a w) :
    w.length = (f.encode a).length :=
  written.2.1.trans (f.length_roles a)

theorem ReadBy.prefix_free (reads : f.ReadBy p) {a b : α} {w rest : List UInt8}
    (short : f.Written a w) (long : f.Written b (w ++ rest)) : rest = [] := by
  have one : p ⟨w ++ rest, 0⟩ = .ok (a, ⟨rest, 0 + w.length⟩) :=
    reads.ok_iff.mpr ⟨w, short, rfl, rfl⟩
  have two : p ⟨w ++ rest, 0⟩ = .ok (b, ⟨[], 0 + (w ++ rest).length⟩) :=
    reads.ok_iff.mpr ⟨w ++ rest, long, (List.append_nil _).symm, rfl⟩
  rw [one] at two
  exact congrArg (fun r => r.2.rest) (Except.ok.inj two)

/-- No bytes, for the one value that is known beforehand if there is one. -/
def settled (known : Option α) : Layout α where
  encode _ := []
  roles _ := []
  Fits a := known = some a
  reads_encode _ := readsAs_nil.mpr rfl

theorem pure_readBy (a : α) : (settled (some a)).ReadBy (pure a) where
  ok_iff {s s' b} := by
    constructor
    · intro h
      cases h
      exact ⟨[], ⟨rfl, readsAs_nil.mpr rfl⟩, rfl, rfl⟩
    · rintro ⟨w, ⟨known, none⟩, rest, offset⟩
      rw [readsAs_nil.mp none] at rest offset
      obtain ⟨_, _⟩ := s
      obtain ⟨_, _⟩ := s'
      cases known
      cases rest
      cases offset
      rfl
  corrupt := nofun

theorem corrupt_readBy (c : Corruption) :
    (settled none : Layout α).ReadBy (Decoding.corrupt c) where
  ok_iff := ⟨nofun, fun ⟨_, written, _⟩ => nomatch written.1⟩
  corrupt h := by
    cases h
    exact ⟨c, rfl⟩

/-- Values of another type, by the value that stands for each. -/
def view (f : Layout α) (project : β → α) (make : α → β) : Layout β where
  encode b := f.encode (project b)
  roles b := f.roles (project b)
  Fits b := f.Fits (project b) ∧ make (project b) = b
  reads_encode b := f.reads_encode (project b)

@[simp] theorem encode_view {project : β → α} {make : α → β} {b : β} :
    (f.view project make).encode b = f.encode (project b) :=
  rfl

@[simp] theorem roles_view {project : β → α} {make : α → β} {b : β} :
    (f.view project make).roles b = f.roles (project b) :=
  rfl

@[simp] theorem fits_view {project : β → α} {make : α → β} {b : β} :
    (f.view project make).Fits b ↔ f.Fits (project b) ∧ make (project b) = b :=
  Iff.rfl

theorem written_view {project : β → α} {make : α → β} {b : β} {w : List UInt8} :
    (f.view project make).Written b w ↔ f.Written (project b) w ∧ make (project b) = b :=
  and_right_comm

theorem ReadBy.view {project : β → α} {make : α → β} (reads : f.ReadBy p)
    (inverse : ∀ a, f.Fits a → project (make a) = a) :
    (f.view project make).ReadBy (do return make (← p)) where
  ok_iff {s s' b} := by
    simp only [bind_eq_ok_iff, reads.ok_iff, written_view]
    constructor
    · rintro ⟨a, mid, ⟨w, written, rest⟩, made⟩
      cases made
      have same := inverse a written.1
      exact ⟨w, ⟨same.symm ▸ written, congrArg make same⟩, rest⟩
    · rintro ⟨w, ⟨written, made⟩, rest⟩
      exact ⟨project b, s', ⟨w, written, rest⟩, by rw [made]; rfl⟩
  corrupt h := by
    rcases bind_eq_error h with h | ⟨_, _, -, h⟩
    · exact reads.corrupt h
    · cases h

/-- The same for a reader that comes to the other type in its own way. -/
theorem ReadBy.through {project : β → α} {make : α → β} (reads : f.ReadBy p)
    (inverse : ∀ a, f.Fits a → project (make a) = a) (same : q = do return make (← p)) :
    (f.view project make).ReadBy q :=
  same ▸ reads.view inverse

/-- A value, and behind it what hinges on that value. -/
def andThen (f : Layout α) (key : β → α) (g : α → Layout β) : Layout β where
  encode b := f.encode (key b) ++ (g (key b)).encode b
  roles b := f.roles (key b) ++ (g (key b)).roles b
  Fits b := f.Fits (key b) ∧ (g (key b)).Fits b
  reads_encode b := (readsAs_append (f.length_roles (key b))).mpr
    ⟨_, _, rfl, f.reads_encode (key b), (g (key b)).reads_encode b⟩

theorem written_andThen {key : β → α} {g : α → Layout β} {b : β} {w : List UInt8} :
    (f.andThen key g).Written b w ↔
      ∃ u v, w = u ++ v ∧ f.Written (key b) u ∧ (g (key b)).Written b v := by
  simp only [Written, andThen, readsAs_append (f.length_roles (key b))]
  constructor
  · rintro ⟨⟨fitsA, fitsB⟩, u, v, rfl, readsA, readsB⟩
    exact ⟨u, v, rfl, ⟨fitsA, readsA⟩, ⟨fitsB, readsB⟩⟩
  · rintro ⟨u, v, rfl, ⟨fitsA, readsA⟩, ⟨fitsB, readsB⟩⟩
    exact ⟨⟨fitsA, fitsB⟩, u, v, rfl, readsA, readsB⟩

theorem ReadBy.bind {key : β → α} {g : α → Layout β} {q : α → Reader β} (first : f.ReadBy p)
    (second : ∀ a, (g a).ReadBy (q a)) (keyed : ∀ a b, (g a).Fits b → key b = a) :
    (f.andThen key g).ReadBy (p >>= q) where
  ok_iff {s s' b} := by
    simp only [bind_eq_ok_iff, first.ok_iff, (second _).ok_iff, written_andThen]
    constructor
    · rintro ⟨a, mid, ⟨u, writtenA, rest, offset⟩, v, writtenB, rest', offset'⟩
      obtain rfl := keyed a b writtenB.1
      refine ⟨u ++ v, ⟨u, v, rfl, writtenA, writtenB⟩, ?_, ?_⟩
      · rw [rest, rest', List.append_assoc]
      · rw [offset', offset, List.length_append, Nat.add_assoc]
    · rintro ⟨_, ⟨u, v, rfl, writtenA, writtenB⟩, rest, offset⟩
      refine ⟨key b, ⟨v ++ s'.rest, s.offset + u.length⟩, ⟨u, writtenA, ?_, rfl⟩, v, writtenB,
        rfl, ?_⟩
      · rw [rest, List.append_assoc]
      · rw [offset, List.length_append, Nat.add_assoc]
  corrupt h := by
    rcases bind_eq_error h with h | ⟨a, mid, -, h⟩
    · exact first.corrupt h
    · exact (second a).corrupt h

/-- One value behind another. -/
def pair (f : Layout α) (g : Layout β) : Layout (α × β) :=
  f.andThen Prod.fst fun a => g.view Prod.snd (Prod.mk a)

@[simp] theorem encode_pair {both : α × β} :
    (f.pair g).encode both = f.encode both.1 ++ g.encode both.2 :=
  rfl

@[simp] theorem roles_pair {both : α × β} :
    (f.pair g).roles both = f.roles both.1 ++ g.roles both.2 :=
  rfl

@[simp] theorem fits_pair {both : α × β} :
    (f.pair g).Fits both ↔ f.Fits both.1 ∧ g.Fits both.2 :=
  and_congr_right fun _ => and_iff_left rfl

theorem ReadBy.pair (first : f.ReadBy p) (second : g.ReadBy q) :
    (f.pair g).ReadBy (do let a ← p; return (a, ← q)) :=
  first.bind (fun _ => second.view fun _ _ => rfl) fun _ _ fits => congrArg Prod.fst fits.2.symm

theorem ReadBy.ite {c : Prop} [Decidable c] {g : Layout α} {q : Reader α} (yes : f.ReadBy p)
    (no : g.ReadBy q) : (if c then f else g).ReadBy (if c then p else q) := by
  by_cases h : c
  · simpa [h] using yes
  · simpa [h] using no

/-- A reader may look at where it stands. -/
theorem ReadBy.located {q : Source → Reader α} (reads : ∀ s, f.ReadBy (q s)) :
    f.ReadBy (do q (← get)) where
  ok_iff {s _ _} := (reads s).ok_iff
  corrupt {s _} h := (reads s).corrupt h

/-! ### Bytes -/

section

variable {role : ByteRole} {toByte : α → UInt8}
  {canonical : ∀ a, role.canonical (toByte a) = toByte a}

/-- One byte, looked at in a role. -/
def single (role : ByteRole) (toByte : α → UInt8)
    (canonical : ∀ a, role.canonical (toByte a) = toByte a) : Layout α where
  encode a := [toByte a]
  roles _ := [role]
  Fits _ := True
  reads_encode a := readsAs_singleton.mpr ⟨_, rfl, canonical a⟩

@[simp] theorem encode_single {a : α} : (single role toByte canonical).encode a = [toByte a] :=
  rfl

@[simp] theorem roles_single {a : α} : (single role toByte canonical).roles a = [role] :=
  rfl

@[simp] theorem fits_single {a : α} : (single role toByte canonical).Fits a :=
  trivial

theorem single_readBy (ofByte : UInt8 → α)
    (same : ∀ a x, ofByte x = a ↔ role.canonical x = toByte a) (part : Part) :
    (single role toByte canonical).ReadBy (do return ofByte (← byte part)) where
  ok_iff {s s' a} := by
    rw [bind_eq_ok_iff]
    simp only [Written, single, true_and, readsAs_singleton, ← same]
    constructor
    · rintro ⟨x, mid, one, two⟩
      cases two
      unfold byte at one
      split at one
      · cases one
      · rename_i rest is
        cases one
        exact ⟨_, ⟨_, rfl, rfl⟩, is, rfl⟩
    · rintro ⟨_, ⟨x, rfl, rfl⟩, rest, offset⟩
      obtain ⟨_, _⟩ := s'
      cases offset
      refine ⟨x, _, ?_, rfl⟩
      simp only [byte, rest, List.cons_append, List.nil_append]
  corrupt {s e} h := by
    rcases bind_eq_error h with h | ⟨_, _, -, h⟩
    · unfold byte at h
      split at h
      · cases h
        exact ⟨_, rfl⟩
      · cases h
    · cases h

end

theorem canonical_byte (x : UInt8) : ByteRole.plain.canonical (id x) = id x :=
  rfl

abbrev byte : Layout UInt8 := single .plain id canonical_byte

theorem byte_readBy (part : Part) : byte.ReadBy (Decoding.byte part) := by
  have reads : byte.ReadBy (do return id (← Decoding.byte part)) :=
    single_readBy id (fun _ _ => Iff.rfl) part
  rwa [bind_pure_comp, id_map] at reads

theorem canonical_flag (b : Bool) :
    ByteRole.truth.canonical (Encoding.flag b) = Encoding.flag b := by
  cases b with
  | false => rfl
  | true => rfl

abbrev flag : Layout Bool := single .truth Encoding.flag canonical_flag

theorem flag_readBy (part : Part) : flag.ReadBy (Decoding.flag part) := by
  refine single_readBy (· != 0) (fun a x => ?_) part
  by_cases zero : x = 0
  · cases a <;> simp [zero, ByteRole.canonical, Encoding.flag]
  · cases a <;> simp [zero, ByteRole.canonical, Encoding.flag]

theorem ofFlags_flags (t : Traits) : Traits.ofFlags t.flags = t := by
  obtain ⟨visible, named, extra, supertype⟩ := t
  revert visible named extra supertype
  decide

theorem flags_ofFlags (x : UInt8) : (Traits.ofFlags x).flags = x &&& 15 := by
  have all : ∀ n : Fin 256, (Traits.ofFlags (.ofNat n)).flags = .ofNat n &&& 15 := by
    decide +kernel
  have := all ⟨x.toNat, x.toNat_lt⟩
  rwa [UInt8.ofNat_toNat] at this

theorem canonical_flags (t : Traits) : ByteRole.traits.canonical t.flags = t.flags := by
  rw [ByteRole.canonical, ← flags_ofFlags, ofFlags_flags]

abbrev traits : Layout Traits := single .traits Traits.flags canonical_flags

theorem ofFlags_and (x : UInt8) : Traits.ofFlags (x &&& 15) = Traits.ofFlags x := by
  simp only [Traits.ofFlags, UInt8.and_assoc]
  rfl

theorem traits_readBy (part : Part) :
    traits.ReadBy (do return Traits.ofFlags (← Decoding.byte part)) := by
  refine single_readBy Traits.ofFlags (fun t x => ?_) part
  constructor
  · rintro rfl
    exact (flags_ofFlags x).symm
  · intro same
    rw [← ofFlags_and, ← ofFlags_flags t]
    exact congrArg Traits.ofFlags same

/-- So many bytes. -/
def bytes (count : Nat) : Layout (List UInt8) where
  encode w := w
  roles w := List.replicate w.length .plain
  Fits w := w.length = count
  reads_encode _ := readsAs_plain.mpr ⟨rfl, rfl⟩

theorem written_bytes {count : Nat} {a w : List UInt8} :
    (bytes count).Written a w ↔ a.length = count ∧ w = a := by
  simp [Written, bytes, readsAs_plain]

theorem take_readBy (count : Nat) (part : Part) : (bytes count).ReadBy (take count part) where
  ok_iff {s s' a} := by
    simp only [written_bytes, take, List.splitAt_eq]
    constructor
    · intro h
      split at h
      · cases h
      · rename_i enough
        cases h
        rw [List.length_take] at enough
        have length : (s.rest.take count).length = count := by
          rw [List.length_take]
          omega
        exact ⟨_, ⟨length, rfl⟩, (List.take_append_drop count s.rest).symm, by rw [length]⟩
    · rintro ⟨w, ⟨rfl, rfl⟩, rest, offset⟩
      obtain ⟨_, _⟩ := s'
      cases offset
      simp only [rest, List.take_left, List.drop_left, Nat.lt_irrefl, if_false]
      rfl
  corrupt {s e} h := by
    simp only [take] at h
    split at h
    · cases h
      exact ⟨_, rfl⟩
    · cases h

/-! ### Numbers -/

theorem toNat_toUInt16 (n : Nat) : n.toUInt16.toNat = n % 65536 := by
  rw [Nat.toUInt16_eq, UInt16.toNat_ofNat']

theorem toUInt16_toNat (n : UInt16) : n.toNat.toUInt16 = n := by
  rw [Nat.toUInt16_eq, UInt16.ofNat_toNat]

theorem word_mod (n : Nat) : Encoding.word (n % 65536) = Encoding.word n := by
  simp only [Encoding.word, List.cons.injEq, and_true, ← UInt8.toNat_inj, UInt8.toNat_ofNat']
  omega

theorem ofDigits_word (n : Nat) : ofDigits (Encoding.word n) = n % 65536 := by
  simp only [Encoding.word, ofDigits, List.foldr, UInt8.toNat_ofNat']
  omega

theorem word_ofDigits {w : List UInt8} (length : w.length = 2) :
    Encoding.word (ofDigits w) = w := by
  match w, length with
  | [x, y], _ =>
    have := x.toNat_lt
    have := y.toNat_lt
    simp only [Encoding.word, ofDigits, List.foldr, List.cons.injEq, and_true, ← UInt8.toNat_inj,
      UInt8.toNat_ofNat']
    omega

theorem ofDigits_double (n : Nat) : ofDigits (Encoding.double n) = n % 4294967296 := by
  simp only [Encoding.double, ofDigits, List.foldr, UInt8.toNat_ofNat']
  omega

theorem double_ofDigits {w : List UInt8} (length : w.length = 4) :
    Encoding.double (ofDigits w) = w := by
  match w, length with
  | [x, y, z, v], _ =>
    have := x.toNat_lt
    have := y.toNat_lt
    have := z.toNat_lt
    have := v.toNat_lt
    simp only [Encoding.double, ofDigits, List.foldr, List.cons.injEq, and_true, ← UInt8.toNat_inj,
      UInt8.toNat_ofNat']
    omega

/-- A number below 2 ^ 16. -/
def word : Layout UInt16 :=
  (bytes 2).view (fun n => Encoding.word n.toNat) fun w => (ofDigits w).toUInt16

@[simp] theorem encode_word {n : UInt16} : word.encode n = Encoding.word n.toNat := rfl

@[simp] theorem roles_word {n : UInt16} : word.roles n = List.replicate 2 .plain := rfl

@[simp] theorem fits_word {n : UInt16} : word.Fits n := by
  have := n.toNat_lt
  refine ⟨rfl, ?_⟩
  simp [ofDigits_word]

theorem word_readBy (part : Part) : word.ReadBy (Decoding.word part) := by
  refine (take_readBy 2 part).view fun w length => ?_
  rw [toNat_toUInt16, word_mod, word_ofDigits length]

/-- A number below 2 ^ 32. -/
def double : Layout Nat := (bytes 4).view Encoding.double ofDigits

@[simp] theorem encode_double {n : Nat} : double.encode n = Encoding.double n := rfl

@[simp] theorem roles_double {n : Nat} : double.roles n = List.replicate 4 .plain := rfl

@[simp] theorem fits_double {n : Nat} : double.Fits n ↔ n < 4294967296 := by
  change (Encoding.double n).length = 4 ∧ ofDigits (Encoding.double n) = n ↔ _
  rw [ofDigits_double, and_iff_right (by rfl : (Encoding.double n).length = 4)]
  omega

theorem double_readBy (part : Part) : double.ReadBy (Decoding.double part) :=
  (take_readBy 4 part).view fun _ => double_ofDigits

/-! ### Texts -/

theorem toList_loop (b : ByteArray) (i : Nat) (before : List UInt8) :
    ByteArray.toList.loop b i before = before.reverse ++ b.data.toList.drop i := by
  fun_induction ByteArray.toList.loop b i before with
  | case1 i before inside ih =>
    have inside : i < b.data.toList.length := by simpa using inside
    have get : b.get! i = b.data.toList[i] := getElem!_pos b.data i inside
    rw [ih, List.drop_eq_getElem_cons inside, get, List.reverse_cons, List.append_assoc]
    rfl
  | case2 i before outside =>
    have outside : b.data.toList.length ≤ i := by simpa using outside
    rw [List.drop_eq_nil_of_le outside, List.append_nil]

theorem toList_eq (b : ByteArray) : b.toList = b.data.toList := by
  rw [ByteArray.toList, toList_loop, List.drop_zero]
  rfl

theorem length_toUTF8 (s : String) : s.toUTF8.toList.length = s.utf8ByteSize := by
  rw [toList_eq]
  rfl

theorem fromUTF8?_eq_some {w : List UInt8} {s : String} :
    String.fromUTF8? ⟨w.toArray⟩ = some s ↔ s.toUTF8.toList = w := by
  rw [toList_eq]
  unfold String.fromUTF8?
  constructor
  · intro h
    split at h
    · cases h
      rfl
    · cases h
  · rintro rfl
    exact dif_pos s.isValidUTF8

/-- A text behind its length. -/
def text : Layout String :=
  word.andThen (fun s => s.utf8ByteSize.toUInt16) fun length =>
    (bytes length.toNat).andThen (fun s => s.toUTF8.toList) fun w =>
      settled (String.fromUTF8? ⟨w.toArray⟩)

@[simp] theorem encode_text {s : String} : text.encode s = Encoding.text s := by
  change Encoding.word s.utf8ByteSize.toUInt16.toNat ++ (s.toUTF8.toList ++ []) = _
  rw [toNat_toUInt16, word_mod, List.append_nil]
  rfl

@[simp] theorem roles_text {s : String} :
    text.roles s = List.replicate (2 + s.utf8ByteSize) .plain := by
  change List.replicate 2 ByteRole.plain
    ++ (List.replicate s.toUTF8.toList.length ByteRole.plain ++ []) = _
  rw [length_toUTF8, List.append_nil, List.replicate_append_replicate]

@[simp] theorem fits_text {s : String} : text.Fits s ↔ s.utf8ByteSize ≤ 65535 := by
  change word.Fits _ ∧ s.toUTF8.toList.length = s.utf8ByteSize.toUInt16.toNat
    ∧ String.fromUTF8? _ = some s ↔ _
  rw [length_toUTF8, toNat_toUInt16, and_iff_right fits_word,
    and_iff_left (fromUTF8?_eq_some.mpr rfl)]
  omega

theorem text_readBy (part : Part) : text.ReadBy (Decoding.text part) := by
  refine (word_readBy part).bind (fun length => (take_readBy length.toNat part).bind
    (fun w => ?_) fun w s spelled => fromUTF8?_eq_some.mp spelled) ?_
  · cases String.fromUTF8? ⟨w.toArray⟩ with
    | none => exact corrupt_readBy _
    | some s => exact pure_readBy s
  · rintro length s ⟨size, -⟩
    change s.toUTF8.toList.length = length.toNat at size
    rw [length_toUTF8] at size
    rw [size, toUInt16_toNat]

/-! ### Lists -/

/-- Values one behind another, with nothing to say how many. -/
def row (f : Layout α) : Layout (List α) where
  encode items := items.flatMap f.encode
  roles items := items.flatMap f.roles
  Fits items := ∀ a ∈ items, f.Fits a
  reads_encode items := by
    induction items with
    | nil => exact readsAs_nil.mpr rfl
    | cons a items ih =>
      exact (readsAs_append (f.length_roles a)).mpr ⟨_, _, rfl, f.reads_encode a, ih⟩

theorem row_written_nil {w : List UInt8} : f.row.Written [] w ↔ w = [] := by
  simp [Written, row, readsAs_nil]

theorem row_written_cons {a : α} {items : List α} {w : List UInt8} :
    f.row.Written (a :: items) w ↔ ∃ u v, w = u ++ v ∧ f.Written a u ∧ f.row.Written items v := by
  simp only [Written, row, List.flatMap_cons, readsAs_append (f.length_roles a),
    List.forall_mem_cons]
  constructor
  · rintro ⟨⟨fits, others⟩, u, v, rfl, reads, rest⟩
    exact ⟨u, v, rfl, ⟨fits, reads⟩, others, rest⟩
  · rintro ⟨u, v, rfl, ⟨fits, reads⟩, others, rest⟩
    exact ⟨⟨fits, others⟩, u, v, rfl, reads, rest⟩

theorem repeated_eq_ok_iff (reads : f.ReadBy p) {count : Nat} {before got : Array α}
    {s s' : Source} : repeated p count before s = .ok (got, s') ↔
      ∃ (items : List α) (w : List UInt8), got = before ++ items ∧ items.length = count
        ∧ f.row.Written items w ∧ s.rest = w ++ s'.rest ∧ s'.offset = s.offset + w.length := by
  induction count generalizing before s with
  | zero =>
    simp only [repeated, List.length_eq_zero_iff]
    constructor
    · intro h
      cases h
      exact ⟨[], [], by simp, rfl, row_written_nil.mpr rfl, rfl, rfl⟩
    · rintro ⟨items, w, rfl, rfl, written, rest, offset⟩
      rw [row_written_nil.mp written] at rest offset
      obtain ⟨_, _⟩ := s
      obtain ⟨_, _⟩ := s'
      cases rest
      cases offset
      simp
  | succ count ih =>
    rw [repeated]
    constructor
    · intro h
      split at h
      · cases h
      · rename_i a mid one
        obtain ⟨u, writtenA, rest, offset⟩ := reads.ok_iff.mp one
        obtain ⟨items, v, rfl, length, written, rest', offset'⟩ := ih.mp h
        refine ⟨a :: items, u ++ v, by simp, by simp [length],
          row_written_cons.mpr ⟨u, v, rfl, writtenA, written⟩, ?_, ?_⟩
        · rw [rest, rest', List.append_assoc]
        · rw [offset', offset, List.length_append, Nat.add_assoc]
    · rintro ⟨items, w, rfl, length, written, rest, offset⟩
      obtain ⟨a, items, rfl⟩ := List.exists_cons_of_length_eq_add_one length
      obtain ⟨u, v, rfl, writtenA, written⟩ := row_written_cons.mp written
      have one : p s = .ok (a, ⟨v ++ s'.rest, s.offset + u.length⟩) :=
        reads.ok_iff.mpr ⟨u, writtenA, by rw [rest, List.append_assoc], rfl⟩
      simp only [one]
      refine ih.mpr ⟨items, v, by simp, by simpa using length, written, rfl, ?_⟩
      rw [offset, List.length_append, Nat.add_assoc]

theorem repeated_corrupt (reads : f.ReadBy p) {count : Nat} {before : Array α} {s : Source}
    {e : LoadError} (h : repeated p count before s = .error e) : ∃ c, e = .corrupt c := by
  induction count generalizing before s with
  | zero => cases h
  | succ count ih =>
    rw [repeated] at h
    split at h
    · rename_i one
      cases h
      exact reads.corrupt one
    · exact ih h

/-- So many values. -/
def array (f : Layout α) (count : Nat) : Layout (Array α) where
  encode items := f.row.encode items.toList
  roles items := f.row.roles items.toList
  Fits items := items.size = count ∧ f.row.Fits items.toList
  reads_encode items := f.row.reads_encode items.toList

@[simp] theorem encode_array {count : Nat} {items : Array α} :
    (f.array count).encode items = items.toList.flatMap f.encode :=
  rfl

@[simp] theorem roles_array {count : Nat} {items : Array α} :
    (f.array count).roles items = items.toList.flatMap f.roles :=
  rfl

@[simp] theorem fits_array {count : Nat} {items : Array α} :
    (f.array count).Fits items ↔ items.size = count ∧ ∀ a ∈ items, f.Fits a := by
  simp [array, row]

theorem many_readBy (reads : f.ReadBy p) (count : Nat) : (f.array count).ReadBy (many count p) where
  ok_iff {s s' got} := by
    rw [many, repeated_eq_ok_iff reads]
    constructor
    · rintro ⟨items, w, rfl, length, written, rest⟩
      refine ⟨w, ?_, rest⟩
      simpa [Written, array, length] using written
    · rintro ⟨w, ⟨⟨size, fits⟩, same⟩, rest⟩
      exact ⟨got.toList, w, by simp, by simpa using size, ⟨fits, same⟩, rest⟩
  corrupt := repeated_corrupt reads

/-- A list behind its length. -/
def counted (f : Layout α) : Layout (List α) :=
  word.andThen (fun items => items.length.toUInt16) fun count =>
    (f.array count.toNat).view List.toArray Array.toList

@[simp] theorem encode_counted {items : List α} :
    f.counted.encode items = Encoding.counted f.encode items := by
  change Encoding.word items.length.toUInt16.toNat ++ items.flatMap f.encode = _
  rw [toNat_toUInt16, word_mod]
  rfl

@[simp] theorem roles_counted {items : List α} :
    f.counted.roles items = List.replicate 2 .plain ++ items.flatMap f.roles :=
  rfl

@[simp] theorem fits_counted {items : List α} :
    f.counted.Fits items ↔ items.length ≤ 65535 ∧ ∀ a ∈ items, f.Fits a := by
  change word.Fits _ ∧ (items.toArray.size = items.length.toUInt16.toNat ∧ _) ∧ _ ↔ _
  rw [List.size_toArray, toNat_toUInt16, and_iff_right fits_word, and_iff_left rfl]
  refine and_congr ?_ Iff.rfl
  omega

theorem counted_readBy (reads : f.ReadBy p) (part : Part) :
    f.counted.ReadBy (Decoding.counted part p) := by
  refine (word_readBy part).bind (fun count => (many_readBy reads count.toNat).view ?_) ?_
  · intro items _
    exact Array.toArray_toList
  · rintro count items ⟨⟨size, -⟩, -⟩
    change items.toArray.size = count.toNat at size
    rw [List.size_toArray] at size
    rw [size, toUInt16_toNat]

end Layout

end Reparse
