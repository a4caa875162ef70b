import Reparse.Proofs.Syntax.Summary

/-!
Subtrees without what only the next parse needs.

A plain subtree has no stamp, and does not say in which state it was pushed, how far it looked
ahead, or whether it was built across a recovery. Nothing else that a parse makes depends on
these: nodes, error nodes and tokens that are made of plainly equal parts are plainly equal
(`Summary.ofChildren_plain`, `Subtree.errorNode_plain`, `Subtree.append_plain`).
-/

namespace Reparse

/-! ### Plain subtrees -/

def Summary.plain (s : Summary) : Summary :=
  { s with parseState := 0, lookahead := 0, fragile := false }

namespace Subtree

mutual

def plain : Subtree → Subtree
  | ⟨_, info, children⟩ => ⟨0, info.plain, plainAll children⟩

def plainAll : List Subtree → List Subtree
  | [] => []
  | t :: rest => t.plain :: plainAll rest

end

theorem plainAll_eq (ts : List Subtree) : plainAll ts = ts.map plain := by
  induction ts with
  | nil => rfl
  | cons t rest ih => rw [plainAll, ih, List.map_cons]

theorem plain_mk (stamp : Stamp) (info : Summary) (children : List Subtree) :
    plain ⟨stamp, info, children⟩ = ⟨0, info.plain, children.map plain⟩ := by
  rw [plain, plainAll_eq]

variable (t : Subtree)

theorem plain_eq : t.plain = ⟨0, t.info.plain, t.children.map plain⟩ := by
  obtain ⟨stamp, info, children⟩ := t
  exact plain_mk ..

@[simp] theorem plain_info : t.plain.info = t.info.plain := by rw [plain_eq]

@[simp] theorem plain_children : t.plain.children = t.children.map plain := by rw [plain_eq]

@[simp] theorem plain_symbol : t.plain.symbol = t.symbol := by rw [symbol, plain_info]; rfl

@[simp] theorem plain_size : t.plain.size = t.size := by rw [size, plain_info]; rfl

@[simp] theorem plain_extra : t.plain.extra = t.extra := by rw [extra, plain_info]; rfl

@[simp] theorem plain_visible : t.plain.visible = t.visible := by rw [visible, plain_info]; rfl

@[simp] theorem plain_isError : t.plain.isError = t.isError := by rw [isError, plain_symbol]; rfl

@[simp] theorem plain_isLeaf : t.plain.isLeaf = t.isLeaf := by simp [isLeaf]

end Subtree

/-! ### Plainly equal summaries -/

namespace Summary

variable {lang : Language} {s s' : Summary} {t t' : Subtree} {had had' more more' : List Subtree}

theorem plain_add (s : Summary) (t : Subtree) : (s.add t).plain = (s.plain.add t.plain).plain := by
  simp only [add, plain, Subtree.plain_size, Subtree.plain_info, Subtree.plain_visible,
    Subtree.plain_isLeaf]

theorem add_plain (same : s.plain = s'.plain) (child : t.plain = t'.plain) :
    (s.add t).plain = (s'.add t').plain := by
  rw [plain_add s, plain_add s', same, child]

theorem foldl_add_plain (same : s.plain = s'.plain)
    (children : more.map Subtree.plain = more'.map Subtree.plain) :
    (more.foldl add s).plain = (more'.foldl add s').plain := by
  induction more generalizing s s' more' with
  | nil =>
    rw [List.map_nil, eq_comm, List.map_eq_nil_iff] at children
    rw [children]
    exact same
  | cons t more ih =>
    rw [List.map_cons, eq_comm, List.map_eq_cons_iff] at children
    obtain ⟨t', more', rfl, child, children⟩ := children
    rw [List.foldl_cons, List.foldl_cons]
    exact ih (add_plain same child.symm) children.symm

theorem isError_of_plain (same : s.plain = s'.plain) : s.isError = s'.isError := by
  have := congrArg isError same
  exact this

theorem lexMode_opened_plain (same : s.plain = s'.plain)
    (before : had.map Subtree.plain = had'.map Subtree.plain)
    (after : more.map Subtree.plain = more'.map Subtree.plain) :
    (s.opened had more).lexMode = (s'.opened had' more').lexMode := by
  have lexMode : s.plain.lexMode = s'.plain.lexMode := by rw [same]
  cases had with
  | cons t had =>
    rw [List.map_cons, eq_comm, List.map_eq_cons_iff] at before
    obtain ⟨t', had', rfl, -, -⟩ := before
    exact lexMode
  | nil =>
    rw [List.map_nil, eq_comm, List.map_eq_nil_iff] at before
    subst before
    cases more with
    | nil =>
      rw [List.map_nil, eq_comm, List.map_eq_nil_iff] at after
      subst after
      exact lexMode
    | cons t more =>
      rw [List.map_cons, eq_comm, List.map_eq_cons_iff] at after
      obtain ⟨t', more', rfl, child, -⟩ := after
      have mode : t'.plain.info.lexMode = t.plain.info.lexMode := by rw [child]
      rw [Subtree.plain_info, Subtree.plain_info] at mode
      exact mode.symm

theorem opened_plain (same : s.plain = s'.plain)
    (before : had.map Subtree.plain = had'.map Subtree.plain)
    (after : more.map Subtree.plain = more'.map Subtree.plain) :
    (s.opened had more).plain = (s'.opened had' more').plain := by
  have count : had.length = had'.length := by
    rw [← had.length_map (f := Subtree.plain), before, List.length_map]
  have cost : (s.opened had more).errorCost = (s'.opened had' more').errorCost := by
    have own : s.plain.errorCost = s'.plain.errorCost := by rw [same]
    have size : s.plain.size = s'.plain.size := by rw [same]
    change s.errorCost = s'.errorCost at own
    change s.size = s'.size at size
    simp only [opened]
    rw [isError_of_plain same, own, size, count]
  calc (s.opened had more).plain
      = { s.plain with
          lexMode := (s.opened had more).lexMode
          errorCost := (s.opened had more).errorCost } := rfl
    _ = { s'.plain with
          lexMode := (s'.opened had' more').lexMode
          errorCost := (s'.opened had' more').errorCost } := by
        rw [same, lexMode_opened_plain same before after, cost]
    _ = (s'.opened had' more').plain := rfl

/-- What is appended to plainly equal summaries makes them plainly equal again. -/
theorem append_plain (same : s.plain = s'.plain)
    (before : had.map Subtree.plain = had'.map Subtree.plain)
    (after : more.map Subtree.plain = more'.map Subtree.plain) :
    (s.append had more).plain = (s'.append had' more').plain := by
  have all := foldl_add_plain (opened_plain same before after) after
  have count : had.length + more.length = had'.length + more'.length := by
    rw [← had.length_map (f := Subtree.plain), ← more.length_map (f := Subtree.plain), before,
      after, List.length_map, List.length_map]
  have cost : (more.foldl add (s.opened had more)).plain.errorCost
      = (more'.foldl add (s'.opened had' more')).plain.errorCost := by rw [all]
  have size : (more.foldl add (s.opened had more)).plain.size
      = (more'.foldl add (s'.opened had' more')).plain.size := by rw [all]
  have errorCost : (s.append had more).errorCost = (s'.append had' more').errorCost := by
    change (more.foldl add (s.opened had more)).errorCost = _ at cost
    change (more.foldl add (s.opened had more)).size = _ at size
    rw [append_eq, append_eq]
    dsimp only
    rw [isError_of_plain same, cost, size, count]
    rfl
  calc (s.append had more).plain
      = { (more.foldl add (s.opened had more)).plain with
          errorCost := (s.append had more).errorCost } := by rw [append_eq]; rfl
    _ = { (more'.foldl add (s'.opened had' more')).plain with
          errorCost := (s'.append had' more').errorCost } := by rw [all, errorCost]
    _ = (s'.append had' more').plain := by rw [append_eq]; rfl

/-- The summaries of plainly equal children are plainly equal, whatever the states. -/
theorem ofChildren_plain (lang : Language) (symbol : Symbol) (production : ProductionId)
    (q q' : StateId) (children : more.map Subtree.plain = more'.map Subtree.plain) :
    (ofChildren lang symbol more production q).plain
      = (ofChildren lang symbol more' production q').plain :=
  append_plain rfl rfl children

end Summary

/-! ### Plainly equal subtrees -/

namespace Subtree

variable {t t' : Subtree} {ts ts' : List Subtree} {extra : Bool}

theorem plain_ext {stamp stamp' : Stamp} {info info' : Summary} (same : info.plain = info'.plain)
    (children : ts.map plain = ts'.map plain) :
    plain ⟨stamp, info, ts⟩ = plain ⟨stamp', info', ts'⟩ := by
  rw [plain_mk, plain_mk, same, children]

theorem info_of_plain (same : t.plain = t'.plain) : t.info.plain = t'.info.plain := by
  rw [← plain_info, same, plain_info]

theorem children_of_plain (same : t.plain = t'.plain) :
    t.children.map plain = t'.children.map plain := by
  rw [← plain_children, same, plain_children]

theorem symbol_of_plain (same : t.plain = t'.plain) : t.symbol = t'.symbol := by
  rw [← plain_symbol, same, plain_symbol]

theorem size_of_plain (same : t.plain = t'.plain) : t.size = t'.size := by
  rw [← plain_size, same, plain_size]

theorem extra_of_plain (same : t.plain = t'.plain) : t.extra = t'.extra := by
  rw [← plain_extra, same, plain_extra]

theorem isError_of_plain (same : t.plain = t'.plain) : t.isError = t'.isError := by
  rw [← plain_isError, same, plain_isError]

theorem plain_placed (t : Subtree) (stamp : Stamp) (q : StateId) (extra : Bool) :
    (t.placed stamp q extra).plain = ⟨0, { t.info.plain with extra }, t.children.map plain⟩ := by
  unfold Subtree.placed
  split
  · rename_i is
    rw [plain_eq, ← is.2]
    rfl
  · exact plain_mk ..

theorem placed_plain (same : t.plain = t'.plain) (stamp stamp' : Stamp) (q q' : StateId)
    (extra : Bool) : (t.placed stamp q extra).plain = (t'.placed stamp' q' extra).plain := by
  rw [plain_placed, plain_placed, info_of_plain same, children_of_plain same]

/-- To be pushed as what it is makes no difference to a subtree. -/
theorem placed_same (is : t.extra = extra) (stamp : Stamp) (q : StateId) :
    (t.placed stamp q extra).plain = t.plain := by
  rw [plain_placed, plain_eq t, ← is]
  rfl

theorem errorNode_plain (lang : Language) (stamp stamp' : Stamp) (q q' : StateId)
    (children : ts.map plain = ts'.map plain) :
    (errorNode stamp lang ts q).plain = (errorNode stamp' lang ts' q').plain := by
  refine plain_ext ?_ children
  have same := Summary.ofChildren_plain lang Symbol.error 0 q q' children
  exact congrArg (fun p : Summary => { p with extra := true }) same

theorem append_plain (same : t.plain = t'.plain) (stamp stamp' : Stamp)
    (more : ts.map plain = ts'.map plain) :
    (t.append stamp ts).plain = (t'.append stamp' ts').plain := by
  refine plain_ext (Summary.append_plain (info_of_plain same) (children_of_plain same) more) ?_
  rw [List.map_append, List.map_append, children_of_plain same, more]

end Subtree

end Reparse
