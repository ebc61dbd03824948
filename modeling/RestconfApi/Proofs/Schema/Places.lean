import RestconfApi.Definitions.Basic

/-!
# Schema: where places are

`s.Has p` says that `p` is what stands in the schema at its address. The ways from a place to others lead
to such places again: to children, data children, templates, top statements and groupings found by
name. A place is determined by its address.
-/

namespace RestconfApi

namespace Place

/-! ### Going down -/

theorem descend_append (is js : List Nat) (p : Place) :
    descend (is ++ js) p = (descend is p).bind (descend js) := by
  induction is generalizing p with
  | nil => rfl
  | cons i is ih =>
    simp only [List.cons_append, descend]
    cases p.node.children[i]? with
    | none => rfl
    | some n => exact ih _

theorem address_of_descend {is : List Nat} {p q : Place} (h : descend is p = some q) :
    q.address = { p.address with path := p.address.path ++ is } := by
  induction is generalizing p with
  | nil =>
    obtain rfl := Option.some.inj h
    simp
  | cons i is ih =>
    simp only [descend] at h
    cases hn : p.node.children[i]? with
    | none => simp [hn] at h
    | some n =>
      rw [hn] at h
      rw [ih h]
      simp [Address.child]

/-- The child of a place at a position. -/
def childAt? (p : Place) (i : Nat) : Option Place :=
  p.node.children[i]?.map fun n => ⟨p.address.child i, n, p.node :: p.above⟩

theorem childAt?_of_getElem? (a : Address) (above : List Node) (st : Statement) {cs : List Node} {j : Nat} {n : Node}
    (h : cs[j]? = some n) : childAt? ⟨a, ⟨st, cs⟩, above⟩ j = some ⟨a.child j, n, ⟨st, cs⟩ :: above⟩ := by
  rw [childAt?, show (⟨st, cs⟩ : Node).children[j]? = some n from h]
  rfl

theorem descend_singleton (i : Nat) (p : Place) : descend [i] p = p.childAt? i := by
  simp only [descend, childAt?]
  cases p.node.children[i]? <;> rfl

/-! ### Children -/

theorem getElem?_ofChildren (a : Address) (above : List Node) (i : Nat) (ns : List Node) (j : Nat) :
    (ofChildren a above i ns)[j]? = ns[j]?.map fun n => ⟨a.child (i + j), n, above⟩ := by
  induction ns generalizing i j with
  | nil => simp [ofChildren]
  | cons n ns ih =>
    cases j with
    | zero => simp [ofChildren]
    | succ j =>
      rw [ofChildren, List.getElem?_cons_succ, List.getElem?_cons_succ, ih, Nat.add_right_comm, Nat.add_assoc]

theorem mem_ofChildren {a : Address} {above : List Node} {i : Nat} {ns : List Node} {x : Place} :
    x ∈ ofChildren a above i ns ↔ ∃ j n, ns[j]? = some n ∧ x = ⟨a.child (i + j), n, above⟩ := by
  simp only [List.mem_iff_getElem?, getElem?_ofChildren, Option.map_eq_some_iff]
  exact ⟨fun ⟨j, n, hn, hx⟩ => ⟨j, n, hn, hx.symm⟩, fun ⟨j, n, hn, hx⟩ => ⟨j, n, hn, hx.symm⟩⟩

theorem mem_children {p x : Place} : x ∈ p.children ↔ ∃ i, p.childAt? i = some x := by
  simp only [children, mem_ofChildren, childAt?, Option.map_eq_some_iff, Nat.zero_add]
  exact ⟨fun ⟨j, n, hn, hx⟩ => ⟨j, n, hn, hx.symm⟩, fun ⟨j, n, hn, hx⟩ => ⟨j, n, hn, hx.symm⟩⟩

theorem top_of_childAt? {p x : Place} {i : Nat} (h : p.childAt? i = some x) : x.top = p.top := by
  obtain ⟨n, -, rfl⟩ := Option.map_eq_some_iff.mp h
  simp only [top]
  cases p.above with
  | nil => rfl
  | cons m above =>
    rw [List.getLast?_cons_cons]
    simp [List.getLast?_eq_some_getLast]

/-! ### Data children -/

/-- `p.Through q`: choices and cases alone lead from `p` down to `q`, which is `p` or one of them. -/
inductive Through (p : Place) : Place → Prop
  | self : Through p p
  | step {q x : Place} {i : Nat} : Through p q → q.childAt? i = some x →
      x.node.kind.isTransparent = true → Through p x

theorem Through.trans {p q r : Place} (h : p.Through q) (h' : q.Through r) : p.Through r := by
  induction h' with
  | self => exact h
  | step _ hx ht ih => exact ih.step hx ht

theorem sizeOf_lt_of_childAt? {p x : Place} {i : Nat} (h : p.childAt? i = some x) :
    sizeOf x.node < sizeOf p.node := by
  obtain ⟨n, hn, rfl⟩ := Option.map_eq_some_iff.mp h
  have hmem := List.sizeOf_lt_of_mem (List.mem_of_getElem? hn)
  obtain ⟨a, ⟨s, cs⟩, above⟩ := p
  simp only [Node.mk.sizeOf_spec] at hmem ⊢
  omega

theorem dataOf_eq (a : Address) (above : List Node) (n : Node) :
    dataOf a above n =
      if n.kind.isTransparent then dataOfAll a (n :: above) 0 n.children else [⟨a, n, above⟩] := by
  obtain ⟨s, cs⟩ := n
  rw [dataOf]

theorem mem_dataOfAll {a : Address} {above : List Node} {i : Nat} {ns : List Node} {x : Place} :
    x ∈ dataOfAll a above i ns ↔ ∃ j n, ns[j]? = some n ∧ x ∈ dataOf (a.child (i + j)) above n := by
  induction ns generalizing i with
  | nil => simp [dataOfAll]
  | cons n ns ih =>
    simp only [dataOfAll, List.mem_append, ih]
    constructor
    · rintro (hx | ⟨j, m, hm, hx⟩)
      · exact ⟨0, n, rfl, hx⟩
      · exact ⟨j + 1, m, hm, by rwa [Nat.add_right_comm, Nat.add_assoc] at hx⟩
    · rintro ⟨j, m, hm, hx⟩
      cases j with
      | zero =>
        obtain rfl : n = m := by simpa using hm
        exact .inl hx
      | succ j => exact .inr ⟨j, m, hm, by rwa [Nat.add_right_comm, Nat.add_assoc]⟩

/-- A choice or a case hands on the data children of each of its children. -/
theorem mem_dataChildren_of_childAt? {p q : Place} {i : Nat} (h : p.childAt? i = some q) :
    (q.node.kind.isTransparent = false → q ∈ p.dataChildren) ∧
      (q.node.kind.isTransparent = true → ∀ x ∈ q.dataChildren, x ∈ p.dataChildren) := by
  obtain ⟨n, hn, rfl⟩ := Option.map_eq_some_iff.mp h
  refine ⟨fun ht => ?_, fun ht x hx => ?_⟩
  · refine mem_dataOfAll.mpr ⟨i, n, hn, ?_⟩
    rw [dataOf_eq, if_neg (by simpa using ht), Nat.zero_add]
    exact List.mem_singleton.mpr rfl
  · refine mem_dataOfAll.mpr ⟨i, n, hn, ?_⟩
    rw [dataOf_eq, if_pos ht, Nat.zero_add]
    exact hx

theorem exists_through_of_mem_dataChildren (p : Place) {x : Place} (hx : x ∈ p.dataChildren) :
    ∃ q i, p.Through q ∧ q.childAt? i = some x ∧ x.node.kind.isTransparent = false := by
  obtain ⟨i, n, hn, hx⟩ := mem_dataOfAll.mp hx
  rw [Nat.zero_add, dataOf_eq] at hx
  have hq : p.childAt? i = some ⟨p.address.child i, n, p.node :: p.above⟩ := by
    rw [childAt?, hn]
    rfl
  split at hx
  · rename_i ht
    have := sizeOf_lt_of_childAt? hq
    obtain ⟨r, j, hr, hj, hk⟩ :=
      exists_through_of_mem_dataChildren ⟨p.address.child i, n, p.node :: p.above⟩ hx
    exact ⟨r, j, (Through.self.step hq ht).trans hr, hj, hk⟩
  · rename_i ht
    obtain rfl := List.mem_singleton.mp hx
    exact ⟨p, i, .self, hq, by simpa using ht⟩
termination_by sizeOf p.node

/-- The data children are what stands below the place, or below choices and cases in it, and is itself
neither. -/
theorem mem_dataChildren {p x : Place} :
    x ∈ p.dataChildren ↔
      ∃ q i, p.Through q ∧ q.childAt? i = some x ∧ x.node.kind.isTransparent = false := by
  refine ⟨exists_through_of_mem_dataChildren p, ?_⟩
  rintro ⟨q, i, hq, hx, ht⟩
  have hmem := (mem_dataChildren_of_childAt? hx).1 ht
  clear hx
  induction hq with
  | self => exact hmem
  | step _ hc hk ih => exact ih ((mem_dataChildren_of_childAt? hc).2 hk _ hmem)

theorem Through.top_eq {p q : Place} (h : p.Through q) : q.top = p.top := by
  induction h with
  | self => rfl
  | step _ hc _ ih => rw [top_of_childAt? hc, ih]

theorem top_of_mem_dataChildren {p x : Place} (h : x ∈ p.dataChildren) : x.top = p.top := by
  obtain ⟨q, i, hq, hx, -⟩ := mem_dataChildren.mp h
  rw [top_of_childAt? hx, hq.top_eq]

theorem isWalked_of_mem_dataChildren {p x : Place} (h : x ∈ p.dataChildren) :
    x.isWalked = p.isWalked := by
  rw [isWalked, isWalked, top_of_mem_dataChildren h]

end Place

/-! ### Places of a schema -/

namespace Schema

variable {s : Schema}

/-- `p` is what stands in the schema at its address. -/
def Has (s : Schema) (p : Place) : Prop := s.place? p.address = some p

theorem Has.eq {p q : Place} (hp : s.Has p) (hq : s.Has q) (h : p.address = q.address) : p = q := by
  rw [Has, h, hq] at hp
  exact (Option.some.inj hp).symm

theorem address_of_place? {a : Address} {p : Place} (h : s.place? a = some p) : p.address = a := by
  obtain ⟨m, part, path⟩ := a
  simp only [place?, Option.bind_eq_bind, Option.bind_eq_some_iff] at h
  obtain ⟨module, -, h⟩ := h
  cases path with
  | nil => simp at h
  | cons i is =>
    simp only [Option.bind_eq_some_iff] at h
    obtain ⟨n, -, h⟩ := h
    rw [Place.address_of_descend h]
    simp [Address.child, Address.top]

theorem has_of_place? {a : Address} {p : Place} (h : s.place? a = some p) : s.Has p := by
  rw [Has, address_of_place? h, h]

theorem place?_child {a : Address} (ha : a.path ≠ []) (i : Nat) :
    s.place? (a.child i) = (s.place? a).bind fun p => p.childAt? i := by
  obtain ⟨m, part, path⟩ := a
  cases path with
  | nil => exact absurd rfl ha
  | cons j js =>
    simp only [place?, Address.child, List.cons_append, Option.bind_eq_bind]
    cases s.modules[m]? with
    | none => rfl
    | some module =>
      simp only [Option.bind_some]
      cases (module.part part)[j]? with
      | none => rfl
      | some n =>
        simp only [Option.bind_some, Place.descend_append]
        congr 1
        funext q
        exact Place.descend_singleton i q

theorem Has.path_ne_nil {p : Place} (h : s.Has p) : p.address.path ≠ [] := by
  intro hnil
  rw [Has] at h
  generalize p.address = a at h hnil
  obtain ⟨m, part, path⟩ := a
  obtain rfl : path = [] := hnil
  simp [place?] at h

/-- A place holds the place of each of its children. -/
theorem Has.childAt? {p x : Place} {i : Nat} (hp : s.Has p) (hx : p.childAt? i = some x) : s.Has x := by
  have haddr : x.address = p.address.child i := by
    obtain ⟨n, -, rfl⟩ := Option.map_eq_some_iff.mp hx
    rfl
  rw [Has, haddr, place?_child hp.path_ne_nil, show s.place? p.address = some p from hp]
  exact hx

/-- What stands at the address of a child is the child. -/
theorem Has.childAt?_of_address {p x : Place} {i : Nat} (hp : s.Has p) (hx : s.Has x)
    (h : x.address = p.address.child i) : p.childAt? i = some x := by
  rw [Has, h, place?_child hp.path_ne_nil, show s.place? p.address = some p from hp] at hx
  exact hx

theorem Has.through {p q : Place} (hp : s.Has p) (h : p.Through q) : s.Has q := by
  induction h with
  | self => exact hp
  | step _ hx _ ih => exact ih.childAt? hx

theorem Has.dataChild {p x : Place} (hp : s.Has p) (hx : x ∈ p.dataChildren) : s.Has x := by
  obtain ⟨q, i, hq, hx, -⟩ := Place.mem_dataChildren.mp hx
  exact (hp.through hq).childAt? hx

theorem has_of_mem_templatesFrom {fuel : Nat} {p t : Place} (h : t ∈ s.templatesFrom fuel p) :
    s.Has t := by
  induction fuel generalizing p with
  | zero => simp [templatesFrom] at h
  | succ fuel ih =>
    rw [templatesFrom] at h
    split at h
    · rename_i q hq
      rcases List.mem_cons.mp h with rfl | h
      · obtain ⟨a, -, ha⟩ := Option.bind_eq_some_iff.mp hq
        exact has_of_place? ha
      · exact ih h
    · simp at h

theorem has_of_mem_templates {p t : Place} (h : t ∈ s.templates p) : s.Has t :=
  has_of_mem_templatesFrom h

/-! ### Top statements and groupings -/

theorem has_of_mem_part {i : Nat} {m : Module} (hm : s.modules[i]? = some m) {part : Part}
    {p : Place} (hp : p ∈ Place.ofChildren (Address.top i part) [] 0 (m.part part)) : s.Has p := by
  obtain ⟨j, n, hn, rfl⟩ := Place.mem_ofChildren.mp hp
  simp [Has, place?, Address.child, Address.top, hm, hn, Place.descend]

theorem has_of_mem_tops {i : Nat} {part : Part} {p : Place} (h : p ∈ s.tops i part) : s.Has p := by
  rw [tops] at h
  split at h
  · exact has_of_mem_part ‹_› h
  · simp at h

theorem mem_of_module? {name : Name} {m : Module} {i : Nat} (h : s.module? name = some (m, i)) :
    s.modules[i]? = some m ∧ (m.name == name) = true := by
  obtain ⟨hmem, hname⟩ := And.intro (List.mem_of_find?_eq_some h) (List.find?_some h)
  exact ⟨(List.mem_zipIdx_iff_getElem?.mp hmem), hname⟩

theorem mem_of_moduleByPrefix? {tag : Name} {m : Module} {i : Nat}
    (h : s.moduleByPrefix? tag = some (m, i)) : s.modules[i]? = some m := by
  rw [moduleByPrefix?] at h
  split at h
  · rename_i hfound
    obtain rfl := Option.some.inj h
    exact (mem_of_module? hfound).1
  · exact List.mem_zipIdx_iff_getElem?.mp (List.mem_of_find?_eq_some h)

theorem Module.mem_listed {m : Module} {n : Node} (h : n ∈ m.listed) : m.listed = m.groupings := by
  unfold Module.listed at h ⊢
  split
  · simp_all
  · rfl

/-- A grouping that is found by name stands among the groupings of a module, under its own name. -/
theorem mem_of_grouping? {ref : String} {owner : Name} {g : Place} (h : s.grouping? ref owner = some g) :
    ∃ m i name, s.resolveName ref owner = (some (m, i), name) ∧ s.modules[i]? = some m ∧
      g ∈ Place.ofChildren (Address.top i .groupings) [] 0 m.groupings ∧ (g.node.name == name) = true := by
  rw [grouping?] at h
  split at h
  · rename_i m i name hr
    have hg := List.mem_of_find?_eq_some h
    have hname := List.find?_some h
    have hm : s.modules[i]? = some m := by
      simp only [resolveName] at hr
      split at hr <;> obtain ⟨hr, -⟩ := Prod.mk.inj hr
      · exact (mem_of_module? hr).1
      · exact mem_of_moduleByPrefix? hr
    refine ⟨m, i, name, hr, hm, ?_, hname⟩
    obtain ⟨j, n, hn, -⟩ := Place.mem_ofChildren.mp hg
    rwa [Module.mem_listed (List.mem_of_getElem? hn)] at hg
  · simp at h

theorem has_of_grouping? {ref : String} {owner : Name} {g : Place} (h : s.grouping? ref owner = some g) :
    s.Has g := by
  obtain ⟨m, i, -, -, hm, hg, -⟩ := mem_of_grouping? h
  exact has_of_mem_part hm hg

theorem has_of_groupingNamed? {qname : String} {g : Place} (h : s.groupingNamed? qname = some g) :
    s.Has g :=
  has_of_grouping? h

end Schema

end RestconfApi
