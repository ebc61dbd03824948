import RestconfApi.Proofs.Names
import RestconfApi.Proofs.Schema.Config
import RestconfApi.Proofs.Schema.Loaded

/-!
# Schema: what groupings supply

A node has whatever the nodes behind it have, its template, the template of this and so on. A grouping that has
supplied a node with one child has supplied it with a copy of each of the grouping's children.
-/

namespace RestconfApi

namespace Place

/-! ### Data children of children -/

theorem exists_child_of_mem_dataChildren {p x : Place} (hx : x ∈ p.dataChildren) :
    ∃ i c, p.childAt? i = some c ∧
      (c.node.kind.isTransparent = false ∧ x = c ∨ c.node.kind.isTransparent = true ∧ x ∈ c.dataChildren) := by
  obtain ⟨i, n, hn, hx⟩ := mem_dataOfAll.mp hx
  rw [Nat.zero_add, dataOf_eq] at hx
  refine ⟨i, ⟨p.address.child i, n, p.node :: p.above⟩, by rw [childAt?, hn]; rfl, ?_⟩
  split at hx
  · rename_i ht
    exact .inr ⟨ht, hx⟩
  · rename_i ht
    exact .inl ⟨by simpa using ht, List.mem_singleton.mp hx⟩

theorem Through.mem_dataChildren {p q x : Place} (h : p.Through q) (hx : x ∈ q.dataChildren) :
    x ∈ p.dataChildren := by
  obtain ⟨r, i, hr, hx, ht⟩ := Place.mem_dataChildren.mp hx
  exact Place.mem_dataChildren.mpr ⟨r, i, h.trans hr, hx, ht⟩

/-- Places whose children are related child by child have related data children. -/
theorem exists_dataChild_of {R : Place → Place → Prop}
    (hchild : ∀ {x y w : Place} {j : Nat}, R x y → y.childAt? j = some w →
      ∃ i v, x.childAt? i = some v ∧ R v w)
    (hkind : ∀ {x y : Place}, R x y → x.node.kind = y.node.kind) {x y w : Place} (h : R x y)
    (hw : w ∈ y.dataChildren) : ∃ v ∈ x.dataChildren, R v w := by
  obtain ⟨r, j, hr, hj, ht⟩ := Place.mem_dataChildren.mp hw
  have hthrough : ∃ q, x.Through q ∧ R q r := by
    clear hj
    induction hr with
    | self => exact ⟨x, .self, h⟩
    | step _ hc ht ih =>
      obtain ⟨q, hq, hqr⟩ := ih
      obtain ⟨i, v, hv, hvw⟩ := hchild hqr hc
      exact ⟨v, hq.step hv (by rw [hkind hvw]; exact ht), hvw⟩
  obtain ⟨q, hq, hqr⟩ := hthrough
  obtain ⟨i, v, hv, hvw⟩ := hchild hqr hj
  exact ⟨v, Place.mem_dataChildren.mpr ⟨q, i, hq, hv, by rw [hkind hvw]; exact ht⟩, hvw⟩

/-- Among nodes of different names a key names one at most. -/
theorem eq_of_named {ps : List Place}
    (h : ps.Pairwise fun x y => (x.node.name == y.node.name) = false) {x y : Place} (hx : x ∈ ps) (hy : y ∈ ps)
    {key : Scalar} (hxname : (x.node.name == .scalar key) = true)
    (hyname : (y.node.name == .scalar key) = true) : x = y :=
  Datum.eq_of_named h hx hy hxname hyname

end Place

namespace Schema

variable {s : Schema}

/-! ### Qualified names of groupings -/

theorem not_mem_splitName (ref : String) : ':' ∉ (splitName ref).2.toList := by
  unfold splitName
  split
  · rename_i a b h
    simpa using Text.not_mem_of_cutLast h
  · rename_i h
    exact Text.cutLast_eq_none_iff.mp h

theorem splitName_of_not_mem {name : String} (h : ':' ∉ name.toList) : splitName name = ("", name) := by
  rw [splitName, Text.cutLast_eq_none_iff.mpr h]

/-- Modules are told apart by their names, and a name can be read off from what it qualifies. -/
structure IsNamed (s : Schema) : Prop where
  distinct : ∀ {i j : Nat} {m m' : Module}, s.modules[i]? = some m → s.modules[j]? = some m' →
    (m.name == m'.name) = true → i = j
  names : ∀ m ∈ s.modules, ∃ name, m.name = .text name ∧ ':' ∉ name.toList

/-- Modules are told apart by different names without colons. -/
theorem isNamed_of_nodup {names : List String} (h : s.modules.map (·.name.asText?) = names.map some)
    (hnodup : names.Nodup) (hcolon : ∀ t ∈ names, ':' ∉ t.toList) : s.IsNamed := by
  have hname : ∀ {i : Nat} {m : Module}, s.modules[i]? = some m → ∃ t, names[i]? = some t ∧ m.name = .text t := by
    intro i m hm
    have hget : (names.map some)[i]? = some m.name.asText? := by rw [← h, List.getElem?_map, hm]; rfl
    rw [List.getElem?_map, Option.map_eq_some_iff] at hget
    obtain ⟨t, ht, htext⟩ := hget
    exact ⟨t, ht, Datum.eq_text_of_asText? htext.symm⟩
  refine ⟨fun {i j m m'} hm hm' heq => ?_, fun m hm => ?_⟩
  · obtain ⟨t, ht, hmt⟩ := hname hm
    obtain ⟨t', ht', hmt'⟩ := hname hm'
    rw [hmt, hmt'] at heq
    obtain rfl : t = t' := Scalar.text.inj (Datum.scalar.inj (Datum.eq_text_of_beq heq))
    exact (List.getElem?_inj (List.getElem?_eq_some_iff.mp ht).1 hnodup).mp (ht.trans ht'.symm)
  · obtain ⟨i, hi⟩ := List.mem_iff_getElem?.mp hm
    obtain ⟨t, ht, hmt⟩ := hname hi
    exact ⟨t, hmt, hcolon t (List.mem_of_getElem? ht)⟩

/-- The only module of a schema is told from others by any name without a colon. -/
theorem isNamed_of_single {m : Module} (hm : s.modules = [m]) {t : String}
    (hname : m.name = .text t) (hcolon : ':' ∉ t.toList) : s.IsNamed := by
  have hnames : s.modules.map (·.name.asText?) = [t].map some := by
    rw [hm, List.map_singleton, hname]
    rfl
  exact isNamed_of_nodup hnames (List.nodup_singleton t) (by simpa using hcolon)

theorem IsNamed.module? (h : s.IsNamed) {i : Nat} {m : Module} (hm : s.modules[i]? = some m) :
    s.module? m.name = some (m, i) := by
  obtain ⟨t, ht, -⟩ := h.names m (List.mem_of_getElem? hm)
  cases hfound : s.module? m.name with
  | none =>
    have hnone := List.find?_eq_none.mp hfound (m, i) (List.mem_zipIdx_iff_getElem?.mpr hm)
    simp [ht] at hnone
  | some found =>
    obtain ⟨m', j⟩ := found
    obtain ⟨hm', hname⟩ := mem_of_module? hfound
    obtain rfl := h.distinct hm' hm hname
    obtain rfl := Option.some.inj (hm'.symm.trans hm)
    rfl

theorem mem_tops_of_grouping? {ref : String} {owner : Name} {g : Place} (h : s.grouping? ref owner = some g) :
    ∃ i, g ∈ s.tops i .groupings := by
  obtain ⟨m, i, -, -, hm, hg, -⟩ := mem_of_grouping? h
  refine ⟨i, ?_⟩
  rw [tops, hm]
  exact hg

theorem part_of_groupingNamed? {qname : String} {g : Place} (h : s.groupingNamed? qname = some g) :
    g.address.part = .groupings := by
  obtain ⟨i, hg⟩ := mem_tops_of_grouping? (show s.grouping? _ _ = some g from h)
  exact part_of_mem_tops hg

/-- A grouping that a `uses` means is found under its qualified name too. -/
def KnowsGroupings (s : Schema) : Prop :=
  ∀ {ref : String} {owner : Name} {g : Place}, s.grouping? ref owner = some g →
    s.groupingNamed? g.node.qname = some g

theorem IsNamed.knowsGroupings (h : s.IsNamed) {augmented : Prop} {declared : Schema}
    {M : Expansion.Expanded} (hfrom : LoadedFrom augmented declared M s) : s.KnowsGroupings := by
  intro ref owner g hg
  obtain ⟨m, i, name, hresolve, hm, hmem, hname⟩ := mem_of_grouping? hg
  obtain ⟨t, ht, hcolon⟩ := h.names m (List.mem_of_getElem? hm)
  have howner : g.node.owner = .text t := by
    have htop : g ∈ s.tops i .groupings := by
      rw [tops, hm]
      exact hmem
    rw [← ht]
    exact hfrom.owner_of_mem_tops hm htop
  obtain rfl : name = .text (splitName ref).2 := (congrArg Prod.snd hresolve).symm
  have hgname := Datum.eq_text_of_beq hname
  have hqname : g.node.qname.toList = t.toList ++ ':' :: (splitName ref).2.toList := by
    rw [Statement.qname, howner, hgname, String.toList_append, String.toList_append, List.append_assoc]
    rfl
  have hmodule : s.module? (.text t) = some (m, i) := ht ▸ h.module? hm
  rw [groupingNamed?, hqname, Text.cutFirst_append hcolon]
  simp only [String.ofList_toList]
  rw [grouping?, resolveName, splitName_of_not_mem (not_mem_splitName ref)]
  rw [grouping?, hresolve] at hg
  simpa [hmodule] using hg

/-! ### What is behind a node -/

/-- `y` is `x`, its template, the template of this, and so on. -/
inductive IsBehind (s : Schema) (y : Place) : Place → Prop
  | self : IsBehind s y y
  | step {x t : Place} : s.template? x = some t → IsBehind s y t → IsBehind s y x

theorem IsBehind.trans {x y z : Place} (h : s.IsBehind y x) (h' : s.IsBehind z y) : s.IsBehind z x := by
  induction h with
  | self => exact h'
  | step ht _ ih => exact .step ht ih

theorem IsBehind.has {x y : Place} (h : s.IsBehind y x) (hx : s.Has x) : s.Has y := by
  induction h with
  | self => exact hx
  | step ht _ ih => exact ih (has_of_template? ht)

theorem isBehind_iff (hs : s.Ranked) {x y : Place} (hx : s.Has x) :
    s.IsBehind y x ↔ y ∈ x :: s.templates x := by
  constructor
  · intro h
    induction h with
    | self => exact List.mem_cons_self
    | step ht _ ih =>
      rw [templates_of_template? hs hx ht]
      exact List.mem_cons_of_mem _ (ih (has_of_template? ht))
  · obtain ⟨rank, hrank⟩ := id hs
    induction hn : rank x.address using Nat.strongRecOn generalizing x with
    | _ n ih =>
      subst hn
      intro hy
      rcases List.mem_cons.mp hy with rfl | hy
      · exact .self
      · cases ht : s.template? x with
        | none => simp [templates_of_none hs hx ht] at hy
        | some t =>
          rw [templates_of_template? hs hx ht] at hy
          exact .step ht (ih _ (hrank x t hx ht) (has_of_template? ht) rfl hy)

section Traced

variable {augmented : Prop} {rank : Address → Nat} (h : s.Traced augmented rank)
include h

theorem Traced.part_of_isBehind {x y : Place} (hx : s.Has x) (hy : s.IsBehind y x) :
    y = x ∨ y.address.part = .groupings := by
  induction hy with
  | self => exact .inl rfl
  | step ht _ ih =>
    right
    rcases ih (has_of_template? ht) with rfl | hpart
    · exact (h.isCopy hx ht).part
    · exact hpart

/-- All templates stand in groupings. -/
theorem Traced.part_of_mem_templates {x t : Place} (hx : s.Has x) (ht : t ∈ s.templates x) :
    t.address.part = .groupings := by
  cases hfirst : s.template? x with
  | none => simp [templates_of_none h.ranked hx hfirst] at ht
  | some first =>
    have hhas := has_of_template? hfirst
    rw [templates_of_template? h.ranked hx hfirst] at ht
    rcases h.part_of_isBehind hhas ((isBehind_iff h.ranked hhas).mpr ht) with rfl | hpart
    · exact (h.isCopy hx hfirst).part
    · exact hpart

/-- What copies have from their templates, a node has from all that is behind it. -/
theorem Traced.eq_of_isBehind {α : Type} (f : Statement → α) (hf : ∀ t s, t.Copies s → f s = f t) {x y : Place}
    (hx : s.Has x) (hy : s.IsBehind y x) : f y.node.toStatement = f x.node.toStatement := by
  induction hy with
  | self => rfl
  | step ht _ ih => exact (ih (has_of_template? ht)).trans (hf _ _ (h.isCopy hx ht).copies).symm

theorem Traced.kind_of_isBehind {x y : Place} (hx : s.Has x) (hy : s.IsBehind y x) :
    y.node.kind = x.node.kind :=
  h.eq_of_isBehind Statement.kind (fun _ _ hc => hc.kind) hx hy

theorem Traced.childAt?_of_isBehind {x y w : Place} {j : Nat} (hx : s.Has x) (hy : s.IsBehind y x)
    (hw : y.childAt? j = some w) : ∃ v, x.childAt? j = some v ∧ s.IsBehind w v := by
  induction hy with
  | self => exact ⟨w, hw, .self⟩
  | step ht _ ih =>
    obtain ⟨v, hv, hwv⟩ := ih (has_of_template? ht)
    obtain ⟨v', hv', htemplate, -⟩ := (h.isCopy hx ht).child j v hv
    exact ⟨v', hv', .step htemplate hwv⟩

/-! ### Data children of what is behind a node -/

/-- `y` is behind `x`, and if `even` holds, they are both configuration or both not. -/
structure Mirrors (s : Schema) (even : Prop) (y x : Place) : Prop where
  behind : s.IsBehind y x
  config : even → y.node.config = x.node.config

omit h in
theorem Mirrors.trans {even : Prop} {x y z : Place} (hy : s.Mirrors even y x) (hz : s.Mirrors even z y) :
    s.Mirrors even z x :=
  ⟨hy.behind.trans hz.behind, fun he => (hz.config he).trans (hy.config he)⟩

/-- Children at the same place take the config flags of their parents on alike. -/
theorem Traced.config_of_childAt? (hconfig : s.Configured) {p q x y : Place} {i j : Nat} (hp : s.Has p)
    (hq : s.Has q) (hpart : p.address.part ≠ .rpcs) (hpart' : q.address.part ≠ .rpcs)
    (hc : q.node.config = p.node.config) (hx : p.childAt? i = some x) (hy : q.childAt? j = some y)
    (hb : s.IsBehind y x) : y.node.config = x.node.config := by
  have hdeclared := h.eq_of_isBehind Statement.declaredConfig (fun _ _ hc => hc.declaredConfig)
    (hp.childAt? hx) hb
  rw [hconfig.child hp hpart hx, hconfig.child hq hpart' hy, hc, hdeclared]

/-- Each data child of what is behind a node is behind a data child of the node. -/
theorem Traced.exists_dataChild {even : Prop} (hconfig : even → s.Configured) {x y w : Place} (hx : s.Has x)
    (hpart : even → x.address.part ≠ .rpcs) (hy : s.Mirrors even y x) (hw : w ∈ y.dataChildren) :
    ∃ v ∈ x.dataChildren, s.Mirrors even w v := by
  refine (Place.exists_dataChild_of
    (R := fun x y => s.Has x ∧ (even → x.address.part ≠ .rpcs) ∧ s.Mirrors even y x) ?_ ?_ ⟨hx, hpart, hy⟩
    hw).imp fun v hv => ⟨hv.1, hv.2.2.2⟩
  · rintro x y w j ⟨hx, hpart, hy⟩ hw
    obtain ⟨v, hv, hwv⟩ := h.childAt?_of_isBehind hx hy.behind hw
    refine ⟨j, v, hv, hx.childAt? hv, fun he => by rw [Place.part_of_childAt? hv]; exact hpart he, hwv,
      fun he => ?_⟩
    refine h.config_of_childAt? (hconfig he) hx (hy.behind.has hx) (hpart he) ?_ (hy.config he) hv hw hwv
    rcases h.part_of_isBehind hx hy.behind with rfl | hgroupings
    · exact hpart he
    · simp [hgroupings]
  · rintro x y ⟨hx, -, hy⟩
    exact (h.kind_of_isBehind hx hy.behind).symm

/-! ### Nodes of one origin -/

omit h in
/-- There is something behind both nodes. -/
def Akin (s : Schema) (x y : Place) : Prop := ∃ t, s.IsBehind t x ∧ s.IsBehind t y

omit h in
theorem Akin.symm {x y : Place} (hxy : s.Akin x y) : s.Akin y x := by
  obtain ⟨t, htx, hty⟩ := hxy
  exact ⟨t, hty, htx⟩

omit h in
theorem IsBehind.akin {x y : Place} (hy : s.IsBehind y x) : s.Akin x y := ⟨y, hy, .self⟩

omit h in
theorem IsBehind.total {x y z : Place} (hy : s.IsBehind y x) (hz : s.IsBehind z x) :
    s.IsBehind y z ∨ s.IsBehind z y := by
  induction hy with
  | self => exact .inr hz
  | step ht _ ih =>
    cases hz with
    | self => exact .inl (.step ht ‹_›)
    | step ht' hz =>
      obtain rfl := Option.some.inj (ht.symm.trans ht')
      exact ih hz

omit h in
theorem Akin.trans {x y z : Place} (hxy : s.Akin x y) (hyz : s.Akin y z) : s.Akin x z := by
  obtain ⟨t, htx, hty⟩ := hxy
  obtain ⟨t', ht'y, ht'z⟩ := hyz
  rcases hty.total ht'y with hbehind | hbehind
  · exact ⟨t, htx, ht'z.trans hbehind⟩
  · exact ⟨t', htx.trans hbehind, ht'z⟩

/-- What copies have from their templates, nodes of one origin have in common. -/
theorem Traced.eq_of_akin {α : Type} (f : Statement → α) (hf : ∀ t s, t.Copies s → f s = f t) {x y : Place}
    (hx : s.Has x) (hy : s.Has y) (hxy : s.Akin x y) : f x.node.toStatement = f y.node.toStatement := by
  obtain ⟨t, htx, hty⟩ := hxy
  exact (h.eq_of_isBehind f hf hx htx).symm.trans (h.eq_of_isBehind f hf hy hty)

/-- Where nothing has been added, each child of a node has what is behind the node behind it. -/
theorem Traced.exists_childAt?_behind (haugmented : ¬augmented) {x y v : Place} {j : Nat} (hx : s.Has x)
    (hy : s.IsBehind y x) (hv : x.childAt? j = some v) : ∃ w, y.childAt? j = some w ∧ s.IsBehind w v := by
  induction hy generalizing v with
  | self => exact ⟨v, hv, .self⟩
  | @step x t ht _ ih =>
    have hcopy := h.isCopy hx ht
    cases hu : t.childAt? j with
    | none => exact absurd (hcopy.more j v hv hu).2.1 haugmented
    | some u =>
      obtain ⟨v', hv', htemplate, -⟩ := hcopy.child j u hu
      obtain rfl := Option.some.inj (hv.symm.trans hv')
      obtain ⟨w, hw, hwu⟩ := ih (has_of_template? ht) hu
      exact ⟨w, hw, .step htemplate hwu⟩

/-- Where nothing has been added, nodes of one origin have data children of one origin. -/
theorem Traced.exists_akin_dataChild (haugmented : ¬augmented) {x y w : Place} (hx : s.Has x) (hy : s.Has y)
    (hxy : s.Akin x y) (hw : w ∈ y.dataChildren) : ∃ v ∈ x.dataChildren, s.Akin v w := by
  refine (Place.exists_dataChild_of (R := fun x y => s.Has x ∧ s.Has y ∧ s.Akin x y) ?_ ?_ ⟨hx, hy, hxy⟩
    hw).imp fun v hv => ⟨hv.1, hv.2.2.2⟩
  · rintro x y w j ⟨hx, hy, t, htx, hty⟩ hw
    obtain ⟨u, hu, huw⟩ := h.exists_childAt?_behind haugmented hy hty hw
    obtain ⟨v, hv, huv⟩ := h.childAt?_of_isBehind hx htx hu
    exact ⟨j, v, hv, hx.childAt? hv, hy.childAt? hw, u, huv, huw⟩
  · rintro x y ⟨hx, hy, hxy⟩
    exact h.eq_of_akin Statement.kind (fun _ _ hc => hc.kind) hx hy hxy

end Traced

/-! ### Suppliers -/

theorem mem_supplierChain (hs : s.Ranked) {x : Place} (hx : s.Has x) {q : String} :
    q ∈ s.supplierChain x ↔ ∃ a, x.node.addedBy = some a ∧
      (q = a ∨ ∃ t, s.template? x = some t ∧ q ∈ s.supplierChain t) := by
  have hunfold : s.supplierChain x =
      x.node.addedBy.elim [] fun a => a :: (s.template? x).elim [] s.supplierChain := by
    unfold supplierChain
    rw [templates_eq hs hx, List.map_cons]
    cases ha : x.node.addedBy with
    | none => simp [List.takeWhile]
    | some a => cases ht : s.template? x <;> simp [List.takeWhile]
  rw [hunfold]
  cases ha : x.node.addedBy with
  | none => simp
  | some a => cases ht : s.template? x <;> simp

section Traced

variable {augmented : Prop} {rank : Address → Nat} (h : s.Traced augmented rank)
include h

/-- A child that a grouping has supplied comes with copies of all its siblings: from the grouping, or from the
template of the node. They have been supplied by the same grouping, or by what supplied what they are copies of. -/
theorem Traced.exists_origin {m e : Place} {i : Nat} (hm : s.Has m) (he : m.childAt? i = some e) {a : String}
    (ha : e.node.addedBy = some a) :
    ∃ n j y, s.Has n ∧ rank n.address < rank m.address ∧ n.childAt? j = some y ∧ s.template? e = some y ∧
      ((∃ ref owner, s.grouping? ref owner = some n ∧ a = n.node.qname) ∧ m.node.uses ≠ [] ∧
          (∀ k w, n.childAt? k = some w →
            ∃ l x, m.childAt? l = some x ∧ s.template? x = some w ∧ x.node.addedBy = some a) ∨
        y.node.addedBy = some a ∧ n.node.uses = m.node.uses ∧
          ∀ k w, n.childAt? k = some w →
            ∃ l x, m.childAt? l = some x ∧ s.template? x = some w ∧ x.node.addedBy = w.node.addedBy) := by
  cases hnone : m.node.template with
  | none =>
    rcases h.declared hm hnone he with hown | ⟨ref, href, g, hg, haddedBy, j, y, hy, hey⟩
    · rw [hown.addedBy] at ha
      cases ha
    · obtain ⟨hrank, hall⟩ := h.uses hm hnone href hg
      obtain rfl := Option.some.inj (ha.symm.trans haddedBy)
      exact ⟨g, j, y, has_of_grouping? hg, hrank, hy, hey, .inl ⟨⟨ref, _, hg, rfl⟩, List.ne_nil_of_mem href, hall⟩⟩
  | some b =>
    obtain ⟨t, -, hcopy⟩ := h.copy hm (by rw [hnone]; rfl)
    cases hy : t.childAt? i with
    | none =>
      rw [(hcopy.more i e he hy).1.addedBy] at ha
      cases ha
    | some y =>
      obtain ⟨e', he', hey, haddedBy⟩ := hcopy.child i y hy
      obtain rfl := Option.some.inj (he.symm.trans he')
      refine ⟨t, i, y, hcopy.has, hcopy.rank, hy, hey, .inr ⟨?_, hcopy.copies.uses.symm, fun k w hw => ?_⟩⟩
      · rw [← haddedBy, ha]
      · exact ⟨k, hcopy.child k w hw⟩

/-- Each grouping in the chain of a child is there, has a child behind it, and has a copy of each of its children
in the same node, which uses groupings. It is in the chains of all these copies. -/
theorem Traced.exists_supplier (hknows : s.KnowsGroupings) {m e : Place} {i : Nat} (hm : s.Has m)
    (he : m.childAt? i = some e) {q : String} (hq : q ∈ s.supplierChain e) :
    ∃ g, s.groupingNamed? q = some g ∧ g.node.qname = q ∧ rank g.address < rank m.address ∧ m.node.uses ≠ [] ∧
      (∀ j y, g.childAt? j = some y →
        ∃ k x, m.childAt? k = some x ∧ s.IsBehind y x ∧ q ∈ s.supplierChain x) ∧
      ∃ j y, g.childAt? j = some y ∧ s.IsBehind y e := by
  induction hn : rank m.address using Nat.strongRecOn generalizing m e i with
  | _ n ih =>
    subst hn
    obtain ⟨a, ha, hq⟩ := (mem_supplierChain h.ranked (hm.childAt? he)).mp hq
    obtain ⟨n, j, y, hn, hrank, hy, hey, horigin⟩ := h.exists_origin hm he ha
    have hcases : (q ∈ s.supplierChain y ∧ (m.node.uses ≠ [] ∨ n.node.uses = m.node.uses) ∧
          ∀ k w, n.childAt? k = some w → ∃ l x, m.childAt? l = some x ∧ s.template? x = some w ∧
            (x.node.addedBy = some a ∨ x.node.addedBy = w.node.addedBy)) ∨
        (∃ ref owner, s.grouping? ref owner = some n ∧ q = n.node.qname) ∧ m.node.uses ≠ [] ∧
          ∀ k w, n.childAt? k = some w → ∃ l x, m.childAt? l = some x ∧ s.template? x = some w ∧
            x.node.addedBy = some q := by
      have hbelow : (∃ t, s.template? e = some t ∧ q ∈ s.supplierChain t) → q ∈ s.supplierChain y := by
        rintro ⟨t, ht, hq⟩
        obtain rfl := Option.some.inj (hey.symm.trans ht)
        exact hq
      rcases horigin with ⟨hgrouping, huses, hall⟩ | ⟨hadded, huses, hall⟩
      · rcases hq with rfl | hq
        · exact .inr ⟨hgrouping, huses, hall⟩
        · refine .inl ⟨hbelow hq, .inl huses, fun k w hw => ?_⟩
          obtain ⟨l, x, hx, hxw, haddedBy⟩ := hall k w hw
          exact ⟨l, x, hx, hxw, .inl haddedBy⟩
      · refine .inl ⟨?_, .inr huses, fun k w hw => ?_⟩
        · rcases hq with rfl | hq
          · exact (mem_supplierChain h.ranked (hn.childAt? hy)).mpr ⟨q, hadded, .inl rfl⟩
          · exact hbelow hq
        · obtain ⟨l, x, hx, hxw, haddedBy⟩ := hall k w hw
          exact ⟨l, x, hx, hxw, .inr haddedBy⟩
    rcases hcases with ⟨hq, huses, hall⟩ | ⟨⟨ref, owner, hg, rfl⟩, huses, hall⟩
    · obtain ⟨g, hg, hqname, hrank', huses', hcopies, k, w, hw, hwy⟩ := ih _ hrank hn hy hq rfl
      refine ⟨g, hg, hqname, Nat.lt_trans hrank' hrank, huses.elim id fun heq => heq ▸ huses', fun k w hw => ?_,
        k, w, hw, .step hey hwy⟩
      obtain ⟨l, x, hx, hwx, hqx⟩ := hcopies k w hw
      obtain ⟨l', x', hx', hxx, hadded⟩ := hall l x hx
      refine ⟨l', x', hx', .step hxx hwx, (mem_supplierChain h.ranked (hm.childAt? hx')).mpr ?_⟩
      rcases hadded with hadded | hadded
      · exact ⟨a, hadded, .inr ⟨x, hxx, hqx⟩⟩
      · obtain ⟨b, hb, -⟩ := (mem_supplierChain h.ranked (hn.childAt? hx)).mp hqx
        exact ⟨b, hadded.trans hb, .inr ⟨x, hxx, hqx⟩⟩
    · refine ⟨n, hknows hg, rfl, hrank, huses, fun k w hw => ?_, j, y, hy, .step hey .self⟩
      obtain ⟨l, x, hx, hxw, hadded⟩ := hall k w hw
      exact ⟨l, x, hx, .step hxw .self, (mem_supplierChain h.ranked (hm.childAt? hx)).mpr ⟨_, hadded, .inl rfl⟩⟩

omit h in
theorem rank_of_through (hchild : ∀ {p x : Place} {i : Nat}, s.Has p → p.childAt? i = some x →
    rank x.address = rank p.address) {p q : Place} (hp : s.Has p) (hq : p.Through q) :
    rank q.address = rank p.address := by
  induction hq with
  | self => rfl
  | step hq hc _ ih => rw [hchild (hp.through hq) hc, ih]

/-- The groupings that supply data children hand on all their data children. -/
theorem Traced.exists_dataSupplier (hknows : s.KnowsGroupings) {p x : Place} (hp : s.Has p)
    (hx : x ∈ p.dataChildren) {q : String} (hq : q ∈ s.supplierChain x) :
    ∃ g, s.groupingNamed? q = some g ∧ g.node.qname = q ∧ rank g.address < rank p.address ∧
      (∃ y ∈ g.dataChildren, s.IsBehind y x) ∧
      ∀ even : Prop, (even → s.Configured ∧ p.address.part ≠ .rpcs ∧
          ∀ z, p.Through z → z.node.uses ≠ [] → z.node.config = g.node.config) →
        ∀ y ∈ g.dataChildren, ∃ v ∈ p.dataChildren, s.Mirrors even y v := by
  obtain ⟨z, i, hz, hi, ht⟩ := Place.mem_dataChildren.mp hx
  have hhas := hp.through hz
  obtain ⟨g, hg, hqname, hrank, huses, hcopies, j, w, hw, hwx⟩ := h.exists_supplier hknows hhas hi hq
  rw [rank_of_through h.rank_childAt? hp hz] at hrank
  have hghas := has_of_groupingNamed? hg
  refine ⟨g, hg, hqname, hrank, ⟨w, ?_, hwx⟩, fun even heven y hy => ?_⟩
  · refine (Place.mem_dataChildren_of_childAt? hw).1 ?_
    rw [h.kind_of_isBehind (hp.dataChild hx) hwx]
    exact ht
  · obtain ⟨k, c, hc, hcy⟩ := Place.exists_child_of_mem_dataChildren hy
    obtain ⟨l, v, hv, hcv, -⟩ := hcopies k c hc
    have hvhas := hhas.childAt? hv
    have hkind := h.kind_of_isBehind hvhas hcv
    have hmirrors : s.Mirrors even c v := by
      refine ⟨hcv, fun he => ?_⟩
      obtain ⟨hconfig, hpart, hflat⟩ := heven he
      refine h.config_of_childAt? hconfig hhas hghas (hz.part_eq ▸ hpart) ?_ (hflat z hz huses).symm hv hc hcv
      rw [part_of_groupingNamed? hg]
      simp
    rcases hcy with ⟨htransparent, rfl⟩ | ⟨htransparent, hy⟩
    · exact ⟨v, hz.mem_dataChildren ((Place.mem_dataChildren_of_childAt? hv).1 (hkind ▸ htransparent)),
        hmirrors⟩
    · obtain ⟨v', hv', hyv⟩ := h.exists_dataChild (fun he => (heven he).1) hvhas
        (fun he => by rw [Place.part_of_childAt? hv, hz.part_eq]; exact (heven he).2.1) hmirrors hy
      exact ⟨v', hz.mem_dataChildren ((Place.mem_dataChildren_of_childAt? hv).2 (hkind ▸ htransparent) v' hv'),
        hyv⟩

/-- The copies of what a grouping in the chain of a data child has itself, not in a choice, have the grouping in their
chains. -/
theorem Traced.exists_supplied (hknows : s.KnowsGroupings) {p x : Place} (hp : s.Has p) (hx : x ∈ p.dataChildren)
    {q : String} (hq : q ∈ s.supplierChain x) {g w : Place} (hg : s.groupingNamed? q = some g) {j : Nat}
    (hw : g.childAt? j = some w) (ht : w.node.kind.isTransparent = false) :
    ∃ v ∈ p.dataChildren, s.IsBehind w v ∧ q ∈ s.supplierChain v := by
  obtain ⟨z, i, hz, hi, -⟩ := Place.mem_dataChildren.mp hx
  have hhas := hp.through hz
  obtain ⟨g', hg', -, -, -, hcopies, -⟩ := h.exists_supplier hknows hhas hi hq
  obtain rfl := Option.some.inj (hg.symm.trans hg')
  obtain ⟨k, v, hv, hwv, hqv⟩ := hcopies j w hw
  refine ⟨v, hz.mem_dataChildren ((Place.mem_dataChildren_of_childAt? hv).1 ?_), hwv, hqv⟩
  rw [← h.kind_of_isBehind (hhas.childAt? hv) hwv]
  exact ht

end Traced

end Schema

end RestconfApi
