import RestconfApi.Proofs.Definitions.Canonical
import RestconfApi.Proofs.Definitions.Contribution
import RestconfApi.Proofs.Schema.Ancestry

/-!
# Definitions: where shared fields come from

Whatever contributes to the definition of a node is behind a data child of the node: sharing takes a field from a
template of what the node has, and adds none. And when groupings are told apart by their names, something of the
same origin contributes for each data child: sharing loses none.
-/

namespace RestconfApi

namespace Schema

/-- A choice or a case that uses groupings is configuration exactly when the node around it is. -/
def IsFlat (s : Schema) : Prop :=
  ∀ {p z : Place}, s.Has p → p.Through z → z.node.uses ≠ [] → z.node.config = p.node.config

/-- When choices and cases use no groupings, flags of their own do no harm. -/
theorem isFlat_of_uses {s : Schema}
    (h : ∀ z, s.Has z → z.node.kind.isTransparent = true → z.node.uses = []) : s.IsFlat := by
  intro p z hp hz huses
  cases hz with
  | self => rfl
  | step hq hc ht => exact absurd (h z ((hp.through hq).childAt? hc) ht) huses

end Schema

namespace Definitions

variable {c : Scope} {u : Definitions} {augmented : Prop} {rank : Address → Nat}

/-- Where a shared grouping in the chain of a child has the flag of the site, some grouping supplies the child. -/
theorem supplier?_ne_none {site : Node} {x g : Place} {qname : String} (hoptimizing : c.strategy = .optimizing)
    (hq : qname ∈ c.schema.supplierChain x) (hshared : u.isShared qname = true)
    (hg : c.schema.groupingNamed? qname = some g) (hsite : g.node.config = site.config) :
    supplier? c u site x ≠ none := by
  intro hnone
  rw [supplier?, hoptimizing] at hnone
  have hskipped := List.find?_eq_none.mp hnone qname hq
  simp [hshared, hg, hsite] at hskipped

/-- No grouping supplies what was declared where it stands. -/
theorem supplier?_eq_none (hs : c.schema.Ranked) {site : Node} {x : Place} (hx : c.schema.Has x)
    (hadded : x.node.addedBy = none) : supplier? c u site x = none := by
  rw [← Option.not_isSome_iff_eq_none]
  intro hsome
  obtain ⟨qname, hq⟩ := Option.isSome_iff_exists.mp hsome
  obtain ⟨a, ha, -⟩ := (Schema.mem_supplierChain hs hx).mp (of_supplier? hq).2.1
  rw [hadded] at ha
  cases ha

theorem canonical_of_none (hs : c.schema.Ranked) {p : Place} (hp : c.schema.Has p)
    (hnone : p.node.template = none) : u.canonical c p = p := by
  have hmem := canonical_mem (c := c) (u := u) p
  rw [Schema.templates_of_none hs hp (by rw [Schema.template?, hnone]; rfl)] at hmem
  exact List.mem_singleton.mp hmem

theorem mirrors_canonical (hs : c.schema.Ranked) (even : Prop) {p : Place} (hp : c.schema.Has p) :
    c.schema.Mirrors even (u.canonical c p) p :=
  ⟨(Schema.isBehind_iff hs hp).mpr (canonical_mem p), fun _ => canonical_config p⟩

theorem part_canonical (h : c.schema.Traced augmented rank) {p : Place} (hp : c.schema.Has p)
    (hpart : p.address.part ≠ .rpcs) : (u.canonical c p).address.part ≠ .rpcs := by
  rcases h.part_of_isBehind hp (mirrors_canonical (u := u) h.ranked True hp).behind with hself | hgroupings
  · rw [hself]
    exact hpart
  · simp [hgroupings]

theorem exists_dataChild_of_canonical (h : c.schema.Traced augmented rank) {even : Prop}
    (hconfig : even → c.schema.Configured) {p w : Place} (hp : c.schema.Has p)
    (hpart : even → p.address.part ≠ .rpcs) (hw : w ∈ (u.canonical c p).dataChildren) :
    ∃ x ∈ p.dataChildren, c.schema.Mirrors even w x :=
  h.exists_dataChild hconfig hp hpart (mirrors_canonical h.ranked even hp) hw

/-- What contributes is behind a data child, and has its config flag unless choices and cases have flags of their
own. -/
theorem Contributes.exists_dataChild (h : c.schema.Traced augmented rank)
    (hknows : c.strategy = .optimizing → c.schema.KnowsGroupings) {even : Prop}
    (hconfig : even → c.schema.Configured ∧ (c.strategy = .optimizing → c.schema.IsFlat)) {p y : Place}
    (hp : c.schema.Has p) (hpart : even → p.address.part ≠ .rpcs) (hy : Contributes c u p y) :
    ∃ x ∈ p.dataChildren, c.schema.Mirrors even y x := by
  induction hy with
  | own hx _ => exact ⟨_, hx, .self, fun _ => rfl⟩
  | @shared p g y qname houter hg _ ih =>
    obtain ⟨x, hx, hsupplier⟩ := houter.1
    obtain ⟨hoptimizing, hq, -, g', hg', hsite⟩ := of_supplier? hsupplier
    obtain rfl := Option.some.inj (hg.symm.trans hg')
    have hghas := Schema.has_of_groupingNamed? hg
    have hgpart : g.address.part ≠ .rpcs := by simp [Schema.part_of_groupingNamed? hg]
    obtain ⟨w, hw, hyw⟩ := ih (has_canonical hghas) fun _ => part_canonical h hghas hgpart
    obtain ⟨w', hw', hww⟩ :=
      exists_dataChild_of_canonical h (fun he => (hconfig he).1) hghas (fun _ => hgpart) hw
    obtain ⟨g'', hg'', -, -, -, hall⟩ := h.exists_dataSupplier (hknows hoptimizing) hp hx hq
    obtain rfl := Option.some.inj (hg.symm.trans hg'')
    obtain ⟨v, hv, hvw⟩ := hall even (fun he => ⟨(hconfig he).1, hpart he, fun z hz huses =>
      ((hconfig he).2 hoptimizing hp hz huses).trans hsite.symm⟩) w' hw'
    exact ⟨v, hv, hvw.trans (hww.trans hyw)⟩

/-! ### No field is lost -/

section Complete

variable {declared : Schema} {M : Expansion.Expanded} (hfrom : Schema.LoadedFrom augmented declared M c.schema)
  (hnamed : c.schema.IsNamed) (hgroupings : c.schema.NamesGroupings)
  (hhierarchy : (Groupings.ofSchema c.schema).result = .ok c.groupings)
include hfrom hnamed hgroupings hhierarchy

/-- Of the groupings that supply a node with fields, one that no other one has the fields of brings what a given
one brings. -/
theorem exists_outer {p x : Place} (hp : c.schema.Has p) (hx : x ∈ p.dataChildren) {qname : String} {g : Place}
    (hsupplier : supplier? c u p.node x = some qname) (hg : c.schema.groupingNamed? qname = some g)
    (hqname : g.node.qname = qname) :
    ∃ outer o, IsOuter c u p outer ∧ c.schema.groupingNamed? outer = some o ∧
      (o = g ∨ c.schema.Brings (Expansion.rank M) g o) := by
  have hknows : c.schema.KnowsGroupings := hnamed.knowsGroupings hfrom
  induction hn : Expansion.rank M p.address - Expansion.rank M g.address using Nat.strongRecOn
    generalizing x qname g with
  | _ n ih =>
    subst hn
    by_cases houter : ∀ x' ∈ p.dataChildren, ∀ other, supplier? c u p.node x' = some other →
        ¬Covers c qname other
    · exact ⟨qname, g, ⟨⟨x, hx, hsupplier⟩, houter⟩, hg, .inl rfl⟩
    · simp only [not_forall, not_not] at houter
      obtain ⟨x', hx', other, hsupplier', -, hancestor⟩ := houter
      obtain ⟨o, ho, honame, hrank, -⟩ := hfrom.traced.exists_dataSupplier hknows hp hx' (of_supplier? hsupplier').2.1
      obtain ⟨i, hgtop⟩ := Schema.mem_tops_of_grouping? (show c.schema.grouping? _ _ = some g from hg)
      obtain ⟨j, hotop⟩ := Schema.mem_tops_of_grouping? (show c.schema.grouping? _ _ = some o from ho)
      have hbrings : c.schema.Brings (Expansion.rank M) g o := by
        refine hgroupings.brings_of_transGen hnamed hfrom hgtop hotop ?_
        rw [hqname, honame]
        exact Groupings.transGen_of_isAncestorOf hhierarchy hancestor
      have hlt := hbrings.rank
      obtain ⟨outer, o', houter, ho', heq | hbrings'⟩ := ih _ (by omega) hx' hsupplier' ho honame rfl
      · exact ⟨outer, o', houter, ho', .inr (heq ▸ hbrings)⟩
      · exact ⟨outer, o', houter, ho', .inr (hbrings.trans hbrings')⟩

/-- For each data child something of the same origin contributes. -/
theorem exists_contributes {p x : Place} (hp : c.schema.Has p) (hx : x ∈ p.dataChildren) :
    ∃ y, Contributes c u p y ∧ c.schema.Akin x y := by
  have hknows : c.schema.KnowsGroupings := hnamed.knowsGroupings hfrom
  induction hn : Expansion.rank M p.address using Nat.strongRecOn generalizing p x with
  | _ n ih =>
    subst hn
    cases hsupplier : supplier? c u p.node x with
    | none => exact ⟨x, .own hx hsupplier, x, .self, .self⟩
    | some qname =>
      obtain ⟨g, hg, hqname, -, ⟨y, hy, hyx⟩, -⟩ :=
        hfrom.traced.exists_dataSupplier hknows hp hx (of_supplier? hsupplier).2.1
      obtain ⟨outer, o, houter, ho, hbrings⟩ :=
        exists_outer hfrom hnamed hgroupings hhierarchy hp hx hsupplier hg hqname
      obtain ⟨v, hv, hyv⟩ : ∃ v ∈ o.dataChildren, c.schema.IsBehind y v := by
        rcases hbrings with rfl | hbrings
        · exact ⟨y, hy, .self⟩
        · exact hbrings.dataChild y hy
      obtain ⟨x', hx', hsupplier'⟩ := houter.1
      obtain ⟨o', ho', -, hrank, -⟩ := hfrom.traced.exists_dataSupplier hknows hp hx' (of_supplier? hsupplier').2.1
      obtain rfl := Option.some.inj (ho.symm.trans ho')
      have hohas := Schema.has_of_groupingNamed? ho
      obtain ⟨i, hotop⟩ := Schema.mem_tops_of_grouping? (show c.schema.grouping? _ _ = some o from ho)
      have hself := canonical_of_none (u := u) hfrom.traced.ranked hohas (hfrom.isOwn_of_mem_tops hotop).template
      obtain ⟨w, hw, hvw⟩ := ih _ hrank hohas hv rfl
      exact ⟨w, .shared houter ho (by rw [hself]; exact hw), hyx.akin.trans (hyv.akin.symm.trans hvw)⟩

end Complete

end Definitions

end RestconfApi
