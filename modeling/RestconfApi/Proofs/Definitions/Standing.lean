import RestconfApi.Proofs.Definitions.Sharing
import RestconfApi.Proofs.Schema.Copies

/-!
# Definitions: what stands for copies

The source of a copy is the grouping that its template stands in, so that the last template that stands in the body of
a shared grouping, with the flag of the copy, stands for the copy. Whatever has been copied from the body of a shared
grouping has in common what stands for it.
-/

namespace RestconfApi

namespace Schema

/-- The source of each copy is the grouping that its template stands in. -/
def TellsSources (s : Schema) : Prop :=
  ∀ {p t : Place}, s.Has p → s.template? p = some t → p.node.source = some t.top.qname

theorem top_of_grouping? {s : Schema} {ref : String} {owner : Name} {g : Place} (h : s.grouping? ref owner = some g) :
    g.top = g.node := by
  obtain ⟨i, hg⟩ := mem_tops_of_grouping? h
  rw [Place.top, above_of_mem_tops hg]
  rfl

theorem tellsSources_of_load {d : Datum} {s : Schema} (h : (load d).result = .ok s) : s.TellsSources := by
  intro p t hp ht
  obtain ⟨declared, M, hfrom⟩ := exists_loadedFrom h
  obtain ⟨modules, augments, hdocument, hexact⟩ := exists_isExact h
  obtain ⟨u, g, huse⟩ := hexact.exists_isUse (declares_isOwned hdocument)
    (fun _ _ _ hp => (hfrom.isOwn_of_mem_tops hp).template) hp ht
  obtain ⟨ref, -, hg⟩ := huse.uses
  obtain ⟨i, j, is, -, hplace⟩ := huse.place
  rw [Place.top_of_descend hplace, top_of_grouping? hg]
  exact huse.source

end Schema

namespace Definitions

variable {c : Scope} {u : Definitions} {augmented : Prop} {rank : Address → Nat}

theorem represents_iff (hsources : c.schema.TellsSources) {site copy t : Place} (hcopy : c.schema.Has copy)
    (ht : c.schema.template? copy = some t) :
    u.represents site copy t = true ↔ u.isShared t.top.qname = true ∧ t.node.config = site.node.config := by
  rw [represents, hsources hcopy ht]
  simp

section

variable (hs : c.schema.Ranked) (hsources : c.schema.TellsSources)
include hs hsources

/-- What stands for a node other than itself stands in the body of a shared grouping. -/
theorem lastFor_eq_or_isShared (site target : Place) {copy : Place} (hcopy : c.schema.Has copy) :
    lastFor u site target copy (c.schema.templates copy) = target ∨
      u.isShared (lastFor u site target copy (c.schema.templates copy)).top.qname = true := by
  obtain ⟨rank, hrank⟩ := id hs
  induction hn : rank copy.address using Nat.strongRecOn generalizing copy target with
  | _ n ih =>
    subst hn
    cases ht : c.schema.template? copy with
    | none =>
      rw [Schema.templates_of_none hs hcopy ht]
      exact .inl rfl
    | some t =>
      have hthas := Schema.has_of_template? ht
      rw [Schema.templates_of_template? hs hcopy ht, lastFor]
      rcases ih _ (hrank copy t hcopy ht) (if u.represents site copy t then t else target) hthas rfl with heq | hshared
      · rw [heq]
        by_cases hr : u.represents site copy t = true
        · rw [if_pos hr]
          exact .inr ((represents_iff hsources hcopy ht).mp hr).1
        · rw [if_neg hr]
          exact .inl rfl
      · exact .inr hshared

/-- A template in the body of a shared grouping, with the right flag, takes the place of whatever stood before it. -/
theorem lastFor_of_isBehind {site target copy y : Place} (hcopy : c.schema.Has copy) (hy : c.schema.IsBehind y copy)
    (hne : y ≠ copy) (hconfig : y.node.config = site.node.config) (hshared : u.isShared y.top.qname = true) :
    lastFor u site target copy (c.schema.templates copy) = lastFor u site y y (c.schema.templates y) := by
  induction hy generalizing target with
  | self => exact absurd rfl hne
  | @step copy t ht hbehind ih =>
    have hthas := Schema.has_of_template? ht
    rw [Schema.templates_of_template? hs hcopy ht, lastFor]
    by_cases heq : y = t
    · subst heq
      rw [if_pos ((represents_iff hsources hcopy ht).mpr ⟨hshared, hconfig⟩)]
    · exact ih hthas heq

theorem isShared_of_canonical_ne {p : Place} (hp : c.schema.Has p) (hne : u.canonical c p ≠ p) :
    u.isShared (u.canonical c p).top.qname = true := by
  cases hc : c.strategy with
  | unpacking => exact absurd (canonical_unpacking hc p) hne
  | optimizing =>
    rw [canonical_optimizing hc] at hne ⊢
    exact (lastFor_eq_or_isShared hs hsources p p hp).resolve_left hne

/-- What stands for a template in the body of a shared grouping stands for its copies of the same flag. -/
theorem canonical_of_mirrors (hc : c.strategy = .optimizing) {x y : Place} (hx : c.schema.Has x)
    (hy : c.schema.Mirrors True y x) (hshared : u.isShared y.top.qname = true) :
    u.canonical c x = u.canonical c y := by
  by_cases hne : y = x
  · rw [hne]
  · have hconfig := hy.config trivial
    rw [canonical_optimizing hc, canonical_optimizing hc,
      lastFor_of_isBehind hs hsources hx hy.behind hne hconfig hshared, lastFor_congr hconfig.symm]

end

/-! ### Children -/

section

variable (h : c.schema.Traced augmented rank) (hsources : c.schema.TellsSources) (hconfig : c.schema.Configured)
include h hsources hconfig

/-- What stands for a child of what stands for a node stands for a child of the node. -/
theorem exists_canonical_of_canonical {p w : Place} (hp : c.schema.Has p) (hpart : p.address.part ≠ .rpcs)
    (hw : w ∈ (u.canonical c p).dataChildren) : ∃ v ∈ p.dataChildren, u.canonical c v = u.canonical c w := by
  by_cases hself : u.canonical c p = p
  · rw [hself] at hw
    exact ⟨w, hw, rfl⟩
  · obtain ⟨v, hv, hwv⟩ := exists_dataChild_of_canonical h (fun _ : True => hconfig) hp (fun _ => hpart) hw
    have hc : c.strategy = .optimizing := by
      cases hc : c.strategy with
      | unpacking => exact absurd (canonical_unpacking hc p) hself
      | optimizing => rfl
    have hshared := isShared_of_canonical_ne h.ranked hsources hp hself
    rw [← Place.top_of_mem_dataChildren hw] at hshared
    exact ⟨v, hv, canonical_of_mirrors h.ranked hsources hc (hp.dataChild hv) hwv hshared⟩

/-- What stands for a child of a shared grouping stands for a child of a node that it supplies. -/
theorem exists_canonical_of_supplier (hknows : c.schema.KnowsGroupings) (hflat : c.schema.IsFlat) {p x g w : Place}
    (hp : c.schema.Has p) (hpart : p.address.part ≠ .rpcs) (hx : x ∈ p.dataChildren) {qname : String}
    (hsupplier : supplier? c u p.node x = some qname) (hg : c.schema.groupingNamed? qname = some g)
    (hw : w ∈ g.dataChildren) : ∃ v ∈ p.dataChildren, u.canonical c v = u.canonical c w := by
  obtain ⟨hc, hq, hshared, g', hg', hsite⟩ := of_supplier? hsupplier
  obtain rfl := Option.some.inj (hg.symm.trans hg')
  obtain ⟨g', hg', hqname, -, -, hall⟩ := h.exists_dataSupplier hknows hp hx hq
  obtain rfl := Option.some.inj (hg.symm.trans hg')
  obtain ⟨v, hv, hwv⟩ := hall True (fun _ => ⟨hconfig, hpart, fun z hz huses =>
    (hflat hp hz huses).trans hsite.symm⟩) w hw
  have htop : u.isShared w.top.qname = true := by
    rw [Place.top_of_mem_dataChildren hw,
      Schema.top_of_grouping? (show c.schema.grouping? _ _ = some g from hg), hqname]
    exact hshared
  exact ⟨v, hv, canonical_of_mirrors h.ranked hsources hc (hp.dataChild hv) hwv htop⟩

end

end Definitions

end RestconfApi
