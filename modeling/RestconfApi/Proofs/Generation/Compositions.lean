import RestconfApi.Proofs.Generation.Fields

/-!
# Generation: the fields of compositions

A definition that is composed of references to the definitions of shared groupings and of an object leaves to the
references what the groupings have themselves. A copy of what stands in a choice of a grouping does not say where it
comes from: only the choice does. So the object has it too.
-/

namespace RestconfApi

open Definitions Generation Example

namespace Model

/-- The parts of a composition. -/
def parts : Model → List Model
  | .composed parts _ => parts
  | _ => []

variable {m : Model}

theorem own_of_mem_parts {o : ObjectModel} (ho : .object o ∈ m.parts) {key : Scalar} {q : Property}
    (hq : (key, q) ∈ o.properties) : m.Own key q := by
  cases m with
  | composed parts about => exact .part ho hq
  | reference => cases ho
  | object => cases ho

theorem brings_of_mem_parts {name : Scalar} (h : .reference (.scalar name) ∈ m.parts) : m.Brings name := by
  cases m with
  | composed parts about => exact .part h
  | reference => cases h
  | object => cases h

theorem mem_refs_of_mem_parts {r : Name} (h : .reference r ∈ m.parts) : r ∈ m.refs := by
  cases m with
  | composed parts about => exact List.mem_flatMap.mpr ⟨_, h, List.mem_singleton.mpr rfl⟩
  | reference => cases h
  | object => cases h

section Renamed

variable {f : Name → Name}

theorem parts_mapRefs (m : Model) : (m.mapRefs f).parts = m.parts.map (mapPartRefs f) := by
  cases m <;> rfl

theorem exists_object_of_mapRefs {o : ObjectModel} (h : .object o ∈ (m.mapRefs f).parts) :
    ∃ o₀, .object o₀ ∈ m.parts ∧ o = o₀.mapProperties (Property.mapRefs f) := by
  rw [parts_mapRefs] at h
  obtain ⟨x, hx, heq⟩ := List.mem_map.mp h
  cases x with
  | object o₀ => exact ⟨o₀, hx, (Model.object.inj heq).symm⟩
  | reference => cases heq
  | composed => cases heq

theorem exists_reference_of_mapRefs {r : Name} (h : .reference r ∈ (m.mapRefs f).parts) :
    ∃ r₀, .reference r₀ ∈ m.parts ∧ r = f r₀ := by
  rw [parts_mapRefs] at h
  obtain ⟨x, hx, heq⟩ := List.mem_map.mp h
  cases x with
  | reference r₀ => exact ⟨r₀, hx, (Model.reference.inj heq).symm⟩
  | object => cases heq
  | composed => cases heq

end Renamed

end Model

/-! ### Own fields and fields of shared groupings -/

/-- What groupings have of a name are children of their own, not in a choice or a case. -/
def Schema.HasDirectly (s : Schema) (key : Scalar) : Prop :=
  ∀ i, ∀ g ∈ s.tops i .groupings, ∀ w ∈ g.dataChildren, (w.node.name == .scalar key) = true →
    ∃ j, g.childAt? j = some w

namespace Definitions

variable {c : Scope} {u : Definitions} {cut : Place → Prop} {defs : Models} {augmented : Prop} {declared : Schema}
  {M : Expansion.Expanded}

/-- A child whose name a shared grouping has for a child of its own, not in a choice, is supplied. -/
theorem IsOuter.supplier?_ne_none {rank : Address → Nat} (htraced : c.schema.Traced augmented rank)
    (hknows : c.schema.KnowsGroupings) {p : Place} (hp : c.schema.Has p)
    (hdistinct : p.dataChildren.Pairwise fun x y => (x.node.name == y.node.name) = false) {qname : String} {g : Place}
    (houter : IsOuter c u p qname) (hg : c.schema.groupingNamed? qname = some g) {j : Nat} {w x : Place}
    (hw : g.childAt? j = some w) (ht : w.node.kind.isTransparent = false) (hx : x ∈ p.dataChildren) {key : Scalar}
    (hwname : (w.node.name == .scalar key) = true) (hxname : (x.node.name == .scalar key) = true) :
    supplier? c u p.node x ≠ none := by
  obtain ⟨x', hx', hsupplier⟩ := houter.1
  obtain ⟨hoptimizing, hq, hshared, g', hg', hsite⟩ := of_supplier? hsupplier
  obtain rfl := Option.some.inj (hg.symm.trans hg')
  obtain ⟨v, hv, hwv, hqv⟩ := htraced.exists_supplied hknows hp hx' hq hg hw ht
  have hvname : (v.node.name == .scalar key) = true := by
    rw [← htraced.eq_of_isBehind Statement.name (fun _ _ hc => hc.name) (hp.dataChild hv) hwv]
    exact hwname
  obtain rfl := Place.eq_of_named hdistinct hx hv hxname hvname
  exact Definitions.supplier?_ne_none hoptimizing hqv hshared hg hsite

/-- A model built for a node has no field of its own that a definition which it brings has too, if no grouping has one
of the name in a choice. -/
theorem Built.not_field (hfrom : Schema.LoadedFrom augmented declared M c.schema) (hnamed : c.schema.IsNamed)
    {p : Place} {m : Model} (h : Built (c := c) (u := u) cut defs p m) (hp : c.schema.Has p)
    (hdistinct : p.dataChildren.Pairwise fun x y => (x.node.name == y.node.name) = false) {key : Scalar} {q : Property}
    (hown : m.Own key q) (hdirect : c.schema.HasDirectly key) {name key' : Scalar} {q' : Property}
    (hbrings : m.Brings name) (hkey : (key' == key) = true) :
    ¬(Model.reference (.scalar name)).Field defs key' q' := by
  intro hq'
  have htraced := hfrom.traced
  have hknows : c.schema.KnowsGroupings := hnamed.knowsGroupings hfrom
  obtain ⟨x, hx, hlocal, hxname, -⟩ := h.own key q hown
  obtain ⟨qname, g, houter, hg, hstands⟩ := h.brings name hbrings
  obtain ⟨y, -, hy, hyname, -, -⟩ := (hstands 1).2.1 key' q' hq'
  have hghas := Schema.has_of_groupingNamed? hg
  obtain ⟨i, hgtop⟩ := Schema.mem_tops_of_grouping? (show c.schema.grouping? _ _ = some g from hg)
  rw [canonical_of_none htraced.ranked hghas (hfrom.isOwn_of_mem_tops hgtop).template] at hy
  -- the field is that of a data child of the grouping, of which the node has a copy
  obtain ⟨w, hw, hyw⟩ : ∃ w ∈ g.dataChildren, c.schema.Mirrors False y w :=
    hy.exists_dataChild htraced (fun _ => hknows) False.elim hghas False.elim
  have hwname : (w.node.name == .scalar key) = true := by
    rw [← htraced.eq_of_isBehind Statement.name (fun _ _ hc => hc.name) (hghas.dataChild hw) hyw.behind]
    exact Datum.beq_scalar_trans hyname hkey
  obtain ⟨j, hj⟩ := hdirect i g hgtop w hw hwname
  exact houter.supplier?_ne_none htraced hknows hp hdistinct hg hj (Place.isTransparent_of_mem_dataChildren hw) hx
    hwname hxname hlocal

end Definitions

/-- Each definition of the document is what postprocessing makes of a model that has been built for a node. -/
theorem Generated.exists_built {s : Schema} {names : List Name} {settings : Settings} {modules : List (Module × Nat)}
    {r : Outcome} {info : Info} {doc : Document} (h : Generated s names settings modules r info doc)
    {e : Scalar × Model} (he : e ∈ doc.definitions) :
    ∃ p m, s.Has p ∧ e.2 = m.mapRefs (finalName settings { r.definitions.finished with info }) ∧
      Built (c := r.scope) (u := counted r.definitions) (Regime.free r.scope (counted r.definitions)).cut
        r.definitions.models p m := by
  have hschema : r.scope.schema = s := by rw [h.ran.scope]
  obtain ⟨e₀, he₀, heq⟩ := (postprocessAll_yields h.isClosed h.postprocessed).models e he
  obtain ⟨p, hp, hbuilt⟩ := h.twins.left.built e₀ he₀
  exact ⟨p, e₀.2, hschema ▸ hp, heq, hbuilt⟩

/-- A composition has no property in its object that a definition which it refers to has too, if no grouping has one of
the name in a choice. -/
theorem not_field_of_composed {d : Datum} {s : Schema} {names : List Name} {settings : Settings} {doc : Document}
    (hload : (Schema.load d).result = .ok s) (hnamed : s.IsNamed)
    (hdistinct : ∀ p, s.Has p → p.dataChildren.Pairwise fun x y => (x.node.name == y.node.name) = false)
    (h : (generate s names settings).result = .ok doc) {k : Scalar} {m : Model} (hm : (k, m) ∈ doc.definitions)
    {o : ObjectModel} (ho : .object o ∈ m.parts) {name : Name} (hname : .reference name ∈ m.parts) {key : Scalar}
    {q : Property} (hq : (key, q) ∈ o.properties) (hdirect : s.HasDirectly key) :
    ∀ key' q', (key' == key) = true → ¬(Model.reference name).Field doc.definitions key' q' := by
  intro key' q' hkey hq'
  obtain ⟨declared, M, hfrom⟩ := Schema.exists_loadedFrom hload
  obtain ⟨modules, r, info, hgenerated⟩ := exists_generated hload h
  have hschema : r.scope.schema = s := by rw [hgenerated.ran.scope]
  subst hschema
  obtain ⟨p, m₀, hp, rfl, hbuilt⟩ := hgenerated.exists_built hm
  obtain ⟨o₀, ho₀, rfl⟩ := Model.exists_object_of_mapRefs ho
  obtain ⟨name₀, hname₀, rfl⟩ := Model.exists_reference_of_mapRefs hname
  obtain ⟨⟨key, q₀⟩, hq₀, heq⟩ := List.mem_map.mp hq
  obtain ⟨rfl, -⟩ := Prod.mk.inj heq
  obtain ⟨j, rfl, hj⟩ := hbuilt.covers _ (Model.mem_refs_of_mem_parts hname₀)
  have hfolds := (postprocessAll_yields hgenerated.isClosed hgenerated.postprocessed).folds
  obtain ⟨q₁, hq₁, -⟩ := hfolds.field_of j key' q' hj hq'
  exact hbuilt.not_field hfrom hnamed hp (hdistinct p hp) (Model.own_of_mem_parts ho₀ hq₀) hdirect
    (Model.brings_of_mem_parts hname₀) hkey hq₁

/-- Two containers that share a grouping with a choice in it. One of them uses another grouping besides. -/
def Example.choosing : Datum :=
  document [
    ("groupings", [
      grouping "g" [
        statement "choice" "h" [("children", .list [statement "case" "a" [("children", .list [leaf "x"])]])],
        leaf "y"],
      grouping "f" [leaf "z"]]),
    ("data", [container "p" ["g", "f"], container "q" ["g"]])]

theorem not_field_of_composed_choosing :
    ∃ s doc k m o name key q, (Schema.load Example.choosing).result = .ok s ∧ s.IsNamed ∧
      (∀ p, s.Has p → p.dataChildren.Pairwise fun x y => (x.node.name == y.node.name) = false) ∧
      (generate s [.text "m"] {}).result = .ok doc ∧ (k, m) ∈ doc.definitions ∧ .object o ∈ m.parts ∧
      .reference name ∈ m.parts ∧ (key, q) ∈ o.properties ∧ s.HasDirectly key ∧
      ∀ key' q', (key' == key) = true → ¬(Model.reference name).Field doc.definitions key' q' := by
  have htest : passes Example.choosing [.text "m"] {} (fun s doc =>
      s.modules.length = 1 && s.modules.all (·.name == .text "m") &&
        (s.places.all fun p =>
          decide (p.dataChildren.Pairwise fun x y => (x.node.name == y.node.name) = false)) &&
        ((s.tops 0 .groupings).all fun g => g.dataChildren.all fun w => !(w.node.name == .text "z") ||
          (List.range g.node.children.length).any fun j => (g.childAt? j).any (·.address = w.address)) &&
        doc.definitions.any fun e => e.2.parts.any fun part => part.object?.any fun o =>
          (o.properties.any fun e' => e'.1 == .text "z") && e.2.parts.any (·.reference?.isSome)) = true := by
    decide +kernel
  obtain ⟨s, doc, hload, hgenerate, htest⟩ := exists_of_passes htest
  simp only [Bool.and_eq_true, decide_eq_true_eq, List.all_eq_true, List.any_eq_true, Option.any_eq_true,
    Bool.or_eq_true, Bool.not_eq_true', Option.isSome_iff_exists] at htest
  obtain ⟨⟨⟨⟨hlength, hnames⟩, hdistinct⟩, hdirect⟩, ⟨k, m⟩, hm, part, hpart, o, ho, ⟨⟨key, q⟩, hq, hkey⟩, part',
    hpart', name, hname⟩ := htest
  obtain rfl := Model.eq_object_of_object? ho
  obtain rfl := Document.eq_reference_of_reference? hname
  obtain ⟨n, hn⟩ := List.length_eq_one_iff.mp hlength
  have hnamed : s.IsNamed := Schema.isNamed_of_single hn
    (Datum.eq_text_of_beq (hnames n (by simp [hn]))) (by decide)
  replace hdistinct := fun p (hp : s.Has p) => hdistinct p hp.mem_places
  replace hdirect : s.HasDirectly key := by
    intro i g hg w hw hwname
    obtain ⟨n', hn'⟩ := Schema.exists_module_of_mem_tops hg
    have hlt := (List.getElem?_eq_some_iff.mp hn').1
    obtain rfl : i = 0 := by omega
    obtain rfl := Scalar.eq_text_of_beq hkey
    obtain ⟨j, -, v, hv, haddress⟩ := (hdirect g hg w hw).resolve_left (by simp [hwname])
    have hghas := Schema.has_of_mem_tops hg
    obtain rfl := (hghas.childAt? hv).eq (hghas.dataChild hw) haddress
    exact ⟨j, hv⟩
  exact ⟨s, doc, k, m, o, name, key, q, hload, hnamed, hdistinct, hgenerate, hm, hpart, hpart', hq, hdirect,
    not_field_of_composed hload hnamed hdistinct hgenerate hm hpart hpart' hq hdirect⟩

/-- What a shared grouping has in a choice is repeated beside the reference to it. -/
theorem field_of_composed_choosing :
    ∃ s doc k m o name q q', (Schema.load Example.choosing).result = .ok s ∧
      (∀ p, s.Has p → p.dataChildren.Pairwise fun x y => (x.node.name == y.node.name) = false) ∧
      (generate s [.text "m"] {}).result = .ok doc ∧ (k, m) ∈ doc.definitions ∧ .object o ∈ m.parts ∧
      .reference name ∈ m.parts ∧ (.text "x", q) ∈ o.properties ∧
      (Model.reference name).Field doc.definitions (.text "x") q' := by
  have htest : passes Example.choosing [.text "m"] {} (fun s doc =>
      (s.places.all fun p =>
        decide (p.dataChildren.Pairwise fun x y => (x.node.name == y.node.name) = false)) &&
      doc.definitions.any fun e => e.2.parts.any fun part => part.object?.any fun o =>
        e.2.parts.any fun part' => part'.reference?.any fun name => name.asKey?.any fun j =>
          (o.properties.any (·.1 == .text "x")) &&
            (Model.inlined? doc.definitions j).any fun fields => fields.any (·.1 == .text "x")) = true := by
    decide +kernel
  obtain ⟨s, doc, hload, hgenerate, htest⟩ := exists_of_passes htest
  simp only [Bool.and_eq_true, decide_eq_true_eq, List.all_eq_true, List.any_eq_true, Option.any_eq_true] at htest
  obtain ⟨hdistinct, ⟨k, m⟩, hm, part, hpart, o, ho, part', hpart', name, hname, j, hj, ⟨⟨key, q⟩, hq, hkey⟩,
    fields, hfields, ⟨key', q'⟩, hq', hkey'⟩ := htest
  obtain rfl := Model.eq_object_of_object? ho
  obtain rfl := Document.eq_reference_of_reference? hname
  obtain rfl := Datum.eq_scalar_of_asKey? hj
  obtain rfl := Scalar.eq_text_of_beq hkey
  obtain rfl := Scalar.eq_text_of_beq hkey'
  exact ⟨s, doc, k, m, o, _, q, q', hload, fun p hp => hdistinct p hp.mem_places, hgenerate, hm, hpart, hpart',
    hq, (Model.field_iff_of_inlined? hfields).mpr hq'⟩

end RestconfApi
