import RestconfApi.Proofs.Definitions.Sharing
import RestconfApi.Proofs.Generation.References

/-!
# Generation: the fields of nodes

The definition that the document has for a node has the fields of the nodes that contribute to what stands for it.
A node that stands for itself has all fields that no grouping supplies, also those that augments have added; and
fields are read-only where the data children of the node are operational state.
-/

namespace RestconfApi

open Definitions Generation

namespace Generated

variable {s : Schema} {names : List Name} {settings : Settings} {modules : List (Module × Nat)} {r : Outcome}
  {info : Info} {doc : Document}

/-- The definition of a node is what postprocessing has put in place of one that describes what stands for the
node. -/
theorem exists_stands (h : Generated s names settings modules r info doc) {p : Place} (hp : s.Has p) {name : Name}
    (hname : definition? s names settings p = some name) :
    ∃ k, name = finalName settings { r.definitions.finished with info } (.scalar k) ∧
      Stands r.scope (counted r.definitions) (Regime.free r.scope (counted r.definitions)).cut
        r.definitions.models ((counted r.definitions).canonical r.scope p) k := by
  have hschema : r.scope.schema = s := by rw [h.ran.scope]
  simp only [definition?, h.run, h.about] at hname
  obtain ⟨k, hk, rfl⟩ := Option.map_eq_some_iff.mp hname
  exact ⟨k, rfl, h.twins.left.completed p k (hschema ▸ hp) hk⟩

/-- Each field of the definition of a node has the property of something that contributes to it. -/
theorem property_of_field (h : Generated s names settings modules r info doc) {p : Place} (hp : s.Has p)
    {name : Name} (hname : definition? s names settings p = some name) {key : Scalar} {q : Property}
    (hq : (Model.reference name).Field doc.definitions key q) :
    ∃ y, ∃ q₀ q' : Property,
      Contributes r.scope (counted r.definitions) ((counted r.definitions).canonical r.scope p) y ∧
      (y.node.name == .scalar key) = true ∧
      q = q₀.mapRefs (finalName settings { r.definitions.finished with info }) ∧ q₀.Matches q' ∧
      PropertyOf r.scope (counted r.definitions) (Regime.free r.scope (counted r.definitions)).cut
        (Describes r.scope (counted r.definitions) (Regime.free r.scope (counted r.definitions)).cut
          r.definitions.models 0) y q' := by
  obtain ⟨k, rfl, hstands⟩ := h.exists_stands hp hname
  have hfolds := (postprocessAll_yields h.isClosed h.postprocessed).folds
  obtain ⟨q₀, hq₀, rfl⟩ := hfolds.field_of k key q hstands.defines hq
  obtain ⟨y, q', hy, hyname, hmatches, hproperty⟩ := (hstands 1).2.1 key q₀ hq₀
  exact ⟨y, q₀, q', hy, hyname, rfl, hmatches, hproperty⟩

/-- Each field of the definition of a node is one of what contributes to it. -/
theorem contributes_of_field (h : Generated s names settings modules r info doc) {p : Place} (hp : s.Has p)
    {name : Name} (hname : definition? s names settings p = some name) {key : Scalar} {q : Property}
    (hq : (Model.reference name).Field doc.definitions key q) :
    ∃ y, Contributes r.scope (counted r.definitions) ((counted r.definitions).canonical r.scope p) y ∧
      (y.node.name == .scalar key) = true ∧ (q.ref = none → q.readOnly = !y.node.config) := by
  obtain ⟨y, q₀, q', hy, hyname, rfl, hmatches, hproperty⟩ := h.property_of_field hp hname hq
  refine ⟨y, hy, hyname, fun href => ?_⟩
  rw [Property.ref_mapRefs, Option.map_eq_none_iff] at href
  rw [Property.readOnly_mapRefs, hmatches.readOnly]
  exact hproperty.readOnly (hmatches.ref_eq_none_iff.mp href)

/-- Whatever contributes to a node and is a field has one in its definition. -/
theorem field_of_contributes (h : Generated s names settings modules r info doc) {p : Place} (hp : s.Has p)
    {name : Name} (hname : definition? s names settings p = some name) {y : Place}
    (hy : Contributes r.scope (counted r.definitions) ((counted r.definitions).canonical r.scope p) y)
    (hfield : y.node.kind.isField = true) :
    ∃ key q, (y.node.name == .scalar key) = true ∧ (Model.reference name).Field doc.definitions key q := by
  obtain ⟨k, rfl, hstands⟩ := h.exists_stands hp hname
  have hfolds := (postprocessAll_yields h.isClosed h.postprocessed).folds
  obtain ⟨key, q, hyname, hq⟩ := (hstands 1).2.2.1 y hy hfield
  exact ⟨key, _, hyname, hfolds.field k key q hstands.defines hq⟩

end Generated

/-! ### Fields that no grouping supplies -/

namespace Generation

/-- The node whose definition stands for that of a node in a run that succeeds. -/
def standing? (s : Schema) (names : List Name) (settings : Settings) (p : Place) : Option Place :=
  (run s names settings).result.toOption.map fun r => (counted r.definitions).canonical r.scope p

theorem has_of_standing? {s : Schema} {names : List Name} {settings : Settings} {p q : Place} (hp : s.Has p)
    (h : standing? s names settings p = some q) : s.Has q := by
  unfold standing? at h
  cases hrun : (run s names settings).result with
  | error e =>
    rw [hrun] at h
    cases h
  | ok r =>
    obtain ⟨modules, hran⟩ := exists_ran hrun
    have hschema : r.scope.schema = s := by rw [hran.scope]
    rw [hrun] at h
    have hq : (counted r.definitions).canonical r.scope p = q := Option.some.inj h
    rw [← hq, ← hschema]
    exact has_canonical (hschema.symm ▸ hp)

/-- Where nothing is shared, and if it is no copy, a node stands for itself. -/
theorem standing?_eq_some {s : Schema} {names : List Name} {settings : Settings} {r : Outcome}
    (hrun : (run s names settings).result = .ok r) (hs : s.Ranked) {p : Place} (hp : s.Has p)
    (hcopy : settings.strategy = .unpacking ∨ p.node.template = none) : standing? s names settings p = some p := by
  obtain ⟨modules, hran⟩ := exists_ran hrun
  have hschema : r.scope.schema = s := by rw [hran.scope]
  have hstrategy : r.scope.strategy = settings.strategy := by rw [hran.scope]
  rw [standing?, hrun]
  refine congrArg some ?_
  rcases hcopy with hunpacking | hnone
  · exact canonical_unpacking (hstrategy.trans hunpacking) p
  · exact canonical_of_none (hschema ▸ hs) (hschema ▸ hp) hnone

end Generation

/-- The definition of a node that stands for itself has every child that was declared in it or added to it. -/
theorem exists_field_of_generate {d : Datum} {s : Schema} {names : List Name} {settings : Settings}
    {doc : Document} (hload : (Schema.load d).result = .ok s) (h : (generate s names settings).result = .ok doc)
    {p x : Place} (hp : s.Has p) (hself : standing? s names settings p = some p) {name : Name}
    (hname : definition? s names settings p = some name) (hx : x ∈ p.dataChildren)
    (hadded : x.node.addedBy = none) (hfield : x.node.kind.isField = true) :
    ∃ key q, (x.node.name == .scalar key) = true ∧ (Model.reference name).Field doc.definitions key q := by
  obtain ⟨declared, M, hfrom⟩ := Schema.exists_loadedFrom hload
  obtain ⟨modules, r, info, hgenerated⟩ := exists_generated hload h
  have hschema : r.scope.schema = s := by rw [hgenerated.ran.scope]
  rw [standing?, hgenerated.run] at hself
  have hself : (counted r.definitions).canonical r.scope p = p := Option.some.inj hself
  refine hgenerated.field_of_contributes hp hname ?_ hfield
  rw [hself]
  exact .own hx (supplier?_eq_none (hschema ▸ hfrom.traced.ranked) (hschema ▸ hp.dataChild hx) hadded)

/-- Two containers that share a grouping, with a leaf added to what one of them has from it. -/
def Example.grafted : Datum :=
  document [
    ("groupings", [grouping "g" [container "c" [] [leaf "l"]]]),
    ("data", [container "x" ["g"], container "y" ["g"]]),
    ("augments", [.object [("target", .text "/m:x/m:c"), ("children", .list [leaf "k"])]])]

/-- A container that has a container from a grouping which nothing else uses, with a leaf added to that. -/
def Example.fostered : Datum :=
  document [
    ("groupings", [grouping "g" [container "c" [] [leaf "l"]]]),
    ("data", [container "x" ["g"]]),
    ("augments", [.object [("target", .text "/m:x/m:c"), ("children", .list [leaf "k"])]])]

theorem exists_field_of_generate_fostered :
    ∃ s doc p x name, (Schema.load Example.fostered).result = .ok s ∧
      (generate s [.text "m"] { strategy := .optimizing }).result = .ok doc ∧ s.Has p ∧
      p.node.template.isSome = true ∧ standing? s [.text "m"] { strategy := .optimizing } p = some p ∧
      definition? s [.text "m"] { strategy := .optimizing } p = some name ∧ x ∈ p.dataChildren ∧
      x.node.addedBy = none ∧ x.node.kind.isField = true ∧
      ∃ key q, (x.node.name == .scalar key) = true ∧ (Model.reference name).Field doc.definitions key q := by
  have htest : passes Example.fostered [.text "m"] { strategy := .optimizing } (fun s _ =>
      (s.node? "/m:x/m:c" none).any fun p => p.node.template.isSome &&
        ((standing? s [.text "m"] { strategy := .optimizing } p).any fun q => q.address == p.address) &&
          (definition? s [.text "m"] { strategy := .optimizing } p).isSome && p.dataChildren.any fun x =>
            x.node.name == .text "k" && x.node.addedBy.isNone && x.node.kind.isField) = true := by
    decide +kernel
  obtain ⟨s, doc, hload, hgenerate, htest⟩ := exists_of_passes htest
  simp only [Option.any_eq_true, List.any_eq_true, Bool.and_eq_true, Option.isNone_iff_eq_none, beq_iff_eq] at htest
  obtain ⟨p, hp, ⟨⟨hcopy, q, hq, haddress⟩, hsome⟩, x, hx, ⟨-, hadded⟩, hfield⟩ := htest
  obtain ⟨name, hname⟩ := Option.isSome_iff_exists.mp hsome
  have hhas := (Schema.isTarget_of_node? hp).has
  have hself : standing? s [.text "m"] { strategy := .optimizing } p = some p :=
    hq.trans (congrArg some ((has_of_standing? hhas hq).eq hhas haddress))
  exact ⟨s, doc, p, x, name, hload, hgenerate, hhas, hcopy, hself, hname, hx, hadded, hfield,
    exists_field_of_generate hload hgenerate hhas hself hname hx hadded hfield⟩

/-- What is added to a copy does not show when the copy is defined as its template is. -/
theorem not_field_of_generate_grafted :
    ∃ s doc p x name, (Schema.load Example.grafted).result = .ok s ∧
      (generate s [.text "m"] {}).result = .ok doc ∧ s.node? "/m:x/m:c" none = some p ∧
      definition? s [.text "m"] {} p = some name ∧ x ∈ p.dataChildren ∧ x.node.IsOwn ∧ x.node.kind = .leaf ∧
      ∀ key q, (x.node.name == .scalar key) = true → ¬(Model.reference name).Field doc.definitions key q := by
  have htest : passes Example.grafted [.text "m"] {} (fun s doc =>
      (s.node? "/m:x/m:c" none).any fun p =>
        ((definition? s [.text "m"] {} p).bind Datum.asKey?).any fun k =>
          (Model.inlined? doc.definitions k).any fun fields => p.dataChildren.any fun x =>
            x.node.template.isNone && x.node.addedBy.isNone && x.node.kind = .leaf &&
              !fields.any fun e => x.node.name == .scalar e.1) = true := by
    decide +kernel
  obtain ⟨s, doc, hload, hgenerate, htest⟩ := exists_of_passes htest
  simp only [Option.any_eq_true, List.any_eq_true, Bool.and_eq_true, Option.isNone_iff_eq_none,
    Option.bind_eq_some_iff, Bool.not_eq_true', decide_eq_true_eq] at htest
  obtain ⟨p, hp, k, ⟨name, hname, hk⟩, fields, hfields, x, hx, ⟨⟨htemplate, hadded⟩, hkind⟩, hnone⟩ := htest
  obtain rfl := Datum.eq_scalar_of_asKey? hk
  refine ⟨s, doc, p, x, _, hload, hgenerate, hp, hname, hx, ⟨htemplate, hadded⟩, hkind, fun key q hbeq hq => ?_⟩
  have hmem := (Model.field_iff_of_inlined? hfields).mp hq
  have := List.any_eq_false.mp hnone _ hmem
  exact this hbeq

/-! ### Read-only fields -/

/-- A field without a reference is read-only exactly when the data child of its name is operational state, when
nothing is shared or no choice or case hides the flag of what it gets from groupings. -/
theorem readOnly_of_generate {d : Datum} {s : Schema} {names : List Name} {settings : Settings} {doc : Document}
    (hload : (Schema.load d).result = .ok s)
    (hsharing : settings.strategy = .unpacking ∨ s.IsNamed ∧ s.IsFlat)
    (h : (generate s names settings).result = .ok doc) {p : Place} (hp : s.Has p)
    (hpart : p.address.part = .data) {name : Name} (hname : definition? s names settings p = some name)
    (hdistinct : p.dataChildren.Pairwise fun x y => (x.node.name == y.node.name) = false) :
    ∀ key q, (Model.reference name).Field doc.definitions key q → q.ref = none →
      (∃ x ∈ p.dataChildren, (x.node.name == .scalar key) = true) ∧
        ∀ x ∈ p.dataChildren, (x.node.name == .scalar key) = true → q.readOnly = !x.node.config := by
  intro key q hq href
  obtain ⟨declared, M, hfrom⟩ := Schema.exists_loadedFrom hload
  obtain ⟨modules, r, info, hgenerated⟩ := exists_generated hload h
  have hschema : r.scope.schema = s := by rw [hgenerated.ran.scope]
  have hstrategy : r.scope.strategy = settings.strategy := by rw [hgenerated.ran.scope]
  have htraced := hschema ▸ hfrom.traced
  have hconfigured := hschema ▸ Schema.configured_of_load hload
  have hnamed : r.scope.strategy = .optimizing → r.scope.schema.IsNamed ∧ r.scope.schema.IsFlat := by
    intro hoptimizing
    rw [hstrategy] at hoptimizing
    rw [hschema]
    exact hsharing.resolve_left (by simp [hoptimizing])
  have hhas : r.scope.schema.Has p := hschema ▸ hp
  have hrpcs : p.address.part ≠ .rpcs := by simp [hpart]
  obtain ⟨y, hy, hyname, hreadOnly⟩ := hgenerated.contributes_of_field hp hname hq
  obtain ⟨w, hw, hyw⟩ : ∃ w ∈ _, r.scope.schema.Mirrors True y w :=
    hy.exists_dataChild htraced (fun ho => (hnamed ho).1.knowsGroupings (hschema ▸ hfrom))
      (fun _ => ⟨hconfigured, fun ho => (hnamed ho).2⟩) (has_canonical hhas)
      fun _ => part_canonical htraced hhas hrpcs
  obtain ⟨v, hv, hwv⟩ := exists_dataChild_of_canonical htraced (fun _ => hconfigured) hhas (fun _ => hrpcs) hw
  have hyv := hwv.trans hyw
  have hvname : (v.node.name == .scalar key) = true := by
    rw [← htraced.eq_of_isBehind Statement.name (fun _ _ hc => hc.name) (hhas.dataChild hv) hyv.behind]
    exact hyname
  refine ⟨⟨v, hv, hvname⟩, fun x hx hxname => ?_⟩
  have hxv := Place.eq_of_named hdistinct hx hv hxname hvname
  rw [hxv, ← hyv.config trivial]
  exact hreadOnly href

/-- Two containers that share a grouping, one of which has a choice with operational state of its own. -/
def Example.mixed : Datum :=
  document [
    ("groupings", [grouping "g" [leaf "l"]]),
    ("data", [
      container "x" ["g"] [statement "choice" "h" [("children", .list [
        statement "case" "a" [("config", .bool false), ("children", .list [leaf "k"])]])]],
      container "y" ["g"]])]

theorem readOnly_of_generate_mixed :
    ∃ s doc p name, (Schema.load Example.mixed).result = .ok s ∧ s.IsNamed ∧ s.IsFlat ∧
      (generate s [.text "m"] {}).result = .ok doc ∧ s.Has p ∧ p.address.part = .data ∧
      definition? s [.text "m"] {} p = some name ∧
      (p.dataChildren.Pairwise fun x y => (x.node.name == y.node.name) = false) ∧
      ∀ key q, (Model.reference name).Field doc.definitions key q → q.ref = none →
        (∃ x ∈ p.dataChildren, (x.node.name == .scalar key) = true) ∧
          ∀ x ∈ p.dataChildren, (x.node.name == .scalar key) = true → q.readOnly = !x.node.config := by
  have htest : passes Example.mixed [.text "m"] {} (fun s _ =>
      s.modules.length = 1 && s.modules.all (·.name == .text "m") &&
        (s.places.all fun z => !z.node.kind.isTransparent || z.node.uses.isEmpty) &&
          (s.node? "/m:x" none).any fun p => p.address.part = .data && (definition? s [.text "m"] {} p).isSome &&
            decide (p.dataChildren.Pairwise fun x y => (x.node.name == y.node.name) = false)) = true := by
    decide +kernel
  obtain ⟨s, doc, hload, hgenerate, htest⟩ := exists_of_passes htest
  simp only [Option.any_eq_true, List.all_eq_true, Bool.and_eq_true, decide_eq_true_eq, Bool.or_eq_true,
    Bool.not_eq_true', List.isEmpty_iff] at htest
  obtain ⟨⟨⟨hlength, hnames⟩, huses⟩, p, hp, ⟨hpart, hsome⟩, hdistinct⟩ := htest
  obtain ⟨m, hm⟩ := List.length_eq_one_iff.mp hlength
  obtain ⟨name, hname⟩ := Option.isSome_iff_exists.mp hsome
  have hnamed : s.IsNamed := Schema.isNamed_of_single hm
    (Datum.eq_text_of_beq (hnames m (by simp [hm]))) (by decide)
  have hflat : s.IsFlat := Schema.isFlat_of_uses fun z hz ht =>
    (huses z hz.mem_places).resolve_left (by simp [ht])
  have hhas := (Schema.isTarget_of_node? hp).has
  exact ⟨s, doc, p, name, hload, hnamed, hflat, hgenerate, hhas, hpart, hname, hdistinct,
    readOnly_of_generate hload (.inr ⟨hnamed, hflat⟩) hgenerate hhas hpart hname hdistinct⟩

/-- Two containers that share a grouping, one of them in a case of operational state. -/
def Example.sheltered : Datum :=
  document [
    ("groupings", [grouping "g" [leaf "l"]]),
    ("data", [
      container "x" [] [statement "choice" "h" [("children", .list [
        statement "case" "a" [("config", .bool false), ("uses", .texts ["g"])]])]],
      container "y" ["g"]])]

/-- A flag of a case does not reach what the case has from a shared grouping. -/
theorem not_readOnly_of_generate_sheltered :
    ∃ s doc p name key q x, (Schema.load Example.sheltered).result = .ok s ∧
      (∀ p, s.Has p → p.dataChildren.Pairwise fun x y => (x.node.name == y.node.name) = false) ∧
      (generate s [.text "m"] {}).result = .ok doc ∧ s.node? "/m:x" none = some p ∧
      definition? s [.text "m"] {} p = some name ∧ (Model.reference name).Field doc.definitions key q ∧
      q.ref = none ∧ x ∈ p.dataChildren ∧ (x.node.name == .scalar key) = true ∧ x.node.config = false ∧
      q.readOnly = false := by
  have htest : passes Example.sheltered [.text "m"] {} (fun s doc =>
      (s.places.all fun p =>
        decide (p.dataChildren.Pairwise fun x y => (x.node.name == y.node.name) = false)) &&
      (s.node? "/m:x" none).any fun p =>
        ((definition? s [.text "m"] {} p).bind Datum.asKey?).any fun k =>
          (Model.inlined? doc.definitions k).any fun fields => fields.any fun e => p.dataChildren.any fun x =>
            e.2.ref.isNone && x.node.name == .scalar e.1 && !x.node.config && !e.2.readOnly) = true := by
    decide +kernel
  obtain ⟨s, doc, hload, hgenerate, htest⟩ := exists_of_passes htest
  simp only [Option.any_eq_true, List.any_eq_true, List.all_eq_true, Bool.and_eq_true, Option.isNone_iff_eq_none,
    Option.bind_eq_some_iff, Bool.not_eq_true', decide_eq_true_eq] at htest
  obtain ⟨hdistinct, p, hp, k, ⟨name, hname, hk⟩, fields, hfields, ⟨key, q⟩, hq, x, hx, ⟨⟨href, hxname⟩, hconfig⟩,
    hreadOnly⟩ := htest
  obtain rfl := Datum.eq_scalar_of_asKey? hk
  exact ⟨s, doc, p, _, key, q, x, hload, fun p hp => hdistinct p hp.mem_places, hgenerate, hp, hname,
    (Model.field_iff_of_inlined? hfields).mpr hq, href, hx, hxname, hconfig, hreadOnly⟩

end RestconfApi
