import RestconfApi.Proofs.Generation.Conversions
import RestconfApi.Proofs.Generation.References
import RestconfApi.Proofs.Schema.Suppliers

/-!
# Generation: what operations hand out

All that can be reached from the schema of an operation comes from nodes that can be reached from the node of
the operation: data children, templates that stand for nodes, and shared groupings. When all these are
configuration, nothing that is reached is read-only.
-/

namespace RestconfApi

open Definitions Generation

/-! ### What can be reached -/

namespace Property

/-- Neither the property nor its items are read-only. -/
def IsWritable : Property → Prop
  | { items := none, readOnly, .. } => readOnly = false
  | { items := some i, readOnly, .. } => readOnly = false ∧ IsWritable i

/-- A property leads to itself, to its items, and to the fields of the definition that it points at. -/
inductive Reaches (defs : Models) : Property → Property → Prop
  | self {p : Property} : Reaches defs p p
  | items {p i q : Property} : p.items = some i → Reaches defs i q → Reaches defs p q
  | field {p q r : Property} {name : Name} {key : Scalar} : p.ref = some name →
      (Model.reference name).Field defs key q → Reaches defs q r → Reaches defs p r

theorem IsWritable.readOnly : ∀ {p : Property}, p.IsWritable → p.readOnly = false
  | { items := none, .. }, h => h
  | { items := some _, .. }, h => h.1

theorem IsWritable.of_items : ∀ {p i : Property}, p.IsWritable → p.items = some i → i.IsWritable
  | { items := some _, .. }, _, h, rfl => h.2

theorem refs_subset_of_items : ∀ {p i : Property}, p.items = some i → i.refs ⊆ p.refs
  | { items := some i, .. }, _, rfl => by
    rw [refs]
    exact List.subset_append_right _ _

theorem ref_mem_refs : ∀ {p : Property} {name : Name}, p.ref = some name → name ∈ p.refs
  | { items := none, .. }, name, h => by
    rw [refs]
    exact Option.mem_toList.mpr h
  | { items := some i, .. }, name, h => by
    rw [refs]
    exact List.mem_append_left _ (Option.mem_toList.mpr h)

theorem IsWritable.of_agrees : ∀ {p q : Property}, p.agrees q = true → q.IsWritable → p.IsWritable
  | { items := none, .. }, q, h, hq => by
    rw [agrees, Bool.and_eq_true] at h
    exact (of_sameShape h.1).1.trans hq.readOnly
  | { items := some i, .. }, q, h, hq => by
    rw [agrees, Bool.and_eq_true] at h
    refine ⟨(of_sameShape h.1).1.trans hq.readOnly, ?_⟩
    cases hj : q.items with
    | none =>
      rw [hj] at h
      cases h.2
    | some j =>
      rw [hj] at h
      exact IsWritable.of_agrees h.2 (hq.of_items hj)

theorem exists_of_beq_some {name : Name} {r : Option Name} (h : (some name == r) = true) :
    ∃ name', r = some name' ∧ (name == name') = true := by
  cases r with
  | none => cases h
  | some name' => exact ⟨name', rfl, h⟩

/-- What a property points at agrees with something that an agreeing property points at. -/
theorem exists_ref_of_agrees : ∀ {p q : Property}, p.agrees q = true → ∀ r ∈ p.refs, ∃ r' ∈ q.refs,
    (r == r') = true
  | { items := none, .. }, q, h, r, hr => by
    rw [agrees, Bool.and_eq_true] at h
    rw [refs] at hr
    have hbeq := (of_sameShape h.1).2
    dsimp only at hbeq
    rw [Option.mem_toList.mp hr] at hbeq
    obtain ⟨r', hr', hrr⟩ := exists_of_beq_some hbeq
    exact ⟨r', ref_mem_refs hr', hrr⟩
  | { items := some i, .. }, q, h, r, hr => by
    rw [agrees, Bool.and_eq_true] at h
    rw [refs] at hr
    rcases List.mem_append.mp hr with hr | hr
    · have hbeq := (of_sameShape h.1).2
      dsimp only at hbeq
      rw [Option.mem_toList.mp hr] at hbeq
      obtain ⟨r', hr', hrr⟩ := exists_of_beq_some hbeq
      exact ⟨r', ref_mem_refs hr', hrr⟩
    · cases hj : q.items with
      | none =>
        rw [hj] at h
        cases h.2
      | some j =>
        rw [hj] at h
        obtain ⟨r', hr', hrr⟩ := exists_ref_of_agrees h.2 r hr
        exact ⟨r', refs_subset_of_items hj hr', hrr⟩

end Property

/-! ### Nodes that are reached -/

namespace Definitions

variable {c : Scope} {u : Definitions} {cut : Place → Prop} {defs : Models} {W : Place → Prop}

/-- Nodes of which the definitions have only configuration of their own, and which entail such nodes alone. -/
structure IsWritableSet (c : Scope) (u : Definitions) (W : Place → Prop) : Prop where
  config : ∀ {p y : Place}, W p → y ∈ ownChildren c u (u.canonical c p) → y.node.config = true
  field : ∀ {p y : Place}, W p → y ∈ ownChildren c u (u.canonical c p) → y.node.kind.isStructural = true → W y
  shared : ∀ {p x g : Place} {qname : String}, W p → x ∈ (u.canonical c p).dataChildren →
    supplier? c u (u.canonical c p).node x = some qname → c.schema.groupingNamed? qname = some g → W g

/-- What contributes to the definition of a node of `W` is an own field of some node of `W`. -/
theorem Contributes.exists_own (hW : IsWritableSet c u W) {p y : Place} (hp : W p)
    (h : Contributes c u (u.canonical c p) y) : ∃ q, W q ∧ y ∈ ownChildren c u (u.canonical c q) := by
  generalize htarget : u.canonical c p = target at h
  induction h generalizing p with
  | own hx hnone => exact ⟨p, hp, htarget ▸ List.mem_filter.mpr ⟨hx, Option.isNone_iff_eq_none.mpr hnone⟩⟩
  | shared houter hg _ ih =>
    obtain ⟨x, hx, hsupplier⟩ := houter.1
    rw [← htarget] at hx hsupplier
    exact ih (hW.shared hp hx hsupplier hg) rfl

/-- A property that is not read-only and points only at definitions that describe nodes of `W` to some
depth. -/
structure Leads (c : Scope) (u : Definitions) (cut : Place → Prop) (defs : Models) (W : Place → Prop)
    (depth : Nat) (π : Property) : Prop where
  writable : π.IsWritable
  refs : ∀ r ∈ π.refs, ∃ p name, r = .scalar name ∧ W p ∧
    Describes c u cut defs depth (u.canonical c p) name

theorem leads_structuralProperty {y : Place} (hy : y.node.config = true) {depth : Nat} {name? : Option Scalar}
    (hname : ∀ name, name? = some name → ∃ p, W p ∧ Describes c u cut defs depth (u.canonical c p) name) :
    Leads c u cut defs W depth (structuralProperty y name?) where
  writable := by
    unfold structuralProperty
    cases name? <;> by_cases hk : y.node.kind = .list <;> simp [hk, hy, Property.IsWritable]
  refs := by
    intro r hr
    rw [structuralProperty_refs] at hr
    obtain ⟨name, hmem, rfl⟩ := List.mem_map.mp hr
    obtain ⟨p, hp, hdescribes⟩ := hname name (Option.mem_toList.mp hmem)
    exact ⟨p, name, rfl, hp, hdescribes⟩

theorem PropertyOf.leads {depth : Nat} {y : Place} {π : Property}
    (h : PropertyOf c u cut (Describes c u cut defs depth) y π) (hconfig : y.node.config = true)
    (hstructural : y.node.kind.isStructural = true → W y) : Leads c u cut defs W depth π := by
  cases h with
  | leaf _ hq =>
    refine ⟨?_, by simp [(Schema.leafProperty_shape hq).1]⟩
    obtain ⟨t, reference, r, -, -, -, value, rfl, rfl⟩ := Schema.leafProperty_ok hq
    by_cases hk : y.node.kind = .leafList <;> simp [hk, hconfig, Property.IsWritable]
  | anydata => exact ⟨by simp [Property.IsWritable, hconfig], by simp [Property.refs]⟩
  | pointing hk hdescribes =>
    refine leads_structuralProperty hconfig fun name hname => ?_
    obtain rfl := Option.some.inj hname
    exact ⟨y, hstructural hk, hdescribes⟩
  | untyped => exact leads_structuralProperty hconfig (by simp)

theorem Leads.of_matches {depth : Nat} {π π' : Property} (h : Leads c u cut defs W depth π')
    (hm : π.Matches π') : Leads c u cut defs W depth π := by
  rcases hm with rfl | hagrees
  · exact h
  · refine ⟨.of_agrees hagrees h.writable, fun r hr => ?_⟩
    obtain ⟨r', hr', hbeq⟩ := Property.exists_ref_of_agrees hagrees r hr
    obtain ⟨p, name, rfl, hp, hdescribes⟩ := h.refs r' hr'
    obtain ⟨j, rfl, hj⟩ := Datum.beq_scalar_iff.mp hbeq
    exact ⟨p, j, rfl, hp, (describes_congr hj).mpr hdescribes⟩

theorem Leads.of_items {depth : Nat} {π i : Property} (h : Leads c u cut defs W depth π)
    (hi : π.items = some i) : Leads c u cut defs W depth i :=
  ⟨h.writable.of_items hi, fun r hr => h.refs r (Property.refs_subset_of_items hi hr)⟩

/-- Nothing read-only can be reached, also when other definitions have taken the place of those described. -/
theorem Leads.readOnly_of_reaches {defs' : Models} {f : Name → Name} (hf : Document.Folds f defs defs')
    (hW : IsWritableSet c u W) {π' q : Property} (h : π'.Reaches defs' q) :
    ∀ {π : Property}, π' = π.mapRefs f → (∀ depth, Leads c u cut defs W depth π) → q.readOnly = false := by
  induction h with
  | self =>
    rintro π rfl hleads
    rw [Property.readOnly_mapRefs]
    exact (hleads 0).writable.readOnly
  | items hi _ ih =>
    rintro π rfl hleads
    rw [Property.items_mapRefs] at hi
    obtain ⟨i₀, hi₀, rfl⟩ := Option.map_eq_some_iff.mp hi
    exact ih rfl fun depth => (hleads depth).of_items hi₀
  | field hname hfield _ ih =>
    rintro π rfl hleads
    rw [Property.ref_mapRefs] at hname
    obtain ⟨r, hr, rfl⟩ := Option.map_eq_some_iff.mp hname
    obtain ⟨_, k, rfl, -, hdescribes⟩ := (hleads 0).refs r (Property.ref_mem_refs hr)
    obtain ⟨q₀, hq₀, rfl⟩ := hf.field_of k _ _ hdescribes.defines hfield
    refine ih rfl fun depth => ?_
    obtain ⟨p, k', hk', hp, hdescribes⟩ := (hleads (depth + 1)).refs _ (Property.ref_mem_refs hr)
    obtain rfl := Datum.scalar.inj hk'
    obtain ⟨y, q', hy, -, hm, hprop⟩ := hdescribes.2.1 _ _ hq₀
    obtain ⟨p', hp', hown⟩ := hy.exists_own hW hp
    exact (hprop.leads (hW.config hp' hown) (hW.field hp' hown)).of_matches hm

/-! ### Payloads -/

/-- A node of an rpc entails this one. -/
def IsDrawnIn (c : Scope) (u : Definitions) (q : Place) : Prop :=
  ∃ p, c.schema.Has p ∧ p.address.part = .rpcs ∧ Entails c u (fun x => x.node.kind.isStructural = true) p q

/-- What rpcs draw from the bodies of groupings is configuration. -/
def DrawsConfig (c : Scope) (u : Definitions) : Prop :=
  ∀ q, IsDrawnIn c u q → ∀ y ∈ ownChildren c u (u.canonical c q), y.address.part = .groupings → y.node.config = true

theorem IsDrawnIn.congr {u' : Definitions} {q : Place} (hu : u.usages = u'.usages) (h : IsDrawnIn c u q) :
    IsDrawnIn c u' q := by
  obtain ⟨p, hp, hpart, hentails⟩ := h
  exact ⟨p, hp, hpart, hentails.congr hu⟩

theorem DrawsConfig.congr {u' : Definitions} (hu : u.usages = u'.usages) (h : DrawsConfig c u) :
    DrawsConfig c u' := by
  intro q hq y hy
  rw [← ownChildren_congr hu, ← canonical_congr hu] at hy
  exact h q (hq.congr hu.symm) y hy

/-- Where nothing is shared rpcs draw nothing from groupings. -/
theorem drawsConfig_of_unpacking (hc : c.strategy = .unpacking) : DrawsConfig c u := by
  rintro q ⟨p, -, hpart, hentails⟩ y hy hgroupings
  have hypart : y.address.part = .rpcs := by
    rw [Place.part_of_mem_dataChildren (mem_dataChildren_of_unpacking hc hy), hentails.part_eq hc, hpart]
  rw [hypart] at hgroupings
  cases hgroupings

/-- All that rpcs hand out is configuration if what they draw from groupings is. -/
theorem isWritableSet_isDrawnIn {augmented : Prop} {rank : Address → Nat} (htraced : c.schema.Traced augmented rank)
    (hconfig : c.schema.Configured) (h : DrawsConfig c u) : IsWritableSet c u (IsDrawnIn c u) where
  config := by
    intro q y hq hy
    obtain ⟨p, hp, hpart, hentails⟩ := id hq
    have hqhas := hentails.has hp
    have hyhas := (has_canonical hqhas).dataChild (List.mem_filter.mp hy).1
    rcases part_of_mem_ownChildren htraced hqhas hy with hypart | hgroupings
    · rcases hentails.part htraced hp with hqpart | hqpart
      · exact hconfig.rpcs hyhas (hypart.trans (hqpart.trans hpart))
      · exact h q hq y hy (hypart.trans hqpart)
    · exact h q hq y hy hgroupings
  field := by
    rintro q y ⟨p, hp, hpart, hentails⟩ hy hk
    exact ⟨p, hp, hpart, hentails.field hy hk⟩
  shared := by
    rintro q x g qname ⟨p, hp, hpart, hentails⟩ hx hsupplier hg
    exact ⟨p, hp, hpart, hentails.shared hx hsupplier hg⟩

end Definitions

/-- Nothing that can be reached from what an rpc takes or hands out is read-only, unless groupings are shared and rpcs
draw operational state from the body of one. -/
theorem writable_of_generate {d : Datum} {s : Schema} {names : List Name} {settings : Settings}
    {doc : Document} (hload : (Schema.load d).result = .ok s)
    (hdraws : settings.strategy = .unpacking ∨ ∀ modules groupings, (select s names).result = .ok modules →
      (Groupings.ofSchema s).result = .ok groupings →
        DrawsConfig ⟨s, groupings, settings.strategy, settings.levelLimit⟩ (prepared s settings modules))
    (h : (generate s names settings).result = .ok doc) :
    ∀ path os, (path, os) ∈ doc.paths → ¬path.IsDataPath → ∀ method o, (method, o) ∈ os →
      ∀ π ∈ o.schemas, ∀ q, π.Reaches doc.definitions q → q.readOnly = false := by
  intro path os hos hpath method o ho π hπ q hq
  obtain ⟨declared, M, hfrom⟩ := Schema.exists_loadedFrom hload
  obtain ⟨modules, r, info, hgenerated⟩ := exists_generated hload h
  have hran := hgenerated.ran
  have hschema : r.scope.schema = s := by rw [hran.scope]
  have hyields := postprocessAll_yields hgenerated.isClosed hgenerated.postprocessed
  obtain ⟨-, hschemas⟩ := hgenerated.operation hos ho
  obtain ⟨p, π₀, hserves, hp, ⟨name, rfl, hstands⟩, rfl⟩ := hschemas π hπ
  have hpart : p.address.part = .rpcs := by
    rcases hserves with ⟨x, -, -, rfl, -⟩ | ⟨-, hpart⟩
    · exact absurd ⟨_, rfl⟩ hpath
    · exact hpart
  have hdraws : DrawsConfig r.scope (counted r.definitions) := by
    rw [hran.scope]
    rcases hdraws with hunpacking | hdraws
    · exact drawsConfig_of_unpacking hunpacking
    · exact (hdraws modules _ hran.selected hran.groupings).congr (hran.isLooked hload).looked.counts.usages.symm
  have hW := isWritableSet_isDrawnIn (hschema ▸ hfrom.traced) (hschema ▸ Schema.configured_of_load hload) hdraws
  have hleads : ∀ depth, Leads r.scope (counted r.definitions)
      (Regime.free r.scope (counted r.definitions)).cut r.definitions.models
      (IsDrawnIn r.scope (counted r.definitions)) depth { ref := some (.scalar name) } := by
    refine fun depth => ⟨by simp [Property.IsWritable], fun ref href => ?_⟩
    obtain rfl : ref = .scalar name := by simpa [Property.refs] using href
    exact ⟨p, name, rfl, ⟨p, hschema ▸ hp, hpart, .self⟩, hstands depth⟩
  exact Leads.readOnly_of_reaches hyields.folds hW hq rfl hleads

/-- Two groupings that are both shared. The input of an rpc uses the one that is configuration; the other one has
operational state in it. -/
def Example.parted : Datum :=
  document [
    ("groupings", [grouping "g" [leaf "k", container "c" [] [leaf "i"]],
      grouping "h" [leaf "l" [("config", .bool false)]]]),
    ("data", [container "x" ["g", "h"], container "y" ["h"]]),
    ("rpcs", [rpc "r" ["g"]])]

/-- What stands in rpcs, and in groupings but for the one that has operational state. -/
def Example.isParted (p : Place) : Bool :=
  p.address.part = .rpcs || p.address.part = .groupings && !(p.node.name == .text "h")

theorem writable_of_generate_parted :
    ∃ s doc modules, (Schema.load Example.parted).result = .ok s ∧ (select s [.text "m"]).result = .ok modules ∧
      (prepared s {} modules).isShared "m:g" = true ∧
      (s.groupingNamed? "m:h").any (fun h => h.dataChildren.any (!·.node.config)) = true ∧
      (∀ modules groupings, (select s [.text "m"]).result = .ok modules →
        (Groupings.ofSchema s).result = .ok groupings →
          DrawsConfig ⟨s, groupings, .optimizing, none⟩ (prepared s {} modules)) ∧
      (generate s [.text "m"] {}).result = .ok doc ∧
      ∀ path os, (path, os) ∈ doc.paths → ¬path.IsDataPath → ∀ method o, (method, o) ∈ os →
        ∀ π ∈ o.schemas, ∀ q, π.Reaches doc.definitions q → q.readOnly = false := by
  -- what is parted from the operational state has only configuration of its own, and entails nothing else
  have htest : passes Example.parted [.text "m"] {} (fun s _ =>
      (s.groupingNamed? "m:h").any (fun h => h.dataChildren.any (!·.node.config)) &&
        (select s [.text "m"]).result.toOption.any fun modules => (prepared s {} modules).isShared "m:g" &&
          s.places.all fun p => !Example.isParted p ||
            (ownChildren ⟨s, ⟨[], []⟩, .optimizing, none⟩ (prepared s {} modules)
              ((prepared s {} modules).canonical ⟨s, ⟨[], []⟩, .optimizing, none⟩ p)).all (fun y =>
                y.node.config && (!y.node.kind.isStructural || Example.isParted y)) &&
              ((prepared s {} modules).canonical ⟨s, ⟨[], []⟩, .optimizing, none⟩ p).dataChildren.all fun x =>
                (supplier? ⟨s, ⟨[], []⟩, .optimizing, none⟩ (prepared s {} modules)
                  ((prepared s {} modules).canonical ⟨s, ⟨[], []⟩, .optimizing, none⟩ p).node x).all fun qname =>
                    (s.groupingNamed? qname).all Example.isParted) = true := by
    decide +kernel
  obtain ⟨s, doc, hload, hgenerate, htest⟩ := exists_of_passes htest
  rw [Bool.and_eq_true] at htest
  obtain ⟨hstate, htest⟩ := htest
  obtain ⟨modules, hselect, htest⟩ := exists_of_any htest
  simp only [Bool.and_eq_true, Bool.or_eq_true, Bool.not_eq_true', List.all_eq_true, Option.all_eq_true] at htest
  obtain ⟨hshared, hparted⟩ := htest
  have hdraws : ∀ modules groupings, (select s [.text "m"]).result = .ok modules →
      (Groupings.ofSchema s).result = .ok groupings →
        DrawsConfig ⟨s, groupings, .optimizing, none⟩ (prepared s {} modules) := by
    rintro modules' groupings hselect' - q ⟨p, hp, hpart, hentails⟩
    obtain rfl : modules = modules' := Except.ok.inj (hselect.symm.trans hselect')
    have hholds : ∀ q, s.Has q → Example.isParted q = true → _ := fun q hq h =>
      (hparted q hq.mem_places).resolve_left (by simp [h])
    have hq : Example.isParted q = true := by
      induction hentails with
      | self => simp [Example.isParted, hpart]
      | field hq hx hk ih => exact ((hholds _ (hq.has hp) ih).1 _ hx).2.resolve_left (by simp [hk])
      | shared hq hx hsupplier hg ih => exact (hholds _ (hq.has hp) ih).2 _ hx _ hsupplier _ hg
    exact fun y hy _ => ((hholds q (hentails.has hp) hq).1 y hy).1
  exact ⟨s, doc, modules, hload, hselect, hshared, hstate, hdraws, hgenerate,
    writable_of_generate hload (.inr hdraws) hgenerate⟩

/-- A container and the input of an rpc that share a grouping with operational state in it. -/
def Example.stateful : Datum :=
  document [
    ("groupings", [grouping "g" [leaf "l" [("config", .bool false)]]]),
    ("data", [container "x" ["g"]]),
    ("rpcs", [rpc "r" ["g"]])]

/-- Operational state in the body of a shared grouping shows in the payload. -/
theorem readOnly_of_generate_stateful :
    ∃ s doc, (Schema.load Example.stateful).result = .ok s ∧ (generate s [.text "m"] {}).result = .ok doc ∧
      ∃ path os method o π q, (path, os) ∈ doc.paths ∧ ¬path.IsDataPath ∧ (method, o) ∈ os ∧ π ∈ o.schemas ∧
        π.Reaches doc.definitions q ∧ q.readOnly = true := by
  have htest : passes Example.stateful [.text "m"] {} (fun _ doc =>
      (doc.operation? (.text "/operations/m:r") (.text "post")).any fun o => o.schemas.any fun π =>
        (π.ref.bind Datum.asKey?).any fun name => (Model.inlined? doc.definitions name).any fun fields =>
          fields.any (·.2.readOnly)) = true := by
    decide +kernel
  obtain ⟨s, doc, hload, hgenerate, htest⟩ := exists_of_passes htest
  simp only [Option.any_eq_true, List.any_eq_true, Option.bind_eq_some_iff] at htest
  obtain ⟨o, ho, π, hπ, name, ⟨ref, href, hname⟩, fields, hfields, ⟨key, q⟩, hq, hreadOnly⟩ := htest
  obtain ⟨os, method, hos, homem, -⟩ := Document.mem_of_operation? ho
  have hpath : ¬(Scalar.text "/operations/m:r").IsDataPath := by
    rintro ⟨path, hpath⟩
    have := congrArg String.toList (Scalar.text.inj hpath)
    simp at this
  obtain rfl := Datum.eq_scalar_of_asKey? hname
  exact ⟨s, doc, hload, hgenerate, _, os, method, o, π, q, hos, hpath, homem, hπ,
    .field href ((Model.field_iff_of_inlined? hfields).mpr hq) .self, hreadOnly⟩

end RestconfApi
