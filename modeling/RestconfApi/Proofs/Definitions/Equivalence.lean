import RestconfApi.Proofs.Definitions.Properties
import RestconfApi.Proofs.Definitions.Sharing
import RestconfApi.Proofs.Schema.Typing
import RestconfApi.Proofs.Swagger.Folding
import RestconfApi.Proofs.Swagger.Resemblance

/-!
# Definitions: the same fields with and without sharing

Definitions of nodes of one origin, one with shared groupings and one without, define fields of the same names: for
each data child of the one node something of the same origin contributes to the other, and the other way round.
Fields of one origin show the same, so that by induction on the depth all that can be reached does.
-/

namespace RestconfApi

open Schema (Akin)

/-! ### Texts of properties -/

theorem Datum.isWorded_ofText? (t : Option String) : (Datum.ofText? t).IsWorded := by
  cases t with
  | none => exact .inl rfl
  | some t => exact .inr ⟨t, rfl⟩

theorem Schema.leafProperty_isWorded {s : Schema} {p : Place} {q : Property}
    (h : (s.leafProperty p).result = .ok q) : q.IsWorded := by
  obtain ⟨t, reference, r, -, -, -, value, hvalue, rfl⟩ := leafProperty_ok h
  have hwords : value.HasWords := by
    rw [hvalue]
    refine ⟨.inr ⟨_, rfl⟩, Datum.isWorded_ofText? _, fun v hv => ?_⟩
    obtain ⟨text, -, rfl⟩ := List.mem_map.mp hv
    exact .inr ⟨text, rfl⟩
  have hworded : value.IsWorded := by
    subst hvalue
    exact hwords
  by_cases hk : p.node.kind = .leafList
  · simp only [if_pos hk]
    exact ⟨⟨.inr ⟨_, rfl⟩, .inl rfl, by simp⟩, hworded⟩
  · simp only [if_neg hk]
    subst hvalue
    exact ⟨hwords.type, hwords.format, hwords.enum⟩

namespace Definitions

variable {c c' : Scope} {u u' : Definitions} {cut cut' : Place → Prop} {defs defs' : Models}

theorem structuralProperty_isWorded (y : Place) (name : Option Scalar) : (structuralProperty y name).IsWorded := by
  have hwords : ∀ q : Property, q.type.IsWorded → q.format = .null → q.enum = [] → q.HasWords :=
    fun q htype hformat henum => ⟨htype, .inl hformat, by simp [henum]⟩
  unfold structuralProperty
  cases name with
  | none =>
    by_cases hk : y.node.kind = .list
    · simp only [if_pos hk]
      exact ⟨hwords _ (.inr ⟨_, rfl⟩) rfl rfl, hwords _ (.inr ⟨_, rfl⟩) rfl rfl⟩
    · simp only [if_neg hk]
      exact hwords _ (.inr ⟨_, rfl⟩) rfl rfl
  | some name =>
    by_cases hk : y.node.kind = .list
    · simp only [if_pos hk]
      exact ⟨hwords _ (.inr ⟨_, rfl⟩) rfl rfl, hwords _ (.inl rfl) rfl rfl⟩
    · simp only [if_neg hk]
      exact hwords _ (.inl rfl) rfl rfl

theorem PropertyOf.isWorded {next : Place → Scalar → Prop} {y : Place} {q : Property}
    (h : PropertyOf c u cut next y q) : q.IsWorded := by
  cases h with
  | leaf _ hq => exact Schema.leafProperty_isWorded hq
  | anydata => exact ⟨.inr ⟨_, rfl⟩, .inl rfl, by simp⟩
  | pointing => exact structuralProperty_isWorded y _
  | untyped => exact structuralProperty_isWorded y _

end Definitions

/-! ### Properties of nodes of one origin -/

section Akin

variable {augmented : Prop} {declared s : Schema} {M : Expansion.Expanded}

/-- Leaves of one origin have the same property, but for what leafrefs lead to. -/
theorem Schema.LoadedFrom.leafProperty_resembles (hfrom : LoadedFrom augmented declared M s)
    (haugmented : ¬augmented) {x y : Place} (hx : s.Has x) (hy : s.Has y) (hxy : s.Akin x y) {q q' : Property}
    (hq : (s.leafProperty x).result = .ok q) (hq' : (s.leafProperty y).result = .ok q')
    (next : Name → Name → Prop) : q.Resembles next q' := by
  obtain ⟨t, reference, r, ht, hreference, hr, value, rfl, rfl⟩ := leafProperty_ok hq
  obtain ⟨t', reference', r', ht', hreference', hr', value', rfl, rfl⟩ := leafProperty_ok hq'
  have hkind : x.node.kind = y.node.kind :=
    hfrom.traced.eq_of_akin Statement.kind (fun _ _ hc => hc.kind) hx hy hxy
  have htype : x.node.type = y.node.type :=
    hfrom.traced.eq_of_akin Statement.type (fun _ _ hc => hc.type) hx hy hxy
  have howner := hfrom.traced.typedefOwner_of_akin (fun p hp => hfrom.holds_owner haugmented hp) hx hy hxy
  obtain rfl : t = t' := Option.some.inj (ht.symm.trans (htype.trans ht'))
  rw [← howner] at hreference'
  obtain rfl : reference = reference' := Except.ok.inj (hreference.symm.trans hreference')
  cases hleafref : reference.type.isLeafref with
  | true => exact ⟨by simp, fun hnil => by simp at hnil⟩
  | false =>
    obtain rfl := concreteOrString_of_not_isLeafref hreference hleafref hr
    obtain rfl := concreteOrString_of_not_isLeafref (howner ▸ hreference) hleafref hr'
    refine ⟨by simp, fun _ => ?_⟩
    by_cases hk : x.node.kind = .leafList
    · simp only [if_pos hk, if_pos (hkind ▸ hk)]
      exact .items ⟨rfl, rfl, rfl, .none⟩ rfl rfl (.plain ⟨rfl, rfl, rfl, .none⟩ rfl rfl)
    · simp only [if_neg hk, if_neg (hkind ▸ hk)]
      exact .plain ⟨rfl, rfl, rfl, .none⟩ rfl rfl

end Akin

namespace Definitions

section Equivalence

variable {c c' : Scope} {u u' : Definitions} {defs defs' : Models} {augmented : Prop} {declared : Schema}
  {M : Expansion.Expanded}

/-- Names of definitions that describe nodes of one origin to a depth, where nothing stays untyped. -/
def Cognates (c : Scope) (u : Definitions) (c' : Scope) (u' : Definitions) (defs defs' : Models) (depth : Nat)
    (r r' : Name) : Prop :=
  ∃ k k' p p', r = .scalar k ∧ r' = .scalar k' ∧ c.schema.Has p ∧ c.schema.Has p' ∧ c.schema.Akin p p' ∧
    Describes c u (fun _ => False) defs depth p k ∧ Describes c' u' (fun _ => False) defs' depth p' k'

theorem Cognates.congr {depth : Nat} {r₁ r r' : Name} (h : Cognates c u c' u' defs defs' depth r r')
    (hbeq : (r₁ == r) = true) : Cognates c u c' u' defs defs' depth r₁ r' := by
  obtain ⟨k, k', p, p', rfl, rfl, hp, hp', hakin, hk, hk'⟩ := h
  obtain ⟨j, rfl, hj⟩ := Datum.beq_scalar_iff.mp hbeq
  exact ⟨j, k', p, p', rfl, rfl, hp, hp', hakin, (describes_congr hj).mpr hk, hk'⟩

theorem Cognates.congr' {depth : Nat} {r r' r₁ : Name} (h : Cognates c u c' u' defs defs' depth r r')
    (hbeq : (r₁ == r') = true) : Cognates c u c' u' defs defs' depth r r₁ := by
  obtain ⟨k, k', p, p', rfl, rfl, hp, hp', hakin, hk, hk'⟩ := h
  obtain ⟨j, rfl, hj⟩ := Datum.beq_scalar_iff.mp hbeq
  exact ⟨k, j, p, p', rfl, rfl, hp, hp', hakin, hk, (describes_congr hj).mpr hk'⟩

theorem resembles_structuralProperty {next : Name → Name → Prop} {y x : Place} (hkind : y.node.kind = x.node.kind)
    {name name' : Scalar} (h : next (.scalar name) (.scalar name')) :
    (structuralProperty y (some name)).Resembles next (structuralProperty x (some name')) := by
  unfold structuralProperty
  by_cases hk : y.node.kind = .list
  · simp only [if_pos hk, if_pos (hkind ▸ hk)]
    exact ⟨Iff.rfl, fun _ => .items ⟨rfl, rfl, rfl, .none⟩ rfl rfl (.plain ⟨rfl, rfl, rfl, .some h⟩ rfl rfl)⟩
  · simp only [if_neg hk, if_neg (hkind ▸ hk)]
    exact ⟨Iff.rfl, fun _ => .plain ⟨rfl, rfl, rfl, .some h⟩ rfl rfl⟩

/-- Properties of nodes of one origin show the same, one kind of node at a time. -/
theorem PropertyOf.resembles (hschema : c'.schema = c.schema)
    (hfrom : Schema.LoadedFrom augmented declared M c.schema) (haugmented : ¬augmented)
    (hunshared : c'.strategy = .unpacking) {y x : Place} (hy : c.schema.Has y) (hx : c.schema.Has x)
    (hyx : c.schema.Akin y x) {depth : Nat} {q q' : Property}
    (hq : PropertyOf c u (fun _ => False) (Describes c u (fun _ => False) defs depth) y q)
    (hq' : PropertyOf c' u' (fun _ => False) (Describes c' u' (fun _ => False) defs' depth) x q') :
    q.Resembles (Cognates c u c' u' defs defs' depth) q' := by
  have hkind : y.node.kind = x.node.kind :=
    hfrom.traced.eq_of_akin Statement.kind (fun _ _ hc => hc.kind) hy hx hyx
  cases hq with
  | leaf hk hleaf =>
    cases hq' with
    | leaf _ hleaf' =>
      rw [hschema] at hleaf'
      exact hfrom.leafProperty_resembles haugmented hy hx hyx hleaf hleaf' _
    | anydata hk' => simp [hkind, hk', Kind.isTyped] at hk
    | pointing hk' => cases hx : x.node.kind <;> simp_all [Kind.isTyped, Kind.isStructural]
    | untyped _ hcut => exact hcut.elim
  | anydata hk =>
    cases hq' with
    | leaf hk' => simp [← hkind, hk, Kind.isTyped] at hk'
    | anydata => exact ⟨Iff.rfl, fun _ => .plain ⟨rfl, rfl, rfl, .none⟩ rfl rfl⟩
    | pointing hk' => simp [← hkind, hk, Kind.isStructural] at hk'
    | untyped _ hcut => exact hcut.elim
  | pointing hk hname =>
    cases hq' with
    | leaf hk' => cases hx : x.node.kind <;> simp_all [Kind.isTyped, Kind.isStructural]
    | anydata hk' => simp [hkind, hk', Kind.isStructural] at hk
    | pointing _ hname' =>
      rw [canonical_unpacking hunshared] at hname'
      have hakin := (mirrors_canonical (u := u) hfrom.traced.ranked True hy).behind.akin.symm
      exact resembles_structuralProperty hkind
        ⟨_, _, _, _, rfl, rfl, has_canonical hy, hx, hakin.trans hyx, hname, hname'⟩
    | untyped _ hcut => exact hcut.elim
  | untyped _ hcut => exact hcut.elim

/-! ### Fields of nodes of one origin -/

theorem contributes_unpacking_iff (hc : c.strategy = .unpacking) {p y : Place} :
    Contributes c u p y ↔ y ∈ p.dataChildren := by
  have hnone : ∀ site x, supplier? c u site x = none := fun site x => by rw [supplier?, hc]
  constructor
  · rintro (⟨hx, -⟩ | ⟨⟨⟨x, -, hx⟩, -⟩, -, -⟩)
    · exact hx
    · rw [hnone] at hx
      cases hx
  · exact fun hy => .own hy (hnone _ _)

/-- Whatever contributes to the one of two nodes of one origin has its counterpart among the data children of the
other. -/
theorem Contributes.exists_akin (hfrom : Schema.LoadedFrom augmented declared M c.schema)
    (haugmented : ¬augmented) (hnamed : c.schema.IsNamed) {p p' y : Place} (hp : c.schema.Has p)
    (hp' : c.schema.Has p') (hakin : c.schema.Akin p p') (hy : Contributes c u p y) :
    c.schema.Has y ∧ ∃ x ∈ p'.dataChildren, c.schema.Akin y x := by
  obtain ⟨w, hw, hyw⟩ : ∃ w ∈ p.dataChildren, c.schema.Mirrors False y w :=
    hy.exists_dataChild hfrom.traced (fun _ => hnamed.knowsGroupings hfrom) False.elim hp False.elim
  obtain ⟨x, hx, hxw⟩ := hfrom.traced.exists_akin_dataChild haugmented hp' hp hakin.symm hw
  exact ⟨hyw.behind.has (hp.dataChild hw), x, hx, hyw.behind.akin.symm.trans hxw.symm⟩

/-- And for each data child of the other there is something that contributes. -/
theorem exists_contributes_akin (hfrom : Schema.LoadedFrom augmented declared M c.schema)
    (haugmented : ¬augmented) (hnamed : c.schema.IsNamed) (hgroupings : c.schema.NamesGroupings)
    (hhierarchy : (Groupings.ofSchema c.schema).result = .ok c.groupings) {p p' x : Place} (hp : c.schema.Has p)
    (hp' : c.schema.Has p') (hakin : c.schema.Akin p p') (hx : x ∈ p'.dataChildren) :
    ∃ y, c.schema.Has y ∧ Contributes c u p y ∧ c.schema.Akin y x := by
  obtain ⟨w, hw, hwx⟩ := hfrom.traced.exists_akin_dataChild haugmented hp hp' hakin hx
  obtain ⟨y, hy, hwy⟩ := exists_contributes (u := u) hfrom hnamed hgroupings hhierarchy hp hw
  exact ⟨y, (hy.exists_akin hfrom haugmented hnamed hp hp' hakin).1, hy, hwy.symm.trans hwx⟩

/-- Definitions of nodes of one origin show the same, whatever has been put in place of them: with sharing on the
left, without on the right. -/
theorem equate_of_describes (hschema : c'.schema = c.schema)
    (hfrom : Schema.LoadedFrom augmented declared M c.schema) (haugmented : ¬augmented) (hnamed : c.schema.IsNamed)
    (hgroupings : c.schema.NamesGroupings) (hhierarchy : (Groupings.ofSchema c.schema).result = .ok c.groupings)
    (hdistinct : ∀ p, c.schema.Has p →
      p.dataChildren.Pairwise fun x y => (x.node.name == y.node.name) = false)
    (hunshared : c'.strategy = .unpacking) {f f' : Name → Name} {final final' : Models}
    (hf : Document.Folds f defs final) (hf' : Document.Folds f' defs' final') (depth : Nat) {p p' : Place}
    {k k' : Scalar} (hp : c.schema.Has p) (hp' : c.schema.Has p') (hakin : c.schema.Akin p p')
    (hk : Describes c u (fun _ => False) defs depth p k)
    (hk' : Describes c' u' (fun _ => False) defs' depth p' k') :
    Models.Equate final final' depth (f (.scalar k)) (f' (.scalar k')) := by
  induction depth generalizing p p' k k' with
  | zero => trivial
  | succ depth ih =>
    obtain ⟨hdef, hsound, hcomplete, -⟩ := hk
    obtain ⟨hdef', hsound', hcomplete', -⟩ := hk'
    have hname : ∀ {y x : Place}, c.schema.Has y → c.schema.Has x → c.schema.Akin y x →
        y.node.name = x.node.name := fun hy hx hyx =>
      hfrom.traced.eq_of_akin Statement.name (fun _ _ hc => hc.name) hy hx hyx
    have hkind : ∀ {y x : Place}, c.schema.Has y → c.schema.Has x → c.schema.Akin y x →
        y.node.kind = x.node.kind := fun hy hx hyx =>
      hfrom.traced.eq_of_akin Statement.kind (fun _ _ hc => hc.kind) hy hx hyx
    refine ⟨fun key q hq => ?_, fun key' q' hq' => ?_, fun key q key' q' hq hq' hkeys => ?_⟩
    · obtain ⟨q₀, hq₀, rfl⟩ := hf.field_of k key q hdef hq
      obtain ⟨y, q₁, hy, hykey, -, hproperty⟩ := hsound key q₀ hq₀
      obtain ⟨hyhas, x, hx, hyx⟩ := hy.exists_akin hfrom haugmented hnamed hp hp' hakin
      have hxhas := hp'.dataChild hx
      obtain ⟨key', q', hxkey, hq'⟩ := hcomplete' x ((contributes_unpacking_iff hunshared).mpr hx)
        (hkind hyhas hxhas hyx ▸ hproperty.isField)
      rw [hname hyhas hxhas hyx] at hykey
      exact ⟨key', _, Datum.key_beq hykey hxkey, hf'.field k' key' q' hdef' hq'⟩
    · obtain ⟨q₀', hq₀', rfl⟩ := hf'.field_of k' key' q' hdef' hq'
      obtain ⟨x, q₁', hx, hxkey, -, hproperty⟩ := hsound' key' q₀' hq₀'
      rw [contributes_unpacking_iff hunshared] at hx
      obtain ⟨y, hyhas, hy, hyx⟩ :=
        exists_contributes_akin (u := u) hfrom haugmented hnamed hgroupings hhierarchy hp hp' hakin hx
      have hxhas := hp'.dataChild hx
      obtain ⟨key, q, hykey, hq⟩ := hcomplete y hy ((hkind hyhas hxhas hyx).symm ▸ hproperty.isField)
      rw [hname hyhas hxhas hyx] at hykey
      exact ⟨key, _, Datum.key_beq hykey hxkey, hf.field k key q hdef hq⟩
    · obtain ⟨q₀, hq₀, rfl⟩ := hf.field_of k key q hdef hq
      obtain ⟨q₀', hq₀', rfl⟩ := hf'.field_of k' key' q' hdef' hq'
      obtain ⟨y, q₁, hy, hykey, hmatches, hproperty⟩ := hsound key q₀ hq₀
      obtain ⟨x, q₁', hx, hxkey, hmatches', hproperty'⟩ := hsound' key' q₀' hq₀'
      rw [contributes_unpacking_iff hunshared] at hx
      obtain ⟨hyhas, x', hx', hyx'⟩ := hy.exists_akin hfrom haugmented hnamed hp hp' hakin
      -- the counterpart of `y` is `x`, as no other data child has its name
      have hx'key : (x'.node.name == .scalar key') = true := by
        rw [← hname hyhas (hp'.dataChild hx') hyx']
        exact Datum.beq_scalar_trans hykey hkeys
      obtain rfl := Place.eq_of_named (hdistinct p' hp') hx' hx hx'key hxkey
      have hresembles := PropertyOf.resembles hschema hfrom haugmented hunshared hyhas (hp'.dataChild hx) hyx'
        hproperty hproperty'
      have hresembles' := (hresembles.of_matches (fun _ _ _ hbeq h => h.congr hbeq) hproperty.isWorded
        hmatches).symm
      refine (hresembles'.of_matches (fun _ _ _ hbeq h => h.congr' hbeq) hproperty'.isWorded
        hmatches').symm.mapRefs ?_
      rintro _ _ ⟨j, j', z, z', rfl, rfl, hz, hz', hzz, hj, hj'⟩
      exact ih hz hz' hzz hj hj'

end Equivalence

end Definitions

end RestconfApi
