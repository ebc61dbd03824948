import Mathlib.Tactic.MkIffOfInductiveProp
import RestconfApi.Proofs.Swagger.Rendering
import RestconfApi.Proofs.Swagger.Targets

/-!
# Swagger: the references that a document shows

What a document points at and what its rendered form refers to are found by walks of their own. They are the same
names in the same order, but for what an extension hides, and a change of the names shows as the same change of
the references and in nothing else.
-/

namespace RestconfApi

open Datum

/-- The place of the definition of a name, as it is referred to. -/
def target (name : Name) : String := "#/definitions/" ++ name.wording

/-- A change of texts as one of names. -/
def onTexts (f : String → String) : Name → Name
  | .text t => .text (f t)
  | name => name

/-- The same change for the places of definitions: `#/definitions/` and the name. -/
def retarget (f : String → String) (t : String) : String :=
  "#/definitions/" ++ f (String.ofList (t.toList.drop 14))

theorem retarget_target (f : String → String) (t : String) :
    retarget f (target (.text t)) = target (onTexts f (.text t)) := by
  have hplace : (target (.text t)).toList = "#/definitions/".toList ++ t.toList := String.toList_append
  have hlength : "#/definitions/".toList.length = 14 := by decide
  rw [retarget, hplace, ← hlength, List.drop_left, String.ofList_toList]
  rfl

/-! ### What is shown of a list of names -/

/-- `shown` are some of `names` in their order, and all of them if `clear`. -/
def Shows (clear : Prop) (shown names : List String) : Prop := shown.Sublist names ∧ (clear → shown = names)

namespace Shows

variable {clear : Prop}

theorem refl (names : List String) : Shows clear names names := ⟨.refl _, fun _ => rfl⟩

theorem append {shown shown' names names' : List String} (h : Shows clear shown names)
    (h' : Shows clear shown' names') : Shows clear (shown ++ shown') (names ++ names') :=
  ⟨h.1.append h'.1, fun hclear => by rw [h.2 hclear, h'.2 hclear]⟩

theorem flatMap {α : Type} {shown names : α → List String} {xs : List α}
    (h : ∀ x ∈ xs, Shows clear (shown x) (names x)) : Shows clear (xs.flatMap shown) (xs.flatMap names) := by
  induction xs with
  | nil => exact refl []
  | cons x xs ih =>
    obtain ⟨hx, hxs⟩ := List.forall_mem_cons.mp h
    rw [List.flatMap_cons, List.flatMap_cons]
    exact hx.append (ih hxs)

theorem trans_sublist {shown shown' names : List String} (h : Shows clear shown' names)
    (hsub : shown.Sublist shown') (heq : clear → shown = shown') : Shows clear shown names :=
  ⟨hsub.trans h.1, fun hclear => (heq hclear).trans (h.2 hclear)⟩

end Shows

/-! ### Properties -/

namespace Property

/-- What a property says besides its reference and its items. -/
def values (p : Property) : List Datum := [p.type, p.format, .list p.enum, p.description, .mapping p.extensions]

/-- Nothing but the reference of a property, or that of its items, is a reference, and it has none of its own
besides items. -/
def IsRegular : Property → Prop
  | p@{ items := none, .. } => ∀ v ∈ p.values, v.hasRef = false
  | p@{ items := some q, .. } => (∀ v ∈ p.values, v.hasRef = false) ∧ p.ref = none ∧ q.IsRegular

/-- No extension takes the place of the items. -/
def IsUncovered : Property → Prop
  | { items := none, .. } => True
  | { items := some q, extensions, .. } => extensions.get? (.text "items") = none ∧ q.IsUncovered

theorem asText?_toDatum (p : Property) : p.toDatum.asText? = none := by
  obtain ⟨_, _, _, _, items, _, _, _, _⟩ := p
  cases items <;> rfl

theorem itemsInduction {motive : Property → Prop} (plain : ∀ p, p.items = none → motive p)
    (array : ∀ p q, p.items = some q → motive q → motive p) : ∀ p, motive p
  | { items := none, .. } => plain _ rfl
  | { items := some q, .. } => array _ q rfl (itemsInduction plain array q)

variable {p q : Property} {g : String → String}

theorem toDatum_of_items_none (h : p.items = none) : p.toDatum = p.withExtensions [] := by
  cases p
  obtain rfl := h
  rfl

theorem toDatum_of_items_some (h : p.items = some q) :
    p.toDatum = p.withExtensions (fieldOf "items" q.toDatum) := by
  cases p
  obtain rfl := h
  rfl

theorem refs_of_items_none (h : p.items = none) : p.refs = p.ref.toList := by
  cases p
  obtain rfl := h
  rfl

theorem refs_of_items_some (h : p.items = some q) : p.refs = p.ref.toList ++ q.refs := by
  cases p
  obtain rfl := h
  rfl

theorem isRegular_of_items_none (h : p.items = none) : p.IsRegular ↔ ∀ v ∈ p.values, v.hasRef = false := by
  cases p
  obtain rfl := h
  rfl

theorem isRegular_of_items_some (h : p.items = some q) :
    p.IsRegular ↔ (∀ v ∈ p.values, v.hasRef = false) ∧ p.ref = none ∧ q.IsRegular := by
  cases p
  obtain rfl := h
  rfl

theorem isUncovered_of_items_some (h : p.items = some q) :
    p.IsUncovered ↔ p.extensions.get? (.text "items") = none ∧ q.IsUncovered := by
  cases p
  obtain rfl := h
  rfl

theorem targets_shapeFields (h : ∀ v ∈ p.values, v.hasRef = false) (items : Fields) :
    targetsOfEntries (p.shapeFields items) = targetsOfEntries items := by
  simp only [values, List.forall_mem_cons] at h
  obtain ⟨htype, hformat, henum, hdescription, -⟩ := h
  have hreadOnly : (Datum.bool p.readOnly).targets = [] := rfl
  simp [shapeFields, targetsOfEntries_append, targetsOfEntries_fieldUnlessNull, targetsOfEntries_fieldIf,
    targets_of_not_hasRef, htype, hformat, henum, hdescription, hreadOnly]

theorem mapEntries_shapeFields (h : ∀ v ∈ p.values, v.hasRef = false) (items : Fields) :
    mapEntries g (p.shapeFields items) = p.shapeFields (mapEntries g items) := by
  simp only [values, List.forall_mem_cons] at h
  obtain ⟨htype, hformat, henum, hdescription, -⟩ := h
  have hreadOnly : (Datum.bool p.readOnly).mapTargets g = .bool p.readOnly := rfl
  simp [shapeFields, mapEntries_append, mapEntries_fieldUnlessNull, mapEntries_fieldIf,
    mapTargets_of_not_hasRef, htype, hformat, henum, hdescription, hreadOnly]

/-- A property with a reference shows it. -/
theorem targets_withExtensions_some (h : ∀ v ∈ p.values, v.hasRef = false) {name : Name}
    (href : p.ref = some name) (items : Fields) : (p.withExtensions items).targets = [target name] := by
  have hext : haveRef p.extensions = false := h (.mapping p.extensions) (by simp [values])
  simp only [withExtensions, href, targets]
  rw [targetsOfEntries_overlay hext]
  · simp [fieldOf, targetsOfEntries, definitionRef, target, asText?, targets]
  · intro e he hne
    rw [List.mem_singleton.mp he] at hne
    exact absurd rfl hne

theorem mapTargets_withExtensions_some (h : ∀ v ∈ p.values, v.hasRef = false) {name name' : Name}
    (href : p.ref = some name) (hname : g (target name) = target name') (items : Fields) :
    (p.withExtensions items).mapTargets g = ({ p with ref := some name' } : Property).withExtensions items := by
  have hext : haveRef p.extensions = false := h (.mapping p.extensions) (by simp [values])
  simp only [withExtensions, href, mapTargets, mapEntries_overlay hext]
  have hfields : mapEntries g (fieldOf "$ref" (definitionRef name)) = fieldOf "$ref" (definitionRef name') := by
    show [(Scalar.text "$ref", Datum.text (g (target name)))] = _
    rw [hname]
    rfl
  rw [hfields]

theorem mapTargets_withExtensions_none (h : ∀ v ∈ p.values, v.hasRef = false) (href : p.ref = none)
    (items : Fields) : (p.withExtensions items).mapTargets g = p.withExtensions (mapEntries g items) := by
  have hext : haveRef p.extensions = false := h (.mapping p.extensions) (by simp [values])
  simp only [withExtensions, href, mapTargets, mapEntries_overlay hext, mapEntries_shapeFields h]

/-- The items of a property are shown unless an extension takes their place. -/
theorem shows_withExtensions_none {clear : Prop} (h : ∀ v ∈ p.values, v.hasRef = false) (href : p.ref = none)
    {item : Datum} (hclear : clear → p.extensions.get? (.text "items") = none) :
    Shows clear (p.withExtensions (fieldOf "items" item)).targets item.targets := by
  have hvalues := h
  simp only [values, List.forall_mem_cons] at hvalues
  obtain ⟨htype, hformat, henum, hdescription, hext, -⟩ := hvalues
  have hfields : targetsOfEntries (p.shapeFields (fieldOf "items" item)) = item.targets := by
    rw [targets_shapeFields h, targetsOfEntries_fieldOf (by decide)]
  simp only [withExtensions, href, targets]
  refine ⟨hfields ▸ sublist_targetsOfEntries_overlay hext, fun hc => hfields ▸ targetsOfEntries_overlay hext ?_⟩
  -- of the fields only the items have references
  intro e he hne e' he'
  have hitems : e = (.text "items", item) := by
    simp only [shapeFields, List.mem_append] at he
    rcases he with ((((he | he) | he) | he) | he) | he
    · exact absurd (eq_of_mem_fieldUnlessNull he ▸ targets_of_not_hasRef htype) hne
    · exact absurd (eq_of_mem_fieldUnlessNull he ▸ targets_of_not_hasRef hformat) hne
    · exact eq_of_mem_fieldOf he
    · exact absurd (eq_of_mem_fieldIf he ▸ targets_of_not_hasRef henum) hne
    · exact absurd (eq_of_mem_fieldIf he ▸ targets_of_not_hasRef hdescription) hne
    · exact absurd (eq_of_mem_fieldIf he ▸ rfl) hne
  rw [hitems, BEq.comm]
  exact Entries.get?_eq_none_iff.mp (hclear hc) _ (List.mem_map_of_mem he')

/-- What a property points at is what it refers to, but for items that an extension hides. -/
theorem shows {clear : Prop} (h : p.IsRegular) (hclear : clear → p.IsUncovered) :
    Shows clear p.toDatum.targets (p.refs.map target) := by
  induction p using Property.itemsInduction with
  | plain p hitems =>
    rw [toDatum_of_items_none hitems, refs_of_items_none hitems]
    have hvalues := (isRegular_of_items_none hitems).mp h
    cases href : p.ref with
    | none =>
      have hext : haveRef p.extensions = false := hvalues (.mapping p.extensions) (by simp [values])
      have hnone : (p.withExtensions []).targets.Sublist [] := by
        simp only [withExtensions, href, targets]
        have hfields := targets_shapeFields hvalues []
        exact (sublist_targetsOfEntries_overlay hext).trans (hfields ▸ .refl _)
      rw [List.sublist_nil.mp hnone]
      exact Shows.refl []
    | some name =>
      rw [targets_withExtensions_some hvalues href]
      exact Shows.refl [target name]
  | array p q hitems ih =>
    obtain ⟨hvalues, href, hq⟩ := (isRegular_of_items_some hitems).mp h
    rw [toDatum_of_items_some hitems, refs_of_items_some hitems, href]
    have hitem := ih hq fun hc => ((isUncovered_of_items_some hitems).mp (hclear hc)).2
    have hshown := @shows_withExtensions_none p clear hvalues href q.toDatum fun hc =>
      ((isUncovered_of_items_some hitems).mp (hclear hc)).1
    exact hitem.trans_sublist hshown.1 hshown.2

/-- A change of the names that a property points at is one of what it refers to. -/
theorem toDatum_mapRefs {f : Name → Name} (h : p.IsRegular)
    (hf : ∀ r ∈ p.refs, g (target r) = target (f r)) : (p.mapRefs f).toDatum = p.toDatum.mapTargets g := by
  induction p using Property.itemsInduction with
  | plain p hitems =>
    have hvalues := (isRegular_of_items_none hitems).mp h
    rw [refs_of_items_none hitems] at hf
    rw [mapRefs_items_none hitems, toDatum_of_items_none hitems,
      toDatum_of_items_none (p := { p with ref := p.ref.map f }) hitems]
    cases href : p.ref with
    | none =>
      rw [mapTargets_withExtensions_none hvalues href]
      simp only [withExtensions, href, Option.map_none]
      rfl
    | some name =>
      rw [href] at hf
      exact (mapTargets_withExtensions_some hvalues href (hf name (List.mem_singleton.mpr rfl)) []).symm
  | array p q hitems ih =>
    obtain ⟨hvalues, href, hq⟩ := (isRegular_of_items_some hitems).mp h
    rw [refs_of_items_some hitems] at hf
    have hitem := ih hq fun r hr => hf r (List.mem_append_right _ hr)
    rw [mapRefs_items_some hitems, toDatum_of_items_some rfl, toDatum_of_items_some hitems,
      mapTargets_withExtensions_none hvalues href, mapEntries_fieldOf (by decide), hitem]
    simp only [withExtensions, href, Option.map_none]
    rfl

theorem isWritable_of_refs (h : ∀ r ∈ p.refs, ∃ t, r = .text t) : p.isWritable = true := by
  induction p using Property.itemsInduction with
  | plain p hitems =>
    obtain ⟨_, _, ref, _, items, _, _, _, _⟩ := p
    obtain rfl : items = none := hitems
    cases ref with
    | none => rfl
    | some name =>
      obtain ⟨t, rfl⟩ := h name (List.mem_singleton.mpr rfl)
      rfl
  | array p q hitems ih =>
    obtain ⟨_, _, ref, _, items, _, _, _, _⟩ := p
    obtain rfl : items = some q := hitems
    cases ref with
    | none => exact ih fun r hr => h r (List.mem_append_right _ hr)
    | some name =>
      obtain ⟨t, rfl⟩ := h name List.mem_cons_self
      rfl

end Property

/-! ### Objects and models -/

namespace ObjectModel

/-- What an object says besides its properties. -/
def values (o : ObjectModel) : List Datum := [.list o.required, o.description, .mapping o.extensions]

/-- Nothing but the references of its properties is a reference. -/
@[mk_iff]
structure IsRegular (o : ObjectModel) : Prop where
  values : ∀ v ∈ o.values, v.hasRef = false
  properties : ∀ e ∈ o.properties, e.2.IsRegular

/-- No extension takes the place of the properties, or of the items of one. -/
structure IsUncovered (o : ObjectModel) : Prop where
  extensions : o.extensions.get? (.text "properties") = none
  properties : ∀ e ∈ o.properties, e.2.IsUncovered

/-- The fields of an object under its extensions. -/
def ownFields (o : ObjectModel) (properties : Fields) : Fields :=
  fieldOf "type" (.text "object") ++ fieldIf "description" o.description ++
    fieldIf "required" (.list o.required) ++ fieldOf "properties" (.mapping properties)

theorem toDatum_eq (o : ObjectModel) :
    o.toDatum = .mapping (overlay (o.ownFields (o.properties.map fun e => (e.1, e.2.toDatum))) o.extensions) := rfl

variable {o : ObjectModel} {g : String → String}

theorem shows {clear : Prop} (h : o.IsRegular) (hclear : clear → o.IsUncovered) :
    Shows clear o.toDatum.targets (o.refs.map target) := by
  have hvalues := h.values
  simp only [values, List.forall_mem_cons] at hvalues
  obtain ⟨hrequired, hdescription, hext, -⟩ := hvalues
  have hfields : targetsOfEntries (o.ownFields (o.properties.map fun e => (e.1, e.2.toDatum))) =
      o.properties.flatMap fun e => e.2.toDatum.targets := by
    have hrequired' : o.required.flatMap targets = [] := by simpa using targets_of_not_hasRef hrequired
    simp [ownFields, targets_of_not_hasRef, hdescription, hrequired',
      targetsOfEntries_map o.properties Property.asText?_toDatum]
  have hproperties : Shows clear (o.properties.flatMap fun e => e.2.toDatum.targets) (o.refs.map target) := by
    rw [refs, List.map_flatMap]
    exact Shows.flatMap fun e he => Property.shows (h.properties e he) fun hc => (hclear hc).properties e he
  rw [toDatum_eq, targets]
  rw [← hfields] at hproperties
  refine hproperties.trans_sublist (sublist_targetsOfEntries_overlay hext) fun hc =>
    targetsOfEntries_overlay hext ?_
  -- of the fields only the properties have references
  intro e he hne e' he'
  have hkey : e.1 = .text "properties" := by
    simp only [ownFields, List.mem_append] at he
    rcases he with ((he | he) | he) | he
    · exact absurd (eq_of_mem_fieldOf he ▸ rfl) hne
    · exact absurd (eq_of_mem_fieldIf he ▸ targets_of_not_hasRef hdescription) hne
    · exact absurd (eq_of_mem_fieldIf he ▸ targets_of_not_hasRef hrequired) hne
    · rw [eq_of_mem_fieldOf he]
  rw [hkey, BEq.comm]
  exact Entries.get?_eq_none_iff.mp (hclear hc).extensions _ (List.mem_map_of_mem he')

theorem toDatum_mapProperties {f : Name → Name} (h : o.IsRegular)
    (hf : ∀ r ∈ o.refs, g (target r) = target (f r)) :
    (o.mapProperties (Property.mapRefs f)).toDatum = o.toDatum.mapTargets g := by
  have hvalues := h.values
  simp only [values, List.forall_mem_cons] at hvalues
  obtain ⟨hrequired, hdescription, hext, -⟩ := hvalues
  have hproperties : mapEntries g (o.properties.map fun e => (e.1, e.2.toDatum)) =
      o.properties.map fun e => (e.1, (e.2.mapRefs f).toDatum) := by
    rw [mapEntries_map o.properties Property.asText?_toDatum]
    refine List.map_congr_left fun e he => ?_
    rw [Property.toDatum_mapRefs (h.properties e he) fun r hr =>
      hf r (List.mem_flatMap.mpr ⟨e, he, hr⟩)]
  have hrequired' : o.required.map (mapTargets g) = o.required := by
    simpa using @mapTargets_of_not_hasRef g _ hrequired
  simp [toDatum_eq, mapEntries_overlay hext, ownFields, mapTargets_of_not_hasRef, hdescription, hrequired',
    hproperties, mapProperties, Function.comp_def]

theorem isWritable_of_refs (h : ∀ r ∈ o.refs, ∃ t, r = .text t) : o.isWritable = true :=
  List.all_eq_true.mpr fun e he =>
    Property.isWritable_of_refs fun r hr => h r (List.mem_flatMap.mpr ⟨e, he, hr⟩)

end ObjectModel

namespace Model

/-- A flat model in which nothing but the references is a reference. -/
@[mk_iff]
structure IsRegular (m : Model) : Prop where
  flat : m.isFlat = true
  objects : ∀ o ∈ m.objects, o.IsRegular
  description : ∀ parts about, m = .composed parts about → about.hasRef = false

/-- No extension takes the place of something with references. -/
def IsUncovered (m : Model) : Prop := ∀ o ∈ m.objects, o.IsUncovered

theorem asText?_toDatum (m : Model) : m.toDatum.asText? = none := by
  cases m <;> rfl

theorem IsRegular.of_mem {parts : List Model} {about : Datum} (h : (Model.composed parts about).IsRegular)
    {m : Model} (hm : m ∈ parts) : m.isComposed = false ∧ m.IsRegular := by
  have hpart := not_isComposed_of_mem h.flat hm
  refine ⟨hpart, isFlat_of_not_isComposed hpart, fun o ho => h.objects o (objects_subset_of_mem hpart hm ho), ?_⟩
  rintro parts about rfl
  cases hpart

theorem partRefs_of_not_isComposed {m : Model} (h : m.isComposed = false) : m.partRefs = m.refs := by
  cases m with
  | composed => cases h
  | reference => rfl
  | object => rfl

variable {m : Model} {g : String → String}

theorem shows_part {clear : Prop} (h : m.IsRegular) (hm : m.isComposed = false)
    (hclear : clear → m.IsUncovered) : Shows clear m.toDatum.targets (m.refs.map target) := by
  cases m with
  | composed => cases hm
  | reference name => exact Shows.refl [target name]
  | object o =>
    exact ObjectModel.shows (h.objects o (List.mem_singleton.mpr rfl)) fun hc =>
      hclear hc o (List.mem_singleton.mpr rfl)

theorem shows {clear : Prop} (h : m.IsRegular) (hclear : clear → m.IsUncovered) :
    Shows clear m.toDatum.targets (m.refs.map target) := by
  cases hm : m.isComposed with
  | false => exact shows_part h hm hclear
  | true =>
    cases m with
    | reference => cases hm
    | object => cases hm
    | composed parts about =>
      have htargets : (Model.composed parts about).toDatum.targets = parts.flatMap fun m => m.toDatum.targets := by
        rw [toDatum, toData_eq, targets, targetsOfEntries_append, targetsOfEntries_fieldOf (by decide),
          targetsOfEntries_fieldIf (by decide), targets_of_not_hasRef (h.description _ _ rfl), targets,
          targetsOfItems_eq, List.flatMap_map, List.append_nil]
      rw [htargets, refs, List.map_flatMap]
      refine Shows.flatMap fun x hx => ?_
      obtain ⟨hpart, hregular⟩ := h.of_mem hx
      rw [partRefs_of_not_isComposed hpart]
      exact shows_part hregular hpart fun hc o ho => hclear hc o (objects_subset_of_mem hpart hx ho)

theorem toDatum_mapPartRefs {f : Name → Name} (h : m.IsRegular) (hm : m.isComposed = false)
    (hf : ∀ r ∈ m.refs, g (target r) = target (f r)) : (m.mapPartRefs f).toDatum = m.toDatum.mapTargets g := by
  cases m with
  | composed => cases hm
  | reference name =>
    show _ = Datum.mapping [(Scalar.text "$ref", Datum.text (g (target name)))]
    rw [hf name (List.mem_singleton.mpr rfl)]
    rfl
  | object o => exact ObjectModel.toDatum_mapProperties (h.objects o (List.mem_singleton.mpr rfl)) hf

theorem toDatum_mapRefs {f : Name → Name} (h : m.IsRegular)
    (hf : ∀ r ∈ m.refs, g (target r) = target (f r)) : (m.mapRefs f).toDatum = m.toDatum.mapTargets g := by
  cases hm : m.isComposed with
  | false =>
    rw [mapRefs_of_not_isComposed hm]
    exact toDatum_mapPartRefs h hm hf
  | true =>
    cases m with
    | reference => cases hm
    | object => cases hm
    | composed parts about =>
      have hparts : (parts.map (mapPartRefs f)).map toDatum = (parts.map toDatum).map (mapTargets g) := by
        rw [List.map_map, List.map_map]
        refine List.map_congr_left fun x hx => ?_
        obtain ⟨hpart, hregular⟩ := h.of_mem hx
        refine toDatum_mapPartRefs hregular hpart fun r hr => hf r (List.mem_flatMap.mpr ⟨x, hx, ?_⟩)
        rwa [partRefs_of_not_isComposed hpart]
      rw [mapRefs, toDatum, toDatum, toData_eq, toData_eq, hparts, mapTargets, mapEntries_append,
        mapEntries_fieldOf (by decide), mapEntries_fieldIf (by decide),
        mapTargets_of_not_hasRef (h.description _ _ rfl), mapTargets, mapItems_eq]

theorem isWritable_of_refs_part (hm : m.isComposed = false) (h : ∀ r ∈ m.refs, ∃ t, r = .text t) :
    m.isWritable = true := by
  cases m with
  | composed => cases hm
  | reference name =>
    obtain ⟨t, rfl⟩ := h name (List.mem_singleton.mpr rfl)
    rfl
  | object o => exact ObjectModel.isWritable_of_refs h

theorem isWritable_of_refs (hm : m.isFlat = true) (h : ∀ r ∈ m.refs, ∃ t, r = .text t) :
    m.isWritable = true := by
  cases m with
  | reference => exact isWritable_of_refs_part rfl h
  | object => exact isWritable_of_refs_part rfl h
  | composed parts about =>
    rw [isWritable, areWritable_eq]
    refine List.all_eq_true.mpr fun x hx => ?_
    have hpart := not_isComposed_of_mem hm hx
    refine isWritable_of_refs_part hpart fun r hr => h r (List.mem_flatMap.mpr ⟨x, hx, ?_⟩)
    rwa [partRefs_of_not_isComposed hpart]

end Model

end RestconfApi
