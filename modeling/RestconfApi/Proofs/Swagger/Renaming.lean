import RestconfApi.Proofs.Swagger.Objects

/-!
# Swagger: change of all references

What a change of the names that a document points at does to its properties and models: the names pointed
at are changed and everything else stays, so that well-formed models stay well-formed.
-/

namespace RestconfApi

variable {f : Name → Name}

namespace Property

theorem mapRefs_items_none {p : Property} (h : p.items = none) :
    p.mapRefs f = { p with ref := p.ref.map f } := by
  obtain ⟨_, _, _, _, items, _, _, _, _⟩ := p
  obtain rfl : items = none := h
  rfl

theorem mapRefs_items_some {p q : Property} (h : p.items = some q) :
    p.mapRefs f = { p with ref := p.ref.map f, items := some (q.mapRefs f) } := by
  obtain ⟨_, _, _, _, items, _, _, _, _⟩ := p
  obtain rfl : items = some q := h
  rfl

theorem readOnly_mapRefs (p : Property) : (p.mapRefs f).readOnly = p.readOnly := by
  cases h : p.items with
  | none => rw [mapRefs_items_none h]
  | some i => rw [mapRefs_items_some h]

theorem ref_mapRefs (p : Property) : (p.mapRefs f).ref = p.ref.map f := by
  cases h : p.items with
  | none => rw [mapRefs_items_none h]
  | some i => rw [mapRefs_items_some h]

theorem items_mapRefs (p : Property) : (p.mapRefs f).items = p.items.map (mapRefs f) := by
  cases h : p.items with
  | none =>
    rw [mapRefs_items_none h, h]
    rfl
  | some i =>
    rw [mapRefs_items_some h]
    rfl

theorem refs_mapRefs : ∀ p : Property, (p.mapRefs f).refs = p.refs.map f
  | { items := none, ref, .. } => by
    rw [mapRefs_items_none rfl, refs, refs]
    cases ref <;> rfl
  | { items := some q, ref, .. } => by
    rw [mapRefs_items_some rfl, refs, refs, refs_mapRefs q]
    cases ref <;> simp

theorem mapRefs_id : ∀ p : Property, p.mapRefs (fun name => name) = p
  | { items := none, ref, .. } => by
    rw [mapRefs_items_none rfl]
    simp
  | { items := some q, ref, .. } => by
    rw [mapRefs_items_some rfl, mapRefs_id q]
    simp

theorem mapRefs_mapRefs (g : Name → Name) :
    ∀ p : Property, (p.mapRefs f).mapRefs g = p.mapRefs fun name => g (f name)
  | { items := none, ref, .. } => by
    rw [mapRefs_items_none (f := f) rfl, mapRefs_items_none (f := g) rfl,
      mapRefs_items_none (f := fun name => g (f name)) rfl]
    cases ref <;> rfl
  | { items := some q, ref, .. } => by
    rw [mapRefs_items_some (f := f) rfl, mapRefs_items_some (f := g) rfl,
      mapRefs_items_some (f := fun name => g (f name)) rfl, mapRefs_mapRefs g q]
    cases ref <;> rfl

theorem IsTame.mapRefs : ∀ {p : Property}, p.IsTame → (p.mapRefs f).IsTame
  | { items := none, .. }, h => by
    rw [mapRefs_items_none rfl]
    exact h
  | { items := some q, .. }, h => by
    rw [mapRefs_items_some rfl]
    exact ⟨h.1, IsTame.mapRefs h.2⟩

end Property

namespace ObjectModel

theorem refs_mapProperties (o : ObjectModel) :
    (o.mapProperties (Property.mapRefs f)).refs = o.refs.map f := by
  simp only [refs, mapProperties, List.flatMap_map, List.map_flatMap, Property.refs_mapRefs]

theorem IsTame.mapRefs {o : ObjectModel} (h : o.IsTame) : (o.mapProperties (Property.mapRefs f)).IsTame where
  unique := h.unique.map (Property.mapRefs f)
  required hnil := h.required (List.map_eq_nil_iff.mp hnil)
  extensions := h.extensions
  properties := by
    intro e he
    obtain ⟨e', he', rfl⟩ := List.mem_map.mp he
    exact (h.properties e' he').mapRefs

end ObjectModel

namespace Model

theorem IsPlain.mapPartRefs {m : Model} (h : m.IsPlain) (hf : ∀ r ∈ m.refs, ∃ k, f r = .scalar k) :
    (m.mapPartRefs f).IsPlain := by
  cases h with
  | reference name =>
    obtain ⟨k, hk⟩ := hf _ (List.mem_singleton.mpr rfl)
    rw [Model.mapPartRefs, hk]
    exact .reference k
  | object h => exact .object h.mapRefs

theorem isComposed_mapPartRefs (m : Model) : (m.mapPartRefs f).isComposed = m.isComposed := by
  cases m <;> rfl

theorem isFlat_mapRefs (m : Model) : (m.mapRefs f).isFlat = m.isFlat := by
  cases m with
  | reference => rfl
  | object => rfl
  | composed parts about =>
    show (parts.map (mapPartRefs f)).all (!·.isComposed) = parts.all (!·.isComposed)
    simp only [List.all_map, Function.comp_def, isComposed_mapPartRefs]

theorem mapRefs_of_not_isComposed {m : Model} (h : m.isComposed = false) : m.mapRefs f = m.mapPartRefs f := by
  cases m with
  | composed => cases h
  | reference => rfl
  | object => rfl

theorem IsPlain.mapRefs_eq {m : Model} (h : m.IsPlain) : m.mapRefs f = m.mapPartRefs f := by
  cases h <;> rfl

/-! The parts of a composition are walked along with the models. -/

mutual

theorem fieldRefs_mapProperties : ∀ m : Model,
    (m.mapProperties (Property.mapRefs f)).fieldRefs = m.fieldRefs.map f
  | .reference _ => rfl
  | .object o => o.refs_mapProperties
  | .composed parts _ => fieldRefsAll_mapPropertiesAll parts

theorem fieldRefsAll_mapPropertiesAll : ∀ ms : List Model,
    fieldRefsAll (mapPropertiesAll (Property.mapRefs f) ms) = (fieldRefsAll ms).map f
  | [] => rfl
  | m :: ms => by
    rw [mapPropertiesAll, fieldRefsAll, fieldRefs_mapProperties m, fieldRefsAll_mapPropertiesAll ms,
      fieldRefsAll, List.map_append]

end

theorem partRefs_mapPartRefs (m : Model) : (m.mapPartRefs f).partRefs = m.partRefs.map f := by
  cases m with
  | reference => rfl
  | object o => exact fieldRefs_mapProperties (.object o)
  | composed parts about => exact fieldRefs_mapProperties (.composed parts about)

/-- The names that a changed model points at are those before, changed. -/
theorem refs_mapRefs (m : Model) : (m.mapRefs f).refs = m.refs.map f := by
  cases m with
  | reference name => exact partRefs_mapPartRefs (.reference name)
  | object o => exact partRefs_mapPartRefs (.object o)
  | composed parts about =>
    show (parts.map (mapPartRefs f)).flatMap partRefs = (parts.flatMap partRefs).map f
    rw [List.flatMap_map, List.map_flatMap]
    exact List.flatMap_congr fun x _ => partRefs_mapPartRefs x

mutual

theorem mapProperties_id {g : Property → Property} (hg : ∀ p, g p = p) : ∀ m : Model, m.mapProperties g = m
  | .reference _ => rfl
  | .object o => by simp [mapProperties, ObjectModel.mapProperties, hg]
  | .composed parts _ => by rw [mapProperties, mapPropertiesAll_id hg parts]

theorem mapPropertiesAll_id {g : Property → Property} (hg : ∀ p, g p = p) :
    ∀ ms : List Model, mapPropertiesAll g ms = ms
  | [] => rfl
  | m :: ms => by rw [mapPropertiesAll, mapProperties_id hg m, mapPropertiesAll_id hg ms]

end

theorem mapPartRefs_id (m : Model) : m.mapPartRefs (fun name => name) = m := by
  cases m with
  | reference => rfl
  | object o => exact mapProperties_id Property.mapRefs_id (.object o)
  | composed parts about => exact mapProperties_id Property.mapRefs_id (.composed parts about)

theorem mapRefs_id (m : Model) : m.mapRefs (fun name => name) = m := by
  cases m with
  | reference => rfl
  | object o => exact mapPartRefs_id (.object o)
  | composed parts about =>
    rw [mapRefs, List.map_congr_left fun x _ => mapPartRefs_id x, List.map_id']

mutual

theorem mapProperties_mapProperties (g h : Property → Property) : ∀ m : Model,
    (m.mapProperties g).mapProperties h = m.mapProperties fun p => h (g p)
  | .reference _ => rfl
  | .object o => by simp [mapProperties, ObjectModel.mapProperties, Function.comp_def]
  | .composed parts _ => by
    rw [mapProperties, mapProperties, mapProperties, mapPropertiesAll_mapPropertiesAll g h parts]

theorem mapPropertiesAll_mapPropertiesAll (g h : Property → Property) : ∀ ms : List Model,
    mapPropertiesAll h (mapPropertiesAll g ms) = mapPropertiesAll (fun p => h (g p)) ms
  | [] => rfl
  | m :: ms => by
    simp only [mapPropertiesAll, mapProperties_mapProperties g h m, mapPropertiesAll_mapPropertiesAll g h ms]

end

theorem mapPartRefs_mapPartRefs (g : Name → Name) (m : Model) :
    (m.mapPartRefs f).mapPartRefs g = m.mapPartRefs fun name => g (f name) := by
  have hmap : ∀ m : Model, (m.mapProperties (Property.mapRefs f)).mapProperties (Property.mapRefs g) =
      m.mapProperties (Property.mapRefs fun name => g (f name)) := fun m => by
    rw [mapProperties_mapProperties, funext (Property.mapRefs_mapRefs g)]
  cases m with
  | reference => rfl
  | object o => exact hmap (.object o)
  | composed parts about => exact hmap (.composed parts about)

/-- Names that are changed twice are changed once, by both. -/
theorem mapRefs_mapRefs (g : Name → Name) (m : Model) :
    (m.mapRefs f).mapRefs g = m.mapRefs fun name => g (f name) := by
  cases m with
  | reference => rfl
  | object o => exact mapPartRefs_mapPartRefs g (.object o)
  | composed parts about => simp [mapRefs, Function.comp_def, mapPartRefs_mapPartRefs]

theorem IsProper.mapRefs {m : Model} (h : m.IsProper) (hf : ∀ r ∈ m.refs, ∃ k, f r = .scalar k) :
    (m.mapRefs f).IsProper := by
  cases h with
  | plain h => exact h.mapRefs_eq ▸ .plain (h.mapPartRefs hf)
  | @composed parts about h =>
    refine .composed fun x hx => ?_
    obtain ⟨y, hy, rfl⟩ := List.mem_map.mp hx
    refine (h y hy).mapPartRefs fun r hr => hf r (List.mem_flatMap.mpr ⟨y, hy, ?_⟩)
    rwa [refs_plain (h y hy)] at hr

end Model

/-! ### Operations -/

section Operations

variable {g h : Property → Property}

theorem Operation.mapProperties_id (hg : ∀ p, g p = p) (o : Operation) : o.mapProperties g = o := by
  obtain rfl : g = id := funext hg
  have hparameter : Parameter.mapProperties id = id := by
    funext p
    simp [Parameter.mapProperties]
  have hresponse : Response.mapProperties id = id := by
    funext p
    simp [Response.mapProperties]
  simp [Operation.mapProperties, hparameter, hresponse]

theorem Operation.mapProperties_mapProperties (o : Operation) :
    (o.mapProperties g).mapProperties h = o.mapProperties fun p => h (g p) := by
  simp [Operation.mapProperties, Parameter.mapProperties, Response.mapProperties, Function.comp_def]

theorem Document.paths_mapOperations_id (hg : ∀ p, g p = p) (d : Document) :
    (d.mapOperations g).paths = d.paths := by
  simp [Document.mapOperations, Operation.mapProperties_id hg]

theorem Document.paths_mapOperations (d d' : Document) (hd : d'.paths = (d.mapOperations g).paths) :
    (d'.mapOperations h).paths = (d.mapOperations fun p => h (g p)).paths := by
  simp [Document.mapOperations] at hd ⊢
  simp [hd, Operation.mapProperties_mapProperties, Function.comp_def]

theorem Operation.refs_mapProperties (o : Operation) :
    (o.mapProperties (Property.mapRefs f)).refs = o.refs.map f := by
  simp only [Operation.refs, Operation.mapProperties, List.map_append, List.flatMap_map,
    List.map_flatMap]
  congr 1
  · refine List.flatMap_congr fun p _ => ?_
    cases hs : p.schema <;> simp [Parameter.refs, Parameter.mapProperties, hs, Property.refs_mapRefs]
  · refine List.flatMap_congr fun r _ => ?_
    cases hs : r.2.schema <;> simp [Response.refs, Response.mapProperties, hs, Property.refs_mapRefs]

theorem Document.operations_mapOperations (d : Document) :
    (d.mapOperations g).operations = d.operations.map (Operation.mapProperties g) := by
  simp [Document.operations, Document.mapOperations, List.flatMap_map, List.map_flatMap,
    Function.comp_def]

end Operations

namespace Document

theorem refs_mapRefs (d : Document) : (d.mapRefs f).refs = d.refs.map f := by
  rw [refs, show (d.mapRefs f).operations = (d.mapOperations (Property.mapRefs f)).operations from rfl,
    operations_mapOperations, refs, List.map_append]
  simp only [mapRefs, List.flatMap_map, List.map_flatMap, Operation.refs_mapProperties, Model.refs_mapRefs]

theorem mapRefs_id (d : Document) : d.mapRefs (fun name => name) = d := by
  have hpaths := paths_mapOperations_id Property.mapRefs_id d
  simp only [mapOperations] at hpaths
  simp only [mapRefs, mapOperations, hpaths, Model.mapRefs_id, List.map_id']

end Document

end RestconfApi
