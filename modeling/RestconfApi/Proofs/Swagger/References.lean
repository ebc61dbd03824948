import RestconfApi.Proofs.Swagger.Showing
import RestconfApi.Proofs.Texts

/-!
# Swagger: the references of a document

The names that a document says it points at are those behind the references of its rendered form, and a change of
the names shows as the same change of each reference, once, and in nothing else.
-/

namespace RestconfApi

open Datum

/-! ### Operations -/

namespace Parameter

/-- What a parameter says besides its schema. -/
def values (p : Parameter) : List Datum :=
  [p.name, p.location, p.required, p.description, p.type, p.format]

@[mk_iff]
structure IsRegular (p : Parameter) : Prop where
  values : ∀ v ∈ p.values, v.hasRef = false
  schema : ∀ s, p.schema = some s → s.IsRegular

def IsUncovered (p : Parameter) : Prop := ∀ s, p.schema = some s → s.IsUncovered

variable {p : Parameter} {g : String → String}

theorem shows {clear : Prop} (h : p.IsRegular) (hclear : clear → p.IsUncovered) :
    Shows clear p.toDatum.targets (p.refs.map target) := by
  have hvalues := h.values
  simp only [values, List.forall_mem_cons] at hvalues
  obtain ⟨hname, hlocation, hrequired, hdescription, htype, hformat, -⟩ := hvalues
  have hshape : (if p.type.holds then p.type else .text "string").targets = [] := by
    split
    · exact targets_of_not_hasRef htype
    · rfl
  rw [toDatum, targets_mapping]
  cases hs : p.schema with
  | none =>
    simp [targets_of_not_hasRef, hname, hlocation, hrequired, hdescription, hshape, hformat, refs, hs, Shows.refl]
  | some s =>
    have hschema := Property.shows (h.schema s hs) fun hc => hclear hc s hs
    simpa [targets_of_not_hasRef, hname, hlocation, hrequired, hdescription, refs, hs] using hschema

theorem toDatum_mapProperties {f : Name → Name} (h : p.IsRegular)
    (hf : ∀ r ∈ p.refs, g (target r) = target (f r)) :
    (p.mapProperties (Property.mapRefs f)).toDatum = p.toDatum.mapTargets g := by
  have hvalues := h.values
  simp only [values, List.forall_mem_cons] at hvalues
  obtain ⟨hname, hlocation, hrequired, hdescription, htype, hformat, -⟩ := hvalues
  have hshape : (if p.type.holds then p.type else .text "string").mapTargets g =
      if p.type.holds then p.type else .text "string" := by
    split
    · exact mapTargets_of_not_hasRef htype
    · rfl
  rw [toDatum, toDatum, mapTargets_mapping, mapProperties]
  cases hs : p.schema with
  | none =>
    simp [mapTargets_of_not_hasRef, hname, hlocation, hrequired, hdescription, hshape, hformat]
  | some s =>
    have hschema := Property.toDatum_mapRefs (g := g) (h.schema s hs) fun r hr =>
      hf r (by rw [refs, hs]; exact hr)
    simp [mapTargets_of_not_hasRef, hname, hlocation, hrequired, hdescription, hschema]

theorem isWritable_of_refs (h : ∀ r ∈ p.refs, ∃ t, r = .text t) : p.isWritable = true := by
  rw [refs] at h
  rw [isWritable]
  cases hs : p.schema with
  | none => rfl
  | some s => exact Property.isWritable_of_refs (by simpa [hs] using h)

end Parameter

namespace Response

@[mk_iff]
structure IsRegular (r : Response) : Prop where
  description : r.description.hasRef = false
  schema : ∀ s, r.schema = some s → s.IsRegular

def IsUncovered (r : Response) : Prop := ∀ s, r.schema = some s → s.IsUncovered

theorem asText?_toDatum (r : Response) : r.toDatum.asText? = none := rfl

variable {r : Response} {g : String → String}

theorem shows {clear : Prop} (h : r.IsRegular) (hclear : clear → r.IsUncovered) :
    Shows clear r.toDatum.targets (r.refs.map target) := by
  rw [toDatum, targets_mapping, targetsOfEntries_append, targetsOfEntries_fieldOf (by decide),
    targets_of_not_hasRef h.description, refs, List.nil_append]
  cases hs : r.schema with
  | none => exact Shows.refl []
  | some s =>
    simpa using Property.shows (h.schema s hs) fun hc => hclear hc s hs

theorem toDatum_mapProperties {f : Name → Name} (h : r.IsRegular)
    (hf : ∀ x ∈ r.refs, g (target x) = target (f x)) :
    (r.mapProperties (Property.mapRefs f)).toDatum = r.toDatum.mapTargets g := by
  rw [toDatum, toDatum, mapTargets_mapping, mapEntries_append, mapEntries_fieldOf (by decide),
    mapTargets_of_not_hasRef h.description, mapProperties]
  cases hs : r.schema with
  | none => rfl
  | some s =>
    have hschema := Property.toDatum_mapRefs (g := g) (h.schema s hs) fun x hx =>
      hf x (by rw [refs, hs]; exact hx)
    simp [hschema]

theorem isWritable_of_refs (h : ∀ x ∈ r.refs, ∃ t, x = .text t) : r.isWritable = true := by
  rw [refs] at h
  rw [isWritable]
  cases hs : r.schema with
  | none => rfl
  | some s => exact Property.isWritable_of_refs (by simpa [hs] using h)

end Response

namespace Operation

/-- What an operation says besides its parameters and responses. -/
def values (o : Operation) : List Datum := [o.operationId, o.summary, o.description, .list o.tags]

@[mk_iff]
structure IsRegular (o : Operation) : Prop where
  values : ∀ v ∈ o.values, v.hasRef = false
  parameters : ∀ p ∈ o.parameters, p.IsRegular
  responses : ∀ e ∈ o.responses, e.2.IsRegular

structure IsUncovered (o : Operation) : Prop where
  parameters : ∀ p ∈ o.parameters, p.IsUncovered
  responses : ∀ e ∈ o.responses, e.2.IsUncovered

theorem asText?_toDatum (o : Operation) : o.toDatum.asText? = none := rfl

variable {o : Operation} {g : String → String}

theorem shows {clear : Prop} (h : o.IsRegular) (hclear : clear → o.IsUncovered) :
    Shows clear o.toDatum.targets (o.refs.map target) := by
  have hvalues := h.values
  simp only [values, List.forall_mem_cons] at hvalues
  obtain ⟨hid, hsummary, hdescription, htags, -⟩ := hvalues
  have htargets : o.toDatum.targets =
      (o.parameters.flatMap fun p => p.toDatum.targets) ++ o.responses.flatMap fun e => e.2.toDatum.targets := by
    have hresponses := targetsOfEntries_map o.responses Response.asText?_toDatum
    have htags' : o.tags.flatMap targets = [] := by simpa using targets_of_not_hasRef htags
    simp [toDatum, targets_of_not_hasRef, hid, hsummary, hdescription, htags', hresponses, List.flatMap_map]
  rw [htargets, refs, List.map_append, List.map_flatMap, List.map_flatMap]
  refine Shows.append (Shows.flatMap fun p hp => ?_) (Shows.flatMap fun e he => ?_)
  · exact Parameter.shows (h.parameters p hp) fun hc => (hclear hc).parameters p hp
  · exact Response.shows (h.responses e he) fun hc => (hclear hc).responses e he

theorem toDatum_mapProperties {f : Name → Name} (h : o.IsRegular)
    (hf : ∀ r ∈ o.refs, g (target r) = target (f r)) :
    (o.mapProperties (Property.mapRefs f)).toDatum = o.toDatum.mapTargets g := by
  have hvalues := h.values
  simp only [values, List.forall_mem_cons] at hvalues
  obtain ⟨hid, hsummary, hdescription, htags, -⟩ := hvalues
  have hparameters : (o.parameters.map (Parameter.mapProperties (Property.mapRefs f))).map Parameter.toDatum =
      (o.parameters.map Parameter.toDatum).map (mapTargets g) := by
    rw [List.map_map, List.map_map]
    exact List.map_congr_left fun p hp => Parameter.toDatum_mapProperties (h.parameters p hp) fun r hr =>
      hf r (List.mem_append_left _ (List.mem_flatMap.mpr ⟨p, hp, hr⟩))
  have hresponses : mapEntries g (o.responses.map fun e => (e.1, e.2.toDatum)) =
      o.responses.map fun e => (e.1, (e.2.mapProperties (Property.mapRefs f)).toDatum) := by
    rw [mapEntries_map o.responses Response.asText?_toDatum]
    refine List.map_congr_left fun e he => ?_
    rw [Response.toDatum_mapProperties (h.responses e he) fun r hr =>
      hf r (List.mem_append_right _ (List.mem_flatMap.mpr ⟨e, he, hr⟩))]
  simp [toDatum, mapProperties, mapTargets_of_not_hasRef, htags, hsummary, hdescription, hid, hresponses,
    hparameters, Function.comp_def]

theorem isWritable_of_refs (h : ∀ r ∈ o.refs, ∃ t, r = .text t) : o.isWritable = true := by
  refine (Bool.and_eq_true _ _).mpr ⟨List.all_eq_true.mpr fun p hp => ?_, List.all_eq_true.mpr fun e he => ?_⟩
  · exact Parameter.isWritable_of_refs fun r hr =>
      h r (List.mem_append_left _ (List.mem_flatMap.mpr ⟨p, hp, hr⟩))
  · exact Response.isWritable_of_refs fun r hr =>
      h r (List.mem_append_right _ (List.mem_flatMap.mpr ⟨e, he, hr⟩))

end Operation

/-! ### Documents -/

theorem mapM_key?_texts (ts : List String) : (ts.map Datum.text).mapM Datum.key? = .ok (ts.map Scalar.text) := by
  induction ts with
  | nil => rfl
  | cons t ts ih =>
    rw [List.map_cons, List.mapM_cons, ih]
    rfl

namespace Info

/-- What the information about a document says. -/
def values (i : Info) : List Datum := [i.title, i.description, i.version]

variable {i : Info}

theorem targets_toDatum (h : ∀ v ∈ i.values, v.hasRef = false) : i.toDatum.targets = [] := by
  simp only [values, List.forall_mem_cons] at h
  obtain ⟨htitle, hdescription, hversion, -⟩ := h
  simp [toDatum, targets_of_not_hasRef, htitle, hdescription, hversion]

theorem mapTargets_toDatum (h : ∀ v ∈ i.values, v.hasRef = false) (g : String → String) :
    i.toDatum.mapTargets g = i.toDatum := by
  simp only [values, List.forall_mem_cons] at h
  obtain ⟨htitle, hdescription, hversion, -⟩ := h
  simp [toDatum, mapTargets_of_not_hasRef, htitle, hdescription, hversion]

end Info

namespace Document

/-- What a document says besides its operations and definitions. -/
def values (d : Document) : List Datum :=
  d.info.values ++ [d.host, d.basePath, .list d.consumes, .list d.produces]

/-- A document that points at texts and in which nothing else is a reference. Its compositions consist of
references and objects, and no property both points at a definition and has items. -/
structure IsRegular (d : Document) : Prop where
  values : ∀ v ∈ d.values, v.hasRef = false
  operations : ∀ o ∈ d.operations, o.IsRegular
  definitions : ∀ e ∈ d.definitions, e.2.IsRegular
  refs : ∀ r ∈ d.refs, ∃ t, r = .text t

/-- No extension takes the place of the items of a property or of the properties of an object. -/
structure IsUncovered (d : Document) : Prop where
  operations : ∀ o ∈ d.operations, o.IsUncovered
  definitions : ∀ e ∈ d.definitions, e.2.IsUncovered

/-- The operations of a path as data. -/
def pathDatum (os : Entries Scalar Operation) : Datum := .mapping (os.map fun e => (e.1, e.2.toDatum))

theorem asText?_pathDatum (os : Entries Scalar Operation) : (pathDatum os).asText? = none := rfl

theorem toDatum_eq (d : Document) :
    d.toDatum = .mapping
      (fieldOf "swagger" (.text "2.0") ++ fieldOf "info" d.info.toDatum ++ fieldUnlessNull "host" d.host ++
        fieldUnlessNull "basePath" d.basePath ++ fieldIf "consumes" (.list d.consumes) ++
        fieldIf "produces" (.list d.produces) ++
        fieldOf "paths" (.mapping (d.paths.map fun e => (e.1, pathDatum e.2))) ++
        fieldOf "definitions" (.mapping (d.definitions.map fun e => (e.1, e.2.toDatum)))) := rfl

variable {d : Document} {g : String → String}

theorem IsRegular.values_free (h : d.IsRegular) :
    (∀ v ∈ d.info.values, v.hasRef = false) ∧ d.host.hasRef = false ∧ d.basePath.hasRef = false ∧
      (Datum.list d.consumes).hasRef = false ∧ (Datum.list d.produces).hasRef = false := by
  obtain ⟨hinfo, hrest⟩ := List.forall_mem_append.mp h.values
  simp only [List.forall_mem_cons] at hrest
  exact ⟨hinfo, hrest.1, hrest.2.1, hrest.2.2.1, hrest.2.2.2.1⟩

theorem mem_operations {path : Scalar} {os : Entries Scalar Operation} {e : Scalar × Operation}
    (hpath : (path, os) ∈ d.paths) (he : e ∈ os) : e.2 ∈ d.operations :=
  List.mem_flatMap.mpr ⟨_, hpath, List.mem_map_of_mem he⟩

/-- What a document points at is what it refers to, in the same order, but for what extensions hide. -/
theorem shows {clear : Prop} (h : d.IsRegular) (hclear : clear → d.IsUncovered) :
    Shows clear d.toDatum.targets (d.refs.map target) := by
  obtain ⟨hinfo, hhost, hbase, hconsumes, hproduces⟩ := h.values_free
  have htargets : d.toDatum.targets =
      (d.operations.flatMap fun o => o.toDatum.targets) ++ d.definitions.flatMap fun e => e.2.toDatum.targets := by
    have hpaths : ∀ os : Entries Scalar Operation,
        (pathDatum os).targets = os.flatMap fun e => e.2.toDatum.targets := fun os =>
      targetsOfEntries_map os Operation.asText?_toDatum
    have hconsumes' : d.consumes.flatMap targets = [] := by simpa using targets_of_not_hasRef hconsumes
    have hproduces' : d.produces.flatMap targets = [] := by simpa using targets_of_not_hasRef hproduces
    simp [toDatum_eq, Info.targets_toDatum hinfo, targets_of_not_hasRef, hhost, hbase, hconsumes', hproduces',
      targetsOfEntries_map d.paths asText?_pathDatum, hpaths, targetsOfEntries_map d.definitions Model.asText?_toDatum,
      operations, List.flatMap_assoc, List.flatMap_map]
  rw [htargets, refs, List.map_append, List.map_flatMap, List.map_flatMap]
  refine Shows.append (Shows.flatMap fun o ho => ?_) (Shows.flatMap fun e he => ?_)
  · exact Operation.shows (h.operations o ho) fun hc => (hclear hc).operations o ho
  · exact Model.shows (h.definitions e he) fun hc => (hclear hc).definitions e he

theorem toDatum_mapRefs {f : Name → Name} (h : d.IsRegular)
    (hf : ∀ r ∈ d.refs, g (target r) = target (f r)) : (d.mapRefs f).toDatum = d.toDatum.mapTargets g := by
  obtain ⟨hinfo, hhost, hbase, hconsumes, hproduces⟩ := h.values_free
  have hoperation : ∀ o ∈ d.operations,
      (o.mapProperties (Property.mapRefs f)).toDatum = o.toDatum.mapTargets g := fun o ho =>
    Operation.toDatum_mapProperties (h.operations o ho) fun r hr =>
      hf r (List.mem_append_left _ (List.mem_flatMap.mpr ⟨o, ho, hr⟩))
  have hpaths : mapEntries g (d.paths.map fun e => (e.1, pathDatum e.2)) =
      (d.mapRefs f).paths.map fun e => (e.1, pathDatum e.2) := by
    rw [mapEntries_map d.paths asText?_pathDatum, mapRefs, mapOperations, List.map_map]
    refine List.map_congr_left fun e he => ?_
    show (e.1, Datum.mapping (mapEntries g (e.2.map fun e => (e.1, e.2.toDatum)))) =
      (e.1, Datum.mapping ((e.2.map fun e => (e.1, e.2.mapProperties (Property.mapRefs f))).map
        fun e => (e.1, e.2.toDatum)))
    rw [mapEntries_map e.2 Operation.asText?_toDatum, List.map_map]
    congr 2
    refine List.map_congr_left fun e' he' => ?_
    rw [← hoperation e'.2 (mem_operations he he')]
    rfl
  have hdefinitions : mapEntries g (d.definitions.map fun e => (e.1, e.2.toDatum)) =
      (d.mapRefs f).definitions.map fun e => (e.1, e.2.toDatum) := by
    rw [mapEntries_map d.definitions Model.asText?_toDatum, mapRefs, List.map_map]
    refine List.map_congr_left fun e he => ?_
    rw [← Model.toDatum_mapRefs (h.definitions e he) fun r hr =>
      hf r (List.mem_append_right _ (List.mem_flatMap.mpr ⟨e, he, hr⟩))]
    rfl
  have hconsumes' : d.consumes.map (mapTargets g) = d.consumes := by
    simpa using @mapTargets_of_not_hasRef g _ hconsumes
  have hproduces' : d.produces.map (mapTargets g) = d.produces := by
    simpa using @mapTargets_of_not_hasRef g _ hproduces
  have hkept : (d.mapRefs f).info = d.info ∧ (d.mapRefs f).host = d.host ∧ (d.mapRefs f).basePath = d.basePath ∧
      (d.mapRefs f).consumes = d.consumes ∧ (d.mapRefs f).produces = d.produces := ⟨rfl, rfl, rfl, rfl, rfl⟩
  simp [toDatum_eq, hkept, Info.mapTargets_toDatum hinfo, mapTargets_of_not_hasRef, hhost, hbase, hconsumes',
    hproduces', hpaths, hdefinitions]

theorem isWritable_of_refs (hflat : ∀ e ∈ d.definitions, e.2.isFlat = true)
    (h : ∀ r ∈ d.refs, ∃ t, r = .text t) : d.isWritable = true := by
  refine (Bool.and_eq_true _ _).mpr ⟨List.all_eq_true.mpr fun e he => List.all_eq_true.mpr fun e' he' => ?_,
    List.all_eq_true.mpr fun e he => ?_⟩
  · exact Operation.isWritable_of_refs fun r hr =>
      h r (List.mem_append_left _ (List.mem_flatMap.mpr ⟨e'.2, mem_operations he he', hr⟩))
  · exact Model.isWritable_of_refs (hflat e he) fun r hr =>
      h r (List.mem_append_right _ (List.mem_flatMap.mpr ⟨e, he, hr⟩))

theorem value?_eq (hflat : ∀ e ∈ d.definitions, e.2.isFlat = true) (h : ∀ r ∈ d.refs, ∃ t, r = .text t) :
    d.value? = .ok d.toDatum := by
  rw [value?, if_pos (isWritable_of_refs hflat h)]

/-- The change of texts keeps the names of a document texts. -/
theorem value?_mapRefs_onTexts (h : d.IsRegular) (f : String → String) :
    (d.mapRefs (onTexts f)).value? = .ok (d.toDatum.mapTargets (retarget f)) := by
  have hflat : ∀ e ∈ (d.mapRefs (onTexts f)).definitions, e.2.isFlat = true := by
    intro e he
    obtain ⟨e', he', rfl⟩ := List.mem_map.mp he
    rw [Model.isFlat_mapRefs]
    exact (h.definitions e' he').flat
  have hrefs : ∀ r ∈ (d.mapRefs (onTexts f)).refs, ∃ t, r = .text t := by
    intro r hr
    rw [refs_mapRefs] at hr
    obtain ⟨r', hr', rfl⟩ := List.mem_map.mp hr
    obtain ⟨t, rfl⟩ := h.refs r' hr'
    exact ⟨f t, rfl⟩
  rw [value?_eq hflat hrefs, toDatum_mapRefs h fun r hr => ?_]
  obtain ⟨t, rfl⟩ := h.refs r hr
  exact retarget_target f t

/-- The names that a document of texts says it points at. -/
theorem exists_references (h : ∀ r ∈ d.refs, ∃ t, r = .text t) :
    ∃ names : List String, d.references = .ok (names.map .text) ∧ ∀ t, t ∈ names ↔ Datum.text t ∈ d.refs := by
  obtain ⟨ts, hts⟩ : ∃ ts : List String, d.refs = ts.map Datum.text := by
    generalize d.refs = refs at h
    induction refs with
    | nil => exact ⟨[], rfl⟩
    | cons r refs ih =>
      obtain ⟨⟨t, rfl⟩, hrest⟩ := List.forall_mem_cons.mp h
      obtain ⟨ts, rfl⟩ := ih hrest
      exact ⟨t :: ts, rfl⟩
  have htexts : Scalar.AreTexts (ts.map .text) := fun k hk => by
    obtain ⟨t, -, rfl⟩ := List.mem_map.mp hk
    exact ⟨t, rfl⟩
  have hdistinct : Scalar.AreTexts (Scalar.distinct (ts.map .text)) := fun k hk =>
    htexts k (Scalar.distinct_subset _ hk)
  obtain ⟨names, hnames⟩ := Scalar.AreTexts.exists_eq_map fun k hk => hdistinct k (Scalar.mem_sorted.mp hk)
  refine ⟨names, ?_, fun t => ?_⟩
  · rw [references, hts, mapM_key?_texts]
    show (if Scalar.areOrdered (Scalar.distinct (ts.map .text)) then _ else _) = _
    rw [if_pos hdistinct.areOrdered, hnames]
  · have hmem : t ∈ names ↔ Scalar.text t ∈ Scalar.sorted (Scalar.distinct (ts.map .text)) := by
      rw [hnames]
      exact (List.mem_map_of_injective fun _ _ heq => Scalar.text.inj heq).symm
    rw [hmem, Scalar.mem_sorted, htexts.mem_distinct, hts,
      List.mem_map_of_injective fun _ _ heq => Scalar.text.inj heq,
      List.mem_map_of_injective fun _ _ heq => Scalar.text.inj (Datum.scalar.inj heq)]

/-- The references of a rendered document are names that it says it points at, and all of them unless an extension
takes the place of something, and a change of the names is the same change of each reference and of nothing
else. -/
theorem exists_references_and_value (h : d.IsRegular) :
    ∃ (names : List String) (v : Datum), d.references = .ok (names.map .text) ∧ d.value? = .ok v ∧
      (∀ t ∈ v.targets, ∃ name ∈ names, t = "#/definitions/" ++ name) ∧
      (d.IsUncovered → ∀ name ∈ names, "#/definitions/" ++ name ∈ v.targets) ∧
      ∀ f : String → String, (d.mapRefs (onTexts f)).value? = .ok (v.mapTargets (retarget f)) := by
  obtain ⟨names, hreferences, hnames⟩ := exists_references h.refs
  have hflat : ∀ e ∈ d.definitions, e.2.isFlat = true := fun e he => (h.definitions e he).flat
  obtain ⟨hsublist, hall⟩ : Shows d.IsUncovered d.toDatum.targets (d.refs.map target) := shows h id
  refine ⟨names, d.toDatum, hreferences, value?_eq hflat h.refs, fun t ht => ?_, fun hclear name hname => ?_,
    value?_mapRefs_onTexts h⟩
  · obtain ⟨r, hr, rfl⟩ := List.mem_map.mp (hsublist.subset ht)
    obtain ⟨name, rfl⟩ := h.refs r hr
    exact ⟨name, (hnames name).mpr hr, rfl⟩
  · rw [hall hclear]
    exact List.mem_map.mpr ⟨_, (hnames name).mp hname, rfl⟩

/-- A document with a reference in a body, in items of items, in an alias and in a part, to `a` and `b` in turn. -/
def pointing : Document where
  paths := [(.text "/a", [(.text "put", {
    operationId := .text "putA"
    parameters := [{
      name := .text "body"
      location := .text "body"
      schema := some { ref := some (.text "a") } }]
    responses := [(.text "200", {
      description := .text "ok"
      schema := some {
        type := .text "array"
        items := some { type := .text "array", items := some { ref := some (.text "b") } } } })] })])]
  definitions := [
    (.text "a", .reference (.text "b")),
    (.text "b", .composed [.reference (.text "a"),
      .object { properties := [(.text "x", { ref := some (.text "b") })] }] .null)]

theorem exists_references_and_value_pointing :
    ∃ (names : List String) (v : Datum), pointing.references = .ok (names.map .text) ∧ pointing.value? = .ok v ∧
      (∀ t ∈ v.targets, ∃ name ∈ names, t = "#/definitions/" ++ name) ∧
      (pointing.IsUncovered → ∀ name ∈ names, "#/definitions/" ++ name ∈ v.targets) ∧
      ∀ f : String → String, (pointing.mapRefs (onTexts f)).value? = .ok (v.mapTargets (retarget f)) := by
  refine exists_references_and_value ⟨by decide, ?_, ?_, ?_⟩
  · simp [pointing, operations, Operation.isRegular_iff, Operation.values, Parameter.isRegular_iff, Parameter.values,
      Response.isRegular_iff, Property.IsRegular, Property.values, hasRef, anyHasRef, haveRef]
  · simp [pointing, Model.isRegular_iff, Model.isFlat, Model.isComposed, Model.objects, Model.object?,
      ObjectModel.isRegular_iff, ObjectModel.values, Property.IsRegular, Property.values, hasRef, anyHasRef, haveRef]
  · simp [pointing, refs, operations, Operation.refs, Parameter.refs, Response.refs, Property.refs, Model.refs,
      Model.partRefs, Model.fieldRefs, ObjectModel.refs]

/-- A document whose only reference is hidden by an extension that is put in the place of the items. -/
def covered : Document where
  definitions := [(.text "d", .object { properties := [(.text "p", {
    type := .text "array"
    items := some { ref := some (.text "a") }
    extensions := [(.text "items", .object [("type", .text "string")])] })] })]

/-- The extension holds no reference, and still the name pointed at is behind none. -/
theorem not_mem_targets_covered :
    covered.IsRegular ∧ covered.references = .ok [.text "a"] ∧
      covered.value?.map Datum.targets = .ok [] := by
  refine ⟨⟨by decide, ?_, ?_, ?_⟩, by rfl, by rfl⟩
  · simp [covered, operations]
  · simp [covered, Model.isRegular_iff, Model.isFlat, Model.objects, Model.object?, ObjectModel.isRegular_iff,
      ObjectModel.values, Property.IsRegular, Property.values, Datum.object, hasRef, anyHasRef, haveRef]
  · simp [covered, refs, operations, Property.refs, Model.refs, Model.partRefs, Model.fieldRefs, ObjectModel.refs]

end Document

end RestconfApi
