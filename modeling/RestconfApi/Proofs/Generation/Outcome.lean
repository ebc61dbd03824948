import RestconfApi.Proofs.Documents
import RestconfApi.Proofs.Generation.Walk
import RestconfApi.Proofs.Swagger.Folding
import RestconfApi.Proofs.Swagger.Ordering
import RestconfApi.Schema.Load

/-!
# Generation: what becomes of a walk

When the walk is over, every property that awaited a definition gets its name, and the document points only
at definitions that it has. Postprocessing keeps that, and tells which definition has taken the place of
which.
-/

namespace RestconfApi

/-! ### Definitions that are found alike -/

namespace Document

variable {defs defs' : Models} {d doc : Document}

theorem grows_of_get? (hget : ∀ k, defs'.get? k = defs.get? k) : Models.Grows defs defs' :=
  fun k m hk => by rw [hget k, hk]

theorem folds_of_get? (hget : ∀ k, defs'.get? k = defs.get? k) :
    Folds (fun name => name) defs defs' where
  congr _ _ h := h
  defined k hk := ⟨k, rfl, by rwa [Models.Defines, hget k]⟩
  field k key p _ h := by
    rw [Property.mapRefs_id]
    exact h.grow (grows_of_get? hget)
  field_of k key p' _ h := ⟨p', h.grow (grows_of_get? fun k => (hget k).symm), (Property.mapRefs_id p').symm⟩
  requires k key _ h := h.grow (grows_of_get? hget)

/-! ### Operations that are found alike -/

/-- There are operations of the same methods under the same paths. -/
structure SameMethods (d doc : Document) : Prop where
  paths : ∀ path, (doc.paths.get? path).isSome = (d.paths.get? path).isSome
  methods : ∀ path method, (doc.operation? path method).isSome = (d.operation? path method).isSome

theorem SameMethods.of_get? (h : ∀ path, doc.paths.get? path = d.paths.get? path) : d.SameMethods doc where
  paths path := by rw [h path]
  methods path method := by rw [operation?, operation?, h path]

theorem SameMethods.trans {d' : Document} (h : d.SameMethods d') (h' : d'.SameMethods doc) :
    d.SameMethods doc where
  paths path := (h'.paths path).trans (h.paths path)
  methods path method := (h'.methods path method).trans (h.methods path method)

theorem get?_mapOperations (g : Property → Property) (d : Document) (path : Scalar) :
    (d.mapOperations g).paths.get? path =
      (d.paths.get? path).map (List.map fun e : Scalar × Operation => (e.1, e.2.mapProperties g)) :=
  Entries.get?_map _ path d.paths

/-- Where the operations under a path are changed alike, each is found as what it has been changed to. -/
theorem operation?_map {g : Property → Property} (h : ∀ path, doc.paths.get? path =
      (d.paths.get? path).map (List.map fun e : Scalar × Operation => (e.1, e.2.mapProperties g)))
    (path method : Scalar) :
    doc.operation? path method = (d.operation? path method).map (Operation.mapProperties g) := by
  rw [operation?, operation?, h path]
  cases d.paths.get? path with
  | none => rfl
  | some os => exact Entries.get?_map (Operation.mapProperties g) method os

theorem SameMethods.of_map {g : Property → Property} (h : ∀ path, doc.paths.get? path =
      (d.paths.get? path).map (List.map fun e : Scalar × Operation => (e.1, e.2.mapProperties g))) :
    d.SameMethods doc where
  paths path := by rw [h path, Option.isSome_map]
  methods path method := by rw [operation?_map h, Option.isSome_map]

theorem sameMethods_mapOperations (g : Property → Property) (d : Document) :
    d.SameMethods (d.mapOperations g) :=
  .of_map (get?_mapOperations g d)

/-! ### Postprocessing -/

/-- How a document comes from another one: `f` puts definitions in place of others, nothing points at what
is not there, and the definitions that are left and the operations are the same but for what they point at. -/
structure Yields (f : Name → Name) (d doc : Document) : Prop where
  folds : Folds f d.definitions doc.definitions
  closed : doc.IsClosed
  models : ∀ e ∈ doc.definitions, ∃ e₀ ∈ d.definitions, e.2 = e₀.2.mapRefs f
  paths : ∀ path, doc.paths.get? path =
    (d.paths.get? path).map (List.map fun e => (e.1, e.2.mapProperties (Property.mapRefs f)))
  operations : ∀ path os, (path, os) ∈ doc.paths → ∃ k os₀, (k, os₀) ∈ d.paths ∧ (k == path) = true ∧
    os = os₀.map fun e => (e.1, e.2.mapProperties (Property.mapRefs f))

theorem map_mapProperties_id (os : Entries Scalar Operation) :
    (os.map fun e => (e.1, e.2.mapProperties (Property.mapRefs fun name => name))) = os := by
  simp [Operation.mapProperties_id Property.mapRefs_id]

theorem paths_of_get? (h : ∀ path, doc.paths.get? path = d.paths.get? path) (path : Scalar) :
    doc.paths.get? path = (d.paths.get? path).map
      (List.map fun e => (e.1, e.2.mapProperties (Property.mapRefs fun name => name))) := by
  rw [h path]
  cases d.paths.get? path with
  | none => rfl
  | some os => rw [Option.map_some, map_mapProperties_id]

theorem Yields.refl (hd : d.IsClosed) : d.Yields (fun name => name) d :=
  ⟨.refl _, hd, fun e he => ⟨e, he, (Model.mapRefs_id e.2).symm⟩, paths_of_get? fun _ => rfl,
    fun path os hos => ⟨path, os, hos, BEq.rfl, (map_mapProperties_id os).symm⟩⟩

theorem Yields.trans {f g : Name → Name} {d' : Document} (h : d.Yields f d') (h' : d'.Yields g doc) :
    d.Yields (fun name => g (f name)) doc where
  folds := h.folds.trans h'.folds
  closed := h'.closed
  models e he := by
    obtain ⟨e₁, he₁, heq⟩ := h'.models e he
    obtain ⟨e₀, he₀, heq₁⟩ := h.models e₁ he₁
    exact ⟨e₀, he₀, by rw [heq, heq₁, Model.mapRefs_mapRefs]⟩
  paths path := by
    rw [h'.paths, h.paths, Option.map_map]
    simp only [Function.comp_def, List.map_map, Operation.mapProperties_mapProperties, Property.mapRefs_mapRefs]
  operations path os hos := by
    obtain ⟨k', os', hos', hk', rfl⟩ := h'.operations path os hos
    obtain ⟨k, os₀, hos₀, hk, rfl⟩ := h.operations k' os' hos'
    refine ⟨k, os₀, hos₀, BEq.trans hk hk', ?_⟩
    simp only [List.map_map, Function.comp_def, Operation.mapProperties_mapProperties, Property.mapRefs_mapRefs]

theorem Yields.methods {f : Name → Name} (h : d.Yields f doc) : d.SameMethods doc := .of_map h.paths

theorem IsClosed.hasKeyedRefs (hd : d.IsClosed) : d.hasKeyedRefs = true := by
  refine List.all_eq_true.mpr fun r hr => ?_
  have hkey : ∃ k, r = .scalar k := by
    rcases List.mem_append.mp hr with hr | hr
    · obtain ⟨k, hk, -⟩ := hd.operations r hr
      exact ⟨k, hk⟩
    · obtain ⟨e, he, hr⟩ := List.mem_flatMap.mp hr
      obtain ⟨k, hk, -⟩ := hd.definitions.covers e he r hr
      exact ⟨k, hk⟩
  obtain ⟨k, rfl⟩ := hkey
  rfl

/-- A document with the definitions of a closed one and no other operations is closed. -/
theorem IsClosed.of_get? (hd : d.IsClosed) (hunique : Entries.Unique doc.definitions)
    (hget : ∀ k, doc.definitions.get? k = d.definitions.get? k)
    (hpaths : ∀ path, doc.paths.get? path = d.paths.get? path)
    (hmem : ∀ path os, (path, os) ∈ doc.paths → ∃ k, (k, os) ∈ d.paths ∧ (k == path) = true) :
    d.Yields (fun name => name) doc := by
  have hoperations : ∀ o ∈ doc.operations, o ∈ d.operations := by
    intro o ho
    obtain ⟨⟨path, os⟩, hos, ho⟩ := List.mem_flatMap.mp ho
    obtain ⟨k, hk, -⟩ := hmem path os hos
    exact List.mem_flatMap.mpr ⟨_, hk, ho⟩
  have hgrows : Models.Grows d.definitions doc.definitions := fun k m hk => by rw [hget k, hk]
  have hdefs : ∀ e ∈ doc.definitions, d.definitions.get? e.1 = some e.2 := by
    intro e he
    rw [← hget, hunique.get?_eq_of_mem he]
  refine ⟨folds_of_get? hget, ⟨⟨hunique, fun e he => ?_, fun e he => ?_⟩, fun r hr => ?_⟩, fun e he => ?_,
    paths_of_get? hpaths, fun path os hos => ?_⟩
  · exact (hd.definitions.of_get? (hdefs e he)).1
  · exact (hd.definitions.of_get? (hdefs e he)).2.grow hgrows
  · obtain ⟨o, ho, hr⟩ := List.mem_flatMap.mp hr
    exact hd.operations.grow hgrows r (List.mem_flatMap.mpr ⟨o, hoperations o ho, hr⟩)
  · obtain ⟨k, hmem, -⟩ := Entries.mem_of_get? (hdefs e he)
    exact ⟨_, hmem, (Model.mapRefs_id e.2).symm⟩
  · obtain ⟨k, hos, hk⟩ := hmem path os hos
    exact ⟨k, os, hos, hk, (map_mapProperties_id os).symm⟩

theorem yields_foldAliases (hd : d.IsClosed) : d.Yields d.foldedName d.foldAliases.1 := by
  obtain ⟨hclosed, hfolds, hmodels, hpaths⟩ := foldAliases_keeps hd
  refine ⟨hfolds, hclosed, hmodels, fun path => ?_, fun path os hos => ?_⟩
  · rw [hpaths]
    exact get?_mapOperations _ d path
  · rw [hpaths] at hos
    obtain ⟨⟨k, os₀⟩, hmem, heq⟩ := List.mem_map.mp hos
    obtain ⟨rfl, rfl⟩ := Prod.mk.inj heq
    exact ⟨k, os₀, hmem, BEq.rfl, rfl⟩

theorem yields_sortDefinitions (hd : d.IsClosed) : d.Yields (fun name => name) d.sortDefinitions :=
  hd.of_get? unique_sortDefinitions get?_sortDefinitions (fun _ => rfl) fun path _ hos => ⟨path, hos, BEq.rfl⟩

theorem yields_sortPaths (hd : d.IsClosed) : d.Yields (fun name => name) d.sortPaths := by
  refine hd.of_get? hd.definitions.unique (fun k => rfl) get?_sortPaths fun path os hos => ?_
  obtain ⟨name, -, hget⟩ := List.mem_filterMap.mp hos
  obtain ⟨os', hos', heq⟩ := Option.map_eq_some_iff.mp hget
  obtain ⟨rfl, rfl⟩ := Prod.mk.inj heq
  exact Entries.mem_of_get? hos'

theorem eq_of_sortDefinitions? (h : d.sortDefinitions? = .ok doc) : doc = d.sortDefinitions := by
  unfold sortDefinitions? at h
  split at h
  · exact (Except.ok.inj h).symm
  · cases h

theorem eq_of_sort? (h : d.sort? = .ok doc) : doc = d.sortDefinitions.sortPaths := by
  obtain ⟨d', hd', h⟩ := Failure.ok_of_bind h
  obtain rfl := eq_of_sortDefinitions? hd'
  unfold sortPaths? at h
  split at h
  · exact (Except.ok.inj h).symm
  · cases h

end Document

/-! ### Completed properties -/

theorem Operation.IsShaped.mapProperties {path method : Scalar} {o : Operation} (h : o.IsShaped path method)
    (g : Property → Property) : (o.mapProperties g).IsShaped path method where
  read hp hm := by
    obtain ⟨r, hr, hsome⟩ := h.read hp hm
    refine ⟨r.mapProperties g, ?_, by simpa [Response.mapProperties] using hsome⟩
    have := Entries.get?_map (Response.mapProperties g) (.text "200") o.responses
    rw [hr] at this
    exact this
  written hp hm := by
    obtain ⟨⟨p, hmem, hlocation⟩, hall⟩ := h.written hp hm
    refine ⟨⟨p.mapProperties g, List.mem_map_of_mem hmem, hlocation⟩, fun q hq hlocation' => ?_⟩
    obtain ⟨q', hq', rfl⟩ := List.mem_map.mp hq
    simpa [Parameter.mapProperties] using hall q' hq' hlocation'

variable {Q : Scalar → Scalar → Place → Prop}

theorem AlikePaths.map {S S' : Place → Property → Property → Prop} {g g' : Property → Property}
    {d d' : Document} (h : AlikePaths Q S d.paths d'.paths)
    (hS : ∀ p π π', S p π π' → S' p (g π) (g' π')) :
    AlikePaths Q S' (d.mapOperations g).paths (d'.mapOperations g').paths := by
  refine List.forall₂_map_left_iff.mpr (List.forall₂_map_right_iff.mpr (List.Forall₂.imp ?_ h))
  rintro ⟨path, os⟩ ⟨path', os'⟩ ⟨heq, hpath, hos⟩
  refine ⟨heq, hpath,
    List.forall₂_map_left_iff.mpr (List.forall₂_map_right_iff.mpr (List.Forall₂.imp ?_ hos))⟩
  rintro ⟨method, o⟩ ⟨method', o'⟩ ⟨heq', hmethod, ho, hshape⟩
  exact ⟨heq', hmethod, ho.mapProperties fun π π' ⟨p, hp, hπ⟩ => ⟨p, hp, hS p π π' hπ⟩,
    hshape.mapProperties g⟩

/-- What an operation has as a schema is related to what the other one has, for a node that the operation may
be for. -/
theorem AlikePaths.schema {S : Place → Property → Property → Prop}
    {paths paths' : Entries Scalar (Entries Scalar Operation)} (h : AlikePaths Q S paths paths')
    {path method : Scalar} {os : Entries Scalar Operation} {o : Operation} (hos : (path, os) ∈ paths)
    (ho : (method, o) ∈ os) :
    (∀ q ∈ o.parameters, ∀ π, q.schema = some π → ∃ p π', Q path method p ∧ S p π π') ∧
      ∀ e ∈ o.responses, ∀ π, e.2.schema = some π → ∃ p π', Q path method p ∧ S p π π' := by
  obtain ⟨os', -, -, hos'⟩ := Entries.Alike.exists_of_mem h hos
  obtain ⟨o', -, -, ho', -⟩ := Entries.Alike.exists_of_mem hos' ho
  refine ⟨fun q hq π hπ => ?_, fun e he π hπ => ?_⟩
  · obtain ⟨π', p, hp, hS⟩ := ho'.parameter hq hπ
    exact ⟨p, π', hp, hS⟩
  · obtain ⟨π', p, hp, hS⟩ := ho'.response he hπ
    exact ⟨p, π', hp, hS⟩

theorem AlikePaths.covers_operations {S : Place → Property → Property → Prop} {defs : Models} {d d' : Document}
    (h : AlikePaths Q S d.paths d'.paths) (hS : ∀ p π π', S p π π' → Models.Covers defs π.refs) :
    Models.Covers defs (d.operations.flatMap Operation.refs) := by
  intro r hr
  obtain ⟨o, ho, hr⟩ := List.mem_flatMap.mp hr
  obtain ⟨⟨path, os⟩, hos, ho⟩ := List.mem_flatMap.mp ho
  obtain ⟨⟨method, o⟩, hmem, rfl⟩ := List.mem_map.mp ho
  obtain ⟨hparameters, hresponses⟩ := h.schema hos hmem
  rcases List.mem_append.mp hr with hr | hr
  · obtain ⟨q, hq, hr⟩ := List.mem_flatMap.mp hr
    cases hπ : q.schema with
    | none => simp [Parameter.refs, hπ] at hr
    | some π =>
      obtain ⟨p, π', -, hS'⟩ := hparameters q hq π hπ
      exact hS p π π' hS' r (by simpa [Parameter.refs, hπ] using hr)
  · obtain ⟨x, hx, hr⟩ := List.mem_flatMap.mp hr
    cases hπ : x.2.schema with
    | none => simp [Response.refs, hπ] at hr
    | some π =>
      obtain ⟨p, π', -, hS'⟩ := hresponses x hx π hπ
      exact hS p π π' hS' r (by simpa [Response.refs, hπ] using hr)

namespace Definitions

variable {c c' : Scope} {u u' : Definitions} {R : Regime c u} {R' : Regime c' u'} {d e : Definitions}

/-- A property that only points at a definition, and that describes the node. -/
def Aims (c : Scope) (u : Definitions) (cut : Place → Prop) (defs : Models) (p : Place) (π : Property) :
    Prop :=
  ∃ name, π = { ref := some (.scalar name) } ∧ Stands c u cut defs (u.canonical c p) name

/-- Two properties that point at definitions of one node. -/
def Aligned (R : Regime c u) (R' : Regime c' u') (d e : Definitions) (p : Place) (π π' : Property) : Prop :=
  c.schema.Has p ∧ Aims c u R.cut d.models p π ∧ Aims c' u' R'.cut e.models p π'

theorem Points.current {cut : Place → Prop} (hd : Sound c u cut d) {p : Place} (hp : c.schema.Has p)
    {π : Property} (h : Points c u cut d.models p π)
    (hdone : (d.completed.get? p.address).isSome = true) :
    Aims c u cut d.models p (Property.mapAll d.current π) := by
  cases h with
  | @defined name h => exact ⟨name, rfl, h⟩
  | awaiting =>
    obtain ⟨name, hname⟩ := Option.isSome_iff_exists.mp hdone
    refine ⟨name, ?_, hd.completed p name hp hname⟩
    show d.current { awaits := some p.address } = _
    simp [Definitions.current, hname]

theorem Paired.current {p : Place} {π π' : Property} (h : Paired R R' [] d e p π π') (hd : Sound c u R.cut d)
    (he : Sound c' u' R'.cut e) (hschema : c'.schema = c.schema) :
    Aligned R R' d e p (Property.mapAll d.current π) (Property.mapAll e.current π') := by
  obtain ⟨hp, hπ, hπ', hdone⟩ := h
  obtain ⟨hsome, hsome'⟩ := hdone.resolve_left (by simp)
  exact ⟨hp, hπ.current hd hp hsome, hπ'.current he (hschema ▸ hp) hsome'⟩

theorem Aims.covers {cut : Place → Prop} {defs : Models} {p : Place} {π : Property}
    (h : Aims c u cut defs p π) : Models.Covers defs π.refs := by
  obtain ⟨name, rfl, hstands⟩ := h
  intro r hr
  exact ⟨name, by simpa [Property.refs] using hr, hstands.defines⟩

/-- When no node is open any more, all properties point at definitions. -/
theorem Twins.finished (h : Twins R R' Q [] d e) (hschema : c'.schema = c.schema) :
    AlikePaths Q (Aligned R R' d e) d.finished.paths e.finished.paths :=
  AlikePaths.map h.paths fun _ _ _ hπ => hπ.current h.left h.right hschema

theorem Twins.isClosed_finished (h : Twins R R' Q [] d e) (hschema : c'.schema = c.schema) (info : Info) :
    Document.IsClosed { d.finished with info } where
  definitions := h.left.closed
  operations := AlikePaths.covers_operations (h.finished hschema) fun _ _ _ ⟨_, hπ, _⟩ => hπ.covers

end Definitions

namespace Generation

open Logged (ok_of_bind)

/-- What the name of a definition becomes in the course of some postprocessors. -/
def nameAfter : List Postprocessor → Document → Name → Name
  | [], _, name => name
  | .foldAliases :: rest, d, name => nameAfter rest d.foldAliases.1 (d.foldedName name)
  | .sortDefinitions :: rest, d, name => nameAfter rest d.sortDefinitions name
  | .sort :: rest, d, name => nameAfter rest d.sortDefinitions.sortPaths name

/-- What the name of a definition becomes when a document is postprocessed. -/
def finalName (settings : Settings) (d : Document) : Name → Name :=
  if d.definitions.isEmpty then fun name => name else nameAfter settings.postprocessors d

theorem eq_of_foldAliases? {d doc : Document} (hd : d.IsClosed) (h : d.foldAliases?.result = .ok doc) :
    doc = d.foldAliases.1 := by
  rw [Document.foldAliases?, if_pos hd.hasKeyedRefs] at h
  exact (Except.ok.inj h).symm

theorem postprocess_yields (postprocessors : List Postprocessor) {d doc : Document} (hd : d.IsClosed)
    (h : (postprocessors.foldlM postprocess d).result = .ok doc) :
    d.Yields (nameAfter postprocessors d) doc := by
  induction postprocessors generalizing d with
  | nil =>
    obtain rfl := Except.ok.inj h
    exact .refl hd
  | cons p rest ih =>
    rw [List.foldlM_cons] at h
    obtain ⟨d', hp, h⟩ := ok_of_bind h
    cases p with
    | foldAliases =>
      obtain rfl := eq_of_foldAliases? hd hp
      have hyields := Document.yields_foldAliases hd
      exact hyields.trans (ih hyields.closed h)
    | sortDefinitions =>
      obtain rfl := Document.eq_of_sortDefinitions? hp
      have hyields := Document.yields_sortDefinitions hd
      exact hyields.trans (ih hyields.closed h)
    | sort =>
      obtain rfl := Document.eq_of_sort? hp
      have hyields := (Document.yields_sortDefinitions hd).trans
        (Document.yields_sortPaths (Document.yields_sortDefinitions hd).closed)
      exact hyields.trans (ih hyields.closed h)

/-- Whatever the postprocessors are, they leave a document that points only at its definitions. -/
theorem postprocessAll_yields {settings : Settings} {d doc : Document} (hd : d.IsClosed)
    (h : (postprocessAll settings d).result = .ok doc) : d.Yields (finalName settings d) doc := by
  unfold postprocessAll at h
  rw [finalName]
  split at h
  · rename_i hempty
    obtain rfl := Except.ok.inj h
    rw [if_pos hempty]
    exact .refl hd
  · rename_i hempty
    rw [if_neg hempty]
    exact postprocess_yields settings.postprocessors hd h

/-! ### Selection and walk -/

theorem forall₂_of_mapM {α β : Type} {f : α → Logged β} {l : List α} {bs : List β}
    (h : (l.mapM f).result = .ok bs) : List.Forall₂ (fun a b => (f a).result = .ok b) l bs := by
  induction l generalizing bs with
  | nil =>
    obtain rfl := Except.ok.inj h
    exact .nil
  | cons a l ih =>
    rw [List.mapM_cons] at h
    obtain ⟨b, hb, h⟩ := ok_of_bind h
    obtain ⟨bs', hbs', h⟩ := ok_of_bind h
    obtain rfl := Except.ok.inj h
    exact .cons hb (ih hbs')

/-- The selected modules are those of the given names. -/
theorem forall₂_select {s : Schema} {names : List Name} {modules : List (Module × Nat)}
    (h : (select s names).result = .ok modules) :
    List.Forall₂ (fun name m => s.module? name = some m) names modules := by
  unfold select at h
  split at h
  · obtain ⟨_, -, h⟩ := ok_of_bind h
    cases h
  · split at h
    · obtain ⟨_, -, h⟩ := ok_of_bind h
      obtain ⟨_, -, h⟩ := ok_of_bind h
      obtain ⟨_, -, h⟩ := ok_of_bind h
      cases h
    · refine (forall₂_of_mapM h).imp fun name m hm => ?_
      cases hfound : s.module? name with
      | none =>
        rw [hfound] at hm
        obtain ⟨_, -, hm⟩ := ok_of_bind hm
        cases hm
      | some found =>
        rw [hfound] at hm
        rw [Except.ok.inj hm]

theorem getElem?_of_select {s : Schema} {names : List Name} {modules : List (Module × Nat)}
    (h : (select s names).result = .ok modules) {m : Module × Nat} (hm : m ∈ modules) :
    s.modules[m.2]? = some m.1 := by
  obtain ⟨name, -, hfound⟩ := exists_of_forall₂_right (forall₂_select h) hm
  exact (Schema.mem_of_module? hfound).1

/-- What a run that succeeds consists of: the selection, the groupings, and the walk. -/
structure Ran (s : Schema) (names : List Name) (settings : Settings) (modules : List (Module × Nat))
    (r : Outcome) : Prop where
  selected : (select s names).result = .ok modules
  groupings : (Groupings.ofSchema s).result = .ok r.scope.groupings
  scope : r.scope = ⟨s, r.scope.groupings, settings.strategy, settings.levelLimit⟩
  walked : walk ⟨r.scope, modules.map (·.1.name)⟩ settings modules { document := emptyDocument settings } =
    (.ok (), r.definitions)
  modules : r.modules = modules.map (·.1)

theorem exists_ran {s : Schema} {names : List Name} {settings : Settings} {r : Outcome}
    (h : (run s names settings).result = .ok r) : ∃ modules, Ran s names settings modules r := by
  unfold run at h
  obtain ⟨modules, hselected, h⟩ := ok_of_bind h
  obtain ⟨-, -, h⟩ := ok_of_bind h
  obtain ⟨groupings, hgroupings, h⟩ := ok_of_bind h
  obtain ⟨title, -, h⟩ := ok_of_bind h
  obtain ⟨-, -, h⟩ := ok_of_bind h
  dsimp only at h
  rcases hwalk : walk ⟨⟨s, groupings, settings.strategy, settings.levelLimit⟩, modules.map (·.1.name)⟩
    settings modules { document := emptyDocument settings } with ⟨result, built⟩
  rw [hwalk] at h
  obtain ⟨u, hresult, h⟩ := ok_of_bind h
  obtain rfl := Except.ok.inj h
  obtain rfl : result = .ok () := hresult
  exact ⟨modules, hselected, hgroupings, rfl, hwalk, rfl⟩

/-- A document is what postprocessing makes of the one that a run leaves. -/
theorem exists_run {s : Schema} {names : List Name} {settings : Settings} {doc : Document}
    (h : (generate s names settings).result = .ok doc) :
    ∃ r about, (run s names settings).result = .ok r ∧ info settings r.title r.modules = .ok about ∧
      (postprocessAll settings { r.definitions.finished with info := about }).result = .ok doc := by
  unfold generate at h
  obtain ⟨r, hr, h⟩ := ok_of_bind h
  obtain ⟨about, habout, h⟩ := ok_of_bind h
  exact ⟨r, about, hr, habout, h⟩

/-- The name under which a document has the definition of a node, if there is one: what postprocessing has put
in place of the name that the node got in the walk. -/
def definition? (s : Schema) (names : List Name) (settings : Settings) (p : Place) : Option Name :=
  match (run s names settings).result with
  | .error _ => none
  | .ok r =>
    match info settings r.title r.modules with
    | .error _ => none
    | .ok about => (r.definitions.completed.get? p.address).map fun k =>
        finalName settings { r.definitions.finished with info := about } (.scalar k)

/-- The document that is generated from a schema document passes a test. -/
def passes (d : Datum) (names : List Name) (settings : Settings) (test : Schema → Document → Bool) : Bool :=
  match (Schema.load d).result with
  | .ok s =>
    match (generate s names settings).result with
    | .ok doc => test s doc
    | .error _ => false
  | .error _ => false

theorem exists_of_passes {d : Datum} {names : List Name} {settings : Settings} {test : Schema → Document → Bool}
    (h : passes d names settings test = true) :
    ∃ s doc, (Schema.load d).result = .ok s ∧ (generate s names settings).result = .ok doc ∧
      test s doc = true := by
  unfold passes at h
  split at h
  · rename_i s hs
    split at h
    · rename_i doc hdoc
      exact ⟨s, doc, hs, hdoc, h⟩
    · cases h
  · cases h

/-- What a generation fails with. -/
def failure? (s : Schema) (names : List Name) (settings : Settings) : Option Failure :=
  match (generate s names settings).result with
  | .ok _ => none
  | .error e => some e

theorem error_of_failure? {s : Schema} {names : List Name} {settings : Settings} {e : Failure}
    (h : failure? s names settings = some e) : (generate s names settings).result = .error e := by
  unfold failure? at h
  split at h
  · cases h
  · rename_i hresult
    obtain rfl := Option.some.inj h
    exact hresult

end Generation

end RestconfApi
