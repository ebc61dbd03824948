import RestconfApi.Proofs.Generation.Outcome
import RestconfApi.Proofs.Schema.Loaded
import RestconfApi.Proofs.Swagger.Rendering

/-!
# Generation: references of a document

A generation that succeeds leaves no reference without its definition, however the document is written, and no
operation on data without a reference.
-/

namespace RestconfApi

open Definitions Generation Building

/-! ### One run beside itself -/

/-- The stops of the walk of a generation. -/
def generatedStops (s : Schema) (settings : Settings) (modules : List (Module × Nat)) : List Stop :=
  walkStops s (modules.map (·.1.name)) settings modules

/-- What has been generated: the walk over the selected modules, in the end of which every name that is bound
describes what stands for its node and every stop has been dealt with, and the document that comes from it. -/
structure Generated (s : Schema) (names : List Name) (settings : Settings) (modules : List (Module × Nat))
    (r : Outcome) (info : Info) (doc : Document) : Prop where
  run : (run s names settings).result = .ok r
  ran : Ran s names settings modules r
  about : Generation.info settings r.title r.modules = .ok info
  twins : Twins (Regime.free r.scope (counted r.definitions)) (Regime.free r.scope (counted r.definitions))
    (Serves (generatedStops s settings modules)) [] r.definitions r.definitions
  found : ∀ x ∈ generatedStops s settings modules,
    Found r.scope (counted r.definitions) r.scope (counted r.definitions) r.definitions r.definitions x
  postprocessed : (postprocessAll settings { r.definitions.finished with info }).result = .ok doc

theorem exists_generated {d : Datum} {s : Schema} {names : List Name} {settings : Settings} {doc : Document}
    (hload : (Schema.load d).result = .ok s) (h : (generate s names settings).result = .ok doc) :
    ∃ modules r info, Generated s names settings modules r info doc := by
  obtain ⟨declared, M, hfrom⟩ := Schema.exists_loadedFrom hload
  obtain ⟨r, info, hrun, habout, hpost⟩ := exists_run h
  obtain ⟨modules, hran⟩ := exists_ran hrun
  have hschema : r.scope.schema = s := by rw [hran.scope]
  have hfresh : IsFresh { document := emptyDocument settings } := ⟨rfl, rfl, rfl, rfl, rfl⟩
  let w : Walk := ⟨r.scope, modules.map (·.1.name)⟩
  have hranked : r.scope.schema.Ranked := hschema ▸ hfrom.traced.ranked
  have hrpcs : ∀ i, ∀ p ∈ r.scope.schema.tops i .rpcs, p.node.kind = .rpc := fun i p hp =>
    hfrom.kind_of_mem_rpcs (hschema ▸ hp)
  have hlimit : False → settings.walkLimit = none := False.elim
  have hwhole : False → IsWhole r.scope.schema w.selected modules := False.elim
  have hscope : w.scope = r.scope := rfl
  have hselected : w.selected = modules.map (·.1.name) := rfl
  have hboth := walk_both hscope hscope hselected hselected rfl hranked hrpcs (Regime.free r.scope)
    (Regime.free r.scope) (fun _ _ _ _ _ _ _ => trivial) (fun _ _ _ _ _ _ _ => trivial) hlimit hwhole
    hfresh hfresh
  obtain ⟨htwins, hfound⟩ := hboth _ _ _ _ hran.walked hran.walked
  have hstops : walkStops r.scope.schema w.selected settings modules = generatedStops s settings modules := by
    rw [generatedStops, ← hschema]
  exact ⟨modules, r, info, hrun, hran, habout, hstops ▸ htwins, hstops ▸ hfound, hpost⟩

/-- The document before postprocessing has all definitions that it points at. -/
theorem Generated.isClosed {s : Schema} {names : List Name} {settings : Settings}
    {modules : List (Module × Nat)} {r : Outcome} {info : Info} {doc : Document}
    (h : Generated s names settings modules r info doc) :
    Document.IsClosed { r.definitions.finished with info } :=
  h.twins.isClosed_finished rfl info

/-! ### References of the document -/

/-- A property that is a reference to a definition and nothing else. -/
def Property.RefersInto (defs : Models) (π : Property) : Prop :=
  ∃ name, π = { ref := some (.scalar name) } ∧ defs.Defines name

/-- What an operation on data hands out when it reads, and what it takes when it writes, is a reference to a
definition. -/
structure Operation.RefersInto (defs : Models) (path method : Scalar) (o : Operation) : Prop where
  read : path.IsDataPath → method = .text "get" →
    ∃ r π, o.responses.get? (.text "200") = some r ∧ r.schema = some π ∧ π.RefersInto defs
  written : path.IsDataPath → method = .text "put" ∨ method = .text "post" →
    (∃ p ∈ o.parameters, p.location = .text "body") ∧
      ∀ p ∈ o.parameters, p.location = .text "body" → ∃ π, p.schema = some π ∧ π.RefersInto defs

theorem Operation.IsShaped.refersInto {defs : Models} {path method : Scalar} {o : Operation}
    (h : o.IsShaped path method)
    (hparameters : ∀ p ∈ o.parameters, ∀ π, p.schema = some π → π.RefersInto defs)
    (hresponses : ∀ e ∈ o.responses, ∀ π, e.2.schema = some π → π.RefersInto defs) :
    o.RefersInto defs path method where
  read hp hm := by
    obtain ⟨r, hr, hsome⟩ := h.read hp hm
    obtain ⟨π, hπ⟩ := Option.isSome_iff_exists.mp hsome
    obtain ⟨code, hmem, -⟩ := Entries.mem_of_get? hr
    exact ⟨r, π, hr, hπ, hresponses _ hmem π hπ⟩
  written hp hm := by
    obtain ⟨hbody, hall⟩ := h.written hp hm
    refine ⟨hbody, fun p hp hlocation => ?_⟩
    obtain ⟨π, hπ⟩ := Option.isSome_iff_exists.mp (hall p hp hlocation)
    exact ⟨π, hπ, hparameters p hp π hπ⟩

theorem Property.RefersInto.isTame {defs : Models} {π : Property} (h : π.RefersInto defs) : π.IsTame := by
  obtain ⟨name, rfl, -⟩ := h
  simp [Property.IsTame]

theorem Definitions.Aims.refersInto {c : Scope} {u : Definitions} {cut : Place → Prop} {p : Place}
    {π : Property} {defs defs' : Models} {f : Name → Name} (h : Aims c u cut defs p π)
    (hf : Document.Folds f defs defs') : (π.mapRefs f).RefersInto defs' := by
  obtain ⟨name, rfl, hstands⟩ := h
  obtain ⟨k, hk, hdef⟩ := hf.defined name hstands.defines
  exact ⟨k, by simp [Property.mapRefs, Property.mapAll, hk], hdef⟩

/-- The schemas of the bodies and responses of an operation. -/
def Operation.schemas (o : Operation) : List Property :=
  o.parameters.filterMap (·.schema) ++ o.responses.filterMap (·.2.schema)

theorem Operation.mem_schemas {o : Operation} {π : Property} :
    π ∈ o.schemas ↔ (∃ q ∈ o.parameters, q.schema = some π) ∨ ∃ e ∈ o.responses, e.2.schema = some π := by
  simp [schemas]

theorem Scalar.isDataPath_congr {k path : Scalar} (h : (k == path) = true) :
    k.IsDataPath ↔ path.IsDataPath := by
  constructor
  · rintro ⟨t, rfl⟩
    exact ⟨t, Scalar.eq_text_of_beq (BEq.symm h)⟩
  · rintro ⟨t, rfl⟩
    exact ⟨t, Scalar.eq_text_of_beq h⟩

theorem Generation.Serves.congr {found : List Stop} {k path method : Scalar} {p : Place}
    (h : Serves found k method p) (hk : (k == path) = true) : Serves found path method p := by
  rcases h with ⟨x, hx, hp, rfl, hmethod⟩ | ⟨hpath, hp⟩
  · exact .inl ⟨x, hx, hp, Scalar.eq_text_of_beq (BEq.symm hk), hmethod⟩
  · exact .inr ⟨fun hdata => hpath ((Scalar.isDataPath_congr hk).mpr hdata), hp⟩

theorem Operation.IsShaped.congr {k path method : Scalar} {o : Operation} (h : o.IsShaped k method)
    (hk : (k == path) = true) : o.IsShaped path method where
  read hp := h.read ((Scalar.isDataPath_congr hk).mpr hp)
  written hp := h.written ((Scalar.isDataPath_congr hk).mpr hp)

/-- What an operation of the document has as a schema: what postprocessing makes of a reference to the
definition of a node that the operation may be for. -/
theorem Generated.operation {s : Schema} {names : List Name} {settings : Settings}
    {modules : List (Module × Nat)} {r : Outcome} {info : Info} {doc : Document}
    (h : Generated s names settings modules r info doc) {path method : Scalar} {os : Entries Scalar Operation}
    {o : Operation} (hos : (path, os) ∈ doc.paths) (ho : (method, o) ∈ os) :
    o.IsShaped path method ∧ ∀ π ∈ o.schemas, ∃ p π₀, Serves (generatedStops s settings modules) path method p ∧
      s.Has p ∧ Aims r.scope (counted r.definitions) (Regime.free r.scope (counted r.definitions)).cut
        r.definitions.models p π₀ ∧ π = π₀.mapRefs (finalName settings { r.definitions.finished with info }) := by
  have hschema : r.scope.schema = s := by rw [h.ran.scope]
  obtain ⟨k, os₀, hos₀, hk, rfl⟩ := (postprocessAll_yields h.isClosed h.postprocessed).operations path os hos
  obtain ⟨⟨method, o₀⟩, ho₀, heq⟩ := List.mem_map.mp ho
  obtain ⟨rfl, rfl⟩ := Prod.mk.inj heq
  have halike := h.twins.finished rfl
  obtain ⟨hparameters, hresponses⟩ := halike.schema hos₀ ho₀
  obtain ⟨_, -, -, hos'⟩ := Entries.Alike.exists_of_mem halike hos₀
  obtain ⟨_, -, -, -, hshape⟩ := Entries.Alike.exists_of_mem hos' ho₀
  refine ⟨(hshape.mapProperties _).congr hk, fun π hπ => ?_⟩
  rcases Operation.mem_schemas.mp hπ with ⟨q, hq, hschemaq⟩ | ⟨e, he, hschemae⟩
  · obtain ⟨q₀, hq₀, rfl⟩ := List.mem_map.mp hq
    obtain ⟨π₀, hπ₀, rfl⟩ := Option.map_eq_some_iff.mp hschemaq
    obtain ⟨p, -, hserves, hp, haims, -⟩ := hparameters q₀ hq₀ π₀ hπ₀
    exact ⟨p, π₀, hserves.congr hk, hschema ▸ hp, haims, rfl⟩
  · obtain ⟨e₀, he₀, rfl⟩ := List.mem_map.mp he
    obtain ⟨π₀, hπ₀, rfl⟩ := Option.map_eq_some_iff.mp hschemae
    obtain ⟨p, -, hserves, hp, haims, -⟩ := hresponses e₀ he₀ π₀ hπ₀
    exact ⟨p, π₀, hserves.congr hk, hschema ▸ hp, haims, rfl⟩

/-- Whatever a generated document refers to, however it is written, is one of its definitions; and operations
on data read and write what such a reference describes. -/
theorem references_of_generate {d : Datum} {s : Schema} {names : List Name} {settings : Settings}
    {doc : Document} (hload : (Schema.load d).result = .ok s)
    (h : (generate s names settings).result = .ok doc) :
    (∀ v, doc.value? = .ok v → ∀ t, DocumentRefers v t →
      ∃ name, t = "#/definitions/" ++ name ∧ RendersDefinition v name) ∧
    ∀ path os, (path, os) ∈ doc.paths → ∀ method o, (method, o) ∈ os →
      o.RefersInto doc.definitions path method := by
  obtain ⟨modules, r, info, hgenerated⟩ := exists_generated hload h
  have hyields := postprocessAll_yields hgenerated.isClosed hgenerated.postprocessed
  have hclosed := hyields.closed
  have hrefers : ∀ path os, (path, os) ∈ doc.paths → ∀ method o, (method, o) ∈ os →
      o.IsShaped path method ∧ ∀ π ∈ o.schemas, π.RefersInto doc.definitions := by
    intro path os hos method o ho
    obtain ⟨hshape, hschemas⟩ := hgenerated.operation hos ho
    refine ⟨hshape, fun π hπ => ?_⟩
    obtain ⟨p, π₀, -, -, haims, rfl⟩ := hschemas π hπ
    exact haims.refersInto hyields.folds
  refine ⟨fun v hv t ht => ?_, fun path os hos method o ho => ?_⟩
  · unfold Document.value? at hv
    split at hv
    · rename_i hwritable
      obtain rfl := Except.ok.inj hv
      have htame : ∀ o ∈ doc.operations, o.IsTame := by
        intro o ho
        obtain ⟨⟨path, os⟩, hos, ho⟩ := List.mem_flatMap.mp ho
        obtain ⟨⟨method, o⟩, hmem, rfl⟩ := List.mem_map.mp ho
        have hschemas := (hrefers path os hos method o hmem).2
        exact ⟨fun p hp π hπ => (hschemas π (Operation.mem_schemas.mpr (.inl ⟨p, hp, hπ⟩))).isTame,
          fun e he π hπ => (hschemas π (Operation.mem_schemas.mpr (.inr ⟨e, he, hπ⟩))).isTame⟩
      obtain ⟨name, hname, rfl⟩ := Document.writtenFor htame hclosed.definitions.proper hwritable ht
      refine ⟨name, rfl, Document.rendersDefinition ?_⟩
      have hdefined : ∃ k, Datum.text name = .scalar k ∧ Models.Defines doc.definitions k := by
        rcases List.mem_append.mp hname with hname | hname
        · exact hclosed.operations _ hname
        · obtain ⟨e, he, hname⟩ := List.mem_flatMap.mp hname
          exact hclosed.definitions.covers e he _ hname
      obtain ⟨k, hk, hdef⟩ := hdefined
      obtain rfl := Datum.scalar.inj hk
      exact hdef
    · cases hv
  · obtain ⟨hshape, hschemas⟩ := hrefers path os hos method o ho
    exact hshape.refersInto (fun p hp π hπ => hschemas π (Operation.mem_schemas.mpr (.inl ⟨p, hp, hπ⟩)))
      fun e he π hπ => hschemas π (Operation.mem_schemas.mpr (.inr ⟨e, he, hπ⟩))

/-- Two containers and the input of an rpc that share a grouping. -/
def Example.shared : Datum :=
  document [
    ("groupings", [grouping "g" [container "c" [] [leaf "l"]]]),
    ("data", [container "x" ["g"], container "y" ["g"]]),
    ("rpcs", [rpc "r" ["g"]])]

theorem references_of_generate_shared :
    ∃ s doc, (Schema.load Example.shared).result = .ok s ∧ (generate s [.text "m"] {}).result = .ok doc ∧
      (∀ v, doc.value? = .ok v → ∀ t, DocumentRefers v t →
        ∃ name, t = "#/definitions/" ++ name ∧ RendersDefinition v name) ∧
      ∀ path os, (path, os) ∈ doc.paths → ∀ method o, (method, o) ∈ os →
        o.RefersInto doc.definitions path method := by
  have htest : passes Example.shared [.text "m"] {} (fun _ _ => true) = true := by decide +kernel
  obtain ⟨s, doc, hload, hgenerate, -⟩ := exists_of_passes htest
  exact ⟨s, doc, hload, hgenerate, references_of_generate hload hgenerate⟩

end RestconfApi
