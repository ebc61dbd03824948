import RestconfApi.Proofs.Swagger.Likeness
import RestconfApi.Swagger.Render

/-!
# Swagger: references of a rendered document

Whatever the rendered form of a document refers to, in the schemas of its operations or in its definitions, is
written for a name that the document points at.
-/

namespace RestconfApi

/-! ### Rendered references -/

/-- A rendered schema refers to a text: in its `$ref`, or in that of its items, of one of its properties or of
one of its parts. -/
inductive SchemaRefers : Datum → String → Prop
  | ref {fields : Fields} {mark : Mark} {t : String} :
      (Scalar.text "$ref", Datum.text t) ∈ fields → SchemaRefers (.mapping fields mark) t
  | items {fields : Fields} {mark : Mark} {d : Datum} {t : String} :
      (Scalar.text "items", d) ∈ fields → SchemaRefers d t → SchemaRefers (.mapping fields mark) t
  | property {fields properties : Fields} {mark mark' : Mark} {k : Scalar} {d : Datum} {t : String} :
      (Scalar.text "properties", Datum.mapping properties mark') ∈ fields → (k, d) ∈ properties →
      SchemaRefers d t → SchemaRefers (.mapping fields mark) t
  | part {fields : Fields} {parts : List Datum} {mark mark' : Mark} {d : Datum} {t : String} :
      (Scalar.text "allOf", Datum.list parts mark') ∈ fields → d ∈ parts → SchemaRefers d t →
      SchemaRefers (.mapping fields mark) t

/-- A rendered operation refers to a text in the schema of a parameter or of a response. -/
inductive OperationRefers : Datum → String → Prop
  | parameter {fields parameter : Fields} {parameters : List Datum} {mark mark' mark'' : Mark} {d : Datum}
      {t : String} :
      (Scalar.text "parameters", Datum.list parameters mark') ∈ fields →
      .mapping parameter mark'' ∈ parameters → (Scalar.text "schema", d) ∈ parameter → SchemaRefers d t →
      OperationRefers (.mapping fields mark) t
  | response {fields responses response : Fields} {mark mark' mark'' : Mark} {code : Scalar} {d : Datum}
      {t : String} :
      (Scalar.text "responses", Datum.mapping responses mark') ∈ fields →
      (code, Datum.mapping response mark'') ∈ responses → (Scalar.text "schema", d) ∈ response →
      SchemaRefers d t → OperationRefers (.mapping fields mark) t

/-- A rendered document refers to a text in an operation or in a definition. -/
inductive DocumentRefers : Datum → String → Prop
  | operation {fields paths operations : Fields} {mark mark' mark'' : Mark} {path method : Scalar}
      {d : Datum} {t : String} :
      (Scalar.text "paths", Datum.mapping paths mark') ∈ fields →
      (path, Datum.mapping operations mark'') ∈ paths → (method, d) ∈ operations → OperationRefers d t →
      DocumentRefers (.mapping fields mark) t
  | definition {fields definitions : Fields} {mark mark' : Mark} {name : Scalar} {d : Datum} {t : String} :
      (Scalar.text "definitions", Datum.mapping definitions mark') ∈ fields → (name, d) ∈ definitions →
      SchemaRefers d t → DocumentRefers (.mapping fields mark) t

/-! ### Fields -/

theorem eq_of_mem_fieldOf {name : String} {d : Datum} {e : Scalar × Datum} (h : e ∈ fieldOf name d) :
    e = (.text name, d) :=
  List.mem_singleton.mp h

theorem eq_of_mem_fieldIf {name : String} {d : Datum} {e : Scalar × Datum} (h : e ∈ fieldIf name d) :
    e = (.text name, d) := by
  unfold fieldIf at h
  split at h
  · exact eq_of_mem_fieldOf h
  · simp at h

theorem eq_of_mem_fieldUnlessNull {name : String} {d : Datum} {e : Scalar × Datum}
    (h : e ∈ fieldUnlessNull name d) : e = (.text name, d) := by
  unfold fieldUnlessNull at h
  split at h
  · simp at h
  · exact eq_of_mem_fieldOf h

theorem mem_overlay {fields more : Fields} {k : Scalar} {d : Datum} (h : (k, d) ∈ overlay fields more) :
    (k, d) ∈ fields ∨ ∃ e ∈ more, (k == e.1) = true := by
  unfold overlay at h
  induction more generalizing fields with
  | nil => exact .inl h
  | cons e more ih =>
    rw [List.foldl_cons] at h
    rcases ih h with h | ⟨e', he', hk⟩
    · rcases Entries.mem_put h with ⟨-, hk⟩ | h
      · exact .inr ⟨e, List.mem_cons_self, hk⟩
      · exact .inl h
    · exact .inr ⟨e', List.mem_cons_of_mem _ he', hk⟩

/-- Extensions that are paths of leafrefs hide and add no other field. -/
theorem mem_of_mem_overlay {fields more : Fields} {name : String} {d : Datum}
    (hmore : ∀ e ∈ more, e.1 = .text "x-path") (hname : name ≠ "x-path")
    (h : (Scalar.text name, d) ∈ overlay fields more) : (Scalar.text name, d) ∈ fields := by
  rcases mem_overlay h with h | ⟨e, he, hk⟩
  · exact h
  · rw [hmore e he] at hk
    simp [hname] at hk

/-! ### Schemas -/

/-- A text is written for a name: the place of the definition of that name. -/
def WrittenFor (refs : List Name) (t : String) : Prop :=
  ∃ name, Datum.text name ∈ refs ∧ t = "#/definitions/" ++ name

theorem WrittenFor.mono {refs refs' : List Name} {t : String} (h : WrittenFor refs t) (hsub : refs ⊆ refs') :
    WrittenFor refs' t := by
  obtain ⟨name, hname, ht⟩ := h
  exact ⟨name, hsub hname, ht⟩

theorem writtenFor_definitionRef {name : Name} {t : String} (hname : name.asText?.isSome = true)
    (h : Datum.text t = definitionRef name) : WrittenFor [name] t := by
  unfold Datum.asText? at hname
  split at hname
  · rename_i s
    have ht : t = "#/definitions/" ++ s := by simpa [definitionRef, Datum.wording, Scalar.wording] using h
    exact ⟨s, List.mem_singleton.mpr rfl, ht⟩
  · cases hname

/-- What a field of a property without a reference is, among those that a schema is read by. -/
theorem mem_shapeFields {p : Property} {items : Fields} {name : String} {d : Datum}
    (h : (Scalar.text name, d) ∈ p.shapeFields items) :
    name ∈ ["type", "format", "enum", "description", "readOnly"] ∨ (Scalar.text name, d) ∈ items := by
  simp only [Property.shapeFields, List.mem_append] at h
  rcases h with ((((h | h) | h) | h) | h) | h
  · have := eq_of_mem_fieldUnlessNull h
    simp_all
  · have := eq_of_mem_fieldUnlessNull h
    simp_all
  · exact .inr h
  · have := eq_of_mem_fieldIf h
    simp_all
  · have := eq_of_mem_fieldIf h
    simp_all
  · have := eq_of_mem_fieldIf h
    simp_all

/-- What a property that points at a definition shows. -/
theorem schemaRefers_withExtensions_some {p : Property} {items : Fields} {name : Name} {t : String}
    (href : p.ref = some name) (hextensions : ∀ e ∈ p.extensions, e.1 = .text "x-path")
    (hname : name.asText?.isSome = true) (h : SchemaRefers (p.withExtensions items) t) :
    WrittenFor [name] t := by
  unfold Property.withExtensions at h
  rw [href] at h
  cases h with
  | ref hmem =>
    have := eq_of_mem_fieldOf (mem_of_mem_overlay hextensions (by decide) hmem)
    exact writtenFor_definitionRef hname (Prod.mk.inj this).2
  | items hmem _ =>
    have := eq_of_mem_fieldOf (mem_of_mem_overlay hextensions (by decide) hmem)
    simp at this
  | property hmem _ _ =>
    have := eq_of_mem_fieldOf (mem_of_mem_overlay hextensions (by decide) hmem)
    simp at this
  | part hmem _ _ =>
    have := eq_of_mem_fieldOf (mem_of_mem_overlay hextensions (by decide) hmem)
    simp at this

/-- What another property refers to is in its items. -/
theorem schemaRefers_withExtensions_none {p : Property} {items : Fields} {t : String} (href : p.ref = none)
    (hextensions : ∀ e ∈ p.extensions, e.1 = .text "x-path")
    (hitems : ∀ e ∈ items, e.1 = .text "items")
    (h : SchemaRefers (p.withExtensions items) t) : ∃ d, (Scalar.text "items", d) ∈ items ∧ SchemaRefers d t := by
  unfold Property.withExtensions at h
  rw [href] at h
  have hkey : ∀ {name : String} {d : Datum}, name ≠ "x-path" →
      name ∉ ["type", "format", "enum", "description", "readOnly"] →
      (Scalar.text name, d) ∈ overlay (p.shapeFields items) p.extensions → (Scalar.text name, d) ∈ items := by
    intro name d hpath hother hmem
    exact (mem_shapeFields (mem_of_mem_overlay hextensions hpath hmem)).resolve_left hother
  cases h with
  | ref hmem =>
    have := hitems _ (hkey (by decide) (by decide) hmem)
    simp at this
  | items hmem h => exact ⟨_, hkey (by decide) (by decide) hmem, h⟩
  | property hmem _ _ =>
    have := hitems _ (hkey (by decide) (by decide) hmem)
    simp at this
  | part hmem _ _ =>
    have := hitems _ (hkey (by decide) (by decide) hmem)
    simp at this

theorem Property.writtenFor : ∀ {p : Property} {t : String}, p.IsTame → p.isWritable = true →
    SchemaRefers p.toDatum t → WrittenFor p.refs t
  | { items := none, ref := some name, .. }, t, htame, hw, h =>
    schemaRefers_withExtensions_some rfl htame.path_of_mem hw h
  | { items := none, ref := none, .. }, t, htame, _, h => by
    obtain ⟨d, hd, -⟩ := schemaRefers_withExtensions_none rfl htame.path_of_mem (by simp) h
    simp at hd
  | { items := some q, ref := some name, .. }, t, htame, hw, h =>
    (schemaRefers_withExtensions_some rfl htame.path_of_mem hw h).mono (by simp [Property.refs])
  | { items := some q, ref := none, .. }, t, htame, hw, h => by
    obtain ⟨d, hd, h⟩ := schemaRefers_withExtensions_none rfl htame.path_of_mem
      (fun e he => by rw [eq_of_mem_fieldOf he]) h
    obtain rfl := (Prod.mk.inj (eq_of_mem_fieldOf hd)).2
    exact (Property.writtenFor htame.2 hw h).mono (by simp [Property.refs])

theorem ObjectModel.writtenFor {o : ObjectModel} {t : String} (htame : o.IsTame) (hw : o.isWritable = true)
    (h : SchemaRefers o.toDatum t) : WrittenFor o.refs t := by
  unfold ObjectModel.toDatum at h
  rw [htame.extensions] at h
  have hkey : ∀ {name : String} {d : Datum}, (Scalar.text name, d) ∈
      fieldOf "type" (.text "object") ++ fieldIf "description" o.description ++
        fieldIf "required" (.list o.required) ++
        fieldOf "properties" (.mapping (o.properties.map fun e => (e.1, e.2.toDatum))) →
      name ∈ ["type", "description", "required"] ∨ name = "properties" ∧
        d = .mapping (o.properties.map fun e => (e.1, e.2.toDatum)) := by
    intro name d hmem
    simp only [List.mem_append] at hmem
    rcases hmem with ((hmem | hmem) | hmem) | hmem
    · have := eq_of_mem_fieldOf hmem
      simp_all
    · have := eq_of_mem_fieldIf hmem
      simp_all
    · have := eq_of_mem_fieldIf hmem
      simp_all
    · have := eq_of_mem_fieldOf hmem
      simp_all
  cases h with
  | ref hmem =>
    have := hkey hmem
    simp at this
  | items hmem _ =>
    have := hkey hmem
    simp at this
  | @property _ properties _ _ k d _ hmem hd h =>
    have := hkey hmem
    simp only [List.mem_cons, List.not_mem_nil, String.reduceEq, or_false, true_and, false_or] at this
    obtain ⟨rfl, -⟩ := Datum.mapping.inj this
    obtain ⟨⟨k', p⟩, hp, heq⟩ := List.mem_map.mp hd
    obtain ⟨rfl, rfl⟩ := Prod.mk.inj heq
    have hwritable := List.all_eq_true.mp hw _ hp
    refine (Property.writtenFor (htame.properties _ hp) hwritable h).mono fun r hr => ?_
    exact List.mem_flatMap.mpr ⟨_, hp, hr⟩
  | part hmem _ _ =>
    have := hkey hmem
    simp at this

theorem Model.IsPlain.writtenFor {m : Model} {t : String} (hm : m.IsPlain) (hw : m.isWritable = true)
    (h : SchemaRefers m.toDatum t) : WrittenFor m.refs t := by
  cases hm with
  | reference name =>
    have hkey : ∀ {e : Scalar × Datum}, e ∈ fieldOf "$ref" (definitionRef (.scalar name)) →
        e = (.text "$ref", definitionRef (.scalar name)) := eq_of_mem_fieldOf
    cases h with
    | ref hmem => exact writtenFor_definitionRef hw (Prod.mk.inj (hkey hmem)).2
    | items hmem _ => simpa using hkey hmem
    | property hmem _ _ => simpa using hkey hmem
    | part hmem _ _ => simpa using hkey hmem
  | object ho => exact ObjectModel.writtenFor ho hw h

theorem Model.toData_eq (ms : List Model) : Model.toData ms = ms.map Model.toDatum := by
  induction ms with
  | nil => rfl
  | cons m ms ih => rw [Model.toData, ih, List.map_cons]

theorem Model.areWritable_eq (ms : List Model) : Model.areWritable ms = ms.all Model.isWritable := by
  induction ms with
  | nil => rfl
  | cons m ms ih => rw [Model.areWritable, ih, List.all_cons]

theorem Model.IsProper.writtenFor {m : Model} {t : String} (hm : m.IsProper) (hw : m.isWritable = true)
    (h : SchemaRefers m.toDatum t) : WrittenFor m.refs t := by
  cases hm with
  | plain hm => exact hm.writtenFor hw h
  | @composed parts about hparts =>
    have hkey : ∀ {e : Scalar × Datum},
        e ∈ fieldOf "allOf" (.list (Model.toData parts)) ++ fieldIf "description" about →
        e = (.text "allOf", .list (Model.toData parts)) ∨ e = (.text "description", about) := by
      intro e he
      exact (List.mem_append.mp he).imp eq_of_mem_fieldOf eq_of_mem_fieldIf
    cases h with
    | ref hmem => simpa using hkey hmem
    | items hmem _ => simpa using hkey hmem
    | property hmem _ _ => simpa using hkey hmem
    | part hmem hd h =>
      have := hkey hmem
      simp only [Prod.mk.injEq, true_and, Scalar.text.injEq, String.reduceEq, false_and, or_false] at this
      obtain ⟨rfl, -⟩ := Datum.list.inj this
      rw [Model.toData_eq] at hd
      obtain ⟨x, hx, rfl⟩ := List.mem_map.mp hd
      rw [Model.isWritable, Model.areWritable_eq] at hw
      refine ((hparts x hx).writtenFor (List.all_eq_true.mp hw x hx) h).mono fun r hr => ?_
      rw [refs_plain (hparts x hx)] at hr
      exact List.mem_flatMap.mpr ⟨x, hx, hr⟩

/-! ### Operations and documents -/

/-- The schemas of an operation have no extensions but paths of leafrefs. -/
structure Operation.IsTame (o : Operation) : Prop where
  parameters : ∀ p ∈ o.parameters, ∀ π, p.schema = some π → π.IsTame
  responses : ∀ e ∈ o.responses, ∀ π, e.2.schema = some π → π.IsTame

/-- The value of a field of a rendered operation. -/
theorem Operation.mem_toDatum {o : Operation} {fields : Fields} {mark : Mark} {name : String} {d : Datum}
    (ho : o.toDatum = .mapping fields mark) (h : (Scalar.text name, d) ∈ fields) :
    (name = "parameters" → d = .list (o.parameters.map Parameter.toDatum)) ∧
      (name = "responses" → d = .mapping (o.responses.map fun (code, r) => (code, r.toDatum))) := by
  obtain ⟨rfl, -⟩ := Datum.mapping.inj ho.symm
  simp only [List.mem_append] at h
  rcases h with ((((h | h) | h) | h) | h) | h
  · have := eq_of_mem_fieldIf h
    simp_all
  · have := eq_of_mem_fieldIf h
    simp_all
  · have := eq_of_mem_fieldIf h
    simp_all
  · have := eq_of_mem_fieldOf h
    simp_all
  · have := eq_of_mem_fieldIf h
    simp_all
  · have := eq_of_mem_fieldOf h
    simp_all

theorem Parameter.schema_of_mem {p : Parameter} {fields : Fields} {mark : Mark} {d : Datum}
    (hp : .mapping fields mark = p.toDatum) (h : (Scalar.text "schema", d) ∈ fields) :
    ∃ π, p.schema = some π ∧ d = π.toDatum := by
  obtain ⟨rfl, -⟩ := Datum.mapping.inj hp
  simp only [List.mem_append] at h
  rcases h with (((h | h) | h) | h) | h
  · have := eq_of_mem_fieldOf h
    simp_all
  · have := eq_of_mem_fieldOf h
    simp_all
  · have := eq_of_mem_fieldOf h
    simp_all
  · have := eq_of_mem_fieldIf h
    simp_all
  · split at h
    · rename_i π hπ
      exact ⟨π, hπ, (Prod.mk.inj (eq_of_mem_fieldOf h)).2⟩
    · rcases List.mem_append.mp h with h | h
      · have := eq_of_mem_fieldOf h
        simp_all
      · have := eq_of_mem_fieldUnlessNull h
        simp_all

theorem Response.schema_of_mem {r : Response} {fields : Fields} {mark : Mark} {d : Datum}
    (hr : r.toDatum = .mapping fields mark) (h : (Scalar.text "schema", d) ∈ fields) :
    ∃ π, r.schema = some π ∧ d = π.toDatum := by
  obtain ⟨rfl, -⟩ := Datum.mapping.inj hr.symm
  rcases List.mem_append.mp h with h | h
  · have := eq_of_mem_fieldOf h
    simp_all
  · cases hπ : r.schema with
    | none => simp [hπ] at h
    | some π =>
      rw [hπ] at h
      exact ⟨π, rfl, (Prod.mk.inj (eq_of_mem_fieldOf h)).2⟩

theorem Operation.writtenFor {o : Operation} {t : String} (htame : o.IsTame) (hw : o.isWritable = true)
    (h : OperationRefers o.toDatum t) : WrittenFor o.refs t := by
  obtain ⟨hparameters, hresponses⟩ := (Bool.and_eq_true _ _).mp hw
  generalize hd : o.toDatum = d at h
  cases h with
  | @parameter _ _ parameters _ _ _ d _ hmem hp hschema h =>
    obtain ⟨rfl, -⟩ := Datum.list.inj ((Operation.mem_toDatum hd hmem).1 rfl)
    obtain ⟨p, hp, heq⟩ := List.mem_map.mp hp
    obtain ⟨π, hπ, rfl⟩ := Parameter.schema_of_mem heq.symm hschema
    have hwritable : π.isWritable = true := by
      have := List.all_eq_true.mp hparameters p hp
      rwa [Parameter.isWritable, hπ] at this
    refine (Property.writtenFor (htame.parameters p hp π hπ) hwritable h).mono fun r hr => ?_
    refine List.mem_append_left _ (List.mem_flatMap.mpr ⟨p, hp, ?_⟩)
    rw [Parameter.refs, hπ]
    exact hr
  | @response _ responses _ _ _ _ code d _ hmem hr hschema h =>
    obtain ⟨rfl, -⟩ := Datum.mapping.inj ((Operation.mem_toDatum hd hmem).2 rfl)
    obtain ⟨⟨code', r⟩, hr, heq⟩ := List.mem_map.mp hr
    obtain ⟨π, hπ, rfl⟩ := Response.schema_of_mem (Prod.mk.inj heq).2 hschema
    have hwritable : π.isWritable = true := by
      have : r.isWritable = true := List.all_eq_true.mp hresponses _ hr
      rwa [Response.isWritable, hπ] at this
    refine (Property.writtenFor (htame.responses _ hr π hπ) hwritable h).mono fun x hx => ?_
    refine List.mem_append_right _ (List.mem_flatMap.mpr ⟨_, hr, ?_⟩)
    show x ∈ r.refs
    rw [Response.refs, hπ]
    exact hx

namespace Document

variable {d : Document}

/-- The value of a field of a rendered document. -/
theorem mem_toDatum {fields : Fields} {mark : Mark} {name : String} {v : Datum}
    (hd : d.toDatum = .mapping fields mark) (h : (Scalar.text name, v) ∈ fields) :
    (name = "paths" → v = .mapping (d.paths.map fun (path, os) =>
        (path, .mapping (os.map fun (method, o) => (method, o.toDatum))))) ∧
      (name = "definitions" → v = .mapping (d.definitions.map fun (name, m) => (name, m.toDatum))) := by
  obtain ⟨rfl, -⟩ := Datum.mapping.inj hd.symm
  simp only [List.mem_append] at h
  rcases h with ((((((h | h) | h) | h) | h) | h) | h) | h
  · have := eq_of_mem_fieldOf h
    simp_all
  · have := eq_of_mem_fieldOf h
    simp_all
  · have := eq_of_mem_fieldUnlessNull h
    simp_all
  · have := eq_of_mem_fieldUnlessNull h
    simp_all
  · have := eq_of_mem_fieldIf h
    simp_all
  · have := eq_of_mem_fieldIf h
    simp_all
  · have := eq_of_mem_fieldOf h
    simp_all
  · have := eq_of_mem_fieldOf h
    simp_all

theorem writtenFor {t : String} (hoperations : ∀ o ∈ d.operations, o.IsTame)
    (hdefinitions : ∀ e ∈ d.definitions, e.2.IsProper) (hw : d.isWritable = true)
    (h : DocumentRefers d.toDatum t) : WrittenFor d.refs t := by
  obtain ⟨hpaths, hmodels⟩ := (Bool.and_eq_true _ _).mp hw
  generalize hv : d.toDatum = v at h
  cases h with
  | @operation _ paths operations _ _ _ path method _ _ hmem hpath hmethod h =>
    obtain ⟨rfl, -⟩ := Datum.mapping.inj ((mem_toDatum hv hmem).1 rfl)
    obtain ⟨⟨path', os⟩, hos, heq⟩ := List.mem_map.mp hpath
    obtain ⟨rfl, -⟩ := Datum.mapping.inj (Prod.mk.inj heq).2.symm
    obtain ⟨⟨method', o⟩, ho, heq⟩ := List.mem_map.mp hmethod
    obtain rfl := (Prod.mk.inj heq).2
    have hmem : o ∈ d.operations := List.mem_flatMap.mpr ⟨_, hos, List.mem_map_of_mem ho⟩
    have hwritable := List.all_eq_true.mp (List.all_eq_true.mp hpaths _ hos) _ ho
    refine (Operation.writtenFor (hoperations o hmem) hwritable h).mono fun r hr => ?_
    exact List.mem_append_left _ (List.mem_flatMap.mpr ⟨o, hmem, hr⟩)
  | @definition _ definitions _ _ name _ _ hmem hdef h =>
    obtain ⟨rfl, -⟩ := Datum.mapping.inj ((mem_toDatum hv hmem).2 rfl)
    obtain ⟨e, he, heq⟩ := List.mem_map.mp hdef
    obtain rfl := (Prod.mk.inj heq).2
    refine ((hdefinitions e he).writtenFor (List.all_eq_true.mp hmodels e he) h).mono fun r hr => ?_
    exact List.mem_append_right _ (List.mem_flatMap.mpr ⟨e, he, hr⟩)

end Document

/-- A rendered document has a definition of the given name. -/
def RendersDefinition (v : Datum) (name : String) : Prop :=
  ∃ fields mark definitions mark' d, v = .mapping fields mark ∧
    (Scalar.text "definitions", Datum.mapping definitions mark') ∈ fields ∧ (Scalar.text name, d) ∈ definitions

theorem Document.rendersDefinition {d : Document} {name : String}
    (h : Models.Defines d.definitions (.text name)) : RendersDefinition d.toDatum name := by
  obtain ⟨m, hm⟩ := Option.isSome_iff_exists.mp h
  obtain ⟨k, hk, hkey⟩ := Entries.mem_of_get? hm
  obtain rfl := Scalar.eq_text_of_beq hkey
  refine ⟨_, _, d.definitions.map fun e => (e.1, e.2.toDatum), 0, m.toDatum, rfl, ?_,
    List.mem_map.mpr ⟨_, hk, rfl⟩⟩
  exact List.mem_append_right _ (List.mem_singleton.mpr rfl)

end RestconfApi
