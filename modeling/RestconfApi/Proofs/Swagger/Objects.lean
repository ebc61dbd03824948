import RestconfApi.Proofs.Swagger.Requirements

/-!
# Swagger: the objects that a definition leads to

What a model says is said by objects: it has the fields and requires the names of those that are reached from
it when its references to definitions are followed. `m.Reaches defs o` says so of one of them; definitions may
lead to each other in circles, along which nothing is reached.
-/

namespace RestconfApi

namespace Model

def isComposed : Model → Bool
  | .composed _ _ => true
  | _ => false

/-- Whether the parts of a composition are references and objects. -/
def isFlat : Model → Bool
  | .composed parts _ => parts.all (!·.isComposed)
  | _ => true

def object? : Model → Option ObjectModel
  | .object o => some o
  | _ => none

theorem eq_object_of_object? {m : Model} {o : ObjectModel} (h : m.object? = some o) : m = .object o := by
  cases m with
  | object => rw [Option.some.inj h]
  | reference => cases h
  | composed => cases h

/-- The objects that a model consists of. -/
def objects : Model → List ObjectModel
  | .composed parts _ => parts.filterMap object?
  | m => m.object?.toList

/-- `o` is the model or one of its parts, or reached from a definition that these point at. -/
inductive Reaches (defs : Models) : Model → ObjectModel → Prop
  | own (o : ObjectModel) : Reaches defs (.object o) o
  | via {name : Scalar} {m : Model} {o : ObjectModel} :
      defs.get? name = some m → Reaches defs m o → Reaches defs (.reference (.scalar name)) o
  | part {parts : List Model} {about : Datum} {m : Model} {o : ObjectModel} :
      m ∈ parts → Reaches defs m o → Reaches defs (.composed parts about) o

variable {defs : Models} {m : Model}

theorem field_iff_reaches {key : Scalar} {p : Property} :
    m.Field defs key p ↔ ∃ o, m.Reaches defs o ∧ (key, p) ∈ o.properties := by
  constructor
  · intro h
    induction h with
    | own hp => exact ⟨_, .own _, hp⟩
    | via hget _ ih =>
      obtain ⟨o, ho, hp⟩ := ih
      exact ⟨o, .via hget ho, hp⟩
    | part hx _ ih =>
      obtain ⟨o, ho, hp⟩ := ih
      exact ⟨o, .part hx ho, hp⟩
  · rintro ⟨o, ho, hp⟩
    induction ho with
    | own => exact .own hp
    | via hget _ ih => exact .via hget (ih hp)
    | part hx _ ih => exact .part hx (ih hp)

theorem requires_iff_reaches {key : String} :
    m.Requires defs key ↔ ∃ o, m.Reaches defs o ∧ .text key ∈ o.required := by
  constructor
  · intro h
    induction h with
    | own hkey => exact ⟨_, .own _, hkey⟩
    | via hget _ ih =>
      obtain ⟨o, ho, hkey⟩ := ih
      exact ⟨o, .via hget ho, hkey⟩
    | part hx _ ih =>
      obtain ⟨o, ho, hkey⟩ := ih
      exact ⟨o, .part hx ho, hkey⟩
  · rintro ⟨o, ho, hkey⟩
    induction ho with
    | own => exact .own hkey
    | via hget _ ih => exact .via hget (ih hkey)
    | part hx _ ih => exact .part hx (ih hkey)

/-! ### Flat models -/

theorem isFlat_of_not_isComposed (h : m.isComposed = false) : m.isFlat = true := by
  cases m with
  | composed => cases h
  | reference => rfl
  | object => rfl

theorem not_isComposed_of_mem {parts : List Model} {about : Datum}
    (h : (Model.composed parts about).isFlat = true) (hm : m ∈ parts) : m.isComposed = false := by
  simpa using List.all_eq_true.mp h m hm

theorem objects_subset_of_mem {parts : List Model} {about : Datum} (h : m.isComposed = false)
    (hm : m ∈ parts) : m.objects ⊆ (Model.composed parts about).objects := by
  intro o ho
  refine List.mem_filterMap.mpr ⟨m, hm, ?_⟩
  cases m with
  | composed => cases h
  | reference => cases ho
  | object o' =>
    obtain rfl := List.mem_singleton.mp ho
    rfl

theorem IsPlain.not_isComposed (h : m.IsPlain) : m.isComposed = false := by
  cases h <;> rfl

theorem IsPlain.required (h : m.IsPlain) {o : ObjectModel} (ho : o ∈ m.objects) :
    o.properties = [] → o.required = [] := by
  cases h with
  | reference => cases ho
  | object htame =>
    obtain rfl := List.mem_singleton.mp ho
    exact htame.required

theorem IsProper.isFlat (h : m.IsProper) : m.isFlat = true := by
  cases h with
  | plain h => exact isFlat_of_not_isComposed h.not_isComposed
  | composed h => exact List.all_eq_true.mpr fun x hx => by rw [(h x hx).not_isComposed]; rfl

theorem IsProper.required (h : m.IsProper) {o : ObjectModel} (ho : o ∈ m.objects) :
    o.properties = [] → o.required = [] := by
  cases h with
  | plain h => exact h.required ho
  | composed h =>
    obtain ⟨x, hx, hobject⟩ := List.mem_filterMap.mp ho
    obtain rfl := eq_object_of_object? hobject
    exact (h _ hx).required (List.mem_singleton.mpr rfl)

end Model

/-- Definitions of different names, of flat models in which an object without fields requires nothing. -/
structure Models.Shaped (defs : Models) : Prop where
  unique : defs.Unique
  flat : ∀ e ∈ defs, e.2.isFlat = true
  required : ∀ e ∈ defs, ∀ o ∈ e.2.objects, o.properties = [] → o.required = []

theorem Models.Closed.shaped {defs : Models} (h : defs.Closed) : defs.Shaped where
  unique := h.unique
  flat e he := (h.proper e he).isFlat
  required e he _ ho := (h.proper e he).required ho

/-- Every object that shaped definitions lead to requires something only if it has a field. -/
theorem Model.Reaches.required {defs : Models} (hs : defs.Shaped) {m : Model} {o : ObjectModel}
    (h : m.Reaches defs o) (hflat : m.isFlat = true)
    (hm : ∀ o ∈ m.objects, o.properties = [] → o.required = []) : o.properties = [] → o.required = [] := by
  induction h with
  | own o => exact hm o (List.mem_singleton.mpr rfl)
  | via hget _ ih =>
    obtain ⟨k, hk, -⟩ := Entries.mem_of_get? hget
    exact ih (hs.flat _ hk) (hs.required _ hk)
  | part hx _ ih =>
    have hplain := not_isComposed_of_mem hflat hx
    exact ih (isFlat_of_not_isComposed hplain) fun o ho => hm o (objects_subset_of_mem hplain hx ho)

end RestconfApi
