import RestconfApi.Proofs.Names
import RestconfApi.Proofs.Swagger.Fields

/-!
# Swagger: the required names of a definition

Which names a model requires once its references to definitions are followed: those that one of its objects
lists. They stay when definitions are added, and models that agree require the same names.
-/

namespace RestconfApi

/-- `key` is among the required names of the model, its own or those of a definition that it points at. -/
inductive Model.Requires (defs : Models) : Model → String → Prop
  | own {o : ObjectModel} {key : String} : .text key ∈ o.required → Requires defs (.object o) key
  | via {name : Scalar} {m : Model} {key : String} :
      defs.get? name = some m → Requires defs m key → Requires defs (.reference (.scalar name)) key
  | part {parts : List Model} {about : Datum} {m : Model} {key : String} :
      m ∈ parts → Requires defs m key → Requires defs (.composed parts about) key

/-- An object that the model is or has as a part lists `key`. -/
inductive Model.Lists : Model → String → Prop
  | object {o : ObjectModel} {key : String} : .text key ∈ o.required → Lists (.object o) key
  | part {parts : List Model} {about : Datum} {o : ObjectModel} {key : String} :
      .object o ∈ parts → .text key ∈ o.required → Lists (.composed parts about) key

namespace Model

variable {defs defs' : Models} {key : String}

theorem Lists.requires {m : Model} (h : m.Lists key) : m.Requires defs key := by
  cases h with
  | object hkey => exact .own hkey
  | part ho hkey => exact .part ho (.own hkey)

theorem Brings.requires {m : Model} {name : Scalar} (h : m.Brings name)
    (hkey : (Model.reference (.scalar name)).Requires defs key) : m.Requires defs key := by
  cases h with
  | reference => exact hkey
  | part hmem => exact .part hmem hkey

theorem Requires.grow {m : Model} (h : m.Requires defs key) (hg : defs.Grows defs') :
    m.Requires defs' key := by
  induction h with
  | own hkey => exact .own hkey
  | via hm _ ih => exact .via (hg _ _ hm) ih
  | part hm _ ih => exact .part hm ih

theorem requires_reference_iff {name : Scalar} {m : Model} (hm : defs.get? name = some m) :
    (reference (.scalar name)).Requires defs key ↔ m.Requires defs key := by
  constructor
  · rintro (_ | ⟨hm', h⟩)
    obtain rfl := Option.some.inj (hm'.symm.trans hm)
    exact h
  · exact .via hm

theorem requires_congr {name name' : Scalar} (h : (name == name') = true) :
    (reference (.scalar name)).Requires defs key ↔ (reference (.scalar name')).Requires defs key := by
  constructor
  · rintro (_ | ⟨hm, hkey⟩)
    exact .via (Entries.get?_congr h defs ▸ hm) hkey
  · rintro (_ | ⟨hm, hkey⟩)
    exact .via (Entries.get?_congr h defs ▸ hm) hkey

/-- The required names of a definition that is an object. -/
def demanded? (defs : Models) (name : Scalar) : Option (List Name) :=
  match defs.get? name with
  | some (.object o) => some o.required
  | _ => none

theorem requires_iff_of_demanded? {name : Scalar} {names : List Name} (h : demanded? defs name = some names) :
    (reference (.scalar name)).Requires defs key ↔ .text key ∈ names := by
  unfold demanded? at h
  split at h
  · rename_i o ho
    obtain rfl := Option.some.inj h
    rw [requires_reference_iff ho]
    constructor
    · rintro ⟨hkey⟩
      exact hkey
    · exact .own
  · cases h

/-! ### Agreement -/

theorem mem_required_of_agrees {o o' : ObjectModel} (h : o.agrees o' = true)
    (hkey : .text key ∈ o'.required) : .text key ∈ o.required := by
  have hrequired : (o.required == o'.required) = true := by
    simp only [ObjectModel.agrees, Bool.and_eq_true] at h
    exact h.1.1.2
  generalize o.required = names, o'.required = names' at hrequired hkey
  induction names generalizing names' with
  | nil =>
    cases names' with
    | nil => cases hkey
    | cons => cases hrequired
  | cons name names ih =>
    cases names' with
    | nil => cases hrequired
    | cons name' names' =>
      obtain ⟨hhead, htail⟩ := (Bool.and_eq_true _ _).mp hrequired
      rcases List.mem_cons.mp hkey with rfl | hkey
      · exact Datum.eq_text_of_beq hhead ▸ List.mem_cons_self
      · exact List.mem_cons_of_mem _ (ih names' htail hkey)

theorem lists_of_agrees {m m' : Model} (h : m.agrees m' = true) (hkey : m'.Lists key) : m.Lists key := by
  cases hkey with
  | object hkey =>
    cases m with
    | object o => exact .object (mem_required_of_agrees (by simpa [agrees] using h) hkey)
    | reference => simp [agrees] at h
    | composed => simp [agrees] at h
  | part ho hkey =>
    cases m with
    | object => simp [agrees] at h
    | reference => simp [agrees] at h
    | composed parts about =>
      rw [agrees, Bool.and_eq_true] at h
      obtain ⟨x, hx, hagree⟩ := (exists_of_agreeAll h.2).2 _ ho
      cases x with
      | object o => exact .part hx (mem_required_of_agrees (by simpa [agrees] using hagree) hkey)
      | reference => simp [agrees] at hagree
      | composed => simp [agrees] at hagree

end Model

end RestconfApi
