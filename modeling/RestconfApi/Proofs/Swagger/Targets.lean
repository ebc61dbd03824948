import RestconfApi.Proofs.Names
import RestconfApi.Swagger.Render

/-!
# Swagger: references inside a value

Wherever a mapping inside a value has a text under `$ref`, the value refers to it. `targets` lists these texts in
their order, and `mapTargets` puts others in their place and leaves the rest of the value alone. A value without
the key `$ref` refers to nothing.
-/

namespace RestconfApi

namespace Datum

mutual

/-- The texts that a value refers to. -/
def targets : Datum → List String
  | .scalar _ => []
  | .list items _ => targetsOfItems items
  | .mapping entries _ => targetsOfEntries entries
  | .set _ _ => []
  | .pair a b => targets a ++ targets b

def targetsOfItems : List Datum → List String
  | [] => []
  | d :: ds => targets d ++ targetsOfItems ds

def targetsOfEntries : List (Scalar × Datum) → List String
  | [] => []
  | (k, d) :: rest =>
    (if k == .text "$ref" then d.asText?.toList else []) ++ targets d ++ targetsOfEntries rest

end

mutual

/-- Changes the texts that a value refers to. -/
def mapTargets (g : String → String) : Datum → Datum
  | .scalar s => .scalar s
  | .list items mark => .list (mapItems g items) mark
  | .mapping entries mark => .mapping (mapEntries g entries) mark
  | .set items mark => .set items mark
  | .pair a b => .pair (mapTargets g a) (mapTargets g b)

def mapItems (g : String → String) : List Datum → List Datum
  | [] => []
  | d :: ds => mapTargets g d :: mapItems g ds

def mapEntries (g : String → String) : List (Scalar × Datum) → List (Scalar × Datum)
  | [] => []
  | (k, d) :: rest =>
    (k, if k == .text "$ref" then (d.asText?.map fun t => text (g t)).getD (mapTargets g d) else mapTargets g d)
      :: mapEntries g rest

end

mutual

/-- Whether some mapping inside a value has the key `$ref`. -/
def hasRef : Datum → Bool
  | .scalar _ => false
  | .list items _ => anyHasRef items
  | .mapping entries _ => haveRef entries
  | .set _ _ => false
  | .pair a b => hasRef a || hasRef b

def anyHasRef : List Datum → Bool
  | [] => false
  | d :: ds => hasRef d || anyHasRef ds

def haveRef : List (Scalar × Datum) → Bool
  | [] => false
  | (k, d) :: rest => k == .text "$ref" || hasRef d || haveRef rest

end

@[simp]
theorem targets_text (t : String) : (text t).targets = [] := rfl

@[simp]
theorem targets_mapping (entries : Fields) (mark : Mark) :
    (mapping entries mark).targets = targetsOfEntries entries := rfl

@[simp]
theorem targets_list (items : List Datum) (mark : Mark) : (list items mark).targets = targetsOfItems items := rfl

@[simp]
theorem mapTargets_text (g : String → String) (t : String) : (text t).mapTargets g = text t := rfl

@[simp]
theorem mapTargets_mapping (g : String → String) (entries : Fields) (mark : Mark) :
    (mapping entries mark).mapTargets g = mapping (mapEntries g entries) mark := rfl

@[simp]
theorem mapTargets_list (g : String → String) (items : List Datum) (mark : Mark) :
    (list items mark).mapTargets g = list (mapItems g items) mark := rfl

/-! ### Values without references -/

mutual

theorem targets_of_not_hasRef : ∀ {d : Datum}, d.hasRef = false → d.targets = []
  | .scalar _, _ => rfl
  | .list items _, h => targetsOfItems_of_not_anyHasRef h
  | .mapping entries _, h => targetsOfEntries_of_not_haveRef h
  | .set _ _, _ => rfl
  | .pair a b, h => by
    obtain ⟨ha, hb⟩ := Bool.or_eq_false_iff.mp h
    rw [targets, targets_of_not_hasRef ha, targets_of_not_hasRef hb, List.append_nil]

theorem targetsOfItems_of_not_anyHasRef : ∀ {ds : List Datum}, anyHasRef ds = false → targetsOfItems ds = []
  | [], _ => rfl
  | d :: ds, h => by
    obtain ⟨hd, hds⟩ := Bool.or_eq_false_iff.mp h
    rw [targetsOfItems, targets_of_not_hasRef hd, targetsOfItems_of_not_anyHasRef hds, List.append_nil]

theorem targetsOfEntries_of_not_haveRef :
    ∀ {entries : List (Scalar × Datum)}, haveRef entries = false → targetsOfEntries entries = []
  | [], _ => rfl
  | (k, d) :: rest, h => by
    obtain ⟨h, hrest⟩ := Bool.or_eq_false_iff.mp h
    obtain ⟨hk, hd⟩ := Bool.or_eq_false_iff.mp h
    rw [targetsOfEntries, if_neg (by simp [hk]), targets_of_not_hasRef hd,
      targetsOfEntries_of_not_haveRef hrest]
    rfl

end

variable {g : String → String}

mutual

theorem mapTargets_of_not_hasRef : ∀ {d : Datum}, d.hasRef = false → d.mapTargets g = d
  | .scalar _, _ => rfl
  | .list items _, h => by rw [mapTargets, mapItems_of_not_anyHasRef h]
  | .mapping entries _, h => by rw [mapTargets, mapEntries_of_not_haveRef h]
  | .set _ _, _ => rfl
  | .pair a b, h => by
    obtain ⟨ha, hb⟩ := Bool.or_eq_false_iff.mp h
    rw [mapTargets, mapTargets_of_not_hasRef ha, mapTargets_of_not_hasRef hb]

theorem mapItems_of_not_anyHasRef : ∀ {ds : List Datum}, anyHasRef ds = false → mapItems g ds = ds
  | [], _ => rfl
  | d :: ds, h => by
    obtain ⟨hd, hds⟩ := Bool.or_eq_false_iff.mp h
    rw [mapItems, mapTargets_of_not_hasRef hd, mapItems_of_not_anyHasRef hds]

theorem mapEntries_of_not_haveRef :
    ∀ {entries : List (Scalar × Datum)}, haveRef entries = false → mapEntries g entries = entries
  | [], _ => rfl
  | (k, d) :: rest, h => by
    obtain ⟨h, hrest⟩ := Bool.or_eq_false_iff.mp h
    obtain ⟨hk, hd⟩ := Bool.or_eq_false_iff.mp h
    rw [mapEntries, if_neg (by simp [hk]), mapTargets_of_not_hasRef hd, mapEntries_of_not_haveRef hrest]

end

theorem not_ref_of_mem {entries : Fields} (h : haveRef entries = false) {e : Scalar × Datum} (he : e ∈ entries) :
    (e.1 == .text "$ref") = false ∧ e.2.hasRef = false := by
  induction entries with
  | nil => cases he
  | cons e' rest ih =>
    obtain ⟨h, hrest⟩ := Bool.or_eq_false_iff.mp h
    rcases List.mem_cons.mp he with rfl | he
    · exact Bool.or_eq_false_iff.mp h
    · exact ih hrest he

/-! ### Lists and mappings -/

@[simp]
theorem targetsOfItems_eq (ds : List Datum) : targetsOfItems ds = ds.flatMap targets := by
  induction ds with
  | nil => rfl
  | cons d ds ih => rw [targetsOfItems, ih, List.flatMap_cons]

@[simp]
theorem mapItems_eq (ds : List Datum) : mapItems g ds = ds.map (mapTargets g) := by
  induction ds with
  | nil => rfl
  | cons d ds ih => rw [mapItems, ih, List.map_cons]

@[simp]
theorem targetsOfEntries_append (fields fields' : Fields) :
    targetsOfEntries (fields ++ fields') = targetsOfEntries fields ++ targetsOfEntries fields' := by
  induction fields with
  | nil => rfl
  | cons e fields ih =>
    rw [List.cons_append, targetsOfEntries, ih, targetsOfEntries]
    simp only [List.append_assoc]

@[simp]
theorem mapEntries_append (fields fields' : Fields) :
    mapEntries g (fields ++ fields') = mapEntries g fields ++ mapEntries g fields' := by
  induction fields with
  | nil => rfl
  | cons e fields ih => rw [List.cons_append, mapEntries, ih, mapEntries, List.cons_append]

/-- A mapping refers to what its values refer to, if none of them is a text. -/
theorem targetsOfEntries_map {α : Type} (entries : Entries Scalar α) {value : α → Datum}
    (h : ∀ a, (value a).asText? = none) :
    targetsOfEntries (entries.map fun e => (e.1, value e.2)) = entries.flatMap fun e => (value e.2).targets := by
  induction entries with
  | nil => rfl
  | cons e entries ih =>
    rw [List.map_cons, targetsOfEntries, ih, List.flatMap_cons, h, Option.toList_none, ite_self]
    rfl

theorem mapEntries_map {α : Type} (entries : Entries Scalar α) {value : α → Datum}
    (h : ∀ a, (value a).asText? = none) :
    mapEntries g (entries.map fun e => (e.1, value e.2)) =
      entries.map fun e => (e.1, (value e.2).mapTargets g) := by
  induction entries with
  | nil => rfl
  | cons e entries ih =>
    rw [List.map_cons, mapEntries, ih, List.map_cons, h]
    simp

end Datum

/-! ### Fields -/

section Fields

open Datum

variable {g : String → String} {name : String}

theorem holds_mapTargets (d : Datum) : (d.mapTargets g).holds = d.holds := by
  cases d with
  | list items mark => cases items <;> rfl
  | mapping entries mark => cases entries <;> rfl
  | scalar => rfl
  | set => rfl
  | pair => rfl

theorem targets_of_not_holds {d : Datum} (h : d.holds = false) : d.targets = [] := by
  cases d with
  | list items mark => rw [List.isEmpty_iff.mp (by simpa [holds] using h : items.isEmpty = true)]; rfl
  | mapping entries mark => rw [List.isEmpty_iff.mp (by simpa [holds] using h : entries.isEmpty = true)]; rfl
  | scalar => rfl
  | set => rfl
  | pair => cases h

theorem isNull_mapTargets (d : Datum) : (d.mapTargets g).isNull = d.isNull := by
  cases d <;> rfl

theorem targets_of_isNull {d : Datum} (h : d.isNull = true) : d.targets = [] := by
  cases d <;> first | rfl | cases h

@[simp]
theorem targetsOfEntries_fieldOf (hname : name ≠ "$ref") (d : Datum) :
    targetsOfEntries (fieldOf name d) = d.targets := by
  rw [fieldOf, targetsOfEntries, if_neg (by simpa using hname)]
  exact List.append_nil _

@[simp]
theorem targetsOfEntries_fieldIf (hname : name ≠ "$ref") (d : Datum) :
    targetsOfEntries (fieldIf name d) = d.targets := by
  unfold fieldIf
  split
  · exact targetsOfEntries_fieldOf hname d
  · rename_i hholds
    rw [targets_of_not_holds (by simpa using hholds)]
    rfl

@[simp]
theorem targetsOfEntries_fieldUnlessNull (hname : name ≠ "$ref") (d : Datum) :
    targetsOfEntries (fieldUnlessNull name d) = d.targets := by
  unfold fieldUnlessNull
  split
  · rw [targets_of_isNull ‹_›]
    rfl
  · exact targetsOfEntries_fieldOf hname d

@[simp]
theorem mapEntries_fieldOf (hname : name ≠ "$ref") (d : Datum) :
    mapEntries g (fieldOf name d) = fieldOf name (d.mapTargets g) := by
  rw [fieldOf, mapEntries, if_neg (by simpa using hname)]
  rfl

@[simp]
theorem mapEntries_fieldIf (hname : name ≠ "$ref") (d : Datum) :
    mapEntries g (fieldIf name d) = fieldIf name (d.mapTargets g) := by
  rw [fieldIf, fieldIf, holds_mapTargets]
  split
  · exact mapEntries_fieldOf hname d
  · rfl

@[simp]
theorem mapEntries_fieldUnlessNull (hname : name ≠ "$ref") (d : Datum) :
    mapEntries g (fieldUnlessNull name d) = fieldUnlessNull name (d.mapTargets g) := by
  rw [fieldUnlessNull, fieldUnlessNull, isNull_mapTargets]
  split
  · rfl
  · exact mapEntries_fieldOf hname d

/-! ### Fields put over others -/

theorem mapEntries_put {k : Scalar} {v : Datum} (hk : (k == .text "$ref") = false) (fields : Fields) :
    mapEntries g (fields.put k v) = Entries.put k (v.mapTargets g) (mapEntries g fields) := by
  induction fields with
  | nil => simp [Entries.put, mapEntries, hk]
  | cons e fields ih =>
    obtain ⟨k', v'⟩ := e
    by_cases hkk : (k' == k) = true
    · have hk' : (k' == .text "$ref") = false := by rw [BEq.congr_left hkk, hk]
      simp [Entries.put, mapEntries, hkk, hk']
    · simp [Entries.put, mapEntries, hkk, ih]

theorem mapEntries_overlay {fields more : Fields} (h : haveRef more = false) :
    mapEntries g (overlay fields more) = overlay (mapEntries g fields) more := by
  unfold overlay
  induction more generalizing fields with
  | nil => rfl
  | cons e more ih =>
    obtain ⟨hk, hv⟩ := not_ref_of_mem h List.mem_cons_self
    rw [List.foldl_cons, List.foldl_cons, ih (Bool.or_eq_false_iff.mp h).2, mapEntries_put hk,
      mapTargets_of_not_hasRef hv]

theorem sublist_targetsOfEntries_put {k : Scalar} {v : Datum} (hk : (k == .text "$ref") = false)
    (hv : v.hasRef = false) (fields : Fields) :
    (targetsOfEntries (fields.put k v)).Sublist (targetsOfEntries fields) := by
  induction fields with
  | nil => simp [Entries.put, targetsOfEntries, hk, targets_of_not_hasRef hv]
  | cons e fields ih =>
    obtain ⟨k', v'⟩ := e
    by_cases hkk : (k' == k) = true
    · have hk' : (k' == .text "$ref") = false := by rw [BEq.congr_left hkk, hk]
      simp [Entries.put, targetsOfEntries, hkk, hk', targets_of_not_hasRef hv]
    · simpa [Entries.put, targetsOfEntries, hkk] using ih

/-- What takes no place of a value with references leaves the references. -/
theorem targetsOfEntries_put {k : Scalar} {v : Datum} (hk : (k == .text "$ref") = false) (hv : v.hasRef = false)
    {fields : Fields} (hfields : ∀ e ∈ fields, (e.1 == k) = true → e.2.targets = []) :
    targetsOfEntries (fields.put k v) = targetsOfEntries fields := by
  induction fields with
  | nil => simp [Entries.put, targetsOfEntries, hk, targets_of_not_hasRef hv]
  | cons e fields ih =>
    obtain ⟨k', v'⟩ := e
    obtain ⟨hfirst, hrest⟩ := List.forall_mem_cons.mp hfields
    by_cases hkk : (k' == k) = true
    · have hk' : (k' == .text "$ref") = false := by rw [BEq.congr_left hkk, hk]
      simp [Entries.put, targetsOfEntries, hkk, hk', targets_of_not_hasRef hv, hfirst hkk]
    · simp [Entries.put, targetsOfEntries, hkk, ih hrest]

theorem sublist_targetsOfEntries_overlay {fields more : Fields} (h : haveRef more = false) :
    (targetsOfEntries (overlay fields more)).Sublist (targetsOfEntries fields) := by
  unfold overlay
  induction more generalizing fields with
  | nil => exact List.Sublist.refl _
  | cons e more ih =>
    obtain ⟨hk, hv⟩ := not_ref_of_mem h List.mem_cons_self
    exact (ih (Bool.or_eq_false_iff.mp h).2).trans (sublist_targetsOfEntries_put hk hv fields)

theorem targetsOfEntries_overlay {fields more : Fields} (h : haveRef more = false)
    (hfields : ∀ e ∈ fields, e.2.targets ≠ [] → ∀ e' ∈ more, (e.1 == e'.1) = false) :
    targetsOfEntries (overlay fields more) = targetsOfEntries fields := by
  unfold overlay
  induction more generalizing fields with
  | nil => rfl
  | cons e' more ih =>
    obtain ⟨hk, hv⟩ := not_ref_of_mem h List.mem_cons_self
    have hfirst : ∀ e ∈ fields, (e.1 == e'.1) = true → e.2.targets = [] := by
      intro e he hkk
      by_contra hne
      rw [hfields e he hne e' List.mem_cons_self] at hkk
      cases hkk
    rw [List.foldl_cons, ih (Bool.or_eq_false_iff.mp h).2, targetsOfEntries_put hk hv hfirst]
    intro e he hne x hx
    rcases Entries.mem_put (j := e.1) (w := e.2) he with ⟨hvalue, -⟩ | he
    · rw [hvalue, targets_of_not_hasRef hv] at hne
      exact absurd rfl hne
    · exact hfields e he hne x (List.mem_cons_of_mem _ hx)

end Fields

end RestconfApi
