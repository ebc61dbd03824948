import Mathlib.Data.List.Perm.Subperm
import RestconfApi.Swagger.References

/-!
# Swagger: the fields of a definition

What a model says once its references to definitions are followed: `m.Field defs key p` holds when `p`
is a property under `key` in `m`, in a part of it or in a definition that one of these points at. Fields
stay when definitions are added, and models that agree have agreeing fields.
-/

namespace RestconfApi

abbrev Models := Entries Scalar Model

/-- `key` with `p` is a field of the model, one of its own or one of a definition that it points at. -/
inductive Model.Field (defs : Models) : Model → Scalar → Property → Prop
  | own {o : ObjectModel} {key : Scalar} {p : Property} :
      (key, p) ∈ o.properties → Field defs (.object o) key p
  | via {name : Scalar} {m : Model} {key : Scalar} {p : Property} :
      defs.get? name = some m → Field defs m key p → Field defs (.reference (.scalar name)) key p
  | part {parts : List Model} {about : Datum} {m : Model} {key : Scalar} {p : Property} :
      m ∈ parts → Field defs m key p → Field defs (.composed parts about) key p

/-! ### Well-formed definitions -/

/-- Of a property and its items no extension is known but the path of a leafref. -/
def Property.IsTame : Property → Prop
  | { items := none, extensions, .. } => ∀ e ∈ extensions, e.1 = .text "x-path"
  | { items := some q, extensions, .. } => (∀ e ∈ extensions, e.1 = .text "x-path") ∧ IsTame q

theorem Property.IsTame.path_of_mem : ∀ {p : Property}, p.IsTame → ∀ e ∈ p.extensions, e.1 = .text "x-path"
  | { items := none, .. }, h => h
  | { items := some _, .. }, h => h.1

/-- No two fields have agreeing names, nothing is required without any, and there are no extensions but paths
of leafrefs. -/
structure ObjectModel.IsTame (o : ObjectModel) : Prop where
  unique : o.properties.Unique
  required : o.properties = [] → o.required = []
  extensions : o.extensions = []
  properties : ∀ e ∈ o.properties, e.2.IsTame

/-- A reference to a key, or a tame object. -/
inductive Model.IsPlain : Model → Prop
  | reference (name : Scalar) : IsPlain (.reference (.scalar name))
  | object {o : ObjectModel} : o.IsTame → IsPlain (.object o)

/-- A plain model, or a composition of such. -/
inductive Model.IsProper : Model → Prop
  | plain {m : Model} : m.IsPlain → IsProper m
  | composed {parts : List Model} {about : Datum} :
      (∀ m ∈ parts, m.IsPlain) → IsProper (.composed parts about)

/-- `key` with `p` is a field of an object that the model is or has as a part. -/
inductive Model.Own : Model → Scalar → Property → Prop
  | object {o : ObjectModel} {key : Scalar} {p : Property} :
      (key, p) ∈ o.properties → Own (.object o) key p
  | part {parts : List Model} {about : Datum} {o : ObjectModel} {key : Scalar} {p : Property} :
      .object o ∈ parts → (key, p) ∈ o.properties → Own (.composed parts about) key p

theorem Model.own_object_iff {o : ObjectModel} {key : Scalar} {p : Property} :
    (Model.object o).Own key p ↔ (key, p) ∈ o.properties := by
  refine ⟨fun h => ?_, .object⟩
  cases h with
  | object h => exact h

/-- A composition of references with an object has the fields of the object. -/
theorem Model.own_composed_iff {names : List Scalar} {o : ObjectModel} {about : Datum} {key : Scalar} {p : Property} :
    (Model.composed (names.map (fun name => Model.reference (.scalar name)) ++ [.object o]) about).Own key p ↔
      (key, p) ∈ o.properties := by
  refine ⟨fun h => ?_, .part (List.mem_append_right _ (List.mem_singleton.mpr rfl))⟩
  cases h with
  | part ho h =>
    rcases List.mem_append.mp ho with ho | ho
    · obtain ⟨name, -, hname⟩ := List.mem_map.mp ho
      cases hname
    · obtain rfl := Model.object.inj (List.mem_singleton.mp ho)
      exact h

/-- The model is a reference to the definition `name` or has one as a part. -/
inductive Model.Brings : Model → Scalar → Prop
  | reference (name : Scalar) : Brings (.reference (.scalar name)) name
  | part {parts : List Model} {about : Datum} {name : Scalar} :
      .reference (.scalar name) ∈ parts → Brings (.composed parts about) name

namespace Models

/-- `name` is the name of a definition. -/
def Defines (defs : Models) (name : Scalar) : Prop := (defs.get? name).isSome = true

/-- Everything that a list of names points at is defined. -/
def Covers (defs : Models) (refs : List Name) : Prop :=
  ∀ r ∈ refs, ∃ name, r = .scalar name ∧ defs.Defines name

/-- Definitions of different names that are proper and point only at each other. -/
structure Closed (defs : Models) : Prop where
  unique : defs.Unique
  proper : ∀ e ∈ defs, e.2.IsProper
  covers : ∀ e ∈ defs, defs.Covers e.2.refs

/-- Every definition is still there. -/
def Grows (defs defs' : Models) : Prop := ∀ name m, defs.get? name = some m → defs'.get? name = some m

variable {defs defs' defs'' : Models}

theorem Grows.refl : defs.Grows defs := fun _ _ h => h

theorem Grows.trans (h : defs.Grows defs') (h' : defs'.Grows defs'') : defs.Grows defs'' :=
  fun name m hm => h' name m (h name m hm)

theorem Defines.grow {name : Scalar} (h : defs.Defines name) (hg : defs.Grows defs') :
    defs'.Defines name := by
  obtain ⟨m, hm⟩ := Option.isSome_iff_exists.mp h
  exact Option.isSome_iff_exists.mpr ⟨m, hg name m hm⟩

theorem Covers.grow {refs : List Name} (h : defs.Covers refs) (hg : defs.Grows defs') :
    defs'.Covers refs := by
  intro r hr
  obtain ⟨name, rfl, hn⟩ := h r hr
  exact ⟨name, rfl, hn.grow hg⟩

theorem defines_congr {name name' : Scalar} (h : (name == name') = true) :
    defs.Defines name ↔ defs.Defines name' := by
  rw [Defines, Defines, Entries.get?_congr h]

theorem Closed.of_get? (h : defs.Closed) {name : Scalar} {m : Model} (hm : defs.get? name = some m) :
    m.IsProper ∧ defs.Covers m.refs := by
  obtain ⟨k, hk, -⟩ := Entries.mem_of_get? hm
  exact ⟨h.proper _ hk, h.covers _ hk⟩

/-- A new definition that points at those before keeps them closed. -/
theorem Closed.put (h : defs.Closed) {name : Scalar} {m : Model} (hname : ¬defs.Defines name)
    (hm : m.IsProper) (hr : defs.Covers m.refs) :
    Models.Closed (Entries.put name m defs) ∧ defs.Grows (Entries.put name m defs) := by
  have hg : defs.Grows (Entries.put name m defs) := by
    intro k m' hk
    rw [Entries.get?_put_of_ne _ m defs, hk]
    refine Bool.eq_false_iff.mpr fun hkn => hname ?_
    rw [defines_congr hkn, Defines, hk]
    rfl
  refine ⟨⟨h.unique.put name m, fun e he => ?_, fun e he => ?_⟩, hg⟩
  · rcases Entries.mem_put (k := name) (v := m) (j := e.1) (w := e.2) he with ⟨he, -⟩ | he
    · exact he ▸ hm
    · exact h.proper e he
  · rcases Entries.mem_put (k := name) (v := m) (j := e.1) (w := e.2) he with ⟨he, -⟩ | he
    · exact he ▸ hr.grow hg
    · exact (h.covers e he).grow hg

end Models

namespace Model

variable {defs defs' : Models}

/-! ### Growth -/

theorem Field.grow {m : Model} {key : Scalar} {p : Property} (h : m.Field defs key p)
    (hg : defs.Grows defs') : m.Field defs' key p := by
  induction h with
  | own hp => exact .own hp
  | via hm _ ih => exact .via (hg _ _ hm) ih
  | part hm _ ih => exact .part hm ih

theorem refs_plain {m : Model} (h : m.IsPlain) : m.refs = m.partRefs := by
  cases h <;> rfl

/-- The references of a part are among those of the composition. -/
theorem covers_part {parts : List Model} {about : Datum} {m : Model} (hparts : ∀ m ∈ parts, m.IsPlain)
    (hm : m ∈ parts) (h : defs.Covers (Model.composed parts about).refs) : defs.Covers m.refs := by
  intro r hr
  refine h r (List.mem_flatMap.mpr ⟨m, hm, ?_⟩)
  rwa [refs_plain (hparts m hm)] at hr

theorem IsProper.of_plain_mem {parts : List Model} {about : Datum}
    (h : (Model.composed parts about).IsProper) : ∀ m ∈ parts, m.IsPlain := by
  cases h with
  | plain h => cases h
  | composed h => exact h

theorem IsProper.field_iff {m : Model} (hm : m.IsProper) {key : Scalar} {p : Property} :
    m.Field defs key p ↔
      m.Own key p ∨ ∃ name, m.Brings name ∧ (reference (.scalar name)).Field defs key p := by
  constructor
  · intro h
    cases h with
    | own hp => exact .inl (.object hp)
    | via hget hf => exact .inr ⟨_, .reference _, .via hget hf⟩
    | part hpart hf =>
      have hplain := hm.of_plain_mem _ hpart
      cases hplain with
      | reference name => exact .inr ⟨name, .part hpart, hf⟩
      | object _ =>
        obtain ⟨hp⟩ := hf
        exact .inl (.part hpart hp)
  · rintro (hp | ⟨name, hb, hf⟩)
    · cases hp with
      | object hp => exact .own hp
      | part ho hp => exact .part ho (.own hp)
    · cases hb with
      | reference => exact hf
      | part hmem => exact .part hmem hf

/-- Definitions added later bring no fields to a model that points at earlier ones. -/
theorem Field.shrink {m : Model} {key : Scalar} {p : Property} (h : m.Field defs' key p)
    (hc : defs.Closed) (hg : defs.Grows defs') (hm : m.IsProper) (hr : defs.Covers m.refs) :
    m.Field defs key p := by
  induction h with
  | own hp => exact .own hp
  | @via name m' key p hm' _ ih =>
    obtain ⟨name', hname, hdef⟩ := hr _ (List.mem_singleton.mpr rfl)
    obtain rfl : name = name' := by simpa using hname
    obtain ⟨m'', hm''⟩ := Option.isSome_iff_exists.mp hdef
    obtain rfl : m'' = m' := Option.some.inj ((hg _ _ hm'').symm.trans hm')
    exact .via hm'' (ih (hc.of_get? hm'').1 (hc.of_get? hm'').2)
  | part hpart _ ih =>
    exact .part hpart (ih (.plain (hm.of_plain_mem _ hpart)) (covers_part hm.of_plain_mem hpart hr))

theorem field_reference_iff {name : Scalar} {m : Model} {key : Scalar} {p : Property}
    (hm : defs.get? name = some m) :
    (reference (.scalar name)).Field defs key p ↔ m.Field defs key p := by
  constructor
  · rintro (_ | ⟨hm', h⟩)
    obtain rfl := Option.some.inj (hm'.symm.trans hm)
    exact h
  · exact .via hm

theorem field_congr {name name' : Scalar} (h : (name == name') = true) {key : Scalar} {p : Property} :
    (reference (.scalar name)).Field defs key p ↔ (reference (.scalar name')).Field defs key p := by
  constructor
  · rintro (_ | ⟨hm, hf⟩)
    exact .via (Entries.get?_congr h defs ▸ hm) hf
  · rintro (_ | ⟨hm, hf⟩)
    exact .via (Entries.get?_congr h defs ▸ hm) hf

/-- The fields of a definition that is an object. -/
def inlined? (defs : Models) (name : Scalar) : Option (Entries Scalar Property) :=
  match defs.get? name with
  | some (.object o) => some o.properties
  | _ => none

theorem own_iff_of_inlined? {name : Scalar} {fields : Entries Scalar Property} (h : inlined? defs name = some fields) :
    ∃ m, defs.get? name = some m ∧ ∀ key p, m.Own key p ↔ (key, p) ∈ fields := by
  unfold inlined? at h
  split at h
  · rename_i o ho
    obtain rfl := Option.some.inj h
    exact ⟨_, ho, fun key p => own_object_iff⟩
  · cases h

theorem field_iff_of_inlined? {name : Scalar} {fields : Entries Scalar Property}
    (h : inlined? defs name = some fields) {key : Scalar} {p : Property} :
    (reference (.scalar name)).Field defs key p ↔ (key, p) ∈ fields := by
  unfold inlined? at h
  split at h
  · rename_i o ho
    obtain rfl := Option.some.inj h
    rw [field_reference_iff ho]
    exact ⟨fun | .own hp => hp, .own⟩
  · cases h

end Model

/-! ### Agreement -/

/-- `p` is `q` or agrees with it. -/
def Property.Matches (p q : Property) : Prop := p = q ∨ p.agrees q = true

namespace Property

variable {p q : Property}

theorem of_sameShape (h : p.sameShape q = true) : p.readOnly = q.readOnly ∧ (p.ref == q.ref) = true := by
  simp only [sameShape, Bool.and_eq_true, beq_iff_eq] at h
  exact ⟨h.1.2, h.1.1.1.1.1.2⟩

/-- Properties that agree have the same shape and items that agree. -/
theorem agrees_iff : p.agrees q = true ↔ p.sameShape q = true ∧
    match p.items, q.items with
    | none, none => True
    | some i, some j => i.agrees j = true
    | _, _ => False := by
  obtain ⟨_, _, _, _, items, _, _, _, _⟩ := p
  cases items with
  | none => rw [agrees]; cases hq : q.items <;> simp
  | some i => rw [agrees]; cases hq : q.items <;> simp

theorem Matches.readOnly (h : p.Matches q) : p.readOnly = q.readOnly := by
  rcases h with rfl | h
  · rfl
  · exact (of_sameShape (agrees_iff.mp h).1).1

theorem Matches.ref_eq_none_iff (h : p.Matches q) : p.ref = none ↔ q.ref = none := by
  rcases h with rfl | h
  · rfl
  · have hbeq := (of_sameShape (agrees_iff.mp h).1).2
    cases hp : p.ref <;> cases hq : q.ref <;> simp_all

end Property

namespace Entries

variable {α : Type} {same : α → α → Bool} {m m' : Entries Scalar α}

theorem exists_of_agree (h : agree same m m' = true) {k : Scalar} {v : α} (hv : (k, v) ∈ m) :
    ∃ k' v', (k', v') ∈ m' ∧ (k' == k) = true ∧ same v v' = true := by
  have hall := List.all_eq_true.mp ((Bool.and_eq_true _ _).mp h).2 (k, v) hv
  cases hk : m'.get? k with
  | none => simp [hk] at hall
  | some v' =>
    obtain ⟨k', hk', hkk⟩ := mem_of_get? hk
    exact ⟨k', v', hk', hkk, by simpa [hk] using hall⟩

theorem nodup_keys (h : m.Unique) : (m.map fun e => e.1.key).Nodup := by
  rw [List.Nodup, List.pairwise_map]
  refine h.imp fun hne heq => ?_
  rw [Scalar.beq_iff.mpr heq] at hne
  cases hne

/-- Maps of one size with different keys each agree both ways. -/
theorem exists_of_agree' (h : agree same m m' = true) (hm : m.Unique) (hm' : m'.Unique) {k' : Scalar}
    {v' : α} (hv : (k', v') ∈ m') : ∃ k v, (k, v) ∈ m ∧ (k' == k) = true ∧ same v v' = true := by
  have hlen : m'.length ≤ m.length := by
    have := ((Bool.and_eq_true _ _).mp h).1
    simp_all
  have hsub : (m.map fun e => e.1.key) ⊆ m'.map fun e => e.1.key := by
    intro key hkey
    obtain ⟨⟨k, v⟩, hkv, rfl⟩ := List.mem_map.mp hkey
    obtain ⟨k', v', hkv', hk, -⟩ := exists_of_agree h hkv
    exact List.mem_map.mpr ⟨(k', v'), hkv', Scalar.beq_iff.mp hk⟩
  have hperm := ((nodup_keys hm).subperm hsub).perm_of_length_le (by simpa using hlen)
  obtain ⟨⟨k, v⟩, hkv, hkey⟩ :=
    List.mem_map.mp (hperm.mem_iff.mpr (List.mem_map.mpr ⟨(k', v'), hv, rfl⟩))
  obtain ⟨j, w, hjw, hjk, hw⟩ := exists_of_agree h hkv
  have hjk' : (j == k') = true := Scalar.beq_iff.mpr ((Scalar.beq_iff.mp hjk).trans hkey)
  obtain rfl : w = v' := by
    have := hm'.get?_eq_of_mem hjw
    rw [get?_congr hjk', hm'.get?_eq_of_mem hv] at this
    exact (Option.some.inj this).symm
  exact ⟨k, v, hkv, Scalar.beq_iff.mpr hkey.symm, hw⟩

end Entries

namespace Model

variable {defs : Models}

theorem exists_of_agreeAll {ms ms' : List Model} (h : agreeAll ms ms' = true) :
    (∀ m ∈ ms, ∃ m' ∈ ms', m.agrees m' = true) ∧ ∀ m' ∈ ms', ∃ m ∈ ms, m.agrees m' = true := by
  induction ms generalizing ms' with
  | nil =>
    cases ms' with
    | nil => exact ⟨by simp, by simp⟩
    | cons m' ms' => simp [agreeAll] at h
  | cons m ms ih =>
    cases ms' with
    | nil => simp [agreeAll] at h
    | cons m' ms' =>
      rw [agreeAll, Bool.and_eq_true] at h
      obtain ⟨ih₁, ih₂⟩ := ih h.2
      constructor
      · intro x hx
        rcases List.mem_cons.mp hx with rfl | hx
        · exact ⟨m', List.mem_cons_self, h.1⟩
        · obtain ⟨y, hy, hxy⟩ := ih₁ x hx
          exact ⟨y, List.mem_cons_of_mem _ hy, hxy⟩
      · intro y hy
        rcases List.mem_cons.mp hy with rfl | hy
        · exact ⟨m, List.mem_cons_self, h.1⟩
        · obtain ⟨x, hx, hxy⟩ := ih₂ y hy
          exact ⟨x, List.mem_cons_of_mem _ hx, hxy⟩

theorem agrees_object {o o' : ObjectModel} (h : o.agrees o' = true) :
    Entries.agree Property.agrees o.properties o'.properties = true := by
  simp only [ObjectModel.agrees, Bool.and_eq_true] at h
  exact h.1.1.1

/-- Agreement of plain models, with what it says of references and of objects. -/
theorem IsPlain.agrees_cases {m m' : Model} (hm : m.IsPlain) (hm' : m'.IsPlain)
    (h : m.agrees m' = true) :
    (∃ name name', m = .reference (.scalar name) ∧ m' = .reference (.scalar name') ∧
        (name == name') = true) ∨
      ∃ o o', m = .object o ∧ m' = .object o' ∧ o.properties.Unique ∧ o'.properties.Unique ∧
        Entries.agree Property.agrees o.properties o'.properties = true := by
  cases hm with
  | reference name =>
    cases hm' with
    | reference name' => exact .inl ⟨name, name', rfl, rfl, h⟩
    | object => simp [agrees] at h
  | object ht =>
    cases hm' with
    | reference name' => simp [agrees] at h
    | object ht' =>
      exact .inr ⟨_, _, rfl, rfl, ht.unique, ht'.unique, agrees_object (by simpa [agrees] using h)⟩

/-- Agreeing proper models are both plain or both compositions of agreeing parts. -/
theorem IsProper.agrees_cases {m m' : Model} (hm : m.IsProper) (hm' : m'.IsProper)
    (h : m.agrees m' = true) :
    m.IsPlain ∧ m'.IsPlain ∨
      ∃ parts parts' about about', m = .composed parts about ∧ m' = .composed parts' about' ∧
        (∀ x ∈ parts, x.IsPlain) ∧ (∀ x ∈ parts', x.IsPlain) ∧ agreeAll parts parts' = true := by
  cases hm with
  | plain hp =>
    cases hm' with
    | plain hp' => exact .inl ⟨hp, hp'⟩
    | composed => cases hp <;> simp [agrees] at h
  | composed hp =>
    cases hm' with
    | plain hp' => cases hp' <;> simp [agrees] at h
    | composed hp' =>
      rw [agrees, Bool.and_eq_true] at h
      exact .inr ⟨_, _, _, _, rfl, rfl, hp, hp', h.2⟩

theorem IsPlain.own_of_agrees {m m' : Model} (hm : m.IsPlain) (hm' : m'.IsPlain)
    (h : m.agrees m' = true) :
    (∀ key p, m.Own key p →
        ∃ o' key' p', m' = .object o' ∧ (key', p') ∈ o'.properties ∧ (key' == key) = true ∧
          p.agrees p' = true) ∧
      ∀ key' p', m'.Own key' p' →
        ∃ o key p, m = .object o ∧ (key, p) ∈ o.properties ∧ (key' == key) = true ∧
          p.agrees p' = true := by
  rcases hm.agrees_cases hm' h with ⟨name, name', rfl, rfl, -⟩ | ⟨o, o', rfl, rfl, hu, hu', ho⟩
  · constructor <;> rintro _ _ ⟨⟩
  · constructor
    · rintro key p (hp | _)
      obtain ⟨key', p', hp', hk, hpp⟩ := Entries.exists_of_agree ho hp
      exact ⟨o', key', p', rfl, hp', hk, hpp⟩
    · rintro key' p' (hp' | _)
      obtain ⟨key, p, hp, hk, hpp⟩ := Entries.exists_of_agree' ho hu hu' hp'
      exact ⟨o, key, p, rfl, hp, hk, hpp⟩

theorem IsProper.own_of_agrees {m m' : Model} (hm : m.IsProper) (hm' : m'.IsProper)
    (h : m.agrees m' = true) {key : Scalar} {p : Property} (hp : m.Own key p) :
    ∃ key' p', m'.Own key' p' ∧ (key' == key) = true ∧ p.agrees p' = true := by
  rcases hm.agrees_cases hm' h with ⟨hpl, hpl'⟩ | ⟨parts, parts', _, _, rfl, rfl, hpl, hpl', hall⟩
  · obtain ⟨o', key', p', rfl, hp', hk, hpp⟩ := (hpl.own_of_agrees hpl' h).1 key p hp
    exact ⟨key', p', .object hp', hk, hpp⟩
  · rcases hp with _ | ⟨ho, hp⟩
    obtain ⟨x, hx, hagree⟩ := (exists_of_agreeAll hall).1 _ ho
    obtain ⟨o', key', p', rfl, hp', hk, hpp⟩ :=
      ((hpl _ ho).own_of_agrees (hpl' x hx) hagree).1 key p (.object hp)
    exact ⟨key', p', .part hx hp', hk, hpp⟩

theorem IsProper.own_of_agrees' {m m' : Model} (hm : m.IsProper) (hm' : m'.IsProper)
    (h : m.agrees m' = true) {key' : Scalar} {p' : Property} (hp : m'.Own key' p') :
    ∃ key p, m.Own key p ∧ (key' == key) = true ∧ p.agrees p' = true := by
  rcases hm.agrees_cases hm' h with ⟨hpl, hpl'⟩ | ⟨parts, parts', _, _, rfl, rfl, hpl, hpl', hall⟩
  · obtain ⟨o, key, p, rfl, hp, hk, hpp⟩ := (hpl.own_of_agrees hpl' h).2 key' p' hp
    exact ⟨key, p, .object hp, hk, hpp⟩
  · rcases hp with _ | ⟨ho, hp⟩
    obtain ⟨x, hx, hagree⟩ := (exists_of_agreeAll hall).2 _ ho
    obtain ⟨o', key, p, rfl, hp', hk, hpp⟩ :=
      ((hpl x hx).own_of_agrees (hpl' _ ho) hagree).2 key' p' (.object hp)
    exact ⟨key, p, .part hx hp', hk, hpp⟩

theorem IsProper.brings_of_agrees {m m' : Model} (hm : m.IsProper) (hm' : m'.IsProper)
    (h : m.agrees m' = true) :
    (∀ name, m.Brings name → ∃ name', m'.Brings name' ∧ (name == name') = true) ∧
      ∀ name', m'.Brings name' → ∃ name, m.Brings name ∧ (name == name') = true := by
  rcases hm.agrees_cases hm' h with ⟨hpl, hpl'⟩ | ⟨parts, parts', _, _, rfl, rfl, hpl, hpl', hall⟩
  · rcases hpl.agrees_cases hpl' h with ⟨name, name', rfl, rfl, hn⟩ | ⟨o, o', rfl, rfl, -⟩
    · constructor
      · rintro _ (_ | _)
        exact ⟨name', .reference name', hn⟩
      · rintro _ (_ | _)
        exact ⟨name, .reference name, hn⟩
    · constructor <;> rintro _ ⟨⟩
  · constructor
    · rintro name (_ | hmem)
      obtain ⟨x, hx, hagree⟩ := (exists_of_agreeAll hall).1 _ hmem
      rcases (hpl _ hmem).agrees_cases (hpl' x hx) hagree with ⟨_, name', he, rfl, hn⟩ | ⟨_, _, he, -⟩
      · obtain rfl : name = _ := by simpa using he
        exact ⟨name', .part hx, hn⟩
      · cases he
    · rintro name' (_ | hmem)
      obtain ⟨x, hx, hagree⟩ := (exists_of_agreeAll hall).2 _ hmem
      rcases (hpl x hx).agrees_cases (hpl' _ hmem) hagree with ⟨name, _, rfl, he, hn⟩ | ⟨_, _, _, he, -⟩
      · obtain rfl : name' = _ := by simpa using he
        exact ⟨name, .part hx, hn⟩
      · cases he

end Model

end RestconfApi
