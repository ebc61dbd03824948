import RestconfApi.Proofs.Swagger.Aliases
import RestconfApi.Proofs.Swagger.Objects
import RestconfApi.Proofs.Swagger.Renaming

/-!
# Swagger: what folding keeps

Folding the aliases of closed definitions leaves closed definitions, and a name stands afterwards for what
it stood for before: the fields of the definition that takes its place are the same up to the names they
point at, and what was required still is.
-/

namespace RestconfApi.Document

variable {d : Document}

/-! ### Aliases -/

/-- What a composition with a single parent consists of: references to the parent and objects without
fields. -/
theorem singleParent?_composed {parts : List Model} {about : Datum} {parent : Name}
    (h : (Model.composed parts about).singleParent? = some parent) :
    parts.filterMap Model.reference? = [parent] ∧
      (parts.filter (·.reference?.isNone)).all Model.isFieldless = true := by
  rw [Model.singleParent?] at h
  split at h
  · rename_i hnames
    split at h
    · obtain rfl := Option.some.inj h
      exact ⟨hnames, ‹_›⟩
    · cases h
  · cases h

theorem eq_reference_of_reference? {m : Model} {name : Name} (h : m.reference? = some name) :
    m = .reference name := by
  cases m with
  | reference => rw [Option.some.inj h]
  | object => cases h
  | composed => cases h

theorem reference_mem_of_singleParent? {parts : List Model} {about : Datum} {parent : Name}
    (h : (Model.composed parts about).singleParent? = some parent) : .reference parent ∈ parts := by
  have hmem : parent ∈ parts.filterMap Model.reference? := by
    rw [(singleParent?_composed h).1]
    exact List.mem_singleton.mpr rfl
  obtain ⟨x, hx, hname⟩ := List.mem_filterMap.mp hmem
  rwa [← eq_reference_of_reference? hname]

/-- The single parent of a model is among the names that it points at. -/
theorem singleParent?_mem_refs {m : Model} {parent : Name} (h : m.singleParent? = some parent) :
    parent ∈ m.refs := by
  cases m with
  | reference name =>
    obtain rfl := Option.some.inj h
    exact List.mem_singleton.mpr rfl
  | object => cases h
  | composed parts about =>
    exact List.mem_flatMap.mpr ⟨_, reference_mem_of_singleParent? h, List.mem_singleton.mpr rfl⟩

theorem hasDefinition_iff {name : Name} :
    d.hasDefinition name = true ↔ ∃ k, name = .scalar k ∧ Models.Defines d.definitions k := by
  have hkeys : ∀ k, d.definitions.keys.contains k = true ↔ Models.Defines d.definitions k := fun k => by
    rw [Models.Defines, Entries.isSome_get?_iff, List.contains_iff_exists_mem_beq]
    simp only [BEq.comm]
  rw [hasDefinition, Option.any_eq_true]
  constructor
  · rintro ⟨k, hk, hdef⟩
    exact ⟨k, Datum.eq_scalar_of_asKey? hk, (hkeys k).mp hdef⟩
  · rintro ⟨k, rfl, hdef⟩
    exact ⟨k, rfl, (hkeys k).mpr hdef⟩

/-- The definition of the document that a definition of some name only stands for. -/
def parent? (d : Document) (name : Scalar) (m : Model) : Option Name :=
  m.singleParent?.filter fun parent =>
    !parent.isNull && !(parent == .scalar name) && d.hasDefinition parent

theorem parent?_eq_some_iff {name : Scalar} {m : Model} {parent : Name} :
    d.parent? name m = some parent ↔ m.singleParent? = some parent ∧ parent.isNull = false ∧
      (parent == .scalar name) = false ∧ d.hasDefinition parent = true := by
  simp only [parent?, Option.filter_eq_some_iff, Bool.and_eq_true, Bool.not_eq_true', and_assoc]

theorem parent?_congr {name name' : Scalar} (h : (name == name') = true) (m : Model) :
    d.parent? name m = d.parent? name' m := by
  have hbeq : ∀ parent : Name, (parent == .scalar name) = (parent == .scalar name') := fun parent => by
    rw [Bool.eq_iff_iff]
    exact ⟨fun hp => Datum.beq_scalar_trans hp h, fun hp => Datum.beq_scalar_trans hp (BEq.symm h)⟩
  simp only [parent?, hbeq]

/-- Each definition is an alias of its parent, if it has one. -/
theorem get?_aliases (hu : d.definitions.Unique) (k : Scalar) :
    d.aliases.get? k = (d.definitions.get? k).bind (d.parent? k) := by
  have haliases : d.aliases =
      d.definitions.filterMap fun e => (d.parent? e.1 e.2).map fun parent => (e.1, parent) := by
    refine List.filterMap_congr fun e _ => ?_
    simp only [parent?, Option.filter]
    split
    · rename_i parent hparent
      rw [hparent]
      dsimp only
      split <;> rfl
    · rename_i hnone
      rw [hnone]
      rfl
  rw [haliases]
  exact hu.get?_filterMap (fun j k m h => parent?_congr h m) k

/-- An alias is the name of a definition with a single parent, which is defined as well. -/
theorem exists_of_get?_aliases (hu : d.definitions.Unique) {k : Scalar} {parent : Name}
    (h : d.aliases.get? k = some parent) :
    ∃ m k', d.definitions.get? k = some m ∧ m.singleParent? = some parent ∧ parent = .scalar k' ∧
      Models.Defines d.definitions k' := by
  rw [get?_aliases hu] at h
  obtain ⟨m, hget, hparent⟩ := Option.bind_eq_some_iff.mp h
  obtain ⟨hsingle, -, -, hdef⟩ := parent?_eq_some_iff.mp hparent
  obtain ⟨k', rfl, hk'⟩ := hasDefinition_iff.mp hdef
  exact ⟨m, k', hget, hsingle, rfl, hk'⟩

/-! ### The aliases that are folded -/

theorem contains_congr {α : Type} [BEq α] [EquivBEq α] {l : List α} {j k : α} (h : (j == k) = true) :
    l.contains j = l.contains k := by
  rw [List.contains_eq_any_beq, List.contains_eq_any_beq]
  congr 1
  funext x
  exact BEq.congr_left h

theorem get?_foldable (k : Scalar) :
    d.foldable.get? k = if d.aliases.circular.contains k then none else d.aliases.get? k := by
  have hfoldable : d.foldable = d.aliases.filter fun e => !d.aliases.circular.contains e.1 := rfl
  rw [hfoldable, Entries.get?_filter (p := fun k => !d.aliases.circular.contains k)
    (fun j k h => by rw [contains_congr h]) k d.aliases]
  cases d.aliases.circular.contains k <;> rfl

/-- From an alias that is folded there is a way to a name that is no alias. -/
theorem exists_ends_of_foldable {k : Scalar} {next : Name} (h : d.foldable.get? k = some next) :
    ∃ n last, d.aliases.Ends n (.scalar k) last := by
  rw [get?_foldable] at h
  split at h
  · cases h
  · rename_i hcircular
    obtain ⟨j, hj, hjk⟩ := Entries.mem_of_get? h
    have hnone : d.aliases.next? (d.aliases.resolve (.scalar j)) = none := by
      by_contra hne
      refine hcircular (List.contains_iff_exists_mem_beq.mpr ⟨j, ?_, BEq.symm hjk⟩)
      exact List.mem_filter.mpr ⟨List.mem_map_of_mem hj, by simpa [Option.isSome_iff_ne_none] using hne⟩
    obtain ⟨n, hn⟩ := Aliases.ends_of_follow hnone
    generalize d.aliases.follow _ _ _ = last at hn
    have hbeq : (Datum.scalar j == .scalar k) = true := hjk
    cases hn with
    | here hnext =>
      rw [Aliases.next?_congr hbeq] at hnext
      rw [show d.aliases.next? (.scalar k) = d.aliases.get? k from rfl, h] at hnext
      cases hnext
    | step hnext hn =>
      rw [Aliases.next?_congr hbeq] at hnext
      exact ⟨_, _, .step hnext hn⟩

/-- Such a way leads through aliases that are folded themselves. -/
theorem ends_foldable {n : Nat} {name last : Name} (h : d.aliases.Ends n name last) :
    d.foldable.Ends n name last := by
  induction h with
  | @here name hnone =>
    refine .here ?_
    unfold Aliases.next? at hnone ⊢
    cases hk : name.asKey? with
    | none => rfl
    | some k =>
      rw [hk] at hnone
      show d.foldable.get? k = none
      rw [get?_foldable, show d.aliases.get? k = none from hnone]
      split <;> rfl
  | @step n name next last hnext h ih =>
    refine .step ?_ ih
    obtain ⟨k, hk, hget⟩ := Option.bind_eq_some_iff.mp hnext
    unfold Aliases.next?
    rw [hk]
    show d.foldable.get? k = some next
    rw [get?_foldable, if_neg, hget]
    intro hcircular
    obtain ⟨j, hj, hjk⟩ := List.contains_iff_exists_mem_beq.mp hcircular
    obtain ⟨-, hsome⟩ := List.mem_filter.mp hj
    have hj' : d.aliases.next? (.scalar j) = some next := by
      show d.aliases.get? j = some next
      rw [Entries.get?_congr (BEq.symm hjk), hget]
    rw [(Aliases.Ends.step hj' h).resolve_eq, h.last] at hsome
    cases hsome

/-- What a name stands for after folding: the name itself if it is not folded, or else what its parent
stands for. -/
theorem resolve_foldable (name : Name) :
    d.foldable.resolve name = match d.foldable.next? name with
      | some next => d.foldable.resolve next
      | none => name := by
  cases hnext : d.foldable.next? name with
  | none => exact (Aliases.Ends.here hnext).resolve_eq
  | some next =>
    obtain ⟨k, hk, hget⟩ := Option.bind_eq_some_iff.mp hnext
    obtain rfl : name = .scalar k := by
      cases name <;> simp_all [Datum.asKey?]
    obtain ⟨n, last, hn⟩ := exists_ends_of_foldable hget
    have hn' := ends_foldable hn
    rw [hn'.resolve_eq]
    cases hn' with
    | here h => simp [h] at hnext
    | step h hn' =>
      obtain rfl := Option.some.inj (hnext.symm.trans h)
      exact hn'.resolve_eq.symm

/-- A name that is defined stands for one that is defined and no alias that is folded. -/
theorem resolve_foldable_defined (hu : d.definitions.Unique) {k : Scalar}
    (hk : Models.Defines d.definitions k) :
    ∃ k', d.foldable.resolve (.scalar k) = .scalar k' ∧ Models.Defines d.definitions k' ∧
      d.foldable.get? k' = none := by
  cases hnext : d.foldable.get? k with
  | none =>
    refine ⟨k, ?_, hk, hnext⟩
    rw [resolve_foldable, show d.foldable.next? (.scalar k) = none from hnext]
  | some next =>
    obtain ⟨n, last, hn⟩ := exists_ends_of_foldable hnext
    have hlast := (ends_foldable hn).last
    rw [(ends_foldable hn).resolve_eq]
    suffices key : ∀ {n name last}, d.aliases.Ends n name last → ∀ k, name = .scalar k →
        Models.Defines d.definitions k → ∃ k', last = .scalar k' ∧ Models.Defines d.definitions k' by
      obtain ⟨k', rfl, hk'⟩ := key hn k rfl hk
      exact ⟨k', rfl, hk', hlast⟩
    intro n name last h
    induction h with
    | here => exact fun k hname hk => ⟨k, hname, hk⟩
    | step hnext _ ih =>
      rintro k rfl hk
      obtain ⟨m, k', -, -, rfl, hk'⟩ := exists_of_get?_aliases hu hnext
      exact ih k' rfl hk'

theorem resolve_foldable_congr (hu : d.definitions.Unique) {r r' : Name} (h : (r == r') = true) :
    (d.foldable.resolve r == d.foldable.resolve r') = true := by
  rw [resolve_foldable r, resolve_foldable r', ← Aliases.next?_congr h]
  cases hnext : d.foldable.next? r with
  | none => exact h
  | some next =>
    obtain ⟨k, hk, hget⟩ := Option.bind_eq_some_iff.mp hnext
    rw [get?_foldable] at hget
    split at hget
    · cases hget
    · obtain ⟨m, k', -, -, rfl, hdef⟩ := exists_of_get?_aliases hu hget
      obtain ⟨k'', hk'', -⟩ := resolve_foldable_defined hu hdef
      simp only [hk'']
      exact BEq.rfl (a := k'')

/-! ### The document without them -/

theorem get?_replace (k : Scalar) :
    (d.replace d.foldable).definitions.get? k =
      if (d.foldable.get? k).isSome then none
      else (d.definitions.get? k).map (Model.mapRefs d.foldable.resolve) := by
  have hmap := Entries.get?_map (Model.mapRefs d.foldable.resolve) k d.definitions
  have hfilter := Entries.get?_filter (p := fun k => !d.foldable.keys.contains k)
    (fun j k h => by rw [contains_congr h]) k
    (List.map (fun e => (e.1, e.2.mapRefs d.foldable.resolve)) d.definitions : Models)
  rw [hmap] at hfilter
  refine Eq.trans hfilter ?_
  have hkeys : d.foldable.keys.contains k = (d.foldable.get? k).isSome := by
    rw [Bool.eq_iff_iff, Entries.isSome_get?_iff, List.contains_iff_exists_mem_beq]
    exact ⟨fun ⟨j, hj, h⟩ => ⟨j, hj, BEq.symm h⟩, fun ⟨j, hj, h⟩ => ⟨j, hj, BEq.symm h⟩⟩
  rw [hkeys]
  cases (d.foldable.get? k).isSome <;> rfl

theorem mem_replace {e : Scalar × Model} (h : e ∈ (d.replace d.foldable).definitions) :
    ∃ m, (e.1, m) ∈ d.definitions ∧ e.2 = m.mapRefs d.foldable.resolve := by
  obtain ⟨e', he', rfl⟩ := List.mem_map.mp (List.mem_of_mem_filter h)
  exact ⟨e'.2, he', rfl⟩

theorem defines_replace (hu : d.definitions.Unique) {k : Scalar}
    (hk : Models.Defines d.definitions k) :
    ∃ k', d.foldable.resolve (.scalar k) = .scalar k' ∧
      Models.Defines (d.replace d.foldable).definitions k' := by
  obtain ⟨k', hk', hdef, hnone⟩ := resolve_foldable_defined hu hk
  refine ⟨k', hk', ?_⟩
  rw [Models.Defines, get?_replace, hnone]
  obtain ⟨m, hm⟩ := Option.isSome_iff_exists.mp hdef
  simp [hm]

theorem covers_replace (hu : d.definitions.Unique) {refs : List Name}
    (h : Models.Covers d.definitions refs) :
    Models.Covers (d.replace d.foldable).definitions (refs.map d.foldable.resolve) := by
  intro r hr
  obtain ⟨r', hr', rfl⟩ := List.mem_map.mp hr
  obtain ⟨k, rfl, hk⟩ := h r' hr'
  exact defines_replace hu hk

theorem closed_replace (hd : Models.Closed d.definitions) :
    Models.Closed (d.replace d.foldable).definitions where
  unique := (hd.unique.map (Model.mapRefs d.foldable.resolve)).filter _
  proper := by
    intro e he
    obtain ⟨m, hm, hem⟩ := mem_replace he
    rw [hem]
    refine (hd.proper _ hm).mapRefs fun r hr => ?_
    obtain ⟨k, rfl, hk⟩ := hd.covers _ hm r hr
    obtain ⟨k', hk', -⟩ := resolve_foldable_defined hd.unique hk
    exact ⟨k', hk'⟩
  covers := by
    intro e he
    obtain ⟨m, hm, hem⟩ := mem_replace he
    rw [hem, Model.refs_mapRefs]
    exact covers_replace hd.unique (hd.covers _ hm)

/-! ### Objects -/

/-- A model leads wherever its single parent does. -/
theorem reaches_of_singleParent? {defs : Models} {m : Model} {parent : Name}
    (h : m.singleParent? = some parent) {o : ObjectModel} (ho : (Model.reference parent).Reaches defs o) :
    m.Reaches defs o := by
  cases m with
  | reference name =>
    obtain rfl := Option.some.inj h
    exact ho
  | object => cases h
  | composed => exact .part (reference_mem_of_singleParent? h) ho

/-- All objects with fields that a model with a single parent leads to come from this. -/
theorem reaches_singleParent? {defs : Models} {m : Model} {parent : Name}
    (h : m.singleParent? = some parent) {o : ObjectModel} (ho : m.Reaches defs o) (hne : o.properties ≠ []) :
    (Model.reference parent).Reaches defs o := by
  cases m with
  | reference name =>
    obtain rfl := Option.some.inj h
    exact ho
  | object => cases h
  | composed parts about =>
    obtain ⟨hnames, hrest⟩ := singleParent?_composed h
    obtain _ | _ | ⟨hx, ho⟩ := ho
    have hfieldless : ∀ {x : Model}, x ∈ parts → x.reference? = none → x.isFieldless = true :=
      fun hx hnone => List.all_eq_true.mp hrest _ (List.mem_filter.mpr ⟨hx, by rw [hnone]; rfl⟩)
    cases ho with
    | own => exact absurd (List.isEmpty_iff.mp (hfieldless hx rfl)) hne
    | @via name m o hget ho =>
      have hmem : Datum.scalar name ∈ [parent] := by
        rw [← hnames]
        exact List.mem_filterMap.mpr ⟨_, hx, rfl⟩
      obtain rfl := List.mem_singleton.mp hmem
      exact .via hget ho
    | part => cases hfieldless hx rfl

theorem reference?_mapPartRefs (f : Name → Name) (m : Model) :
    (m.mapPartRefs f).reference? = m.reference?.map f := by
  cases m <;> rfl

theorem isFieldless_mapPartRefs (f : Name → Name) (m : Model) :
    (m.mapPartRefs f).isFieldless = m.isFieldless := by
  cases m with
  | object o => exact List.isEmpty_map
  | reference => rfl
  | composed => rfl

theorem singleParent?_mapRefs (f : Name → Name) (m : Model) :
    (m.mapRefs f).singleParent? = m.singleParent?.map f := by
  cases m with
  | reference => rfl
  | object => rfl
  | composed parts about =>
    have hnames : (parts.map (Model.mapPartRefs f)).filterMap Model.reference? =
        (parts.filterMap Model.reference?).map f := by
      rw [List.filterMap_map, List.map_filterMap]
      exact List.filterMap_congr fun x _ => reference?_mapPartRefs f x
    have hrest : ((parts.map (Model.mapPartRefs f)).filter (·.reference?.isNone)).all Model.isFieldless =
        (parts.filter (·.reference?.isNone)).all Model.isFieldless := by
      rw [List.filter_map, List.all_map]
      have hkept : ((·.reference?.isNone) ∘ Model.mapPartRefs f) = (·.reference?.isNone) := by
        funext x
        simp [reference?_mapPartRefs]
      have hsame : Model.isFieldless ∘ Model.mapPartRefs f = Model.isFieldless :=
        funext (isFieldless_mapPartRefs f)
      rw [hkept, hsame]
    show (Model.composed (parts.map (Model.mapPartRefs f)) about).singleParent? = _
    rw [Model.singleParent?, Model.singleParent?, hnames, hrest]
    cases parts.filterMap Model.reference? with
    | nil => rfl
    | cons name names =>
      cases names with
      | nil =>
        show (if _ then some (f name) else none) = Option.map f (if _ then some name else none)
        split <;> rfl
      | cons => rfl

/-- A definition is kept under its name, or it has a single parent and folding puts what this stands for in
its place. -/
theorem replace_cases (hu : d.definitions.Unique) {name : Scalar} {m : Model}
    (hget : d.definitions.get? name = some m) :
    d.foldable.resolve (.scalar name) = .scalar name ∧
        (d.replace d.foldable).definitions.get? name = some (m.mapRefs d.foldable.resolve) ∨
      (m.mapRefs d.foldable.resolve).singleParent? = some (d.foldable.resolve (.scalar name)) := by
  cases hnext : d.foldable.get? name with
  | none =>
    refine .inl ⟨?_, ?_⟩
    · rw [resolve_foldable, show d.foldable.next? (.scalar name) = none from hnext]
    · rw [get?_replace, hnext, hget]
      rfl
  | some next =>
    have hname : d.foldable.resolve (.scalar name) = d.foldable.resolve next := by
      rw [resolve_foldable, show d.foldable.next? (.scalar name) = some next from hnext]
    rw [get?_foldable] at hnext
    split at hnext
    · cases hnext
    · obtain ⟨m', k', hget', hparent, rfl, -⟩ := exists_of_get?_aliases hu hnext
      obtain rfl : m' = m := Option.some.inj (hget'.symm.trans hget)
      refine .inr ?_
      rw [singleParent?_mapRefs, hparent, hname]
      rfl

/-- The objects with fields that a model leads to are still there after folding, with their references
changed. -/
theorem reaches_replace (hs : Models.Shaped d.definitions) {m : Model} {o : ObjectModel}
    (h : m.Reaches d.definitions o) (hflat : m.isFlat = true) (hne : o.properties ≠ []) :
    (m.mapRefs d.foldable.resolve).Reaches (d.replace d.foldable).definitions
      (o.mapProperties (Property.mapRefs d.foldable.resolve)) := by
  induction h with
  | own => exact .own _
  | @via name m o hget _ ih =>
    obtain ⟨k, hk, -⟩ := Entries.mem_of_get? hget
    have ho := ih (hs.flat _ hk) hne
    show (Model.reference (d.foldable.resolve (.scalar name))).Reaches _ _
    rcases replace_cases hs.unique hget with ⟨hname, hget'⟩ | hparent
    · rw [hname]
      exact .via hget' ho
    · exact reaches_singleParent? hparent ho fun hnil => hne (List.map_eq_nil_iff.mp hnil)
  | @part parts about x o hx _ ih =>
    have hpart := Model.not_isComposed_of_mem hflat hx
    have ho := ih (Model.isFlat_of_not_isComposed hpart) hne
    rw [Model.mapRefs_of_not_isComposed hpart] at ho
    exact .part (List.mem_map_of_mem hx) ho

theorem reaches_of_ends (hu : d.definitions.Unique) {n : Nat} {name last : Name}
    (h : d.aliases.Ends n name last) {o : ObjectModel}
    (ho : (Model.reference last).Reaches d.definitions o) : (Model.reference name).Reaches d.definitions o := by
  induction h with
  | here => exact ho
  | @step n name next last hnext _ ih =>
    obtain ⟨k, hk, hget⟩ := Option.bind_eq_some_iff.mp hnext
    obtain rfl := Datum.eq_scalar_of_asKey? hk
    obtain ⟨m, k', hget', hparent, rfl, -⟩ := exists_of_get?_aliases hu hget
    exact .via hget' (reaches_of_singleParent? hparent (ih ho))

/-- What a name that is folded leads to is what the name in its place leads to. -/
theorem reaches_of_resolve (hu : d.definitions.Unique) {name : Name} {o : ObjectModel}
    (ho : (Model.reference (d.foldable.resolve name)).Reaches d.definitions o) :
    (Model.reference name).Reaches d.definitions o := by
  cases hnext : d.foldable.next? name with
  | none => rwa [resolve_foldable, hnext] at ho
  | some next =>
    obtain ⟨k, hk, hget⟩ := Option.bind_eq_some_iff.mp hnext
    obtain rfl := Datum.eq_scalar_of_asKey? hk
    obtain ⟨n, last, hends⟩ := exists_ends_of_foldable hget
    rw [(ends_foldable hends).resolve_eq] at ho
    exact reaches_of_ends hu hends ho

/-- Folding brings no new objects. -/
theorem reaches_of_replace (hs : Models.Shaped d.definitions) {m' : Model} {o' : ObjectModel}
    (h : m'.Reaches (d.replace d.foldable).definitions o') {m : Model} (hflat : m.isFlat = true)
    (hmap : m' = m.mapRefs d.foldable.resolve) :
    ∃ o, m.Reaches d.definitions o ∧ o' = o.mapProperties (Property.mapRefs d.foldable.resolve) := by
  induction h generalizing m with
  | own o' =>
    cases m with
    | object o =>
      obtain rfl := Model.object.inj hmap
      exact ⟨o, .own o, rfl⟩
    | reference => cases hmap
    | composed => cases hmap
  | @via name m₂' o' hget _ ih =>
    cases m with
    | object => cases hmap
    | composed => cases hmap
    | reference r =>
      rw [get?_replace] at hget
      split at hget
      · cases hget
      · obtain ⟨m₂, hm₂, rfl⟩ := Option.map_eq_some_iff.mp hget
        obtain ⟨k, hk, -⟩ := Entries.mem_of_get? hm₂
        obtain ⟨o, ho, rfl⟩ := ih (hs.flat _ hk) rfl
        have hname : Datum.scalar name = d.foldable.resolve r := Model.reference.inj hmap
        exact ⟨o, reaches_of_resolve hs.unique (hname ▸ .via hm₂ ho), rfl⟩
  | @part parts' about' x' o' hx' _ ih =>
    cases m with
    | object => cases hmap
    | reference => cases hmap
    | composed parts about =>
      obtain ⟨rfl, rfl⟩ := Model.composed.inj hmap
      obtain ⟨x, hx, rfl⟩ := List.mem_map.mp hx'
      have hpart := Model.not_isComposed_of_mem hflat hx
      obtain ⟨o, ho, rfl⟩ := ih (Model.isFlat_of_not_isComposed hpart)
        (Model.mapRefs_of_not_isComposed hpart).symm
      exact ⟨o, .part hx ho, rfl⟩

/-! ### Fields and required names -/

/-- The name in place of another one has the fields of this, with their references changed. -/
theorem field_replace_iff (hs : Models.Shaped d.definitions) {n : Name} {key : Scalar} {p' : Property} :
    (Model.reference (d.foldable.resolve n)).Field (d.replace d.foldable).definitions key p' ↔
      ∃ p, (Model.reference n).Field d.definitions key p ∧ p' = p.mapRefs d.foldable.resolve := by
  simp only [Model.field_iff_reaches]
  constructor
  · rintro ⟨o', ho', hp'⟩
    obtain ⟨o, ho, rfl⟩ := reaches_of_replace hs ho' (m := .reference n) rfl rfl
    obtain ⟨e, he, heq⟩ := List.mem_map.mp hp'
    obtain ⟨rfl, rfl⟩ := Prod.mk.inj heq
    exact ⟨e.2, ⟨o, ho, he⟩, rfl⟩
  · rintro ⟨p, ⟨o, ho, hp⟩, rfl⟩
    exact ⟨_, reaches_replace hs ho rfl (List.ne_nil_of_mem hp), List.mem_map.mpr ⟨_, hp, rfl⟩⟩

/-- The name in place of another one requires what this requires. -/
theorem requires_replace_iff (hs : Models.Shaped d.definitions) {n : Name} {key : String} :
    (Model.reference (d.foldable.resolve n)).Requires (d.replace d.foldable).definitions key ↔
      (Model.reference n).Requires d.definitions key := by
  simp only [Model.requires_iff_reaches]
  constructor
  · rintro ⟨o', ho', hkey⟩
    obtain ⟨o, ho, rfl⟩ := reaches_of_replace hs ho' (m := .reference n) rfl rfl
    exact ⟨o, ho, hkey⟩
  · rintro ⟨o, ho, hkey⟩
    have hrequired := ho.required hs rfl (fun o ho => by cases ho)
    exact ⟨_, reaches_replace hs ho rfl fun hnil => by simp [hrequired hnil] at hkey, hkey⟩

/-! ### Repeated folding -/

/-- The name of `k` in place of which `f` puts another one: that one is defined, has the same fields up to
their references, and requires what was required. -/
structure Folds (f : Name → Name) (defs defs' : Models) : Prop where
  congr : ∀ r r' : Name, (r == r') = true → (f r == f r') = true
  defined : ∀ k, defs.Defines k → ∃ k', f (.scalar k) = .scalar k' ∧ defs'.Defines k'
  field : ∀ k key p, defs.Defines k → (Model.reference (.scalar k)).Field defs key p →
    (Model.reference (f (.scalar k))).Field defs' key (p.mapRefs f)
  field_of : ∀ k key p', defs.Defines k → (Model.reference (f (.scalar k))).Field defs' key p' →
    ∃ p, (Model.reference (.scalar k)).Field defs key p ∧ p' = p.mapRefs f
  requires : ∀ k key, defs.Defines k → (Model.reference (.scalar k)).Requires defs key →
    (Model.reference (f (.scalar k))).Requires defs' key

theorem Folds.refl (defs : Models) : Folds (fun name => name) defs defs where
  congr _ _ h := h
  defined k hk := ⟨k, rfl, hk⟩
  field k key p _ h := by rwa [Property.mapRefs_id]
  field_of k key p' _ h := ⟨p', h, (Property.mapRefs_id p').symm⟩
  requires k key _ h := h

theorem Folds.trans {f g : Name → Name} {defs defs' defs'' : Models} (hf : Folds f defs defs')
    (hg : Folds g defs' defs'') : Folds (fun name => g (f name)) defs defs'' where
  congr r r' h := hg.congr _ _ (hf.congr r r' h)
  defined k hk := by
    obtain ⟨k', hk', hdef⟩ := hf.defined k hk
    obtain ⟨k'', hk'', hdef'⟩ := hg.defined k' hdef
    exact ⟨k'', by rw [hk', hk''], hdef'⟩
  field k key p hk h := by
    obtain ⟨k', hk', hdef⟩ := hf.defined k hk
    have h' := hf.field k key p hk h
    rw [hk'] at h' ⊢
    rw [← Property.mapRefs_mapRefs]
    exact hg.field k' key _ hdef h'
  field_of k key p' hk h := by
    obtain ⟨k', hk', hdef⟩ := hf.defined k hk
    rw [hk'] at h
    obtain ⟨p, hp, rfl⟩ := hg.field_of k' key p' hdef h
    rw [← hk'] at hp
    obtain ⟨q, hq, rfl⟩ := hf.field_of k key p hk hp
    exact ⟨q, hq, Property.mapRefs_mapRefs g q⟩
  requires k key hk h := by
    obtain ⟨k', hk', hdef⟩ := hf.defined k hk
    have h' := hf.requires k key hk h
    rw [hk'] at h' ⊢
    exact hg.requires k' key hdef h'

theorem folds_replace (hs : Models.Shaped d.definitions) :
    Folds d.foldable.resolve d.definitions (d.replace d.foldable).definitions where
  congr _ _ h := resolve_foldable_congr hs.unique h
  defined _ hk := defines_replace hs.unique hk
  field _ _ _ _ h := (field_replace_iff hs).mpr ⟨_, h, rfl⟩
  field_of _ _ _ _ h := (field_replace_iff hs).mp h
  requires _ _ _ h := (requires_replace_iff hs).mpr h

/-- What a name becomes when a document is folded up to a number of times. -/
def foldedNameFrom : Nat → Document → Name → Name
  | 0, _, name => name
  | fuel + 1, d, name =>
    if d.foldable.isEmpty then name
    else foldedNameFrom fuel (d.replace d.foldable) (d.foldable.resolve name)

/-- What the name of a definition becomes when all aliases of a document are folded. -/
def foldedName (d : Document) : Name → Name := foldedNameFrom (d.definitions.length + 1) d

/-- Definitions that point only at each other, and operations that point only at them. -/
structure IsClosed (d : Document) : Prop where
  definitions : Models.Closed d.definitions
  operations : Models.Covers d.definitions (d.operations.flatMap Operation.refs)

theorem isClosed_replace (hd : d.IsClosed) : (d.replace d.foldable).IsClosed where
  definitions := closed_replace hd.definitions
  operations := by
    have := covers_replace hd.definitions.unique hd.operations
    rw [List.map_flatMap] at this
    rw [show (d.replace d.foldable).operations =
      (d.mapOperations (Property.mapRefs d.foldable.resolve)).operations from rfl,
      operations_mapOperations, List.flatMap_map]
    simpa only [Operation.refs_mapProperties] using this

theorem foldFrom_keeps (fuel : Nat) (hd : d.IsClosed) :
    (foldFrom fuel d).1.IsClosed ∧
      Folds (foldedNameFrom fuel d) d.definitions (foldFrom fuel d).1.definitions ∧
      (∀ e ∈ (foldFrom fuel d).1.definitions, ∃ e₀ ∈ d.definitions, e.2 = e₀.2.mapRefs (foldedNameFrom fuel d)) ∧
      (foldFrom fuel d).1.paths = (d.mapOperations (Property.mapRefs (foldedNameFrom fuel d))).paths := by
  have hnone : ∀ {d : Document}, d.IsClosed → d.IsClosed ∧ Folds (fun name => name) d.definitions d.definitions ∧
      (∀ e ∈ d.definitions, ∃ e₀ ∈ d.definitions, e.2 = e₀.2.mapRefs fun name => name) ∧
      d.paths = (d.mapOperations (Property.mapRefs fun name => name)).paths := fun {d} hd =>
    ⟨hd, .refl _, fun e he => ⟨e, he, (Model.mapRefs_id e.2).symm⟩,
      (paths_mapOperations_id Property.mapRefs_id d).symm⟩
  induction fuel generalizing d with
  | zero => exact hnone hd
  | succ fuel ih =>
    unfold foldFrom
    by_cases hempty : d.foldable.isEmpty = true
    · rw [if_pos hempty]
      rw [show foldedNameFrom (fuel + 1) d = fun name => name from
        funext fun name => by rw [foldedNameFrom, if_pos hempty]]
      exact hnone hd
    · rw [if_neg hempty]
      rw [show foldedNameFrom (fuel + 1) d =
        fun name => foldedNameFrom fuel (d.replace d.foldable) (d.foldable.resolve name) from
        funext fun name => by rw [foldedNameFrom, if_neg hempty]]
      obtain ⟨hclosed, hfolds, hmodels, hpaths⟩ := ih (isClosed_replace hd)
      refine ⟨hclosed, (folds_replace hd.definitions.shaped).trans hfolds, fun e he => ?_, hpaths.trans ?_⟩
      · obtain ⟨e₁, he₁, heq⟩ := hmodels e he
        obtain ⟨m, hm, heq₁⟩ := mem_replace he₁
        exact ⟨_, hm, by rw [heq, heq₁, Model.mapRefs_mapRefs]⟩
      · rw [paths_mapOperations d (d.replace d.foldable) rfl]
        simp only [Property.mapRefs_mapRefs]

theorem foldAliases_keeps (hd : d.IsClosed) :
    d.foldAliases.1.IsClosed ∧ Folds d.foldedName d.definitions d.foldAliases.1.definitions ∧
      (∀ e ∈ d.foldAliases.1.definitions, ∃ e₀ ∈ d.definitions, e.2 = e₀.2.mapRefs d.foldedName) ∧
      d.foldAliases.1.paths = (d.mapOperations (Property.mapRefs d.foldedName)).paths :=
  foldFrom_keeps _ hd

end RestconfApi.Document
