import RestconfApi.Proofs.Documents
import RestconfApi.Proofs.Schema.Ending
import RestconfApi.Proofs.Schema.Origins

/-!
# Schema: chains of leafrefs

A leaf has the type that its chain of leafrefs ends at. No chain that ends passes a leaf twice, so that looking for
its end neither takes it for a circle nor gives it up; and if there is no end, the leafref is at fault.
-/

namespace RestconfApi

/-- The names that a type is looked up by and the path of a leafref are texts. -/
structure LeafType.IsTextual (t : LeafType) : Prop where
  name : ∃ name, t.name = .text name
  path : t.isLeafref = true → ∃ path, t.path = .text path

theorem LeafType.isTextual_iff {t : LeafType} : t.IsTextual ↔
    t.name.asText?.isSome = true ∧ (t.isLeafref = true → t.path.asText?.isSome = true) := by
  have htext : ∀ d : Datum, (∃ text, d = .text text) ↔ d.asText?.isSome = true := by
    intro d
    constructor
    · rintro ⟨text, rfl⟩
      rfl
    · intro h
      unfold Datum.asText? at h
      split at h
      · exact ⟨_, rfl⟩
      · cases h
  rw [← htext, ← htext]
  exact ⟨fun h => ⟨h.name, h.path⟩, fun h => ⟨h.1, h.2⟩⟩

instance (t : LeafType) : Decidable t.IsTextual := decidable_of_iff _ LeafType.isTextual_iff.symm

theorem LeafType.IsTextual.exists_target {t : LeafType} (h : t.IsTextual) (hleafref : t.isLeafref = true) :
    ∃ path, t.target.text? = .ok path := by
  obtain ⟨path, hpath⟩ := h.path hleafref
  rw [LeafType.target]
  split
  · exact ⟨path, by rw [hpath]; rfl⟩
  · exact ⟨"", rfl⟩

/-- A built-in type, said by texts. -/
structure Resolved.IsBuiltin (r : Resolved) : Prop where
  builtin : (builtin? r.type.name).isSome = true
  textual : r.type.IsTextual

/-- A value of a resolved type. -/
def Resolved.value (r : Resolved) : Property :=
  { type := .text ((builtin? r.type.name).getD ("string", none)).1
    format := .ofText? ((builtin? r.type.name).getD ("string", none)).2
    enum := r.enum.map Datum.text }

/-- The property of a typed node whose own type is `reference` and whose values have the type `last`. -/
def Place.propertyOf (p : Place) (reference last : Resolved) : Property :=
  { (if p.node.kind = .leafList then { type := .text "array", items := some last.value } else last.value) with
    extensions := if reference.type.isLeafref then [(.text "x-path", reference.type.path)] else []
    description := p.node.description
    readOnly := !p.node.config }

namespace Schema

/-- Types say what they mean by texts, and names of modules are scalars. -/
structure IsTextual (s : Schema) : Prop where
  modules : ∀ m ∈ s.modules, ∃ k, m.name = .scalar k
  typedefs : ∀ m ∈ s.modules, ∀ entry ∈ m.typedefs, entry.2.IsTextual
  types : ∀ p t, s.Has p → p.node.type = some t → t.IsTextual

variable {s : Schema}

/-! ### Typedefs -/

theorem isBuiltin_string (enum : List String) : (string enum).IsBuiltin where
  builtin := rfl
  textual := ⟨⟨"string", rfl⟩, fun h => by cases h⟩

/-- A typedef without a known prefix is written in the same module, any other in the module of the prefix. -/
theorem exists_nextOwner_eq {m : Module} (hm : m ∈ s.modules) (name : String) :
    ∃ m' ∈ s.modules, s.nextOwner name m.name = m'.name := by
  rcases s.nextOwner_eq_or_mem name m.name with hown | ⟨m', hm', hown⟩
  · exact ⟨m, hm, hown⟩
  · exact ⟨m', hm', hown⟩

/-- Following typedefs from a type of a module comes to a built-in type. -/
theorem Follows.exists_isBuiltin (htextual : s.IsTextual) {seen : List (Name × String)} {enum : List String}
    {x : TypeUse} {out : Logged Resolved} (h : s.Follows seen enum x out) (hx : x.type.IsTextual)
    (howner : ∃ m ∈ s.modules, x.owner = m.name) : ∃ r, out.result = .ok r ∧ r.IsBuiltin := by
  induction h with
  | @builtin seen enum x hbuiltin => exact ⟨⟨x.type, enum⟩, rfl, hbuiltin, hx⟩
  | unreadable _ hname =>
    obtain ⟨name, htext⟩ := hx.name
    obtain ⟨m, hm, hown⟩ := howner
    obtain ⟨k, hk⟩ := htextual.modules m hm
    rw [htext, hown, hk] at hname
    cases hname
  | @again seen enum => exact ⟨string enum, rfl, isBuiltin_string enum⟩
  | @unknown seen enum => exact ⟨string enum, rfl, isBuiltin_string enum⟩
  | @next seen enum x name base out _ _ hbase _ ih =>
    obtain ⟨m, hm, hown⟩ := howner
    obtain ⟨m', hm', entry, hentry, rfl⟩ := exists_mem_of_typedef? hbase
    refine ih (htextual.typedefs m' hm' entry hentry) ?_
    rw [nextUse, hown]
    exact exists_nextOwner_eq hm name

/-- What `p` has by its own type: the built-in type that typedefs lead to from it. -/
def HasType (s : Schema) (p : Place) (r : Resolved) : Prop :=
  ∃ t, p.node.type = some t ∧ (s.effective t p.node.typedefOwner).result = .ok r

theorem HasType.unique {p : Place} {r r' : Resolved} (h : s.HasType p r) (h' : s.HasType p r') : r = r' := by
  obtain ⟨t, ht, hr⟩ := h
  obtain ⟨t', ht', hr'⟩ := h'
  obtain rfl := Option.some.inj (ht.symm.trans ht')
  exact Except.ok.inj (hr.symm.trans hr')

/-! ### Chains -/

/-- The chain of leafrefs from a node of the first type passes the nodes at these addresses and ends at the second
type. -/
inductive Chain (s : Schema) : List Address → Place → Resolved → Resolved → Prop
  | here {p : Place} {r : Resolved} : r.type.isLeafref = false → Chain s [] p r r
  | step {as : List Address} {p target : Place} {r r' last : Resolved} {path : String} :
      r.type.isLeafref = true → r.type.target.text? = .ok path → s.node? path (some p) = some target →
      s.HasType target r' → Chain s as target r' last → Chain s (p.address :: as) p r last

theorem LeadsTo.isLeafref_eq {p : Place} {r last : Resolved} (h : s.LeadsTo p r last) :
    last.type.isLeafref = false := by
  induction h with
  | here hleafref => exact hleafref
  | step _ _ _ _ _ _ ih => exact ih

theorem LeadsTo.exists_chain {p : Place} {r last : Resolved} (h : s.LeadsTo p r last) :
    ∃ as, s.Chain as p r last := by
  induction h with
  | here hleafref => exact ⟨[], .here hleafref⟩
  | step hleafref hpath htarget ht hr' _ ih =>
    obtain ⟨as, hchain⟩ := ih
    exact ⟨_, .step hleafref hpath htarget ⟨_, ht, hr'⟩ hchain⟩

theorem Chain.unique {as as' : List Address} {p : Place} {r last last' : Resolved} (h : s.Chain as p r last)
    (h' : s.Chain as' p r last') : as = as' ∧ last = last' := by
  induction h generalizing as' with
  | here hleafref =>
    cases h' with
    | here => exact ⟨rfl, rfl⟩
    | step hleafref' => simp [hleafref] at hleafref'
  | step hleafref hpath htarget htype _ ih =>
    cases h' with
    | here hleafref' => simp [hleafref] at hleafref'
    | step _ hpath' htarget' htype' h' =>
      obtain rfl := Except.ok.inj (hpath.symm.trans hpath')
      obtain rfl := Option.some.inj (htarget.symm.trans htarget')
      obtain rfl := htype.unique htype'
      obtain ⟨rfl, rfl⟩ := ih h'
      exact ⟨rfl, rfl⟩

/-- From each node that a chain passes the rest of the chain starts. -/
theorem Chain.exists_of_mem {as : List Address} {p : Place} {r last : Resolved} (h : s.Chain as p r last)
    (hp : s.Has p) (htype : s.HasType p r) {a : Address} (ha : a ∈ as) :
    ∃ q r' bs, q.address = a ∧ s.Has q ∧ s.HasType q r' ∧ s.Chain bs q r' last ∧ bs.length ≤ as.length := by
  induction h with
  | here => cases ha
  | @step as p target r r' last path hleafref hpath htarget htype' hchain ih =>
    rcases List.mem_cons.mp ha with rfl | ha
    · exact ⟨p, r, _, rfl, hp, htype, .step hleafref hpath htarget htype' hchain, Nat.le_refl _⟩
    · obtain ⟨q, r'', bs, haddress, hq, hqtype, hbs, hlength⟩ := ih (hp.of_node? htarget) htype' ha
      exact ⟨q, r'', bs, haddress, hq, hqtype, hbs, Nat.le_succ_of_le hlength⟩

/-- A chain that ends passes no node twice: from the second time on it would be as long as from the first. -/
theorem Chain.nodup {as : List Address} {p : Place} {r last : Resolved} (h : s.Chain as p r last)
    (hp : s.Has p) (htype : s.HasType p r) : as.Nodup := by
  induction h with
  | here => exact List.nodup_nil
  | step hleafref hpath htarget htype' hchain ih =>
    refine List.nodup_cons.mpr ⟨fun hmem => ?_, ih (hp.of_node? htarget) htype'⟩
    obtain ⟨q, r'', bs, haddress, hq, hqtype, hbs, hlength⟩ := hchain.exists_of_mem (hp.of_node? htarget) htype' hmem
    obtain rfl := hq.eq hp haddress
    obtain rfl := hqtype.unique htype
    obtain ⟨rfl, -⟩ := hbs.unique (.step hleafref hpath htarget htype' hchain)
    rw [List.length_cons] at hlength
    omega

theorem Chain.length_le {as : List Address} {p : Place} {r last : Resolved} (h : s.Chain as p r last)
    (hp : s.Has p) (htype : s.HasType p r) : as.length ≤ s.size := by
  refine HasPassed.length_le ⟨fun a ha => ?_, h.nodup hp htype⟩
  obtain ⟨q, -, -, haddress, hq, -⟩ := h.exists_of_mem hp htype ha
  exact ⟨q, hq, haddress⟩

/-- A leafref that is found and leads to a typed node that has not been seen is followed to it. -/
theorem result_concreteFrom_succ {p target : Place} {r r' : Resolved} {path : String}
    (hleafref : r.type.isLeafref = true) (hpath : r.type.target.text? = .ok path)
    (htarget : s.node? path (some p) = some target) (htype : s.HasType target r') (start : String) (fuel : Nat)
    {seen : List Address} (hnew : p.address ∉ seen) :
    (s.concreteFrom start (fuel + 1) seen p r).result =
      (s.concreteFrom start fuel (p.address :: seen) target r').result := by
  obtain ⟨t, ht, hr'⟩ := htype
  rw [concreteFrom, if_neg (by simp [hleafref]), if_neg hnew, Logged.result_bind_of_ok (a := path) hpath]
  dsimp only
  rw [htarget]
  dsimp only
  rw [ht]
  exact (Logged.result_bind_of_ok (a := ()) rfl _).trans (Logged.result_bind_of_ok hr' _)

/-- The end of a chain is found when there is fuel for it and no node of it has been seen. -/
theorem Chain.result_concreteFrom {as : List Address} {p : Place} {r last : Resolved} (h : s.Chain as p r last)
    (hnodup : as.Nodup) (start : String) {fuel : Nat} (hfuel : as.length < fuel) {seen : List Address}
    (hseen : ∀ a ∈ as, a ∉ seen) : (s.concreteFrom start fuel seen p r).result = .ok last := by
  induction h generalizing fuel seen with
  | here hleafref =>
    obtain ⟨fuel, rfl⟩ := Nat.exists_eq_succ_of_ne_zero (Nat.ne_of_gt hfuel)
    rw [Schema.concreteFrom, hleafref]
    rfl
  | step hleafref hpath htarget htype _ ih =>
    obtain ⟨hnew, hnodup⟩ := List.nodup_cons.mp hnodup
    rw [List.length_cons] at hfuel
    obtain ⟨fuel, rfl⟩ := Nat.exists_eq_succ_of_ne_zero (Nat.ne_of_gt (Nat.zero_lt_of_lt hfuel))
    rw [Nat.succ_eq_add_one,
      result_concreteFrom_succ hleafref hpath htarget htype start fuel (hseen _ List.mem_cons_self)]
    refine ih hnodup (by omega) fun a ha hmem => ?_
    rcases List.mem_cons.mp hmem with rfl | hmem
    · exact hnew ha
    · exact hseen a (List.mem_cons_of_mem _ ha) hmem

/-- Following leafrefs from a leaf finds the end of its chain. -/
theorem result_concrete_iff {p : Place} (hp : s.Has p) {t : LeafType} (ht : p.node.type = some t)
    {reference last : Resolved} (hreference : (s.effective t p.node.typedefOwner).result = .ok reference) :
    (s.concrete p t).result = .ok last ↔ s.LeadsTo p reference last := by
  rw [concrete, Logged.result_bind_of_ok hreference]
  constructor
  · exact leadsTo_of_concreteFrom
  · intro h
    obtain ⟨as, hchain⟩ := h.exists_chain
    have htype : s.HasType p reference := ⟨t, ht, hreference⟩
    have hlength := hchain.length_le hp htype
    exact hchain.result_concreteFrom (hchain.nodup hp htype) _ (by omega) (by simp)

/-! ### Chains without an end -/

section Loaded

variable {d : Datum} (h : (load d).result = .ok s) (htextual : s.IsTextual)
include h htextual

theorem exists_effective {p : Place} (hp : s.Has p) {t : LeafType} (ht : p.node.type = some t) :
    ∃ r, (s.effective t p.node.typedefOwner).result = .ok r ∧ r.IsBuiltin := by
  obtain ⟨-, m, hm, howner⟩ := owned_of_load h hp
  exact (follows_effective t p.node.typedefOwner).exists_isBuiltin htextual (htextual.types p t hp ht) ⟨m, hm, howner⟩

theorem LeadsTo.isBuiltin {p : Place} {r last : Resolved} (hchain : s.LeadsTo p r last) (hp : s.Has p)
    (hr : r.IsBuiltin) : last.IsBuiltin := by
  induction hchain with
  | here => exact hr
  | step _ _ htarget ht hr' _ ih =>
    have htarget := hp.of_node? htarget
    obtain ⟨r'', hr'', hbuiltin⟩ := exists_effective h htextual htarget ht
    obtain rfl := Except.ok.inj (hr'.symm.trans hr'')
    exact ih htarget hbuiltin

/-- Nothing but a leafref can be at fault when no end is found: only so many nodes can be passed. -/
theorem exists_fault_of_concreteFrom {start : String} {fuel : Nat} {seen : List Address} {p : Place} {r : Resolved}
    (hp : s.Has p) (hr : r.IsBuiltin) (hseen : s.HasPassed seen) (hfuel : s.size < seen.length + fuel) {e : Failure}
    (he : (s.concreteFrom start fuel seen p r).result = .error e) : ∃ fault, e = .leafref fault := by
  induction fuel generalizing seen p r with
  | zero => exact absurd hseen.length_le (Nat.not_le_of_lt hfuel)
  | succ fuel ih =>
    unfold concreteFrom at he
    split at he
    · cases he
    rename_i hleafref
    split at he
    · exact ⟨_, (Except.error.inj he).symm⟩
    rename_i hnew
    obtain ⟨path, hpath⟩ := hr.textual.exists_target (by simpa using hleafref)
    rw [Logged.result_bind_of_ok (a := path) hpath] at he
    dsimp only at he
    split at he
    · exact ⟨_, (Except.error.inj he).symm⟩
    rename_i target htarget
    split at he
    · exact ⟨_, (Except.error.inj he).symm⟩
    rename_i t ht
    have htarget := hp.of_node? htarget
    obtain ⟨r', hr', hbuiltin⟩ := exists_effective h htextual htarget ht
    rw [Logged.result_bind_of_ok (a := ()) rfl, Logged.result_bind_of_ok hr'] at he
    refine ih htarget hbuiltin (hseen.cons hp hnew) ?_ he
    rw [List.length_cons]
    omega

theorem exists_fault_of_concrete {p : Place} (hp : s.Has p) {t : LeafType} (ht : p.node.type = some t)
    {e : Failure} (he : (s.concrete p t).result = .error e) : ∃ fault, e = .leafref fault := by
  obtain ⟨r, hr, hbuiltin⟩ := exists_effective h htextual hp ht
  rw [concrete, Logged.result_bind_of_ok hr] at he
  exact exists_fault_of_concreteFrom h htextual hp hbuiltin s.hasPassed_nil (by simp) he

end Loaded

/-! ### Properties of leaves -/

theorem result_leafProperty {p : Place} {t : LeafType} (ht : p.node.type = some t) {reference : Resolved}
    (hreference : (s.effective t p.node.typedefOwner).result = .ok reference) :
    (s.leafProperty p).result = (s.concreteOrString p t).result.map (p.propertyOf reference) := by
  rw [leafProperty, ht]
  dsimp only
  rw [Logged.result_bind_of_ok hreference, Logged.result_bind]
  cases (s.concreteOrString p t).result with
  | error e => rfl
  | ok r => rfl

/-- Where no end of the chain is found, a leaf of a grouping counts as a text, and any other is at fault. -/
theorem result_concreteOrString_of_leafref {p : Place} {t : LeafType} {fault : LeafrefFault}
    (h : (s.concrete p t).result = .error (.leafref fault)) :
    (s.concreteOrString p t).result = if p.inGrouping then .ok (string []) else .error (.leafref fault) := by
  simp only [concreteOrString, tryCatch, h]
  split <;> rfl

/-- A leaf whose chain comes to an end gets a property. -/
theorem Resolves.exists_leafProperty {p : Place} (hp : s.Has p) (h : s.Resolves p) :
    ∃ q, (s.leafProperty p).result = .ok q := by
  obtain ⟨t, reference, last, ht, hreference, hlast⟩ := h
  have hconcrete := (result_concrete_iff hp ht hreference).mpr hlast
  refine ⟨p.propertyOf reference last, ?_⟩
  rw [result_leafProperty ht hreference, concreteOrString, Logged.result_tryCatch hconcrete]
  rfl

/-- Following typedefs puts no leafref at fault. -/
theorem Follows.ne_leafref {seen : List (Name × String)} {enum : List String} {x : TypeUse} {out : Logged Resolved}
    (h : s.Follows seen enum x out) (fault : LeafrefFault) : out.result ≠ .error (.leafref fault) := by
  have hname : ∀ name owner, Errs (typeName name owner) (· ≠ .leafref fault) := by
    intro name owner
    have hkey : ∀ d : Datum, Errs d.key? (· ≠ .leafref fault) := fun d => d.errs_key?.mono fun e he => by simp [he]
    refine errs_bind (hkey name) fun _ _ => errs_bind (hkey owner) fun _ _ => ?_
    cases name with
    | scalar k => cases k <;> first | exact errs_ok | exact errs_error (by simp)
    | _ => exact errs_error (by simp)
  induction h with
  | unreadable _ hfails =>
    intro he
    exact hname _ _ _ hfails (Except.error.inj he)
  | next _ _ _ _ ih => exact ih
  | builtin _ => nofun
  | again _ _ => nofun
  | unknown _ _ _ => nofun

/-- No leafref is at fault when a leaf in a grouping that has a type gets its property. -/
theorem inGrouping_of_leafref {p : Place} {t : LeafType} (ht : p.node.type = some t) {fault : LeafrefFault}
    (h : (s.leafProperty p).result = .error (.leafref fault)) : p.inGrouping = false := by
  cases hreference : (s.effective t p.node.typedefOwner).result with
  | error e =>
    rw [leafProperty, ht] at h
    dsimp only at h
    rw [Logged.result_bind, hreference] at h
    obtain rfl : e = .leafref fault := Except.error.inj h
    exact absurd hreference ((follows_effective t p.node.typedefOwner).ne_leafref fault)
  | ok reference =>
    rw [result_leafProperty ht hreference] at h
    unfold concreteOrString at h
    cases hconcrete : (s.concrete p t).result with
    | ok r =>
      rw [Logged.result_tryCatch hconcrete] at h
      cases h
    | error e =>
      simp only [tryCatch, hconcrete] at h
      cases e with
      | leafref _ =>
        by_cases hin : p.inGrouping = true
        · rw [if_pos hin] at h
          cases h
        · simpa using hin
      | _ => cases h

/-- In a schema that loads, whose types say what they mean by texts, a leaf outside groupings gets a property exactly
when its chain of leafrefs comes to an end, and this has the type found there; if there is no end, a leafref is at
fault. A leaf in a grouping always gets a property, that of a text if there is no end. -/
theorem leafProperty_of_load {d : Datum} (h : (load d).result = .ok s) (htextual : s.IsTextual) {p : Place}
    (hp : s.Has p) (hkind : p.node.kind.isTyped = true) : ∃ reference, s.HasType p reference ∧
      (∀ last, s.LeadsTo p reference last → last.type.isLeafref = false ∧ (builtin? last.type.name).isSome = true) ∧
      (p.inGrouping = false →
        (∀ y, (s.leafProperty p).result = .ok y ↔
          ∃ last, s.LeadsTo p reference last ∧ y = p.propertyOf reference last) ∧
        ((¬∃ last, s.LeadsTo p reference last) → ∃ fault, (s.leafProperty p).result = .error (.leafref fault))) ∧
      (p.inGrouping = true → ∃ last, (s.leafProperty p).result = .ok (p.propertyOf reference last) ∧
        (s.LeadsTo p reference last ∨ (¬∃ last, s.LeadsTo p reference last) ∧ last = string [])) := by
  obtain ⟨t, ht⟩ := Option.isSome_iff_exists.mp (isSome_type_of_load h hp hkind)
  obtain ⟨reference, hreference, hbuiltin⟩ := exists_effective h htextual hp ht
  have hproperty := result_leafProperty ht hreference
  have hends : ∀ last, s.LeadsTo p reference last →
      (s.leafProperty p).result = .ok (p.propertyOf reference last) := by
    intro last hlast
    have hconcrete := (result_concrete_iff hp ht hreference).mpr hlast
    rw [hproperty, concreteOrString, Logged.result_tryCatch hconcrete]
    rfl
  have hfaults : (¬∃ last, s.LeadsTo p reference last) → ∃ fault, (s.leafProperty p).result =
      Except.map (p.propertyOf reference)
        (if p.inGrouping then .ok (string []) else .error (.leafref fault)) := by
    intro hnone
    cases hconcrete : (s.concrete p t).result with
    | ok last => exact absurd ⟨last, (result_concrete_iff hp ht hreference).mp hconcrete⟩ hnone
    | error e =>
      obtain ⟨fault, rfl⟩ := exists_fault_of_concrete h htextual hp ht hconcrete
      exact ⟨fault, by rw [hproperty, result_concreteOrString_of_leafref hconcrete]⟩
  refine ⟨reference, ⟨t, ht, hreference⟩, fun last hlast =>
    ⟨hlast.isLeafref_eq, (hlast.isBuiltin h htextual hp hbuiltin).builtin⟩, fun hout => ?_, fun hin => ?_⟩
  · rw [hout] at hfaults
    refine ⟨fun y => ⟨fun hy => ?_, ?_⟩, hfaults⟩
    · by_cases hend : ∃ last, s.LeadsTo p reference last
      · obtain ⟨last, hlast⟩ := hend
        exact ⟨last, hlast, Except.ok.inj (hy.symm.trans (hends last hlast))⟩
      · obtain ⟨fault, hfault⟩ := hfaults hend
        rw [hy] at hfault
        cases hfault
    · rintro ⟨last, hlast, rfl⟩
      exact hends last hlast
  · rw [hin] at hfaults
    by_cases hend : ∃ last, s.LeadsTo p reference last
    · obtain ⟨last, hlast⟩ := hend
      exact ⟨last, hends last hlast, .inl hlast⟩
    · obtain ⟨fault, hfault⟩ := hfaults hend
      exact ⟨string [], hfault, .inr ⟨hend, rfl⟩⟩

/-- Whether all types of a schema without typedefs say what they mean by texts. -/
def saysTexts (s : Schema) : Bool :=
  s.modules.all (fun m => m.name.asKey?.isSome && m.typedefs.isEmpty) &&
    s.places.all fun p => decide (∀ t ∈ p.node.type, t.IsTextual)

theorem isTextual_of_saysTexts (h : s.saysTexts = true) : s.IsTextual := by
  simp only [saysTexts, Bool.and_eq_true, List.all_eq_true, List.isEmpty_iff, decide_eq_true_eq] at h
  obtain ⟨hmodules, htypes⟩ := h
  refine ⟨fun m hm => ?_, fun m hm entry hentry => ?_, fun p t hp ht => htypes p hp.mem_places t ht⟩
  · obtain ⟨k, hk⟩ := Option.isSome_iff_exists.mp (hmodules m hm).1
    exact ⟨k, Datum.eq_scalar_of_asKey? hk⟩
  · rw [(hmodules m hm).2] at hentry
    cases hentry

/-- Whether a node gets no property and no leafref is at fault. -/
def failsOtherwise (s : Schema) (p : Place) : Bool :=
  match (s.leafProperty p).result with
  | .ok _ => false
  | .error (.leafref _) => false
  | .error _ => true

theorem ne_of_failsOtherwise {p : Place} (h : s.failsOtherwise p = true) :
    (∀ y, (s.leafProperty p).result ≠ .ok y) ∧ ∀ fault, (s.leafProperty p).result ≠ .error (.leafref fault) := by
  unfold failsOtherwise at h
  refine ⟨fun y hy => ?_, fun fault hfault => ?_⟩
  · rw [hy] at h
    cases h
  · rw [hfault] at h
    cases h

end Schema

open Example Schema

/-- A leaf refers to another one that refers to a number; two leaves refer to each other, and one in a grouping to
nothing. -/
def Example.pointing : Datum :=
  document [
    ("groupings", [grouping "g" [leafref "l" "../nowhere"]]),
    ("data", [container "x" []
      [leafref "l" "../k", leafref "k" "/m:x/n", statement "leaf-list" "n" [("type", .text "int32")],
        leafref "a" "../b", leafref "b" "../a"]])]

/-- The first gets a property by the end of its chain, the circle is at fault, and the leaf of the grouping counts as
a text. -/
theorem leafProperty_of_load_pointing : ∃ s p q r, (load Example.pointing).result = .ok s ∧ s.IsTextual ∧
    s.node? "/m:x/m:l" none = some p ∧ s.node? "/m:x/m:a" none = some q ∧ s.Has r ∧ r.inGrouping = true ∧
      (∃ reference last, s.LeadsTo p reference last ∧ (s.leafProperty p).result = .ok (p.propertyOf reference last)) ∧
      (∃ fault, (s.leafProperty q).result = .error (.leafref fault)) ∧
      ∃ reference last, (s.leafProperty r).result = .ok (r.propertyOf reference last) := by
  have htest : ((load Example.pointing).result.toOption.any fun s => s.saysTexts &&
      ((s.node? "/m:x/m:l" none).any fun p =>
        p.node.kind.isTyped && !p.inGrouping && (s.leafProperty p).result.toOption.isSome) &&
      ((s.node? "/m:x/m:a" none).any fun q =>
        q.node.kind.isTyped && !q.inGrouping && (s.leafProperty q).result.toOption.isNone) &&
      (s.place? ⟨0, .groupings, [0, 0]⟩).any fun r => r.node.kind.isTyped && r.inGrouping) = true := by
    decide +kernel
  obtain ⟨s, hload, htest⟩ := exists_of_any htest
  simp only [Bool.and_eq_true, Option.any_eq_true, Bool.not_eq_true'] at htest
  obtain ⟨⟨⟨htexts, p, hp, ⟨hpkind, hpout⟩, hpok⟩, q, hq, ⟨hqkind, hqout⟩, hqfails⟩, r, hr, hrkind, hrin⟩ := htest
  have htextual := isTextual_of_saysTexts htexts
  obtain ⟨y, hy⟩ := exists_of_isSome hpok
  obtain ⟨e, he⟩ := exists_of_isNone hqfails
  obtain ⟨reference, -, -, hpends, -⟩ := leafProperty_of_load hload htextual (isTarget_of_node? hp).has hpkind
  obtain ⟨_, -, -, hqends, -⟩ := leafProperty_of_load hload htextual (isTarget_of_node? hq).has hqkind
  obtain ⟨_, -, -, -, hrends⟩ := leafProperty_of_load hload htextual (has_of_place? hr) hrkind
  obtain ⟨last, hlast, rfl⟩ := ((hpends hpout).1 y).mp hy
  obtain ⟨last', hlast', -⟩ := hrends hrin
  refine ⟨s, p, q, r, hload, htextual, hp, hq, has_of_place? hr, hrin, ⟨_, last, hlast, hy⟩, ?_, _, last', hlast'⟩
  refine (hqends hqout).2 ?_
  rintro ⟨last, hlast⟩
  have hok := ((hqends hqout).1 _).mpr ⟨last, hlast, rfl⟩
  rw [he] at hok
  cases hok

/-- A leafref to a number, a number for the name of a type, and a list for the name of the module. -/
def Example.unworded : List Datum := [
  document [("data", [container "x" []
    [statement "leaf" "l" [("type", .object [("name", .text "leafref"), ("path", .int 5)])]]])],
  document [("data", [container "x" [] [statement "leaf" "l" [("type", .object [("name", .int 5)])]]])],
  .object [("modules", .list [.object [("name", .texts ["m"]), ("prefix", .text "m"),
    ("data", .list [container "x" [] [statement "leaf" "l" [("type", .text "t")]]])]])]]

/-- The documents load, but their leaves neither get a property nor is a leafref at fault. -/
theorem misses_leafProperty_of_load_unworded : Example.unworded.Forall fun d => ∃ s p, (load d).result = .ok s ∧
    s.node? "/m:x/m:l" none = some p ∧ p.node.kind = .leaf ∧ p.inGrouping = false ∧
      (∀ y, (s.leafProperty p).result ≠ .ok y) ∧ ∀ fault, (s.leafProperty p).result ≠ .error (.leafref fault) := by
  have htest : Example.unworded.all (fun d => (load d).result.toOption.any fun s =>
      (s.node? "/m:x/m:l" none).any fun p =>
        p.node.kind = .leaf && !p.inGrouping && s.failsOtherwise p) = true := by
    decide +kernel
  refine List.forall_iff_forall_mem.mpr fun d hd => ?_
  obtain ⟨s, hload, htest⟩ := exists_of_any (List.all_eq_true.mp htest d hd)
  simp only [Option.any_eq_true, Bool.and_eq_true, decide_eq_true_eq, Bool.not_eq_true'] at htest
  obtain ⟨p, hp, ⟨hkind, hout⟩, hfails⟩ := htest
  exact ⟨s, p, hload, hp, hkind, hout, ne_of_failsOtherwise hfails⟩

end RestconfApi
