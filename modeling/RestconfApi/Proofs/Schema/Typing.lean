import RestconfApi.Definitions.LeafProperty
import RestconfApi.Proofs.Schema.Suppliers

/-!
# Schema: types of nodes of one origin

Without augments every node is owned by the module that it stands in. Names of typedefs then mean the same for a
copy as for its template, so that leaves of one origin have one type, and only leafrefs may lead from them to
different leaves.
-/

namespace RestconfApi

theorem Logged.result_bind_of_ok {α β : Type} {x : Logged α} {a : α} (h : x.result = .ok a) (f : α → Logged β) :
    (x >>= f).result = (f a).result := by
  rw [result_bind, h]
  rfl

theorem Logged.result_tryCatch {α : Type} {x : Logged α} {a : α} (h : x.result = .ok a)
    (handle : Failure → Logged α) : (tryCatch x handle).result = .ok a := by
  simp only [tryCatch, h]

namespace Schema

variable {augmented : Prop} {declared s : Schema} {M : Expansion.Expanded}

/-! ### Owners -/

/-- Where nothing has been added, a node is owned by the module that it stands in. -/
theorem LoadedFrom.exists_module (h : LoadedFrom augmented declared M s) (haugmented : ¬augmented) {p : Place}
    (hp : s.Has p) : ∃ m, s.modules[p.address.module]? = some m ∧ p.node.owner = m.name := by
  refine Has.induction (P := fun p => ∃ m, s.modules[p.address.module]? = some m ∧ p.node.owner = m.name)
    (fun i part p hp => ?_) (fun p x i hp ⟨m, hm, howner⟩ hx => ?_) hp
  · obtain ⟨m, hm⟩ := exists_module_of_mem_tops hp
    obtain ⟨j, hj⟩ := address_of_mem_tops hp
    exact ⟨m, by rw [hj]; exact hm, h.owner_of_mem_tops hm hp⟩
  · refine ⟨m, by rw [Place.address_of_childAt? hx]; exact hm, ?_⟩
    rw [h.traced.owner hp (fun ha => absurd ha haugmented) hx, howner]

theorem LoadedFrom.holds_owner (h : LoadedFrom augmented declared M s) (haugmented : ¬augmented) {p : Place}
    (hp : s.Has p) : p.node.owner.holds = true := by
  obtain ⟨m', hm', howner⟩ := h.exists_module haugmented hp
  obtain ⟨m, hm, hyields⟩ := h.module hm'
  rw [howner, (name_of_moduleYields hyields).1]
  exact (h.modules m (List.mem_of_getElem? hm)).name

/-! ### Typedefs -/

/-- What is behind a node refers to typedefs of the same module, when all owners have names. -/
theorem Traced.typedefOwner_of_isBehind {rank : Address → Nat} (h : s.Traced augmented rank)
    (hholds : ∀ p, s.Has p → p.node.owner.holds = true) {x y : Place} (hx : s.Has x) (hy : s.IsBehind y x) :
    y.node.typedefOwner = x.node.typedefOwner := by
  induction hy with
  | self => rfl
  | @step x t ht _ ih =>
    have hthas := has_of_template? ht
    have hholds' : t.node.typedefOwner.holds = true := by
      unfold Statement.typedefOwner
      split
      · assumption
      · exact hholds t hthas
    have hx' : x.node.typedefOwner = t.node.typedefOwner := by
      rw [Statement.typedefOwner, (h.isCopy hx ht).copies.typeOwner, if_pos hholds']
    exact (ih hthas).trans hx'.symm

theorem Traced.typedefOwner_of_akin {rank : Address → Nat} (h : s.Traced augmented rank)
    (hholds : ∀ p, s.Has p → p.node.owner.holds = true) {x y : Place} (hx : s.Has x) (hy : s.Has y)
    (hxy : s.Akin x y) : x.node.typedefOwner = y.node.typedefOwner := by
  obtain ⟨t, htx, hty⟩ := hxy
  exact (h.typedefOwner_of_isBehind hholds hx htx).symm.trans (h.typedefOwner_of_isBehind hholds hy hty)

/-- A type that is no leafref leads nowhere. -/
theorem concreteOrString_of_not_isLeafref {p : Place} {t : LeafType} {reference r : Resolved}
    (hreference : (s.effective t p.node.typedefOwner).result = .ok reference)
    (hleafref : reference.type.isLeafref = false) (h : (s.concreteOrString p t).result = .ok r) :
    r = reference := by
  have hconcrete : (s.concrete p t).result = .ok reference := by
    unfold concrete
    rw [Logged.result_bind, hreference]
    show (s.concreteFrom _ (s.size + 1 + 1) [] p reference).result = _
    rw [concreteFrom, hleafref]
    rfl
  exact Except.ok.inj (h.symm.trans (Logged.result_tryCatch hconcrete _))

/-! ### Leafrefs -/

/-- From a node of the first type, leafref after leafref is found and leads to the second one, which is none. -/
inductive LeadsTo (s : Schema) : Place → Resolved → Resolved → Prop
  | here {p : Place} {r : Resolved} : r.type.isLeafref = false → LeadsTo s p r r
  | step {p target : Place} {r r' last : Resolved} {path : String} {t : LeafType} :
      r.type.isLeafref = true → r.type.target.text? = .ok path → s.node? path (some p) = some target →
      target.node.type = some t → (s.effective t target.node.typedefOwner).result = .ok r' →
      LeadsTo s target r' last → LeadsTo s p r last

/-- The node has a type, and what this refers to is found. -/
def Resolves (s : Schema) (p : Place) : Prop :=
  ∃ t reference last, p.node.type = some t ∧ (s.effective t p.node.typedefOwner).result = .ok reference ∧
    s.LeadsTo p reference last

theorem leadsTo_of_concreteFrom {start : String} {fuel : Nat} {seen : List Address} {p : Place}
    {r last : Resolved} (h : (s.concreteFrom start fuel seen p r).result = .ok last) : s.LeadsTo p r last := by
  induction fuel generalizing seen p r with
  | zero => cases h
  | succ fuel ih =>
    unfold concreteFrom at h
    split at h
    · rename_i hleafref
      obtain rfl := Except.ok.inj h
      exact .here (by simpa using hleafref)
    rename_i hleafref
    split at h
    · cases h
    obtain ⟨path, hpath, h⟩ := Logged.ok_of_bind h
    dsimp only at h
    split at h
    · cases h
    rename_i target htarget
    split at h
    · cases h
    rename_i t ht
    obtain ⟨-, -, h⟩ := Logged.ok_of_bind h
    obtain ⟨r', hr', h⟩ := Logged.ok_of_bind h
    exact .step (by simpa using hleafref) hpath htarget ht hr' (ih h)

/-- Outside groupings nothing takes the place of a leafref that leads nowhere. -/
theorem concrete_of_concreteOrString {p : Place} {t : LeafType} {r : Resolved} (hout : p.inGrouping = false)
    (h : (s.concreteOrString p t).result = .ok r) : (s.concrete p t).result = .ok r := by
  unfold concreteOrString at h
  cases hconcrete : (s.concrete p t).result with
  | ok r' => rwa [Logged.result_tryCatch hconcrete] at h
  | error e =>
    simp only [tryCatch, hconcrete] at h
    split at h
    · rw [if_neg (by simp [hout])] at h
      cases h
    · cases h

theorem resolves_of_concrete {p : Place} {t : LeafType} {r : Resolved} (ht : p.node.type = some t)
    (h : (s.concrete p t).result = .ok r) : s.Resolves p := by
  obtain ⟨reference, hreference, h⟩ := Logged.ok_of_bind h
  exact ⟨t, reference, r, ht, hreference, leadsTo_of_concreteFrom h⟩

end Schema

end RestconfApi
