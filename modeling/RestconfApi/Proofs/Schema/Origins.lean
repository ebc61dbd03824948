import RestconfApi.Proofs.Schema.Copies

/-!
# Schema: where nodes have what they say from

A node of a loaded schema is written in the document, or it is a copy that says what its template says. So what all
written nodes have and copies take over all nodes have: a node is owned by a module, its type means typedefs of a
module, and leaves have types.
-/

namespace RestconfApi

namespace Declaration

open Failure (ok_of_bind)

variable {owner : Name} {x : Datum} {n : Node}

/-! ### What is written -/

/-- The config flag that a statement gives, if it gives one. -/
def flag? (x : Datum) : Option Bool := if (x.field "config").isNull then none else some (x.field "config").holds

theorem fields_of_node {kind? : Option Kind} {name? : Option String} (h : node owner kind? name? x = .ok n) :
    typeOf owner n.kind n.name x = .ok n.type ∧ n.declaredConfig = flag? x ∧ n.typeOwner = .null := by
  cases x with
  | mapping entries mark =>
    unfold node at h
    dsimp only at h
    obtain ⟨kind, -, h⟩ := ok_of_bind h
    obtain ⟨name, -, h⟩ := ok_of_bind h
    obtain ⟨children, -, h⟩ := ok_of_bind h
    unfold withChildren at h
    dsimp only at h
    obtain ⟨type, htype, h⟩ := ok_of_bind h
    obtain ⟨keys, -, h⟩ := ok_of_bind h
    obtain ⟨uses, -, h⟩ := ok_of_bind h
    obtain rfl := Except.ok.inj h
    exact ⟨htype, rfl, rfl⟩
  | _ =>
    obtain ⟨_, -, h⟩ := ok_of_bind h
    cases h

theorem isSome_of_typeOf {kind : Kind} {name : Name} {t : Option LeafType} (h : typeOf owner kind name x = .ok t)
    (hk : kind.isTyped = true) : t.isSome = true := by
  unfold typeOf at h
  rw [if_pos hk] at h
  obtain ⟨_, -, h⟩ := ok_of_bind h
  obtain ⟨_, -, h⟩ := ok_of_bind h
  dsimp only at h
  split at h
  · cases h
  · cases htype : type _ (x.field "type") with
    | error e =>
      rw [htype] at h
      cases h
    | ok u =>
      rw [htype] at h
      obtain rfl := Except.ok.inj h
      rfl

theorem Written.owner_eq (h : Written owner x n) : n.owner = owner := by
  induction h with
  | statement h => exact (Node.everywhere_iff.mp (node_ok owner _ _ _ h).1).1.owner
  | case => rfl
  | rpc _ _ _ ih => exact ih

theorem Written.typeOwner_eq (h : Written owner x n) : n.typeOwner = .null := by
  induction h with
  | statement h => exact (fields_of_node h).2.2
  | case => rfl
  | rpc _ _ _ ih => exact ih

/-- Leaves and leaf-lists have a type. -/
theorem Written.isSome_type (h : Written owner x n) (hk : n.kind.isTyped = true) : n.type.isSome = true := by
  induction h with
  | statement h => exact isSome_of_typeOf (fields_of_node h).1 hk
  | case => cases hk
  | rpc _ _ _ ih => exact ih hk

/-- The flag of a node is the one that its statement gives. -/
theorem ReadAs.declaredConfig_eq (h : ReadAs owner x n) : n.declaredConfig = flag? x := by
  cases h with
  | statement h => exact (fields_of_node h).2.1
  | rpc h =>
    unfold Declaration.rpc at h
    split at h
    · obtain ⟨n₁, hn₁, h⟩ := ok_of_bind h
      obtain ⟨_, -, h⟩ := ok_of_bind h
      obtain ⟨_, -, h⟩ := ok_of_bind h
      obtain rfl := Except.ok.inj h
      exact (fields_of_node hn₁).2.1
    · obtain ⟨_, -, h⟩ := ok_of_bind h
      cases h

end Declaration

namespace Schema

variable {s : Schema} {d : Datum}

/-! ### Copies -/

/-- What nodes have that are no copies, and copies take from their templates, all nodes have. -/
theorem Traced.induction {augmented : Prop} {rank : Address → Nat} (h : s.Traced augmented rank) {P : Place → Prop}
    (hown : ∀ p, s.Has p → p.node.template = none → P p)
    (hcopy : ∀ p t, s.Has p → s.template? p = some t → IsCopy s augmented rank t p → P t → P p) {p : Place}
    (hp : s.Has p) : P p := by
  induction hn : rank p.address using Nat.strongRecOn generalizing p with
  | _ n ih =>
    cases htemplate : p.node.template with
    | none => exact hown p hp htemplate
    | some a =>
      obtain ⟨t, ht, hcopies⟩ := h.copy hp (by rw [htemplate]; rfl)
      exact hcopy p t hp ht hcopies (ih _ (hn ▸ hcopies.rank) hcopies.has rfl)

/-- A node that is no copy is written in the document, for a module of it. -/
theorem exists_written_of_own (h : (load d).result = .ok s) {p : Place} (hp : s.Has p)
    (hown : p.node.template = none) : ∃ m ∈ s.modules, ∃ x n, Declaration.Written m.name x n ∧
      p.node.toStatement.erased = n.toStatement.erased := by
  obtain ⟨modules, augments, S, M, hdocument, hrun, rfl⟩ := exists_expanding h
  obtain ⟨modules', augments', hdocument', hexact⟩ := exists_isExact h
  obtain ⟨rfl, rfl⟩ := Prod.mk.inj (Except.ok.inj (hdocument.symm.trans hdocument'))
  obtain ⟨n, hn, herased, -⟩ := hexact.exists_stands hp hown
  obtain ⟨m, hm, hgiven⟩ := exists_module_of_stands hdocument hn
  obtain ⟨x, hx⟩ := hgiven.written
  obtain ⟨i, hi⟩ := List.mem_iff_getElem?.mp hm
  obtain ⟨m', hm', hyields⟩ := (loadedFrom_of_expanding hdocument hrun).module_of_declared hi
  exact ⟨m', List.mem_of_getElem? hm', x, n, (name_of_moduleYields hyields).1 ▸ hx, herased⟩

/-! ### Modules and types -/

/-- A node is owned by a module, and its type means typedefs of a module. -/
theorem owned_of_load (h : (load d).result = .ok s) {p : Place} (hp : s.Has p) :
    (∃ m ∈ s.modules, p.node.owner = m.name) ∧ ∃ m ∈ s.modules, p.node.typedefOwner = m.name := by
  obtain ⟨declared, M, hfrom⟩ := exists_loadedFrom h
  obtain ⟨modules, augments, hdocument, hexact⟩ := exists_isExact h
  have htops : ∀ i part, ∀ p ∈ s.tops i part, p.node.template = none :=
    fun _ _ _ hp => (hfrom.isOwn_of_mem_tops hp).template
  have hown : ∀ {p}, s.Has p → p.node.template = none →
      ∃ m ∈ s.modules, p.node.owner = m.name ∧ p.node.typedefOwner = m.name := by
    intro p hp htemplate
    obtain ⟨m, hm, x, n, hn, herased⟩ := exists_written_of_own h hp htemplate
    have howner : p.node.owner = m.name := (owner_of_erased herased).trans hn.owner_eq
    have htypeOwner : p.node.typeOwner = .null :=
      (eq_of_erased (·.typeOwner) (fun _ => rfl) herased).trans hn.typeOwner_eq
    refine ⟨m, hm, howner, ?_⟩
    rw [Statement.typedefOwner, htypeOwner]
    exact howner
  refine hfrom.traced.induction (P := fun p => (∃ m ∈ s.modules, p.node.owner = m.name) ∧
    ∃ m ∈ s.modules, p.node.typedefOwner = m.name) (fun p hp htemplate => ?_) (fun p t hp ht hcopy ih => ?_) hp
  · obtain ⟨m, hm, howner, htypedefOwner⟩ := hown hp htemplate
    exact ⟨⟨m, hm, howner⟩, m, hm, htypedefOwner⟩
  · obtain ⟨t', ht', hcopyOf⟩ := hexact.isCopyOf (declares_isOwned hdocument) htops hp (by
      obtain ⟨a, ha, -⟩ := Option.bind_eq_some_iff.mp ht
      rw [ha]
      rfl)
    obtain rfl := Option.some.inj (ht.symm.trans ht')
    obtain ⟨u, g, huse⟩ := hcopyOf.use
    obtain ⟨m, hm, howner, -⟩ := hown huse.has huse.own
    refine ⟨⟨m, hm, huse.owner.trans howner⟩, ?_⟩
    rw [hcopyOf.typedefs]
    exact ih.2

/-- Leaves and leaf-lists have a type. -/
theorem isSome_type_of_load (h : (load d).result = .ok s) {p : Place} (hp : s.Has p)
    (hk : p.node.kind.isTyped = true) : p.node.type.isSome = true := by
  obtain ⟨declared, M, hfrom⟩ := exists_loadedFrom h
  refine hfrom.traced.induction (P := fun p => p.node.kind.isTyped = true → p.node.type.isSome = true)
    (fun p hp htemplate hk => ?_) (fun p t _ _ hcopy ih hk => ?_) hp hk
  · obtain ⟨m, -, x, n, hn, herased⟩ := exists_written_of_own h hp htemplate
    have hkind : p.node.kind = n.kind := eq_of_erased (·.kind) (fun _ => rfl) herased
    have htype : p.node.type = n.type := eq_of_erased (·.type) (fun _ => rfl) herased
    rw [htype]
    exact hn.isSome_type (hkind ▸ hk)
  · rw [hcopy.copies.type]
    exact ih (by rw [← hcopy.copies.kind]; exact hk)

end Schema

end RestconfApi
