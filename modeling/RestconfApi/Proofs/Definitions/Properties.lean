import RestconfApi.Proofs.Definitions.Contribution

/-!
# Definitions: the properties of nodes

What a property of a node shows whatever the node is: it points only at the definition of a container or
a list, its one extension is the path of a leafref, and where it is no reference it is read-only exactly
when the node is operational state.
-/

namespace RestconfApi

namespace Schema

variable {s : Schema}

/-- The property of a typed node: the built-in type that it finally has, and in the extension the path of
a leafref. -/
theorem leafProperty_ok {p : Place} {q : Property} (h : (s.leafProperty p).result = .ok q) :
    ∃ t reference r, p.node.type = some t ∧
      (s.effective t p.node.typedefOwner).result = .ok reference ∧
      (s.concreteOrString p t).result = .ok r ∧
      ∃ value : Property,
        value =
          { type := .text ((builtin? r.type.name).getD ("string", none)).1
            format := .ofText? ((builtin? r.type.name).getD ("string", none)).2
            enum := r.enum.map Datum.text } ∧
        q =
          { (if p.node.kind = .leafList then { type := .text "array", items := some value } else value) with
            extensions := if reference.type.isLeafref then [(.text "x-path", reference.type.path)] else []
            description := p.node.description
            readOnly := !p.node.config } := by
  unfold leafProperty at h
  split at h
  · cases h
  · rename_i t ht
    rw [Logged.result_bind] at h
    cases hreference : (s.effective t p.node.typedefOwner).result with
    | error e =>
      rw [hreference] at h
      cases h
    | ok reference =>
      rw [hreference] at h
      replace h : (s.concreteOrString p t >>= _).result = .ok q := h
      rw [Logged.result_bind] at h
      cases hr : (s.concreteOrString p t).result with
      | error e =>
        rw [hr] at h
        cases h
      | ok r =>
        rw [hr] at h
        exact ⟨t, reference, r, ht, hreference, hr, _, rfl, (Except.ok.inj h).symm⟩

theorem leafProperty_shape {p : Place} {q : Property} (h : (s.leafProperty p).result = .ok q) :
    q.refs = [] ∧ q.IsTame ∧ q.readOnly = !p.node.config := by
  obtain ⟨t, reference, r, -, -, -, value, rfl, rfl⟩ := leafProperty_ok h
  have htame : ∀ e ∈ (if reference.type.isLeafref then [(Scalar.text "x-path", reference.type.path)] else []),
      e.1 = Scalar.text "x-path" := by
    intro e he
    split at he
    · rw [List.mem_singleton.mp he]
    · simp at he
  by_cases hk : p.node.kind = .leafList
  · simp only [if_pos hk]
    exact ⟨rfl, ⟨htame, by simp [Property.IsTame]⟩, trivial⟩
  · simp only [if_neg hk]
    exact ⟨rfl, htame, trivial⟩

end Schema

namespace Definitions

variable {c : Scope} {u : Definitions} {cut : Place → Prop} {defs : Models}

theorem structuralProperty_refs (y : Place) (name : Option Scalar) :
    (structuralProperty y name).refs = name.toList.map Datum.scalar := by
  unfold structuralProperty
  cases name <;> by_cases hk : y.node.kind = .list <;> simp [hk, Property.refs]

theorem structuralProperty_isTame (y : Place) (name : Option Scalar) :
    (structuralProperty y name).IsTame := by
  unfold structuralProperty
  cases name <;> by_cases hk : y.node.kind = .list <;> simp [hk, Property.IsTame]

theorem structuralProperty_readOnly {y : Place} {name : Option Scalar}
    (h : (structuralProperty y name).ref = none) :
    (structuralProperty y name).readOnly = !y.node.config := by
  unfold structuralProperty at h ⊢
  cases name <;> by_cases hk : y.node.kind = .list <;> simp [hk] at h ⊢

namespace PropertyOf

variable {next : Place → Scalar → Prop} {y : Place} {q : Property}

theorem covers (h : PropertyOf c u cut next y q) (hn : ∀ p name, next p name → defs.Defines name) :
    defs.Covers q.refs := by
  intro r hr
  cases h with
  | leaf _ hq =>
    rw [(Schema.leafProperty_shape hq).1] at hr
    simp at hr
  | anydata => simp [Property.refs] at hr
  | pointing _ hnext =>
    rw [structuralProperty_refs] at hr
    exact ⟨_, by simpa using hr, hn _ _ hnext⟩
  | untyped =>
    rw [structuralProperty_refs] at hr
    simp at hr

theorem isTame (h : PropertyOf c u cut next y q) : q.IsTame := by
  cases h with
  | leaf _ hq => exact (Schema.leafProperty_shape hq).2.1
  | anydata => simp [Property.IsTame]
  | pointing => exact structuralProperty_isTame y _
  | untyped => exact structuralProperty_isTame y _

/-- The property of a leaf has its final type. -/
theorem leafProperty (h : PropertyOf c u cut next y q) (htyped : y.node.kind.isTyped = true) :
    (c.schema.leafProperty y).result = .ok q := by
  have hnot : y.node.kind.isStructural ≠ true := by
    cases hk : y.node.kind <;> simp_all [Kind.isTyped, Kind.isStructural]
  cases h with
  | leaf _ hleaf => exact hleaf
  | anydata hk => simp [hk, Kind.isTyped] at htyped
  | pointing hk => exact absurd hk hnot
  | untyped hk => exact absurd hk hnot

theorem isField (h : PropertyOf c u cut next y q) : y.node.kind.isField = true := by
  cases h with
  | leaf hk => simp [Kind.isField, hk]
  | anydata hk => simp [Kind.isField, hk]
  | pointing hk => simp [Kind.isField, hk]
  | untyped hk => simp [Kind.isField, hk]

theorem readOnly (h : PropertyOf c u cut next y q) (hr : q.ref = none) :
    q.readOnly = !y.node.config := by
  cases h with
  | leaf _ hq => exact (Schema.leafProperty_shape hq).2.2
  | anydata => rfl
  | pointing => exact structuralProperty_readOnly hr
  | untyped => exact structuralProperty_readOnly hr

end PropertyOf

end Definitions

end RestconfApi
