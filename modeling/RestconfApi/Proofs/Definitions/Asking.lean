import RestconfApi.Proofs.Definitions.Defining

/-!
# Definitions: what the model of a node asks for

While the model of a node is built, its data children and the groupings that supply some of them may be defined, and
nothing else is done to the state but that records are written. Whatever holds across these steps holds across the
building of the model.
-/

namespace RestconfApi.Definitions

open Building

variable {c : Scope} {define : Define} {d : Definitions} {K : Definitions → Definitions → Prop}

/-! ### Shared groupings -/

theorem groupingOf_leaves (qname : String) :
    (groupingOf c qname).Leaves d (fun g d' => d' = d ∧ c.schema.groupingNamed? qname = some g)
      fun d' => d' = d := (groupingOf_settles qname).mono (fun _ _ h => h) fun _ _ h => h.1

/-- The suppliers are groupings that children come from, and the other fields are children. -/
theorem partitionFields_leaves (hc : c.strategy = .optimizing) (site : Node) (children : List Place) :
    (partitionFields c site children).Leaves d
      (fun r d' => d' = d ∧
        (∀ qname ∈ r.1, ∃ x ∈ children, qname ∈ c.schema.supplierChain x) ∧ ∀ x ∈ r.2, x ∈ children)
      fun d' => d' = d := by
  refine (partitionFields_settles hc rfl site children).mono (fun r d' h => ?_) fun _ _ h => h.1
  obtain ⟨suppliers, others⟩ := r
  obtain ⟨hd', hothers, hsuppliers⟩ := h
  refine ⟨hd', fun qname hq => ?_, fun x hx => ?_⟩
  · obtain ⟨x, hx, hsupplier⟩ := (hsuppliers qname).mp hq
    exact ⟨x, hx, (of_supplier? hsupplier).2.1⟩
  · exact List.mem_of_mem_filter (hothers ▸ hx)

/-! ### What a model asks for -/

/-- What the model of a node may ask to be defined: its data children, and the groupings that supply some of them. -/
def Asks (c : Scope) (p q : Place) : Prop :=
  q ∈ p.dataChildren ∨ c.strategy = .optimizing ∧
    ∃ x ∈ p.dataChildren, ∃ qname ∈ c.schema.supplierChain x, c.schema.groupingNamed? qname = some q

section

variable (hK : IsCourse K)
include hK

theorem structuralRef_within {x : Place} (hdefine : (define x).Within K) : (structuralRef c define x).Within K := by
  have huntyped : ∀ (level : Level) (text : String),
      (do note level text; pure none : Building (Option Scalar)).Within K := fun level text =>
    (within_note hK level text).bind hK fun _ => within_pure hK none
  unfold structuralRef
  refine (within_get hK).bind hK fun d => ?_
  split
  · exact within_pure hK _
  · exact within_ite (huntyped _ _) (within_ite (huntyped _ _) (within_ite (huntyped _ _)
      (hdefine.bind hK fun name => within_pure hK _)))

theorem propertyFor_within {x : Place} (hdefine : (define x).Within K) : (propertyFor c define x).Within K := by
  unfold propertyFor
  refine within_ite ?_ (within_ite (within_pure hK _) (within_ite ?_ (within_pure hK none)))
  · exact (within_ofLogged hK _).bind hK fun q => within_pure hK _
  · exact (structuralRef_within hK hdefine).bind hK fun name => within_pure hK _

theorem objectModel_within {children : List Place} (hdefine : ∀ x ∈ children, (define x).Within K) (node : Node) :
    (objectModel c define node children).Within K := by
  refine within_foldlM hK (fun x hx o => ?_) _
  unfold addField
  refine (propertyFor_within hK (hdefine x hx)).bind hK fun property => ?_
  cases property with
  | none => exact within_pure hK o
  | some q => exact (within_ofLogged hK _).bind hK fun key => within_pure hK _

theorem isIncluded_within (qname : String) (others : List String) : (isIncluded c qname others).Within K := by
  induction others with
  | nil => exact within_pure hK false
  | cons other rest ih =>
    unfold isIncluded
    refine within_ite ((within_ofLogged hK _).bind hK fun included => ?_) ih
    exact within_ite (within_pure hK true) ih

theorem outer_within (suppliers : List String) (d : Definitions) :
    (suppliers.filterM fun qname => do pure !(← isIncluded c qname suppliers)).Leaves d
      (fun outer d' => K d d' ∧ outer ⊆ suppliers) (K d) :=
  (within_filterM hK (fun qname => (isIncluded_within hK qname suppliers).bind hK fun _ => within_pure hK _)
    d).and_ensures ((outer_succeeds suppliers).ok.mono fun _ _ h qname hq => ((h.2 qname).mp hq).1)

/-- The model of a node leads no further than what it asks to be defined does. -/
theorem buildModel_within {p : Place} (hdefine : ∀ q, Asks c p q → (define q).Within K) :
    (buildModel c define p).Within K := by
  have hchildren : ∀ x ∈ p.dataChildren, (define x).Within K := fun x hx => hdefine x (.inl hx)
  unfold buildModel
  cases hc : c.strategy with
  | unpacking => exact (objectModel_within hK hchildren p.node).bind hK fun o => within_pure hK _
  | optimizing =>
    refine within_bind_same hK (fun d => partitionFields_leaves hc p.node _) fun r hr => ?_
    obtain ⟨suppliers, others⟩ := r
    obtain ⟨hsuppliers, hothers⟩ := hr
    refine within_bind_of hK (outer_within hK suppliers) fun outer hsub => ?_
    have hfields : (objectModel c define p.node others).Within K :=
      objectModel_within hK (fun x hx => hchildren x (hothers x hx)) p.node
    refine within_ite (hfields.bind hK fun o => within_pure hK _) ?_
    refine (within_mapM hK fun qname hq => ?_).bind hK fun names => ?_
    · refine within_bind_same hK (fun d => groupingOf_leaves qname) fun g hg => ?_
      obtain ⟨x, hx, hchain⟩ := hsuppliers qname (hsub hq)
      exact hdefine g (.inr ⟨hc, x, hx, qname, hchain, hg⟩)
    · cases others with
      | nil =>
        rcases names with _ | ⟨name, _ | ⟨name', names⟩⟩
        · exact within_pure hK _
        · exact within_pure hK _
        · exact within_pure hK _
      | cons x xs => exact hfields.bind hK fun o => within_pure hK _

end

end RestconfApi.Definitions
