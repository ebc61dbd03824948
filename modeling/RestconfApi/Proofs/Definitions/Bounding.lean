import RestconfApi.Proofs.Definitions.Asking
import RestconfApi.Proofs.Definitions.Demands

/-!
# Definitions: a bound that cuts nothing

Building looks at the deepest level in one place: when a field stands for a node that is not walked over, it asks
whether that lies within the bound. Two builders of which one has a bound keep abreast of each other as long as they
define nodes whose fields are all within it.
-/

namespace RestconfApi

/-- The scope with another deepest level. -/
def Scope.bounded (c : Scope) (limit : Option Nat) : Scope := { c with maxLevel := limit }

namespace Definitions

open Building

variable {c : Scope} {limit : Option Nat} {u d d' e : Definitions}

/-! ### Builders abreast of each other -/

namespace SameCounts

theorem refl (d : Definitions) : SameCounts d d := ⟨rfl, rfl, rfl, rfl⟩

theorem trans {d'' : Definitions} (h : SameCounts d d') (h' : SameCounts d' d'') : SameCounts d d'' :=
  ⟨h'.usages.trans h.usages, h'.copies.trans h.copies, h'.payload.trans h.payload,
    h'.processed.trans h.processed⟩

end SameCounts

theorem isCourse_sameCounts : IsCourse SameCounts where
  refl := SameCounts.refl
  trans := SameCounts.trans
  noted _ _ := ⟨rfl, rfl, rfl, rfl⟩

/-- Two builders are in one state, and what has been counted is as it was. -/
structure Abreast (u d e : Definitions) : Prop where
  eq : d = e
  counts : SameCounts u d

namespace Abreast

theorem step (h : Abreast u d e) {f : Definitions → Definitions} (hf : SameCounts d (f d)) : Abreast u (f d) (f e) :=
  ⟨by rw [h.eq], h.counts.trans hf⟩

theorem noted (h : Abreast u d e) (records : List Record) :
    Abreast u { d with records := d.records ++ records } { e with records := e.records ++ records } :=
  h.step (f := fun d => { d with records := d.records ++ records }) ⟨rfl, rfl, rfl, rfl⟩

end Abreast

/-- Both take a step that changes no counts. -/
theorem agree_of_within {α : Type} {x : Building α} (hx : x.Within SameCounts) (h : Abreast u d e) :
    Agree (Abreast u) x x d e := by
  obtain ⟨rfl, hcounts⟩ := h
  have hkept := Settles.run (R := fun _ d' => SameCounts d d') (hx d)
  exact ⟨rfl, rfl, hcounts.trans hkept⟩

/-! ### Shared groupings -/

theorem firstShared_bounded (site : Node) (qnames : List String) :
    firstShared (c.bounded limit) site qnames = firstShared c site qnames := by
  induction qnames with
  | nil => rfl
  | cons qname rest ih =>
    unfold firstShared
    rw [ih]
    rfl

theorem partitionFields_bounded (site : Node) (children : List Place) :
    partitionFields (c.bounded limit) site children = partitionFields c site children := by
  induction children with
  | nil => rfl
  | cons x rest ih =>
    unfold partitionFields
    rw [ih, firstShared_bounded]
    rfl

theorem isIncluded_bounded (qname : String) (others : List String) :
    isIncluded (c.bounded limit) qname others = isIncluded c qname others := by
  induction others with
  | nil => rfl
  | cons other rest ih =>
    unfold isIncluded
    rw [ih]
    rfl

/-! ### Fields -/

/-- Nodes that define nothing but each other, and whose fields are all within the bound. -/
structure Spares (c : Scope) (u : Definitions) (limit : Option Nat) (S : Place → Prop) : Prop where
  field : ∀ {p x : Place}, S p → x ∈ p.dataChildren → supplier? c u p.node x = none →
    x.node.kind.isStructural = true → (u.canonical c x).isWalked = true ∨
      u.withinBound (c.bounded limit) (u.canonical c x) = true ∧ S (u.canonical c x)
  supplier : ∀ {p x g : Place} {qname : String}, S p → x ∈ p.dataChildren →
    supplier? c u p.node x = some qname → c.schema.groupingNamed? qname = some g → S (u.canonical c g)

section

variable (u) in
/-- Both ways to define what `S` holds of keep abreast. -/
def Keeping (c : Scope) (S : Place → Prop) (define define' : Define) : Prop :=
  ∀ p d e, S (u.canonical c p) → Abreast u d e → Agree (Abreast u) (define p) (define' p) d e

variable {S : Place → Prop} (hS : Spares c u limit S) (hunbounded : c.maxLevel = none) {define define' : Define}
  (hdefine : Keeping u c S define define')
include hS hunbounded hdefine

theorem structuralRef_abreast {p x : Place} (hp : S p) (hx : x ∈ p.dataChildren)
    (hown : supplier? c u p.node x = none) (hk : x.node.kind.isStructural = true) (h : Abreast u d e) :
    Agree (Abreast u) (structuralRef (c.bounded limit) define x) (structuralRef c define' x) d e := by
  obtain ⟨rfl, hcounts⟩ := h
  have hd : Abreast u d d := ⟨rfl, hcounts⟩
  have hname : d.definitionName (c.bounded limit) x = d.definitionName c x := rfl
  have hcanonical : d.canonical (c.bounded limit) x = u.canonical c x := canonical_congr hcounts.usages x
  unfold structuralRef
  refine agree_get ?_
  rw [hname, hcanonical, canonical_congr hcounts.usages]
  cases d.definitionName c x with
  | some name => exact agree_pure hd
  | none =>
    have hnote : ∀ level text, Agree (Abreast u) (do note level text; pure (none : Option Scalar))
        (do note level text; pure none) d d := fun level text =>
      agree_bind (agree_note (hd.noted _)) fun _ _ _ h' => agree_pure h'
    dsimp only
    refine agree_ite (fun _ => hnote _ _) fun hwalked => agree_ite (fun _ => hnote _ _) fun _ => ?_
    obtain ⟨hbound, hmem⟩ := (hS.field hp hx hown hk).resolve_left hwalked
    have hfree : d.withinBound c (u.canonical c x) = true := by rw [withinBound, hunbounded]
    rw [withinBound_congr (c := c.bounded limit) hcounts, hbound, hfree]
    exact agree_bind (hdefine x d d hmem hd) fun name _ _ h' => agree_pure h'

theorem addField_abreast {p x : Place} (hp : S p) (hx : x ∈ p.dataChildren) (hown : supplier? c u p.node x = none)
    (node : Node) (model : ObjectModel) (h : Abreast u d e) :
    Agree (Abreast u) (addField (c.bounded limit) define node model x) (addField c define' node model x) d e := by
  have hproperty : Agree (Abreast u) (propertyFor (c.bounded limit) define x) (propertyFor c define' x) d e := by
    unfold propertyFor
    refine agree_ite (fun _ => ?_) fun _ => agree_ite (fun _ => agree_pure h) fun _ =>
      agree_ite (fun hk => ?_) fun _ => agree_pure h
    · exact agree_bind (agree_ofLogged (h.noted _)) fun _ _ _ h' => agree_pure h'
    · exact agree_bind (structuralRef_abreast hS hunbounded hdefine hp hx hown hk h) fun _ _ _ h' => agree_pure h'
  unfold addField
  refine agree_bind hproperty fun property d' e' h' => ?_
  cases property with
  | none => exact agree_pure h'
  | some q => exact agree_bind (agree_ofLogged (h'.noted _)) fun _ _ _ h'' => agree_pure h''

theorem objectModel_abreast {p : Place} (hp : S p) (node : Node) {children : List Place}
    (hchildren : ∀ x ∈ children, x ∈ p.dataChildren ∧ supplier? c u p.node x = none) (h : Abreast u d e) :
    Agree (Abreast u) (objectModel (c.bounded limit) define node children) (objectModel c define' node children) d e :=
  agree_foldlM (fun x hx model _ _ h => addField_abreast hS hunbounded hdefine hp (hchildren x hx).1 (hchildren x hx).2
    node model h) _ h

/-! ### Models -/

theorem buildModel_abreast {p : Place} (hp : S p) (h : Abreast u d e) :
    Agree (Abreast u) (buildModel (c.bounded limit) define p) (buildModel c define' p) d e := by
  unfold buildModel
  rw [show (c.bounded limit).strategy = c.strategy from rfl]
  cases hc : c.strategy with
  | unpacking =>
    refine agree_bind (objectModel_abreast hS hunbounded hdefine hp p.node (fun x hx => ⟨hx, ?_⟩) h) fun _ _ _ h' =>
      agree_pure h'
    rw [supplier?, hc]
  | optimizing =>
    obtain ⟨rfl, hcounts⟩ := h
    have hd : Abreast u d d := ⟨rfl, hcounts⟩
    dsimp only
    simp only [partitionFields_bounded, isIncluded_bounded]
    refine agree_bind_settles (Q := fun r _ => (∀ x ∈ r.2, x ∈ p.dataChildren ∧ supplier? c u p.node x = none) ∧
      ∀ qname ∈ r.1, ∃ x ∈ p.dataChildren, supplier? c u p.node x = some qname)
      ((partitionFields_settles hc hcounts.usages p.node _).mono (fun r d' hr => ?_) fun _ d' hd' => hd'.1 ▸ hd)
      fun r d₁ h₁ hr => ?_
    · obtain ⟨suppliers, others⟩ := r
      obtain ⟨rfl, rfl, hsuppliers⟩ := hr
      refine ⟨hd, fun x hx => ?_, fun qname hq => (hsuppliers qname).mp hq⟩
      obtain ⟨hx, hnone⟩ := List.mem_filter.mp hx
      exact ⟨hx, Option.isNone_iff_eq_none.mp hnone⟩
    obtain ⟨suppliers, others⟩ := r
    obtain ⟨hothers, hsuppliers⟩ := hr
    refine agree_bind_settles (Q := fun outer _ => outer ⊆ suppliers)
      ((outer_within isCourse_sameCounts suppliers d₁).mono (fun outer d' hr => ⟨⟨rfl, h₁.counts.trans hr.1⟩, hr.2⟩)
        fun d' hd' => ⟨rfl, h₁.counts.trans hd'⟩) fun outer d₂ h₂ hsub => ?_
    refine agree_ite (fun _ => ?_) fun _ => ?_
    · exact agree_bind (objectModel_abreast hS hunbounded hdefine hp p.node hothers h₂) fun _ _ _ h' => agree_pure h'
    refine agree_bind (agree_mapM (fun qname hq d' e' h' => ?_) h₂) fun names d₃ e₃ h₃ => ?_
    · obtain ⟨x, hx, hsupplier⟩ := hsuppliers qname (hsub hq)
      obtain ⟨rfl, hcounts'⟩ := h'
      refine agree_bind_settles (Q := fun g _ => c.schema.groupingNamed? qname = some g)
        ((groupingOf_leaves qname).mono (fun g d₄ hg => ⟨hg.1 ▸ ⟨rfl, hcounts'⟩, hg.2⟩)
          fun d₄ hd₄ => hd₄ ▸ ⟨rfl, hcounts'⟩) fun g d₄ h₄ hg => ?_
      exact hdefine g d₄ d₄ (hS.supplier hp hx hsupplier hg) h₄
    dsimp only
    split
    · exact agree_pure h₃
    · exact agree_pure h₃
    · exact agree_bind (objectModel_abreast hS hunbounded hdefine hp p.node hothers h₃) fun _ _ _ h' => agree_pure h'

end

/-! ### Definitions -/

theorem register_within (p : Place) (m : Model) : (register c p m).Within SameCounts := by
  have hcourse := isCourse_sameCounts
  have hbind : ∀ name : Scalar, (do modify fun d => { d with names := d.names.put p.address name }; pure name :
      Building Scalar).Within SameCounts := fun name =>
    (within_modify fun _ => ⟨rfl, rfl, rfl, rfl⟩).bind hcourse fun _ => within_pure hcourse name
  unfold register
  refine (within_get hcourse).bind hcourse fun d => (within_ofLogged hcourse _).bind hcourse fun name => ?_
  refine within_ite ?_ ?_
  · refine (within_modify fun _ => ⟨rfl, rfl, rfl, rfl⟩).bind hcourse fun _ => ?_
    exact (within_note hcourse _ _).bind hcourse fun _ => hbind name
  · exact (within_note hcourse _ _).bind hcourse fun _ => hbind name

theorem defineFrom_abreast {S : Place → Prop} (hS : Spares c u limit S) (hunbounded : c.maxLevel = none) (fuel : Nat) :
    Keeping u c S (defineFrom (c.bounded limit) fuel) (defineFrom c fuel) := by
  induction fuel with
  | zero => exact fun p d e _ h => agree_fail h
  | succ fuel ih =>
    rintro p d e hp ⟨rfl, hcounts⟩
    have hd : Abreast u d d := ⟨rfl, hcounts⟩
    have hcanonical : d.canonical (c.bounded limit) p = u.canonical c p := canonical_congr hcounts.usages p
    have hbind : ∀ {d e : Definitions} (name : Scalar), Abreast u d e → Agree (Abreast u)
        (do bindName p name; pure name) (do bindName p name; pure name) d e := fun name h =>
      agree_of_within ((within_modify fun _ => ⟨rfl, rfl, rfl, rfl⟩).bind isCourse_sameCounts fun _ =>
        within_pure isCourse_sameCounts name) h
    unfold defineFrom
    refine agree_get ?_
    rw [hcanonical, canonical_congr hcounts.usages]
    dsimp only
    split
    · exact agree_bind (agree_pure hd) fun name _ _ h' => hbind name h'
    · have hmarks : ∀ {d e : Definitions} (f : List Address → List Address), Abreast u d e →
          Abreast u { d with underway := f d.underway } { e with underway := f e.underway } := fun f h =>
        h.step (f := fun d => { d with underway := f d.underway }) ⟨rfl, rfl, rfl, rfl⟩
      have hmodel := buildModel_abreast hS hunbounded ih hp
        (hmarks (fun marks =>
          if (u.canonical c p).address ∈ marks then marks else (u.canonical c p).address :: marks) hd)
      refine agree_bind (agree_marked (hmodel.mono fun d' e' h' => hmarks _ h')) fun model d₁ e₁ h₁ => ?_
      exact agree_bind (agree_of_within (register_within _ model) h₁) fun name d₂ e₂ h₂ => hbind name h₂

/-- Where all that is defined is within the bound, the definitions are those without one. -/
theorem define_abreast {S : Place → Prop} (hS : Spares c u limit S) (hunbounded : c.maxLevel = none) :
    Keeping u c S (Definitions.define (c.bounded limit)) (Definitions.define c) :=
  defineFrom_abreast hS hunbounded _

end Definitions

end RestconfApi
