import RestconfApi.Proofs.Definitions.Canonical
import RestconfApi.Proofs.Definitions.Contribution
import RestconfApi.Proofs.Swagger.Likeness

/-!
# Definitions: the invariant of building

While definitions are built, every name that is bound to a node describes the node that stands for it, and
what has been defined stays. Which structural fields may stay untyped, and which nodes may be defined at a
point, is left to a regime: one that asks for nothing serves every walk.
-/

namespace RestconfApi.Definitions

variable (c : Scope) (u : Definitions)

/-- The definitions registered so far. -/
abbrev models (d : Definitions) : Models := d.document.definitions

/-! ### The invariant -/

/-- The names bound so far describe the nodes they are bound to, given the uses counted in `u`, and each definition has
been built for a node. -/
structure Sound (cut : Place → Prop) (d : Definitions) : Prop where
  usages : d.usages = u.usages
  closed : d.models.Closed
  names : ∀ p name, c.schema.Has p → d.names.get? p.address = some name →
    Stands c u cut d.models (u.canonical c p) name
  completed : ∀ p name, c.schema.Has p → d.completed.get? p.address = some name →
    Stands c u cut d.models (u.canonical c p) name
  built : ∀ e ∈ d.models, ∃ p, c.schema.Has p ∧ Built (c := c) (u := u) cut d.models p e.2

/-- How definitions advance: definitions, operations and names are added, and marks taken away. -/
structure Advances (d d' : Definitions) : Prop where
  grows : d.models.Grows d'.models
  operations : ∀ path method, (d.document.operation? path method).isSome = true →
    (d'.document.operation? path method).isSome = true
  usages : d'.usages = d.usages
  names : ∀ a, (d.names.get? a).isSome = true → (d'.names.get? a).isSome = true
  completed : ∀ a, (d.completed.get? a).isSome = true → (d'.completed.get? a).isSome = true
  underway : d'.underway ⊆ d.underway

/-- How the state changes while definitions are built: they advance, and no operation is added. -/
structure Extends (d d' : Definitions) : Prop extends Advances d d' where
  paths : d'.document.paths = d.document.paths

/-- Which fields may stay untyped and when a node may be defined: whatever is demanded while a node is
defined may then be defined as well, or stays untyped. -/
structure Regime where
  cut : Place → Prop
  ready : Definitions → Place → Prop
  ready_advances : ∀ {d d' : Definitions} {p : Place}, Advances d d' → ready d p → ready d' p
  ready_marked : ∀ {d : Definitions} {p : Place} {marks : List Address}, ready d p →
    marks ⊆ p.address :: d.underway → ready { d with underway := marks } p
  child : ∀ {d : Definitions} {p x : Place}, d.usages = u.usages → c.schema.Has p → ready d p →
    x ∈ p.dataChildren → x.node.kind.isStructural = true → d.definitionName c x = none →
    ready d (u.canonical c x) ∧
      (cut x ∨ (u.canonical c x).isWalked = false ∧ (u.canonical c x).address ∉ d.underway ∧
        d.withinBound c (u.canonical c x) = true)
  grouping : ∀ {d : Definitions} {p g : Place} {qname : String}, c.schema.Has p → ready d p →
    IsOuter c u p qname → c.schema.groupingNamed? qname = some g → ready d (u.canonical c g)

/-- Any structural field may stay untyped, and every node may be defined at any time. -/
def Regime.free : Regime c u where
  cut _ := True
  ready _ _ := True
  ready_advances _ _ := trivial
  ready_marked _ _ := trivial
  child _ _ _ _ _ _ := ⟨trivial, .inl trivial⟩
  grouping _ _ _ _ := trivial

variable {c u} {cut : Place → Prop} {d d' d'' : Definitions}

theorem Advances.refl (d : Definitions) : Advances d d :=
  ⟨.refl, fun _ _ h => h, rfl, fun _ h => h, fun _ h => h, fun _ h => h⟩

theorem Advances.trans (h : Advances d d') (h' : Advances d' d'') : Advances d d'' where
  grows := h.grows.trans h'.grows
  operations := fun path method ho => h'.operations path method (h.operations path method ho)
  usages := h'.usages.trans h.usages
  names := fun a ha => h'.names a (h.names a ha)
  completed := fun a ha => h'.completed a (h.completed a ha)
  underway := fun _ ha => h.underway (h'.underway ha)

theorem Extends.refl (d : Definitions) : Extends d d :=
  ⟨.refl d, rfl⟩

theorem Extends.trans (h : Extends d d') (h' : Extends d' d'') : Extends d d'' :=
  ⟨h.toAdvances.trans h'.toAdvances, h'.paths.trans h.paths⟩

/-- Records written on the way are no change. -/
theorem Extends.noted (d : Definitions) (records : List Record) : Extends d { d with records } :=
  ⟨⟨.refl, fun _ _ h => h, rfl, fun _ h => h, fun _ h => h, fun _ h => h⟩, rfl⟩

theorem Sound.noted (h : Sound c u cut d) (records : List Record) : Sound c u cut { d with records } :=
  ⟨h.usages, h.closed, h.names, h.completed, h.built⟩

theorem Sound.marks (h : Sound c u cut d) (underway : List Address) :
    Sound c u cut { d with underway } :=
  ⟨h.usages, h.closed, h.names, h.completed, h.built⟩

theorem Stands.advance {p : Place} {name : Scalar} (h : Stands c u cut d.models p name)
    (hd : Sound c u cut d) (he : Advances d d') : Stands c u cut d'.models p name :=
  h.grow hd.closed he.grows

/-- The name under which a node is looked up describes what stands for it. -/
theorem Sound.definitionName (h : Sound c u cut d) (hs : c.schema.Ranked) {p : Place}
    (hp : c.schema.Has p) {name : Scalar} (hname : d.definitionName c p = some name) :
    Stands c u cut d.models (u.canonical c p) name := by
  have hcanonical : ∀ n, d.names.get? (d.canonical c p).address = some n →
      Stands c u cut d.models (u.canonical c p) n := by
    intro n hn
    rw [canonical_congr h.usages] at hn
    have := h.names _ n (has_canonical hp) hn
    rwa [canonical_canonical hs hp] at this
  unfold Definitions.definitionName at hname
  split at hname
  · rename_i n hn
    split at hname
    · obtain rfl := Option.some.inj hname
      exact h.names p n hp hn
    · exact hcanonical name hname
  · exact hcanonical name hname

end RestconfApi.Definitions
