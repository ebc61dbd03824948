import RestconfApi.Definitions.Build
import RestconfApi.Proofs.Schema.Places
import RestconfApi.Proofs.Swagger.Requirements

/-!
# Definitions: what a definition says

Which nodes contribute fields to the definition of a node, given how often groupings are used: a child
that no shared grouping supplies contributes itself, and a shared grouping contributes what it has itself.
`Describes` ties a definition to the node it stands for: its fields are those of the contributing nodes,
to any depth of references, and it requires what the node and these groupings demand of their own fields.
-/

namespace RestconfApi

/-- Leaves, leaf-lists, anydata nodes, containers and lists, which are fields of the node around. -/
def Kind.isField (k : Kind) : Bool := k.isTyped || k = .anydata || k.isStructural

namespace Definitions

variable (c : Scope) (u : Definitions)

/-! ### Sharing -/

/-- The shared grouping that the definition of `site` leaves the field of a child to. -/
def supplier? (site : Node) (child : Place) : Option String :=
  match c.strategy with
  | .unpacking => none
  | .optimizing =>
    (c.schema.supplierChain child).find? fun qname =>
      u.isShared qname && (c.schema.groupingNamed? qname).any fun g => g.node.config == site.config

variable {c u} in
theorem of_supplier? {site : Node} {x : Place} {qname : String} (h : supplier? c u site x = some qname) :
    c.strategy = .optimizing ∧ qname ∈ c.schema.supplierChain x ∧ u.isShared qname = true ∧
      ∃ g, c.schema.groupingNamed? qname = some g ∧ g.node.config = site.config := by
  unfold supplier? at h
  split at h
  · cases h
  · rename_i hstrategy
    have hfound := List.find?_some h
    simp only [Bool.and_eq_true, Option.any_eq_true, beq_iff_eq] at hfound
    exact ⟨hstrategy, List.mem_of_find?_eq_some h, hfound.1, hfound.2⟩

/-- The grouping `other` is known to use `qname`, and so has its fields. -/
def Covers (qname other : String) : Prop :=
  other ≠ qname ∧ (c.groupings.isAncestorOf qname other).result = .ok true

/-- `qname` supplies a field of the node at `p`, and no other supplier has its fields. -/
def IsOuter (p : Place) (qname : String) : Prop :=
  (∃ x ∈ p.dataChildren, supplier? c u p.node x = some qname) ∧
    ∀ x ∈ p.dataChildren, ∀ other, supplier? c u p.node x = some other → ¬Covers c qname other

/-- The nodes whose fields the definition of the node at `p` has: the children that no shared grouping
supplies, and what the supplying groupings have themselves. -/
inductive Contributes : Place → Place → Prop
  | own {p x : Place} : x ∈ p.dataChildren → supplier? c u p.node x = none → Contributes p x
  | shared {p g y : Place} {qname : String} : IsOuter c u p qname →
      c.schema.groupingNamed? qname = some g → Contributes (u.canonical c g) y → Contributes p y

/-- `node` needs the field `child`, which is mandatory or one of its keys. -/
def Needs (node child : Node) (key : String) : Prop :=
  child.kind.isField = true ∧ child.name = .text key ∧ (child.mandatory = true ∨ key ∈ node.keys)

/-- The names that the definition of the node at `p` requires: what the node needs of the children that no
shared grouping supplies, and what the supplying groupings need themselves, whatever the keys of the node. -/
inductive Demands : Place → String → Prop
  | own {p x : Place} {key : String} : x ∈ p.dataChildren → supplier? c u p.node x = none →
      Needs p.node x.node key → Demands p key
  | shared {p g : Place} {qname key : String} : IsOuter c u p qname →
      c.schema.groupingNamed? qname = some g → Demands (u.canonical c g) key → Demands p key

/-! ### Properties and definitions of nodes -/

/-- The property of a node as a field. `next` relates the node that stands for a container or a list with
the definition pointed at, and only those that `cut` holds of stay untyped. -/
inductive PropertyOf (cut : Place → Prop) (next : Place → Scalar → Prop) (y : Place) : Property → Prop
  | leaf {q : Property} : y.node.kind.isTyped = true → (c.schema.leafProperty y).result = .ok q →
      PropertyOf cut next y q
  | anydata : y.node.kind = .anydata →
      PropertyOf cut next y
        { type := .text "object", description := y.node.description, readOnly := !y.node.config }
  | pointing {name : Scalar} : y.node.kind.isStructural = true → next (u.canonical c y) name →
      PropertyOf cut next y (structuralProperty y (some name))
  | untyped : y.node.kind.isStructural = true → cut y →
      PropertyOf cut next y (structuralProperty y none)

/-- `name` is defined, and to a depth of references its fields are those of the nodes that contribute to
the node at a place; what is demanded there is required. -/
def Describes (cut : Place → Prop) (defs : Models) : Nat → Place → Scalar → Prop
  | 0, _, name => defs.Defines name
  | depth + 1, p, name =>
    defs.Defines name ∧
      (∀ key q, (Model.reference (.scalar name)).Field defs key q →
        ∃ y q', Contributes c u p y ∧ (y.node.name == .scalar key) = true ∧ q.Matches q' ∧
          PropertyOf c u cut (Describes cut defs depth) y q') ∧
      (∀ y, Contributes c u p y → y.node.kind.isField = true →
        ∃ key q, (y.node.name == .scalar key) = true ∧
          (Model.reference (.scalar name)).Field defs key q) ∧
      ∀ key, Demands c u p key → (Model.reference (.scalar name)).Requires defs key

/-- `name` describes the node at a place to any depth. -/
def Stands (cut : Place → Prop) (defs : Models) (p : Place) (name : Scalar) : Prop :=
  ∀ depth, Describes c u cut defs depth p name

variable {c u} {cut : Place → Prop} {defs defs' : Models}

theorem PropertyOf.mono {next next' : Place → Scalar → Prop} {y : Place} {q : Property}
    (h : PropertyOf c u cut next y q) (hn : ∀ p name, next p name → next' p name) :
    PropertyOf c u cut next' y q := by
  cases h with
  | leaf hk hq => exact .leaf hk hq
  | anydata hk => exact .anydata hk
  | pointing hk hnext => exact .pointing hk (hn _ _ hnext)
  | untyped hk hc => exact .untyped hk hc

theorem Describes.defines {depth : Nat} {p : Place} {name : Scalar}
    (h : Describes c u cut defs depth p name) : defs.Defines name := by
  cases depth with
  | zero => exact h
  | succ depth => exact h.1

theorem Stands.defines {p : Place} {name : Scalar} (h : Stands c u cut defs p name) :
    defs.Defines name :=
  (h 0).defines

/-- Definitions added later do not change what a name describes. -/
theorem Describes.grow {depth : Nat} {p : Place} {name : Scalar}
    (h : Describes c u cut defs depth p name) (hc : defs.Closed) (hg : defs.Grows defs') :
    Describes c u cut defs' depth p name := by
  induction depth generalizing p name with
  | zero => exact Models.Defines.grow h hg
  | succ depth ih =>
    obtain ⟨hdef, hsound, hcomplete, hrequires⟩ := h
    refine ⟨hdef.grow hg, fun key q hq => ?_, fun y hy hk => ?_, fun key hkey =>
      (hrequires key hkey).grow hg⟩
    · have hcovers : defs.Covers (Model.reference (.scalar name)).refs := by
        intro r hr
        exact ⟨name, List.mem_singleton.mp hr, hdef⟩
      obtain ⟨y, q', hy, hname, hm, hp⟩ :=
        hsound key q (hq.shrink hc hg (.plain (.reference name)) hcovers)
      exact ⟨y, q', hy, hname, hm, hp.mono fun _ _ h => ih h⟩
    · obtain ⟨key, q, hname, hq⟩ := hcomplete y hy hk
      exact ⟨key, q, hname, hq.grow hg⟩

theorem Stands.grow {p : Place} {name : Scalar} (h : Stands c u cut defs p name) (hc : defs.Closed)
    (hg : defs.Grows defs') : Stands c u cut defs' p name :=
  fun depth => (h depth).grow hc hg

theorem describes_congr {depth : Nat} {p : Place} {name name' : Scalar} (h : (name == name') = true) :
    Describes c u cut defs depth p name ↔ Describes c u cut defs depth p name' := by
  cases depth with
  | zero => exact Models.defines_congr h
  | succ depth => simp only [Describes, Models.defines_congr h, Model.field_congr h, Model.requires_congr h]

/-! ### Models of nodes -/

/-- A model that has just been built for the node at `p`: its own fields are the properties of data children that no
shared grouping supplies, the definitions it points at describe shared groupings that supply others, and together
they have everything that contributes and require everything that is demanded. -/
structure Built (cut : Place → Prop) (defs : Models) (p : Place) (m : Model) : Prop where
  proper : m.IsProper
  covers : defs.Covers m.refs
  own : ∀ key q, m.Own key q → ∃ y ∈ p.dataChildren, supplier? c u p.node y = none ∧
    (y.node.name == .scalar key) = true ∧ PropertyOf c u cut (Stands c u cut defs) y q
  brings : ∀ name, m.Brings name → ∃ qname g, IsOuter c u p qname ∧ c.schema.groupingNamed? qname = some g ∧
    Stands c u cut defs (u.canonical c g) name
  complete : ∀ y, Contributes c u p y → y.node.kind.isField = true →
    (∃ key q, (y.node.name == .scalar key) = true ∧ m.Own key q) ∨
      ∃ g name, m.Brings name ∧ Stands c u cut defs g name ∧ Contributes c u g y
  requires : ∀ key, Demands c u p key → m.Lists key ∨
    ∃ g name, m.Brings name ∧ Stands c u cut defs g name ∧ Demands c u g key

theorem Built.grow {p : Place} {m : Model} (h : Built (c := c) (u := u) cut defs p m) (hc : defs.Closed)
    (hg : defs.Grows defs') : Built (c := c) (u := u) cut defs' p m where
  proper := h.proper
  covers := h.covers.grow hg
  own := by
    intro key q hq
    obtain ⟨y, hy, hsupplier, hname, hprop⟩ := h.own key q hq
    exact ⟨y, hy, hsupplier, hname, hprop.mono fun _ _ hn => hn.grow hc hg⟩
  brings := by
    intro name hname
    obtain ⟨qname, g, houter, hgrouping, hstands⟩ := h.brings name hname
    exact ⟨qname, g, houter, hgrouping, hstands.grow hc hg⟩
  complete := by
    intro y hy hk
    refine (h.complete y hy hk).imp_right fun ⟨g, name, hname, hstands, hcontrib⟩ => ?_
    exact ⟨g, name, hname, hstands.grow hc hg, hcontrib⟩
  requires := by
    intro key hkey
    refine (h.requires key hkey).imp_right fun ⟨g, name, hname, hstands, hdemands⟩ => ?_
    exact ⟨g, name, hname, hstands.grow hc hg, hdemands⟩

/-- A definition that agrees with a model built for a node describes the node. -/
theorem Built.stands {p : Place} {m m' : Model} {name : Scalar}
    (h : Built (c := c) (u := u) cut defs p m) (hc : defs.Closed) (hget : defs.get? name = some m')
    (hagree : m' = m ∨ m'.agrees m = true) : Stands c u cut defs p name := by
  have hdef : defs.Defines name := Option.isSome_iff_exists.mpr ⟨m', hget⟩
  have hproper := (hc.of_get? hget).1
  have hown : ∀ key q, m'.Own key q → ∃ key' q', m.Own key' q' ∧ (key' == key) = true ∧ q.Matches q' := by
    intro key q hq
    rcases hagree with rfl | hagree
    · exact ⟨key, q, hq, BEq.rfl, .inl rfl⟩
    · obtain ⟨key', q', hq', hk, hqq⟩ := hproper.own_of_agrees h.proper hagree hq
      exact ⟨key', q', hq', hk, .inr hqq⟩
  have hown' : ∀ key q, m.Own key q → ∃ key' q', m'.Own key' q' ∧ (key == key') = true := by
    intro key q hq
    rcases hagree with rfl | hagree
    · exact ⟨key, q, hq, BEq.rfl⟩
    · obtain ⟨key', q', hq', hk, -⟩ := hproper.own_of_agrees' h.proper hagree hq
      exact ⟨key', q', hq', hk⟩
  have hbrings : (∀ n, m'.Brings n → ∃ n', m.Brings n' ∧ (n == n') = true) ∧
      ∀ n', m.Brings n' → ∃ n, m'.Brings n ∧ (n == n') = true := by
    rcases hagree with rfl | hagree
    · exact ⟨fun n hn => ⟨n, hn, BEq.rfl⟩, fun n hn => ⟨n, hn, BEq.rfl⟩⟩
    · exact hproper.brings_of_agrees h.proper hagree
  have hlists : ∀ key, m.Lists key → m'.Lists key := by
    intro key hkey
    rcases hagree with rfl | hagree
    · exact hkey
    · exact Model.lists_of_agrees hagree hkey
  intro depth
  cases depth with
  | zero => exact hdef
  | succ depth =>
    simp only [Describes, Model.field_reference_iff hget, Model.requires_reference_iff hget, hproper.field_iff]
    refine ⟨hdef, fun key q hq => ?_, fun y hy hk => ?_, fun key hkey => ?_⟩
    · rcases hq with hq | ⟨n, hn, hq⟩
      · obtain ⟨key', q', hq', hkey, hqq⟩ := hown key q hq
        obtain ⟨y, hy, hsupplier, hname, hprop⟩ := h.own key' q' hq'
        exact ⟨y, q', .own hy hsupplier, Datum.beq_scalar_trans hname hkey, hqq, hprop.mono fun _ _ hs => hs depth⟩
      · obtain ⟨n', hn', hnn⟩ := hbrings.1 n hn
        obtain ⟨qname, g, houter, hgrouping, hg⟩ := h.brings n' hn'
        obtain ⟨y, q', hy, hname, hqq, hprop⟩ := (hg (depth + 1)).2.1 key q ((Model.field_congr hnn).mp hq)
        exact ⟨y, q', .shared houter hgrouping hy, hname, hqq, hprop⟩
    · rcases h.complete y hy hk with ⟨key, q, hname, hq⟩ | ⟨g, n', hn', hg, hy'⟩
      · obtain ⟨key', q', hq', hkey⟩ := hown' key q hq
        exact ⟨key', q', Datum.beq_scalar_trans hname hkey, .inl hq'⟩
      · obtain ⟨n, hn, hnn⟩ := hbrings.2 n' hn'
        obtain ⟨key, q, hname, hq⟩ := (hg (depth + 1)).2.2.1 y hy' hk
        exact ⟨key, q, hname, .inr ⟨n, hn, (Model.field_congr hnn).mpr hq⟩⟩
    · rcases h.requires key hkey with hkey | ⟨g, n', hn', hg, hkey⟩
      · exact (hlists key hkey).requires
      · obtain ⟨n, hn, hnn⟩ := hbrings.2 n' hn'
        exact hn.requires ((Model.requires_congr hnn).mpr ((hg (depth + 1)).2.2.2 key hkey))

end Definitions

end RestconfApi
