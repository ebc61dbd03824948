import RestconfApi.Proofs.Documents
import RestconfApi.Proofs.Schema.Config
import RestconfApi.Proofs.Schema.Origins

/-!
# Schema: flags of the nodes around

The config flag of a copy is the first one that is written along the chain of its templates. A node outside the rpcs
is configuration exactly when no flag of it or of a node around it says otherwise.
-/

namespace RestconfApi

namespace Place

/-- `q` is the node at `p` or one of those around it. -/
inductive Encloses (q : Place) : Place → Prop
  | self : Encloses q q
  | child {p x : Place} {i : Nat} : Encloses q p → p.childAt? i = some x → Encloses q x

theorem eq_of_childAt? {p q x : Place} {i j : Nat} (hp : p.childAt? i = some x) (hq : q.childAt? j = some x) :
    q = p := by
  have haddress := (address_of_childAt? hp).symm.trans (address_of_childAt? hq)
  have habove := (above_of_childAt? hp).symm.trans (above_of_childAt? hq)
  obtain ⟨a, n, above⟩ := p
  obtain ⟨b, m, above'⟩ := q
  obtain ⟨k, part, is⟩ := a
  obtain ⟨k', part', js⟩ := b
  simp only [Address.child, Address.mk.injEq] at haddress
  obtain ⟨rfl, rfl, hpath⟩ := haddress
  obtain ⟨rfl, -⟩ := List.append_inj' hpath rfl
  obtain ⟨rfl, rfl⟩ := List.cons.inj habove
  rfl

/-- Around a child are the child itself and all that is around its parent. -/
theorem encloses_childAt? {p q x : Place} {i : Nat} (hx : p.childAt? i = some x) :
    q.Encloses x ↔ q = x ∨ q.Encloses p := by
  constructor
  · intro h
    cases h with
    | self => exact .inl rfl
    | child h hx' =>
      obtain rfl := eq_of_childAt? hx hx'
      exact .inr h
  · rintro (rfl | h)
    · exact .self
    · exact .child h hx

theorem Encloses.part_eq {p q : Place} (h : q.Encloses p) : p.address.part = q.address.part := by
  induction h with
  | self => rfl
  | child _ hx ih => exact (part_of_childAt? hx).trans ih

/-- The flag that is written on the node itself. A copy has none of its own. -/
def writtenConfig? (p : Place) : Option Bool := if p.node.template.isNone then p.node.declaredConfig else none

end Place

namespace Schema

variable {s : Schema}

theorem Has.of_childAt? {p x : Place} {i : Nat} (hx : s.Has x) (h : p.childAt? i = some x) : s.Has p := by
  obtain ⟨q, j, hq, hqx, -⟩ := hx.exists_parent (Place.above_of_childAt? h)
  rwa [Place.eq_of_childAt? hqx h]

theorem Has.of_encloses {p q : Place} (hp : s.Has p) (h : q.Encloses p) : s.Has q := by
  induction h with
  | self => exact hp
  | child _ hx ih => exact ih (hp.of_childAt? hx)

theorem eq_of_encloses_top {i : Nat} {part : Part} {p q : Place} (hp : p ∈ s.tops i part) (h : q.Encloses p) :
    q = p := by
  cases h with
  | self => rfl
  | child _ hx =>
    have habove := above_of_mem_tops hp
    rw [Place.above_of_childAt? hx] at habove
    cases habove

/-- The first flag that is written along the chain of templates of a node, the node itself first. -/
def explicitConfig? (s : Schema) (p : Place) : Option Bool := (p :: s.templates p).findSome? Place.writtenConfig?

/-- Copying keeps the flag that is found along the chain. -/
theorem Traced.explicitConfig?_eq {augmented : Prop} {rank : Address → Nat} (h : s.Traced augmented rank)
    {p : Place} (hp : s.Has p) : s.explicitConfig? p = p.node.declaredConfig := by
  refine h.induction (P := fun p => s.explicitConfig? p = p.node.declaredConfig) (fun p hp htemplate => ?_)
    (fun p t hp ht hcopy ih => ?_) hp
  · have hnone : s.template? p = none := by rw [template?, htemplate, Option.bind_none]
    rw [explicitConfig?, templates_of_none h.ranked hp hnone, List.findSome?_singleton, Place.writtenConfig?,
      htemplate]
    rfl
  · have hwritten : p.writtenConfig? = none := by
      obtain ⟨a, ha, -⟩ := Option.bind_eq_some_iff.mp ht
      rw [Place.writtenConfig?, ha]
      rfl
    rw [hcopy.copies.declaredConfig, ← ih, explicitConfig?, templates_of_template? h.ranked hp ht,
      List.findSome?_cons, hwritten, explicitConfig?]

/-- A node outside the rpcs is configuration when nothing around it is declared otherwise. -/
theorem Configured.config_iff (h : s.Configured) {p : Place} (hp : s.Has p) (hpart : p.address.part ≠ .rpcs) :
    p.node.config = true ↔ ∀ q : Place, q.Encloses p → q.node.declaredConfig.getD true = true := by
  refine Has.induction (P := fun p => p.address.part ≠ .rpcs →
    (p.node.config = true ↔ ∀ q : Place, q.Encloses p → q.node.declaredConfig.getD true = true))
    (fun i part p hp hpart => ?_) (fun p x i hp ih hx hpart => ?_) hp hpart
  · rw [part_of_mem_tops hp] at hpart
    rw [h.top i part hpart p hp]
    constructor
    · intro hconfig q hq
      rwa [eq_of_encloses_top hp hq]
    · exact fun hall => hall p .self
  · rw [Place.part_of_childAt? hx] at hpart
    rw [h.child hp hpart hx, Bool.and_eq_true, ih hpart]
    constructor
    · rintro ⟨hall, hself⟩ q hq
      rcases (Place.encloses_childAt? hx).mp hq with rfl | hq
      · exact hself
      · exact hall q hq
    · exact fun hall => ⟨fun q hq => hall q (.child hq hx), hall x .self⟩

/-- Below operational state there is nothing else. -/
theorem Configured.of_encloses (h : s.Configured) {p q : Place} (hp : s.Has p) (hq : q.Encloses p)
    (hconfig : q.node.config = false) : p.node.config = false := by
  induction hq with
  | self => exact hconfig
  | child _ hx ih =>
    have hp' := hp.of_childAt? hx
    exact h.of_childAt? hp' hx (ih hp')

/-- In a schema that loads a node of a data tree or of a grouping is configuration exactly when the flags of the node
and of all nodes around it say so, of which each is the first one written along a chain of templates. So nothing below
operational state is configuration, and in an rpc everything is. A node that is no copy is one that the document
declares there, and its flag is the one that the statement for it gives; the case that a child of a choice stands in by
itself has none. -/
theorem config_of_load {d : Datum} (h : (load d).result = .ok s) : ∃ modules augments,
    Declaration.document d = .ok (modules, augments) ∧ ∀ p, s.Has p →
      (p.address.part ≠ .rpcs →
        (p.node.config = true ↔ ∀ q : Place, q.Encloses p → (s.explicitConfig? q).getD true = true) ∧
          ∀ q : Place, q.Encloses p → q.node.config = false → p.node.config = false) ∧
      (p.address.part = .rpcs → p.node.config = true) ∧
      (p.node.template = none → ∃ n, Stands ⟨modules⟩ (s.graftsAt augments) s n p.address ∧
        p.node.toStatement.erased = n.toStatement.erased ∧ ∃ m ∈ modules,
          (∃ x, Declaration.Gives d m.name x n ∧ p.writtenConfig? = Declaration.flag? x) ∨
            ∃ x c, Declaration.Gives d m.name x c ∧ c.kind ≠ .case ∧ n = Declaration.inCase m.name c ∧
              p.writtenConfig? = none) := by
  obtain ⟨declared, M, hfrom⟩ := exists_loadedFrom h
  obtain ⟨modules, augments, hdocument, hexact⟩ := exists_isExact h
  have hconfigured := configured_of_load h
  refine ⟨modules, augments, hdocument, fun p hp => ⟨fun hpart => ⟨?_, fun q hq hconfig => ?_⟩, hconfigured.rpcs hp,
    fun htemplate => ?_⟩⟩
  · rw [hconfigured.config_iff hp hpart]
    refine forall_congr' fun q => ⟨fun hall hq => ?_, fun hall hq => ?_⟩
    · rw [hfrom.traced.explicitConfig?_eq (hp.of_encloses hq)]
      exact hall hq
    · rw [← hfrom.traced.explicitConfig?_eq (hp.of_encloses hq)]
      exact hall hq
  · exact hconfigured.of_encloses hp hq hconfig
  · obtain ⟨n, hn, herased, -⟩ := hexact.exists_stands hp htemplate
    have hdeclared : p.node.declaredConfig = n.declaredConfig := eq_of_erased (·.declaredConfig) (fun _ => rfl) herased
    have hwritten : p.writtenConfig? = n.declaredConfig := by
      rw [Place.writtenConfig?, htemplate, ← hdeclared]
      rfl
    obtain ⟨m, hm, hgiven⟩ := exists_module_of_stands hdocument hn
    refine ⟨n, hn, herased, m, hm, ?_⟩
    cases hgiven with
    | statement hx => exact .inl ⟨_, hx, hwritten.trans hx.readAs.declaredConfig_eq⟩
    | @around x c hx hkind hcase =>
      refine .inr ⟨x, c, hx, hkind, hcase, hwritten.trans ?_⟩
      rw [hcase, Declaration.inCase, if_neg hkind]

end Schema

open Example Schema

/-- A grouping with operational state that comes into a data tree through another one, where an augment adds to it,
and into an rpc. -/
def Example.state : Datum :=
  document [
    ("groupings", [grouping "g" [statement "container" "c" [("config", .bool false), ("children", .list [leaf "l"])]],
      grouping "h" [container "b" ["g"]]]),
    ("data", [container "x" ["h"]]),
    ("rpcs", [rpc "r" ["g"]]),
    ("augments", [.object [("target", .text "/m:x/m:b/m:c"), ("children", .list [leaf "k" [("config", .bool true)]])]])]

/-- What is added below the copy of operational state is no configuration, though the statement for it says so, but the
copy in the rpc is. -/
theorem config_of_load_state : ∃ s p r, (load Example.state).result = .ok s ∧
    s.node? "/m:x/m:b/m:c/m:k" none = some p ∧ p.node.config = false ∧
      (∃ owner x n, Declaration.Gives Example.state owner x n ∧ Declaration.flag? x = some true ∧
        p.node.toStatement.erased = n.toStatement.erased) ∧
      (∃ q : Place, q.Encloses p ∧ (s.explicitConfig? q).getD true = false) ∧
      s.node? "/m:r/m:input/m:c" none = some r ∧ s.explicitConfig? r = some false ∧ r.node.config = true := by
  have htest : ((load Example.state).result.toOption.any fun s =>
      ((s.node? "/m:x/m:b/m:c/m:k" none).any fun p =>
        p.address.part = .data && p.node.template.isNone && p.writtenConfig? = some true && !p.node.config) &&
      (s.node? "/m:r/m:input/m:c" none).any fun r =>
        r.address.part = .rpcs && s.explicitConfig? r = some false) = true := by
    decide +kernel
  obtain ⟨s, hload, htest⟩ := exists_of_any htest
  rw [Bool.and_eq_true] at htest
  obtain ⟨p, hp, hptest⟩ := (Option.any_eq_true _ _).mp htest.1
  obtain ⟨r, hr, hrtest⟩ := (Option.any_eq_true _ _).mp htest.2
  simp only [Bool.and_eq_true, decide_eq_true_eq, Bool.not_eq_true', Option.isNone_iff_eq_none] at hptest hrtest
  obtain ⟨⟨⟨hpart, htemplate⟩, hwritten⟩, hconfig⟩ := hptest
  obtain ⟨modules, augments, -, hall⟩ := config_of_load hload
  obtain ⟨hdata, -, hown⟩ := hall p (isTarget_of_node? hp).has
  refine ⟨s, p, r, hload, hp, hconfig, ?_, ?_, hr, hrtest.2, (hall r (isTarget_of_node? hr).has).2.1 hrtest.1⟩
  · obtain ⟨n, -, herased, m, -, hflag⟩ := hown htemplate
    rcases hflag with ⟨x, hx, hflag⟩ | ⟨x, c, -, -, -, hnone⟩
    · exact ⟨m.name, x, n, hx, hflag.symm.trans hwritten, herased⟩
    · rw [hwritten] at hnone
      cases hnone
  · by_contra hnone
    refine absurd ((hdata (by simp [hpart])).1.mpr fun q hq => ?_) (by simp [hconfig])
    exact Bool.of_not_eq_false fun hfalse => hnone ⟨q, hq, hfalse⟩

end RestconfApi
