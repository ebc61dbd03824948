import RestconfApi.Proofs.Schema.Origins
import RestconfApi.Proofs.Schema.Suppliers

/-!
# Schema: the children of choices

Each child that a choice is declared with is a case, or stands in a case of its own. What a `uses` adds to a choice does
not: its children are copies of the children of the grouping, whatever these are. Augments add nothing to choices.
-/

namespace RestconfApi

/-- All children are cases. -/
def Place.HasOnlyCases (p : Place) : Prop := ∀ y ∈ p.children, y.node.kind = .case

theorem Place.map_children (p : Place) : p.children.map (·.node.toStatement) = Node.heads p.node.children := by
  refine List.ext_getElem? fun i => ?_
  rw [List.getElem?_map, children, getElem?_ofChildren, Node.heads, List.getElem?_map, Option.map_map]
  rfl

theorem Place.hasOnlyCases_iff {p : Place} :
    p.HasOnlyCases ↔ ∀ c ∈ Node.heads p.node.children, c.kind = .case := by
  rw [← p.map_children, List.forall_mem_map]
  rfl

namespace Declaration

open Failure (ok_of_bind)

variable {owner : Name}

/-! ### What is declared -/

/-- A choice has only cases for its children. -/
def HoldsCases (st : Statement) (cs : List Statement) : Prop := st.kind = .choice → ∀ c ∈ cs, c.kind = .case

theorem kind_inCase (owner : Name) (n : Node) : (inCase owner n).kind = .case := by
  unfold inCase
  split
  · assumption
  · rfl

theorem holdsCases_inCase {n : Node} (h : n.Everywhere HoldsCases) : (inCase owner n).Everywhere HoldsCases := by
  unfold inCase
  split
  · exact h
  · refine Node.everywhere_iff.mpr ⟨fun hk => ?_, fun m hm => ?_⟩
    · cases hk
    · rwa [List.mem_singleton.mp hm]

/-- A node is no smaller in a case. -/
theorem sizeOf_le_inCase (owner : Name) (n : Node) : sizeOf n ≤ sizeOf (inCase owner n) := by
  unfold inCase
  split
  · exact Nat.le_refl _
  · simp only [Node.mk.sizeOf_spec, List.cons.sizeOf_spec]
    omega

theorem holdsCases_of_node (n : Node) {kind? : Option Kind} {name? : Option String} {d : Datum}
    (h : node owner kind? name? d = .ok n) : n.Everywhere HoldsCases := by
  obtain ⟨items, own, -, hown, hchildren⟩ := children_of_node h
  have hsize : ∀ m ∈ own, sizeOf m < sizeOf n := by
    intro m hm
    have hlt : ∀ c ∈ n.children, sizeOf c < sizeOf n := fun c hc => by
      have hlt := List.sizeOf_lt_of_mem hc
      obtain ⟨st, cs⟩ := n
      simp only [Node.mk.sizeOf_spec] at hlt ⊢
      omega
    rw [hchildren] at hlt
    split at hlt
    · exact Nat.lt_of_le_of_lt (sizeOf_le_inCase owner m) (hlt _ (List.mem_map_of_mem hm))
    · exact hlt m hm
  have hbelow : ∀ m ∈ own, m.Everywhere HoldsCases := by
    intro m hm
    obtain ⟨_, -, hd⟩ := exists_of_forall₂_right hown hm
    have := hsize m hm
    exact holdsCases_of_node m hd
  refine Node.everywhere_iff.mpr ⟨fun hk c hc => ?_, fun m hm => ?_⟩
  · rw [hchildren, if_pos hk] at hc
    obtain ⟨x, hx, rfl⟩ := List.mem_map.mp hc
    obtain ⟨m, -, rfl⟩ := List.mem_map.mp hx
    exact kind_inCase owner m
  · rw [hchildren] at hm
    split at hm
    · obtain ⟨x, hx, rfl⟩ := List.mem_map.mp hm
      exact holdsCases_inCase (hbelow x hx)
    · exact hbelow m hm
termination_by sizeOf n

theorem holdsCases_of_rpc {d : Datum} {n : Node} (h : rpc owner d = .ok n) : n.Everywhere HoldsCases := by
  have hkind : n.kind = .rpc := (rpc_ok h).2
  unfold rpc at h
  split at h
  · obtain ⟨n₁, hn₁, h⟩ := ok_of_bind h
    obtain ⟨input, hinput, h⟩ := ok_of_bind h
    obtain ⟨output, houtput, h⟩ := ok_of_bind h
    obtain rfl := Except.ok.inj h
    have hpayload : ∀ {kind ns} {x : Datum}, payload owner kind x = .ok ns → ∀ m ∈ ns, m.Everywhere HoldsCases := by
      intro kind ns x hx m hm
      exact holdsCases_of_node m (exists_node_of_payload hx m hm).2
    refine Node.everywhere_iff.mpr ⟨fun hk => ?_, fun m hm => ?_⟩
    · cases hkind.symm.trans hk
    · rcases List.mem_append.mp hm with hm | hm
      · rcases List.mem_append.mp hm with hm | hm
        · exact (Node.everywhere_iff.mp (holdsCases_of_node n₁ hn₁)).2 m hm
        · exact hpayload hinput m hm
      · exact hpayload houtput m hm
  · obtain ⟨_, -, h⟩ := ok_of_bind h
    cases h

theorem ReadAs.holdsCases {x : Datum} {n : Node} (h : ReadAs owner x n) : n.Everywhere HoldsCases := by
  cases h with
  | statement h => exact holdsCases_of_node n h
  | rpc h => exact holdsCases_of_rpc h

end Declaration

namespace Schema

variable {s declared : Schema} {augments : List Declaration.Augment}

/-- The children of every declared choice are cases. -/
theorem Stands.holdsCases {d : Datum} {modules : List Module}
    (h : Declaration.document d = .ok (modules, augments)) {n : Node} {a : Address}
    (hn : Stands ⟨modules⟩ (s.graftsAt augments) s n a) : n.Everywhere Declaration.HoldsCases := by
  obtain ⟨hmodules, haugments⟩ := Declaration.exists_gives_of_document h
  refine hn.everywhere (fun m hm part n hn => ?_) fun b n hn => ?_
  · obtain ⟨x, hx⟩ := hmodules m hm part n hn
    exact hx.readAs.holdsCases
  · obtain ⟨a, ha, hn⟩ := List.mem_flatMap.mp hn
    obtain ⟨m, -, hgives⟩ := haugments a (List.mem_filter.mp ha).1
    obtain ⟨x, hx⟩ := hgives n hn
    exact hx.readAs.holdsCases

/-! ### What is added -/

/-- Augments add nothing to choices and cases, as paths lead past them. -/
theorem graftsAt_eq_nil {p : Place} (hp : s.Has p) (hk : p.node.kind.isTransparent = true) :
    s.graftsAt augments p.address = [] := by
  refine List.flatMap_eq_nil_iff.mpr fun x hx => ?_
  obtain ⟨q, hq, haddress⟩ := Option.map_eq_some_iff.mp (eq_of_beq (List.mem_filter.mp hx).2)
  obtain ⟨path, -, hq⟩ := Option.bind_eq_some_iff.mp hq
  have htarget := isTarget_of_node? hq
  obtain rfl := htarget.has.eq hp haddress
  rw [htarget.visible] at hk
  cases hk

theorem forall_kind_of_sameStatements {l l' : List Statement} (h : SameStatements l l') :
    (∀ c ∈ l, c.kind = .case) ↔ ∀ c ∈ l', c.kind = .case := by
  have hkinds : l.map (·.kind) = l'.map (·.kind) := by
    have hmap := congrArg (List.map fun c : Statement => c.kind) h
    rwa [List.map_map, List.map_map] at hmap
  rw [← List.forall_mem_map (f := fun c : Statement => c.kind) (P := (· = .case)), hkinds, List.forall_mem_map]

/-- What a statement has from its `uses` are cases exactly if the groupings that it uses have only cases. -/
theorem forall_kind_suppliedBy {st : Statement} : (∀ c ∈ s.suppliedBy st, c.kind = .case) ↔
    ∀ ref ∈ st.uses, ∀ g, s.grouping? ref st.owner = some g → g.HasOnlyCases := by
  unfold suppliedBy
  simp only [List.forall_mem_flatMap]
  refine forall₂_congr fun ref _ => ?_
  cases s.grouping? ref st.owner with
  | none => simp
  | some g => simp [Place.HasOnlyCases, copyOf]

/-- A declared choice has only cases exactly if the groupings that it uses have only cases. -/
theorem IsExact.hasOnlyCases_iff_of_own {d : Datum} {modules : List Module} (h : IsExact ⟨modules⟩ augments s)
    (hdocument : Declaration.document d = .ok (modules, augments)) {p : Place} (hp : s.Has p)
    (htemplate : p.node.template = none) (hk : p.node.kind = .choice) : p.HasOnlyCases ↔
      ∀ ref ∈ p.node.uses, ∀ g, s.grouping? ref p.node.owner = some g → g.HasOnlyCases := by
  obtain ⟨n, hn, htop, hchildren⟩ := h.exists_stands hp htemplate
  have hdeclared : ∀ c ∈ Node.heads n.children, c.kind = .case :=
    (Node.everywhere_iff.mp (hn.holdsCases hdocument)).1 ((eq_of_erased (·.kind) (fun _ => rfl) htop).symm.trans hk)
  have huses : p.node.uses = n.uses := eq_of_erased (·.uses) (fun _ => rfl) htop
  rw [huses, owner_of_erased htop, ← forall_kind_suppliedBy, Place.hasOnlyCases_iff,
    forall_kind_of_sameStatements hchildren, graftsAt_eq_nil hp (by rw [hk]; rfl)]
  simp only [List.forall_mem_append]
  constructor
  · exact fun hall => hall.1.2
  · exact fun hsupplied => ⟨⟨hdeclared, hsupplied⟩, fun c hc => by cases hc⟩

/-- A copy of a choice has only cases exactly if what it is a copy of has only cases. -/
theorem IsExact.hasOnlyCases_iff_of_copy (h : IsExact declared augments s) {p t : Place} (hp : s.Has p)
    (ht : s.template? p = some t) (hk : p.node.kind = .choice) : p.HasOnlyCases ↔ t.HasOnlyCases := by
  have hsome : p.node.template.isSome = true := by
    obtain ⟨a, ha, -⟩ := Option.bind_eq_some_iff.mp ht
    rw [ha]
    rfl
  obtain ⟨t', ht', -, hchildren⟩ := h.copies hp hsome
  obtain rfl : t' = t := Option.some.inj (ht'.symm.trans ht)
  rw [Place.hasOnlyCases_iff, forall_kind_of_sameStatements hchildren, graftsAt_eq_nil hp (by rw [hk]; rfl)]
  simp [Place.HasOnlyCases, copyOf, Node.heads]

/-- A choice has only cases exactly if the groupings that the choice uses where it is declared have only cases. -/
theorem hasOnlyCases_iff_of_load {d : Datum} (h : (load d).result = .ok s) {p : Place} (hp : s.Has p)
    (hk : p.node.kind = .choice) : p.HasOnlyCases ↔ ∀ q, s.IsBehind q p → q.node.template = none →
      ∀ ref ∈ q.node.uses, ∀ g, s.grouping? ref q.node.owner = some g → g.HasOnlyCases := by
  obtain ⟨declared, M, hfrom⟩ := exists_loadedFrom h
  obtain ⟨modules, augments, hdocument, hexact⟩ := exists_isExact h
  refine hfrom.traced.induction (P := fun p => p.node.kind = .choice → (p.HasOnlyCases ↔ ∀ q, s.IsBehind q p →
    q.node.template = none → ∀ ref ∈ q.node.uses, ∀ g, s.grouping? ref q.node.owner = some g → g.HasOnlyCases))
    (fun p hp htemplate hk => ?_) (fun p t hp ht hcopy ih hk => ?_) hp hk
  · rw [hexact.hasOnlyCases_iff_of_own hdocument hp htemplate hk]
    refine ⟨fun hall q hq _ => ?_, fun hall => hall p .self htemplate⟩
    cases hq with
    | self => exact hall
    | step ht _ => rw [template?, htemplate] at ht; cases ht
  · rw [hexact.hasOnlyCases_iff_of_copy hp ht hk, ih (hcopy.copies.kind.symm.trans hk)]
    refine ⟨fun hall q hq hown => ?_, fun hall q hq hown => hall q (.step ht hq) hown⟩
    cases hq with
    | self => rw [template?, hown] at ht; cases ht
    | step ht' hq =>
      obtain rfl := Option.some.inj (ht'.symm.trans ht)
      exact hall q hq hown

end Schema

end RestconfApi
