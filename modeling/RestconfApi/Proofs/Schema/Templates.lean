import Mathlib.Data.List.Perm.Subperm
import RestconfApi.Proofs.Schema.Paths
import RestconfApi.Schema.Provenance

/-!
# Schema: chains of templates

The templates behind a node are looked up no further than the schema is large. When they are ranked, as
those of a loaded schema are, no chain comes back to where it was, so that this bound cuts none of them off.
-/

namespace RestconfApi

namespace Place

/-! ### All places -/

mutual

theorem length_ofTree (a : Address) (above : List Node) :
    ∀ n : Node, (ofTree a above n).length = n.size
  | ⟨s, cs⟩ => by
    rw [ofTree, List.length_cons, length_ofTrees a _ 0 cs, Node.size]

theorem length_ofTrees (a : Address) (above : List Node) (i : Nat) :
    ∀ ns : List Node, (ofTrees a above i ns).length = Node.sizeAll ns
  | [] => rfl
  | n :: ns => by
    rw [ofTrees, List.length_append, length_ofTree _ above n, length_ofTrees a above (i + 1) ns,
      Node.sizeAll]

end

theorem mem_ofTrees {a : Address} {above : List Node} {i : Nat} {ns : List Node} {x : Place} :
    x ∈ ofTrees a above i ns ↔ ∃ j n, ns[j]? = some n ∧ x ∈ ofTree (a.child (i + j)) above n := by
  induction ns generalizing i with
  | nil => simp [ofTrees]
  | cons n ns ih =>
    simp only [ofTrees, List.mem_append, ih]
    constructor
    · rintro (hx | ⟨j, m, hm, hx⟩)
      · exact ⟨0, n, rfl, hx⟩
      · exact ⟨j + 1, m, hm, by rwa [Nat.add_right_comm, Nat.add_assoc] at hx⟩
    · rintro ⟨j, m, hm, hx⟩
      cases j with
      | zero =>
        obtain rfl : n = m := by simpa using hm
        exact .inl hx
      | succ j => exact .inr ⟨j, m, hm, by rwa [Nat.add_right_comm, Nat.add_assoc]⟩

theorem ofTree_eq (a : Address) (above : List Node) (n : Node) :
    ofTree a above n = ⟨a, n, above⟩ :: ofTrees a (n :: above) 0 n.children := by
  obtain ⟨s, cs⟩ := n
  rw [ofTree]

theorem nodes_of_childAt? {p q : Place} {i : Nat} (h : p.childAt? i = some q) :
    ∀ x ∈ q.nodes, x ∈ p.nodes := by
  obtain ⟨n, hn, rfl⟩ := Option.map_eq_some_iff.mp h
  intro x hx
  rw [nodes, ofTree_eq]
  exact List.mem_cons_of_mem _ (mem_ofTrees.mpr ⟨i, n, hn, by rwa [Nat.zero_add]⟩)

/-- A property that is handed on to children is handed on to everything below. -/
theorem nodes_induction {P : Place → Prop} (hchild : ∀ p x i, P p → p.childAt? i = some x → P x) {p : Place}
    (hp : P p) : ∀ x ∈ p.nodes, P x := by
  induction hn : sizeOf p.node using Nat.strongRecOn generalizing p with
  | _ n ih =>
    subst hn
    intro x hx
    rw [nodes, ofTree_eq] at hx
    rcases List.mem_cons.mp hx with rfl | hx
    · exact hp
    · obtain ⟨j, m, hm, hx⟩ := mem_ofTrees.mp hx
      rw [Nat.zero_add] at hx
      have hchildAt : p.childAt? j = some ⟨p.address.child j, m, p.node :: p.above⟩ := by
        rw [childAt?, hm]
        rfl
      exact ih _ (sizeOf_lt_of_childAt? hchildAt) (hchild _ _ _ hp hchildAt) rfl x hx

theorem self_mem_nodes (p : Place) : p ∈ p.nodes := by
  rw [nodes, ofTree_eq]
  exact List.mem_cons_self

theorem mem_nodes_of_descend {is : List Nat} {p q : Place} (h : descend is p = some q) :
    q ∈ p.nodes := by
  induction is generalizing p with
  | nil =>
    obtain rfl := Option.some.inj h
    exact p.self_mem_nodes
  | cons i is ih =>
    simp only [descend] at h
    split at h
    · rename_i n hn
      exact nodes_of_childAt? (i := i) (by rw [childAt?, hn]; rfl) q (ih h)
    · simp at h

end Place

namespace Schema

variable {s : Schema}

/-- The places of all statements of a module, part by part. -/
def placesOf (m : Module) (i : Nat) : List Place :=
  Place.ofTrees (Address.top i .data) [] 0 m.data ++
    (Place.ofTrees (Address.top i .rpcs) [] 0 m.rpcs ++
      Place.ofTrees (Address.top i .groupings) [] 0 m.groupings)

theorem length_flatMap_placesOf (ms : List Module) (i n : Nat) :
    n + ((ms.zipIdx i).flatMap fun (m, i) => placesOf m i).length =
      ms.foldl (fun n m => n + Node.sizeAll m.data + Node.sizeAll m.rpcs + Node.sizeAll m.groupings) n := by
  induction ms generalizing i n with
  | nil => rfl
  | cons m ms ih =>
    rw [List.zipIdx_cons, List.flatMap_cons, List.length_append, List.foldl_cons, ← ih (i + 1)]
    simp only [placesOf, List.length_append, Place.length_ofTrees]
    omega

/-- The places of a schema, of which there are as many as its size says. -/
def places (s : Schema) : List Place := s.modules.zipIdx.flatMap fun (m, i) => placesOf m i

theorem length_places (s : Schema) : s.places.length = s.size := by
  have := length_flatMap_placesOf s.modules 0 0
  rwa [Nat.zero_add] at this

theorem Has.mem_places {p : Place} (h : s.Has p) : p ∈ s.places := by
  rw [Has] at h
  generalize p.address = a at h
  obtain ⟨i, part, path⟩ := a
  simp only [place?, Option.bind_eq_bind, Option.bind_eq_some_iff] at h
  obtain ⟨m, hm, h⟩ := h
  refine List.mem_flatMap.mpr ⟨(m, i), List.mem_zipIdx_iff_getElem?.mpr hm, ?_⟩
  cases path with
  | nil => simp at h
  | cons j js =>
    simp only [Option.bind_eq_some_iff] at h
    obtain ⟨n, hn, h⟩ := h
    have hmem : p ∈ Place.ofTrees (Address.top i part) [] 0 (m.part part) :=
      Place.mem_ofTrees.mpr ⟨j, n, hn, by rw [Nat.zero_add]; exact Place.mem_nodes_of_descend h⟩
    simp only [placesOf, List.mem_append]
    cases part with
    | data => exact .inl hmem
    | rpcs => exact .inr (.inl hmem)
    | groupings => exact .inr (.inr hmem)

/-- What stands below a top statement is of its part of its module. -/
theorem of_mem_nodes {i : Nat} {part : Part} {top x : Place} (htop : top ∈ s.tops i part) (hx : x ∈ top.nodes) :
    s.Has x ∧ x.address.module = i ∧ x.address.part = part ∧ x.top = top.node := by
  obtain ⟨j, hj⟩ := address_of_mem_tops htop
  have hself : top.top = top.node := by rw [Place.top, above_of_mem_tops htop]; rfl
  refine Place.nodes_induction (P := fun x => s.Has x ∧ x.address.module = i ∧ x.address.part = part ∧
    x.top = top.node) (fun q y k h hy => ?_) ⟨has_of_mem_tops htop, by rw [hj], by rw [hj], hself⟩ x hx
  obtain ⟨hq, hmodule, hpart, hqtop⟩ := h
  rw [Place.address_of_childAt? hy, Place.top_of_childAt? hy]
  exact ⟨hq.childAt? hy, hmodule, hpart, hqtop⟩

/-- Each node stands below a top statement. -/
theorem Has.exists_top {p : Place} (h : s.Has p) :
    ∃ top ∈ s.tops p.address.module p.address.part, p ∈ top.nodes := by
  refine Has.induction (P := fun p => ∃ top ∈ s.tops p.address.module p.address.part, p ∈ top.nodes)
    (fun i part p hp => ?_) (fun q x i _ ⟨top, htop, hq⟩ hx => ?_) h
  · obtain ⟨j, hj⟩ := address_of_mem_tops hp
    exact ⟨p, by rwa [hj], p.self_mem_nodes⟩
  · rw [Place.address_of_childAt? hx]
    refine ⟨top, htop, ?_⟩
    exact Place.nodes_induction (P := fun q => ∀ x ∈ q.nodes, x ∈ top.nodes)
      (fun q y k hq hy x hx => hq x (Place.nodes_of_childAt? hy x hx)) (fun _ h => h) q hq x
      (Place.nodes_of_childAt? hx x x.self_mem_nodes)

/-! ### Ranked templates -/

/-- The node that a copy was made from. -/
def template? (s : Schema) (p : Place) : Option Place := p.node.template.bind s.place?

theorem has_of_template? {p t : Place} (h : s.template? p = some t) : s.Has t := by
  obtain ⟨a, -, ha⟩ := Option.bind_eq_some_iff.mp h
  exact has_of_place? ha

/-- The templates can be ranked: that of a node comes before it. -/
def Ranked (s : Schema) : Prop :=
  ∃ rank : Address → Nat, ∀ p t, s.Has p → s.template? p = some t → rank t.address < rank p.address

theorem templatesFrom_succ (fuel : Nat) (p : Place) :
    s.templatesFrom (fuel + 1) p =
      match s.template? p with
      | some t => t :: s.templatesFrom fuel t
      | none => [] := rfl

theorem templatesFrom_succ_eq {fuel : Nat} {p : Place} (h : (s.templatesFrom fuel p).length < fuel) :
    s.templatesFrom (fuel + 1) p = s.templatesFrom fuel p := by
  induction fuel generalizing p with
  | zero => simp at h
  | succ fuel ih =>
    rw [templatesFrom_succ] at h ⊢
    rw [templatesFrom_succ]
    cases ht : s.template? p with
    | none => rfl
    | some t =>
      simp only [ht, List.length_cons, Nat.add_lt_add_iff_right] at h ⊢
      rw [ih h]

theorem rank_lt_of_mem_templatesFrom {rank : Address → Nat}
    (hrank : ∀ p t, s.Has p → s.template? p = some t → rank t.address < rank p.address) {fuel : Nat}
    {p t : Place} (hp : s.Has p) (ht : t ∈ s.templatesFrom fuel p) : rank t.address < rank p.address := by
  induction fuel generalizing p with
  | zero => simp [templatesFrom] at ht
  | succ fuel ih =>
    rw [templatesFrom_succ] at ht
    cases hq : s.template? p with
    | none => simp [hq] at ht
    | some q =>
      rw [hq] at ht
      have hlt := hrank p q hp hq
      rcases List.mem_cons.mp ht with rfl | ht
      · exact hlt
      · exact Nat.lt_trans (ih (has_of_template? hq) ht) hlt

theorem nodup_templatesFrom (hs : s.Ranked) {p : Place} (hp : s.Has p) (fuel : Nat) :
    (p :: s.templatesFrom fuel p).Nodup := by
  obtain ⟨rank, hrank⟩ := hs
  induction fuel generalizing p with
  | zero => simp [templatesFrom]
  | succ fuel ih =>
    refine List.nodup_cons.mpr ⟨fun hmem => ?_, ?_⟩
    · exact absurd (rank_lt_of_mem_templatesFrom hrank hp hmem) (Nat.lt_irrefl _)
    · rw [templatesFrom_succ]
      cases hq : s.template? p with
      | none => exact List.nodup_nil
      | some q => exact ih (has_of_template? hq)

theorem length_templatesFrom_lt (hs : s.Ranked) {p : Place} (hp : s.Has p) (fuel : Nat) :
    (s.templatesFrom fuel p).length < s.size := by
  have hsub : p :: s.templatesFrom fuel p ⊆ s.places := by
    intro x hx
    rcases List.mem_cons.mp hx with rfl | hx
    · exact hp.mem_places
    · exact (has_of_mem_templatesFrom hx).mem_places
  have := ((nodup_templatesFrom hs hp fuel).subperm hsub).length_le
  rwa [length_places] at this

/-- The bound on chains cuts none of them off: behind a node there are its template and what is behind
that. -/
theorem templates_eq (hs : s.Ranked) {p : Place} (hp : s.Has p) :
    s.templates p =
      match s.template? p with
      | some t => t :: s.templates t
      | none => [] := by
  have h := templatesFrom_succ_eq (length_templatesFrom_lt hs hp s.size)
  rw [templates, ← h, templatesFrom_succ]
  rfl

theorem templates_of_template? (hs : s.Ranked) {p t : Place} (hp : s.Has p)
    (ht : s.template? p = some t) : s.templates p = t :: s.templates t := by
  rw [templates_eq hs hp, ht]

theorem templates_of_none (hs : s.Ranked) {p : Place} (hp : s.Has p) (ht : s.template? p = none) :
    s.templates p = [] := by
  rw [templates_eq hs hp, ht]

/-- The templates behind a template are the last ones of the chain. -/
theorem templates_suffix (hs : s.Ranked) {p t : Place} (hp : s.Has p) (ht : t ∈ p :: s.templates p) :
    t :: s.templates t <:+ p :: s.templates p := by
  obtain ⟨rank, hrank⟩ := id hs
  induction hn : rank p.address using Nat.strongRecOn generalizing p with
  | _ n ih =>
    subst hn
    rcases List.mem_cons.mp ht with rfl | ht
    · exact List.suffix_refl _
    · cases hq : s.template? p with
      | none => simp [templates_of_none hs hp hq] at ht
      | some q =>
        rw [templates_of_template? hs hp hq] at ht ⊢
        exact (ih _ (hrank p q hp hq) (has_of_template? hq) ht rfl).trans (List.suffix_cons _ _)

end Schema

end RestconfApi
