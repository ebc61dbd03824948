import RestconfApi.Proofs.Schema.Places

/-!
# Schema: the nodes around a place and the nodes that paths lead to

A place that stands below others is a child of the place around it. A path that starts at the top of a module
leads to data nodes, rpcs and their payloads, never to a choice or a case and never into the body of a grouping.
-/

namespace RestconfApi

namespace Place

theorem part_of_childAt? {p x : Place} {i : Nat} (h : p.childAt? i = some x) :
    x.address.part = p.address.part := by
  obtain ⟨n, -, rfl⟩ := Option.map_eq_some_iff.mp h
  rfl

theorem address_of_childAt? {p x : Place} {i : Nat} (h : p.childAt? i = some x) :
    x.address = p.address.child i := by
  obtain ⟨n, -, rfl⟩ := Option.map_eq_some_iff.mp h
  rfl

theorem above_of_childAt? {p x : Place} {i : Nat} (h : p.childAt? i = some x) :
    x.above = p.node :: p.above := by
  obtain ⟨n, -, rfl⟩ := Option.map_eq_some_iff.mp h
  rfl

theorem Through.part_eq {p q : Place} (h : p.Through q) : q.address.part = p.address.part := by
  induction h with
  | self => rfl
  | step _ hc _ ih => rw [part_of_childAt? hc, ih]

theorem part_of_mem_dataChildren {p x : Place} (h : x ∈ p.dataChildren) :
    x.address.part = p.address.part := by
  obtain ⟨q, i, hq, hx, -⟩ := mem_dataChildren.mp h
  rw [part_of_childAt? hx, hq.part_eq]

theorem isTransparent_of_mem_dataChildren {p x : Place} (h : x ∈ p.dataChildren) :
    x.node.kind.isTransparent = false := by
  obtain ⟨-, -, -, -, ht⟩ := mem_dataChildren.mp h
  exact ht

end Place

namespace Schema

variable {s : Schema}

/-! ### The place around -/

theorem address_of_mem_tops {i : Nat} {part : Part} {p : Place} (h : p ∈ s.tops i part) :
    ∃ j, p.address = ⟨i, part, [j]⟩ := by
  rw [tops] at h
  split at h
  · obtain ⟨j, -, -, rfl⟩ := Place.mem_ofChildren.mp h
    exact ⟨0 + j, rfl⟩
  · simp at h

theorem part_of_mem_tops {i : Nat} {part : Part} {p : Place} (h : p ∈ s.tops i part) :
    p.address.part = part := by
  obtain ⟨j, hj⟩ := address_of_mem_tops h
  rw [hj]

theorem exists_module_of_mem_tops {i : Nat} {part : Part} {p : Place} (h : p ∈ s.tops i part) :
    ∃ m, s.modules[i]? = some m := by
  rw [tops] at h
  split at h
  · exact ⟨_, ‹_›⟩
  · simp at h

theorem above_of_mem_tops {i : Nat} {part : Part} {p : Place} (h : p ∈ s.tops i part) : p.above = [] := by
  rw [tops] at h
  split at h
  · obtain ⟨j, -, -, rfl⟩ := Place.mem_ofChildren.mp h
    rfl
  · simp at h

/-- The trees of the part of a module that a place is in. -/
theorem Has.cases {p : Place} (h : s.Has p) :
    ∃ m j n is, s.modules[p.address.module]? = some m ∧ (m.part p.address.part)[j]? = some n ∧
      p.address.path = j :: is ∧
      Place.descend is ⟨⟨p.address.module, p.address.part, [j]⟩, n, []⟩ = some p := by
  rw [Has] at h
  generalize hp : p.address = a at h
  obtain ⟨i, part, path⟩ := a
  simp only [place?, Option.bind_eq_bind, Option.bind_eq_some_iff] at h
  obtain ⟨m, hm, h⟩ := h
  cases path with
  | nil => cases h
  | cons j is =>
    simp only [Option.bind_eq_some_iff] at h
    obtain ⟨n, hn, h⟩ := h
    exact ⟨m, j, n, is, hm, hn, rfl, h⟩

theorem Has.descend {p q : Place} (hp : s.Has p) {is : List Nat} (h : Place.descend is p = some q) :
    s.Has q := by
  induction is generalizing p with
  | nil =>
    obtain rfl := Option.some.inj h
    exact hp
  | cons i is ih =>
    rw [← List.singleton_append, Place.descend_append] at h
    obtain ⟨r, hr, h⟩ := Option.bind_eq_some_iff.mp h
    rw [Place.descend_singleton] at hr
    exact ih (hp.childAt? hr) h

/-- What stands nowhere below is a top statement, and everything else a child of the place around. -/
theorem Has.top_or_child {p : Place} (hp : s.Has p) :
    p.above = [] ∧ p ∈ s.tops p.address.module p.address.part ∨ ∃ q i, s.Has q ∧ q.childAt? i = some p := by
  obtain ⟨m, j, n, is, hm, hn, -, h⟩ := hp.cases
  have htop : (⟨⟨p.address.module, p.address.part, [j]⟩, n, []⟩ : Place) ∈
      s.tops p.address.module p.address.part := by
    rw [tops, hm]
    exact Place.mem_ofChildren.mpr ⟨j, n, hn, by simp [Address.child, Address.top]⟩
  rcases List.eq_nil_or_concat is with rfl | ⟨js, i, rfl⟩
  · have heq := Option.some.inj h
    rw [heq] at htop
    exact .inl ⟨heq ▸ rfl, htop⟩
  · rw [List.concat_eq_append, Place.descend_append] at h
    obtain ⟨q, hq, h⟩ := Option.bind_eq_some_iff.mp h
    rw [Place.descend_singleton] at h
    exact .inr ⟨q, i, (has_of_mem_tops htop).descend hq, h⟩

theorem Has.exists_parent {p : Place} (hp : s.Has p) {n : Node} {above : List Node}
    (h : p.above = n :: above) :
    ∃ q i, s.Has q ∧ q.childAt? i = some p ∧ q.node = n ∧ q.above = above := by
  rcases hp.top_or_child with ⟨hnil, -⟩ | ⟨q, i, hq, hi⟩
  · rw [h] at hnil
    cases hnil
  · obtain ⟨rfl, rfl⟩ := List.cons.inj ((Place.above_of_childAt? hi).symm.trans h)
    exact ⟨q, i, hq, hi, rfl, rfl⟩

/-- A property that holds of the top statements and is handed on to children holds of all places. -/
theorem Has.induction {P : Place → Prop} (htop : ∀ i part, ∀ p ∈ s.tops i part, P p)
    (hchild : ∀ p x i, s.Has p → P p → p.childAt? i = some x → P x) {p : Place} (hp : s.Has p) : P p := by
  induction habove : p.above generalizing p with
  | nil =>
    rcases hp.top_or_child with ⟨-, hmem⟩ | ⟨q, i, -, hi⟩
    · exact htop _ _ p hmem
    · rw [Place.above_of_childAt? hi] at habove
      cases habove
  | cons n above ih =>
    obtain ⟨q, i, hq, hi, -, hqabove⟩ := hp.exists_parent habove
    exact hchild q p i hq (ih hq hqabove) hi

/-! ### Paths -/

/-- Where a path may lead to: a place outside the groupings that is neither a choice nor a case. -/
structure IsTarget (s : Schema) (p : Place) : Prop where
  has : s.Has p
  part : p.address.part ≠ .groupings
  visible : p.node.kind.isTransparent = false

theorem take_of_child {path js : List Nat} {i k : Nat} (hk : k ≤ path.length)
    (h : js ++ [i] = path.take k) : js = path.take (k - 1) := by
  have hlen := congrArg List.length h
  rw [List.length_append, List.length_singleton, List.length_take, Nat.min_eq_left hk] at hlen
  have htake := congrArg (List.take js.length) h
  rw [List.take_left', List.take_take, Nat.min_eq_left (by omega)] at htake
  · rw [htake]
    congr 1
    omega
  · rfl

/-- The nearest node around a place that is no choice and no case stands in the same part. -/
theorem has_of_enclosing? {a : Address} {p q : Place} {above : List Node} {levels : Nat}
    (hp : s.Has p) (habove : p.above = above)
    (haddr : p.address = { a with path := a.path.take (a.path.length - levels) })
    (h : Place.enclosing? a above levels = some q) :
    s.Has q ∧ q.address.part = a.part ∧ q.node.kind.isTransparent = false := by
  induction above generalizing p levels with
  | nil => cases h
  | cons n above ih =>
    obtain ⟨r, i, hr, hi, rfl, hrabove⟩ := hp.exists_parent habove
    have hraddr : r.address = { a with path := a.path.take (a.path.length - (levels + 1)) } := by
      have hchild := (Place.address_of_childAt? hi).symm.trans haddr
      obtain ⟨m, part, path⟩ := a
      generalize r.address = b at hchild
      obtain ⟨m', part', js⟩ := b
      obtain ⟨rfl, rfl, hpath⟩ := Address.mk.inj hchild
      have hjs := take_of_child (Nat.sub_le path.length levels) hpath
      rw [Nat.sub_sub] at hjs
      simpa using hjs
    unfold Place.enclosing? at h
    split at h
    · exact ih hr hrabove hraddr h
    · rename_i hvisible
      obtain rfl := Option.some.inj h
      have heq : (⟨{ a with path := a.path.take (a.path.length - (levels + 1)) }, r.node, above⟩ : Place) = r := by
        rw [← hraddr, ← hrabove]
      rw [heq]
      exact ⟨hr, by rw [hraddr], by simpa using hvisible⟩

theorem has_of_dataParent? {p q : Place} (hp : s.Has p) (h : p.dataParent? = some q) :
    s.Has q ∧ q.address.part = p.address.part ∧ q.node.kind.isTransparent = false :=
  has_of_enclosing? hp rfl (by simp) h

/-- What the top statements of a part stand for in instance data. -/
theorem has_of_mem_dataOfAll {i : Nat} {m : Module} (hm : s.modules[i]? = some m) {part : Part} {p : Place}
    (h : p ∈ Place.dataOfAll (Address.top i part) [] 0 (m.part part)) :
    s.Has p ∧ p.address.part = part ∧ p.node.kind.isTransparent = false := by
  obtain ⟨j, n, hn, h⟩ := Place.mem_dataOfAll.mp h
  have hhas : s.Has ⟨(Address.top i part).child (0 + j), n, []⟩ :=
    has_of_mem_part hm (Place.mem_ofChildren.mpr ⟨j, n, hn, rfl⟩)
  rw [Place.dataOf_eq] at h
  split at h
  · have hmem : p ∈ Place.dataChildren ⟨(Address.top i part).child (0 + j), n, []⟩ := h
    exact ⟨hhas.dataChild hmem, Place.part_of_mem_dataChildren hmem, Place.isTransparent_of_mem_dataChildren hmem⟩
  · rename_i hvisible
    obtain rfl := List.mem_singleton.mp h
    exact ⟨hhas, rfl, by simpa using hvisible⟩

/-! ### What holds along a path -/

/-- A property that paths hand on: it holds of the data nodes and rpcs at the top, and with a node of the data nodes
below and around it. -/
structure Lasts (s : Schema) (P : Place → Prop) : Prop where
  top : ∀ {i : Nat} {m : Module} {part : Part} {p : Place}, s.modules[i]? = some m → part ≠ .groupings →
    p ∈ Place.dataOfAll (Address.top i part) [] 0 (m.part part) → P p
  child : ∀ {p q : Place}, P p → q ∈ p.dataChildren → P q
  parent : ∀ {p q : Place}, P p → p.dataParent? = some q → P q

section Lasts

variable {P : Place → Prop} (hP : s.Lasts P)
include hP

theorem Lasts.topNamed? {i : Nat} {m : Module} (hm : s.modules[i]? = some m) {name : Name} {p : Place}
    (h : m.topNamed? i name = some p) : P p := by
  unfold Module.topNamed? at h
  split at h
  · rename_i q hq
    obtain rfl : q = p := Option.some.inj h
    have hmem : q ∈ Place.dataOfAll (Address.top i .data) [] 0 (m.part .data) := List.mem_of_find?_eq_some hq
    exact hP.top hm (by simp) hmem
  · have hmem : p ∈ Place.dataOfAll (Address.top i .rpcs) [] 0 (m.part .rpcs) := List.mem_of_find?_eq_some h
    exact hP.top hm (by simp) hmem

theorem Lasts.step? {owner : Name} {step : String} {current : Option Place} {p : Place}
    (hcurrent : ∀ q, current = some q → P q) (h : s.step? owner step current = some p) : P p := by
  unfold Schema.step? at h
  split at h
  · obtain ⟨q, hq, h⟩ := Option.bind_eq_some_iff.mp h
    exact hP.parent (hcurrent q hq) h
  · cases current with
    | some q => exact hP.child (hcurrent q rfl) (List.mem_of_find?_eq_some h)
    | none =>
      dsimp only at h
      generalize (if (splitName step).1 = "" then owner else Datum.text (splitName step).1) = tag at h
      split at h
      · cases h
      · obtain ⟨⟨m, i⟩, hm, h⟩ := Option.bind_eq_some_iff.mp h
        exact hP.topNamed? (mem_of_moduleByPrefix? hm) h

theorem Lasts.follow {owner : Name} {steps : List String} {current : Option Place} {p : Place}
    (hcurrent : ∀ q, current = some q → P q) (h : s.follow owner steps current = some p) : P p := by
  induction steps generalizing current with
  | nil => exact hcurrent p h
  | cons step steps ih =>
    unfold Schema.follow at h
    dsimp only at h
    split at h
    · exact ih hcurrent h
    · split at h
      · rename_i q hq
        refine ih (fun r hr => ?_) h
        obtain rfl := Option.some.inj hr
        exact hP.step? hcurrent hq
      · cases h

theorem Lasts.node? {path : String} {context : Option Place} {p : Place} (hcontext : ∀ q, context = some q → P q)
    (h : s.node? path context = some p) : P p := by
  unfold Schema.node? at h
  dsimp only at h
  split at h
  · exact hP.follow (by simp) h
  · cases context with
    | some q => exact hP.follow hcontext h
    | none => cases h

end Lasts

theorem lasts_has : s.Lasts s.Has where
  top hm _ h := (has_of_mem_dataOfAll hm h).1
  child hp h := hp.dataChild h
  parent hp h := (has_of_dataParent? hp h).1

theorem lasts_isTarget : s.Lasts (IsTarget s) where
  top hm hpart h := by
    obtain ⟨hhas, rfl, hvisible⟩ := has_of_mem_dataOfAll hm h
    exact ⟨hhas, hpart, hvisible⟩
  child hp h := ⟨hp.has.dataChild h, by rw [Place.part_of_mem_dataChildren h]; exact hp.part,
    Place.isTransparent_of_mem_dataChildren h⟩
  parent hp h := by
    obtain ⟨hhas, hpart, hvisible⟩ := has_of_dataParent? hp.has h
    exact ⟨hhas, hpart ▸ hp.part, hvisible⟩

/-- From outside the groupings no path leads into them, and none leads to a choice or a case. -/
theorem isTarget_of_node? {path : String} {p : Place} (h : s.node? path none = some p) : IsTarget s p :=
  lasts_isTarget.node? (by simp) h

/-- A path leads from a node of the schema to nodes of the schema. -/
theorem Has.of_node? {path : String} {p q : Place} (hp : s.Has p) (h : s.node? path (some p) = some q) : s.Has q :=
  lasts_has.node? (fun _ hr => Option.some.inj hr ▸ hp) h

end Schema

end RestconfApi
