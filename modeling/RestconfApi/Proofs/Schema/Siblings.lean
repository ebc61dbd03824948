import Mathlib.Data.List.Pairwise
import RestconfApi.Proofs.Schema.Suppliers

/-!
# Schema: nodes beside each other

In data a node stands among the children of the nearest node around that is no choice and no case, or else among the
top nodes of its module, which the module owns.
-/

namespace RestconfApi

namespace Schema

/-- Nodes that stand beside each other in data have different names or owners. -/
def AreDistinct (ps : List Place) : Prop :=
  ps.Pairwise fun x y => ¬(x.node.owner = y.node.owner ∧ x.node.name = y.node.name)

theorem AreDistinct.eq {ps : List Place} (h : AreDistinct ps) {x y : Place} (hx : x ∈ ps) (hy : y ∈ ps)
    (howner : x.node.owner = y.node.owner) (hname : x.node.name = y.node.name) : x = y := by
  have hsymm : Std.Symm fun x y : Place => ¬(x.node.owner = y.node.owner ∧ x.node.name = y.node.name) :=
    ⟨fun _ _ h h' => h ⟨h'.1.symm, h'.2.symm⟩⟩
  by_contra hne
  exact h.forall hx hy hne ⟨howner, hname⟩

/-- Nodes that stand beside each other in data have different local names. -/
def AreUnlike (ps : List Place) : Prop := ps.Pairwise fun x y => x.node.name ≠ y.node.name

theorem AreUnlike.areDistinct {ps : List Place} (h : AreUnlike ps) : AreDistinct ps :=
  List.Pairwise.imp (fun hne hsame => hne hsame.2) h

theorem AreUnlike.eq {ps : List Place} (h : AreUnlike ps) {x y : Place} (hx : x ∈ ps) (hy : y ∈ ps)
    (hname : x.node.name = y.node.name) : x = y := by
  have hsymm : Std.Symm fun x y : Place => x.node.name ≠ y.node.name := ⟨fun _ _ h h' => h h'.symm⟩
  by_contra hne
  exact h.forall hx hy hne hname

theorem areUnlike_of_nodup {ps : List Place} (h : (ps.map (·.node.name.wording)).Nodup) : AreUnlike ps :=
  (List.pairwise_map.mp h).imp fun hne hsame => hne (congrArg Datum.wording hsame)

theorem areDistinct_of_qnames {ps : List Place} (h : (ps.map (·.node.qname)).Nodup) : AreDistinct ps :=
  (List.pairwise_map.mp h).imp fun hne hsame => hne (by rw [Statement.qname, Statement.qname, hsame.1, hsame.2])

variable {s : Schema}

/-! ### The nodes around in data -/

/-- What a place stands for in data is among `ps`. -/
def StandsAmong (ps : List Place) (p : Place) : Prop :=
  (p.node.kind.isTransparent = false → p ∈ ps) ∧
    (p.node.kind.isTransparent = true → ∀ x ∈ p.dataChildren, x ∈ ps)

/-- What stands below a choice or a case stands where that does. -/
theorem StandsAmong.childAt? {ps : List Place} {p x : Place} {i : Nat} (h : StandsAmong ps p)
    (hk : p.node.kind.isTransparent = true) (hx : p.childAt? i = some x) : StandsAmong ps x := by
  obtain ⟨hself, hbelow⟩ := Place.mem_dataChildren_of_childAt? hx
  exact ⟨fun hxk => h.2 hk x (hself hxk), fun hxk y hy => h.2 hk y (hbelow hxk y hy)⟩

/-- A top node stands among the data of its module. -/
theorem standsAmong_of_mem_tops {i : Nat} {part : Part} {p : Place} (hp : p ∈ s.tops i part) :
    ∃ m, s.modules[i]? = some m ∧ StandsAmong (Place.dataOfAll (Address.top i part) [] 0 (m.part part)) p := by
  rw [tops] at hp
  split at hp
  · rename_i m hm
    obtain ⟨k, n, hn, rfl⟩ := Place.mem_ofChildren.mp hp
    refine ⟨m, hm, fun hk => ?_, fun hk x hx => ?_⟩
    · refine Place.mem_dataOfAll.mpr ⟨k, n, hn, ?_⟩
      rw [Place.dataOf_eq, if_neg (by simpa using hk)]
      exact List.mem_singleton.mpr rfl
    · refine Place.mem_dataOfAll.mpr ⟨k, n, hn, ?_⟩
      rw [Place.dataOf_eq, if_pos (by simpa using hk)]
      exact hx
  · simp at hp

/-- A node stands among the data of its module, or among the data children of the nearest node around that is
no choice and no case. -/
theorem Has.standsAmong {p : Place} (hp : s.Has p) :
    (∃ m, s.modules[p.address.module]? = some m ∧ (∀ n ∈ p.above, n.kind.isTransparent = true) ∧
      StandsAmong (Place.dataOfAll (Address.top p.address.module p.address.part) [] 0
        (m.part p.address.part)) p) ∨
    ∃ q between, s.Has q ∧ q.node.kind.isTransparent = false ∧ StandsAmong q.dataChildren p ∧
      p.address.module = q.address.module ∧ p.address.part = q.address.part ∧
      p.above = between ++ q.node :: q.above ∧ ∀ n ∈ between, n.kind.isTransparent = true := by
  refine Has.induction (P := fun p => (∃ m, s.modules[p.address.module]? = some m ∧
    (∀ n ∈ p.above, n.kind.isTransparent = true) ∧ StandsAmong (Place.dataOfAll
      (Address.top p.address.module p.address.part) [] 0 (m.part p.address.part)) p) ∨
    ∃ q between, s.Has q ∧ q.node.kind.isTransparent = false ∧ StandsAmong q.dataChildren p ∧
      p.address.module = q.address.module ∧ p.address.part = q.address.part ∧
      p.above = between ++ q.node :: q.above ∧ ∀ n ∈ between, n.kind.isTransparent = true)
    (fun i part p hp => ?_) (fun p x i hp ih hx => ?_) hp
  · obtain ⟨j, haddr⟩ := address_of_mem_tops hp
    obtain ⟨m, hm, hamong⟩ := standsAmong_of_mem_tops hp
    rw [haddr]
    exact .inl ⟨m, hm, by simp [above_of_mem_tops hp], hamong⟩
  · have hamong : StandsAmong p.dataChildren x := Place.mem_dataChildren_of_childAt? hx
    have hpart := Place.part_of_childAt? hx
    have haddr := Place.address_of_childAt? hx
    have hmodule : x.address.module = p.address.module := by rw [haddr]; rfl
    have habove := Place.above_of_childAt? hx
    cases hk : p.node.kind.isTransparent with
    | false =>
      exact .inr ⟨p, [], hp, hk, hamong, hmodule, hpart, habove, by simp⟩
    | true =>
      rcases ih with ⟨m, hm, htransparent, h⟩ | ⟨q, between, hq, hqk, h, hqm, hqp, hqabove, htransparent⟩
      · rw [← hmodule, ← hpart] at h
        rw [← hmodule] at hm
        rw [habove]
        exact .inl ⟨m, hm, List.forall_mem_cons.mpr ⟨hk, htransparent⟩, h.childAt? hk hx⟩
      · refine .inr ⟨q, p.node :: between, hq, hqk, h.childAt? hk hx, hmodule.trans hqm, hpart.trans hqp, ?_, ?_⟩
        · rw [habove, hqabove]
          rfl
        · exact List.forall_mem_cons.mpr ⟨hk, htransparent⟩

/-- The nodes around a place stand in the schema, too. -/
theorem Has.exists_of_mem_above {p : Place} (hp : s.Has p) {n : Node} (hn : n ∈ p.above) :
    ∃ q, s.Has q ∧ q.node = n ∧ q.address.part = p.address.part := by
  induction habove : p.above generalizing p with
  | nil => simp [habove] at hn
  | cons m above ih =>
    obtain ⟨q, i, hq, hi, rfl, hqabove⟩ := hp.exists_parent habove
    have hpart := Place.part_of_childAt? hi
    rw [habove] at hn
    rcases List.mem_cons.mp hn with rfl | hn
    · exact ⟨q, hq, rfl, hpart.symm⟩
    · obtain ⟨r, hr, hrn, hrpart⟩ := ih hq (hqabove ▸ hn) hqabove
      exact ⟨r, hr, hrn, hrpart.trans hpart.symm⟩

/-! ### Owners -/

theorem LoadedFrom.owner_of_mem_dataOfAll {augmented : Prop} {declared : Schema}
    {M : Expansion.Expanded} (h : LoadedFrom augmented declared M s) {i : Nat} {m : Module}
    (hm : s.modules[i]? = some m) {x : Place}
    (hx : x ∈ Place.dataOfAll (Address.top i .data) [] 0 m.data) : x.node.owner = m.name := by
  obtain ⟨j, n, hn, hx⟩ := Place.mem_dataOfAll.mp hx
  have hmem : (⟨(Address.top i .data).child (0 + j), n, []⟩ : Place) ∈ s.tops i .data := by
    rw [Schema.tops, hm]
    exact Place.mem_ofChildren.mpr ⟨j, n, hn, rfl⟩
  have hp := has_of_mem_tops hmem
  have howner := h.owner_of_mem_tops hm hmem
  rw [Place.dataOf_eq] at hx
  split at hx
  · rename_i hk
    -- whatever choices and cases stand between has the owner of the one around
    have hchild : ∀ {q : Place}, Place.Through ⟨(Address.top i .data).child (0 + j), n, []⟩ q →
        q.node.kind.isTransparent = true ∧ q.node.owner = m.name := by
      intro q hq
      induction hq with
      | self => exact ⟨hk, howner⟩
      | step hq hx ht ih => exact ⟨ht, (h.traced.owner (hp.through hq) (fun _ => ih.1) hx).trans ih.2⟩
    obtain ⟨q, k, hq, hx, -⟩ := Place.mem_dataChildren (p := ⟨(Address.top i .data).child (0 + j), n, []⟩)|>.mp hx
    exact (h.traced.owner (hp.through hq) (fun _ => (hchild hq).1) hx).trans (hchild hq).2
  · rw [List.mem_singleton.mp hx]
    exact howner

end Schema

end RestconfApi
