import RestconfApi.Proofs.Schema.Places
import RestconfApi.Proofs.Schema.Trees

/-!
# Schema: where nodes stem from

A node of an expanded schema is declared, with what the groupings it uses have given it among its children,
or a copy of a node in the body of a grouping.
-/

namespace RestconfApi

/-! ### Copies -/

namespace Statement

/-- The statement was declared where it stands. -/
structure IsOwn (s : Statement) : Prop where
  template : s.template = none
  addedBy : s.addedBy = none

/-- What a copy has from its template. -/
structure Copies (t s : Statement) : Prop where
  kind : s.kind = t.kind
  name : s.name = t.name
  keys : s.keys = t.keys
  type : s.type = t.type
  mandatory : s.mandatory = t.mandatory
  uses : s.uses = t.uses
  declaredConfig : s.declaredConfig = t.declaredConfig
  typeOwner : s.typeOwner = t.typedefOwner

/-- The statement is a copy of the top of a child of `g`, by a use of `g`. -/
def IsFrom (g : Place) (s : Statement) : Prop :=
  s.addedBy = some g.node.qname ∧ ∃ j, s.template = some (g.address.child j)

/-- The statement may have been given children by an augment: there are augments, and it is neither a choice
nor a case. -/
def MayGrow (augmented : Prop) (s : Statement) : Prop := augmented ∧ s.kind.isTransparent = false

end Statement

/-- How a statement with children of given statements has come about. A declared one has its own children,
all copies from the bodies of the groupings it uses, and nothing else; a copy has a copy of each child of its
template, and may have been given more. `body` gives the nodes of expanded groupings. Only what an augment
adds may have another owner. -/
inductive Stems (s : Schema) (augmented : Prop) (body : Address → Option Node) (st : Statement)
    (cs : List Statement) : Prop
  | declared : st.template = none →
      (∀ c ∈ cs, c.IsOwn ∧ (c.owner = st.owner ∨ st.MayGrow augmented) ∨ ∃ ref ∈ st.uses, ∃ g,
        s.grouping? ref st.owner = some g ∧ c.IsFrom g ∧ c.owner = st.owner) →
      (∀ ref ∈ st.uses, ∀ g, s.grouping? ref st.owner = some g → ∃ b, body g.address = some b ∧
        ∀ j < b.children.length, ∃ c ∈ cs, c.addedBy = some g.node.qname ∧
          c.template = some (g.address.child j)) →
      Stems s augmented body st cs
  | copied {a : Address} {t : Node} : st.template = some a → body a = some t → t.Copies st →
      (∀ (i : Nat) (m : Node), t.children[i]? = some m → ∃ c, cs[i]? = some c ∧
        c.template = some (a.child i) ∧ c.addedBy = m.addedBy ∧ c.owner = st.owner) →
      (∀ (i : Nat) (c : Statement), cs[i]? = some c → t.children.length ≤ i →
        c.IsOwn ∧ st.MayGrow augmented) →
      Stems s augmented body st cs

namespace Stems

variable {s : Schema} {augmented : Prop} {body body' : Address → Option Node} {st : Statement}
  {cs : List Statement}

theorem mono (h : Stems s augmented body st cs) (hbody : ∀ a n, body a = some n → body' a = some n) :
    Stems s augmented body' st cs := by
  cases h with
  | declared ht hcs huses =>
    refine .declared ht hcs fun ref href g hg => ?_
    obtain ⟨b, hb, hcopies⟩ := huses ref href g hg
    exact ⟨b, hbody _ _ hb, hcopies⟩
  | copied ht hb hcopies hcs hmore => exact .copied ht (hbody _ _ hb) hcopies hcs hmore

theorem weaken {augmented' : Prop} (h : Stems s augmented body st cs) (ha : augmented → augmented') :
    Stems s augmented' body st cs := by
  cases h with
  | declared ht hcs huses =>
    exact .declared ht (fun c hc => (hcs c hc).imp_left fun ⟨hown, h⟩ => ⟨hown, h.imp_right (And.imp_left ha)⟩)
      huses
  | copied ht hb hcopies hcs hmore =>
    exact .copied ht hb hcopies hcs fun i c hc hi => (hmore i c hc hi).imp_right (And.imp_left ha)

/-- It does not matter which grouping has given a node to its parent. -/
theorem addedBy (h : Stems s augmented body st cs) (addedBy : Option String) :
    Stems s augmented body { st with addedBy } cs := by
  cases h with
  | declared ht hcs huses => exact .declared ht hcs huses
  | copied ht hb hcopies hcs hmore => exact .copied ht hb ⟨hcopies.1, hcopies.2, hcopies.3, hcopies.4,
      hcopies.5, hcopies.6, hcopies.7, hcopies.8⟩ hcs hmore

/-- An augment may add children. -/
theorem append (h : Stems s augmented body st cs) {more : List Statement} (hmore : ∀ c ∈ more, c.IsOwn)
    (hgrow : st.MayGrow augmented) : Stems s augmented body st (cs ++ more) := by
  cases h with
  | declared ht hcs huses =>
    refine .declared ht (fun c hc => ?_) fun ref href g hg => ?_
    · rcases List.mem_append.mp hc with hc | hc
      · exact hcs c hc
      · exact .inl ⟨hmore c hc, .inr hgrow⟩
    · obtain ⟨b, hb, hcopies⟩ := huses ref href g hg
      refine ⟨b, hb, fun j hj => ?_⟩
      obtain ⟨c, hc, hcopy⟩ := hcopies j hj
      exact ⟨c, List.mem_append_left _ hc, hcopy⟩
  | @copied a t ht hb hcopies hcs hown =>
    refine .copied ht hb hcopies (fun i m hm => ?_) fun i c hc hi => ?_
    · obtain ⟨c, hc, hcopy⟩ := hcs i m hm
      have hlt := (List.getElem?_eq_some_iff.mp hc).1
      exact ⟨c, by rw [List.getElem?_append_left hlt, hc], hcopy⟩
    · by_cases hlt : i < cs.length
      · rw [List.getElem?_append_left hlt] at hc
        exact hown i c hc hi
      · rw [List.getElem?_append_right (Nat.le_of_not_lt hlt)] at hc
        exact ⟨hmore c (List.mem_of_getElem? hc), hgrow⟩

theorem erased_iff :
    Stems s augmented body st.erased (cs.map Statement.erased) ↔ Stems s augmented body st cs := by
  constructor
  · rintro (⟨ht, hcs, huses⟩ | ⟨ht, hb, hcopies, hcs, hmore⟩)
    · refine .declared ht (fun c hc => ?_) fun ref href g hg => ?_
      · rcases hcs c.erased (List.mem_map_of_mem hc) with ⟨h, howner⟩ | h
        · exact .inl ⟨⟨h.1, h.2⟩, howner⟩
        · exact .inr h
      · obtain ⟨b, hb, hcopies⟩ := huses ref href g hg
        refine ⟨b, hb, fun j hj => ?_⟩
        obtain ⟨c', hc', hcopy⟩ := hcopies j hj
        obtain ⟨c, hc, rfl⟩ := List.mem_map.mp hc'
        exact ⟨c, hc, hcopy⟩
    · refine .copied ht hb ⟨hcopies.1, hcopies.2, hcopies.3, hcopies.4, hcopies.5, hcopies.6, hcopies.7,
        hcopies.8⟩ (fun i m hm => ?_) fun i c hc hi => ?_
      · obtain ⟨c', hc', hcopy⟩ := hcs i m hm
        rw [List.getElem?_map] at hc'
        obtain ⟨c, hc, rfl⟩ := Option.map_eq_some_iff.mp hc'
        exact ⟨c, hc, hcopy⟩
      · obtain ⟨h, hgrow⟩ := hmore i c.erased (by rw [List.getElem?_map, hc]; rfl) hi
        exact ⟨⟨h.1, h.2⟩, hgrow⟩
  · rintro (⟨ht, hcs, huses⟩ | ⟨ht, hb, hcopies, hcs, hmore⟩)
    · refine .declared ht (fun c' hc' => ?_) fun ref href g hg => ?_
      · obtain ⟨c, hc, rfl⟩ := List.mem_map.mp hc'
        rcases hcs c hc with ⟨h, howner⟩ | h
        · exact .inl ⟨⟨h.1, h.2⟩, howner⟩
        · exact .inr h
      · obtain ⟨b, hb, hcopies⟩ := huses ref href g hg
        refine ⟨b, hb, fun j hj => ?_⟩
        obtain ⟨c, hc, hcopy⟩ := hcopies j hj
        exact ⟨c.erased, List.mem_map_of_mem hc, hcopy⟩
    · refine .copied ht hb ⟨hcopies.1, hcopies.2, hcopies.3, hcopies.4, hcopies.5, hcopies.6, hcopies.7,
        hcopies.8⟩ (fun i m hm => ?_) fun i c' hc' hi => ?_
      · obtain ⟨c, hc, hcopy⟩ := hcs i m hm
        exact ⟨c.erased, by rw [List.getElem?_map, hc]; rfl, hcopy⟩
      · rw [List.getElem?_map] at hc'
        obtain ⟨c, hc, rfl⟩ := Option.map_eq_some_iff.mp hc'
        obtain ⟨h, hgrow⟩ := hmore i c hc hi
        exact ⟨⟨h.1, h.2⟩, hgrow⟩

end Stems

namespace Node

theorem getElem?_copyAllFor (owner : Name) (source : String) (a : Address) (i : Nat) (ns : List Node)
    (j : Nat) : (copyAllFor owner source a i ns)[j]? = ns[j]?.map (copyFor owner source (a.child (i + j))) := by
  induction ns generalizing i j with
  | nil => simp [copyAllFor]
  | cons n ns ih =>
    cases j with
    | zero => simp [copyAllFor]
    | succ j =>
      rw [copyAllFor, List.getElem?_cons_succ, List.getElem?_cons_succ, ih, Nat.add_right_comm, Nat.add_assoc]

theorem toStatement_copyFor (owner : Name) (source : String) (a : Address) (n : Node) :
    (n.copyFor owner source a).toStatement =
      { n.toStatement with owner, source := some source, template := some a, typeOwner := n.typedefOwner } := by
  obtain ⟨s, cs⟩ := n
  rw [copyFor]

theorem owner_copyFor (owner : Name) (source : String) (a : Address) (n : Node) :
    (n.copyFor owner source a).owner = owner := by
  rw [toStatement_copyFor]

theorem template_copyFor (owner : Name) (source : String) (a : Address) (n : Node) :
    (n.copyFor owner source a).template = some a := by
  rw [toStatement_copyFor]

/-- Every node of a copied tree stems from the tree it is a copy of. -/
theorem everywhere_copyFor {s : Schema} {augmented : Prop} {body : Address → Option Node} (owner : Name)
    (source : String) : ∀ (n : Node) (a : Address), (∀ is, body { a with path := a.path ++ is } = n.at? is) →
      (n.copyFor owner source a).Everywhere (Stems s augmented body)
  | ⟨st, cs⟩, a, h => by
    refine everywhere_iff.mpr ⟨?_, fun m hm => ?_⟩
    · rw [copyFor]
      refine .copied (a := a) (t := ⟨st, cs⟩) rfl ?_ ⟨rfl, rfl, rfl, rfl, rfl, rfl, rfl, rfl⟩
        (fun i m hm => ?_) fun i c hc hi => ?_
      · have := h []
        rwa [List.append_nil] at this
      · refine ⟨(m.copyFor owner source (a.child i)).toStatement, ?_, ?_, ?_, ?_⟩
        · rw [heads, List.getElem?_map, getElem?_copyAllFor, Nat.zero_add,
            show cs[i]? = some m from hm]
          rfl
        · rw [toStatement_copyFor]
        · rw [toStatement_copyFor]
        · rw [toStatement_copyFor]
      · exfalso
        rw [heads, List.getElem?_map, getElem?_copyAllFor, List.getElem?_eq_none (show cs.length ≤ i from hi)] at hc
        cases hc
    · rw [copyFor] at hm
      obtain ⟨i, hi⟩ := List.mem_iff_getElem?.mp hm
      rw [getElem?_copyAllFor, Nat.zero_add] at hi
      obtain ⟨n, hn, rfl⟩ := Option.map_eq_some_iff.mp hi
      have hmem := List.sizeOf_lt_of_mem (List.mem_of_getElem? hn)
      refine everywhere_copyFor owner source n _ fun is => ?_
      have := h (i :: is)
      rw [at?, show (⟨st, cs⟩ : Node).children[i]? = some n from hn] at this
      simpa [Address.child] using this
termination_by n => sizeOf n
decreasing_by simp_wf; omega

end Node

end RestconfApi
