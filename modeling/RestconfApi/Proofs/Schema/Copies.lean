import RestconfApi.Proofs.Documents
import RestconfApi.Proofs.Schema.Exactness
import RestconfApi.Proofs.Schema.Writing

/-!
# Schema: where copies come from

A copy stands below a declared node that uses a grouping, just where its template stands below the grouping. It says
what its template says, for the module of the node that uses the grouping, and its type means what that of the
template means.
-/

namespace RestconfApi

namespace Schema

variable {s declared : Schema} {augments : List Declaration.Augment}

theorem SameStatements.getElem? {l l' : List Statement} (h : SameStatements l l') {i : Nat} {st : Statement}
    (hi : l[i]? = some st) : ∃ st', l'[i]? = some st' ∧ st'.erased = st.erased := by
  have heq : (l.map Statement.erased)[i]? = (l'.map Statement.erased)[i]? := congrArg (·[i]?) h
  rw [List.getElem?_map, List.getElem?_map, hi] at heq
  exact Option.map_eq_some_iff.mp heq.symm

theorem eq_of_erased {α : Type} (f : Statement → α) (hf : ∀ st : Statement, f st.erased = f st) {st st' : Statement}
    (h : st.erased = st'.erased) : f st = f st' := by
  rw [← hf, h, hf]

theorem template_of_erased {st st' : Statement} (h : st.erased = st'.erased) : st.template = st'.template :=
  eq_of_erased (·.template) (fun _ => rfl) h

theorem owner_of_erased {st st' : Statement} (h : st.erased = st'.erased) : st.owner = st'.owner :=
  eq_of_erased (·.owner) (fun _ => rfl) h

theorem source_of_erased {st st' : Statement} (h : st.erased = st'.erased) : st.source = st'.source :=
  eq_of_erased (·.source) (fun _ => rfl) h

theorem getElem?_heads_children {p x : Place} {i : Nat} (hx : p.childAt? i = some x) :
    (Node.heads p.node.children)[i]? = some x.node.toStatement := by
  obtain ⟨n, hn, rfl⟩ := Option.map_eq_some_iff.mp hx
  rw [Node.heads, List.getElem?_map, hn]
  rfl

theorem descend_concat {i : Nat} {is : List Nat} {p q x : Place} {k : Nat} (hq : Place.descend (i :: is) p = some q)
    (hx : q.childAt? k = some x) : Place.descend (i :: (is ++ [k])) p = some x := by
  rw [← List.cons_append, Place.descend_append, hq, Option.bind_some, Place.descend_singleton, hx]

/-! ### What is declared -/

/-- What holds of all that is declared. -/
structure Declares (P : Statement → Prop) (declared : Schema) (augments : List Declaration.Augment) : Prop where
  modules : ∀ m ∈ declared.modules, ∀ part, ∀ n ∈ m.part part, n.Everywhere fun st _ => P st
  augments : ∀ x ∈ augments, ∀ n ∈ x.nodes, n.Everywhere fun st _ => P st

variable {P : Statement → Prop}

theorem Declares.grafts (h : Declares P declared augments) (a : Address) :
    ∀ n ∈ s.graftsAt augments a, n.Everywhere fun st _ => P st := by
  intro n hn
  obtain ⟨x, hx, hn⟩ := List.mem_flatMap.mp hn
  exact h.augments x (List.mem_filter.mp hx).1 n hn

theorem Declares.stands (h : Declares P declared augments) {n : Node} {a : Address}
    (hn : Stands declared (s.graftsAt augments) s n a) : n.Everywhere fun st _ => P st :=
  hn.everywhere h.modules h.grafts

/-- Declared statements are no copies and have an owner. -/
def IsOwned (st : Statement) : Prop := st.template = none ∧ st.owner.holds = true

theorem declares_isOwned {d : Datum} {modules : List Module} (h : Declaration.document d = .ok (modules, augments)) :
    Declares IsOwned ⟨modules⟩ augments := by
  obtain ⟨hmodules, haugments⟩ := Declaration.document_ok h
  have howned : ∀ m ∈ modules, ∀ n, Declaration.DeclaresTree m.name n → n.Everywhere fun st _ => IsOwned st :=
    fun m hm n hn => hn.mono fun st _ hst => ⟨hst.template, by rw [hst.owner]; exact (hmodules m hm).name⟩
  refine ⟨fun m hm part n hn => howned m hm n ((hmodules m hm).trees part n hn), fun x hx n hn => ?_⟩
  obtain ⟨m, hm, htrees⟩ := haugments x hx
  exact howned m hm n (htrees n hn)

/-! ### Uses -/

/-- `p` is part of the copy of the body of `g` that the node `u` has for one of its `uses`, and `t` stands in the body
where `p` stands in the copy. -/
structure IsUse (s : Schema) (p t u g : Place) : Prop where
  has : s.Has u
  own : u.node.template = none
  uses : ∃ ref ∈ u.node.uses, s.grouping? ref u.node.owner = some g
  place : ∃ i j is, Place.descend (i :: is) u = some p ∧ Place.descend (j :: is) g = some t
  source : p.node.source = some g.node.qname
  owner : p.node.owner = u.node.owner

/-- A child that a declared node has by a `uses` is a copy of a child of the grouping. -/
theorem isUse_of_supplied {u x t : Place} {i : Nat} (hu : s.Has u) (hown : u.node.template = none)
    (hx : u.childAt? i = some x) {st c : Statement} (hst : u.node.toStatement.erased = st.erased)
    (hc : c ∈ s.suppliedBy st) (hxc : c.erased = x.node.toStatement.erased) (ht : s.template? x = some t) :
    ∃ g, IsUse s x t u g := by
  obtain ⟨ref, href, hc⟩ := List.mem_flatMap.mp hc
  have huses : u.node.uses = st.uses := eq_of_erased (·.uses) (fun _ => rfl) hst
  have howner : u.node.owner = st.owner := owner_of_erased hst
  cases hg : s.grouping? ref st.owner with
  | none => simp [hg] at hc
  | some g =>
    simp only [hg] at hc
    obtain ⟨y, hy, rfl⟩ := List.mem_map.mp hc
    obtain ⟨j, hj⟩ := Place.mem_children.mp hy
    have htemplate : x.node.template = some y.address := (template_of_erased hxc).symm
    have hyhas := (has_of_grouping? hg).childAt? hj
    obtain rfl : y = t := by
      rw [template?, htemplate, Option.bind_some, show s.place? y.address = some y from hyhas] at ht
      exact Option.some.inj ht
    refine ⟨g, hu, hown, ⟨ref, huses ▸ href, howner ▸ hg⟩, ⟨i, j, [], ?_, ?_⟩, ?_, ?_⟩
    · rw [Place.descend_singleton, hx]
    · rw [Place.descend_singleton, hj]
    · exact (source_of_erased hxc).symm
    · exact (owner_of_erased hxc).symm.trans howner.symm

/-- A child of a copy is part of the copy that its parent is part of. -/
theorem IsUse.childAt? {p t u g x y : Place} (h : IsUse s p t u g) {k : Nat} (hx : p.childAt? k = some x)
    (hy : t.childAt? k = some y) (hsource : x.node.source = p.node.source) (howner : x.node.owner = p.node.owner) :
    IsUse s x y u g := by
  obtain ⟨i, j, is, hp, ht⟩ := h.place
  exact ⟨h.has, h.own, h.uses, ⟨i, j, is ++ [k], descend_concat hp hx, descend_concat ht hy⟩,
    hsource.trans h.source, howner.trans h.owner⟩

theorem not_template?_of_mem {l : List Node} (hl : ∀ n ∈ l, n.Everywhere fun st _ => IsOwned st)
    {x : Place} {c : Statement} (hc : c ∈ Node.heads l) (hxc : c.erased = x.node.toStatement.erased) :
    s.template? x = none := by
  obtain ⟨n, hn, rfl⟩ := List.mem_map.mp hc
  have htemplate := (template_of_erased hxc).symm.trans (Node.everywhere_iff.mp (hl n hn)).1.1
  rw [template?, htemplate]
  rfl

/-- Every copy has been made by a `uses`. -/
theorem IsExact.exists_isUse (h : IsExact declared augments s) (hdeclared : Declares IsOwned declared augments)
    (htops : ∀ i part, ∀ p ∈ s.tops i part, p.node.template = none) {p t : Place} (hp : s.Has p)
    (ht : s.template? p = some t) : ∃ u g, IsUse s p t u g := by
  refine Has.induction (P := fun p => ∀ t, s.template? p = some t → ∃ u g, IsUse s p t u g) (fun i part p hp t ht => ?_)
    (fun p x i hp ih hx y hy => ?_) hp t ht
  · rw [template?, htops i part p hp] at ht
    cases ht
  · have hgrafts := hdeclared.grafts (s := s) p.address
    cases htemplate : p.node.template with
    | none =>
      -- a child of a declared node is declared, supplied by a `uses` or added by an augment
      obtain ⟨n, hn⟩ := h.own hp htemplate
      obtain ⟨q, hq, htop, hchildren⟩ := h.stands hn
      obtain rfl : q = p := Option.some.inj (hq.symm.trans hp)
      obtain ⟨c, hc, hxc⟩ := hchildren.getElem? (getElem?_heads_children hx)
      rcases List.mem_append.mp (List.mem_of_getElem? hc) with hc | hc
      · rcases List.mem_append.mp hc with hc | hc
        · have hnone : s.template? x = none :=
            not_template?_of_mem (Node.everywhere_iff.mp (hdeclared.stands hn)).2 hc hxc
          rw [hnone] at hy
          cases hy
        · obtain ⟨g, huse⟩ := isUse_of_supplied hp htemplate hx htop hc hxc hy
          exact ⟨q, g, huse⟩
      · rw [not_template?_of_mem hgrafts hc hxc] at hy
        cases hy
    | some a =>
      -- a child of a copy is a copy of the child of the template, or added by an augment
      obtain ⟨t, ht, -, hchildren⟩ := h.copies hp (by rw [htemplate]; rfl)
      obtain ⟨u, g, huse⟩ := ih t ht
      obtain ⟨c, hc, hxc⟩ := hchildren.getElem? (getElem?_heads_children hx)
      by_cases hlt : i < t.children.length
      · rw [List.getElem?_append_left (by rwa [List.length_map]), List.getElem?_map] at hc
        obtain ⟨z, hz, rfl⟩ := Option.map_eq_some_iff.mp hc
        have hchild : t.childAt? i = some z := by
          rw [Place.children, Place.getElem?_ofChildren, Nat.zero_add] at hz
          exact hz
        have hzhas := (has_of_template? ht).childAt? hchild
        have hxtemplate : x.node.template = some z.address := (template_of_erased hxc).symm
        obtain rfl : z = y := by
          rw [template?, hxtemplate, Option.bind_some, show s.place? z.address = some z from hzhas] at hy
          exact Option.some.inj hy
        exact ⟨u, g, huse.childAt? hx hchild (source_of_erased hxc).symm
          (owner_of_erased hxc).symm⟩
      · rw [List.getElem?_append_right (by rw [List.length_map]; exact Nat.le_of_not_lt hlt)] at hc
        rw [not_template?_of_mem hgrafts (List.mem_of_getElem? hc) hxc] at hy
        cases hy

/-! ### Owners and typedefs -/

theorem IsExact.holds_owner_of_own (h : IsExact declared augments s) (hdeclared : Declares IsOwned declared augments)
    {p : Place} (hp : s.Has p) (hown : p.node.template = none) : p.node.owner.holds = true := by
  obtain ⟨n, hn⟩ := h.own hp hown
  obtain ⟨q, hq, htop, -⟩ := h.stands hn
  obtain rfl : q = p := Option.some.inj (hq.symm.trans hp)
  have howner : q.node.owner = n.owner := owner_of_erased htop
  rw [howner]
  exact (Node.everywhere_iff.mp (hdeclared.stands hn)).1.2

theorem holds_typedefOwner {st : Statement} (h : st.owner.holds = true) : st.typedefOwner.holds = true := by
  unfold Statement.typedefOwner
  split
  · assumption
  · exact h

/-- What a copy has from its template `t`. -/
structure IsCopyOf (s : Schema) (p t : Place) : Prop where
  kind : p.node.kind = t.node.kind
  name : p.node.name = t.node.name
  keys : p.node.keys = t.node.keys
  type : p.node.type = t.node.type
  mandatory : p.node.mandatory = t.node.mandatory
  description : p.node.description = t.node.description
  typedefs : p.node.typedefOwner = t.node.typedefOwner
  use : ∃ u g, IsUse s p t u g

theorem IsExact.isCopyOf (h : IsExact declared augments s) (hdeclared : Declares IsOwned declared augments)
    (htops : ∀ i part, ∀ p ∈ s.tops i part, p.node.template = none) {p : Place} (hp : s.Has p)
    (htemplate : p.node.template.isSome = true) : ∃ t, s.template? p = some t ∧ IsCopyOf s p t := by
  obtain ⟨t, ht, hst, -⟩ := h.copies hp htemplate
  have huse := h.exists_isUse hdeclared htops hp ht
  have hfield : ∀ {α : Type} (f : Statement → α), (∀ st : Statement, f st.erased = f st) →
      f p.node.toStatement = f { copyOf p.node.owner p.node.source t with addedBy := p.node.addedBy } :=
    fun f hf => eq_of_erased f hf hst
  refine ⟨t, ht, hfield (·.kind) fun _ => rfl, hfield (·.name) fun _ => rfl, hfield (·.keys) fun _ => rfl,
    hfield (·.type) fun _ => rfl, hfield (·.mandatory) fun _ => rfl, hfield (·.description) fun _ => rfl, ?_, huse⟩
  have htypeOwner : p.node.typeOwner = t.node.typedefOwner := hfield (·.typeOwner) fun _ => rfl
  have howner : t.node.owner.holds = true := by
    cases htt : t.node.template with
    | none => exact h.holds_owner_of_own hdeclared (has_of_template? ht) htt
    | some a =>
      obtain ⟨t', ht', -⟩ := h.copies (has_of_template? ht) (by rw [htt]; rfl)
      obtain ⟨u, g, huse'⟩ := h.exists_isUse hdeclared htops (has_of_template? ht) ht'
      rw [huse'.owner]
      exact h.holds_owner_of_own hdeclared huse'.has huse'.own
  rw [Statement.typedefOwner, htypeOwner, if_pos (holds_typedefOwner howner)]

/-! ### Loaded documents -/

/-- Every declared node is given in the document, for a module of it. -/
theorem exists_module_of_stands {d : Datum} {modules : List Module}
    (h : Declaration.document d = .ok (modules, augments)) {n : Node} {a : Address}
    (hn : Stands ⟨modules⟩ (s.graftsAt augments) s n a) : ∃ m ∈ modules, Declaration.IsGiven d m.name n := by
  obtain ⟨hmodules, haugments⟩ := Declaration.exists_gives_of_document h
  induction hn with
  | top hm hn =>
    have hm := List.mem_of_getElem? hm
    obtain ⟨x, hx⟩ := hmodules _ hm _ _ (List.mem_of_getElem? hn)
    exact ⟨_, hm, .statement hx⟩
  | child _ hc ih =>
    obtain ⟨m, hm, hgiven⟩ := ih
    exact ⟨m, hm, hgiven.child (List.mem_of_getElem? hc)⟩
  | grafted _ hn =>
    obtain ⟨a, ha, hn⟩ := List.mem_flatMap.mp (List.mem_of_getElem? hn)
    obtain ⟨m, hm, hgives⟩ := haugments a (List.mem_filter.mp ha).1
    obtain ⟨x, hx⟩ := hgives _ hn
    exact ⟨m, hm, .statement hx⟩

theorem exists_written {d : Datum} {modules : List Module} (h : Declaration.document d = .ok (modules, augments))
    {n : Node} {a : Address} (hn : Stands ⟨modules⟩ (s.graftsAt augments) s n a) :
    ∃ owner x, Declaration.Written owner x n := by
  obtain ⟨m, -, hgiven⟩ := exists_module_of_stands h hn
  exact ⟨m.name, hgiven.written⟩

/-- A document that loads becomes what it declares, with copies of what groupings hold and with what augments add,
each in its place. Every copy has been made by a `uses` and says what its template says. Groupings may be expanded in
any order before, as long as none is taken for another one of the same qualified name. -/
theorem exact_of_load {d : Datum} (h : (load d).result = .ok s) : ∃ modules augments,
    Declaration.document d = .ok (modules, augments) ∧ IsExact ⟨modules⟩ augments s ∧
      (∀ n a, Stands ⟨modules⟩ (s.graftsAt augments) s n a → ∃ owner x, Declaration.Written owner x n) ∧
      (∀ i part, ∀ p ∈ s.tops i part, p.node.template = none) ∧
      (∀ p, s.Has p → p.node.template.isSome = true → ∃ t, s.template? p = some t ∧ IsCopyOf s p t) ∧
      ∀ order, (∀ g ∈ order, ∃ i, g ∈ (⟨modules⟩ : Schema).tops i .groupings) →
        (∃ S M, (Expansion.expandingAfter ⟨modules⟩ augments order []).result = .ok (S, M) ∧
          s = ⟨S.modules.map Module.withConfig⟩) ∨
        ∃ e, (Expansion.expandingAfter ⟨modules⟩ augments order []).result = .error e ∧
          Expansion.Confuses ⟨modules⟩ e := by
  obtain ⟨declared, M, hloaded⟩ := exists_loadedFrom h
  have htops : ∀ i part, ∀ p ∈ s.tops i part, p.node.template = none :=
    fun _ _ _ hp => (hloaded.isOwn_of_mem_tops hp).template
  obtain ⟨modules, augments, S, M', hdocument, hrun, hs⟩ := exists_expanding h
  obtain ⟨modules', augments', hdocument', hexact⟩ := exists_isExact h
  obtain ⟨rfl, rfl⟩ := Prod.mk.inj (Except.ok.inj (hdocument.symm.trans hdocument'))
  have hlisted : ∀ m ∈ modules, m.retired = false := fun m hm =>
    ((Declaration.document_ok hdocument).1 m hm).retired
  refine ⟨modules, augments, hdocument, hexact, fun n a hn => exists_written hdocument hn, htops, fun p hp ht =>
    hexact.isCopyOf (declares_isOwned hdocument) htops hp ht, fun order horder => ?_⟩
  have hunrolls := Expansion.expanding_unrolls ⟨modules⟩ augments .nil S M' hrun
  rcases hunrolls.after hlisted horder with ⟨M₁, h₁⟩ | herror
  · exact .inl ⟨S, M₁, h₁, hs⟩
  · exact .inr herror

end Schema

open Example Schema

/-- A container that uses a grouping that uses another one, and an augment of the copy. -/
def Example.nested : Datum :=
  document [
    ("groupings", [grouping "g" [leaf "l"], grouping "h" [container "c" ["g"]]]),
    ("data", [container "x" ["h"] [leaf "i"]]),
    ("augments", [.object [("target", .text "/m:x/m:c"), ("children", .list [leaf "k"])]])]

/-- The leaf of the inner grouping is copied into the outer one and from there into the container. -/
theorem exact_of_load_nested : ∃ s modules augments p t u g, (load Example.nested).result = .ok s ∧
    Declaration.document Example.nested = .ok (modules, augments) ∧ IsExact ⟨modules⟩ augments s ∧
      s.node? "/m:x/m:c/m:l" none = some p ∧ s.template? p = some t ∧ IsCopyOf s p t ∧ IsUse s p t u g := by
  have htest : ((load Example.nested).result.toOption.any fun s =>
      (s.node? "/m:x/m:c/m:l" none).any fun p => p.node.template.isSome) = true := by
    decide +kernel
  obtain ⟨s, hload, htest⟩ := exists_of_any htest
  obtain ⟨p, hp, htemplate⟩ := (Option.any_eq_true _ _).mp htest
  obtain ⟨modules, augments, hdocument, hexact, -, -, hcopies, -⟩ := exact_of_load hload
  obtain ⟨t, ht, hcopy⟩ := hcopies p (isTarget_of_node? hp).has htemplate
  obtain ⟨u, g, huse⟩ := hcopy.use
  exact ⟨s, modules, augments, p, t, u, g, hload, hdocument, hexact, hp, ht, hcopy, huse⟩

/-- Two modules with a grouping each of the same qualified name, the second of which uses the first. -/
def Example.namesakes : List Datum := [
  module "m:1" [("groupings", [grouping "g" [leaf "l"]]), ("data", [container "x" ["g"]])],
  module "m" [("groupings", [.object [("name", .text "1:g"), ("uses", .texts ["m:1:g"])]])]]

/-- If the second grouping is expanded first, the one that it uses is taken for itself. So it is when its module comes
first. -/
theorem error_of_expandingAfter_namesakes : ∃ s modules augments order e e',
    (load (.object [("modules", .list Example.namesakes)])).result = .ok s ∧
      (s.modules.Pairwise fun m m' => (m.name == m'.name) = false) ∧
      (∀ m ∈ s.modules, m.groupings.Pairwise fun g g' => (g.name == g'.name) = false) ∧
      Declaration.document (.object [("modules", .list Example.namesakes)]) = .ok (modules, augments) ∧
      (∀ g ∈ order, ∃ i, g ∈ (⟨modules⟩ : Schema).tops i .groupings) ∧
      (Expansion.expandingAfter ⟨modules⟩ augments order []).result = .error e ∧
      (load (.object [("modules", .list Example.namesakes.reverse)])).result = .error e' := by
  have hloads : ((load (.object [("modules", .list Example.namesakes)])).result.toOption.any fun s =>
      decide (s.modules.Pairwise fun m m' => (m.name == m'.name) = false) &&
        s.modules.all fun m => decide (m.groupings.Pairwise fun g g' => (g.name == g'.name) = false)) = true := by
    decide +kernel
  have hfails : ((Declaration.document (.object [("modules", .list Example.namesakes)])).toOption.any fun r =>
      let declared : Schema := ⟨r.1⟩
      (Expansion.expandingAfter declared r.2 (declared.tops 1 .groupings) []).result.toOption.isNone) = true := by
    decide +kernel
  have hreversed : (load (.object [("modules", .list Example.namesakes.reverse)])).result.toOption.isNone = true := by
    decide +kernel
  obtain ⟨s, hload, hdistinct⟩ := exists_of_any hloads
  simp only [List.all_eq_true, Bool.and_eq_true, decide_eq_true_eq] at hdistinct
  obtain ⟨⟨modules, augments⟩, hdocument, herror⟩ := exists_of_any hfails
  obtain ⟨e, he⟩ := exists_of_isNone herror
  obtain ⟨e', he'⟩ := exists_of_isNone hreversed
  exact ⟨s, modules, augments, _, e, e', hload, hdistinct.1, hdistinct.2, hdocument, fun _ hg => ⟨1, hg⟩, he, he'⟩

end RestconfApi
