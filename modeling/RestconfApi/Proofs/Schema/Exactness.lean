import RestconfApi.Proofs.Schema.Layout
import RestconfApi.Proofs.Schema.Loaded
import RestconfApi.Proofs.Schema.Orders

/-!
# Schema: what a loaded schema holds

A loaded schema holds what its document declares, copies of what groupings hold wherever they are used, and what
augments add, each in its place, and nothing else.
-/

namespace RestconfApi

namespace Schema

/-! ### Copies and additions -/

/-- Where the target of an augment stands. -/
def targetOf (s : Schema) (x : Declaration.Augment) : Option Address :=
  (x.target.asText?.bind fun path => s.node? path none).map (·.address)

/-- The nodes of the augments whose target is the node at an address, in the order of the augments. -/
def graftsAt (s : Schema) (augments : List Declaration.Augment) (a : Address) : List Node :=
  (augments.filter fun x => s.targetOf x == some a).flatMap (·.nodes)

/-- What a copy says that the expansion of `source` has made of a node for the module `owner`. -/
def copyOf (owner : Name) (source : Option String) (t : Place) : Statement :=
  { t.node.toStatement with owner, source, template := some t.address, typeOwner := t.node.typedefOwner }

/-- What the children say that a statement has from its `uses`: for each one that means a grouping, in their order,
a copy of each child of the grouping. -/
def suppliedBy (s : Schema) (st : Statement) : List Statement :=
  st.uses.flatMap fun ref =>
    match s.grouping? ref st.owner with
    | none => []
    | some g => g.children.map fun t =>
        { copyOf st.owner (some g.node.qname) t with addedBy := some g.node.qname }

/-- The statements of the first list are those of the second one up to their config flags. -/
def SameStatements (l l' : List Statement) : Prop := l.map Statement.erased = l'.map Statement.erased

/-- A loaded schema holds exactly what is declared, copies, and what augments add. -/
structure IsExact (declared : Schema) (augments : List Declaration.Augment) (s : Schema) : Prop where
  stands : ∀ {n a}, Stands declared (s.graftsAt augments) s n a → ∃ p, s.place? a = some p ∧
    p.node.toStatement.erased = n.toStatement.erased ∧
      SameStatements (Node.heads p.node.children)
        (Node.heads n.children ++ s.suppliedBy n.toStatement ++ Node.heads (s.graftsAt augments a))
  copies : ∀ {p}, s.Has p → p.node.template.isSome = true → ∃ t, s.template? p = some t ∧
    p.node.toStatement.erased =
        Statement.erased { copyOf p.node.owner p.node.source t with addedBy := p.node.addedBy } ∧
      SameStatements (Node.heads p.node.children)
        (t.children.map (copyOf p.node.owner p.node.source) ++ Node.heads (s.graftsAt augments p.address))
  own : ∀ {p}, s.Has p → p.node.template = none → ∃ n, Stands declared (s.graftsAt augments) s n p.address
  targets : ∀ x ∈ augments, (s.targetOf x).isSome = true

/-- A node that is no copy has been declared. -/
theorem IsExact.exists_stands {declared s : Schema} {augments : List Declaration.Augment}
    (h : IsExact declared augments s) {p : Place} (hp : s.Has p) (htemplate : p.node.template = none) :
    ∃ n, Stands declared (s.graftsAt augments) s n p.address ∧
      p.node.toStatement.erased = n.toStatement.erased ∧
      SameStatements (Node.heads p.node.children)
        (Node.heads n.children ++ s.suppliedBy n.toStatement ++ Node.heads (s.graftsAt augments p.address)) := by
  obtain ⟨n, hn⟩ := h.own hp htemplate
  obtain ⟨q, hq, htop, hchildren⟩ := h.stands hn
  obtain rfl : q = p := Option.some.inj (hq.symm.trans hp)
  exact ⟨n, hn, htop, hchildren⟩

/-! ### Growth -/

variable {declared s s' : Schema}

theorem growsTo_withConfig (s : Schema) : s.GrowsTo True id ⟨s.modules.map Module.withConfig⟩ := by
  refine growsTo_of_forall₂ (List.forall₂_map_right_iff.mpr (List.forall₂_same.mpr fun m _ => ⟨rfl, rfl, ?_, ?_⟩))
  · show List.Forall₂ _ m.data (Node.withConfigAll true m.data)
    rw [Node.withConfigAll_eq]
    exact List.forall₂_map_right_iff.mpr (List.forall₂_same.mpr fun n _ =>
      Node.grows_of_erased (Node.erased_withConfig true n))
  · show List.Forall₂ _ m.rpcs (Node.mapStatementsAll Statement.erased m.rpcs)
    rw [Node.mapStatementsAll_eq]
    exact List.forall₂_map_right_iff.mpr (List.forall₂_same.mpr fun n _ =>
      Node.grows_of_erased (Node.erased_erased n))

theorem GrowsTo.targetOf (h : s.GrowsTo True id s') {x : Declaration.Augment} {a : Address}
    (hx : s.targetOf x = some a) :
    s'.targetOf x = some a := by
  obtain ⟨p, hp, rfl⟩ := Option.map_eq_some_iff.mp hx
  obtain ⟨path, hpath, hp⟩ := Option.bind_eq_some_iff.mp hp
  obtain ⟨p', hp', hgrows⟩ := h.node? hp
  rw [Schema.targetOf, hpath, Option.bind_some, hp', Option.map_some, hgrows.address, Address.moved_id]

open Expansion

variable {M : Expanded}

/-- Each augment of a list has its target when it is applied, and has it still when all have been. -/
theorem exists_laid_of_grafts {augments : List Declaration.Augment} (hs : IsDeclaredSchema declared)
    (ha : ∀ x ∈ augments, ∀ n ∈ x.nodes, IsDeclared n) (h : Grafts declared M augments s s')
    {done : List (Declaration.Augment × Address)} (hdone : ∀ e ∈ done, ∀ n ∈ e.1.nodes, IsDeclared n)
    (htargets : ∀ e ∈ done, s.targetOf e.1 = some e.2) (hlaid : Laid declared M done s) :
    ∃ all, all.map (·.1) = done.map (·.1) ++ augments ∧ (∀ e ∈ all, s'.targetOf e.1 = some e.2) ∧
      Laid declared M all s' := by
  induction h generalizing done with
  | nil s => exact ⟨done, (List.append_nil _).symm, htargets, hlaid⟩
  | @cons x xs s s' target p added htarget hp hadded _ ih =>
    have hx := ha x List.mem_cons_self
    have hIsTarget := isTarget_of_node? hp
    have hgrows := growsTo_appendAt hIsTarget added
    have hnode : s.nodeAt? p.address = some p.node := by
      rw [nodeAt?, show s.place? p.address = some p from hIsTarget.has]
      rfl
    have hdone' : ∀ e ∈ done ++ [(x, p.address)], ∀ n ∈ e.1.nodes, IsDeclared n := by
      intro e he
      rcases List.mem_append.mp he with he | he
      · exact hdone e he
      · rw [List.mem_singleton.mp he]
        exact hx
    have htargets' : ∀ e ∈ done ++ [(x, p.address)], (s.appendAt p.address added).targetOf e.1 = some e.2 := by
      intro e he
      rcases List.mem_append.mp he with he | he
      · exact hgrows.targetOf (htargets e he)
      · rw [List.mem_singleton.mp he]
        refine hgrows.targetOf ?_
        rw [targetOf, htarget, Option.bind_some, hp, Option.map_some]
    obtain ⟨all, hall, hrest⟩ := ih (fun y hy => ha y (List.mem_cons_of_mem _ hy)) hdone' htargets'
      (hlaid.appendAt hs hdone hx hnode hadded)
    refine ⟨all, ?_, hrest⟩
    rw [hall, List.map_append, List.append_assoc]
    rfl

/-! ### Config flags -/

theorem nodeAt?_withConfig (s : Schema) (a : Address) :
    ((⟨s.modules.map Module.withConfig⟩ : Schema).nodeAt? a).map Node.erased = (s.nodeAt? a).map Node.erased := by
  obtain ⟨i, part, path⟩ := a
  cases path with
  | nil => rw [nodeAt?_nil _ rfl, nodeAt?_nil _ rfl]
  | cons j js =>
    have hpart : ∀ m : Module, (m.withConfig.part part)[j]?.map Node.erased = (m.part part)[j]?.map Node.erased := by
      intro m
      cases part with
      | data =>
        show (Node.withConfigAll true m.data)[j]?.map _ = m.data[j]?.map _
        rw [Node.withConfigAll_eq, List.getElem?_map, Option.map_map]
        exact congrArg (Option.map · _) (funext (Node.erased_withConfig true))
      | groupings =>
        show (Node.withConfigAll true m.groupings)[j]?.map _ = m.groupings[j]?.map _
        rw [Node.withConfigAll_eq, List.getElem?_map, Option.map_map]
        exact congrArg (Option.map · _) (funext (Node.erased_withConfig true))
      | rpcs =>
        show (Node.mapStatementsAll Statement.erased m.rpcs)[j]?.map _ = m.rpcs[j]?.map _
        rw [Node.mapStatementsAll_eq, List.getElem?_map, Option.map_map]
        exact congrArg (Option.map · _) (funext Node.erased_erased)
    rw [nodeAt?_cons, nodeAt?_cons]
    simp only [List.getElem?_map]
    cases s.modules[i]? with
    | none => rfl
    | some m =>
      simp only [Option.map_some, Option.bind_some]
      specialize hpart m
      cases hn : (m.part part)[j]? with
      | none =>
        rw [hn, Option.map_none, Option.map_eq_none_iff] at hpart
        rw [hpart]
      | some n =>
        rw [hn] at hpart
        obtain ⟨n', hn', herased⟩ := Option.map_eq_some_iff.mp hpart
        rw [hn', Option.bind_some, Option.bind_some]
        have hat := Node.at?_mapStatements (f := Statement.erased) js n'
        have hat' := Node.at?_mapStatements (f := Statement.erased) js n
        rw [show n'.mapStatements _ = n.mapStatements _ from herased, hat'] at hat
        exact hat.symm

theorem exists_of_nodeAt? {s s' : Schema} {a : Address} {x : Node}
    (h : (s.nodeAt? a).map Node.erased = (s'.nodeAt? a).map Node.erased) (hx : s.nodeAt? a = some x) :
    ∃ y, s'.nodeAt? a = some y ∧ y.erased = x.erased := by
  rw [hx] at h
  exact Option.map_eq_some_iff.mp h.symm

theorem heads_of_erased {x y : Node} (h : y.erased = x.erased) :
    SameStatements (Node.heads y.children) (Node.heads x.children) := by
  have hchildren := congrArg (fun n => Node.heads n.children) h
  simp only [Node.erased, Node.children_mapStatements, Node.heads_mapStatements] at hchildren
  exact hchildren

theorem length_of_erased {x y : Node} (h : y.erased = x.erased) : y.children.length = x.children.length := by
  have hlength := congrArg (fun n : Node => n.children.length) h
  simpa [Node.erased, Node.children_mapStatements] using hlength

theorem Stands.of_erased {grafts : Address → List Node} {s s' : Schema}
    (h : ∀ a, (s.nodeAt? a).map Node.erased = (s'.nodeAt? a).map Node.erased) {n : Node} {a : Address}
    (hn : Stands declared grafts s n a) : Stands declared grafts s' n a := by
  induction hn with
  | top hm hn => exact .top hm hn
  | child _ hc ih => exact ih.child hc
  | grafted hx hi =>
    obtain ⟨y, hy, herased⟩ := exists_of_nodeAt? (h _) hx
    rw [← length_of_erased herased]
    exact .grafted hy hi

/-! ### Copies -/

theorem heads_copyAllFor (owner : Name) (source : String) (a : Address) (above : List Node) (i : Nat)
    (ns : List Node) : Node.heads (Node.copyAllFor owner source a i ns) =
      (Place.ofChildren a above i ns).map (copyOf owner (some source)) := by
  induction ns generalizing i with
  | nil => rfl
  | cons n ns ih =>
    exact congrArg₂ List.cons (Node.toStatement_copyFor owner source (a.child i) n) (ih (i + 1))

/-- Copies of nodes that say the same say the same. -/
theorem sameStatements_copies (f : Statement → Statement) (hf : ∀ st, (f st).erased = f st.erased) (owner : Name)
    (source : Option String) (a : Address) (above above' : List Node) (i : Nat) {ns ns' : List Node}
    (h : ns.map Node.erased = ns'.map Node.erased) :
    SameStatements ((Place.ofChildren a above i ns).map fun t => f (copyOf owner source t))
      ((Place.ofChildren a above' i ns').map fun t => f (copyOf owner source t)) := by
  induction ns generalizing i ns' with
  | nil =>
    obtain rfl : ns' = [] := by simpa using h.symm
    rfl
  | cons n ns ih =>
    cases ns' with
    | nil => cases h
    | cons n' ns' =>
      obtain ⟨hn, hns⟩ := List.cons.inj h
      refine congrArg₂ List.cons ?_ (ih (i + 1) hns)
      have hst := erased_toStatement hn
      have hcopy : ∀ n : Node, ∀ above, (copyOf owner source ⟨a.child i, n, above⟩).erased =
          { n.toStatement.erased with owner, source, template := some (a.child i),
                                      typeOwner := n.toStatement.erased.typedefOwner } := fun _ _ => rfl
      rw [hf, hf, hcopy, hcopy, hst]

variable {augmented : Prop}

theorem LoadedFrom.block (h : LoadedFrom augmented declared M s) {st : Statement} {ref : String} {block : List Node}
    (hblock : IsBlock declared st ref block M) : SameStatements (Node.heads block)
      (match s.grouping? ref st.owner with
        | none => []
        | some g => g.children.map fun t =>
            { copyOf st.owner (some g.node.qname) t with addedBy := some g.node.qname }) := by
  rcases hblock with ⟨hnone, rfl⟩ | ⟨g, b, hg, hb, rfl⟩
  · cases hfound : s.grouping? ref st.owner with
    | none => rfl
    | some g' =>
      obtain ⟨g, hg, -⟩ := h.exists_declared_grouping hfound
      rw [hnone] at hg
      cases hg
  · obtain ⟨g', hfound, hsame⟩ := h.exists_grouping hg
    rw [hfound]
    obtain ⟨i, hi⟩ := mem_tops_of_grouping? hg
    have hnode : M.node? g.address = some b := by
      have hself := node?_grouping hi hb []
      rwa [List.append_nil] at hself
    obtain ⟨p, hp, herased, -, -⟩ := h.place? hnode
    have hhas := has_of_grouping? hfound
    rw [hsame.1] at hp
    obtain rfl : p = g' := Option.some.inj (hp.symm.trans hhas)
    have hheads : Node.heads ((Node.copyAllFor st.owner g.node.qname g.address 0 b.children).map fun n =>
        { n with addedBy := some g.node.qname }) =
        (Place.ofChildren g.address (p.node :: p.above) 0 b.children).map fun t =>
          { copyOf st.owner (some g.node.qname) t with addedBy := some g.node.qname } := by
      have hcopies := heads_copyAllFor st.owner g.node.qname g.address (p.node :: p.above) 0 b.children
      have hmap := congrArg (List.map fun c : Statement => { c with addedBy := some g.node.qname }) hcopies
      rw [Node.heads, List.map_map, List.map_map] at hmap
      rw [Node.heads, List.map_map]
      exact hmap
    rw [hheads]
    show SameStatements _ ((Place.ofChildren p.address (p.node :: p.above) 0 p.node.children).map _)
    rw [hsame.qname, hsame.1]
    refine sameStatements_copies (fun c => { c with addedBy := some g.node.qname }) (fun _ => rfl) _ _ _ _ _ _ ?_
    have hchildren := congrArg (fun n : Node => n.children) herased
    simp only [Node.erased, Node.children_mapStatements] at hchildren
    exact hchildren.symm

theorem LoadedFrom.suppliedBy (h : LoadedFrom augmented declared M s) {st : Statement} {blocks : List (List Node)}
    (hblocks : List.Forall₂ (fun ref block => IsBlock declared st ref block M) st.uses blocks) :
    SameStatements (Node.heads (List.flatten blocks)) (s.suppliedBy st) := by
  unfold Schema.suppliedBy
  generalize st.uses = refs at hblocks
  induction hblocks with
  | nil => rfl
  | cons hblock _ ih =>
    unfold SameStatements at ih ⊢
    rw [List.flatten_cons, Node.heads_append, List.map_append, ih, List.flatMap_cons, List.map_append]
    congr 1
    exact h.block hblock

/-! ### Loaded schemas -/

theorem graftsAt_eq {augments : List Declaration.Augment} {all : List (Declaration.Augment × Address)}
    (hall : all.map (·.1) = augments) (htargets : ∀ e ∈ all, s.targetOf e.1 = some e.2) :
    s.graftsAt augments = graftsOf all := by
  funext a
  subst hall
  rw [graftsAt, graftsOf, List.filter_map, List.flatMap_map]
  congr 1
  refine List.filter_congr fun e he => ?_
  rw [Function.comp_apply, htargets e he]
  rfl

theorem SameStatements.append {l₁ l₂ l₁' l₂' : List Statement} (h : SameStatements l₁ l₁')
    (h' : SameStatements l₂ l₂') : SameStatements (l₁ ++ l₂) (l₁' ++ l₂') := by
  rw [SameStatements, List.map_append, List.map_append, h, h']

theorem nodeAt?_of_has {p : Place} (hp : s.Has p) : s.nodeAt? p.address = some p.node := by
  rw [nodeAt?, show s.place? p.address = some p from hp]
  rfl

/-- What stands where in an expanded schema does so in the loaded one, up to config flags. -/
theorem LoadedFrom.isExact {S : Schema} (h : LoadedFrom augmented declared M ⟨S.modules.map Module.withConfig⟩)
    {all : List (Declaration.Augment × Address)} (htargets : ∀ e ∈ all, S.targetOf e.1 = some e.2)
    (hlaid : Laid declared M all S) : IsExact declared (all.map (·.1)) ⟨S.modules.map Module.withConfig⟩ := by
  have herased := nodeAt?_withConfig S
  have htargets' : ∀ e ∈ all, (⟨S.modules.map Module.withConfig⟩ : Schema).targetOf e.1 = some e.2 :=
    fun e he => (growsTo_withConfig S).targetOf (htargets e he)
  have hgrafts := graftsAt_eq rfl htargets'
  generalize (⟨S.modules.map Module.withConfig⟩ : Schema) = s at h herased htargets' hgrafts
  have hback := fun a => (herased a).symm
  refine ⟨fun {n a} hn => ?_, fun {p} hp ht => ?_, fun {p} hp ht => ?_, fun x hx => ?_⟩
  · rw [hgrafts] at hn ⊢
    obtain ⟨y, hy, htop, blocks, hblocks, hchildren⟩ := hlaid.stands (hn.of_erased herased)
    obtain ⟨x, hx, hxy⟩ := exists_of_nodeAt? (hback a) hy
    obtain ⟨p, hp, rfl⟩ := Option.map_eq_some_iff.mp hx
    refine ⟨p, hp, (erased_toStatement hxy).trans (congrArg _ htop), ?_⟩
    refine (heads_of_erased hxy).trans ?_
    rw [hchildren]
    exact SameStatements.append (.append rfl (h.suppliedBy hblocks)) rfl
  · obtain ⟨y, hy, hyp⟩ := exists_of_nodeAt? (herased p.address) (nodeAt?_of_has hp)
    have hst := erased_toStatement hyp
    have htemplate : y.template = p.node.template := by
      have := congrArg Statement.template hst
      exact this
    obtain ⟨b, t, owner, source, hb, hcopy, hchildren⟩ := hlaid.copies hy (by rw [htemplate]; exact ht)
    rw [Node.toStatement_copyFor] at hcopy
    obtain ⟨q, hq, hqt, -, -⟩ := h.place? hb
    have hqb := address_of_place? hq
    have howner : p.node.owner = owner := by
      have := (congrArg Statement.owner hst).symm
      exact this.trans (by rw [hcopy]; rfl)
    have hsource : p.node.source = some source := by
      have := (congrArg Statement.source hst).symm
      exact this.trans (by rw [hcopy]; rfl)
    have hqst := erased_toStatement hqt
    have haddedBy : p.node.addedBy = y.addedBy := by
      have := (congrArg Statement.addedBy hst).symm
      exact this
    rw [howner, hsource, haddedBy, hgrafts]
    refine ⟨q, ?_, ?_, ?_⟩
    · rw [template?_eq (a := b), hq]
      rw [← htemplate, hcopy]
    · have hsame := congrArg (fun c : Statement => { c with
        owner, source := some source, template := some b, typeOwner := c.typedefOwner, addedBy := y.addedBy }) hqst
      rw [← hst, hcopy, copyOf, hqb]
      exact hsame.symm
    · refine (heads_of_erased hyp).symm.trans ?_
      rw [hchildren, Node.children_copyFor, heads_copyAllFor owner source b (q.node :: q.above)]
      refine SameStatements.append ?_ rfl
      have hqchildren := congrArg (fun n : Node => n.children) hqt
      simp only [Node.erased, Node.children_mapStatements] at hqchildren
      show SameStatements _ ((Place.ofChildren q.address (q.node :: q.above) 0 q.node.children).map _)
      rw [hqb]
      exact sameStatements_copies id (fun _ => rfl) _ _ _ _ _ _ hqchildren.symm
  · obtain ⟨y, hy, hyp⟩ := exists_of_nodeAt? (herased p.address) (nodeAt?_of_has hp)
    have htemplate : y.template = p.node.template := by
      have := congrArg Statement.template (erased_toStatement hyp)
      exact this
    obtain ⟨n, hn⟩ := hlaid.own hy (htemplate.trans ht)
    rw [hgrafts]
    exact ⟨n, hn.of_erased hback⟩
  · obtain ⟨e, he, rfl⟩ := List.mem_map.mp hx
    rw [htargets' e he]
    rfl

/-- A document that loads becomes exactly what it declares. -/
theorem exists_isExact {d : Datum} (h : (load d).result = .ok s) : ∃ modules augments,
    Declaration.document d = .ok (modules, augments) ∧ IsExact ⟨modules⟩ augments s := by
  obtain ⟨modules, augments, S, M, hdocument, hrun, rfl⟩ := exists_expanding h
  obtain ⟨hs, ha⟩ := isDeclaredSchema_of_document hdocument
  have hunrolls := expanding_unrolls ⟨modules⟩ augments .nil S M hrun
  obtain ⟨⟨expanded⟩, hmodules, hgrafts⟩ := hunrolls.expanded
  obtain ⟨all, hall, htargets, hlaid⟩ := exists_laid_of_grafts hs ha hgrafts (by simp) (by simp)
    (laid_of_modules hs hunrolls.unfolded hmodules)
  obtain rfl : all.map (·.1) = augments := hall
  exact ⟨modules, _, hdocument, (loadedFrom_of_expanding hdocument hrun).isExact htargets hlaid⟩

end Schema

end RestconfApi
