import RestconfApi.Proofs.Schema.Exactness

/-!
# Schema: where groupings are used

The `uses` of a loaded schema that are no copies are those of its document: expansion adds copies alone, and an augment
brings what it adds with all its `uses` to the module of its target.
-/

namespace RestconfApi

/-- The `uses` of a statement that is no copy, each with the module that it is written in. -/
def Statement.ownUses (s : Statement) : List (Name × String) :=
  if s.template.isSome then [] else s.uses.map fun ref => (s.owner, ref)

namespace Node

mutual

/-- The `uses` of the nodes of a tree that are no copies. -/
def treeUses : Node → List (Name × String)
  | ⟨s, cs⟩ => s.ownUses ++ treeUsesAll cs

def treeUsesAll : List Node → List (Name × String)
  | [] => []
  | n :: ns => treeUses n ++ treeUsesAll ns

end

theorem treeUsesAll_eq (ns : List Node) : treeUsesAll ns = ns.flatMap treeUses := by
  induction ns with
  | nil => rfl
  | cons n ns ih => rw [treeUsesAll, ih, List.flatMap_cons]

theorem treeUses_eq (n : Node) : n.treeUses = n.toStatement.ownUses ++ n.children.flatMap treeUses := by
  obtain ⟨s, cs⟩ := n
  rw [treeUses, treeUsesAll_eq]

/-! ### Places -/

mutual

theorem flatMap_ofTree (a : Address) (above : List Node) :
    ∀ n : Node, ((Place.ofTree a above n).flatMap fun p => p.node.toStatement.ownUses) = n.treeUses
  | ⟨s, cs⟩ => by
    rw [Place.ofTree, List.flatMap_cons, flatMap_ofTrees a _ 0 cs, treeUses]

theorem flatMap_ofTrees (a : Address) (above : List Node) (i : Nat) :
    ∀ ns : List Node, ((Place.ofTrees a above i ns).flatMap fun p => p.node.toStatement.ownUses) = treeUsesAll ns
  | [] => rfl
  | n :: ns => by
    rw [Place.ofTrees, List.flatMap_append, flatMap_ofTree _ above n, flatMap_ofTrees a above (i + 1) ns, treeUsesAll]

end

/-- The `uses` at the places in some trees are those of the trees. -/
theorem flatMap_ofChildren (a : Address) (above : List Node) (i : Nat) (ns : List Node) :
    (((Place.ofChildren a above i ns).flatMap Place.nodes).flatMap fun p => p.node.toStatement.ownUses) =
      ns.flatMap treeUses := by
  induction ns generalizing i with
  | nil => rfl
  | cons n ns ih =>
    rw [Place.ofChildren, List.flatMap_cons, List.flatMap_append, ih, List.flatMap_cons]
    exact congrArg (· ++ _) (flatMap_ofTree _ above n)

/-! ### Config flags and copies -/

mutual

theorem treeUses_erased : ∀ n : Node, n.erased.treeUses = n.treeUses
  | ⟨s, cs⟩ => by
    rw [erased, mapStatements, treeUses, treeUses, treeUsesAll_erased cs]
    rfl

theorem treeUsesAll_erased : ∀ ns : List Node, treeUsesAll (mapStatementsAll Statement.erased ns) = treeUsesAll ns
  | [] => rfl
  | n :: ns => by
    rw [mapStatementsAll, treeUsesAll, treeUsesAll, treeUsesAll_erased ns]
    exact congrArg (· ++ _) (treeUses_erased n)

end

theorem treeUses_of_erased {n n' : Node} (h : n.erased = n'.erased) : n.treeUses = n'.treeUses := by
  rw [← treeUses_erased n, h, treeUses_erased]

mutual

/-- All that is in a copy is a copy. -/
theorem treeUses_copyFor (owner : Name) (source : String) (a : Address) :
    ∀ n : Node, (n.copyFor owner source a).treeUses = []
  | ⟨s, cs⟩ => by
    rw [copyFor, treeUses, treeUsesAll_copyAllFor owner source a 0 cs]
    rfl

theorem treeUsesAll_copyAllFor (owner : Name) (source : String) (a : Address) (i : Nat) :
    ∀ ns : List Node, treeUsesAll (copyAllFor owner source a i ns) = []
  | [] => rfl
  | n :: ns => by
    rw [copyAllFor, treeUsesAll, treeUses_copyFor owner source _ n, treeUsesAll_copyAllFor owner source a (i + 1) ns]
    rfl

end

/-! ### Added children -/

/-- What is added to what one element contributes is added to what all contribute. -/
theorem flatMap_modify_perm {α β : Type} {F : α → List β} {g : α → α} {more : List β} {l : List α} {i : Nat} {x : α}
    (hx : l[i]? = some x) (hg : (F (g x)).Perm (F x ++ more)) :
    ((l.modify i g).flatMap F).Perm (l.flatMap F ++ more) := by
  induction l generalizing i with
  | nil => simp at hx
  | cons y l ih =>
    cases i with
    | zero =>
      obtain rfl : y = x := by simpa using hx
      rw [List.modify_zero_cons, List.flatMap_cons, List.flatMap_cons]
      refine (hg.append_right _).trans ?_
      rw [List.append_assoc, List.append_assoc]
      exact List.Perm.append_left _ List.perm_append_comm
    | succ i =>
      rw [List.modify_succ_cons, List.flatMap_cons, List.flatMap_cons, List.append_assoc]
      exact List.Perm.append_left _ (ih (by simpa using hx))

theorem treeUses_appendAt (added : List Node) {is : List Nat} {n m : Node} (h : n.at? is = some m) :
    (n.appendAt added is).treeUses.Perm (n.treeUses ++ added.flatMap treeUses) := by
  induction is generalizing n with
  | nil =>
    rw [appendAt, treeUses_eq, treeUses_eq n, List.append_assoc, List.flatMap_append]
  | cons i is ih =>
    obtain ⟨c, hc, hm⟩ := Option.bind_eq_some_iff.mp h
    rw [appendAt, treeUses_eq, treeUses_eq n, List.append_assoc]
    exact List.Perm.append_left _ (flatMap_modify_perm hc (ih hm))

end Node

namespace Expansion

variable {s : Schema} {M : Expanded}

/-- What a `uses` adds are copies. -/
theorem IsBlock.treeUses {st : Statement} {ref : String} {block : List Node} (h : IsBlock s st ref block M) :
    block.flatMap Node.treeUses = [] := by
  rcases h with ⟨-, rfl⟩ | ⟨g, b, -, -, rfl⟩
  · rfl
  · rw [List.flatMap_map]
    have hmarked : ∀ n : Node, ({ n with addedBy := some g.node.qname } : Node).treeUses = n.treeUses := fun n => by
      rw [Node.treeUses_eq, Node.treeUses_eq n]
      rfl
    simp only [hmarked]
    rw [← Node.treeUsesAll_eq, Node.treeUsesAll_copyAllFor]

/-- Expansion brings no `uses` but in copies. -/
theorem Unfolds.treeUses : ∀ {n n' : Node}, Unfolds s M n n' → n'.treeUses = n.treeUses
  | ⟨st, cs⟩, n', h => by
    obtain ⟨htop, own, blocks, hchildren, hown, hblocks⟩ := unfolds_iff.mp h
    have hcopies : blocks.flatten.flatMap Node.treeUses = [] := by
      rw [List.flatMap_eq_nil_iff]
      intro y hy
      obtain ⟨block, hblock, hy⟩ := List.mem_flatten.mp hy
      obtain ⟨ref, -, hR⟩ := exists_of_forall₂_right hblocks hblock
      exact List.flatMap_eq_nil_iff.mp hR.treeUses y hy
    have hbelow : own.flatMap Node.treeUses = cs.flatMap Node.treeUses := by
      refine flatMap_of_forall₂ hown fun m m' hm hunfolds => ?_
      have := List.sizeOf_lt_of_mem hm
      exact hunfolds.treeUses
    rw [Node.treeUses_eq, htop, hchildren, List.flatMap_append, hcopies, List.append_nil, hbelow, ← Node.treeUses_eq]

theorem forall₂_treeUses {ns ns' : List Node} (h : List.Forall₂ (Unfolds s M) ns ns') :
    ns'.flatMap Node.treeUses = ns.flatMap Node.treeUses :=
  flatMap_of_forall₂ h fun _ _ _ hn => hn.treeUses

end Expansion

/-! ### Schemas -/

/-- The `uses` of a module's data and rpcs that are no copies. -/
def Module.dataUses (m : Module) : List (Name × String) := (m.data ++ m.rpcs).flatMap Node.treeUses

/-- The `uses` of a module's groupings that are no copies. -/
def Module.groupingUses (m : Module) : List (Name × String) := m.groupings.flatMap Node.treeUses

namespace Schema

variable {declared s s' : Schema}

/-- The `uses` in the data and the rpcs of the `i`-th module that are no copies. -/
def dataUses (s : Schema) (i : Nat) : List (Name × String) := (s.modules[i]?.map Module.dataUses).getD []

/-- The `uses` in all groupings that are no copies. -/
def groupingUses (s : Schema) : List (Name × String) := s.modules.flatMap Module.groupingUses

/-- The `uses` at the places in some trees that are no copies. -/
def usesAt (tops : List Place) : List (Name × String) :=
  (tops.flatMap Place.nodes).flatMap fun p => p.node.toStatement.ownUses

/-- Whether a `uses` of a module resolves to a grouping of that qualified name. -/
def means (s : Schema) (qname : String) (use : Name × String) : Bool :=
  (s.grouping? use.2 use.1).any (·.node.qname == qname)

/-- The nodes of the augments whose target stands in the `i`-th module. -/
def graftedIn (s : Schema) (augments : List Declaration.Augment) (i : Nat) : List Node :=
  (augments.filter fun x => (s.targetOf x).any (·.module == i)).flatMap (·.nodes)

theorem Module.dataUses_mapPart {m : Module} {part : Part} (hpart : part ≠ .groupings) {f : List Node → List Node}
    {more : List (Name × String)}
    (hf : ((f (m.part part)).flatMap Node.treeUses).Perm ((m.part part).flatMap Node.treeUses ++ more)) :
    (m.mapPart f part).dataUses.Perm (m.dataUses ++ more) := by
  cases part with
  | data =>
    show ((f m.data ++ m.rpcs).flatMap Node.treeUses).Perm ((m.data ++ m.rpcs).flatMap Node.treeUses ++ more)
    rw [List.flatMap_append, List.flatMap_append, List.append_assoc]
    refine (hf.append_right _).trans ?_
    rw [List.append_assoc]
    exact List.Perm.append_left _ List.perm_append_comm
  | rpcs =>
    show ((m.data ++ f m.rpcs).flatMap Node.treeUses).Perm ((m.data ++ m.rpcs).flatMap Node.treeUses ++ more)
    rw [List.flatMap_append, List.flatMap_append, List.append_assoc]
    exact List.Perm.append_left _ hf
  | groupings => exact absurd rfl hpart

/-- What is added below a target is added to the module of the target, and to no grouping. -/
theorem uses_appendAt {p : Place} (hp : IsTarget s p) (added : List Node) :
    (∀ i, ((s.appendAt p.address added).dataUses i).Perm
      (s.dataUses i ++ if p.address.module = i then added.flatMap Node.treeUses else [])) ∧
      (s.appendAt p.address added).groupingUses = s.groupingUses := by
  obtain ⟨m, j, n, is, hm, hn, hpath, hdescend⟩ := hp.has.cases
  have hat : n.at? is = some p.node := by
    have hnode := Node.map_node_descend is ⟨⟨p.address.module, p.address.part, [j]⟩, n, []⟩
    rw [hdescend] at hnode
    exact hnode.symm
  have hmodule : (m.mapPart (fun ns => ns.modify j (Node.appendAt added is)) p.address.part).dataUses.Perm
      (m.dataUses ++ added.flatMap Node.treeUses) :=
    Module.dataUses_mapPart hp.part (Node.flatMap_modify_perm hn (Node.treeUses_appendAt added hat))
  unfold Schema.appendAt
  rw [hpath]
  refine ⟨fun i => ?_, ?_⟩
  · unfold dataUses
    dsimp only
    rw [List.getElem?_modify]
    by_cases hi : p.address.module = i
    · rw [← hi, hm]
      simpa using hmodule
    · simp [hi]
  · have hkeeps : ∀ m : Module,
        (m.mapPart (fun ns => ns.modify j (Node.appendAt added is)) p.address.part).groupingUses = m.groupingUses := by
      intro m
      cases hpart : p.address.part with
      | groupings => exact absurd hpart hp.part
      | _ => rfl
    exact flatMap_of_forall₂ (forall₂_modify (R := fun m m' => m'.groupingUses = m.groupingUses) (fun _ => rfl)
      fun m _ => hkeeps m) fun _ _ _ h => h

open Expansion

variable {M : Expanded}

/-- Modules have the `uses` that they are declared with before augments are applied. -/
theorem uses_of_modules {S : Schema} (hM : M.Unfolded declared)
    (h : List.Forall₂ (ModuleUnfolds declared M) declared.modules.zipIdx S.modules) :
    (∀ i, S.dataUses i = declared.dataUses i) ∧ S.groupingUses = declared.groupingUses := by
  have hmodule : ∀ {i m m'}, declared.modules[i]? = some m → ModuleUnfolds declared M (m, i) m' →
      m'.dataUses = m.dataUses ∧ m'.groupingUses = m.groupingUses := by
    intro i m m' hm hunfolds
    refine ⟨?_, ?_⟩
    · rw [Module.dataUses, Module.dataUses, List.flatMap_append, List.flatMap_append, forall₂_treeUses hunfolds.data,
        forall₂_treeUses hunfolds.rpcs]
    · have hgroupings : m'.groupings.flatMap Node.treeUses =
          (declared.tops i .groupings).flatMap (·.node.treeUses) :=
        flatMap_of_forall₂ hunfolds.groupings fun g n hg hn => (hM.unfolds hg hn).treeUses
      have htops : (declared.tops i .groupings).map (·.node) = m.groupings := by
        refine List.ext_getElem? fun j => ?_
        rw [tops, hm, List.getElem?_map, Place.getElem?_ofChildren, Option.map_map]
        exact Option.map_id'
      rw [Module.groupingUses, hgroupings, Module.groupingUses, ← htops, List.flatMap_map]
  refine ⟨fun i => ?_, ?_⟩
  · unfold dataUses
    cases hi : declared.modules[i]? with
    | none =>
      have hlength := h.length_eq
      rw [List.length_zipIdx] at hlength
      rw [List.getElem?_eq_none_iff, hlength, ← List.getElem?_eq_none_iff] at hi
      rw [hi]
    | some m =>
      obtain ⟨m', hm', hunfolds⟩ := getElem?_of_forall₂ (i := i) (a := (m, i)) h (by simp [List.getElem?_zipIdx, hi])
      rw [hm', Option.map_some, Option.map_some, (hmodule hi hunfolds).1]
  · have hzip : declared.modules.zipIdx.flatMap (fun mi => mi.1.groupingUses) = declared.groupingUses := by
      rw [groupingUses, ← List.flatMap_map, List.zipIdx_map_fst]
    rw [← hzip]
    exact flatMap_of_forall₂ h fun mi m' hmi hunfolds =>
      (hmodule (List.mem_zipIdx_iff_getElem?.mp hmi) hunfolds).2

/-- What stands at the target of an augment does so still when others have been applied. -/
theorem Grafts.targetOf {augments : List Declaration.Augment} (h : Grafts declared M augments s s')
    {x : Declaration.Augment} {a : Address} (hx : s.targetOf x = some a) : s'.targetOf x = some a := by
  induction h with
  | nil => exact hx
  | cons _ hp _ _ ih => exact ih ((growsTo_appendAt (isTarget_of_node? hp) _).targetOf hx)

/-- Augments bring what they add to the modules of their targets. -/
theorem Grafts.uses {augments : List Declaration.Augment} (h : Grafts declared M augments s s') :
    (∀ i, (s'.dataUses i).Perm (s.dataUses i ++ (s'.graftedIn augments i).flatMap Node.treeUses)) ∧
      s'.groupingUses = s.groupingUses ∧ ∀ x ∈ augments, (s'.targetOf x).isSome = true := by
  induction h with
  | nil S => exact ⟨fun i => by simp [graftedIn], rfl, by simp⟩
  | @cons x xs S S' target p added htarget hp hadded hrest ih =>
    have hIsTarget := isTarget_of_node? hp
    obtain ⟨hadd, hgroupings⟩ := uses_appendAt hIsTarget added
    have hx : S.targetOf x = some p.address := by
      rw [Schema.targetOf, htarget, Option.bind_some, hp, Option.map_some]
    have hx' : S'.targetOf x = some p.address :=
      Grafts.targetOf hrest ((growsTo_appendAt hIsTarget added).targetOf hx)
    refine ⟨fun i => ?_, ih.2.1.trans hgroupings, List.forall_mem_cons.mpr ⟨by rw [hx']; rfl, ih.2.2⟩⟩
    have hsplit : (S'.graftedIn (x :: xs) i).flatMap Node.treeUses =
        (if p.address.module = i then added.flatMap Node.treeUses else []) ++
          (S'.graftedIn xs i).flatMap Node.treeUses := by
      rw [forall₂_treeUses hadded, graftedIn, List.filter_cons, hx', Option.any_some]
      by_cases hi : p.address.module = i
      · rw [if_pos (beq_iff_eq.mpr hi), if_pos hi, List.flatMap_cons, List.flatMap_append]
        rfl
      · rw [if_neg (by simpa using hi), if_neg hi]
        rfl
    rw [hsplit, ← List.append_assoc]
    exact (ih.1 i).trans ((hadd i).append_right _)

/-! ### Loaded schemas -/

theorem usesAt_append (tops tops' : List Place) : usesAt (tops ++ tops') = usesAt tops ++ usesAt tops' := by
  rw [usesAt, List.flatMap_append, List.flatMap_append]
  rfl

theorem usesAt_flatMap {α : Type} (l : List α) (f : α → List Place) :
    usesAt (l.flatMap f) = l.flatMap fun x => usesAt (f x) := by
  induction l with
  | nil => rfl
  | cons x l ih => rw [List.flatMap_cons, usesAt_append, ih, List.flatMap_cons]

theorem usesAt_tops (s : Schema) (i : Nat) : usesAt (s.tops i .data ++ s.tops i .rpcs) = s.dataUses i := by
  rw [usesAt_append, tops, tops, dataUses]
  cases s.modules[i]? with
  | none => rfl
  | some m =>
    rw [Option.map_some, Option.getD_some, Module.dataUses, List.flatMap_append]
    exact congr (congrArg _ (Node.flatMap_ofChildren ..)) (Node.flatMap_ofChildren ..)

theorem usesAt_groupings (h : ∀ m ∈ s.modules, m.retired = false) : usesAt s.groupings = s.groupingUses := by
  have hmodule : ∀ mi ∈ s.modules.zipIdx,
      usesAt (Place.ofChildren (Address.top mi.2 .groupings) [] 0 mi.1.listed) = mi.1.groupingUses := by
    intro mi hmi
    have hretired := h mi.1 (List.mem_of_getElem? (List.mem_zipIdx_iff_getElem?.mp hmi))
    rw [usesAt, Node.flatMap_ofChildren, Module.listed, hretired]
    rfl
  rw [groupings, usesAt_flatMap, List.flatMap_congr hmodule, groupingUses, ← List.flatMap_map, List.zipIdx_map_fst]

theorem LoadedFrom.retired {augmented : Prop} (h : LoadedFrom augmented declared M s) {m : Module}
    (hm : m ∈ s.modules) : m.retired = false := by
  obtain ⟨mi, hmi, hyields⟩ := exists_of_forall₂_right h.yields hm
  rw [(name_of_moduleYields hyields).2.2]
  exact (h.modules mi.1 (List.mem_of_getElem? (List.mem_zipIdx_iff_getElem?.mp hmi))).retired

/-- A `uses` means the same before and after expansion. -/
theorem LoadedFrom.means {augmented : Prop} (h : LoadedFrom augmented declared M s) (qname : String) :
    s.means qname = declared.means qname := by
  funext use
  unfold Schema.means
  cases hd : declared.grouping? use.2 use.1 with
  | none =>
    cases hs : s.grouping? use.2 use.1 with
    | none => rfl
    | some g' =>
      obtain ⟨g, hg, -⟩ := h.exists_declared_grouping hs
      rw [hd] at hg
      cases hg
  | some g =>
    obtain ⟨g', hs, hsame⟩ := h.exists_grouping hd
    rw [hs, Option.any_some, Option.any_some, hsame.qname]

theorem uses_withConfig (s : Schema) : (∀ i, (⟨s.modules.map Module.withConfig⟩ : Schema).dataUses i = s.dataUses i) ∧
    (⟨s.modules.map Module.withConfig⟩ : Schema).groupingUses = s.groupingUses := by
  have hflags : ∀ ns : List Node, (Node.withConfigAll true ns).flatMap Node.treeUses = ns.flatMap Node.treeUses := by
    intro ns
    rw [Node.withConfigAll_eq, List.flatMap_map]
    exact List.flatMap_congr fun n _ => Node.treeUses_of_erased (Node.erased_withConfig true n)
  have herased : ∀ ns : List Node,
      (Node.mapStatementsAll Statement.erased ns).flatMap Node.treeUses = ns.flatMap Node.treeUses := by
    intro ns
    rw [← Node.treeUsesAll_eq, Node.treeUsesAll_erased, Node.treeUsesAll_eq]
  refine ⟨fun i => ?_, ?_⟩
  · unfold dataUses
    rw [List.getElem?_map, Option.map_map]
    congr 2
    funext m
    show ((Node.withConfigAll true m.data ++ Node.mapStatementsAll Statement.erased m.rpcs).flatMap _) = m.dataUses
    rw [List.flatMap_append, hflags, herased, ← List.flatMap_append]
    rfl
  · unfold groupingUses
    rw [List.flatMap_map]
    exact List.flatMap_congr fun m _ => hflags m.groupings

/-- A loaded schema has the `uses` of its document, with what they mean: those of its groupings, and in the data and
the rpcs of each module those that are declared there or come with an augment whose target stands there. All others
are copies. -/
theorem uses_of_load {d : Datum} (h : (load d).result = .ok s) : ∃ modules augments,
    Declaration.document d = .ok (modules, augments) ∧ (∀ qname, s.means qname = (⟨modules⟩ : Schema).means qname) ∧
      usesAt s.groupings = (⟨modules⟩ : Schema).groupingUses ∧
      ∀ i, (usesAt (s.tops i .data ++ s.tops i .rpcs)).Perm
        ((⟨modules⟩ : Schema).dataUses i ++ (s.graftedIn augments i).flatMap Node.treeUses) := by
  obtain ⟨modules, augments, S, M, hdocument, hrun, rfl⟩ := exists_expanding h
  have hunrolls := expanding_unrolls ⟨modules⟩ augments .nil S M hrun
  obtain ⟨S₀, hmodules, hgrafts⟩ := hunrolls.expanded
  obtain ⟨hdata, hgroupings⟩ := uses_of_modules hunrolls.unfolded hmodules
  obtain ⟨hdata', hgroupings', htargets⟩ := Grafts.uses hgrafts
  obtain ⟨hdata'', hgroupings''⟩ := uses_withConfig S
  have hfrom := loadedFrom_of_expanding hdocument hrun
  refine ⟨modules, augments, hdocument, hfrom.means, ?_, fun i => ?_⟩
  · rw [usesAt_groupings fun m hm => hfrom.retired hm, hgroupings'', hgroupings', hgroupings]
  · have hgrafted : (⟨S.modules.map Module.withConfig⟩ : Schema).graftedIn augments i = S.graftedIn augments i := by
      refine congrArg (List.flatMap fun x : Declaration.Augment => x.nodes) (List.filter_congr fun x hx => ?_)
      obtain ⟨a, ha⟩ := Option.isSome_iff_exists.mp (htargets x hx)
      rw [ha, (growsTo_withConfig S).targetOf ha]
    rw [usesAt_tops, hdata'', hgrafted, ← hdata i]
    exact hdata' i

end Schema

end RestconfApi
