import Mathlib.Logic.Equiv.Basic
import RestconfApi.Proofs.Schema.Augmenting
import RestconfApi.Proofs.Schema.Declaration
import RestconfApi.Proofs.Schema.Uses

/-!
# Schema: modules in another order

Where the modules of a schema stand in another order, names mean the same groupings at other addresses, and expansion
makes the same trees out of them, but for the addresses that copies were made from.
-/

namespace RestconfApi

open Expansion

/-! ### Moved nodes and places -/

/-- A statement when the module that it is copied from stands where `f` says. -/
def Statement.moved (f : Nat → Nat) (st : Statement) : Statement :=
  { st with template := st.template.map (Address.moved f) }

namespace Node

/-- The tree when the modules that its copies come from stand where `f` says. -/
def moved (f : Nat → Nat) : Node → Node := mapStatements (Statement.moved f)

variable {f : Nat → Nat}

theorem children_moved (n : Node) : (n.moved f).children = n.children.map (moved f) := children_mapStatements n

theorem toStatement_moved (n : Node) : (n.moved f).toStatement = n.toStatement.moved f := toStatement_mapStatements n

mutual

theorem grows_moved (grown : Prop) : ∀ n : Node, n.Grows grown (n.moved f)
  | ⟨_, cs⟩ => ⟨rfl, rfl, mapStatementsAll _ cs, [], (List.append_nil _).symm, growAll_moved grown cs, fun _ => rfl⟩

theorem growAll_moved (grown : Prop) : ∀ ns : List Node, GrowAll grown ns (mapStatementsAll (Statement.moved f) ns)
  | [] => rfl
  | n :: ns => ⟨_, _, rfl, grows_moved grown n, growAll_moved grown ns⟩

end

theorem forall₂_moved (grown : Prop) (ns : List Node) : List.Forall₂ (Grows grown) ns (ns.map (moved f)) := by
  have hall := growAll_iff.mp (growAll_moved (f := f) grown ns)
  rwa [mapStatementsAll_eq] at hall

mutual

theorem copyFor_moved (owner : Name) (source : String) (a : Address) :
    ∀ n : Node, (n.moved f).copyFor owner source (a.moved f) = (n.copyFor owner source a).moved f
  | ⟨st, cs⟩ => by
    have hcs := copyAllFor_moved owner source a 0 cs
    simp only [moved, mapStatements, copyFor] at hcs ⊢
    rw [hcs]
    rfl

theorem copyAllFor_moved (owner : Name) (source : String) (a : Address) (i : Nat) :
    ∀ ns : List Node, copyAllFor owner source (a.moved f) i (mapStatementsAll (Statement.moved f) ns) =
      mapStatementsAll (Statement.moved f) (copyAllFor owner source a i ns)
  | [] => rfl
  | n :: ns => by
    have hn := copyFor_moved owner source (a.child i) n
    rw [Address.moved_child] at hn
    rw [mapStatementsAll, copyAllFor, copyAllFor, mapStatementsAll, copyAllFor_moved owner source a (i + 1) ns]
    exact congrArg (· :: _) hn

end

end Node

/-- What a module declares is no copy. -/
theorem Declaration.Declares.moved_eq {name : Name} {st : Statement} (h : Declares name st) (f : Nat → Nat) :
    st.moved f = st := by
  rw [Statement.moved, h.template, Option.map_none, ← h.template]

/-- A place when the modules stand where `f` says. -/
def Place.moved (f : Nat → Nat) (p : Place) : Place := { p with address := p.address.moved f }

theorem Place.ofChildren_moved (f : Nat → Nat) (a : Address) (above : List Node) (i : Nat) (ns : List Node) :
    ofChildren (a.moved f) above i ns = (ofChildren a above i ns).map (Place.moved f) := by
  induction ns generalizing i with
  | nil => rfl
  | cons n ns ih => rw [ofChildren, ofChildren, List.map_cons, ih]; rfl

namespace Expansion

variable {f : Equiv.Perm Nat}

/-- The expanded groupings when the modules stand where `f` says. -/
def Expanded.moved (f : Nat → Nat) (M : Expanded) : Expanded := M.map fun e => (e.1.moved f, e.2.moved f)

theorem moved_inj {a b : Address} : a.moved f = b.moved f ↔ a = b := by
  obtain ⟨i, part, path⟩ := a
  obtain ⟨j, part', path'⟩ := b
  simp [Address.moved]

theorem Expanded.get?_moved (M : Expanded) (a : Address) :
    (M.moved f).get? (a.moved f) = (M.get? a).map (Node.moved f) := by
  induction M with
  | nil => rfl
  | cons e M ih =>
    obtain ⟨b, n⟩ := e
    have hkey : (b.moved f == a.moved f) = (b == a) := by
      rw [Bool.eq_iff_iff, beq_iff_eq, beq_iff_eq, moved_inj]
    rw [moved, List.map_cons, Entries.get?, Entries.get?, hkey]
    split
    · rfl
    · exact ih

end Expansion

namespace Schema

/-! ### Names in another order -/

/-- The second schema has the modules of the first one, the `i`-th one at `f i`. No two of them have the same name or
the same short name, and all are as they are declared. -/
structure Reorders (f : Equiv.Perm Nat) (s s' : Schema) : Prop where
  modules : ∀ i, s'.modules[f i]? = s.modules[i]?
  names : ∀ {i j : Nat} {m m' : Module}, s.modules[i]? = some m → s.modules[j]? = some m' →
    (m.name == m'.name) = true → i = j
  shortNames : ∀ {i j : Nat} {m m' : Module}, s.modules[i]? = some m → s.modules[j]? = some m' →
    (m.shortName == m'.shortName) = true → i = j
  declared : ∀ m ∈ s.modules, Declaration.DeclaresModule m

variable {f : Equiv.Perm Nat} {s s' : Schema}

theorem Reorders.symm (h : Reorders f s s') : Reorders f.symm s' s where
  modules i := by
    have hi := h.modules (f.symm i)
    rw [Equiv.apply_symm_apply] at hi
    exact hi.symm
  names := by
    intro i j m m' hm hm' hname
    have hi := h.modules (f.symm i)
    have hj := h.modules (f.symm j)
    rw [Equiv.apply_symm_apply] at hi hj
    exact f.symm.injective (h.names (hi.symm.trans hm) (hj.symm.trans hm') hname)
  shortNames := by
    intro i j m m' hm hm' hname
    have hi := h.modules (f.symm i)
    have hj := h.modules (f.symm j)
    rw [Equiv.apply_symm_apply] at hi hj
    exact f.symm.injective (h.shortNames (hi.symm.trans hm) (hj.symm.trans hm') hname)
  declared := by
    intro m hm
    obtain ⟨i, hi⟩ := List.mem_iff_getElem?.mp hm
    have hmodule := h.modules (f.symm i)
    rw [Equiv.apply_symm_apply, hi] at hmodule
    exact h.declared m (List.mem_of_getElem? hmodule.symm)

theorem Reorders.mem (h : Reorders f s s') {m : Module} (hm : m ∈ s.modules) : m ∈ s'.modules := by
  obtain ⟨i, hi⟩ := List.mem_iff_getElem?.mp hm
  exact List.mem_of_getElem? ((h.modules i).trans hi)

/-- No two elements pass the test. -/
def AtMostOne {α : Type} (l : List α) (P : α → Bool) : Prop :=
  ∀ {i j : Nat} {a b : α}, l[i]? = some a → l[j]? = some b → P a = true → P b = true → i = j

theorem find?_zipIdx_eq_some_iff {α : Type} {l : List α} {P : α → Bool} (hunique : AtMostOne l P) {a : α} {i : Nat} :
    l.zipIdx.find? (fun x => P x.1) = some (a, i) ↔ l[i]? = some a ∧ P a = true := by
  constructor
  · intro hfind
    have hmem := List.mem_of_find?_eq_some hfind
    have hP := List.find?_some hfind
    exact ⟨List.mem_zipIdx_iff_getElem?.mp hmem, hP⟩
  · rintro ⟨ha, hP⟩
    have hsome : (l.zipIdx.find? fun x => P x.1).isSome = true :=
      List.find?_isSome.mpr ⟨(a, i), List.mem_zipIdx_iff_getElem?.mpr ha, hP⟩
    obtain ⟨⟨b, j⟩, hfind⟩ := Option.isSome_iff_exists.mp hsome
    have hb := List.mem_zipIdx_iff_getElem?.mp (List.mem_of_find?_eq_some hfind)
    have hPb := List.find?_some hfind
    obtain rfl := hunique ha hb hP hPb
    obtain rfl := Option.some.inj (ha.symm.trans hb)
    exact hfind

/-- A module that is found by a test that no other one passes is found in another order. -/
theorem Reorders.find? (h : Reorders f s s') {P : Module → Bool} (hunique : AtMostOne s.modules P) :
    s'.modules.zipIdx.find? (fun mi => P mi.1) =
      (s.modules.zipIdx.find? fun mi => P mi.1).map fun mi => (mi.1, f mi.2) := by
  have hunique' : AtMostOne s'.modules P := by
    intro i j m m' hm hm' hP hP'
    exact f.symm.injective (hunique ((h.symm.modules i).trans hm) ((h.symm.modules j).trans hm') hP hP')
  ext ⟨m, j⟩
  rw [find?_zipIdx_eq_some_iff hunique', Option.map_eq_some_iff]
  constructor
  · rintro ⟨hm, hP⟩
    have hfind := (find?_zipIdx_eq_some_iff hunique).mpr ⟨(h.symm.modules j).trans hm, hP⟩
    exact ⟨(m, f.symm j), hfind, by simp⟩
  · rintro ⟨⟨m', i⟩, hfind, heq⟩
    obtain ⟨rfl, rfl⟩ := Prod.mk.inj heq
    obtain ⟨hm, hP⟩ := (find?_zipIdx_eq_some_iff hunique).mp hfind
    exact ⟨(h.modules i).trans hm, hP⟩

theorem Reorders.module?_text (h : Reorders f s s') (tag : String) :
    s'.module? (.text tag) = (s.module? (.text tag)).map fun mi => (mi.1, f mi.2) := by
  refine h.find? (P := fun m => m.name == .text tag) ?_
  intro i j m m' hm hm' hname hname'
  exact h.names hm hm' (Datum.beq_of_beq_scalar hname hname')

theorem Reorders.module?_name (h : Reorders f s s') {m : Module} (hm : m ∈ s.modules) :
    s'.module? m.name = (s.module? m.name).map fun mi => (mi.1, f mi.2) := by
  refine h.find? (P := fun m' => m'.name == m.name) ?_
  intro i j m₁ m₂ h₁ h₂ hname hname'
  obtain ⟨k, hk⟩ := List.mem_iff_getElem?.mp hm
  rw [h.names h₁ hk hname, h.names h₂ hk hname']

theorem Reorders.moduleByPrefix? (h : Reorders f s s') (tag : String) :
    s'.moduleByPrefix? (.text tag) = (s.moduleByPrefix? (.text tag)).map fun mi => (mi.1, f mi.2) := by
  have hshort := h.find? (P := fun m => m.shortName == .text tag) fun {i j m m'} hm hm' hname hname' =>
    h.shortNames hm hm' (Datum.beq_of_beq_scalar hname hname')
  rw [Schema.moduleByPrefix?, Schema.moduleByPrefix?, h.module?_text, hshort]
  cases s.module? (.text tag) <;> rfl

theorem Reorders.position? (h : Reorders f s s') (tag : String) :
    s'.position? tag = (s.position? tag).map f := by
  rw [Schema.position?, Schema.position?, h.moduleByPrefix?, Option.map_map, Option.map_map]
  rfl

theorem Reorders.tops (h : Reorders f s s') (i : Nat) (part : Part) :
    s'.tops (f i) part = (s.tops i part).map (Place.moved f) := by
  rw [Schema.tops, Schema.tops, h.modules]
  cases s.modules[i]? with
  | none => rfl
  | some m => exact Place.ofChildren_moved f (Address.top i part) [] 0 (m.part part)

/-- A `uses` means the same grouping. -/
theorem Reorders.grouping? (h : Reorders f s s') {m : Module} (hm : m ∈ s.modules) (ref : String) :
    s'.grouping? ref m.name = (s.grouping? ref m.name).map (Place.moved f) := by
  have hresolve : s'.resolveName ref m.name =
      ((s.resolveName ref m.name).1.map fun mi => (mi.1, f mi.2), (s.resolveName ref m.name).2) := by
    rw [resolveName, resolveName]
    dsimp only
    split
    · rw [h.module?_name hm]
    · rw [h.moduleByPrefix?]
  rw [Schema.grouping?, Schema.grouping?, hresolve]
  obtain ⟨found, name⟩ := s.resolveName ref m.name
  cases found with
  | none => rfl
  | some mi =>
    have hmoved := Place.ofChildren_moved f (Address.top mi.2 .groupings) [] 0 mi.1.listed
    have hlist : Place.ofChildren (Address.top (f mi.2) .groupings) [] 0 mi.1.listed = _ := hmoved
    dsimp only [Option.map_some]
    rw [hlist, List.find?_map]
    rfl

/-! ### Expansion in another order -/

mutual

theorem moved_eq (f : Nat → Nat) {name : Name} : ∀ {n : Node}, Declaration.DeclaresTree name n → n.moved f = n
  | ⟨st, cs⟩, hn => by
    rw [Node.moved, Node.mapStatements, hn.1.moved_eq f, movedAll_eq f hn.2]

theorem movedAll_eq (f : Nat → Nat) {name : Name} :
    ∀ {ns : List Node}, Node.EverywhereAll (fun st _ => Declaration.Declares name st) ns →
      Node.mapStatementsAll (Statement.moved f) ns = ns
  | [], _ => rfl
  | n :: ns, hns => by
    rw [Node.mapStatementsAll, movedAll_eq f hns.2]
    exact congrArg (· :: ns) (moved_eq f hns.1)

end

variable {M M' : Expanded}

theorem Reorders.isBlock (h : Reorders f s s') {m : Module} (hm : m ∈ s.modules) {st : Statement}
    (howner : st.owner = m.name) {ref : String} {block : List Node} (hblock : IsBlock s st ref block M) :
    IsBlock s' st ref (block.map (Node.moved f)) (M.moved f) := by
  have hgrouping := h.grouping? hm ref
  rw [← howner] at hgrouping
  rcases hblock with ⟨hnone, rfl⟩ | ⟨g, b, hg, hb, rfl⟩
  · rw [hnone] at hgrouping
    exact .inl ⟨hgrouping, rfl⟩
  · rw [hg] at hgrouping
    refine .inr ⟨g.moved f, b.moved f, hgrouping, ?_, ?_⟩
    · have hget := M.get?_moved (f := f) g.address
      rw [hb] at hget
      exact hget
    · have hcopies := Node.copyAllFor_moved (f := f) st.owner g.node.qname g.address 0 b.children
      rw [Node.mapStatementsAll_eq, Node.mapStatementsAll_eq] at hcopies
      have hcopies' : Node.copyAllFor st.owner g.node.qname (g.moved f).address 0 (b.moved f).children =
          (Node.copyAllFor st.owner g.node.qname g.address 0 b.children).map (Node.moved f) := by
        rw [Node.children_moved]
        exact hcopies
      show _ = (Node.copyAllFor st.owner g.node.qname (g.moved f).address 0 (b.moved f).children).map
        fun n => { n with addedBy := some g.node.qname }
      rw [hcopies', List.map_map, List.map_map]
      exact List.map_congr_left fun ⟨_, _⟩ _ => rfl

mutual

/-- A tree that a module declares is unfolded to the same tree. -/
theorem Reorders.unfolds (h : Reorders f s s') {m : Module} (hm : m ∈ s.modules) :
    ∀ {n n' : Node}, Declaration.DeclaresTree m.name n → Unfolds s M n n' → Unfolds s' (M.moved f) n (n'.moved f)
  | ⟨st, cs⟩, n', hn, hunfolds => by
    obtain ⟨hst, hcs⟩ := hn
    obtain ⟨htop, own, blocks, hchildren, hown, hblocks⟩ := hunfolds
    have hown' := Reorders.unfoldsAll h hm hcs hown
    refine ⟨?_, own.map (Node.moved f), blocks.map (List.map (Node.moved f)), ?_, hown', ?_⟩
    · rw [Node.toStatement_moved, htop, hst.moved_eq f]
    · rw [Node.children_moved, hchildren, List.map_append, List.map_flatten]
    · refine List.forall₂_map_right_iff.mpr (hblocks.imp fun ref block hblock => ?_)
      exact h.isBlock hm hst.owner hblock

theorem Reorders.unfoldsAll (h : Reorders f s s') {m : Module} (hm : m ∈ s.modules) :
    ∀ {ns ns' : List Node}, Node.EverywhereAll (fun st _ => Declaration.Declares m.name st) ns →
      UnfoldsAll s M ns ns' → UnfoldsAll s' (M.moved f) ns (ns'.map (Node.moved f))
  | [], _, _, rfl => rfl
  | _ :: _, _, hns, ⟨_, _, rfl, hn', hns'⟩ =>
    ⟨_, _, rfl, Reorders.unfolds h hm hns.1 hn', Reorders.unfoldsAll h hm hns.2 hns'⟩

end

theorem Reorders.forall₂_unfolds (h : Reorders f s s') {m : Module} (hm : m ∈ s.modules) {ns ns' : List Node}
    (hns : ∀ n ∈ ns, Declaration.DeclaresTree m.name n) (hunfolds : List.Forall₂ (Unfolds s M) ns ns') :
    List.Forall₂ (Unfolds s' (M.moved f)) ns (ns'.map (Node.moved f)) :=
  unfoldsAll_iff.mp (h.unfoldsAll hm (Node.everywhereAll_iff.mpr hns) (unfoldsAll_iff.mpr hunfolds))

theorem Reorders.declaresTree (h : Reorders f s s') {i : Nat} {part : Part} {p : Place} (hp : p ∈ s.tops i part) :
    ∃ m ∈ s.modules, Declaration.DeclaresTree m.name p.node := by
  obtain ⟨m, hm⟩ := exists_module_of_mem_tops hp
  have hmem := List.mem_of_getElem? hm
  rw [Schema.tops, hm] at hp
  obtain ⟨j, n, hn, rfl⟩ := Place.mem_ofChildren.mp hp
  exact ⟨m, hmem, (h.declared m hmem).trees part n (List.mem_of_getElem? hn)⟩

/-- Groupings that have been expanded one after the other can be so in another order of modules. -/
theorem Reorders.unfolded (h : Reorders f s s') (hM : M.Unfolded s) : (M.moved f).Unfolded s' := by
  induction hM with
  | nil => exact .nil
  | @snoc M i g n _ hg hnone hunfolds ih =>
    obtain ⟨m, hm, htree⟩ := h.declaresTree hg
    have hg' : g.moved f ∈ s'.tops (f i) .groupings := by
      rw [h.tops]
      exact List.mem_map_of_mem hg
    have hnone' : (M.moved f).get? (g.moved f).address = none := by
      have hget := M.get?_moved (f := f) g.address
      rw [hnone] at hget
      exact hget
    have hunfolds' : Unfolds s' (M.moved f) (g.moved f).node (n.moved f) := h.unfolds hm htree hunfolds
    have hsnoc := Expanded.Unfolded.snoc ih hg' hnone' hunfolds'
    rw [Expanded.moved, List.map_append]
    exact hsnoc

/-- Groupings use the same ones. -/
theorem Reorders.uses (h : Reorders f s s') {g g' : Place} (huses : s.Uses g g') :
    s'.Uses (g.moved f) (g'.moved f) := by
  obtain ⟨⟨i, hi⟩, is, n, hn, ref, href, hgrouping⟩ := huses
  obtain ⟨m, hm, htree⟩ := h.declaresTree hi
  have howner : n.owner = m.name := (Node.everywhere_iff.mp (htree.at? hn)).1.owner
  refine ⟨⟨f i, ?_⟩, is, n, hn, ref, href, ?_⟩
  · rw [h.tops]
    exact List.mem_map_of_mem hi
  · rw [howner] at hgrouping ⊢
    rw [h.grouping? hm, hgrouping]
    rfl

theorem Reorders.hasNamesakes (h : Reorders f s s') (hnamesakes : s.HasNamesakes) : s'.HasNamesakes := by
  obtain ⟨g, g', hleads, hne, hname⟩ := hnamesakes
  refine ⟨g.moved f, g'.moved f, hleads.lift (Place.moved f) fun _ _ huses => h.uses huses, ?_, hname⟩
  intro heq
  exact hne (moved_inj.mp heq)

/-! ### Expanded schemas -/

variable {S S' : Schema}

theorem position?_of_modules (hmodules : List.Forall₂ (ModuleUnfolds s M) s.modules.zipIdx S.modules) (tag : String) :
    S.position? tag = s.position? tag := by
  refine position?_of_names ?_ tag
  have hnames : List.Forall₂ (fun (mi : Module × Nat) (m' : Module) => m'.name = mi.1.name ∧
      m'.shortName = mi.1.shortName) s.modules.zipIdx S.modules := by
    refine hmodules.imp fun mi m' hm' => ?_
    rw [hm'.rest]
    exact ⟨rfl, rfl⟩
  have hmap := List.forall₂_map_left_iff (f := fun mi : Module × Nat => mi.1)
    (R := fun m m' : Module => m'.name = m.name ∧ m'.shortName = m.shortName) (l := s.modules.zipIdx) (u := S.modules)
  rw [List.zipIdx_map_fst] at hmap
  exact hmap.mpr hnames

/-- The expanded schemas, before any augment is applied, have the same data nodes. -/
theorem Reorders.growsTo (h : Reorders f s s') (hM : M.Unfolded s) (hM' : M'.Unfolded s')
    (hmodules : List.Forall₂ (ModuleUnfolds s M) s.modules.zipIdx S.modules)
    (hmodules' : List.Forall₂ (ModuleUnfolds s' M') s'.modules.zipIdx S'.modules) : S.GrowsTo False f S' where
  position tag := by
    rw [position?_of_modules hmodules, position?_of_modules hmodules', h.position?]
  module := by
    intro i m₁ hm₁
    obtain ⟨⟨m, j⟩, hget, hunfolds⟩ := getElem?_of_forall₂_right hmodules hm₁
    rw [List.getElem?_zipIdx, Option.map_eq_some_iff] at hget
    obtain ⟨m, hm, heq⟩ := hget
    obtain ⟨rfl, rfl⟩ := Prod.mk.inj heq
    have hget' : s'.modules.zipIdx[f i]? = some (m, f i) := by
      rw [List.getElem?_zipIdx, h.modules, hm]
      simp
    obtain ⟨m₂, hm₂, hunfolds'⟩ := getElem?_of_forall₂ hmodules' hget'
    have hmem := List.mem_of_getElem? hm
    have hdeclared := h.declared m hmem
    have hagrees := (h.unfolded hM).agrees hM'
    have hpart : ∀ {ns ns₁ ns₂ : List Node}, (∀ n ∈ ns, Declaration.DeclaresTree m.name n) →
        List.Forall₂ (Unfolds s M) ns ns₁ → List.Forall₂ (Unfolds s' M') ns ns₂ →
          List.Forall₂ (Node.Grows False) ns₁ ns₂ := by
      intro ns ns₁ ns₂ hns h₁ h₂
      rw [← eq_of_forall₂ (h.forall₂_unfolds hmem hns h₁) h₂ fun _ _ _ hn hn' => hn.eq hagrees hn']
      exact Node.forall₂_moved False ns₁
    refine ⟨m₂, hm₂, ?_, ?_, hpart (hdeclared.trees .data) hunfolds.data hunfolds'.data,
      hpart (hdeclared.trees .rpcs) hunfolds.rpcs hunfolds'.rpcs⟩
    · rw [hunfolds.rest, hunfolds'.rest]
    · rw [hunfolds.rest, hunfolds'.rest]

end Schema

end RestconfApi
