import RestconfApi.Proofs.Schema.Loading
import RestconfApi.Proofs.Schema.Templates

/-!
# Schema: places of a loaded schema

In a loaded schema the template of a copy stands in a grouping that was expanded before, so that templates are
ranked; a copy has what its template has, child by child; and a declared node that uses a grouping has all
that the grouping has.
-/

namespace RestconfApi

namespace Place

theorem top_of_descend {is : List Nat} {p q : Place} (h : descend is p = some q) : q.top = p.top := by
  induction is generalizing p with
  | nil =>
    obtain rfl := Option.some.inj h
    rfl
  | cons i is ih =>
    simp only [descend] at h
    split at h
    · rename_i n hn
      rw [ih h]
      exact top_of_childAt? (i := i) (by rw [childAt?, hn]; rfl)
    · cases h

theorem forall₂_ofChildren {R : Place → Node → Prop} {a : Address} {above : List Node} {i : Nat}
    {ns ns' : List Node} (h : List.Forall₂ R (ofChildren a above i ns) ns') :
    List.Forall₂ (fun p p' => p.address = p'.address ∧ R p p'.node) (ofChildren a above i ns)
      (ofChildren a above i ns') := by
  induction ns generalizing i ns' with
  | nil =>
    cases h
    exact .nil
  | cons n ns ih =>
    cases h with
    | cons hn h => exact .cons ⟨rfl, hn⟩ (ih h)

end Place

theorem forall₂_zipIdx {α β : Type} {R : α × Nat → β → Prop} {l : List α} {l' : List β} {i : Nat}
    (h : List.Forall₂ R (l.zipIdx i) l') :
    List.Forall₂ (fun a b => a.2 = b.2 ∧ R a b.1) (l.zipIdx i) (l'.zipIdx i) := by
  induction l generalizing i l' with
  | nil =>
    cases h
    exact .nil
  | cons a l ih =>
    rw [List.zipIdx_cons] at h ⊢
    cases h with
    | cons ha h =>
      rw [List.zipIdx_cons]
      exact .cons ⟨rfl, ha⟩ (ih h)

namespace Expansion

variable {s : Schema} {M : Expanded}

/-! ### Order of expansion -/

/-- Each expanded grouping stems from those before it. -/
theorem Expanded.Built.split (h : M.Built s) {a : Address} {n : Node} (hn : M.get? a = some n) :
    ∃ pre post, M = pre ++ (a, n) :: post ∧ pre.get? a = none ∧ n.Everywhere (Stems s False pre.node?) ∧
      ∃ i, ∃ g ∈ s.tops i .groupings, g.address = a ∧ n.toStatement = g.node.toStatement := by
  induction h with
  | nil => cases hn
  | @snoc M i g m hM hg hnone htop heverywhere ih =>
    rw [Entries.get?_append] at hn
    rcases Option.or_eq_some_iff.mp hn with hold | ⟨-, hnew⟩
    · obtain ⟨pre, post, hM, hrest⟩ := ih hold
      exact ⟨pre, post ++ [(g.address, m)], by rw [hM, List.append_assoc]; rfl, hrest⟩
    · rw [Entries.get?] at hnew
      split at hnew
      · rename_i heq
        obtain rfl := eq_of_beq heq
        obtain rfl := Option.some.inj hnew
        exact ⟨M, [], rfl, hnone, heverywhere, i, g, hg, rfl, htop⟩
      · cases hnew

/-- The top statement above an address. -/
def topOf (a : Address) : Address := { a with path := a.path.take 1 }

/-- The position of a grouping in the order of expansion; everything else comes after all groupings. -/
def rank (M : Expanded) (a : Address) : Nat := M.findIdx fun e => e.1 == topOf a

theorem topOf_append {a : Address} (ha : a.path ≠ []) (is : List Nat) :
    topOf { a with path := a.path ++ is } = topOf a := by
  obtain ⟨m, part, path⟩ := a
  cases path with
  | nil => exact absurd rfl ha
  | cons j js => rfl

theorem rank_append {a : Address} (ha : a.path ≠ []) (is : List Nat) :
    rank M { a with path := a.path ++ is } = rank M a := by
  rw [rank, rank, topOf_append ha]

theorem findIdx_append_of_isSome {pre post : Expanded} {a : Address} (h : (pre.get? a).isSome = true) :
    (pre ++ post).findIdx (fun e => e.1 == a) < pre.length := by
  obtain ⟨j, hj, hja⟩ := Entries.isSome_get?_iff.mp h
  obtain ⟨e, he, rfl⟩ := List.mem_map.mp hj
  rw [List.findIdx_append, if_pos (List.findIdx_lt_length_of_exists ⟨e, he, hja⟩)]
  exact List.findIdx_lt_length_of_exists ⟨e, he, hja⟩

theorem findIdx_of_get?_none {pre : Expanded} {a : Address} (h : pre.get? a = none) (post : Expanded) :
    (pre ++ post).findIdx (fun e => e.1 == a) = pre.length + post.findIdx fun e => e.1 == a := by
  have hlen : pre.findIdx (fun e => e.1 == a) = pre.length := by
    refine List.findIdx_eq_length.mpr fun e he => ?_
    exact Entries.get?_eq_none_iff.mp h e.1 (List.mem_map_of_mem he)
  rw [List.findIdx_append, if_neg (by omega), Nat.add_comm]

theorem isSome_get?_of_node? {a : Address} {n : Node} (h : M.node? a = some n) :
    (M.get? (topOf a)).isSome = true := by
  unfold Expanded.node? at h
  unfold topOf
  split at h
  · cases h
  · rename_i i is hpath
    obtain ⟨b, hb, -⟩ := Option.bind_eq_some_iff.mp h
    rw [hpath, show (i :: is).take 1 = [i] from rfl, hb]
    rfl

end Expansion

namespace Schema

open Expansion

variable {augmented : Prop} {declared s : Schema} {M : Expanded}

/-! ### Trees -/

theorem LoadedFrom.module (h : LoadedFrom augmented declared M s) {i : Nat} {m' : Module}
    (hm' : s.modules[i]? = some m') :
    ∃ m, declared.modules[i]? = some m ∧ ModuleYields declared augmented M (m, i) m' := by
  obtain ⟨⟨m, j⟩, hm, hyields⟩ := getElem?_of_forall₂_right h.yields hm'
  rw [List.getElem?_zipIdx, Nat.zero_add] at hm
  obtain ⟨m', hm', heq⟩ := Option.map_eq_some_iff.mp hm
  obtain ⟨rfl, rfl⟩ := Prod.mk.inj heq
  exact ⟨m', hm', hyields⟩

theorem LoadedFrom.module_of_declared (h : LoadedFrom augmented declared M s) {i : Nat} {m : Module}
    (hm : declared.modules[i]? = some m) :
    ∃ m', s.modules[i]? = some m' ∧ ModuleYields declared augmented M (m, i) m' :=
  getElem?_of_forall₂ h.yields (a := (m, i)) (by simp [List.getElem?_zipIdx, hm])

/-- Where nodes of the schema stem from: groupings that come before them. -/
structure StemsAt (declared : Schema) (augmented : Prop) (M : Expanded) (p : Place) : Prop where
  exists_pre : ∃ pre post, M = pre ++ post ∧ rank M p.address = pre.length ∧
    Stems declared augmented pre.node? p.node.toStatement (Node.heads p.node.children)

theorem stemsAt_of_tree {n : Node} {a : Address} (ha : a.path ≠ []) {pre post : Expanded}
    (hM : M = pre ++ post) (hrank : rank M a = pre.length)
    (hn : n.Everywhere (Stems declared augmented pre.node?)) {is : List Nat} {p : Place}
    (hp : Place.descend is ⟨a, n, []⟩ = some p) : StemsAt declared augmented M p := by
  refine ⟨pre, post, hM, ?_, ?_⟩
  · rw [Place.address_of_descend hp, ← hrank]
    exact rank_append ha is
  · have hnode := Node.map_node_descend is ⟨a, n, []⟩
    rw [hp] at hnode
    exact (Node.everywhere_iff.mp (hn.at? hnode.symm)).1

/-- Nothing below a grouping has been added by an augment. -/
theorem LoadedFrom.stemsAt (h : LoadedFrom augmented declared M s) {p : Place} (hp : s.Has p) :
    StemsAt declared (augmented ∧ p.address.part ≠ .groupings) M p := by
  obtain ⟨m', j, n', is, hm', hn', -, hp⟩ := hp.cases
  obtain ⟨m, hm, hyields⟩ := h.module hm'
  -- outside the groupings, every expanded grouping comes before
  have hother : p.address.part ≠ .groupings → n'.Everywhere (Stems declared augmented M.node?) →
      StemsAt declared (augmented ∧ p.address.part ≠ .groupings) M p := by
    intro hpart hn
    refine stemsAt_of_tree (by simp) (List.append_nil M).symm ?_
      (hn.mono fun _ _ hs => hs.weaken fun ha => ⟨ha, hpart⟩) hp
    rw [rank]
    have hnone : M.get? (topOf ⟨p.address.module, p.address.part, [j]⟩) = none := by
      rw [← Option.not_isSome_iff_eq_none]
      intro hsome
      obtain ⟨b, hb⟩ := Option.isSome_iff_exists.mp hsome
      obtain ⟨-, -, -, -, -, i, g, hg, haddr, -⟩ := h.built.split hb
      obtain ⟨k, hk⟩ := address_of_mem_tops hg
      rw [hk] at haddr
      exact hpart (congrArg Address.part haddr).symm
    have := findIdx_of_get?_none hnone []
    rwa [List.append_nil] at this
  cases hpart : p.address.part with
  | data =>
    rw [hpart] at hn' hother
    obtain ⟨n, -, hy⟩ := getElem?_of_forall₂_right hyields.data hn'
    exact hother (by simp) hy.everywhere
  | rpcs =>
    rw [hpart] at hn' hother
    obtain ⟨n, -, hy⟩ := getElem?_of_forall₂_right hyields.rpcs hn'
    exact hother (by simp) hy.everywhere
  | groupings =>
    rw [hpart] at hn' hp
    obtain ⟨g, hg, b, hb, herased⟩ := getElem?_of_forall₂_right hyields.groupings hn'
    have haddr : g.address = ⟨p.address.module, .groupings, [j]⟩ := by
      rw [Schema.tops, hm] at hg
      dsimp only at hg
      rw [Place.getElem?_ofChildren] at hg
      obtain ⟨_, -, rfl⟩ := Option.map_eq_some_iff.mp hg
      simp [Address.child, Address.top]
    rw [haddr] at hb
    obtain ⟨pre, post, hM, hnone, heverywhere, -⟩ := h.built.split hb
    refine stemsAt_of_tree (by simp) hM ?_ ?_ hp
    · rw [rank, hM]
      have := findIdx_of_get?_none hnone ((⟨p.address.module, .groupings, [j]⟩, b) :: post)
      rw [List.findIdx_cons] at this
      simpa [topOf] using this
    · exact ((Node.everywhere_of_erased (fun _ _ => Stems.erased_iff) herased).mpr heverywhere).mono
        fun _ _ hs => hs.weaken False.elim

/-! ### Groupings -/

/-- Two places at one address that say the same but for their config flags. -/
def SamePlace (p p' : Place) : Prop :=
  p.address = p'.address ∧ p'.node.toStatement.erased = p.node.toStatement.erased

theorem SamePlace.name {p p' : Place} (h : SamePlace p p') : p'.node.name = p.node.name := by
  have := congrArg Statement.name h.2
  exact this

theorem SamePlace.qname {p p' : Place} (h : SamePlace p p') : p'.node.qname = p.node.qname := by
  have := congrArg Statement.qname h.2
  exact this

theorem LoadedFrom.tops (h : LoadedFrom augmented declared M s) {i : Nat} {m m' : Module}
    (hm : declared.modules[i]? = some m) (hm' : s.modules[i]? = some m')
    (hyields : ModuleYields declared augmented M (m, i) m') :
    List.Forall₂ SamePlace (declared.tops i .groupings) (s.tops i .groupings) := by
  have hall := (List.forall₂_and_left (p := fun g => declared.Has g) _ _).mpr
    ⟨fun g hg => has_of_mem_tops hg, hyields.groupings⟩
  rw [Schema.tops, hm] at hall
  rw [Schema.tops, Schema.tops, hm, hm']
  refine (Place.forall₂_ofChildren hall).imp ?_
  rintro g g' ⟨haddr, hg, b, hb, herased⟩
  refine ⟨haddr, ?_⟩
  obtain ⟨-, -, -, -, -, j, g₁, hg₁, haddr₁, htop⟩ := h.built.split hb
  rw [erased_toStatement herased, htop, (has_of_mem_tops hg₁).eq hg haddr₁]

/-! ### Top statements -/

/-- A top statement says what has been declared at its place. -/
theorem LoadedFrom.exists_declared (h : LoadedFrom augmented declared M s) {i : Nat} {m' : Module}
    (hm' : s.modules[i]? = some m') {part : Part} {p : Place} (hp : p ∈ s.tops i part) :
    ∃ m ∈ declared.modules, m'.name = m.name ∧
      ∃ n ∈ m.part part, p.node.toStatement.erased = n.toStatement.erased := by
  obtain ⟨m, hm, hyields⟩ := h.module hm'
  refine ⟨m, List.mem_of_getElem? hm, by rw [hyields.rest], ?_⟩
  have hlist : ∀ {ns ns' : List Node}, List.Forall₂ (Yields declared augmented M) ns ns' →
      p ∈ Place.ofChildren (Address.top i part) [] 0 ns' →
      ∃ n ∈ ns, p.node.toStatement.erased = n.toStatement.erased := by
    intro ns ns' hns hp
    obtain ⟨j, n', hn', rfl⟩ := Place.mem_ofChildren.mp hp
    obtain ⟨n, hn, hy⟩ := getElem?_of_forall₂_right hns hn'
    exact ⟨n, List.mem_of_getElem? hn, hy.top⟩
  cases part with
  | data =>
    rw [Schema.tops, hm'] at hp
    exact hlist hyields.data hp
  | rpcs =>
    rw [Schema.tops, hm'] at hp
    exact hlist hyields.rpcs hp
  | groupings =>
    obtain ⟨g₀, hg₀, -, hsame⟩ := exists_of_forall₂_right (h.tops hm hm' hyields) hp
    rw [Schema.tops, hm] at hg₀
    obtain ⟨j, n, hn, rfl⟩ := Place.mem_ofChildren.mp hg₀
    exact ⟨n, List.mem_of_getElem? hn, hsame⟩

theorem LoadedFrom.kind_of_mem_rpcs (h : LoadedFrom augmented declared M s) {i : Nat} {p : Place}
    (hp : p ∈ s.tops i .rpcs) : p.node.kind = .rpc := by
  obtain ⟨m', hm'⟩ := exists_module_of_mem_tops hp
  obtain ⟨m, hm, -, n, hn, hsame⟩ := h.exists_declared hm' hp
  have hkind := congrArg Statement.kind hsame
  exact hkind.trans ((h.modules m hm).rpcs n hn)

theorem LoadedFrom.kind_of_mem_groupings (h : LoadedFrom augmented declared M s) {i : Nat} {p : Place}
    (hp : p ∈ s.tops i .groupings) : p.node.kind = .grouping := by
  obtain ⟨m', hm'⟩ := exists_module_of_mem_tops hp
  obtain ⟨m, hm, -, n, hn, hsame⟩ := h.exists_declared hm' hp
  exact (congrArg Statement.kind hsame).trans ((h.modules m hm).groupings n hn)

/-- Outside of all groupings a node does not stand in the part that they make up. -/
theorem LoadedFrom.part_ne_of_inGrouping (h : LoadedFrom augmented declared M s) {p : Place} (hp : s.Has p)
    (hout : p.inGrouping = false) : p.address.part ≠ .groupings := by
  intro hpart
  obtain ⟨top, htop, hmem⟩ := hp.exists_top
  rw [hpart] at htop
  have hkind : p.top.kind = .grouping := (of_mem_nodes htop hmem).2.2.2 ▸ h.kind_of_mem_groupings htop
  have htop : p.top ∈ p.node :: p.above := by
    rw [Place.top]
    cases habove : p.above.getLast? with
    | none => simp
    | some n => exact List.mem_cons_of_mem _ (List.mem_of_getLast? habove)
  have hany : p.inGrouping = true := List.any_eq_true.mpr ⟨p.top, htop, decide_eq_true hkind⟩
  rw [hany] at hout
  cases hout

/-- The top statements of a module are owned by it. -/
theorem LoadedFrom.owner_of_mem_tops (h : LoadedFrom augmented declared M s) {i : Nat} {m' : Module}
    (hm' : s.modules[i]? = some m') {part : Part} {p : Place} (hp : p ∈ s.tops i part) :
    p.node.owner = m'.name := by
  obtain ⟨m, hm, hname, n, hn, hsame⟩ := h.exists_declared hm' hp
  have howner := congrArg Statement.owner hsame
  rw [hname, ← (Node.everywhere_iff.mp ((h.modules m hm).trees part n hn)).1.owner]
  exact howner

theorem LoadedFrom.isOwn_of_mem_tops (h : LoadedFrom augmented declared M s) {i : Nat} {part : Part} {p : Place}
    (hp : p ∈ s.tops i part) : p.node.IsOwn := by
  obtain ⟨m', hm'⟩ := exists_module_of_mem_tops hp
  obtain ⟨m, hm, -, n, hn, hsame⟩ := h.exists_declared hm' hp
  have hown := (Node.everywhere_iff.mp ((h.modules m hm).trees part n hn)).1.toIsOwn
  have htemplate := congrArg Statement.template hsame
  have haddedBy := congrArg Statement.addedBy hsame
  exact ⟨htemplate.trans hown.template, haddedBy.trans hown.addedBy⟩

/-- Modules are found alike in the declared schema and in the loaded one. -/
theorem LoadedFrom.zipIdx (h : LoadedFrom augmented declared M s) :
    List.Forall₂ (fun mi mi' => mi.2 = mi'.2 ∧ ModuleYields declared augmented M mi mi'.1) declared.modules.zipIdx
      s.modules.zipIdx :=
  forall₂_zipIdx h.yields

theorem name_of_moduleYields {mi : Module × Nat} {m' : Module} (h : ModuleYields declared augmented M mi m') :
    m'.name = mi.1.name ∧ m'.shortName = mi.1.shortName ∧ m'.retired = mi.1.retired := by
  rw [h.rest]
  exact ⟨rfl, rfl, rfl⟩

/-- A module of the declared schema and what it has become. -/
def SameModule (declared : Schema) (augmented : Prop) (M : Expanded) (s : Schema) (mi mi' : Module × Nat) :
    Prop :=
  declared.modules[mi.2]? = some mi.1 ∧ s.modules[mi'.2]? = some mi'.1 ∧ mi.2 = mi'.2 ∧
    ModuleYields declared augmented M mi mi'.1

theorem LoadedFrom.find? (h : LoadedFrom augmented declared M s) {p q : Module × Nat → Bool}
    (hpq : ∀ mi mi', ModuleYields declared augmented M mi mi'.1 → p mi = q mi') :
    Option.Rel (SameModule declared augmented M s) (declared.modules.zipIdx.find? p) (s.modules.zipIdx.find? q) := by
  have hrel := find?_of_forall₂ h.zipIdx (p := p) (q := q) fun _ _ hm => hpq _ _ hm.2
  cases hp : declared.modules.zipIdx.find? p with
  | none =>
    cases hq : s.modules.zipIdx.find? q with
    | none => exact .none
    | some mi' =>
      rw [hp, hq] at hrel
      cases hrel
  | some mi =>
    cases hq : s.modules.zipIdx.find? q with
    | none =>
      rw [hp, hq] at hrel
      cases hrel
    | some mi' =>
      rw [hp, hq] at hrel
      obtain ⟨hi, hyields⟩ := (Option.rel_some_some).mp hrel
      exact .some ⟨List.mem_zipIdx_iff_getElem?.mp (List.mem_of_find?_eq_some hp),
        List.mem_zipIdx_iff_getElem?.mp (List.mem_of_find?_eq_some hq), hi, hyields⟩

theorem LoadedFrom.module? (h : LoadedFrom augmented declared M s) (name : Name) :
    Option.Rel (SameModule declared augmented M s) (declared.module? name) (s.module? name) :=
  h.find? fun mi mi' hm => by rw [(name_of_moduleYields hm).1]

theorem LoadedFrom.moduleByPrefix? (h : LoadedFrom augmented declared M s) (tag : Name) :
    Option.Rel (SameModule declared augmented M s) (declared.moduleByPrefix? tag) (s.moduleByPrefix? tag) := by
  have hname := h.module? tag
  unfold Schema.moduleByPrefix?
  cases hd : declared.module? tag with
  | some mi =>
    rw [hd] at hname
    cases hs : s.module? tag with
    | none =>
      rw [hs] at hname
      cases hname
    | some mi' =>
      rw [hs] at hname
      exact hname
  | none =>
    rw [hd] at hname
    cases hs : s.module? tag with
    | none => exact h.find? fun mi mi' hm => by rw [(name_of_moduleYields hm).2.1]
    | some mi' =>
      rw [hs] at hname
      cases hname

/-- Groupings are found alike in the declared schema and in the loaded one. -/
theorem LoadedFrom.grouping? (h : LoadedFrom augmented declared M s) (ref : String) (owner : Name) :
    Option.Rel SamePlace (declared.grouping? ref owner) (s.grouping? ref owner) := by
  have hresolve : Option.Rel (SameModule declared augmented M s) (declared.resolveName ref owner).1
      (s.resolveName ref owner).1 := by
    simp only [resolveName]
    split
    · exact h.module? owner
    · exact h.moduleByPrefix? _
  have hname : (declared.resolveName ref owner).2 = (s.resolveName ref owner).2 := rfl
  unfold Schema.grouping?
  generalize declared.resolveName ref owner = r at hresolve hname
  generalize s.resolveName ref owner = r' at hresolve hname
  obtain ⟨mi, name⟩ := r
  obtain ⟨mi', name'⟩ := r'
  obtain rfl : name = name' := hname
  cases mi with
  | none =>
    cases mi' with
    | none => exact .none
    | some _ => cases hresolve
  | some mi =>
    cases mi' with
    | none => cases hresolve
    | some mi' =>
      obtain ⟨m, i⟩ := mi
      obtain ⟨m', i'⟩ := mi'
      obtain ⟨hm, hm', rfl, hyields⟩ := Option.rel_some_some.mp hresolve
      have hretired := (h.modules m (List.mem_of_getElem? hm)).retired
      have hretired' : m'.retired = false := by rw [(name_of_moduleYields hyields).2.2, hretired]
      have htops := h.tops hm hm' hyields
      rw [Schema.tops, Schema.tops, hm, hm'] at htops
      simp only [Module.listed, hretired, hretired']
      refine find?_of_forall₂ htops fun g g' hg => ?_
      rw [hg.name]

/-- An expanded grouping and what is below it stand in the loaded schema. -/
theorem LoadedFrom.place? (h : LoadedFrom augmented declared M s) {a : Address} {n : Node} (hn : M.node? a = some n) :
    ∃ p, s.place? a = some p ∧ p.node.erased = n.erased ∧ p.isWalked = false ∧ a.part = .groupings := by
  obtain ⟨i, part, path⟩ := a
  cases path with
  | nil => cases hn
  | cons j is =>
    obtain ⟨b, hb, hbelow⟩ := Option.bind_eq_some_iff.mp hn
    obtain ⟨-, -, -, -, -, i', g, hg, haddr, htop⟩ := h.built.split hb
    obtain ⟨j', hj'⟩ := address_of_mem_tops hg
    obtain ⟨rfl, rfl, hpath⟩ := Address.mk.inj (hj'.symm.trans haddr)
    obtain rfl : j' = j := by simpa using hpath
    rw [Schema.tops] at hg
    split at hg
    · rename_i m hm
      obtain ⟨k, n₀, hn₀, rfl⟩ := Place.mem_ofChildren.mp hg
      obtain rfl : k = j' := by simpa [Address.child, Address.top] using congrArg Address.path haddr
      obtain ⟨m', hm', hyields⟩ := h.module_of_declared hm
      have hgroupings := hyields.groupings
      rw [Schema.tops, hm] at hgroupings
      obtain ⟨n', hn', b', hb', herased⟩ := getElem?_of_forall₂ hgroupings
        (by rw [Place.getElem?_ofChildren, hn₀]; rfl)
      rw [haddr, hb] at hb'
      obtain rfl := Option.some.inj hb'
      -- the node below the grouping
      have hat := Node.at?_mapStatements (f := Statement.erased) is n'
      rw [show n'.mapStatements _ = b.mapStatements _ from herased, Node.at?_mapStatements, hbelow] at hat
      obtain ⟨q, hq, hqn⟩ := Option.map_eq_some_iff.mp hat.symm
      have hdescend := Node.map_node_descend is ⟨(Address.top i' .groupings).child k, n', []⟩
      rw [show (⟨(Address.top i' .groupings).child k, n', []⟩ : Place).node.at? is = some q from hq] at hdescend
      obtain ⟨p, hp, rfl⟩ := Option.map_eq_some_iff.mp hdescend
      refine ⟨p, ?_, hqn, ?_, rfl⟩
      · simp only [Schema.place?, Option.bind_eq_bind, hm', Option.bind_some]
        rw [show m'.part .groupings = m'.groupings from rfl, hn']
        exact hp
      · have hkind : n'.kind = .grouping := by
          have := congrArg Statement.kind (erased_toStatement herased)
          rw [htop] at this
          exact this.trans ((h.modules m (List.mem_of_getElem? hm)).groupings _ (List.mem_of_getElem? hn₀))
        rw [Place.isWalked, Place.top_of_descend hp]
        simp [Place.top, hkind]
    · cases hg

/-! ### Copies and uses -/

/-- `p` is a copy of `t`: it says the same and has a copy of each child, and besides only children that an
augment has added. -/
structure IsCopy (s : Schema) (augmented : Prop) (rank : Address → Nat) (t p : Place) : Prop where
  has : s.Has t
  rank : rank t.address < rank p.address
  walked : t.isWalked = false
  part : t.address.part = .groupings
  copies : t.node.toStatement.Copies p.node.toStatement
  child : ∀ i y, t.childAt? i = some y →
    ∃ x, p.childAt? i = some x ∧ s.template? x = some y ∧ x.node.addedBy = y.node.addedBy
  more : ∀ i x, p.childAt? i = some x → t.childAt? i = none →
    x.node.IsOwn ∧ augmented ∧ p.address.part ≠ .groupings

/-- How the nodes of a schema have come about: a node is a copy of its template, or was declared and has,
besides the children declared with it, a copy of each child of the groupings that it uses. What a node is made
of has a lower rank. Only what an augment has added has another owner than the node around, and it is not in a
choice or a case. -/
structure Traced (s : Schema) (augmented : Prop) (rank : Address → Nat) : Prop where
  rank_childAt? : ∀ {p x : Place} {i : Nat}, s.Has p → p.childAt? i = some x →
    rank x.address = rank p.address
  copy : ∀ {p : Place}, s.Has p → p.node.template.isSome = true →
    ∃ t, s.template? p = some t ∧ IsCopy s augmented rank t p
  declared : ∀ {p x : Place} {i : Nat}, s.Has p → p.node.template = none → p.childAt? i = some x →
    x.node.IsOwn ∨ ∃ ref ∈ p.node.uses, ∃ g, s.grouping? ref p.node.owner = some g ∧
      x.node.addedBy = some g.node.qname ∧ ∃ j y, g.childAt? j = some y ∧ s.template? x = some y
  uses : ∀ {p g : Place} {ref : String}, s.Has p → p.node.template = none → ref ∈ p.node.uses →
    s.grouping? ref p.node.owner = some g → rank g.address < rank p.address ∧
      ∀ j y, g.childAt? j = some y →
        ∃ i x, p.childAt? i = some x ∧ s.template? x = some y ∧ x.node.addedBy = some g.node.qname
  owner : ∀ {p x : Place} {i : Nat}, s.Has p → (augmented → p.node.kind.isTransparent = true) →
    p.childAt? i = some x → x.node.owner = p.node.owner

theorem rank_lt_of_node? {pre post : Expanded} (hM : M = pre ++ post) {a : Address} {n : Node}
    (h : pre.node? a = some n) : Expansion.rank M a < pre.length := by
  rw [hM]
  exact findIdx_append_of_isSome (isSome_get?_of_node? h)

theorem grows_append (pre post : Expanded) : pre.Grows (pre ++ post) := by
  intro a n h
  rw [Entries.get?_append, h]
  rfl

theorem getElem?_children_of_erased {n n' : Node} (h : n.erased = n'.erased) (i : Nat) :
    n.children[i]?.map Node.erased = n'.children[i]?.map Node.erased := by
  have := congrArg (fun m : Node => m.children[i]?) h
  simp only [Node.erased, Node.children_mapStatements, List.getElem?_map] at this
  exact this

theorem copies_of_erased {n n' : Node} {st : Statement} (h : n.erased = n'.erased) (hc : n'.Copies st) :
    n.Copies st := by
  have hc' : n'.toStatement.erased.Copies st := ⟨hc.1, hc.2, hc.3, hc.4, hc.5, hc.6, hc.7, hc.8⟩
  rw [← erased_toStatement h] at hc'
  exact ⟨hc'.1, hc'.2, hc'.3, hc'.4, hc'.5, hc'.6, hc'.7, hc'.8⟩

theorem heads_getElem? {p : Place} {i : Nat} {c : Statement} (h : (Node.heads p.node.children)[i]? = some c) :
    ∃ x, p.childAt? i = some x ∧ x.node.toStatement = c := by
  rw [Node.heads, List.getElem?_map] at h
  obtain ⟨n, hn, rfl⟩ := Option.map_eq_some_iff.mp h
  exact ⟨⟨p.address.child i, n, p.node :: p.above⟩, by rw [Place.childAt?, hn]; rfl, rfl⟩

theorem getElem?_heads {p x : Place} {i : Nat} (h : p.childAt? i = some x) :
    (Node.heads p.node.children)[i]? = some x.node.toStatement := by
  obtain ⟨n, hn, rfl⟩ := Option.map_eq_some_iff.mp h
  rw [Node.heads, List.getElem?_map, hn]
  rfl

theorem template?_eq {p : Place} {a : Address} (h : p.node.template = some a) :
    s.template? p = s.place? a := by
  rw [template?, h]
  rfl

theorem LoadedFrom.exists_copy (h : LoadedFrom augmented declared M s) {p : Place} (hp : s.Has p)
    (ht : p.node.template.isSome = true) :
    ∃ t, s.template? p = some t ∧ IsCopy s augmented (Expansion.rank M) t p := by
  obtain ⟨pre, post, hM, hrank, hstems⟩ := (h.stemsAt hp).exists_pre
  cases hstems with
  | declared hnone =>
    rw [hnone] at ht
    cases ht
  | @copied a n htemplate hn hcopies hcs hmore =>
    have hn' : M.node? a = some n := by
      rw [hM]
      exact (grows_append pre post).node? hn
    obtain ⟨t, ha, herased, hwalked, hpart⟩ := h.place? hn'
    have haddr := address_of_place? ha
    have hhas := has_of_place? ha
    refine ⟨t, by rw [template?_eq htemplate, ha], ⟨hhas, ?_, hwalked, by rw [haddr, hpart],
      copies_of_erased herased hcopies, fun i y hy => ?_, fun i x hx hnone => ?_⟩⟩
    · rw [haddr, hrank]
      exact rank_lt_of_node? hM hn
    · obtain ⟨m, hm, rfl⟩ := Option.map_eq_some_iff.mp hy
      have hchild := getElem?_children_of_erased herased i
      rw [hm] at hchild
      obtain ⟨m', hm', hmm⟩ := Option.map_eq_some_iff.mp hchild.symm
      obtain ⟨c, hc, hctemplate, haddedBy, -⟩ := hcs i m' hm'
      obtain ⟨x, hx, rfl⟩ := heads_getElem? hc
      refine ⟨x, hx, ?_, haddedBy.trans ?_⟩
      · rw [template?_eq hctemplate, ← haddr]
        exact hhas.childAt? hy
      · have := congrArg Statement.addedBy (erased_toStatement hmm)
        exact this
    · have hlen : n.children.length ≤ i := by
        have hchild := getElem?_children_of_erased herased i
        rw [Option.map_eq_none_iff.mp hnone] at hchild
        exact List.getElem?_eq_none_iff.mp (Option.map_eq_none_iff.mp hchild.symm)
      obtain ⟨hown, hgrow⟩ := hmore i _ (getElem?_heads hx) hlen
      exact ⟨hown, hgrow.1⟩

theorem LoadedFrom.exists_grouping (h : LoadedFrom augmented declared M s) {ref : String} {owner : Name}
    {g₀ : Place} (hg₀ : declared.grouping? ref owner = some g₀) :
    ∃ g, s.grouping? ref owner = some g ∧ SamePlace g₀ g := by
  have hrel := h.grouping? ref owner
  rw [hg₀] at hrel
  cases hg : s.grouping? ref owner with
  | none =>
    rw [hg] at hrel
    cases hrel
  | some g =>
    rw [hg] at hrel
    exact ⟨g, rfl, Option.rel_some_some.mp hrel⟩

theorem LoadedFrom.exists_declared_grouping (h : LoadedFrom augmented declared M s) {ref : String} {owner : Name}
    {g : Place} (hg : s.grouping? ref owner = some g) :
    ∃ g₀, declared.grouping? ref owner = some g₀ ∧ SamePlace g₀ g := by
  have hrel := h.grouping? ref owner
  rw [hg] at hrel
  cases hg₀ : declared.grouping? ref owner with
  | none =>
    rw [hg₀] at hrel
    cases hrel
  | some g₀ =>
    rw [hg₀] at hrel
    exact ⟨g₀, rfl, Option.rel_some_some.mp hrel⟩

/-- A child of a declared node is the node's own or a copy from a grouping that the node uses. -/
theorem LoadedFrom.isOwn_or_copied (h : LoadedFrom augmented declared M s) {p x : Place} {i : Nat} (hp : s.Has p)
    (hnone : p.node.template = none) (hx : p.childAt? i = some x) :
    x.node.IsOwn ∨ ∃ ref ∈ p.node.uses, ∃ g, s.grouping? ref p.node.owner = some g ∧
      x.node.addedBy = some g.node.qname ∧ ∃ j y, g.childAt? j = some y ∧ s.template? x = some y := by
  obtain ⟨pre, post, -, -, hstems⟩ := (h.stemsAt hp).exists_pre
  cases hstems with
  | copied htemplate =>
    rw [hnone] at htemplate
    cases htemplate
  | declared _ hcs _ =>
    rcases hcs _ (List.mem_of_getElem? (getElem?_heads hx)) with
      ⟨hown, -⟩ | ⟨ref, href, g₀, hg₀, ⟨haddedBy, j, hj⟩, -⟩
    · exact .inl hown
    · obtain ⟨g, hg, hsame⟩ := h.exists_grouping hg₀
      obtain ⟨y, hy, hcopy⟩ := h.exists_copy (hp.childAt? hx)
        (show x.node.template.isSome = true by rw [hj]; rfl)
      refine .inr ⟨ref, href, g, hg, by rw [haddedBy, hsame.qname], j, y, ?_, hy⟩
      refine (has_of_grouping? hg).childAt?_of_address hcopy.has ?_
      rw [template?_eq hj] at hy
      rw [address_of_place? hy, hsame.1]

/-- A declared node that uses a grouping has a copy of each node that the grouping has. -/
theorem LoadedFrom.copied_of_use (h : LoadedFrom augmented declared M s) {p g : Place} {ref : String}
    (hp : s.Has p) (hnone : p.node.template = none) (href : ref ∈ p.node.uses)
    (hg : s.grouping? ref p.node.owner = some g) :
    Expansion.rank M g.address < Expansion.rank M p.address ∧
      ∀ j y, g.childAt? j = some y →
        ∃ i x, p.childAt? i = some x ∧ s.template? x = some y ∧ x.node.addedBy = some g.node.qname := by
  obtain ⟨pre, post, hM, hrank, hstems⟩ := (h.stemsAt hp).exists_pre
  cases hstems with
  | copied htemplate =>
    rw [hnone] at htemplate
    cases htemplate
  | declared _ _ huses =>
    obtain ⟨g₀, hg₀, hsame⟩ := h.exists_declared_grouping hg
    obtain ⟨b, hb, hcopies⟩ := huses ref href g₀ hg₀
    rw [hsame.1] at hb
    have hb' : M.node? g.address = some b := by
      rw [hM]
      exact (grows_append pre post).node? hb
    obtain ⟨g', hg', herased, -, -⟩ := h.place? hb'
    have hhas := has_of_grouping? hg
    obtain rfl : g' = g := Option.some.inj (hg'.symm.trans hhas)
    refine ⟨by rw [hrank]; exact rank_lt_of_node? hM hb, fun j y hy => ?_⟩
    obtain ⟨m, hm, rfl⟩ := Option.map_eq_some_iff.mp hy
    have hchild := getElem?_children_of_erased herased j
    rw [hm] at hchild
    obtain ⟨m', hm', -⟩ := Option.map_eq_some_iff.mp hchild.symm
    obtain ⟨c, hc, haddedBy, htemplate⟩ := hcopies j (List.getElem?_eq_some_iff.mp hm').1
    obtain ⟨i, hi⟩ := List.mem_iff_getElem?.mp hc
    obtain ⟨x, hx, rfl⟩ := heads_getElem? hi
    refine ⟨i, x, hx, ?_, by rw [haddedBy, hsame.qname]⟩
    rw [template?_eq htemplate, hsame.1]
    exact hhas.childAt? hy

/-- The nodes of a loaded schema have come about like that. -/
theorem LoadedFrom.traced (h : LoadedFrom augmented declared M s) :
    s.Traced augmented (Expansion.rank M) where
  rank_childAt? := by
    intro p x i hp hx
    obtain ⟨n, -, rfl⟩ := Option.map_eq_some_iff.mp hx
    exact rank_append hp.path_ne_nil [i]
  copy := h.exists_copy
  declared := h.isOwn_or_copied
  uses := h.copied_of_use
  owner := by
    intro p x i hp ht hx
    obtain ⟨pre, post, hM, -, hstems⟩ := (h.stemsAt hp).exists_pre
    have hc := getElem?_heads hx
    have hfixed : ¬p.node.MayGrow (augmented ∧ p.address.part ≠ .groupings) := fun hgrow => by
      have htransparent := ht hgrow.1.1
      rw [hgrow.2] at htransparent
      cases htransparent
    cases hstems with
    | declared _ hcs _ =>
      rcases hcs _ (List.mem_of_getElem? hc) with ⟨-, howner⟩ | ⟨-, -, -, -, -, howner⟩
      · exact howner.resolve_right hfixed
      · exact howner
    | @copied _ n _ _ _ hcs hmore =>
      by_cases hi : i < n.children.length
      · obtain ⟨c, hc', -, -, howner⟩ := hcs i _ (List.getElem?_eq_getElem hi)
        obtain rfl := Option.some.inj (hc.symm.trans hc')
        exact howner
      · exact absurd (hmore i _ hc (Nat.le_of_not_lt hi)).2 hfixed

theorem Traced.isCopy {rank : Address → Nat} (h : s.Traced augmented rank) {p t : Place} (hp : s.Has p)
    (ht : s.template? p = some t) : IsCopy s augmented rank t p := by
  have hsome : p.node.template.isSome = true := by
    obtain ⟨a, ha, -⟩ := Option.bind_eq_some_iff.mp ht
    rw [ha]
    rfl
  obtain ⟨t', ht', hcopy⟩ := h.copy hp hsome
  obtain rfl := Option.some.inj (ht.symm.trans ht')
  exact hcopy

theorem Traced.ranked {rank : Address → Nat} (h : s.Traced augmented rank) : s.Ranked :=
  ⟨rank, fun _ _ hp ht => (h.isCopy hp ht).rank⟩

end Schema

end RestconfApi
