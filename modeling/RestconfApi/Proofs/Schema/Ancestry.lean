import Mathlib.Logic.Relation
import RestconfApi.Groupings
import RestconfApi.Proofs.Schema.Suppliers

/-!
# Schema: groupings that use each other

A grouping that is found to be an ancestor of another one, which uses it or a grouping that uses it, brings all
that it has to the other one.
-/

namespace RestconfApi

namespace Logged

variable {α β : Type}

/-- What each step of a fold keeps holds in the end. -/
theorem of_foldlM {f : β → α → Logged β} {P : β → Prop} {l : List α}
    (hstep : ∀ b, ∀ a ∈ l, P b → ∀ b', (f b a).result = .ok b' → P b') {b b' : β} (hb : P b)
    (h : (l.foldlM f b).result = .ok b') : P b' := by
  induction l generalizing b with
  | nil =>
    obtain rfl := Except.ok.inj h
    exact hb
  | cons a l ih =>
    rw [List.foldlM_cons] at h
    obtain ⟨b₁, hb₁, h⟩ := ok_of_bind h
    exact ih (fun b x hx => hstep b x (List.mem_cons_of_mem _ hx)) (hstep b a List.mem_cons_self hb b₁ hb₁) h

end Logged

namespace Groupings

variable {s : Schema} {G : Groupings}

/-! ### The hierarchy -/

/-- A grouping of the name `other` uses one of the name `qname`. -/
def Mentions (s : Schema) (other qname : String) : Prop :=
  ∃ g ∈ s.groupings, g.node.qname = other ∧ ∃ ref ∈ g.node.uses, ∃ t,
    s.grouping? ref g.node.owner = some t ∧ t.node.qname = qname

/-- Whatever is recorded as used is used. -/
def Records (s : Schema) (parents : Entries String (List String)) : Prop :=
  ∀ other used, parents.get? other = some used → ∀ qname ∈ used, Mentions s other qname

theorem records_ofList (names : List String) {m : Entries String (List String)}
    (hm : Records s m) : Records s (names.foldl (fun m name => m.put name []) m) := by
  induction names generalizing m with
  | nil => exact hm
  | cons name names ih =>
    refine ih fun other used hused qname hq => ?_
    by_cases h : (name == other) = true
    · rw [← Entries.get?_congr h, Entries.get?_put_self] at hused
      obtain rfl := Option.some.inj hused
      cases hq
    · rw [Entries.get?_put_of_ne (Bool.eq_false_iff.mpr h)] at hused
      exact hm other used hused qname hq

theorem records_addUse {g : Place} (hg : g ∈ s.groupings) {ref : String} (href : ref ∈ g.node.uses)
    {m m' : Entries String (List String)} (hm : Records s m)
    (h : (addUse s g.node.qname g.node.owner m ref).result = .ok m') : Records s m' := by
  unfold addUse at h
  split at h
  · rename_i t ht
    obtain rfl := Except.ok.inj h
    intro other used hused qname hq
    by_cases hname : (g.node.qname == other) = true
    · rw [← Entries.get?_congr hname, Entries.get?_put_self] at hused
      obtain rfl := Option.some.inj hused
      have hknown : ∀ q ∈ (m.get? g.node.qname).getD [], Mentions s other q := by
        intro q hq
        cases hget : m.get? g.node.qname with
        | none => simp [hget] at hq
        | some known =>
          rw [hget] at hq
          exact hm other known (by rw [← Entries.get?_congr hname, hget]) q hq
      split at hq
      · exact hknown qname hq
      · rcases List.mem_append.mp hq with hq | hq
        · exact hknown qname hq
        · exact ⟨g, hg, eq_of_beq hname, ref, href, t, ht, (List.mem_singleton.mp hq).symm⟩
    · rw [Entries.get?_put_of_ne (Bool.eq_false_iff.mpr hname)] at hused
      exact hm other used hused qname hq
  · obtain ⟨-, -, h⟩ := Logged.ok_of_bind h
    obtain rfl := Except.ok.inj h
    exact hm

theorem records_parents (h : (ofSchema s).result = .ok G) : Records s G.parents := by
  unfold ofSchema at h
  obtain ⟨-, -, h⟩ := Logged.ok_of_bind h
  obtain ⟨parents, hparents, h⟩ := Logged.ok_of_bind h
  obtain rfl := Except.ok.inj h
  refine Logged.of_foldlM (P := Records s) (fun m g hg hm m' hm' => ?_) ?_ hparents
  · exact Logged.of_foldlM (P := Records s) (fun m ref href hm m' h => records_addUse hg href hm h) hm hm'
  · have hempty : Records s [] := fun other used hused => by cases hused
    have hfold := records_ofList (s.groupings.map (·.node.qname)) hempty
    rw [List.foldl_map] at hfold
    rw [Entries.ofList, List.foldl_map]
    exact hfold

theorem mentions_of_mem_usedBy (h : (ofSchema s).result = .ok G) {other qname : String}
    (hq : qname ∈ G.usedBy other) : Mentions s other qname := by
  unfold usedBy at hq
  cases hused : G.parents.get? other with
  | none => simp [hused] at hq
  | some used =>
    rw [hused] at hq
    exact records_parents h other used hused qname hq

/-- What a search finds can be reached from a name that was pending. -/
theorem exists_of_reaches {candidate : String} {fuel : Nat} {visited pending : List String}
    (h : G.reaches candidate fuel visited pending = true) :
    ∃ name ∈ pending, Relation.ReflTransGen (fun a b => b ∈ G.usedBy a) name candidate := by
  induction fuel generalizing visited pending with
  | zero => simp [reaches] at h
  | succ fuel ih =>
    cases pending with
    | nil => simp [reaches] at h
    | cons name pending =>
      rw [reaches] at h
      split at h
      · rename_i heq
        exact ⟨name, List.mem_cons_self, heq ▸ .refl⟩
      · split at h
        · obtain ⟨name', hmem, hpath⟩ := ih h
          exact ⟨name', List.mem_cons_of_mem _ hmem, hpath⟩
        · obtain ⟨name', hmem, hpath⟩ := ih h
          rcases List.mem_append.mp hmem with hmem | hmem
          · exact ⟨name, List.mem_cons_self, .head hmem hpath⟩
          · exact ⟨name', List.mem_cons_of_mem _ hmem, hpath⟩

/-- An ancestor is used, directly or by what is used. -/
theorem transGen_of_isAncestorOf (h : (ofSchema s).result = .ok G) {candidate qname : String}
    (ha : (G.isAncestorOf candidate qname).result = .ok true) :
    Relation.TransGen (Mentions s) qname candidate := by
  unfold isAncestorOf at ha
  split at ha
  · rename_i used hused
    obtain ⟨name, hname, hpath⟩ := exists_of_reaches (Except.ok.inj ha)
    refine .head' (mentions_of_mem_usedBy h (by rw [usedBy, hused]; exact hname)) ?_
    exact hpath.lift id fun _ _ hb => mentions_of_mem_usedBy h hb
  · obtain ⟨-, -, ha⟩ := Logged.ok_of_bind ha
    cases Except.ok.inj ha

end Groupings

namespace Schema

variable {s : Schema}

/-! ### Groupings of one name -/

/-- The groupings of each module are told apart by their names, which are texts. -/
structure NamesGroupings (s : Schema) : Prop where
  texts : ∀ i, ∀ g ∈ s.tops i .groupings, ∃ name, g.node.name = .text name
  distinct : ∀ i, (s.tops i .groupings).Pairwise fun g g' => (g.node.name == g'.node.name) = false

theorem mem_tops_of_mem_groupings {g : Place} (h : g ∈ s.groupings) : ∃ i, g ∈ s.tops i .groupings := by
  obtain ⟨⟨m, i⟩, hm, hg⟩ := List.mem_flatMap.mp h
  replace hm : s.modules[i]? = some m := List.mem_zipIdx_iff_getElem?.mp hm
  dsimp only at hg
  refine ⟨i, ?_⟩
  rw [tops, hm]
  obtain ⟨j, n, hn, -⟩ := Place.mem_ofChildren.mp hg
  rwa [Module.mem_listed (List.mem_of_getElem? hn)] at hg

/-- Then no two groupings have one qualified name. -/
theorem NamesGroupings.eq_of_qname (h : s.NamesGroupings) (hnamed : s.IsNamed) {augmented : Prop}
    {declared : Schema} {M : Expansion.Expanded} (hfrom : LoadedFrom augmented declared M s) {i j : Nat}
    {g g' : Place} (hg : g ∈ s.tops i .groupings) (hg' : g' ∈ s.tops j .groupings)
    (heq : g.node.qname = g'.node.qname) : g = g' := by
  obtain ⟨m, hm⟩ := exists_module_of_mem_tops hg
  obtain ⟨m', hm'⟩ := exists_module_of_mem_tops hg'
  obtain ⟨t, ht, hcolon⟩ := hnamed.names m (List.mem_of_getElem? hm)
  obtain ⟨t', ht', hcolon'⟩ := hnamed.names m' (List.mem_of_getElem? hm')
  obtain ⟨n, hn⟩ := h.texts i g hg
  obtain ⟨n', hn'⟩ := h.texts j g' hg'
  have howner := (hfrom.owner_of_mem_tops hm hg).trans ht
  have howner' := (hfrom.owner_of_mem_tops hm' hg').trans ht'
  have hread : ∀ {g : Place} {t n : String}, g.node.owner = .text t → g.node.name = .text n →
      g.node.qname.toList = t.toList ++ ':' :: n.toList := by
    intro g t n howner hname
    rw [Statement.qname, howner, hname, String.toList_append, String.toList_append, List.append_assoc]
    rfl
  have hcut := congrArg (fun q : String => Text.cutFirst ':' q.toList) heq
  simp only [hread howner hn, hread howner' hn', Text.cutFirst_append hcolon, Text.cutFirst_append hcolon',
    Option.some.injEq, Prod.mk.injEq] at hcut
  obtain rfl := String.toList_injective hcut.1
  obtain rfl := String.toList_injective hcut.2
  obtain rfl := hnamed.distinct hm hm' (by simp [ht, ht'])
  exact Place.eq_of_named (h.distinct i) hg hg'
    (Datum.beq_scalar_iff.mpr ⟨_, hn, BEq.rfl⟩) (Datum.beq_scalar_iff.mpr ⟨_, hn', BEq.rfl⟩)

/-! ### What a use brings along -/

/-- `other` comes after `g` and has a copy of each data child of it. -/
structure Brings (s : Schema) (rank : Address → Nat) (g other : Place) : Prop where
  rank : rank g.address < rank other.address
  dataChild : ∀ y ∈ g.dataChildren, ∃ v ∈ other.dataChildren, s.IsBehind y v

theorem Brings.trans {rank : Address → Nat} {a b c : Place} (h : s.Brings rank a b) (h' : s.Brings rank b c) :
    s.Brings rank a c where
  rank := Nat.lt_trans h.rank h'.rank
  dataChild y hy := by
    obtain ⟨v, hv, hyv⟩ := h.dataChild y hy
    obtain ⟨w, hw, hvw⟩ := h'.dataChild v hv
    exact ⟨w, hw, hvw.trans hyv⟩

/-- A grouping brings what it has to a grouping that uses it. -/
theorem Traced.brings_of_uses {augmented : Prop} {rank : Address → Nat} (h : s.Traced augmented rank)
    {g t : Place} (hg : s.Has g) (hnone : g.node.template = none) {ref : String} (href : ref ∈ g.node.uses)
    (ht : s.grouping? ref g.node.owner = some t) : s.Brings rank t g := by
  obtain ⟨hrank, hcopies⟩ := h.uses hg hnone href ht
  refine ⟨hrank, fun y hy => ?_⟩
  obtain ⟨k, c, hc, hcy⟩ := Place.exists_child_of_mem_dataChildren hy
  obtain ⟨l, v, hv, htemplate, -⟩ := hcopies k c hc
  have hvhas := hg.childAt? hv
  have hcv : s.IsBehind c v := .step htemplate .self
  have hkind := h.kind_of_isBehind hvhas hcv
  rcases hcy with ⟨htransparent, rfl⟩ | ⟨htransparent, hy⟩
  · exact ⟨v, (Place.mem_dataChildren_of_childAt? hv).1 (hkind ▸ htransparent), hcv⟩
  · obtain ⟨v', hv', hyv⟩ : ∃ v' ∈ v.dataChildren, s.Mirrors False y v' :=
      h.exists_dataChild False.elim hvhas False.elim ⟨hcv, False.elim⟩ hy
    exact ⟨v', (Place.mem_dataChildren_of_childAt? hv).2 (hkind ▸ htransparent) v' hv', hyv.behind⟩

/-- An ancestor brings what it has. -/
theorem NamesGroupings.brings_of_transGen (h : s.NamesGroupings) (hnamed : s.IsNamed) {augmented : Prop}
    {declared : Schema} {M : Expansion.Expanded} (hfrom : LoadedFrom augmented declared M s) {i j : Nat}
    {g other : Place} (hg : g ∈ s.tops i .groupings) (hother : other ∈ s.tops j .groupings)
    (hpath : Relation.TransGen (Groupings.Mentions s) other.node.qname g.node.qname) :
    s.Brings (Expansion.rank M) g other := by
  have hstep : ∀ {k l : Nat} {a b : Place}, a ∈ s.tops k .groupings → b ∈ s.tops l .groupings →
      Groupings.Mentions s b.node.qname a.node.qname → s.Brings (Expansion.rank M) a b := by
    rintro k l a b ha hb ⟨g, hg, hgname, ref, href, t, ht, htname⟩
    obtain ⟨i', hg'⟩ := mem_tops_of_mem_groupings hg
    obtain ⟨j', ht'⟩ := mem_tops_of_grouping? ht
    obtain rfl := h.eq_of_qname hnamed hfrom hg' hb hgname
    obtain rfl := h.eq_of_qname hnamed hfrom ht' ha htname
    exact hfrom.traced.brings_of_uses (has_of_mem_tops hb) (hfrom.isOwn_of_mem_tops hb).template href ht
  generalize hname : other.node.qname = name at hpath
  induction hpath using Relation.TransGen.head_induction_on generalizing other j with
  | single hmentions => exact hstep hg hother (hname ▸ hmentions)
  | @head a c hmentions _ ih =>
    obtain ⟨b, hb, hbname, ref, href, t, ht, rfl⟩ := id hmentions
    obtain ⟨l, ht'⟩ := mem_tops_of_grouping? ht
    exact (ih ht' rfl).trans (hstep ht' hother (hname ▸ hmentions))

end Schema

end RestconfApi
