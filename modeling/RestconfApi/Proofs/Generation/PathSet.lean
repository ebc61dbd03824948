import Mathlib.Data.List.Pairwise
import Mathlib.Data.Set.Function
import RestconfApi.Proofs.Generation.References
import RestconfApi.Proofs.Generation.Stops
import RestconfApi.Proofs.Schema.Config
import RestconfApi.Proofs.Schema.Siblings

/-!
# Generation: the paths of data

Each container and list that a walk comes to has a path of its own, which tells the names and owners on the
way to it; what is operational state can only be read there.
-/

namespace RestconfApi

open Definitions Generation

/-! ### What is reached -/

namespace Schema

/-- A schema of modules with different names, in whose data cases are exactly what choices have below them,
nodes beside each other can be told apart, and all names and keys are identifiers. -/
structure IsOrderly (s : Schema) : Prop where
  modules : ∀ {i j : Nat} {m m' : Module}, s.modules[i]? = some m → s.modules[j]? = some m' →
    m.name = m'.name → i = j
  cases : ∀ {p x : Place} {i : Nat}, s.Has p → p.address.part = .data → p.childAt? i = some x →
    (x.node.kind = .case ↔ p.node.kind = .choice)
  tops : ∀ i, ∀ p ∈ s.tops i .data, p.node.kind ≠ .case
  siblings : ∀ {p : Place}, s.Has p → p.address.part = .data → AreDistinct p.dataChildren
  topSiblings : ∀ {i : Nat} {m : Module}, s.modules[i]? = some m →
    AreDistinct (Place.dataOfAll (Address.top i .data) [] 0 m.data)
  names : ∀ {p : Place}, s.Has p → p.address.part = .data →
    p.node.name.IsIdentifier ∧ ∀ key ∈ p.node.keys, Text.isIdentifier key = true
  moduleNames : ∀ m ∈ s.modules, m.name.IsIdentifier

/-- A container or a list in the data of a selected module that is reached through containers, lists, choices
and cases only, of which all but the cases are owned by selected modules, itself included, and whose level is
within the maximum depth. -/
structure IsReached (s : Schema) (names : List Name) (settings : Settings) (p : Place) : Prop where
  has : s.Has p
  part : p.address.part = .data
  module : s.moduleName p.address.module ∈ names
  structural : p.node.kind.isStructural = true
  way : ∀ n ∈ p.node :: p.above, n.kind.isStructural = true ∨ n.kind.isTransparent = true
  owner : ∀ n ∈ p.node :: p.above, n.kind ≠ .case → n.owner ∈ names
  level : ∀ d : Int, settings.maxDepth = .int d → p.level ≤ d

variable {s : Schema}

/-! ### Segments -/

theorem isReadOnly_segmentOf (root : Name) (ns : List Node) :
    (segmentOf root ns).isReadOnly = ns.any fun n => n.kind.isStructural && !n.config := by
  induction ns with
  | nil => rfl
  | cons n ns ih =>
    rw [segmentOf, List.any_cons]
    split
    · rename_i hk
      rw [Segment.push, Segment.isReadOnly, ih, hk, Bool.true_and]
    · rename_i hk
      rw [ih, Bool.eq_false_iff.mpr hk, Bool.false_and, Bool.false_or]

/-- The segment of a container or a list is read-only exactly if the node is operational state. -/
theorem Configured.isReadOnly_segment (h : s.Configured) {p : Place} (hp : s.Has p)
    (hk : p.node.kind.isStructural = true) : (s.segment p).isReadOnly = !p.node.config := by
  rw [segment, isReadOnly_segmentOf, List.any_cons, hk, Bool.true_and]
  cases hc : p.node.config with
  | false => rfl
  | true =>
    rw [Bool.not_true, Bool.false_or, List.any_eq_false]
    intro n hn hread
    simp only [Bool.and_eq_true, Bool.not_eq_true'] at hread
    rw [h.of_mem_above hp hn hread.2] at hc
    cases hc

theorem segmentOf_append (root : Name) {between : List Node}
    (h : ∀ n ∈ between, n.kind.isTransparent = true) (ns : List Node) :
    segmentOf root (between ++ ns) = segmentOf root ns := by
  induction between with
  | nil => rfl
  | cons n between ih =>
    have hn := h n List.mem_cons_self
    rw [List.cons_append, segmentOf, if_neg, ih fun n hn => h n (List.mem_cons_of_mem _ hn)]
    intro hk
    rw [isTransparent_of_isStructural hk] at hn
    cases hn

variable {names : List Name} {settings : Settings} {p p' : Place}

theorem IsReached.of_above (h : s.IsReached names settings p) {q : Place} (hq : s.Has q)
    (hqk : q.node.kind.isTransparent = false) {between : List Node}
    (habove : p.above = between ++ q.node :: q.above) (hmodule : p.address.module = q.address.module)
    (hpart : p.address.part = q.address.part) : s.IsReached names settings q := by
  have hmem : ∀ n ∈ q.node :: q.above, n ∈ p.node :: p.above := by
    intro n hn
    rw [habove]
    exact List.mem_cons_of_mem _ (List.mem_append_right _ hn)
  refine ⟨hq, hpart ▸ h.part, hmodule ▸ h.module, ?_, fun n hn => h.way n (hmem n hn),
    fun n hn => h.owner n (hmem n hn), fun d hd => ?_⟩
  · rcases h.way q.node (hmem _ List.mem_cons_self) with hk | hk
    · exact hk
    · rw [hqk] at hk
      cases hk
  · have hlevel := h.level d hd
    have hlen : (q.above.filter (·.kind ≠ .case)).length ≤ (p.above.filter (·.kind ≠ .case)).length := by
      rw [habove]
      have hsub : List.Sublist q.above (between ++ q.node :: q.above) :=
        (List.sublist_cons_self _ _).trans (List.sublist_append_right _ _)
      exact (hsub.filter _).length_le
    simp only [Place.level] at hlevel ⊢
    omega

/-- The segment of what is reached: below the root of its module, or below the segment of the container or
list around it, of which it is a data child. -/
theorem IsReached.segment_eq (h : s.IsReached names settings p) :
    (∃ m, s.modules[p.address.module]? = some m ∧
      p ∈ Place.dataOfAll (Address.top p.address.module .data) [] 0 m.data ∧
      s.segment p = (Segment.root m.name 0).push p.node.name p.node.owner (!p.node.config)
        (if p.node.kind = .list then p.node.keys.map Datum.text else []) 0) ∨
    ∃ q, s.IsReached names settings q ∧ p ∈ q.dataChildren ∧ q.above.length < p.above.length ∧
      s.segment p = (s.segment q).push p.node.name p.node.owner (!p.node.config)
        (if p.node.kind = .list then p.node.keys.map Datum.text else []) 0 := by
  have hvisible := isTransparent_of_isStructural h.structural
  rcases h.has.standsAmong with ⟨m, hm, htransparent, hamong⟩ |
    ⟨q, between, hq, hqk, hamong, hmodule, hpart, habove, htransparent⟩
  · have hmem := hamong.1 hvisible
    rw [h.part] at hmem
    refine .inl ⟨m, hm, hmem, ?_⟩
    have hroot := segmentOf_append (s.moduleName p.address.module) htransparent []
    rw [List.append_nil] at hroot
    rw [segment, segmentOf, if_pos h.structural, hroot, segmentOf, moduleName, hm]
    rfl
  · refine .inr ⟨q, h.of_above hq hqk habove hmodule hpart, hamong.1 hvisible, ?_, ?_⟩
    · rw [habove, List.length_append, List.length_cons]
      omega
    · rw [segment, segmentOf, if_pos h.structural, habove, segmentOf_append _ htransparent, hmodule, segment]

/-- Names of selected modules are identifiers. -/
def AreIdentifiers (names : List Name) : Prop := ∀ name ∈ names, name.IsIdentifier

theorem IsReached.isPlain (hs : s.IsOrderly) (hnames : AreIdentifiers names)
    (h : s.IsReached names settings p) : (s.segment p).IsPlain := by
  have hidentifiers : ∀ n ∈ p.node :: p.above,
      n.name.IsIdentifier ∧ ∀ key ∈ n.keys, Text.isIdentifier key = true := by
    intro n hn
    rcases List.mem_cons.mp hn with rfl | hn
    · exact hs.names h.has h.part
    · obtain ⟨q, hq, rfl, hpart⟩ := h.has.exists_of_mem_above hn
      exact hs.names hq (hpart.trans h.part)
  have howners : ∀ n ∈ p.node :: p.above, n.kind.isStructural = true → n.owner.IsIdentifier := by
    intro n hn hk
    refine hnames _ (h.owner n hn ?_)
    rintro hcase
    simp [hcase, Kind.isStructural] at hk
  rw [segment]
  generalize p.node :: p.above = ns at hidentifiers howners
  induction ns with
  | nil => trivial
  | cons n ns ih =>
    have htail := ih (fun n hn => hidentifiers n (List.mem_cons_of_mem _ hn))
      fun n hn => howners n (List.mem_cons_of_mem _ hn)
    obtain ⟨hname, hkeys⟩ := hidentifiers n List.mem_cons_self
    rw [segmentOf]
    split
    · rename_i hk
      have howner := howners n List.mem_cons_self hk
      rw [Segment.push, if_pos howner.holds]
      refine ⟨htail, hname, howner, fun key hkey => ?_⟩
      split at hkey
      · obtain ⟨k, hk, rfl⟩ := List.mem_map.mp hkey
        exact ⟨k, rfl, hkeys k hk⟩
      · simp at hkey
    · exact htail

theorem IsReached.isRoot_segment (h : s.IsReached names settings p) : (s.segment p).isRoot = false := by
  rcases h.segment_eq with ⟨_, -, -, hseg⟩ | ⟨_, -, -, -, hseg⟩ <;> rw [hseg] <;> rfl

/-- The labels on the way tell what is reached. -/
theorem IsReached.eq_of_labels (hs : s.IsOrderly) (hnames : AreIdentifiers names)
    (htops : ∀ {i m}, s.modules[i]? = some m → ∀ x ∈ Place.dataOfAll (Address.top i .data) [] 0 m.data,
      x.node.owner = m.name)
    (h : s.IsReached names settings p) (h' : s.IsReached names settings p')
    (heq : (s.segment p).chain.map Segment.label = (s.segment p').chain.map Segment.label) : p = p' := by
  induction hlen : p.above.length using Nat.strongRecOn generalizing p p' with
  | _ n ih =>
    subst hlen
    have hplain := h.isPlain hs hnames
    have hplain' := h'.isPlain hs hnames
    have howner := hnames _ (h.owner _ List.mem_cons_self fun hcase => by
      have := h.structural
      simp [hcase, Kind.isStructural] at this)
    have howner' := hnames _ (h'.owner _ List.mem_cons_self fun hcase => by
      have := h'.structural
      simp [hcase, Kind.isStructural] at this)
    rcases h.segment_eq with ⟨m, hm, hmem, hseg⟩ | ⟨q, hq, hmem, hlt, hseg⟩ <;>
      rcases h'.segment_eq with ⟨m', hm', hmem', hseg'⟩ | ⟨q', hq', hmem', -, hseg'⟩ <;>
      rw [Segment.push, if_pos howner.holds] at hseg <;> rw [Segment.push, if_pos howner'.holds] at hseg' <;>
      rw [hseg] at heq hplain <;> rw [hseg'] at heq hplain' <;>
      simp only [Segment.chain, List.map_append, List.map_cons, List.map_nil, List.nil_append] at heq
    · obtain ⟨hname, hown⟩ := Segment.label_inj hplain hplain' (by simp [Segment.isRoot, Segment.parent?])
        (List.cons.inj heq).1
      have hmodule := hs.modules hm hm' (by rw [← htops hm p hmem, ← htops hm' p' hmem', hown])
      obtain rfl : m = m' := by
        rw [hmodule, hm'] at hm
        exact (Option.some.inj hm).symm
      rw [hmodule] at hmem
      exact (hs.topSiblings hm').eq hmem hmem' hown hname
    · have hne := Segment.chain_ne_nil hq'.isRoot_segment
      have := congrArg List.length heq
      simp at this
      exact absurd this hne
    · have hne := Segment.chain_ne_nil hq.isRoot_segment
      have := congrArg List.length heq
      simp at this
      exact absurd this hne
    · obtain ⟨habove, hlast⟩ := List.append_inj' heq rfl
      obtain rfl := ih _ hlt hq hq' habove rfl
      obtain ⟨hname, hown⟩ := Segment.label_inj hplain hplain' rfl (List.cons.inj hlast).1
      exact (hs.siblings hq.has hq.part).eq hmem hmem' hown hname

/-- What is reached has a path of its own. -/
theorem IsReached.eq_of_dataPath (hs : s.IsOrderly) (hnames : AreIdentifiers names)
    (htops : ∀ {i m}, s.modules[i]? = some m → ∀ x ∈ Place.dataOfAll (Address.top i .data) [] 0 m.data,
      x.node.owner = m.name)
    (h : s.IsReached names settings p) (h' : s.IsReached names settings p')
    (heq : s.dataPath p = s.dataPath p') : p = p' := by
  have htext := congrArg String.toList (Scalar.text.inj heq)
  simp only [String.toList_append, List.append_cancel_left_eq] at htext
  refine h.eq_of_labels hs hnames htops h' ?_
  exact Segment.path_inj (h.isPlain hs hnames) (h'.isPlain hs hnames) h.isRoot_segment h'.isRoot_segment
    (String.toList_injective htext)

end Schema

theorem Handler.exists_text_of_mem_methods {readOnly : Bool} {method : Scalar}
    (h : method ∈ Handler.methods readOnly) : ∃ t, method = .text t := by
  cases readOnly with
  | true =>
    obtain rfl : method = .text "get" := by simpa [Handler.methods] using h
    exact ⟨_, rfl⟩
  | false =>
    have hor : method = .text "get" ∨ method = .text "put" ∨ method = .text "post" ∨ method = .text "delete" := by
      simpa [Handler.methods] using h
    rcases hor with rfl | rfl | rfl | rfl <;> exact ⟨_, rfl⟩

/-! ### Selection -/

namespace Generation

variable {s : Schema} {names : List Name} {modules : List (Module × Nat)} {settings : Settings}

variable (hs : s.IsOrderly) (hselect : (select s names).result = .ok modules)

include hs hselect

/-- A selected module stands in the schema under one of the names. -/
theorem mem_of_mem_select {m : Module} {i : Nat} (hm : (m, i) ∈ modules) :
    s.modules[i]? = some m ∧ m.name ∈ names := by
  obtain ⟨name, hname, hfound⟩ := exists_of_forall₂_right (forall₂_select hselect) hm
  obtain ⟨hget, hbeq⟩ := Schema.mem_of_module? hfound
  obtain rfl := (hs.moduleNames m (List.mem_of_getElem? hget)).eq_of_beq hbeq
  exact ⟨hget, hname⟩

theorem exists_of_mem_names {name : Name} (h : name ∈ names) :
    ∃ m i, (m, i) ∈ modules ∧ s.modules[i]? = some m ∧ m.name = name := by
  obtain ⟨⟨m, i⟩, hm, hfound⟩ := exists_of_forall₂ (forall₂_select hselect) h
  obtain ⟨hget, hbeq⟩ := Schema.mem_of_module? hfound
  obtain rfl := (hs.moduleNames m (List.mem_of_getElem? hget)).eq_of_beq hbeq
  exact ⟨m, i, hm, hget, rfl⟩

theorem areIdentifiers_names : Schema.AreIdentifiers names := by
  intro name hname
  obtain ⟨m, i, -, hget, rfl⟩ := exists_of_mem_names hs hselect hname
  exact hs.moduleNames m (List.mem_of_getElem? hget)

theorem contains_selected {name : Name} :
    (modules.map (·.1.name)).contains name = true ↔ name ∈ names := by
  rw [List.contains_iff_exists_mem_beq]
  constructor
  · rintro ⟨name', hname', hbeq⟩
    obtain ⟨⟨m, i⟩, hm, rfl⟩ := List.mem_map.mp hname'
    obtain ⟨hget, hname⟩ := mem_of_mem_select hs hselect hm
    obtain ⟨t, ht, -⟩ := hs.moduleNames m (List.mem_of_getElem? hget)
    dsimp only at hbeq
    rw [ht] at hbeq hname
    rwa [Datum.eq_text_of_beq hbeq]
  · intro hname
    obtain ⟨m, i, hm, hget, rfl⟩ := exists_of_mem_names hs hselect hname
    obtain ⟨t, ht, -⟩ := hs.moduleNames m (List.mem_of_getElem? hget)
    exact ⟨m.name, List.mem_map.mpr ⟨(m, i), hm, rfl⟩, by simp [ht]⟩

/-- The stops of a walk over data are what is reached. -/
theorem mem_generatedStops_iff (hdata : .data ∈ settings.elements)
    (hdepth : settings.maxDepth = .null ∨ ∃ d, settings.maxDepth = .int d) {x : Stop} :
    x ∈ generatedStops s settings modules ↔
      s.IsReached names settings x.place ∧ x.segment = s.segment x.place := by
  have hlevel : (∀ l, settings.walkLimit = some l → x.place.level ≤ l) ↔
      ∀ d : Int, settings.maxDepth = .int d → x.place.level ≤ d := by
    have hpos : 0 < x.place.level := Nat.succ_pos _
    rcases hdepth with hnull | ⟨d, hd⟩
    · simp [Settings.walkLimit, hnull]
    · simp only [Settings.walkLimit, hd, Option.some.injEq, forall_eq', Datum.scalar.injEq, Scalar.int.injEq]
      omega
  have hpassed : ∀ n, Passed (modules.map (·.1.name)) n ↔
      (n.kind.isStructural = true ∨ n.kind.isTransparent = true) ∧ (n.kind ≠ .case → n.owner ∈ names) := by
    intro n
    rw [Passed, contains_selected hs hselect]
  have hstop : ∀ {m : Module} {i : Nat}, s.modules[i]? = some m →
      (x ∈ moduleStops s (modules.map (·.1.name)) settings i ↔
        IsStop s (modules.map (·.1.name)) settings.walkLimit i x) := by
    intro m i hm
    rw [moduleStops, hm]
    dsimp only
    rw [if_pos hdata]
    exact mem_stopsAll_iff hs.cases (hs.tops i) hm
  rw [generatedStops, walkStops, List.mem_flatMap]
  constructor
  · rintro ⟨⟨m, i⟩, hmem, hx⟩
    obtain ⟨hget, hname⟩ := mem_of_mem_select hs hselect hmem
    have h := (hstop hget).mp hx
    refine ⟨⟨h.has, h.part, ?_, h.structural, fun n hn => ((hpassed n).mp (h.way n hn)).1,
      fun n hn => ((hpassed n).mp (h.way n hn)).2, hlevel.mp h.level⟩, h.segment⟩
    rw [h.module, Schema.moduleName, hget]
    exact hname
  · rintro ⟨h, hsegment⟩
    obtain ⟨m, i, hmem, hget, hname⟩ := exists_of_mem_names hs hselect h.module
    obtain ⟨m', j, -, -, hm', -, -, -⟩ := h.has.cases
    have hmodule : x.place.address.module = i := by
      refine hs.modules hm' hget ?_
      rw [hname, Schema.moduleName, hm']
      rfl
    refine ⟨(m, i), hmem, (hstop hget).mpr ⟨h.has, h.part, hmodule, h.structural, fun n hn => ?_,
      hlevel.mpr h.level, hsegment⟩⟩
    exact (hpassed n).mpr ⟨h.way n hn, h.owner n hn⟩

end Generation

/-! ### The paths -/

/-- The paths of data are those of the containers and lists that are reached, one for each; and under the path
of a node there are operations to read it, and to write it exactly if it is configuration. -/
theorem bijOn_dataPath {d : Datum} {s : Schema} {names : List Name} {settings : Settings} {doc : Document}
    (hload : (Schema.load d).result = .ok s) (hs : s.IsOrderly) (hdata : .data ∈ settings.elements)
    (hdepth : settings.maxDepth = .null ∨ ∃ d, settings.maxDepth = .int d)
    (h : (generate s names settings).result = .ok doc) :
    Set.BijOn s.dataPath {p | s.IsReached names settings p}
        {path | path.IsDataPath ∧ (doc.paths.get? path).isSome = true} ∧
      ∀ p, s.IsReached names settings p → ∀ method,
        (doc.operation? (s.dataPath p) method).isSome = true ↔ method ∈ Handler.methods (!p.node.config) := by
  obtain ⟨declared, M, hfrom⟩ := Schema.exists_loadedFrom hload
  obtain ⟨modules, r, info, hgenerated⟩ := exists_generated hload h
  have hselect := hgenerated.ran.selected
  have hconfig := Schema.configured_of_load hload
  have hmethods := (postprocessAll_yields hgenerated.isClosed hgenerated.postprocessed).methods
  have hfinished : r.definitions.document.SameMethods { r.definitions.finished with info } :=
    (Document.sameMethods_mapOperations (Property.mapAll r.definitions.current) _).trans
      (.of_get? fun _ => rfl)
  have hpaths : ∀ path, (doc.paths.get? path).isSome = (r.definitions.document.paths.get? path).isSome :=
    fun path => (hmethods.paths path).trans (hfinished.paths path)
  have hoperations : ∀ path method, (doc.operation? path method).isSome =
      (r.definitions.document.operation? path method).isSome :=
    fun path method => (hmethods.methods path method).trans (hfinished.methods path method)
  have hstops := fun x => mem_generatedStops_iff (x := x) hs hselect hdata hdepth
  have hnames := areIdentifiers_names hs hselect
  have hpath : ∀ x : Stop, x.segment = s.segment x.place → (.text x.path : Scalar) = s.dataPath x.place := by
    intro x hx
    rw [Stop.path, hx, Schema.dataPath]
  have hinj : ∀ {p p'}, s.IsReached names settings p → s.IsReached names settings p' →
      s.dataPath p = s.dataPath p' → p = p' := fun hp hp' heq =>
    hp.eq_of_dataPath hs hnames (fun hm x hx => hfrom.owner_of_mem_dataOfAll hm hx) hp' heq
  have hreadOnly : ∀ {p}, s.IsReached names settings p → (s.segment p).isReadOnly = !p.node.config :=
    fun hp => hconfig.isReadOnly_segment hp.has hp.structural
  have hoffered : ∀ {p}, s.IsReached names settings p → ∀ method ∈ Handler.methods (!p.node.config),
      (doc.operation? (s.dataPath p) method).isSome = true := by
    intro p hp method hmethod
    have hfound := hgenerated.found ⟨p, s.segment p⟩ ((hstops _).mpr ⟨hp, rfl⟩)
    rw [hoperations]
    exact hfound.offers method (by rwa [hreadOnly hp])
  refine ⟨⟨fun p hp => ⟨⟨_, rfl⟩, ?_⟩, fun p hp p' hp' => hinj hp hp', ?_⟩, fun p hp method =>
    ⟨fun hsome => ?_, hoffered hp method⟩⟩
  · have hget := hoffered hp (.text "get") List.mem_cons_self
    rw [Document.operation?] at hget
    exact Option.isSome_of_isSome_bind hget
  · rintro path ⟨hdatapath, hsome⟩
    rw [hpaths] at hsome
    obtain ⟨os, hos⟩ := Option.isSome_iff_exists.mp hsome
    obtain ⟨k, hmem, hk⟩ := Entries.mem_of_get? hos
    obtain ⟨t, rfl⟩ := hdatapath
    obtain rfl := Scalar.eq_text_of_beq hk
    obtain ⟨-, -, ⟨method, p, hserves⟩, -⟩ := Entries.Alike.exists_of_mem hgenerated.twins.paths hmem
    rcases hserves with ⟨x, hx, -, hxpath, -⟩ | ⟨hnot, -⟩
    · obtain ⟨hreached, hsegment⟩ := (hstops x).mp hx
      exact ⟨x.place, hreached, by rw [← hpath x hsegment, hxpath]⟩
    · exact absurd ⟨t, rfl⟩ hnot
  · rw [hoperations, Document.operation?] at hsome
    obtain ⟨o, ho⟩ := Option.isSome_iff_exists.mp hsome
    obtain ⟨os, hos, ho⟩ := Option.bind_eq_some_iff.mp ho
    obtain ⟨k, hmem, hk⟩ := Entries.mem_of_get? hos
    obtain ⟨method', homem, hmethod⟩ := Entries.mem_of_get? ho
    obtain rfl := Scalar.eq_text_of_beq hk
    obtain ⟨_, -, -, hos'⟩ := Entries.Alike.exists_of_mem hgenerated.twins.paths hmem
    obtain ⟨_, -, ⟨q, hserves⟩, -⟩ := Entries.Alike.exists_of_mem hos' homem
    rcases hserves with ⟨x, hx, -, hxpath, hxmethod⟩ | ⟨hnot, -⟩
    · obtain ⟨hreached, hsegment⟩ := (hstops x).mp hx
      obtain rfl : x.place = p := hinj hreached hp (by rw [← hpath x hsegment, ← hxpath]; rfl)
      rw [hsegment, hreadOnly hp] at hxmethod
      obtain ⟨t, rfl⟩ := Handler.exists_text_of_mem_methods hxmethod
      rwa [Scalar.eq_text_of_beq (BEq.symm hmethod)]
    · exact absurd ⟨_, rfl⟩ hnot

/-- A test for being orderly, which asks nodes beside each other for different local names. -/
def Schema.isTidy (s : Schema) : Bool :=
  decide (s.modules.map (·.name.wording)).Nodup && s.modules.all (fun m => decide m.name.IsIdentifier) &&
    (s.modules.zipIdx.all fun e =>
      decide ((Place.dataOfAll (Address.top e.2 .data) [] 0 e.1.data).map (·.node.name.wording)).Nodup) &&
    s.places.all fun p => p.address.part ≠ .data ||
      (p.children.all fun x => x.node.kind = .case ↔ p.node.kind = .choice) &&
        (!p.above.isEmpty || p.node.kind ≠ .case) && decide (p.dataChildren.map (·.node.name.wording)).Nodup &&
        decide p.node.name.IsIdentifier && p.node.keys.all Text.isIdentifier

namespace Schema

variable {s : Schema} (h : s.isTidy = true)

include h

theorem areUnlike_of_isTidy :
    (∀ {p : Place}, s.Has p → p.address.part = .data → AreUnlike p.dataChildren) ∧
      ∀ {i : Nat} {m : Module}, s.modules[i]? = some m →
        AreUnlike (Place.dataOfAll (Address.top i .data) [] 0 m.data) := by
  simp only [isTidy, Bool.and_eq_true, Bool.or_eq_true, List.all_eq_true, decide_eq_true_eq] at h
  obtain ⟨⟨-, htops⟩, hplaces⟩ := h
  refine ⟨fun {p} hp hpart => ?_, fun {i m} hm => ?_⟩
  · exact areUnlike_of_nodup ((hplaces p hp.mem_places).resolve_left (by simp [hpart])).1.1.2
  · exact areUnlike_of_nodup (htops (m, i) (List.mem_zipIdx_iff_getElem?.mpr hm))

theorem isOrderly_of_isTidy : s.IsOrderly := by
  obtain ⟨hsiblings, htopSiblings⟩ := areUnlike_of_isTidy h
  simp only [isTidy, Bool.and_eq_true, Bool.or_eq_true, List.all_eq_true, decide_eq_true_eq] at h
  obtain ⟨⟨⟨hmodules, hnames⟩, -⟩, hplaces⟩ := h
  have hplace : ∀ {p : Place}, s.Has p → p.address.part = .data → _ := fun {p} hp hpart =>
    (hplaces p hp.mem_places).resolve_left (by simp [hpart])
  constructor
  case modules =>
    intro i j m m' hm hm' heq
    have hi : (s.modules.map (·.name.wording))[i]? = some m.name.wording := by rw [List.getElem?_map, hm]; rfl
    have hj : (s.modules.map (·.name.wording))[j]? = some m.name.wording := by rw [List.getElem?_map, hm', heq]; rfl
    have hlt := (List.getElem?_eq_some_iff.mp hi).1
    exact (List.getElem?_inj hlt hmodules).mp (hi.trans hj.symm)
  case cases =>
    intro p x i hp hpart hx
    exact (hplace hp hpart).1.1.1.1 x (Place.mem_children.mpr ⟨i, hx⟩)
  case tops =>
    intro i p hp
    exact (hplace (has_of_mem_tops hp) (part_of_mem_tops hp)).1.1.1.2.resolve_left (by simp [above_of_mem_tops hp])
  case siblings => exact fun hp hpart => (hsiblings hp hpart).areDistinct
  case topSiblings => exact fun hm => (htopSiblings hm).areDistinct
  case names => exact fun hp hpart => ⟨(hplace hp hpart).1.2, (hplace hp hpart).2⟩
  case moduleNames => exact hnames

end Schema

/-- A list whose entries have a choice with operational state in it. -/
def Example.shelf : Datum :=
  document [("data", [statement "list" "book" [("key", .texts ["isbn"]), ("children", .list [leaf "isbn",
    statement "choice" "form" [("children", .list [statement "case" "paper" [("children", .list [
      statement "container" "print" [("config", .bool false)]])]])]])]])]

/-- The same once it is loaded. -/
def Example.loadedShelf : Schema :=
  { modules := [{
      name := .text "m"
      shortName := .text "m"
      data := [
        ⟨{ kind := .list, name := .text "book", owner := .text "m", keys := ["isbn"] }, [
          ⟨{ kind := .leaf, name := .text "isbn", owner := .text "m", type := some { name := .text "string" } }, []⟩,
          ⟨{ kind := .choice, name := .text "form", owner := .text "m" }, [
            ⟨{ kind := .case, name := .text "paper", owner := .text "m" }, [
              ⟨{ kind := .container, name := .text "print", owner := .text "m", config := false,
                 declaredConfig := some false }, []⟩]⟩]⟩]⟩] }] }

theorem load_shelf : (Schema.load Example.shelf).result = .ok Example.loadedShelf := rfl

theorem isTidy_loadedShelf : Example.loadedShelf.isTidy = true := by decide

theorem isOrderly_loadedShelf : Example.loadedShelf.IsOrderly := Schema.isOrderly_of_isTidy isTidy_loadedShelf

theorem bijOn_dataPath_shelf :
    ∃ doc, (Schema.load Example.shelf).result = .ok Example.loadedShelf ∧ Example.loadedShelf.IsOrderly ∧
      (generate Example.loadedShelf [.text "m"] { maxDepth := .int 3 }).result = .ok doc ∧
      Set.BijOn Example.loadedShelf.dataPath
        {p | Example.loadedShelf.IsReached [.text "m"] { maxDepth := .int 3 } p}
        {path | path.IsDataPath ∧ (doc.paths.get? path).isSome = true} ∧
      ∀ p, Example.loadedShelf.IsReached [.text "m"] { maxDepth := .int 3 } p → ∀ method,
        (doc.operation? (Example.loadedShelf.dataPath p) method).isSome = true ↔
          method ∈ Handler.methods (!p.node.config) := by
  have htest : passes Example.shelf [.text "m"] { maxDepth := .int 3 } (fun _ _ => true) = true := by
    decide +kernel
  obtain ⟨s, doc, hload, hgenerate, -⟩ := exists_of_passes htest
  obtain rfl := Except.ok.inj (hload.symm.trans load_shelf)
  exact ⟨doc, hload, isOrderly_loadedShelf, hgenerate,
    bijOn_dataPath hload isOrderly_loadedShelf (by decide) (.inr ⟨3, rfl⟩) hgenerate⟩

end RestconfApi
