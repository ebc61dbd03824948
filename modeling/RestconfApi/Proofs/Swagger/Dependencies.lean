import Mathlib.Logic.Relation
import RestconfApi.Proofs.Swagger.Fields
import RestconfApi.Proofs.Swagger.Ordering
import RestconfApi.Proofs.Texts
import RestconfApi.Swagger.Text

/-!
# Swagger: dependencies come first

The definitions are put in an order in which each comes after those that it points at, unless these lead back to
it. Circles do not get in the way: a definition is left out of the search only while its own dependencies are
being added, and then there is a way back from what is added to it. The order depends on what the definitions
are and not on the order in which they were given.
-/

namespace RestconfApi

theorem Entries.Unique.get?_eq_of_perm {κ α : Type} [BEq κ] [EquivBEq κ] {m m' : Entries κ α} (h : m.Unique)
    (hp : List.Perm m' m) (k : κ) : m'.get? k = m.get? k := by
  have h' : m'.Unique := (hp.pairwise_iff fun {e e'} hne => by rwa [BEq.comm]).mpr h
  cases hk : m.get? k with
  | some v =>
    obtain ⟨j, hj, hjk⟩ := mem_of_get? hk
    rw [← get?_congr hjk, h'.get?_eq_of_mem (hp.mem_iff.mpr hj)]
  | none =>
    rw [get?_eq_none_iff] at hk ⊢
    exact fun j hj => hk j ((hp.map Prod.fst).subset hj)

/-- The entries of given keys have these as their keys. -/
theorem Entries.keys_filterMap_get? {κ α : Type} [BEq κ] [ReflBEq κ] (m : Entries κ α) {names : List κ}
    (h : names ⊆ m.keys) :
    Entries.keys (names.filterMap fun name => (m.get? name).map (name, ·) : Entries κ α) = names := by
  induction names with
  | nil => rfl
  | cons name names ih =>
    obtain ⟨hname, hnames⟩ := List.cons_subset.mp h
    obtain ⟨v, hv⟩ := Option.isSome_iff_exists.mp (isSome_get?_iff.mpr ⟨name, hname, BEq.rfl⟩)
    rw [List.filterMap_cons_some (b := (name, v)) (by rw [hv]; rfl), keys, List.map_cons]
    exact congrArg (name :: ·) (ih hnames)

namespace Document

variable {d : Document}

/-! ### What points at what -/

/-- The names of the definitions are different texts, and the definitions point at texts. -/
structure IsWorded (d : Document) : Prop where
  unique : d.definitions.Unique
  names : Scalar.AreTexts d.definitions.keys
  refs : ∀ e ∈ d.definitions, ∀ r ∈ e.2.refs, ∃ t, r = .text t

/-- The definition of the name `a` points at the name `b`. -/
def PointsAt (d : Document) (a b : Scalar) : Prop :=
  ∃ m, d.definitions.get? a = some m ∧ .scalar b ∈ m.refs

theorem IsWorded.areTexts_refs (hd : d.IsWorded) {name : Scalar} {m : Model}
    (hget : d.definitions.get? name = some m) : Scalar.AreTexts (m.refs.filterMap Datum.asKey?) := by
  intro k hk
  obtain ⟨r, hr, hrk⟩ := List.mem_filterMap.mp hk
  obtain ⟨j, hj, -⟩ := Entries.mem_of_get? hget
  obtain ⟨t, rfl⟩ := hd.refs _ hj r hr
  exact ⟨t, (Option.some.inj hrk).symm⟩

theorem IsWorded.mem_dependencies (hd : d.IsWorded) {a b : Scalar} :
    b ∈ d.dependencies a ↔ d.PointsAt a b := by
  unfold dependencies PointsAt
  cases hget : d.definitions.get? a with
  | none => simp
  | some m =>
    simp only [Option.some.injEq, exists_eq_left', Scalar.mem_sorted, (hd.areTexts_refs hget).mem_distinct,
      List.mem_filterMap]
    constructor
    · rintro ⟨r, hr, hrb⟩
      rwa [← Datum.eq_scalar_of_asKey? hrb]
    · exact fun hb => ⟨_, hb, rfl⟩

/-! ### The search -/

/-- Definitions that have been put in order so far: each comes after those that it points at and that do not
lead back to it. -/
structure Sequenced (d : Document) (done : List Scalar) : Prop where
  defined : done ⊆ d.definitions.keys
  ordered : ∀ pre a, pre ++ [a] <+: done → ∀ b ∈ d.definitions.keys, d.PointsAt a b →
    b ∈ pre ∨ Relation.TransGen d.PointsAt b a

theorem sequenced_nil (d : Document) : d.Sequenced [] where
  defined := List.nil_subset _
  ordered pre a hpre := by simp at hpre

theorem Sequenced.concat {done : List Scalar} (h : d.Sequenced done) {name : Scalar}
    (hname : name ∈ d.definitions.keys)
    (hdeps : ∀ b ∈ d.definitions.keys, d.PointsAt name b → b ∈ done ∨ Relation.TransGen d.PointsAt b name) :
    d.Sequenced (done ++ [name]) where
  defined := List.append_subset.mpr ⟨h.defined, by simpa using hname⟩
  ordered pre a hpre := by
    rcases List.prefix_concat_iff.mp hpre with heq | hpre
    · obtain ⟨rfl, rfl⟩ := List.concat_inj.mp (by simpa using heq)
      exact hdeps
    · exact h.ordered pre a hpre

/-- The dependencies in turn, if a visit of each keeps the order: those of them that are defined have been added,
or they are under way. -/
theorem Sequenced.foldl_visitDependency (hd : d.IsWorded) {fuel : Nat} {under : List Scalar}
    (hunder : Scalar.AreTexts under) {deps done : List Scalar} (h : d.Sequenced done)
    (hvisit : ∀ dep ∈ deps, dep ∈ d.definitions.keys → dep ∉ under → ∀ done, d.Sequenced done →
      d.Sequenced (d.visit fuel under done dep) ∧ dep ∈ d.visit fuel under done dep) :
    d.Sequenced (deps.foldl (d.visitDependency fuel under) done) ∧
      ∀ b ∈ deps, b ∈ d.definitions.keys →
        b ∈ deps.foldl (d.visitDependency fuel under) done ∨ b ∈ under := by
  induction deps generalizing done with
  | nil => exact ⟨h, by simp⟩
  | cons dep deps ih =>
    have hdone : Scalar.AreTexts done := fun k hk => hd.names k (h.defined hk)
    have hstep : d.Sequenced (d.visitDependency fuel under done dep) ∧
        (dep ∈ d.definitions.keys → dep ∈ d.visitDependency fuel under done dep ∨ dep ∈ under) := by
      unfold visitDependency
      by_cases hnew : dep ∈ d.definitions.keys ∧ dep ∉ done ∧ dep ∉ under
      · obtain ⟨hdep, hadded, hway⟩ := hnew
        rw [if_pos (by simp [hd.names.contains_iff.mpr hdep, mt hdone.contains_iff.mp hadded,
          mt hunder.contains_iff.mp hway])]
        obtain ⟨hsequenced, hmem⟩ := hvisit dep List.mem_cons_self hdep hway done h
        exact ⟨hsequenced, fun _ => .inl hmem⟩
      · rw [if_neg]
        · refine ⟨h, fun hdep => ?_⟩
          by_cases hway : dep ∈ under
          · exact .inr hway
          · exact .inl (by_contra fun hadded => hnew ⟨hdep, hadded, hway⟩)
        · simpa only [Bool.and_eq_true, Bool.not_eq_true', ← Bool.not_eq_true, hd.names.contains_iff,
            hdone.contains_iff, hunder.contains_iff, and_assoc] using hnew
    obtain ⟨hsequenced, hall⟩ := ih hstep.1 fun b hb => hvisit b (List.mem_cons_of_mem _ hb)
    refine ⟨hsequenced, fun b hb hdef => ?_⟩
    rcases List.mem_cons.mp hb with rfl | hb
    · have hsub := subset_foldl (d.subset_visitDependency fuel under) deps (d.visitDependency fuel under done b)
      exact (hstep.2 hdef).imp_left fun hmem => hsub hmem
    · exact hall b hb hdef

/-- A visit keeps the order. All names under way lead to the one that is visited, and so to whatever is left out
because it is under way. -/
theorem Sequenced.visit (hd : d.IsWorded) (fuel : Nat) {under done : List Scalar} {name : Scalar}
    (h : d.Sequenced done) (hname : name ∈ d.definitions.keys)
    (hunder : ∀ u ∈ under, u ∈ d.definitions.keys ∧ Relation.TransGen d.PointsAt u name)
    (hnodup : (name :: under).Nodup) (hfuel : d.definitions.length < fuel + under.length) :
    d.Sequenced (d.visit fuel under done name) ∧ name ∈ d.visit fuel under done name := by
  have hway : name :: under ⊆ d.definitions.keys :=
    List.cons_subset.mpr ⟨hname, fun u hu => (hunder u hu).1⟩
  induction fuel generalizing under done name with
  | zero =>
    -- the names under way are different names of definitions, so that there is always fuel left
    have hlen := (List.Nodup.subperm hnodup hway).length_le
    rw [Entries.keys, List.length_map, List.length_cons] at hlen
    omega
  | succ fuel ih =>
    have hvisit : ∀ dep ∈ d.dependencies name, dep ∈ d.definitions.keys → dep ∉ name :: under →
        ∀ done, d.Sequenced done → d.Sequenced (d.visit fuel (name :: under) done dep) ∧
          dep ∈ d.visit fuel (name :: under) done dep := by
      intro dep hdep hdefined hnew done hdone
      have hpoint : Relation.TransGen d.PointsAt name dep := .single (hd.mem_dependencies.mp hdep)
      refine ih hdone hdefined (fun u hu => ?_) (List.nodup_cons.mpr ⟨hnew, hnodup⟩)
        (by rw [List.length_cons]; omega) (List.cons_subset.mpr ⟨hdefined, hway⟩)
      rcases List.mem_cons.mp hu with rfl | hu
      · exact ⟨hname, hpoint⟩
      · exact ⟨(hunder u hu).1, (hunder u hu).2.trans hpoint⟩
    rw [visit_succ]
    obtain ⟨hsequenced, hall⟩ :=
      h.foldl_visitDependency hd (fun k hk => hd.names k (hway hk)) hvisit
    refine ⟨hsequenced.concat hname fun b hb hpoint => ?_, by simp⟩
    rcases hall b (hd.mem_dependencies.mpr hpoint) hb with hin | hin
    · exact .inl hin
    · rcases List.mem_cons.mp hin with rfl | hin
      · exact .inr (.single hpoint)
      · exact .inr (hunder b hin).2

theorem sequenced_orderedNames (hd : d.IsWorded) : d.Sequenced d.orderedNames := by
  rw [orderedNames_eq]
  suffices key : ∀ names done, names ⊆ d.definitions.keys → d.Sequenced done →
      d.Sequenced (names.foldl d.visitDefinition done) from
    key _ [] (fun _ hk => Scalar.mem_sorted.mp hk) (sequenced_nil d)
  intro names
  induction names with
  | nil => exact fun done _ hdone => hdone
  | cons name names ih =>
    intro done hsub hdone
    obtain ⟨hname, hnames⟩ := List.cons_subset.mp hsub
    refine ih _ hnames ?_
    unfold visitDefinition
    split
    · exact hdone
    · exact (hdone.visit hd _ hname (by simp) (by simp) (by simp)).1

/-! ### The order of the definitions -/

theorem mem_orderedNames (hd : d.IsWorded) {k : Scalar} : k ∈ d.orderedNames ↔ k ∈ d.definitions.keys := by
  have hsub := (sequenced_orderedNames hd).defined
  refine ⟨fun hk => hsub hk, fun hk => ?_⟩
  have htexts : Scalar.AreTexts d.orderedNames := fun k hk => hd.names k (hsub hk)
  exact htexts.contains_iff.mp (contains_orderedNames hk)

theorem keys_sortDefinitions (hd : d.IsWorded) : d.sortDefinitions.definitions.keys = d.orderedNames :=
  Entries.keys_filterMap_get? d.definitions (sequenced_orderedNames hd).defined

/-- Ordering permutes the definitions. -/
theorem perm_sortDefinitions (hd : d.IsWorded) : d.sortDefinitions.definitions.Perm d.definitions := by
  have hnodup : ∀ {m : Models}, m.Unique → m.Nodup := fun h =>
    h.imp fun hne heq => by
      rw [heq, BEq.rfl] at hne
      cases hne
  refine (List.perm_ext_iff_of_nodup (hnodup unique_sortDefinitions) (hnodup hd.unique)).mpr fun e => ?_
  constructor
  · intro he
    obtain ⟨name, hname, hsome⟩ := List.mem_filterMap.mp he
    obtain ⟨m, hm, rfl⟩ := Option.map_eq_some_iff.mp hsome
    obtain ⟨⟨_, m'⟩, hmem, rfl⟩ := List.mem_map.mp ((mem_orderedNames hd).mp hname)
    rwa [← Option.some.inj ((hd.unique.get?_eq_of_mem hmem).symm.trans hm)]
  · intro he
    refine List.mem_filterMap.mpr ⟨e.1, (mem_orderedNames hd).mpr (List.mem_map_of_mem he), ?_⟩
    rw [hd.unique.get?_eq_of_mem he]
    rfl

/-! ### Other orders of the same definitions -/

theorem IsWorded.of_perm (hd : d.IsWorded) {e : Document} (hp : e.definitions.Perm d.definitions) :
    e.IsWorded where
  unique := (hp.pairwise_iff fun {e e'} hne => by rwa [BEq.comm]).mpr hd.unique
  names k hk := hd.names k ((hp.map Prod.fst).subset hk)
  refs x hx := hd.refs x (hp.subset hx)

theorem visit_congr {e : Document} (hdeps : e.dependencies = d.dependencies)
    (hkeys : e.definitions.keys.contains = d.definitions.keys.contains) (fuel : Nat) :
    e.visit fuel = d.visit fuel := by
  induction fuel with
  | zero => rfl
  | succ fuel ih =>
    funext under done name
    have hstep : e.visitDependency fuel = d.visitDependency fuel := by
      funext under done dep
      rw [visitDependency, visitDependency, ih, hkeys]
    rw [visit_succ, visit_succ, hdeps, hstep]

/-- The order does not depend on the one in which the definitions were given. -/
theorem sortDefinitions_eq_of_perm (hd : d.IsWorded) {e : Document} (hp : e.definitions.Perm d.definitions) :
    e.sortDefinitions = { e with definitions := d.sortDefinitions.definitions } := by
  have hget : ∀ k, e.definitions.get? k = d.definitions.get? k := hd.unique.get?_eq_of_perm hp
  have hkeysPerm : e.definitions.keys.Perm d.definitions.keys := hp.map Prod.fst
  have hdeps : e.dependencies = d.dependencies := by
    funext name
    rw [dependencies, dependencies, hget]
  have hkeys : e.definitions.keys.contains = d.definitions.keys.contains := by
    funext k
    rw [Bool.eq_iff_iff, (hd.of_perm hp).names.contains_iff, hd.names.contains_iff, hkeysPerm.mem_iff]
  have hvisit : e.visitDefinition = d.visitDefinition := by
    funext done name
    rw [visitDefinition, visitDefinition, visit_congr hdeps hkeys, hp.length_eq]
  have hnames : e.orderedNames = d.orderedNames := by
    rw [orderedNames_eq, orderedNames_eq, hvisit, hd.names.sorted_eq_of_perm hkeysPerm]
  simp only [sortDefinitions, hget, hnames]

theorem sortDefinitions?_eq (hd : d.IsWorded) : d.sortDefinitions? = .ok d.sortDefinitions := by
  have hrefs : ∀ e ∈ d.definitions, areComparable e.2.refs = true := by
    refine fun e he => (Bool.and_eq_true _ _).mpr ⟨?_, ?_⟩
    · refine List.all_eq_true.mpr fun r hr => ?_
      obtain ⟨t, rfl⟩ := hd.refs e he r hr
      rfl
    · have htexts := hd.areTexts_refs (hd.unique.get?_eq_of_mem he)
      exact Scalar.AreTexts.areOrdered fun k hk => htexts k (Scalar.distinct_subset _ hk)
  rw [sortDefinitions?, if_pos ((Bool.and_eq_true _ _).mpr ⟨hd.names.areOrdered, List.all_eq_true.mpr hrefs⟩)]

/-! ### Paths -/

/-- Paths in order stay as they are. -/
theorem sortPaths_sortPaths (hpaths : Scalar.AreTexts d.paths.keys) : d.sortPaths.sortPaths = d.sortPaths := by
  have hkeys : d.sortPaths.paths.keys = Scalar.sorted d.paths.keys :=
    Entries.keys_filterMap_get? d.paths fun _ hk => Scalar.mem_sorted.mp hk
  have hsorted := hpaths.sorted_eq_of_perm (Scalar.perm_sorted d.paths.keys)
  show { d.sortPaths with paths := (Scalar.sorted d.sortPaths.paths.keys).filterMap fun path =>
    (d.sortPaths.paths.get? path).map (path, ·) } = d.sortPaths
  simp only [hkeys, hsorted, get?_sortPaths]
  rfl

theorem sort?_eq (hd : d.IsWorded) (hpaths : Scalar.AreTexts d.paths.keys) :
    d.sort? = .ok d.sortDefinitions.sortPaths := by
  have hordered : Scalar.areOrdered d.sortDefinitions.paths.keys = true := hpaths.areOrdered
  rw [sort?, sortDefinitions?_eq hd]
  show d.sortDefinitions.sortPaths? = _
  rw [sortPaths?, if_pos hordered]

/-- A document in order stays as it is. -/
theorem sort?_sort (hd : d.IsWorded) (hpaths : Scalar.AreTexts d.paths.keys) :
    d.sortDefinitions.sortPaths.sort? = .ok d.sortDefinitions.sortPaths := by
  have hperm : d.sortDefinitions.sortPaths.definitions.Perm d.definitions := perm_sortDefinitions hd
  have hkeys : d.sortDefinitions.sortPaths.paths.keys ⊆ d.paths.keys := by
    rw [show d.sortDefinitions.sortPaths.paths.keys = Scalar.sorted d.paths.keys from
      Entries.keys_filterMap_get? d.paths fun _ hk => Scalar.mem_sorted.mp hk]
    exact fun _ hk => Scalar.mem_sorted.mp hk
  have hpathsAgain : d.sortDefinitions.sortPaths.sortPaths = d.sortDefinitions.sortPaths :=
    sortPaths_sortPaths hpaths
  rw [sort?_eq (hd.of_perm hperm) fun k hk => hpaths k (hkeys hk), sortDefinitions_eq_of_perm hd hperm]
  exact congrArg Except.ok hpathsAgain

/-! ### The order, in all -/

/-- `d'` is `d` with its definitions in order. -/
structure Sorts (d d' : Document) : Prop where
  rest : d' = { d with definitions := d'.definitions }
  perm : d'.definitions.Perm d.definitions
  /-- A definition comes after those that it points at and that do not lead back to it. -/
  before : ∀ pre a m post, d'.definitions = pre ++ (a, m) :: post → ∀ b, .scalar b ∈ m.refs →
    Models.Defines d.definitions b → ¬Relation.TransGen d.PointsAt b a → b ∈ Entries.keys pre
  /-- The same definitions in another order end in this one. -/
  unique : ∀ e : Document, e.definitions.Perm d.definitions →
    e.sortDefinitions? = .ok { e with definitions := d'.definitions }
  again : d'.sortDefinitions? = .ok d'

theorem sorts_sortDefinitions (hd : d.IsWorded) : d.Sorts d.sortDefinitions where
  rest := rfl
  perm := perm_sortDefinitions hd
  before pre a m post heq b hb hdef hback := by
    have hsequenced := sequenced_orderedNames hd
    rw [← keys_sortDefinitions hd, heq, Entries.keys, List.map_append, List.map_cons] at hsequenced
    have hmem : (a, m) ∈ d.definitions :=
      (perm_sortDefinitions hd).mem_iff.mp (heq ▸ List.mem_append_right _ List.mem_cons_self)
    have hpoint : d.PointsAt a b := ⟨m, hd.unique.get?_eq_of_mem hmem, hb⟩
    have hkey : b ∈ d.definitions.keys := by
      rw [← hd.names.contains_iff, List.contains_iff_exists_mem_beq]
      obtain ⟨j, hj, hjb⟩ := Entries.isSome_get?_iff.mp hdef
      exact ⟨j, hj, BEq.symm hjb⟩
    have hprefix : Entries.keys pre ++ [a] <+: pre.map Prod.fst ++ a :: post.map Prod.fst :=
      ⟨post.map Prod.fst, by simp [Entries.keys]⟩
    exact (hsequenced.ordered _ a hprefix b hkey hpoint).resolve_right hback
  unique e hp := by
    rw [sortDefinitions?_eq (hd.of_perm hp), sortDefinitions_eq_of_perm hd hp]
  again := by
    have hperm := perm_sortDefinitions hd
    rw [sortDefinitions?_eq (hd.of_perm hperm), sortDefinitions_eq_of_perm hd hperm]

/-- Definitions of different names can be put in order, be there circles of references or references to nothing,
and a document is written as the same text in whichever order its definitions were given and however often
it is put in order. -/
theorem exists_sorts (hd : d.IsWorded) (hpaths : Scalar.AreTexts d.paths.keys) :
    (∃ d', d.sortDefinitions? = .ok d' ∧ d.Sorts d') ∧
      (∀ e : Document, e.definitions.Perm d.definitions → { e with definitions := d.definitions } = d →
        ∀ f, (e.sort? >>= Document.text f) = (d.sort? >>= Document.text f)) ∧
      ∀ f, (d.sort? >>= fun s => s.sort? >>= Document.text f) = (d.sort? >>= Document.text f) := by
  refine ⟨⟨_, sortDefinitions?_eq hd, sorts_sortDefinitions hd⟩, fun e hp heq f => ?_, fun f => ?_⟩
  · have hsorted : e.sortDefinitions? = d.sortDefinitions? := by
      rw [sortDefinitions?_eq (hd.of_perm hp), sortDefinitions?_eq hd, sortDefinitions_eq_of_perm hd hp]
      exact congrArg (fun s : Document => Except.ok { s with definitions := d.sortDefinitions.definitions }) heq
    rw [sort?, hsorted]
    rfl
  · rw [sort?_eq hd hpaths]
    show (d.sortDefinitions.sortPaths.sort? >>= Document.text f) = _
    rw [sort?_sort hd hpaths]

/-- A document in which `a` and `b` point at each other, `z` at `a` and at nothing, `c` at `z` and `s` at itself. -/
def circling : Document where
  paths := [(.text "/z", []), (.text "/a", [])]
  definitions := [
    (.text "c", .object { properties := [
      (.text "x", { type := .text "array", items := some { ref := some (.text "z") } })] }),
    (.text "b", .reference (.text "a")),
    (.text "a", .object { properties := [(.text "x", { ref := some (.text "b") })] }),
    (.text "z", .composed [.reference (.text "a"), .reference (.text "v")] .null),
    (.text "s", .reference (.text "s"))]

example : circling.orderedNames = [.text "b", .text "a", .text "z", .text "c", .text "s"] := by rfl

theorem exists_sorts_circling :
    (∃ d', circling.sortDefinitions? = .ok d' ∧ circling.Sorts d') ∧
      (∀ e : Document, e.definitions.Perm circling.definitions →
        { e with definitions := circling.definitions } = circling →
        ∀ f, (e.sort? >>= Document.text f) = (circling.sort? >>= Document.text f)) ∧
      ∀ f, (circling.sort? >>= fun s => s.sort? >>= Document.text f) = (circling.sort? >>= Document.text f) := by
  refine exists_sorts ⟨?_, ?_, ?_⟩ ?_
  · unfold Entries.Unique
    decide
  · simp [circling, Scalar.AreTexts, Entries.keys]
  · simp [circling, Property.refs, Model.refs, Model.partRefs, Model.fieldRefs, ObjectModel.refs]
  · simp [circling, Scalar.AreTexts, Entries.keys]

end Document

end RestconfApi
