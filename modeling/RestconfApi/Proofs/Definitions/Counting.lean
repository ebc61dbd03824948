import RestconfApi.Proofs.Definitions.Recording
import RestconfApi.Proofs.Documents
import RestconfApi.Proofs.Schema.Usage

/-!
# Definitions: what usage counts are

A usage count tells how many `uses` that are no copies mean a grouping: those in the groupings of all modules, once,
and those in the modules that have been processed. The first module that is processed brings the groupings along.
-/

namespace RestconfApi

namespace Definitions

open Building

variable {s : Schema} {d d' d'' : Definitions}

/-- Some `uses` have been counted on the way. -/
structure Counts (s : Schema) (uses : List (Name × String)) (d d' : Definitions) : Prop where
  usages : ∀ qname, d'.usageCount qname = d.usageCount qname + uses.countP (s.means qname)
  bodiesCounted : d'.bodiesCounted = d.bodiesCounted

namespace Counts

variable {uses uses' : List (Name × String)}

theorem refl (d : Definitions) : Counts s [] d d := ⟨fun _ => rfl, rfl⟩

theorem trans (h : Counts s uses d d') (h' : Counts s uses' d' d'') : Counts s (uses ++ uses') d d'' :=
  ⟨fun qname => by rw [h'.usages, h.usages, List.countP_append, Nat.add_assoc],
    h'.bodiesCounted.trans h.bodiesCounted⟩

theorem foldl {α : Type} {step : Definitions → α → Definitions} {f : α → List (Name × String)}
    (h : ∀ d x, Counts s (f x) d (step d x)) (l : List α) (d : Definitions) :
    Counts s (l.flatMap f) d (l.foldl step d) := by
  induction l generalizing d with
  | nil => exact refl d
  | cons x l ih => exact (h d x).trans (ih _)

end Counts

/-! ### Nodes and trees -/

/-- One more use of a grouping counts for the grouping alone. -/
theorem usageCount_put (d : Definitions) (name qname : String) (count : Nat) :
    ({ d with usages := d.usages.put name count } : Definitions).usageCount qname =
      if name = qname then count else d.usageCount qname := by
  unfold usageCount
  dsimp only
  split
  · rename_i heq
    rw [heq, Entries.get?_put_self]
    rfl
  · rename_i hne
    rw [Entries.get?_put_of_ne (beq_eq_false_iff_ne.mpr hne)]

theorem counts_countUses (s : Schema) (d : Definitions) (p : Place) :
    Counts s p.node.toStatement.ownUses d (countUses s d p) := by
  unfold countUses Statement.ownUses
  split
  · exact .refl d
  · rw [List.map_eq_flatMap]
    refine Counts.foldl (fun d ref => ?_) _ d
    cases hg : s.grouping? ref p.node.owner with
    | none => exact ⟨fun qname => by simp [Schema.means, hg], rfl⟩
    | some g =>
      refine ⟨fun qname => ?_, rfl⟩
      rw [usageCount_put, List.countP_singleton, Schema.means, hg, Option.any_some]
      by_cases hq : g.node.qname = qname
      · rw [if_pos hq, if_pos (beq_iff_eq.mpr hq), hq]
      · rw [if_neg hq, if_neg (by simpa using hq)]
        rfl

theorem counts_recordCopy (s : Schema) (inPayload : Bool) (d : Definitions) (p : Place) :
    Counts s [] d (recordCopy s inPayload d p) := by
  have hstep : ∀ d (t : Place), Counts s [] d
      (if inPayload then { d with payload := d.payload ++ [t.address] }
        else { d with copies := d.copies ++ [(t.address, p)] }) := by
    intro d t
    cases inPayload <;> exact ⟨fun _ => rfl, rfl⟩
  have hfold := Counts.foldl hstep (s.templates p) d
  rwa [flatMap_nil_right] at hfold

theorem counts_processTree (s : Schema) (d : Definitions) (top : Place) :
    Counts s (Schema.usesAt [top]) d (processTree s d top) := by
  have hfold := Counts.foldl (fun d p => (counts_countUses s d p).trans
    (counts_recordCopy s (top.node.kind = .rpc) (countUses s d p) p)) top.nodes d
  unfold processTree
  simpa [Schema.usesAt] using hfold

/-! ### Modules -/

/-- The `uses` that are counted while modules are processed: those of all groupings with the first module, and those
of each module. -/
def usesOf (s : Schema) (modules : List Nat) : List (Name × String) :=
  if modules.isEmpty then [] else Schema.usesAt (s.groupings ++ modules.flatMap (topsOf s))

/-- What has been counted when modules have been processed. -/
structure Counted (s : Schema) (modules : List Nat) (d : Definitions) : Prop where
  usages : ∀ qname, d.usageCount qname = (usesOf s modules).countP (s.means qname)
  bodiesCounted : d.bodiesCounted = !modules.isEmpty

theorem Counted.countBodies {modules : List Nat} (h : Counted s modules d) (qname : String) :
    (countBodies s d).usageCount qname =
      (Schema.usesAt (s.groupings ++ modules.flatMap (topsOf s))).countP (s.means qname) ∧
      (countBodies s d).bodiesCounted = true := by
  unfold Definitions.countBodies
  rw [h.bodiesCounted]
  cases modules with
  | nil =>
    have hfold := Counts.foldl (counts_countUses s) (s.groupings.flatMap Place.nodes) d
    refine ⟨?_, rfl⟩
    rw [List.flatMap_nil, List.append_nil]
    refine (hfold.usages qname).trans ?_
    rw [h.usages]
    exact Nat.zero_add _
  | cons i modules => exact ⟨h.usages qname, h.bodiesCounted⟩

/-- Processing a module counts what it holds if its name is a key, and fails otherwise. -/
theorem Counted.processModule {modules : List Nat} (h : Counted s modules d) {i : Nat} {m : Module}
    (hm : s.modules[i]? = some m) :
    (processModule s i).Settles d (fun _ d' => m.name.asKey?.isSome = true ∧ Counted s (modules ++ [i]) d')
      fun _ _ => m.name.asKey?.isSome = false := by
  unfold Definitions.processModule
  rw [hm]
  refine settles_bind (settles_modify ?_)
  dsimp only
  cases hkey : m.name.asKey? with
  | none => exact settles_fail rfl
  | some k =>
    refine settles_modify ⟨rfl, ?_⟩
    generalize (if (Definitions.countBodies s d).processed.contains m.name then _ else _) = processed
    have htrees := Counts.foldl (counts_processTree s) (topsOf s i) { Definitions.countBodies s d with processed }
    have hbodies := h.countBodies
    have huses : usesOf s (modules ++ [i]) = Schema.usesAt (s.groupings ++ modules.flatMap (topsOf s)) ++
        (topsOf s i).flatMap fun top => Schema.usesAt [top] := by
      rw [usesOf, if_neg (by simp), List.flatMap_append, List.flatMap_singleton, ← List.append_assoc,
        Schema.usesAt_append, ← Schema.usesAt_flatMap, ← List.map_eq_flatMap, List.map_id']
    refine ⟨fun qname => ?_, ?_⟩
    · rw [huses, List.countP_append, ← (hbodies qname).1]
      exact htrees.usages qname
    · rw [show (!(modules ++ [i]).isEmpty) = true by simp, ← (hbodies "").2]
      exact htrees.bodiesCounted

/-- Modules can be processed one after the other exactly if their names are keys, and what they hold is counted. -/
theorem processModules_counted {indices : List Nat} (hindices : ∀ i ∈ indices, i < s.modules.length)
    (document : Document) :
    (indices.forM (processModule s)).Settles { document }
      (fun _ d => (∀ i ∈ indices, ∀ m, s.modules[i]? = some m → m.name.asKey?.isSome = true) ∧ Counted s indices d)
      fun _ _ => ∃ i ∈ indices, ∃ m, s.modules[i]? = some m ∧ m.name.asKey?.isSome = false := by
  suffices key : ∀ (rest modules : List Nat) (d : Definitions), (∀ i ∈ rest, i < s.modules.length) →
      Counted s modules d →
      (rest.forM (processModule s)).Settles d
        (fun _ d' => (∀ i ∈ rest, ∀ m, s.modules[i]? = some m → m.name.asKey?.isSome = true) ∧
          Counted s (modules ++ rest) d')
        fun _ _ => ∃ i ∈ rest, ∃ m, s.modules[i]? = some m ∧ m.name.asKey?.isSome = false from
    key indices [] _ hindices ⟨fun _ => rfl, rfl⟩
  intro rest
  induction rest with
  | nil => exact fun modules d _ h => settles_pure ⟨by simp, by rwa [List.append_nil]⟩
  | cons i rest ih =>
    intro modules d hrest h
    have hm := List.getElem?_eq_getElem (hrest i List.mem_cons_self)
    refine settles_bind ((h.processModule hm).mono (fun _ d' h' => ?_)
      fun _ _ hkey => ⟨i, List.mem_cons_self, _, hm, hkey⟩)
    refine (ih (modules ++ [i]) d' (fun j hj => hrest j (List.mem_cons_of_mem _ hj)) h'.2).mono
      (fun _ d'' h'' => ⟨List.forall_mem_cons.mpr ⟨fun m hm' => ?_, h''.1⟩, ?_⟩) ?_
    · rw [Option.some.inj (hm'.symm.trans hm)]
      exact h'.1
    · have hcounted := h''.2
      rwa [List.append_assoc] at hcounted
    · rintro _ _ ⟨j, hj, hkey⟩
      exact ⟨j, List.mem_cons_of_mem _ hj, hkey⟩

/-- Some modules can be processed, in whatever order, exactly if their names are keys. The count of each name is then
the number of `uses` that mean it and are no copies, in all groupings and in the data and the rpcs of these modules.
They are those of the document, where an augment counts for the module that its target stands in. -/
theorem usageCount_of_load {datum : Datum} {s : Schema} (hload : (Schema.load datum).result = .ok s)
    {indices : List Nat} (hindices : ∀ i ∈ indices, i < s.modules.length) (hne : indices ≠ []) (document : Document) :
    ∃ modules augments, Declaration.document datum = .ok (modules, augments) ∧
      ((∃ d, indices.forM (processModule s) { document } = (.ok (), d)) ↔
        ∀ i ∈ indices, ∀ m, s.modules[i]? = some m → m.name.asKey?.isSome = true) ∧
      ∀ d, indices.forM (processModule s) { document } = (.ok (), d) → ∀ qname,
        d.usageCount qname =
          (Schema.usesAt (s.groupings ++ indices.flatMap (topsOf s))).countP (s.means qname) ∧
        d.usageCount qname =
          ((⟨modules⟩ : Schema).groupingUses ++ indices.flatMap fun i =>
            (⟨modules⟩ : Schema).dataUses i ++ (s.graftedIn augments i).flatMap Node.treeUses).countP
            ((⟨modules⟩ : Schema).means qname) := by
  obtain ⟨modules, augments, hdocument, hmeans, hgroupings, hdata⟩ := Schema.uses_of_load hload
  have hrun := processModules_counted hindices document
  refine ⟨modules, augments, hdocument, ⟨?_, fun hkeys => ?_⟩, fun d hd qname => ?_⟩
  · rintro ⟨d, hd⟩
    exact (hrun.ok () d hd).1
  · rcases hresult : indices.forM (processModule s) { document } with ⟨e | _, d⟩
    · obtain ⟨i, hi, m, hm, hkey⟩ := hrun.error e d hresult
      rw [hkeys i hi m hm] at hkey
      cases hkey
    · exact ⟨d, rfl⟩
  · have hcount : d.usageCount qname =
        (Schema.usesAt (s.groupings ++ indices.flatMap (topsOf s))).countP (s.means qname) := by
      rw [(hrun.ok () d hd).2.usages qname, usesOf, if_neg (by simpa using hne)]
    refine ⟨hcount, hcount.trans ?_⟩
    rw [hmeans qname, Schema.usesAt_append, hgroupings, Schema.usesAt_flatMap]
    exact ((List.Perm.flatMap_left indices fun i _ => hdata i).append_left _).countP_eq _

end Definitions

open Definitions Example

/-- A grouping that another grouping, a container and an augment of one of its own copies use. -/
def Example.tallied : Datum :=
  .object [("modules", .list [
    module "a" [
      ("groupings", [grouping "g" [container "e" []], grouping "h" [container "f" ["g"]]]),
      ("data", [container "c" ["g"], container "x" ["h"]])],
    module "b" [("augments", [
      .object [("target", .text "/a:c/a:e"), ("children", .list [container "d" ["a:g"]])]])]])]

/-- Its copies do not count, and the augment counts for the module that it adds to. -/
theorem usageCount_of_load_tallied : ∃ s d, (Schema.load Example.tallied).result = .ok s ∧
    (∀ i ∈ [1, 0], i < s.modules.length) ∧ [1, 0].forM (processModule s) {} = (.ok (), d) ∧
      d.usageCount "a:g" = 3 := by
  have htest : ((Schema.load Example.tallied).result.toOption.any fun s =>
      s.modules.length = 2 && s.modules.all (·.name.asKey?.isSome) &&
        (Schema.usesAt (s.groupings ++ [1, 0].flatMap (topsOf s))).countP (s.means "a:g") = 3) = true := by
    decide +kernel
  obtain ⟨s, hload, htest⟩ := exists_of_any htest
  simp only [Bool.and_eq_true, decide_eq_true_eq, List.all_eq_true] at htest
  obtain ⟨⟨hlength, hkeys⟩, hcount⟩ := htest
  have hindices : ∀ i ∈ [1, 0], i < s.modules.length := by
    rw [hlength]
    decide
  obtain ⟨modules, augments, -, hruns, hcounts⟩ := usageCount_of_load hload hindices (by decide) {}
  obtain ⟨d, hd⟩ := hruns.mpr fun i _ m hm => hkeys m (List.mem_of_getElem? hm)
  exact ⟨s, d, hload, hindices, hd, (hcounts d hd "a:g").1.trans hcount⟩

/-- As long as no module has been processed, the `uses` in groupings do not count. -/
theorem not_usageCount_of_load_tallied : ∃ s d, (Schema.load Example.tallied).result = .ok s ∧
    (∀ i ∈ ([] : List Nat), i < s.modules.length) ∧ ([] : List Nat).forM (processModule s) {} = (.ok (), d) ∧
      d.usageCount "a:g" = 0 ∧
      (Schema.usesAt (s.groupings ++ ([] : List Nat).flatMap (topsOf s))).countP (s.means "a:g") = 1 := by
  have htest : ((Schema.load Example.tallied).result.toOption.any fun s =>
      (Schema.usesAt (s.groupings ++ ([] : List Nat).flatMap (topsOf s))).countP (s.means "a:g") = 1) = true := by
    decide +kernel
  obtain ⟨s, hload, hcount⟩ := exists_of_any htest
  exact ⟨s, {}, hload, by simp, rfl, rfl, of_decide_eq_true hcount⟩

end RestconfApi
