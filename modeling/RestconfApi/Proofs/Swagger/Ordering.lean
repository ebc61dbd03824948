import RestconfApi.Entries
import RestconfApi.Proofs.Texts
import RestconfApi.Swagger.Ordering

/-!
# Swagger: what ordering keeps

The order of the definitions by their dependencies has every definition once, so that ordering changes what is
found under no name.
-/

namespace RestconfApi

/-- What is found under the names `names` in turn is what is found under them. -/
theorem Entries.get?_filterMap {κ α : Type} [BEq κ] [EquivBEq κ] (m : Entries κ α) (k : κ)
    (names : List κ) :
    get? k (names.filterMap fun name => (m.get? name).map (name, ·) : Entries κ α) =
      if names.contains k then m.get? k else none := by
  induction names with
  | nil => simp
  | cons name names ih =>
    cases hget : m.get? name with
    | none =>
      rw [List.filterMap_cons_none (by rw [hget]; rfl), ih, List.contains_cons]
      by_cases hk : (k == name) = true
      · rw [get?_congr hk, hget]
        simp
      · simp [hk]
    | some v =>
      rw [List.filterMap_cons_some (b := (name, v)) (by rw [hget]; rfl), List.contains_cons]
      by_cases hk : (k == name) = true
      · rw [get?, if_pos (BEq.symm hk), get?_congr hk, hget]
        simp [hk]
      · rw [get?, if_neg fun h => hk (BEq.symm h), ih]
        simp [hk]

namespace Document

variable {d : Document}

/-- Adds a dependency that is defined, unless it has been added or is under way. -/
def visitDependency (d : Document) (fuel : Nat) (under done : List Scalar) (dep : Scalar) : List Scalar :=
  if d.definitions.keys.contains dep && !done.contains dep && !under.contains dep then
    d.visit fuel under done dep
  else done

/-- Adds a definition unless it has been added. -/
def visitDefinition (d : Document) (done : List Scalar) (name : Scalar) : List Scalar :=
  if done.contains name then done else d.visit (d.definitions.length + 1) [] done name

theorem visit_succ (fuel : Nat) (under done : List Scalar) (name : Scalar) :
    d.visit (fuel + 1) under done name =
      (d.dependencies name).foldl (d.visitDependency fuel (name :: under)) done ++ [name] := rfl

theorem orderedNames_eq :
    d.orderedNames = (Scalar.sorted d.definitions.keys).foldl d.visitDefinition [] := rfl

theorem subset_foldl {α : Type} {step : List Scalar → α → List Scalar} (h : ∀ done x, done ⊆ step done x)
    (xs : List α) (done : List Scalar) : done ⊆ xs.foldl step done := by
  induction xs generalizing done with
  | nil => exact List.Subset.refl _
  | cons x xs ih => exact List.Subset.trans (h done x) (ih _)

theorem subset_visit (fuel : Nat) (under done : List Scalar) (name : Scalar) :
    done ⊆ d.visit fuel under done name := by
  induction fuel generalizing under done name with
  | zero => exact List.Subset.refl _
  | succ fuel ih =>
    rw [visit_succ]
    refine List.Subset.trans (subset_foldl (fun done dep => ?_) _ _) (List.subset_append_left _ _)
    unfold visitDependency
    split
    · exact ih _ _ _
    · exact List.Subset.refl _

theorem subset_visitDependency (fuel : Nat) (under done : List Scalar) (dep : Scalar) :
    done ⊆ d.visitDependency fuel under done dep := by
  unfold visitDependency
  split
  · exact subset_visit _ _ _ _
  · exact List.Subset.refl _

theorem subset_visitDefinition (done : List Scalar) (name : Scalar) : done ⊆ d.visitDefinition done name := by
  unfold visitDefinition
  split
  · exact List.Subset.refl _
  · exact subset_visit _ _ _ _

theorem mem_visit (fuel : Nat) (under done : List Scalar) (name : Scalar) :
    name ∈ d.visit (fuel + 1) under done name := by
  rw [visit_succ]
  exact List.mem_append_right _ (List.mem_singleton.mpr rfl)

theorem contains_visitDefinition (done : List Scalar) (name : Scalar) :
    (d.visitDefinition done name).contains name = true := by
  unfold visitDefinition
  split
  · assumption
  · exact List.contains_iff_exists_mem_beq.mpr ⟨name, mem_visit _ _ _ _, BEq.rfl⟩

/-- The order has a name that agrees with each one of a definition. -/
theorem contains_orderedNames {k : Scalar} (hk : k ∈ d.definitions.keys) :
    d.orderedNames.contains k = true := by
  suffices key : ∀ (names done : List Scalar), ∀ k ∈ names,
      (names.foldl d.visitDefinition done).contains k = true from
    key _ [] k (Scalar.mem_sorted.mpr hk)
  intro names
  induction names with
  | nil => simp
  | cons name names ih =>
    intro done k hk
    rcases List.mem_cons.mp hk with rfl | hk
    · obtain ⟨j, hj, hjk⟩ := List.contains_iff_exists_mem_beq.mp (contains_visitDefinition done k)
      exact List.contains_iff_exists_mem_beq.mpr ⟨j, subset_foldl subset_visitDefinition names _ hj, hjk⟩
    · exact ih _ k hk

/-- What is visited is added once, and nothing whose dependencies are being added is added meanwhile. -/
theorem pairwise_visit (fuel : Nat) (under done : List Scalar) (name : Scalar)
    (hdone : done.Pairwise fun j k => (j == k) = false) (hname : done.contains name = false)
    (hunder : under.contains name = false) :
    (d.visit fuel under done name).Pairwise (fun j k => (j == k) = false) ∧
      ∀ k, under.contains k = true → done.contains k = false →
        (d.visit fuel under done name).contains k = false := by
  induction fuel generalizing under done name with
  | zero => exact ⟨hdone, fun k _ hk => hk⟩
  | succ fuel ih =>
    -- the dependencies leave out what is under way, the name itself included
    have hdeps : ∀ (deps acc : List Scalar), acc.Pairwise (fun j k => (j == k) = false) →
        (∀ k, (name :: under).contains k = true → done.contains k = false → acc.contains k = false) →
        (deps.foldl (d.visitDependency fuel (name :: under)) acc).Pairwise (fun j k => (j == k) = false) ∧
        ∀ k, (name :: under).contains k = true → done.contains k = false →
          (deps.foldl (d.visitDependency fuel (name :: under)) acc).contains k = false := by
      intro deps
      induction deps with
      | nil => exact fun acc hacc hkeep => ⟨hacc, hkeep⟩
      | cons dep deps ihd =>
        intro acc hacc hkeep
        rw [List.foldl_cons]
        unfold visitDependency
        split
        · rename_i hif
          simp only [Bool.and_eq_true, Bool.not_eq_true'] at hif
          obtain ⟨hpair, hkept⟩ := ih (name :: under) acc dep hacc hif.1.2 hif.2
          exact ihd _ hpair fun k hk hkdone => hkept k hk (hkeep k hk hkdone)
        · exact ihd acc hacc hkeep
    rw [visit_succ]
    obtain ⟨hpair, hkept⟩ := hdeps (d.dependencies name) done hdone fun k _ hk => hk
    have hself := hkept name (by simp) hname
    refine ⟨List.pairwise_append.mpr ⟨hpair, List.pairwise_singleton _ _, fun j hj k hk => ?_⟩,
      fun k hk hkdone => ?_⟩
    · rw [List.mem_singleton.mp hk]
      refine Bool.eq_false_iff.mpr fun hjk => ?_
      rw [← Bool.not_eq_true, List.contains_iff_exists_mem_beq] at hself
      exact hself ⟨j, hj, BEq.symm hjk⟩
    · have hne : (k == name) = false := by
        refine Bool.eq_false_iff.mpr fun hkn => ?_
        rw [List.contains_congr hkn] at hk
        rw [hk] at hunder
        cases hunder
      rw [List.contains_append, hkept k (by simp [hk]) hkdone]
      simp [hne]

theorem pairwise_orderedNames : d.orderedNames.Pairwise fun j k => (j == k) = false := by
  rw [orderedNames_eq]
  generalize Scalar.sorted d.definitions.keys = names
  suffices key : ∀ (names done : List Scalar), done.Pairwise (fun j k => (j == k) = false) →
      (names.foldl d.visitDefinition done).Pairwise fun j k => (j == k) = false from
    key names [] List.Pairwise.nil
  intro names
  induction names with
  | nil => exact fun done hdone => hdone
  | cons name names ih =>
    intro done hdone
    rw [List.foldl_cons]
    refine ih _ ?_
    unfold visitDefinition
    split
    · exact hdone
    · exact (pairwise_visit _ _ _ _ hdone (Bool.eq_false_iff.mpr ‹_›) rfl).1

theorem unique_sortDefinitions : Entries.Unique d.sortDefinitions.definitions := by
  refine List.Pairwise.filterMap _ (fun j k hjk e he e' he' => ?_) pairwise_orderedNames
  obtain ⟨m, -, rfl⟩ := Option.map_eq_some_iff.mp he
  obtain ⟨m', -, rfl⟩ := Option.map_eq_some_iff.mp he'
  exact hjk

theorem get?_sortDefinitions (k : Scalar) :
    d.sortDefinitions.definitions.get? k = d.definitions.get? k := by
  rw [sortDefinitions, Entries.get?_filterMap]
  split
  · rfl
  · rename_i hk
    symm
    rw [← Option.not_isSome_iff_eq_none]
    intro hsome
    obtain ⟨j, hj, hjk⟩ := Entries.isSome_get?_iff.mp hsome
    obtain ⟨i, hi, hij⟩ := List.contains_iff_exists_mem_beq.mp (contains_orderedNames hj)
    exact hk (List.contains_iff_exists_mem_beq.mpr ⟨i, hi, BEq.trans (BEq.symm hjk) hij⟩)

/-- Ordering the paths changes what is found under none of them. -/
theorem get?_sortPaths (path : Scalar) : d.sortPaths.paths.get? path = d.paths.get? path := by
  rw [sortPaths, Entries.get?_filterMap]
  split
  · rfl
  · rename_i hk
    symm
    rw [← Option.not_isSome_iff_eq_none]
    intro hsome
    obtain ⟨j, hj, hjk⟩ := Entries.isSome_get?_iff.mp hsome
    exact hk (List.contains_iff_exists_mem_beq.mpr ⟨j, Scalar.mem_sorted.mpr hj, BEq.symm hjk⟩)

end Document

end RestconfApi
