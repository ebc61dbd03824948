import Mathlib.Data.List.Perm.Subperm
import RestconfApi.Proofs.Names
import RestconfApi.Swagger.Folding

/-!
# Swagger: chains of aliases

From a name that aliases lead to a name that is none, the way is found however it is searched: the bound
on its length and the names seen on it never cut it short. The aliases that are folded are those from which
there is such a way, so that nothing they stand for is an alias again. The search itself comes to an end from
every name, on circles as well.
-/

namespace RestconfApi

namespace Aliases

variable {r : Aliases}

theorem next?_congr {n n' : Name} (h : (n == n') = true) : r.next? n = r.next? n' := by
  unfold next?
  cases n <;> cases n'
  case scalar.scalar k k' =>
    have hk : (k == k') = true := h
    exact Entries.get?_congr hk r
  all_goals first | rfl | simp [BEq.beq, Datum.agrees] at h

/-- In `k` steps the aliases lead from a name to one that is no alias. -/
inductive Ends (r : Aliases) : Nat → Name → Name → Prop
  | here {name : Name} : r.next? name = none → Ends r 0 name name
  | step {k : Nat} {name next last : Name} : r.next? name = some next → Ends r k next last →
      Ends r (k + 1) name last

theorem Ends.last {k : Nat} {name last : Name} (h : Ends r k name last) : r.next? last = none := by
  induction h with
  | here h => exact h
  | step _ _ ih => exact ih

theorem Ends.unique {k k' : Nat} {name last last' : Name} (h : Ends r k name last)
    (h' : Ends r k' name last') : k = k' ∧ last = last' := by
  induction h generalizing k' with
  | here hn =>
    cases h' with
    | here => exact ⟨rfl, rfl⟩
    | step hn' => simp [hn] at hn'
  | step hn _ ih =>
    cases h' with
    | here hn' => simp [hn] at hn'
    | step hn' h' =>
      obtain rfl := Option.some.inj (hn.symm.trans hn')
      obtain ⟨rfl, rfl⟩ := ih h'
      exact ⟨rfl, rfl⟩

/-- Where a search ends at a name that is no alias, there is a way to it. -/
theorem ends_of_follow {fuel : Nat} {seen : List Name} {name : Name}
    (h : r.next? (r.follow fuel seen name) = none) : ∃ k, Ends r k name (r.follow fuel seen name) := by
  induction fuel generalizing seen name with
  | zero => exact ⟨0, .here h⟩
  | succ fuel ih =>
    unfold follow at h ⊢
    split
    · rename_i hseen
      rw [if_pos hseen] at h
      exact ⟨0, .here h⟩
    · rename_i hseen
      rw [if_neg hseen] at h
      cases hn : r.next? name with
      | none => exact ⟨0, .here hn⟩
      | some next =>
        rw [hn] at h
        obtain ⟨k, hk⟩ := ih h
        exact ⟨k + 1, .step hn hk⟩

/-- The way is found when there is fuel for it and all names seen before lie further back. -/
theorem Ends.follow_eq {k fuel : Nat} {seen : List Name} {name last : Name} (h : Ends r k name last)
    (hfuel : k ≤ fuel) (hseen : ∀ m ∈ seen, ∃ j last', k < j ∧ Ends r j m last') :
    r.follow fuel seen name = last := by
  induction fuel generalizing k seen name with
  | zero =>
    cases h with
    | here => rfl
    | step => omega
  | succ fuel ih =>
    have hnew : ¬seen.contains name = true := by
      intro hc
      rw [List.contains_eq_any_beq] at hc
      obtain ⟨m, hm, hbeq⟩ := List.any_eq_true.mp hc
      obtain ⟨j, last', hj, hends⟩ := hseen m hm
      cases hends with
      | here => omega
      | step hn hends =>
        rw [← next?_congr hbeq] at hn
        have := (Ends.step hn hends).unique h
        omega
    unfold follow
    rw [if_neg hnew]
    cases h with
    | here hn => rw [hn]
    | step hn h' =>
      rw [hn]
      refine ih h' (by omega) fun m hm => ?_
      rcases List.mem_cons.mp hm with rfl | hm
      · exact ⟨_, last, Nat.lt_succ_self _, .step hn h'⟩
      · obtain ⟨j, last', hj, hends⟩ := hseen m hm
        exact ⟨j, last', by omega, hends⟩

/-- A way passes through different keys. -/
theorem Ends.exists_keys {k : Nat} {name last : Name} (h : Ends r k name last) :
    ∃ l : List Scalar.Key, l.length = k ∧ l.Nodup ∧
      ∀ x ∈ l, ∃ a j, a.key = x ∧ a ∈ r.keys ∧ 0 < j ∧ j ≤ k ∧ Ends r j (.scalar a) last := by
  induction h with
  | here => exact ⟨[], rfl, List.nodup_nil, by simp⟩
  | @step k name next last hn h' ih =>
    obtain ⟨l, hlen, hnodup, hl⟩ := ih
    obtain ⟨a, hname, ha⟩ := Option.bind_eq_some_iff.mp hn
    obtain ⟨b, hb, hba⟩ := Entries.mem_of_get? ha
    have hb' : r.next? (.scalar b) = some next := by
      show r.get? b = some next
      rw [Entries.get?_congr hba, ha]
    refine ⟨b.key :: l, by simp [hlen], List.nodup_cons.mpr ⟨fun hmem => ?_, hnodup⟩, fun x hx => ?_⟩
    · obtain ⟨a', j, hkey, -, hpos, hj, hends⟩ := hl _ hmem
      have hbeq : (Datum.scalar a' == .scalar b) = true := Scalar.beq_iff.mpr hkey
      cases hends with
      | here => omega
      | step hn' hends =>
        rw [next?_congr hbeq] at hn'
        have := (Ends.step hn' hends).unique (.step hb' h')
        omega
    · rcases List.mem_cons.mp hx with rfl | hx
      · exact ⟨b, k + 1, rfl, List.mem_map_of_mem hb, by omega, Nat.le_refl _, .step hb' h'⟩
      · obtain ⟨a', j, hkey, ha', hpos, hj, hends⟩ := hl x hx
        exact ⟨a', j, hkey, ha', hpos, by omega, hends⟩

/-- A way is no longer than there are aliases. -/
theorem Ends.length_le {k : Nat} {name last : Name} (h : Ends r k name last) : k ≤ r.length := by
  obtain ⟨l, rfl, hnodup, hl⟩ := h.exists_keys
  have hsub : l ⊆ r.keys.map Scalar.key := by
    intro x hx
    obtain ⟨a, -, rfl, ha, -⟩ := hl x hx
    exact List.mem_map_of_mem ha
  have := (List.Nodup.subperm hnodup hsub).length_le
  simpa [Entries.keys] using this

theorem Ends.resolve_eq {k : Nat} {name last : Name} (h : Ends r k name last) : r.resolve name = last :=
  h.follow_eq (Nat.le_succ_of_le h.length_le) (by simp)

/-! ### The search -/

/-- `Walks r seen name last`: after the names `seen`, the search goes from `name` to `last`, through as many aliases as
it takes. -/
inductive Walks (r : Aliases) : List Name → Name → Name → Prop
  | again {seen : List Name} {name : Name} : seen.contains name = true → Walks r seen name name
  | last {seen : List Name} {name : Name} : seen.contains name = false → r.next? name = none → Walks r seen name name
  | next {seen : List Name} {name next last : Name} : seen.contains name = false → r.next? name = some next →
      Walks r (name :: seen) next last → Walks r seen name last

theorem Walks.unique {seen : List Name} {name last last' : Name} (h : r.Walks seen name last)
    (h' : r.Walks seen name last') : last = last' := by
  induction h with
  | again hseen =>
    cases h' with
    | again | last => rfl
    | next hnew =>
      rw [hseen] at hnew
      cases hnew
  | last hnew hnone =>
    cases h' with
    | again | last => rfl
    | next _ hnext =>
      rw [hnone] at hnext
      cases hnext
  | next hnew hnext _ ih =>
    cases h' with
    | again hseen =>
      rw [hseen] at hnew
      cases hnew
    | last _ hnone =>
      rw [hnext] at hnone
      cases hnone
    | next _ hnext' h' =>
      obtain rfl := Option.some.inj (hnext.symm.trans hnext')
      exact ih h'

/-- What the search has been at are different aliases. -/
structure AreAliases (r : Aliases) (ks : List Scalar) : Prop where
  known : ∀ k ∈ ks, (r.get? k).isSome = true
  nodup : (ks.map Scalar.key).Nodup

theorem AreAliases.length_le {ks : List Scalar} (h : r.AreAliases ks) : ks.length ≤ r.length := by
  have hsub : ks.map Scalar.key ⊆ r.keys.map Scalar.key := by
    intro x hx
    obtain ⟨k, hk, rfl⟩ := List.mem_map.mp hx
    obtain ⟨j, hj, hjk⟩ := Entries.isSome_get?_iff.mp (h.known k hk)
    exact List.mem_map.mpr ⟨j, hj, Scalar.beq_iff.mp hjk⟩
  have hle := (List.Nodup.subperm h.nodup hsub).length_le
  rwa [List.length_map, List.length_map, Entries.keys, List.length_map] at hle

theorem AreAliases.cons {ks : List Scalar} (h : r.AreAliases ks) {k : Scalar} {next : Name}
    (hnext : r.get? k = some next) (hnew : (ks.map Datum.scalar).contains (.scalar k) = false) :
    r.AreAliases (k :: ks) where
  known := List.forall_mem_cons.mpr ⟨by rw [hnext]; rfl, h.known⟩
  nodup := by
    refine List.nodup_cons.mpr ⟨fun hmem => ?_, h.nodup⟩
    obtain ⟨j, hj, hkey⟩ := List.mem_map.mp hmem
    have hseen : (ks.map Datum.scalar).contains (.scalar k) = true := by
      rw [List.contains_eq_any_beq]
      exact List.any_eq_true.mpr ⟨_, List.mem_map_of_mem hj, Scalar.beq_iff.mpr hkey.symm⟩
    rw [hnew] at hseen
    cases hseen

/-- Within the bound the search comes to its end. -/
theorem walks_follow {fuel : Nat} {ks : List Scalar} (hks : r.AreAliases ks) (hfuel : r.length < ks.length + fuel)
    (name : Name) : r.Walks (ks.map Datum.scalar) name (r.follow fuel (ks.map Datum.scalar) name) := by
  induction fuel generalizing ks name with
  | zero => exact absurd hks.length_le (Nat.not_le_of_lt hfuel)
  | succ fuel ih =>
    unfold follow
    cases hseen : (ks.map Datum.scalar).contains name with
    | true =>
      rw [if_pos rfl]
      exact .again hseen
    | false =>
      rw [if_neg Bool.false_ne_true]
      cases hnext : r.next? name with
      | none => exact .last hseen hnext
      | some next =>
        obtain ⟨k, hk, hget⟩ := Option.bind_eq_some_iff.mp hnext
        obtain rfl := Datum.eq_scalar_of_asKey? hk
        refine .next hseen hnext (ih (hks.cons hget hseen) ?_ next)
        rw [List.length_cons]
        omega

/-- The search for what a name stands for is never cut short. -/
theorem walks_iff {name last : Name} : r.Walks [] name last ↔ r.resolve name = last := by
  have hstart : r.AreAliases [] := ⟨by simp, List.nodup_nil⟩
  have hrun : r.Walks [] name (r.resolve name) := walks_follow hstart (by simp) name
  constructor
  · exact hrun.unique
  · rintro rfl
    exact hrun

end Aliases

end RestconfApi
