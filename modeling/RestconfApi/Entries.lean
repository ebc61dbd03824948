/-!
# Entries: finite maps in insertion order

A list of keys with values. Putting a value under a known key replaces it in place and a new key goes
to the end, so the keys keep the order of their first appearance. Keys may agree without being equal; a
known key stays as it was first written.
-/

namespace RestconfApi

abbrev Entries (κ α : Type) := List (κ × α)

namespace Entries

variable {κ α : Type} [BEq κ]

def get? (k : κ) : Entries κ α → Option α
  | [] => none
  | (k', v) :: rest => if k' == k then some v else get? k rest

def put (k : κ) (v : α) : Entries κ α → Entries κ α
  | [] => [(k, v)]
  | (k', v') :: rest => if k' == k then (k', v) :: rest else (k', v') :: put k v rest

def erase (k : κ) : Entries κ α → Entries κ α
  | [] => []
  | (k', v) :: rest => if k' == k then rest else (k', v) :: erase k rest

def keys (m : Entries κ α) : List κ := m.map Prod.fst

def ofList (pairs : List (κ × α)) : Entries κ α := pairs.foldl (fun m (k, v) => put k v m) []

@[simp] theorem get?_nil (k : κ) : get? k ([] : Entries κ α) = none := rfl

theorem get?_put_self [ReflBEq κ] (k : κ) (v : α) (m : Entries κ α) :
    get? k (put k v m) = some v := by
  induction m with
  | nil => simp [put, get?]
  | cons e m ih =>
    obtain ⟨k', v'⟩ := e
    by_cases h : (k' == k) = true <;> simp [put, get?, h, ih]

theorem get?_put_of_ne [EquivBEq κ] {k j : κ} (h : (k == j) = false) (v : α) (m : Entries κ α) :
    get? j (put k v m) = get? j m := by
  induction m with
  | nil => simp [put, get?, h]
  | cons e m ih =>
    obtain ⟨k', v'⟩ := e
    by_cases hk : (k' == k) = true
    · have hj : (k' == j) = false := by rw [BEq.congr_left hk, h]
      simp [put, get?, hk, hj]
    · simp [put, get?, hk, ih]

theorem get?_eq_none_iff {k : κ} {m : Entries κ α} :
    get? k m = none ↔ ∀ j ∈ keys m, (j == k) = false := by
  induction m with
  | nil => simp [keys]
  | cons e m ih =>
    obtain ⟨k', v'⟩ := e
    by_cases h : (k' == k) = true
    · simp [get?, keys, h]
    · simp only [get?, h, Bool.false_eq_true, if_false, ih, keys, List.map_cons, List.mem_cons,
        forall_eq_or_imp]
      simp

theorem get?_congr [EquivBEq κ] {k j : κ} (h : (k == j) = true) (m : Entries κ α) :
    get? k m = get? j m := by
  induction m with
  | nil => rfl
  | cons e m ih =>
    obtain ⟨k', v⟩ := e
    simp only [get?, ih, BEq.congr_right h]

theorem mem_of_get? {k : κ} {v : α} {m : Entries κ α} (h : get? k m = some v) :
    ∃ j, (j, v) ∈ m ∧ (j == k) = true := by
  induction m with
  | nil => simp at h
  | cons e m ih =>
    obtain ⟨k', v'⟩ := e
    by_cases hk : (k' == k) = true
    · rw [get?, if_pos hk] at h
      obtain rfl := Option.some.inj h
      exact ⟨k', List.mem_cons_self, hk⟩
    · rw [get?, if_neg hk] at h
      obtain ⟨j, hj, hjk⟩ := ih h
      exact ⟨j, List.mem_cons_of_mem _ hj, hjk⟩

theorem isSome_get?_of_mem [ReflBEq κ] {k : κ} {v : α} {m : Entries κ α} (h : (k, v) ∈ m) :
    (get? k m).isSome = true := by
  rw [← Option.ne_none_iff_isSome, Ne, get?_eq_none_iff]
  intro hk
  have := hk k (List.mem_map_of_mem h)
  simp at this

theorem isSome_get?_iff {k : κ} {m : Entries κ α} :
    (get? k m).isSome = true ↔ ∃ j ∈ keys m, (j == k) = true := by
  rw [← Option.ne_none_iff_isSome, Ne, get?_eq_none_iff]
  simp

theorem mem_put [ReflBEq κ] {k j : κ} {v w : α} {m : Entries κ α} (h : (j, w) ∈ put k v m) :
    w = v ∧ (j == k) = true ∨ (j, w) ∈ m := by
  induction m with
  | nil =>
    obtain ⟨rfl, rfl⟩ : j = k ∧ w = v := by simpa [put] using h
    exact .inl ⟨rfl, BEq.rfl⟩
  | cons e m ih =>
    obtain ⟨k', v'⟩ := e
    by_cases hk : (k' == k) = true
    · rw [put, if_pos hk] at h
      rcases List.mem_cons.mp h with h | h
      · obtain ⟨rfl, rfl⟩ := Prod.mk.inj h
        exact .inl ⟨rfl, hk⟩
      · exact .inr (List.mem_cons_of_mem _ h)
    · rw [put, if_neg hk] at h
      rcases List.mem_cons.mp h with h | h
      · exact .inr (h ▸ List.mem_cons_self)
      · exact (ih h).imp_right (List.mem_cons_of_mem _)

theorem snd_of_mem_put {k : κ} {v : α} {m : Entries κ α} {e : κ × α} (h : e ∈ put k v m) : e.2 = v ∨ e ∈ m := by
  induction m with
  | nil => exact .inl (congrArg Prod.snd (List.mem_singleton.mp h))
  | cons e' m ih =>
    rw [put] at h
    split at h
    · rcases List.mem_cons.mp h with rfl | h
      · exact .inl rfl
      · exact .inr (List.mem_cons_of_mem _ h)
    · rcases List.mem_cons.mp h with rfl | h
      · exact .inr List.mem_cons_self
      · exact (ih h).imp_right (List.mem_cons_of_mem _)

theorem mem_put_self [ReflBEq κ] (k : κ) (v : α) (m : Entries κ α) :
    ∃ j, (j, v) ∈ put k v m ∧ (j == k) = true :=
  mem_of_get? (get?_put_self k v m)

theorem mem_put_of_ne {k j : κ} {v w : α} {m : Entries κ α} (h : (j, w) ∈ m)
    (hj : (j == k) = false) : (j, w) ∈ put k v m := by
  induction m with
  | nil => simp at h
  | cons e m ih =>
    obtain ⟨k', v'⟩ := e
    rcases List.mem_cons.mp h with h | h
    · obtain ⟨rfl, rfl⟩ := Prod.mk.inj h
      simp [put, hj]
    · by_cases hk : (k' == k) = true
      · rw [put, if_pos hk]
        exact List.mem_cons_of_mem _ h
      · rw [put, if_neg hk]
        exact List.mem_cons_of_mem _ (ih h)

theorem get?_map {β : Type} (f : α → β) (k : κ) (m : Entries κ α) :
    get? k (List.map (fun e => (e.1, f e.2)) m : Entries κ β) = (get? k m).map f := by
  induction m with
  | nil => rfl
  | cons e m ih =>
    obtain ⟨k', v⟩ := e
    by_cases hk : (k' == k) = true
    · simp [get?, hk]
    · simp [get?, hk, ih]

/-- Entries are kept or left out by their keys, agreeing keys alike. -/
theorem get?_filter {p : κ → Bool} (hp : ∀ j k, (j == k) = true → p j = p k) (k : κ) (m : Entries κ α) :
    get? k (List.filter (fun e => p e.1) m : Entries κ α) = if p k then get? k m else none := by
  induction m with
  | nil => simp
  | cons e m ih =>
    obtain ⟨k', v⟩ := e
    by_cases hk : (k' == k) = true
    · by_cases h : p k = true
      · simp [get?, hk, hp k' k hk, h]
      · rw [List.filter_cons_of_neg (by simp [hp k' k hk, h]), ih, if_neg h, if_neg h]
    · have hget : get? k ((k', v) :: m) = get? k m := by rw [get?, if_neg hk]
      rw [hget]
      by_cases h : p k' = true
      · rw [List.filter_cons_of_pos (p := fun e : κ × α => p e.1) (a := (k', v)) h, get?, if_neg hk, ih]
      · rw [List.filter_cons_of_neg (p := fun e : κ × α => p e.1) (a := (k', v)) h, ih]

/-- No two keys agree. -/
def Unique (m : Entries κ α) : Prop := m.Pairwise fun e e' => (e.1 == e'.1) = false

theorem unique_nil : Unique ([] : Entries κ α) := List.Pairwise.nil

theorem Unique.put [EquivBEq κ] {m : Entries κ α} (h : m.Unique) (k : κ) (v : α) :
    (put k v m).Unique := by
  induction m with
  | nil => exact List.pairwise_singleton _ _
  | cons e m ih =>
    obtain ⟨k', v'⟩ := e
    obtain ⟨h₁, h₂⟩ := List.pairwise_cons.mp h
    by_cases hk : (k' == k) = true
    · rw [Entries.put, if_pos hk]
      exact List.pairwise_cons.mpr ⟨h₁, h₂⟩
    · rw [Entries.put, if_neg hk]
      refine List.pairwise_cons.mpr ⟨fun e' he' => ?_, ih h₂⟩
      obtain ⟨j, w⟩ := e'
      rcases mem_put he' with ⟨-, hj⟩ | he'
      · rw [BEq.congr_right hj]
        exact Bool.eq_false_iff.mpr hk
      · exact h₁ _ he'

theorem Unique.map {β : Type} {m : Entries κ α} (h : m.Unique) (f : α → β) :
    Unique (List.map (fun e => (e.1, f e.2)) m : Entries κ β) :=
  List.pairwise_map.mpr h

theorem Unique.filter {m : Entries κ α} (h : m.Unique) (p : κ × α → Bool) :
    Unique (List.filter p m : Entries κ α) :=
  List.Pairwise.filter p h

theorem Unique.get?_eq_of_mem [EquivBEq κ] {m : Entries κ α} (h : m.Unique) {k : κ} {v : α}
    (hm : (k, v) ∈ m) : get? k m = some v := by
  induction m with
  | nil => simp at hm
  | cons e m ih =>
    obtain ⟨k', v'⟩ := e
    obtain ⟨h₁, h₂⟩ := List.pairwise_cons.mp h
    rcases List.mem_cons.mp hm with hm | hm
    · obtain ⟨rfl, rfl⟩ := Prod.mk.inj hm
      simp [get?]
    · have hk : (k' == k) = false := h₁ _ hm
      rw [get?, if_neg (by simp [hk]), ih h₂ hm]

/-- Entries are turned into others or left out by what they are, agreeing keys alike. -/
theorem Unique.get?_filterMap [EquivBEq κ] {β : Type} {m : Entries κ α} (h : m.Unique) {g : κ → α → Option β}
    (hg : ∀ j k v, (j == k) = true → g j v = g k v) (k : κ) :
    get? k (m.filterMap fun e => (g e.1 e.2).map fun w => (e.1, w) : Entries κ β) =
      (get? k m).bind (g k) := by
  induction m with
  | nil => rfl
  | cons e m ih =>
    obtain ⟨k', v⟩ := e
    obtain ⟨h₁, h₂⟩ := List.pairwise_cons.mp h
    by_cases hk : (k' == k) = true
    · have hnone : get? k m = none := get?_eq_none_iff.mpr fun j hj => by
        obtain ⟨e, he, rfl⟩ := List.mem_map.mp hj
        rw [← BEq.congr_right hk, BEq.comm]
        exact h₁ e he
      rw [get?, if_pos hk, Option.bind_some, ← hg k' k v hk]
      cases hv : g k' v with
      | none => rw [List.filterMap_cons_none (by simp [hv]), ih h₂, hnone, Option.bind_none]
      | some w => rw [List.filterMap_cons_some (b := (k', w)) (by simp [hv]), get?, if_pos hk]
    · rw [get?, if_neg hk, ← ih h₂]
      cases hv : g k' v with
      | none => rw [List.filterMap_cons_none (by simp [hv])]
      | some w => rw [List.filterMap_cons_some (b := (k', w)) (by simp [hv]), get?, if_neg hk]

end Entries

end RestconfApi
