import Mathlib.Data.List.Induction
import RestconfApi.Proofs.Swagger.Likeness

/-!
# Swagger: operations that are laid down again

Operations replace each other under a path and a method, where only the last one counts. So operations that are laid
down a second time in their order change nothing, whatever has been laid down elsewhere in between.
-/

namespace RestconfApi

namespace Entries

variable {κ α : Type} [BEq κ]

/-- What is put under a key later counts. -/
theorem put_put [ReflBEq κ] (k : κ) (v w : α) (m : Entries κ α) : put k v (put k w m) = put k v m := by
  induction m with
  | nil => simp [put]
  | cons e m ih =>
    obtain ⟨k', v'⟩ := e
    by_cases hk : (k' == k) = true <;> simp [put, hk, ih]

theorem put_of_get? {k : κ} {v : α} {m : Entries κ α} (h : get? k m = some v) : put k v m = m := by
  induction m with
  | nil => simp at h
  | cons e m ih =>
    obtain ⟨k', v'⟩ := e
    by_cases hk : (k' == k) = true
    · rw [get?, if_pos hk] at h
      rw [put, if_pos hk, Option.some.inj h]
    · rw [get?, if_neg hk] at h
      rw [put, if_neg hk, ih h]

/-- Different keys keep their places once one of them is known. -/
theorem put_comm [EquivBEq κ] {j k : κ} (hne : (j == k) = false) {m : Entries κ α} (hk : (get? k m).isSome = true)
    (v w : α) : put k w (put j v m) = put j v (put k w m) := by
  induction m with
  | nil => simp at hk
  | cons e m ih =>
    obtain ⟨i, u⟩ := e
    by_cases hik : (i == k) = true
    · have hij : ¬(i == j) = true := fun hij => by
        rw [BEq.trans (BEq.symm hij) hik] at hne
        cases hne
      simp [put, hik, hij]
    · rw [get?, if_neg hik] at hk
      by_cases hij : (i == j) = true <;> simp [put, hik, hij, ih hk]

theorem map_put {β : Type} (f : α → β) (k : κ) (v : α) (m : Entries κ α) :
    (m.put k v).map (fun e => (e.1, f e.2)) = Entries.put k (f v) (m.map fun e => (e.1, f e.2)) := by
  induction m with
  | nil => rfl
  | cons e m ih =>
    obtain ⟨k', v'⟩ := e
    by_cases hk : (k' == k) = true
    · simp [put, hk]
    · simp [put, hk, ih]

end Entries

theorem Document.mapOperations_addOperation (g : Property → Property) (path method : Scalar) (o : Operation)
    (d : Document) :
    (d.addOperation path method o).mapOperations g =
      (d.mapOperations g).addOperation path method (o.mapProperties g) := by
  have hget : Entries.get? path (d.mapOperations g).paths =
      (d.paths.get? path).map (List.map fun e : Scalar × Operation => (e.1, e.2.mapProperties g)) :=
    Entries.get?_map _ path d.paths
  have hpaths : ((d.addOperation path method o).mapOperations g).paths =
      ((d.mapOperations g).addOperation path method (o.mapProperties g)).paths := by
    unfold addOperation
    rw [hget]
    refine (Entries.map_put _ path _ d.paths).trans ?_
    rw [Entries.map_put]
    cases d.paths.get? path with
    | none => rfl
    | some os => rfl
  unfold mapOperations addOperation at hpaths ⊢
  rw [Document.mk.injEq]
  exact ⟨rfl, rfl, rfl, rfl, rfl, hpaths, rfl⟩

/-! ### Paths -/

/-- The operations under their paths and methods. -/
abbrev Paths := Entries Scalar (Entries Scalar Operation)

/-- An operation with the path and the method that it goes under. -/
structure Placed where
  path : String
  method : String
  operation : Operation

namespace Placed

def mapProperties (g : Property → Property) (x : Placed) : Placed := { x with operation := x.operation.mapProperties g }

/-- One of the operations replaces the other. -/
def Meets (x y : Placed) : Prop := x.path = y.path ∧ x.method = y.method

end Placed

namespace Paths

/-- Lays down an operation in place of the one that is there. -/
def lay (ps : Paths) (x : Placed) : Paths :=
  ps.put (.text x.path) (((ps.get? (.text x.path)).getD []).put (.text x.method) x.operation)

def layAll (ps : Paths) (xs : List Placed) : Paths := xs.foldl lay ps

/-- There is an operation in the place of this one. -/
def Offers (ps : Paths) (x : Placed) : Prop :=
  (Document.operation? { paths := ps } (.text x.path) (.text x.method)).isSome = true

/-- Changes the properties of all operations. -/
def mapProperties (g : Property → Property) (ps : Paths) : Paths :=
  ps.map fun e => (e.1, e.2.map fun e' => (e'.1, e'.2.mapProperties g))

variable {ps : Paths} {x y : Placed} {xs ys : List Placed}

theorem layAll_append (ps : Paths) (xs ys : List Placed) : ps.layAll (xs ++ ys) = (ps.layAll xs).layAll ys :=
  List.foldl_append

/-! ### One operation -/

theorem get?_lay (ps : Paths) (x : Placed) :
    (ps.lay x).get? (.text x.path) = some (((ps.get? (.text x.path)).getD []).put (.text x.method) x.operation) :=
  Entries.get?_put_self _ _ _

theorem get?_lay_of_ne (ps : Paths) {path : String} (h : x.path ≠ path) :
    (ps.lay x).get? (.text path) = ps.get? (.text path) :=
  Entries.get?_put_of_ne (by simpa using h) _ _

theorem offers_lay (ps : Paths) (x : Placed) : (ps.lay x).Offers x := by
  rw [Offers, Document.operation?]
  dsimp only
  rw [get?_lay, Option.bind_some, Entries.get?_put_self]
  rfl

theorem Offers.lay (h : ps.Offers y) (x : Placed) : (ps.lay x).Offers y :=
  Document.isSome_operation?_addOperation (d := { paths := ps }) _ _ x.operation h

theorem Offers.exists_get? (h : ps.Offers x) :
    ∃ os, ps.get? (.text x.path) = some os ∧ (os.get? (.text x.method)).isSome = true := by
  obtain ⟨o, ho⟩ := Option.isSome_iff_exists.mp h
  obtain ⟨os, hos, ho⟩ := Option.bind_eq_some_iff.mp ho
  exact ⟨os, hos, Option.isSome_iff_exists.mpr ⟨o, ho⟩⟩

theorem lay_lay (h : x.Meets y) : (ps.lay x).lay y = ps.lay y := by
  obtain ⟨hpath, hmethod⟩ := h
  unfold lay
  rw [hpath, hmethod, Entries.get?_put_self, Option.getD_some, Entries.put_put, Entries.put_put]

/-- Operations in different places may change their order once one of the places is taken. -/
theorem lay_comm (h : ¬x.Meets y) (hy : ps.Offers y) : (ps.lay x).lay y = (ps.lay y).lay x := by
  obtain ⟨os, hos, ho⟩ := hy.exists_get?
  by_cases hpath : x.path = y.path
  · have hmethod : (Scalar.text x.method == .text y.method) = false := by simpa [Placed.Meets, hpath] using h
    unfold lay
    rw [hpath, hos, Entries.get?_put_self, Entries.get?_put_self, Entries.put_put, Entries.put_put]
    simp only [Option.getD_some]
    rw [Entries.put_comm hmethod ho]
  · have hne : (Scalar.text x.path == .text y.path) = false := by simpa using hpath
    have hsome : (ps.get? (.text y.path)).isSome = true := by rw [hos]; rfl
    rw [lay, get?_lay_of_ne ps hpath, lay, lay, get?_lay_of_ne ps (Ne.symm hpath), lay, Entries.put_comm hne hsome]

/-! ### Operations one after the other -/

theorem Offers.layAll (h : ps.Offers x) (xs : List Placed) : (ps.layAll xs).Offers x := by
  induction xs generalizing ps with
  | nil => exact h
  | cons y xs ih => exact ih (h.lay y)

theorem offers_layAll (ps : Paths) (hx : x ∈ xs) : (ps.layAll xs).Offers x := by
  induction xs generalizing ps with
  | nil => cases hx
  | cons y xs ih =>
    rcases List.mem_cons.mp hx with rfl | hx
    · exact (offers_lay ps x).layAll xs
    · exact ih _ hx

/-- An operation may be laid down after others in places of their own that are taken. -/
theorem layAll_lay_comm (h : ∀ y ∈ xs, ps.Offers y) (hne : ∀ y ∈ xs, ¬x.Meets y) :
    (ps.lay x).layAll xs = (ps.layAll xs).lay x := by
  induction xs generalizing ps with
  | nil => rfl
  | cons y xs ih =>
    show ((ps.lay x).lay y).layAll xs = ((ps.lay y).layAll xs).lay x
    rw [lay_comm (hne y List.mem_cons_self) (h y List.mem_cons_self)]
    refine ih (fun z hz => ?_) fun z hz => hne z (List.mem_cons_of_mem _ hz)
    exact (h z (List.mem_cons_of_mem _ hz)).lay y

/-- An operation does not count if it is laid down again after others, whose places are taken. -/
theorem lay_layAll_lay (h : ∀ y ∈ xs, ps.Offers y) : ((ps.lay x).layAll xs).lay x = (ps.layAll xs).lay x := by
  induction xs generalizing ps with
  | nil => exact lay_lay ⟨rfl, rfl⟩
  | cons y xs ih =>
    show (((ps.lay x).lay y).layAll xs).lay x = ((ps.lay y).layAll xs).lay x
    by_cases hmeets : x.Meets y
    · rw [lay_lay hmeets]
    · rw [lay_comm hmeets (h y List.mem_cons_self)]
      exact ih fun z hz => (h z (List.mem_cons_of_mem _ hz)).lay y

/-- Operations that are laid down again in their order change nothing. -/
theorem layAll_layAll (ps : Paths) (xs : List Placed) : (ps.layAll xs).layAll xs = ps.layAll xs := by
  induction xs using List.reverseRecOn with
  | nil => rfl
  | append_singleton xs x ih =>
    rw [layAll_append, layAll_append]
    show (((ps.layAll xs).lay x).layAll xs).lay x = (ps.layAll xs).lay x
    rw [lay_layAll_lay fun y hy => offers_layAll ps hy, ih]

/-- Nor do they after others in other places. -/
theorem layAll_layAll_of_apart (h : ps.layAll xs = ps) (hapart : ∀ x ∈ xs, ∀ y ∈ ys, ¬y.Meets x) :
    (ps.layAll ys).layAll xs = ps.layAll ys := by
  have hoffers : ∀ x ∈ xs, ps.Offers x := fun x hx => h ▸ offers_layAll ps hx
  induction ys using List.reverseRecOn with
  | nil => exact h
  | append_singleton ys y ih =>
    rw [layAll_append]
    show ((ps.layAll ys).lay y).layAll xs = (ps.layAll ys).lay y
    rw [layAll_lay_comm (fun x hx => (hoffers x hx).layAll ys) fun x hx => hapart x hx y (by simp),
      ih fun x hx z hz => hapart x hx z (List.mem_append_left _ hz)]

/-! ### Changed properties -/

theorem mapProperties_lay (g : Property → Property) (ps : Paths) (x : Placed) :
    (ps.lay x).mapProperties g = (ps.mapProperties g).lay (x.mapProperties g) :=
  congrArg Document.paths (Document.mapOperations_addOperation g _ _ x.operation { paths := ps })

theorem mapProperties_layAll (g : Property → Property) (ps : Paths) (xs : List Placed) :
    (ps.layAll xs).mapProperties g = (ps.mapProperties g).layAll (xs.map (Placed.mapProperties g)) := by
  induction xs generalizing ps with
  | nil => rfl
  | cons x xs ih =>
    show ((ps.lay x).layAll xs).mapProperties g = _
    rw [ih, mapProperties_lay]
    rfl

end Paths

end RestconfApi
