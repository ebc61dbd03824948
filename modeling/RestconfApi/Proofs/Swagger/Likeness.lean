import RestconfApi.Proofs.Lists
import RestconfApi.Proofs.Names
import RestconfApi.Proofs.Swagger.Renaming

/-!
# Swagger: operations that differ in their schemas

Operations are alike when they say the same up to the schemas of their bodies and responses, which have
the same places and are related by a given relation. Whatever both of two documents are given in turn, they
stay alike.
-/

namespace RestconfApi

/-! ### Maps with the same keys -/

/-- The same keys in the same order, with related values. -/
def Entries.Alike {κ α β : Type} (P : κ → α → β → Prop) (m : Entries κ α) (m' : Entries κ β) : Prop :=
  List.Forall₂ (fun e e' => e.1 = e'.1 ∧ P e.1 e.2 e'.2) m m'

namespace Entries.Alike

variable {κ α β : Type} {P P' : κ → α → β → Prop} {m : Entries κ α} {m' : Entries κ β}

theorem nil : Alike P ([] : Entries κ α) ([] : Entries κ β) := List.Forall₂.nil

theorem mono (h : Alike P m m') (hP : ∀ k v v', P k v v' → P' k v v') : Alike P' m m' :=
  List.Forall₂.imp (fun _ _ he => ⟨he.1, hP _ _ _ he.2⟩) h

theorem exists_of_mem (h : Alike P m m') {k : κ} {v : α} (hv : (k, v) ∈ m) :
    ∃ v', (k, v') ∈ m' ∧ P k v v' := by
  induction h with
  | nil => simp at hv
  | @cons e e' m m' he _ ih =>
    rcases List.mem_cons.mp hv with rfl | hv
    · obtain ⟨k', v'⟩ := e'
      obtain ⟨rfl, hP⟩ := he
      exact ⟨v', List.mem_cons_self, hP⟩
    · obtain ⟨v', hv', hP⟩ := ih hv
      exact ⟨v', List.mem_cons_of_mem _ hv', hP⟩

variable [BEq κ]

theorem get? (h : Alike P m m') (k : κ) :
    m.get? k = none ∧ m'.get? k = none ∨
      ∃ j v v', (j == k) = true ∧ m.get? k = some v ∧ m'.get? k = some v' ∧ P j v v' := by
  induction h with
  | nil => exact .inl ⟨rfl, rfl⟩
  | @cons e e' m m' he _ ih =>
    obtain ⟨j, v⟩ := e
    obtain ⟨j', v'⟩ := e'
    obtain ⟨rfl, hP⟩ : j = j' ∧ P j v v' := he
    by_cases hk : (j == k) = true
    · refine .inr ⟨j, v, v', hk, ?_, ?_, hP⟩ <;> rw [Entries.get?, if_pos hk]
    · rw [Entries.get?, Entries.get?, if_neg hk, if_neg hk]
      exact ih

theorem put [ReflBEq κ] (h : Alike P m m') {k : κ} {v : α} {v' : β}
    (hP : ∀ j, (j == k) = true → P j v v') : Alike P (m.put k v) (m'.put k v') := by
  induction h with
  | nil => exact .cons ⟨rfl, hP k BEq.rfl⟩ .nil
  | @cons e e' m m' he h ih =>
    obtain ⟨j, w⟩ := e
    obtain ⟨j', w'⟩ := e'
    obtain ⟨rfl, hw⟩ : j = j' ∧ P j w w' := he
    by_cases hk : (j == k) = true
    · rw [Entries.put, Entries.put, if_pos hk, if_pos hk]
      exact .cons ⟨rfl, hP j hk⟩ h
    · rw [Entries.put, Entries.put, if_neg hk, if_neg hk]
      exact .cons ⟨rfl, hw⟩ ih

end Entries.Alike

/-! ### Operations -/

variable {R R' : Property → Property → Prop}

structure Parameter.Like (R : Property → Property → Prop) (p p' : Parameter) : Prop where
  schema : Option.Rel R p.schema p'.schema
  rest : p' = { p with schema := p'.schema }

structure Response.Like (R : Property → Property → Prop) (r r' : Response) : Prop where
  schema : Option.Rel R r.schema r'.schema
  rest : r' = { r with schema := r'.schema }

/-- The same up to schemas that are related. -/
structure Operation.Like (R : Property → Property → Prop) (o o' : Operation) : Prop where
  parameters : List.Forall₂ (Parameter.Like R) o.parameters o'.parameters
  responses : Entries.Alike (fun _ => Response.Like R) o.responses o'.responses
  rest : o' = { o with parameters := o'.parameters, responses := o'.responses }

theorem optionRel_mono {a a' : Option Property} (h : Option.Rel R a a') (hR : ∀ p q, R p q → R' p q) :
    Option.Rel R' a a' := by
  cases h with
  | some h => exact .some (hR _ _ h)
  | none => exact .none

theorem optionRel_map {g g' : Property → Property} {a a' : Option Property} (h : Option.Rel R a a')
    (hR : ∀ p q, R p q → R' (g p) (g' q)) : Option.Rel R' (a.map g) (a'.map g') := by
  cases h with
  | some h => exact .some (hR _ _ h)
  | none => exact .none

theorem exists_of_optionRel {a a' : Option Property} (h : Option.Rel R a a') {p : Property}
    (hp : a = some p) : ∃ q, a' = some q ∧ R p q := by
  cases h with
  | some h =>
    obtain rfl := Option.some.inj hp
    exact ⟨_, rfl, h⟩
  | none => cases hp

theorem Parameter.Like.mono {p p' : Parameter} (h : p.Like R p') (hR : ∀ p q, R p q → R' p q) :
    p.Like R' p' :=
  ⟨optionRel_mono h.schema hR, h.rest⟩

theorem Response.Like.mono {r r' : Response} (h : r.Like R r') (hR : ∀ p q, R p q → R' p q) :
    r.Like R' r' :=
  ⟨optionRel_mono h.schema hR, h.rest⟩

theorem Operation.Like.mono {o o' : Operation} (h : o.Like R o') (hR : ∀ p q, R p q → R' p q) :
    o.Like R' o' :=
  ⟨h.parameters.imp fun _ _ hp => hp.mono hR, Entries.Alike.mono h.responses fun _ _ _ hr => hr.mono hR,
    h.rest⟩

theorem Parameter.like_of_plain {p : Parameter} (h : p.schema = none) : p.Like R p :=
  ⟨by rw [h]; exact .none, rfl⟩

theorem Response.like_of_plain {r : Response} (h : r.schema = none) : r.Like R r :=
  ⟨by rw [h]; exact .none, rfl⟩

/-- The schemas of bodies and responses are changed each by its own function. -/
theorem Operation.Like.mapProperties {g g' : Property → Property} {o o' : Operation} (h : o.Like R o')
    (hR : ∀ p q, R p q → R' (g p) (g' q)) : (o.mapProperties g).Like R' (o'.mapProperties g') where
  parameters := by
    refine List.forall₂_map_left_iff.mpr (List.forall₂_map_right_iff.mpr (h.parameters.imp ?_))
    intro p p' hp
    exact ⟨optionRel_map hp.schema hR, by simp only [Parameter.mapProperties]; rw [hp.rest]⟩
  responses := by
    refine List.forall₂_map_left_iff.mpr (List.forall₂_map_right_iff.mpr
      (List.Forall₂.imp (fun e e' he => ⟨he.1, ?_⟩) h.responses))
    exact ⟨optionRel_map he.2.schema hR, by simp only [Response.mapProperties]; rw [he.2.rest]⟩
  rest := by
    simp only [Operation.mapProperties]
    rw [h.rest]

/-- What is related has its counterpart: the schema of a parameter. -/
theorem Operation.Like.parameter {o o' : Operation} (h : o.Like R o') {p : Parameter}
    (hp : p ∈ o.parameters) {π : Property} (hπ : p.schema = some π) : ∃ π', R π π' := by
  obtain ⟨p', -, hlike⟩ := exists_of_forall₂ h.parameters hp
  obtain ⟨π', -, hR⟩ := exists_of_optionRel hlike.schema hπ
  exact ⟨π', hR⟩

/-- The same for the schema of a response. -/
theorem Operation.Like.response {o o' : Operation} (h : o.Like R o') {e : Scalar × Response}
    (he : e ∈ o.responses) {π : Property} (hπ : e.2.schema = some π) : ∃ π', R π π' := by
  obtain ⟨r', -, hlike⟩ := Entries.Alike.exists_of_mem h.responses (k := e.1) (v := e.2) he
  obtain ⟨π', -, hR⟩ := exists_of_optionRel hlike.schema hπ
  exact ⟨π', hR⟩

/-! ### Operations of a document -/

namespace Document

/-- The operation of a method under a path. -/
def operation? (d : Document) (path method : Scalar) : Option Operation :=
  (d.paths.get? path).bind fun os => os.get? method

/-- What an operation of the document hands out with a code. -/
def answer? (d : Document) (path method code : Scalar) : Option Property :=
  (d.operation? path method).bind fun o => (o.responses.get? code).bind (·.schema)

theorem mem_of_operation? {d : Document} {path : String} {method : Scalar} {o : Operation}
    (h : d.operation? (.text path) method = some o) :
    ∃ os k, (.text path, os) ∈ d.paths ∧ (k, o) ∈ os ∧ (k == method) = true := by
  obtain ⟨os, hos, ho⟩ := Option.bind_eq_some_iff.mp h
  obtain ⟨k, hk, hpath⟩ := Entries.mem_of_get? hos
  obtain ⟨k', hk', hmethod⟩ := Entries.mem_of_get? ho
  obtain rfl := Scalar.eq_text_of_beq hpath
  exact ⟨os, k', hk, hk', hmethod⟩

theorem operation?_addOperation (d : Document) (path method : Scalar) (o : Operation)
    (path' method' : Scalar) :
    (d.addOperation path method o).operation? path' method' =
      if (path == path' && method == method') = true then some o else d.operation? path' method' := by
  simp only [operation?, addOperation]
  by_cases hp : (path == path') = true
  · rw [← Entries.get?_congr hp, Entries.get?_put_self, ← Entries.get?_congr hp, Option.bind_some]
    by_cases hm : (method == method') = true
    · rw [← Entries.get?_congr hm, Entries.get?_put_self, if_pos (by simp [hp, hm])]
    · rw [Entries.get?_put_of_ne (Bool.eq_false_iff.mpr hm), if_neg (by simp [hm])]
      cases d.paths.get? path <;> rfl
  · rw [Entries.get?_put_of_ne (Bool.eq_false_iff.mpr hp), if_neg (by simp [hp])]

/-- Operations that are there stay there when one is added. -/
theorem isSome_operation?_addOperation {d : Document} (path method : Scalar) (o : Operation)
    {path' method' : Scalar} (h : (d.operation? path' method').isSome = true) :
    ((d.addOperation path method o).operation? path' method').isSome = true := by
  rw [operation?_addOperation]
  split
  · rfl
  · exact h

end Document

end RestconfApi
