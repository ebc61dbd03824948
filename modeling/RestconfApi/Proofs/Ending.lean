import RestconfApi.Logged

/-!
# Computations that end

A computation ends if it does not run out of the depth that bounds it, and reports no node that contains itself. There
is a rule for every way in which computations are put together.
-/

namespace RestconfApi

/-- The record is no warning that begins with the path of a node. -/
def Record.IsBenign (r : Record) : Prop := r.level = .warning → r.text.toList.head? ≠ some '/'

variable {α β γ : Type}

/-- If `x` fails then `E` holds of the failure. -/
def Errs {α : Type} (x : Except Failure α) (E : Failure → Prop) : Prop := ∀ e, x = .error e → E e

section

variable {E : Failure → Prop}

theorem Errs.mono {E' : Failure → Prop} {x : Except Failure α} (h : Errs x E) (hE : ∀ e, E e → E' e) : Errs x E' :=
  fun e he => hE e (h e he)

theorem errs_ok {a : α} : Errs (.ok a) E := nofun

theorem errs_error {e : Failure} (h : E e) : Errs (.error e : Except Failure α) E := by
  rintro _ ⟨⟩
  exact h

theorem errs_bind {x : Except Failure α} {f : α → Except Failure β} (h : Errs x E)
    (hf : ∀ a, x = .ok a → Errs (f a) E) : Errs (x >>= f) E := by
  intro e he
  cases x with
  | error e' =>
    obtain rfl := Except.error.inj he
    exact h _ rfl
  | ok a => exact hf a rfl e he

theorem errs_map {x : Except Failure α} {f : α → β} (h : Errs x E) : Errs (x.map f) E := by
  intro e he
  cases x with
  | error e' =>
    obtain rfl := Except.error.inj he
    exact h _ rfl
  | ok a => cases he

theorem errs_mapM {f : α → Except Failure β} {l : List α} (h : ∀ a ∈ l, Errs (f a) E) : Errs (l.mapM f) E := by
  induction l with
  | nil => exact errs_ok
  | cons a l ih =>
    rw [List.mapM_cons]
    refine errs_bind (h a List.mem_cons_self) fun _ _ => ?_
    exact errs_bind (ih fun x hx => h x (List.mem_cons_of_mem _ hx)) fun _ _ => errs_ok

theorem errs_ite {p : Prop} [Decidable p] {x y : Except Failure α} (hx : Errs x E) (hy : Errs y E) :
    Errs (if p then x else y) E := by
  split
  · exact hx
  · exact hy

end

namespace Failure

/-- If `x` fails then not for want of depth. -/
def Ends (x : Except Failure α) : Prop := ∀ e, x = .error e → e ≠ .endless

theorem ends_ok (a : α) : Ends (.ok a : Except Failure α) := errs_ok

theorem ends_error {e : Failure} (h : e ≠ .endless) : Ends (.error e : Except Failure α) := errs_error h

theorem ends_bind {x : Except Failure α} {f : α → Except Failure β} (hx : Ends x) (hf : ∀ a, Ends (f a)) :
    Ends (x >>= f) := errs_bind hx fun a _ => hf a

theorem ends_mapM {f : γ → Except Failure α} (hf : ∀ x, Ends (f x)) (l : List γ) : Ends (l.mapM f) :=
  errs_mapM fun x _ => hf x

theorem ends_ite {p : Prop} [Decidable p] {x y : Except Failure α} (hx : Ends x) (hy : Ends y) :
    Ends (if p then x else y) := errs_ite hx hy

end Failure

namespace Datum

variable (d : Datum)

theorem errs_key? : Errs d.key? (· = .wrongType) := by
  unfold key?
  split
  · exact errs_ok
  · exact errs_error rfl

theorem errs_text? : Errs d.text? (· = .wrongType) := by
  unfold text?
  split
  · exact errs_ok
  · exact errs_error rfl

theorem ends_key? : Failure.Ends d.key? := d.errs_key?.mono fun e he => by simp [he]

theorem ends_text? : Failure.Ends d.text? := d.errs_text?.mono fun e he => by simp [he]

theorem ends_wording? : Failure.Ends d.wording? :=
  Failure.ends_ite (Failure.ends_ok _) (Failure.ends_error (by simp))

end Datum

namespace Logged

/-- `x` does not fail for want of depth, and no warning begins with the path of a node. -/
structure Ends (x : Logged α) : Prop where
  result : Failure.Ends x.result
  records : ∀ r ∈ x.records, r.IsBenign

theorem ends_pure (a : α) : Ends (pure a : Logged α) := ⟨Failure.ends_ok a, by simp [pure]⟩

theorem ends_fail {e : Failure} (h : e ≠ .endless) : Ends (fail e : Logged α) := ⟨Failure.ends_error h, by simp [fail]⟩

theorem ends_ofExcept {x : Except Failure α} (h : Failure.Ends x) : Ends (ofExcept x) := ⟨h, by simp [ofExcept]⟩

theorem ends_write {level : Level} {text : String} (h : (⟨level, text⟩ : Record).IsBenign) :
    Ends (write level text) :=
  ⟨Failure.ends_ok (), by simpa [write] using h⟩

theorem ends_bind {x : Logged α} {f : α → Logged β} (hx : x.Ends) (hf : ∀ a, (f a).Ends) : Ends (x >>= f) := by
  refine ⟨?_, fun r hr => ?_⟩
  · rw [result_bind]
    exact Failure.ends_bind hx.result fun a => (hf a).result
  · obtain ⟨records, result⟩ := x
    cases result with
    | error e => exact hx.records r hr
    | ok a =>
      rcases List.mem_append.mp (show r ∈ records ++ (f a).records from hr) with hr | hr
      · exact hx.records r hr
      · exact (hf a).records r hr

theorem ends_ite {p : Prop} [Decidable p] {x y : Logged α} (hx : x.Ends) (hy : y.Ends) :
    Ends (if p then x else y) := by
  split
  · exact hx
  · exact hy

theorem ends_tryCatch {x : Logged α} {handle : Failure → Logged α} (hx : x.Ends)
    (hhandle : ∀ e, e ≠ .endless → (handle e).Ends) : Ends (tryCatch x handle) := by
  obtain ⟨records, result⟩ := x
  cases result with
  | ok a => exact hx
  | error e =>
    have he := hhandle e (hx.result e rfl)
    refine ⟨he.result, fun r hr => ?_⟩
    rcases List.mem_append.mp (show r ∈ records ++ (handle e).records from hr) with hr | hr
    · exact hx.records r hr
    · exact he.records r hr

theorem ends_mapM {f : γ → Logged α} (hf : ∀ x, (f x).Ends) (l : List γ) : Ends (l.mapM f) := by
  induction l with
  | nil => exact ends_pure []
  | cons x l ih =>
    rw [List.mapM_cons]
    exact ends_bind (hf x) fun a => ends_bind ih fun as => ends_pure (a :: as)

theorem ends_foldlM {f : β → γ → Logged β} (hf : ∀ b x, (f b x).Ends) (l : List γ) (b : β) : Ends (l.foldlM f b) := by
  induction l generalizing b with
  | nil => exact ends_pure b
  | cons x l ih =>
    rw [List.foldlM_cons]
    exact ends_bind (hf b x) ih

theorem errs_foldlM {E : Failure → Prop} {f : β → γ → Logged β} (hf : ∀ b x, Errs (f b x).result E) (l : List γ)
    (b : β) : Errs (l.foldlM f b).result E := by
  induction l generalizing b with
  | nil => exact errs_ok
  | cons x l ih =>
    rw [List.foldlM_cons, result_bind]
    exact errs_bind (hf b x) fun a _ => ih a

theorem ends_forM {f : γ → Logged Unit} (hf : ∀ x, (f x).Ends) (l : List γ) : Ends (l.forM f) := by
  induction l with
  | nil => exact ends_pure ()
  | cons x l ih => exact ends_bind (hf x) fun _ => ih

end Logged

end RestconfApi
