import RestconfApi.Definitions.Basic

/-!
# Building: what a step of building ensures

Partial correctness of the steps that build definitions: `x.Ensures d Q` says that `Q` holds of the
result of `x` and of the definitions it leaves, if `x` succeeds from `d`. There is a rule for every way
in which steps are put together; loops have an invariant over the elements done so far. `Both` does the
same for two runs side by side, from which the same steps are taken. `Settles` says as well what a step fails
with and leaves then, and a step that stays `Within` a relation keeps it either way. Steps that `Agree` give the same
result, be it a failure.
-/

namespace RestconfApi.Building

variable {α β γ : Type} {d : Definitions}

/-- If `x` run from `d` succeeds then `Q` holds of what it gives and leaves. -/
def Ensures (x : Building α) (d : Definitions) (Q : α → Definitions → Prop) : Prop :=
  ∀ a d', x d = (.ok a, d') → Q a d'

theorem Ensures.mono {x : Building α} {Q Q' : α → Definitions → Prop} (h : x.Ensures d Q)
    (hQ : ∀ a d', Q a d' → Q' a d') : x.Ensures d Q' :=
  fun a d' hx => hQ a d' (h a d' hx)

/-! ### Single steps -/

theorem ensures_pure {a : α} {Q : α → Definitions → Prop} (h : Q a d) :
    (pure a : Building α).Ensures d Q := by
  rintro _ _ ⟨⟩
  exact h

theorem ensures_fail {e : Failure} {Q : α → Definitions → Prop} : (fail e).Ensures d Q := by
  rintro _ _ ⟨⟩

theorem ensures_get {Q : Definitions → Definitions → Prop} (h : Q d d) :
    (get : Building Definitions).Ensures d Q := by
  rintro _ _ ⟨⟩
  exact h

theorem ensures_modify {f : Definitions → Definitions} {Q : Unit → Definitions → Prop}
    (h : Q () (f d)) : (modify f : Building Unit).Ensures d Q := by
  rintro _ _ ⟨⟩
  exact h

theorem ensures_ofLogged {x : Logged α} {Q : α → Definitions → Prop}
    (h : ∀ a, x.result = .ok a → Q a { d with records := d.records ++ x.records }) :
    (ofLogged x).Ensures d Q := by
  intro a d' hx
  obtain ⟨hr, rfl⟩ := Prod.mk.inj hx
  exact h a hr

theorem ensures_note {level : Level} {text : String} {Q : Unit → Definitions → Prop}
    (h : Q () { d with records := d.records ++ [⟨level, text⟩] }) : (note level text).Ensures d Q :=
  ensures_ofLogged fun _ _ => h

theorem subset_marks (a : Address) (marks : List Address) : marks ⊆ if a ∈ marks then marks else a :: marks := by
  split
  · exact List.Subset.refl _
  · exact List.subset_cons_self _ _

theorem marks_subset (a : Address) (marks : List Address) :
    (if a ∈ marks then marks else a :: marks) ⊆ a :: marks := by
  split
  · exact List.subset_cons_self _ _
  · exact List.Subset.refl _

theorem ensures_marked {a : Address} {x : Building α} {Q : α → Definitions → Prop}
    (h : x.Ensures { d with underway := if a ∈ d.underway then d.underway else a :: d.underway }
      fun b d' => Q b { d' with underway := d'.underway.filter (· ≠ a) }) :
    (marked a x).Ensures d Q := by
  intro b d' hx
  simp only [marked] at hx
  obtain ⟨hr, rfl⟩ := Prod.mk.inj hx
  exact h _ _ (Prod.ext hr rfl)

/-! ### Steps one after the other -/

theorem run_bind (x : Building α) (f : α → Building β) (d : Definitions) :
    (x >>= f) d =
      match x d with
      | (.ok a, d') => f a d'
      | (.error e, d') => (.error e, d') := by
  show (ExceptT.bind x f : Building β) d = _
  simp only [ExceptT.bind, ExceptT.mk, bind, StateT.bind]
  rcases x d with ⟨_ | _, _⟩ <;> rfl

theorem ensures_bind {x : Building α} {f : α → Building β} {Q : β → Definitions → Prop}
    (h : x.Ensures d fun a d' => (f a).Ensures d' Q) : (x >>= f).Ensures d Q := by
  intro b d' hx
  rw [run_bind] at hx
  rcases hd : x d with ⟨e | a, d₁⟩
  · rw [hd] at hx
    cases hx
  · rw [hd] at hx
    exact h a d₁ hd b d' hx

theorem forM_concat (f : γ → Building Unit) (l : List γ) (x : γ) :
    (l ++ [x]).forM f = l.forM f >>= fun _ => f x :=
  List.forM_append.trans (bind_congr fun _ => bind_pure_unit (x := f x))

theorem ensures_ite {p : Prop} [Decidable p] {x y : Building α} {Q : α → Definitions → Prop}
    (hx : p → x.Ensures d Q) (hy : ¬p → y.Ensures d Q) : (if p then x else y).Ensures d Q := by
  split
  · exact hx ‹_›
  · exact hy ‹_›

/-! ### Loops -/

/-- A loop keeps an invariant of the elements done so far and of the value they have led to. -/
theorem ensures_foldlM {f : β → γ → Building β} {l : List γ} {b : β}
    (I : List γ → β → Definitions → Prop) (h : I [] b d)
    (hstep : ∀ pre x post b d, l = pre ++ x :: post → I pre b d →
      (f b x).Ensures d fun b' d' => I (pre ++ [x]) b' d') :
    (l.foldlM f b).Ensures d (I l) := by
  suffices key : ∀ post pre b d, l = pre ++ post → I pre b d → (post.foldlM f b).Ensures d (I l) from
    key l [] b d rfl h
  intro post
  induction post with
  | nil =>
    intro pre b d hl hI
    rw [List.append_nil] at hl
    exact ensures_pure (hl ▸ hI)
  | cons x post ih =>
    intro pre b d hl hI
    rw [List.foldlM_cons]
    refine ensures_bind ((hstep pre x post b d hl hI).mono fun b' d' hI' => ?_)
    exact ih (pre ++ [x]) b' d' (by rw [hl, List.append_assoc]; rfl) hI'

theorem ensures_mapM {f : γ → Building β} {l : List γ} (I : List γ → List β → Definitions → Prop)
    (h : I [] [] d)
    (hstep : ∀ pre x post bs d, l = pre ++ x :: post → I pre bs d →
      (f x).Ensures d fun b d' => I (pre ++ [x]) (bs ++ [b]) d') :
    (l.mapM f).Ensures d (I l) := by
  suffices key : ∀ post pre bs d, l = pre ++ post → I pre bs d →
      (post.mapM f).Ensures d fun more d' => I l (bs ++ more) d' from key l [] [] d rfl h
  intro post
  induction post with
  | nil =>
    intro pre bs d hl hI
    rw [List.append_nil] at hl
    rw [List.mapM_nil]
    exact ensures_pure (by rw [List.append_nil, hl]; exact hI)
  | cons x post ih =>
    intro pre bs d hl hI
    rw [List.mapM_cons]
    refine ensures_bind ((hstep pre x post bs d hl hI).mono fun b d' hI' => ?_)
    refine ensures_bind ((ih (pre ++ [x]) (bs ++ [b]) d' ?_ hI').mono fun more d'' hI'' => ?_)
    · rw [hl, List.append_assoc]
      rfl
    · rw [List.append_assoc] at hI''
      exact ensures_pure hI''

theorem ensures_forM {f : γ → Building Unit} {l : List γ} (I : List γ → Definitions → Prop)
    (h : I [] d)
    (hstep : ∀ pre x post d, l = pre ++ x :: post → I pre d →
      (f x).Ensures d fun _ d' => I (pre ++ [x]) d') :
    (l.forM f).Ensures d fun _ d' => I l d' := by
  suffices key : ∀ post pre d, l = pre ++ post → I pre d →
      (post.forM f).Ensures d fun _ d' => I l d' from key l [] d rfl h
  intro post
  induction post with
  | nil =>
    intro pre d hl hI
    rw [List.append_nil] at hl
    exact ensures_pure (hl ▸ hI)
  | cons x post ih =>
    intro pre d hl hI
    refine ensures_bind ((hstep pre x post d hl hI).mono fun _ d' hI' => ?_)
    exact ih (pre ++ [x]) d' (by rw [hl, List.append_assoc]; rfl) hI'

/-- A filter whose test gives `p` of every element and keeps `I` filters by `p`. -/
theorem ensures_filterM {f : γ → Building Bool} {l : List γ} (I : Definitions → Prop) (p : γ → Bool)
    (h : I d) (hstep : ∀ x d, I d → (f x).Ensures d fun b d' => b = p x ∧ I d') :
    (l.filterM f).Ensures d fun kept d' => kept = l.filter p ∧ I d' := by
  suffices key : ∀ (l acc : List γ) d, I d →
      (l.filterAuxM f acc).Ensures d fun kept d' => kept = (l.filter p).reverse ++ acc ∧ I d' by
    refine ensures_bind ((key l [] d h).mono fun kept d' hkept => ensures_pure ⟨?_, hkept.2⟩)
    rw [hkept.1, List.append_nil, List.reverse_reverse]
  intro l
  induction l with
  | nil => exact fun acc d hI => ensures_pure ⟨rfl, hI⟩
  | cons x l ih =>
    intro acc d hI
    refine ensures_bind ((hstep x d hI).mono fun b d' hb => ?_)
    obtain ⟨rfl, hI'⟩ := hb
    refine (ih _ d' hI').mono fun kept d'' hkept => ⟨?_, hkept.2⟩
    rw [hkept.1]
    by_cases hp : p x = true <;> simp [hp]

/-! ### Two runs -/

section Both

variable {α' β' : Type} {e : Definitions}

/-- If `x` run from `d` and `y` run from `e` both succeed then `Q` holds of what they give and leave. -/
def Both (x : Building α) (y : Building α') (d e : Definitions)
    (Q : α → α' → Definitions → Definitions → Prop) : Prop :=
  ∀ a d' a' e', x d = (.ok a, d') → y e = (.ok a', e') → Q a a' d' e'

theorem Both.mono {x : Building α} {y : Building α'} {Q Q' : α → α' → Definitions → Definitions → Prop}
    (h : Both x y d e Q) (hQ : ∀ a a' d' e', Q a a' d' e' → Q' a a' d' e') : Both x y d e Q' :=
  fun a d' a' e' hx hy => hQ a a' d' e' (h a d' a' e' hx hy)

theorem both_pure {a : α} {a' : α'} {Q : α → α' → Definitions → Definitions → Prop} (h : Q a a' d e) :
    Both (pure a : Building α) (pure a' : Building α') d e Q := by
  rintro _ _ _ _ ⟨⟩ ⟨⟩
  exact h

theorem both_fail {x : Failure} {y : Building α'} {Q : α → α' → Definitions → Definitions → Prop} :
    Both (fail x : Building α) y d e Q := by
  rintro _ _ _ _ ⟨⟩

/-- What each of the runs ensures by itself. -/
theorem both_of_ensures {x : Building α} {y : Building α'} {P : α → Definitions → Prop}
    {P' : α' → Definitions → Prop} (hx : x.Ensures d P) (hy : y.Ensures e P') :
    Both x y d e fun a a' d' e' => P a d' ∧ P' a' e' :=
  fun a d' a' e' h h' => ⟨hx a d' h, hy a' e' h'⟩

theorem both_ofLogged {x : Logged α} {Q : α → α → Definitions → Definitions → Prop}
    (h : ∀ a, x.result = .ok a →
      Q a a { d with records := d.records ++ x.records } { e with records := e.records ++ x.records }) :
    Both (ofLogged x) (ofLogged x) d e Q := by
  intro a d' a' e' hx hy
  obtain ⟨hr, rfl⟩ := Prod.mk.inj hx
  obtain ⟨hr', rfl⟩ := Prod.mk.inj hy
  obtain rfl : a = a' := Except.ok.inj (hr.symm.trans hr')
  exact h a hr

theorem both_note {level : Level} {text : String} {Q : Unit → Unit → Definitions → Definitions → Prop}
    (h : Q () () { d with records := d.records ++ [⟨level, text⟩] }
      { e with records := e.records ++ [⟨level, text⟩] }) :
    Both (note level text) (note level text) d e Q :=
  both_ofLogged fun _ _ => h

theorem both_modify {f g : Definitions → Definitions} {Q : Unit → Unit → Definitions → Definitions → Prop}
    (h : Q () () (f d) (g e)) : Both (modify f : Building Unit) (modify g : Building Unit) d e Q := by
  rintro _ _ _ _ ⟨⟩ ⟨⟩
  exact h

theorem both_bind {x : Building α} {y : Building α'} {f : α → Building β} {g : α' → Building β'}
    {Q : β → β' → Definitions → Definitions → Prop}
    (h : Both x y d e fun a a' d' e' => Both (f a) (g a') d' e' Q) : Both (x >>= f) (y >>= g) d e Q := by
  intro b d' b' e' hx hy
  rw [run_bind] at hx hy
  rcases hd : x d with ⟨_ | a, d₁⟩
  · rw [hd] at hx
    cases hx
  · rcases he : y e with ⟨_ | a', e₁⟩
    · rw [he] at hy
      cases hy
    · rw [hd] at hx
      rw [he] at hy
      exact h a d₁ a' e₁ hd he b d' b' e' hx hy

theorem both_ite {p : Prop} [Decidable p] {x z : Building α} {y w : Building α'}
    {Q : α → α' → Definitions → Definitions → Prop} (ht : p → Both x y d e Q) (hf : ¬p → Both z w d e Q) :
    Both (if p then x else z) (if p then y else w) d e Q := by
  split
  · exact ht ‹_›
  · exact hf ‹_›

/-- Two loops over one list keep a relation of what they have led to. -/
theorem both_forM {f g : γ → Building Unit} {l : List γ} (I : List γ → Definitions → Definitions → Prop)
    (h : I [] d e)
    (hstep : ∀ pre x post d e, l = pre ++ x :: post → I pre d e →
      Both (f x) (g x) d e fun _ _ d' e' => I (pre ++ [x]) d' e') :
    Both (l.forM f) (l.forM g) d e fun _ _ d' e' => I l d' e' := by
  suffices key : ∀ post pre d e, l = pre ++ post → I pre d e →
      Both (post.forM f) (post.forM g) d e fun _ _ d' e' => I l d' e' from key l [] d e rfl h
  intro post
  induction post with
  | nil =>
    intro pre d e hl hI
    rw [List.append_nil] at hl
    exact both_pure (hl ▸ hI)
  | cons x post ih =>
    intro pre d e hl hI
    refine both_bind ((hstep pre x post d e hl hI).mono fun _ _ d' e' hI' => ?_)
    exact ih (pre ++ [x]) d' e' (by rw [hl, List.append_assoc]; rfl) hI'

/-- Two loops over one list give the same values, of which `P` holds, if they do so step by step. -/
theorem both_mapM {f g : γ → Building β} {l : List γ} (I : Definitions → Definitions → Prop) (P : β → Prop)
    (h : I d e)
    (hstep : ∀ x d e, I d e → Both (f x) (g x) d e fun b b' d' e' => b = b' ∧ P b ∧ I d' e') :
    Both (l.mapM f) (l.mapM g) d e fun bs bs' d' e' => bs = bs' ∧ (∀ b ∈ bs, P b) ∧ I d' e' := by
  induction l generalizing d e with
  | nil => exact both_pure ⟨rfl, by simp, h⟩
  | cons x l ih =>
    rw [List.mapM_cons, List.mapM_cons]
    refine both_bind ((hstep x d e h).mono fun b b' d' e' h' => ?_)
    obtain ⟨rfl, hP, h'⟩ := h'
    refine both_bind ((ih h').mono fun bs bs' d'' e'' h'' => ?_)
    obtain ⟨rfl, hPs, h''⟩ := h''
    exact both_pure ⟨rfl, List.forall_mem_cons.mpr ⟨hP, hPs⟩, h''⟩

end Both

/-! ### Steps that may fail -/

section Settles

variable {Q Q' : α → Definitions → Prop} {E E' : Failure → Definitions → Prop} {P P' : Definitions → Prop}

/-- `Q` holds of what `x` run from `d` gives and leaves if it succeeds, and `E` of the failure and of what is left
if it fails. -/
structure Settles (x : Building α) (d : Definitions) (Q : α → Definitions → Prop)
    (E : Failure → Definitions → Prop) : Prop where
  ok : x.Ensures d Q
  error : ∀ e d', x d = (.error e, d') → E e d'

/-- The same with nothing to say of the failure but what it leaves. -/
abbrev Leaves (x : Building α) (d : Definitions) (Q : α → Definitions → Prop) (P : Definitions → Prop) : Prop :=
  x.Settles d Q fun _ => P

theorem Settles.mono {x : Building α} (h : x.Settles d Q E) (hQ : ∀ a d', Q a d' → Q' a d')
    (hE : ∀ e d', E e d' → E' e d') : x.Settles d Q' E' :=
  ⟨h.ok.mono hQ, fun e d' hx => hE e d' (h.error e d' hx)⟩

/-- What holds if a step succeeds may be weakened by itself. -/
theorem Settles.imp {x : Building α} (h : x.Settles d Q E) (hQ : ∀ a d', Q a d' → Q' a d') : x.Settles d Q' E :=
  h.mono hQ fun _ _ he => he

theorem Leaves.mono {x : Building α} (h : x.Leaves d Q P) (hQ : ∀ a d', Q a d' → Q' a d')
    (hP : ∀ d', P d' → P' d') : x.Leaves d Q' P' :=
  Settles.mono h hQ fun _ => hP

/-- What `x` ensures it settles as well. -/
theorem Settles.and_ensures {x : Building α} (h : x.Settles d Q E) (h' : x.Ensures d Q') :
    x.Settles d (fun a d' => Q a d' ∧ Q' a d') E :=
  ⟨fun a d' hx => ⟨h.ok a d' hx, h' a d' hx⟩, h.error⟩

/-- What a step settles under an assumption. -/
theorem settles_of_imp {p : Prop} {x : Building α} (h : p → x.Settles d Q E) :
    x.Settles d (fun a d' => p → Q a d') fun e d' => p → E e d' :=
  ⟨fun a d' hx hp => (h hp).ok a d' hx, fun e d' hx hp => (h hp).error e d' hx⟩

/-- What is settled of both outcomes holds of the run. -/
theorem Settles.run {x : Building α} {R : Except Failure α → Definitions → Prop}
    (h : x.Settles d (fun a => R (.ok a)) fun e => R (.error e)) : R (x d).1 (x d).2 := by
  rcases hx : x d with ⟨e | a, d'⟩
  · exact h.error e d' hx
  · exact h.ok a d' hx

theorem Settles.eq_ok {x : Building α} {b : α} (h : x.Settles d (fun a _ => a = b) fun _ _ => False) :
    (x d).1 = .ok b :=
  Settles.run (R := fun result _ => result = .ok b) (h.mono (fun _ _ ha => congrArg _ ha) fun _ _ he => he.elim)

theorem settles_of_ensures {x : Building α} (h : x.Ensures d Q) : x.Settles d Q fun _ _ => True :=
  ⟨h, fun _ _ _ => trivial⟩

theorem settles_pure {a : α} (h : Q a d) : (pure a : Building α).Settles d Q E :=
  ⟨ensures_pure h, by rintro _ _ ⟨⟩⟩

theorem settles_fail {e : Failure} (h : E e d) : (fail e : Building α).Settles d Q E := by
  refine ⟨ensures_fail, ?_⟩
  rintro _ _ ⟨⟩
  exact h

theorem settles_get {Q : Definitions → Definitions → Prop} (h : Q d d) :
    (get : Building Definitions).Settles d Q E :=
  ⟨ensures_get h, by rintro _ _ ⟨⟩⟩

theorem settles_modify {f : Definitions → Definitions} {Q : Unit → Definitions → Prop} (h : Q () (f d)) :
    (modify f : Building Unit).Settles d Q E :=
  ⟨ensures_modify h, by rintro _ _ ⟨⟩⟩

/-- Whether or not it succeeds, what is logged changes the records alone. -/
theorem settles_ofLogged {x : Logged α}
    (hok : ∀ a, x.result = .ok a → Q a { d with records := d.records ++ x.records })
    (herror : ∀ e, x.result = .error e → E e { d with records := d.records ++ x.records }) :
    (ofLogged x).Settles d Q E := by
  refine ⟨ensures_ofLogged hok, fun e d' hx => ?_⟩
  obtain ⟨hr, rfl⟩ := Prod.mk.inj hx
  exact herror e hr

theorem leaves_ofLogged {x : Logged α}
    (hok : ∀ a, x.result = .ok a → Q a { d with records := d.records ++ x.records })
    (herror : P { d with records := d.records ++ x.records }) : (ofLogged x).Leaves d Q P :=
  settles_ofLogged hok fun _ _ => herror

theorem settles_note {level : Level} {text : String} {Q : Unit → Definitions → Prop}
    (h : Q () { d with records := d.records ++ [⟨level, text⟩] }) : (note level text).Settles d Q E :=
  ⟨ensures_note h, by rintro _ _ ⟨⟩⟩

theorem settles_marked {a : Address} {x : Building α}
    (h : x.Settles { d with underway := if a ∈ d.underway then d.underway else a :: d.underway }
      (fun b d' => Q b { d' with underway := d'.underway.filter (· ≠ a) })
      fun e d' => E e { d' with underway := d'.underway.filter (· ≠ a) }) : (marked a x).Settles d Q E := by
  refine ⟨ensures_marked h.ok, fun e d' hx => ?_⟩
  simp only [marked] at hx
  obtain ⟨hr, rfl⟩ := Prod.mk.inj hx
  exact h.error e _ (Prod.ext hr rfl)

theorem settles_bind {x : Building α} {f : α → Building β} {Q : β → Definitions → Prop}
    (h : x.Settles d (fun a d' => (f a).Settles d' Q E) E) : (x >>= f).Settles d Q E := by
  refine ⟨ensures_bind (h.ok.mono fun a d' h' => h'.ok), fun e d' hx => ?_⟩
  rw [run_bind] at hx
  rcases hd : x d with ⟨e' | a, d₁⟩
  · rw [hd] at hx
    obtain ⟨he, rfl⟩ := Prod.mk.inj hx
    obtain rfl := Except.error.inj he
    exact h.error e' d₁ hd
  · rw [hd] at hx
    exact (h.ok a d₁ hd).error e d' hx

/-- What a step settles is what the next one starts from. -/
theorem Settles.bind {x : Building α} {f : α → Building β} {Q' : β → Definitions → Prop} (h : x.Settles d Q E)
    (hf : ∀ a d', Q a d' → (f a).Settles d' Q' E) : (x >>= f).Settles d Q' E :=
  settles_bind (h.imp hf)

theorem settles_ite {p : Prop} [Decidable p] {x y : Building α} (hx : p → x.Settles d Q E)
    (hy : ¬p → y.Settles d Q E) : (if p then x else y).Settles d Q E := by
  split
  · exact hx ‹_›
  · exact hy ‹_›

/-- A loop keeps an invariant of the elements done so far and of the value they have led to. -/
theorem settles_foldlM {f : β → γ → Building β} {l : List γ} {b : β} (I : List γ → β → Definitions → Prop)
    (h : I [] b d)
    (hstep : ∀ pre x post b d, l = pre ++ x :: post → I pre b d → (f b x).Settles d (I (pre ++ [x])) E) :
    (l.foldlM f b).Settles d (I l) E := by
  suffices key : ∀ post pre b d, l = pre ++ post → I pre b d → (post.foldlM f b).Settles d (I l) E from
    key l [] b d rfl h
  intro post
  induction post with
  | nil =>
    intro pre b d hl hI
    rw [List.append_nil] at hl
    exact settles_pure (hl ▸ hI)
  | cons x post ih =>
    intro pre b d hl hI
    rw [List.foldlM_cons]
    refine settles_bind ((hstep pre x post b d hl hI).mono (fun b' d' hI' => ?_) fun _ _ hE => hE)
    exact ih (pre ++ [x]) b' d' (by rw [hl, List.append_assoc]; rfl) hI'

theorem settles_mapM {f : γ → Building β} {l : List γ} (I : List β → Definitions → Prop) (h : I [] d)
    (hstep : ∀ x ∈ l, ∀ bs d, I bs d → (f x).Settles d (fun b d' => I (bs ++ [b]) d') E) :
    (l.mapM f).Settles d I E := by
  suffices key : ∀ bs d, I bs d → (l.mapM f).Settles d (fun more d' => I (bs ++ more) d') E from key [] d h
  clear h
  induction l with
  | nil =>
    intro bs d hI
    rw [List.mapM_nil]
    exact settles_pure (by rwa [List.append_nil])
  | cons x l ih =>
    intro bs d hI
    rw [List.mapM_cons]
    refine settles_bind ((hstep x List.mem_cons_self bs d hI).mono (fun b d' hI' => ?_) fun _ _ hE => hE)
    refine settles_bind ((ih (fun y hy => hstep y (List.mem_cons_of_mem _ hy)) _ d' hI').mono
      (fun more d'' hI'' => settles_pure ?_) fun _ _ hE => hE)
    rwa [List.append_assoc] at hI''

/-- A loop keeps an invariant of the elements done so far. -/
theorem settles_forM_along {f : γ → Building Unit} {l : List γ} (I : List γ → Definitions → Prop) (h : I [] d)
    (hstep : ∀ pre x post d, l = pre ++ x :: post → I pre d → (f x).Settles d (fun _ d' => I (pre ++ [x]) d') E) :
    (l.forM f).Settles d (fun _ d' => I l d') E := by
  suffices key : ∀ post pre d, l = pre ++ post → I pre d → (post.forM f).Settles d (fun _ d' => I l d') E from
    key l [] d rfl h
  intro post
  induction post with
  | nil =>
    intro pre d hl hI
    rw [List.append_nil] at hl
    exact settles_pure (hl ▸ hI)
  | cons x post ih =>
    intro pre d hl hI
    refine (hstep pre x post d hl hI).bind fun _ d' hI' => ?_
    exact ih (pre ++ [x]) d' (by rw [hl, List.append_assoc]; rfl) hI'

theorem settles_forM {f : γ → Building Unit} {l : List γ} (I : Definitions → Prop) (h : I d)
    (hstep : ∀ x ∈ l, ∀ d, I d → (f x).Settles d (fun _ d' => I d') E) :
    (l.forM f).Settles d (fun _ d' => I d') E :=
  settles_forM_along (fun _ => I) h fun _ x _ d hl hI => hstep x (hl ▸ by simp) d hI

/-- A filter keeps whatever its test keeps. -/
theorem settles_filterM {f : γ → Building Bool} {l : List γ} (I : Definitions → Prop) (h : I d)
    (hstep : ∀ x d, I d → (f x).Settles d (fun _ d' => I d') E) :
    (l.filterM f).Settles d (fun _ d' => I d') E := by
  suffices key : ∀ (l acc : List γ) d, I d → (l.filterAuxM f acc).Settles d (fun _ d' => I d') E from
    settles_bind ((key l [] d h).mono (fun _ _ hI => settles_pure hI) fun _ _ hE => hE)
  intro l
  induction l with
  | nil => exact fun acc d hI => settles_pure hI
  | cons x l ih =>
    intro acc d hI
    exact settles_bind ((hstep x d hI).mono (fun _ d' hI' => ih _ d' hI') fun _ _ hE => hE)

end Settles

/-! ### A run that rules out another -/

section Spoils

variable {e : Definitions} {I J : Definitions → Definitions → Prop}

/-- If a leafref is at fault when `x` is run from `d` then `y` run from `e` does not succeed. When both succeed, `I`
holds of what they leave. -/
structure Spoils (I : Definitions → Definitions → Prop) (x y : Building Unit) (d e : Definitions) : Prop where
  fails : ∀ fault d' e', x d = (.error (.leafref fault), d') → y e ≠ (.ok (), e')
  keeps : ∀ d' e', x d = (.ok (), d') → y e = (.ok (), e') → I d' e'

theorem spoils_pure (h : I d e) : Spoils I (pure ()) (pure ()) d e := by
  refine ⟨nofun, ?_⟩
  rintro _ _ ⟨⟩ ⟨⟩
  exact h

theorem Spoils.bind {x y : Building Unit} {f g : Unit → Building Unit} (h : Spoils I x y d e)
    (hfg : ∀ d' e', I d' e' → Spoils J (f ()) (g ()) d' e') : Spoils J (x >>= f) (y >>= g) d e := by
  have hboth : ∀ {r e'}, (y >>= g) e = (.ok r, e') → ∃ e₁, y e = (.ok (), e₁) ∧ g () e₁ = (.ok r, e') := by
    intro r e' hy
    rw [run_bind] at hy
    rcases he : y e with ⟨_ | _, e₁⟩
    · rw [he] at hy
      cases hy
    · rw [he] at hy
      exact ⟨e₁, rfl, hy⟩
  refine ⟨fun fault d' e' hx hy => ?_, fun d' e' hx hy => ?_⟩
  · obtain ⟨e₁, he, hy⟩ := hboth hy
    rw [run_bind] at hx
    rcases hd : x d with ⟨_ | _, d₁⟩
    · rw [hd] at hx
      obtain ⟨hfault, rfl⟩ := Prod.mk.inj hx
      exact h.fails fault d₁ e₁ (by rw [hd, hfault]) he
    · rw [hd] at hx
      exact (hfg d₁ e₁ (h.keeps d₁ e₁ hd he)).fails fault d' e' hx hy
  · obtain ⟨e₁, he, hy⟩ := hboth hy
    rw [run_bind] at hx
    rcases hd : x d with ⟨_ | _, d₁⟩
    · rw [hd] at hx
      cases hx
    · rw [hd] at hx
      exact (hfg d₁ e₁ (h.keeps d₁ e₁ hd he)).keeps d' e' hx hy

theorem spoils_forM {f g : γ → Building Unit} {l : List γ} (h : I d e)
    (hstep : ∀ x ∈ l, ∀ d e, I d e → Spoils I (f x) (g x) d e) : Spoils I (l.forM f) (l.forM g) d e := by
  induction l generalizing d e with
  | nil => exact spoils_pure h
  | cons x l ih =>
    refine (hstep x List.mem_cons_self d e h).bind fun d' e' h' => ?_
    exact ih h' fun y hy => hstep y (List.mem_cons_of_mem _ hy)

/-- A fault that is there in one run, and that is not when the other one succeeds. -/
theorem spoils_of_settles {x y : Building Unit} {P P' : Definitions → Prop} {N N' : Prop}
    (hx : x.Settles d (fun _ d' => P d') fun e _ => (∃ fault, e = .leafref fault) → N)
    (hy : y.Ensures e fun _ e' => P' e' ∧ N') (hN : N → ¬N') : Spoils (fun d e => P d ∧ P' e) x y d e where
  fails fault d' e' hd he := hN (hx.error _ d' hd ⟨fault, rfl⟩) (hy () e' he).2
  keeps d' e' hd he := ⟨hx.ok () d' hd, (hy () e' he).1⟩

end Spoils

/-! ### Steps that agree -/

section Agree

variable {I : Definitions → Definitions → Prop} {e : Definitions}

/-- `x` run from `d` and `y` run from `e` succeed or fail alike, with the same result, and leave states that `I`
relates. -/
structure Agree (I : Definitions → Definitions → Prop) (x y : Building α) (d e : Definitions) : Prop where
  result : (x d).1 = (y e).1
  states : I (x d).2 (y e).2

theorem Agree.mono {I' : Definitions → Definitions → Prop} {x y : Building α} (h : Agree I x y d e)
    (hI : ∀ d' e', I d' e' → I' d' e') : Agree I' x y d e :=
  ⟨h.result, hI _ _ h.states⟩

theorem Agree.trans {I' J : Definitions → Definitions → Prop} {x y z : Building α} {f : Definitions}
    (h : Agree I x y d e) (h' : Agree I' y z e f) (hJ : ∀ d e f, I d e → I' e f → J d f) : Agree J x z d f :=
  ⟨h.result.trans h'.result, hJ _ _ _ h.states h'.states⟩

theorem Agree.of_eq {x y x' y' : Building α} (h : Agree I x' y' d e) (hx : x d = x' d) (hy : y e = y' e) :
    Agree I x y d e :=
  ⟨by rw [hx, hy, h.result], by rw [hx, hy]; exact h.states⟩

theorem agree_pure {a : α} (h : I d e) : Agree I (pure a : Building α) (pure a) d e := ⟨rfl, h⟩

theorem agree_fail {x : Failure} (h : I d e) : Agree I (fail x : Building α) (fail x) d e := ⟨rfl, h⟩

theorem agree_modify {f g : Definitions → Definitions} (h : I (f d) (g e)) :
    Agree I (modify f : Building Unit) (modify g) d e := ⟨rfl, h⟩

theorem agree_ofLogged {x : Logged α}
    (h : I { d with records := d.records ++ x.records } { e with records := e.records ++ x.records }) :
    Agree I (ofLogged x) (ofLogged x) d e := ⟨rfl, h⟩

theorem agree_note {level : Level} {text : String}
    (h : I { d with records := d.records ++ [⟨level, text⟩] } { e with records := e.records ++ [⟨level, text⟩] }) :
    Agree I (note level text) (note level text) d e := ⟨rfl, h⟩

theorem agree_bind {x y : Building α} {f g : α → Building β} (h : Agree I x y d e)
    (hf : ∀ a d' e', I d' e' → Agree I (f a) (g a) d' e') : Agree I (x >>= f) (y >>= g) d e := by
  obtain ⟨hresult, hstates⟩ := h
  rcases hx : x d with ⟨r, d'⟩
  rcases hy : y e with ⟨r', e'⟩
  rw [hx, hy] at hresult hstates
  obtain rfl : r = r' := hresult
  cases r with
  | error => exact ⟨by rw [run_bind, run_bind, hx, hy], by rw [run_bind, run_bind, hx, hy]; exact hstates⟩
  | ok a =>
    have hagree := hf a d' e' hstates
    exact ⟨by rw [run_bind, run_bind, hx, hy]; exact hagree.result,
      by rw [run_bind, run_bind, hx, hy]; exact hagree.states⟩

/-- What a first step that both take settles may be used after it. -/
theorem agree_bind_settles {x : Building α} {f g : α → Building β} {Q : α → Definitions → Prop}
    (hx : x.Settles d (fun a d' => I d' d' ∧ Q a d') fun _ d' => I d' d')
    (hf : ∀ a d', I d' d' → Q a d' → Agree I (f a) (g a) d' d') : Agree I (x >>= f) (x >>= g) d d := by
  rcases hd : x d with ⟨e | a, d'⟩
  · have hstates := hx.error e d' hd
    exact ⟨by rw [run_bind, run_bind, hd], by rw [run_bind, run_bind, hd]; exact hstates⟩
  · obtain ⟨hstates, hQ⟩ := hx.ok a d' hd
    have hagree := hf a d' hstates hQ
    exact ⟨by rw [run_bind, run_bind, hd]; exact hagree.result, by rw [run_bind, run_bind, hd]; exact hagree.states⟩

/-- A last step that changes nothing that `I` tells apart may be left out. -/
theorem agree_bind_self {x : Building Unit} {f : Unit → Building Unit} (hI : ∀ d, I d d)
    (hf : ∀ d', x d = (.ok (), d') → (f ()).Settles d' (fun _ d'' => I d'' d') fun _ _ => False) :
    Agree I (x >>= f) x d d := by
  rcases hx : x d with ⟨e | _, d'⟩
  · exact ⟨by rw [run_bind, hx], by rw [run_bind, hx]; exact hI d'⟩
  · obtain ⟨hresult, hstates⟩ := Settles.run (R := fun result d'' => result = .ok () ∧ I d'' d')
      ((hf d' hx).mono (fun _ _ h => ⟨rfl, h⟩) fun _ _ h => h.elim)
    exact ⟨by rw [run_bind, hx]; exact hresult, by rw [run_bind, hx]; exact hstates⟩

theorem agree_get {f g : Definitions → Building α} (h : Agree I (f d) (g e) d e) :
    Agree I (get >>= f) (get >>= g) d e :=
  ⟨by rw [run_bind, run_bind]; exact h.result, by rw [run_bind, run_bind]; exact h.states⟩

theorem agree_ite {p : Prop} [Decidable p] {x y z w : Building α} (ht : p → Agree I x y d e)
    (hf : ¬p → Agree I z w d e) : Agree I (if p then x else z) (if p then y else w) d e := by
  split
  · exact ht ‹_›
  · exact hf ‹_›

theorem agree_marked {a : Address} {x y : Building α}
    (h : Agree (fun d' e' => I { d' with underway := d'.underway.filter (· ≠ a) }
        { e' with underway := e'.underway.filter (· ≠ a) }) x y
      { d with underway := if a ∈ d.underway then d.underway else a :: d.underway }
      { e with underway := if a ∈ e.underway then e.underway else a :: e.underway }) :
    Agree I (marked a x) (marked a y) d e := ⟨h.result, h.states⟩

theorem agree_foldlM {f g : β → γ → Building β} {l : List γ}
    (hstep : ∀ x ∈ l, ∀ b d e, I d e → Agree I (f b x) (g b x) d e) (b : β) (h : I d e) :
    Agree I (l.foldlM f b) (l.foldlM g b) d e := by
  induction l generalizing b d e with
  | nil => exact agree_pure h
  | cons x l ih =>
    rw [List.foldlM_cons, List.foldlM_cons]
    exact agree_bind (hstep x List.mem_cons_self b d e h) fun b' d' e' h' =>
      ih (fun y hy => hstep y (List.mem_cons_of_mem _ hy)) b' h'

theorem agree_forM {f g : γ → Building Unit} {l : List γ}
    (hstep : ∀ x ∈ l, ∀ d e, I d e → Agree I (f x) (g x) d e) (h : I d e) :
    Agree I (l.forM f) (l.forM g) d e := by
  induction l generalizing d e with
  | nil => exact agree_pure h
  | cons x l ih =>
    exact agree_bind (hstep x List.mem_cons_self d e h) fun _ d' e' h' =>
      ih (fun y hy => hstep y (List.mem_cons_of_mem _ hy)) h'

theorem agree_mapM {f g : γ → Building β} {l : List γ}
    (hstep : ∀ x ∈ l, ∀ d e, I d e → Agree I (f x) (g x) d e) (h : I d e) :
    Agree I (l.mapM f) (l.mapM g) d e := by
  induction l generalizing d e with
  | nil => exact agree_pure h
  | cons x l ih =>
    rw [List.mapM_cons, List.mapM_cons]
    refine agree_bind (hstep x List.mem_cons_self d e h) fun b d' e' h' => ?_
    exact agree_bind (ih (fun y hy => hstep y (List.mem_cons_of_mem _ hy)) h') fun bs d'' e'' h'' => agree_pure h''

theorem agree_filterM {f g : γ → Building Bool} {l : List γ}
    (hstep : ∀ x d e, I d e → Agree I (f x) (g x) d e) (h : I d e) :
    Agree I (l.filterM f) (l.filterM g) d e := by
  suffices key : ∀ (l acc : List γ) d e, I d e → Agree I (l.filterAuxM f acc) (l.filterAuxM g acc) d e from
    agree_bind (key l [] d e h) fun kept d' e' h' => agree_pure h'
  intro l
  induction l with
  | nil => exact fun acc d e h => agree_pure h
  | cons x l ih =>
    intro acc d e h
    exact agree_bind (hstep x d e h) fun b d' e' h' => ih _ d' e' h'

end Agree

/-! ### Steps that keep a relation -/

section Within

variable {K : Definitions → Definitions → Prop}

/-- A relation of states that holds from each state to itself, across steps one after the other and across what is
logged. -/
structure IsCourse (K : Definitions → Definitions → Prop) : Prop where
  refl : ∀ d, K d d
  trans : ∀ {d d' d''}, K d d' → K d' d'' → K d d''
  noted : ∀ d records, K d { d with records }

/-- Wherever `x` starts from, and whether or not it succeeds, it leaves a state that `K` relates to that. -/
def Within (x : Building α) (K : Definitions → Definitions → Prop) : Prop :=
  ∀ d, x.Leaves d (fun _ d' => K d d') (K d)

variable (hK : IsCourse K)
include hK

theorem within_pure (a : α) : (pure a : Building α).Within K := fun d => settles_pure (hK.refl d)

theorem within_get : (get : Building Definitions).Within K := fun d => settles_get (hK.refl d)

theorem within_ofLogged (x : Logged α) : (ofLogged x).Within K :=
  fun d => leaves_ofLogged (fun _ _ => hK.noted d _) (hK.noted d _)

omit hK in
theorem within_modify {f : Definitions → Definitions} (hf : ∀ d, K d (f d)) : (modify f : Building Unit).Within K :=
  fun d => settles_modify (hf d)

theorem within_note (level : Level) (text : String) : (note level text).Within K := within_ofLogged hK _

/-- What is known of the result of a step may be used after it. -/
theorem within_bind_of {x : Building α} {f : α → Building β} {P : α → Prop}
    (hx : ∀ d, x.Leaves d (fun a d' => K d d' ∧ P a) (K d)) (hf : ∀ a, P a → (f a).Within K) : (x >>= f).Within K :=
  fun d => settles_bind ((hx d).mono (fun a d' h => (hf a h.2 d').mono (fun _ _ h' => hK.trans h.1 h') fun _ h' =>
    hK.trans h.1 h') fun _ h => h)

/-- A step that changes nothing may tell something of its result. -/
theorem within_bind_same {x : Building α} {f : α → Building β} {P : α → Prop}
    (hx : ∀ d, x.Leaves d (fun a d' => d' = d ∧ P a) fun d' => d' = d) (hf : ∀ a, P a → (f a).Within K) :
    (x >>= f).Within K :=
  within_bind_of hK (fun d => (hx d).mono (fun _ _ h => ⟨h.1 ▸ hK.refl d, h.2⟩) fun _ h => h ▸ hK.refl d) hf

theorem Within.bind {x : Building α} {f : α → Building β} (hx : x.Within K) (hf : ∀ a, (f a).Within K) :
    (x >>= f).Within K :=
  within_bind_of hK (P := fun _ => True) (fun d => (hx d).mono (fun _ _ h => ⟨h, trivial⟩) fun _ h => h)
    fun a _ => hf a

omit hK in
theorem within_ite {p : Prop} [Decidable p] {x y : Building α} (hx : x.Within K) (hy : y.Within K) :
    (if p then x else y).Within K :=
  fun d => settles_ite (fun _ => hx d) fun _ => hy d

/-- A relation that does not mind marks holds across a step whose node is marked. -/
theorem within_marked {x : Building α} (hx : x.Within K) (hmarks : ∀ d underway, K d { d with underway })
    (a : Address) : (marked a x).Within K :=
  fun d => settles_marked ((hx _).mono (fun _ d' h => hK.trans (hK.trans (hmarks d _) h) (hmarks d' _))
    fun d' h => hK.trans (hK.trans (hmarks d _) h) (hmarks d' _))

theorem within_foldlM {f : β → γ → Building β} {l : List γ} (h : ∀ x ∈ l, ∀ b, (f b x).Within K) (b : β) :
    (l.foldlM f b).Within K := by
  induction l generalizing b with
  | nil => exact within_pure hK b
  | cons x l ih =>
    rw [List.foldlM_cons]
    exact (h x List.mem_cons_self b).bind hK fun b' => ih (fun y hy => h y (List.mem_cons_of_mem _ hy)) b'

theorem within_mapM {f : γ → Building β} {l : List γ} (h : ∀ x ∈ l, (f x).Within K) : (l.mapM f).Within K := by
  induction l with
  | nil =>
    rw [List.mapM_nil]
    exact within_pure hK []
  | cons x l ih =>
    rw [List.mapM_cons]
    exact (h x List.mem_cons_self).bind hK fun b =>
      (ih fun y hy => h y (List.mem_cons_of_mem _ hy)).bind hK fun bs => within_pure hK _

theorem within_forM {f : γ → Building Unit} {l : List γ} (h : ∀ x ∈ l, (f x).Within K) : (l.forM f).Within K :=
  fun d => settles_forM (K d) (hK.refl d) fun x hx d' hd => (h x hx d').mono (fun _ _ h' => hK.trans hd h') fun _ h' =>
    hK.trans hd h'

theorem within_filterM {f : γ → Building Bool} {l : List γ} (h : ∀ x, (f x).Within K) : (l.filterM f).Within K :=
  fun d => settles_filterM (K d) (hK.refl d) fun x d' hd => (h x d').mono (fun _ _ h' => hK.trans hd h') fun _ h' =>
    hK.trans hd h'

end Within

end RestconfApi.Building
