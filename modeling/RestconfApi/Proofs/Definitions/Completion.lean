import RestconfApi.Proofs.Definitions.Sessions

/-!
# Definitions: references that await their definition

A property that is handed out for a node before it has been defined awaits the name of its definition. Whatever is
asked for in between, it gets the name that the definition of the node has in the end, and so do all properties that
are handed out later: while the model of a node is built nothing is bound but what comes before the node, and what has
been bound stays so.
-/

namespace RestconfApi

namespace Definitions

open Building

/-! ### What is bound stays -/

variable {c : Scope} {u d d' d'' : Definitions} {bound bound' : Place → Prop}

/-- A node that is bound shares its name with what stands for it, and nodes are completed with their names. -/
structure Settled (c : Scope) (u d : Definitions) : Prop where
  usages : d.usages = u.usages
  names : ∀ p name, c.schema.Has p → d.names.get? p.address = some name →
    d.names.get? (u.canonical c p).address = some name
  completed : ∀ a name, d.completed.get? a = some name → d.names.get? a = some name

/-- What is bound stays so, and no other nodes are bound than those of which `bound` holds. -/
structure Goes (c : Scope) (u : Definitions) (bound : Place → Prop) (d d' : Definitions) : Prop where
  settled : Settled c u d'
  names : ∀ a name, d.names.get? a = some name → d'.names.get? a = some name
  completed : ∀ a name, d.completed.get? a = some name → d'.completed.get? a = some name
  unbound : ∀ q, c.schema.Has q → ¬bound q → d'.names.get? q.address = d.names.get? q.address

theorem Settled.definitionName (hd : Settled c u d) {p : Place} (hp : c.schema.Has p) :
    d.definitionName c p = d.names.get? (u.canonical c p).address := by
  unfold Definitions.definitionName
  rw [canonical_congr hd.usages]
  split
  · rename_i name hname
    rw [hd.names p name hp hname]
    split <;> rfl
  · rfl

/-- Records, marks and definitions are no concern. -/
theorem Settled.goes (hd : Settled c u d) (husages : d'.usages = d.usages) (hnames : d'.names = d.names)
    (hcompleted : d'.completed = d.completed) : Goes c u bound d d' := by
  refine ⟨⟨husages.trans hd.usages, ?_, ?_⟩, ?_, ?_, fun q _ _ => by rw [hnames]⟩
  · rw [hnames]
    exact hd.names
  · rw [hnames, hcompleted]
    exact hd.completed
  · rw [hnames]
    exact fun _ _ h => h
  · rw [hcompleted]
    exact fun _ _ h => h

namespace Goes

theorem trans (h : Goes c u bound d d') (h' : Goes c u bound d' d'') : Goes c u bound d d'' where
  settled := h'.settled
  names a name hname := h'.names a name (h.names a name hname)
  completed a name hname := h'.completed a name (h.completed a name hname)
  unbound q hq hnot := (h'.unbound q hq hnot).trans (h.unbound q hq hnot)

theorem mono (h : Goes c u bound d d') (hbound : ∀ q, bound q → bound' q) : Goes c u bound' d d' :=
  ⟨h.settled, h.names, h.completed, fun q hq hnot => h.unbound q hq fun hb => hnot (hbound q hb)⟩

end Goes

theorem isCourse_goes (c : Scope) (u : Definitions) (bound : Place → Prop) :
    IsCourse fun d d' => Settled c u d → Goes c u bound d d' where
  refl _ hd := hd.goes rfl rfl rfl
  trans h h' hd := (h hd).trans (h' (h hd).settled)
  noted _ _ hd := hd.goes rfl rfl rfl

/-- A node may be bound to a name that is its own already, and that of what stands for it. -/
theorem Settled.put (hd : Settled c u d) {p : Place} (hp : c.schema.Has p) {name : Scalar}
    (hown : ∀ n, d.names.get? p.address = some n → n = name)
    (hstands : u.canonical c p = p ∨ d.names.get? (u.canonical c p).address = some name)
    {completed : Entries Address Scalar}
    (hold : ∀ a n, d.completed.get? a = some n → completed.get? a = some n)
    (hnew : ∀ a n, completed.get? a = some n → d.completed.get? a = some n ∨ a = p.address ∧ n = name) :
    Goes c u (· = p) d { d with names := d.names.put p.address name, completed } := by
  have hget : ∀ a, (d.names.put p.address name).get? a = if p.address = a then some name else d.names.get? a := by
    intro a
    split
    · rename_i heq
      rw [heq, Entries.get?_put_self]
    · rename_i hne
      exact Entries.get?_put_of_ne (beq_eq_false_iff_ne.mpr hne) _ _
  have hkeep : ∀ a n, d.names.get? a = some n → (d.names.put p.address name).get? a = some n := by
    intro a n hn
    rw [hget]
    split
    · rename_i heq
      rw [hown n (heq ▸ hn)]
    · exact hn
  refine ⟨⟨hd.usages, fun q n hq hn => ?_, fun a n hn => ?_⟩, hkeep, hold, fun q hq hne => ?_⟩
  · dsimp only at hn ⊢
    rw [hget] at hn
    split at hn
    · rename_i heq
      obtain rfl := hp.eq hq heq
      obtain rfl := Option.some.inj hn
      rcases hstands with hself | hstands
      · rw [hself, Entries.get?_put_self]
      · exact hkeep _ _ hstands
    · exact hkeep _ _ (hd.names q n hq hn)
  · rcases hnew a n hn with hn | ⟨rfl, rfl⟩
    · exact hkeep a n (hd.completed a n hn)
    · exact Entries.get?_put_self _ _ _
  · show (d.names.put p.address name).get? q.address = _
    rw [hget, if_neg fun heq => hne (hp.eq hq heq).symm]

/-- A node that stands for itself may be registered as long as it is unbound. -/
theorem register_goes (hd : Settled c u d) {p : Place} (hp : c.schema.Has p) (hself : u.canonical c p = p)
    (hunbound : d.names.get? p.address = none) (model : Model) :
    (register c p model).Leaves d
      (fun name d' => Goes c u (· = p) d d' ∧ d'.names.get? p.address = some name) (Goes c u (· = p) d) := by
  have hbind : ∀ {d₁ : Definitions} {name : Scalar}, d₁.usages = d.usages → d₁.names = d.names →
      d₁.completed = d.completed →
      (do modify fun d => { d with names := d.names.put p.address name }; pure name : Building Scalar).Leaves d₁
        (fun name d' => Goes c u (· = p) d d' ∧ d'.names.get? p.address = some name) (Goes c u (· = p) d) := by
    intro d₁ name husages hnames hcompleted
    have h₁ : Goes c u (· = p) d d₁ := hd.goes husages hnames hcompleted
    refine settles_bind (settles_modify (settles_pure ⟨h₁.trans (h₁.settled.put hp (fun n hn => ?_) (.inl hself)
      (fun _ _ h => h) fun _ _ h => .inl h), Entries.get?_put_self _ _ _⟩))
    rw [hnames, hunbound] at hn
    cases hn
  unfold register
  refine settles_bind (settles_get (settles_bind (leaves_ofLogged (fun name _ => ?_) (hd.goes rfl rfl rfl))))
  refine settles_ite (fun _ => ?_) fun _ => ?_
  · exact settles_bind (settles_modify (settles_bind (settles_note (hbind rfl rfl rfl))))
  · exact settles_bind (settles_note (hbind rfl rfl rfl))

/-- A node may be bound to the name of what stands for it. -/
theorem bindName_goes (hd : Settled c u d) {p : Place} (hp : c.schema.Has p) {name : Scalar}
    (hname : d.names.get? (u.canonical c p).address = some name) :
    (bindName p name).Leaves d (fun _ d' => Goes c u (· = p) d d' ∧ d'.names.get? p.address = some name ∧
      d'.completed.get? p.address = some name) (Goes c u (· = p) d) := by
  have hown : ∀ n, d.names.get? p.address = some n → n = name := fun n hn =>
    Option.some.inj ((hd.names p n hp hn).symm.trans hname)
  refine settles_modify ?_
  cases hcompleted : d.completed.get? p.address with
  | some n =>
    dsimp only
    refine ⟨hd.put hp hown (.inr hname) (fun _ _ h => h) fun _ _ h => .inl h, Entries.get?_put_self _ _ _, ?_⟩
    rw [hcompleted, hown n (hd.completed _ n hcompleted)]
  | none =>
    dsimp only
    refine ⟨hd.put hp hown (.inr hname) (fun a n hn => ?_) fun a n hn => ?_, Entries.get?_put_self _ _ _,
      Entries.get?_put_self _ _ _⟩
    · rw [Entries.get?_put_of_ne (beq_eq_false_iff_ne.mpr fun heq => ?_)]
      · exact hn
      · rw [← heq, hcompleted] at hn
        cases hn
    · by_cases ha : p.address = a
      · rw [← ha, Entries.get?_put_self] at hn
        exact .inr ⟨ha.symm, (Option.some.inj hn).symm⟩
      · rw [Entries.get?_put_of_ne (beq_eq_false_iff_ne.mpr ha)] at hn
        exact .inl hn

/-! ### Definitions -/

/-- `q` is `p` or comes before it in the order of expansion. -/
def NoLater (M : Expansion.Expanded) (p q : Place) : Prop := q = p ∨ q.Precedes (Expansion.rank M) p

theorem NoLater.precedes {M : Expansion.Expanded} {p q r : Place} (hr : NoLater M q r)
    (h : q.Precedes (Expansion.rank M) p) : r.Precedes (Expansion.rank M) p :=
  hr.elim (fun heq => heq ▸ h) fun hr => hr.trans h

/-- A node that has been defined is bound and completed, and nothing that comes after it has been bound. -/
def Completes (c : Scope) (u : Definitions) (M : Expansion.Expanded) (define : Define) : Prop :=
  ∀ p d, c.schema.Has p → Settled c u d →
    (define p).Leaves d
      (fun name d' => Goes c u (NoLater M p) d d' ∧ d'.names.get? p.address = some name ∧
        d'.completed.get? p.address = some name)
      (Goes c u (NoLater M p) d)

section

variable {augmented : Prop} {declared : Schema} {M : Expansion.Expanded}
  (hfrom : Schema.LoadedFrom augmented declared M c.schema)
  (hknows : c.strategy = .optimizing → c.schema.KnowsGroupings)
include hfrom

/-- What stands for a node does not come after it. -/
theorem NoLater.of_canonical {p q : Place} (hp : c.schema.Has p) (h : NoLater M (u.canonical c p) q) :
    NoLater M p q := by
  have hbehind := (mirrors_canonical (u := u) hfrom.traced.ranked True hp).behind
  rcases hfrom.traced.rank_of_isBehind hp hbehind with heq | ⟨hrank, -⟩
  · rwa [heq] at h
  · exact .inr (h.precedes (.inl hrank))

include hknows

/-- What the model of a node asks for comes before the node. -/
theorem precedes_of_asks {p q : Place} (hp : c.schema.Has p) (h : Asks c p q) :
    c.schema.Has q ∧ q.Precedes (Expansion.rank M) p := by
  rcases h with hq | ⟨hc, x, hx, qname, hchain, hq⟩
  · exact ⟨hp.dataChild hq, hfrom.traced.precedes_of_mem_dataChildren hp hq⟩
  · obtain ⟨g, hg, -, hrank, -⟩ := hfrom.traced.exists_dataSupplier (hknows hc) hp hx hchain
    obtain rfl := Option.some.inj (hq.symm.trans hg)
    exact ⟨Schema.has_of_groupingNamed? hq, .inl hrank⟩

/-- While the model of a node is built, nothing but what comes before it is bound. -/
theorem marked_buildModel_within {define : Define} (hdefine : Completes c u M define) {p : Place}
    (hp : c.schema.Has p) : (marked p.address (buildModel c define p)).Within fun d d' =>
      Settled c u d → Goes c u (fun q => q.Precedes (Expansion.rank M) p) d d' := by
  have hcourse := isCourse_goes c u fun q => q.Precedes (Expansion.rank M) p
  refine within_marked hcourse (buildModel_within hcourse fun q hq d => settles_of_imp fun hd => ?_)
    (fun d underway hd => hd.goes rfl rfl rfl) p.address
  obtain ⟨hqhas, hprecedes⟩ := precedes_of_asks hfrom hknows hp hq
  exact (hdefine q d hqhas hd).mono (fun name d' h => h.1.mono fun r hr => hr.precedes hprecedes)
    fun d' h => h.mono fun r hr => hr.precedes hprecedes

/-- Definitions complete what they define, however deep they ask for each other. -/
theorem defineFrom_completes (fuel : Nat) : Completes c u M (defineFrom c fuel) := by
  induction fuel with
  | zero => exact fun _ _ _ hd => settles_fail (hd.goes rfl rfl rfl)
  | succ fuel ih =>
    intro p d hp hd
    have htarget : c.schema.Has (u.canonical c p) := has_canonical hp
    -- whatever gives the name of what stands for the node, the node itself is bound in the end
    have hbind : ∀ {d₁ : Definitions} {name : Scalar}, Goes c u (NoLater M p) d d₁ →
        d₁.names.get? (u.canonical c p).address = some name →
        (do bindName p name; pure name : Building Scalar).Leaves d₁
          (fun name d' => Goes c u (NoLater M p) d d' ∧ d'.names.get? p.address = some name ∧
            d'.completed.get? p.address = some name)
          (Goes c u (NoLater M p) d) := by
      intro d₁ name h₁ hname
      refine settles_bind ((bindName_goes h₁.settled hp hname).mono (fun _ d₂ h₂ => ?_)
        fun d₂ h₂ => h₁.trans (h₂.mono fun q hq => .inl hq))
      exact settles_pure ⟨h₁.trans (h₂.1.mono fun q hq => .inl hq), h₂.2⟩
    unfold defineFrom
    refine settles_bind (settles_get ?_)
    rw [canonical_congr hd.usages]
    dsimp only
    split
    · rename_i name hname
      exact settles_bind (settles_pure (hbind (hd.goes rfl rfl rfl) hname))
    · rename_i hunbound
      have hbefore : ∀ q, q.Precedes (Expansion.rank M) (u.canonical c p) → NoLater M p q :=
        fun q hq => NoLater.of_canonical hfrom hp (.inr hq)
      have hself : ∀ q, q = u.canonical c p → NoLater M p q := fun q hq => NoLater.of_canonical hfrom hp (.inl hq)
      refine settles_bind ((marked_buildModel_within hfrom hknows ih htarget d).mono (fun model d₁ h₁ => ?_)
        fun d₁ h₁ => (h₁ hd).mono hbefore)
      replace h₁ := h₁ hd
      -- what stands for the node has not been bound while its model was built
      have hstill := h₁.unbound _ htarget Place.Precedes.irrefl
      rw [hunbound] at hstill
      have hcanonical := canonical_canonical (u := u) hfrom.traced.ranked hp
      refine settles_bind ((register_goes h₁.settled htarget hcanonical hstill model).mono (fun name d₂ h₂ => ?_)
        fun d₂ h₂ => (h₁.mono hbefore).trans (h₂.mono hself))
      exact hbind ((h₁.mono hbefore).trans (h₂.1.mono hself)) h₂.2

theorem define_completes : Completes c u M (Definitions.define c) := defineFrom_completes hfrom hknows _

end

/-! ### Requests -/

/-- A property that has been handed out for a node awaits its definition, or points at the name that is bound to what
stands for it. -/
def IsFor (c : Scope) (u d : Definitions) (p : Place) (property : Property) : Prop :=
  property = { awaits := some p.address } ∨
    ∃ name, property = { ref := some (.scalar name) } ∧ d.names.get? (u.canonical c p).address = some name

theorem IsFor.goes {p : Place} {property : Property} (h : IsFor c u d p property) (hgoes : Goes c u bound d d') :
    IsFor c u d' p property := by
  refine h.imp id ?_
  rintro ⟨name, href, hname⟩
  exact ⟨name, href, hgoes.names _ name hname⟩

/-- What an answer says of a request for a reference. -/
def Hands (c : Scope) (u d : Definitions) (r : Request) (answer : Except Failure Answer) : Prop :=
  ∀ p, r = .reference p → ∃ property, answer = .ok (.handed (some property)) ∧ IsFor c u d p property

theorem Hands.goes {r : Request} {answer : Except Failure Answer} (h : Hands c u d r answer)
    (hgoes : Goes c u bound d d') : Hands c u d' r answer := by
  intro p hp
  obtain ⟨property, hanswer, hproperty⟩ := h p hp
  exact ⟨property, hanswer, hproperty.goes hgoes⟩

/-- Once a node has been defined, whatever has been handed out for it points at its name. -/
theorem IsFor.current {p : Place} {property : Property} (h : IsFor c u d p property) {name : Scalar}
    (hname : d.names.get? (u.canonical c p).address = some name) (hcompleted : d.completed.get? p.address = some name) :
    property.mapAll d.current = { ref := some (.scalar name) } := by
  rcases h with rfl | ⟨n, rfl, hn⟩
  · show d.current { awaits := some p.address } = _
    rw [Definitions.current, Option.bind_some, hcompleted]
  · obtain rfl := Option.some.inj (hn.symm.trans hname)
    rfl

section

variable {augmented : Prop} {declared : Schema} {M : Expansion.Expanded}
  (hfrom : Schema.LoadedFrom augmented declared M c.schema)
  (hknows : c.strategy = .optimizing → c.schema.KnowsGroupings)
include hfrom hknows

/-- Whatever is asked about a node, and whether or not it fails, what is bound stays so. -/
theorem answer_settles (hd : Settled c u d) {r : Request} {q : Place} (hr : r.place? = some q) (hq : c.schema.Has q) :
    (r.answer c).Settles d (fun answer d' => Goes c u (fun _ => True) d d' ∧ Hands c u d' r (.ok answer))
      fun e d' => Goes c u (fun _ => True) d d' ∧ Hands c u d' r (.error e) := by
  have hcourse := isCourse_goes c u fun _ => True
  have hdefine : ∀ x, c.schema.Has x → (Definitions.define c x).Within fun d d' =>
      Settled c u d → Goes c u (fun _ => True) d d' := fun x hx d₁ => settles_of_imp fun hd₁ =>
    (define_completes hfrom hknows x d₁ hx hd₁).mono (fun _ _ h => h.1.mono fun _ _ => trivial)
      fun _ h => h.mono fun _ _ => trivial
  -- what is no request for a reference hands out none
  have hother : (∀ p, r ≠ .reference p) →
      ((r.answer c).Within fun d d' => Settled c u d → Goes c u (fun _ => True) d d') →
      (r.answer c).Settles d (fun answer d' => Goes c u (fun _ => True) d d' ∧ Hands c u d' r (.ok answer))
        fun e d' => Goes c u (fun _ => True) d d' ∧ Hands c u d' r (.error e) := fun hne hwithin =>
    Settles.mono (hwithin d) (fun _ _ h => ⟨h hd, fun p hp => absurd hp (hne p)⟩) fun _ _ h =>
      ⟨h hd, fun p hp => absurd hp (hne p)⟩
  cases r with
  | process i => cases hr
  | reference p =>
    obtain rfl := Option.some.inj hr
    unfold Request.answer Definitions.reference
    refine settles_bind (settles_bind (settles_get ?_))
    rw [hd.definitionName hq]
    split
    · rename_i name hname
      refine settles_pure (settles_pure ⟨hd.goes rfl rfl rfl, ?_⟩)
      rintro _ ⟨⟩
      exact ⟨_, rfl, .inr ⟨name, rfl, hname⟩⟩
    · refine settles_pure (settles_pure ⟨hd.goes rfl rfl rfl, ?_⟩)
      rintro _ ⟨⟩
      exact ⟨_, rfl, .inl rfl⟩
  | define p =>
    obtain rfl := Option.some.inj hr
    exact hother (by simp) ((hdefine p hq).bind hcourse fun name => within_pure hcourse _)
  | name p => exact hother (by simp) ((within_get hcourse).bind hcourse fun d => within_pure hcourse _)
  | property p =>
    obtain rfl := Option.some.inj hr
    exact hother (by simp) ((propertyFor_within hcourse (hdefine p hq)).bind hcourse fun q => within_pure hcourse _)
  | model p =>
    obtain rfl := Option.some.inj hr
    refine hother (by simp) ((buildModel_within hcourse fun x hx => ?_).bind hcourse fun m => within_pure hcourse _)
    exact hdefine x (precedes_of_asks hfrom hknows hq hx).1

end

/-! ### Sessions -/

namespace Session

/-- What is known of a session with the requests made so far. -/
structure Traces (c : Scope) (u : Definitions) (requests : List Request) (x : Session) : Prop where
  settled : Settled c u x.definitions
  length : x.answers.length = requests.length
  handed : ∀ r answer, (r, answer) ∈ requests.zip x.answers → Hands c u x.definitions r answer

theorem untouched_ask_process (x : Session) (i : Nat) :
    Generation.Untouched x.definitions (x.ask c (.process i)).definitions := by
  rw [ask_eq]
  exact Settles.run (R := fun _ d' => Generation.Untouched x.definitions d')
    (settles_bind ((Generation.processModule_settles c.schema i x.definitions).mono (fun _ _ h => settles_pure h)
      fun _ _ h => h.2))

theorem untouched_askAll_process (x : Session) (modules : List Nat) :
    Generation.Untouched x.definitions (x.askAll c (modules.map Request.process)).definitions := by
  induction modules generalizing x with
  | nil => exact .refl _
  | cons i modules ih => exact (untouched_ask_process x i).trans (ih (x.ask c (.process i)))

theorem length_askAll (x : Session) (requests : List Request) :
    (x.askAll c requests).answers.length = x.answers.length + requests.length := by
  induction requests generalizing x with
  | nil => rfl
  | cons r requests ih =>
    refine (ih (x.ask c r)).trans ?_
    rw [ask_eq, List.length_append, List.length_cons, List.length_nil, List.length_cons]
    omega

/-- Before any definition is built, nothing is bound. -/
theorem traces_process (document : Document) (modules : List Nat) {x : Session}
    (hx : x = Session.askAll c (modules.map Request.process) ⟨{ document }, []⟩) :
    Traces c x.definitions (modules.map Request.process) x := by
  have huntouched := untouched_askAll_process (c := c) ⟨{ document }, []⟩ modules
  have hlength := length_askAll (c := c) ⟨{ document }, []⟩ (modules.map Request.process)
  rw [← hx] at huntouched hlength
  have hnames : x.definitions.names = [] := huntouched.names
  have hcompleted : x.definitions.completed = [] := huntouched.completed
  refine ⟨⟨rfl, ?_, ?_⟩, hlength.trans (Nat.zero_add _), fun r answer hmem p hp => ?_⟩
  · simp [hnames]
  · simp [hcompleted]
  · obtain ⟨i, -, hi⟩ := List.mem_map.mp (List.of_mem_zip hmem).1
    rw [hp] at hi
    cases hi

section

variable {augmented : Prop} {declared : Schema} {M : Expansion.Expanded}
  (hfrom : Schema.LoadedFrom augmented declared M c.schema)
  (hknows : c.strategy = .optimizing → c.schema.KnowsGroupings)
include hfrom hknows

theorem Traces.ask {requests : List Request} {x : Session} (h : Traces c u requests x) {r : Request} {q : Place}
    (hr : r.place? = some q) (hq : c.schema.Has q) :
    Traces c u (requests ++ [r]) (x.ask c r) ∧
      Goes c u (fun _ => True) x.definitions (x.ask c r).definitions := by
  rw [ask_eq]
  obtain ⟨hgoes, hhands⟩ := Settles.run
    (R := fun result d' => Goes c u (fun _ => True) x.definitions d' ∧ Hands c u d' r result)
    (answer_settles hfrom hknows h.settled hr hq)
  refine ⟨⟨hgoes.settled, by simp [h.length], fun r' answer hmem => ?_⟩, hgoes⟩
  dsimp only at hmem ⊢
  rw [List.zip_append h.length.symm] at hmem
  rcases List.mem_append.mp hmem with hmem | hmem
  · exact (h.handed r' answer hmem).goes hgoes
  · obtain ⟨rfl, rfl⟩ := Prod.mk.inj (List.mem_singleton.mp hmem)
    exact hhands

theorem Traces.askAll {requests more : List Request} {x : Session} (h : Traces c u requests x)
    (hmore : ∀ r ∈ more, ∃ q, r.place? = some q ∧ c.schema.Has q) :
    Traces c u (requests ++ more) (x.askAll c more) ∧
      Goes c u (fun _ => True) x.definitions (x.askAll c more).definitions := by
  induction more generalizing requests x with
  | nil => exact ⟨by rwa [List.append_nil], h.settled.goes rfl rfl rfl⟩
  | cons r more ih =>
    obtain ⟨q, hr, hq⟩ := hmore r List.mem_cons_self
    obtain ⟨hasked, hgoes⟩ := h.ask hfrom hknows hr hq
    obtain ⟨hall, hgoes'⟩ := ih hasked fun r' hr' => hmore r' (List.mem_cons_of_mem _ hr')
    rw [List.append_assoc] at hall
    exact ⟨hall, hgoes.trans hgoes'⟩

end

theorem askAll_append (c : Scope) (requests more : List Request) (x : Session) :
    x.askAll c (requests ++ more) = (x.askAll c requests).askAll c more :=
  List.foldl_append

theorem answers_prefix_askAll (x : Session) (requests : List Request) :
    x.answers <+: (x.askAll c requests).answers := by
  induction requests generalizing x with
  | nil => exact List.prefix_refl _
  | cons r requests ih => exact (List.prefix_append _ _).trans (ih (x.ask c r))

/-- Each request is answered from the definitions that those before it have left. -/
theorem getElem?_answers_askAll (x : Session) (before after : List Request) (r : Request) :
    (x.askAll c (before ++ r :: after)).answers[x.answers.length + before.length]? =
      some (r.answer c (x.askAll c before).definitions).1 := by
  rw [askAll_append]
  obtain ⟨more, hmore⟩ := answers_prefix_askAll (c := c) ((x.askAll c before).ask c r) after
  show (((x.askAll c before).ask c r).askAll c after).answers[_]? = _
  rw [← hmore, ask_eq, ← length_askAll, List.append_assoc, List.getElem?_append_right (Nat.le_refl _), Nat.sub_self]
  rfl

end Session

/-- A node of which what stands for it is bound is defined by that name. -/
theorem answer_define_of_bound {p : Place} {name : Scalar} (h : d.names.get? (d.canonical c p).address = some name) :
    ((Request.define p).answer c d).1 = .ok (.named (some name)) := by
  refine Settles.eq_ok (settles_bind ?_)
  unfold Definitions.define defineFrom
  refine settles_bind (settles_get ?_)
  dsimp only
  split
  · rename_i n hn
    obtain rfl := Option.some.inj (hn.symm.trans h)
    exact settles_bind (settles_pure (settles_bind (settles_modify (settles_pure (settles_pure rfl)))))
  · rename_i hnone
    rw [h] at hnone
    cases hnone

theorem answer_reference_of_named {p : Place} {name : Scalar} (h : d.definitionName c p = some name) :
    ((Request.reference p).answer c d).1 = .ok (.handed (some { ref := some (.scalar name) })) := by
  refine Settles.eq_ok (settles_bind ?_)
  unfold Definitions.reference
  refine settles_bind (settles_get ?_)
  rw [h]
  exact settles_pure (settles_pure rfl)

/-- The name that a definition has been answered with is that of the node. -/
theorem bound_of_answer {augmented : Prop} {declared : Schema} {M : Expansion.Expanded}
    (hfrom : Schema.LoadedFrom augmented declared M c.schema)
    (hknows : c.strategy = .optimizing → c.schema.KnowsGroupings) (hd : Settled c u d) {p : Place}
    (hp : c.schema.Has p) {name : Scalar} (hname : ((Request.define p).answer c d).1 = .ok (.named (some name))) :
    ((Request.define p).answer c d).2.names.get? p.address = some name ∧
      ((Request.define p).answer c d).2.completed.get? p.address = some name := by
  have hanswer : ((Request.define p).answer c).Ensures d fun answer d' => ∀ n, answer = .named (some n) →
      d'.names.get? p.address = some n ∧ d'.completed.get? p.address = some n := by
    refine ensures_bind ((define_completes hfrom hknows p d hp hd).ok.mono fun n d' h => ensures_pure fun n' heq => ?_)
    obtain rfl := Option.some.inj (Answer.named.inj heq)
    exact h.2
  exact hanswer _ _ (Prod.ext hname rfl) name rfl

/-- Whatever is asked of the definitions of a loaded schema before and after a node has been defined: every property
that has been handed out for the node points at the name of its definition, and the node is defined by that name again.
Under the optimizing strategy groupings have to be found by their qualified names. -/
theorem completes_of_load {datum : Datum} {c : Scope} (hload : (Schema.load datum).result = .ok c.schema)
    (hknows : c.strategy = .optimizing → c.schema.KnowsGroupings) (document : Document) {modules : List Nat}
    {before after : List Request} (hplaces : ∀ r ∈ before ++ after, ∃ q, r.place? = some q ∧ c.schema.Has q)
    {p : Place} (hp : c.schema.Has p) {x y : Session} {name : Scalar}
    (hx : x = Session.askAll c (modules.map Request.process ++ before) ⟨{ document }, []⟩)
    (hname : ((Request.define p).answer c x.definitions).1 = .ok (.named (some name)))
    (hy : y = (x.ask c (.define p)).askAll c after) :
    (∀ answer, (Request.reference p, answer) ∈
        (modules.map Request.process ++ before ++ .define p :: after).zip y.answers →
        answer.map (Answer.current y.definitions) = .ok (.handed (some { ref := some (.scalar name) }))) ∧
      ((Request.define p).answer c y.definitions).1 = .ok (.named (some name)) ∧
      ((Request.reference p).answer c y.definitions).1 = .ok (.handed (some { ref := some (.scalar name) })) := by
  obtain ⟨declared, M, hfrom⟩ := Schema.exists_loadedFrom hload
  rw [Session.askAll_append] at hx
  obtain ⟨hbefore, -⟩ := (Session.traces_process document modules rfl).askAll hfrom hknows
    fun r hr => hplaces r (List.mem_append_left _ hr)
  rw [← hx] at hbefore
  obtain ⟨hasked, -⟩ := hbefore.ask (r := .define p) hfrom hknows rfl hp
  obtain ⟨hafter, hgoes⟩ := hasked.askAll hfrom hknows fun r hr => hplaces r (List.mem_append_right _ hr)
  rw [← hy] at hafter hgoes
  -- the name of the node in the end, and that of what stands for it
  obtain ⟨hbound, hcompleted⟩ := bound_of_answer hfrom hknows hbefore.settled hp hname
  replace hbound := hgoes.names _ name hbound
  replace hcompleted := hgoes.completed _ name hcompleted
  have hstands := hafter.settled.names p name hp hbound
  refine ⟨fun answer hmem => ?_, ?_, ?_⟩
  · rw [List.append_cons] at hmem
    obtain ⟨property, rfl, hproperty⟩ := hafter.handed _ answer hmem p rfl
    show Except.ok (Answer.handed (some (property.mapAll y.definitions.current))) = _
    rw [hproperty.current hstands hcompleted]
  · rw [← canonical_congr hafter.settled.usages] at hstands
    exact answer_define_of_bound hstands
  · exact answer_reference_of_named ((hafter.settled.definitionName hp).trans hstands)

theorem answer_reference_of_unnamed {p : Place} (h : d.definitionName c p = none) :
    ((Request.reference p).answer c d).1 = .ok (.handed (some { awaits := some p.address })) := by
  refine Settles.eq_ok (settles_bind ?_)
  unfold Definitions.reference
  refine settles_bind (settles_get ?_)
  rw [h]
  exact settles_pure (settles_pure rfl)

/-- The answer to a definition is the name that it gives. -/
theorem answer_define_of_ok {p : Place} {name : Scalar} (h : (Definitions.define c p d).1 = .ok name) :
    ((Request.define p).answer c d).1 = .ok (.named (some name)) := by
  show ((do
    let name ← Definitions.define c p
    pure (Answer.named (some name)) : Building Answer) d).1 = _
  rw [run_bind]
  rcases hrun : Definitions.define c p d with ⟨result, d'⟩
  rw [hrun] at h
  obtain rfl : result = .ok name := h
  rfl

end Definitions

open Definitions Example

/-- Two containers with copies of the container of a shared grouping. -/
def Example.doubled : Datum :=
  document [
    ("groupings", [grouping "g" [container "t" [] [leaf "k"]]]),
    ("data", [container "x" ["g"], container "y" ["g"]])]

/-- A reference to the one copy awaits its definition until after the other copy has been defined. -/
theorem completes_of_load_doubled :
    ∃ c p q name x y, (Schema.load Example.doubled).result = .ok c.schema ∧
      (c.strategy = .optimizing → c.schema.KnowsGroupings) ∧ c.schema.Has p ∧ c.schema.Has q ∧
      x = Session.askAll c ([0].map Request.process ++ [.reference p, .define q]) ⟨{}, []⟩ ∧
      ((Request.define p).answer c x.definitions).1 = .ok (.named (some name)) ∧
      y = (x.ask c (.define p)).askAll c [.reference q] ∧
      y.answers[1]? = some (.ok (.handed (some { awaits := some p.address }))) ∧
      ((Request.reference p).answer c y.definitions).1 = .ok (.handed (some { ref := some (.scalar name) })) ∧
      ∀ answer, y.answers[1]? = some answer →
        answer.map (Answer.current y.definitions) = .ok (.handed (some { ref := some (.scalar name) })) := by
  have htest : ((Schema.load Example.doubled).result.toOption.any fun s =>
      s.modules.length = 1 && s.modules.all (·.name == .text "m") &&
        (Groupings.ofSchema s).result.toOption.any fun groupings =>
          (s.node? "/m:x/m:t" none).any fun p => (s.node? "/m:y/m:t" none).any fun q =>
            let c : Scope := ⟨s, groupings, .optimizing, none⟩
            let x := Session.askAll c [.process 0, .reference p, .define q] ⟨{}, []⟩
            ((Session.askAll c [.process 0] ⟨{}, []⟩).definitions.definitionName c p).isNone &&
              (Definitions.define c p x.definitions).1.toOption.isSome) = true := by
    decide +kernel
  obtain ⟨s, hload, htest⟩ := exists_of_any htest
  simp only [Option.any_eq_true, List.all_eq_true, Bool.and_eq_true, decide_eq_true_eq] at htest
  obtain ⟨⟨hlength, hnames⟩, groupings, -, p, hp, q, hq, hawaits, hdefines⟩ := htest
  obtain ⟨name, hname⟩ := exists_of_isSome hdefines
  obtain ⟨m, hm⟩ := List.length_eq_one_iff.mp hlength
  have hnamed : s.IsNamed := Schema.isNamed_of_single hm
    (Datum.eq_text_of_beq (hnames m (by simp [hm]))) (by decide)
  have hphas := (Schema.isTarget_of_node? hp).has
  have hqhas := (Schema.isTarget_of_node? hq).has
  have hknows : Strategy.optimizing = .optimizing → s.KnowsGroupings := by
    obtain ⟨declared, M, hfrom⟩ := Schema.exists_loadedFrom hload
    exact fun _ => hnamed.knowsGroupings hfrom
  have hplaces : ∀ r ∈ [Request.reference p, .define q] ++ [.reference q], ∃ q, r.place? = some q ∧ s.Has q := by
    simp only [List.cons_append, List.nil_append, List.forall_mem_cons, Request.place?]
    exact ⟨⟨p, rfl, hphas⟩, ⟨q, rfl, hqhas⟩, ⟨q, rfl, hqhas⟩, by simp⟩
  let c : Scope := ⟨s, groupings, .optimizing, none⟩
  obtain ⟨x, hx⟩ : ∃ x, x = Session.askAll c ([0].map Request.process ++ [.reference p, .define q]) ⟨{}, []⟩ := ⟨_, rfl⟩
  have hanswer : ((Request.define p).answer c x.definitions).1 = .ok (.named (some name)) := by
    rw [hx]
    exact answer_define_of_ok hname
  have hcompletes := completes_of_load (c := c) hload hknows {} hplaces hphas hx hanswer rfl
  obtain ⟨hhanded, -, hagain⟩ := hcompletes
  have hfirst : ((x.ask c (.define p)).askAll c [.reference q]).answers[1]? =
      some (.ok (.handed (some { awaits := some p.address }))) := by
    have hx' : x = Session.askAll c [.process 0, .reference p, .define q] ⟨{}, []⟩ := hx
    have hask : x.ask c (.define p) = x.askAll c [.define p] := rfl
    rw [hask, ← Session.askAll_append, hx', ← Session.askAll_append,
      ← answer_reference_of_unnamed (Option.isNone_iff_eq_none.mp hawaits)]
    exact Session.getElem?_answers_askAll ⟨{}, []⟩ [.process 0] [.define q, .define p, .reference q] (.reference p)
  refine ⟨c, p, q, name, x, _, hload, hknows, hphas, hqhas, hx, hanswer, rfl, hfirst, hagain, fun answer hget => ?_⟩
  exact hhanded answer (List.mem_of_getElem? (List.getElem?_zip_eq_some.mpr ⟨rfl, hget⟩))

/-- A module whose name ends as another one is called, and a grouping of the other that uses its grouping. -/
def Example.misread : Datum :=
  .object [("modules", .list [
    .object [("name", .text "m:1"), ("prefix", .text "p"), ("groupings", .list [grouping "g" [leaf "q"]]),
      ("data", .list [container "x" ["g"]])],
    module "1" [("groupings", [grouping "g" [container "a" ["p:g"]]])]])]

/-- The qualified name of the shared grouping is read as that of the one that is being defined, which is defined anew
while it is underway: what has been handed out for it before gets the name of that definition, and keeps it when the
grouping is defined by another name in the end. -/
theorem not_completes_of_load_misread :
    ∃ c p x y name answer, (Schema.load Example.misread).result = .ok c.schema ∧
      (c.schema.modules.Pairwise fun m m' => (m.name == m'.name) = false) ∧ c.schema.Has p ∧
      (Groupings.ofSchema c.schema).result = .ok c.groupings ∧
      x = Session.askAll c [.process 0, .reference p] ⟨{}, []⟩ ∧
      ((Request.define p).answer c x.definitions).1 = .ok (.named (some name)) ∧
      y = x.ask c (.define p) ∧
      (Request.reference p, answer) ∈ [Request.process 0, .reference p, .define p].zip y.answers ∧
      answer.map (Answer.current y.definitions) ≠ .ok (.handed (some { ref := some (.scalar name) })) := by
  have htest : ((Schema.load Example.misread).result.toOption.any fun s =>
      decide (s.modules.Pairwise fun m m' => (m.name == m'.name) = false) &&
        (Groupings.ofSchema s).result.toOption.any fun groupings =>
          (s.tops 1 .groupings).any fun p =>
            let c : Scope := ⟨s, groupings, .optimizing, none⟩
            let x := Session.askAll c [.process 0, .reference p] ⟨{}, []⟩
            ((Session.askAll c [.process 0] ⟨{}, []⟩).definitions.definitionName c p).isNone &&
              ((Definitions.define c p x.definitions).1.toOption.any (· == .text "1:g1")) &&
                (((x.ask c (.define p)).definitions.completed.get? p.address).any (· == .text "1:g"))) = true := by
    decide +kernel
  obtain ⟨s, hload, htest⟩ := exists_of_any htest
  simp only [Bool.and_eq_true, decide_eq_true_eq] at htest
  obtain ⟨hmodules, htest⟩ := htest
  obtain ⟨groupings, hgroupings, htest⟩ := exists_of_any htest
  simp only [List.any_eq_true, Bool.and_eq_true] at htest
  obtain ⟨p, hp, ⟨hawaits, hdefines⟩, hcompleted⟩ := htest
  rw [Option.any_eq_true] at hcompleted
  obtain ⟨n, hcompleted, hn⟩ := hcompleted
  obtain ⟨name, hname, hg1⟩ := exists_of_any hdefines
  let c : Scope := ⟨s, groupings, .optimizing, none⟩
  obtain ⟨x, hx⟩ : ∃ x, x = Session.askAll c [.process 0, .reference p] ⟨{}, []⟩ := ⟨_, rfl⟩
  have hfirst : (x.ask c (.define p)).answers[1]? = some (.ok (.handed (some { awaits := some p.address }))) := by
    rw [hx, ← answer_reference_of_unnamed (Option.isNone_iff_eq_none.mp hawaits)]
    exact Session.getElem?_answers_askAll ⟨{}, []⟩ [.process 0] [.define p] (.reference p)
  refine ⟨c, p, x, _, name, _, hload, hmodules, Schema.has_of_mem_tops hp, hgroupings, hx, ?_, rfl,
    List.mem_of_getElem? (List.getElem?_zip_eq_some.mpr ⟨rfl, hfirst⟩), fun heq => ?_⟩
  · rw [hx]
    exact answer_define_of_ok hname
  · -- the property has got the name of the definition that was made on the way
    have hcurrent : (x.ask c (.define p)).definitions.current { awaits := some p.address } =
        { ref := some (.scalar n) } := by
      rw [Definitions.current, Option.bind_some, hx, hcompleted]
    have hsame : ({ ref := some (.scalar n) } : Property) = { ref := some (.scalar name) } := by
      rw [← hcurrent]
      exact Option.some.inj (Answer.handed.inj (Except.ok.inj heq))
    obtain rfl := Datum.scalar.inj (Option.some.inj (congrArg Property.ref hsame))
    rw [Scalar.eq_text_of_beq hg1] at hn
    exact absurd hn (by decide)

end RestconfApi
