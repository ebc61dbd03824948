import RestconfApi.Proofs.Definitions.Following
import RestconfApi.Proofs.Generation.Outcome

/-!
# Definitions: sessions

A session puts requests to the definitions that are built over a document, for any nodes and in any order, and goes
on after a request that fails. Whatever has been asked, the definitions are in order, and what was there before a
request is there after it.
-/

namespace RestconfApi

namespace Definitions

open Building

/-! ### Requests -/

/-- What the definitions can be asked for: to process a module, and for a node to define it, a property that points
at it, the name of its definition, its property as a field, and its model. -/
inductive Request where
  | process (i : Nat)
  | define (p : Place)
  | reference (p : Place)
  | name (p : Place)
  | property (p : Place)
  | model (p : Place)

def Request.place? : Request → Option Place
  | .process _ => none
  | .define p | .reference p | .name p | .property p | .model p => some p

inductive Answer where
  | done
  | named (name : Option Scalar)
  | handed (property : Option Property)
  | built (model : Model)

/-- The names that an answer points at. -/
def Answer.refs : Answer → List Name
  | .done => []
  | .named name => name.toList.map Datum.scalar
  | .handed property => (property.map Property.refs).getD []
  | .built model => model.refs

/-- The answer as it stands by now, with a property completed that awaited a definition. -/
def Answer.current (d : Definitions) : Answer → Answer
  | .handed property => .handed (property.map (Property.mapAll d.current))
  | answer => answer

variable (c : Scope)

def Request.answer : Request → Building Answer
  | .process i => do
    processModule c.schema i
    pure .done
  | .define p => do
    let name ← Definitions.define c p
    pure (.named (some name))
  | .reference p => do
    let property ← Definitions.reference c p
    pure (.handed (some property))
  | .name p => do
    let d ← get
    pure (.named (d.definitionName c p))
  | .property p => do
    let property ← propertyFor c (Definitions.define c) p
    pure (.handed property)
  | .model p => do
    let model ← buildModel c (Definitions.define c) p
    pure (.built model)

/-- The definitions with the answers to the requests made so far. -/
structure Session where
  definitions : Definitions
  answers : List (Except Failure Answer) := []

namespace Session

def ask (x : Session) (r : Request) : Session :=
  let (answer, definitions) := r.answer c x.definitions
  ⟨definitions, x.answers ++ [answer]⟩

theorem ask_eq (x : Session) (r : Request) :
    x.ask c r = ⟨(r.answer c x.definitions).2, x.answers ++ [(r.answer c x.definitions).1]⟩ := rfl

def askAll (requests : List Request) (x : Session) : Session := requests.foldl (ask c) x

/-- Nothing is underway, every name that is bound is that of a definition, definitions point only at definitions
registered before them, and whatever has been handed out points at definitions. -/
structure IsOrderly (x : Session) : Prop where
  idle : x.definitions.underway = []
  names : ∀ a name, x.definitions.names.get? a = some name → x.definitions.models.Defines name
  layered : x.definitions.models.Layered
  answers : ∀ answer, .ok answer ∈ x.answers →
    x.definitions.models.Covers (answer.current x.definitions).refs

/-- What a request keeps: the definitions there are, and the name of a node that it fails to define if modules are
told apart by their names. -/
structure Keeps (r : Request) (x y : Session) : Prop where
  models : x.definitions.models <+: y.definitions.models
  names : c.schema.IsNamed → ∀ p e, r = .define p → y.answers = x.answers ++ [.error e] →
    y.definitions.names.get? p.address = x.definitions.names.get? p.address ∧
      y.definitions.definitionName c p = x.definitions.definitionName c p

end Session

/-! ### Single requests -/

variable {c} {d d' : Definitions}

/-- Completing properties adds names that are bound alone. -/
theorem IsCoherent.covers_current (hd : IsCoherent d) :
    ∀ q : Property, d.models.Covers q.refs → d.models.Covers (q.mapAll d.current).refs := by
  have hcurrent : ∀ q : Property, d.models.Covers q.refs → d.models.Covers (d.current q).refs := by
    intro q hq
    unfold Definitions.current
    split
    · rename_i name hname
      obtain ⟨a, -, hname⟩ := Option.bind_eq_some_iff.mp hname
      have hdefines := hd.completed a name hname
      obtain ⟨type, format, ref, awaits, items, enum, description, readOnly, extensions⟩ := q
      intro r hr
      cases items with
      | none => exact ⟨name, by simpa [Property.refs] using hr, hdefines⟩
      | some i =>
        rcases List.mem_cons.mp hr with rfl | hr
        · exact ⟨name, rfl, hdefines⟩
        · exact hq r (List.mem_append_right _ hr)
    · exact hq
  intro q
  induction q using Property.refs.induct with
  | case1 type format ref awaits enum description readOnly extensions =>
    exact hcurrent _
  | case2 type format ref awaits q enum description readOnly extensions ih =>
    intro hq
    refine hcurrent _ fun r hr => ?_
    rcases List.mem_append.mp hr with hr | hr
    · exact hq r (List.mem_append_left _ hr)
    · exact ih (fun r hr => hq r (List.mem_append_right _ hr)) r hr

theorem IsCoherent.covers_answer (hd : IsCoherent d) {answer : Answer} (h : d.models.Covers answer.refs) :
    d.models.Covers (answer.current d).refs := by
  cases answer with
  | handed property =>
    cases property with
    | none => exact h
    | some q => exact hd.covers_current q h
  | _ => exact h

/-- Counting uses and recording copies adds nothing. -/
theorem IsCoherent.untouched (hd : IsCoherent d) (h : Generation.Untouched d d') : Adds d d' := by
  have hmodels : d'.models = d.models := congrArg Document.definitions h.document
  refine ⟨⟨fun a n hn => ?_, fun a n hn => ?_, ?_⟩, ?_, ?_⟩
  · rw [hmodels]
    exact hd.names a n (h.names ▸ hn)
  · rw [hmodels]
    exact hd.completed a n (h.completed ▸ hn)
  · rw [hmodels]
    exact hd.layered
  · exact hmodels ▸ List.prefix_refl _
  · exact fun a ha => h.underway ▸ ha

variable {augmented : Prop} {declared : Schema} {M : Expansion.Expanded}

/-- Whether or not a request succeeds, definitions are only added, and its answer points at definitions. -/
theorem answer_leaves (hfrom : Schema.LoadedFrom augmented declared M c.schema) {r : Request}
    (hr : ∀ p, r.place? = some p → c.schema.Has p) (hd : IsCoherent d) :
    (r.answer c).Leaves d (fun answer d' => Adds d d' ∧ d'.models.Covers answer.refs) (Adds d) := by
  cases r with
  | process i =>
    refine settles_bind ((Generation.processModule_settles c.schema i d).mono (fun _ d' h => ?_)
      fun _ d' h => hd.untouched h.2)
    exact settles_pure ⟨hd.untouched h, by simp [Models.Covers, Answer.refs]⟩
  | define p =>
    refine settles_bind ((define_leaves hfrom d p (hr p rfl) hd).mono (fun name d' h => ?_)
      fun d' h => h.toAdds)
    exact settles_pure ⟨h.1.toAdds, fun r hr => ⟨name, List.mem_singleton.mp hr, h.2⟩⟩
  | reference p =>
    unfold Request.answer Definitions.reference
    refine settles_bind (settles_bind (settles_get ?_))
    cases hname : d.definitionName c p with
    | some name =>
      refine settles_pure (settles_pure ⟨(hd.follows c.schema fun _ => True).toAdds, fun r hr => ?_⟩)
      exact ⟨name, by simpa [Answer.refs, Property.refs] using hr, hd.definitionName hname⟩
    | none =>
      exact settles_pure (settles_pure ⟨(hd.follows c.schema fun _ => True).toAdds, by
        simp [Models.Covers, Answer.refs, Property.refs]⟩)
  | name p =>
    refine settles_bind (settles_get (settles_pure ⟨(hd.follows c.schema fun _ => True).toAdds, fun r hr => ?_⟩))
    obtain ⟨name, hname, rfl⟩ := List.mem_map.mp hr
    exact ⟨name, rfl, hd.definitionName (Option.mem_toList.mp hname)⟩
  | property p =>
    refine settles_bind ((propertyFor_leaves hfrom (define_leaves hfrom) (hr p rfl) hd).mono
      (fun property d' h => ?_) fun d' h => h.toAdds)
    refine settles_pure ⟨h.1.toAdds, ?_⟩
    cases property with
    | none => simp [Models.Covers, Answer.refs]
    | some q => exact h.2 q rfl
  | model p =>
    exact settles_bind ((buildModel_leaves hfrom (define_leaves hfrom) (hr p rfl) hd).mono
      (fun model d' h => settles_pure ⟨h.1.toAdds, h.2⟩) fun d' h => h.toAdds)

/-! ### Whole sessions -/

namespace Session

/-- The invariant of a session; `IsOrderly` is what it says about the answers by now. -/
structure Holds (x : Session) : Prop where
  coherent : IsCoherent x.definitions
  idle : x.definitions.underway = []
  answers : ∀ answer, .ok answer ∈ x.answers → x.definitions.models.Covers answer.refs

theorem Holds.isOrderly {x : Session} (h : x.Holds) : x.IsOrderly where
  idle := h.idle
  names := h.coherent.names
  layered := h.coherent.layered
  answers answer ha := h.coherent.covers_answer (h.answers answer ha)

theorem holds_fresh {document : Document} (hfresh : document.definitions = []) :
    Holds ⟨{ document }, []⟩ where
  coherent :=
    { names := by simp
      completed := by simp
      layered := by
        show Models.Layered document.definitions
        rw [hfresh]
        exact Models.layered_nil }
  idle := rfl
  answers := by simp

variable (hfrom : Schema.LoadedFrom augmented declared M c.schema)
include hfrom

theorem Holds.ask {x : Session} (h : x.Holds) {r : Request} (hr : ∀ p, r.place? = some p → c.schema.Has p) :
    (x.ask c r).Holds ∧ x.definitions.models <+: (x.ask c r).definitions.models := by
  rw [ask_eq]
  obtain ⟨hadds, hresult⟩ := Settles.run
    (R := fun (result : Except Failure Answer) d' =>
      Adds x.definitions d' ∧ ∀ answer, result = .ok answer → d'.models.Covers answer.refs)
    (Settles.mono (answer_leaves hfrom hr h.coherent)
      (fun _ _ h => ⟨h.1, fun _ heq => Except.ok.inj heq ▸ h.2⟩) fun _ _ h => ⟨h, by simp⟩)
  refine ⟨⟨hadds.coherent, ?_, fun answer ha => ?_⟩, hadds.models⟩
  · have hunderway := hadds.underway
    rw [h.idle] at hunderway
    exact List.subset_nil.mp hunderway
  · rcases List.mem_append.mp ha with ha | ha
    · exact (h.answers answer ha).grow hadds.grows
    · exact hresult answer (List.mem_singleton.mp ha).symm

theorem Holds.askAll {x : Session} (h : x.Holds) {requests : List Request}
    (hrequests : ∀ r ∈ requests, ∀ p, r.place? = some p → c.schema.Has p) : (x.askAll c requests).Holds := by
  induction requests generalizing x with
  | nil => exact h
  | cons r requests ih =>
    have hr := h.ask hfrom (hrequests r List.mem_cons_self)
    exact ih hr.1 fun r' hr' => hrequests r' (List.mem_cons_of_mem _ hr')

/-- A definition that fails binds nothing but nodes that come before the one that stands for the node. -/
theorem Holds.names_ask {x : Session} (h : x.Holds) (hnamed : c.schema.IsNamed) {p : Place}
    (hp : c.schema.Has p) {e : Failure} (hfails : (x.ask c (.define p)).answers = x.answers ++ [.error e]) :
    (x.ask c (.define p)).definitions.names.get? p.address = x.definitions.names.get? p.address ∧
      (x.ask c (.define p)).definitions.definitionName c p = x.definitions.definitionName c p := by
  have hknows : c.schema.KnowsGroupings := hnamed.knowsGroupings hfrom
  have hanswer : (Request.define p).answer c x.definitions = (do
      let name ← Definitions.define c p
      pure (Answer.named (some name)) : Building Answer) x.definitions := rfl
  unfold Session.ask at hfails ⊢
  rw [hanswer, run_bind] at hfails ⊢
  rcases hdefine : Definitions.define c p x.definitions with ⟨e' | name, d'⟩
  · have hfollows := (define_leaves hfrom x.definitions p hp h.coherent).error e' d' hdefine
    have hself : ∀ q, c.schema.Has q → (q = p ∨ q = x.definitions.canonical c p) →
        d'.names.get? q.address = x.definitions.names.get? q.address := by
      intro q hq heq
      refine hfollows.names q hq fun hbelow => ?_
      rcases heq with rfl | rfl
      · exact Place.Precedes.irrefl (hbelow.of_canonical hfrom hp hknows)
      · exact Place.Precedes.irrefl (hbelow hknows)
    dsimp only
    refine ⟨hself p hp (.inl rfl), ?_⟩
    unfold Definitions.definitionName
    rw [canonical_congr hfollows.usages, hself p hp (.inl rfl), hself _ (has_canonical hp) (.inr rfl)]
  · rw [hdefine] at hfails
    cases List.singleton_inj.mp (List.append_cancel_left hfails)

end Session

/-- Whatever has been asked of the definitions of a loaded schema, and whatever of it has failed, one more request
finds and leaves them in order. -/
theorem isOrderly_ask {datum : Datum} {c : Scope} (hload : (Schema.load datum).result = .ok c.schema)
    {document : Document} (hfresh : document.definitions = []) {requests : List Request} {r : Request}
    (hrequests : ∀ q ∈ r :: requests, ∀ p, q.place? = some p → c.schema.Has p) {x : Session}
    (hx : x = Session.askAll c requests ⟨{ document }, []⟩) :
    (x.ask c r).IsOrderly ∧ x.Keeps c r (x.ask c r) := by
  obtain ⟨declared, M, hfrom⟩ := Schema.exists_loadedFrom hload
  have hr : ∀ p, r.place? = some p → c.schema.Has p := hrequests r List.mem_cons_self
  have hholds : x.Holds := by
    rw [hx]
    exact (Session.holds_fresh hfresh).askAll hfrom fun q hq => hrequests q (List.mem_cons_of_mem _ hq)
  obtain ⟨hasked, hmodels⟩ := hholds.ask hfrom hr
  refine ⟨hasked.isOrderly, hmodels, fun hnamed p e hdefine hfails => ?_⟩
  subst hdefine
  exact hholds.names_ask hfrom hnamed (hr p rfl) hfails

theorem Session.answers_ask {x : Session} {r : Request} {e : Failure}
    (h : (r.answer c x.definitions).1 = .error e) : (x.ask c r).answers = x.answers ++ [.error e] := by
  rw [← h]
  rfl

end Definitions

open Definitions

/-- A container with a leafref that leads nowhere, beside a container of a shared grouping. -/
def Example.faulty : Datum :=
  document [
    ("groupings", [grouping "g" [leaf "k"]]),
    ("data", [container "x" ["g"] [leafref "l" "/m:nowhere"], container "y" ["g"]])]

/-- The first container cannot be defined, after the grouping has been. -/
theorem isOrderly_ask_faulty :
    ∃ c p q e x, (Schema.load Example.faulty).result = .ok c.schema ∧ c.schema.IsNamed ∧ c.schema.Has p ∧
      c.schema.Has q ∧ x = Session.askAll c [.process 0, .define q] ⟨{}, []⟩ ∧
      (x.ask c (.define p)).IsOrderly ∧ x.definitions.models <+: (x.ask c (.define p)).definitions.models ∧
      (x.ask c (.define p)).answers = x.answers ++ [.error e] ∧
      (x.ask c (.define p)).definitions.names.get? p.address = x.definitions.names.get? p.address := by
  have htest : ((Schema.load Example.faulty).result.toOption.any fun s =>
      s.modules.length = 1 && s.modules.all (·.name == .text "m") &&
        (Groupings.ofSchema s).result.toOption.any fun groupings =>
          (s.node? "/m:x" none).any fun p => (s.node? "/m:y" none).any fun q =>
            let c : Scope := ⟨s, groupings, .optimizing, none⟩
            let x := Session.askAll c [.process 0, .define q] ⟨{}, []⟩
            ((Request.define p).answer c x.definitions).1.toOption.isNone) = true := by
    decide +kernel
  obtain ⟨s, hload, htest⟩ := exists_of_any htest
  simp only [Option.any_eq_true, List.all_eq_true, Bool.and_eq_true, decide_eq_true_eq] at htest
  obtain ⟨⟨hlength, hnames⟩, groupings, -, p, hp, q, hq, hfails⟩ := htest
  obtain ⟨e, hfails⟩ := exists_of_isNone hfails
  obtain ⟨m, hm⟩ := List.length_eq_one_iff.mp hlength
  have hnamed : s.IsNamed := Schema.isNamed_of_single hm
    (Datum.eq_text_of_beq (hnames m (by simp [hm]))) (by decide)
  have hphas := (Schema.isTarget_of_node? hp).has
  have hqhas := (Schema.isTarget_of_node? hq).has
  have hplaces : ∀ r ∈ [Request.define p, .process 0, .define q], ∀ p', r.place? = some p' → s.Has p' := by
    simp only [List.forall_mem_cons, Request.place?]
    refine ⟨?_, by simp, ?_, by simp⟩
    · rintro _ ⟨⟩
      exact hphas
    · rintro _ ⟨⟩
      exact hqhas
  have hfresh : ({} : Document).definitions = [] := rfl
  obtain ⟨horderly, hkeeps⟩ := isOrderly_ask (c := ⟨s, groupings, .optimizing, none⟩) hload hfresh hplaces rfl
  have hanswers := Session.answers_ask hfails
  exact ⟨_, p, q, e, _, hload, hnamed, hphas, hqhas, rfl, horderly, hkeeps.models, hanswers,
    (hkeeps.names hnamed p e rfl hanswers).1⟩

/-- A module whose name ends as another one is called, and a grouping of the other that uses its groupings. -/
def Example.reentrant : Datum :=
  .object [("modules", .list [
    .object [("name", .text "m:1"), ("prefix", .text "p"),
      ("groupings", .list [grouping "g" [leaf "q"], grouping "h" [leaf "r"]]),
      ("data", .list [container "x" ["g", "h"]])],
    module "1" [("groupings", [grouping "g" [container "a" ["p:g"] [container "b" ["p:h"]]]])]])]

/-- The qualified name of the shared grouping is read as that of the one that is being defined, which is defined
anew while it is underway and keeps its name when the definition fails later on. -/
theorem not_keeps_ask_reentrant :
    ∃ c p e x, (Schema.load Example.reentrant).result = .ok c.schema ∧
      (c.schema.modules.Pairwise fun m m' => (m.name == m'.name) = false) ∧
      (∀ m ∈ c.schema.modules, m.groupings.Pairwise fun g g' => (g.name == g'.name) = false) ∧
      (Groupings.ofSchema c.schema).result = .ok c.groupings ∧ c.schema.Has p ∧
      x = Session.askAll c [.process 0] ⟨{}, []⟩ ∧ (x.ask c (.define p)).answers = x.answers ++ [.error e] ∧
      (x.ask c (.define p)).definitions.names.get? p.address ≠ x.definitions.names.get? p.address := by
  have htest : ((Schema.load Example.reentrant).result.toOption.any fun s =>
      decide (s.modules.Pairwise fun m m' => (m.name == m'.name) = false) &&
        (s.modules.all fun m => decide (m.groupings.Pairwise fun g g' => (g.name == g'.name) = false)) &&
          (Groupings.ofSchema s).result.toOption.any fun groupings =>
            (s.tops 1 .groupings).any fun p =>
              let c : Scope := ⟨s, groupings, .optimizing, none⟩
              let x := Session.askAll c [.process 0] ⟨{}, []⟩
              ((Request.define p).answer c x.definitions).1.toOption.isNone &&
                (x.definitions.names.get? p.address).isNone &&
                  ((x.ask c (.define p)).definitions.names.get? p.address).isSome) = true := by
    decide +kernel
  obtain ⟨s, hload, htest⟩ := exists_of_any htest
  simp only [List.all_eq_true, Bool.and_eq_true, decide_eq_true_eq] at htest
  obtain ⟨⟨hmodules, hdistinct⟩, htest⟩ := htest
  obtain ⟨groupings, hgroupings, htest⟩ := exists_of_any htest
  simp only [List.any_eq_true, Bool.and_eq_true, Option.isNone_iff_eq_none] at htest
  obtain ⟨p, hp, ⟨hfails, hbefore⟩, hafter⟩ := htest
  obtain ⟨e, hfails⟩ := exists_of_isNone (Option.isNone_iff_eq_none.mpr hfails)
  refine ⟨⟨s, groupings, .optimizing, none⟩, p, e, _, hload, hmodules, hdistinct, hgroupings,
    Schema.has_of_mem_tops hp, rfl, Session.answers_ask hfails, fun heq => ?_⟩
  rw [heq, hbefore] at hafter
  cases hafter

end RestconfApi
