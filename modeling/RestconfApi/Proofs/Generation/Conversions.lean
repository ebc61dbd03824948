import RestconfApi.Proofs.Definitions.Leaves
import RestconfApi.Proofs.Generation.Agreement
import RestconfApi.Proofs.Generation.Routes
import RestconfApi.Proofs.Path.Emission
import RestconfApi.Proofs.Schema.Chains

/-!
# Generation: leaves that a walk looks at

A walk looks at the keys of the lists on its way, and at the leaves of whatever it defines. A leafref is at fault only
if it is that of such a leaf, and a walk that succeeds has converted all of them. So when one walk looks at every leaf
of another that leads nowhere, then it does not succeed if a leafref is at fault in the other one.
-/

namespace RestconfApi.Generation

open Definitions Building Handler

variable {c c' : Scope} {u d e : Definitions} {selected : List Name} {settings : Settings} {h : Handler} {root : Name}
  {elements : List Element} {limit : Option Nat} {i : Nat} {step : Step} {p : Place}

/-! ### States -/

/-- Nothing is underway, and all that has a name is done with. -/
structure IsLooked (c : Scope) (u d : Definitions) : Prop where
  looked : Looked c u [] d
  idle : d.underway = []

/-- The leaf stands outside groupings and the definition of a node looks at it. -/
def LooksOutside (c : Scope) (u : Definitions) (p x : Place) : Prop := LooksAt c u p x ∧ x.inGrouping = false

theorem IsLooked.noted (hd : IsLooked c u d) (records : List Record) : IsLooked c u { d with records } :=
  ⟨hd.looked.noted records, hd.idle⟩

theorem isLooked_accepts (c : Scope) (u : Definitions) (asked : Place → Prop) :
    Accepts (IsLooked c u) (c.schema.Blames asked) fun _ _ _ => True where
  noted _ _ _ hd := hd.noted _
  fails _ _ := blames_of_ne (by simp)
  added _ _ _ _ _ hd := ⟨hd.looked.congr ⟨rfl, rfl, rfl, rfl⟩ rfl rfl, hd.idle⟩

section

variable {doc : Datum} (hload : (Schema.load doc).result = .ok c.schema)
include hload

/-- A node that is defined has converted all that it looks at, or blames one of these leaves. -/
theorem define_isLooked (hp : c.schema.Has p) (hd : IsLooked c u d) :
    (define c p).Settles d (fun _ d' => IsLooked c u d' ∧ ∀ x, LooksOutside c u p x → c.schema.Converts x)
      (c.schema.Blames (LooksOutside c u p)) := by
  obtain ⟨declared, M, hfrom⟩ := Schema.exists_loadedFrom hload
  have hlooked : Looked c u d.underway d := hd.idle ▸ hd.looked
  refine (define_looks hfrom.traced.ranked hp hlooked).mono (fun name d' h' => ?_) fun e d' he fault hfault => ?_
  · obtain ⟨hlooks, hname⟩ := h'
    have hidle : d'.underway = [] := List.eq_nil_of_subset_nil (hd.idle ▸ hlooks.underway)
    have hlooked' : Looked c u [] d' := hidle ▸ hlooks.looked
    refine ⟨⟨hlooked', hidle⟩, fun x hx => ?_⟩
    exact hlooked'.converts hfrom.traced hp hname hx.1 (hfrom.part_ne_of_inGrouping (hx.1.has hp) hx.2)
  · obtain ⟨x, hx, hfails⟩ := he fault hfault
    obtain ⟨-, -, -, htyped⟩ := id hx
    obtain ⟨t, ht⟩ := Option.isSome_iff_exists.mp (Schema.isSome_type_of_load hload (hx.has hp) htyped)
    exact ⟨x, ⟨hx, Schema.inGrouping_of_leafref ht hfails⟩, hfails⟩

end

/-! ### Steps -/

/-- The leaves that a step looks at: the keys behind the path parameters of a node that it enters, or what it looks at
from the nodes that it defines. -/
def Step.Asks (c : Scope) (u : Definitions) (h : Handler) (root : Name) : Step → Place → Prop
  | .enter p passed, x => (routeHandler h root (p :: passed)).IsKeyLeaf (routeSegment root (p :: passed)) x
  | .leave p, x => LooksOutside c u p x
  | .invoke rpc, x => ∃ p ∈ payloads rpc, LooksOutside c u p x
  | .note _ _, _ => False
  | .refuse, _ => False

section

variable {doc : Datum} (hload : (Schema.load doc).result = .ok c.schema)
include hload

/-- A step that succeeds has converted all leaves that it looks at. -/
theorem Step.take_looks (rules : List TagRule) (root : Name) (hstep : IsStep ⟨c, selected⟩ elements limit i step)
    (hd : IsLooked c u d) :
    (step.take ⟨c, selected⟩ (Handler.ofRules rules) root).Settles d
      (fun _ d' => IsLooked c u d' ∧ ∀ x, step.Asks c u (Handler.ofRules rules) root x → c.schema.Converts x)
      (c.schema.Blames (step.Asks c u (Handler.ofRules rules) root)) := by
  obtain ⟨declared, M, hfrom⟩ := Schema.exists_loadedFrom hload
  cases hstep with
  | note _ => exact settles_note ⟨hd.noted _, nofun⟩
  | refuse => exact settles_fail (blames_of_ne (by simp))
  | @enter p passed _ hwalk =>
    have htake : (Step.enter p passed).take ⟨c, selected⟩ (Handler.ofRules rules) root = _ :=
      hwalk.emit_eq c (Handler.ofRules rules) root
    rw [htake]
    have howners := hwalk.has_of_mem_owners rules root
    refine (dataPath_settles (isLooked_accepts c u _) howners (fun x hx e he d _ fault hfault =>
      ⟨x, hx, hfault ▸ he⟩) (fun _ _ _ => trivial) p hd).imp fun _ d' h' => ⟨h'.1, fun x hx => ?_⟩
    obtain ⟨parameter, hparameter, hleaf⟩ := hx
    obtain ⟨-, qs, hqs⟩ := h'
    obtain ⟨q, -, hq⟩ := exists_of_forall₂ hqs hparameter
    cases hq with
    | leaf _ hleaf' hproperty _ _ =>
      obtain rfl := Option.some.inj (hleaf'.symm.trans hleaf)
      exact ⟨_, hproperty⟩
    | missing _ hnone _ _ =>
      rw [hnone] at hleaf
      cases hleaf
  | leave _ hwalk => exact (define_isLooked hload hwalk.route.has hd).bind fun _ _ hd' => settles_pure hd'
  | @invoke rpc _ hrpc =>
    have htake : (Step.invoke rpc).take ⟨c, selected⟩ (Handler.ofRules rules) root = _ :=
      emit_of_rpc (hfrom.kind_of_mem_rpcs hrpc)
    rw [htake]
    refine (rpcPath_settles (N := fun p => ∀ x, LooksOutside c u p x → c.schema.Converts x) (isLooked_accepts c u _)
      (fun _ _ => trivial) (fun p hp d hd => ?_) hd).imp fun _ d' h' => ⟨h'.1, fun x hx => ?_⟩
    · refine (define_isLooked hload (has_of_mem_payloads (Schema.has_of_mem_tops hrpc) hp) hd).mono (fun _ _ h' => h')
        fun e d' he fault hfault => ?_
      obtain ⟨x, hx, hfails⟩ := he fault hfault
      exact ⟨x, ⟨p, hp, hx⟩, hfails⟩
    · obtain ⟨p, hp, hx⟩ := hx
      exact h'.2 p hp x hx

end

/-! ### Walks -/

/-- The nodes in the `i`-th module that a walk defines of its own: the containers and lists that it comes to, and the
payloads of rpcs. -/
inductive IsStart (s : Schema) (selected : List Name) (settings : Settings) (i : Nat) : Place → Prop
  | data {p : Place} {passed : List Place} : .data ∈ settings.elements →
      IsOnWalk s selected settings.walkLimit i p passed → IsStart s selected settings i p
  | payload {rpc p : Place} : .rpc ∈ settings.elements → rpc ∈ s.tops i .rpcs → p ∈ payloads rpc →
      IsStart s selected settings i p

/-- The second builder looks, from each of the nodes, at all that the first one looks at there but for leaves that
resolve. -/
def LooksAsFar (c c' : Scope) (u : Definitions) (starts : Place → Prop) : Prop :=
  ∀ p, starts p → ∀ x, LooksOutside c u p x → LooksAt c' u p x ∨ c.schema.Resolves x

section

variable {doc : Datum} (hload : (Schema.load doc).result = .ok c.schema) (hschema : c'.schema = c.schema)
include hload hschema

/-- A leafref that is at fault when one builder takes a step keeps the other one from taking it. -/
theorem Step.take_spoils (hstep : IsStep ⟨c, selected⟩ settings.elements settings.walkLimit i step)
    (hfar : LooksAsFar c c' u (IsStart c.schema selected settings i)) (hd : IsLooked c u d)
    (he : IsLooked c' u e) :
    Spoils (fun d e => IsLooked c u d ∧ IsLooked c' u e)
      (step.take ⟨c, selected⟩ (Handler.ofRules settings.tagRules) root)
      (step.take ⟨c', selected⟩ (Handler.ofRules settings.tagRules) root) d e := by
  have hstep' : IsStep ⟨c', selected⟩ settings.elements settings.walkLimit i step := by
    cases hstep with
    | note hlevel => exact .note hlevel
    | refuse => exact .refuse
    | enter helement hwalk => exact .enter helement (hschema.symm ▸ hwalk)
    | leave helement hwalk => exact .leave helement (hschema.symm ▸ hwalk)
    | invoke helement hrpc => exact .invoke helement (hschema.symm ▸ hrpc)
  have houtside : ∀ {p x : Place}, IsStart c.schema selected settings i p → c.schema.Has p → LooksOutside c u p x →
      LooksOutside c' u p x ∨ c.schema.Converts x := by
    intro p x hp hhas hx
    rcases hfar p hp x hx with hx' | hresolves
    · exact .inl ⟨hx', hx.2⟩
    · exact .inr (hresolves.exists_leafProperty (hx.1.has hhas))
  have hasks : ∀ x, step.Asks c u (Handler.ofRules settings.tagRules) root x →
      step.Asks c' u (Handler.ofRules settings.tagRules) root x ∨ c.schema.Converts x := by
    intro x hx
    cases hstep with
    | note _ => exact hx.elim
    | refuse => exact hx.elim
    | enter _ _ => exact .inl hx
    | leave helement hwalk => exact houtside (.data helement hwalk) hwalk.route.has hx
    | invoke helement hrpc =>
      obtain ⟨p, hp, hx⟩ := hx
      have hhas := has_of_mem_payloads (Schema.has_of_mem_tops hrpc) hp
      exact (houtside (.payload helement hrpc hp) hhas hx).imp_left fun hx' => ⟨p, hp, hx'⟩
  have hx := Step.take_looks hload settings.tagRules root hstep hd
  have hy := Step.take_looks (hschema.symm ▸ hload) settings.tagRules root hstep' he
  refine spoils_of_settles (N := ∃ x fault, step.Asks c u (Handler.ofRules settings.tagRules) root x ∧
      (c.schema.leafProperty x).result = .error (.leafref fault))
    (hx.mono (fun _ _ h' => h'.1) fun e d' hblames hfault => ?_) hy.ok fun hfault hconverts => ?_
  · obtain ⟨fault, hfault⟩ := hfault
    obtain ⟨x, hx, hfails⟩ := hblames fault hfault
    exact ⟨x, fault, hx, hfails⟩
  · obtain ⟨x, fault, hx, hfails⟩ := hfault
    obtain ⟨q, hq⟩ : c.schema.Converts x := (hasks x hx).elim (fun hx' => hschema ▸ hconverts x hx') id
    rw [hq] at hfails
    cases hfails

theorem visitModule_spoils (hfar : LooksAsFar c c' u (IsStart c.schema selected settings i)) (hd : IsLooked c u d)
    (he : IsLooked c' u e) :
    Spoils (fun d e => IsLooked c u d ∧ IsLooked c' u e) (visitModule ⟨c, selected⟩ settings i)
      (visitModule ⟨c', selected⟩ settings i) d e := by
  cases hm : c.schema.modules[i]? with
  | none =>
    have hnothing : ∀ c₁ : Scope, c₁.schema = c.schema → visitModule ⟨c₁, selected⟩ settings i = pure () := by
      intro c₁ hc₁
      unfold visitModule
      rw [hc₁, hm]
    rw [hnothing c rfl, hnothing c' hschema]
    exact spoils_pure ⟨hd, he⟩
  | some m =>
    obtain ⟨steps, hvisit, hsteps, -⟩ := visitModule_takesSteps (w := ⟨c, selected⟩) settings hm
    have hvisit₁ : visitModule ⟨c, selected⟩ settings i = _ := hvisit c rfl
    have hvisit₂ : visitModule ⟨c', selected⟩ settings i = _ := hvisit c' hschema
    rw [hvisit₁, hvisit₂]
    exact spoils_forM (I := fun d e => IsLooked c u d ∧ IsLooked c' u e) ⟨hd, he⟩ fun step hmem d e h' =>
      Step.take_spoils hload hschema (hsteps step hmem) hfar h'.1 h'.2

theorem visitModules_spoils {modules : List (Module × Nat)}
    (hfar : ∀ m ∈ modules, LooksAsFar c c' u (IsStart c.schema selected settings m.2)) (hd : IsLooked c u d)
    (he : IsLooked c' u e) :
    Spoils (fun d e => IsLooked c u d ∧ IsLooked c' u e)
      (modules.forM fun (_, i) => visitModule ⟨c, selected⟩ settings i)
      (modules.forM fun (_, i) => visitModule ⟨c', selected⟩ settings i) d e :=
  spoils_forM (I := fun d e => IsLooked c u d ∧ IsLooked c' u e) ⟨hd, he⟩ fun m hm _ _ h' =>
    visitModule_spoils hload hschema (hfar m hm) h'.1 h'.2

end

/-! ### Generations -/

section

variable {doc : Datum} {s : Schema} (hload : (Schema.load doc).result = .ok s) {modules : List (Module × Nat)}
  {groupings : Groupings} {t t' : Strategy}
include hload

theorem walked_spoils (hfar : ∀ m ∈ modules, LooksAsFar ⟨s, groupings, t, settings.levelLimit⟩
      ⟨s, groupings, t', settings.levelLimit⟩ (prepared s settings modules)
      (IsStart s (modules.map (·.1.name)) settings m.2)) :
    Spoils (fun d e => IsLooked ⟨s, groupings, t, settings.levelLimit⟩ (prepared s settings modules) d ∧
        IsLooked ⟨s, groupings, t', settings.levelLimit⟩ (prepared s settings modules) e)
      (walk (walkThrough s { settings with strategy := t } modules groupings) settings modules)
      (walk (walkThrough s { settings with strategy := t' } modules groupings) settings modules)
      { document := emptyDocument settings } { document := emptyDocument settings } := by
  have hprocess := processModules_settles s modules { document := emptyDocument settings }
  unfold walk
  refine Spoils.bind (I := fun d e => d = e ∧ ∀ t, IsLooked ⟨s, groupings, t, settings.levelLimit⟩
    (prepared s settings modules) d) ⟨fun fault d' _ hx => ?_, fun d' e' hx hy => ?_⟩ fun d' e' h' => ?_
  · have hx : (modules.forM fun (_, i) => processModule s i) { document := emptyDocument settings } = _ := hx
    cases (hprocess.error _ d' hx).1
  · have hx : (modules.forM fun (_, i) => processModule s i) { document := emptyDocument settings } = _ := hx
    have hy : (modules.forM fun (_, i) => processModule s i) { document := emptyDocument settings } = _ := hy
    have hprepared : prepared s settings modules = d' := congrArg Prod.snd hx
    have huntouched := hprocess.ok () d' hx
    rw [hprepared]
    exact ⟨congrArg Prod.snd (hx.symm.trans hy), fun t =>
      ⟨looked_of_unnamed huntouched.names huntouched.completed, huntouched.underway⟩⟩
  · obtain ⟨rfl, hlooked⟩ := h'
    have hschema : (Scope.mk s groupings t' settings.levelLimit).schema =
        (Scope.mk s groupings t settings.levelLimit).schema := rfl
    exact visitModules_spoils hload hschema hfar (hlooked t) (hlooked t')

/-- When a run has succeeded, all that it has given a name is done with. -/
theorem Ran.isLooked {names : List Name} {r : Outcome} (hran : Ran s names settings modules r) :
    IsLooked ⟨s, r.scope.groupings, settings.strategy, settings.levelLimit⟩ (prepared s settings modules)
      r.definitions := by
  have hwalk := hran.walked
  rw [hran.scope] at hwalk
  have hspoils := @walked_spoils settings _ s hload modules r.scope.groupings settings.strategy settings.strategy
    fun _ _ _ _ _ hx => .inl hx.1
  exact (hspoils.keeps _ _ hwalk hwalk).1

end

/-! ### Results -/

theorem errs_joined (sep : String) (names : List Name) : Errs (joined sep names) (· = .wrongType) :=
  errs_bind (errs_mapM fun name _ => name.errs_text?) fun _ _ => errs_ok

theorem errs_postprocess (d : Document) (p : Postprocessor) : Errs (postprocess d p).result (· = .wrongType) := by
  have hdefinitions : ∀ d : Document, Errs d.sortDefinitions? (· = .wrongType) := fun d =>
    errs_ite errs_ok (errs_error rfl)
  cases p with
  | foldAliases =>
    show Errs (d.foldAliases?).result _
    unfold Document.foldAliases?
    split
    · exact errs_ok
    · split
      · exact errs_error rfl
      · exact errs_ite errs_ok (errs_error rfl)
  | sortDefinitions => exact hdefinitions d
  | sort => exact errs_bind (hdefinitions d) fun d _ => errs_ite errs_ok (errs_error rfl)

/-- No leafref is at fault any more when the walk is over. -/
theorem errs_concluded (settings : Settings) (modules : List Module) (title : String) (d : Document) :
    Errs (concluded settings modules title d) (· = .wrongType) := by
  refine errs_bind (errs_bind (errs_joined _ _) fun _ _ => errs_ok) fun about _ => ?_
  unfold postprocessAll
  split
  · exact errs_ok
  · exact Logged.errs_foldlM errs_postprocess _ _

/-- From the nodes that its walk starts with, generation under the second strategy neglects nothing that it looks at
under the first one but leaves that resolve. -/
def NeglectsOnlyResolving (s : Schema) (names : List Name) (settings : Settings) (t t' : Strategy) : Prop :=
  ∀ modules groupings, (select s names).result = .ok modules → (Groupings.ofSchema s).result = .ok groupings →
    ∀ m ∈ modules, LooksAsFar ⟨s, groupings, t, settings.levelLimit⟩ ⟨s, groupings, t', settings.levelLimit⟩
      (prepared s settings modules) (IsStart s (modules.map (·.1.name)) settings m.2)

/-- If a leafref is at fault under one strategy then the other one does not succeed. -/
theorem generate_spoils {doc : Datum} {s : Schema} (hload : (Schema.load doc).result = .ok s) {names : List Name}
    {t t' : Strategy} (hneglects : NeglectsOnlyResolving s names settings t t') {fault : LeafrefFault}
    (h : (generate s names { settings with strategy := t }).result = .error (.leafref fault)) (document : Document) :
    (generate s names { settings with strategy := t' }).result ≠ .ok document := by
  intro h'
  rw [result_generate] at h h'
  obtain ⟨modules, hmodules, h'⟩ := Failure.ok_of_bind h'
  obtain ⟨_, hkeys, h'⟩ := Failure.ok_of_bind h'
  obtain ⟨groupings, hgroupings, h'⟩ := Failure.ok_of_bind h'
  obtain ⟨title, htitle, h'⟩ := Failure.ok_of_bind h'
  obtain ⟨⟨⟩, hwalked', h'⟩ := Failure.ok_of_bind h'
  rw [hmodules, bind_ok, hkeys, bind_ok, hgroupings, bind_ok, htitle, bind_ok] at h
  have hspoils := walked_spoils hload (hneglects modules groupings hmodules hgroupings)
  cases hwalked : (walked s { settings with strategy := t } modules groupings).1 with
  | error e =>
    rw [hwalked] at h
    obtain rfl : e = .leafref fault := Except.error.inj h
    exact hspoils.fails fault _ _ (Prod.ext hwalked rfl) (Prod.ext hwalked' rfl)
  | ok _ =>
    rw [hwalked, bind_ok] at h
    cases errs_concluded settings _ _ _ _ h

end RestconfApi.Generation
