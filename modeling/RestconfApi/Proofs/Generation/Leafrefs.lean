import RestconfApi.Proofs.Generation.Conversions
import RestconfApi.Proofs.Generation.Fields

/-!
# Generation: leafrefs

A generation that succeeds has found whatever the leafrefs in its definitions refer to. It has not looked at those
of the copies that a shared grouping stands for, so that the strategies agree on what leafrefs are at fault only if all
these resolve.
-/

namespace RestconfApi

open Definitions Generation

/-- The fault of a leafref, if the failure is one. -/
def Failure.leafref? : Failure → Option LeafrefFault
  | .leafref fault => some fault
  | _ => none

theorem Failure.eq_of_leafref? {e : Failure} {fault : LeafrefFault} (h : e.leafref? = some fault) :
    e = .leafref fault := by
  cases e with
  | leafref _ => exact congrArg Failure.leafref (Option.some.inj h)
  | _ => cases h

/-- A leaf outside groupings that has got a property resolves. -/
theorem Schema.resolves_of_leafProperty {s : Schema} {x : Place} {q : Property} (hout : x.inGrouping = false)
    (h : (s.leafProperty x).result = .ok q) : s.Resolves x := by
  obtain ⟨t, reference, r, ht, -, hr, -⟩ := leafProperty_ok h
  exact resolves_of_concrete ht (concrete_of_concreteOrString hout hr)

theorem Generation.exists_fault_of_failure? {s : Schema} {names : List Name} {settings : Settings}
    (h : (failure? s names settings).any (·.leafref?.isSome) = true) :
    ∃ fault, (generate s names settings).result = .error (.leafref fault) := by
  obtain ⟨e, he, hsome⟩ := Option.any_eq_true _ _ |>.mp h
  obtain ⟨fault, hfault⟩ := Option.isSome_iff_exists.mp hsome
  obtain rfl := Failure.eq_of_leafref? hfault
  exact ⟨fault, error_of_failure? he⟩

namespace Generation

/-- When generation has succeeded, the leaves that the definition of a node looks at resolve. -/
theorem resolves_of_looksAt {d : Datum} {s : Schema} {names : List Name} {settings : Settings} {doc : Document}
    (hload : (Schema.load d).result = .ok s) (h : (generate s names settings).result = .ok doc) {p x : Place}
    (hp : s.Has p) {name : Name} (hname : definition? s names settings p = some name)
    {modules : List (Module × Nat)} {groupings : Groupings} (hselect : (select s names).result = .ok modules)
    (hgroupings : (Groupings.ofSchema s).result = .ok groupings)
    (hx : LooksAt ⟨s, groupings, settings.strategy, settings.levelLimit⟩ (prepared s settings modules) p x)
    (hout : x.inGrouping = false) : s.Resolves x := by
  obtain ⟨declared, M, hfrom⟩ := Schema.exists_loadedFrom hload
  obtain ⟨modules', r, info, hgenerated⟩ := exists_generated hload h
  have hran := hgenerated.ran
  obtain rfl : modules = modules' := Except.ok.inj (hselect.symm.trans hran.selected)
  obtain rfl : groupings = r.scope.groupings := Except.ok.inj (hgroupings.symm.trans hran.groupings)
  have hlooked := hran.isLooked hload
  obtain ⟨k, hk⟩ : ∃ k, r.definitions.completed.get? p.address = some k := by
    simp only [definition?, hgenerated.run, hgenerated.about] at hname
    obtain ⟨k, hk, -⟩ := Option.map_eq_some_iff.mp hname
    exact ⟨k, hk⟩
  have hnamed := hlooked.looked.bound p hp (hlooked.looked.completed _ (by rw [hk]; rfl))
  obtain ⟨q, hq⟩ := hlooked.looked.converts hfrom.traced hp hnamed hx
    (hfrom.part_ne_of_inGrouping (hx.has hp) hout)
  exact Schema.resolves_of_leafProperty hout hq

/-- The unpacking strategy neglects nothing at all. -/
theorem neglectsOnlyResolving_optimizing {d : Datum} {s : Schema} (hload : (Schema.load d).result = .ok s)
    (names : List Name) (settings : Settings) : NeglectsOnlyResolving s names settings .optimizing .unpacking := by
  obtain ⟨declared, M, hfrom⟩ := Schema.exists_loadedFrom hload
  intro modules groupings _ _ m _ p hp x hx
  have hhas : s.Has p := by
    cases hp with
    | data _ hwalk => exact hwalk.route.has
    | payload _ hrpc hp => exact Handler.has_of_mem_payloads (Schema.has_of_mem_tops hrpc) hp
  have hlists : ListsTemplates (prepared s settings modules) :=
    Building.Settles.run (R := fun _ d' => ListsTemplates d')
      (processModules_listsTemplates hfrom.traced modules (by simp [ListsTemplates]))
  have hpart := hfrom.part_ne_of_inGrouping (hx.1.has hhas) hx.2
  exact .inl (hx.1.unpacked hfrom.traced hhas hpart hlists rfl rfl)

/-- Where there are no rpcs, the optimizing strategy neglects nothing but leaves that resolve if the leaves of the nodes
that are walked over get properties, or are own fields of nodes that stand for themselves. -/
theorem neglectsOnlyResolving_unpacking {s : Schema} {names : List Name} {settings : Settings}
    (hrpcs : ∀ p, s.Has p → p.address.part ≠ .rpcs)
    (hleaves : ∀ modules groupings, (select s names).result = .ok modules → ∀ p, s.Has p → p.address.part = .data →
      p.isWalked = true ∧ ∀ x ∈ p.dataChildren, x.node.kind.isTyped = true → s.Converts x ∨
        ((prepared s settings modules).canonical ⟨s, groupings, .optimizing, settings.levelLimit⟩ p = p ∧
          supplier? ⟨s, groupings, .optimizing, settings.levelLimit⟩ (prepared s settings modules) p.node x = none)) :
    NeglectsOnlyResolving s names settings .unpacking .optimizing := by
  intro modules groupings hselect _ m _ p hp x hx
  cases hp with
  | payload _ hrpc _ => exact absurd (Schema.part_of_mem_tops hrpc) (hrpcs _ (Schema.has_of_mem_tops hrpc))
  | data _ hwalk =>
    obtain ⟨hwalked, hchildren⟩ := hleaves modules groupings hselect p hwalk.route.has hwalk.route.part
    have hmem := hx.1.mem_dataChildren rfl hwalked
    obtain ⟨-, -, -, htyped⟩ := hx.1
    rcases hchildren x hmem htyped with ⟨q, hq⟩ | ⟨hself, hown⟩
    · exact .inr (Schema.resolves_of_leafProperty hx.2 hq)
    · have howns : x ∈ ownChildren ⟨s, groupings, .optimizing, settings.levelLimit⟩ (prepared s settings modules) p :=
        List.mem_filter.mpr ⟨hmem, Option.isNone_iff_eq_none.mpr hown⟩
      exact .inl ⟨p, .self, hself.symm ▸ howns, htyped⟩

end Generation

/-- Generation that succeeds has found what the leafrefs refer to that it looks at. If the optimizing strategy neglects
nothing but leaves that resolve, then neither strategy succeeds when the other one finds a leafref at fault; so both do
this together where no failure is of another kind. -/
theorem leafref_iff_of_generate {d : Datum} {s : Schema} (hload : (Schema.load d).result = .ok s) (names : List Name)
    (settings : Settings) :
    (∀ t doc, (generate s names { settings with strategy := t }).result = .ok doc →
      ∀ p name, s.Has p → definition? s names { settings with strategy := t } p = some name →
        ∀ modules groupings, (select s names).result = .ok modules → (Groupings.ofSchema s).result = .ok groupings →
          ∀ x, LooksAt ⟨s, groupings, t, settings.levelLimit⟩ (prepared s settings modules) p x →
            x.inGrouping = false → s.Resolves x) ∧
      (NeglectsOnlyResolving s names settings .unpacking .optimizing →
        (∀ t t' fault, (generate s names { settings with strategy := t }).result = .error (.leafref fault) →
          ∀ doc, (generate s names { settings with strategy := t' }).result ≠ .ok doc) ∧
        ((∀ t e, (generate s names { settings with strategy := t }).result = .error e →
            ∃ fault, e = .leafref fault) →
          ((∃ fault, (generate s names { settings with strategy := .optimizing }).result = .error (.leafref fault)) ↔
            ∃ fault, (generate s names { settings with strategy := .unpacking }).result =
              .error (.leafref fault)))) := by
  have hspoils : NeglectsOnlyResolving s names settings .unpacking .optimizing → ∀ t t' fault,
      (generate s names { settings with strategy := t }).result = .error (.leafref fault) →
        ∀ doc, (generate s names { settings with strategy := t' }).result ≠ .ok doc := by
    intro hneglects t t' fault h doc
    cases t with
    | unpacking =>
      cases t' with
      | unpacking => simp [h]
      | optimizing => exact generate_spoils hload hneglects h doc
    | optimizing =>
      cases t' with
      | unpacking => exact generate_spoils hload (neglectsOnlyResolving_optimizing hload names settings) h doc
      | optimizing => simp [h]
  refine ⟨fun t doc h p name hp hname modules groupings hselect hgroupings x hx hout => ?_, fun hneglects => ⟨?_, ?_⟩⟩
  · exact @resolves_of_looksAt d s names { settings with strategy := t } doc hload h p x hp name hname modules groupings
      hselect hgroupings hx hout
  · exact hspoils hneglects
  · intro hother
    have hagree : ∀ t t', (∃ fault, (generate s names { settings with strategy := t }).result =
        .error (.leafref fault)) → ∃ fault, (generate s names { settings with strategy := t' }).result =
          .error (.leafref fault) := by
      rintro t t' ⟨fault, h⟩
      cases h' : (generate s names { settings with strategy := t' }).result with
      | ok doc => exact absurd h' (hspoils hneglects t t' fault h doc)
      | error e =>
        obtain ⟨fault', rfl⟩ := hother t' e h'
        exact ⟨fault', rfl⟩
    exact ⟨hagree _ _, hagree _ _⟩

/-- A leafref to the leaf beside it. -/
def Example.linked : Datum :=
  document [("data", [container "x" [] [leaf "k", leafref "l" "../k"]])]

/-- Two containers that share a grouping with a leafref to the leaf beside it. One of them has a leafref of its own that
leads nowhere. -/
def Example.dangling : Datum :=
  document [
    ("groupings", [grouping "g" [leaf "k", leafref "l" "../k"]]),
    ("data", [container "x" ["g"] [leafref "o" "/m:nowhere"], container "y" ["g"]])]

theorem leafref_iff_of_generate_examples :
    (∃ s doc p x name modules groupings, (Schema.load Example.linked).result = .ok s ∧
      (generate s [.text "m"] {}).result = .ok doc ∧ s.Has p ∧ definition? s [.text "m"] {} p = some name ∧
      (select s [.text "m"]).result = .ok modules ∧ (Groupings.ofSchema s).result = .ok groupings ∧
      LooksAt ⟨s, groupings, .optimizing, none⟩ (prepared s {} modules) p x ∧ x.inGrouping = false ∧
      (x.node.name == .text "l") = true ∧ s.Resolves x) ∧
    ∃ s modules, (Schema.load Example.dangling).result = .ok s ∧ (select s [.text "m"]).result = .ok modules ∧
      (prepared s {} modules).isShared "m:g" = true ∧
      NeglectsOnlyResolving s [.text "m"] {} .unpacking .optimizing ∧
      (∀ t e, (generate s [.text "m"] { strategy := t }).result = .error e → ∃ fault, e = .leafref fault) ∧
      (∃ fault, (generate s [.text "m"] { strategy := .unpacking }).result = .error (.leafref fault)) ∧
      ∃ fault, (generate s [.text "m"] { strategy := .optimizing }).result = .error (.leafref fault) := by
  refine ⟨?_, ?_⟩
  · have htest : passes Example.linked [.text "m"] {} (fun s _ =>
        (select s [.text "m"]).result.toOption.any fun modules =>
          (Groupings.ofSchema s).result.toOption.isSome && (s.node? "/m:x" none).any fun p =>
            (definition? s [.text "m"] {} p).isSome &&
              (ownChildren ⟨s, ⟨[], []⟩, .optimizing, none⟩ (prepared s {} modules)
                ((prepared s {} modules).canonical ⟨s, ⟨[], []⟩, .optimizing, none⟩ p)).any fun x =>
                  x.node.name == .text "l" && x.node.kind.isTyped && !x.inGrouping) = true := by
      decide +kernel
    obtain ⟨s, doc, hload, hgenerate, htest⟩ := exists_of_passes htest
    obtain ⟨modules, hselect, htest⟩ := exists_of_any htest
    simp only [Bool.and_eq_true, Option.any_eq_true, List.any_eq_true, Bool.not_eq_true'] at htest
    obtain ⟨hgroupings, p, hp, hsome, x, hx, ⟨hl, htyped⟩, hout⟩ := htest
    obtain ⟨groupings, hgroupings⟩ := exists_of_isSome hgroupings
    obtain ⟨name, hname⟩ := Option.isSome_iff_exists.mp hsome
    have hhas := (Schema.isTarget_of_node? hp).has
    have hlooks : LooksAt ⟨s, groupings, .optimizing, none⟩ (prepared s {} modules) p x := ⟨p, .self, hx, htyped⟩
    exact ⟨s, doc, p, x, name, modules, groupings, hload, hgenerate, hhas, hname, hselect, hgroupings, hlooks, hout, hl,
      (leafref_iff_of_generate hload [.text "m"] {}).1 .optimizing doc hgenerate p name hhas hname modules groupings
        hselect hgroupings x hlooks hout⟩
  · have htest : ((Schema.load Example.dangling).result.toOption.any fun s =>
        (failure? s [.text "m"] { strategy := .unpacking }).any (·.leafref?.isSome) &&
          (failure? s [.text "m"] { strategy := .optimizing }).any (·.leafref?.isSome) &&
            s.places.all (·.address.part ≠ .rpcs) && (select s [.text "m"]).result.toOption.any fun modules =>
              (prepared s {} modules).isShared "m:g" && s.places.all fun p => p.address.part ≠ .data || p.isWalked &&
                p.dataChildren.all fun x => !x.node.kind.isTyped || (s.leafProperty x).result.toOption.isSome ||
                  ((prepared s {} modules).canonical ⟨s, ⟨[], []⟩, .optimizing, none⟩ p).address == p.address &&
                    (supplier? ⟨s, ⟨[], []⟩, .optimizing, none⟩ (prepared s {} modules) p.node x).isNone) = true := by
      decide +kernel
    obtain ⟨s, hload, htest⟩ := exists_of_any htest
    simp only [Bool.and_eq_true, List.all_eq_true, decide_eq_true_eq, ne_eq] at htest
    obtain ⟨⟨⟨hunpacking, hoptimizing⟩, hrpcs⟩, htest⟩ := htest
    obtain ⟨modules, hselect, htest⟩ := exists_of_any htest
    simp only [Bool.and_eq_true, Bool.or_eq_true, Bool.not_eq_true', List.all_eq_true, decide_eq_true_eq,
      beq_iff_eq] at htest
    obtain ⟨hshared, hleaves⟩ := htest
    have hneglects : NeglectsOnlyResolving s [.text "m"] {} .unpacking .optimizing := by
      refine neglectsOnlyResolving_unpacking (fun p hp => hrpcs p hp.mem_places)
        fun modules' _ hselect' p hp hdata => ?_
      obtain rfl : modules = modules' := Except.ok.inj (hselect.symm.trans hselect')
      obtain ⟨hwalked, hchildren⟩ := (hleaves p hp.mem_places).resolve_left (not_not_intro hdata)
      refine ⟨hwalked, fun x hx htyped => ?_⟩
      rcases hchildren x hx with (huntyped | hconverts) | ⟨hcanonical, hown⟩
      · rw [htyped] at huntyped
        cases huntyped
      · exact .inl (exists_of_isSome hconverts)
      · exact .inr ⟨(has_canonical hp).eq hp hcanonical, Option.isNone_iff_eq_none.mp hown⟩
    have hother : ∀ t e, (generate s [.text "m"] { strategy := t }).result = .error e →
        ∃ fault, e = .leafref fault := by
      intro t e he
      obtain ⟨fault, hfault⟩ : ∃ fault,
          (generate s [.text "m"] { strategy := t }).result = .error (.leafref fault) := by
        cases t with
        | unpacking => exact exists_fault_of_failure? hunpacking
        | optimizing => exact exists_fault_of_failure? hoptimizing
      exact ⟨fault, Except.error.inj (he.symm.trans hfault)⟩
    have hunpacking := exists_fault_of_failure? hunpacking
    exact ⟨s, modules, hload, hselect, hshared, hneglects, hother, hunpacking,
      (((leafref_iff_of_generate hload [.text "m"] {}).2 hneglects).2 hother).mpr hunpacking⟩

/-- Two containers that share a grouping with a leafref that leads nowhere. -/
def Example.severed : Datum :=
  document [
    ("groupings", [grouping "g" [leafref "l" "/m:nowhere"]]),
    ("data", [container "x" ["g"], container "y" ["g"]])]

/-- When the grouping stands for both copies, none of these is looked at. -/
theorem error_of_generate_severed :
    ∃ s doc fault, (Schema.load Example.severed).result = .ok s ∧
      (generate s [.text "m"] { strategy := .optimizing }).result = .ok doc ∧
      (generate s [.text "m"] { strategy := .unpacking }).result = .error (.leafref fault) := by
  have htest : passes Example.severed [.text "m"] { strategy := .optimizing } (fun s _ =>
      (failure? s [.text "m"] { strategy := .unpacking }).any (·.leafref?.isSome)) = true := by
    decide +kernel
  obtain ⟨s, doc, hload, hgenerate, htest⟩ := exists_of_passes htest
  obtain ⟨fault, hfault⟩ := exists_fault_of_failure? htest
  exact ⟨s, doc, fault, hload, hgenerate, hfault⟩

end RestconfApi
