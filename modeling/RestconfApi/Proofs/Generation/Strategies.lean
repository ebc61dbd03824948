import RestconfApi.Proofs.Definitions.Equivalence
import RestconfApi.Proofs.Definitions.Whole
import RestconfApi.Proofs.Generation.References
import RestconfApi.Proofs.Generation.Stops

/-!
# Generation: the two strategies

Where the whole of the selected modules is walked over, a document with shared groupings has the operations of one
without, and what these take and hand out has the same fields, to any depth.
-/

namespace RestconfApi

open Definitions Generation

/-! ### Operations that are alike -/

namespace Document

/-- Operations of the same methods under the same paths, which say the same up to schemas that are related. -/
structure Like (S : Property → Property → Prop) (d doc : Document) : Prop where
  paths : ∀ path, (d.paths.get? path).isSome = (doc.paths.get? path).isSome
  operations : ∀ path method, Option.Rel (Operation.Like S) (d.operation? path method) (doc.operation? path method)

theorem Like.of_alikePaths {Q : Scalar → Scalar → Place → Prop} {S : Place → Property → Property → Prop}
    {d doc : Document} (h : AlikePaths Q S d.paths doc.paths) : d.Like (fun π π' => ∃ p, S p π π') doc where
  paths path := by
    rcases Entries.Alike.get? h path with ⟨hnone, hnone'⟩ | ⟨_, _, _, -, hsome, hsome', -⟩
    · rw [hnone, hnone']
    · rw [hsome, hsome']
      rfl
  operations path method := by
    rw [operation?, operation?]
    rcases Entries.Alike.get? h path with ⟨hnone, hnone'⟩ | ⟨_, os, os', -, hsome, hsome', -, hos⟩
    · rw [hnone, hnone']
      exact .none
    · rw [hsome, hsome', Option.bind_some, Option.bind_some]
      rcases Entries.Alike.get? hos method with ⟨hnone, hnone'⟩ | ⟨_, o, o', -, hsome, hsome', -, ho, -⟩
      · rw [hnone, hnone']
        exact .none
      · rw [hsome, hsome']
        refine .some (ho.mono ?_)
        rintro π π' ⟨p, -, hπ⟩
        exact ⟨p, hπ⟩

/-- Operations stay alike when both documents are postprocessed. -/
theorem Like.yields {S S' : Property → Property → Prop} {f f' : Name → Name} {d e doc doc' : Document}
    (h : d.Like S e) (hd : d.Yields f doc) (he : e.Yields f' doc')
    (hS : ∀ π π', S π π' → S' (π.mapRefs f) (π'.mapRefs f')) : doc.Like S' doc' where
  paths path := by rw [hd.methods.paths, he.methods.paths, h.paths]
  operations path method := by
    rw [operation?_map hd.paths, operation?_map he.paths]
    have hrel := h.operations path method
    generalize d.operation? path method = o at hrel
    generalize e.operation? path method = o' at hrel
    cases hrel with
    | none => exact .none
    | some ho => exact .some (ho.mapProperties hS)

/-- What alike operations hand out is related. -/
theorem Like.answer {S : Property → Property → Prop} {d doc : Document} (h : d.Like S doc)
    {path method code : Scalar} {π π' : Property} (hπ : d.answer? path method code = some π)
    (hπ' : doc.answer? path method code = some π') : S π π' := by
  obtain ⟨o, ho, hπ⟩ := Option.bind_eq_some_iff.mp hπ
  obtain ⟨o', ho', hπ'⟩ := Option.bind_eq_some_iff.mp hπ'
  have hoperations := h.operations path method
  rw [ho, ho'] at hoperations
  obtain ⟨a, ha, hπ⟩ := Option.bind_eq_some_iff.mp hπ
  obtain ⟨a', ha', hπ'⟩ := Option.bind_eq_some_iff.mp hπ'
  cases hoperations with
  | some hlike =>
    rcases Entries.Alike.get? hlike.responses code with ⟨hnone, -⟩ | ⟨_, b, b', -, hb, hb', hresponse⟩
    · rw [ha] at hnone
      cases hnone
    · obtain rfl := Option.some.inj (ha.symm.trans hb)
      obtain rfl := Option.some.inj (ha'.symm.trans hb')
      have hschema := hresponse.schema
      rw [hπ, hπ'] at hschema
      cases hschema with
      | some hS => exact hS

end Document

/-! ### Modules that are walked over whole -/

/-- Without augments all nodes of the selected modules are owned by these, so that none is passed over. -/
theorem Schema.LoadedFrom.isWhole {augmented : Prop} {declared s : Schema} {M : Expansion.Expanded}
    (h : LoadedFrom augmented declared M s) (haugmented : ¬augmented) (hnamed : s.IsNamed) (hcases : HasCases s)
    (htops : ∀ i, ∀ p ∈ s.tops i .data, p.node.kind ≠ .case) {names : List Name} {modules : List (Module × Nat)}
    (hselect : (select s names).result = .ok modules) : IsWhole s (modules.map (·.1.name)) modules := by
  rintro ⟨m, i⟩ hm p hp
  refine ⟨htops i p hp, fun x hx => ?_⟩
  have hget : s.modules[i]? = some m := getElem?_of_select hselect hm
  obtain ⟨hhas, hmodule, hpart, -⟩ := of_mem_nodes hp hx
  obtain ⟨m', hm', howner⟩ := h.exists_module haugmented hhas
  rw [hmodule, hget] at hm'
  obtain rfl := Option.some.inj hm'
  obtain ⟨t, ht, -⟩ := hnamed.names m (List.mem_of_getElem? hget)
  refine ⟨List.contains_iff_exists_mem_beq.mpr ⟨m.name, List.mem_map.mpr ⟨(m, i), hm, rfl⟩, ?_⟩, fun q hq => ?_⟩
  · rw [howner, ht]
    simp
  · obtain ⟨k, hk⟩ := Place.mem_children.mp hq
    exact hcases hhas hpart hk

/-! ### The same fields -/

/-- Without augments and limits both strategies give the same operations, and what these take and hand out has
the same fields, however deep; modules and groupings have to be told apart by their qualified names. -/
theorem equate_of_generate {d : Datum} {s : Schema} {names : List Name} {settings : Settings} {doc doc' : Document}
    (hload : (Schema.load d).result = .ok s) (haugments : ¬Schema.HasAugments d) (hnamed : s.IsNamed)
    (hgroupings : s.NamesGroupings) (hcases : HasCases s)
    (htops : ∀ i, ∀ p ∈ s.tops i .data, p.node.kind ≠ .case)
    (hdistinct : ∀ p, s.Has p → p.dataChildren.Pairwise fun x y => (x.node.name == y.node.name) = false)
    (hdepth : settings.maxDepth = .null)
    (h : (generate s names { settings with strategy := .optimizing }).result = .ok doc)
    (h' : (generate s names { settings with strategy := .unpacking }).result = .ok doc') :
    doc.Like (fun π π' => ∃ r r', π = { ref := some r } ∧ π' = { ref := some r' } ∧
      ∀ depth, Models.Equate doc.definitions doc'.definitions depth r r') doc' := by
  obtain ⟨declared, M, hfrom⟩ := Schema.exists_loadedFrom hload
  obtain ⟨modules, r, info, hg⟩ := exists_generated hload h
  obtain ⟨modules', r', info', hg'⟩ := exists_generated hload h'
  obtain rfl : modules = modules' := Except.ok.inj (hg.ran.selected.symm.trans hg'.ran.selected)
  have hschema : r.scope.schema = s := by rw [hg.ran.scope]
  have hschema' : r'.scope.schema = s := by rw [hg'.ran.scope]
  have hunshared : r'.scope.strategy = .unpacking := by rw [hg'.ran.scope]
  have hlimit : r.scope.maxLevel = none := by
    rw [hg.ran.scope]
    simp [Settings.levelLimit, hdepth]
  have hlimit' : r'.scope.maxLevel = none := by
    rw [hg'.ran.scope]
    simp [Settings.levelLimit, hdepth]
  have hknows : s.KnowsGroupings := hnamed.knowsGroupings hfrom
  have hfrom₁ := hschema.symm ▸ hfrom
  have hfrom₂ := hschema'.symm ▸ hfrom
  have hfresh : IsFresh { document := emptyDocument { settings with strategy := .optimizing } } :=
    ⟨rfl, rfl, rfl, rfl, rfl⟩
  have hwalk : True → ({ settings with strategy := .optimizing } : Settings).walkLimit = none :=
    fun _ => by simp [Settings.walkLimit, hdepth]
  have hscope : (⟨r.scope, modules.map (·.1.name)⟩ : Walk).scope = r.scope := rfl
  have hscope' : (⟨r'.scope, modules.map (·.1.name)⟩ : Walk).scope = r'.scope := rfl
  have hboth := walk_both hscope hscope' rfl rfl (hschema'.trans hschema.symm) hfrom₁.traced.ranked
    (fun i p hp => hfrom₁.kind_of_mem_rpcs hp)
    (fun u => Regime.whole hfrom₁ u (hschema.symm ▸ hknows) hlimit)
    (fun u => Regime.whole hfrom₂ u (hschema'.symm ▸ hknows) hlimit')
    (fun u => Regime.whole_enters hfrom₁ (hschema.symm ▸ hknows) hlimit)
    (fun u => Regime.whole_enters hfrom₂ (hschema'.symm ▸ hknows) hlimit')
    hwalk (fun _ => hschema.symm ▸ hfrom.isWhole haugments hnamed hcases htops hg.ran.selected) hfresh hfresh
  obtain ⟨htwins, -⟩ := hboth _ _ _ _ hg.ran.walked hg'.ran.walked
  have hyields := postprocessAll_yields hg.isClosed hg.postprocessed
  have hyields' := postprocessAll_yields hg'.isClosed hg'.postprocessed
  have hlike : Document.Like _ { r.definitions.finished with info } { r'.definitions.finished with info := info' } :=
    .of_alikePaths (htwins.finished (hschema'.trans hschema.symm))
  refine hlike.yields hyields hyields' fun π π' ⟨p, hp, ⟨k, hπ, hk⟩, k', hπ', hk'⟩ => ?_
  refine ⟨_, _, by rw [hπ]; rfl, by rw [hπ']; rfl, fun depth => ?_⟩
  rw [canonical_unpacking hunshared] at hk'
  have hakin := (mirrors_canonical (u := counted r.definitions) hfrom₁.traced.ranked True hp).behind.akin.symm
  exact equate_of_describes (hschema'.trans hschema.symm) hfrom₁ haugments (hschema.symm ▸ hnamed)
    (hschema.symm ▸ hgroupings) (hschema.symm ▸ hg.ran.groupings) (hschema.symm ▸ hdistinct) hunshared hyields.folds
    hyields'.folds depth (has_canonical hp) hp hakin (hk depth) (hk' depth)

/-- What `equate_of_generate` asks of the children of nodes, as a test. -/
def Schema.isRegular (s : Schema) : Bool :=
  s.places.all fun p =>
    (p.address.part ≠ .data || p.children.all fun x => x.node.kind = .case ↔ p.node.kind = .choice) &&
      (!p.above.isEmpty || p.node.kind ≠ .case) &&
      decide (p.dataChildren.Pairwise fun x y => (x.node.name == y.node.name) = false)

theorem Schema.of_isRegular {s : Schema} (h : s.isRegular = true) : HasCases s ∧
    (∀ i, ∀ p ∈ s.tops i .data, p.node.kind ≠ .case) ∧
    ∀ p, s.Has p → p.dataChildren.Pairwise fun x y => (x.node.name == y.node.name) = false := by
  simp only [isRegular, List.all_eq_true, Bool.and_eq_true, Bool.or_eq_true, decide_eq_true_eq,
    Bool.not_eq_true', List.isEmpty_eq_false_iff] at h
  refine ⟨fun {p x i} hp hpart hx => ?_, fun i p hp => ?_, fun p hp => (h p hp.mem_places).2⟩
  · exact (h p hp.mem_places).1.1.resolve_left (by simp [hpart]) x (Place.mem_children.mpr ⟨i, hx⟩)
  · have hplace := has_of_mem_tops hp
    exact (h p hplace.mem_places).1.2.resolve_left (by simp [above_of_mem_tops hp])

theorem equate_of_generate_shared :
    ∃ s doc doc', (Schema.load Example.shared).result = .ok s ∧ ¬Schema.HasAugments Example.shared ∧ s.IsNamed ∧
      s.NamesGroupings ∧ HasCases s ∧ (∀ i, ∀ p ∈ s.tops i .data, p.node.kind ≠ .case) ∧
      (∀ p, s.Has p → p.dataChildren.Pairwise fun x y => (x.node.name == y.node.name) = false) ∧
      (generate s [.text "m"] { strategy := .optimizing }).result = .ok doc ∧
      (generate s [.text "m"] { strategy := .unpacking }).result = .ok doc' ∧
      doc.Like (fun π π' => ∃ r r', π = { ref := some r } ∧ π' = { ref := some r' } ∧
        ∀ depth, Models.Equate doc.definitions doc'.definitions depth r r') doc' := by
  have htest : passes Example.shared [.text "m"] { strategy := .optimizing } (fun s _ =>
      s.modules.length = 1 && s.modules.all (·.name == .text "m") && (s.tops 0 .groupings).length = 1 &&
        (s.tops 0 .groupings).all (·.node.name == .text "g") && s.isRegular) = true := by
    decide +kernel
  have htest' : passes Example.shared [.text "m"] { strategy := .unpacking } (fun _ _ => true) = true := by
    decide +kernel
  obtain ⟨s, doc, hload, h, htest⟩ := exists_of_passes htest
  obtain ⟨s', doc', hload', h', -⟩ := exists_of_passes htest'
  obtain rfl : s = s' := Except.ok.inj (hload.symm.trans hload')
  simp only [Bool.and_eq_true, decide_eq_true_eq, List.all_eq_true] at htest
  obtain ⟨⟨⟨⟨hlength, hnames⟩, hone⟩, hgroupings⟩, hregular⟩ := htest
  obtain ⟨m, hm⟩ := List.length_eq_one_iff.mp hlength
  obtain ⟨g, hg⟩ := List.length_eq_one_iff.mp hone
  obtain ⟨hcases, htops, hdistinct⟩ := Schema.of_isRegular hregular
  have haugments : ¬Schema.HasAugments Example.shared := by decide +kernel
  have hnamed : s.IsNamed := Schema.isNamed_of_single hm
    (Datum.eq_text_of_beq (hnames m (by simp [hm]))) (by decide)
  have hfirst : ∀ i, ∀ g ∈ s.tops i .groupings, i = 0 := by
    intro i g hg
    obtain ⟨m', hm'⟩ := Schema.exists_module_of_mem_tops hg
    have := (List.getElem?_eq_some_iff.mp hm').1
    omega
  have hnamesGroupings : s.NamesGroupings := by
    refine ⟨fun i p hp => ?_, fun i => ?_⟩
    · obtain rfl := hfirst i p hp
      exact ⟨"g", Datum.eq_text_of_beq (hgroupings p hp)⟩
    · by_cases hi : i = 0
      · rw [hi, hg]
        exact List.pairwise_singleton _ _
      · have hnil : s.tops i .groupings = [] :=
          List.eq_nil_iff_forall_not_mem.mpr fun p hp => hi (hfirst i p hp)
        rw [hnil]
        exact .nil
  exact ⟨s, doc, doc', hload, haugments, hnamed, hnamesGroupings, hcases, htops, hdistinct, h, h',
    @equate_of_generate _ s [.text "m"] {} doc doc' hload haugments hnamed hnamesGroupings hcases htops hdistinct rfl
      h h'⟩

/-- A module whose name ends as another one is called, each with a grouping of the same name. -/
def Example.ambiguous : Datum :=
  .object [("modules", .list [
    module "m:1" [
      ("groupings", [grouping "g" [leaf "p"]]),
      ("data", [container "x" ["g"], container "y" ["g"]])],
    module "m" [],
    module "1" [("groupings", [grouping "g" [leaf "q"]])]])]

/-- A grouping that is not found under its qualified name is shared as another one. -/
theorem not_equate_of_generate_ambiguous :
    ∃ s doc doc', (Schema.load Example.ambiguous).result = .ok s ∧ ¬Schema.HasAugments Example.ambiguous ∧
      (s.modules.Pairwise fun m m' => (m.name == m'.name) = false) ∧
      (∀ m ∈ s.modules, m.groupings.Pairwise fun g g' => (g.name == g'.name) = false) ∧
      HasCases s ∧ (∀ i, ∀ p ∈ s.tops i .data, p.node.kind ≠ .case) ∧
      (∀ p, s.Has p → p.dataChildren.Pairwise fun x y => (x.node.name == y.node.name) = false) ∧
      (generate s [.text "m:1"] { strategy := .optimizing }).result = .ok doc ∧
      (generate s [.text "m:1"] { strategy := .unpacking }).result = .ok doc' ∧
      ¬doc.Like (fun π π' => ∃ r r', π = { ref := some r } ∧ π' = { ref := some r' } ∧
        ∀ depth, Models.Equate doc.definitions doc'.definitions depth r r') doc' := by
  have htest : passes Example.ambiguous [.text "m:1"] { strategy := .optimizing } (fun s doc =>
      decide (s.modules.Pairwise fun m m' => (m.name == m'.name) = false) &&
        (s.modules.all fun m => decide (m.groupings.Pairwise fun g g' => (g.name == g'.name) = false)) &&
        s.isRegular && (doc.answer? (.text "/data/m:1:x") (.text "get") (.text "200")).any fun π =>
          (π.ref.bind Datum.asKey?).any fun name => (Model.inlined? doc.definitions name).any fun fields =>
            !fields.any (·.1 == .text "p")) = true := by
    decide +kernel
  have htest' : passes Example.ambiguous [.text "m:1"] { strategy := .unpacking } (fun _ doc =>
      (doc.answer? (.text "/data/m:1:x") (.text "get") (.text "200")).any fun π =>
        (π.ref.bind Datum.asKey?).any fun name => (Model.inlined? doc.definitions name).any fun fields =>
          fields.any (·.1 == .text "p")) = true := by
    decide +kernel
  obtain ⟨s, doc, hload, h, htest⟩ := exists_of_passes htest
  obtain ⟨s', doc', hload', h', htest'⟩ := exists_of_passes htest'
  obtain rfl : s = s' := Except.ok.inj (hload.symm.trans hload')
  simp only [Option.any_eq_true, List.any_eq_true, List.all_eq_true, Bool.and_eq_true, Option.bind_eq_some_iff,
    Bool.not_eq_true', decide_eq_true_eq] at htest htest'
  obtain ⟨⟨⟨hmodules, hgroupings⟩, hregular⟩, π, hπ, name, ⟨r, hr, hname⟩, fields, hfields, hnone⟩ := htest
  obtain ⟨π', hπ', name', ⟨r', hr', hname'⟩, fields', hfields', ⟨key, q⟩, hq, hkey⟩ := htest'
  obtain rfl := Datum.eq_scalar_of_asKey? hname
  obtain rfl := Datum.eq_scalar_of_asKey? hname'
  obtain ⟨hcases, htops, hdistinct⟩ := Schema.of_isRegular hregular
  have haugments : ¬Schema.HasAugments Example.ambiguous := by decide +kernel
  refine ⟨s, doc, doc', hload, haugments, hmodules, hgroupings, hcases, htops, hdistinct, h, h', fun hlike => ?_⟩
  obtain ⟨_, _, rfl, rfl, hequate⟩ := hlike.answer hπ hπ'
  obtain rfl := Option.some.inj hr
  obtain rfl := Option.some.inj hr'
  obtain ⟨-, hback, -⟩ := hequate 1
  obtain ⟨key₀, q₀, hkey₀, hfield⟩ := hback key q ((Model.field_iff_of_inlined? hfields').mpr hq)
  have hmem := (Model.field_iff_of_inlined? hfields).mp hfield
  have hfalse := List.any_eq_false.mp hnone _ hmem
  exact hfalse (BEq.trans hkey₀ hkey)

end RestconfApi
