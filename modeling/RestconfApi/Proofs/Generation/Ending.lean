import RestconfApi.Proofs.Definitions.Demands
import RestconfApi.Proofs.Documents
import RestconfApi.Proofs.Generation.Walk
import RestconfApi.Proofs.Generation.Routes
import RestconfApi.Proofs.Path.Emission
import RestconfApi.Schema.Load

/-!
# Generation: that it ends

While a document is generated no definition is demanded while it is underway, and definitions demand each other no
deeper than the schema has nodes. Names have to tell the groupings of different modules apart: groupings are found
again by their qualified names, which are read up to the first colon.
-/

namespace RestconfApi

open Definitions Example Generation Building

namespace Generation

variable {w : Walk} {settings : Settings} {u d : Definitions} {permits : Place → Prop}

/-! ### Walks -/

/-- What the steps of a walk keep: definitions stay within their bounds, and none is underway between them. -/
structure IsResting (c : Scope) (u : Definitions) (permits : Place → Prop) (d : Definitions) : Prop where
  confined : Confined c u permits d
  idle : d.underway = []

theorem isResting_accepts (c : Scope) (u : Definitions) (permits : Place → Prop) :
    Handler.Accepts (IsResting c u permits) Fails fun _ _ _ => True where
  noted _ _ hmore hd := ⟨hd.confined.noted hmore, hd.idle⟩
  fails _ hd := ⟨by simp, hd.confined.records⟩
  added _ _ _ _ _ hd :=
    { confined :=
        { counts := ⟨hd.confined.counts.usages, hd.confined.counts.copies, hd.confined.counts.payload,
            hd.confined.counts.processed⟩
          records := hd.confined.records
          names := hd.confined.names
          models := hd.confined.models
          sound := ⟨hd.confined.sound.usages, hd.confined.sound.closed, hd.confined.sound.names,
            hd.confined.sound.completed, hd.confined.sound.built⟩ }
      idle := hd.idle }

section

variable {augmented : Prop} {declared : Schema} {M : Expansion.Expanded}
  (hfrom : Schema.LoadedFrom augmented declared M w.scope.schema) (hknows : w.scope.schema.KnowsGroupings)
  (hpermits : ∀ p, u.withinBound w.scope p = true → permits p)
include hfrom hknows hpermits

/-- A walk keeps it if what stands for the nodes that are walked over is permitted, unless it is walked over as
well. -/
theorem isResting_keepsModule {i : Nat}
    (hwalked : ∀ p passed, IsOnWalk w.scope.schema w.selected settings.walkLimit i p passed →
      (u.canonical w.scope p).isWalked = false → permits (u.canonical w.scope p)) :
    KeepsModule w settings i (IsResting w.scope u permits) Fails where
  data m hm :=
    { noted := fun d level text hlevel hd =>
        ⟨hd.confined.noted fun r hr => List.mem_singleton.mp hr ▸ Record.isBenign_of_ne hlevel text, hd.idle⟩
      fails := fun d hd => ⟨by simp, hd.confined.records⟩
      emits := fun p passed hwalk d hd => by
        rw [hwalk.emit_eq]
        have howners := hwalk.has_of_mem_owners settings.tagRules m.name
        have hkeys : ∀ x, Handler.IsKeyLeaf (routeHandler (Handler.ofRules settings.tagRules) m.name (p :: passed))
            (routeSegment m.name (p :: passed)) x → ∀ e, (w.scope.schema.leafProperty x).result = .error e →
              ∀ d, IsResting w.scope u permits d → Fails e d := fun x hx e he d hd =>
          ⟨(Schema.ends_leafProperty (hx.has howners)).result e he, hd.confined.records⟩
        exact (Handler.dataPath_settles (isResting_accepts w.scope u permits) howners hkeys
          (fun _ _ _ => trivial) p hd).imp fun _ _ h => h.1
      defines := fun p passed hwalk d hd =>
        (define_settles hfrom hknows hpermits hwalk.route.has hd.confined hd.idle
          fun _ => hwalked p passed hwalk).imp fun _ _ h => ⟨h.1, h.2⟩ }
  rpcs m hm rpc hrpc d hd := by
    rw [Handler.emit_of_rpc (hfrom.kind_of_mem_rpcs hrpc)]
    refine (Handler.rpcPath_settles (N := fun _ => True) (isResting_accepts w.scope u permits) (fun _ _ => trivial)
      (fun p hp d hd => ?_) hd).imp fun _ _ h => h.1
    refine (define_settles hfrom hknows hpermits (Handler.has_of_mem_payloads (Schema.has_of_mem_tops hrpc) hp)
      hd.confined hd.idle fun hk => ?_).imp fun _ _ h => ⟨⟨h.1, h.2⟩, trivial⟩
    rcases (Handler.of_mem_payloads hp).2 with hkind | hkind <;> simp [hkind, Kind.isStructural] at hk

theorem visitModules_isResting {modules : List (Module × Nat)}
    (hwalked : ∀ m ∈ modules, ∀ p passed, IsOnWalk w.scope.schema w.selected settings.walkLimit m.2 p passed →
      (u.canonical w.scope p).isWalked = false → permits (u.canonical w.scope p))
    (hd : IsResting w.scope u permits d) :
    (modules.forM fun (_, i) => visitModule w settings i).Settles d
      (fun _ d' => IsResting w.scope u permits d') Fails :=
  visitModules_settles (fun m hm => isResting_keepsModule hfrom hknows hpermits (hwalked m hm)) hd

end

/-- Nothing has been built when all uses have been counted. -/
theorem IsFresh.isResting {c : Scope} (h : IsFresh d) (hrecords : d.records = []) (permits : Place → Prop) :
    IsResting c d permits d where
  confined :=
    { counts := ⟨rfl, rfl, rfl, rfl⟩
      records := by simp [hrecords]
      names := by simp [h.names]
      models := by simp [h.names]
      sound := h.sound rfl _ }
  idle := h.underway

/-- The walk through the selected modules ends. -/
theorem walk_settles {augmented : Prop} {declared : Schema} {M : Expansion.Expanded}
    (hfrom : Schema.LoadedFrom augmented declared M w.scope.schema) (hknows : w.scope.schema.KnowsGroupings)
    (modules : List (Module × Nat)) (hfresh : IsFresh d) (hrecords : d.records = []) :
    (walk w settings modules).Settles d (fun _ d' => ∀ r ∈ d'.records, r.IsBenign) Fails := by
  unfold walk
  refine settles_bind ((processModules_settles w.scope.schema modules d).mono (fun _ d₁ h₁ => ?_) fun e d₁ h₁ => ?_)
  · have hresting : IsResting w.scope d₁ (fun _ => True) d₁ :=
      (hfresh.untouched h₁).isResting (h₁.records.trans hrecords) _
    exact (visitModules_isResting hfrom hknows (fun _ _ => trivial) (fun _ _ _ _ _ _ => trivial) hresting).imp
      fun _ _ h => h.confined.records
  · exact ⟨by simp [h₁.1], by simp [h₁.2.records, hrecords]⟩

/-! ### Selection and postprocessing -/

theorem ends_joined (sep : String) (names : List Name) : Failure.Ends (joined sep names) :=
  Failure.ends_bind (Failure.ends_mapM Datum.ends_text? _) fun _ => Failure.ends_ok _

theorem ends_select (s : Schema) (names : List Name) : (select s names).Ends := by
  unfold select
  refine Logged.ends_ite ?_ (Logged.ends_ite ?_ (Logged.ends_mapM (fun name => ?_) _))
  · exact Logged.ends_bind (Logged.ends_write (Record.isBenign_of_ne (by simp) _)) fun _ => Logged.ends_fail (by simp)
  · refine Logged.ends_bind (Logged.ends_write (Record.isBenign_of_ne (by simp) _)) fun _ => ?_
    refine Logged.ends_bind (Logged.ends_ofExcept (ends_joined _ _)) fun _ => ?_
    exact Logged.ends_bind (Logged.ends_write (Record.isBenign_of_ne (by simp) _)) fun _ => Logged.ends_fail (by simp)
  · split
    · exact Logged.ends_pure _
    · exact Logged.ends_bind (Logged.ends_ofExcept (Datum.ends_wording? _)) fun _ => Logged.ends_fail (by simp)

theorem ends_info (settings : Settings) (title : String) (modules : List Module) :
    Failure.Ends (info settings title modules) :=
  Failure.ends_bind (ends_joined _ _) fun _ => Failure.ends_ok _

end Generation

namespace Document

theorem isBenign_of_mem_foldWarnings {d : Document} {r : Record} (h : r ∈ d.foldWarnings) : r.IsBenign := by
  obtain ⟨name, -, rfl⟩ := List.mem_map.mp h
  intro _
  simp [toString]

theorem isBenign_of_mem_foldFrom (fuel : Nat) {d : Document} {r : Record} (h : r ∈ (foldFrom fuel d).2) :
    r.IsBenign := by
  induction fuel generalizing d with
  | zero => simp [foldFrom] at h
  | succ fuel ih =>
    rw [foldFrom] at h
    dsimp only at h
    split at h
    · exact isBenign_of_mem_foldWarnings h
    · rw [List.mem_append, List.mem_append] at h
      rcases h with (h | h) | h
      · exact isBenign_of_mem_foldWarnings h
      · obtain ⟨e, -, rfl⟩ := List.mem_map.mp h
        exact Record.isBenign_of_ne (by simp) _
      · exact ih h

theorem ends_foldAliases? (d : Document) : d.foldAliases?.Ends := by
  unfold foldAliases?
  refine Logged.ends_ite ⟨Failure.ends_ok _, fun r => isBenign_of_mem_foldFrom _⟩ (Logged.ends_ite
    (Logged.ends_fail (by simp)) ⟨?_, fun r => isBenign_of_mem_foldWarnings⟩)
  exact Failure.ends_ite (Failure.ends_ok _) (Failure.ends_error (by simp))

theorem ends_sortDefinitions? (d : Document) : Failure.Ends d.sortDefinitions? :=
  Failure.ends_ite (Failure.ends_ok _) (Failure.ends_error (by simp))

theorem ends_sort? (d : Document) : Failure.Ends d.sort? :=
  Failure.ends_bind (ends_sortDefinitions? d) fun _ =>
    Failure.ends_ite (Failure.ends_ok _) (Failure.ends_error (by simp))

end Document

namespace Generation

theorem ends_postprocessAll (settings : Settings) (d : Document) : (postprocessAll settings d).Ends := by
  unfold postprocessAll
  refine Logged.ends_ite (Logged.ends_bind (Logged.ends_write ?_) fun _ => Logged.ends_pure _)
    (Logged.ends_foldlM (fun d p => ?_) _ _)
  · intro _
    simp
  · cases p with
    | foldAliases => exact Document.ends_foldAliases? d
    | sortDefinitions => exact Logged.ends_ofExcept (Document.ends_sortDefinitions? d)
    | sort => exact Logged.ends_ofExcept (Document.ends_sort? d)

theorem ends_run {s : Schema} {augmented : Prop} {declared : Schema} {M : Expansion.Expanded}
    (hfrom : Schema.LoadedFrom augmented declared M s) (hknows : s.KnowsGroupings) (names : List Name)
    (settings : Settings) : (run s names settings).Ends := by
  unfold run
  refine Logged.ends_bind (ends_select s names) fun modules => ?_
  refine Logged.ends_bind (Logged.ends_forM (fun name =>
    Logged.ends_bind (Logged.ends_ofExcept (Datum.ends_key? _)) fun _ => Logged.ends_pure _) _) fun _ => ?_
  refine Logged.ends_bind (Groupings.ends_ofSchema s) fun groupings => ?_
  refine Logged.ends_bind (Logged.ends_ofExcept (ends_joined _ _)) fun title => ?_
  refine Logged.ends_bind (Logged.ends_write (Record.isBenign_of_ne (by simp) _)) fun _ => ?_
  dsimp only
  have hfresh : IsFresh { document := emptyDocument settings } := ⟨rfl, rfl, rfl, rfl, rfl⟩
  let w : Walk := ⟨⟨s, groupings, settings.strategy, settings.levelLimit⟩, modules.map (·.1.name)⟩
  have hwalk : (walk w settings modules).Settles { document := emptyDocument settings } _ _ :=
    walk_settles hfrom hknows modules hfresh rfl
  refine Logged.ends_bind ?_ fun _ => Logged.ends_pure _
  show Logged.Ends ⟨(walk w settings modules { document := emptyDocument settings }).2.records,
    (walk w settings modules { document := emptyDocument settings }).1⟩
  rcases hx : walk w settings modules { document := emptyDocument settings } with ⟨e | a, d'⟩
  · exact ⟨Failure.ends_error (hwalk.error e d' hx).1, (hwalk.error e d' hx).2⟩
  · exact ⟨Failure.ends_ok _, hwalk.ok a d' hx⟩

end Generation

/-- Where modules are told apart by names without colons, generation does not run out of depth, and no node is taken to
contain itself. -/
theorem ends_generate {d : Datum} {s : Schema} (hload : (Schema.load d).result = .ok s) (hnamed : s.IsNamed)
    (names : List Name) (settings : Settings) :
    (generate s names settings).result ≠ .error .endless ∧
      ∀ p : Place, ⟨.warning, s!"{p.schemaPath} contains itself, emitting an untyped object"⟩ ∉
        (generate s names settings).records := by
  obtain ⟨declared, M, hfrom⟩ := Schema.exists_loadedFrom hload
  have hends : (generate s names settings).Ends := by
    unfold generate
    refine Logged.ends_bind (ends_run hfrom (hnamed.knowsGroupings hfrom) names settings) fun r => ?_
    exact Logged.ends_bind (Logged.ends_ofExcept (ends_info _ _ _)) fun _ => ends_postprocessAll _ _
  refine ⟨fun hresult => hends.result _ hresult rfl, fun p hmem => hends.records _ hmem rfl ?_⟩
  simp [Place.schemaPath, toString]

/-- A grouping that uses one of another module, and containers that share both. -/
def Example.lent : Datum :=
  .object [("modules", .list [
    module "a" [
      ("groupings", [grouping "g" [container "t" ["b:h"]]]),
      ("data", [container "x" ["g"], container "y" ["g"]])],
    module "b" [
      ("groupings", [grouping "h" [container "u" [] [leaf "l"]]]),
      ("data", [container "z" ["h"]])]])]

theorem ends_generate_lent :
    ∃ s doc, (Schema.load Example.lent).result = .ok s ∧ s.IsNamed ∧
      (generate s [.text "a", .text "b"] {}).result = .ok doc ∧ doc.definitions.length = 3 ∧
      (generate s [.text "a", .text "b"] {}).result ≠ .error .endless ∧
      ∀ p : Place, ⟨.warning, s!"{p.schemaPath} contains itself, emitting an untyped object"⟩ ∉
        (generate s [.text "a", .text "b"] {}).records := by
  have htest : ((Schema.load Example.lent).result.toOption.any fun s =>
      decide (s.modules.map (·.name.asText?) = ["a", "b"].map some) &&
        (generate s [.text "a", .text "b"] {}).result.toOption.any (·.definitions.length = 3)) = true := by
    decide +kernel
  obtain ⟨s, hload, htest⟩ := exists_of_any htest
  simp only [Bool.and_eq_true, decide_eq_true_eq] at htest
  obtain ⟨hnames, htest⟩ := htest
  obtain ⟨doc, hdoc, hlength⟩ := exists_of_any htest
  have hnamed : s.IsNamed := Schema.isNamed_of_nodup hnames (by decide) (by decide)
  exact ⟨s, doc, hload, hnamed, hdoc, by simpa using hlength, ends_generate hload hnamed _ _⟩

/-- A module whose name ends as another one is called, each with a grouping of the same name, one of which uses the
other. -/
def Example.looping : Datum :=
  .object [("modules", .list [
    module "1" [
      ("groupings", [grouping "g" [container "t" ["m:1:g"]]]),
      ("data", [container "x" ["g"], container "y" ["g"], container "z" ["m:1:g"]])],
    module "m:1" [("groupings", [grouping "g" [leaf "l"]])]])]

/-- The qualified name of the shared grouping is read as that of the one that uses it. -/
theorem contains_itself_generate_looping :
    ∃ s p, (Schema.load Example.looping).result = .ok s ∧
      (s.modules.Pairwise fun m m' => (m.name == m'.name) = false) ∧
      (∀ m ∈ s.modules, m.groupings.Pairwise fun g g' => (g.name == g'.name) = false) ∧ s.Has p ∧
      ⟨.warning, s!"{p.schemaPath} contains itself, emitting an untyped object"⟩ ∈
        (generate s [.text "1"] {}).records := by
  have htest : ((Schema.load Example.looping).result.toOption.any fun s =>
      decide (s.modules.Pairwise fun m m' => (m.name == m'.name) = false) &&
        (s.modules.all fun m => decide (m.groupings.Pairwise fun g g' => (g.name == g'.name) = false)) &&
        (s.place? ⟨0, .groupings, [0, 0]⟩).any fun p =>
          (generate s [.text "1"] {}).records.contains
            ⟨.warning, s!"{p.schemaPath} contains itself, emitting an untyped object"⟩) = true := by
    decide +kernel
  obtain ⟨s, hload, htest⟩ := exists_of_any htest
  simp only [Bool.and_eq_true, decide_eq_true_eq, List.all_eq_true, Option.any_eq_true, List.contains_iff_mem] at htest
  obtain ⟨⟨hmodules, hgroupings⟩, p, hp, hrecord⟩ := htest
  exact ⟨s, p, hload, hmodules, hgroupings, Schema.has_of_place? hp, hrecord⟩

end RestconfApi
