import RestconfApi.Proofs.Definitions.Recording
import RestconfApi.Proofs.Generation.Ending
import RestconfApi.Proofs.Generation.Strategies

/-!
# Generation: the depth bound in grouping bodies

The bodies of groupings are not walked over, so that it is not the level in a body that tells whether a container or a
list in it gets a definition. It does if it stands for a node that lies no deeper than the bound in the data of the
selected modules, or if a node in an rpc of theirs has come from it, wherever the walk comes to it first.
-/

namespace RestconfApi

open Definitions Example Generation Building

namespace Schema

variable {s : Schema} {augmented : Prop} {declared : Schema} {M : Expansion.Expanded}

theorem LoadedFrom.isWalked_of_part (h : LoadedFrom augmented declared M s) {x : Place} (hx : s.Has x)
    (hpart : x.address.part = .groupings) : x.isWalked = false := by
  obtain ⟨top, htop, hmem⟩ := hx.exists_top
  rw [hpart] at htop
  rw [Place.isWalked, (of_mem_nodes htop hmem).2.2.2]
  simp [h.kind_of_mem_groupings htop]

end Schema

namespace Generation

/-! ### Levels -/

variable {s : Schema} {selected : List Name} {limit : Option Nat} {i : Nat} {p : Place} {passed : List Place}

/-- On the way to a node its level is counted. -/
theorem Route.level (hcases : HasCases s) (h : Route s i p passed) : p.level = passed.length + 1 := by
  have hcount : (p.above.filter (·.kind ≠ .case)).length = passed.length := by
    induction h with
    | top hp => rw [Schema.above_of_mem_tops hp]; rfl
    | @inside q x passed j hq hk hx ih =>
      have hkind : q.node.kind ≠ .case := by
        intro hcase
        simp [hcase, Kind.isStructural] at hk
      rw [Place.above_of_childAt? hx, List.filter_cons_of_pos (by simpa using hkind), List.length_cons, ih]
      rfl
    | @through q y x passed j k hq hk hy hx ih =>
      have hcase : y.node.kind = .case := (hcases hq.has hq.part hy).mpr hk
      rw [Place.above_of_childAt? hx, List.filter_cons_of_neg (by simpa using hcase), Place.above_of_childAt? hy,
        List.filter_cons_of_pos (by simp [hk]), List.length_cons, ih]
      rfl
  rw [Place.level, hcount]

/-- A walk starts at containers, lists and choices. -/
theorem Route.kind_top (h : Route s i p passed) (hk : p.node.kind.isStructural = true ∨ p.node.kind = .choice) :
    p.top.kind.isStructural = true ∨ p.top.kind = .choice := by
  induction h with
  | top hp =>
    rw [Place.top, Schema.above_of_mem_tops hp]
    exact hk
  | inside _ hkind hx ih =>
    rw [Place.top_of_childAt? hx]
    exact ih (.inl hkind)
  | through _ hkind hy hx ih =>
    rw [Place.top_of_childAt? hx, Place.top_of_childAt? hy]
    exact ih (.inr hkind)

theorem IsOnWalk.isWalked (h : IsOnWalk s selected limit i p passed) : p.isWalked = true ∧ p.top.kind ≠ .rpc := by
  rw [Place.isWalked]
  rcases h.route.kind_top (.inl h.structural) with hk | hk
  · cases hkind : p.top.kind <;> simp_all [Kind.isStructural]
  · simp [hk]

/-! ### What has been recorded -/

section

variable {c : Scope} {u : Definitions} {modules : List (Module × Nat)} (h : Processed c.schema modules {} u)
include h

/-- What makes a template lie within the bound: a node in an rpc that has come from it, or a node that it stands for. -/
theorem withinBound_iff {t : Place} (ht : c.schema.Has t) :
    u.withinBound c t = true ↔ ∀ l, c.maxLevel = some l →
      (∃ x, IsIn c.schema modules x ∧ x.top.kind = .rpc ∧ t ∈ c.schema.templates x) ∨
        ∃ x, IsIn c.schema modules x ∧ x.top.kind ≠ .rpc ∧ (modules.map (·.1.name)).contains x.node.owner = true ∧
          x.level ≤ l ∧ t ∈ c.schema.templates x ∧ u.canonical c x = t := by
  unfold withinBound
  cases c.maxLevel with
  | none => simp
  | some l =>
    simp only [Option.some.injEq, forall_eq', Bool.or_eq_true, List.contains_iff_mem, h.mem_payload_iff ht]
    refine or_congr_right ?_
    simp only [List.any_eq_true, Bool.and_eq_true, beq_iff_eq, decide_eq_true_eq, h.contains_processed]
    constructor
    · rintro ⟨⟨a, x⟩, hmem, ⟨⟨rfl, howner⟩, hlevel⟩, hcanonical⟩
      obtain ⟨hx, hk, ht'⟩ := (h.mem_copies_iff ht).mp hmem
      exact ⟨x, hx, hk, howner, hlevel, ht', (has_canonical hx.1).eq ht hcanonical⟩
    · rintro ⟨x, hx, hk, howner, hlevel, ht', hcanonical⟩
      exact ⟨(t.address, x), (h.mem_copies_iff ht).mpr ⟨hx, hk, ht'⟩, ⟨⟨rfl, howner⟩, hlevel⟩, by rw [hcanonical]⟩

/-- What stands for a node that a walk comes to lies within the bound of the walk. -/
theorem IsOnWalk.withinBound (hcases : HasCases c.schema) {m : Module × Nat} (hm : m ∈ modules)
    (hp : IsOnWalk c.schema (modules.map (·.1.name)) c.maxLevel m.2 p passed)
    (hwalked : (u.canonical c p).isWalked = false) : u.withinBound c (u.canonical c p) = true := by
  have hpart : p.address.part ≠ .groupings := by simp [hp.route.part]
  have hmem : u.canonical c p ∈ c.schema.templates p := by
    refine (List.mem_cons.mp (canonical_mem p)).resolve_left fun heq => ?_
    rw [heq, hp.isWalked.1] at hwalked
    cases hwalked
  refine (withinBound_iff h (has_canonical hp.route.has)).mpr fun l hl => .inr ?_
  refine ⟨p, ⟨hp.route.has, hpart, m, hm, hp.route.module.symm⟩, hp.isWalked.2, hp.selected p List.mem_cons_self, ?_,
    hmem, rfl⟩
  rw [hp.route.level hcases]
  exact hp.level l hl

end

/-! ### Runs -/

/-- A node in the data or the rpcs of a selected module. -/
structure Outcome.Meets (r : Outcome) (x : Place) : Prop where
  has : r.scope.schema.Has x
  part : x.address.part ≠ .groupings
  module : ∃ m ∈ r.modules, r.scope.schema.modules[x.address.module]? = some m

/-- What a node in the body of a grouping gets a definition for: that there is no bound, a node in an rpc that has come
from it, or a node that it stands for and that lies in the data of the selected modules, no deeper than the bound. -/
inductive Outcome.Wants (r : Outcome) (depth : Datum) (t : Place) : Prop
  | unbounded : depth = .null → r.Wants depth t
  | payload {x : Place} : r.Meets x → x.top.kind = .rpc → t ∈ r.scope.schema.templates x → r.Wants depth t
  | copy {x : Place} {n : Int} : depth = .int n → r.Meets x → x.top.kind ≠ .rpc →
      (r.modules.map (·.name)).contains x.node.owner = true → x.level ≤ n →
      r.definitions.canonical r.scope x = t → r.Wants depth t

section

variable {names : List Name} {settings : Settings} {modules : List (Module × Nat)} {r : Outcome}

theorem Ran.getElem?_of_mem (h : Ran s names settings modules r) {m : Module × Nat} (hm : m ∈ modules) :
    s.modules[m.2]? = some m.1 :=
  getElem?_of_select h.selected hm

theorem Ran.meets_iff (h : Ran s names settings modules r) (hnamed : s.IsNamed) {x : Place} :
    r.Meets x ↔ IsIn s modules x := by
  have hschema : r.scope.schema = s := by rw [h.scope]
  constructor
  · rintro ⟨hx, hpart, m, hm, hmodule⟩
    rw [hschema] at hx hmodule
    rw [h.modules] at hm
    obtain ⟨found, hfound, rfl⟩ := List.mem_map.mp hm
    obtain ⟨t, ht, -⟩ := hnamed.names _ (List.mem_of_getElem? hmodule)
    exact ⟨hx, hpart, found, hfound, hnamed.distinct (h.getElem?_of_mem hfound) hmodule (by simp [ht])⟩
  · rintro ⟨hx, hpart, m, hm, hmodule⟩
    refine ⟨hschema ▸ hx, hpart, m.1, ?_, ?_⟩
    · rw [h.modules]
      exact List.mem_map_of_mem hm
    · rw [hschema, ← hmodule]
      exact h.getElem?_of_mem hm

/-- What is within the bound is what gives a node of a grouping body a definition. -/
theorem Ran.withinBound_iff (h : Ran s names settings modules r) (hnamed : s.IsNamed)
    (hdepth : settings.maxDepth = .null ∨ ∃ n, settings.maxDepth = .int n) {u : Definitions}
    (hprocessed : Processed s modules {} u) (husages : r.definitions.usages = u.usages) {t : Place} (ht : s.Has t)
    (hpart : t.address.part = .groupings) :
    u.withinBound r.scope t = true ↔ r.Wants settings.maxDepth t := by
  have hschema : r.scope.schema = s := by rw [h.scope]
  have hlimit : r.scope.maxLevel = settings.levelLimit := by rw [h.scope]
  have howners : modules.map (·.1.name) = r.modules.map (·.name) := by
    rw [h.modules, List.map_map]
    rfl
  have hcanonical : ∀ x, u.canonical r.scope x = r.definitions.canonical r.scope x :=
    fun x => (canonical_congr husages x).symm
  rw [Generation.withinBound_iff (c := r.scope) (hschema ▸ hprocessed) (hschema ▸ ht), hlimit]
  simp only [hschema, ← h.meets_iff hnamed, howners, hcanonical]
  rcases hdepth with hnull | ⟨n, hn⟩
  · exact ⟨fun _ => .unbounded hnull, fun _ l hl => by simp [Settings.levelLimit, hnull] at hl⟩
  · have hlevel : ∀ x : Place, x.level ≤ n.toNat ↔ (x.level : Int) ≤ n := by
      intro x
      have : 1 ≤ x.level := Nat.le_add_left 1 _
      omega
    simp only [Settings.levelLimit, hn, Option.some.injEq, forall_eq', hlevel]
    constructor
    · rintro (⟨x, hx, hk, hmem⟩ | ⟨x, hx, hk, howner, hle, -, hstands⟩)
      · exact .payload hx hk (hschema ▸ hmem)
      · exact .copy rfl hx hk howner hle hstands
    · rintro (hnull | ⟨hx, hk, hmem⟩ | @⟨x, n', hn', hx, hk, howner, hle, hstands⟩)
      · cases hnull
      · exact .inl ⟨_, hx, hk, hschema ▸ hmem⟩
      · obtain rfl := Scalar.int.inj (Datum.scalar.inj hn')
        refine .inr ⟨x, hx, hk, howner, hle, ?_, hstands⟩
        -- the node lies in no grouping, so that it is a copy
        have hmem := canonical_mem (c := r.scope) (u := r.definitions) x
        rw [hstands, hschema] at hmem
        refine (List.mem_cons.mp hmem).resolve_left fun heq => hx.part ?_
        rw [← heq, hpart]

theorem Ran.exists_isResting {augmented : Prop} {declared : Schema} {M : Expansion.Expanded}
    (h : Ran s names settings modules r) (hfrom : Schema.LoadedFrom augmented declared M s) (hnamed : s.IsNamed)
    (hcases : HasCases s) (hdepth : settings.maxDepth = .null ∨ ∃ n, settings.maxDepth = .int n) :
    ∃ u, Processed s modules {} u ∧ IsResting r.scope u (fun t => u.withinBound r.scope t = true) r.definitions := by
  have hschema : r.scope.schema = s := by rw [h.scope]
  have hlimit : r.scope.maxLevel = settings.levelLimit := by rw [h.scope]
  have hsame : settings.walkLimit = settings.levelLimit := by
    rcases hdepth with hnull | ⟨n, hn⟩
    · simp [Settings.walkLimit, Settings.levelLimit, hnull]
    · simp [Settings.walkLimit, Settings.levelLimit, hn]
  have hmodules : ∀ m ∈ modules, r.scope.schema.modules[m.2]? = some m.1 ∧ ∃ t, m.1.name = .text t := by
    intro m hm
    have hget := h.getElem?_of_mem hm
    obtain ⟨t, ht, -⟩ := hnamed.names _ (List.mem_of_getElem? hget)
    exact ⟨hschema ▸ hget, t, ht⟩
  have hwalk : (walk ⟨r.scope, modules.map (·.1.name)⟩ settings modules).Ensures { document := emptyDocument settings }
      fun _ d => ∃ u, Processed s modules {} u ∧ IsResting r.scope u (fun t => u.withinBound r.scope t = true) d := by
    unfold walk
    refine ensures_bind (((processModules_settles _ modules _).and_ensures
      (processModules_records hmodules)).ok.mono fun _ u hu => ?_)
    have hrecorded : Processed r.scope.schema modules {} u := ⟨hu.2.copies, hu.2.payload, hu.2.processed⟩
    have hfresh : IsFresh { document := emptyDocument settings } := ⟨rfl, rfl, rfl, rfl, rfl⟩
    have hresting := (hfresh.untouched hu.1).isResting (c := r.scope) (hu.1.records.trans rfl)
      fun t => u.withinBound r.scope t = true
    have hwalked : ∀ m ∈ modules, ∀ p passed,
        IsOnWalk r.scope.schema (modules.map (·.1.name)) settings.walkLimit m.2 p passed →
        (u.canonical r.scope p).isWalked = false → u.withinBound r.scope (u.canonical r.scope p) = true := by
      intro m hm p passed hp
      rw [hsame, ← hlimit] at hp
      exact IsOnWalk.withinBound hrecorded (hschema ▸ hcases) hm hp
    have hvisits := visitModules_isResting (w := ⟨r.scope, modules.map (·.1.name)⟩) (hschema ▸ hfrom)
      (hschema ▸ hnamed.knowsGroupings hfrom) (fun _ ht => ht) hwalked hresting
    exact hvisits.ok.mono fun _ d hd => ⟨u, hschema ▸ hrecorded, hd⟩
  exact hwalk _ _ h.walked

end

end Generation

/-- In the definition of a grouping or of a node in the body of one, a field that no shared grouping supplies, and
that is a container or a list, points at a definition exactly if what stands for it has copies in rpcs or within the
bound. -/
theorem rendered_iff_of_run {d : Datum} {s : Schema} {names : List Name} {settings : Settings} {r : Outcome}
    (hload : (Schema.load d).result = .ok s) (hnamed : s.IsNamed) (hcases : HasCases s)
    (hdepth : settings.maxDepth = .null ∨ ∃ n, settings.maxDepth = .int n)
    (hrun : (run s names settings).result = .ok r) {p x : Place} (hp : s.Has p) (hpart : p.address.part = .groupings)
    (hself : r.definitions.canonical r.scope p = p) {name : Scalar}
    (hname : r.definitions.names.get? p.address = some name) (hx : IsLastField (ownChildren r.scope r.definitions p) x)
    (hk : x.node.kind.isStructural = true) :
    ∃ m, r.definitions.models.get? name = some m ∧
      (∃ key q, m.Own key q ∧ (x.node.name == .scalar key) = true) ∧
      ∀ key q, m.Own key q → (x.node.name == .scalar key) = true →
        ∃ shown, q.Matches (structuralProperty x shown) ∧
          (shown.isSome = true ↔ r.Wants settings.maxDepth (r.definitions.canonical r.scope x)) := by
  obtain ⟨declared, M, hfrom⟩ := Schema.exists_loadedFrom hload
  obtain ⟨modules, hran⟩ := exists_ran hrun
  obtain ⟨u, hprocessed, hresting⟩ := hran.exists_isResting hfrom hnamed hcases hdepth
  have hschema : r.scope.schema = s := by rw [hran.scope]
  have husages := hresting.confined.counts.usages
  rw [canonical_congr husages] at hself ⊢
  rw [ownChildren_congr husages] at hx
  obtain ⟨m, hm, hrenders⟩ := hresting.confined.models p name (hschema ▸ hp) hself hname
  have hmem := (List.mem_filter.mp hx.mem).1
  have hxhas : r.scope.schema.Has x := hschema ▸ hp.dataChild hmem
  have hhas : s.Has (u.canonical r.scope x) := hschema ▸ has_canonical hxhas
  -- what stands for the field lies in a grouping as well, and so is not walked over
  have hstands : (u.canonical r.scope x).address.part = .groupings := by
    have htraced := hschema ▸ hfrom.traced
    rcases htraced.part_of_isBehind hxhas (mirrors_canonical (u := u) htraced.ranked True hxhas).behind with
      heq | hpart'
    · rw [heq, Place.part_of_mem_dataChildren hmem, hpart]
    · exact hpart'
  have hwalked := hfrom.isWalked_of_part hhas hstands
  have hwants := hran.withinBound_iff hnamed hdepth hprocessed husages hhas hstands
  refine ⟨m, hm, hrenders.complete x hx.mem hk, fun key q hq hkey => ?_⟩
  obtain ⟨shown, hmatches, hrendered⟩ := hrenders.rendered x hx hk key q hq hkey
  refine ⟨shown, hmatches, ?_⟩
  rw [← hwants]
  cases hshown : shown with
  | none =>
    simp [hrendered.untyped hwalked hshown]
  | some name' =>
    simp [hrendered.pointing hwalked (by rw [hshown]; rfl)]

/-- A grouping with containers in each other, shared by two more. -/
def Example.sunk : Datum :=
  document [
    ("groupings", [grouping "g" [leaf "l", container "inner" [] [container "deep" [] [leaf "k"]]]]),
    ("data", [container "x" ["g"], container "y" ["g"]])]

theorem rendered_iff_of_run_sunk :
    ∃ s r p x name, (Schema.load Example.sunk).result = .ok s ∧ s.IsNamed ∧ HasCases s ∧
      (run s [.text "m"] { maxDepth := .int 2 }).result = .ok r ∧ s.Has p ∧ p.address.part = .groupings ∧
      r.definitions.canonical r.scope p = p ∧ r.definitions.names.get? p.address = some name ∧
      IsLastField (ownChildren r.scope r.definitions p) x ∧ x.node.kind.isStructural = true ∧
      ∃ m, r.definitions.models.get? name = some m ∧
        (∃ key q, m.Own key q ∧ (x.node.name == .scalar key) = true) ∧
        ∀ key q, m.Own key q → (x.node.name == .scalar key) = true →
          ∃ shown, q.Matches (structuralProperty x shown) ∧
            (shown.isSome = true ↔ r.Wants (.int 2) (r.definitions.canonical r.scope x)) := by
  have htest : ((Schema.load Example.sunk).result.toOption.any fun s =>
      decide (s.modules.map (·.name.asText?) = ["m"].map some) && s.isRegular &&
        (run s [.text "m"] { maxDepth := .int 2 }).result.toOption.any fun r =>
          (s.place? ⟨0, .groupings, [0]⟩).any fun p =>
            (r.definitions.canonical r.scope p).address = p.address &&
              (r.definitions.names.get? p.address).isSome &&
                (ownChildren r.scope r.definitions p).getLast?.any (·.node.kind.isStructural)) = true := by
    decide +kernel
  obtain ⟨s, hload, htest⟩ := exists_of_any htest
  simp only [Bool.and_eq_true, decide_eq_true_eq] at htest
  obtain ⟨⟨hnames, hregular⟩, htest⟩ := htest
  obtain ⟨r, hrun, htest⟩ := exists_of_any htest
  simp only [Option.any_eq_true, Bool.and_eq_true, decide_eq_true_eq] at htest
  obtain ⟨p, hplace, ⟨haddress, hsome⟩, x, hlast, hk⟩ := htest
  obtain ⟨name, hname⟩ := Option.isSome_iff_exists.mp hsome
  obtain ⟨modules, hran⟩ := exists_ran hrun
  have hschema : r.scope.schema = s := by rw [hran.scope]
  have hp := Schema.has_of_place? hplace
  have hphas : r.scope.schema.Has p := hschema ▸ hp
  have hself := (has_canonical hphas).eq hphas haddress
  have hpart : p.address.part = .groupings := by rw [Schema.address_of_place? hplace]
  have hnamed : s.IsNamed := Schema.isNamed_of_nodup hnames (by decide) (by decide)
  obtain ⟨hcases, -⟩ := Schema.of_isRegular hregular
  have hx := isLastField_of_getLast? hlast
  exact ⟨s, r, p, x, name, hload, hnamed, hcases, hrun, hp, hpart, hself, hname, hx, hk,
    rendered_iff_of_run hload hnamed hcases (.inr ⟨2, rfl⟩) hrun hp hpart hself hname hx hk⟩

/-- A container in the grouping that is taken for the other one stays untyped, although copies of it lie within the
bound. -/
theorem untyped_of_run_looping :
    ∃ s r p x name m key q, (Schema.load Example.looping).result = .ok s ∧
      (s.modules.Pairwise fun m m' => (m.name == m'.name) = false) ∧
      (∀ m ∈ s.modules, m.groupings.Pairwise fun g g' => (g.name == g'.name) = false) ∧ HasCases s ∧
      (run s [.text "1"] { maxDepth := .int 9 }).result = .ok r ∧ s.Has p ∧ p.address.part = .groupings ∧
      r.definitions.canonical r.scope p = p ∧ r.definitions.names.get? p.address = some name ∧
      r.definitions.models.get? name = some m ∧ IsLastField (ownChildren r.scope r.definitions p) x ∧
      x.node.kind.isStructural = true ∧ m.Own key q ∧ (x.node.name == .scalar key) = true ∧
      r.Wants (.int 9) (r.definitions.canonical r.scope x) ∧ q.ref = none ∧ q.items = none := by
  have htest : ((Schema.load Example.looping).result.toOption.any fun s =>
      decide (s.modules.Pairwise fun m m' => (m.name == m'.name) = false) &&
        (s.modules.all fun m => decide (m.groupings.Pairwise fun g g' => (g.name == g'.name) = false)) &&
        s.isRegular && (select s [.text "1"]).result.toOption.any fun modules =>
          (run s [.text "1"] { maxDepth := .int 9 }).result.toOption.any fun r =>
            (s.place? ⟨0, .groupings, [0]⟩).any fun p => (s.place? ⟨0, .data, [0, 0]⟩).any fun y =>
              (r.definitions.canonical r.scope p).address = p.address && modules.any (·.2 = 0) &&
                y.top.kind ≠ .rpc && (r.modules.map (·.name)).contains y.node.owner && y.level ≤ 9 &&
                  (r.definitions.names.get? p.address).any fun name =>
                    (Model.inlined? r.definitions.models name).any fun fields =>
                      (ownChildren r.scope r.definitions p).getLast?.any fun x => x.node.kind.isStructural &&
                        (r.definitions.canonical r.scope y).address = (r.definitions.canonical r.scope x).address &&
                          fields.any fun e => x.node.name == .scalar e.1 && e.2.ref.isNone && e.2.items.isNone) =
      true := by
    decide +kernel
  obtain ⟨s, hload, htest⟩ := exists_of_any htest
  simp only [Bool.and_eq_true, decide_eq_true_eq, List.all_eq_true] at htest
  obtain ⟨⟨⟨hmodules, hgroupings⟩, hregular⟩, htest⟩ := htest
  obtain ⟨modules, hselected, htest⟩ := exists_of_any htest
  obtain ⟨r, hrun, htest⟩ := exists_of_any htest
  simp only [Option.any_eq_true, Bool.and_eq_true, decide_eq_true_eq, List.any_eq_true, Option.isNone_iff_eq_none]
    at htest
  obtain ⟨p, hplace, y, hyplace, ⟨⟨⟨⟨haddress, found, hfound, hmodule⟩, hrpc⟩, howner⟩, hlevel⟩, name, hname, fields,
    hfields, x, hlast, ⟨hk, hstands⟩, ⟨key, q⟩, hmem, ⟨hkey, href⟩, hitems⟩ := htest
  obtain ⟨modules', hran⟩ := exists_ran hrun
  obtain rfl : modules = modules' := Except.ok.inj (hselected.symm.trans hran.selected)
  have hschema : r.scope.schema = s := by rw [hran.scope]
  have hp := Schema.has_of_place? hplace
  have hy := Schema.has_of_place? hyplace
  have hyaddress := Schema.address_of_place? hyplace
  obtain ⟨hcases, -⟩ := Schema.of_isRegular hregular
  have hx := isLastField_of_getLast? hlast
  have hxhas := hp.dataChild (List.mem_filter.mp hx.mem).1
  have hphas : r.scope.schema.Has p := hschema ▸ hp
  have hself := (has_canonical hphas).eq hphas haddress
  have hsame : r.definitions.canonical r.scope y = r.definitions.canonical r.scope x :=
    Schema.Has.eq (has_canonical (hschema ▸ hy)) (has_canonical (hschema ▸ hxhas)) hstands
  have hmeets : r.Meets y := by
    refine ⟨hschema ▸ hy, by simp [hyaddress], found.1, ?_, ?_⟩
    · rw [hran.modules]
      exact List.mem_map_of_mem hfound
    · rw [hschema, hyaddress, ← hmodule]
      exact hran.getElem?_of_mem hfound
  obtain ⟨m, hm, hown⟩ := Model.own_iff_of_inlined? hfields
  exact ⟨s, r, p, x, name, m, key, q, hload, hmodules, hgroupings, hcases, hrun, hp,
    by rw [Schema.address_of_place? hplace], hself, hname, hm, hx, hk, (hown key q).mpr hmem, hkey,
    .copy rfl hmeets hrpc howner (by exact_mod_cast hlevel) hsame, href, hitems⟩

end RestconfApi
