import RestconfApi.Proofs.Definitions.Equivalence
import RestconfApi.Proofs.Generation.Fields

/-!
# Generation: the keys of lists

A definition requires what the node that it stands for demands of its own fields, and what the shared groupings
behind it demand. So a key of a list stays required wherever the key is a field of the list itself; a grouping that
supplies the key leaf knows nothing of the list.
-/

namespace RestconfApi

open Definitions Generation

/-- What is mandatory among all that contributes is demanded, wherever it comes from. -/
theorem Definitions.Contributes.demands {c : Scope} {u : Definitions} {p y : Place} (h : Contributes c u p y)
    {key : String} (hfield : y.node.kind.isField = true) (hname : y.node.name = .text key)
    (hmandatory : y.node.mandatory = true) : Demands c u p key := by
  induction h with
  | own hx hsupplier => exact .own hx hsupplier ⟨hfield, hname, .inl hmandatory⟩
  | shared houter hg _ ih => exact .shared houter hg (ih hfield hname hmandatory)

namespace Generation

/-- The shared grouping that a run leaves the field of a child to when it defines `site`. -/
def supplied? (s : Schema) (names : List Name) (settings : Settings) (site : Node) (child : Place) :
    Option String :=
  match (run s names settings).result with
  | .ok r => supplier? r.scope (counted r.definitions) site child
  | .error _ => none

end Generation

/-- The definition of a node requires what is demanded where the node that stands for it is. -/
theorem Generated.requires_of_demands {s : Schema} {names : List Name} {settings : Settings}
    {modules : List (Module × Nat)} {r : Outcome} {info : Info} {doc : Document}
    (h : Generated s names settings modules r info doc) {p : Place} (hp : s.Has p) {name : Name}
    (hname : definition? s names settings p = some name) {key : String}
    (hkey : Demands r.scope (counted r.definitions) ((counted r.definitions).canonical r.scope p) key) :
    (Model.reference name).Requires doc.definitions key := by
  obtain ⟨k, rfl, hstands⟩ := h.exists_stands hp hname
  have hfolds := (postprocessAll_yields h.isClosed h.postprocessed).folds
  exact hfolds.requires k key hstands.defines ((hstands 1).2.2.2 key hkey)

/-- Without augments a mandatory data child is required, whatever is shared. -/
theorem requires_of_mandatory {d : Datum} {s : Schema} {names : List Name} {settings : Settings} {doc : Document}
    (hload : (Schema.load d).result = .ok s) (haugments : ¬Schema.HasAugments d) (hnamed : s.IsNamed)
    (hgroupings : s.NamesGroupings) (h : (generate s names settings).result = .ok doc) {p x : Place} (hp : s.Has p)
    {name : Name} (hname : definition? s names settings p = some name) (hx : x ∈ p.dataChildren)
    (hmandatory : x.node.mandatory = true) {key : String} (hxname : x.node.name = .text key)
    (hfield : x.node.kind.isField = true) : (Model.reference name).Requires doc.definitions key := by
  obtain ⟨declared, M, hfrom⟩ := Schema.exists_loadedFrom hload
  obtain ⟨modules, r, info, hgenerated⟩ := exists_generated hload h
  have hschema : r.scope.schema = s := by rw [hgenerated.ran.scope]
  have hgroupings' := hgenerated.ran.groupings
  refine hgenerated.requires_of_demands hp hname ?_
  subst hschema
  have hakin := (mirrors_canonical (u := counted r.definitions) hfrom.traced.ranked True hp).behind.akin.symm
  obtain ⟨y, hyhas, hy, hyx⟩ := exists_contributes_akin (u := counted r.definitions) hfrom haugments hnamed
    hgroupings hgroupings' (has_canonical hp) hp hakin hx
  have hsame : ∀ {α : Type} (f : Statement → α), (∀ t s, t.Copies s → f s = f t) →
      f y.node.toStatement = f x.node.toStatement := fun f hf =>
    hfrom.traced.eq_of_akin f hf hyhas (hp.dataChild hx) hyx
  refine hy.demands ?_ ?_ ?_
  · rwa [hsame Statement.kind fun _ _ hc => hc.kind]
  · rwa [hsame Statement.name fun _ _ hc => hc.name]
  · rwa [hsame Statement.mandatory fun _ _ hc => hc.mandatory]

/-- A key that names a data child is required if nothing is shared, or if neither in the node nor in what it was
copied from a shared grouping supplies the child. -/
theorem requires_of_generate {d : Datum} {s : Schema} {names : List Name} {settings : Settings} {doc : Document}
    (hload : (Schema.load d).result = .ok s) (h : (generate s names settings).result = .ok doc)
    {p x : Place} (hp : s.Has p) {name : Name} (hname : definition? s names settings p = some name)
    {key : String} (hkey : key ∈ p.node.keys) (hx : x ∈ p.dataChildren) (hxname : x.node.name = .text key)
    (hfield : x.node.kind.isField = true)
    (hsharing : settings.strategy = .unpacking ∨ ∀ q, s.IsBehind q p →
      ∃ y ∈ q.dataChildren, s.IsBehind y x ∧ supplied? s names settings q.node y = none) :
    (Model.reference name).Requires doc.definitions key := by
  obtain ⟨declared, M, hfrom⟩ := Schema.exists_loadedFrom hload
  obtain ⟨modules, r, info, hgenerated⟩ := exists_generated hload h
  have hschema : r.scope.schema = s := by rw [hgenerated.ran.scope]
  have hstrategy : r.scope.strategy = settings.strategy := by rw [hgenerated.ran.scope]
  have htraced := hfrom.traced
  refine hgenerated.requires_of_demands hp hname ?_
  rcases hsharing with hunpacking | hlocal
  · have hunpacking' := hstrategy.trans hunpacking
    rw [canonical_unpacking hunpacking']
    exact .own hx (by rw [supplier?, hunpacking']) ⟨hfield, hxname, .inr hkey⟩
  · have hbehind : s.IsBehind ((counted r.definitions).canonical r.scope p) p := by
      have hmirrors := mirrors_canonical (c := r.scope) (u := counted r.definitions)
        (hschema ▸ htraced.ranked) True (hschema ▸ hp)
      exact hschema ▸ hmirrors.behind
    obtain ⟨y, hy, hyx, hsupplied⟩ := hlocal _ hbehind
    simp only [supplied?, hgenerated.run] at hsupplied
    refine .own hy hsupplied ⟨?_, ?_, .inr ?_⟩
    · rwa [htraced.kind_of_isBehind (hp.dataChild hx) hyx]
    · rwa [htraced.eq_of_isBehind Statement.name (fun _ _ hc => hc.name) (hp.dataChild hx) hyx]
    · rwa [htraced.eq_of_isBehind Statement.keys (fun _ _ hc => hc.keys) hp hbehind]

/-- A list of a shared grouping that has its key itself and the rest from another shared grouping. -/
def Example.keyed : Datum :=
  document [
    ("groupings", [
      grouping "h" [leaf "v"],
      grouping "g" [
        statement "list" "l" [("key", .text "k"), ("uses", .texts ["h"]), ("children", .list [leaf "k"])]]]),
    ("data", [container "x" ["g"], container "y" ["g"], container "z" ["h"]])]

theorem requires_of_generate_keyed :
    ∃ s doc p x name, (Schema.load Example.keyed).result = .ok s ∧
      (generate s [.text "m"] {}).result = .ok doc ∧ s.Has p ∧ definition? s [.text "m"] {} p = some name ∧
      "k" ∈ p.node.keys ∧ x ∈ p.dataChildren ∧ x.node.name = .text "k" ∧ x.node.kind.isField = true ∧
      (∀ q, s.IsBehind q p →
        ∃ y ∈ q.dataChildren, s.IsBehind y x ∧ supplied? s [.text "m"] {} q.node y = none) ∧
      (Model.reference name).Requires doc.definitions "k" := by
  have htest : passes Example.keyed [.text "m"] {} (fun s _ =>
      (s.node? "/m:x/m:l" none).any fun p =>
        (definition? s [.text "m"] {} p).isSome && decide ("k" ∈ p.node.keys) && p.dataChildren.any fun x =>
          x.node.name == .text "k" && x.node.kind.isField && (p :: s.templates p).all fun q =>
            q.dataChildren.any fun y => (supplied? s [.text "m"] {} q.node y).isNone &&
              (x :: s.templates x).any (·.address = y.address)) = true := by
    decide +kernel
  obtain ⟨s, doc, hload, hgenerate, htest⟩ := exists_of_passes htest
  obtain ⟨declared, M, hfrom⟩ := Schema.exists_loadedFrom hload
  have hranked := hfrom.traced.ranked
  simp only [Option.any_eq_true, List.any_eq_true, List.all_eq_true, Bool.and_eq_true, decide_eq_true_eq,
    Option.isNone_iff_eq_none] at htest
  obtain ⟨p, hp, ⟨hsome, hkey⟩, x, hx, ⟨hxname, hfield⟩, hall⟩ := htest
  obtain ⟨name, hname⟩ := Option.isSome_iff_exists.mp hsome
  have hhas := (Schema.isTarget_of_node? hp).has
  have hxhas := hhas.dataChild hx
  have hlocal : ∀ q, s.IsBehind q p →
      ∃ y ∈ q.dataChildren, s.IsBehind y x ∧ supplied? s [.text "m"] {} q.node y = none := by
    intro q hq
    obtain ⟨y, hy, hsupplied, z, hz, haddress⟩ := hall q ((Schema.isBehind_iff hranked hhas).mp hq)
    have hzx := (Schema.isBehind_iff hranked hxhas).mpr hz
    obtain rfl := (hzx.has hxhas).eq ((hq.has hhas).dataChild hy) haddress
    exact ⟨z, hy, hzx, hsupplied⟩
  exact ⟨s, doc, p, x, name, hload, hgenerate, hhas, hname, hkey, hx, Datum.eq_text_of_beq hxname, hfield, hlocal,
    requires_of_generate hload hgenerate hhas hname hkey hx (Datum.eq_text_of_beq hxname) hfield (.inr hlocal)⟩

/-- A list that has its key from a grouping which something else uses too. -/
def Example.supplied : Datum :=
  document [
    ("groupings", [grouping "g" [leaf "k"]]),
    ("data", [statement "list" "x" [("key", .text "k"), ("uses", .texts ["g"])], container "y" ["g"]])]

/-- The definition of a grouping that supplies a key does not require it. -/
theorem not_requires_of_generate_supplied :
    ∃ s doc p x name, (Schema.load Example.supplied).result = .ok s ∧
      (generate s [.text "m"] {}).result = .ok doc ∧ s.Has p ∧ p.node.kind = .list ∧
      definition? s [.text "m"] {} p = some name ∧ "k" ∈ p.node.keys ∧ x ∈ p.dataChildren ∧
      x.node.name = .text "k" ∧ x.node.kind = .leaf ∧ ¬(Model.reference name).Requires doc.definitions "k" := by
  have htest : passes Example.supplied [.text "m"] {} (fun s doc =>
      (s.node? "/m:x" none).any fun p => p.node.kind = .list && decide ("k" ∈ p.node.keys) &&
        (p.dataChildren.any fun x => x.node.name == .text "k" && x.node.kind = .leaf) &&
        ((definition? s [.text "m"] {} p).bind Datum.asKey?).any fun k =>
          (Model.demanded? doc.definitions k).any List.isEmpty) = true := by
    decide +kernel
  obtain ⟨s, doc, hload, hgenerate, htest⟩ := exists_of_passes htest
  simp only [Option.any_eq_true, List.any_eq_true, Bool.and_eq_true, decide_eq_true_eq,
    Option.bind_eq_some_iff] at htest
  obtain ⟨p, hp, ⟨⟨hkind, hkey⟩, x, hx, hxname, hxkind⟩, k, ⟨name, hname, hk⟩, names, hnames, hnone⟩ := htest
  obtain rfl := List.isEmpty_iff.mp hnone
  obtain rfl := Datum.eq_scalar_of_asKey? hk
  refine ⟨s, doc, p, x, _, hload, hgenerate, (Schema.isTarget_of_node? hp).has, hkind, hname, hkey, hx,
    Datum.eq_text_of_beq hxname, hxkind, fun hrequires => ?_⟩
  cases (Model.requires_iff_of_demanded? hnames).mp hrequires

end RestconfApi
