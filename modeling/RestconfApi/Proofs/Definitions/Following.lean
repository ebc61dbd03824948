import RestconfApi.Proofs.Definitions.Asking
import RestconfApi.Proofs.Definitions.Whole

/-!
# Definitions: what stays while definitions are built

Whether building succeeds or fails, definitions are only added, each behind those that it points at, and every
name that is bound is that of a definition. While the definition of a node is built no nodes are bound but such as
come before it in the order of expansion.
-/

namespace RestconfApi

namespace Models

variable {defs defs' : Models}

/-- Every definition points only at definitions registered before it. -/
def Layered (defs : Models) : Prop :=
  ∀ (earlier : Models) name m, earlier ++ [(name, m)] <+: defs → earlier.Covers m.refs

theorem layered_nil : Layered [] := by
  intro earlier name m h
  simp at h

theorem Layered.concat (h : defs.Layered) {m : Model} (hm : defs.Covers m.refs) (name : Scalar) :
    Layered (defs ++ [(name, m)]) := by
  intro earlier name' m' hprefix
  rcases List.prefix_concat_iff.mp hprefix with heq | hprefix
  · obtain ⟨rfl, hlast⟩ := List.append_inj' heq rfl
    obtain ⟨-, rfl⟩ := Prod.mk.inj (List.singleton_inj.mp hlast)
    exact hm
  · exact h earlier name' m' hprefix

theorem grows_of_isPrefix (h : defs <+: defs') : defs.Grows defs' := by
  obtain ⟨later, rfl⟩ := h
  intro name m hget
  rw [Entries.get?_append, hget]
  rfl

end Models

namespace Definitions

open Building

variable {c : Scope} {d d' d'' : Definitions}

/-- Every name that is bound is that of a definition, and definitions point only at earlier ones. -/
structure IsCoherent (d : Definitions) : Prop where
  names : ∀ a name, d.names.get? a = some name → d.models.Defines name
  completed : ∀ a name, d.completed.get? a = some name → d.models.Defines name
  layered : d.models.Layered

/-- How the state goes on whatever is done to it: definitions are added behind those that are there, and marks are
taken away. -/
structure Adds (d d' : Definitions) : Prop where
  coherent : IsCoherent d'
  models : d.models <+: d'.models
  underway : d'.underway ⊆ d.underway

/-- How the state goes on while definitions are built: of the nodes of the schema only those of which `bound` holds
are bound anew. -/
structure Follows (s : Schema) (bound : Place → Prop) (d d' : Definitions) : Prop extends Adds d d' where
  usages : d'.usages = d.usages
  names : ∀ q, s.Has q → ¬bound q → d'.names.get? q.address = d.names.get? q.address

theorem IsCoherent.follows (hd : IsCoherent d) (s : Schema) (bound : Place → Prop) : Follows s bound d d :=
  ⟨⟨hd, List.prefix_refl _, List.Subset.refl _⟩, rfl, fun _ _ _ => rfl⟩

/-- Records written on the way are no change. -/
theorem IsCoherent.noted (hd : IsCoherent d) (s : Schema) (bound : Place → Prop) (records : List Record) :
    Follows s bound d { d with records } :=
  ⟨⟨⟨hd.names, hd.completed, hd.layered⟩, List.prefix_refl _, List.Subset.refl _⟩, rfl, fun _ _ _ => rfl⟩

theorem IsCoherent.marks (hd : IsCoherent d) (underway : List Address) : IsCoherent { d with underway } :=
  ⟨hd.names, hd.completed, hd.layered⟩

theorem IsCoherent.definitionName (hd : IsCoherent d) {p : Place} {name : Scalar}
    (h : d.definitionName c p = some name) : d.models.Defines name := by
  unfold Definitions.definitionName at h
  split at h
  · rename_i n hn
    split at h
    · obtain rfl := Option.some.inj h
      exact hd.names _ n hn
    · exact hd.names _ name h
  · exact hd.names _ name h

theorem Adds.grows (h : Adds d d') : d.models.Grows d'.models := Models.grows_of_isPrefix h.models

namespace Follows

variable {s : Schema} {bound bound' : Place → Prop}

theorem trans (h : Follows s bound d d') (h' : Follows s bound d' d'') : Follows s bound d d'' where
  coherent := h'.coherent
  models := h.models.trans h'.models
  underway := fun _ ha => h.underway (h'.underway ha)
  usages := h'.usages.trans h.usages
  names := fun q hq hbound => (h'.names q hq hbound).trans (h.names q hq hbound)

theorem mono (h : Follows s bound d d') (hbound : ∀ q, bound q → bound' q) : Follows s bound' d d' :=
  ⟨h.toAdds, h.usages, fun q hq hnot => h.names q hq fun hb => hnot (hbound q hb)⟩

/-- The mark of a node is taken away again. -/
theorem unmark {a : Address}
    (h : Follows s bound { d with underway := if a ∈ d.underway then d.underway else a :: d.underway } d') :
    Follows s bound d { d' with underway := d'.underway.filter (· ≠ a) } := by
  refine ⟨⟨h.coherent.marks _, h.models, fun b hb => ?_⟩, h.usages, h.names⟩
  obtain ⟨hb, hne⟩ := List.mem_filter.mp hb
  have hmarks := h.underway hb
  dsimp only at hmarks
  split at hmarks
  · exact hmarks
  · exact (List.mem_cons.mp hmarks).resolve_left (by simpa using hne)

end Follows

theorem isCourse_follows (s : Schema) (bound : Place → Prop) :
    IsCourse fun d d' => IsCoherent d → Follows s bound d d' where
  refl _ hd := hd.follows s bound
  trans h h' hd := (h hd).trans (h' (h hd).coherent)
  noted _ records hd := hd.noted s bound records

/-! ### The order of binding -/

section

variable {augmented : Prop} {declared : Schema} {M : Expansion.Expanded}
  (hfrom : Schema.LoadedFrom augmented declared M c.schema)

/-- `q` comes before `p` in the order of expansion, provided that groupings are found by their qualified names. -/
def Below (s : Schema) (M : Expansion.Expanded) (p q : Place) : Prop :=
  s.KnowsGroupings → q.Precedes (Expansion.rank M) p

/-- The nodes that may be bound when a node is defined. -/
def UpTo (s : Schema) (M : Expansion.Expanded) (p q : Place) : Prop := q = p ∨ Below s M p q

theorem Below.upTo {s : Schema} {p q r : Place} (h : Below s M p q) (hr : UpTo s M q r) : Below s M p r := by
  intro hknows
  rcases hr with rfl | hr
  · exact h hknows
  · exact (hr hknows).trans (h hknows)

include hfrom

theorem below_dataChild {p x : Place} (hp : c.schema.Has p) (hx : x ∈ p.dataChildren) :
    Below c.schema M p x :=
  fun _ => hfrom.traced.precedes_of_mem_dataChildren hp hx

/-- The groupings that supply the children of a node come before the node. -/
theorem below_supplier {p x g : Place} (hp : c.schema.Has p) (hx : x ∈ p.dataChildren) {qname : String}
    (hq : qname ∈ c.schema.supplierChain x) (hg : c.schema.groupingNamed? qname = some g) :
    Below c.schema M p g := by
  intro hknows
  obtain ⟨g', hg', -, hrank, -⟩ := hfrom.traced.exists_dataSupplier hknows hp hx hq
  obtain rfl := Option.some.inj (hg.symm.trans hg')
  exact .inl hrank

theorem upTo_canonical {p : Place} (u : Definitions) (hp : c.schema.Has p) :
    UpTo c.schema M p (u.canonical c p) := by
  have hbehind := (mirrors_canonical (u := u) hfrom.traced.ranked True hp).behind
  rcases hfrom.traced.rank_of_isBehind hp hbehind with heq | ⟨hrank, -⟩
  · exact .inl heq
  · exact .inr fun _ => .inl hrank

theorem Below.of_canonical {u : Definitions} {p q : Place} (hp : c.schema.Has p)
    (h : Below c.schema M (u.canonical c p) q) : Below c.schema M p q := by
  rcases upTo_canonical hfrom u hp with heq | hbelow
  · rwa [heq] at h
  · exact hbelow.upTo (.inr h)

end

/-! ### Fields -/

section

variable (M : Expansion.Expanded) {define : Define}

/-- Defining a node gives the name of a definition and binds the node and such as come before it; if it fails
then only such as come before what stands for it. -/
def Binds (c : Scope) (M : Expansion.Expanded) (define : Define) : Prop :=
  ∀ d p, c.schema.Has p → IsCoherent d →
    (define p).Leaves d (fun name d' => Follows c.schema (UpTo c.schema M p) d d' ∧ d'.models.Defines name)
      (Follows c.schema (Below c.schema M (d.canonical c p)) d)

variable {M} {augmented : Prop} {declared : Schema}
  (hfrom : Schema.LoadedFrom augmented declared M c.schema)
include hfrom

theorem structuralRef_leaves (hdefine : Binds c M define) {x : Place} (hx : c.schema.Has x)
    (hd : IsCoherent d) :
    (structuralRef c define x).Leaves d
      (fun name d' => Follows c.schema (UpTo c.schema M x) d d' ∧ ∀ n, name = some n → d'.models.Defines n)
      (Follows c.schema (UpTo c.schema M x) d) := by
  have huntyped : ∀ {level : Level} {text : String},
      (do note level text; pure none : Building (Option Scalar)).Leaves d
        (fun name d' => Follows c.schema (UpTo c.schema M x) d d' ∧ ∀ n, name = some n → d'.models.Defines n)
        (Follows c.schema (UpTo c.schema M x) d) :=
    settles_bind (settles_note (settles_pure ⟨hd.noted _ _ _, by simp⟩))
  unfold structuralRef
  refine settles_bind (settles_get ?_)
  cases hname : d.definitionName c x with
  | some name =>
    refine settles_pure ⟨hd.follows _ _, fun n hn => ?_⟩
    obtain rfl := Option.some.inj hn
    exact hd.definitionName hname
  | none =>
    refine settles_ite (fun _ => huntyped) fun _ => settles_ite (fun _ => huntyped) fun _ =>
      settles_ite (fun _ => huntyped) fun _ => ?_
    refine settles_bind ((hdefine d x hx hd).mono (fun name d' hname => ?_)
      fun d' h => h.mono fun q hq => .inr (hq.of_canonical hfrom hx))
    obtain ⟨h, hdefines⟩ := hname
    refine settles_pure ⟨h, fun n hn => ?_⟩
    obtain rfl := Option.some.inj hn
    exact hdefines

theorem propertyFor_leaves (hdefine : Binds c M define) {x : Place} (hx : c.schema.Has x)
    (hd : IsCoherent d) :
    (propertyFor c define x).Leaves d
      (fun property d' => Follows c.schema (UpTo c.schema M x) d d' ∧
        ∀ q, property = some q → d'.models.Covers q.refs)
      (Follows c.schema (UpTo c.schema M x) d) := by
  unfold propertyFor
  refine settles_ite (fun _ => ?_) fun _ => settles_ite (fun _ => ?_) fun _ =>
    settles_ite (fun _ => ?_) fun _ => ?_
  · refine settles_bind (leaves_ofLogged (fun q hq => settles_pure ⟨hd.noted _ _ _, fun q' hq' => ?_⟩)
      (hd.noted _ _ _))
    obtain rfl := Option.some.inj hq'
    have hrefs := (Schema.leafProperty_shape hq).1
    intro r hr
    rw [hrefs] at hr
    simp at hr
  · refine settles_pure ⟨hd.follows _ _, fun q hq => ?_⟩
    obtain rfl := Option.some.inj hq
    intro r hr
    simp [Property.refs] at hr
  · refine settles_bind ((structuralRef_leaves hfrom hdefine hx hd).mono (fun name d' hname => ?_)
      fun d' h => h)
    obtain ⟨h, hdefines⟩ := hname
    refine settles_pure ⟨h, fun q hq => ?_⟩
    obtain rfl := Option.some.inj hq
    intro r hr
    rw [structuralProperty_refs] at hr
    obtain ⟨n, hn, rfl⟩ := List.mem_map.mp hr
    exact ⟨n, rfl, hdefines n (Option.mem_toList.mp hn)⟩
  · exact settles_pure ⟨hd.follows _ _, by simp⟩

theorem addField_leaves (hdefine : Binds c M define) {x : Place} (hx : c.schema.Has x) (hd : IsCoherent d)
    (node : Node) {o : ObjectModel} (ho : d.models.Covers o.refs) :
    (addField c define node o x).Leaves d
      (fun o' d' => Follows c.schema (UpTo c.schema M x) d d' ∧ d'.models.Covers o'.refs)
      (Follows c.schema (UpTo c.schema M x) d) := by
  unfold addField
  refine settles_bind ((propertyFor_leaves hfrom hdefine hx hd).mono (fun property d' hproperty => ?_) fun d' h => h)
  obtain ⟨h, hrefs⟩ := hproperty
  replace ho := ho.grow h.grows
  cases property with
  | none => exact settles_pure ⟨h, ho⟩
  | some property =>
    refine settles_bind (leaves_ofLogged (fun key _ => settles_pure ?_) (h.trans (h.coherent.noted _ _ _)))
    refine ⟨h.trans (h.coherent.noted _ _ _), fun r hmem => ?_⟩
    obtain ⟨⟨j, q⟩, he, hr⟩ := List.mem_flatMap.mp hmem
    rcases Entries.mem_put he with ⟨rfl, -⟩ | he
    · exact hrefs q rfl r hr
    · exact ho r (List.mem_flatMap.mpr ⟨(j, q), he, hr⟩)

theorem objectModel_leaves (hdefine : Binds c M define) {p : Place} (hp : c.schema.Has p) (hd : IsCoherent d)
    {children : List Place} (hchildren : ∀ x ∈ children, x ∈ p.dataChildren) :
    (objectModel c define p.node children).Leaves d
      (fun o d' => Follows c.schema (Below c.schema M p) d d' ∧ d'.models.Covers o.refs)
      (Follows c.schema (Below c.schema M p) d) := by
  unfold objectModel
  refine settles_foldlM
    (fun _ (o : ObjectModel) d' => Follows c.schema (Below c.schema M p) d d' ∧ d'.models.Covers o.refs)
    ⟨hd.follows _ _, by simp [Models.Covers, ObjectModel.refs]⟩ fun pre x post o d₁ hsplit hmodel => ?_
  have hx : x ∈ children := by simp [hsplit]
  obtain ⟨h₁, ho⟩ := hmodel
  have hbelow : ∀ q, UpTo c.schema M x q → Below c.schema M p q :=
    fun q hq => (below_dataChild hfrom hp (hchildren x hx)).upTo hq
  refine (addField_leaves hfrom hdefine (hp.dataChild (hchildren x hx)) h₁.coherent p.node ho).mono
    (fun o' d₂ h₂ => ?_) fun d₂ h₂ => ?_
  · exact ⟨h₁.trans (h₂.1.mono hbelow), h₂.2⟩
  · exact h₁.trans (h₂.mono hbelow)

end

/-- Which suppliers are kept is found out without any change. -/
theorem outer_leaves (s : Schema) (bound : Place → Prop) (hd : IsCoherent d) (suppliers : List String) :
    (suppliers.filterM fun qname => do pure !(← isIncluded c qname suppliers)).Leaves d
      (fun outer d' => Follows s bound d d' ∧ outer ⊆ suppliers) (Follows s bound d) :=
  (outer_within (isCourse_follows s bound) suppliers d).mono (fun _ _ h => ⟨h.1 hd, h.2⟩) fun _ h => h hd

/-! ### Definitions -/

section

variable {augmented : Prop} {declared : Schema} {M : Expansion.Expanded} {define : Define}

theorem covers_composed {names : List Scalar} (objects : List Model) (description : Datum) {defs : Models}
    (hnames : ∀ name ∈ names, defs.Defines name) (hobjects : ∀ m ∈ objects, defs.Covers m.partRefs) :
    defs.Covers
      (Model.composed (names.map (fun name => Model.reference (.scalar name)) ++ objects) description).refs := by
  intro r hr
  obtain ⟨m, hm, hr⟩ := List.mem_flatMap.mp hr
  rcases List.mem_append.mp hm with hm | hm
  · obtain ⟨name, hname, rfl⟩ := List.mem_map.mp hm
    exact ⟨name, List.mem_singleton.mp hr, hnames name hname⟩
  · exact hobjects m hm r hr

variable (hfrom : Schema.LoadedFrom augmented declared M c.schema)
include hfrom

theorem outerNames_leaves (hdefine : Binds c M define) {p : Place} (hd : IsCoherent d) {outer : List String}
    (hbelow : ∀ qname ∈ outer, ∀ g, c.schema.groupingNamed? qname = some g → Below c.schema M p g) :
    (outer.mapM fun qname => do
      let g ← groupingOf c qname
      define g).Leaves d
        (fun names d' => Follows c.schema (Below c.schema M p) d d' ∧ ∀ name ∈ names, d'.models.Defines name)
        (Follows c.schema (Below c.schema M p) d) := by
  refine settles_mapM (fun names d' => Follows c.schema (Below c.schema M p) d d' ∧
    ∀ name ∈ names, d'.models.Defines name) ⟨hd.follows _ _, by simp⟩ fun qname hq names d₁ hsofar => ?_
  obtain ⟨h₁, hnames⟩ := hsofar
  refine settles_bind ((groupingOf_leaves qname).mono (fun g d₂ hfound => ?_) fun d₂ hd₂ => hd₂ ▸ h₁)
  obtain ⟨rfl, hg⟩ := hfound
  have hg' := hbelow qname hq g hg
  have hghas := Schema.has_of_groupingNamed? hg
  refine (hdefine d₂ g hghas h₁.coherent).mono (fun name d₃ hdefined => ?_)
    fun d₃ h₃ => h₁.trans (h₃.mono fun q hq => hg'.upTo (.inr (hq.of_canonical hfrom hghas)))
  obtain ⟨h₃, hname⟩ := hdefined
  refine ⟨h₁.trans (h₃.mono fun q hq => hg'.upTo hq), fun n hn => ?_⟩
  rcases List.mem_append.mp hn with hn | hn
  · exact (hnames n hn).grow h₃.grows
  · rwa [List.mem_singleton.mp hn]

theorem buildModel_leaves (hdefine : Binds c M define) {p : Place} (hp : c.schema.Has p) (hd : IsCoherent d) :
    (buildModel c define p).Leaves d
      (fun m d' => Follows c.schema (Below c.schema M p) d d' ∧ d'.models.Covers m.refs)
      (Follows c.schema (Below c.schema M p) d) := by
  unfold buildModel
  cases hc : c.strategy with
  | unpacking =>
    exact settles_bind ((objectModel_leaves hfrom hdefine hp hd fun x hx => hx).mono
      (fun o d' h => settles_pure h) fun d' h => h)
  | optimizing =>
    refine settles_bind ((partitionFields_leaves hc p.node _).mono
      (fun r d₁ hr => ?_) fun d₁ hd₁ => by rw [hd₁]; exact hd.follows _ _)
    obtain ⟨suppliers, others⟩ := r
    obtain ⟨rfl, hsuppliers, hothers⟩ := hr
    refine settles_bind ((outer_leaves c.schema _ hd suppliers).mono (fun outer d₂ hleft => ?_) fun d₂ h₂ => h₂)
    obtain ⟨h₂, houter⟩ := hleft
    refine settles_ite (fun _ => ?_) fun _ => ?_
    · refine settles_bind ((objectModel_leaves hfrom hdefine hp h₂.coherent hothers).mono
        (fun o d₃ h₃ => ?_) fun d₃ h₃ => h₂.trans h₃)
      exact settles_pure ⟨h₂.trans h₃.1, h₃.2⟩
    · have hbelow : ∀ qname ∈ outer, ∀ g, c.schema.groupingNamed? qname = some g → Below c.schema M p g := by
        intro qname hq g hg
        obtain ⟨x, hx, hchain⟩ := hsuppliers qname (houter hq)
        exact below_supplier hfrom hp hx hchain hg
      refine settles_bind ((outerNames_leaves hfrom hdefine h₂.coherent hbelow).mono
        (fun names d₃ hdefined => ?_) fun d₃ h₃ => h₂.trans h₃)
      obtain ⟨h₃, hnames⟩ := hdefined
      replace h₃ := h₂.trans h₃
      cases others with
      | nil =>
        rcases names with _ | ⟨name, _ | ⟨name', names⟩⟩
        · exact settles_pure ⟨h₃, by simp [Models.Covers, Model.refs]⟩
        · refine settles_pure ⟨h₃, fun r hr => ?_⟩
          exact ⟨name, List.mem_singleton.mp hr, hnames name List.mem_cons_self⟩
        · have hcovers := covers_composed [] p.node.description hnames (by simp)
          rw [List.append_nil] at hcovers
          exact settles_pure ⟨h₃, hcovers⟩
      | cons x xs =>
        refine settles_bind ((objectModel_leaves hfrom hdefine hp h₃.coherent hothers).mono
          (fun o d₄ hmodel => ?_) fun d₄ h₄ => h₃.trans h₄)
        obtain ⟨h₄, ho⟩ := hmodel
        refine settles_pure ⟨h₃.trans h₄, covers_composed _ _ (fun name hname => (hnames name hname).grow h₄.grows) ?_⟩
        intro m hm
        rw [List.mem_singleton.mp hm]
        exact ho

omit hfrom in
/-- A node may be bound to the name of any definition. -/
theorem IsCoherent.bind (hd : IsCoherent d) {p : Place} (hp : c.schema.Has p) {name : Scalar}
    (hname : d.models.Defines name) {names completed : Entries Address Scalar}
    (hnames : names = d.names ∨ names = d.names.put p.address name)
    (hcompleted : completed = d.completed ∨ completed = d.completed.put p.address name) :
    Follows c.schema (· = p) d { d with names, completed } := by
  have hput : ∀ {m m' : Entries Address Scalar}, m' = m ∨ m' = m.put p.address name →
      (∀ a n, m.get? a = some n → d.models.Defines n) → ∀ a n, m'.get? a = some n → d.models.Defines n := by
    intro m m' hm hall a n hn
    rcases hm with rfl | rfl
    · exact hall a n hn
    · by_cases ha : p.address = a
      · rw [ha, Entries.get?_put_self] at hn
        exact Option.some.inj hn ▸ hname
      · rw [Entries.get?_put_of_ne (by simpa using ha)] at hn
        exact hall a n hn
  refine ⟨⟨⟨hput hnames hd.names, hput hcompleted hd.completed, hd.layered⟩, List.prefix_refl _,
    List.Subset.refl _⟩, rfl, fun q hq hne => ?_⟩
  have ha : p.address ≠ q.address := fun heq => hne (hp.eq hq heq).symm
  rcases hnames with rfl | rfl
  · rfl
  · exact Entries.get?_put_of_ne (by simpa using ha) name d.names

omit hfrom in
/-- A model that points only at definitions is registered behind them. -/
theorem register_leaves {p : Place} (hp : c.schema.Has p) (hd : IsCoherent d) {m : Model}
    (hm : d.models.Covers m.refs) :
    (register c p m).Leaves d (fun name d' => Follows c.schema (· = p) d d' ∧ d'.models.Defines name)
      (Follows c.schema (fun _ => False) d) := by
  -- once the definition is there, only the binding is left
  have hbind : ∀ {d₁ : Definitions} {name : Scalar}, Follows c.schema (· = p) d d₁ → d₁.models.Defines name →
      (do modify fun d => { d with names := d.names.put p.address name }; pure name : Building Scalar).Leaves d₁
        (fun name d' => Follows c.schema (· = p) d d' ∧ d'.models.Defines name)
        (Follows c.schema (fun _ => False) d) := by
    intro d₁ name h₁ hname
    exact settles_bind (settles_modify (settles_pure
      ⟨h₁.trans (h₁.coherent.bind hp hname (.inr rfl) (.inl rfl)), hname⟩))
  unfold register
  refine settles_bind (settles_get (settles_bind (leaves_ofLogged (fun name _ => ?_) (hd.noted _ _ _))))
  refine settles_ite (fun hnew => ?_) fun hold => ?_
  · have hnone : d.models.get? name = none := by simpa using hnew
    have hadd : (d.models : Models) ++ [(name, m)] = d.models.put name m :=
      (Entries.put_of_get?_none hnone m).symm
    have hprefix : d.models <+: d.models.put name m := hadd ▸ List.prefix_append _ _
    have hlayered : Models.Layered (d.models.put name m) := hadd ▸ hd.layered.concat hm name
    have hgrows := Models.grows_of_isPrefix hprefix
    have hfollows : ∀ records, Follows c.schema (· = p) d
        { d with document := d.document.addDefinition name m, records } := fun records =>
      ⟨⟨⟨fun a n hn => (hd.names a n hn).grow hgrows, fun a n hn => (hd.completed a n hn).grow hgrows, hlayered⟩,
        hprefix, List.Subset.refl _⟩, rfl, fun _ _ _ => rfl⟩
    refine settles_bind (settles_modify (settles_bind (settles_note (hbind (hfollows _) ?_))))
    show (Entries.get? name (d.models.put name m)).isSome = true
    rw [Entries.get?_put_self]
    rfl
  · have hname : d.models.Defines name := by
      unfold Models.Defines
      simpa [Option.isSome_iff_ne_none] using hold
    exact settles_bind (settles_note (hbind (hd.noted _ _ _) hname))

/-- Definitions demand only such as come before them, however deep. -/
theorem defineFrom_leaves (fuel : Nat) : Binds c M (defineFrom c fuel) := by
  induction fuel with
  | zero => exact fun d p _ hd => settles_fail (hd.follows _ _)
  | succ fuel ih =>
    intro d p hp hd
    have htarget : c.schema.Has (d.canonical c p) := has_canonical hp
    have hbelow : ∀ q, Below c.schema M (d.canonical c p) q → UpTo c.schema M p q :=
      fun q hq => .inr (hq.of_canonical hfrom hp)
    -- whatever gives the name, the node itself is bound in the end
    have hbind : ∀ {d₁ : Definitions} {name : Scalar}, Follows c.schema (UpTo c.schema M p) d d₁ →
        d₁.models.Defines name → (do bindName p name; pure name : Building Scalar).Leaves d₁
          (fun name d' => Follows c.schema (UpTo c.schema M p) d d' ∧ d'.models.Defines name)
          (Follows c.schema (Below c.schema M (d.canonical c p)) d) := by
      intro d₁ name h₁ hname
      refine settles_bind (settles_modify (settles_pure ⟨h₁.trans ?_, hname⟩))
      refine (h₁.coherent.bind hp hname (.inr rfl) ?_).mono fun q hq => .inl hq
      split
      · exact .inl rfl
      · exact .inr rfl
    unfold defineFrom
    refine settles_bind (settles_get ?_)
    dsimp only
    split
    · rename_i name hname
      exact settles_bind (settles_pure (hbind (hd.follows _ _) (hd.names _ name hname)))
    · refine settles_bind (settles_marked ((buildModel_leaves hfrom ih htarget (hd.marks _)).mono
        (fun m d₁ hmodel => ?_) fun d₁ h₁ => h₁.unmark))
      obtain ⟨h₁, hm⟩ := hmodel
      replace h₁ := h₁.unmark
      refine settles_bind ((register_leaves htarget h₁.coherent hm).mono (fun name d₂ hnamed => ?_)
        fun d₂ h₂ => h₁.trans (h₂.mono fun _ => False.elim))
      obtain ⟨h₂, hname⟩ := hnamed
      refine hbind ((h₁.mono hbelow).trans (h₂.mono fun q hq => ?_)) hname
      rw [hq]
      exact upTo_canonical hfrom d hp

theorem define_leaves : Binds c M (Definitions.define c) := defineFrom_leaves hfrom _

end

end Definitions

end RestconfApi
