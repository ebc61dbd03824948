import Mathlib.Data.List.Count
import RestconfApi.Proofs.Definitions.Following
import RestconfApi.Proofs.Names
import RestconfApi.Proofs.Schema.Ending

/-!
# Definitions: what definitions demand

While the definition of a node is built it demands such as come before it in the order of expansion only. So definitions
demand each other no deeper than there are nodes, none is demanded while it is underway, and building ends. A field that
a grouping has supplied points at a definition only where that is permitted, and stays untyped only beyond the bound.
-/

namespace RestconfApi

/-! ### Heights -/

theorem countP_lt {α : Type} {p q : α → Bool} {l : List α} (h : ∀ x ∈ l, p x = true → q x = true) {x : α} (hx : x ∈ l)
    (hp : ¬p x = true) (hq : q x = true) : l.countP p < l.countP q := by
  obtain ⟨before, after, rfl⟩ := List.append_of_mem hx
  have hbefore := List.countP_mono_left fun y hy => h y (List.mem_append_left _ hy)
  have hafter := List.countP_mono_left fun y hy => h y (List.mem_append_right _ (List.mem_cons_of_mem _ hy))
  rw [List.countP_append, List.countP_append, List.countP_cons_of_neg hp, List.countP_cons_of_pos hq]
  omega

namespace Schema

variable {s : Schema} {rank : Address → Nat}

open Classical in
/-- The number of nodes that come before one. -/
noncomputable def height (s : Schema) (rank : Address → Nat) (p : Place) : Nat :=
  s.places.countP fun q => q.Precedes rank p

open Classical in
theorem height_lt {p q : Place} (hq : s.Has q) (h : q.Precedes rank p) : s.height rank q < s.height rank p := by
  refine countP_lt (fun r _ hr => ?_) hq.mem_places (by simpa using Place.Precedes.irrefl) (by simpa using h)
  exact decide_eq_true ((of_decide_eq_true hr).trans h)

theorem height_le_size (p : Place) : s.height rank p ≤ s.size := by
  rw [← length_places]
  exact List.countP_le_length

end Schema

namespace Definitions

open Building

/-! ### What has been counted -/

/-- What has been counted and recorded before definitions are built is the same. -/
structure SameCounts (d d' : Definitions) : Prop where
  usages : d'.usages = d.usages
  copies : d'.copies = d.copies
  payload : d'.payload = d.payload
  processed : d'.processed = d.processed

variable {c : Scope} {u d d' : Definitions}

theorem withinBound_congr (h : SameCounts u d) (p : Place) : d.withinBound c p = u.withinBound c p := by
  simp only [withinBound, h.copies, h.payload, h.processed, canonical_congr h.usages]

/-! ### Fields -/

section

variable (c u) (permits : Place → Prop)

/-- Whether a field that stands for what is not walked over points at a definition: only where that is permitted, and it
stays untyped only beyond the bound. -/
structure Rendered (x : Place) (name : Option Scalar) : Prop where
  pointing : (u.canonical c x).isWalked = false → name.isSome = true → permits (u.canonical c x)
  untyped : (u.canonical c x).isWalked = false → name = none → u.withinBound c (u.canonical c x) = false

/-- The last field of its name. -/
def IsLastField (ys : List Place) (x : Place) : Prop :=
  ∃ pre post, ys = pre ++ x :: post ∧ ∀ y ∈ post, y.node.kind.isField = true → (y.node.name == x.node.name) = false

/-- The children that no shared grouping supplies. -/
def ownChildren (p : Place) : List Place := p.dataChildren.filter fun x => (supplier? c u p.node x).isNone

/-- The properties in `has` are those of the fields of structural kind among `ys`, up to `R`. -/
structure Renders (R : Property → Property → Prop) (ys : List Place) (has : Scalar → Property → Prop) : Prop where
  complete : ∀ x ∈ ys, x.node.kind.isStructural = true → ∃ key q, has key q ∧ (x.node.name == .scalar key) = true
  rendered : ∀ x, IsLastField ys x → x.node.kind.isStructural = true → ∀ key q, has key q →
    (x.node.name == .scalar key) = true → ∃ name, R q (structuralProperty x name) ∧ Rendered c u permits x name

/-- While definitions are built, names are bound only where that is permitted, to models that render the fields that
nodes have of their own. No warning tells of a node that contains itself. -/
structure Bounded (d : Definitions) : Prop where
  counts : SameCounts u d
  records : ∀ r ∈ d.records, r.IsBenign
  names : ∀ q, c.schema.Has q → q.node.kind.isStructural = true → (d.names.get? q.address).isSome = true →
    (u.canonical c q).isWalked = false → permits (u.canonical c q)
  models : ∀ q name, c.schema.Has q → u.canonical c q = q → d.names.get? q.address = some name →
    ∃ m, d.models.get? name = some m ∧ Renders c u permits Property.Matches (ownChildren c u q) m.Own

/-- The same, and each name describes its node. -/
structure Confined (d : Definitions) : Prop extends Bounded c u permits d where
  sound : Sound c u (fun _ => True) d

/-- What is left after a step that succeeds. -/
structure Remains (d d' : Definitions) : Prop where
  confined : Confined c u permits d'
  underway : d'.underway ⊆ d.underway

end

/-- A step that fails has not run out of depth. -/
def Fails (e : Failure) (d : Definitions) : Prop := e ≠ .endless ∧ ∀ r ∈ d.records, r.IsBenign

variable {permits : Place → Prop}

theorem IsLastField.concat {ys : List Place} {x y : Place} (h : IsLastField (ys ++ [y]) x) :
    x = y ∨ IsLastField ys x ∧ (y.node.kind.isField = true → (y.node.name == x.node.name) = false) := by
  obtain ⟨pre, post, hsplit, hlast⟩ := h
  rcases List.eq_nil_or_concat post with rfl | ⟨post', z, rfl⟩
  · obtain ⟨-, hx⟩ := List.append_inj' hsplit rfl
    exact .inl (List.singleton_inj.mp hx).symm
  · rw [List.concat_eq_append, ← List.cons_append, ← List.append_assoc] at hsplit
    obtain ⟨rfl, hz⟩ := List.append_inj' hsplit rfl
    obtain rfl := List.singleton_inj.mp hz
    refine .inr ⟨⟨pre, post', rfl, fun w hw => hlast w (by simp [hw])⟩, hlast y (by simp)⟩

theorem IsLastField.mem {ys : List Place} {x : Place} (h : IsLastField ys x) : x ∈ ys := by
  obtain ⟨pre, post, rfl, -⟩ := h
  simp

theorem isLastField_of_getLast? {ys : List Place} {x : Place} (h : ys.getLast? = some x) : IsLastField ys x := by
  obtain ⟨pre, rfl⟩ := List.getLast?_eq_some_iff.mp h
  exact ⟨pre, [], rfl, by simp⟩

theorem ownChildren_congr (h : d.usages = u.usages) (p : Place) : ownChildren c d p = ownChildren c u p := by
  simp only [ownChildren, supplier?, isShared_congr h]

theorem Renders.congr {R : Property → Property → Prop} {ys : List Place} {has has' : Scalar → Property → Prop}
    (h : Renders c u permits R ys has) (hiff : ∀ key q, has' key q ↔ has key q) : Renders c u permits R ys has' where
  complete x hx hk := by
    obtain ⟨key, q, hq, hname⟩ := h.complete x hx hk
    exact ⟨key, q, (hiff key q).mpr hq, hname⟩
  rendered x hx hk key q hq hname := h.rendered x hx hk key q ((hiff key q).mp hq) hname

theorem Renders.nil {R : Property → Property → Prop} {has : Scalar → Property → Prop} :
    Renders c u permits R [] has where
  complete := by simp
  rendered x hx := absurd hx.mem (by simp)

/-- A node that is no field adds nothing. -/
theorem Renders.skip {R : Property → Property → Prop} {has : Scalar → Property → Prop} {ys : List Place}
    (h : Renders c u permits R ys has) {y : Place} (hy : y.node.kind.isField = false) :
    Renders c u permits R (ys ++ [y]) has where
  complete := by
    intro x hx hk
    rcases List.mem_append.mp hx with hx | hx
    · exact h.complete x hx hk
    · rw [List.mem_singleton.mp hx] at hk
      simp [Kind.isField, hk] at hy
  rendered := by
    intro x hx hk
    rcases hx.concat with rfl | ⟨hlast, -⟩
    · simp [Kind.isField, hk] at hy
    · exact h.rendered x hlast hk

/-- One more field adds its property, in place of one of the same name. -/
theorem Renders.put {ys : List Place} {m : Entries Scalar Property}
    (h : Renders c u permits Eq ys fun key q => (key, q) ∈ m) (hunique : m.Unique) {y : Place} {key : Scalar}
    {q : Property} (hname : y.node.name = .scalar key) (hfield : y.node.kind.isField = true)
    (hy : y.node.kind.isStructural = true → ∃ name, q = structuralProperty y name ∧ Rendered c u permits y name) :
    Renders c u permits Eq (ys ++ [y]) fun key' q' => (key', q') ∈ m.put key q where
  complete := by
    intro x hx hk
    obtain ⟨j, hj, hjk⟩ := Entries.mem_put_self key q m
    rcases List.mem_append.mp hx with hx | hx
    · obtain ⟨key', q', hmem, hkey'⟩ := h.complete x hx hk
      by_cases hsame : (key' == key) = true
      · exact ⟨j, q, hj, Datum.beq_scalar_trans hkey' (BEq.trans hsame (BEq.symm hjk))⟩
      · exact ⟨key', q', Entries.mem_put_of_ne hmem (Bool.eq_false_iff.mpr hsame), hkey'⟩
    · obtain rfl := List.mem_singleton.mp hx
      exact ⟨j, q, hj, Datum.beq_scalar_iff.mpr ⟨key, hname, BEq.symm hjk⟩⟩
  rendered := by
    intro x hx hk key' q' hmem hxname
    rcases hx.concat with rfl | ⟨hlast, hdiffers⟩
    · obtain ⟨name, rfl, hrendered⟩ := hy hk
      refine ⟨name, ?_, hrendered⟩
      obtain ⟨_, hscalar, hkey⟩ := Datum.beq_scalar_iff.mp hxname
      obtain rfl := Datum.scalar.inj (hname.symm.trans hscalar)
      have hget := (hunique.put key (structuralProperty x name)).get?_eq_of_mem hmem
      rw [← Entries.get?_congr hkey, Entries.get?_put_self] at hget
      exact (Option.some.inj hget).symm
    · rcases Entries.mem_put hmem with ⟨-, hkey⟩ | hmem
      · obtain ⟨k, hscalar, hk'⟩ := Datum.beq_scalar_iff.mp hxname
        have hsame : (y.node.name == x.node.name) = true := by
          rw [hname, hscalar]
          exact Datum.beq_scalar_iff.mpr ⟨key, rfl, BEq.symm (BEq.trans hk' hkey)⟩
        rw [hdiffers hfield] at hsame
        cases hsame
      · exact h.rendered x hlast hk key' q' hmem hxname

/-! ### Steps -/

theorem Bounded.noted (h : Bounded c u permits d) {more : List Record} (hmore : ∀ r ∈ more, r.IsBenign) :
    Bounded c u permits { d with records := d.records ++ more } where
  counts := ⟨h.counts.usages, h.counts.copies, h.counts.payload, h.counts.processed⟩
  records := fun r hr => (List.mem_append.mp hr).elim (h.records r) (hmore r)
  names := h.names
  models := h.models

theorem Confined.noted (h : Confined c u permits d) {more : List Record} (hmore : ∀ r ∈ more, r.IsBenign) :
    Confined c u permits { d with records := d.records ++ more } :=
  ⟨h.toBounded.noted hmore, h.sound.noted _⟩

theorem Confined.marks (h : Confined c u permits d) (underway : List Address) :
    Confined c u permits { d with underway } :=
  ⟨⟨⟨h.counts.usages, h.counts.copies, h.counts.payload, h.counts.processed⟩, h.records, h.names, h.models⟩,
    h.sound.marks _⟩

theorem Confined.remains (h : Confined c u permits d) : Remains c u permits d d := ⟨h, List.Subset.refl _⟩

theorem Remains.trans {d'' : Definitions} (h : Remains c u permits d d') (h' : Remains c u permits d' d'') :
    Remains c u permits d d'' :=
  ⟨h'.confined, fun _ ha => h.underway (h'.underway ha)⟩

/-- When a mark has been taken away, what was underway before is left. -/
theorem Remains.unmark {a : Address} {underway : List Address} (h : Remains c u permits { d with underway } d')
    (hsub : underway ⊆ a :: d.underway) :
    Remains c u permits d { d' with underway := d'.underway.filter (· ≠ a) } := by
  refine ⟨h.confined.marks _, fun b hb => ?_⟩
  obtain ⟨hb, hne⟩ := List.mem_filter.mp hb
  rcases List.mem_cons.mp (hsub (h.underway hb)) with rfl | hb
  · simp at hne
  · exact hb

theorem Confined.ofLogged_settles {α : Type} {x : Logged α} (hd : Confined c u permits d) (hx : x.Ends) :
    (ofLogged x).Settles d (fun a d' => x.result = .ok a ∧ Remains c u permits d d') Fails := by
  have hnoted := hd.noted hx.records
  exact settles_ofLogged (fun a ha => ⟨ha, hnoted, List.Subset.refl _⟩) fun e he => ⟨hx.result e he, hnoted.records⟩

theorem Confined.note_settles (hd : Confined c u permits d) {level : Level} (hlevel : level ≠ .warning)
    (text : String) : (note level text).Settles d (fun _ d' => Remains c u permits d d') Fails := by
  refine settles_note ⟨hd.noted fun r hr => ?_, List.Subset.refl _⟩
  rw [List.mem_singleton.mp hr]
  exact Record.isBenign_of_ne hlevel text

/-! ### Nodes that may be defined -/

section

variable (c u) (permits : Place → Prop) (rank : Address → Nat)

/-- What may be defined to a depth: all that is underway comes after what stands for it. -/
structure Admits (fuel : Nat) (d : Definitions) (p : Place) : Prop where
  has : c.schema.Has p
  first : ∀ r, c.schema.Has r → r.address ∈ d.underway → (u.canonical c p).Precedes rank r
  height : c.schema.height rank (u.canonical c p) < fuel
  permitted : p.node.kind.isStructural = true → (u.canonical c p).isWalked = false → permits (u.canonical c p)

/-- The node whose definition is built to a depth: whatever else is underway comes after it. -/
structure Inside (fuel : Nat) (d : Definitions) (p : Place) : Prop where
  has : c.schema.Has p
  first : ∀ r, c.schema.Has r → r.address ∈ d.underway → r = p ∨ p.Precedes rank r
  height : c.schema.height rank p ≤ fuel

/-- Nodes that may be defined to a depth are. -/
def Ending (fuel : Nat) (define : Define) : Prop :=
  ∀ d p, Confined c u permits d → Admits c u permits rank fuel d p →
    (define p).Settles d (fun _ d' => Remains c u permits d d') Fails

end

variable {rank : Address → Nat} {fuel : Nat}

theorem Inside.remains {p : Place} (h : Inside c rank fuel d p) (hd : Remains c u permits d d') :
    Inside c rank fuel d' p :=
  ⟨h.has, fun r hr hmem => h.first r hr (hd.underway hmem), h.height⟩

/-- What comes before the node whose definition is built comes before all that is underway. -/
theorem Inside.precedes {p q r : Place} (h : Inside c rank fuel d p) (hq : q.Precedes rank p) (hr : c.schema.Has r)
    (hmem : r.address ∈ d.underway) : q.Precedes rank r := by
  rcases h.first r hr hmem with rfl | hpr
  · exact hq
  · exact hq.trans hpr

theorem Inside.not_mem_underway {p q : Place} (h : Inside c rank fuel d p) (hq : c.schema.Has q)
    (hprecedes : q.Precedes rank p) : q.address ∉ d.underway :=
  fun hmem => Place.Precedes.irrefl (h.precedes hprecedes hq hmem)

theorem Inside.admits {p q : Place} (h : Inside c rank fuel d p) (hq : c.schema.Has q)
    (hprecedes : (u.canonical c q).Precedes rank p)
    (hpermitted : q.node.kind.isStructural = true → (u.canonical c q).isWalked = false → permits (u.canonical c q)) :
    Admits c u permits rank fuel d q where
  has := hq
  first _ hr hmem := h.precedes hprecedes hr hmem
  height := Nat.lt_of_lt_of_le (Schema.height_lt (has_canonical hq) hprecedes) h.height
  permitted := hpermitted

/-- When the definition of what stands for a node is built, what stands for it comes before all else underway. -/
theorem Admits.inside {p : Place} (h : Admits c u permits rank (fuel + 1) d p) {underway : List Address}
    (hsub : underway ⊆ (u.canonical c p).address :: d.underway) :
    Inside c rank fuel { d with underway } (u.canonical c p) where
  has := has_canonical h.has
  first r hr hmem := by
    rcases List.mem_cons.mp (hsub hmem) with heq | hmem
    · exact .inl (hr.eq (has_canonical h.has) heq)
    · exact .inr (h.first r hr hmem)
  height := Nat.le_of_lt_succ h.height

theorem isStructural_canonical {augmented : Prop} (h : c.schema.Traced augmented rank) {p : Place}
    (hp : c.schema.Has p) : (u.canonical c p).node.kind.isStructural = p.node.kind.isStructural := by
  rw [h.kind_of_isBehind hp (mirrors_canonical (u := u) h.ranked True hp).behind]

/-- A name that is found for a node is bound where that is permitted. -/
theorem Bounded.definitionName {augmented : Prop} (h : Bounded c u permits d)
    (htraced : c.schema.Traced augmented rank) {x : Place} (hx : c.schema.Has x)
    (hk : x.node.kind.isStructural = true) {name : Scalar} (hname : d.definitionName c x = some name)
    (hwalked : (u.canonical c x).isWalked = false) : permits (u.canonical c x) := by
  have hcanonical : (d.names.get? (d.canonical c x).address).isSome = true → permits (u.canonical c x) := by
    intro hsome
    rw [canonical_congr h.counts.usages] at hsome
    have hself := canonical_canonical (u := u) htraced.ranked hx
    have hpermits := h.names _ (has_canonical hx) ((isStructural_canonical htraced hx).trans hk) hsome
    rw [hself] at hpermits
    exact hpermits hwalked
  unfold Definitions.definitionName at hname
  split at hname
  · rename_i n hn
    exact h.names x hx hk (by rw [hn]; rfl) hwalked
  · exact hcanonical (by rw [hname]; rfl)

/-! ### Fields -/

section

variable {augmented : Prop} {declared : Schema} {M : Expansion.Expanded} {define : Define}
  (hfrom : Schema.LoadedFrom augmented declared M c.schema)
  (hpermits : ∀ p, u.withinBound c p = true → permits p)
include hfrom hpermits

theorem structuralRef_settles (hdefine : Ending c u permits (Expansion.rank M) fuel define) {p x : Place}
    (hp : Inside c (Expansion.rank M) fuel d p) (hx : x ∈ p.dataChildren) (hk : x.node.kind.isStructural = true)
    (hd : Confined c u permits d) :
    (structuralRef c define x).Settles d
      (fun name d' => Remains c u permits d d' ∧ Rendered c u permits x name) Fails := by
  have hxhas := hp.has.dataChild hx
  have huntyped : ∀ {text : String}, ((u.canonical c x).isWalked = false → u.withinBound c (u.canonical c x) = false) →
      (do note .debug text; pure none : Building (Option Scalar)).Settles d
        (fun name d' => Remains c u permits d d' ∧ Rendered c u permits x name) Fails := by
    intro text hbeyond
    refine (hd.note_settles (by simp) text).bind fun _ d' h => settles_pure ⟨h, ?_⟩
    exact ⟨fun _ hsome => absurd hsome (by simp), fun hwalked _ => hbeyond hwalked⟩
  unfold structuralRef
  refine settles_bind (settles_get ?_)
  cases hname : d.definitionName c x with
  | some name =>
    refine settles_pure ⟨hd.remains, fun hwalked _ => ?_, fun _ hnone => by cases hnone⟩
    exact hd.definitionName hfrom.traced hxhas hk hname hwalked
  | none =>
    dsimp only
    rw [canonical_congr hd.counts.usages, withinBound_congr hd.counts]
    refine settles_ite (fun hwalked => huntyped fun hnot => ?_) fun _ => ?_
    · rw [hwalked] at hnot
      cases hnot
    have hprecedes := precedes_canonical (u := u) hfrom hxhas (hfrom.traced.precedes_of_mem_dataChildren hp.has hx)
    refine settles_ite (fun hunder => ?_) fun _ => settles_ite (fun hbeyond => ?_) fun hbound => ?_
    · exact absurd hunder (hp.not_mem_underway (has_canonical hxhas) hprecedes)
    · exact huntyped fun _ => by simpa using hbeyond
    · have hpermitted := hpermits _ (by simpa using hbound)
      refine (hdefine d x hd (hp.admits hxhas hprecedes fun _ _ => hpermitted)).bind fun name d' h =>
        settles_pure ⟨h, ?_⟩
      exact ⟨fun _ _ => hpermitted, fun _ hnone => by cases hnone⟩

theorem propertyFor_settles (hdefine : Ending c u permits (Expansion.rank M) fuel define) {p x : Place}
    (hp : Inside c (Expansion.rank M) fuel d p) (hx : x ∈ p.dataChildren) (hd : Confined c u permits d) :
    (propertyFor c define x).Settles d
      (fun property d' => Remains c u permits d d' ∧ property.isSome = x.node.kind.isField ∧
        (x.node.kind.isStructural = true → ∀ q, property = some q →
          ∃ name, q = structuralProperty x name ∧ Rendered c u permits x name)) Fails := by
  have hkinds : x.node.kind.isStructural = true → x.node.kind.isTyped = false ∧ x.node.kind ≠ .anydata := by
    cases x.node.kind <;> simp [Kind.isStructural, Kind.isTyped]
  unfold propertyFor
  refine settles_ite (fun hk => ?_) fun hk => settles_ite (fun hk' => ?_) fun hk' =>
    settles_ite (fun hk'' => ?_) fun hk'' => ?_
  · refine (hd.ofLogged_settles (Schema.ends_leafProperty (hp.has.dataChild hx))).bind fun q d' h => settles_pure ?_
    exact ⟨h.2, by simp [Kind.isField, hk], fun hs => by simp [(hkinds hs).1] at hk⟩
  · exact settles_pure ⟨hd.remains, by simp [Kind.isField, hk'], fun hs => absurd hk' (hkinds hs).2⟩
  · refine (structuralRef_settles hfrom hpermits hdefine hp hx hk'' hd).bind fun name d' h => settles_pure ?_
    refine ⟨h.1, by simp [Kind.isField, hk''], fun _ q hq => ?_⟩
    exact ⟨name, (Option.some.inj hq).symm, h.2⟩
  · exact settles_pure ⟨hd.remains, by simp [Kind.isField, hk, hk', hk''], fun hs => absurd hs hk''⟩

theorem addField_settles (hdefine : Ending c u permits (Expansion.rank M) fuel define) {p x : Place}
    (hp : Inside c (Expansion.rank M) fuel d p) (hx : x ∈ p.dataChildren) (hd : Confined c u permits d) (node : Node)
    {ys : List Place} {o : ObjectModel} (hunique : o.properties.Unique)
    (ho : Renders c u permits Eq ys fun key q => (key, q) ∈ o.properties) :
    (addField c define node o x).Settles d
      (fun o' d' => Remains c u permits d d' ∧ o'.properties.Unique ∧
        Renders c u permits Eq (ys ++ [x]) fun key q => (key, q) ∈ o'.properties) Fails := by
  unfold addField
  refine (propertyFor_settles hfrom hpermits hdefine hp hx hd).bind fun property d' h => ?_
  obtain ⟨hd', hfield, hq⟩ := h
  cases property with
  | none => exact settles_pure ⟨hd', hunique, ho.skip hfield.symm⟩
  | some q =>
    refine (hd'.confined.ofLogged_settles (Logged.ends_ofExcept (Datum.ends_key? _))).bind fun key d'' h =>
      settles_pure ?_
    obtain ⟨hkey, hd''⟩ := h
    exact ⟨hd'.trans hd'', hunique.put _ _, ho.put hunique (Datum.eq_of_key? hkey) hfield.symm fun hk => hq hk q rfl⟩

theorem objectModel_settles (hdefine : Ending c u permits (Expansion.rank M) fuel define) {p : Place}
    (hp : Inside c (Expansion.rank M) fuel d p) (hd : Confined c u permits d) {children : List Place}
    (hchildren : ∀ x ∈ children, x ∈ p.dataChildren) :
    (objectModel c define p.node children).Settles d
      (fun o d' => Remains c u permits d d' ∧
        Renders c u permits Eq children fun key q => (key, q) ∈ o.properties) Fails := by
  unfold objectModel
  refine (settles_foldlM (fun pre (o : ObjectModel) d' => Remains c u permits d d' ∧ o.properties.Unique ∧
    Renders c u permits Eq pre fun key q => (key, q) ∈ o.properties) ⟨hd.remains, Entries.unique_nil, .nil⟩
    fun pre x post o d₁ hsplit h => ?_).imp fun o d' h => ⟨h.1, h.2.2⟩
  obtain ⟨hd₁, hunique, ho⟩ := h
  refine (addField_settles hfrom hpermits hdefine (hp.remains hd₁) (hchildren x (by simp [hsplit])) hd₁.confined
    p.node hunique ho).imp fun o' d₂ h₂ => ?_
  exact ⟨hd₁.trans h₂.1, h₂.2⟩

end

/-! ### Models -/

/-- A step that misses a grouping has not run out of depth. -/
theorem Confined.fails_of_misses (hd : Confined c u permits d) {e : Failure} (h : Misses d e d') : Fails e d' := by
  obtain ⟨rfl, qname, rfl⟩ := h
  exact ⟨by simp, hd.records⟩

theorem isIncluded_settles (hd : Confined c u permits d) (qname : String) (others : List String) :
    (isIncluded c qname others).Settles d (fun _ d' => Remains c u permits d d') Fails := by
  induction others generalizing d with
  | nil => exact settles_pure hd.remains
  | cons other rest ih =>
    unfold isIncluded
    refine settles_ite (fun _ => ?_) fun _ => ih hd
    refine (hd.ofLogged_settles (c.groupings.ends_isAncestorOf qname other)).bind fun b d' h => ?_
    refine settles_ite (fun _ => settles_pure h.2) fun _ => ?_
    exact (ih h.2.confined).imp fun _ d'' h' => h.2.trans h'

theorem outer_settles (hd : Confined c u permits d) (suppliers : List String) :
    (suppliers.filterM fun qname => do pure !(← isIncluded c qname suppliers)).Settles d
      (fun _ d' => Remains c u permits d d') Fails := by
  refine settles_filterM (Remains c u permits d) hd.remains fun qname d₁ h₁ => ?_
  refine (isIncluded_settles h₁.confined qname suppliers).bind fun b d₂ h₂ => ?_
  exact settles_pure (h₁.trans h₂)

section

variable {augmented : Prop} {declared : Schema} {M : Expansion.Expanded} {define : Define}
  (hfrom : Schema.LoadedFrom augmented declared M c.schema) (hknows : c.schema.KnowsGroupings)
  (hpermits : ∀ p, u.withinBound c p = true → permits p)
include hfrom hknows

theorem outerNames_settles (hdefine : Ending c u permits (Expansion.rank M) fuel define) {p : Place}
    (hp : Inside c (Expansion.rank M) fuel d p) (hd : Confined c u permits d) {outer : List String}
    (houter : ∀ qname ∈ outer, ∃ x ∈ p.dataChildren, qname ∈ c.schema.supplierChain x) :
    (outer.mapM fun qname => do
      let g ← groupingOf c qname
      define g).Settles d (fun _ d' => Remains c u permits d d') Fails := by
  refine settles_mapM (fun _ d' => Remains c u permits d d') hd.remains fun qname hq names d₁ h₁ => ?_
  refine settles_bind ((groupingOf_settles qname).mono (fun g d₂ hfound => ?_) fun _ _ => h₁.confined.fails_of_misses)
  obtain ⟨rfl, hg⟩ := hfound
  obtain ⟨x, hx, hchain⟩ := houter qname hq
  have hghas := Schema.has_of_groupingNamed? hg
  have hprecedes := below_supplier hfrom hp.has hx hchain hg hknows
  have hadmits : Admits c u permits (Expansion.rank M) fuel d₂ g := by
    refine (hp.remains h₁).admits hghas (precedes_canonical hfrom hghas hprecedes) fun hk => ?_
    simp [hfrom.kind_of_groupingNamed? hg, Kind.isStructural] at hk
  exact (hdefine d₂ g h₁.confined hadmits).imp fun _ d₃ h₃ => h₁.trans h₃

include hpermits

/-- The model of a node renders the children that no shared grouping supplies. -/
theorem buildModel_settles (hdefine : Ending c u permits (Expansion.rank M) fuel define) {p : Place}
    (hp : Inside c (Expansion.rank M) fuel d p) (hd : Confined c u permits d) :
    (buildModel c define p).Settles d
      (fun m d' => Remains c u permits d d' ∧ Renders c u permits Eq (ownChildren c u p) m.Own) Fails := by
  unfold buildModel
  cases hc : c.strategy with
  | unpacking =>
    have hown : ownChildren c u p = p.dataChildren := by
      refine List.filter_eq_self.mpr fun x _ => ?_
      rw [supplier?, hc]
      rfl
    refine (objectModel_settles hfrom hpermits hdefine hp hd fun x hx => hx).bind fun o d' h => settles_pure ⟨h.1, ?_⟩
    exact (hown ▸ h.2).congr fun _ _ => Model.own_object_iff
  | optimizing =>
    refine settles_bind ((partitionFields_settles hc hd.counts.usages p.node _).mono (fun r d₁ h₁ => ?_)
      fun _ _ => hd.fails_of_misses)
    obtain ⟨suppliers, others⟩ := r
    obtain ⟨rfl, hothers, hsuppliers⟩ := h₁
    have hown : others = ownChildren c u p := hothers
    have hchildren : ∀ x ∈ others, x ∈ p.dataChildren := fun x hx => (List.mem_filter.mp (hothers ▸ hx)).1
    refine ((outer_settles hd suppliers).and_ensures (outer_succeeds suppliers).ok).bind fun outer d₂ h₂ => ?_
    obtain ⟨h₂, -, houter⟩ := h₂
    refine settles_ite (fun _ => ?_) fun _ => ?_
    · refine (objectModel_settles hfrom hpermits hdefine (hp.remains h₂) h₂.confined hchildren).bind fun o d₃ h₃ =>
        settles_pure ⟨h₂.trans h₃.1, ?_⟩
      exact (hown ▸ h₃.2).congr fun _ _ => Model.own_object_iff
    · have hsupplied : ∀ qname ∈ outer, ∃ x ∈ p.dataChildren, qname ∈ c.schema.supplierChain x := by
        intro qname hq
        obtain ⟨x, hx, hsupplier⟩ := (hsuppliers qname).mp ((houter qname).mp hq).1
        exact ⟨x, hx, (of_supplier? hsupplier).2.1⟩
      refine (outerNames_settles hfrom hknows hdefine (hp.remains h₂) h₂.confined hsupplied).bind fun names d₃ h₃ => ?_
      replace h₃ := h₂.trans h₃
      cases others with
      | nil =>
        rcases names with _ | ⟨name, _ | ⟨name', names⟩⟩
        · exact settles_pure ⟨h₃, hown ▸ .nil⟩
        · exact settles_pure ⟨h₃, hown ▸ .nil⟩
        · exact settles_pure ⟨h₃, hown ▸ .nil⟩
      | cons x xs =>
        refine (objectModel_settles hfrom hpermits hdefine (hp.remains h₃) h₃.confined hchildren).bind fun o d₄ h₄ =>
          settles_pure ⟨h₃.trans h₄.1, ?_⟩
        exact (hown ▸ h₄.2).congr fun _ _ => Model.own_composed_iff

end

/-! ### Registration -/

/-- A search for a name ends if one of the names is a text that is free. -/
theorem ends_firstUsable {known : Models} {model : Model} {names : List Name} {t : String} (ht : .text t ∈ names)
    (hfree : known.get? (.text t) = none) : Failure.Ends (firstUsable known model names) := by
  induction names with
  | nil => cases ht
  | cons name names ih =>
    unfold firstUsable
    rcases List.mem_cons.mp ht with rfl | ht
    · have hkey : (Datum.text t).key? = .ok (.text t) := rfl
      rw [hkey]
      simp only [bind, Except.bind, hfree]
      exact Failure.ends_ok _
    · refine Failure.ends_bind (Datum.ends_key? _) fun key => ?_
      split
      · exact Failure.ends_ok _
      · exact Failure.ends_ite (Failure.ends_ok _) (ih ht)

/-- There are more numbered candidates than definitions. -/
theorem exists_free_candidate (p : Place) (known : Models) :
    ∃ t, .text t ∈ candidates c p (known.length + 1) ∧ known.get? (.text t) = none := by
  unfold candidates
  dsimp only
  generalize hlast : Datum.wording _ = last
  have hlength : (known.filterMap fun e => (Datum.scalar e.1).asText?).length < known.length + 1 :=
    Nat.lt_succ_of_le (List.length_filterMap_le _ _)
  obtain ⟨i, hi, hfree⟩ := Text.exists_numbered_not_mem last 1 hlength
  refine ⟨last ++ toString (i + 1), ?_, ?_⟩
  · exact List.mem_append_right _ (List.mem_map.mpr ⟨i, List.mem_range.mpr hi, rfl⟩)
  · by_contra hsome
    obtain ⟨m, hm⟩ := Option.ne_none_iff_exists'.mp hsome
    obtain ⟨k, hmem, hk⟩ := Entries.mem_of_get? hm
    obtain rfl := Scalar.eq_text_of_beq hk
    exact hfree (List.mem_filterMap.mpr ⟨_, hmem, rfl⟩)

/-- Binding a name keeps the bounds. -/
theorem Bounded.bind (h : Bounded c u permits d) {p : Place} (hp : c.schema.Has p) {name : Scalar}
    (hpermitted : p.node.kind.isStructural = true → (u.canonical c p).isWalked = false → permits (u.canonical c p))
    (hmodel : u.canonical c p = p →
      ∃ m, d.models.get? name = some m ∧ Renders c u permits Property.Matches (ownChildren c u p) m.Own)
    (completed : Entries Address Scalar) :
    Bounded c u permits { d with names := d.names.put p.address name, completed } where
  counts := ⟨h.counts.usages, h.counts.copies, h.counts.payload, h.counts.processed⟩
  records := h.records
  names := by
    intro q hq hk hsome hwalked
    by_cases ha : p.address = q.address
    · obtain rfl := hp.eq hq ha
      exact hpermitted hk hwalked
    · rw [Entries.get?_put_of_ne (by simpa using ha)] at hsome
      exact h.names q hq hk hsome hwalked
  models := by
    intro q n hq hself hn
    by_cases ha : p.address = q.address
    · obtain rfl := hp.eq hq ha
      rw [Entries.get?_put_self] at hn
      exact Option.some.inj hn ▸ hmodel hself
    · rw [Entries.get?_put_of_ne (by simpa using ha)] at hn
      exact h.models q n hq hself hn

theorem Bounded.addDefinition (h : Bounded c u permits d) {name : Scalar} {m : Model}
    (hgrows : d.models.Grows (Entries.put name m d.models)) :
    Bounded c u permits { d with document := d.document.addDefinition name m } where
  counts := ⟨h.counts.usages, h.counts.copies, h.counts.payload, h.counts.processed⟩
  records := h.records
  names := h.names
  models := by
    intro q n hq hself hn
    obtain ⟨m', hm', hrenders⟩ := h.models q n hq hself hn
    exact ⟨m', hgrows _ _ hm', hrenders⟩

/-- A model that agrees with one that renders some fields renders them as well. -/
theorem Renders.of_agrees {ys : List Place} {m m' : Model} (h : Renders c u permits Eq ys m.Own) (hm : m.IsProper)
    (hm' : m'.IsProper) (hagree : m' = m ∨ m'.agrees m = true) :
    Renders c u permits Property.Matches ys m'.Own where
  complete := by
    intro x hx hk
    obtain ⟨key, q, hq, hname⟩ := h.complete x hx hk
    rcases hagree with rfl | hagree
    · exact ⟨key, q, hq, hname⟩
    · obtain ⟨key', q', hq', hkey, -⟩ := hm'.own_of_agrees' hm hagree hq
      exact ⟨key', q', hq', Datum.beq_scalar_trans hname hkey⟩
  rendered := by
    intro x hx hk key q hq hname
    rcases hagree with rfl | hagree
    · obtain ⟨name, rfl, hrendered⟩ := h.rendered x hx hk key q hq hname
      exact ⟨name, .inl rfl, hrendered⟩
    · obtain ⟨key', q', hq', hkey, hqq⟩ := hm'.own_of_agrees hm hagree hq
      obtain ⟨name, rfl, hrendered⟩ := h.rendered x hx hk key' q' hq' (Datum.beq_scalar_trans hname (BEq.symm hkey))
      exact ⟨name, .inr hqq, hrendered⟩

/-- A node that stands for itself is registered with the model that has been built for it. -/
theorem register_settles {p : Place} (hp : c.schema.Has p) (hself : u.canonical c p = p)
    (hd : Confined c u permits d) {m : Model} (hm : Built (c := c) (u := u) (fun _ => True) d.models p m)
    (hrenders : Renders c u permits Eq (ownChildren c u p) m.Own)
    (hpermitted : p.node.kind.isStructural = true → p.isWalked = false → permits p) :
    (register c p m).Settles d
      (fun name d' => Remains c u permits d d' ∧ d'.names.get? p.address = some name) Fails := by
  have hbounded : (register c p m).Settles d (fun _ d' => Bounded c u permits d') Fails := by
    obtain ⟨t, ht, hfree⟩ := exists_free_candidate (c := c) p d.models
    have hnothing : ∀ r ∈ ([] : List Record), r.IsBenign := by simp
    have hbind : ∀ {d₁ : Definitions} {name : Scalar} {m' : Model}, Bounded c u permits d₁ →
        d₁.models.get? name = some m' → m'.IsProper → (m' = m ∨ m'.agrees m = true) →
        (do modify fun d => { d with names := d.names.put p.address name }; pure name : Building Scalar).Settles d₁
          (fun _ d' => Bounded c u permits d') Fails := by
      intro d₁ name m' hd₁ hget hproper hagree
      refine settles_bind (settles_modify (settles_pure ?_))
      refine hd₁.bind hp (by rwa [hself]) (fun _ => ?_) _
      exact ⟨m', hget, hrenders.of_agrees hm.proper hproper hagree⟩
    unfold register
    refine settles_bind (settles_get (settles_bind (settles_ofLogged (fun name hname => ?_) fun e he => ?_)))
    · have husable := firstUsable_ok hname
      have hd₁ := hd.toBounded.noted hnothing
      refine settles_ite (fun hnew => ?_) fun hold => ?_
      · have hfresh : ¬d.models.Defines name := by
          unfold Models.Defines
          simpa using hnew
        obtain ⟨-, hgrows⟩ := hd.sound.closed.put hfresh hm.proper hm.covers
        refine settles_bind (settles_modify (settles_bind (settles_note ?_)))
        refine hbind ((hd₁.addDefinition hgrows).noted fun r hr => ?_) (Entries.get?_put_self _ _ _) hm.proper
          (.inl rfl)
        rw [List.mem_singleton.mp hr]
        exact Record.isBenign_of_ne (by simp) _
      · obtain ⟨other, hother⟩ := Option.ne_none_iff_exists'.mp (by simpa using hold)
        refine settles_bind (settles_note ?_)
        refine hbind (hd₁.noted fun r hr => ?_) hother (hd.sound.closed.of_get? hother).1 (.inr (husable other hother))
        rw [List.mem_singleton.mp hr]
        exact Record.isBenign_of_ne (by simp) _
    · exact ⟨ends_firstUsable ht hfree e he, (hd.toBounded.noted hnothing).records⟩
  refine (hbounded.and_ensures (register_ensures hp hself hd.sound hm)).imp fun name d' h => ?_
  obtain ⟨hbounded, hsound, hextends, -, hname⟩ := h
  exact ⟨⟨⟨hbounded, hsound⟩, hextends.underway⟩, hname⟩

/-- A node is bound to the name of what stands for it. -/
theorem bindName_settles (hs : c.schema.Ranked) {p : Place} (hp : c.schema.Has p) (hd : Confined c u permits d)
    {name : Scalar} (hname : d.names.get? (u.canonical c p).address = some name)
    (hpermitted : p.node.kind.isStructural = true → (u.canonical c p).isWalked = false → permits (u.canonical c p)) :
    (bindName p name).Settles d (fun _ d' => Remains c u permits d d') Fails := by
  have hself := canonical_canonical (u := u) hs hp
  have hstands := hd.sound.names _ name (has_canonical hp) hname
  rw [hself] at hstands
  have hbounded : (bindName p name).Settles d (fun _ d' => Bounded c u permits d') Fails := by
    refine settles_modify (hd.toBounded.bind hp hpermitted (fun heq => ?_) _)
    obtain ⟨m, hm, hrenders⟩ := hd.models _ name (has_canonical hp) hself hname
    exact ⟨m, hm, heq ▸ hrenders⟩
  refine (hbounded.and_ensures (bindName_ensures hp hd.sound hstands (by rw [hname]; rfl))).imp fun _ d' h => ?_
  exact ⟨⟨h.1, h.2.sound⟩, h.2.extended.underway⟩

/-! ### Definitions -/

section

variable {augmented : Prop} {declared : Schema} {M : Expansion.Expanded}
  (hfrom : Schema.LoadedFrom augmented declared M c.schema) (hknows : c.schema.KnowsGroupings)
  (hpermits : ∀ p, u.withinBound c p = true → permits p)
include hfrom hknows hpermits

/-- Definitions demand each other no deeper than there are nodes that come before. -/
theorem defineFrom_settles (fuel : Nat) : Ending c u permits (Expansion.rank M) fuel (defineFrom c fuel) := by
  induction fuel with
  | zero => exact fun d p _ hp => absurd hp.height (Nat.not_lt_zero _)
  | succ fuel ih =>
    intro d p hd hp
    have htarget : c.schema.Has (u.canonical c p) := has_canonical hp.has
    have hself := canonical_canonical (u := u) hfrom.traced.ranked hp.has
    have hpermitted : (u.canonical c p).node.kind.isStructural = true → (u.canonical c p).isWalked = false →
        permits (u.canonical c p) := fun hk => hp.permitted ((isStructural_canonical hfrom.traced hp.has).symm.trans hk)
    have hbind : ∀ {d₁ : Definitions} {name : Scalar}, Remains c u permits d d₁ →
        d₁.names.get? (u.canonical c p).address = some name →
        (do bindName p name; pure name : Building Scalar).Settles d₁ (fun _ d' => Remains c u permits d d') Fails := by
      intro d₁ name h₁ hname
      refine (bindName_settles hfrom.traced.ranked hp.has h₁.confined hname hp.permitted).bind fun _ d₂ h₂ =>
        settles_pure (h₁.trans h₂)
    unfold defineFrom
    refine settles_bind (settles_get ?_)
    rw [canonical_congr hd.counts.usages]
    dsimp only
    split
    · rename_i name hname
      exact settles_bind (settles_pure (hbind hd.remains hname))
    · have hmarks := marks_subset (u.canonical c p).address d.underway
      have hmodel := ((buildModel_settles hfrom hknows hpermits ih (hp.inside hmarks) (hd.marks _)).and_ensures
        (buildModel_ensures hfrom.traced.ranked (defineFrom_ensures hfrom.traced.ranked (Regime.free c u) fuel) htarget
          (hd.sound.marks _) trivial))
      refine settles_bind (settles_marked (hmodel.imp fun model d₁ h => ?_))
      obtain ⟨⟨h₁, hrenders⟩, -, -, hbuilt⟩ := h
      have hunmarked := h₁.unmark hmarks
      refine (register_settles htarget hself hunmarked.confined hbuilt hrenders hpermitted).bind fun name d₂ h₂ => ?_
      exact hbind (hunmarked.trans h₂.1) h₂.2

/-- While nothing is underway, whatever is permitted is defined. -/
theorem define_settles {p : Place} (hp : c.schema.Has p) (hd : Confined c u permits d) (hidle : d.underway = [])
    (hpermitted : p.node.kind.isStructural = true → (u.canonical c p).isWalked = false → permits (u.canonical c p)) :
    (Definitions.define c p).Settles d (fun _ d' => Confined c u permits d' ∧ d'.underway = []) Fails := by
  have hadmits : Admits c u permits (Expansion.rank M) (c.schema.size + 1) d p :=
    ⟨hp, by simp [hidle], Nat.lt_succ_of_le (Schema.height_le_size _), hpermitted⟩
  refine (defineFrom_settles hfrom hknows hpermits _ d p hd hadmits).imp fun _ d' h => ?_
  exact ⟨h.confined, List.subset_nil.mp (hidle ▸ h.underway)⟩

end

end Definitions

end RestconfApi
