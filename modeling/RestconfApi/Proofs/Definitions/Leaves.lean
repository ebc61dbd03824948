import RestconfApi.Proofs.Definitions.Bounding
import RestconfApi.Proofs.Definitions.Recording

/-!
# Definitions: leaves that are looked at

The definition of a node entails those of the containers and lists among its own fields that are not walked over, and
those of the groupings that it shares. All leaves that are fields of these are looked at: while definitions are built,
no leafref is at fault but that of such a leaf, and when they have been built each of these leaves has got a property,
unless it stands in the body of a grouping.
-/

namespace RestconfApi

/-- The node gets a property as a leaf. -/
def Schema.Converts (s : Schema) (x : Place) : Prop := ∃ q, (s.leafProperty x).result = .ok q

/-- No leafref is at fault when a value is no key. -/
theorem Datum.ne_leafref_of_key? {d : Datum} {fault : LeafrefFault} : d.key? ≠ .error (.leafref fault) := fun h => by
  simpa using d.errs_key? _ h

/-- If a leafref is at fault then it is that of a leaf that has been looked at. -/
def Schema.Blames (s : Schema) (looked : Place → Prop) (e : Failure) (_ : Definitions) : Prop :=
  ∀ fault, e = .leafref fault → ∃ x, looked x ∧ (s.leafProperty x).result = .error (.leafref fault)

namespace Definitions

open Building

variable {c : Scope} {u d d' : Definitions}

section

variable (c u)

/-- The definition of a node entails those of its own fields that are `followed`, and of the groupings that it
shares. -/
inductive Entails (followed : Place → Prop) (p : Place) : Place → Prop
  | self : Entails followed p p
  | field {q x : Place} : Entails followed p q → x ∈ ownChildren c u (u.canonical c q) → followed x →
      Entails followed p x
  | shared {q x g : Place} {qname : String} : Entails followed p q → x ∈ (u.canonical c q).dataChildren →
      supplier? c u (u.canonical c q).node x = some qname → c.schema.groupingNamed? qname = some g →
      Entails followed p g

/-- A field whose definition is built when that of the node around it is. -/
structure IsFollowed (x : Place) : Prop where
  structural : x.node.kind.isStructural = true
  unwalked : (u.canonical c x).isWalked = false
  within : u.withinBound c (u.canonical c x) = true

/-- The leaf is a field of a definition that the one of a node entails. -/
def LooksAt (p x : Place) : Prop :=
  ∃ q, Entails c u (IsFollowed c u) p q ∧ x ∈ ownChildren c u (u.canonical c q) ∧ x.node.kind.isTyped = true

/-- Whether there is a name for a node. -/
def HasName (d : Definitions) (p : Place) : Prop := (d.names.get? p.address).isSome = true

/-- The fields of a node are done with: its leaves have got properties, and there are names for what it has been built
with, but for what is pending. -/
structure HasFields (pending : List Address) (d : Definitions) (ys : List Place) : Prop where
  leaves : ∀ x ∈ ys, x.node.kind.isTyped = true → c.schema.Converts x
  followed : ∀ x ∈ ys, IsFollowed c u x → HasName d (u.canonical c x) ∨ (u.canonical c x).address ∈ pending

/-- While definitions are built, there are names for what stands for the nodes that have names, and their fields are
done with. -/
structure Looked (pending : List Address) (d : Definitions) : Prop where
  counts : SameCounts u d
  completed : ∀ a, (d.completed.get? a).isSome = true → (d.names.get? a).isSome = true
  bound : ∀ q, c.schema.Has q → HasName d q → HasName d (u.canonical c q)
  fields : ∀ q, c.schema.Has q → u.canonical c q = q → HasName d q →
    HasFields c u pending d (ownChildren c u q)

/-- What is left after a step that succeeds: names stay, and whatever is not underway any more has got one. -/
structure LooksOn (d d' : Definitions) : Prop where
  looked : Looked c u d'.underway d'
  names : ∀ a, (d.names.get? a).isSome = true → (d'.names.get? a).isSome = true
  left : ∀ a ∈ d.underway, a ∈ d'.underway ∨ (d'.names.get? a).isSome = true
  underway : d'.underway ⊆ d.underway

/-- If a leafref is at fault then it is that of a leaf that the definition of a node looks at. -/
abbrev Blames (p : Place) : Failure → Definitions → Prop := c.schema.Blames (LooksAt c u p)

end

theorem blames_of_ne {s : Schema} {looked : Place → Prop} {e : Failure} (h : ∀ fault, e ≠ .leafref fault) :
    s.Blames looked e d := fun fault he => absurd he (h fault)

/-! ### States -/

theorem HasFields.mono {pending pending' : List Address} {ys : List Place} (h : HasFields c u pending d ys)
    (hnames : ∀ a, (d.names.get? a).isSome = true → (d'.names.get? a).isSome = true)
    (hpending : ∀ a ∈ pending, a ∈ pending' ∨ (d'.names.get? a).isSome = true) : HasFields c u pending' d' ys where
  leaves := h.leaves
  followed x hx hfollowed := by
    rcases h.followed x hx hfollowed with hname | hmem
    · exact .inl (hnames _ hname)
    · exact (hpending _ hmem).symm

theorem HasFields.noted {pending : List Address} {ys : List Place} (h : HasFields c u pending d ys)
    (records : List Record) : HasFields c u pending { d with records } ys := ⟨h.leaves, h.followed⟩

theorem HasFields.nil {pending : List Address} : HasFields c u pending d [] := ⟨by simp, by simp⟩

theorem HasFields.concat {pending : List Address} {ys : List Place} {x : Place} (h : HasFields c u pending d ys)
    (hleaf : x.node.kind.isTyped = true → c.schema.Converts x)
    (hfollowed : IsFollowed c u x → HasName d (u.canonical c x) ∨ (u.canonical c x).address ∈ pending) :
    HasFields c u pending d (ys ++ [x]) where
  leaves y hy hk := by
    rcases List.mem_append.mp hy with hy | hy
    · exact h.leaves y hy hk
    · obtain rfl := List.mem_singleton.mp hy
      exact hleaf hk
  followed y hy hk := by
    rcases List.mem_append.mp hy with hy | hy
    · exact h.followed y hy hk
    · obtain rfl := List.mem_singleton.mp hy
      exact hfollowed hk

theorem isSome_get?_put_self {names : Entries Address Scalar} (a : Address) (name : Scalar) :
    ((names.put a name).get? a).isSome = true := by
  rw [Entries.get?_put_self]
  rfl

theorem isSome_get?_put {names : Entries Address Scalar} (a : Address) (name : Scalar) {b : Address}
    (h : (names.get? b).isSome = true) : ((names.put a name).get? b).isSome = true := by
  by_cases heq : a = b
  · exact heq ▸ isSome_get?_put_self a name
  · rwa [Entries.get?_put_of_ne (by simpa using heq)]

namespace Looked

variable {pending pending' : List Address}

theorem mono (h : Looked c u pending d) (hpending : pending ⊆ pending') : Looked c u pending' d :=
  ⟨h.counts, h.completed, h.bound, fun q hq hself hname => (h.fields q hq hself hname).mono (fun _ ha => ha)
    fun _ ha => .inl (hpending ha)⟩

/-- Nothing but the names and what is counted matters. -/
theorem congr (h : Looked c u pending d) (hcounts : SameCounts d d') (hnames : d'.names = d.names)
    (hcompleted : d'.completed = d.completed) : Looked c u pending d' := by
  have hname : ∀ {q}, HasName d' q → HasName d q := fun hq => by rwa [HasName, hnames] at hq
  have hname' : ∀ a, (d.names.get? a).isSome = true → (d'.names.get? a).isSome = true := fun a ha => by
    rwa [hnames]
  exact ⟨h.counts.trans hcounts, fun a ha => hname' a (h.completed a (hcompleted ▸ ha)),
    fun q hq hq' => hname' _ (h.bound q hq (hname hq')), fun q hq hself hq' =>
      (h.fields q hq hself (hname hq')).mono hname' fun _ ha => .inl ha⟩

theorem noted (h : Looked c u pending d) (records : List Record) : Looked c u pending { d with records } :=
  h.congr ⟨rfl, rfl, rfl, rfl⟩ rfl rfl

theorem looksOn (h : Looked c u d.underway d) : LooksOn c u d d :=
  ⟨h, fun _ ha => ha, fun _ ha => .inl ha, List.Subset.refl _⟩

/-- Another node gets a name: what stands for it has one or is the node itself, and then its fields are done with. -/
theorem bind (h : Looked c u pending d) {p : Place} (hp : c.schema.Has p)
    (hname : u.canonical c p = p ∨ HasName d (u.canonical c p))
    (hfields : u.canonical c p = p → HasFields c u pending d (ownChildren c u p)) (name : Scalar)
    (hd' : d'.names = d.names.put p.address name)
    (hcompleted : ∀ a, (d'.completed.get? a).isSome = true → (d.completed.get? a).isSome = true ∨ a = p.address)
    (hcounts : SameCounts d d')
    (hpending : ∀ a ∈ pending, a ∈ pending' ∨ a = p.address) : Looked c u pending' d' := by
  have hself : (d'.names.get? p.address).isSome = true := hd' ▸ isSome_get?_put_self p.address name
  have hnames : ∀ a, (d.names.get? a).isSome = true → (d'.names.get? a).isSome = true := fun a ha =>
    hd' ▸ isSome_get?_put p.address name ha
  have hpending' : ∀ a ∈ pending, a ∈ pending' ∨ (d'.names.get? a).isSome = true := by
    intro a ha
    refine (hpending a ha).imp_right fun heq => ?_
    rwa [heq]
  -- a node with a name is the one at hand or had one before
  have hcases : ∀ q, c.schema.Has q → HasName d' q → q = p ∨ HasName d q := by
    intro q hq hname
    by_cases heq : p.address = q.address
    · exact .inl (hp.eq hq heq).symm
    · rw [HasName, hd', Entries.get?_put_of_ne (by simpa using heq)] at hname
      exact .inr hname
  refine ⟨h.counts.trans hcounts, fun a ha => ?_, fun q hq hq' => ?_, fun q hq hstands hq' => ?_⟩
  · exact (hcompleted a ha).elim (fun ha => hnames a (h.completed a ha)) fun heq => heq ▸ hself
  · rcases hcases q hq hq' with rfl | hq'
    · rcases hname with heq | hname
      · rw [heq]
        exact hself
      · exact hnames _ hname
    · exact hnames _ (h.bound q hq hq')
  · rcases hcases q hq hq' with rfl | hq'
    · exact (hfields hstands).mono hnames hpending'
    · exact (h.fields q hq hstands hq').mono hnames hpending'

end Looked

theorem LooksOn.trans {d'' : Definitions} (h : LooksOn c u d d') (h' : LooksOn c u d' d'') : LooksOn c u d d'' where
  looked := h'.looked
  names a ha := h'.names a (h.names a ha)
  left a ha := by
    rcases h.left a ha with ha | ha
    · exact h'.left a ha
    · exact .inr (h'.names a ha)
  underway := fun _ ha => h.underway (h'.underway ha)

theorem LooksOn.noted (h : LooksOn c u d d') (records : List Record) : LooksOn c u d { d' with records } :=
  ⟨h.looked.noted records, h.names, h.left, h.underway⟩

theorem LooksOn.hasFields (h : LooksOn c u d d') {ys : List Place} (hys : HasFields c u d.underway d ys) :
    HasFields c u d'.underway d' ys :=
  hys.mono h.names h.left

/-! ### Fields -/

section

variable {root : Place} {define : Define}

/-- Defining what a node entails leaves names behind, or fails with a leafref at fault that the node looks at. -/
def Looking (c : Scope) (u : Definitions) (root : Place) (define : Define) : Prop :=
  ∀ d q, c.schema.Has q → Entails c u (IsFollowed c u) root q → Looked c u d.underway d →
    (define q).Settles d (fun _ d' => LooksOn c u d d' ∧ HasName d' (u.canonical c q)) (Blames c u root)

variable (hdefine : Looking c u root define)
include hdefine

theorem structuralRef_looks {q x : Place} (hq : c.schema.Has q) (hentails : Entails c u (IsFollowed c u) root q)
    (hx : x ∈ ownChildren c u (u.canonical c q)) (hk : x.node.kind.isStructural = true)
    (hd : Looked c u d.underway d) :
    (structuralRef c define x).Settles d (fun _ d' => LooksOn c u d d' ∧ (IsFollowed c u x →
      HasName d' (u.canonical c x) ∨ (u.canonical c x).address ∈ d'.underway)) (Blames c u root) := by
  have hxhas : c.schema.Has x := (has_canonical hq).dataChild (List.mem_filter.mp hx).1
  have hcanonical : d.canonical c x = u.canonical c x := canonical_congr hd.counts.usages x
  have huntyped : ∀ (level : Level) (text : String), (IsFollowed c u x →
        HasName d (u.canonical c x) ∨ (u.canonical c x).address ∈ d.underway) →
      (do note level text; pure none : Building (Option Scalar)).Settles d (fun _ d' => LooksOn c u d d' ∧
        (IsFollowed c u x → HasName d' (u.canonical c x) ∨ (u.canonical c x).address ∈ d'.underway))
        (Blames c u root) := fun level text h =>
    settles_bind (settles_note (settles_pure ⟨hd.looksOn.noted _, h⟩))
  unfold structuralRef
  refine settles_bind (settles_get ?_)
  cases hname : d.definitionName c x with
  | some name =>
    refine settles_pure ⟨hd.looksOn, fun _ => .inl ?_⟩
    unfold definitionName at hname
    rw [hcanonical] at hname
    split at hname
    · rename_i n hn
      split at hname
      · exact hd.bound x hxhas (by rw [HasName, hn]; rfl)
      · rw [HasName, hname]
        rfl
    · rw [HasName, hname]
      rfl
  | none =>
    dsimp only
    rw [hcanonical, withinBound_congr hd.counts]
    refine settles_ite (fun hwalked => huntyped _ _ fun h => ?_) fun hwalked =>
      settles_ite (fun hunderway => huntyped _ _ fun _ => .inr hunderway) fun _ =>
        settles_ite (fun hbound => huntyped _ _ fun h => ?_) fun hbound => ?_
    · rw [h.unwalked] at hwalked
      cases hwalked
    · rw [h.within] at hbound
      cases hbound
    · have hfollowed : IsFollowed c u x := ⟨hk, by simpa using hwalked, by simpa using hbound⟩
      refine (hdefine d x hxhas (hentails.field hx hfollowed) hd).bind fun name d' h => ?_
      exact settles_pure ⟨h.1, fun _ => .inl h.2⟩

theorem addField_looks {q x : Place} (hq : c.schema.Has q) (hentails : Entails c u (IsFollowed c u) root q)
    (hx : x ∈ ownChildren c u (u.canonical c q)) (node : Node) (model : ObjectModel) {ys : List Place}
    (hd : Looked c u d.underway d) (hys : HasFields c u d.underway d ys) :
    (addField c define node model x).Settles d
      (fun _ d' => LooksOn c u d d' ∧ HasFields c u d'.underway d' (ys ++ [x])) (Blames c u root) := by
  have hproperty : (propertyFor c define x).Settles d
      (fun _ d' => LooksOn c u d d' ∧ HasFields c u d'.underway d' (ys ++ [x])) (Blames c u root) := by
    unfold propertyFor
    refine settles_ite (fun htyped => ?_) fun htyped => settles_ite (fun hk => settles_pure ⟨hd.looksOn, ?_⟩) fun _ =>
      settles_ite (fun hk => ?_) fun hk => settles_pure ⟨hd.looksOn, ?_⟩
    · refine settles_bind (settles_ofLogged (fun property hok => settles_pure ⟨hd.looksOn.noted _, ?_⟩) ?_)
      · refine (hys.noted _).concat (fun _ => ⟨property, hok⟩) fun h => ?_
        have hk := h.structural
        cases hkind : x.node.kind <;> simp [hkind, Kind.isTyped, Kind.isStructural] at htyped hk
      · rintro e he fault rfl
        exact ⟨x, ⟨q, hentails, hx, htyped⟩, he⟩
    · refine hys.concat (fun h => absurd h htyped) fun h => ?_
      have := h.structural
      simp [hk, Kind.isStructural] at this
    · refine (structuralRef_looks hdefine hq hentails hx hk hd).bind fun name d' h => settles_pure ⟨h.1, ?_⟩
      exact (h.1.hasFields hys).concat (fun h => absurd h htyped) h.2
    · exact hys.concat (fun h => absurd h htyped) fun h => absurd h.structural hk
  unfold addField
  refine hproperty.bind fun property d' h => ?_
  cases property with
  | none => exact settles_pure h
  | some property =>
    refine settles_bind (settles_ofLogged (fun key _ => settles_pure ⟨h.1.noted _, h.2.noted _⟩) fun e he => ?_)
    exact blames_of_ne fun fault hfault => Datum.ne_leafref_of_key? (he.trans (congrArg _ hfault))

theorem objectModel_looks {q : Place} (hq : c.schema.Has q) (hentails : Entails c u (IsFollowed c u) root q)
    (node : Node) (hd : Looked c u d.underway d) :
    (objectModel c define node (ownChildren c u (u.canonical c q))).Settles d
      (fun _ d' => LooksOn c u d d' ∧ HasFields c u d'.underway d' (ownChildren c u (u.canonical c q)))
      (Blames c u root) := by
  refine settles_foldlM (fun pre _ d' => LooksOn c u d d' ∧ HasFields c u d'.underway d' pre) ⟨hd.looksOn, .nil⟩
    fun pre x post model d₁ hl h₁ => ?_
  have hx : x ∈ ownChildren c u (u.canonical c q) := by
    rw [hl]
    simp
  exact (addField_looks hdefine hq hentails hx node model h₁.1.looked h₁.2).imp fun _ _ h => ⟨h₁.1.trans h.1, h.2⟩

end

/-! ### Models -/

theorem Misses.blames {root : Place} {e : Failure} (h : Misses d e d') : Blames c u root e d' := by
  obtain ⟨-, qname, rfl⟩ := h
  exact blames_of_ne (by simp)

section

variable {root : Place} {define : Define} (hdefine : Looking c u root define) {q : Place}
  (hentails : Entails c u (IsFollowed c u) root q)
include hdefine hentails

theorem outerNames_looks {outer : List String}
    (houter : ∀ qname ∈ outer, ∃ x ∈ (u.canonical c q).dataChildren,
      supplier? c u (u.canonical c q).node x = some qname) (hd : Looked c u d.underway d) :
    (outer.mapM fun qname => do
      let g ← groupingOf c qname
      define g).Settles d (fun _ d' => LooksOn c u d d') (Blames c u root) := by
  refine settles_mapM (fun _ d' => LooksOn c u d d') hd.looksOn fun qname hmem names d₁ h₁ => ?_
  refine settles_bind ((groupingOf_settles qname).mono (fun g d₂ hfound => ?_) fun _ _ h => h.blames)
  obtain ⟨rfl, hg⟩ := hfound
  obtain ⟨x, hx, hsupplier⟩ := houter qname hmem
  have hghas := Schema.has_of_groupingNamed? hg
  exact (hdefine d₂ g hghas (hentails.shared hx hsupplier hg) h₁.looked).imp fun _ _ h => h₁.trans h.1

/-- The model of a node is built from its own fields and from the groupings that it shares. -/
theorem buildModel_looks (hq : c.schema.Has q) (hd : Looked c u d.underway d) :
    (buildModel c define (u.canonical c q)).Settles d
      (fun _ d' => LooksOn c u d d' ∧ HasFields c u d'.underway d' (ownChildren c u (u.canonical c q)))
      (Blames c u root) := by
  have hobject := fun {d : Definitions} (hd : Looked c u d.underway d) =>
    objectModel_looks hdefine hq hentails (u.canonical c q).node hd
  unfold buildModel
  cases hc : c.strategy with
  | unpacking =>
    have hown : ownChildren c u (u.canonical c q) = (u.canonical c q).dataChildren := by
      refine List.filter_eq_self.mpr fun x _ => ?_
      rw [supplier?, hc]
      rfl
    rw [hown] at hobject ⊢
    exact (hobject hd).bind fun o d' h => settles_pure h
  | optimizing =>
    refine settles_bind ((partitionFields_settles hc hd.counts.usages _ _).mono (fun r d₁ h₁ => ?_)
      fun _ _ h => h.blames)
    obtain ⟨suppliers, others⟩ := r
    obtain ⟨rfl, hothers, hsuppliers⟩ := h₁
    obtain rfl : others = ownChildren c u (u.canonical c q) := hothers
    refine settles_bind ((outer_succeeds suppliers).mono (fun outer d₂ h₂ => ?_) fun _ _ h => h.elim)
    obtain ⟨⟨records, rfl⟩, houter⟩ := h₂
    have h₂ : LooksOn c u d₁ { d₁ with records } := hd.looksOn.noted records
    refine settles_ite (fun _ => ?_) fun _ => ?_
    · exact (hobject h₂.looked).bind fun o d₃ h₃ => settles_pure ⟨h₂.trans h₃.1, h₃.2⟩
    · refine (outerNames_looks hdefine hentails (fun qname hmem => ?_) h₂.looked).bind fun names d₃ h₃ => ?_
      · exact (hsuppliers qname).mp ((houter qname).mp hmem).1
      have hfields := hobject h₃.looked
      cases hown : ownChildren c u (u.canonical c q) with
      | nil =>
        rcases names with _ | ⟨name, _ | ⟨name', names⟩⟩
        · exact settles_pure ⟨h₂.trans h₃, .nil⟩
        · exact settles_pure ⟨h₂.trans h₃, .nil⟩
        · exact settles_pure ⟨h₂.trans h₃, .nil⟩
      | cons x xs =>
        rw [hown] at hfields
        exact hfields.bind fun o d₄ h₄ => settles_pure ⟨(h₂.trans h₃).trans h₄.1, h₄.2⟩

end

/-! ### Definitions -/

/-- No leafref is at fault when there is no usable name. -/
theorem ne_leafref_of_firstUsable {known : Models} {model : Model} {names : List Name} {fault : LeafrefFault} :
    firstUsable known model names ≠ .error (.leafref fault) := by
  induction names with
  | nil => simp [firstUsable]
  | cons name names ih =>
    unfold firstUsable
    cases hkey : name.key? with
    | error e =>
      intro h
      exact Datum.ne_leafref_of_key? (hkey.trans h)
    | ok key =>
      simp only [bind, Except.bind]
      split
      · simp
      · split
        · simp
        · exact ih

/-- A node whose fields are done with is registered. -/
theorem register_looks {root p : Place} {pending : List Address} (hp : c.schema.Has p) (hself : u.canonical c p = p)
    (model : Model) (hd : Looked c u pending d) (hfields : HasFields c u pending d (ownChildren c u p))
    (hpending : ∀ a ∈ pending, a ∈ d.underway ∨ a = p.address) :
    (register c p model).Settles d (fun _ d' => Looked c u d'.underway d' ∧ d'.underway = d.underway ∧
      HasName d' p ∧ ∀ a, (d.names.get? a).isSome = true → (d'.names.get? a).isSome = true) (Blames c u root) := by
  have hbind : ∀ {d₁ : Definitions} (name : Scalar), d₁.names = d.names → d₁.underway = d.underway →
      d₁.completed = d.completed → SameCounts d d₁ →
        (do modify fun d => { d with names := d.names.put p.address name }; pure name :
          Building Scalar).Settles d₁ (fun _ d' => Looked c u d'.underway d' ∧ d'.underway = d.underway ∧
          HasName d' p ∧ ∀ a, (d.names.get? a).isSome = true → (d'.names.get? a).isSome = true) (Blames c u root) := by
    intro d₁ name hnames hunderway hcompleted hcounts
    refine settles_bind (settles_modify (settles_pure ⟨?_, hunderway, ?_, fun a ha => ?_⟩))
    · refine hd.bind hp (.inl hself) (fun _ => hfields) name (by rw [hnames]) (fun a ha => .inl ?_) ?_ fun a ha => ?_
      · rwa [← hcompleted]
      · exact ⟨hcounts.usages, hcounts.copies, hcounts.payload, hcounts.processed⟩
      · rw [hunderway]
        exact hpending a ha
    · rw [HasName, hnames]
      exact isSome_get?_put_self p.address name
    · rw [hnames]
      exact isSome_get?_put p.address name ha
  unfold register
  refine settles_bind (settles_get (settles_bind (settles_ofLogged (fun name _ => ?_) fun e he => ?_)))
  · refine settles_ite (fun _ => ?_) fun _ => ?_
    · exact settles_bind (settles_modify (settles_bind (settles_note (hbind name rfl rfl rfl ⟨rfl, rfl, rfl, rfl⟩))))
    · exact settles_bind (settles_note (hbind name rfl rfl rfl ⟨rfl, rfl, rfl, rfl⟩))
  · exact blames_of_ne fun fault hfault => ne_leafref_of_firstUsable (he.trans (congrArg _ hfault))

/-- A node is bound to the name of what stands for it. -/
theorem bindName_looks {root p : Place} (hp : c.schema.Has p) (hd : Looked c u d.underway d)
    (hname : HasName d (u.canonical c p)) (name : Scalar) :
    (bindName p name).Settles d (fun _ d' => LooksOn c u d d' ∧ HasName d' (u.canonical c p)) (Blames c u root) := by
  have hnames := fun a (ha : (d.names.get? a).isSome = true) => isSome_get?_put p.address name ha
  refine settles_modify ⟨⟨?_, hnames, fun _ ha => .inl ha, List.Subset.refl _⟩, hnames _ hname⟩
  refine hd.bind hp (.inr hname) (fun hstands => hd.fields p hp hstands ?_) name rfl (fun a ha => ?_)
    ⟨rfl, rfl, rfl, rfl⟩ fun _ ha => .inl ha
  · rwa [hstands] at hname
  · dsimp only at ha
    split at ha
    · exact .inl ha
    · by_cases heq : p.address = a
      · exact .inr heq.symm
      · rw [Entries.get?_put_of_ne (by simpa using heq)] at ha
        exact .inl ha

/-- A node is registered when its model has been built while it was underway. -/
theorem register_looksOn {root p : Place} {d₁ : Definitions} {marks : List Address} (hp : c.schema.Has p)
    (hself : u.canonical c p = p) (model : Model) (hsub : d.underway ⊆ marks)
    (hsub' : marks ⊆ p.address :: d.underway) (h₁ : LooksOn c u { d with underway := marks } d₁)
    (hfields : HasFields c u d₁.underway d₁ (ownChildren c u p)) :
    (register c p model).Settles { d₁ with underway := d₁.underway.filter (· ≠ p.address) }
      (fun _ d' => LooksOn c u d d' ∧ HasName d' p) (Blames c u root) := by
  have hunmarked : Looked c u d₁.underway { d₁ with underway := d₁.underway.filter (· ≠ p.address) } :=
    h₁.looked.congr ⟨rfl, rfl, rfl, rfl⟩ rfl rfl
  have hleft : ∀ a ∈ d₁.underway, a ∈ d₁.underway.filter (· ≠ p.address) ∨ a = p.address := fun a ha => by
    by_cases heq : a = p.address
    · exact .inr heq
    · exact .inl (List.mem_filter.mpr ⟨ha, by simpa using heq⟩)
  refine (register_looks hp hself model hunmarked ⟨hfields.leaves, hfields.followed⟩ hleft).imp fun name d' h' => ?_
  obtain ⟨hlooked, hunderway, hname, hnames⟩ := h'
  refine ⟨⟨hlooked, fun a ha => hnames a (h₁.names a ha), fun a ha => ?_, fun a ha => ?_⟩, hname⟩
  · rcases h₁.left a (hsub ha) with ha | ha
    · rw [hunderway]
      exact (hleft a ha).imp_right fun heq => by rwa [heq]
    · exact .inr (hnames a ha)
  · rw [hunderway] at ha
    obtain ⟨ha, hne⟩ := List.mem_filter.mp ha
    exact (List.mem_cons.mp (hsub' (h₁.underway ha))).resolve_left (by simpa using hne)

/-- Definitions look at the leaves of all that they entail. -/
theorem defineFrom_looks (hs : c.schema.Ranked) (root : Place) (fuel : Nat) :
    Looking c u root (defineFrom c fuel) := by
  induction fuel with
  | zero => exact fun d q _ _ _ => settles_fail (blames_of_ne (by simp))
  | succ fuel ih =>
    intro d q hq hentails hd
    have htarget : c.schema.Has (u.canonical c q) := has_canonical hq
    have hself := canonical_canonical (u := u) hs hq
    have hbind : ∀ {d₁ : Definitions} (name : Scalar), LooksOn c u d d₁ → HasName d₁ (u.canonical c q) →
        (do bindName q name; pure name : Building Scalar).Settles d₁
          (fun _ d' => LooksOn c u d d' ∧ HasName d' (u.canonical c q)) (Blames c u root) := fun name h₁ hname =>
      (bindName_looks hq h₁.looked hname name).bind fun _ d₂ h₂ => settles_pure ⟨h₁.trans h₂.1, h₂.2⟩
    unfold defineFrom
    refine settles_bind (settles_get ?_)
    rw [canonical_congr hd.counts.usages]
    dsimp only
    split
    · rename_i name hname
      exact settles_bind (settles_pure (hbind name hd.looksOn (by rw [HasName, hname]; rfl)))
    · -- the node is underway while its model is built
      have hsub := subset_marks (u.canonical c q).address d.underway
      have hsub' := marks_subset (u.canonical c q).address d.underway
      generalize hmarks : (if (u.canonical c q).address ∈ d.underway then d.underway
        else (u.canonical c q).address :: d.underway) = marks at hsub hsub'
      have hd' : Looked c u marks { d with underway := marks } :=
        (hd.mono hsub).congr ⟨rfl, rfl, rfl, rfl⟩ rfl rfl
      refine settles_bind (settles_marked ?_)
      rw [hmarks]
      refine (buildModel_looks ih hentails hq hd').imp fun model d₁ h₁ => ?_
      exact (register_looksOn htarget hself model hsub hsub' h₁.1 (hself.symm ▸ h₁.2)).bind fun name d₂ h₂ =>
        hbind name h₂.1 h₂.2

/-- While nothing is underway, defining a node leaves a name for what stands for it. -/
theorem define_looks (hs : c.schema.Ranked) {p : Place} (hp : c.schema.Has p) (hd : Looked c u d.underway d) :
    (Definitions.define c p).Settles d (fun _ d' => LooksOn c u d d' ∧ HasName d' (u.canonical c p))
      (Blames c u p) := defineFrom_looks hs p _ d p hp .self hd

/-! ### What is looked at -/

section

variable {augmented : Prop} {rank : Address → Nat} (htraced : c.schema.Traced augmented rank) {p q x : Place}

theorem Entails.has {followed : Place → Prop} (hp : c.schema.Has p) (h : Entails c u followed p q) :
    c.schema.Has q := by
  induction h with
  | self => exact hp
  | field _ hx _ ih => exact (has_canonical ih).dataChild (List.mem_filter.mp hx).1
  | shared _ _ _ hg _ => exact Schema.has_of_groupingNamed? hg

/-- What is entailed depends only on the uses that have been counted. -/
theorem Entails.congr {u' : Definitions} {followed : Place → Prop} (hu : u.usages = u'.usages)
    (h : Entails c u followed p q) : Entails c u' followed p q := by
  induction h with
  | self => exact .self
  | field _ hx hfollowed ih =>
    rw [ownChildren_congr hu, canonical_congr hu] at hx
    exact ih.field hx hfollowed
  | shared _ hx hsupplier hg ih =>
    rw [canonical_congr hu] at hx hsupplier
    simp only [supplier?, isShared_congr hu] at hsupplier
    exact ih.shared hx hsupplier hg

theorem LooksAt.has (hp : c.schema.Has p) (h : LooksAt c u p x) : c.schema.Has x := by
  obtain ⟨q, hq, hx, -⟩ := h
  exact (has_canonical (hq.has hp)).dataChild (List.mem_filter.mp hx).1

theorem mem_dataChildren_of_unpacking (hc : c.strategy = .unpacking) (hx : x ∈ ownChildren c u (u.canonical c q)) :
    x ∈ q.dataChildren := by
  rw [canonical_unpacking hc] at hx
  exact (List.mem_filter.mp hx).1

/-- Under the unpacking strategy a node entails only what stands where it does. -/
theorem Entails.part_eq {followed : Place → Prop} (hc : c.strategy = .unpacking) (h : Entails c u followed p q) :
    q.address.part = p.address.part := by
  induction h with
  | self => rfl
  | field _ hx _ ih => exact (Place.part_of_mem_dataChildren (mem_dataChildren_of_unpacking hc hx)).trans ih
  | shared _ _ hsupplier _ _ =>
    rw [supplier?, hc] at hsupplier
    cases hsupplier

/-- A node that is walked over looks at its own leaves alone under the unpacking strategy. -/
theorem LooksAt.mem_dataChildren (h : LooksAt c u p x) (hc : c.strategy = .unpacking) (hp : p.isWalked = true) :
    x ∈ p.dataChildren := by
  have hself : ∀ {q}, Entails c u (IsFollowed c u) p q → q = p := by
    intro q hq
    induction hq with
    | self => rfl
    | @field q y _ hy hfollowed ih =>
      obtain rfl := ih
      have hwalked := hfollowed.unwalked
      rw [canonical_unpacking hc, Place.isWalked_of_mem_dataChildren (mem_dataChildren_of_unpacking hc hy),
        hp] at hwalked
      cases hwalked
    | shared _ _ hsupplier _ _ =>
      rw [supplier?, hc] at hsupplier
      cases hsupplier
  obtain ⟨q, hq, hx, -⟩ := h
  exact hself hq ▸ mem_dataChildren_of_unpacking hc hx

include htraced

/-- What stands for a node outside groupings and stands outside groupings itself is the node. -/
theorem canonical_eq_of_part_ne (hp : c.schema.Has p) (hpart : (u.canonical c p).address.part ≠ .groupings) :
    u.canonical c p = p :=
  (htraced.part_of_isBehind hp (mirrors_canonical (u := u) htraced.ranked True hp).behind).resolve_right hpart

/-- The own fields of what stands for a node stand where the node does, or in groupings. -/
theorem part_of_mem_ownChildren (hq : c.schema.Has q) (hx : x ∈ ownChildren c u (u.canonical c q)) :
    x.address.part = q.address.part ∨ x.address.part = .groupings := by
  rw [Place.part_of_mem_dataChildren (List.mem_filter.mp hx).1]
  rcases htraced.part_of_isBehind hq (mirrors_canonical (u := u) htraced.ranked True hq).behind with hself | hgroupings
  · exact .inl (by rw [hself])
  · exact .inr hgroupings

/-- A node entails what stands where it does, and what stands in groupings. -/
theorem Entails.part {followed : Place → Prop} (hp : c.schema.Has p) (h : Entails c u followed p q) :
    q.address.part = p.address.part ∨ q.address.part = .groupings := by
  induction h with
  | self => exact .inl rfl
  | field hq hx _ ih =>
    rcases part_of_mem_ownChildren htraced (hq.has hp) hx with hpart | hgroupings
    · rwa [hpart]
    · exact .inr hgroupings
  | shared _ _ _ hg _ => exact .inr (Schema.part_of_groupingNamed? hg)

/-- Outside groupings a node entails itself and its own fields alone. -/
theorem Entails.induction_outside {followed : Place → Prop} (hp : c.schema.Has p) {P : Place → Prop}
    (hself : u.canonical c p = p → P p)
    (hfield : ∀ {q x : Place}, Entails c u followed p q → u.canonical c q = q → q.address.part ≠ .groupings → P q →
      x ∈ ownChildren c u q → followed x → u.canonical c x = x → P x)
    (h : Entails c u followed p q) (hpart : (u.canonical c q).address.part ≠ .groupings) : P q := by
  induction h with
  | self => exact hself (canonical_eq_of_part_ne htraced hp hpart)
  | @field q x hq hx hfollowed ih =>
    have hqhas := hq.has hp
    have hxhas := (has_canonical hqhas).dataChild (List.mem_filter.mp hx).1
    have hstands := canonical_eq_of_part_ne htraced hxhas hpart
    have hqpart : (u.canonical c q).address.part ≠ .groupings := by
      rw [hstands, Place.part_of_mem_dataChildren (List.mem_filter.mp hx).1] at hpart
      exact hpart
    have hqstands := canonical_eq_of_part_ne htraced hqhas hqpart
    exact hfield hq hqstands (hqstands ▸ hqpart) (ih hqpart) (hqstands ▸ hx) hfollowed hstands
  | shared _ _ _ hg _ =>
    have hgpart := Schema.part_of_groupingNamed? hg
    have hg' := Schema.has_of_groupingNamed? hg
    rw [canonical_eq_of_part_ne htraced hg' hpart] at hpart
    exact absurd hgpart hpart

/-- The leaves outside groupings that the definition of a node looks at get properties, once there is a name for what
stands for the node. -/
theorem Looked.converts (hd : Looked c u [] d) (hp : c.schema.Has p) (hname : HasName d (u.canonical c p))
    (h : LooksAt c u p x) (hpart : x.address.part ≠ .groupings) : c.schema.Converts x := by
  obtain ⟨q, hq, hx, htyped⟩ := h
  have hqhas := hq.has hp
  have hqpart : (u.canonical c q).address.part ≠ .groupings := by
    rwa [Place.part_of_mem_dataChildren (List.mem_filter.mp hx).1] at hpart
  have hself := canonical_canonical (u := u) htraced.ranked hqhas
  refine (hd.fields _ (has_canonical hqhas) hself ?_).leaves x hx htyped
  refine hq.induction_outside htraced hp (P := fun q => HasName d (u.canonical c q)) (fun _ => hname)
    (fun {q x} hq hstands _ hname hx hfollowed _ => ?_) hqpart
  rw [hstands] at hname
  exact ((hd.fields q (hq.has hp) hstands hname).followed x hx hfollowed).resolve_right (by simp)

omit htraced in
/-- What is walked over or stands in a payload itself is within no bound but none: only what stands in groupings is
recorded. -/
theorem maxLevel_of_withinBound
    (hlisted : ListsTemplates u) (h : u.withinBound c x = true) (hpart : x.address.part ≠ .groupings) :
    c.maxLevel = none := by
  unfold withinBound at h
  split at h
  · assumption
  · rcases Bool.or_eq_true _ _ ▸ h with h | h
    · exact absurd (hlisted _ (.inl (List.contains_iff_mem.mp h))) hpart
    · obtain ⟨⟨a, copy⟩, hmem, ha⟩ := List.any_eq_true.mp h
      simp only [Bool.and_eq_true] at ha
      have heq : a = x.address := by simpa using ha.1.1.1
      exact absurd (heq ▸ hlisted a (.inr (List.mem_map_of_mem hmem))) hpart

/-- Outside groupings the unpacking strategy looks at all that another one looks at. -/
theorem LooksAt.unpacked (h : LooksAt c u p x) (hp : c.schema.Has p) (hpart : x.address.part ≠ .groupings)
    (hlisted : ListsTemplates u) {c' : Scope} (hlevel : c'.maxLevel = c.maxLevel) (hc' : c'.strategy = .unpacking) :
    LooksAt c' u p x := by
  have hown : ∀ {q y : Place}, y ∈ ownChildren c u q → y ∈ ownChildren c' u (u.canonical c' q) := by
    intro q y hy
    rw [canonical_unpacking hc']
    refine List.mem_filter.mpr ⟨(List.mem_filter.mp hy).1, ?_⟩
    rw [supplier?, hc']
    rfl
  obtain ⟨q, hq, hx, htyped⟩ := h
  have hqpart : (u.canonical c q).address.part ≠ .groupings := by
    rwa [Place.part_of_mem_dataChildren (List.mem_filter.mp hx).1] at hpart
  have hstands := canonical_eq_of_part_ne htraced (hq.has hp) hqpart
  refine ⟨q, ?_, hown (hstands ▸ hx), htyped⟩
  refine hq.induction_outside htraced hp (P := Entails c' u (IsFollowed c' u) p) (fun _ => .self)
    (fun {q x} _ _ hqpart hq hx hfollowed hxstands => hq.field (hown hx) ?_) hqpart
  have hxpart : x.address.part ≠ .groupings := by
    rwa [Place.part_of_mem_dataChildren (List.mem_filter.mp hx).1]
  obtain ⟨hstructural, hunwalked, hwithin⟩ := hfollowed
  rw [hxstands] at hunwalked hwithin
  refine ⟨hstructural, ?_, ?_⟩
  · rwa [canonical_unpacking hc']
  · rw [withinBound, hlevel, maxLevel_of_withinBound hlisted hwithin hxpart]

end

/-- Nothing is to be looked at when nothing has a name. -/
theorem looked_of_unnamed {pending : List Address} (h : d.names = []) (hcompleted : d.completed = []) :
    Looked c d pending d where
  counts := SameCounts.refl d
  completed a ha := by simp [hcompleted] at ha
  bound q _ hq := by simp [HasName, h] at hq
  fields q _ _ hq := by simp [HasName, h] at hq

end Definitions

end RestconfApi
