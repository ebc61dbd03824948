import RestconfApi.Proofs.Building
import RestconfApi.Proofs.Definitions.Invariant
import RestconfApi.Proofs.Definitions.Properties

/-!
# Definitions: what defining a node ensures

The model of a node is built from the nodes that contribute to it, and the definition it is registered
under describes the node. Definitions demand each other, so that this is shown by induction on how deep they
may.
-/

namespace RestconfApi.Definitions

open Building

variable {c : Scope} {u : Definitions} {cut : Place → Prop} {d d' : Definitions}

/-! ### Suppliers -/

/-- Nothing has been changed, and a grouping has not been found. -/
def Misses (d : Definitions) (e : Failure) (d' : Definitions) : Prop :=
  d' = d ∧ ∃ qname, e = .schema (.lostGrouping qname)

theorem groupingOf_settles (qname : String) :
    (groupingOf c qname).Settles d (fun g d' => d' = d ∧ c.schema.groupingNamed? qname = some g) (Misses d) := by
  unfold groupingOf
  split
  · exact settles_pure ⟨rfl, ‹_›⟩
  · exact settles_fail ⟨rfl, qname, rfl⟩

theorem firstShared_settles (hu : d.usages = u.usages) (site : Node) (qnames : List String) :
    (firstShared c site qnames).Settles d (fun supplier d' => d' = d ∧
      supplier = qnames.find? fun qname =>
        u.isShared qname && (c.schema.groupingNamed? qname).any fun g => g.node.config == site.config) (Misses d) := by
  induction qnames with
  | nil => exact settles_pure ⟨rfl, rfl⟩
  | cons qname rest ih =>
    unfold firstShared
    refine settles_bind (settles_get (settles_ite (fun hshared => ?_) fun hshared => ?_))
    · rw [isShared_congr hu] at hshared
      refine (groupingOf_settles qname).bind fun g d' hg => ?_
      obtain ⟨rfl, hg⟩ := hg
      refine settles_ite (fun hconfig => settles_pure ⟨rfl, ?_⟩) fun hconfig => ih.imp fun r d' hr => ?_
      · rw [List.find?_cons_of_pos (by simp [hshared, hg, hconfig])]
      · rw [List.find?_cons_of_neg (by simp [hg, hconfig])]
        exact hr
    · rw [isShared_congr hu] at hshared
      refine ih.imp fun r d' hr => ?_
      rw [List.find?_cons_of_neg (by simp [hshared])]
      exact hr

/-- The children are told apart by the groupings that supply them. -/
theorem partitionFields_settles (hc : c.strategy = .optimizing) (hu : d.usages = u.usages) (site : Node)
    (children : List Place) :
    (partitionFields c site children).Settles d (fun (suppliers, others) d' => d' = d ∧
      others = (children.filter fun x => (supplier? c u site x).isNone) ∧
      ∀ qname, qname ∈ suppliers ↔ ∃ x ∈ children, supplier? c u site x = some qname) (Misses d) := by
  induction children with
  | nil => exact settles_pure ⟨rfl, rfl, by simp⟩
  | cons x rest ih =>
    unfold partitionFields
    refine (firstShared_settles hu site _).bind fun supplier d' hsupplier => ?_
    obtain ⟨rfl, hsupplier⟩ := hsupplier
    have hx : supplier? c u site x = supplier := by
      unfold supplier?
      rw [hc, hsupplier]
    refine ih.bind fun (suppliers, others) d' hrest => ?_
    obtain ⟨rfl, hothers, hsuppliers⟩ := hrest
    cases supplier with
    | none =>
      refine settles_pure ⟨rfl, ?_, fun qname => ?_⟩
      · rw [List.filter_cons_of_pos (by simp [hx]), hothers]
      · rw [hsuppliers]
        simp [hx]
    | some q =>
      refine settles_pure ⟨rfl, ?_, fun qname => ?_⟩
      · rw [List.filter_cons_of_neg (by simp [hx]), hothers]
      · simp only [List.mem_cons, List.mem_filter, hsuppliers, exists_eq_or_imp, hx, Option.some.injEq,
          decide_eq_true_eq]
        by_cases hq : qname = q
        · simp [hq]
        · simp [hq, Ne.symm hq]

/-- Whether a supplier is included in another one is always found out. -/
theorem isIncluded_succeeds (qname : String) (others : List String) :
    (isIncluded c qname others).Settles d (fun b d' => (∃ records, d' = { d with records }) ∧
      (b = true ↔ ∃ other ∈ others, Covers c qname other)) fun _ _ => False := by
  induction others generalizing d with
  | nil => exact settles_pure ⟨⟨d.records, rfl⟩, by simp⟩
  | cons other rest ih =>
    unfold isIncluded
    refine settles_ite (fun hne => ?_) fun heq => ?_
    · refine settles_bind (settles_ofLogged (fun b hb => settles_ite (fun htrue => ?_) fun hfalse => ?_) fun e he => ?_)
      · subst htrue
        exact settles_pure ⟨⟨_, rfl⟩, by simp [Covers, hne, hb]⟩
      · refine ih.imp fun b' d' h => ?_
        obtain ⟨⟨records, rfl⟩, h⟩ := h
        refine ⟨⟨records, rfl⟩, ?_⟩
        have hnot : ¬Covers c qname other := by
          rintro ⟨-, htrue⟩
          rw [hb] at htrue
          exact hfalse (Except.ok.inj htrue)
        simp [h, hnot]
      · unfold Groupings.isAncestorOf at he
        split at he <;> cases he
    · refine ih.imp fun b' d' h => ⟨h.1, ?_⟩
      have hnot : ¬Covers c qname other := fun h => heq h.1
      simp [h.2, hnot]

/-- The groupings that are kept are those whose fields no other supplier has. -/
theorem outer_succeeds (suppliers : List String) :
    (suppliers.filterM fun qname => do pure !(← isIncluded c qname suppliers)).Settles d
      (fun outer d' => (∃ records, d' = { d with records }) ∧
        ∀ qname, qname ∈ outer ↔ qname ∈ suppliers ∧ ∀ other ∈ suppliers, ¬Covers c qname other)
      fun _ _ => False := by
  classical
  have hends := settles_filterM (d := d) (f := fun qname => do pure !(← isIncluded c qname suppliers)) (l := suppliers)
    (E := fun _ _ => False) (fun _ => True) trivial fun qname _ _ =>
      (isIncluded_succeeds qname suppliers).bind fun _ _ _ => settles_pure trivial
  refine (hends.and_ensures (ensures_filterM (fun d' => ∃ records, d' = { d with records })
    (fun qname => !decide (∃ other ∈ suppliers, Covers c qname other)) ⟨d.records, rfl⟩
    fun qname d₁ h₁ => ?_)).imp fun outer d' h => ⟨h.2.2, fun qname => ?_⟩
  · obtain ⟨records, rfl⟩ := h₁
    refine ensures_bind ((isIncluded_succeeds qname suppliers).ok.mono fun b d₂ h₂ => ?_)
    obtain ⟨⟨records', rfl⟩, hb⟩ := h₂
    refine ensures_pure ⟨?_, records', rfl⟩
    cases b with
    | true => rw [decide_eq_true (hb.mp rfl)]
    | false => rw [decide_eq_false (mt hb.mpr (by simp))]
  · rw [h.2.1, List.mem_filter]
    simp

/-! ### Fields -/

/-- What the definition of a node may rely on: the regime lets it be defined, and it then gets a name that
describes what stands for it. -/
structure Defined (cut : Place → Prop) (d : Definitions) (p : Place) (name : Scalar) (d' : Definitions) :
    Prop where
  sound : Sound c u cut d'
  extended : Extends d d'
  stands : Stands c u cut d'.models (u.canonical c p) name
  named : d'.names.get? p.address = some name
  canonical : (d'.names.get? (u.canonical c p).address).isSome = true
  completed : (d'.completed.get? p.address).isSome = true

/-- `define` gives every node that may be defined such a name. -/
def Defining (R : Regime c u) (define : Define) : Prop :=
  ∀ d p, c.schema.Has p → Sound c u R.cut d → R.ready d (u.canonical c p) →
    (define p).Ensures d fun name d' => Defined (c := c) (u := u) R.cut d p name d'

variable {R : Regime c u} {define : Define}

theorem structuralRef_ensures (hs : c.schema.Ranked) (hdefine : Defining R define) {p x : Place}
    (hp : c.schema.Has p) (hd : Sound c u R.cut d) (hready : R.ready d p) (hx : x ∈ p.dataChildren)
    (hk : x.node.kind.isStructural = true) :
    (structuralRef c define x).Ensures d fun name d' => Sound c u R.cut d' ∧ Extends d d' ∧
      PropertyOf c u R.cut (Stands c u R.cut d'.models) x (structuralProperty x name) := by
  unfold structuralRef
  refine ensures_bind (ensures_get ?_)
  cases hname : d.definitionName c x with
  | some name =>
    exact ensures_pure ⟨hd, .refl d, .pointing hk (hd.definitionName hs (hp.dataChild hx) hname)⟩
  | none =>
    have huntyped : ∀ {level : Level} {text : String}, R.cut x →
        (do note level text; pure none : Building (Option Scalar)).Ensures d fun name d' =>
          Sound c u R.cut d' ∧ Extends d d' ∧
            PropertyOf c u R.cut (Stands c u R.cut d'.models) x (structuralProperty x name) := by
      intro level text hcut
      exact ensures_bind (ensures_note (ensures_pure
        ⟨hd.noted _, .noted d _, .untyped hk hcut⟩))
    obtain ⟨htarget, hchild⟩ := R.child hd.usages hp hready hx hk hname
    rw [← canonical_congr hd.usages] at hchild
    refine ensures_ite (fun hwalked => huntyped ?_) fun hwalked => ?_
    · exact hchild.resolve_right fun h => by simp [hwalked] at h
    refine ensures_ite (fun hunder => huntyped ?_) fun hunder => ?_
    · exact hchild.resolve_right fun h => h.2.1 hunder
    refine ensures_ite (fun hbound => huntyped ?_) fun hbound => ?_
    · exact hchild.resolve_right fun h => by simp [h.2.2] at hbound
    refine ensures_bind ((hdefine d x (hp.dataChild hx) hd htarget).mono fun name d' h => ?_)
    exact ensures_pure ⟨h.sound, h.extended, .pointing hk h.stands⟩

/-- The property of a child that is a field, given that a container or a list is defined if need be. -/
theorem propertyFor_ensures (hs : c.schema.Ranked) (hdefine : Defining R define) {p x : Place}
    (hp : c.schema.Has p) (hd : Sound c u R.cut d) (hready : R.ready d p) (hx : x ∈ p.dataChildren) :
    (propertyFor c define x).Ensures d fun property d' => Sound c u R.cut d' ∧ Extends d d' ∧
      match property with
      | some q => PropertyOf c u R.cut (Stands c u R.cut d'.models) x q
      | none => x.node.kind.isField = false := by
  unfold propertyFor
  refine ensures_ite (fun hk => ?_) fun hk => ensures_ite (fun hk' => ?_) fun hk' =>
    ensures_ite (fun hk'' => ?_) fun hk'' => ?_
  · exact ensures_bind (ensures_ofLogged fun q hq =>
      ensures_pure ⟨hd.noted _, .noted d _, .leaf hk hq⟩)
  · exact ensures_pure ⟨hd, .refl d, .anydata hk'⟩
  · refine ensures_bind ((structuralRef_ensures hs hdefine hp hd hready hx hk'').mono
      fun name d' h => ?_)
    exact ensures_pure h
  · exact ensures_pure ⟨hd, .refl d, by simp [Kind.isField, hk, hk', hk'']⟩

/-- The fields of an object are the properties of the nodes `ys`, and what `node` needs of them is required. -/
structure FieldsOf (cut : Place → Prop) (defs : Models) (node : Node) (ys : List Place) (o : ObjectModel) :
    Prop where
  unique : o.properties.Unique
  fieldless : o.properties = [] → o.required = []
  extensions : o.extensions = []
  sound : ∀ e ∈ o.properties, ∃ y ∈ ys, (y.node.name == .scalar e.1) = true ∧
    PropertyOf c u cut (Stands c u cut defs) y e.2
  complete : ∀ y ∈ ys, y.node.kind.isField = true →
    ∃ e ∈ o.properties, (y.node.name == .scalar e.1) = true
  required : ∀ y ∈ ys, ∀ key, Needs node y.node key → .text key ∈ o.required

theorem FieldsOf.isPlain {defs : Models} {node : Node} {ys : List Place} {o : ObjectModel}
    (h : FieldsOf (c := c) (u := u) cut defs node ys o) : (Model.object o).IsPlain := by
  refine .object ⟨h.unique, h.fieldless, h.extensions, fun e he => ?_⟩
  obtain ⟨y, -, -, hq⟩ := h.sound e he
  exact hq.isTame

theorem FieldsOf.covers {defs : Models} {node : Node} {ys : List Place} {o : ObjectModel}
    (h : FieldsOf (c := c) (u := u) cut defs node ys o) : defs.Covers o.refs := by
  intro r hr
  obtain ⟨e, he, hr⟩ := List.mem_flatMap.mp hr
  obtain ⟨y, -, -, hq⟩ := h.sound e he
  exact hq.covers (fun _ _ hn => hn.defines) r hr

theorem FieldsOf.grow {defs defs' : Models} {node : Node} {ys : List Place} {o : ObjectModel}
    (h : FieldsOf (c := c) (u := u) cut defs node ys o) (hc : defs.Closed) (hg : defs.Grows defs') :
    FieldsOf (c := c) (u := u) cut defs' node ys o := by
  refine ⟨h.unique, h.fieldless, h.extensions, fun e he => ?_, h.complete, h.required⟩
  obtain ⟨y, hy, hname, hq⟩ := h.sound e he
  exact ⟨y, hy, hname, hq.mono fun _ _ hn => hn.grow hc hg⟩

/-- One more node adds its property, in place of one of the same name. -/
theorem FieldsOf.put {defs : Models} {node : Node} {ys : List Place} {o : ObjectModel}
    (h : FieldsOf (c := c) (u := u) cut defs node ys o) {y : Place} {key : Scalar} {q : Property}
    (hname : y.node.name = .scalar key) (hq : PropertyOf c u cut (Stands c u cut defs) y q)
    {required : List Name} (hkept : o.required ⊆ required)
    (hneeds : ∀ key, Needs node y.node key → .text key ∈ required) :
    FieldsOf (c := c) (u := u) cut defs node (ys ++ [y])
      { o with properties := o.properties.put key q, required } where
  unique := h.unique.put key q
  fieldless := by
    intro hnil
    obtain ⟨j, hj, -⟩ := Entries.mem_put_self key q o.properties
    rw [show o.properties.put key q = [] from hnil] at hj
    cases hj
  extensions := h.extensions
  sound := by
    intro e he
    rcases Entries.mem_put (j := e.1) (w := e.2) he with ⟨he₁, he₂⟩ | he
    · refine ⟨y, List.mem_append_right _ (List.mem_singleton.mpr rfl), ?_, he₁ ▸ hq⟩
      exact Datum.beq_scalar_iff.mpr ⟨key, hname, BEq.symm he₂⟩
    · obtain ⟨z, hz, hzname, hzq⟩ := h.sound e he
      exact ⟨z, List.mem_append_left _ hz, hzname, hzq⟩
  complete := by
    intro z hz hk
    obtain ⟨j, hj, hjk⟩ := Entries.mem_put_self key q o.properties
    rcases List.mem_append.mp hz with hz | hz
    · obtain ⟨e, he, hename⟩ := h.complete z hz hk
      by_cases hek : (e.1 == key) = true
      · refine ⟨(j, q), hj, ?_⟩
        exact Datum.beq_scalar_trans hename (BEq.trans hek (BEq.symm hjk))
      · exact ⟨e, Entries.mem_put_of_ne he (Bool.eq_false_iff.mpr hek), hename⟩
    · obtain rfl := List.mem_singleton.mp hz
      exact ⟨(j, q), hj, Datum.beq_scalar_iff.mpr ⟨key, hname, BEq.symm hjk⟩⟩
  required := by
    intro z hz k hk
    rcases List.mem_append.mp hz with hz | hz
    · exact hkept (h.required z hz k hk)
    · obtain rfl := List.mem_singleton.mp hz
      exact hneeds k hk

/-- A key of a node, or a mandatory field, is noted as required. -/
theorem isRequired_of_needs {node child : Node} {key : String} (h : Needs node child key) :
    (child.mandatory || node.keys.any (child.name == .text ·)) = true := by
  obtain ⟨-, hname, hmandatory | hkey⟩ := h
  · rw [hmandatory, Bool.true_or]
  · have hbeq : (child.name == .text key) = true := by
      rw [hname]
      exact BEq.rfl (a := Scalar.text key)
    rw [List.any_eq_true.mpr ⟨key, hkey, hbeq⟩, Bool.or_true]

theorem addField_ensures (hs : c.schema.Ranked) (hdefine : Defining R define) {p x : Place}
    (hp : c.schema.Has p) (hd : Sound c u R.cut d) (hready : R.ready d p) (hx : x ∈ p.dataChildren)
    (node : Node) {ys : List Place} {o : ObjectModel}
    (ho : FieldsOf (c := c) (u := u) R.cut d.models node ys o) :
    (addField c define node o x).Ensures d fun o' d' => Sound c u R.cut d' ∧ Extends d d' ∧
      FieldsOf (c := c) (u := u) R.cut d'.models node (ys ++ [x]) o' := by
  unfold addField
  refine ensures_bind ((propertyFor_ensures hs hdefine hp hd hready hx).mono fun property d' h => ?_)
  obtain ⟨hd', he, hq⟩ := h
  have ho' := ho.grow hd.closed he.grows
  cases property with
  | none =>
    refine ensures_pure ⟨hd', he, ho'.unique, ho'.fieldless, ho'.extensions, fun e hmem => ?_,
      fun z hz hk => ?_, fun z hz key hneeds => ?_⟩
    · obtain ⟨y, hy, hname, hyq⟩ := ho'.sound e hmem
      exact ⟨y, List.mem_append_left _ hy, hname, hyq⟩
    · rcases List.mem_append.mp hz with hz | hz
      · exact ho'.complete z hz hk
      · obtain rfl := List.mem_singleton.mp hz
        rw [hq] at hk
        cases hk
    · rcases List.mem_append.mp hz with hz | hz
      · exact ho'.required z hz key hneeds
      · obtain rfl := List.mem_singleton.mp hz
        exact absurd hneeds.1 (by simp [hq])
  | some q =>
    refine ensures_bind (ensures_ofLogged fun key hkey => ensures_pure ?_)
    have hname : x.node.name = .scalar key := Datum.eq_of_key? hkey
    refine ⟨hd'.noted _, he.trans (.noted d' _), ho'.put hname hq (fun r hr => ?_) fun k hneeds => ?_⟩
    · split
      · exact List.mem_append_left _ hr
      · exact hr
    · rw [if_pos (isRequired_of_needs hneeds), hneeds.2.1]
      exact List.mem_append_right _ (List.mem_singleton.mpr rfl)

theorem objectModel_ensures (hs : c.schema.Ranked) (hdefine : Defining R define) {p : Place}
    (hp : c.schema.Has p) (hd : Sound c u R.cut d) (hready : R.ready d p) (node : Node)
    {children : List Place} (hchildren : ∀ x ∈ children, x ∈ p.dataChildren) :
    (objectModel c define node children).Ensures d fun o d' => Sound c u R.cut d' ∧ Extends d d' ∧
      FieldsOf (c := c) (u := u) R.cut d'.models node children o := by
  unfold objectModel
  refine ensures_foldlM (fun pre o d' => Sound c u R.cut d' ∧ Extends d d' ∧
    FieldsOf (c := c) (u := u) R.cut d'.models node pre o) ?_ ?_
  · exact ⟨hd, .refl d, Entries.unique_nil, fun _ => rfl, rfl, by simp, by simp, by simp⟩
  · intro pre x post o d₁ hsplit ⟨hd₁, he₁, ho⟩
    have hx : x ∈ p.dataChildren := hchildren x (by simp [hsplit])
    refine (addField_ensures hs hdefine hp hd₁ (R.ready_advances he₁.toAdvances hready) hx node ho).mono
      fun o' d₂ h => ?_
    exact ⟨h.1, he₁.trans h.2.1, h.2.2⟩

/-! ### Models -/

/-- The names of the definitions of shared groupings, each of which describes its grouping. -/
structure NamesOf (cut : Place → Prop) (defs : Models) (qnames : List String) (names : List Scalar) :
    Prop where
  sound : ∀ name ∈ names, ∃ qname ∈ qnames, ∃ g, c.schema.groupingNamed? qname = some g ∧
    Stands c u cut defs (u.canonical c g) name
  complete : ∀ qname ∈ qnames, ∃ name ∈ names, ∃ g, c.schema.groupingNamed? qname = some g ∧
    Stands c u cut defs (u.canonical c g) name

theorem NamesOf.grow {defs defs' : Models} {qnames : List String} {names : List Scalar}
    (h : NamesOf (c := c) (u := u) cut defs qnames names) (hc : defs.Closed) (hg : defs.Grows defs') :
    NamesOf (c := c) (u := u) cut defs' qnames names where
  sound := by
    intro name hname
    obtain ⟨qname, hq, g, hgrouping, hstands⟩ := h.sound name hname
    exact ⟨qname, hq, g, hgrouping, hstands.grow hc hg⟩
  complete := by
    intro qname hq
    obtain ⟨name, hname, g, hgrouping, hstands⟩ := h.complete qname hq
    exact ⟨name, hname, g, hgrouping, hstands.grow hc hg⟩

theorem outerNames_ensures (hdefine : Defining R define) {p : Place} (hp : c.schema.Has p)
    (hd : Sound c u R.cut d) (hready : R.ready d p) {outer : List String}
    (houter : ∀ qname ∈ outer, IsOuter c u p qname) :
    (outer.mapM fun qname => do
      let g ← groupingOf c qname
      define g).Ensures d fun names d' => Sound c u R.cut d' ∧ Extends d d' ∧
        NamesOf (c := c) (u := u) R.cut d'.models outer names := by
  refine ensures_mapM (fun pre names d' => Sound c u R.cut d' ∧ Extends d d' ∧
    NamesOf (c := c) (u := u) R.cut d'.models pre names) ⟨hd, .refl d, by simp, by simp⟩ ?_
  intro pre qname post names d₁ hsplit ⟨hd₁, he₁, hn⟩
  refine ensures_bind ((groupingOf_settles qname).ok.mono fun g d₂ h => ?_)
  obtain ⟨rfl, hg⟩ := h
  have hr := R.grouping hp (R.ready_advances he₁.toAdvances hready) (houter qname (by simp [hsplit])) hg
  refine (hdefine d₂ g (Schema.has_of_groupingNamed? hg) hd₁ hr).mono fun name d₃ h => ?_
  have hn' := hn.grow hd₁.closed h.extended.grows
  refine ⟨h.sound, he₁.trans h.extended, fun n hmem => ?_, fun q hmem => ?_⟩
  · rcases List.mem_append.mp hmem with hmem | hmem
    · obtain ⟨q, hq, rest⟩ := hn'.sound n hmem
      exact ⟨q, List.mem_append_left _ hq, rest⟩
    · obtain rfl := List.mem_singleton.mp hmem
      exact ⟨qname, List.mem_append_right _ (List.mem_singleton.mpr rfl), g, hg, h.stands⟩
  · rcases List.mem_append.mp hmem with hmem | hmem
    · obtain ⟨n, hn, rest⟩ := hn'.complete q hmem
      exact ⟨n, List.mem_append_left _ hn, rest⟩
    · obtain rfl := List.mem_singleton.mp hmem
      exact ⟨name, List.mem_append_right _ (List.mem_singleton.mpr rfl), g, hg, h.stands⟩

/-- A model that consists of the definitions of all outer groupings and of an object of the children that
no shared grouping supplies, if there are any. -/
theorem built_of_parts {defs : Models} {p : Place} {m : Model} {outer : List String}
    {names : List Scalar} {o : ObjectModel} (hproper : m.IsProper)
    (hown : ∀ key q, m.Own key q ↔ (key, q) ∈ o.properties)
    (hlists : ∀ key, .text key ∈ o.required → m.Lists key)
    (hbrings : ∀ name, m.Brings name ↔ name ∈ names)
    (hrefs : ∀ r ∈ m.refs, r ∈ names.map Datum.scalar ∨ r ∈ o.refs)
    (houter : ∀ qname, qname ∈ outer ↔ IsOuter c u p qname)
    (hnames : NamesOf (c := c) (u := u) cut defs outer names)
    (hfields : FieldsOf (c := c) (u := u) cut defs p.node
      (p.dataChildren.filter fun x => (supplier? c u p.node x).isNone) o) :
    Built (c := c) (u := u) cut defs p m where
  proper := hproper
  covers := by
    intro r hr
    rcases hrefs r hr with hr | hr
    · obtain ⟨name, hname, rfl⟩ := List.mem_map.mp hr
      obtain ⟨qname, -, g, -, hstands⟩ := hnames.sound name hname
      exact ⟨name, rfl, hstands.defines⟩
    · exact hfields.covers r hr
  own := by
    intro key q hq
    obtain ⟨y, hy, hname, hprop⟩ := hfields.sound _ ((hown key q).mp hq)
    obtain ⟨hmem, hsupplier⟩ := List.mem_filter.mp hy
    exact ⟨y, hmem, Option.isNone_iff_eq_none.mp hsupplier, hname, hprop⟩
  brings := by
    intro name hname
    obtain ⟨qname, hq, g, hg, hstands⟩ := hnames.sound name ((hbrings name).mp hname)
    exact ⟨qname, g, (houter qname).mp hq, hg, hstands⟩
  complete := by
    intro y hy hk
    cases hy with
    | own hmem hsupplier =>
      obtain ⟨e, he, hname⟩ :=
        hfields.complete y (List.mem_filter.mpr ⟨hmem, by simp [hsupplier]⟩) hk
      exact .inl ⟨e.1, e.2, hname, (hown _ _).mpr he⟩
    | @shared _ g _ qname hq hg hy =>
      obtain ⟨name, hname, g', hg', hstands⟩ := hnames.complete qname ((houter qname).mpr hq)
      obtain rfl : g = g' := Option.some.inj (hg.symm.trans hg')
      exact .inr ⟨u.canonical c g, name, (hbrings name).mpr hname, hstands, hy⟩
  requires := by
    intro key hkey
    cases hkey with
    | own hmem hsupplier hneeds =>
      exact .inl (hlists key (hfields.required _ (List.mem_filter.mpr ⟨hmem, by simp [hsupplier]⟩) key hneeds))
    | @shared _ g qname _ hq hg hkey =>
      obtain ⟨name, hname, g', hg', hstands⟩ := hnames.complete qname ((houter qname).mpr hq)
      obtain rfl : g = g' := Option.some.inj (hg.symm.trans hg')
      exact .inr ⟨u.canonical c g, name, (hbrings name).mpr hname, hstands, hkey⟩

/-- Without shared groupings the object of all children is the model. -/
theorem built_plain {defs : Models} {p : Place} {others : List Place} {o : ObjectModel}
    (hothers : others = (p.dataChildren.filter fun x => (supplier? c u p.node x).isNone))
    (hnone : ∀ qname, ¬IsOuter c u p qname) (hfields : FieldsOf (c := c) (u := u) cut defs p.node others o) :
    Built (c := c) (u := u) cut defs p (.object o) := by
  have hnames : NamesOf (c := c) (u := u) cut defs [] [] := ⟨by simp, by simp⟩
  refine built_of_parts (.plain hfields.isPlain) (fun key q => ?_) (fun key hkey => .object hkey)
    (fun name => ?_) (fun r hr => .inr hr) (fun qname => ?_) hnames (hothers ▸ hfields)
  · exact ⟨fun h => by cases h with | object h => exact h, .object⟩
  · simp only [List.not_mem_nil, iff_false]
    rintro ⟨⟩
  · simp [hnone]

/-- A reference to the only shared grouping, where there are no other fields. -/
theorem built_reference {defs : Models} {p : Place} {outer : List String} {name : Scalar}
    (houter : ∀ qname, qname ∈ outer ↔ IsOuter c u p qname)
    (hnames : NamesOf (c := c) (u := u) cut defs outer [name])
    (hfields : FieldsOf (c := c) (u := u) cut defs p.node
      (p.dataChildren.filter fun x => (supplier? c u p.node x).isNone) {}) :
    Built (c := c) (u := u) cut defs p (.reference (.scalar name)) := by
  refine built_of_parts (.plain (.reference name)) (fun key q => ?_) (fun key hkey => ?_) (fun n => ?_)
    (fun r hr => .inl ?_) houter hnames hfields
  · exact ⟨fun h => (by cases h), fun h => (by simp at h)⟩
  · simp at hkey
  · rw [List.mem_singleton]
    exact ⟨fun h => (by cases h; rfl), fun h => h ▸ .reference name⟩
  · exact hr

/-- A composition of references to the definitions `names`, with an object besides or without one that has
no fields. -/
theorem built_composed {defs : Models} {p : Place} {outer : List String} {names : List Scalar}
    {o : ObjectModel} {objects : List Model} (about : Datum)
    (hobjects : objects = [.object o] ∨ objects = [] ∧ o.properties = [])
    (houter : ∀ qname, qname ∈ outer ↔ IsOuter c u p qname)
    (hnames : NamesOf (c := c) (u := u) cut defs outer names)
    (hfields : FieldsOf (c := c) (u := u) cut defs p.node
      (p.dataChildren.filter fun x => (supplier? c u p.node x).isNone) o) :
    Built (c := c) (u := u) cut defs p
      (.composed (names.map (fun name => .reference (.scalar name)) ++ objects) about) := by
  have hreference : ∀ name, Model.reference (.scalar name) ∈
      names.map (fun name => Model.reference (.scalar name)) ++ objects ↔ name ∈ names := by
    intro name
    rcases hobjects with rfl | ⟨rfl, -⟩ <;> simp
  have hobject : ∀ o', Model.object o' ∈
      names.map (fun name => Model.reference (.scalar name)) ++ objects ↔ .object o' ∈ objects := by
    intro o'
    simp
  refine built_of_parts (o := o) (.composed fun m hm => ?_) (fun key q => ?_) (fun key hkey => ?_)
    (fun name => ?_) (fun r hr => ?_) houter hnames hfields
  · rcases List.mem_append.mp hm with hm | hm
    · obtain ⟨name, -, rfl⟩ := List.mem_map.mp hm
      exact .reference name
    · rcases hobjects with rfl | ⟨rfl, -⟩
      · exact List.mem_singleton.mp hm ▸ hfields.isPlain
      · simp at hm
  · constructor
    · rintro (_ | ⟨ho, hq⟩)
      rw [hobject] at ho
      rcases hobjects with rfl | ⟨rfl, -⟩
      · obtain rfl := Model.object.inj (List.mem_singleton.mp ho)
        exact hq
      · simp at ho
    · intro hq
      rcases hobjects with rfl | ⟨rfl, hnil⟩
      · exact .part ((hobject o).mpr (List.mem_singleton.mpr rfl)) hq
      · simp [hnil] at hq
  · rcases hobjects with rfl | ⟨rfl, hnil⟩
    · exact .part ((hobject o).mpr (List.mem_singleton.mpr rfl)) hkey
    · simp [hfields.fieldless hnil] at hkey
  · constructor
    · rintro (_ | hmem)
      exact (hreference name).mp hmem
    · exact fun hmem => .part ((hreference name).mpr hmem)
  · obtain ⟨m, hm, hr⟩ := List.mem_flatMap.mp hr
    rcases List.mem_append.mp hm with hm | hm
    · obtain ⟨name, hname, rfl⟩ := List.mem_map.mp hm
      exact .inl (List.mem_map.mpr ⟨name, hname, (List.mem_singleton.mp hr).symm⟩)
    · rcases hobjects with rfl | ⟨rfl, -⟩
      · obtain rfl := List.mem_singleton.mp hm
        exact .inr hr
      · simp at hm

theorem buildModel_ensures (hs : c.schema.Ranked) (hdefine : Defining R define) {p : Place}
    (hp : c.schema.Has p) (hd : Sound c u R.cut d) (hready : R.ready d p) :
    (buildModel c define p).Ensures d fun m d' => Sound c u R.cut d' ∧ Extends d d' ∧
      Built (c := c) (u := u) R.cut d'.models p m := by
  unfold buildModel
  cases hc : c.strategy with
  | unpacking =>
    have hsupplier : ∀ x, supplier? c u p.node x = none := fun x => by rw [supplier?, hc]
    have hothers : p.dataChildren = (p.dataChildren.filter fun x => (supplier? c u p.node x).isNone) := by
      simp [hsupplier]
    refine ensures_bind ((objectModel_ensures hs hdefine hp hd hready p.node fun x hx => hx).mono
      fun o d' h => ensures_pure ⟨h.1, h.2.1, built_plain hothers ?_ h.2.2⟩)
    · rintro qname ⟨⟨x, -, hx⟩, -⟩
      rw [hsupplier] at hx
      cases hx
  | optimizing =>
    refine ensures_bind ((partitionFields_settles hc hd.usages p.node _).ok.mono
      fun (suppliers, others) d' h => ?_)
    obtain ⟨rfl, hothers, hsuppliers⟩ := h
    refine ensures_bind ((outer_succeeds suppliers).ok.mono fun outer d₁ h => ?_)
    obtain ⟨⟨records, rfl⟩, hmem⟩ := h
    replace hd := hd.noted records
    have he := Extends.noted d' records
    replace hready := R.ready_advances he.toAdvances hready
    have houter : ∀ qname, qname ∈ outer ↔ IsOuter c u p qname := by
      intro qname
      rw [hmem, hsuppliers]
      refine and_congr_right fun _ => ⟨fun h x hx other ho => ?_, fun h other ho => ?_⟩
      · exact h other ((hsuppliers other).mpr ⟨x, hx, ho⟩)
      · obtain ⟨x, hx, ho⟩ := (hsuppliers other).mp ho
        exact h x hx other ho
    have hsub : ∀ x ∈ others, x ∈ p.dataChildren := fun x hx =>
      (List.mem_filter.mp (hothers ▸ hx)).1
    refine ensures_ite (fun hempty => ?_) fun _ => ?_
    · obtain rfl := List.isEmpty_iff.mp hempty
      refine ensures_bind ((objectModel_ensures hs hdefine hp hd hready p.node hsub).mono
        fun o d₂ h => ensures_pure ⟨h.1, he.trans h.2.1, built_plain hothers (fun qname hq => ?_) h.2.2⟩)
      exact absurd ((houter qname).mpr hq) (by simp)
    · refine ensures_bind ((outerNames_ensures hdefine hp hd hready fun qname hq =>
        (houter qname).mp hq).mono fun names d₂ h => ?_)
      obtain ⟨hd₂, he₂, hnames⟩ := h
      cases others with
      | nil =>
        have hfields : FieldsOf (c := c) (u := u) R.cut d₂.models p.node
            (p.dataChildren.filter fun x => (supplier? c u p.node x).isNone) {} := by
          rw [← hothers]
          exact ⟨Entries.unique_nil, fun _ => rfl, rfl, by simp, by simp, by simp⟩
        rcases names with _ | ⟨name, _ | ⟨name', names⟩⟩
        · refine ensures_pure ⟨hd₂, he.trans he₂, ?_⟩
          have hbuilt := built_composed p.node.description (.inr ⟨rfl, rfl⟩) houter hnames hfields
          simpa using hbuilt
        · exact ensures_pure ⟨hd₂, he.trans he₂, built_reference houter hnames hfields⟩
        · refine ensures_pure ⟨hd₂, he.trans he₂, ?_⟩
          have hbuilt := built_composed p.node.description (.inr ⟨rfl, rfl⟩) houter hnames hfields
          simpa using hbuilt
      | cons x xs =>
        refine ensures_bind ((objectModel_ensures hs hdefine hp hd₂ (R.ready_advances he₂.toAdvances hready) p.node
          hsub).mono fun o d₃ h => ensures_pure ⟨h.1, he.trans (he₂.trans h.2.1), ?_⟩)
        exact built_composed p.node.description (.inl rfl) houter (hnames.grow hd₂.closed h.2.1.grows)
          (hothers ▸ h.2.2)

/-! ### Registration -/

theorem firstUsable_ok {known : Models} {model : Model} {names : List Name} {name : Scalar}
    (h : firstUsable known model names = .ok name) :
    ∀ other, known.get? name = some other → other.agrees model = true := by
  induction names with
  | nil => cases h
  | cons n names ih =>
    unfold firstUsable at h
    obtain ⟨key, -, h⟩ := Failure.ok_of_bind h
    split at h
    · rename_i hget
      obtain rfl := Except.ok.inj h
      intro other hother
      rw [hget] at hother
      cases hother
    · rename_i other hget
      split at h
      · rename_i hagrees
        obtain rfl := Except.ok.inj h
        intro other' hother
        rw [hget] at hother
        exact Option.some.inj hother ▸ hagrees
      · exact ih h

/-- Binding a name that describes what stands for a node keeps the invariant. -/
theorem Sound.bind (hd : Sound c u cut d) {p : Place} (hp : c.schema.Has p) {name : Scalar}
    (h : Stands c u cut d.models (u.canonical c p) name) {names : Entries Address Scalar}
    (hnames : names = d.names ∨ names = d.names.put p.address name)
    {completed : Entries Address Scalar}
    (hcompleted : completed = d.completed ∨ completed = d.completed.put p.address name) :
    Sound c u cut { d with names, completed } := by
  have key : ∀ {m m' : Entries Address Scalar}, m' = m ∨ m' = m.put p.address name →
      (∀ q n, c.schema.Has q → m.get? q.address = some n →
        Stands c u cut d.models (u.canonical c q) n) →
      ∀ q n, c.schema.Has q → m'.get? q.address = some n →
        Stands c u cut d.models (u.canonical c q) n := by
    intro m m' hm hold q n hq hn
    rcases hm with rfl | rfl
    · exact hold q n hq hn
    · by_cases ha : p.address = q.address
      · rw [← ha, Entries.get?_put_self] at hn
        obtain rfl := Option.some.inj hn
        rwa [← hp.eq hq ha]
      · rw [Entries.get?_put_of_ne (by simpa using ha)] at hn
        exact hold q n hq hn
  exact ⟨hd.usages, hd.closed, key hnames hd.names, key hcompleted hd.completed, hd.built⟩

theorem Extends.bind (d : Definitions) (a : Address) (name : Scalar)
    {names : Entries Address Scalar} (hnames : names = d.names ∨ names = d.names.put a name)
    {completed : Entries Address Scalar}
    (hcompleted : completed = d.completed ∨ completed = d.completed.put a name) :
    Extends d { d with names, completed } := by
  have key : ∀ {m m' : Entries Address Scalar}, m' = m ∨ m' = m.put a name →
      ∀ b, (m.get? b).isSome = true → (m'.get? b).isSome = true := by
    intro m m' hm b hb
    rcases hm with rfl | rfl
    · exact hb
    · by_cases ha : a = b
      · rw [ha, Entries.get?_put_self]
        rfl
      · rwa [Entries.get?_put_of_ne (by simpa using ha)]
  exact ⟨⟨.refl, fun _ _ h => h, rfl, key hnames, key hcompleted, fun _ h => h⟩, rfl⟩

/-- A node that stands for itself is registered with a model built for it. -/
theorem register_ensures {p : Place} (hp : c.schema.Has p) (hcanonical : u.canonical c p = p)
    (hd : Sound c u cut d) {m : Model} (hm : Built (c := c) (u := u) cut d.models p m) :
    (register c p m).Ensures d fun name d' => Sound c u cut d' ∧ Extends d d' ∧
      Stands c u cut d'.models p name ∧ d'.names.get? p.address = some name := by
  unfold register
  refine ensures_bind (ensures_get (ensures_bind (ensures_ofLogged fun name hname => ?_)))
  have husable := firstUsable_ok hname
  -- once the model is there under the name, only the binding is left
  have hbind : ∀ {d₁ : Definitions}, Sound c u cut d₁ → Extends d d₁ →
      Stands c u cut d₁.models p name →
      (do modify fun d => { d with names := d.names.put p.address name }; pure name :
        Building Scalar).Ensures d₁ fun name d' => Sound c u cut d' ∧ Extends d d' ∧
          Stands c u cut d'.models p name ∧ d'.names.get? p.address = some name := by
    intro d₁ hd₁ he₁ hstands
    refine ensures_bind (ensures_modify (ensures_pure ⟨?_, ?_, hstands, Entries.get?_put_self _ _ _⟩))
    · exact hd₁.bind hp (by rwa [hcanonical]) (.inr rfl) (.inl rfl)
    · exact he₁.trans (.bind d₁ p.address name (.inr rfl) (.inl rfl))
  have hd₁ := hd.noted (d.records ++ (Logged.ofExcept (firstUsable d.models m
    (candidates c p (d.models.length + 1)))).records)
  refine ensures_ite (fun hnew => ?_) fun hold => ?_
  · have hfresh : ¬d.models.Defines name := by
      unfold Models.Defines
      simpa using hnew
    obtain ⟨hclosed, hgrows⟩ := hd.closed.put hfresh hm.proper hm.covers
    refine ensures_bind (ensures_modify (ensures_bind (ensures_note (hbind ?_ ?_ ?_))))
    · refine ⟨hd.usages, hclosed, fun q n hq hn => ?_, fun q n hq hn => ?_, fun e he => ?_⟩
      · exact (hd.names q n hq hn).grow hd.closed hgrows
      · exact (hd.completed q n hq hn).grow hd.closed hgrows
      · rcases Entries.mem_put (j := e.1) (w := e.2) he with ⟨heq, -⟩ | he
        · exact ⟨p, hp, heq ▸ hm.grow hd.closed hgrows⟩
        · obtain ⟨q, hq, hbuilt⟩ := hd.built e he
          exact ⟨q, hq, hbuilt.grow hd.closed hgrows⟩
    · exact ⟨⟨hgrows, fun _ _ h => h, rfl, fun _ h => h, fun _ h => h, fun _ h => h⟩, rfl⟩
    · exact (hm.grow hd.closed hgrows).stands hclosed (Entries.get?_put_self _ _ _) (.inl rfl)
  · obtain ⟨other, hother⟩ := Option.ne_none_iff_exists'.mp (by simpa using hold)
    refine ensures_bind (ensures_note (hbind (hd.noted _) (.noted d _) ?_))
    exact hm.stands hd.closed hother (.inr (husable other hother))

theorem bindName_ensures {p : Place} (hp : c.schema.Has p) (hd : Sound c u cut d) {name : Scalar}
    (h : Stands c u cut d.models (u.canonical c p) name)
    (htarget : (d.names.get? (u.canonical c p).address).isSome = true) :
    (bindName p name).Ensures d fun _ d' => Defined (c := c) (u := u) cut d p name d' := by
  unfold bindName
  refine ensures_modify ?_
  split
  · rename_i n hn
    have he := Extends.bind d p.address name (.inr rfl) (.inl rfl)
    exact ⟨hd.bind hp h (.inr rfl) (.inl rfl), he, h, Entries.get?_put_self _ _ _, he.names _ htarget,
      he.completed _ (by rw [hn]; rfl)⟩
  · have he := Extends.bind d p.address name (.inr rfl) (.inr rfl)
    refine ⟨hd.bind hp h (.inr rfl) (.inr rfl), he, h, Entries.get?_put_self _ _ _, he.names _ htarget, ?_⟩
    simp only [Entries.get?_put_self, Option.isSome_some]

/-- Defining a node that may be defined gives it a name that describes what stands for it. -/
theorem defineFrom_ensures (hs : c.schema.Ranked) (R : Regime c u) (fuel : Nat) :
    Defining R (defineFrom c fuel) := by
  induction fuel with
  | zero => exact fun d p _ _ _ => ensures_fail
  | succ fuel ih =>
    intro d p hp hd hready
    have htarget : c.schema.Has (u.canonical c p) := has_canonical hp
    unfold defineFrom
    refine ensures_bind (ensures_get ?_)
    rw [canonical_congr hd.usages]
    -- whatever gives the name, it is bound to the node in the end
    have hbind : ∀ {d₁ : Definitions} {name : Scalar}, Sound c u R.cut d₁ → Extends d d₁ →
        Stands c u R.cut d₁.models (u.canonical c p) name →
        (d₁.names.get? (u.canonical c p).address).isSome = true →
        (do bindName p name; pure name : Building Scalar).Ensures d₁ fun name d' =>
          Defined (c := c) (u := u) R.cut d p name d' := by
      intro d₁ name hd₁ he₁ hstands hsome
      refine ensures_bind ((bindName_ensures hp hd₁ hstands hsome).mono fun _ d₂ h => ensures_pure ?_)
      exact ⟨h.sound, he₁.trans h.extended, h.stands, h.named, h.canonical, h.completed⟩
    dsimp only
    split
    · rename_i name hname
      have hstands := hd.names _ name htarget hname
      rw [canonical_canonical hs hp] at hstands
      exact ensures_bind (ensures_pure (hbind hd (.refl d) hstands (by rw [hname]; rfl)))
    · have hmarks := marks_subset (u.canonical c p).address d.underway
      refine ensures_bind (ensures_marked ((buildModel_ensures hs ih htarget (hd.marks _)
        (R.ready_marked hready hmarks)).mono fun model d₁ ⟨hd₁, he₁, hbuilt⟩ => ?_))
      have he : Extends d { d₁ with underway := d₁.underway.filter (· ≠ (u.canonical c p).address) } := by
        refine ⟨⟨he₁.grows, he₁.operations, he₁.usages, he₁.names, he₁.completed, fun a ha => ?_⟩, he₁.paths⟩
        obtain ⟨ha, hne⟩ := List.mem_filter.mp ha
        rcases List.mem_cons.mp (hmarks (he₁.underway ha)) with rfl | ha
        · simp at hne
        · exact ha
      refine ensures_bind ((register_ensures htarget (canonical_canonical hs hp)
        (hd₁.marks (d₁.underway.filter (· ≠ (u.canonical c p).address))) hbuilt).mono
          fun name d₂ ⟨hd₂, he₂, hstands, hname⟩ => ?_)
      exact hbind hd₂ (he.trans he₂) hstands (by rw [hname]; rfl)

theorem define_ensures (hs : c.schema.Ranked) (R : Regime c u) {p : Place} (hp : c.schema.Has p)
    (hd : Sound c u R.cut d) (hready : R.ready d (u.canonical c p)) :
    (Definitions.define c p).Ensures d fun name d' => Defined (c := c) (u := u) R.cut d p name d' :=
  defineFrom_ensures hs R _ d p hp hd hready

end RestconfApi.Definitions
