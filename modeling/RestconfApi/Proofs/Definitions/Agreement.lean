import RestconfApi.Definitions.Build
import RestconfApi.Proofs.Building
import RestconfApi.Proofs.Definitions.Canonical
import RestconfApi.Proofs.Swagger.Renaming

/-!
# Definitions: builders that share alike

Two builders over one schema that share the same groupings build the same definitions, or fail alike. The optimizing
strategy shares the groupings that are used more than once, the unpacking one none.
-/

namespace RestconfApi

namespace Property

/-- What holds of a property if it holds of its items holds of all properties. -/
theorem items_induction {motive : Property → Prop}
    (h : ∀ p, (∀ q, p.items = some q → motive q) → motive p) : ∀ p, motive p
  | { items := none, .. } => h _ nofun
  | { items := some q, .. } => h _ fun q' hq => by
    obtain rfl := Option.some.inj hq
    exact items_induction h q

variable {f : Property → Property} {p q : Property}

theorem mapAll_of_none (h : p.items = none) : p.mapAll f = f p := by
  obtain ⟨_, _, _, _, items, _, _, _, _⟩ := p
  obtain rfl : items = none := h
  rfl

theorem mapAll_of_some (h : p.items = some q) : p.mapAll f = f { p with items := some (q.mapAll f) } := by
  obtain ⟨_, _, _, _, items, _, _, _, _⟩ := p
  obtain rfl : items = some q := h
  rfl

end Property

/-- The scope under another strategy. -/
def Scope.under (c : Scope) (strategy : Strategy) : Scope := { c with strategy }

namespace Definitions

open Building

/-- Whether the definition of a grouping stands for its copies. -/
def shares (c : Scope) (d : Definitions) (qname : String) : Bool :=
  decide (c.strategy = .optimizing) && d.isShared qname

/-- The states of two builders that differ at most in their counts, in what is recorded twice, in their log records,
and in properties that await what is there by now. -/
structure Similar (c : Scope) (t t' : Strategy) (d e : Definitions) : Prop where
  finished : d.finished = e.finished
  names : d.names = e.names
  completed : d.completed = e.completed
  underway : d.underway = e.underway
  processed : ∀ name, d.processed.contains name = e.processed.contains name
  copies : ∀ x, x ∈ d.copies ↔ x ∈ e.copies
  payload : ∀ a, a ∈ d.payload ↔ a ∈ e.payload
  shares : ∀ qname, d.shares (c.under t) qname = e.shares (c.under t') qname

variable {c : Scope} {t t' : Strategy} {d d' e e' : Definitions}

/-! ### Completing properties -/

/-- What has been completed stays when more can be. -/
theorem current_current (h : ∀ a name, d.completed.get? a = some name → d'.completed.get? a = some name)
    (p : Property) : d'.current (d.current p) = d'.current p := by
  unfold current
  cases hp : p.awaits.bind d.completed.get? with
  | none => rfl
  | some name =>
    obtain ⟨a, ha, hname⟩ := Option.bind_eq_some_iff.mp hp
    simp [ha, h a name hname]

theorem items_current (p : Property) : (d.current p).items = p.items := by
  unfold current
  split
  · rfl
  · rfl

theorem current_items (p : Property) (items : Option Property) :
    d.current { p with items } = { d.current p with items } := by
  unfold current
  dsimp only
  split
  · rfl
  · rfl

theorem mapAll_current (h : ∀ a name, d.completed.get? a = some name → d'.completed.get? a = some name)
    (p : Property) : Property.mapAll d'.current (Property.mapAll d.current p) = Property.mapAll d'.current p := by
  induction p using Property.items_induction with
  | _ p ih =>
    cases hp : p.items with
    | none =>
      have hitems : (d.current p).items = none := by rw [items_current, hp]
      rw [Property.mapAll_of_none hp, Property.mapAll_of_none hitems, Property.mapAll_of_none hp, current_current h]
    | some q =>
      have hitems : (d.current { p with items := some (q.mapAll d.current) }).items = some (q.mapAll d.current) :=
        items_current _
      rw [Property.mapAll_of_some hp, Property.mapAll_of_some hitems, Property.mapAll_of_some hp, ih q hp,
        ← current_items, current_current h]

theorem current_congr (h : d.completed = e.completed) : d.current = e.current := by
  funext p
  rw [current, current, h]

theorem mapProperties_current (h : ∀ a name, d.completed.get? a = some name → d'.completed.get? a = some name)
    (o : Operation) :
    (o.mapProperties (Property.mapAll d.current)).mapProperties (Property.mapAll d'.current) =
      o.mapProperties (Property.mapAll d'.current) := by
  rw [Operation.mapProperties_mapProperties]
  simp only [mapAll_current h]

/-- When more names are known, the document is completed further. -/
theorem finished_of_grows (hdocument : d'.document = d.document)
    (h : ∀ a name, d.completed.get? a = some name → d'.completed.get? a = some name) :
    d'.finished = d.finished.mapOperations (Property.mapAll d'.current) := by
  rw [Definitions.finished, Definitions.finished, hdocument]
  simp only [Document.mapOperations, List.map_map, Function.comp_def, mapProperties_current h]

namespace Similar

theorem refl (c : Scope) (t : Strategy) (d : Definitions) : Similar c t t d d :=
  ⟨rfl, rfl, rfl, rfl, fun _ => rfl, fun _ => .rfl, fun _ => .rfl, fun _ => rfl⟩

theorem symm (h : Similar c t t' d e) : Similar c t' t e d :=
  ⟨h.finished.symm, h.names.symm, h.completed.symm, h.underway.symm, fun name => (h.processed name).symm,
    fun x => (h.copies x).symm, fun a => (h.payload a).symm, fun qname => (h.shares qname).symm⟩

theorem trans {t'' : Strategy} {f : Definitions} (h : Similar c t t' d e) (h' : Similar c t' t'' e f) :
    Similar c t t'' d f :=
  ⟨h.finished.trans h'.finished, h.names.trans h'.names, h.completed.trans h'.completed,
    h.underway.trans h'.underway, fun name => (h.processed name).trans (h'.processed name),
    fun x => (h.copies x).trans (h'.copies x), fun a => (h.payload a).trans (h'.payload a),
    fun qname => (h.shares qname).trans (h'.shares qname)⟩

theorem models (h : Similar c t t' d e) : d.document.definitions = e.document.definitions := by
  show d.finished.definitions = e.finished.definitions
  rw [h.finished]

theorem noted (h : Similar c t t' d e) (records records' : List Record) :
    Similar c t t' { d with records } { e with records := records' } :=
  ⟨h.finished, h.names, h.completed, h.underway, h.processed, h.copies, h.payload, h.shares⟩

theorem marks (h : Similar c t t' d e) {marks marks' : List Address} (hmarks : marks = marks') :
    Similar c t t' { d with underway := marks } { e with underway := marks' } :=
  ⟨h.finished, h.names, h.completed, hmarks, h.processed, h.copies, h.payload, h.shares⟩

theorem addDefinition (h : Similar c t t' d e) (name : Scalar) (m : Model) :
    Similar c t t' { d with document := d.document.addDefinition name m }
      { e with document := e.document.addDefinition name m } := by
  refine ⟨?_, h.names, h.completed, h.underway, h.processed, h.copies, h.payload, h.shares⟩
  exact congrArg (Document.addDefinition name m) h.finished

theorem bind (h : Similar c t t' d e) (a : Address) (name : Scalar) :
    Similar c t t' { d with names := d.names.put a name } { e with names := e.names.put a name } :=
  ⟨h.finished, congrArg (Entries.put a name) h.names, h.completed, h.underway, h.processed, h.copies, h.payload,
    h.shares⟩

theorem complete (h : Similar c t t' d e) {completed completed' : Entries Address Scalar}
    (heq : completed = completed')
    (hgrows : ∀ a name, d.completed.get? a = some name → completed.get? a = some name) :
    Similar c t t' { d with completed } { e with completed := completed' } := by
  subst heq
  refine ⟨?_, h.names, rfl, h.underway, h.processed, h.copies, h.payload, h.shares⟩
  have hcurrent : ({ d with completed } : Definitions).current = ({ e with completed } : Definitions).current :=
    current_congr rfl
  have hd : ({ d with completed } : Definitions).finished = d.finished.mapOperations _ :=
    finished_of_grows rfl hgrows
  have he : ({ e with completed } : Definitions).finished = e.finished.mapOperations _ :=
    finished_of_grows rfl (h.completed ▸ hgrows)
  rw [hd, he, hcurrent, h.finished]

end Similar

/-! ### What stands for a node -/

theorem lastFor_of_shares {u v : Definitions} (h : ∀ qname, u.isShared qname = v.isShared qname)
    (site target copy : Place) (chain : List Place) :
    lastFor u site target copy chain = lastFor v site target copy chain := by
  induction chain generalizing target copy with
  | nil => rfl
  | cons p ps ih =>
    have hrepresents : u.represents site copy p = v.represents site copy p := by simp only [represents, h]
    rw [lastFor, lastFor, hrepresents]
    exact ih _ _

theorem lastFor_of_unshared {u : Definitions} (h : ∀ qname, u.isShared qname = false)
    (site target copy : Place) (chain : List Place) : lastFor u site target copy chain = target := by
  induction chain generalizing copy with
  | nil => rfl
  | cons p ps ih =>
    have hrepresents : u.represents site copy p = false := by
      unfold represents
      split
      · simp [h]
      · rfl
    rw [lastFor, hrepresents]
    exact ih p

/-- Where nothing is shared every node stands for itself. -/
theorem canonical_of_unshared (h : ∀ qname, d.shares (c.under t) qname = false) (p : Place) :
    d.canonical (c.under t) p = p := by
  cases t with
  | unpacking => exact canonical_unpacking rfl p
  | optimizing =>
    rw [canonical_optimizing rfl]
    exact lastFor_of_unshared h p p p _

theorem canonical_under (h : ∀ qname, d.shares (c.under t) qname = e.shares (c.under t') qname) (p : Place) :
    d.canonical (c.under t) p = e.canonical (c.under t') p := by
  cases t with
  | unpacking => exact (canonical_unpacking rfl p).trans (canonical_of_unshared (fun q => (h q).symm) p).symm
  | optimizing =>
    cases t' with
    | unpacking => exact (canonical_of_unshared h p).trans (canonical_unpacking rfl p).symm
    | optimizing =>
      rw [canonical_optimizing rfl, canonical_optimizing rfl]
      exact lastFor_of_shares h p p p _

namespace Similar

theorem canonical (h : Similar c t t' d e) (p : Place) :
    d.canonical (c.under t) p = e.canonical (c.under t') p :=
  canonical_under h.shares p

theorem definitionName (h : Similar c t t' d e) (p : Place) :
    d.definitionName (c.under t) p = e.definitionName (c.under t') p := by
  rw [Definitions.definitionName, Definitions.definitionName, h.canonical, h.names]

theorem withinBound (h : Similar c t t' d e) (p : Place) :
    d.withinBound (c.under t) p = e.withinBound (c.under t') p := by
  have hpayload : d.payload.contains p.address = e.payload.contains p.address := by
    simp only [List.contains_eq_mem, h.payload]
  have hcopies : ∀ f : Address × Place → Bool, d.copies.any f = e.copies.any f := fun f => by
    rw [Bool.eq_iff_iff, List.any_eq_true, List.any_eq_true]
    simp only [h.copies]
  unfold Definitions.withinBound
  simp only [hpayload, hcopies, h.canonical, h.processed]
  rfl

end Similar

/-! ### Fields -/

variable {define define' : Define}

/-- Both ways to define a node agree. -/
def Agreeing (c : Scope) (t t' : Strategy) (define define' : Define) : Prop :=
  ∀ p d e, Similar c t t' d e → Agree (Similar c t t') (define p) (define' p) d e

theorem structuralRef_agree (hdefine : Agreeing c t t' define define') (h : Similar c t t' d e) (x : Place) :
    Agree (Similar c t t') (structuralRef (c.under t) define x) (structuralRef (c.under t') define' x) d e := by
  unfold structuralRef
  refine agree_get ?_
  rw [h.definitionName, h.canonical, h.underway]
  dsimp only
  rw [h.withinBound]
  cases e.definitionName (c.under t') x with
  | some name => exact agree_pure h
  | none =>
    have hnote : ∀ level text, Agree (Similar c t t') (do note level text; pure (none : Option Scalar))
        (do note level text; pure none) d e := fun level text =>
      agree_bind (agree_note (h.noted _ _)) fun _ d' e' h' => agree_pure h'
    refine agree_ite (fun _ => hnote _ _) fun _ => agree_ite (fun _ => hnote _ _) fun _ =>
      agree_ite (fun _ => hnote _ _) fun _ => ?_
    exact agree_bind (hdefine x d e h) fun name d' e' h' => agree_pure h'

theorem propertyFor_agree (hdefine : Agreeing c t t' define define') (h : Similar c t t' d e) (x : Place) :
    Agree (Similar c t t') (propertyFor (c.under t) define x) (propertyFor (c.under t') define' x) d e := by
  unfold propertyFor
  refine agree_ite (fun _ => ?_) fun _ => agree_ite (fun _ => agree_pure h) fun _ =>
    agree_ite (fun _ => ?_) fun _ => agree_pure h
  · exact agree_bind (agree_ofLogged (h.noted _ _)) fun q d' e' h' => agree_pure h'
  · exact agree_bind (structuralRef_agree hdefine h x) fun name d' e' h' => agree_pure h'

theorem objectModel_agree (hdefine : Agreeing c t t' define define') (h : Similar c t t' d e) (node : Node)
    (children : List Place) :
    Agree (Similar c t t') (objectModel (c.under t) define node children)
      (objectModel (c.under t') define' node children) d e := by
  refine agree_foldlM (fun x _ o d e h => ?_) _ h
  unfold addField
  refine agree_bind (propertyFor_agree hdefine h x) fun property d' e' h' => ?_
  cases property with
  | none => exact agree_pure h'
  | some q => exact agree_bind (agree_ofLogged (h'.noted _ _)) fun key d'' e'' h'' => agree_pure h''

/-! ### Shared groupings -/

theorem groupingOf_agree (h : Similar c t t' d e) (qname : String) :
    Agree (Similar c t t') (groupingOf (c.under t) qname) (groupingOf (c.under t') qname) d e := by
  have hsame : groupingOf (c.under t') qname = groupingOf (c.under t) qname := rfl
  rw [hsame]
  unfold groupingOf
  split
  · exact agree_pure h
  · exact agree_fail h

theorem firstShared_agree (h : Similar c .optimizing .optimizing d e) (site : Node) (qnames : List String) :
    Agree (Similar c .optimizing .optimizing) (firstShared (c.under .optimizing) site qnames)
      (firstShared (c.under .optimizing) site qnames) d e := by
  induction qnames generalizing d e with
  | nil => exact agree_pure h
  | cons qname rest ih =>
    have hshared : d.isShared qname = e.isShared qname := h.shares qname
    unfold firstShared
    refine agree_get ?_
    rw [hshared]
    refine agree_ite (fun _ => ?_) fun _ => ih h
    refine agree_bind (groupingOf_agree h qname) fun g d' e' h' => ?_
    exact agree_ite (fun _ => agree_pure h') fun _ => ih h'

theorem partitionFields_agree (h : Similar c .optimizing .optimizing d e) (site : Node) (children : List Place) :
    Agree (Similar c .optimizing .optimizing) (partitionFields (c.under .optimizing) site children)
      (partitionFields (c.under .optimizing) site children) d e := by
  induction children generalizing d e with
  | nil => exact agree_pure h
  | cons x rest ih =>
    unfold partitionFields
    refine agree_bind (firstShared_agree h site _) fun supplier d' e' h' => ?_
    refine agree_bind (ih h') fun (suppliers, others) d'' e'' h'' => ?_
    cases supplier with
    | none => exact agree_pure h''
    | some qname => exact agree_pure h''

theorem isIncluded_agree (h : Similar c t t' d e) (qname : String) (others : List String) :
    Agree (Similar c t t') (isIncluded (c.under t) qname others) (isIncluded (c.under t') qname others) d e := by
  induction others generalizing d e with
  | nil => exact agree_pure h
  | cons other rest ih =>
    unfold isIncluded
    refine agree_ite (fun _ => ?_) fun _ => ih h
    refine agree_bind (agree_ofLogged (h.noted _ _)) fun b d' e' h' => ?_
    exact agree_ite (fun _ => agree_pure h') fun _ => ih h'

theorem firstShared_of_unshared (h : ∀ qname, d.isShared qname = false) (site : Node) (qnames : List String) :
    firstShared c site qnames d = (.ok none, d) := by
  induction qnames with
  | nil => rfl
  | cons qname rest ih =>
    unfold firstShared
    rw [run_bind]
    show (if d.isShared qname = true then _ else firstShared c site rest) d = _
    rw [h qname]
    exact ih

/-- Where nothing is shared all children are left to the node itself. -/
theorem partitionFields_of_unshared (h : ∀ qname, d.isShared qname = false) (site : Node) (children : List Place) :
    partitionFields c site children d = (.ok ([], children), d) := by
  induction children with
  | nil => rfl
  | cons x rest ih =>
    unfold partitionFields
    rw [run_bind, firstShared_of_unshared h]
    dsimp only
    rw [run_bind, ih]
    rfl

/-! ### Models -/

/-- The model of a node that has all its fields itself. -/
def plainModel (c : Scope) (define : Define) (p : Place) : Building Model := do
  pure (.object (← objectModel c define p.node p.dataChildren))

theorem buildModel_of_unshared (h : ∀ qname, d.shares (c.under t) qname = false) (p : Place) :
    buildModel (c.under t) define p d = plainModel (c.under t) define p d := by
  cases t with
  | unpacking => rfl
  | optimizing =>
    have hpartition := partitionFields_of_unshared (c := c.under .optimizing) h p.node p.dataChildren
    show (partitionFields (c.under .optimizing) p.node p.dataChildren >>= _) d = _
    rw [run_bind, hpartition]
    rfl

theorem plainModel_agree (hdefine : Agreeing c t t' define define') (h : Similar c t t' d e) (p : Place) :
    Agree (Similar c t t') (plainModel (c.under t) define p) (plainModel (c.under t') define' p) d e :=
  agree_bind (objectModel_agree hdefine h p.node _) fun _ _ _ h' => agree_pure h'

theorem buildModel_agree (hdefine : Agreeing c t t' define define') (h : Similar c t t' d e) (p : Place) :
    Agree (Similar c t t') (buildModel (c.under t) define p) (buildModel (c.under t') define' p) d e := by
  have hunshared : (∀ qname, d.shares (c.under t) qname = false) →
      Agree (Similar c t t') (buildModel (c.under t) define p) (buildModel (c.under t') define' p) d e := fun hd =>
    (plainModel_agree hdefine h p).of_eq (buildModel_of_unshared hd p)
      (buildModel_of_unshared (fun qname => (h.shares qname).symm.trans (hd qname)) p)
  cases t with
  | unpacking => exact hunshared fun _ => rfl
  | optimizing =>
    cases t' with
    | unpacking => exact hunshared h.shares
    | optimizing =>
      unfold buildModel
      refine agree_bind (partitionFields_agree h p.node _) fun (suppliers, others) d₁ e₁ h₁ => ?_
      refine agree_bind (agree_filterM (fun qname d e h => ?_) h₁) fun outer d₂ e₂ h₂ => ?_
      · exact agree_bind (isIncluded_agree h qname suppliers) fun b d' e' h' => agree_pure h'
      refine agree_ite (fun _ => ?_) fun _ => ?_
      · exact agree_bind (objectModel_agree hdefine h₂ p.node others) fun _ _ _ h' => agree_pure h'
      refine agree_bind (agree_mapM (fun qname _ d e h => ?_) h₂) fun names d₃ e₃ h₃ => ?_
      · exact agree_bind (groupingOf_agree h qname) fun g d' e' h' => hdefine g d' e' h'
      dsimp only
      split
      · exact agree_pure h₃
      · exact agree_pure h₃
      · exact agree_bind (objectModel_agree hdefine h₃ p.node _) fun _ _ _ h' => agree_pure h'

/-! ### Definitions -/

theorem register_agree (h : Similar c t t' d e) (p : Place) (m : Model) :
    Agree (Similar c t t') (register (c.under t) p m) (register (c.under t') p m) d e := by
  have hbind : ∀ {d e : Definitions} (name : Scalar), Similar c t t' d e → Agree (Similar c t t')
      (do modify fun d => { d with names := d.names.put p.address name }; pure name)
      (do modify fun d => { d with names := d.names.put p.address name }; pure name) d e := fun name h =>
    agree_bind (agree_modify (h.bind p.address name)) fun _ d' e' h' => agree_pure h'
  unfold register
  refine agree_get ?_
  dsimp only
  rw [h.models]
  refine agree_bind (agree_ofLogged (h.noted _ _)) fun name d' e' h' => ?_
  refine agree_ite (fun _ => ?_) fun _ => ?_
  · refine agree_bind (agree_modify (h'.addDefinition name m)) fun _ d₁ e₁ h₁ => ?_
    exact agree_bind (agree_note (h₁.noted _ _)) fun _ d₂ e₂ h₂ => hbind name h₂
  · exact agree_bind (agree_note (h'.noted _ _)) fun _ d₂ e₂ h₂ => hbind name h₂

theorem bindName_agree (h : Similar c t t' d e) (p : Place) (name : Scalar) :
    Agree (Similar c t t') (bindName p name) (bindName p name) d e := by
  refine agree_modify ((h.bind p.address name).complete ?_ fun a n hn => ?_)
  · rw [h.completed]
  · dsimp only at hn ⊢
    split
    · exact hn
    · rename_i hnone
      by_cases ha : p.address = a
      · rw [ha, hn] at hnone
        cases hnone
      · rwa [Entries.get?_put_of_ne (by simpa using ha)]

theorem defineFrom_agree (fuel : Nat) :
    Agreeing c t t' (defineFrom (c.under t) fuel) (defineFrom (c.under t') fuel) := by
  induction fuel with
  | zero => exact fun p d e h => agree_fail h
  | succ fuel ih =>
    intro p d e h
    unfold defineFrom
    refine agree_get ?_
    rw [h.canonical, h.names]
    have hbind : ∀ {d e : Definitions} (name : Scalar), Similar c t t' d e → Agree (Similar c t t')
        (do bindName p name; pure name) (do bindName p name; pure name) d e := fun name h =>
      agree_bind (bindName_agree h p name) fun _ _ _ h' => agree_pure h'
    dsimp only
    split
    · exact agree_bind (agree_pure h) fun name d' e' h' => hbind name h'
    · have hmarks : ∀ a, (if a ∈ d.underway then d.underway else a :: d.underway) =
          if a ∈ e.underway then e.underway else a :: e.underway := fun a => by rw [h.underway]
      have hmarked := buildModel_agree ih (h.marks (hmarks (e.canonical (c.under t') p).address))
        (e.canonical (c.under t') p)
      refine agree_bind (agree_marked (hmarked.mono fun d' e' h' => h'.marks ?_)) fun model d' e' h' => ?_
      · rw [h'.underway]
      exact agree_bind (register_agree h' _ model) fun name d'' e'' h'' => hbind name h''

theorem define_agree : Agreeing c t t' (Definitions.define (c.under t)) (Definitions.define (c.under t')) :=
  defineFrom_agree _

theorem reference_agree (h : Similar c t t' d e) (p : Place) :
    Agree (Similar c t t') (reference (c.under t) p) (reference (c.under t') p) d e := by
  unfold reference
  refine agree_get ?_
  rw [h.definitionName]
  split
  · exact agree_pure h
  · exact agree_pure h

end Definitions

end RestconfApi
