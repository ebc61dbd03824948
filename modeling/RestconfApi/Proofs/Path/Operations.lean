import RestconfApi.Proofs.Definitions.Defining
import RestconfApi.Proofs.Path.Segments
import RestconfApi.Proofs.Swagger.Likeness

/-!
# Paths: what adding operations ensures

Two runs over one schema, of which each may build definitions in its own way, give the same operations: they
differ only in the schemas of bodies and responses, and these point at definitions of the same nodes or
await them. One run beside itself shows what it does alone.
-/

namespace RestconfApi

/-! ### The shape of an operation -/

def Scalar.IsDataPath (k : Scalar) : Prop := ∃ path : String, k = .text ("/data" ++ path)

/-- What an operation on data has: reading it a response with a schema, writing it a body with one. -/
structure Operation.IsShaped (path method : Scalar) (o : Operation) : Prop where
  read : path.IsDataPath → method = .text "get" →
    ∃ r, o.responses.get? (.text "200") = some r ∧ r.schema.isSome = true
  written : path.IsDataPath → method = .text "put" ∨ method = .text "post" →
    (∃ p ∈ o.parameters, p.location = .text "body") ∧
      ∀ p ∈ o.parameters, p.location = .text "body" → p.schema.isSome = true

theorem not_isDataPath_operations (path : String) : ¬(Scalar.text ("/operations" ++ path)).IsDataPath := by
  rintro ⟨path', h⟩
  have h' := congrArg String.toList (Scalar.text.inj h)
  simp at h'

/-- Operations under the same paths and methods, with schemas that are related for a node that they may be
for. `Q` tells which nodes that can be. -/
def AlikePaths (Q : Scalar → Scalar → Place → Prop) (S : Place → Property → Property → Prop)
    (paths paths' : Entries Scalar (Entries Scalar Operation)) : Prop :=
  Entries.Alike (fun path os os' => (∃ method p, Q path method p) ∧
    Entries.Alike (fun method o o' => (∃ p, Q path method p) ∧
      o.Like (fun π π' => ∃ p, Q path method p ∧ S p π π') o' ∧ o.IsShaped path method) os os') paths paths'

theorem AlikePaths.mono {Q : Scalar → Scalar → Place → Prop} {S S' : Place → Property → Property → Prop}
    {paths paths' : Entries Scalar (Entries Scalar Operation)} (h : AlikePaths Q S paths paths')
    (hS : ∀ p π π', S p π π' → S' p π π') : AlikePaths Q S' paths paths' := by
  refine Entries.Alike.mono h fun path os os' ⟨hpath, hos⟩ => ⟨hpath, ?_⟩
  refine Entries.Alike.mono hos fun method o o' ⟨hmethod, ho, hshape⟩ => ⟨hmethod, ?_, hshape⟩
  exact ho.mono fun π π' ⟨p, hp, hπ⟩ => ⟨p, hp, hS p π π' hπ⟩

namespace Definitions

open Building

variable (c : Scope) (u : Definitions)

/-- A property that points at the definition of a node, or awaits it. -/
inductive Points (cut : Place → Prop) (defs : Models) (p : Place) : Property → Prop
  | defined {name : Scalar} : Stands c u cut defs (u.canonical c p) name →
      Points cut defs p { ref := some (.scalar name) }
  | awaiting : Points cut defs p { awaits := some p.address }

variable {c u} {c' : Scope} {u' : Definitions} (R : Regime c u) (R' : Regime c' u')

/-- Two properties for one node, which both runs have defined unless it is among the open ones. -/
def Paired (opened : List Address) (d e : Definitions) (p : Place) (π π' : Property) : Prop :=
  c.schema.Has p ∧ Points c u R.cut d.models p π ∧ Points c' u' R'.cut e.models p π' ∧
    (p.address ∈ opened ∨
      (d.completed.get? p.address).isSome = true ∧ (e.completed.get? p.address).isSome = true)

/-- Two states that two runs can reach together, with operations for nodes that `Q` tells. -/
structure Twins (Q : Scalar → Scalar → Place → Prop) (opened : List Address) (d e : Definitions) : Prop where
  left : Sound c u R.cut d
  right : Sound c' u' R'.cut e
  idle : d.underway = []
  idle' : e.underway = []
  paths : AlikePaths Q (Paired R R' opened d e) d.document.paths e.document.paths

/-- A node that may be defined from outside: it is walked over when what it has below has been defined, as
far as `complete` tells, or it is not walked over at all. -/
def Regime.Enters {c : Scope} {u : Definitions} (R : Regime c u) (complete : Prop) : Prop :=
  ∀ {d : Definitions} {p : Place}, c.schema.Has p → d.usages = u.usages → d.underway = [] →
    (p.isWalked = true → complete → ∀ x ∈ p.dataChildren, x.node.kind.isStructural = true →
      (d.names.get? x.address).isSome = true ∧ (d.names.get? (u.canonical c x).address).isSome = true) →
    R.ready d (u.canonical c p)

variable {R R'} {Q : Scalar → Scalar → Place → Prop} {cut : Place → Prop} {opened opened' : List Address}
  {d d' e e' : Definitions}

theorem Points.advance {p : Place} {π : Property} (h : Points c u cut d.models p π)
    (hd : Sound c u cut d) (ha : Advances d d') : Points c u cut d'.models p π := by
  cases h with
  | defined h => exact .defined (h.advance hd ha)
  | awaiting => exact .awaiting

theorem Paired.advance {p : Place} {π π' : Property} (h : Paired R R' opened d e p π π')
    (hd : Sound c u R.cut d) (he : Sound c' u' R'.cut e) (had : Advances d d') (hae : Advances e e')
    (hopened : ∀ a ∈ opened, a ∈ opened' ∨
      (d'.completed.get? a).isSome = true ∧ (e'.completed.get? a).isSome = true) :
    Paired R R' opened' d' e' p π π' := by
  obtain ⟨hp, hπ, hπ', hdone⟩ := h
  refine ⟨hp, hπ.advance hd had, hπ'.advance he hae, ?_⟩
  rcases hdone with hmem | ⟨hsome, hsome'⟩
  · exact hopened _ hmem
  · exact .inr ⟨had.completed _ hsome, hae.completed _ hsome'⟩

/-- Both runs may build definitions, by which open nodes may be closed. -/
theorem Twins.extend (h : Twins R R' Q opened d e) (hd : Sound c u R.cut d') (he : Sound c' u' R'.cut e')
    (had : Extends d d') (hae : Extends e e')
    (hopened : ∀ a ∈ opened, a ∈ opened' ∨
      (d'.completed.get? a).isSome = true ∧ (e'.completed.get? a).isSome = true) :
    Twins R R' Q opened' d' e' where
  left := hd
  right := he
  idle := List.subset_nil.mp (h.idle ▸ had.underway)
  idle' := List.subset_nil.mp (h.idle' ▸ hae.underway)
  paths := by
    rw [had.paths, hae.paths]
    exact h.paths.mono fun p π π' hπ => hπ.advance h.left h.right had.toAdvances hae.toAdvances hopened

/-- A node may be open from now on. -/
theorem Twins.open (h : Twins R R' Q opened d e) (hsub : opened ⊆ opened') : Twins R R' Q opened' d e :=
  h.extend h.left h.right (.refl d) (.refl e) fun _ ha => .inl (hsub ha)

theorem Twins.noted (h : Twins R R' Q opened d e) (records records' : List Record) :
    Twins R R' Q opened { d with records } { e with records := records' } :=
  h.extend (h.left.noted _) (h.right.noted _) (.noted d _) (.noted e _) fun _ ha => .inl ha

/-! ### Single steps -/

theorem Advances.added (d : Definitions) (path method : Scalar) (o : Operation) :
    Advances d { d with document := d.document.addOperation path method o } :=
  ⟨.refl, fun _ _ h => Document.isSome_operation?_addOperation path method o h, rfl, fun _ h => h,
    fun _ h => h, fun _ h => h⟩

/-- The schemas of two operations for a node point at the definitions of this node or await them. -/
abbrev Companions (R : Regime c u) (R' : Regime c' u') (Q : Scalar → Scalar → Place → Prop)
    (opened : List Address) (d e : Definitions) (path method : String) (o o' : Operation) : Prop :=
  (∃ p, Q (.text path) (.text method) p) ∧
    o.Like (fun π π' => ∃ p, Q (.text path) (.text method) p ∧ Paired R R' opened d e p π π') o' ∧
      o.IsShaped (.text path) (.text method)

theorem Twins.add (h : Twins R R' Q opened d e) {path method : String} {o o' : Operation}
    (ho : Companions R R' Q opened d e path method o o') :
    Twins R R' Q opened
      { d with document := d.document.addOperation (.text path) (.text method) o }
      { e with document := e.document.addOperation (.text path) (.text method) o' } where
  left := ⟨h.left.usages, h.left.closed, h.left.names, h.left.completed, h.left.built⟩
  right := ⟨h.right.usages, h.right.closed, h.right.names, h.right.completed, h.right.built⟩
  idle := h.idle
  idle' := h.idle'
  paths := by
    refine Entries.Alike.put h.paths fun j hj => ?_
    obtain rfl := Scalar.eq_text_of_beq hj
    obtain ⟨p, hp⟩ := ho.1
    refine ⟨⟨_, p, hp⟩, ?_⟩
    have hput : ∀ {os os' : Entries Scalar Operation}, Entries.Alike (fun method o o' =>
        (∃ p, Q (.text path) method p) ∧
          o.Like (fun π π' => ∃ p, Q (.text path) method p ∧ Paired R R' opened d e p π π') o' ∧
            o.IsShaped (.text path) method) os os' →
        Entries.Alike (fun method o o' => (∃ p, Q (.text path) method p) ∧
          o.Like (fun π π' => ∃ p, Q (.text path) method p ∧ Paired R R' opened d e p π π') o' ∧
            o.IsShaped (.text path) method) (os.put (.text method) o) (os'.put (.text method) o') :=
      fun hos => hos.put fun i hi => Scalar.eq_text_of_beq hi ▸ ho
    rcases Entries.Alike.get? h.paths (.text path) with ⟨hnone, hnone'⟩ | ⟨j, os, os', hj, hget, hget', -, hos⟩
    · rw [hnone, hnone']
      exact hput .nil
    · obtain rfl := Scalar.eq_text_of_beq hj
      rw [hget, hget']
      exact hput hos

theorem reference_ensures (hs : c.schema.Ranked) (hd : Sound c u cut d) {p : Place}
    (hp : c.schema.Has p) :
    (Definitions.reference c p).Ensures d fun π d' => d' = d ∧ Points c u cut d.models p π := by
  unfold Definitions.reference
  refine ensures_bind (ensures_get ?_)
  split
  · rename_i name hname
    exact ensures_pure ⟨rfl, .defined (hd.definitionName hs hp hname)⟩
  · exact ensures_pure ⟨rfl, .awaiting⟩

/-- What two runs keep that add operations side by side. -/
def Along (R : Regime c u) (R' : Regime c' u') (Q : Scalar → Scalar → Place → Prop) (opened : List Address)
    (d e d' e' : Definitions) : Prop :=
  Twins R R' Q opened d' e' ∧ Advances d d' ∧ Advances e e'

theorem Along.refl (h : Twins R R' Q opened d e) : Along R R' Q opened d e d e := ⟨h, .refl d, .refl e⟩

theorem Along.trans {d'' e'' : Definitions} (h : Along R R' Q opened d e d' e')
    (h' : Along R R' Q opened' d' e' d'' e'') : Along R R' Q opened' d e d'' e'' :=
  ⟨h'.1, h.2.1.trans h'.2.1, h.2.2.trans h'.2.2⟩

theorem Along.noted (h : Along R R' Q opened d e d' e') (records records' : List Record) :
    Along R R' Q opened d e { d' with records } { e' with records := records' } :=
  ⟨h.1.noted _ _, h.2.1.trans (Extends.noted d' _).toAdvances,
    h.2.2.trans (Extends.noted e' _).toAdvances⟩

theorem Along.add (h : Along R R' Q opened d e d' e') {path method : String} {o o' : Operation}
    (ho : Companions R R' Q opened d' e' path method o o') :
    Along R R' Q opened d e
      { d' with document := d'.document.addOperation (.text path) (.text method) o }
      { e' with document := e'.document.addOperation (.text path) (.text method) o' } :=
  ⟨h.1.add ho, h.2.1.trans (.added d' _ _ o), h.2.2.trans (.added e' _ _ o')⟩

theorem reference_both (hschema : c'.schema = c.schema) (hs : c.schema.Ranked)
    (h : Twins R R' Q opened d e) {p : Place} (hp : c.schema.Has p) (hopen : p.address ∈ opened) :
    Both (Definitions.reference c p) (Definitions.reference c' p) d e fun π π' d' e' =>
      d' = d ∧ e' = e ∧ Paired R R' opened d e p π π' := by
  refine (both_of_ensures (reference_ensures hs h.left hp)
    (reference_ensures (hschema ▸ hs) h.right (hschema ▸ hp))).mono fun π π' d' e' ⟨hd, he⟩ => ?_
  exact ⟨hd.1, he.1, hp, hd.2, he.2, .inl hopen⟩

end Definitions

namespace Handler

open Definitions Building

variable {c c' : Scope} {u u' : Definitions} {R : Regime c u} {R' : Regime c' u'}
  {Q : Scalar → Scalar → Place → Prop} {opened : List Address} {d e : Definitions} {h : Handler}

/-! ### Operations on data -/

theorem pathParameter_congr (hschema : c'.schema = c.schema) : h.pathParameter c' = h.pathParameter c := by
  funext p
  unfold pathParameter
  rw [hschema]

/-- Path parameters have no schema and stand in the path. -/
def IsInPath (p : Parameter) : Prop := p.schema = none ∧ p.location = .text "path"

theorem pathParameter_both {d₀ e₀ : Definitions} (ha : Along R R' Q opened d₀ e₀ d e) (p : PathParameter) :
    Both (h.pathParameter c p) (h.pathParameter c p) d e fun q q' d' e' =>
      q = q' ∧ IsInPath q ∧ Along R R' Q opened d₀ e₀ d' e' := by
  unfold pathParameter
  dsimp only
  split
  · exact both_bind (both_ofLogged fun property _ => both_pure ⟨rfl, ⟨rfl, rfl⟩, ha.noted _ _⟩)
  · exact both_bind (both_pure (both_pure ⟨rfl, ⟨rfl, rfl⟩, ha⟩))

theorem parameters_both (hschema : c'.schema = c.schema) {d₀ e₀ : Definitions}
    (ha : Along R R' Q opened d₀ e₀ d e) (ps : List PathParameter) :
    Both (ps.mapM (h.pathParameter c)) (ps.mapM (h.pathParameter c')) d e fun qs qs' d' e' =>
      qs = qs' ∧ (∀ q ∈ qs, IsInPath q) ∧ Along R R' Q opened d₀ e₀ d' e' := by
  rw [pathParameter_congr hschema]
  exact both_mapM (Along R R' Q opened d₀ e₀) IsInPath ha fun p d e ha => pathParameter_both ha p

theorem like_parameters {S : Property → Property → Prop} {ps : List Parameter}
    (h : ∀ p ∈ ps, IsInPath p) : List.Forall₂ (Parameter.Like S) ps ps :=
  List.forall₂_same.mpr fun p hp => Parameter.like_of_plain (h p hp).1

theorem like_plain {S : Property → Property → Prop} {rs : Entries Scalar Response}
    (h : ∀ r ∈ rs, r.2.schema = none) : Entries.Alike (fun _ => Response.Like S) rs rs :=
  List.forall₂_same.mpr fun r hr => ⟨rfl, Response.like_of_plain (h r hr)⟩

/-- The methods under a path for which there are operations. -/
def Offers (d : Definitions) (path : String) (methods : List Scalar) : Prop :=
  ∀ method ∈ methods, (d.document.operation? (.text path) method).isSome = true

theorem offers_nil (d : Definitions) (path : String) : Offers d path [] :=
  fun _ hm => nomatch hm

theorem Offers.advance {d d' : Definitions} {path : String} {methods : List Scalar}
    (h : Offers d path methods) (ha : Advances d d') : Offers d' path methods :=
  fun method hm => ha.operations _ _ (h method hm)

theorem addOperation_both {d₀ e₀ : Definitions} (ha : Along R R' Q opened d₀ e₀ d e) {path method : String}
    {o o' : Operation} (ho : Companions R R' Q opened d e path method o o') {methods : List Scalar}
    (hoffers : Offers d path methods) :
    Both (addOperation path method o) (addOperation path method o') d e fun _ _ d' e' =>
      Along R R' Q opened d₀ e₀ d' e' ∧ Offers d' path (methods ++ [.text method]) := by
  refine both_modify ⟨ha.add ho, fun m hm => ?_⟩
  rcases List.mem_append.mp hm with hm | hm
  · exact Document.isSome_operation?_addOperation _ _ o (hoffers m hm)
  · obtain rfl := List.mem_singleton.mp hm
    rw [Document.operation?_addOperation, if_pos (by simp)]
    rfl

/-- The body parameter of a node points at its definition or awaits it. -/
theorem body_both (hschema : c'.schema = c.schema) (hs : c.schema.Ranked) (ht : Twins R R' Q opened d e)
    {p : Place} (hp : c.schema.Has p) (hopen : p.address ∈ opened) :
    Both (body c p) (body c' p) d e fun q q' d' e' => d' = d ∧ e' = e ∧
      q.Like (Paired R R' opened d e p) q' ∧ q.location = .text "body" ∧ q.schema.isSome = true := by
  unfold body
  refine both_bind ((reference_both hschema hs ht hp hopen).mono fun π π' d' e' ⟨hd, he, hπ⟩ => ?_)
  exact both_pure ⟨hd, he, ⟨.some hπ, rfl⟩, rfl, rfl⟩

theorem mem_writes {w : Write} (h : w ∈ writes) :
    (w.method = "put" ∨ w.method = "post") ∧ ∀ r ∈ w.responses, r.2.schema = none := by
  simp only [writes, List.mem_cons, List.not_mem_nil, or_false] at h
  rcases h with rfl | rfl
  · exact ⟨.inl rfl, by simp [plain]⟩
  · exact ⟨.inr rfl, by simp [plain]⟩

theorem isShaped_get {path : Scalar} {o : Operation} {π : Property}
    (h : o.responses = [answered π, failed]) : o.IsShaped path (.text "get") where
  read _ _ := ⟨⟨.text "Correct response", some π⟩, by rw [h]; simp [Entries.get?, answered], rfl⟩
  written _ hm := by simp at hm

theorem isShaped_write {path method : Scalar} {o : Operation} {ps : List Parameter} {q : Parameter}
    (hm : method ≠ .text "get") (h : o.parameters = ps ++ [q]) (hps : ∀ p ∈ ps, IsInPath p)
    (hq : q.location = .text "body" ∧ q.schema.isSome = true) : o.IsShaped path method where
  read _ h := absurd h hm
  written _ _ := by
    rw [h]
    refine ⟨⟨q, by simp, hq.1⟩, fun p hp hlocation => ?_⟩
    rcases List.mem_append.mp hp with hp | hp
    · rw [(hps p hp).2] at hlocation
      simp at hlocation
    · exact List.mem_singleton.mp hp ▸ hq.2

theorem isShaped_other {path method : Scalar} {o : Operation}
    (h : ¬path.IsDataPath ∨ method = .text "delete") : o.IsShaped path method where
  read hp hm := by
    rcases h with h | rfl
    · exact absurd hp h
    · simp at hm
  written hp hm := by
    rcases h with h | rfl
    · exact absurd hp h
    · simp at hm

/-- The operations of a node of data: whatever can be done with it is offered under its path. -/
theorem dataPath_both (hschema : c'.schema = c.schema) (hs : c.schema.Ranked)
    (ht : Twins R R' Q opened d e) {p : Place} (hp : c.schema.Has p) (hopen : p.address ∈ opened)
    (s : Segment)
    (hQ : ∀ method ∈ methods s.isReadOnly, Q (.text ("/data" ++ s.path)) method p) :
    Both (h.dataPath c p s) (h.dataPath c' p s) d e fun _ _ d' e' =>
      Along R R' Q opened d e d' e' ∧ Offers d' ("/data" ++ s.path) (methods s.isReadOnly) := by
  unfold dataPath
  dsimp only
  refine both_bind (both_ofLogged fun path hpath => ?_)
  obtain rfl := Segment.path?_ok hpath
  refine both_bind ((parameters_both hschema ((Along.refl ht).noted _ _) _).mono
    fun parameters _ d₁ e₁ ⟨heq, hparameters, h₁⟩ => ?_)
  obtain rfl := heq
  refine both_bind ((reference_both hschema hs h₁.1 hp hopen).mono fun π π' d₂ e₂ ⟨hd, he, hπ⟩ => ?_)
  subst hd he
  refine both_bind (both_bind (both_ofLogged fun id _ => both_pure ?_))
  -- reading
  have hget : Q (.text ("/data" ++ s.path)) (.text "get") p := hQ _ List.mem_cons_self
  refine both_bind ((addOperation_both (h₁.noted _ _) ⟨⟨p, hget⟩, ?_, isShaped_get rfl⟩
    (offers_nil _ _)).mono fun _ _ d₃ e₃ ⟨h₃, hoffers₃⟩ => ?_)
  · refine ⟨like_parameters hparameters, ?_, rfl⟩
    exact .cons ⟨rfl, .some ⟨p, hget, hπ⟩, rfl⟩ (like_plain (by simp [failed, plain]))
  refine both_ite (fun hreadOnly => both_pure ⟨h₃, ?_⟩) fun hreadOnly => ?_
  · rw [methods, if_pos hreadOnly]
    exact hoffers₃
  have hmethods : methods s.isReadOnly = [.text "get", .text "put", .text "post", .text "delete"] := by
    rw [methods, if_neg hreadOnly]
  rw [hmethods] at hQ ⊢
  -- writing
  refine both_bind (Both.mono (both_forM (fun pre d' e' => Along R R' Q opened d e d' e' ∧
    Offers d' ("/data" ++ s.path) (.text "get" :: pre.map fun w => .text w.method)) ⟨h₃, hoffers₃⟩ ?_) ?_)
  · intro pre w post d₄ e₄ hw ⟨h₄, hoffers₄⟩
    obtain ⟨hmethod, hresponses⟩ := mem_writes (w := w) (hw ▸ by simp)
    have hput : Q (.text ("/data" ++ s.path)) (.text w.method) p :=
      hQ _ (by rcases hmethod with hm | hm <;> simp [hm])
    refine both_bind ((body_both hschema hs h₄.1 hp hopen).mono fun q q' d₅ e₅ ⟨hd, he, hq, hq'⟩ => ?_)
    subst hd he
    refine both_bind (both_bind (both_ofLogged fun id _ => both_pure ?_))
    refine Both.mono (addOperation_both (h₄.noted _ _) ?_ hoffers₄) fun _ _ d₆ e₆ ⟨h₆, hoffers₆⟩ => ⟨h₆, ?_⟩
    · refine ⟨⟨p, hput⟩, ⟨?_, ?_, rfl⟩, isShaped_write ?_ rfl hparameters hq'⟩
      · exact List.rel_append (like_parameters hparameters) (.cons (hq.mono fun _ _ hπ => ⟨p, hput, hπ⟩) .nil)
      · refine like_plain fun r hr => ?_
        rcases List.mem_append.mp hr with hr | hr
        · exact hresponses r hr
        · rw [List.mem_singleton.mp hr]
          rfl
      · rcases hmethod with hm | hm <;> simp [hm]
    · rw [List.map_append, List.map_cons, List.map_nil, ← List.cons_append]
      exact hoffers₆
  intro _ _ d₅ e₅ ⟨h₅, hoffers₅⟩
  -- deleting
  refine both_bind (both_bind (both_ofLogged fun id _ => both_pure ?_))
  refine Both.mono (addOperation_both (h₅.noted _ _) ?_ hoffers₅) fun _ _ d₆ e₆ h₆ => h₆
  refine ⟨⟨p, hQ _ (by simp)⟩, ⟨like_parameters hparameters, ?_, rfl⟩, isShaped_other (.inr rfl)⟩
  exact like_plain (by simp [failed, plain])

/-! ### Operations that are invoked -/

theorem payload?_eq_some {rpc p : Place} {kind : Kind} (h : payload? rpc kind = some p) :
    p ∈ rpc.children ∧ p.node.kind = kind := by
  unfold payload? at h
  split at h
  · rename_i q hq
    split at h
    · cases h
    · obtain rfl := Option.some.inj h
      obtain ⟨hmem, hkind⟩ := List.mem_filter.mp (List.mem_of_getLast? hq)
      exact ⟨hmem, of_decide_eq_true hkind⟩
  · cases h

/-- Both runs define a payload of an rpc and point at its definition. -/
theorem define_both (hschema : c'.schema = c.schema) (hs : c.schema.Ranked) {complete : Prop}
    (hR : R.Enters complete) (hR' : R'.Enters complete) {d₀ e₀ : Definitions}
    (ha : Along R R' Q opened d₀ e₀ d e) {p : Place} (hp : c.schema.Has p) (hwalked : p.isWalked = false) :
    Both (define c p) (define c' p) d e fun name name' d' e' => Along R R' Q opened d₀ e₀ d' e' ∧
      Paired R R' opened d' e' p { ref := some (.scalar name) } { ref := some (.scalar name') } := by
  have hready : R.ready d (u.canonical c p) :=
    hR hp ha.1.left.usages ha.1.idle fun h => by simp [hwalked] at h
  have hready' : R'.ready e (u'.canonical c' p) :=
    hR' (hschema ▸ hp) ha.1.right.usages ha.1.idle' fun h => by simp [hwalked] at h
  refine (both_of_ensures (define_ensures hs R hp ha.1.left hready)
    (define_ensures (hschema ▸ hs) R' (hschema ▸ hp) ha.1.right hready')).mono
    fun name name' d' e' ⟨hd, he⟩ => ⟨⟨?_, ?_, ?_⟩, hp, .defined hd.stands, .defined he.stands, .inr ?_⟩
  · exact ha.1.extend hd.sound he.sound hd.extended he.extended fun _ h => .inl h
  · exact ha.2.1.trans hd.extended.toAdvances
  · exact ha.2.2.trans he.extended.toAdvances
  · exact ⟨hd.completed, he.completed⟩

theorem has_payload? {s : Schema} {rpc p : Place} {kind : Kind} (hrpc : s.Has rpc)
    (h : payload? rpc kind = some p) :
    s.Has p ∧ p.isWalked = rpc.isWalked ∧ p.address.part = rpc.address.part := by
  obtain ⟨i, hi⟩ := Place.mem_children.mp (payload?_eq_some h).1
  exact ⟨hrpc.childAt? hi, by rw [Place.isWalked, Place.isWalked, Place.top_of_childAt? hi],
    Place.part_of_childAt? hi⟩

/-- The schema of a payload of an rpc, for a path that may be that of any node of an rpc. -/
theorem payload_both (hschema : c'.schema = c.schema) (hs : c.schema.Ranked) {complete : Prop}
    (hR : R.Enters complete) (hR' : R'.Enters complete) {d₀ e₀ : Definitions}
    (ha : Along R R' Q opened d₀ e₀ d e) {rpc p : Place} {kind : Kind} (hrpc : c.schema.Has rpc)
    (hwalked : rpc.isWalked = false) (hpart : rpc.address.part = .rpcs) (hp : payload? rpc kind = some p) :
    Both (define c p) (define c' p) d e fun name name' d' e' => Along R R' Q opened d₀ e₀ d' e' ∧
      ∃ p : Place, p.address.part = .rpcs ∧
        Paired R R' opened d' e' p { ref := some (.scalar name) } { ref := some (.scalar name') } := by
  obtain ⟨hhas, hpwalked, hppart⟩ := has_payload? hrpc hp
  refine (define_both hschema hs hR hR' ha hhas (hpwalked.trans hwalked)).mono
    fun name name' d' e' ⟨h', hpair⟩ => ⟨h', p, hppart.trans hpart, hpair⟩

/-- Schemas of two operations that invoke an rpc: they describe nodes of rpcs. -/
def Invoked (R : Regime c u) (R' : Regime c' u') (opened : List Address) (d e : Definitions)
    (π π' : Property) : Prop :=
  ∃ p : Place, p.address.part = .rpcs ∧ Paired R R' opened d e p π π'

theorem inputParameters_both (hschema : c'.schema = c.schema) (hs : c.schema.Ranked) {complete : Prop}
    (hR : R.Enters complete) (hR' : R'.Enters complete) (ht : Twins R R' Q opened d e) {rpc : Place}
    (hrpc : c.schema.Has rpc) (hk : rpc.isWalked = false) (hpart : rpc.address.part = .rpcs) :
    Both (inputParameters c rpc) (inputParameters c' rpc) d e fun ps ps' d' e' =>
      Along R R' Q opened d e d' e' ∧ List.Forall₂ (Parameter.Like (Invoked R R' opened d' e')) ps ps' := by
  unfold inputParameters
  cases hp : payload? rpc .input with
  | none => exact both_pure ⟨.refl ht, .nil⟩
  | some p =>
    refine both_bind ((payload_both hschema hs hR hR' (.refl ht) hrpc hk hpart hp).mono
      fun name name' d' e' ⟨ha, hpair⟩ => both_pure ⟨ha, ?_⟩)
    exact .cons ⟨.some hpair, rfl⟩ .nil

theorem outputResponse_both (hschema : c'.schema = c.schema) (hs : c.schema.Ranked) {complete : Prop}
    (hR : R.Enters complete) (hR' : R'.Enters complete) (ht : Twins R R' Q opened d e) {rpc : Place}
    (hrpc : c.schema.Has rpc) (hk : rpc.isWalked = false) (hpart : rpc.address.part = .rpcs) :
    Both (outputResponse c rpc) (outputResponse c' rpc) d e fun r r' d' e' =>
      Along R R' Q opened d e d' e' ∧ r.1 = r'.1 ∧ r.2.Like (Invoked R R' opened d' e') r'.2 := by
  unfold outputResponse
  cases hp : payload? rpc .output with
  | none => exact both_pure ⟨.refl ht, rfl, Response.like_of_plain rfl⟩
  | some p =>
    refine both_bind ((payload_both hschema hs hR hR' (.refl ht) hrpc hk hpart hp).mono
      fun name name' d' e' ⟨ha, hpair⟩ => both_pure ⟨ha, rfl, .some hpair, rfl⟩)

/-- The operation that invokes an rpc. -/
theorem rpcPath_both (hschema : c'.schema = c.schema) (hs : c.schema.Ranked) {complete : Prop}
    (hR : R.Enters complete) (hR' : R'.Enters complete) (ht : Twins R R' Q opened d e) {rpc : Place}
    (hrpc : c.schema.Has rpc) (hk : rpc.isWalked = false) (hpart : rpc.address.part = .rpcs)
    (hQ : ∀ path method p, ¬path.IsDataPath → p.address.part = .rpcs → Q path method p) (s : Segment) :
    Both (h.rpcPath c rpc s) (h.rpcPath c' rpc s) d e fun _ _ d' e' => Along R R' Q opened d e d' e' := by
  unfold rpcPath
  dsimp only
  refine both_bind ((inputParameters_both hschema hs hR hR' ht hrpc hk hpart).mono
    fun ps ps' d₁ e₁ ⟨h₁, hps⟩ => ?_)
  refine both_bind ((outputResponse_both hschema hs hR hR' h₁.1 hrpc hk hpart).mono
    fun r r' d₂ e₂ ⟨h₂, hcode, hr⟩ => ?_)
  have ha : Along R R' Q opened d e d₂ e₂ := h₁.trans h₂
  refine both_bind (both_ofLogged fun path _ => both_bind (both_ofLogged fun id _ => ?_))
  have hserves : ∀ p : Place, p.address.part = .rpcs →
      Q (.text ("/operations" ++ path)) (.text "post") p := fun p => hQ _ _ p (not_isDataPath_operations path)
  have hps' := hps.imp fun _ _ hp => hp.mono fun _ _ ⟨p, hpart, hπ⟩ =>
    (⟨p, hserves p hpart, hπ.advance h₁.1.left h₁.1.right h₂.2.1 h₂.2.2 fun _ hmem => .inl hmem⟩ :
      ∃ p, Q (.text ("/operations" ++ path)) (.text "post") p ∧ Paired R R' opened d₂ e₂ p _ _)
  refine (addOperation_both ((ha.noted _ _).noted _ _) ⟨⟨rpc, hserves rpc hpart⟩, ⟨hps', ?_, rfl⟩,
    isShaped_other (.inl (not_isDataPath_operations _))⟩ (offers_nil _ _)).mono
    fun _ _ _ _ h' => h'.1
  exact .cons ⟨hcode, hr.mono fun _ _ ⟨p, hpart, hπ⟩ => ⟨p, hserves p hpart, hπ⟩⟩
    (like_plain (by simp [failed, plain]))

/-- What is not an rpc is a node of data. -/
theorem emit_data_both (hschema : c'.schema = c.schema) (hs : c.schema.Ranked)
    (ht : Twins R R' Q opened d e) {p : Place} (hp : c.schema.Has p) (hk : p.node.kind ≠ .rpc)
    (hopen : p.address ∈ opened) (s : Segment)
    (hQ : ∀ method ∈ methods s.isReadOnly, Q (.text ("/data" ++ s.path)) method p) :
    Both (h.emit c p s) (h.emit c' p s) d e fun _ _ d' e' =>
      Along R R' Q opened d e d' e' ∧ Offers d' ("/data" ++ s.path) (methods s.isReadOnly) := by
  unfold emit
  dsimp only
  rw [if_neg hk, if_neg hk]
  exact dataPath_both hschema hs ht hp hopen s hQ

theorem emit_rpc_both (hschema : c'.schema = c.schema) (hs : c.schema.Ranked) {complete : Prop}
    (hR : R.Enters complete) (hR' : R'.Enters complete) (ht : Twins R R' Q opened d e) {rpc : Place}
    (hrpc : c.schema.Has rpc) (hk : rpc.node.kind = .rpc) (hwalked : rpc.isWalked = false)
    (hpart : rpc.address.part = .rpcs)
    (hQ : ∀ path method p, ¬path.IsDataPath → p.address.part = .rpcs → Q path method p) (s : Segment) :
    Both (h.emit c rpc s) (h.emit c' rpc s) d e fun _ _ d' e' => Along R R' Q opened d e d' e' := by
  unfold emit
  dsimp only
  rw [if_pos hk, if_pos hk]
  exact rpcPath_both hschema hs hR hR' ht hrpc hwalked hpart hQ s

end Handler

end RestconfApi
