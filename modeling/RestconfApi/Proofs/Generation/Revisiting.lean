import RestconfApi.Proofs.Definitions.Completion
import RestconfApi.Proofs.Generation.Agreement
import RestconfApi.Proofs.Generation.Apart
import RestconfApi.Proofs.Path.Emission
import RestconfApi.Proofs.Path.Planning

/-!
# Generation: modules that are visited again

When a module has been visited, all that its steps ask for has been defined, and its operations stand as they would be
laid down once more. Nothing of that is undone when other modules are visited, so that a second visit changes nothing
but log records.
-/

namespace RestconfApi

namespace Definitions

open Building

variable {c : Scope} {u d d' f : Definitions} {bound : Place → Prop} {p : Place}

/-! ### Operations and definitions -/

theorem isCourse_paths : IsCourse fun d d' => d'.document.paths = d.document.paths where
  refl _ := rfl
  trans h h' := h'.trans h
  noted _ _ := rfl

theorem register_within_paths (p : Place) (m : Model) :
    (register c p m).Within fun d d' => d'.document.paths = d.document.paths := by
  intro d
  unfold register
  refine settles_bind (settles_get (settles_bind (leaves_ofLogged (fun name _ => ?_) rfl)))
  refine settles_ite (fun _ => ?_) fun _ => ?_
  · exact settles_bind (settles_modify (settles_bind (settles_note (settles_bind (settles_modify (settles_pure rfl))))))
  · exact settles_bind (settles_note (settles_bind (settles_modify (settles_pure rfl))))

/-- Definitions are built without touching the operations. -/
theorem defineFrom_within_paths (fuel : Nat) (p : Place) :
    (defineFrom c fuel p).Within fun d d' => d'.document.paths = d.document.paths := by
  have hpaths := isCourse_paths
  induction fuel generalizing p with
  | zero => exact fun d => settles_fail rfl
  | succ fuel ih =>
    have hbind : ∀ name, (do bindName p name; pure name : Building Scalar).Within fun d d' =>
        d'.document.paths = d.document.paths := fun name d => settles_bind (settles_modify (settles_pure rfl))
    unfold defineFrom
    refine (within_get hpaths).bind hpaths fun d => ?_
    dsimp only
    split
    · exact (within_pure hpaths _).bind hpaths hbind
    · refine (within_marked hpaths (buildModel_within hpaths fun q _ => ih q) (fun _ _ => rfl) _).bind hpaths
        fun m => ?_
      exact (register_within_paths _ m).bind hpaths hbind

/-! ### What is handed out for a node that is defined -/

/-- The property that points at the definition of a node. -/
def pointer (d : Definitions) (p : Place) : Property := { ref := (d.names.get? p.address).map Datum.scalar }

theorem isFor_asked (hd : Settled c u d) (hp : c.schema.Has p) : IsFor c u d p (d.asked c p) := by
  have hname := hd.definitionName hp
  unfold asked
  split
  · rename_i name hdefined
    exact .inr ⟨name, rfl, hname.symm.trans hdefined⟩
  · exact .inl rfl

/-- A node that is completed has a name of its own, which is that of what stands for it. -/
theorem Settled.exists_name (hd : Settled c u d) (hp : c.schema.Has p)
    (hdone : (d.completed.get? p.address).isSome = true) :
    ∃ name, d.completed.get? p.address = some name ∧ d.names.get? p.address = some name ∧
      d.names.get? (u.canonical c p).address = some name ∧ d.pointer p = { ref := some (.scalar name) } := by
  obtain ⟨name, hcompleted⟩ := Option.isSome_iff_exists.mp hdone
  have hname := hd.completed _ name hcompleted
  exact ⟨name, hcompleted, hname, hd.names p name hp hname, by rw [pointer, hname]; rfl⟩

/-- Whatever has been handed out for a node points at its definition in the end. -/
theorem IsFor.current_eq_pointer {property : Property} (h : IsFor c u d p property) (hd : Settled c u d)
    (hp : c.schema.Has p) (hdone : (d.completed.get? p.address).isSome = true) :
    property.mapAll d.current = d.pointer p := by
  obtain ⟨name, hcompleted, -, hstands, hpointer⟩ := hd.exists_name hp hdone
  rw [hpointer]
  exact h.current hstands hcompleted

theorem Settled.asked_eq_pointer (hd : Settled c u d) (hp : c.schema.Has p)
    (hdone : (d.completed.get? p.address).isSome = true) : d.asked c p = d.pointer p := by
  obtain ⟨name, -, -, hstands, hpointer⟩ := hd.exists_name hp hdone
  rw [hpointer, asked, hd.definitionName hp, hstands]

theorem Goes.pointer_eq (h : Goes c u bound d d') (hd : Settled c u d) (hp : c.schema.Has p)
    (hdone : (d.completed.get? p.address).isSome = true) : d'.pointer p = d.pointer p := by
  obtain ⟨name, -, hname, -, -⟩ := hd.exists_name hp hdone
  rw [pointer, pointer, hname, h.names _ name hname]

theorem Goes.isSome_completed (h : Goes c u bound d d') {a : Address} (hdone : (d.completed.get? a).isSome = true) :
    (d'.completed.get? a).isSome = true := by
  obtain ⟨name, hname⟩ := Option.isSome_iff_exists.mp hdone
  rw [h.completed a name hname]
  rfl

/-- A node that is defined already is found. -/
theorem define_of_completed {E : Failure → Definitions → Prop} (hd : Settled c u d) (hp : c.schema.Has p)
    (hdone : (d.completed.get? p.address).isSome = true) :
    (Definitions.define c p).Settles d (fun name d' => d' = d ∧ { ref := some (.scalar name) } = d.pointer p) E := by
  obtain ⟨name, hcompleted, hname, hstands, hpointer⟩ := hd.exists_name hp hdone
  unfold Definitions.define defineFrom
  refine settles_bind (settles_get ?_)
  rw [canonical_congr hd.usages]
  dsimp only
  rw [hstands]
  refine settles_bind (settles_pure (settles_bind (settles_modify (settles_pure ⟨?_, hpointer.symm⟩))))
  rw [hcompleted, Entries.put_of_get? hname]

/-! ### Operations as they will be -/

/-- The operations with every property completed that can be. -/
def view (d : Definitions) (ps : Paths) : Paths := ps.mapProperties (Property.mapAll d.current)

theorem Goes.view_view (h : Goes c u bound d d') (ps : Paths) : d'.view (d.view ps) = d'.view ps := by
  simp only [view, Paths.mapProperties, List.map_map, Function.comp_def, mapProperties_current h.completed]

theorem Lays.goes {xs : List Placed} (h : Lays xs d d') (hd : Settled c u d) : Goes c u bound d d' := by
  obtain ⟨_, rfl⟩ := h
  exact hd.goes rfl rfl rfl

theorem Lays.pointer {xs : List Placed} (h : Lays xs d d') : d'.pointer = d.pointer := by
  obtain ⟨_, rfl⟩ := h
  rfl

theorem Lays.paths {xs : List Placed} (h : Lays xs d d') : d'.document.paths = Paths.layAll d.document.paths xs := by
  obtain ⟨_, rfl⟩ := h
  rfl

end Definitions

namespace Generation

open Definitions Building Handler

/-! ### What steps ask for -/

/-- The segment of an rpc. -/
def rpcSegment (root : Name) (rpc : Place) : Segment := (Segment.root root 0).push rpc.node.name root false [] 0

namespace Step

/-- The nodes that a step defines. -/
def defined : Step → List Place
  | .leave p => [p]
  | .invoke rpc => payloads rpc
  | _ => []

/-- The nodes that the operations of a step point at. -/
def targets : Step → List Place
  | .enter p _ => [p]
  | .invoke rpc => payloads rpc
  | _ => []

/-- The operations of a step can be put together. -/
def IsPlanned (c : Scope) (h : Handler) (root : Name) : Step → Prop
  | .refuse => False
  | .enter p passed => (routeHandler h root (p :: passed)).IsPlanned c (routeSegment root (p :: passed))
  | .invoke rpc => (rpcSegment root rpc).IsTextual
  | _ => True

/-- The operations of a step when the nodes that they point at have been defined. -/
def operations (c : Scope) (h : Handler) (root : Name) (d : Definitions) : Step → List Placed
  | .enter p passed =>
    (routeHandler h root (p :: passed)).dataOperations c p (routeSegment root (p :: passed)) (d.pointer p)
  | .invoke rpc =>
    [h.rpcOperation rpc (rpcSegment root rpc) ((payload? rpc .input).map d.pointer)
      ((payload? rpc .output).map d.pointer)]
  | _ => []

/-- What is known when a step has been taken: the nodes that it defines are completed, and its operations will be seen
as they are when the nodes that they point at have been defined. -/
structure Taken (c : Scope) (u : Definitions) (h : Handler) (root : Name) (step : Step) (d d' : Definitions) :
    Prop where
  goes : Goes c u (fun _ => True) d d'
  planned : step.IsPlanned c h root
  defined : ∀ p ∈ step.defined, (d'.completed.get? p.address).isSome = true
  laid : ∀ f, Goes c u (fun _ => True) d' f → (∀ p ∈ step.targets, (f.completed.get? p.address).isSome = true) →
    f.view d'.document.paths = (f.view d.document.paths).layAll (step.operations c h root f)

end Step

variable {c : Scope} {u d d' : Definitions} {w : Walk} {h : Handler} {root : Name} {elements : List Element}
  {limit : Option Nat} {i : Nat}

section

variable {augmented : Prop} {declared : Schema} {M : Expansion.Expanded}
  (hfrom : Schema.LoadedFrom augmented declared M c.schema)
  (hknows : c.strategy = .optimizing → c.schema.KnowsGroupings)
include hfrom hknows

/-- A node is defined and completed, and the operations stay as they are. -/
theorem define_keeps_paths {p : Place} (hp : c.schema.Has p) (hd : Settled c u d) :
    (Definitions.define c p).Ensures d fun name d' => Goes c u (fun _ => True) d d' ∧
      (d'.completed.get? p.address).isSome = true ∧ { ref := some (.scalar name) } = d'.pointer p ∧
      d'.document.paths = d.document.paths := by
  intro name d' hrun
  obtain ⟨hgoes, hname, hcompleted⟩ := (define_completes hfrom hknows p d hp hd).ok name d' hrun
  refine ⟨hgoes.mono fun _ _ => trivial, by rw [hcompleted]; rfl, by rw [pointer, hname]; rfl, ?_⟩
  exact (defineFrom_within_paths _ p d).ok name d' hrun

/-- A payload of an rpc is defined and pointed at. -/
theorem payloadProperty_ensures {rpc : Place} (hrpc : c.schema.Has rpc) (kind : Kind) (hd : Settled c u d) :
    (payloadProperty c rpc kind).Ensures d fun property d' => Goes c u (fun _ => True) d d' ∧
      (∀ p ∈ payload? rpc kind, (d'.completed.get? p.address).isSome = true) ∧
      property = (payload? rpc kind).map d'.pointer ∧ d'.document.paths = d.document.paths := by
  unfold payloadProperty
  cases hp : payload? rpc kind with
  | none => exact ensures_pure ⟨hd.goes rfl rfl rfl, by simp, rfl, rfl⟩
  | some p =>
    refine ensures_bind ((define_keeps_paths hfrom hknows (has_payload? hrpc hp).1 hd).mono fun name d' h => ?_)
    obtain ⟨hgoes, hdone, hpointer, hpaths⟩ := h
    exact ensures_pure ⟨hgoes, by simpa using hdone, by rw [hpointer]; rfl, hpaths⟩

end

/-- What points at the payloads that have been defined stays. -/
theorem map_pointer_eq {rpc : Place} (hrpc : c.schema.Has rpc) {kind : Kind} (hd : Settled c u d)
    (hgoes : Goes c u (fun _ => True) d d')
    (hdone : ∀ p ∈ payload? rpc kind, (d.completed.get? p.address).isSome = true) :
    (payload? rpc kind).map d'.pointer = (payload? rpc kind).map d.pointer :=
  Option.map_congr fun p hp => hgoes.pointer_eq hd (has_payload? hrpc hp).1 (hdone p hp)

/-- A payload that is defined already is found. -/
theorem payloadProperty_of_completed {E : Failure → Definitions → Prop} {rpc : Place} (hrpc : c.schema.Has rpc)
    {kind : Kind} (hd : Settled c u d) (hdone : ∀ p ∈ payload? rpc kind, (d.completed.get? p.address).isSome = true) :
    (payloadProperty c rpc kind).Settles d
      (fun property d' => d' = d ∧ property = (payload? rpc kind).map d.pointer) E := by
  unfold payloadProperty
  cases hp : payload? rpc kind with
  | none => exact settles_pure ⟨rfl, rfl⟩
  | some p =>
    refine (define_of_completed hd (has_payload? hrpc hp).1 (hdone p hp)).bind fun name d' hname => ?_
    obtain ⟨rfl, hpointer⟩ := hname
    exact settles_pure ⟨rfl, by rw [hpointer]; rfl⟩

/-! ### Steps -/

section

variable {augmented : Prop} {declared : Schema} {M : Expansion.Expanded}
  (hfrom : Schema.LoadedFrom augmented declared M w.scope.schema)
  (hknows : w.scope.strategy = .optimizing → w.scope.schema.KnowsGroupings)
include hfrom hknows

/-- The operation of an rpc is added when its payloads have been defined. -/
theorem invoke_ensures {rpc : Place} (hrpc : rpc ∈ w.scope.schema.tops i .rpcs) (hd : Settled w.scope u d) :
    ((Step.invoke rpc).take w h root).Ensures d fun _ d' =>
      (Step.invoke rpc).Taken w.scope u h root d d' := by
  have hhas := Schema.has_of_mem_tops hrpc
  show (h.emit w.scope rpc (rpcSegment root rpc)).Ensures d _
  rw [emit_of_rpc (hfrom.kind_of_mem_rpcs hrpc), rpcPath_eq]
  refine ensures_bind ((payloadProperty_ensures hfrom hknows hhas .input hd).mono fun input d₁ h₁ => ?_)
  obtain ⟨hgoes₁, hdone₁, hinput, hpaths₁⟩ := h₁
  refine ensures_bind ((payloadProperty_ensures hfrom hknows hhas .output hgoes₁.settled).mono fun output d₂ h₂ => ?_)
  obtain ⟨hgoes₂, hdone₂, houtput, hpaths₂⟩ := h₂
  refine (addRpcOperation_lays rpc (rpcSegment root rpc) input output d₂).ok.mono fun _ d₃ h₃ => ?_
  obtain ⟨htextual, hlays⟩ := h₃
  have hgoes₃ : Goes w.scope u (fun _ => True) d₂ d₃ := hlays.goes hgoes₂.settled
  have hinput' : ∀ p ∈ payload? rpc .input, (d₃.completed.get? p.address).isSome = true := fun p hp =>
    (hgoes₂.trans hgoes₃).isSome_completed (hdone₁ p hp)
  have houtput' : ∀ p ∈ payload? rpc .output, (d₃.completed.get? p.address).isSome = true := fun p hp =>
    hgoes₃.isSome_completed (hdone₂ p hp)
  refine ⟨(hgoes₁.trans hgoes₂).trans hgoes₃, htextual, fun p hp => ?_, fun f hf _ => ?_⟩
  · exact (mem_payloads.mp hp).elim (hinput' p) (houtput' p)
  · -- what has been bound is still so in the end
    rw [hlays.paths, hpaths₂, hpaths₁, hinput, houtput,
      ← map_pointer_eq hhas hgoes₁.settled ((hgoes₂.trans hgoes₃).trans hf) hdone₁,
      ← map_pointer_eq hhas hgoes₂.settled (hgoes₃.trans hf) hdone₂]
    refine (Paths.mapProperties_layAll _ _ _).trans (congrArg _ ?_)
    rw [List.map_singleton, mapProperties_rpcOperation, Option.map_map, Option.map_map]
    rfl

theorem Step.take_ensures {step : Step} (hstep : IsStep w elements limit i step) (hd : Settled w.scope u d) :
    (step.take w h root).Ensures d fun _ d' => step.Taken w.scope u h root d d' := by
  cases hstep with
  | note _ => exact ensures_note ⟨hd.goes rfl rfl rfl, trivial, by simp [Step.defined], fun _ _ _ => rfl⟩
  | refuse => exact ensures_fail
  | @enter p passed _ hwalk =>
    show ((routeHandler h root passed).emit w.scope p (routeSegment root (p :: passed))).Ensures d _
    rw [hwalk.emit_eq]
    refine (dataPath_lays p _ d).ok.mono fun _ d' h' => ?_
    obtain ⟨hplanned, hlays⟩ := h'
    have hgoes : Goes w.scope u (fun _ => True) d d' := hlays.goes hd
    refine ⟨hgoes, hplanned, by simp [Step.defined], fun f hf hdone => ?_⟩
    have hp := hwalk.route.has
    have hfor : IsFor w.scope u f p (d.asked w.scope p) := ((isFor_asked hd hp).goes hgoes).goes hf
    rw [hlays.paths]
    refine (Paths.mapProperties_layAll _ _ _).trans (congrArg _ ?_)
    rw [mapProperties_dataOperations, hfor.current_eq_pointer hf.settled hp (hdone p (by simp [Step.targets]))]
    rfl
  | @leave p passed _ hwalk =>
    refine ensures_bind ((define_keeps_paths hfrom hknows hwalk.route.has hd).mono fun name d' h' => ?_)
    obtain ⟨hgoes, hdone, -, hpaths⟩ := h'
    refine ensures_pure ⟨hgoes, trivial, by simpa [Step.defined] using hdone, fun f _ _ => ?_⟩
    rw [hpaths]
    rfl
  | invoke _ hrpc => exact invoke_ensures hfrom hknows hrpc hd

end

/-! ### Steps that are taken again -/

/-- A step can be taken again: its operations can be put together, and all that it asks for has been defined. -/
structure Step.IsSettled (c : Scope) (h : Handler) (root : Name) (e : Definitions) (step : Step) : Prop where
  planned : step.IsPlanned c h root
  done : ∀ p ∈ step.defined ++ step.targets, (e.completed.get? p.address).isSome = true

theorem Step.IsSettled.goes {e f : Definitions} {step : Step} (h' : step.IsSettled c h root e)
    (hf : Goes c u (fun _ => True) e f) : step.IsSettled c h root f :=
  ⟨h'.planned, fun p hp => hf.isSome_completed (h'.done p hp)⟩

theorem Step.IsSettled.payloads {e : Definitions} {rpc : Place} (h' : (Step.invoke rpc).IsSettled c h root e) :
    (∀ p ∈ payload? rpc .input, (e.completed.get? p.address).isSome = true) ∧
      ∀ p ∈ payload? rpc .output, (e.completed.get? p.address).isSome = true :=
  ⟨fun p hp => h'.done p (List.mem_append_right _ (mem_payloads.mpr (.inl hp))),
    fun p hp => h'.done p (List.mem_append_right _ (mem_payloads.mpr (.inr hp)))⟩

/-- The operations of a settled step do not change any more. -/
theorem Step.IsSettled.operations_eq {e f : Definitions} {step : Step} (h' : step.IsSettled w.scope h root e)
    (hstep : IsStep w elements limit i step) (he : Settled w.scope u e) (hf : Goes w.scope u (fun _ => True) e f) :
    step.operations w.scope h root f = step.operations w.scope h root e := by
  cases hstep with
  | @enter p passed _ hwalk =>
    show (_ : List Placed) = (routeHandler h root (p :: passed)).dataOperations _ _ _ (e.pointer p)
    rw [← hf.pointer_eq he hwalk.route.has (h'.done p (by simp [targets]))]
    rfl
  | @invoke rpc _ hrpc =>
    have hhas := Schema.has_of_mem_tops hrpc
    obtain ⟨hinput, houtput⟩ := h'.payloads
    show [h.rpcOperation _ _ _ _] = [h.rpcOperation _ _ _ _]
    rw [map_pointer_eq hhas he hf hinput, map_pointer_eq hhas he hf houtput]
  | note _ => rfl
  | refuse => rfl
  | leave _ => rfl

section

variable {augmented : Prop} {declared : Schema} {M : Expansion.Expanded}
  (hfrom : Schema.LoadedFrom augmented declared M w.scope.schema) {e y : Definitions} {xs : List Placed}
  (he : Settled w.scope u e) (hy : Lays xs e y)
include hfrom he hy

/-- The operation of an rpc is laid down once more when its payloads have been defined. -/
theorem invoke_again {rpc : Place} (hrpc : rpc ∈ w.scope.schema.tops i .rpcs)
    (h' : (Step.invoke rpc).IsSettled w.scope h root e) :
    ((Step.invoke rpc).take w h root).Settles y
      (fun _ y' => Lays (xs ++ (Step.invoke rpc).operations w.scope h root e) e y') fun _ _ => False := by
  have hhas := Schema.has_of_mem_tops hrpc
  have hgoes : Goes w.scope u (fun _ => True) e y := hy.goes he
  obtain ⟨hinput, houtput⟩ := (h'.goes hgoes).payloads
  show (h.emit w.scope rpc (rpcSegment root rpc)).Settles y _ _
  rw [emit_of_rpc (hfrom.kind_of_mem_rpcs hrpc), rpcPath_eq]
  refine (payloadProperty_of_completed hhas hgoes.settled hinput).bind fun input y₁ h₁ => ?_
  obtain ⟨rfl, rfl⟩ := h₁
  refine (payloadProperty_of_completed hhas hgoes.settled houtput).bind fun output y₂ h₂ => ?_
  obtain ⟨rfl, rfl⟩ := h₂
  refine (addRpcOperation_lays rpc _ _ _ _).mono (fun _ y₃ h₃ => ?_) fun _ _ hnot => hnot h'.planned
  have hlays := hy.trans h₃.2
  rwa [hy.pointer] at hlays

/-- A settled step lays down its operations and does nothing else. -/
theorem Step.take_again {step : Step} (hstep : IsStep w elements limit i step) (h' : step.IsSettled w.scope h root e) :
    (step.take w h root).Settles y (fun _ y' => Lays (xs ++ step.operations w.scope h root e) e y')
      fun _ _ => False := by
  have hgoes : Goes w.scope u (fun _ => True) e y := hy.goes he
  have hdone := (h'.goes hgoes).done
  cases hstep with
  | note _ =>
    refine settles_note ?_
    show Lays (xs ++ []) e _
    rw [List.append_nil]
    exact hy.noted _
  | refuse => exact h'.planned.elim
  | @enter p passed _ hwalk =>
    have hasked : y.asked w.scope p = e.pointer p := by
      rw [hgoes.settled.asked_eq_pointer hwalk.route.has (hdone p (by simp [targets])), hy.pointer]
    show ((routeHandler h root passed).emit w.scope p (routeSegment root (p :: passed))).Settles y _ _
    rw [hwalk.emit_eq]
    refine (dataPath_lays p _ y).mono (fun _ y' hy' => ?_) fun _ _ hnot => hnot h'.planned
    rw [hasked] at hy'
    exact hy.trans hy'.2
  | @leave p passed _ hwalk =>
    have hp := hdone p (by simp [defined])
    refine (define_of_completed hgoes.settled hwalk.route.has hp).bind fun name y' hy' => ?_
    obtain ⟨rfl, -⟩ := hy'
    refine settles_pure ?_
    show Lays (xs ++ []) e _
    rwa [List.append_nil]
  | invoke _ hrpc => exact invoke_again hfrom he hy hrpc h'

end

/-! ### Visits -/

/-- Completing properties does not change operations that point at definitions. -/
theorem Step.mapProperties_operations (c : Scope) (e f : Definitions) (step : Step) :
    (step.operations c h root e).map (Placed.mapProperties (Property.mapAll f.current)) =
      step.operations c h root e := by
  cases step with
  | enter p passed => exact mapProperties_dataOperations _ p (e.pointer p)
  | invoke rpc =>
    show [Placed.mapProperties _ _] = [_]
    rw [mapProperties_rpcOperation, Option.map_map, Option.map_map]
    rfl
  | note _ _ => rfl
  | refuse => rfl
  | leave _ => rfl

/-- The operations of some steps, in their order. -/
def operationsOf (c : Scope) (h : Handler) (root : Name) (steps : List Step) (e : Definitions) : List Placed :=
  steps.flatMap (Step.operations c h root e)

theorem view_layAll (f : Definitions) (ps : Paths) (c : Scope) (steps : List Step) (e : Definitions) :
    f.view (ps.layAll (operationsOf c h root steps e)) = (f.view ps).layAll (operationsOf c h root steps e) := by
  have hsame : (operationsOf c h root steps e).map (Placed.mapProperties (Property.mapAll f.current)) =
      operationsOf c h root steps e := by
    rw [operationsOf, List.map_flatMap]
    exact List.flatMap_congr fun step _ => step.mapProperties_operations c e f
  exact (Paths.mapProperties_layAll _ ps _).trans (congrArg _ hsame)

/-- Some steps through the `i`-th module are settled, and if they laid down their operations once more these would stand
as they do. -/
structure AreSettled (w : Walk) (h : Handler) (root : Name) (elements : List Element) (limit : Option Nat) (i : Nat)
    (steps : List Step) (e : Definitions) : Prop where
  allowed : ∀ step ∈ steps, IsStep w elements limit i step
  settled : ∀ step ∈ steps, step.IsSettled w.scope h root e
  stand : Paths.layAll (e.view e.document.paths) (operationsOf w.scope h root steps e) = e.view e.document.paths

/-- The steps through the `i`-th module are settled. -/
def IsVisited (w : Walk) (settings : Settings) (i : Nat) (e : Definitions) : Prop :=
  ∃ (m : Module) (steps : List Step), w.scope.schema.modules[i]? = some m ∧
    visitModule w settings i = steps.forM (Step.take w (Handler.ofRules settings.tagRules) m.name) ∧
    AreSettled w (Handler.ofRules settings.tagRules) m.name settings.elements settings.walkLimit i steps e

variable {settings : Settings} {e : Definitions} {steps : List Step}

section

variable {augmented : Prop} {declared : Schema} {M : Expansion.Expanded}
  (hfrom : Schema.LoadedFrom augmented declared M w.scope.schema)
include hfrom

/-- Settled steps lay down their operations one after the other. -/
theorem AreSettled.takeAll (h' : AreSettled w h root elements limit i steps e) (he : Settled w.scope u e) :
    (steps.forM (Step.take w h root)).Settles e
      (fun _ e' => Lays (operationsOf w.scope h root steps e) e e') fun _ _ => False := by
  refine settles_forM_along (fun pre y => Lays (operationsOf w.scope h root pre e) e y) (.refl e)
    fun pre step post y hl hy => ?_
  have hmem : step ∈ steps := hl ▸ by simp
  refine (Step.take_again hfrom he hy (h'.allowed step hmem) (h'.settled step hmem)).imp fun _ y' hy' => ?_
  rwa [operationsOf, List.flatMap_append, List.flatMap_singleton]

/-- A module that has been visited may be visited again, which changes nothing but log records. -/
theorem IsVisited.again (hvisited : IsVisited w settings i e) (he : Settled w.scope u e) :
    (visitModule w settings i).Settles e
      (fun _ e' => Similar w.scope w.scope.strategy w.scope.strategy e e') fun _ _ => False := by
  obtain ⟨m, steps, -, hvisit, hsteps⟩ := hvisited
  rw [hvisit]
  refine (hsteps.takeAll hfrom he).imp fun _ e' hlays => ?_
  obtain ⟨records, rfl⟩ := hlays
  refine ⟨?_, rfl, rfl, rfl, fun _ => rfl, fun _ => .rfl, fun _ => .rfl, fun _ => rfl⟩
  have hpaths : e.view e.document.paths = e.view (Paths.layAll e.document.paths
      (operationsOf w.scope (Handler.ofRules settings.tagRules) m.name steps e)) := by
    rw [view_layAll]
    exact hsteps.stand.symm
  exact congrArg (fun paths => { e.document with paths }) hpaths

end

section

variable {augmented : Prop} {declared : Schema} {M : Expansion.Expanded}
  (hfrom : Schema.LoadedFrom augmented declared M w.scope.schema)
  (hknows : w.scope.strategy = .optimizing → w.scope.schema.KnowsGroupings)
include hfrom hknows

/-- What is known when steps have been taken one after the other. -/
theorem takeAll_ensures (hsteps : ∀ step ∈ steps, IsStep w elements limit i step) (hd : Settled w.scope u d) :
    (steps.forM (Step.take w h root)).Ensures d fun _ d' => Goes w.scope u (fun _ => True) d d' ∧
      (∀ step ∈ steps, step.IsPlanned w.scope h root ∧
        ∀ p ∈ step.defined, (d'.completed.get? p.address).isSome = true) ∧
      ∀ f, Goes w.scope u (fun _ => True) d' f →
        (∀ step ∈ steps, ∀ p ∈ step.targets, (f.completed.get? p.address).isSome = true) →
        f.view d'.document.paths = (f.view d.document.paths).layAll (operationsOf w.scope h root steps f) := by
  refine ensures_forM (fun pre x => Goes w.scope u (fun _ => True) d x ∧
    (∀ step ∈ pre, step.IsPlanned w.scope h root ∧
      ∀ p ∈ step.defined, (x.completed.get? p.address).isSome = true) ∧
    ∀ f, Goes w.scope u (fun _ => True) x f →
      (∀ step ∈ pre, ∀ p ∈ step.targets, (f.completed.get? p.address).isSome = true) →
      f.view x.document.paths = (f.view d.document.paths).layAll (operationsOf w.scope h root pre f))
    ⟨hd.goes rfl rfl rfl, by simp, fun _ _ _ => rfl⟩ fun pre step post x hl hx => ?_
  obtain ⟨hgoes, hpre, hlaid⟩ := hx
  refine (Step.take_ensures hfrom hknows (hsteps step (hl ▸ by simp)) hgoes.settled).mono fun _ x' htaken => ?_
  refine ⟨hgoes.trans htaken.goes, fun step' hmem => ?_, fun f hf hdone => ?_⟩
  · rcases List.mem_append.mp hmem with hmem | hmem
    · obtain ⟨hplanned, hdefined⟩ := hpre step' hmem
      exact ⟨hplanned, fun p hp => htaken.goes.isSome_completed (hdefined p hp)⟩
    · exact List.mem_singleton.mp hmem ▸ ⟨htaken.planned, htaken.defined⟩
  · rw [htaken.laid f hf (hdone step (by simp)),
      hlaid f (htaken.goes.trans hf) fun step' hmem => hdone step' (List.mem_append_left _ hmem),
      ← Paths.layAll_append, operationsOf, operationsOf, List.flatMap_append, List.flatMap_singleton]

end

/-- What has been settled stays so when other operations are laid down elsewhere. -/
theorem AreSettled.goes (h' : AreSettled w h root elements limit i steps d) (hd : Settled w.scope u d)
    (hgoes : Goes w.scope u (fun _ => True) d d') {xs : List Placed}
    (hlaid : d'.view d'.document.paths = Paths.layAll (d'.view d.document.paths) xs)
    (hapart : ∀ x ∈ operationsOf w.scope h root steps d', ∀ y ∈ xs, ¬y.Meets x) :
    AreSettled w h root elements limit i steps d' := by
  have hsame : operationsOf w.scope h root steps d' = operationsOf w.scope h root steps d :=
    List.flatMap_congr fun step hmem => (h'.settled step hmem).operations_eq (h'.allowed step hmem) hd hgoes
  refine ⟨h'.allowed, fun step hmem => (h'.settled step hmem).goes hgoes, ?_⟩
  rw [hlaid]
  refine Paths.layAll_layAll_of_apart ?_ hapart
  -- the operations stand as they did, with more properties completed
  have hstand := congrArg d'.view h'.stand
  rwa [view_layAll, hgoes.view_view, ← hsame] at hstand

/-! ### Visits of several modules -/

section

variable {augmented : Prop} {declared : Schema} {M : Expansion.Expanded}
  (hfrom : Schema.LoadedFrom augmented declared M w.scope.schema)
include hfrom

/-- The operations of a module lead into it. -/
theorem leadsInto_of_mem_operationsOf (hcases : HasCases w.scope.schema) {m : Module}
    (hm : w.scope.schema.modules[i]? = some m) {name : String} (hname : m.name = .text name)
    (hsteps : ∀ step ∈ steps, IsStep w elements limit i step) {x : Placed}
    (hx : x ∈ operationsOf w.scope h m.name steps d) : LeadsInto name x.path := by
  obtain ⟨step, hmem, hx⟩ := List.mem_flatMap.mp hx
  have hdata : ("/data" : String) ++ "/" = "/data/" := rfl
  have hrpcs : ("/operations" : String) ++ "/" = "/operations/" := rfl
  cases hsteps step hmem with
  | enter _ hwalk =>
    obtain ⟨rest, hpath⟩ := (hwalk.isOwned hfrom hcases hm hname).path
    refine ⟨rest, .inl ?_⟩
    rw [path_of_mem_dataOperations hx, hpath, ← hdata]
    simp only [String.append_assoc]
  | @invoke rpc _ _ =>
    have howned : (rpcSegment m.name rpc).IsOwned name := by
      rw [rpcSegment, hname]
      exact Segment.isOwned_push_root rfl _ _
    obtain ⟨rest, hpath⟩ := howned.path
    refine ⟨rest, .inr ?_⟩
    rw [List.mem_singleton.mp hx]
    show "/operations" ++ (rpcSegment m.name rpc).path = _
    rw [hpath, ← hrpcs]
    simp only [String.append_assoc]
  | note _ => cases hx
  | refuse => cases hx
  | leave _ => cases hx

variable (hknows : w.scope.strategy = .optimizing → w.scope.schema.KnowsGroupings)
include hknows

/-- When a module has been visited its steps are settled, and its operations have been laid down. -/
theorem visitModule_ensures {m : Module} (hm : w.scope.schema.modules[i]? = some m) (hd : Settled w.scope u d) :
    (visitModule w settings i).Ensures d fun _ d' => Goes w.scope u (fun _ => True) d d' ∧
      ∃ steps : List Step,
        visitModule w settings i = steps.forM (Step.take w (Handler.ofRules settings.tagRules) m.name) ∧
        AreSettled w (Handler.ofRules settings.tagRules) m.name settings.elements settings.walkLimit i steps d' ∧
        d'.view d'.document.paths = Paths.layAll (d'.view d.document.paths)
          (operationsOf w.scope (Handler.ofRules settings.tagRules) m.name steps d') := by
  obtain ⟨steps, hvisit, hsteps, hleft⟩ := visitModule_takesSteps settings hm
  have hvisit : visitModule w settings i = _ := hvisit w.scope rfl
  rw [hvisit]
  refine (takeAll_ensures hfrom hknows hsteps hd).mono fun _ d' h' => ?_
  obtain ⟨hgoes, htaken, hlaid⟩ := h'
  -- what is entered is left, and what is left has been defined
  have htargets : ∀ step ∈ steps, ∀ p ∈ step.targets, (d'.completed.get? p.address).isSome = true := by
    intro step hmem p hp
    cases step with
    | enter q passed =>
      obtain rfl := List.mem_singleton.mp hp
      exact (htaken _ (hleft p passed hmem)).2 p (by simp [Step.defined])
    | invoke rpc => exact (htaken _ hmem).2 p hp
    | note _ _ => cases hp
    | refuse => cases hp
    | leave _ => cases hp
  have hview := hlaid d' (hgoes.settled.goes rfl rfl rfl) htargets
  refine ⟨hgoes, steps, rfl, ⟨hsteps, fun step hmem => ⟨(htaken step hmem).1, fun p hp => ?_⟩, ?_⟩, hview⟩
  · exact (List.mem_append.mp hp).elim ((htaken step hmem).2 p) (htargets step hmem p)
  · rw [hview]
    exact Paths.layAll_layAll _ _

/-- Modules stay visited when further ones are. -/
theorem visitModules_visit (hcases : HasCases w.scope.schema) (hnamed : w.scope.schema.IsNamed)
    {modules : List (Module × Nat)} (hmodules : ∀ m ∈ modules, w.scope.schema.modules[m.2]? = some m.1)
    (hd : Settled w.scope u d) :
    (modules.forM fun m => visitModule w settings m.2).Ensures d fun _ d' => Settled w.scope u d' ∧
      ∀ m ∈ modules, IsVisited w settings m.2 d' := by
  refine ensures_forM (fun (pre : List (Module × Nat)) d' => Settled w.scope u d' ∧
    ∀ m ∈ pre, IsVisited w settings m.2 d')
    ⟨hd, by simp⟩ fun pre m post x hl hx => ?_
  obtain ⟨hx, hpre⟩ := hx
  have hm := hmodules m (hl ▸ by simp)
  refine (visitModule_ensures hfrom hknows hm hx).mono fun _ x' h' => ?_
  obtain ⟨hgoes, steps, hvisit, hsettled, hlaid⟩ := h'
  refine ⟨hgoes.settled, fun m' hm' => ?_⟩
  by_cases hsame : m'.2 = m.2
  · rw [hsame]
    exact ⟨m.1, steps, hm, hvisit, hsettled⟩
  · -- modules of different names have no operation in common
    have hm' := (List.mem_append.mp hm').resolve_right fun hmem => hsame (by rw [List.mem_singleton.mp hmem])
    obtain ⟨n, steps', hn, hvisit', hsettled'⟩ := hpre m' hm'
    obtain ⟨name, hname, hcolon⟩ := hnamed.names m.1 (List.mem_of_getElem? hm)
    obtain ⟨name', hname', hcolon'⟩ := hnamed.names n (List.mem_of_getElem? hn)
    refine ⟨n, steps', hn, hvisit', hsettled'.goes hx hgoes hlaid fun a ha b hb hmeets => hsame ?_⟩
    have hinto := leadsInto_of_mem_operationsOf hfrom hcases hn hname' hsettled'.allowed ha
    have hinto' := leadsInto_of_mem_operationsOf hfrom hcases hm hname hsettled.allowed hb
    rw [hmeets.1] at hinto'
    obtain rfl := hinto.eq hinto' hcolon' hcolon
    exact hnamed.distinct hn hm (by rw [hname, hname']; exact Datum.beq_scalar_iff.mpr ⟨_, rfl, BEq.rfl⟩)

end

end Generation

end RestconfApi
