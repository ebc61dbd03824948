import RestconfApi.Proofs.Path.Operations
import RestconfApi.Proofs.Schema.Ending
import RestconfApi.Proofs.Schema.Waypoints

/-!
# Paths: what emitting keeps

Adding the operations of a node writes records, may fail, and adds operations with the identity and the path parameters
of its segment. An invariant that accepts all of these is kept, also where the payload of an rpc is defined on the
way.
-/

namespace RestconfApi.Handler

open Definitions Building

variable {c : Scope} {h : Handler} {s : Segment} {d : Definitions}

theorem emit_of_rpc {p : Place} (hk : p.node.kind = .rpc) : h.emit c p s = (h.withOwner p s).rpcPath c p s :=
  if_pos hk

/-! ### Operations -/

/-- A parameter for the key of a list: it has the type of the key leaf, and that of a text if the list has no such
child. -/
inductive Parametrizes (schema : Schema) (h : Handler) (p : PathParameter) : Parameter → Prop
  | leaf {q : Parameter} {leaf : Place} {property : Property} : q.name = .text p.name →
      ((h.owners.get? p.segment).bind fun owner => owner.child? p.key) = some leaf →
      (schema.leafProperty leaf).result = .ok property → q.type = property.type → q.format = property.format →
      Parametrizes schema h p q
  | missing {q : Parameter} : q.name = .text p.name →
      ((h.owners.get? p.segment).bind fun owner => owner.child? p.key) = none → q.type = .text "string" →
      q.format = .null → Parametrizes schema h p q

/-- The leaf of a list that is the key behind one of the parameters. -/
def IsKeyLeaf (h : Handler) (s : Segment) (x : Place) : Prop :=
  ∃ p ∈ s.parameters, ((h.owners.get? p.segment).bind fun owner => owner.child? p.key) = some x

theorem IsKeyLeaf.has {schema : Schema} {x : Place} (hx : h.IsKeyLeaf s x)
    (howners : ∀ e ∈ h.owners, schema.Has e.2) : schema.Has x := by
  obtain ⟨p, -, hleaf⟩ := hx
  obtain ⟨owner, howner, hchild⟩ := Option.bind_eq_some_iff.mp hleaf
  obtain ⟨_, hmem, -⟩ := Entries.mem_of_get? howner
  exact (howners _ hmem).dataChild (Place.mem_dataChildren_of_child? hchild)

/-- The parameters of an operation that stand in its path. -/
def inPath (o : Operation) : List Parameter := o.parameters.filter (·.location == .text "path")

/-- An operation of a method on the data behind a segment. -/
structure IsDataOperation (schema : Schema) (h : Handler) (s : Segment) (method : String) (o : Operation) : Prop where
  known : method ∈ ["get", "put", "post", "delete"]
  path : s.path? = .ok s.path
  id : s.operationId? method = .ok (s.operationId method)
  named : o.operationId = .text (s.operationId method)
  parameters : List.Forall₂ (Parametrizes schema h) s.parameters (inPath o)

/-- The operation that invokes the rpc behind a segment. -/
structure IsRpcOperation (s : Segment) (o : Operation) : Prop where
  path : s.path? = .ok s.path
  id : s.operationId? "rpc" = .ok (s.operationId "rpc")
  named : o.operationId = .text (s.operationId "rpc")

/-- The payloads of an rpc. -/
def payloads (rpc : Place) : List Place := (payload? rpc .input).toList ++ (payload? rpc .output).toList

theorem mem_payloads {rpc p : Place} : p ∈ payloads rpc ↔ p ∈ payload? rpc .input ∨ p ∈ payload? rpc .output := by
  simp [payloads]

/-- A payload is an input or an output that stands in the rpc. -/
theorem of_mem_payloads {rpc p : Place} (h : p ∈ payloads rpc) :
    p ∈ rpc.children ∧ (p.node.kind = .input ∨ p.node.kind = .output) := by
  rcases mem_payloads.mp h with hp | hp
  · exact ⟨(payload?_eq_some hp).1, .inl (payload?_eq_some hp).2⟩
  · exact ⟨(payload?_eq_some hp).1, .inr (payload?_eq_some hp).2⟩

theorem has_of_mem_payloads {schema : Schema} {rpc p : Place} (hrpc : schema.Has rpc) (h : p ∈ payloads rpc) :
    schema.Has p := by
  obtain ⟨j, hj⟩ := Place.mem_children.mp (of_mem_payloads h).1
  exact hrpc.childAt? hj

/-! ### Invariants -/

/-- An invariant that is not broken by records and by operations of which `P` holds; when something has the wrong type,
`E` holds. -/
structure Accepts (I : Definitions → Prop) (E : Failure → Definitions → Prop)
    (P : String → String → Operation → Prop) : Prop where
  noted : ∀ d more, (∀ r ∈ more, Record.IsBenign r) → I d → I { d with records := d.records ++ more }
  fails : ∀ d, I d → E .wrongType d
  added : ∀ d path method o, P path method o → I d →
    I { d with document := d.document.addOperation (.text path) (.text method) o }

variable {I : Definitions → Prop} {E : Failure → Definitions → Prop} {P : String → String → Operation → Prop}
  (hI : Accepts I E P)

include hI

theorem ofLogged_settles {α : Type} {x : Logged α} (hx : x.Ends)
    (hfails : ∀ e, x.result = .error e → ∀ d, I d → E e d) (hd : I d) :
    (ofLogged x).Settles d (fun a d' => x.result = .ok a ∧ I d') E :=
  settles_ofLogged (fun _ ha => ⟨ha, hI.noted d _ hx.records hd⟩)
    fun e he => hfails e he _ (hI.noted d _ hx.records hd)

theorem path?_settles (hd : I d) :
    (ofLogged (.ofExcept s.path?)).Settles d (fun path d' => (s.path? = .ok s.path ∧ path = s.path) ∧ I d') E := by
  have hends : Failure.Ends s.path? := Failure.ends_ite (Failure.ends_ok _) (Failure.ends_error (by simp))
  have hfails : ∀ e, (Logged.ofExcept s.path?).result = .error e → ∀ d, I d → E e d := by
    intro e he
    have he : s.path? = .error e := he
    unfold Segment.path? at he
    split at he
    · cases he
    · exact Except.error.inj he ▸ hI.fails
  refine (ofLogged_settles hI (Logged.ends_ofExcept hends) hfails hd).imp fun path d' hpath => ?_
  obtain ⟨hok, hd'⟩ := hpath
  have hok' : s.path? = .ok path := hok
  obtain rfl := Segment.path?_ok hok'
  exact ⟨⟨hok', rfl⟩, hd'⟩

theorem operationId?_settles (method : String) (hd : I d) :
    (ofLogged (.ofExcept (s.operationId? method))).Settles d (fun id d' =>
      (s.operationId? method = .ok (s.operationId method) ∧ id = s.operationId method) ∧ I d') E := by
  have hends : Failure.Ends (s.operationId? method) :=
    Failure.ends_ite (Failure.ends_ok _) (Failure.ends_error (by simp))
  have hfails : ∀ e, (Logged.ofExcept (s.operationId? method)).result = .error e → ∀ d, I d → E e d := by
    intro e he
    have he : s.operationId? method = .error e := he
    unfold Segment.operationId? at he
    split at he
    · cases he
    · exact Except.error.inj he ▸ hI.fails
  refine (ofLogged_settles hI (Logged.ends_ofExcept hends) hfails hd).imp fun id d' hid => ?_
  obtain ⟨hok, hd'⟩ := hid
  have hok' : s.operationId? method = .ok id := hok
  obtain rfl : id = s.operationId method := by
    unfold Segment.operationId? at hok'
    split at hok'
    · exact (Except.ok.inj hok').symm
    · cases hok'
  exact ⟨⟨hok', rfl⟩, hd'⟩

section

variable (howners : ∀ e ∈ h.owners, c.schema.Has e.2)
  (hkeys : ∀ x, h.IsKeyLeaf s x → ∀ e, (c.schema.leafProperty x).result = .error e → ∀ d, I d → E e d)
include howners hkeys

theorem pathParameter_settles {p : PathParameter} (hp : p ∈ s.parameters) (hd : I d) :
    (h.pathParameter c p).Settles d
      (fun q d' => (Parametrizes c.schema h p q ∧ q.location = .text "path") ∧ I d') E := by
  unfold pathParameter
  dsimp only
  split
  · rename_i leaf hleaf
    have hkey : h.IsKeyLeaf s leaf := ⟨p, hp, hleaf⟩
    refine settles_bind ((ofLogged_settles hI (Schema.ends_leafProperty (hkey.has howners))
      (hkeys leaf hkey) hd).imp fun property d' hok => ?_)
    exact settles_pure ⟨⟨.leaf rfl hleaf hok.1 rfl rfl, rfl⟩, hok.2⟩
  · rename_i hleaf
    exact settles_bind (settles_pure (settles_pure ⟨⟨.missing rfl hleaf rfl rfl, rfl⟩, hd⟩))

theorem pathParameters_settles {ps : List PathParameter} (hps : ps ⊆ s.parameters) (hd : I d) :
    (ps.mapM (h.pathParameter c)).Settles d (fun qs d' => (List.Forall₂ (Parametrizes c.schema h) ps qs ∧
      ∀ q ∈ qs, q.location = .text "path") ∧ I d') E := by
  induction ps generalizing d with
  | nil => exact settles_pure ⟨⟨.nil, by simp⟩, hd⟩
  | cons p ps ih =>
    obtain ⟨hp, hps⟩ := List.cons_subset.mp hps
    rw [List.mapM_cons]
    refine settles_bind ((pathParameter_settles hI howners hkeys hp hd).imp fun q d₁ hq => ?_)
    refine settles_bind ((ih hps hq.2).imp fun qs d₂ hqs => ?_)
    exact settles_pure ⟨⟨.cons hq.1.1 hqs.1.1, List.forall_mem_cons.mpr ⟨hq.1.2, hqs.1.2⟩⟩, hqs.2⟩

end

omit hI in
theorem reference_settles (p : Place) (hd : I d) :
    (reference c p).Settles d (fun _ d' => I d') E := by
  unfold Definitions.reference
  refine settles_bind (settles_get ?_)
  split
  · exact settles_pure hd
  · exact settles_pure hd

omit hI in
theorem body_settles (p : Place) (hd : I d) :
    (body c p).Settles d (fun q d' => q.location = .text "body" ∧ I d') E := by
  unfold body
  exact settles_bind ((reference_settles p hd).mono (fun π d' hd' => settles_pure ⟨rfl, hd'⟩) fun _ _ he => he)

theorem addOperation_settles {path method : String} {o : Operation} (ho : P path method o) (hd : I d) :
    (addOperation path method o).Settles d (fun _ d' => I d') E :=
  settles_modify (hI.added d path method o ho hd)

/-- All operations on data have the parameters of the segment. Apart from what has the wrong type, only the keys behind
these can be at fault. -/
theorem dataPath_settles (howners : ∀ e ∈ h.owners, c.schema.Has e.2)
    (hkeys : ∀ x, h.IsKeyLeaf s x → ∀ e, (c.schema.leafProperty x).result = .error e → ∀ d, I d → E e d)
    (hP : ∀ method o, IsDataOperation c.schema h s method o → P ("/data" ++ s.path) method o) (p : Place) (hd : I d) :
    (h.dataPath c p s).Settles d
      (fun _ d' => I d' ∧ ∃ qs, List.Forall₂ (Parametrizes c.schema h) s.parameters qs) E := by
  have hfilter : ∀ {qs : List Parameter}, (∀ q ∈ qs, q.location = .text "path") →
      qs.filter (·.location == .text "path") = qs := by
    intro qs hqs
    refine List.filter_eq_self.mpr fun q hq => ?_
    rw [hqs q hq]
    rfl
  unfold dataPath
  dsimp only
  refine settles_bind ((path?_settles hI hd).mono (fun path d₁ hpath => ?_) fun _ _ he => he)
  obtain ⟨⟨hpath, rfl⟩, hd₁⟩ := hpath
  refine settles_bind ((pathParameters_settles hI howners hkeys (List.Subset.refl _) hd₁).imp fun qs d₂ hqs => ?_)
  obtain ⟨⟨hqs, hlocation⟩, hd₂⟩ := hqs
  refine settles_bind ((reference_settles p hd₂).mono (fun π d₃ hd₃ => ?_) fun _ _ he => he)
  have hget : "get" ∈ ["get", "put", "post", "delete"] := by simp
  have hdelete : "delete" ∈ ["get", "put", "post", "delete"] := by simp
  refine settles_bind (settles_bind ((operationId?_settles hI _ hd₃).mono (fun id d₄ hid => ?_) fun _ _ he => he))
  obtain ⟨⟨hid, rfl⟩, hd₄⟩ := hid
  refine settles_pure (settles_bind ((addOperation_settles hI (hP _ _ ⟨hget, hpath, hid, rfl, ?_⟩) hd₄).mono
    (fun _ d₅ hd₅ => ?_) fun _ _ he => he))
  · show List.Forall₂ _ _ (qs.filter _)
    rwa [hfilter hlocation]
  refine settles_ite (fun _ => settles_pure ⟨hd₅, qs, hqs⟩) fun _ => ?_
  refine settles_bind ((settles_forM I hd₅ fun w hw d₆ hd₆ => ?_).mono (fun _ d₆ hd₆ => ?_) fun _ _ he => he)
  · have hwrite : w.method ∈ ["get", "put", "post", "delete"] := by
      rcases (mem_writes hw).1 with hm | hm <;> simp [hm]
    refine settles_bind ((body_settles p hd₆).mono (fun q d₇ hq => ?_) fun _ _ he => he)
    obtain ⟨hq, hd₇⟩ := hq
    refine settles_bind (settles_bind ((operationId?_settles hI _ hd₇).mono (fun id d₈ hid => ?_) fun _ _ he => he))
    obtain ⟨⟨hid, rfl⟩, hd₈⟩ := hid
    refine settles_pure (addOperation_settles hI (hP _ _ ⟨hwrite, hpath, hid, rfl, ?_⟩) hd₈)
    have hbody : (q.location == .text "path") = false := by
      rw [hq]
      decide
    show List.Forall₂ _ _ ((qs ++ [q]).filter _)
    rwa [List.filter_append, hfilter hlocation, List.filter_cons_of_neg (by simp [hbody]), List.filter_nil,
      List.append_nil]
  · refine settles_bind (settles_bind ((operationId?_settles hI _ hd₆).mono (fun id d₇ hid => ?_) fun _ _ he => he))
    obtain ⟨⟨hid, rfl⟩, hd₇⟩ := hid
    refine settles_pure ((addOperation_settles hI (hP _ _ ⟨hdelete, hpath, hid, rfl, ?_⟩) hd₇).imp
      fun _ _ hd₈ => ⟨hd₈, qs, hqs⟩)
    show List.Forall₂ _ _ (qs.filter _)
    rwa [hfilter hlocation]

/-- The payloads of an rpc are defined before its operation is added. -/
theorem rpcPath_settles {rpc : Place} (hP : ∀ o, IsRpcOperation s o → P ("/operations" ++ s.path) "post" o)
    {N : Place → Prop} (hdefine : ∀ p ∈ payloads rpc, ∀ d, I d → (define c p).Settles d (fun _ d' => I d' ∧ N p) E)
    (hd : I d) : (h.rpcPath c rpc s).Settles d (fun _ d' => I d' ∧ ∀ p ∈ payloads rpc, N p) E := by
  have hinput : (inputParameters c rpc).Settles d (fun _ d' => I d' ∧ ∀ p ∈ payload? rpc .input, N p) E := by
    unfold inputParameters
    split
    · rename_i p hp
      refine (hdefine p (mem_payloads.mpr (.inl hp)) d hd).bind fun _ _ hd' => settles_pure ⟨hd'.1, fun q hq => ?_⟩
      exact Option.some.inj (hp.symm.trans hq) ▸ hd'.2
    · rename_i hnone
      exact settles_pure ⟨hd, by simp [hnone]⟩
  have houtput : ∀ d, I d → (outputResponse c rpc).Settles d
      (fun _ d' => I d' ∧ ∀ p ∈ payload? rpc .output, N p) E := by
    intro d hd
    unfold outputResponse
    split
    · rename_i p hp
      refine (hdefine p (mem_payloads.mpr (.inr hp)) d hd).bind fun _ _ hd' => settles_pure ⟨hd'.1, fun q hq => ?_⟩
      exact Option.some.inj (hp.symm.trans hq) ▸ hd'.2
    · rename_i hnone
      exact settles_pure ⟨hd, by simp [hnone]⟩
  unfold rpcPath
  dsimp only
  refine hinput.bind fun _ d₁ h₁ => (houtput d₁ h₁.1).bind fun _ d₂ h₂ => ?_
  refine (path?_settles hI h₂.1).bind fun path d₃ hpath => ?_
  obtain ⟨⟨hpath, rfl⟩, hd₃⟩ := hpath
  refine (operationId?_settles hI _ hd₃).bind fun id d₄ hid => ?_
  obtain ⟨⟨hid, rfl⟩, hd₄⟩ := hid
  refine (addOperation_settles hI (hP _ ⟨hpath, hid, rfl⟩) hd₄).imp fun _ _ hd₅ => ⟨hd₅, fun p hp => ?_⟩
  exact (mem_payloads.mp hp).elim (h₁.2 p) (h₂.2 p)

end RestconfApi.Handler
