import RestconfApi.Proofs.Path.Operations
import RestconfApi.Proofs.Swagger.Laying

/-!
# Paths: operations that are planned

Whether the operations of a node can be added does not depend on what has been built, nor do the operations but for the
names that they point at. So what has succeeded once succeeds again, and adds the same.
-/

namespace RestconfApi

namespace Building

variable {α β γ : Type} {d : Definitions}

/-! ### Steps that only log -/

/-- A step that looks at nothing that has been built, and changes nothing but the log records. -/
def OnlyLogs (x : Building α) : Prop := ∃ y : Logged α, x = ofLogged y

theorem onlyLogs_pure (a : α) : OnlyLogs (pure a : Building α) := by
  refine ⟨pure a, funext fun d => ?_⟩
  show (Except.ok a, d) = (Except.ok a, { d with records := d.records ++ [] })
  rw [List.append_nil]

theorem onlyLogs_ofLogged (y : Logged α) : OnlyLogs (ofLogged y) := ⟨y, rfl⟩

theorem OnlyLogs.bind {x : Building α} {f : α → Building β} (hx : OnlyLogs x) (hf : ∀ a, OnlyLogs (f a)) :
    OnlyLogs (x >>= f) := by
  obtain ⟨y, rfl⟩ := hx
  choose z hz using hf
  refine ⟨y >>= z, funext fun d => ?_⟩
  rw [run_bind]
  obtain ⟨records, result⟩ := y
  cases result with
  | error e => rfl
  | ok a =>
    show f a { d with records := d.records ++ records } =
      ((z a).result, { d with records := d.records ++ (records ++ (z a).records) })
    rw [hz a, ← List.append_assoc]
    rfl

theorem onlyLogs_mapM {f : γ → Building β} {l : List γ} (h : ∀ x ∈ l, OnlyLogs (f x)) : OnlyLogs (l.mapM f) := by
  induction l with
  | nil => exact onlyLogs_pure []
  | cons x l ih =>
    rw [List.mapM_cons]
    exact (h x List.mem_cons_self).bind fun b =>
      (ih fun y hy => h y (List.mem_cons_of_mem _ hy)).bind fun bs => onlyLogs_pure _

/-- What a step gives if nothing has been built. -/
def fresh (x : Building α) : Except Failure α := (x {}).1

/-- A step that only logs gives the same wherever it starts from. -/
theorem OnlyLogs.settles {x : Building α} (h : OnlyLogs x) (d : Definitions) :
    x.Settles d (fun a d' => fresh x = .ok a ∧ ∃ records, d' = { d with records })
      fun e _ => fresh x = .error e := by
  obtain ⟨y, rfl⟩ := h
  exact settles_ofLogged (fun a ha => ⟨ha, _, rfl⟩) fun e he => he

end Building

namespace Definitions

open Building

variable {c : Scope} {d d' d'' : Definitions} {xs ys : List Placed}

/-- What is handed out for a node as things stand. -/
def asked (c : Scope) (d : Definitions) (p : Place) : Property :=
  match d.definitionName c p with
  | some name => { ref := some (.scalar name) }
  | none => { awaits := some p.address }

theorem reference_settles_asked {Q : Property → Definitions → Prop} {E : Failure → Definitions → Prop} {p : Place}
    (h : Q (asked c d p) d) : (reference c p).Settles d Q E := by
  unfold reference
  refine settles_bind (settles_get ?_)
  unfold asked at h
  cases hname : d.definitionName c p with
  | some name =>
    rw [hname] at h
    exact settles_pure h
  | none =>
    rw [hname] at h
    exact settles_pure h

/-- Operations have been laid down, and otherwise there are more log records at most. -/
def Lays (xs : List Placed) (d d' : Definitions) : Prop :=
  ∃ records, d' = { d with records, document := { d.document with paths := Paths.layAll d.document.paths xs } }

namespace Lays

theorem refl (d : Definitions) : Lays [] d d := ⟨d.records, rfl⟩

theorem trans (h : Lays xs d d') (h' : Lays ys d' d'') : Lays (xs ++ ys) d d'' := by
  obtain ⟨_, rfl⟩ := h
  obtain ⟨records, rfl⟩ := h'
  exact ⟨records, by rw [Paths.layAll_append]⟩

theorem noted (h : Lays xs d d') (records : List Record) : Lays xs d { d' with records } := by
  obtain ⟨_, rfl⟩ := h
  exact ⟨records, rfl⟩

theorem asked (h : Lays xs d d') (p : Place) : d'.asked c p = d.asked c p := by
  obtain ⟨_, rfl⟩ := h
  rfl

end Lays

end Definitions

/-! ### Segments -/

namespace Segment

/-- The names on the way are texts, so that there are a path and operation ids. -/
structure IsTextual (s : Segment) : Prop where
  path : s.path? = .ok s.path
  id : ∀ method, s.operationId? method = .ok (s.operationId method)

theorem operationId?_of_ok {s : Segment} {method id : String} (h : s.operationId? method = .ok id) (method' : String) :
    s.operationId? method' = .ok (s.operationId method') := by
  unfold operationId? at h ⊢
  split at h
  · rw [if_pos ‹_›]
  · cases h

end Segment

namespace Handler

open Definitions Building

variable {c : Scope} {h : Handler} {s : Segment} {d d₀ : Definitions} {xs : List Placed}

/-! ### Plans -/

theorem onlyLogs_pathParameter (p : PathParameter) : OnlyLogs (h.pathParameter c p) := by
  unfold pathParameter
  dsimp only
  split
  · exact (onlyLogs_ofLogged _).bind fun _ => onlyLogs_pure _
  · exact (onlyLogs_pure _).bind fun _ => onlyLogs_pure _

/-- The parameters of a path. -/
def pathParameters (c : Scope) (h : Handler) (s : Segment) : List Parameter :=
  (fresh (s.parameters.mapM (h.pathParameter c))).toOption.getD []

/-- The operations of a node of data can be put together but for the property that points at its definition. -/
structure IsPlanned (c : Scope) (h : Handler) (s : Segment) : Prop where
  textual : s.IsTextual
  parameters : fresh (s.parameters.mapM (h.pathParameter c)) = .ok (h.pathParameters c s)

/-- The body that writes a node. -/
def bodyOf (p : Place) (property : Property) : Parameter :=
  { name := .text (p.node.name.wording ++ ".body-param"), location := .text "body"
    description := .text (p.node.name.wording ++ " to be added or updated"), schema := some property }

/-- An operation of a node of data. -/
def dataOperation (h : Handler) (p : Place) (s : Segment) (method verb : String) (parameters : List Parameter)
    (responses : Entries Scalar Response) : Placed :=
  ⟨"/data" ++ s.path, method,
    { operationId := .text (s.operationId method), summary := .text (verb ++ " " ++ p.node.name.wording)
      description := p.node.description, tags := TagRule.allTags h.rules s
      parameters, responses := responses ++ [failed] }⟩

/-- The operations of a node of data, with the property that points at its definition. -/
def dataOperations (c : Scope) (h : Handler) (p : Place) (s : Segment) (property : Property) : List Placed :=
  let parameters := h.pathParameters c s
  h.dataOperation p s "get" "returns" parameters [answered property] ::
    if s.isReadOnly then []
    else
      writes.map (fun w =>
        h.dataOperation p s w.method w.verb (parameters ++ [bodyOf p property]) w.responses) ++
      [h.dataOperation p s "delete" "removes" parameters [plain "204" "Object deleted"]]

theorem path_of_mem_dataOperations {p : Place} {property : Property} {x : Placed}
    (hx : x ∈ h.dataOperations c p s property) : x.path = "/data" ++ s.path := by
  unfold dataOperations at hx
  dsimp only at hx
  rcases List.mem_cons.mp hx with rfl | hx
  · rfl
  · split at hx
    · cases hx
    · rcases List.mem_append.mp hx with hx | hx
      · obtain ⟨w, -, rfl⟩ := List.mem_map.mp hx
        rfl
      · rw [List.mem_singleton.mp hx]
        rfl

/-- The operation that invokes an rpc, with the properties that point at the definitions of its payloads. -/
def rpcOperation (h : Handler) (rpc : Place) (s : Segment) (input output : Option Property) : Placed :=
  ⟨"/operations" ++ s.path, "post",
    { operationId := .text (s.operationId "rpc"), summary := .text ("operates on " ++ rpc.node.name.wording)
      description := rpc.node.description, tags := TagRule.allTags h.rules s
      parameters := input.toList.map fun property =>
        { name := .text "input", location := .text "body"
          description := .text (rpc.node.name.wording ++ " input"), schema := some property }
      responses := [(output.map answered).getD (plain "204" "Operation completed"), failed] }⟩

/-! ### Steps -/

theorem path?_lays (hd : Lays xs d₀ d) :
    (ofLogged (.ofExcept s.path?)).Settles d
      (fun path d' => s.path? = .ok s.path ∧ path = s.path ∧ Lays xs d₀ d') fun _ _ => ¬s.IsTextual := by
  refine settles_ofLogged (fun path hpath => ?_) fun e he hs => ?_
  · obtain rfl := Segment.path?_ok hpath
    exact ⟨hpath, rfl, hd.noted _⟩
  · have hok : Except.error e = Except.ok s.path := he.symm.trans hs.path
    cases hok

theorem operationId?_lays (method : String) (hd : Lays xs d₀ d) :
    (ofLogged (.ofExcept (s.operationId? method))).Settles d
      (fun id d' => (∀ method, s.operationId? method = .ok (s.operationId method)) ∧ id = s.operationId method ∧
        Lays xs d₀ d') fun _ _ => ¬s.IsTextual := by
  refine settles_ofLogged (fun id hid => ?_) fun e he hs => ?_
  · have hall := Segment.operationId?_of_ok hid
    exact ⟨hall, Except.ok.inj (hid.symm.trans (hall method)), hd.noted _⟩
  · have hok : Except.error e = Except.ok (s.operationId method) := he.symm.trans (hs.id method)
    cases hok

theorem addOperation_lays {E : Failure → Definitions → Prop} (x : Placed) (hd : Lays xs d₀ d) :
    (addOperation x.path x.method x.operation).Settles d (fun _ d' => Lays (xs ++ [x]) d₀ d') E :=
  settles_modify (hd.trans ⟨d.records, rfl⟩)

theorem body_lays {E : Failure → Definitions → Prop} (p : Place) (hd : Lays xs d₀ d) :
    (body c p).Settles d (fun q d' => q = bodyOf p (d₀.asked c p) ∧ Lays xs d₀ d') E := by
  unfold body
  refine settles_bind (reference_settles_asked (settles_pure ⟨?_, hd⟩))
  rw [hd.asked]
  rfl

/-- An operation of a node of data, with the id that is found for it. -/
def identified (h : Handler) (p : Place) (s : Segment) (method verb : String) (parameters : List Parameter)
    (responses : Entries Scalar Response) : Building Operation := do
  let id ← ofLogged (.ofExcept (s.operationId? method))
  pure { (h.dataOperation p s method verb parameters responses).operation with operationId := .text id }

/-- Adds the operations that write a node of data. -/
def addWrites (c : Scope) (h : Handler) (p : Place) (s : Segment) (path : String) (parameters : List Parameter) :
    Building Unit :=
  writes.forM fun w => do
    let body ← body c p
    let o ← h.identified p s w.method w.verb (parameters ++ [body]) w.responses
    addOperation path w.method o

theorem dataPath_eq (p : Place) (s : Segment) :
    h.dataPath c p s = (do
      let path ← ofLogged (.ofExcept s.path?)
      let parameters ← s.parameters.mapM (h.pathParameter c)
      let property ← reference c p
      let get ← h.identified p s "get" "returns" parameters [answered property]
      addOperation ("/data" ++ path) "get" get
      if s.isReadOnly then pure ()
      else do
        addWrites c h p s ("/data" ++ path) parameters
        let delete ← h.identified p s "delete" "removes" parameters [plain "204" "Object deleted"]
        addOperation ("/data" ++ path) "delete" delete) := rfl

theorem identified_lays (p : Place) (method verb : String) (parameters : List Parameter)
    (responses : Entries Scalar Response) (hd : Lays xs d₀ d) :
    (h.identified p s method verb parameters responses).Settles d
      (fun o d' => (∀ method, s.operationId? method = .ok (s.operationId method)) ∧
        o = (h.dataOperation p s method verb parameters responses).operation ∧ Lays xs d₀ d')
      fun _ _ => ¬s.IsTextual := by
  refine (operationId?_lays method hd).bind fun id d' hid => ?_
  obtain ⟨hids, rfl, h'⟩ := hid
  exact settles_pure ⟨hids, rfl, h'⟩

theorem addWrites_lays (p : Place) (parameters : List Parameter) (hd : Lays xs d₀ d) :
    (addWrites c h p s ("/data" ++ s.path) parameters).Settles d
      (fun _ d' => Lays (xs ++ writes.map fun w =>
        h.dataOperation p s w.method w.verb (parameters ++ [bodyOf p (d₀.asked c p)]) w.responses) d₀ d')
      fun _ _ => ¬s.IsTextual := by
  refine settles_forM_along (fun (pre : List Write) d' => Lays (xs ++ pre.map fun w =>
    h.dataOperation p s w.method w.verb (parameters ++ [bodyOf p (d₀.asked c p)]) w.responses) d₀ d')
    (by rwa [List.map_nil, List.append_nil]) fun pre w post d₁ _ h₁ => ?_
  refine (body_lays p h₁).bind fun q d₂ hq => ?_
  obtain ⟨rfl, h₂⟩ := hq
  refine (identified_lays p w.method w.verb _ _ h₂).bind fun o d₃ ho => ?_
  obtain ⟨-, rfl, h₃⟩ := ho
  refine (addOperation_lays (h.dataOperation p s w.method w.verb _ _) h₃).imp fun _ d₄ h₄ => ?_
  rwa [List.map_append, ← List.append_assoc]

/-- The operations of a node of data are added if they can be put together, and point at what is handed out for it as
things stand. -/
theorem dataPath_lays (p : Place) (s : Segment) (d : Definitions) :
    (h.dataPath c p s).Settles d
      (fun _ d' => h.IsPlanned c s ∧ Lays (h.dataOperations c p s (d.asked c p)) d d')
      fun _ _ => ¬h.IsPlanned c s := by
  have hnot : ∀ (e : Failure) (d' : Definitions), ¬s.IsTextual → ¬h.IsPlanned c s := fun _ _ hs hplanned =>
    hs hplanned.textual
  rw [dataPath_eq]
  refine settles_bind ((path?_lays (.refl d)).mono (fun path d₁ hpath => ?_) hnot)
  obtain ⟨hpath, rfl, h₁⟩ := hpath
  have hlogs := onlyLogs_mapM (l := s.parameters) fun p _ => onlyLogs_pathParameter (c := c) (h := h) p
  refine settles_bind ((hlogs.settles d₁).mono (fun parameters d₂ hok => ?_) fun e _ he hplanned => ?_)
  · obtain ⟨hok, records, rfl⟩ := hok
    have hparameters : parameters = h.pathParameters c s := by rw [pathParameters, hok]; rfl
    subst hparameters
    have h₂ : Lays [] d { d₁ with records } := h₁.noted records
    refine settles_bind (reference_settles_asked ?_)
    rw [h₂.asked]
    refine settles_bind ((identified_lays p "get" "returns" _ _ h₂).mono (fun o d₃ ho => ?_) hnot)
    obtain ⟨hids, rfl, h₃⟩ := ho
    have hplanned : h.IsPlanned c s := ⟨⟨hpath, hids⟩, hok⟩
    refine settles_bind ((addOperation_lays (h.dataOperation p s "get" "returns" _ _) h₃).imp fun _ d₄ h₄ => ?_)
    refine settles_ite (fun hreadOnly => settles_pure ⟨hplanned, ?_⟩) fun hreadOnly => ?_
    · rwa [dataOperations, if_pos hreadOnly]
    · refine settles_bind ((addWrites_lays p _ h₄).mono (fun _ d₅ h₅ => ?_) hnot)
      refine settles_bind ((identified_lays p "delete" "removes" _ _ h₅).mono (fun o d₆ ho => ?_) hnot)
      obtain ⟨-, rfl, h₆⟩ := ho
      refine (addOperation_lays (h.dataOperation p s "delete" "removes" _ _) h₆).imp fun _ d₇ h₇ => ⟨hplanned, ?_⟩
      rwa [dataOperations, if_neg hreadOnly]
  · rw [hplanned.parameters] at he
    cases he

/-! ### Rpcs -/

/-- The property that points at the definition of a payload of an rpc, which is made if there is such a payload. -/
def payloadProperty (c : Scope) (rpc : Place) (kind : Kind) : Building (Option Property) :=
  match payload? rpc kind with
  | some p => do
    let name ← define c p
    pure (some { ref := some (.scalar name) })
  | none => pure none

/-- Adds the operation of an rpc whose payloads have been defined. -/
def addRpcOperation (h : Handler) (rpc : Place) (s : Segment) (input output : Option Property) : Building Unit := do
  let path ← ofLogged (.ofExcept s.path?)
  let id ← ofLogged (.ofExcept (s.operationId? "rpc"))
  let x := h.rpcOperation rpc s input output
  addOperation ("/operations" ++ path) x.method { x.operation with operationId := .text id }

theorem rpcPath_eq (rpc : Place) (s : Segment) :
    h.rpcPath c rpc s = (do
      let input ← payloadProperty c rpc .input
      let output ← payloadProperty c rpc .output
      h.addRpcOperation rpc s input output) := by
  unfold rpcPath inputParameters outputResponse payloadProperty
  cases payload? rpc .input <;> cases payload? rpc .output <;> simp only [bind_assoc, pure_bind] <;> rfl

theorem addRpcOperation_lays (rpc : Place) (s : Segment) (input output : Option Property) (d : Definitions) :
    (h.addRpcOperation rpc s input output).Settles d
      (fun _ d' => s.IsTextual ∧ Lays [h.rpcOperation rpc s input output] d d') fun _ _ => ¬s.IsTextual := by
  unfold addRpcOperation
  refine settles_bind ((path?_lays (.refl d)).imp fun path d₁ hpath => ?_)
  obtain ⟨hpath, rfl, h₁⟩ := hpath
  refine settles_bind ((operationId?_lays "rpc" h₁).imp fun id d₂ hid => ?_)
  obtain ⟨hids, rfl, h₂⟩ := hid
  exact (addOperation_lays (h.rpcOperation rpc s input output) h₂).imp fun _ d₃ h₃ => ⟨⟨hpath, hids⟩, h₃⟩

/-! ### Changed properties -/

variable (g : Property → Property)

theorem mapProperties_of_plain {qs : List Parameter} (hqs : ∀ q ∈ qs, q.schema = none) :
    qs.map (Parameter.mapProperties g) = qs := by
  refine (List.map_congr_left fun q hq => ?_).trans (List.map_id _)
  rw [Parameter.mapProperties, hqs q hq]
  show ({ q with schema := none } : Parameter) = q
  rw [← hqs q hq]

theorem schema_of_mem_pathParameters {q : Parameter} (hq : q ∈ h.pathParameters c s) : q.schema = none := by
  have hplain : (s.parameters.mapM (h.pathParameter c)).Ensures {} fun qs _ => ∀ q ∈ qs, q.schema = none := by
    refine ensures_mapM (fun _ (qs : List Parameter) _ => ∀ q ∈ qs, q.schema = none) (by simp)
      fun _ p _ qs d _ hqs => ?_
    have hnone : (h.pathParameter c p).Ensures d fun q _ => q.schema = none := by
      unfold pathParameter
      dsimp only
      split
      · exact ensures_bind (ensures_ofLogged fun _ _ => ensures_pure rfl)
      · exact ensures_bind (ensures_pure (ensures_pure rfl))
    refine hnone.mono fun q _ hq q' hq' => ?_
    exact (List.mem_append.mp hq').elim (hqs q') fun hmem => List.mem_singleton.mp hmem ▸ hq
  rcases hrun : s.parameters.mapM (h.pathParameter c) {} with ⟨e | qs, d⟩
  · simp [pathParameters, fresh, hrun, Except.toOption] at hq
  · rw [pathParameters, fresh, hrun] at hq
    exact hplain qs d hrun q hq

theorem mapProperties_dataOperation (p : Place) (method verb : String) (qs : List Parameter)
    (responses : Entries Scalar Response) :
    (h.dataOperation p s method verb qs responses).mapProperties g =
      h.dataOperation p s method verb (qs.map (Parameter.mapProperties g))
        (responses.map fun r => (r.1, r.2.mapProperties g)) := by
  unfold dataOperation Placed.mapProperties Operation.mapProperties
  simp only [List.map_append]
  rfl

/-- The operations of a node of data have one property, which points at its definition. -/
theorem mapProperties_dataOperations (p : Place) (property : Property) :
    (h.dataOperations c p s property).map (Placed.mapProperties g) = h.dataOperations c p s (g property) := by
  have hplain : (h.pathParameters c s).map (Parameter.mapProperties g) = h.pathParameters c s :=
    mapProperties_of_plain g fun q hq => schema_of_mem_pathParameters hq
  unfold dataOperations
  split
  · simp only [List.map_cons, List.map_nil, mapProperties_dataOperation, hplain]
    rfl
  · simp only [writes, List.map_cons, List.map_append, List.map_nil, mapProperties_dataOperation, hplain]
    rfl

theorem mapProperties_rpcOperation (rpc : Place) (input output : Option Property) :
    (h.rpcOperation rpc s input output).mapProperties g = h.rpcOperation rpc s (input.map g) (output.map g) := by
  cases input <;> cases output <;> rfl

end Handler

end RestconfApi
