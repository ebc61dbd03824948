import RestconfApi.Definitions.Usage
import RestconfApi.Proofs.Building
import RestconfApi.Proofs.Lists
import RestconfApi.Proofs.Names
import RestconfApi.Proofs.Schema.Suppliers

/-!
# Definitions: what is recorded before the walk

The copies in the trees of a module are recorded with their templates, those in rpcs apart from the others. What has
been recorded when all modules are processed is what stands in them, in their order.
-/

namespace RestconfApi.Definitions

open Building

variable {s : Schema} {d d' d'' : Definitions}

theorem flatMap_nil_right {α β : Type} (l : List α) : (l.flatMap fun _ => ([] : List β)) = [] :=
  List.flatMap_eq_nil_iff.mpr fun _ _ => rfl

/-- The copies below a top statement, each with all its templates, unless it is an rpc. -/
def copiesIn (s : Schema) (top : Place) : List (Address × Place) :=
  if top.node.kind = .rpc then [] else top.nodes.flatMap fun p => (s.templates p).map fun t => (t.address, p)

/-- The templates of all copies below a top statement that is an rpc. -/
def payloadIn (s : Schema) (top : Place) : List Address :=
  if top.node.kind = .rpc then top.nodes.flatMap fun p => (s.templates p).map (·.address) else []

/-- What has been recorded on the way. -/
structure Records (copies : List (Address × Place)) (payload : List Address) (d d' : Definitions) : Prop where
  copies : d'.copies = d.copies ++ copies
  payload : d'.payload = d.payload ++ payload
  processed : d'.processed = d.processed

namespace Records

variable {copies copies' : List (Address × Place)} {payload payload' : List Address}

theorem refl (d : Definitions) : Records [] [] d d := ⟨by simp, by simp, rfl⟩

theorem trans (h : Records copies payload d d') (h' : Records copies' payload' d' d'') :
    Records (copies ++ copies') (payload ++ payload') d d'' :=
  ⟨by rw [h'.copies, h.copies, List.append_assoc], by rw [h'.payload, h.payload, List.append_assoc],
    h'.processed.trans h.processed⟩

theorem foldl {α : Type} {step : Definitions → α → Definitions} {f : α → List (Address × Place)}
    {g : α → List Address} (h : ∀ d x, Records (f x) (g x) d (step d x)) (l : List α) (d : Definitions) :
    Records (l.flatMap f) (l.flatMap g) d (l.foldl step d) := by
  induction l generalizing d with
  | nil => exact refl d
  | cons x l ih => exact (h d x).trans (ih _)

/-- A loop over steps that record nothing records nothing. -/
theorem foldl_nil {α : Type} {step : Definitions → α → Definitions} (h : ∀ d x, Records [] [] d (step d x))
    (l : List α) (d : Definitions) : Records [] [] d (l.foldl step d) := by
  have hfold := foldl h l d
  rwa [flatMap_nil_right, flatMap_nil_right] at hfold

end Records

/-! ### Nodes and trees -/

theorem records_countUses (s : Schema) (d : Definitions) (p : Place) : Records [] [] d (countUses s d p) := by
  unfold countUses
  split
  · exact .refl d
  · refine Records.foldl_nil (fun d ref => ?_) _ d
    split
    · exact ⟨by simp, by simp, rfl⟩
    · exact .refl d

theorem records_countBodies (s : Schema) (d : Definitions) : Records [] [] d (countBodies s d) := by
  unfold countBodies
  split
  · exact .refl d
  · have h := Records.foldl_nil (records_countUses s) (s.groupings.flatMap Place.nodes) d
    exact ⟨h.copies, h.payload, h.processed⟩

theorem records_recordCopy (s : Schema) (inPayload : Bool) (d : Definitions) (p : Place) :
    Records (if inPayload then [] else (s.templates p).map fun t => (t.address, p))
      (if inPayload then (s.templates p).map (·.address) else []) d (recordCopy s inPayload d p) := by
  have hstep : ∀ d (t : Place), Records (if inPayload then [] else [(t.address, p)])
      (if inPayload then [t.address] else []) d
      (if inPayload then { d with payload := d.payload ++ [t.address] }
        else { d with copies := d.copies ++ [(t.address, p)] }) := by
    intro d t
    cases inPayload <;> exact ⟨by simp, by simp, rfl⟩
  have h := Records.foldl hstep (s.templates p) d
  cases inPayload <;> simpa [recordCopy, List.map_eq_flatMap, flatMap_nil_right] using h

theorem records_processTree (s : Schema) (d : Definitions) (top : Place) :
    Records (copiesIn s top) (payloadIn s top) d (processTree s d top) := by
  have h := Records.foldl (fun d p => (records_countUses s d p).trans
    (records_recordCopy s (top.node.kind = .rpc) (countUses s d p) p)) top.nodes d
  unfold copiesIn payloadIn processTree
  by_cases hk : top.node.kind = .rpc <;> simpa [hk, flatMap_nil_right] using h

/-! ### Modules -/

/-- The top statements of the data and the rpcs of the `i`-th module. -/
def topsOf (s : Schema) (i : Nat) : List Place := s.tops i .data ++ s.tops i .rpcs

/-- What has been recorded when modules have been processed. -/
structure Processed (s : Schema) (modules : List (Module × Nat)) (d d' : Definitions) : Prop where
  copies : d'.copies = d.copies ++ modules.flatMap fun m => (topsOf s m.2).flatMap (copiesIn s)
  payload : d'.payload = d.payload ++ modules.flatMap fun m => (topsOf s m.2).flatMap (payloadIn s)
  processed : ∀ name, name ∈ d'.processed ↔ name ∈ d.processed ∨ name ∈ modules.map (·.1.name)

/-- Whatever a module is called, what stands in it is recorded. -/
theorem processModule_lists (s : Schema) (i : Nat) (d : Definitions) : (processModule s i).Settles d
    (fun _ d' => d'.copies = d.copies ++ (topsOf s i).flatMap (copiesIn s) ∧
      d'.payload = d.payload ++ (topsOf s i).flatMap (payloadIn s))
    fun _ d' => d'.copies = d.copies ∧ d'.payload = d.payload := by
  unfold processModule
  split
  · rename_i hnone
    have htops : topsOf s i = [] := by simp [topsOf, Schema.tops, hnone]
    exact settles_pure (by simp [htops])
  · have hbodies := records_countBodies s d
    refine settles_bind (settles_modify ?_)
    split
    · refine settles_fail ⟨hbodies.copies.trans ?_, hbodies.payload.trans ?_⟩
      · rw [List.append_nil]
      · rw [List.append_nil]
    · refine settles_modify ?_
      dsimp only
      have htrees := fun d => Records.foldl (records_processTree s) (topsOf s i) d
      refine ⟨(htrees _).copies.trans ?_, (htrees _).payload.trans ?_⟩
      · rw [hbodies.copies, List.append_nil]
      · rw [hbodies.payload, List.append_nil]

theorem processModule_records {i : Nat} {m : Module} (hm : s.modules[i]? = some m) {t : String}
    (ht : m.name = .text t) : (processModule s i).Ensures d fun _ d' => Processed s [(m, i)] d d' := by
  have hprocessed : (processModule s i).Ensures d fun _ d' =>
      ∀ name, name ∈ d'.processed ↔ name ∈ d.processed ∨ name ∈ [(m, i)].map (·.1.name) := by
    unfold processModule
    rw [hm]
    refine ensures_bind (ensures_modify ?_)
    split
    · exact ensures_fail
    · refine ensures_modify fun name => ?_
      dsimp only
      have htrees := fun d => Records.foldl (records_processTree s) (s.tops i .data ++ s.tops i .rpcs) d
      rw [(htrees _).processed, (records_countBodies s d).processed, List.map_singleton, List.mem_singleton]
      split
      · rename_i hcontains
        obtain ⟨name', hmem, heq⟩ := List.contains_iff_exists_mem_beq.mp hcontains
        rw [ht] at heq ⊢
        rw [Datum.eq_text_of_text_beq heq] at hmem
        exact ⟨.inl, fun h => h.elim id fun h => h ▸ hmem⟩
      · rw [List.mem_append, List.mem_singleton]
  intro a d' hrun
  obtain ⟨hcopies, hpayload⟩ := (processModule_lists s i d).ok a d' hrun
  exact ⟨by rw [hcopies, List.flatMap_singleton], by rw [hpayload, List.flatMap_singleton], hprocessed a d' hrun⟩

/-- What stands in the modules is recorded in their order. -/
theorem processModules_records {modules : List (Module × Nat)}
    (hmodules : ∀ m ∈ modules, s.modules[m.2]? = some m.1 ∧ ∃ t, m.1.name = .text t) :
    (modules.forM fun (_, i) => processModule s i).Ensures d fun _ d' => Processed s modules d d' := by
  refine ensures_forM (fun pre d' => Processed s pre d d') ⟨by simp, by simp, by simp⟩ fun pre m post d₁ hsplit h => ?_
  obtain ⟨hm, t, ht⟩ := hmodules m (by simp [hsplit])
  refine (processModule_records hm ht).mono fun _ d₂ h₂ => ⟨?_, ?_, fun name => ?_⟩
  · rw [h₂.copies, h.copies, List.flatMap_append, List.append_assoc]
  · rw [h₂.payload, h.payload, List.flatMap_append, List.append_assoc]
  · rw [h₂.processed, h.processed, List.map_append, List.mem_append, or_assoc]

/-! ### What is recorded -/

theorem mem_copiesIn {top : Place} {a : Address} {x : Place} :
    (a, x) ∈ copiesIn s top ↔ top.node.kind ≠ .rpc ∧ x ∈ top.nodes ∧ ∃ t ∈ s.templates x, t.address = a := by
  unfold copiesIn
  split
  · rename_i hk
    simp [hk]
  · rename_i hk
    simp only [List.mem_flatMap, List.mem_map, Prod.mk.injEq, ne_eq, hk, not_false_eq_true, true_and]
    constructor
    · rintro ⟨p, hp, t, ht, rfl, rfl⟩
      exact ⟨hp, t, ht, rfl⟩
    · rintro ⟨hx, t, ht, rfl⟩
      exact ⟨x, hx, t, ht, rfl, rfl⟩

theorem mem_payloadIn {top : Place} {a : Address} :
    a ∈ payloadIn s top ↔ top.node.kind = .rpc ∧ ∃ x ∈ top.nodes, ∃ t ∈ s.templates x, t.address = a := by
  unfold payloadIn
  split
  · rename_i hk
    simp [hk]
  · rename_i hk
    simp [hk]

/-- Nothing is recorded but templates, which stand in groupings. -/
def ListsTemplates (d : Definitions) : Prop :=
  ∀ a, a ∈ d.payload ∨ a ∈ d.copies.map (·.1) → a.part = .groupings

theorem processModule_listsTemplates {augmented : Prop} {rank : Address → Nat} (hs : s.Traced augmented rank) (i : Nat)
    (hd : ListsTemplates d) : (processModule s i).Leaves d (fun _ d' => ListsTemplates d') ListsTemplates := by
  have htemplate : ∀ {a : Address} {top x : Place}, top ∈ topsOf s i → x ∈ top.nodes →
      (∃ t ∈ s.templates x, t.address = a) → a.part = .groupings := by
    rintro a top x htop hx ⟨t, ht, rfl⟩
    have hhas : s.Has x := (List.mem_append.mp htop).elim (fun h => (Schema.of_mem_nodes h hx).1)
      fun h => (Schema.of_mem_nodes h hx).1
    exact hs.part_of_mem_templates hhas ht
  refine (processModule_lists s i d).mono (fun _ d' hlists a ha => ?_)
    fun _ d' hkept a ha => hd a (by rwa [hkept.1, hkept.2] at ha)
  obtain ⟨hcopies, hpayload⟩ := hlists
  rw [hcopies, hpayload, List.map_append, List.mem_append, List.mem_append] at ha
  rcases ha with (ha | ha) | (ha | ha)
  · exact hd a (.inl ha)
  · obtain ⟨top, htop, ha⟩ := List.mem_flatMap.mp ha
    obtain ⟨-, x, hx, ht⟩ := mem_payloadIn.mp ha
    exact htemplate htop hx ht
  · exact hd a (.inr ha)
  · obtain ⟨⟨a, x⟩, hmem, rfl⟩ := List.mem_map.mp ha
    obtain ⟨top, htop, ha⟩ := List.mem_flatMap.mp hmem
    obtain ⟨-, hx, ht⟩ := mem_copiesIn.mp ha
    exact htemplate htop hx ht

theorem processModules_listsTemplates {augmented : Prop} {rank : Address → Nat} (hs : s.Traced augmented rank)
    (modules : List (Module × Nat)) (hd : ListsTemplates d) :
    (modules.forM fun (_, i) => processModule s i).Leaves d (fun _ d' => ListsTemplates d') ListsTemplates :=
  settles_forM ListsTemplates hd fun m _ _ h => processModule_listsTemplates hs m.2 h

/-- A node stands in the data or the rpcs of one of some modules. -/
def IsIn (s : Schema) (modules : List (Module × Nat)) (x : Place) : Prop :=
  s.Has x ∧ x.address.part ≠ .groupings ∧ ∃ m ∈ modules, m.2 = x.address.module

theorem isIn_iff {modules : List (Module × Nat)} {x : Place} :
    IsIn s modules x ↔ ∃ m ∈ modules, ∃ top ∈ topsOf s m.2, x ∈ top.nodes := by
  constructor
  · rintro ⟨hx, hpart, m, hm, hmodule⟩
    obtain ⟨top, htop, hmem⟩ := hx.exists_top
    refine ⟨m, hm, top, ?_, hmem⟩
    rw [hmodule, topsOf, List.mem_append]
    cases hp : x.address.part with
    | data => exact .inl (hp ▸ htop)
    | rpcs => exact .inr (hp ▸ htop)
    | groupings => exact absurd hp hpart
  · rintro ⟨m, hm, top, htop, hx⟩
    rw [topsOf, List.mem_append] at htop
    rcases htop with htop | htop
    · obtain ⟨hhas, hmodule, hpart, -⟩ := Schema.of_mem_nodes htop hx
      exact ⟨hhas, by simp [hpart], m, hm, hmodule.symm⟩
    · obtain ⟨hhas, hmodule, hpart, -⟩ := Schema.of_mem_nodes htop hx
      exact ⟨hhas, by simp [hpart], m, hm, hmodule.symm⟩

theorem top_of_mem_topsOf {i : Nat} {top x : Place} (htop : top ∈ topsOf s i) (hx : x ∈ top.nodes) :
    x.top = top.node := by
  rcases List.mem_append.mp htop with htop | htop
  · exact (Schema.of_mem_nodes htop hx).2.2.2
  · exact (Schema.of_mem_nodes htop hx).2.2.2

/-! ### Records of modules -/

section

variable {modules : List (Module × Nat)} {u : Definitions} (h : Processed s modules {} u)
include h

theorem Processed.mem_copies_iff {t x : Place} (ht : s.Has t) :
    (t.address, x) ∈ u.copies ↔ IsIn s modules x ∧ x.top.kind ≠ .rpc ∧ t ∈ s.templates x := by
  have hcopies : u.copies = modules.flatMap fun m => (topsOf s m.2).flatMap (copiesIn s) := h.copies
  simp only [hcopies, List.mem_flatMap, mem_copiesIn]
  constructor
  · rintro ⟨m, hm, top, htop, hk, hx, t', ht', heq⟩
    obtain rfl := (Schema.has_of_mem_templates ht').eq ht heq
    exact ⟨isIn_iff.mpr ⟨m, hm, top, htop, hx⟩, by rwa [top_of_mem_topsOf htop hx], ht'⟩
  · rintro ⟨hx, hk, ht'⟩
    obtain ⟨m, hm, top, htop, hmem⟩ := isIn_iff.mp hx
    exact ⟨m, hm, top, htop, by rwa [← top_of_mem_topsOf htop hmem], hmem, t, ht', rfl⟩

theorem Processed.mem_payload_iff {t : Place} (ht : s.Has t) :
    t.address ∈ u.payload ↔ ∃ x, IsIn s modules x ∧ x.top.kind = .rpc ∧ t ∈ s.templates x := by
  have hpayload : u.payload = modules.flatMap fun m => (topsOf s m.2).flatMap (payloadIn s) := h.payload
  simp only [hpayload, List.mem_flatMap, mem_payloadIn]
  constructor
  · rintro ⟨m, hm, top, htop, hk, x, hx, t', ht', heq⟩
    obtain rfl := (Schema.has_of_mem_templates ht').eq ht heq
    exact ⟨x, isIn_iff.mpr ⟨m, hm, top, htop, hx⟩, by rwa [top_of_mem_topsOf htop hx], ht'⟩
  · rintro ⟨x, hx, hk, ht'⟩
    obtain ⟨m, hm, top, htop, hmem⟩ := isIn_iff.mp hx
    exact ⟨m, hm, top, htop, by rwa [← top_of_mem_topsOf htop hmem], x, hmem, t, ht', rfl⟩

theorem Processed.contains_processed (name : Name) :
    u.processed.contains name = (modules.map (·.1.name)).contains name := by
  refine contains_eq_of_mem_iff (fun name => ?_) name
  simpa using h.processed name

end

end RestconfApi.Definitions
