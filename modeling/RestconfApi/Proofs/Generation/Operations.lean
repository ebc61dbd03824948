import RestconfApi.Proofs.Generation.References
import RestconfApi.Proofs.Generation.Routes
import RestconfApi.Proofs.Path.Emission

/-!
# Generation: where operations come from

Each operation of a document has been added for a container or a list at the end of a route through the data of a
module, or for an rpc, and has the identity and the path parameters of its segment.
-/

namespace RestconfApi

open Definitions Generation Building

/-! ### Operations of a document -/

/-- `P` holds of all operations, each with its path and its method. -/
def Document.HasOnly (P : String → String → Operation → Prop) (d : Document) : Prop :=
  ∀ e ∈ d.paths, ∃ path, e.1 = .text path ∧ ∀ e' ∈ e.2, ∃ method, e'.1 = .text method ∧ P path method e'.2

namespace Document.HasOnly

variable {P P' : String → String → Operation → Prop} {d : Document}

theorem of_mem (h : d.HasOnly P) {path method : Scalar} {os : Entries Scalar Operation} {o : Operation}
    (hos : (path, os) ∈ d.paths) (ho : (method, o) ∈ os) :
    ∃ path' method', path = .text path' ∧ method = .text method' ∧ P path' method' o := by
  obtain ⟨path', hpath, hall⟩ := h _ hos
  obtain ⟨method', hmethod, hP⟩ := hall _ ho
  exact ⟨path', method', hpath, hmethod, hP⟩

theorem add (h : d.HasOnly P) {path method : String} {o : Operation} (ho : P path method o) :
    HasOnly P (d.addOperation (.text path) (.text method) o) := by
  rintro ⟨k, os⟩ he
  rcases Entries.mem_put he with ⟨rfl, hk⟩ | he
  · obtain rfl := Scalar.eq_text_of_beq hk
    refine ⟨path, rfl, ?_⟩
    rintro ⟨k', o'⟩ he'
    rcases Entries.mem_put he' with ⟨rfl, hk'⟩ | he'
    · exact ⟨method, Scalar.eq_text_of_beq hk', ho⟩
    · cases hget : d.paths.get? (.text path) with
      | none => simp [hget] at he'
      | some os₀ =>
        rw [hget] at he'
        obtain ⟨k₀, hmem, hk₀⟩ := Entries.mem_of_get? hget
        obtain ⟨path', method', hpath, hmethod, hP⟩ := h.of_mem hmem he'
        obtain rfl := Scalar.eq_text_of_beq hk₀
        obtain rfl := Scalar.text.inj hpath
        exact ⟨method', hmethod, hP⟩
  · exact h _ he

theorem mapOperations (h : d.HasOnly P) (g : Property → Property)
    (hg : ∀ path method o, P path method o → P path method (o.mapProperties g)) : HasOnly P (d.mapOperations g) := by
  intro e he
  obtain ⟨e₀, he₀, rfl⟩ := List.mem_map.mp he
  obtain ⟨path, hpath, hall⟩ := h e₀ he₀
  refine ⟨path, hpath, fun e' he' => ?_⟩
  obtain ⟨e₀', he₀', rfl⟩ := List.mem_map.mp he'
  obtain ⟨method, hmethod, hP⟩ := hall e₀' he₀'
  exact ⟨method, hmethod, hg _ _ _ hP⟩

theorem yields {f : Name → Name} {doc : Document} (h : d.HasOnly P) (hdoc : d.Yields f doc)
    (hg : ∀ path method o, P path method o → P path method (o.mapProperties (Property.mapRefs f))) :
    doc.HasOnly P := by
  rintro ⟨path, os⟩ he
  obtain ⟨k, os₀, hmem, hk, rfl⟩ := hdoc.operations path os he
  obtain ⟨path', hpath, hall⟩ := h _ hmem
  dsimp only at hpath hall
  subst hpath
  refine ⟨path', Scalar.eq_text_of_beq (BEq.symm hk), fun e' he' => ?_⟩
  obtain ⟨e₀', he₀', rfl⟩ := List.mem_map.mp he'
  obtain ⟨method, hmethod, hP⟩ := hall e₀' he₀'
  exact ⟨method, hmethod, hg _ _ _ hP⟩

end Document.HasOnly

/-! ### Origins -/

/-- What an operation has been added for. -/
inductive Origin (s : Schema) (selected : List Name) (settings : Settings) : String → String → Operation → Prop
  | data {i : Nat} {m : Module} {p : Place} {passed : List Place} {method : String} {o : Operation} :
      s.modules[i]? = some m → IsOnWalk s selected settings.walkLimit i p passed →
      Handler.IsDataOperation s (routeHandler (Handler.ofRules settings.tagRules) m.name (p :: passed))
        (routeSegment m.name (p :: passed)) method o →
      Origin s selected settings ("/data" ++ (routeSegment m.name (p :: passed)).path) method o
  | rpc {i : Nat} {m : Module} {rpc : Place} {o : Operation} : s.modules[i]? = some m → rpc ∈ s.tops i .rpcs →
      Handler.IsRpcOperation ((Segment.root m.name 0).push rpc.node.name m.name false [] 0) o →
      Origin s selected settings
        ("/operations" ++ ((Segment.root m.name 0).push rpc.node.name m.name false [] 0).path) "post" o

theorem Handler.IsDataOperation.mapProperties {s : Schema} {h : Handler} {seg : Segment} {method : String}
    {o : Operation} (ho : IsDataOperation s h seg method o) (g : Property → Property) :
    IsDataOperation s h seg method (o.mapProperties g) := by
  have hinPath : inPath (o.mapProperties g) = (inPath o).map (Parameter.mapProperties g) := by
    show (o.parameters.map (Parameter.mapProperties g)).filter _ = _
    rw [List.filter_map]
    rfl
  refine ⟨ho.known, ho.path, ho.id, ho.named, ?_⟩
  rw [hinPath, List.forall₂_map_right_iff]
  refine ho.parameters.imp fun p q hq => ?_
  cases hq with
  | leaf hname hleaf hproperty htype hformat => exact .leaf hname hleaf hproperty htype hformat
  | missing hname hleaf htype hformat => exact .missing hname hleaf htype hformat

theorem Origin.mapProperties {s : Schema} {selected : List Name} {settings : Settings} {path method : String}
    {o : Operation} (h : Origin s selected settings path method o) (g : Property → Property) :
    Origin s selected settings path method (o.mapProperties g) := by
  cases h with
  | data hm hwalk ho => exact .data hm hwalk (ho.mapProperties g)
  | rpc hm hrpc ho => exact .rpc hm hrpc ⟨ho.path, ho.id, ho.named⟩

namespace Generation

variable {w : Walk} {settings : Settings} {u : Definitions}

/-- Names describe their nodes, and all operations come from what has been walked over. -/
def IsTraced (w : Walk) (settings : Settings) (u d : Definitions) : Prop :=
  Sound w.scope u (fun _ => True) d ∧ d.document.HasOnly (Origin w.scope.schema w.selected settings)

theorem isTraced_accepts (w : Walk) (settings : Settings) (u : Definitions) :
    Handler.Accepts (IsTraced w settings u) (fun _ _ => True) (Origin w.scope.schema w.selected settings) where
  noted _ _ _ hd := ⟨hd.1.noted _, hd.2⟩
  fails _ _ := trivial
  added _ _ _ _ ho hd :=
    ⟨⟨hd.1.usages, hd.1.closed, hd.1.names, hd.1.completed, hd.1.built⟩, hd.2.add ho⟩

theorem define_isTraced (hs : w.scope.schema.Ranked) {p : Place} (hp : w.scope.schema.Has p) {d : Definitions}
    (hd : IsTraced w settings u d) :
    (Definitions.define w.scope p).Settles d (fun _ d' => IsTraced w settings u d') fun _ _ => True := by
  refine settles_of_ensures ((define_ensures hs (Regime.free w.scope u) hp hd.1 trivial).mono fun name d' h => ?_)
  refine ⟨h.sound, fun e he => hd.2 e ?_⟩
  rwa [h.extended.paths] at he

theorem isTraced_keepsModule (hs : w.scope.schema.Ranked)
    (hrpcs : ∀ i, ∀ p ∈ w.scope.schema.tops i .rpcs, p.node.kind = .rpc) (i : Nat) :
    KeepsModule w settings i (IsTraced w settings u) fun _ _ => True where
  data m hm :=
    { noted := fun d level text hlevel hd => ⟨hd.1.noted _, hd.2⟩
      fails := fun _ _ => trivial
      emits := fun p passed hwalk d hd => by
        rw [hwalk.emit_eq]
        exact (Handler.dataPath_settles (isTraced_accepts w settings u) (hwalk.has_of_mem_owners _ _)
          (fun _ _ _ _ _ _ => trivial) (fun _ _ ho => .data hm hwalk ho) p hd).imp fun _ _ h => h.1
      defines := fun p passed hwalk d hd => define_isTraced hs hwalk.route.has hd }
  rpcs m hm rpc hrpc d hd := by
    rw [Handler.emit_of_rpc (hrpcs i rpc hrpc)]
    refine (Handler.rpcPath_settles (N := fun _ => True) (isTraced_accepts w settings u)
      (fun _ ho => .rpc hm hrpc ho) (fun p hp d hd => ?_) hd).imp fun _ _ h => h.1
    exact (define_isTraced hs (Handler.has_of_mem_payloads (Schema.has_of_mem_tops hrpc) hp) hd).imp
      fun _ _ hd' => ⟨hd', trivial⟩

end Generation

/-- Every operation of a generated document has an origin. -/
theorem Generated.hasOnly_origin {d : Datum} {s : Schema} {names : List Name} {settings : Settings}
    {modules : List (Module × Nat)} {r : Outcome} {info : Info} {doc : Document}
    (hload : (Schema.load d).result = .ok s) (h : Generated s names settings modules r info doc) :
    doc.HasOnly (Origin s (modules.map (·.1.name)) settings) := by
  obtain ⟨declared, M, hfrom⟩ := Schema.exists_loadedFrom hload
  have hschema : r.scope.schema = s := by rw [h.ran.scope]
  have hranked : r.scope.schema.Ranked := hschema ▸ hfrom.traced.ranked
  have hrpcs : ∀ i, ∀ p ∈ r.scope.schema.tops i .rpcs, p.node.kind = .rpc := fun i p hp =>
    hfrom.kind_of_mem_rpcs (hschema ▸ hp)
  let w : Walk := ⟨r.scope, modules.map (·.1.name)⟩
  have hwalk : (walk w settings modules).Ensures { document := emptyDocument settings } fun _ d' =>
      d'.document.HasOnly (Origin s (modules.map (·.1.name)) settings) := by
    have hfresh : IsFresh { document := emptyDocument settings } := ⟨rfl, rfl, rfl, rfl, rfl⟩
    unfold walk
    refine ensures_bind ((processModules_ensures _ _ _).mono fun _ d₁ hd₁ => ?_)
    have hstart : IsTraced w settings (counted d₁) d₁ := by
      refine ⟨(hfresh.untouched hd₁).sound (u := counted d₁) rfl _, fun e he => ?_⟩
      rw [(hfresh.untouched hd₁).paths] at he
      simp at he
    refine (visitModules_settles (fun m _ => isTraced_keepsModule hranked hrpcs m.2) hstart).ok.mono
      fun _ d' hd' => ?_
    rw [← hschema]
    exact hd'.2
  have hbuilt := hwalk _ _ h.ran.walked
  have hyields := postprocessAll_yields h.isClosed h.postprocessed
  refine Document.HasOnly.yields (d := { r.definitions.finished with info }) ?_ hyields
    fun _ _ _ ho => ho.mapProperties _
  exact hbuilt.mapOperations _ fun _ _ _ ho => ho.mapProperties _

end RestconfApi
