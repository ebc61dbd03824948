import RestconfApi.Proofs.Definitions.Agreement
import RestconfApi.Proofs.Generation.Outcome
import RestconfApi.Proofs.Swagger.Laying

/-!
# Generation: walks of builders that share alike

Walks over one schema whose builders share the same groupings end alike: in the same failure, or in documents that
are the same once their properties are completed. So the strategy does not matter where no grouping is used more
than once.
-/

namespace RestconfApi

/-! ### Adding an operation -/

namespace Definitions.Similar

variable {c : Scope} {t t' : Strategy} {d e : Definitions}

theorem addOperation (h : Similar c t t' d e) (path method : Scalar) (o : Operation) :
    Similar c t t' { d with document := d.document.addOperation path method o }
      { e with document := e.document.addOperation path method o } := by
  refine ⟨?_, h.names, h.completed, h.underway, h.processed, h.copies, h.payload, h.shares⟩
  have hfinished : ∀ d : Definitions, ({ d with document := d.document.addOperation path method o } :
      Definitions).finished = d.finished.addOperation path method (o.mapProperties (Property.mapAll d.current)) :=
    fun d => Document.mapOperations_addOperation _ path method o d.document
  rw [hfinished, hfinished, h.finished, current_congr h.completed]

end Definitions.Similar

namespace Handler

open Definitions Building

variable {c : Scope} {t t' : Strategy} {d e : Definitions} (h : Handler)

theorem pathParameter_agree (hd : Similar c t t' d e) (p : PathParameter) :
    Agree (Similar c t t') (h.pathParameter (c.under t) p) (h.pathParameter (c.under t') p) d e := by
  unfold pathParameter
  cases (h.owners.get? p.segment).bind fun owner => owner.child? p.key with
  | some leaf => exact agree_bind (agree_ofLogged (hd.noted _ _)) fun _ _ _ h' => agree_pure h'
  | none => exact agree_bind (agree_pure hd) fun _ _ _ h' => agree_pure h'

theorem addOperation_agree (hd : Similar c t t' d e) (path method : String) (o : Operation) :
    Agree (Similar c t t') (addOperation path method o) (addOperation path method o) d e :=
  agree_modify (hd.addOperation _ _ o)

theorem body_agree (hd : Similar c t t' d e) (p : Place) :
    Agree (Similar c t t') (body (c.under t) p) (body (c.under t') p) d e :=
  agree_bind (reference_agree hd p) fun _ _ _ h' => agree_pure h'

theorem dataPath_agree (hd : Similar c t t' d e) (p : Place) (s : Segment) :
    Agree (Similar c t t') (h.dataPath (c.under t) p s) (h.dataPath (c.under t') p s) d e := by
  unfold dataPath
  refine agree_bind (agree_ofLogged (hd.noted _ _)) fun path d₁ e₁ h₁ => ?_
  refine agree_bind (agree_mapM (fun q _ d e hd => pathParameter_agree h hd q) h₁) fun parameters d₂ e₂ h₂ => ?_
  dsimp only
  have hoperation : ∀ {d e : Definitions}, Similar c t t' d e → ∀ method (o : String → Operation),
      Agree (Similar c t t') (do let id ← ofLogged (.ofExcept (s.operationId? method)); pure (o id))
        (do let id ← ofLogged (.ofExcept (s.operationId? method)); pure (o id)) d e := fun hd method o =>
    agree_bind (agree_ofLogged (hd.noted _ _)) fun _ _ _ h' => agree_pure h'
  refine agree_bind (reference_agree h₂ p) fun property d₃ e₃ h₃ => ?_
  refine agree_bind (hoperation h₃ "get" _) fun get d₄ e₄ h₄ => ?_
  refine agree_bind (addOperation_agree h₄ _ _ get) fun _ d₅ e₅ h₅ => ?_
  refine agree_ite (fun _ => agree_pure h₅) fun _ => ?_
  refine agree_bind (agree_forM (fun w _ d e hd => ?_) h₅) fun _ d₆ e₆ h₆ => ?_
  · refine agree_bind (body_agree hd p) fun body d' e' h' => ?_
    exact agree_bind (hoperation h' w.method _) fun o d'' e'' h'' => addOperation_agree h'' _ _ o
  · exact agree_bind (hoperation h₆ "delete" _) fun o d' e' h' => addOperation_agree h' _ _ o

theorem rpcPath_agree (hd : Similar c t t' d e) (rpc : Place) (s : Segment) :
    Agree (Similar c t t') (h.rpcPath (c.under t) rpc s) (h.rpcPath (c.under t') rpc s) d e := by
  have hinput : Agree (Similar c t t') (inputParameters (c.under t) rpc) (inputParameters (c.under t') rpc) d e := by
    unfold inputParameters
    split
    · exact agree_bind (define_agree _ d e hd) fun _ _ _ h' => agree_pure h'
    · exact agree_pure hd
  have houtput : ∀ {d e : Definitions}, Similar c t t' d e →
      Agree (Similar c t t') (outputResponse (c.under t) rpc) (outputResponse (c.under t') rpc) d e := by
    intro d e hd
    unfold outputResponse
    split
    · exact agree_bind (define_agree _ d e hd) fun _ _ _ h' => agree_pure h'
    · exact agree_pure hd
  unfold rpcPath
  refine agree_bind hinput fun parameters d₁ e₁ h₁ => ?_
  refine agree_bind (houtput h₁) fun response d₂ e₂ h₂ => ?_
  refine agree_bind (agree_ofLogged (h₂.noted _ _)) fun path d₃ e₃ h₃ => ?_
  refine agree_bind (agree_ofLogged (h₃.noted _ _)) fun id d₄ e₄ h₄ => ?_
  exact addOperation_agree h₄ _ _ _

theorem emit_agree (hd : Similar c t t' d e) (p : Place) (s : Segment) :
    Agree (Similar c t t') (h.emit (c.under t) p s) (h.emit (c.under t') p s) d e := by
  unfold emit
  exact agree_ite (fun _ => rpcPath_agree _ hd p s) fun _ => dataPath_agree _ hd p s

end Handler

namespace Generation

open Definitions Building

variable {c : Scope} {t t' : Strategy} {selected selected' : List Name}

mutual

/-- Visits agree if the same modules are selected. -/
theorem visit_agree (hselected : ∀ name, selected.contains name = selected'.contains name) (h : Handler)
    (seg : Segment) (limit : Option Nat) (a : Address) (above : List Node) :
    ∀ (n : Node) (d e : Definitions), Similar c t t' d e →
      Agree (Similar c t t') (visit ⟨c.under t, selected⟩ h seg limit a above n)
        (visit ⟨c.under t', selected'⟩ h seg limit a above n) d e
  | ⟨st, cs⟩, d, e, hd => by
    unfold visit
    dsimp only
    rw [hselected]
    refine agree_ite (fun _ => agree_note (hd.noted _ _)) fun _ => agree_ite (fun _ => agree_fail hd) fun _ =>
      agree_ite (fun _ => agree_note (hd.noted _ _)) fun _ => agree_ite (fun _ => ?_) fun _ =>
        agree_ite (fun _ => ?_) fun _ => agree_pure hd
    · refine agree_bind (agree_note (hd.noted _ _)) fun _ d₁ e₁ h₁ => ?_
      refine agree_bind (Handler.emit_agree h h₁ _ _) fun _ d₂ e₂ h₂ => ?_
      refine agree_bind (visitAll_agree hselected _ _ _ a _ 0 cs d₂ e₂ h₂) fun _ d₃ e₃ h₃ => ?_
      exact agree_bind (define_agree _ d₃ e₃ h₃) fun _ d₄ e₄ h₄ => agree_pure h₄
    · refine agree_bind (agree_note (hd.noted _ _)) fun _ d₁ e₁ h₁ => ?_
      exact visitCases_agree hselected h seg _ a _ 0 cs d₁ e₁ h₁

theorem visitAll_agree (hselected : ∀ name, selected.contains name = selected'.contains name) (h : Handler)
    (seg : Segment) (limit : Option Nat) (a : Address) (above : List Node) (i : Nat) :
    ∀ (ns : List Node) (d e : Definitions), Similar c t t' d e →
      Agree (Similar c t t') (visitAll ⟨c.under t, selected⟩ h seg limit a above i ns)
        (visitAll ⟨c.under t', selected'⟩ h seg limit a above i ns) d e
  | [], d, e, hd => by
    unfold visitAll
    exact agree_pure hd
  | n :: ns, d, e, hd => by
    unfold visitAll
    refine agree_bind (visit_agree hselected h seg limit (a.child i) above n d e hd) fun _ d₁ e₁ h₁ => ?_
    exact visitAll_agree hselected h seg limit a above (i + 1) ns d₁ e₁ h₁

theorem visitCases_agree (hselected : ∀ name, selected.contains name = selected'.contains name) (h : Handler)
    (seg : Segment) (limit : Option Nat) (a : Address) (above : List Node) (i : Nat) :
    ∀ (ns : List Node) (d e : Definitions), Similar c t t' d e →
      Agree (Similar c t t') (visitCases ⟨c.under t, selected⟩ h seg limit a above i ns)
        (visitCases ⟨c.under t', selected'⟩ h seg limit a above i ns) d e
  | [], d, e, hd => by
    unfold visitCases
    exact agree_pure hd
  | ⟨st, cs⟩ :: ns, d, e, hd => by
    unfold visitCases
    refine agree_bind (visitAll_agree hselected h seg limit (a.child i) _ 0 cs d e hd) fun _ d₁ e₁ h₁ => ?_
    exact visitCases_agree hselected h seg limit a above (i + 1) ns d₁ e₁ h₁

end

theorem visitModule_agree (hselected : ∀ name, selected.contains name = selected'.contains name)
    (settings : Settings) (i : Nat) {d e : Definitions} (hd : Similar c t t' d e) :
    Agree (Similar c t t') (visitModule ⟨c.under t, selected⟩ settings i)
      (visitModule ⟨c.under t', selected'⟩ settings i) d e := by
  have hschema : ∀ t selected, (⟨c.under t, selected⟩ : Walk).scope.schema = c.schema := fun _ _ => rfl
  unfold visitModule
  rw [hschema, hschema]
  cases c.schema.modules[i]? with
  | none => exact agree_pure hd
  | some m =>
    dsimp only
    have hrpcs : ∀ {d e : Definitions}, Similar c t t' d e → Agree (Similar c t t')
        (if .rpc ∈ settings.elements then
          (c.schema.tops i .rpcs).forM fun rpc => (Handler.ofRules settings.tagRules).emit (c.under t) rpc
            ((Segment.root m.name 0).push rpc.node.name m.name false [] 0)
        else pure ())
        (if .rpc ∈ settings.elements then
          (c.schema.tops i .rpcs).forM fun rpc => (Handler.ofRules settings.tagRules).emit (c.under t') rpc
            ((Segment.root m.name 0).push rpc.node.name m.name false [] 0)
        else pure ()) d e := fun hd =>
      agree_ite (fun _ => agree_forM (fun rpc _ d e hd => Handler.emit_agree _ hd rpc _) hd) fun _ => agree_pure hd
    by_cases hdata : Element.data ∈ settings.elements
    · rw [if_pos hdata, if_pos hdata]
      refine agree_bind (visitAll_agree hselected _ _ _ _ _ 0 m.data d e hd) fun _ d₁ e₁ h₁ => hrpcs h₁
    · rw [if_neg hdata, if_neg hdata]
      exact hrpcs hd

theorem visitModules_agree (hselected : ∀ name, selected.contains name = selected'.contains name)
    (settings : Settings) (modules : List (Module × Nat)) {d e : Definitions} (hd : Similar c t t' d e) :
    Agree (Similar c t t') (modules.forM fun (_, i) => visitModule ⟨c.under t, selected⟩ settings i)
      (modules.forM fun (_, i) => visitModule ⟨c.under t', selected'⟩ settings i) d e :=
  agree_forM (fun m _ _ _ hd => visitModule_agree hselected settings m.2 hd) hd

/-! ### Generations -/

/-- The definitions when the uses in the selected modules have been counted and nothing is built yet. -/
def prepared (s : Schema) (settings : Settings) (modules : List (Module × Nat)) : Definitions :=
  ((modules.forM fun (_, i) => processModule s i) { document := emptyDocument settings }).2

/-- The walk of a generation. -/
def walkThrough (s : Schema) (settings : Settings) (modules : List (Module × Nat)) (groupings : Groupings) : Walk :=
  ⟨⟨s, groupings, settings.strategy, settings.levelLimit⟩, modules.map (·.1.name)⟩

/-- How the walk of a generation ends, and what it leaves. -/
def walked (s : Schema) (settings : Settings) (modules : List (Module × Nat)) (groupings : Groupings) :
    Except Failure Unit × Definitions :=
  walk (walkThrough s settings modules groupings) settings modules { document := emptyDocument settings }

theorem bind_congr_ok {α β : Type} {x : Except Failure α} {f g : α → Except Failure β}
    (h : ∀ a, x = .ok a → f a = g a) : x >>= f = x >>= g := by
  cases x with
  | error e => rfl
  | ok a => exact h a rfl

theorem bind_ok {α β : Type} {a : α} {f : α → Except Failure β} : (.ok a : Except Failure α) >>= f = f a := rfl

theorem result_forM {α : Type} (f : α → Logged Unit) (l : List α) :
    (l.forM f).result = l.forM fun a => (f a).result := by
  induction l with
  | nil => rfl
  | cons a l ih =>
    refine (Logged.result_bind (f a) _).trans (bind_congr fun _ => ?_)
    exact ih

/-- What becomes of the document that a walk leaves, apart from log records. -/
def concluded (settings : Settings) (modules : List Module) (title : String) (d : Document) :
    Except Failure Document := do
  let about ← info settings title modules
  (postprocessAll settings { d with info := about }).result

/-- The outcome of a generation apart from its log records. -/
theorem result_generate (s : Schema) (names : List Name) (settings : Settings) :
    (generate s names settings).result = (do
      let modules ← (select s names).result
      (modules.map (·.1.name)).forM fun name => do let _ ← name.key?
      let groupings ← (Groupings.ofSchema s).result
      let title ← joined "," (modules.map (·.1.name))
      (walked s settings modules groupings).1
      concluded settings (modules.map (·.1)) title (walked s settings modules groupings).2.finished) := by
  unfold generate run
  simp only [Logged.result_bind, bind_assoc]
  refine bind_congr fun modules => ?_
  simp only [result_forM, Logged.result_bind]
  refine bind_congr (m := Except Failure) fun _ => bind_congr fun groupings => bind_congr fun title => ?_
  rcases hwalk : walked s settings modules groupings with ⟨result, built⟩
  unfold walked walkThrough at hwalk
  simp only [hwalk, Logged.result_bind, bind_assoc]
  cases result with
  | error e => rfl
  | ok _ => rfl

/-- Walks that find alike definitions when the uses have been counted end alike. -/
theorem walked_agree {s : Schema} {settings : Settings} {modules : List (Module × Nat)} {groupings : Groupings}
    {t t' : Strategy} (hshares : ∀ qname,
      (prepared s settings modules).shares ⟨s, groupings, t, settings.levelLimit⟩ qname =
        (prepared s settings modules).shares ⟨s, groupings, t', settings.levelLimit⟩ qname) :
    (walked s { settings with strategy := t } modules groupings).1 =
        (walked s { settings with strategy := t' } modules groupings).1 ∧
      (walked s { settings with strategy := t } modules groupings).2.finished =
        (walked s { settings with strategy := t' } modules groupings).2.finished := by
  have hwalked : ∀ t : Strategy, walked s { settings with strategy := t } modules groupings =
      ((modules.forM fun (_, i) => processModule s i) >>= fun _ => modules.forM fun (_, i) =>
        visitModule ⟨(Scope.mk s groupings .unpacking settings.levelLimit).under t,
          modules.map fun m : Module × Nat => m.1.name⟩ settings i) { document := emptyDocument settings } :=
    fun _ => rfl
  rw [hwalked t, hwalked t', run_bind, run_bind]
  unfold prepared at hshares
  rcases hpre : (modules.forM fun (_, i) => processModule s i) { document := emptyDocument settings } with
    ⟨e | u, d⟩
  · simp only [hpre, and_self]
  · simp only [hpre] at hshares ⊢
    have hsimilar : Similar ⟨s, groupings, .unpacking, settings.levelLimit⟩ t t' d d :=
      ⟨rfl, rfl, rfl, rfl, fun _ => rfl, fun _ => .rfl, fun _ => .rfl, hshares⟩
    have hselected : ∀ name, (modules.map (·.1.name)).contains name = (modules.map (·.1.name)).contains name :=
      fun _ => rfl
    have hagree := visitModules_agree hselected settings modules hsimilar
    exact ⟨hagree.result, hagree.states.finished⟩

/-- Strategies that share the same groupings generate the same, or fail alike. -/
theorem generate_eq_of_shares (s : Schema) (names : List Name) (settings : Settings) (t t' : Strategy)
    (hshares : ∀ groupings modules, (select s names).result = .ok modules → ∀ qname,
      (prepared s settings modules).shares ⟨s, groupings, t, settings.levelLimit⟩ qname =
        (prepared s settings modules).shares ⟨s, groupings, t', settings.levelLimit⟩ qname) :
    (generate s names { settings with strategy := t }).result =
      (generate s names { settings with strategy := t' }).result := by
  rw [result_generate, result_generate]
  refine bind_congr_ok fun modules hmodules => bind_congr_ok fun _ _ => bind_congr_ok fun groupings _ =>
    bind_congr_ok fun title _ => ?_
  obtain ⟨hresult, hfinished⟩ := walked_agree (hshares groupings modules hmodules)
  rw [hresult, hfinished]
  rfl

/-- Where no grouping is used more than once in what is counted, the strategies generate the same, or fail
alike. -/
theorem generate_eq_of_unshared (s : Schema) (names : List Name) (settings : Settings)
    (hunshared : ∀ modules, (select s names).result = .ok modules → ∀ qname,
      (prepared s settings modules).usageCount qname ≤ 1) :
    (generate s names { settings with strategy := .optimizing }).result =
      (generate s names { settings with strategy := .unpacking }).result := by
  refine generate_eq_of_shares s names settings _ _ fun groupings modules hmodules qname => ?_
  have hcount := hunshared modules hmodules qname
  simp [shares, isShared, hcount]

end Generation

/-! ### A grouping that is used once -/

open Example Generation Definitions

/-- A container and the input of an rpc that use different groupings, one of them with a container in it. -/
def Example.usedOnce : Datum :=
  document [("groupings", [grouping "g" [leaf "l", container "c" [] [leaf "k"]], grouping "h" [leaf "n"]]),
    ("data", [container "x" ["g"]]), ("rpcs", [rpc "r" ["h"]])]

theorem generate_eq_of_unshared_once :
    ∃ s modules, (Schema.load Example.usedOnce).result = .ok s ∧ (select s [.text "m"]).result = .ok modules ∧
      (∀ qname, (prepared s {} modules).usageCount qname ≤ 1) ∧ (prepared s {} modules).usageCount "m:g" = 1 ∧
      (generate s [.text "m"] { strategy := .optimizing }).result =
        (generate s [.text "m"] { strategy := .unpacking }).result := by
  have htest : ((Schema.load Example.usedOnce).result.toOption.any fun s =>
      (select s [.text "m"]).result.toOption.any fun modules =>
        decide ((prepared s {} modules).usages = [("m:g", 1), ("m:h", 1)])) = true := by
    decide +kernel
  obtain ⟨s, hload, htest⟩ := exists_of_any htest
  obtain ⟨modules, hselect, htest⟩ := exists_of_any htest
  have hone : ∀ qname, (prepared s {} modules).usageCount qname ≤ 1 := by
    intro qname
    rw [usageCount, of_decide_eq_true htest]
    simp only [Entries.get?]
    split
    · decide
    · split <;> decide
  refine ⟨s, modules, hload, hselect, hone, ?_, ?_⟩
  · rw [usageCount, of_decide_eq_true htest]
    rfl
  · refine generate_eq_of_unshared s [.text "m"] {} fun modules' hmodules => ?_
    obtain rfl := Except.ok.inj (hselect.symm.trans hmodules)
    exact hone

end RestconfApi
