import RestconfApi.Generate
import RestconfApi.Proofs.Building
import RestconfApi.Proofs.Path.Segments

/-!
# Generation: routes

A walk comes to a node of a data tree on a route: the containers, lists and choices that it passes on the way, one on
each level. The segment, the handler and the levels left at a node depend on the route alone, so that whatever the
steps of a walk keep at the end of each route is kept by the walk.
-/

namespace RestconfApi.Generation

open Building

/-! ### Routes -/

/-- The nodes passed on the way to a node of the data of the `i`-th module, the innermost first. Below a container or
a list the way leads to its children, below a choice to those of its cases. -/
inductive Route (s : Schema) (i : Nat) : Place → List Place → Prop
  | top {p : Place} : p ∈ s.tops i .data → Route s i p []
  | inside {q x : Place} {passed : List Place} {j : Nat} : Route s i q passed → q.node.kind.isStructural = true →
      q.childAt? j = some x → Route s i x (q :: passed)
  | through {q y x : Place} {passed : List Place} {j k : Nat} : Route s i q passed → q.node.kind = .choice →
      q.childAt? j = some y → y.childAt? k = some x → Route s i x (q :: passed)

/-- The segment at the end of a route. -/
def routeSegment (root : Name) (passed : List Place) : Segment := Schema.segmentOf root (passed.map (·.node))

theorem routeSegment_cons {root : Name} {q : Place} {passed : List Place} (hk : q.node.kind.isStructural = true) :
    routeSegment root (q :: passed) = (routeSegment root passed).push q.node.name q.node.owner (!q.node.config)
      (if q.node.kind = .list then q.node.keys.map Datum.text else []) 0 := by
  rw [routeSegment, List.map_cons, Schema.segmentOf, if_pos hk, routeSegment]

theorem routeSegment_cons_of_not {root : Name} {q : Place} {passed : List Place}
    (hk : ¬q.node.kind.isStructural = true) : routeSegment root (q :: passed) = routeSegment root passed := by
  rw [routeSegment, List.map_cons, Schema.segmentOf, if_neg hk, routeSegment]

/-- The handler at the end of a route, which knows the containers and lists on it. -/
def routeHandler (h : Handler) (root : Name) : List Place → Handler
  | [] => h
  | q :: passed =>
    if q.node.kind.isStructural then (routeHandler h root passed).withOwner q (routeSegment root (q :: passed))
    else routeHandler h root passed

/-- A container or a list that a walk comes to on a route: the selected modules own it and what has been passed, and
there is a level left. -/
structure IsOnWalk (s : Schema) (selected : List Name) (limit : Option Nat) (i : Nat) (p : Place)
    (passed : List Place) : Prop where
  route : Route s i p passed
  structural : p.node.kind.isStructural = true
  selected : ∀ q ∈ p :: passed, selected.contains q.node.owner = true
  level : ∀ l, limit = some l → passed.length < l

/-- On its way a walk adds the operations of data, with the handler that knows the node as well. -/
theorem IsOnWalk.emit_eq {s : Schema} {selected : List Name} {limit : Option Nat} {i : Nat} {p : Place}
    {passed : List Place} (hp : IsOnWalk s selected limit i p passed) (c : Scope) (h : Handler) (root : Name) :
    (routeHandler h root passed).emit c p (routeSegment root (p :: passed)) =
      (routeHandler h root (p :: passed)).dataPath c p (routeSegment root (p :: passed)) := by
  have hkind : p.node.kind ≠ .rpc := by
    intro hrpc
    have := hp.structural
    simp [hrpc, Kind.isStructural] at this
  rw [routeHandler, if_pos hp.structural]
  exact if_neg hkind

theorem Route.has {s : Schema} {i : Nat} {p : Place} {passed : List Place} (h : Route s i p passed) : s.Has p := by
  induction h with
  | top hp => exact Schema.has_of_mem_tops hp
  | inside _ _ hx ih => exact ih.childAt? hx
  | through _ _ hy hx ih => exact (ih.childAt? hy).childAt? hx

theorem Route.part {s : Schema} {i : Nat} {p : Place} {passed : List Place} (h : Route s i p passed) :
    p.address.part = .data := by
  induction h with
  | top hp => exact Schema.part_of_mem_tops hp
  | inside _ _ hx ih => exact (Place.part_of_childAt? hx).trans ih
  | through _ _ hy hx ih => exact (Place.part_of_childAt? hx).trans ((Place.part_of_childAt? hy).trans ih)

theorem Route.module {s : Schema} {i : Nat} {p : Place} {passed : List Place} (h : Route s i p passed) :
    p.address.module = i := by
  induction h with
  | top hp =>
    obtain ⟨j, haddr⟩ := Schema.address_of_mem_tops hp
    rw [haddr]
  | inside _ _ hx ih => rw [Place.address_of_childAt? hx]; exact ih
  | through _ _ hy hx ih => rw [Place.address_of_childAt? hx, Place.address_of_childAt? hy]; exact ih

/-- What stands on a route has one of its own. -/
theorem Route.of_mem {s : Schema} {i : Nat} {p q : Place} {passed : List Place} (h : Route s i p passed)
    (hq : q ∈ passed) : ∃ before after, passed = before ++ q :: after ∧ Route s i q after := by
  have key : ∀ {r : Place} {rest : List Place}, Route s i r rest →
      (q ∈ rest → ∃ before after, rest = before ++ q :: after ∧ Route s i q after) → q ∈ r :: rest →
      ∃ before after, r :: rest = before ++ q :: after ∧ Route s i q after := by
    intro r rest hr ih hmem
    rcases List.mem_cons.mp hmem with rfl | hmem
    · exact ⟨[], rest, rfl, hr⟩
    · obtain ⟨before, after, rfl, hroute⟩ := ih hmem
      exact ⟨r :: before, after, rfl, hroute⟩
  induction h with
  | top _ => simp at hq
  | inside hroute _ _ ih => exact key hroute ih hq
  | through hroute _ _ _ ih => exact key hroute ih hq

theorem has_of_mem_owners {s : Schema} {h : Handler} {root : Name} {passed : List Place} (hh : h.owners = [])
    (hpassed : ∀ q ∈ passed, s.Has q) : ∀ e ∈ (routeHandler h root passed).owners, s.Has e.2 := by
  induction passed with
  | nil => simp [routeHandler, hh]
  | cons q passed ih =>
    obtain ⟨hq, hpassed⟩ := List.forall_mem_cons.mp hpassed
    rw [routeHandler]
    split
    · intro e he
      rcases Entries.snd_of_mem_put he with heq | he
      · exact heq ▸ hq
      · exact ih hpassed e he
    · exact ih hpassed

/-- What the handler knows where a walk adds operations are nodes of the schema. -/
theorem IsOnWalk.has_of_mem_owners {s : Schema} {selected : List Name} {limit : Option Nat} {i : Nat} {p : Place}
    {passed : List Place} (hp : IsOnWalk s selected limit i p passed) (rules : List TagRule) (root : Name) :
    ∀ e ∈ (routeHandler (Handler.ofRules rules) root (p :: passed)).owners, s.Has e.2 := by
  refine Generation.has_of_mem_owners rfl (List.forall_mem_cons.mpr ⟨hp.route.has, fun q hq => ?_⟩)
  obtain ⟨-, after, -, hroute⟩ := hp.route.of_mem hq
  exact hroute.has

/-! ### Steps -/

/-- What a walk does one after the other: it notes something, refuses a node whose owner is no key, adds the operations
of a node at the end of a route when it comes there and defines the node when it leaves, and adds the operation of an
rpc. -/
inductive Step where
  | note (level : Level) (text : String)
  | refuse
  | enter (p : Place) (passed : List Place)
  | leave (p : Place)
  | invoke (rpc : Place)

/-- Takes a step in the module of a name. -/
def Step.take (w : Walk) (h : Handler) (root : Name) : Step → Building Unit
  | .note level text => Building.note level text
  | .refuse => fail .wrongType
  | .enter p passed => (routeHandler h root passed).emit w.scope p (routeSegment root (p :: passed))
  | .leave p => do
    let _ ← Definitions.define w.scope p
  | .invoke rpc => h.emit w.scope rpc ((Segment.root root 0).push rpc.node.name root false [] 0)

/-- The steps that a walk through the elements of the `i`-th module may take. -/
inductive IsStep (w : Walk) (elements : List Element) (limit : Option Nat) (i : Nat) : Step → Prop
  | note {level : Level} {text : String} : level ≠ .warning → IsStep w elements limit i (.note level text)
  | refuse : IsStep w elements limit i .refuse
  | enter {p : Place} {passed : List Place} : .data ∈ elements →
      IsOnWalk w.scope.schema w.selected limit i p passed → IsStep w elements limit i (.enter p passed)
  | leave {p : Place} {passed : List Place} : .data ∈ elements →
      IsOnWalk w.scope.schema w.selected limit i p passed → IsStep w elements limit i (.leave p)
  | invoke {rpc : Place} : .rpc ∈ elements → rpc ∈ w.scope.schema.tops i .rpcs →
      IsStep w elements limit i (.invoke rpc)

/-- Some steps that may be taken, one after the other, which leave every node that they enter. They are the same
whatever the scope is, as long as the schema is that of the walk. -/
def TakesSteps (w : Walk) (h : Handler) (root : Name) (elements : List Element) (limit : Option Nat) (i : Nat)
    (x : Scope → Building Unit) : Prop :=
  ∃ steps : List Step,
    (∀ c : Scope, c.schema = w.scope.schema → x c = steps.forM (Step.take ⟨c, w.selected⟩ h root)) ∧
      (∀ step ∈ steps, IsStep w elements limit i step) ∧ ∀ p passed, .enter p passed ∈ steps → .leave p ∈ steps

section

variable {w : Walk} {h : Handler} {root : Name} {elements : List Element} {limit : Option Nat} {i : Nat}

theorem takesSteps_pure : TakesSteps w h root elements limit i fun _ => pure () :=
  ⟨[], fun _ _ => rfl, by simp, by simp⟩

theorem takesSteps_take {step : Step} (hstep : IsStep w elements limit i step)
    (hother : ∀ p passed, .enter p passed ≠ step) :
    TakesSteps w h root elements limit i fun c => step.take ⟨c, w.selected⟩ h root := by
  refine ⟨[step], fun c _ => (bind_pure_unit (x := step.take ⟨c, w.selected⟩ h root)).symm, by simpa using hstep,
    fun p passed hmem => ?_⟩
  exact absurd (List.mem_singleton.mp hmem) (hother p passed)

theorem TakesSteps.bind {x y : Scope → Building Unit} (hx : TakesSteps w h root elements limit i x)
    (hy : TakesSteps w h root elements limit i y) : TakesSteps w h root elements limit i fun c => (do x c; y c) := by
  obtain ⟨steps, hx, hsteps, hleft⟩ := hx
  obtain ⟨more, hy, hmore, hleft'⟩ := hy
  refine ⟨steps ++ more, fun c hc => ?_, fun step hstep => ?_, fun p passed hmem => ?_⟩
  · exact (congrArg₂ (fun x y : Building Unit => (do x; y)) (hx c hc) (hy c hc)).trans List.forM_append.symm
  · exact (List.mem_append.mp hstep).elim (hsteps step) (hmore step)
  · rcases List.mem_append.mp hmem with hmem | hmem
    · exact List.mem_append_left _ (hleft p passed hmem)
    · exact List.mem_append_right _ (hleft' p passed hmem)

/-- A node is entered before what is done below it, and left after that. -/
theorem TakesSteps.around {p : Place} {passed : List Place} (hdata : .data ∈ elements)
    (hwalk : IsOnWalk w.scope.schema w.selected limit i p passed) {x : Scope → Building Unit}
    (hx : TakesSteps w h root elements limit i x) :
    TakesSteps w h root elements limit i fun c => (do
      (Step.enter p passed).take ⟨c, w.selected⟩ h root
      x c
      (Step.leave p).take ⟨c, w.selected⟩ h root) := by
  obtain ⟨steps, hx, hsteps, hleft⟩ := hx
  refine ⟨.enter p passed :: (steps ++ [.leave p]), fun c hc => ?_, fun step hstep => ?_, fun q above hmem => ?_⟩
  · show (do
      (Step.enter p passed).take ⟨c, w.selected⟩ h root
      x c
      (Step.leave p).take ⟨c, w.selected⟩ h root) = do
        (Step.enter p passed).take ⟨c, w.selected⟩ h root
        (steps ++ [Step.leave p]).forM (Step.take ⟨c, w.selected⟩ h root)
    rw [forM_concat, hx c hc]
  · rcases List.mem_cons.mp hstep with rfl | hstep
    · exact .enter hdata hwalk
    · rcases List.mem_append.mp hstep with hstep | hstep
      · exact hsteps step hstep
      · exact List.mem_singleton.mp hstep ▸ .leave hdata hwalk
  · rcases List.mem_cons.mp hmem with heq | hmem
    · obtain ⟨rfl, -⟩ := Step.enter.inj heq
      simp
    · rcases List.mem_append.mp hmem with hmem | hmem
      · exact List.mem_cons_of_mem _ (List.mem_append_left _ (hleft q above hmem))
      · cases List.mem_singleton.mp hmem

theorem takesSteps_note {level : Level} {text : String} (hlevel : level ≠ .warning) :
    TakesSteps w h root elements limit i fun _ => note level text := takesSteps_take (.note hlevel) (by simp)

theorem takesSteps_ite {p : Prop} {decide : Scope → Decidable p} {x y : Scope → Building Unit}
    (hx : p → TakesSteps w h root elements limit i x) (hy : ¬p → TakesSteps w h root elements limit i y) :
    TakesSteps w h root elements limit i fun c => @ite (Building Unit) p (decide c) (x c) (y c) := by
  by_cases hp : p
  · simpa only [if_pos hp] using hx hp
  · simpa only [if_neg hp] using hy hp

theorem takesSteps_forM {α : Type} {f : Scope → α → Building Unit} {l : List α}
    (hl : ∀ x ∈ l, TakesSteps w h root elements limit i fun c => f c x) :
    TakesSteps w h root elements limit i fun c => l.forM (f c) := by
  induction l with
  | nil => exact takesSteps_pure
  | cons x l ih => exact (hl x List.mem_cons_self).bind (ih fun y hy => hl y (List.mem_cons_of_mem _ hy))

end

/-- The levels left after some have been passed. -/
def levelsLeft (limit : Option Nat) (passed : List Place) : Option Nat := limit.map (· - passed.length)

theorem deeper_levelsLeft (limit : Option Nat) (q : Place) (passed : List Place) :
    deeper (levelsLeft limit passed) = levelsLeft limit (q :: passed) := by
  cases limit with
  | none => rfl
  | some l => simp [deeper, levelsLeft, Nat.sub_sub]

theorem levelsLeft_ne_zero {limit : Option Nat} {passed : List Place} (hne : levelsLeft limit passed ≠ some 0) :
    ∀ l, limit = some l → passed.length < l := by
  rintro l rfl
  simp only [levelsLeft, Option.map_some, ne_eq, Option.some.injEq] at hne
  omega

section

variable {w : Walk} (h : Handler) (root : Name) {elements : List Element} (limit : Option Nat) {i : Nat}

mutual

/-- A visit takes the steps of the routes that lead on from the node. -/
theorem visit_takesSteps (hdata : .data ∈ elements) (a : Address) (above : List Node) :
    ∀ (n : Node) (passed : List Place), Route w.scope.schema i ⟨a, n, above⟩ passed →
      (∀ q ∈ passed, w.selected.contains q.node.owner = true) →
      TakesSteps w h root elements limit i fun c =>
        visit ⟨c, w.selected⟩ (routeHandler h root passed) (routeSegment root passed) (levelsLeft limit passed) a
          above n
  | ⟨st, cs⟩, passed, hroute, hpassed => by
    unfold visit
    dsimp only
    refine takesSteps_ite (fun _ => takesSteps_note (by simp)) fun hzero => ?_
    refine takesSteps_ite (fun _ => takesSteps_take .refuse (by simp)) fun _ => ?_
    refine takesSteps_ite (fun _ => takesSteps_note (by simp)) fun hother => ?_
    have howner : w.selected.contains st.owner = true := by simpa using hother
    have hpassed' : ∀ q ∈ (⟨a, ⟨st, cs⟩, above⟩ : Place) :: passed, w.selected.contains q.node.owner = true :=
      List.forall_mem_cons.mpr ⟨howner, hpassed⟩
    have hchild : ∀ {j : Nat} {n : Node}, cs[j]? = some n →
        Place.childAt? ⟨a, ⟨st, cs⟩, above⟩ j = some ⟨a.child j, n, ⟨st, cs⟩ :: above⟩ :=
      Place.childAt?_of_getElem? a above st
    rw [deeper_levelsLeft limit ⟨a, ⟨st, cs⟩, above⟩]
    refine takesSteps_ite (fun hk => ?_) fun hk => takesSteps_ite (fun hchoice => ?_) fun _ => takesSteps_pure
    · have hwalk : IsOnWalk w.scope.schema w.selected limit i ⟨a, ⟨st, cs⟩, above⟩ passed :=
        ⟨hroute, hk, hpassed', levelsLeft_ne_zero hzero⟩
      have hsegment : (routeSegment root passed).push st.name st.owner (!st.config)
          (if st.kind = .list then st.keys.map Datum.text else []) 0 =
            routeSegment root (⟨a, ⟨st, cs⟩, above⟩ :: passed) := by
        rw [routeSegment, routeSegment, List.map_cons, Schema.segmentOf, if_pos hk]
      have hhandler : (routeHandler h root passed).withOwner ⟨a, ⟨st, cs⟩, above⟩
          (routeSegment root (⟨a, ⟨st, cs⟩, above⟩ :: passed)) =
            routeHandler h root (⟨a, ⟨st, cs⟩, above⟩ :: passed) := by
        rw [routeHandler, if_pos hk]
      rw [hsegment, hhandler]
      refine (takesSteps_note (by simp)).bind (.around hdata hwalk ?_)
      refine visitAll_takesSteps hdata a _ 0 cs _ (fun j n hj => ?_) hpassed'
      rw [Nat.zero_add]
      exact .inside hroute hk (hchild hj)
    · have hsegment : routeSegment root passed = routeSegment root (⟨a, ⟨st, cs⟩, above⟩ :: passed) := by
        rw [routeSegment, routeSegment, List.map_cons, Schema.segmentOf, if_neg hk]
      have hhandler : routeHandler h root passed = routeHandler h root (⟨a, ⟨st, cs⟩, above⟩ :: passed) := by
        rw [routeHandler, if_neg hk]
      rw [hsegment, hhandler]
      refine (takesSteps_note (by simp)).bind ?_
      refine visitCases_takesSteps hdata a _ 0 cs _ (fun j n hj k x hx => ?_) hpassed'
      rw [Nat.zero_add] at hx
      exact .through hroute hchoice (hchild hj) hx

theorem visitAll_takesSteps (hdata : .data ∈ elements) (a : Address) (above : List Node) (k : Nat) :
    ∀ (ns : List Node) (passed : List Place),
      (∀ j n, ns[j]? = some n → Route w.scope.schema i ⟨a.child (k + j), n, above⟩ passed) →
      (∀ q ∈ passed, w.selected.contains q.node.owner = true) →
      TakesSteps w h root elements limit i fun c => visitAll ⟨c, w.selected⟩ (routeHandler h root passed)
        (routeSegment root passed) (levelsLeft limit passed) a above k ns
  | [], _, _, _ => takesSteps_pure
  | n :: ns, passed, hroutes, hpassed => by
    unfold visitAll
    refine (visit_takesSteps hdata _ above n passed (hroutes 0 n rfl) hpassed).bind ?_
    refine visitAll_takesSteps hdata a above (k + 1) ns passed (fun j m hm => ?_) hpassed
    rw [Nat.add_right_comm, Nat.add_assoc]
    exact hroutes (j + 1) m hm

theorem visitCases_takesSteps (hdata : .data ∈ elements) (a : Address) (above : List Node) (k : Nat) :
    ∀ (ns : List Node) (passed : List Place),
      (∀ j n, ns[j]? = some n → ∀ l x, Place.childAt? ⟨a.child (k + j), n, above⟩ l = some x →
        Route w.scope.schema i x passed) →
      (∀ q ∈ passed, w.selected.contains q.node.owner = true) →
      TakesSteps w h root elements limit i fun c => visitCases ⟨c, w.selected⟩ (routeHandler h root passed)
        (routeSegment root passed) (levelsLeft limit passed) a above k ns
  | [], _, _, _ => takesSteps_pure
  | ⟨st, cs⟩ :: ns, passed, hroutes, hpassed => by
    unfold visitCases
    refine (visitAll_takesSteps hdata (a.child k) (⟨st, cs⟩ :: above) 0 cs passed (fun j n hj => ?_) hpassed).bind ?_
    · rw [Nat.zero_add]
      exact hroutes 0 _ rfl j _ (Place.childAt?_of_getElem? (a.child k) above st hj)
    · refine visitCases_takesSteps hdata a above (k + 1) ns passed (fun j m hm => ?_) hpassed
      rw [Nat.add_right_comm, Nat.add_assoc]
      exact hroutes (j + 1) m hm

end

end

/-- A walk through a module takes the steps of its routes, and those of its rpcs. -/
theorem visitModule_takesSteps {w : Walk} (settings : Settings) {i : Nat} {m : Module}
    (hm : w.scope.schema.modules[i]? = some m) :
    TakesSteps w (Handler.ofRules settings.tagRules) m.name settings.elements settings.walkLimit i fun c =>
      visitModule ⟨c, w.selected⟩ settings i := by
  have hrpcs : TakesSteps w (Handler.ofRules settings.tagRules) m.name settings.elements settings.walkLimit i fun c =>
      if .rpc ∈ settings.elements then
        (w.scope.schema.tops i .rpcs).forM fun rpc => (Handler.ofRules settings.tagRules).emit c rpc
          ((Segment.root m.name 0).push rpc.node.name m.name false [] 0)
      else pure () :=
    takesSteps_ite (fun helement => takesSteps_forM fun rpc hrpc => takesSteps_take (.invoke helement hrpc) (by simp))
      fun _ => takesSteps_pure
  have hdata : TakesSteps w (Handler.ofRules settings.tagRules) m.name settings.elements settings.walkLimit i fun c =>
      if .data ∈ settings.elements then
        visitAll ⟨c, w.selected⟩ (Handler.ofRules settings.tagRules) (Segment.root m.name 0) settings.walkLimit
          (Address.top i .data) [] 0 m.data
      else pure () := by
    refine takesSteps_ite (fun helement => ?_) fun _ => takesSteps_pure
    have hleft : levelsLeft settings.walkLimit [] = settings.walkLimit := by
      unfold levelsLeft
      cases settings.walkLimit <;> rfl
    have hvisit := visitAll_takesSteps (w := w) (Handler.ofRules settings.tagRules) m.name settings.walkLimit (i := i)
      helement (Address.top i .data) [] 0 m.data [] (fun j n hj => ?_) (by simp)
    · rwa [hleft] at hvisit
    · refine .top ?_
      rw [Schema.tops, hm]
      exact Place.mem_ofChildren.mpr ⟨j, n, hj, rfl⟩
  obtain ⟨steps, htakes, hsteps⟩ := hdata.bind hrpcs
  refine ⟨steps, fun c hc => .trans ?_ (htakes c hc), hsteps⟩
  unfold visitModule
  dsimp only
  rw [hc, hm]
  dsimp only
  by_cases helement : Element.data ∈ settings.elements
  · rw [if_pos helement, if_pos helement]
  · rw [if_neg helement, if_neg helement]
    rfl

/-! ### What a walk keeps -/

/-- Notes, failures and what is done at the end of each route keep an invariant. -/
structure Keeps (w : Walk) (h : Handler) (root : Name) (limit : Option Nat) (i : Nat) (I : Definitions → Prop)
    (E : Failure → Definitions → Prop) : Prop where
  noted : ∀ d level text, level ≠ .warning → I d → I { d with records := d.records ++ [⟨level, text⟩] }
  fails : ∀ d, I d → E .wrongType d
  emits : ∀ p passed, IsOnWalk w.scope.schema w.selected limit i p passed → ∀ d, I d →
    ((routeHandler h root passed).emit w.scope p (routeSegment root (p :: passed))).Settles d (fun _ d' => I d') E
  defines : ∀ p passed, IsOnWalk w.scope.schema w.selected limit i p passed → ∀ d, I d →
    (Definitions.define w.scope p).Settles d (fun _ d' => I d') E

variable {w : Walk} {i : Nat} {I : Definitions → Prop} {E : Failure → Definitions → Prop} {d : Definitions}

/-- What is done for the data and the rpcs of the `i`-th module keeps an invariant. -/
structure KeepsModule (w : Walk) (settings : Settings) (i : Nat) (I : Definitions → Prop)
    (E : Failure → Definitions → Prop) : Prop where
  data : ∀ m, w.scope.schema.modules[i]? = some m →
    Keeps w (Handler.ofRules settings.tagRules) m.name settings.walkLimit i I E
  rpcs : ∀ m, w.scope.schema.modules[i]? = some m → ∀ rpc ∈ w.scope.schema.tops i .rpcs, ∀ d, I d →
    ((Handler.ofRules settings.tagRules).emit w.scope rpc
      ((Segment.root m.name 0).push rpc.node.name m.name false [] 0)).Settles d (fun _ d' => I d') E

theorem KeepsModule.take_settles {settings : Settings} (hkeeps : KeepsModule w settings i I E) {m : Module}
    (hm : w.scope.schema.modules[i]? = some m) {step : Step}
    (hstep : IsStep w settings.elements settings.walkLimit i step) (hd : I d) :
    (step.take w (Handler.ofRules settings.tagRules) m.name).Settles d (fun _ d' => I d') E := by
  have hdata := hkeeps.data m hm
  cases hstep with
  | note hlevel => exact settles_note (hdata.noted d _ _ hlevel hd)
  | refuse => exact settles_fail (hdata.fails d hd)
  | enter _ hwalk => exact hdata.emits _ _ hwalk d hd
  | leave _ hwalk => exact (hdata.defines _ _ hwalk d hd).bind fun _ _ hd' => settles_pure hd'
  | invoke _ hrpc => exact hkeeps.rpcs m hm _ hrpc d hd

theorem visitModule_settles {settings : Settings} (hkeeps : KeepsModule w settings i I E) (hd : I d) :
    (visitModule w settings i).Settles d (fun _ d' => I d') E := by
  cases hm : w.scope.schema.modules[i]? with
  | none =>
    unfold visitModule
    rw [hm]
    exact settles_pure hd
  | some m =>
    obtain ⟨steps, hvisit, hsteps, -⟩ := visitModule_takesSteps settings hm
    have hvisit : visitModule w settings i = _ := hvisit w.scope rfl
    rw [hvisit]
    exact settles_forM I hd fun step hstep d hd => hkeeps.take_settles hm (hsteps step hstep) hd

theorem visitModules_settles {settings : Settings} {modules : List (Module × Nat)}
    (hkeeps : ∀ m ∈ modules, KeepsModule w settings m.2 I E) (hd : I d) :
    (modules.forM fun (_, i) => visitModule w settings i).Settles d (fun _ d' => I d') E :=
  settles_forM I hd fun m hm _ hd => visitModule_settles (hkeeps m hm) hd

end RestconfApi.Generation
