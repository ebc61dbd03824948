import RestconfApi.Proofs.Definitions.Bounding
import RestconfApi.Proofs.Definitions.Standing
import RestconfApi.Proofs.Generation.Agreement
import RestconfApi.Proofs.Generation.Bounds
import RestconfApi.Proofs.Schema.Additions

/-!
# Generation: a limit that cuts nothing

A limit shows in two places: the walk stops at it, and containers and lists that stand for nodes which are not walked
over stay untyped unless these lie within it. When all nodes are above the limit the walk does not come to it. Then what
stands for a node of the selected modules lies within the limit, and so does all that is defined on its account, unless
it stands in a payload itself.
-/

namespace RestconfApi

open Definitions Building

namespace Logged

variable {α β : Type}

/-- What follows a step has to agree on its result only. -/
theorem bind_congr_ok {x : Logged α} {f g : α → Logged β} (h : ∀ a, x.result = .ok a → f a = g a) :
    x >>= f = x >>= g := by
  obtain ⟨records, result⟩ := x
  cases result with
  | error e => rfl
  | ok a =>
    show Logged.bind _ f = Logged.bind _ g
    simp only [Logged.bind, h a rfl]

end Logged

/-! ### Operations -/

namespace Handler

variable {c : Scope} {limit : Option Nat} {u d e : Definitions} {S : Place → Prop} (h : Handler)

theorem reference_within (p : Place) : (reference c p).Within SameCounts := by
  unfold reference
  refine (within_get isCourse_sameCounts).bind isCourse_sameCounts fun d => ?_
  split
  · exact within_pure isCourse_sameCounts _
  · exact within_pure isCourse_sameCounts _

theorem addOperation_within (path method : String) (o : Operation) :
    (addOperation path method o).Within SameCounts := within_modify fun _ => ⟨rfl, rfl, rfl, rfl⟩

theorem dataPath_within (p : Place) (s : Segment) : (h.dataPath c p s).Within SameCounts := by
  have hcourse := isCourse_sameCounts
  have hparameter : ∀ q : PathParameter, (h.pathParameter c q).Within SameCounts := by
    intro q
    unfold pathParameter
    dsimp only
    split
    · exact (within_ofLogged hcourse _).bind hcourse fun property => within_pure hcourse _
    · exact (within_pure hcourse _).bind hcourse fun property => within_pure hcourse _
  have hoperation : ∀ (path : String) (method : String) (o : String → Operation), (do
      let id ← ofLogged (.ofExcept (s.operationId? method))
      addOperation path method (o id)).Within SameCounts := fun path method o =>
    (within_ofLogged hcourse _).bind hcourse fun id => addOperation_within path method _
  unfold dataPath
  refine (within_ofLogged hcourse _).bind hcourse fun path => ?_
  refine (within_mapM hcourse fun q _ => hparameter q).bind hcourse fun parameters => ?_
  refine (reference_within p).bind hcourse fun property => ?_
  dsimp only
  simp only [bind_assoc, pure_bind]
  refine (within_ofLogged hcourse _).bind hcourse fun id => (addOperation_within _ _ _).bind hcourse fun _ => ?_
  refine within_ite (within_pure hcourse _) ?_
  refine (within_forM hcourse fun w _ => ?_).bind hcourse fun _ => hoperation _ _ _
  unfold body
  exact ((reference_within p).bind hcourse fun property => within_pure hcourse _).bind hcourse fun q =>
    hoperation _ _ _

section

variable (hS : Spares c u limit S) (hunbounded : c.maxLevel = none)
include hS hunbounded

theorem rpcPath_abreast {rpc : Place} (hrpc : ∀ p ∈ rpc.children, S (u.canonical c p)) (s : Segment)
    (hd : Abreast u d e) : Agree (Abreast u) (h.rpcPath (c.bounded limit) rpc s) (h.rpcPath c rpc s) d e := by
  have hdefine := define_abreast hS hunbounded
  have hinput : Agree (Abreast u) (inputParameters (c.bounded limit) rpc) (inputParameters c rpc) d e := by
    unfold inputParameters
    split
    · rename_i p hp
      exact agree_bind (hdefine p d e (hrpc p (payload?_eq_some hp).1) hd) fun _ _ _ h' => agree_pure h'
    · exact agree_pure hd
  have houtput : ∀ {d e : Definitions}, Abreast u d e →
      Agree (Abreast u) (outputResponse (c.bounded limit) rpc) (outputResponse c rpc) d e := by
    intro d e hd
    unfold outputResponse
    split
    · rename_i p hp
      exact agree_bind (hdefine p d e (hrpc p (payload?_eq_some hp).1) hd) fun _ _ _ h' => agree_pure h'
    · exact agree_pure hd
  unfold rpcPath
  refine agree_bind hinput fun parameters d₁ e₁ h₁ => ?_
  refine agree_bind (houtput h₁) fun response d₂ e₂ h₂ => ?_
  refine agree_bind (agree_ofLogged (h₂.noted _)) fun path d₃ e₃ h₃ => ?_
  refine agree_bind (agree_ofLogged (h₃.noted _)) fun id d₄ e₄ h₄ => ?_
  exact agree_of_within (addOperation_within _ _ _) h₄

theorem emit_abreast {p : Place} (hp : p.node.kind = .rpc → ∀ q ∈ p.children, S (u.canonical c q)) (s : Segment)
    (hd : Abreast u d e) : Agree (Abreast u) (h.emit (c.bounded limit) p s) (h.emit c p s) d e := by
  unfold emit
  exact agree_ite (fun hk => rpcPath_abreast _ hS hunbounded (hp hk) s hd) fun _ =>
    agree_of_within (dataPath_within _ p s) hd

end

end Handler

/-! ### The walk -/

namespace Generation

def Walk.bounded (w : Walk) (limit : Option Nat) : Walk := { w with scope := w.scope.bounded limit }

/-- The number of levels around the children of some nodes. -/
def levels (above : List Node) : Nat := (above.filter (·.kind ≠ .case)).length

theorem levels_cons_of_ne {n : Node} (h : n.kind ≠ .case) (above : List Node) :
    levels (n :: above) = levels above + 1 := by
  rw [levels, List.filter_cons_of_pos (by simpa using h)]
  rfl

theorem le_levels_cons (n : Node) (above : List Node) : levels above ≤ levels (n :: above) := by
  rw [levels, levels, List.filter_cons]
  split <;> simp

/-- No data node lies at a deeper level. -/
def IsDeepest (s : Schema) (level : Nat) : Prop :=
  ∀ p, s.Has p → p.address.part = .data → p.level ≤ level

/-- The levels that are left below some nodes are enough for the deepest one. -/
def Suffices (s : Schema) (left : Option Nat) (above : List Node) : Prop :=
  ∀ l, left = some l → IsDeepest s (l + levels above)

theorem IsDeepest.mono {s : Schema} {l l' : Nat} (h : IsDeepest s l) (hle : l ≤ l') : IsDeepest s l' :=
  fun p hp hpart => Nat.le_trans (h p hp hpart) hle

theorem Suffices.ne_zero {s : Schema} {left : Option Nat} {a : Address} {n : Node} {above : List Node}
    (h : Suffices s left above) (hp : s.Has ⟨a, n, above⟩) (hpart : a.part = .data) : left ≠ some 0 := fun hzero => by
  have hlevel : levels above + 1 ≤ 0 + levels above := h 0 hzero _ hp hpart
  omega

theorem Suffices.deeper {s : Schema} {left : Option Nat} {above : List Node} (h : Suffices s left above) {n : Node}
    (hn : n.kind ≠ .case) : Suffices s (deeper left) (n :: above) := by
  intro l hl
  obtain ⟨l, rfl, rfl⟩ := Option.map_eq_some_iff.mp hl
  refine (h l rfl).mono ?_
  rw [levels_cons_of_ne hn]
  omega

theorem Suffices.cons {s : Schema} {left : Option Nat} {above : List Node} (h : Suffices s left above) (n : Node) :
    Suffices s left (n :: above) := fun l hl =>
  (h l hl).mono (Nat.add_le_add_left (le_levels_cons n above) l)

section

variable {c : Scope} {limit : Option Nat} {u : Definitions} {S : Place → Prop} {selected : List Name} {i : Nat}

theorem Visitable.child {s : Schema} {complete : Prop} {a : Address} {st : Statement} {cs above : List Node}
    (h : Visitable s selected complete ⟨a, ⟨st, cs⟩, above⟩) (hwalked : Place.isWalked ⟨a, ⟨st, cs⟩, above⟩ = true)
    {j : Nat} {n : Node} (hn : cs[j]? = some n) :
    Visitable s selected complete ⟨a.child (0 + j), n, ⟨st, cs⟩ :: above⟩ ∧
      Place.isWalked ⟨a.child (0 + j), n, ⟨st, cs⟩ :: above⟩ = true := by
  rw [Nat.zero_add]
  exact h.childAt? hwalked (Place.childAt?_of_getElem? a above st hn)

/-- What stands for the nodes in the data of the `i`-th module is in a set. -/
def HoldsInData (c : Scope) (u : Definitions) (i : Nat) (S : Place → Prop) : Prop :=
  ∀ p, c.schema.Has p → p.address.part = .data → p.address.module = i → p.isWalked = true → S (u.canonical c p)

mutual

/-- A visit with at least as many levels to go as there are does not come to the end of them. -/
theorem visit_abreast (hS : Spares c u limit S) (hunbounded : c.maxLevel = none) (hholds : HoldsInData c u i S)
    (h : Handler) (seg : Segment) {left : Option Nat} (a : Address) (above : List Node) (hpart : a.part = .data)
    (hmodule : a.module = i) (hl : Suffices c.schema left above) :
    ∀ (n : Node) (d e : Definitions), Visitable c.schema selected False ⟨a, n, above⟩ → Abreast u d e →
      Agree (Abreast u) (visit ⟨c.bounded limit, selected⟩ h seg left a above n)
        (visit ⟨c, selected⟩ h seg none a above n) d e
  | ⟨st, cs⟩, d, e, hv, hd => by
    unfold visit
    dsimp only
    rw [if_neg (hl.ne_zero hv.has hpart), if_neg (show (none : Option Nat) ≠ some 0 from nofun)]
    refine agree_ite (fun _ => agree_fail hd) fun _ => agree_ite (fun _ => agree_note (hd.noted _)) fun _ =>
      agree_ite (fun hk => ?_) fun _ => agree_ite (fun hk => ?_) fun _ => agree_pure hd
    · have hcase : st.kind ≠ .case := fun hcase => by simp [hcase, Kind.isStructural] at hk
      have hrpc : st.kind ≠ .rpc := fun hrpc => by simp [hrpc, Kind.isStructural] at hk
      have hwalk := hv.walked (.inl hk)
      refine agree_bind (agree_note (hd.noted _)) fun _ d₁ e₁ h₁ => ?_
      refine agree_bind (Handler.emit_abreast h hS hunbounded (fun hk => absurd hk hrpc) _ h₁) fun _ d₂ e₂ h₂ => ?_
      refine agree_bind (visitAll_abreast hS hunbounded hholds _ _ a _ 0 hpart hmodule
        (hl.deeper (n := ⟨st, cs⟩) hcase) cs d₂ e₂ (fun j n hn => (hv.child hwalk hn).1) h₂) fun _ d₃ e₃ h₃ => ?_
      exact agree_bind (define_abreast hS hunbounded _ d₃ e₃ (hholds _ hv.has hpart hmodule hwalk) h₃)
        fun _ _ _ h₄ => agree_pure h₄
    · have hcase : st.kind ≠ .case := fun hcase => by simp [hcase] at hk
      refine agree_bind (agree_note (hd.noted _)) fun _ d₁ e₁ h₁ => ?_
      exact visitCases_abreast hS hunbounded hholds h seg a _ 0 hpart hmodule (hl.deeper (n := ⟨st, cs⟩) hcase) cs d₁
        e₁ (fun j n hn => hv.child (hv.walked (.inr hk)) hn) h₁

theorem visitAll_abreast (hS : Spares c u limit S) (hunbounded : c.maxLevel = none) (hholds : HoldsInData c u i S)
    (h : Handler) (seg : Segment) {left : Option Nat} (a : Address) (above : List Node) (k : Nat)
    (hpart : a.part = .data) (hmodule : a.module = i) (hl : Suffices c.schema left above) :
    ∀ (ns : List Node) (d e : Definitions),
      (∀ j n, ns[j]? = some n → Visitable c.schema selected False ⟨a.child (k + j), n, above⟩) → Abreast u d e →
      Agree (Abreast u) (visitAll ⟨c.bounded limit, selected⟩ h seg left a above k ns)
        (visitAll ⟨c, selected⟩ h seg none a above k ns) d e
  | [], d, e, _, hd => by
    unfold visitAll
    exact agree_pure hd
  | n :: ns, d, e, hns, hd => by
    unfold visitAll
    refine agree_bind (visit_abreast hS hunbounded hholds h seg (a.child k) above hpart hmodule hl n d e (hns 0 n rfl)
      hd) fun _ d₁ e₁ h₁ => ?_
    refine visitAll_abreast hS hunbounded hholds h seg a above (k + 1) hpart hmodule hl ns d₁ e₁ (fun j m hm => ?_)
      h₁
    rw [Nat.add_right_comm, Nat.add_assoc]
    exact hns (j + 1) m hm

theorem visitCases_abreast (hS : Spares c u limit S) (hunbounded : c.maxLevel = none) (hholds : HoldsInData c u i S)
    (h : Handler) (seg : Segment) {left : Option Nat} (a : Address) (above : List Node)
    (k : Nat) (hpart : a.part = .data) (hmodule : a.module = i) (hl : Suffices c.schema left above) :
    ∀ (ns : List Node) (d e : Definitions),
      (∀ j n, ns[j]? = some n → Visitable c.schema selected False ⟨a.child (k + j), n, above⟩ ∧
        Place.isWalked ⟨a.child (k + j), n, above⟩ = true) → Abreast u d e →
      Agree (Abreast u) (visitCases ⟨c.bounded limit, selected⟩ h seg left a above k ns)
        (visitCases ⟨c, selected⟩ h seg none a above k ns) d e
  | [], d, e, _, hd => by
    unfold visitCases
    exact agree_pure hd
  | ⟨st, cs⟩ :: ns, d, e, hns, hd => by
    unfold visitCases
    obtain ⟨hv, hwalk⟩ := hns 0 _ rfl
    refine agree_bind (visitAll_abreast hS hunbounded hholds h seg (a.child k) (⟨st, cs⟩ :: above) 0 hpart hmodule
      (hl.cons _) cs d e (fun j n hn => (hv.child hwalk hn).1) hd) fun _ d₁ e₁ h₁ => ?_
    refine visitCases_abreast hS hunbounded hholds h seg a above (k + 1) hpart hmodule hl ns d₁ e₁ (fun j m hm => ?_)
      h₁
    rw [Nat.add_right_comm, Nat.add_assoc]
    exact hns (j + 1) m hm

end

end

/-! ### What lies within a limit -/

/-- All containers and lists that a payload has of its own, no shared grouping supplying them, are stood for by
others. -/
def IsPlain (c : Scope) (u : Definitions) (p : Place) : Prop :=
  ∀ x ∈ p.dataChildren, supplier? c u p.node x = none → x.node.kind.isStructural = true → u.canonical c x ≠ x

/-- What a limit must not do to the schema: to leave out data, or what stands for nodes that are passed over or for
choices and cases with flags of their own, or what stands in payloads itself. -/
structure IsHarmless (c : Scope) (u : Definitions) (modules : List (Module × Nat)) (settings : Settings) : Prop where
  levels : ∀ l, settings.walkLimit = some l → IsDeepest c.schema l
  bound : c.strategy = .optimizing → ∀ l, settings.levelLimit = some l → IsDeepest c.schema l
  flags : c.strategy = .optimizing → c.schema.IsNamed ∧ c.schema.IsFlat
  owners : ∀ x, IsIn c.schema modules x → x.address.part = .data → x.node.kind.isStructural = true →
    u.canonical c x ≠ x → (modules.map (·.1.name)).contains x.node.owner = true
  payloads : .rpc ∈ settings.elements → ∀ m ∈ modules, ∀ rpc ∈ c.schema.tops m.2 .rpcs, ∀ p ∈ rpc.children,
    IsPlain c u p

/-- What may be defined without the limit showing: what has children that are stood for as those of a node in the data
are, what has the templates of children of a node in a payload, and payloads that have nothing of their own. -/
inductive IsSpared (c : Scope) (u : Definitions) (modules : List (Module × Nat)) : Place → Prop
  | data {p q : Place} : IsIn c.schema modules p → p.address.part = .data → p.isWalked = true → c.schema.Has q →
      q.address.part ≠ .rpcs → (∀ w ∈ q.dataChildren, ∃ v ∈ p.dataChildren, u.canonical c v = u.canonical c w) →
      IsSpared c u modules q
  | template {p q : Place} : c.strategy = .optimizing → IsIn c.schema modules p → p.address.part = .rpcs →
      c.schema.Has q → q.address.part = .groupings →
      (∀ w ∈ q.dataChildren, ∃ v ∈ p.dataChildren, c.schema.IsBehind w v) → IsSpared c u modules q
  | payload {p : Place} : IsIn c.schema modules p → p.address.part = .rpcs → IsPlain c u p → IsSpared c u modules p

section

variable {c : Scope} {u : Definitions} {modules : List (Module × Nat)} {settings : Settings}

theorem isIn_dataChild {s : Schema} {p x : Place} (h : IsIn s modules p) (hx : x ∈ p.dataChildren) :
    IsIn s modules x := by
  obtain ⟨hp, hpart, m, hm, hmodule⟩ := h
  exact ⟨hp.dataChild hx, by rwa [Place.part_of_mem_dataChildren hx], m, hm, by
    rw [Schema.module_of_mem_dataChildren hx, hmodule]⟩

theorem strategy_of_canonical_ne {p : Place} (h : u.canonical c p ≠ p) : c.strategy = .optimizing := by
  cases hc : c.strategy with
  | unpacking => exact absurd (canonical_unpacking hc p) h
  | optimizing => rfl

theorem mem_templates_of_canonical_ne {p : Place} (h : u.canonical c p ≠ p) :
    u.canonical c p ∈ c.schema.templates p :=
  (List.mem_cons.mp (canonical_mem p)).resolve_left h

variable {augmented : Prop} {declared : Schema} {M : Expansion.Expanded}
  (hfrom : Schema.LoadedFrom augmented declared M c.schema) (hsources : c.schema.TellsSources)
  (hconfig : c.schema.Configured)
  (hprocessed : c.strategy = .optimizing → Processed c.schema modules {} u)

section

include hfrom hsources hconfig

theorem isSpared_of_walked {p : Place} (hp : IsIn c.schema modules p) (hpart : p.address.part = .data)
    (hwalked : p.isWalked = true) : IsSpared c u modules (u.canonical c p) := by
  have hrpcs : p.address.part ≠ .rpcs := by simp [hpart]
  refine .data hp hpart hwalked (has_canonical hp.1) (part_canonical hfrom.traced hp.1 hrpcs) fun w hw => ?_
  exact exists_canonical_of_canonical hfrom.traced hsources hconfig hp.1 hrpcs hw

omit hsources hconfig in
/-- What stands for a node in a payload, but is not the node itself, has the templates of its children. -/
theorem isSpared_of_behind {p t : Place} (hc : c.strategy = .optimizing) (hp : IsIn c.schema modules p)
    (hpart : p.address.part = .rpcs) (ht : c.schema.IsBehind t p) (hne : t ≠ p) : IsSpared c u modules t := by
  have hgroupings := (hfrom.traced.part_of_isBehind hp.1 ht).resolve_left hne
  refine .template hc hp hpart (ht.has hp.1) hgroupings fun w hw => ?_
  obtain ⟨v, hv, hwv⟩ := hfrom.traced.exists_dataChild (fun h : False => h.elim) hp.1 False.elim ⟨ht, False.elim⟩ hw
  exact ⟨v, hv, hwv.behind⟩

omit hsources hconfig in
theorem isSpared_payload {p : Place} (hp : IsIn c.schema modules p) (hpart : p.address.part = .rpcs)
    (hplain : IsPlain c u p) : IsSpared c u modules (u.canonical c p) := by
  by_cases hself : u.canonical c p = p
  · rw [hself]
    exact .payload hp hpart hplain
  · exact isSpared_of_behind hfrom (strategy_of_canonical_ne hself) hp hpart
      (mirrors_canonical (u := u) hfrom.traced.ranked True hp.1).behind hself

end

include hfrom hsources hconfig hprocessed

omit hsources hconfig in
/-- A template of a node in a payload lies within any limit. -/
theorem withinBound_of_template {limit : Option Nat} {p t : Place} (hc : c.strategy = .optimizing)
    (hp : IsIn c.schema modules p) (hpart : p.address.part = .rpcs) (ht : t ∈ c.schema.templates p) :
    u.withinBound (c.bounded limit) t = true := by
  have htop : p.top.kind = .rpc := by
    obtain ⟨top, htop, hmem⟩ := hp.1.exists_top
    rw [hpart] at htop
    rw [(Schema.of_mem_nodes htop hmem).2.2.2]
    exact hfrom.kind_of_mem_rpcs htop
  have hprocessed' : Processed (c.bounded limit).schema modules {} u := hprocessed hc
  exact (withinBound_iff hprocessed' (Schema.has_of_mem_templates ht)).mpr fun _ _ => .inl ⟨p, hp, htop, ht⟩

omit hsources hconfig in
/-- What stands for a node in a payload, but is not the node itself, lies within any limit and is spared. -/
theorem isSpared_of_template {limit : Option Nat} {p t : Place} (hc : c.strategy = .optimizing)
    (hp : IsIn c.schema modules p) (hpart : p.address.part = .rpcs) (ht : c.schema.IsBehind t p) (hne : t ≠ p) :
    u.withinBound (c.bounded limit) t = true ∧ IsSpared c u modules t := by
  have hmem := (List.mem_cons.mp ((Schema.isBehind_iff hfrom.traced.ranked hp.1).mp ht)).resolve_left hne
  exact ⟨withinBound_of_template hfrom hprocessed hc hp hpart hmem, isSpared_of_behind hfrom hc hp hpart ht hne⟩

/-- What stands for a container or a list that is walked over is walked over itself, or lies within the limit. -/
theorem isSpared_of_copy (h : IsHarmless c u modules settings) {p : Place} (hp : IsIn c.schema modules p)
    (hpart : p.address.part = .data) (hwalked : p.isWalked = true) (hk : p.node.kind.isStructural = true) :
    (u.canonical c p).isWalked = true ∨
      u.withinBound (c.bounded settings.levelLimit) (u.canonical c p) = true ∧
        IsSpared c u modules (u.canonical c p) := by
  by_cases hself : u.canonical c p = p
  · exact .inl (by rw [hself, hwalked])
  · have hc := strategy_of_canonical_ne hself
    refine .inr ⟨?_, isSpared_of_walked hfrom hsources hconfig hp hpart hwalked⟩
    have hprocessed' : Processed (c.bounded settings.levelLimit).schema modules {} u := hprocessed hc
    refine (withinBound_iff hprocessed' (has_canonical hp.1)).mpr fun l hl => .inr ?_
    have hnotRpc : p.top.kind ≠ .rpc := by
      intro hrpc
      simp [Place.isWalked, hrpc] at hwalked
    exact ⟨p, hp, hnotRpc, h.owners p hp hpart hk hself, h.bound hc l hl p hp.1 hpart,
      mem_templates_of_canonical_ne hself, rfl⟩

/-- The fields of what is spared are walked over, or they lie within the limit and are spared. -/
theorem IsSpared.field (h : IsHarmless c u modules settings) {q x : Place} (hq : IsSpared c u modules q)
    (hx : x ∈ q.dataChildren) (hown : supplier? c u q.node x = none) (hk : x.node.kind.isStructural = true) :
    (u.canonical c x).isWalked = true ∨
      u.withinBound (c.bounded settings.levelLimit) (u.canonical c x) = true ∧
        IsSpared c u modules (u.canonical c x) := by
  cases hq with
  | @data p _ hp hpart hwalked hqhas _ hchildren =>
    -- it is stood for as a child of the node that is walked over
    obtain ⟨v, hv, hsame⟩ := hchildren x hx
    have hvin := isIn_dataChild hp hv
    have hvk : v.node.kind.isStructural = true := by
      rw [← isStructural_canonical (u := u) hfrom.traced hvin.1, hsame,
        isStructural_canonical hfrom.traced (hqhas.dataChild hx), hk]
    rw [← hsame]
    exact isSpared_of_copy hfrom hsources hconfig hprocessed h hvin (by rw [Place.part_of_mem_dataChildren hv, hpart])
      (by rw [Place.isWalked_of_mem_dataChildren hv, hwalked]) hvk
  | @template p _ hc hp hpart hqhas hqpart hchildren =>
    obtain ⟨v, hv, hxv⟩ := hchildren x hx
    have hvpart : v.address.part = .rpcs := by rw [Place.part_of_mem_dataChildren hv, hpart]
    have hxhas := hqhas.dataChild hx
    have hne : u.canonical c x ≠ v := by
      rintro rfl
      exact part_canonical (u := u) hfrom.traced hxhas (by simp [Place.part_of_mem_dataChildren hx, hqpart]) hvpart
    exact .inr (isSpared_of_template hfrom hprocessed hc (isIn_dataChild hp hv) hvpart
      (hxv.trans (mirrors_canonical (u := u) hfrom.traced.ranked True hxhas).behind) hne)
  | payload hp hpart hplain =>
    have hne := hplain x hx hown hk
    have hxin := isIn_dataChild hp hx
    exact .inr (isSpared_of_template hfrom hprocessed (strategy_of_canonical_ne hne) hxin
      (by rw [Place.part_of_mem_dataChildren hx, hpart])
      (mirrors_canonical (u := u) hfrom.traced.ranked True hxin.1).behind hne)

omit hprocessed in
/-- The groupings that supply what is spared are spared. -/
theorem IsSpared.supplier (h : IsHarmless c u modules settings) {q x g : Place} {qname : String}
    (hq : IsSpared c u modules q) (hx : x ∈ q.dataChildren) (hsupplier : supplier? c u q.node x = some qname)
    (hg : c.schema.groupingNamed? qname = some g) : IsSpared c u modules (u.canonical c g) := by
  obtain ⟨hc, hchain, -⟩ := of_supplier? hsupplier
  obtain ⟨hnamed, hflat⟩ := h.flags hc
  have hknows : c.schema.KnowsGroupings := hnamed.knowsGroupings hfrom
  obtain ⟨i, hgtop⟩ := Schema.mem_tops_of_grouping? (show c.schema.grouping? _ _ = some g from hg)
  have hghas := Schema.has_of_groupingNamed? hg
  have hgpart := Schema.part_of_groupingNamed? hg
  rw [canonical_of_none hfrom.traced.ranked hghas (hfrom.isOwn_of_mem_tops hgtop).template]
  -- each child of the grouping has a copy in any node that the grouping supplies
  have hcopies : ∀ {p : Place}, c.schema.Has p → x ∈ p.dataChildren → ∀ w ∈ g.dataChildren,
      ∃ v ∈ p.dataChildren, c.schema.IsBehind w v := by
    intro p hp hx w hw
    obtain ⟨g', hg', -, -, -, hall⟩ := hfrom.traced.exists_dataSupplier hknows hp hx hchain
    obtain rfl := Option.some.inj (hg.symm.trans hg')
    obtain ⟨v, hv, hwv⟩ := hall False False.elim w hw
    exact ⟨v, hv, hwv.behind⟩
  cases hq with
  | @data p _ hp hpart hwalked hqhas hqpart hchildren =>
    refine .data hp hpart hwalked hghas (by simp [hgpart]) fun w hw => ?_
    obtain ⟨v, hv, hsame⟩ := exists_canonical_of_supplier hfrom.traced hsources hconfig hknows hflat hqhas hqpart hx
      hsupplier hg hw
    obtain ⟨v', hv', hsame'⟩ := hchildren v hv
    exact ⟨v', hv', hsame'.trans hsame⟩
  | @template p _ hc hp hpart hqhas hqpart hchildren =>
    refine .template hc hp hpart hghas hgpart fun w hw => ?_
    obtain ⟨v, hv, hwv⟩ := hcopies hqhas hx w hw
    obtain ⟨v', hv', hvv⟩ := hchildren v hv
    exact ⟨v', hv', hvv.trans hwv⟩
  | payload hp hpart _ => exact .template hc hp hpart hghas hgpart (hcopies hp.1 hx)

/-- What is spared defines only what is spared, and has fields within the limit. -/
theorem spares_isSpared (h : IsHarmless c u modules settings) :
    Spares c u settings.levelLimit (IsSpared c u modules) where
  field hq hx hown hk := hq.field hfrom hsources hconfig hprocessed h hx hown hk
  supplier hq hx hsupplier hg := hq.supplier hfrom hsources hconfig h hx hsupplier hg

end

/-! ### Runs -/

section

variable {s : Schema} {settings : Settings} {depth : Datum} {groupings : Groupings} {modules : List (Module × Nat)}

theorem visitModule_abreast {c : Scope} {u d e : Definitions} {S : Place → Prop} {limit : Option Nat}
    (hS : Spares c u limit S) (hunbounded : c.maxLevel = none) {i : Nat}
    (hholds : HoldsInData c u i S)
    (hrpcs : .rpc ∈ settings.elements → ∀ rpc ∈ c.schema.tops i .rpcs, ∀ p ∈ rpc.children, S (u.canonical c p))
    (hlevels : ∀ l, ({ settings with maxDepth := depth } : Settings).walkLimit = some l → IsDeepest c.schema l)
    (selected : List Name) (hd : Abreast u d e) :
    Agree (Abreast u) (visitModule ⟨c.bounded limit, selected⟩ { settings with maxDepth := depth } i)
      (visitModule ⟨c, selected⟩ { settings with maxDepth := .null } i) d e := by
  have hschema : ∀ c : Scope, (⟨c, selected⟩ : Walk).scope.schema = c.schema := fun _ => rfl
  unfold visitModule
  rw [hschema, hschema, show (c.bounded limit).schema = c.schema from rfl]
  cases hm : c.schema.modules[i]? with
  | none => exact agree_pure hd
  | some m =>
    dsimp only
    have hdo : ∀ {d e : Definitions}, Abreast u d e → Agree (Abreast u)
        (if .rpc ∈ settings.elements then
          (c.schema.tops i .rpcs).forM fun rpc => (Handler.ofRules settings.tagRules).emit (c.bounded limit) rpc
            ((Segment.root m.name 0).push rpc.node.name m.name false [] 0)
        else pure ())
        (if .rpc ∈ settings.elements then
          (c.schema.tops i .rpcs).forM fun rpc => (Handler.ofRules settings.tagRules).emit c rpc
            ((Segment.root m.name 0).push rpc.node.name m.name false [] 0)
        else pure ()) d e := fun hd =>
      agree_ite (fun hrpc => agree_forM (fun rpc hmem d e hd =>
        Handler.emit_abreast _ hS hunbounded (fun _ => hrpcs hrpc rpc hmem) _ hd) hd) fun _ => agree_pure hd
    by_cases hdata : Element.data ∈ settings.elements
    · rw [if_pos hdata, if_pos hdata]
      refine agree_bind (visitAll_abreast hS hunbounded hholds _ _ _ [] 0 rfl rfl (fun l hl => hlevels l hl) m.data d e
        (fun j n hj => visitable_top hm hj False.elim) hd) fun _ d₁ e₁ h₁ => hdo h₁
    · rw [if_neg hdata, if_neg hdata]
      exact hdo hd

section

variable {c : Scope} {u : Definitions} {augmented : Prop} {declared : Schema} {M : Expansion.Expanded}
  (hfrom : Schema.LoadedFrom augmented declared M c.schema) (hsources : c.schema.TellsSources)
  (hconfig : c.schema.Configured) (hprocessed : c.strategy = .optimizing → Processed c.schema modules {} u)
include hfrom hsources hconfig hprocessed

theorem visitModules_abreast (hunbounded : c.maxLevel = none)
    (hharmless : IsHarmless c u modules { settings with maxDepth := depth }) (selected : List Name) :
    Agree (Abreast u)
      (modules.forM fun (_, i) =>
        visitModule ⟨c.bounded ({ settings with maxDepth := depth } : Settings).levelLimit, selected⟩
          { settings with maxDepth := depth } i)
      (modules.forM fun (_, i) => visitModule ⟨c, selected⟩ { settings with maxDepth := .null } i) u u := by
  have hS := spares_isSpared hfrom hsources hconfig hprocessed hharmless
  refine agree_forM (fun m hm d e hd => ?_) ⟨rfl, SameCounts.refl u⟩
  refine visitModule_abreast hS hunbounded (fun p hp hpart hmodule hwalked => ?_) (fun hrpc rpc hmem p hp => ?_)
    hharmless.levels selected hd
  · exact isSpared_of_walked hfrom hsources hconfig ⟨hp, by simp [hpart], m, hm, hmodule.symm⟩ hpart hwalked
  · obtain ⟨j, hj⟩ := Place.mem_children.mp hp
    obtain ⟨k, hk⟩ := Schema.address_of_mem_tops hmem
    have hpart : p.address.part = .rpcs := by rw [Place.part_of_childAt? hj, Schema.part_of_mem_tops hmem]
    have hmodule : p.address.module = m.2 := by
      rw [Place.address_of_childAt? hj, hk]
      rfl
    exact isSpared_payload hfrom ⟨(Schema.has_of_mem_tops hmem).childAt? hj, by simp [hpart], m, hm, hmodule.symm⟩ hpart
      (hharmless.payloads hrpc m hm rpc hmem p hp)

end

/-- Generations with and without the limit walk alike. -/
theorem walked_eq_of_isHarmless {d : Datum} (hload : (Schema.load d).result = .ok s) {names : List Name}
    (hselect : (select s names).result = .ok modules)
    (hharmless : IsHarmless ⟨s, groupings, settings.strategy, none⟩ (prepared s settings modules) modules
      { settings with maxDepth := depth }) :
    walked s { settings with maxDepth := depth } modules groupings =
      walked s { settings with maxDepth := .null } modules groupings := by
  obtain ⟨declared, M, hfrom⟩ := Schema.exists_loadedFrom hload
  have hwalked : ∀ depth, walked s { settings with maxDepth := depth } modules groupings =
      ((modules.forM fun (_, i) => processModule s i) >>= fun _ => modules.forM fun (_, i) =>
        visitModule ⟨Scope.bounded ⟨s, groupings, settings.strategy, none⟩
          ({ settings with maxDepth := depth } : Settings).levelLimit, modules.map fun m : Module × Nat => m.1.name⟩
          { settings with maxDepth := depth } i) { document := emptyDocument settings } := fun _ => rfl
  rw [hwalked, hwalked, run_bind, run_bind]
  unfold prepared at hharmless
  rcases hpre : (modules.forM fun (_, i) => processModule s i) { document := emptyDocument settings } with ⟨e | _, u⟩
  · simp only [hpre]
  · simp only [hpre] at hharmless ⊢
    have hprocessed : settings.strategy = .optimizing → Processed s modules {} u := by
      intro hoptimizing
      obtain ⟨hnamed, -⟩ := hharmless.flags hoptimizing
      have hrecorded := processModules_records (s := s) (d := { document := emptyDocument settings }) (fun m hm => by
        have hget := getElem?_of_select hselect hm
        obtain ⟨t, ht, -⟩ := hnamed.names _ (List.mem_of_getElem? hget)
        exact ⟨hget, t, ht⟩) _ _ hpre
      exact ⟨hrecorded.copies, hrecorded.payload, hrecorded.processed⟩
    have hvisits := visitModules_abreast (c := ⟨s, groupings, settings.strategy, none⟩) hfrom
      (Schema.tellsSources_of_load hload) (Schema.configured_of_load hload) hprocessed rfl hharmless
      (modules.map fun m : Module × Nat => m.1.name)
    exact Prod.ext hvisits.result hvisits.states.eq

/-- Two runs differ in nothing but the level that their scopes record. -/
theorem run_bounded {d : Datum} (hload : (Schema.load d).result = .ok s) {names : List Name}
    (hharmless : ∀ groupings modules, (select s names).result = .ok modules →
      IsHarmless ⟨s, groupings, settings.strategy, none⟩ (prepared s settings modules) modules
        { settings with maxDepth := depth }) :
    run s names { settings with maxDepth := depth } =
      (fun r : Outcome =>
        { r with scope := r.scope.bounded ({ settings with maxDepth := depth } : Settings).levelLimit }) <$>
        run s names { settings with maxDepth := .null } := by
  unfold run
  simp only [map_bind]
  refine Logged.bind_congr_ok fun modules hmodules => bind_congr fun _ => bind_congr fun groupings =>
    bind_congr fun title => bind_congr fun _ => ?_
  have hwalk : walked s { settings with maxDepth := depth } modules groupings =
      walked s { settings with maxDepth := .null } modules groupings :=
    walked_eq_of_isHarmless hload hmodules (hharmless groupings modules hmodules)
  unfold walked walkThrough at hwalk
  have hempty : emptyDocument { settings with maxDepth := depth } =
      emptyDocument { settings with maxDepth := .null } := rfl
  rw [hempty] at hwalk
  rw [hempty, hwalk]
  generalize walk _ _ _ _ = outcome
  obtain ⟨result, built⟩ := outcome
  dsimp only
  rw [map_bind]
  rfl

end

end Generation

open Generation

/-- A limit that leaves out no data does not change the outcome, unless there are containers or lists in payloads that
stand for themselves, or what stands for copies is hidden from the limit by the flags of choices and cases or by the
owners of the copies. -/
theorem generate_eq_of_isHarmless {d : Datum} {s : Schema} {names : List Name} {settings : Settings} {depth : Datum}
    (hload : (Schema.load d).result = .ok s)
    (hharmless : ∀ groupings modules, (select s names).result = .ok modules →
      IsHarmless ⟨s, groupings, settings.strategy, none⟩ (prepared s settings modules) modules
        { settings with maxDepth := depth }) :
    generate s names { settings with maxDepth := depth } = generate s names { settings with maxDepth := .null } := by
  unfold generate
  rw [run_bounded hload hharmless, bind_map_left]
  rfl

/-- A container in a grouping that two containers and the input of an rpc share. -/
def Example.layered : Datum :=
  document [
    ("groupings", [grouping "g" [leaf "k", container "c" [] [leaf "l"]]]),
    ("data", [container "x" ["g"], container "y" ["g"]]),
    ("rpcs", [rpc "r" ["g"]])]

theorem generate_eq_of_isHarmless_layered :
    ∃ s doc, (Schema.load Example.layered).result = .ok s ∧
      (∀ groupings modules, (select s [.text "m"]).result = .ok modules →
        IsHarmless ⟨s, groupings, .optimizing, none⟩ (prepared s {} modules) modules { maxDepth := .int 3 }) ∧
      (generate s [.text "m"] { maxDepth := .int 3 }).result = .ok doc ∧
      generate s [.text "m"] { maxDepth := .int 3 } = generate s [.text "m"] { maxDepth := .null } := by
  have htest : passes Example.layered [.text "m"] { maxDepth := .int 3 } (fun s _ =>
      s.modules.map (·.name.asText?) = ["m"].map some &&
        (s.places.all fun p => (p.address.part ≠ .data || p.level ≤ 3) &&
          (!p.node.kind.isTransparent || p.node.uses.isEmpty)) &&
        (select s [.text "m"]).result.toOption.any fun modules =>
          (s.places.all fun p => (modules.map (·.1.name)).contains p.node.owner) &&
            modules.all fun m => (s.tops m.2 .rpcs).all fun rpc => rpc.children.all fun p =>
              p.dataChildren.all fun x =>
                (supplier? ⟨s, ⟨[], []⟩, .optimizing, none⟩ (prepared s {} modules) p.node x).isSome) = true := by
    decide +kernel
  obtain ⟨s, doc, hload, hgenerate, htest⟩ := exists_of_passes htest
  simp only [List.all_eq_true, Bool.and_eq_true, Bool.or_eq_true, Bool.not_eq_true', decide_eq_true_eq,
    Option.any_eq_true, List.isEmpty_iff] at htest
  obtain ⟨⟨hnames, hplaces⟩, modules, hselect, howners, hpayloads⟩ := htest
  have hharmless : ∀ groupings modules', (select s [.text "m"]).result = .ok modules' →
      IsHarmless ⟨s, groupings, .optimizing, none⟩ (prepared s {} modules') modules' { maxDepth := .int 3 } := by
    intro groupings modules' hselect'
    obtain rfl : modules = modules' := by
      rw [hselect'] at hselect
      exact (Option.some.inj hselect).symm
    have hdeepest : ∀ l, some 3 = some l → IsDeepest s l := by
      rintro l ⟨⟩ p hp hpart
      exact (hplaces p hp.mem_places).1.resolve_left (by simp [hpart])
    refine ⟨hdeepest, fun _ => hdeepest, fun _ => ⟨?_, ?_⟩, fun x hx _ _ _ => howners x hx.1.mem_places, ?_⟩
    · exact Schema.isNamed_of_nodup hnames (by decide) (by decide)
    · exact Schema.isFlat_of_uses fun z hz ht => (hplaces z hz.mem_places).2.resolve_left (by simp [ht])
    · intro _ m hm rpc hrpc p hp x hx hown
      have hsome : (supplier? ⟨s, groupings, .optimizing, none⟩ (prepared s {} modules) p.node x).isSome = true :=
        hpayloads m hm rpc hrpc p hp x hx
      rw [hown] at hsome
      cases hsome
  exact ⟨s, doc, hload, hharmless, hgenerate,
    @generate_eq_of_isHarmless _ s [.text "m"] {} (.int 3) hload hharmless⟩

/-- An rpc whose input has a container of its own. -/
def Example.enclosed : Datum := document [("rpcs", [rpc "r" [] [container "c" [] [leaf "l"]]])]

/-- A container that was declared in a payload is nothing that a limit takes into account. -/
theorem generate_ne_of_enclosed :
    ∃ s doc doc', (Schema.load Example.enclosed).result = .ok s ∧ (∀ p, s.Has p → p.level ≤ 9) ∧
      (generate s [.text "m"] { maxDepth := .int 9 }).result = .ok doc ∧
      (generate s [.text "m"] { maxDepth := .null }).result = .ok doc' ∧
      doc.definitions.get? (.text "c") = none ∧ (doc'.definitions.get? (.text "c")).isSome = true := by
  have htest : passes Example.enclosed [.text "m"] { maxDepth := .int 9 } (fun s doc =>
      (s.places.all fun p => p.level ≤ 9) && (doc.definitions.get? (.text "c")).isNone) = true := by
    decide +kernel
  have htest' : passes Example.enclosed [.text "m"] { maxDepth := .null } (fun _ doc =>
      (doc.definitions.get? (.text "c")).isSome) = true := by
    decide +kernel
  obtain ⟨s, doc, hload, hgenerate, htest⟩ := exists_of_passes htest
  obtain ⟨s', doc', hload', hgenerate', hsome⟩ := exists_of_passes htest'
  obtain rfl : s = s' := Except.ok.inj (hload.symm.trans hload')
  simp only [List.all_eq_true, Bool.and_eq_true, decide_eq_true_eq, Option.isNone_iff_eq_none] at htest
  exact ⟨s, doc, doc', hload, fun p hp => htest.1 p hp.mem_places, hgenerate, hgenerate', htest.2, hsome⟩

end RestconfApi
