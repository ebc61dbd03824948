import RestconfApi.Proofs.Generation.Outcome
import RestconfApi.Proofs.Generation.Stops
import RestconfApi.Proofs.Schema.Choices

/-!
# Generation: what a walk visits for a choice

For a choice a walk visits the children of its children. Where these are cases, this comes to the same as visiting what
the choice stands for in instance data: the walk finds just the nodes that definitions find, in the same order.
-/

namespace RestconfApi

namespace Building

variable {α : Type} {f g : α → Building Unit}

/-- The same steps are taken in the same order, whatever is noted on the way. -/
inductive SameSteps : Building Unit → Building Unit → Prop
  | refl (x : Building Unit) : SameSteps x x
  | noted {level : Level} {text : String} {x y : Building Unit} : SameSteps x y →
      SameSteps (do note level text; x) y
  | notes {level : Level} {text : String} {x y : Building Unit} : SameSteps x y →
      SameSteps x (do note level text; y)
  | seq {x x' y y' : Building Unit} : SameSteps x y → SameSteps x' y' → SameSteps (do x; x') (do y; y')

theorem sameSteps_forM {l : List α} (h : ∀ x ∈ l, SameSteps (f x) (g x)) : SameSteps (l.forM f) (l.forM g) := by
  induction l with
  | nil => exact .refl _
  | cons x l ih => exact .seq (h x List.mem_cons_self) (ih fun y hy => h y (List.mem_cons_of_mem _ hy))

/-- What only notes something does nothing. -/
theorem sameSteps_of_notes {x : Building Unit} (hx : ∃ level text, x = note level text) {l : List α}
    (h : ∀ y ∈ l, ∃ level text, f y = note level text) : SameSteps x (l.forM f) := by
  obtain ⟨level, text, rfl⟩ := hx
  rw [← bind_pure_unit (x := note level text)]
  refine .noted ?_
  induction l with
  | nil => exact .refl _
  | cons y l ih =>
    obtain ⟨level', text', hy⟩ := h y List.mem_cons_self
    show SameSteps (pure ()) (do f y; l.forM f)
    rw [hy]
    exact .notes (ih fun z hz => h z (List.mem_cons_of_mem _ hz))

theorem forM_flatMap {β : Type} (F : β → List α) (l : List β) :
    (l.flatMap F).forM f = l.forM fun y => (F y).forM f := by
  induction l with
  | nil => rfl
  | cons y l ih =>
    have happend : (F y ++ l.flatMap F).forM f = (do (F y).forM f; (l.flatMap F).forM f) := List.forM_append
    rw [List.flatMap_cons, happend, ih]
    rfl

end Building

namespace Place

/-- The nodes that a child stands for in instance data. -/
def dataNodes (x : Place) : List Place := dataOf x.address x.above x.node

theorem dataOfAll_eq (a : Address) (above : List Node) (i : Nat) (ns : List Node) :
    dataOfAll a above i ns = (ofChildren a above i ns).flatMap dataNodes := by
  induction ns generalizing i with
  | nil => rfl
  | cons n ns ih => rw [dataOfAll, ofChildren, List.flatMap_cons, ih, dataNodes]

theorem dataChildren_eq (p : Place) : p.dataChildren = p.children.flatMap dataNodes := dataOfAll_eq ..

theorem dataNodes_eq (x : Place) : x.dataNodes = if x.node.kind.isTransparent then x.dataChildren else [x] :=
  dataOf_eq ..

/-- Cases are just what choices have, as far as choices and cases alone lead, and all has the same owner. -/
structure Alternates (p : Place) : Prop where
  case_iff : ∀ q, p.Through q → ∀ y ∈ q.children, (y.node.kind = .case ↔ q.node.kind = .choice)
  owner : ∀ q, p.Through q → ∀ y ∈ q.children, y.node.owner = p.node.owner

theorem Alternates.child {p y : Place} (h : p.Alternates) (hy : y ∈ p.children)
    (ht : y.node.kind.isTransparent = true) : y.Alternates := by
  obtain ⟨i, hi⟩ := mem_children.mp hy
  have hstep : p.Through y := Through.self.step hi ht
  refine ⟨fun q hq => h.case_iff q (hstep.trans hq), fun q hq x hx => ?_⟩
  rw [h.owner q (hstep.trans hq) x hx, h.owner p .self y hy]

theorem Alternates.owner_of_mem_dataChildren {p x : Place} (h : p.Alternates) (hx : x ∈ p.dataChildren) :
    x.node.owner = p.node.owner := by
  obtain ⟨q, i, hq, hx, -⟩ := mem_dataChildren.mp hx
  exact h.owner q hq x (mem_children.mpr ⟨i, hx⟩)

theorem above_of_mem_children {p x : Place} (hx : x ∈ p.children) : x.above = p.node :: p.above := by
  obtain ⟨j, n, -, rfl⟩ := mem_ofChildren.mp hx
  rfl

theorem sizeOf_lt_of_mem_children {p x : Place} (hx : x ∈ p.children) : sizeOf x.node < sizeOf p.node := by
  obtain ⟨i, hi⟩ := mem_children.mp hx
  exact sizeOf_lt_of_childAt? hi

end Place

namespace Generation

open Building

variable {w : Walk} {h : Handler} {seg : Segment} {limit lim : Option Nat} {p : Place}

/-! ### Visits -/

theorem visitAll_eq (a : Address) (above : List Node) (i : Nat) (ns : List Node) :
    visitAll w h seg lim a above i ns =
      (Place.ofChildren a above i ns).forM fun x => visit w h seg lim x.address x.above x.node := by
  induction ns generalizing i with
  | nil => rfl
  | cons n ns ih =>
    rw [visitAll, ih]
    rfl

/-- For a choice the children of its children are visited. -/
theorem visitCases_eq (a : Address) (above : List Node) (i : Nat) (ns : List Node) :
    visitCases w h seg lim a above i ns = (Place.ofChildren a above i ns).forM fun y =>
      y.children.forM fun x => visit w h seg lim x.address x.above x.node := by
  induction ns generalizing i with
  | nil => rfl
  | cons n ns ih =>
    obtain ⟨st, cs⟩ := n
    rw [visitCases, ih, visitAll_eq]
    rfl

theorem visit_of_choice (hk : p.node.kind = .choice) (hkey : p.node.owner.asKey?.isSome = true)
    (hselected : w.selected.contains p.node.owner = true) (hlim : lim ≠ some 0) :
    visit w h seg lim p.address p.above p.node = (do
      note .info s!"inlining choice statement {p.node.name.wording}"
      p.children.forM fun y => y.children.forM fun x => visit w h seg (deeper lim) x.address x.above x.node) := by
  obtain ⟨a, ⟨st, cs⟩, above⟩ := p
  have hnone : ¬st.owner.asKey?.isNone = true := by
    rw [← Option.not_isSome, show st.owner.asKey?.isSome = true from hkey]
    decide
  have hother : ¬(!w.selected.contains st.owner) = true := by
    rw [show w.selected.contains st.owner = true from hselected]
    decide
  have hstructural : ¬st.kind.isStructural = true := by
    rw [show st.kind = .choice from hk]
    decide
  rw [visit, if_neg hlim, if_neg hnone, if_neg hother, if_neg hstructural, if_pos hk, visitCases_eq]
  rfl

/-- A node without a level left, or one of a module that is not selected, is only noted. -/
theorem exists_visit_eq_note
    (hcut : lim = some 0 ∨ p.node.owner.asKey?.isSome = true ∧ w.selected.contains p.node.owner = false) :
    ∃ level text, visit w h seg lim p.address p.above p.node = note level text := by
  obtain ⟨a, ⟨st, cs⟩, above⟩ := p
  rw [visit]
  by_cases hlim : lim = some 0
  · exact ⟨_, _, if_pos hlim⟩
  · obtain ⟨hkey, hother⟩ := hcut.resolve_left hlim
    have hnone : ¬st.owner.asKey?.isNone = true := by
      rw [← Option.not_isSome, show st.owner.asKey?.isSome = true from hkey]
      decide
    have hnot : (!w.selected.contains st.owner) = true := by
      rw [show w.selected.contains st.owner = false from hother]
      rfl
    rw [if_neg hlim, if_neg hnone, if_pos hnot]
    exact ⟨_, _, rfl⟩

/-- Where no level is left, none is left below. -/
theorem left_eq_zero_of_mem_dataChildren {x : Place} (hx : x ∈ p.dataChildren) (hzero : left limit p.above = some 0) :
    left limit x.above = some 0 := by
  have hdown : ∀ {q y : Place} {i : Nat}, q.childAt? i = some y → left limit q.above = some 0 →
      left limit y.above = some 0 := by
    intro q y i hy hq
    obtain ⟨n, -, rfl⟩ := Option.map_eq_some_iff.mp hy
    show left limit (q.node :: q.above) = some 0
    by_cases hcase : q.node.kind = .case
    · rw [left_case hcase, hq]
    · rw [← deeper_left hcase, hq]
      rfl
  obtain ⟨q, i, hq, hx, -⟩ := Place.mem_dataChildren.mp hx
  refine hdown hx ?_
  clear hx
  induction hq with
  | self => exact hzero
  | step _ hy _ ih => exact hdown hy ih

/-- Visiting a choice is visiting what it stands for in instance data. -/
theorem sameSteps_visit (p : Place) (hk : p.node.kind = .choice) (hp : p.Alternates)
    (hkey : p.node.owner.asKey?.isSome = true) :
    SameSteps (visit w h seg (left limit p.above) p.address p.above p.node)
      (p.dataChildren.forM fun x => visit w h seg (left limit x.above) x.address x.above x.node) := by
  by_cases hcut : left limit p.above = some 0 ∨ w.selected.contains p.node.owner = false
  · refine sameSteps_of_notes (exists_visit_eq_note (hcut.imp_right fun hother => ⟨hkey, hother⟩)) fun x hx => ?_
    rw [← hp.owner_of_mem_dataChildren hx] at hkey hcut
    exact exists_visit_eq_note (hcut.imp (left_eq_zero_of_mem_dataChildren hx) fun hother => ⟨hkey, hother⟩)
  · obtain ⟨hlim, hselected⟩ := not_or.mp hcut
    rw [visit_of_choice hk hkey (Bool.of_not_eq_false hselected) hlim, p.dataChildren_eq, forM_flatMap]
    refine .noted (sameSteps_forM fun y hy => ?_)
    have hcase : y.node.kind = .case := (hp.case_iff p .self y hy).mpr hk
    have hy' : y.Alternates := hp.child hy (by rw [hcase]; rfl)
    rw [y.dataNodes_eq, if_pos (by rw [hcase]; rfl), y.dataChildren_eq, forM_flatMap]
    refine sameSteps_forM fun x hx => ?_
    have hlevels : deeper (left limit p.above) = left limit x.above := by
      rw [Place.above_of_mem_children hx, left_case hcase, Place.above_of_mem_children hy,
        deeper_left (by rw [hk]; decide)]
    rw [hlevels, x.dataNodes_eq]
    have hcases : x.node.kind ≠ .case := fun hx' => by
      have := (hy'.case_iff y .self x hx).mp hx'
      rw [hcase] at this
      cases this
    by_cases ht : x.node.kind.isTransparent = true
    · have hchoice : x.node.kind = .choice := by
        revert ht hcases
        cases x.node.kind <;> simp [Kind.isTransparent]
      have howner : x.node.owner = p.node.owner :=
        (hy'.owner y .self x hx).trans (hp.owner p .self y hy)
      have := Nat.lt_trans (Place.sizeOf_lt_of_mem_children hx) (Place.sizeOf_lt_of_mem_children hy)
      rw [if_pos ht]
      exact sameSteps_visit x hchoice (hy'.child hx ht) (howner ▸ hkey)
    · rw [if_neg ht]
      show SameSteps _ (do visit w h seg (left limit x.above) x.address x.above x.node; pure ())
      rw [bind_pure_unit]
      exact .refl _
termination_by sizeOf p.node

end Generation

open Example Generation Building

/-- The children of a choice of a loaded schema are cases exactly if those of the groupings are that it uses where it is
declared. If they are, also in the choices that stand in it, and no case stands directly in a case, a walk that comes
to the choice visits what it stands for in instance data, in this order, whatever modules are selected and however
many levels there are. -/
theorem sameSteps_visit_of_load {d : Datum} {s : Schema} (h : (Schema.load d).result = .ok s) {p : Place}
    (hp : s.Has p) (hk : p.node.kind = .choice) :
    (p.HasOnlyCases ↔ ∀ q, s.IsBehind q p → q.node.template = none →
      ∀ ref ∈ q.node.uses, ∀ g, s.grouping? ref q.node.owner = some g → g.HasOnlyCases) ∧
    ((∀ q, p.Through q → q.node.kind = .choice → q.HasOnlyCases) →
      (∀ q, p.Through q → q.node.kind = .case → ∀ y ∈ q.children, y.node.kind ≠ .case) →
      p.node.owner.asKey?.isSome = true → ∀ w handler seg limit,
        SameSteps (visit w handler seg (left limit p.above) p.address p.above p.node)
          (p.dataChildren.forM fun x => visit w handler seg (left limit x.above) x.address x.above x.node)) := by
  refine ⟨Schema.hasOnlyCases_iff_of_load h hp hk, fun hchoices hcases hkey w handler seg limit => ?_⟩
  obtain ⟨declared, M, hfrom⟩ := Schema.exists_loadedFrom h
  have hthrough : ∀ {q}, p.Through q → q.node.kind.isTransparent = true ∧ q.node.owner = p.node.owner := by
    intro q hq
    induction hq with
    | self => exact ⟨by rw [hk]; rfl, rfl⟩
    | step hq hx ht ih =>
      exact ⟨ht, (hfrom.traced.owner (hp.through hq) (fun _ => ih.1) hx).trans ih.2⟩
  refine sameSteps_visit p hk ⟨fun q hq y hy => ⟨fun hy' => ?_, fun hq' => hchoices q hq hq' y hy⟩, fun q hq y hy => ?_⟩
    hkey
  · have ht := (hthrough hq).1
    have hne : q.node.kind ≠ .case := fun hq' => hcases q hq hq' y hy hy'
    revert ht hne
    cases q.node.kind <;> simp [Kind.isTransparent]
  · obtain ⟨i, hi⟩ := Place.mem_children.mp hy
    exact (hfrom.traced.owner (hp.through hq) (fun _ => (hthrough hq).1) hi).trans (hthrough hq).2

/-- A container with a choice that has a case of its own and those of a grouping. -/
def Example.sorted : Datum :=
  document [
    ("groupings", [grouping "g" [statement "case" "a" [("children", .list [leaf "l"])]]]),
    ("data", [container "x" [] [statement "choice" "h" [
      ("uses", .texts ["g"]), ("children", .list [container "b" [] [leaf "k"]])]]])]

/-- Both cases are visited as the container and the leaf in them. -/
theorem sameSteps_visit_of_load_sorted : ∃ s p, (Schema.load Example.sorted).result = .ok s ∧ s.Has p ∧
    p.HasOnlyCases ∧ p.dataChildren.map (·.node.qname) = ["m:b", "m:l"] ∧ ∀ w handler seg limit,
      SameSteps (visit w handler seg (left limit p.above) p.address p.above p.node)
        (p.dataChildren.forM fun x => visit w handler seg (left limit x.above) x.address x.above x.node) := by
  have htest : ((Schema.load Example.sorted).result.toOption.any fun s =>
      (s.places.all fun q => (q.node.uses.all fun ref => (s.grouping? ref q.node.owner).all fun g =>
        g.children.all fun y => y.node.kind = .case) && (!q.node.kind.isTransparent ||
          q.children.all fun y => decide (y.node.kind = .case) == decide (q.node.kind = .choice))) &&
      (s.node? "/m:x" none).any fun x => (x.childAt? 0).any fun p => p.node.kind = .choice &&
        p.node.owner.asKey?.isSome && p.dataChildren.map (·.node.qname) == ["m:b", "m:l"]) = true := by
    decide +kernel
  obtain ⟨s, hload, htest⟩ := exists_of_any htest
  simp only [Bool.and_eq_true, Bool.or_eq_true, Bool.not_eq_true', List.all_eq_true, Option.any_eq_true,
    Option.all_eq_true, decide_eq_true_eq, beq_iff_eq] at htest
  obtain ⟨hplaces, x, hx, p, hp, ⟨hk, hkey⟩, hnames⟩ := htest
  have hhas : s.Has p := (Schema.isTarget_of_node? hx).has.childAt? hp
  have hiff : ∀ q, p.Through q → ∀ y ∈ q.children, (y.node.kind = .case ↔ q.node.kind = .choice) := by
    intro q hq y hy
    have ht : q.node.kind.isTransparent = true := by
      cases hq with
      | self => rw [hk]; rfl
      | step _ _ ht => exact ht
    exact decide_eq_decide.mp (((hplaces q (hhas.through hq).mem_places).2.resolve_left (by simp [ht])) y hy)
  obtain ⟨hcases, hvisits⟩ := sameSteps_visit_of_load hload hhas hk
  refine ⟨s, p, hload, hhas, hcases.mpr fun q hq _ ref href g hg => ?_, hnames,
    hvisits (fun q hq hq' y hy => (hiff q hq y hy).mpr hq') (fun q hq hq' y hy hy' => ?_) hkey⟩
  · exact (hplaces q (hq.has hhas).mem_places).1 ref href g hg
  · cases hq'.symm.trans ((hiff q hq y hy).mp hy')

/-- A container with a choice that uses a grouping with a container. -/
def Example.stray : Datum :=
  document [
    ("groupings", [grouping "g" [container "c" [] [leaf "l"]]]),
    ("data", [container "x" [] [statement "choice" "h" [("uses", .texts ["g"])]]])]

/-- What the choice has is no case, and though it is found in instance data, there is no path for it. -/
theorem not_hasOnlyCases_of_load_stray : ∃ s doc p x, (Schema.load Example.stray).result = .ok s ∧
    (generate s [.text "m"] {}).result = .ok doc ∧ s.Has p ∧ p.node.kind = .choice ∧ ¬p.HasOnlyCases ∧
      x ∈ p.dataChildren ∧ x.node.kind = .container ∧ ∀ e ∈ doc.paths, e.1 = .text "/data/m:x" := by
  have htest : passes Example.stray [.text "m"] {} (fun s doc =>
      (doc.paths.all (·.1 == .text "/data/m:x")) && (s.node? "/m:x" none).any fun x => (x.childAt? 0).any fun p =>
        p.node.kind = .choice && (p.children.any fun y => !decide (y.node.kind = .case)) &&
          p.dataChildren.any fun y => y.node.kind = .container) = true := by
    decide +kernel
  obtain ⟨s, doc, hload, hgenerate, htest⟩ := exists_of_passes htest
  simp only [Bool.and_eq_true, Option.any_eq_true, List.any_eq_true, List.all_eq_true, decide_eq_true_eq,
    Bool.not_eq_true', decide_eq_false_iff_not] at htest
  obtain ⟨hpaths, x, hx, p, hp, ⟨hk, y, hy, hne⟩, c, hc, hcontainer⟩ := htest
  have hhas : s.Has p := (Schema.isTarget_of_node? hx).has.childAt? hp
  exact ⟨s, doc, p, c, hload, hgenerate, hhas, hk, fun hall => hne (hall y hy), hc, hcontainer,
    fun e he => Scalar.eq_text_of_beq (hpaths e he)⟩

end RestconfApi
