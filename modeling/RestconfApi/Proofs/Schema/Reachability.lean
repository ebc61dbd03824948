import RestconfApi.Proofs.Documents
import RestconfApi.Proofs.Schema.Ancestry

/-!
# Schema: which groupings can be reached

The hierarchy of the groupings records every use of a grouping statement. The search through it ends, whatever circles
there are, and finds exactly what can be reached in one or more steps; so it finds a grouping from itself exactly if it
lies on a circle.
-/

namespace RestconfApi

namespace Logged

variable {α β : Type} {f : β → α → Logged β}

/-- A fold succeeds if all of its steps do. -/
theorem exists_foldlM (h : ∀ b a, ∃ b', (f b a).result = .ok b') (l : List α) (b : β) :
    ∃ b', (l.foldlM f b).result = .ok b' := by
  induction l generalizing b with
  | nil => exact ⟨b, rfl⟩
  | cons a l ih =>
    obtain ⟨b₁, hb₁⟩ := h b a
    obtain ⟨b', hb'⟩ := ih b₁
    refine ⟨b', ?_⟩
    rw [List.foldlM_cons, result_bind, hb₁]
    exact hb'

/-- Steps that are made one after the other succeed exactly if each of them does. -/
theorem ok_forM_iff {f : α → Logged Unit} {l : List α} :
    (l.forM f).result = .ok () ↔ ∀ a ∈ l, (f a).result = .ok () := by
  induction l with
  | nil => exact ⟨fun _ _ ha => absurd ha List.not_mem_nil, fun _ => rfl⟩
  | cons a l ih =>
    show (f a >>= fun _ => l.forM f).result = _ ↔ _
    rw [List.forall_mem_cons, ← ih]
    constructor
    · intro h
      obtain ⟨⟨⟩, ha, h⟩ := ok_of_bind h
      exact ⟨ha, h⟩
    · rintro ⟨ha, h⟩
      rw [result_bind, ha]
      exact h

/-- What a step of a fold brings about for its element holds in the end, if no step undoes it. -/
theorem forall_of_foldlM {Q : α → β → Prop} {l : List α}
    (hstep : ∀ b, ∀ a ∈ l, ∀ b', (f b a).result = .ok b' → Q a b' ∧ ∀ x, Q x b → Q x b') {b b' : β}
    (h : (l.foldlM f b).result = .ok b') : ∀ a ∈ l, Q a b' := by
  induction l generalizing b with
  | nil => simp
  | cons a l ih =>
    rw [List.foldlM_cons] at h
    obtain ⟨b₁, hb₁, h⟩ := ok_of_bind h
    have hrest : ∀ b, ∀ x ∈ l, ∀ b', (f b x).result = .ok b' → Q x b' ∧ ∀ y, Q y b → Q y b' :=
      fun b x hx => hstep b x (List.mem_cons_of_mem _ hx)
    refine List.forall_mem_cons.mpr ⟨?_, ih hrest h⟩
    have hfirst : Q a b₁ := (hstep b a List.mem_cons_self b₁ hb₁).1
    exact of_foldlM (P := Q a) (fun b x hx hb b' hb' => (hrest b x hx b' hb').2 a hb) hfirst h

end Logged

namespace Groupings

variable {s : Schema} {G : Groupings}

/-! ### What is recorded -/

/-- The names that are recorded as used by a grouping. -/
def usedIn (parents : Entries String (List String)) (qname : String) : List String := (parents.get? qname).getD []

/-- What is recorded as used stays so. -/
def Grows (m m' : Entries String (List String)) : Prop := ∀ other, usedIn m other ⊆ usedIn m' other

theorem exists_addUse (s : Schema) (qname : String) (owner : Name) (m : Entries String (List String)) (ref : String) :
    ∃ m', (addUse s qname owner m ref).result = .ok m' := by
  unfold addUse
  split
  · exact ⟨_, rfl⟩
  · exact ⟨_, rfl⟩

/-- A use is recorded if it means a grouping. -/
theorem addUse_grows {qname : String} {owner : Name} {ref : String} {m m' : Entries String (List String)}
    (h : (addUse s qname owner m ref).result = .ok m') :
    Grows m m' ∧ ∀ t, s.grouping? ref owner = some t → t.node.qname ∈ usedIn m' qname := by
  unfold addUse at h
  split at h
  · rename_i t ht
    obtain rfl := Except.ok.inj h
    refine ⟨fun other used hused => ?_, fun t' ht' => ?_⟩
    · by_cases hname : (qname == other) = true
      · rw [usedIn, ← Entries.get?_congr hname] at hused
        rw [usedIn, ← Entries.get?_congr hname, Entries.get?_put_self, Option.getD_some]
        split
        · exact hused
        · exact List.mem_append_left _ hused
      · rwa [usedIn, Entries.get?_put_of_ne (Bool.eq_false_iff.mpr hname)]
    · obtain rfl := Option.some.inj (ht.symm.trans ht')
      rw [usedIn, Entries.get?_put_self, Option.getD_some]
      split
      · assumption
      · exact List.mem_append_right _ List.mem_cons_self
  · rename_i hnone
    obtain ⟨-, -, h⟩ := Logged.ok_of_bind h
    obtain rfl := Except.ok.inj h
    refine ⟨fun _ _ hused => hused, fun t ht => ?_⟩
    rw [hnone] at ht
    cases ht

/-- All uses of a grouping statement are recorded, and what has been recorded before stays. -/
theorem addUses_grows {g : Place} {m m' : Entries String (List String)}
    (h : (g.node.uses.foldlM (addUse s g.node.qname g.node.owner) m).result = .ok m') :
    Grows m m' ∧ ∀ ref ∈ g.node.uses, ∀ t, s.grouping? ref g.node.owner = some t →
      t.node.qname ∈ usedIn m' g.node.qname := by
  refine ⟨?_, ?_⟩
  · refine Logged.of_foldlM (P := Grows m) (fun m₁ ref _ hm m₂ hm₂ other => ?_) (fun _ _ hused => hused) h
    exact List.Subset.trans (hm other) ((addUse_grows hm₂).1 other)
  · refine Logged.forall_of_foldlM (Q := fun ref m => ∀ t, s.grouping? ref g.node.owner = some t →
      t.node.qname ∈ usedIn m g.node.qname) (fun m₁ ref _ m₂ hm₂ => ?_) h
    obtain ⟨hgrows, hrecorded⟩ := addUse_grows hm₂
    exact ⟨hrecorded, fun _ hx t ht => hgrows _ (hx t ht)⟩

theorem mem_usedBy_of_mentions (h : (ofSchema s).result = .ok G) {other qname : String}
    (hmentions : Mentions s other qname) : qname ∈ G.usedBy other := by
  unfold ofSchema at h
  obtain ⟨-, -, h⟩ := Logged.ok_of_bind h
  obtain ⟨parents, hparents, h⟩ := Logged.ok_of_bind h
  obtain rfl := Except.ok.inj h
  have hall := Logged.forall_of_foldlM (Q := fun (g : Place) m => ∀ ref ∈ g.node.uses, ∀ t,
    s.grouping? ref g.node.owner = some t → t.node.qname ∈ usedIn m g.node.qname)
    (fun m g _ m' hm' => ?_) hparents
  · obtain ⟨g, hg, rfl, ref, href, t, ht, rfl⟩ := hmentions
    exact hall g hg ref href t ht
  · obtain ⟨hgrows, hrecorded⟩ := addUses_grows hm'
    exact ⟨hrecorded, fun _ hx ref href t ht => hgrows _ (hx ref href t ht)⟩

/-- The hierarchy is there exactly if the names of all groupings are keys. -/
theorem exists_ofSchema_iff :
    (∃ G, (ofSchema s).result = .ok G) ↔ ∀ g ∈ s.groupings, ∃ key, g.node.name.key? = .ok key := by
  unfold ofSchema
  constructor
  · rintro ⟨G, h⟩ g hg
    obtain ⟨⟨⟩, hkeys, -⟩ := Logged.ok_of_bind h
    obtain ⟨key, hkey, -⟩ := Logged.ok_of_bind (Logged.ok_forM_iff.mp hkeys g hg)
    exact ⟨key, hkey⟩
  · intro hnames
    have hkeys : (s.groupings.forM fun g => do let _ ← Logged.ofExcept g.node.name.key?).result = .ok () := by
      refine Logged.ok_forM_iff.mpr fun g hg => ?_
      obtain ⟨key, hkey⟩ := hnames g hg
      rw [Logged.result_bind, Logged.ofExcept, hkey]
      rfl
    obtain ⟨parents, hparents⟩ := Logged.exists_foldlM
      (f := fun parents (g : Place) => g.node.uses.foldlM (addUse s g.node.qname g.node.owner) parents)
      (fun m g => Logged.exists_foldlM (exists_addUse s g.node.qname g.node.owner) g.node.uses m) s.groupings
      (Entries.ofList (s.groupings.map fun g => (g.node.qname, ([] : List String))))
    refine ⟨⟨namesOf s, parents⟩, ?_⟩
    rw [Logged.result_bind, hkeys]
    show (_ >>= _ : Logged Groupings).result = _
    rw [Logged.result_bind, hparents]
    rfl

/-! ### The search -/

/-- `Search G candidate visited pending answer`: the search for `candidate` ends with `answer`. It takes the pending
names one after the other; a name that has not been visited yet is replaced by those it uses. -/
inductive Search (G : Groupings) (candidate : String) : List String → List String → Bool → Prop
  | exhausted {visited : List String} : Search G candidate visited [] false
  | found {visited pending : List String} : Search G candidate visited (candidate :: pending) true
  | skip {visited pending : List String} {name : String} {answer : Bool} : name ≠ candidate → name ∈ visited →
      Search G candidate visited pending answer → Search G candidate visited (name :: pending) answer
  | expand {visited pending : List String} {name : String} {answer : Bool} : name ≠ candidate → name ∉ visited →
      Search G candidate (name :: visited) (G.usedBy name ++ pending) answer →
      Search G candidate visited (name :: pending) answer

/-- How many names the groupings that have not been visited use. -/
def unvisited (visited : List String) : Entries String (List String) → Nat
  | [] => 0
  | (name, used) :: rest => (if name ∈ visited then 0 else used.length) + unvisited visited rest

theorem unvisited_cons_le (name : String) (visited : List String) (m : Entries String (List String)) :
    unvisited (name :: visited) m ≤ unvisited visited m := by
  induction m with
  | nil => exact Nat.le_refl 0
  | cons e m ih =>
    obtain ⟨other, used⟩ := e
    simp only [unvisited, List.mem_cons]
    by_cases hother : other ∈ visited
    · simpa [hother] using ih
    · by_cases heq : other = name <;> simp [hother, heq] <;> omega

/-- Visiting a name uses up what it uses. -/
theorem length_add_unvisited_le {name : String} {visited : List String} (hname : name ∉ visited)
    (m : Entries String (List String)) :
    (usedIn m name).length + unvisited (name :: visited) m ≤ unvisited visited m := by
  induction m with
  | nil => exact Nat.le_refl 0
  | cons e m ih =>
    obtain ⟨other, used⟩ := e
    by_cases heq : other = name
    · subst heq
      have hle := unvisited_cons_le other visited m
      simp only [usedIn, Entries.get?, BEq.rfl, if_true, Option.getD_some, unvisited, List.mem_cons, true_or, hname,
        if_false]
      omega
    · have hget : usedIn ((other, used) :: m) name = usedIn m name := by
        simp [usedIn, Entries.get?, heq]
      simp only [hget, unvisited, List.mem_cons, heq, false_or]
      omega

/-- Every use can make a name pending twice: when the search starts, and when the name that uses it is visited. -/
theorem two_mul_unvisited_lt_searchBound : 2 * unvisited [] G.parents < G.searchBound := by
  suffices h : ∀ (m : Entries String (List String)) (n : Nat),
      n + unvisited [] m ≤ m.foldl (fun n e => n + e.2.length) n by
    have hle : unvisited [] G.parents ≤ G.parents.foldl (fun n e => n + e.2.length) 0 := by
      simpa only [Nat.zero_add] using h G.parents 0
    exact Nat.lt_succ_of_le (Nat.mul_le_mul_left 2 hle)
  intro m
  induction m with
  | nil => exact Nat.le_refl
  | cons e m ih =>
    intro n
    have hrest := ih (n + e.2.length)
    simpa only [unvisited, List.not_mem_nil, if_false, List.foldl_cons, Nat.add_assoc] using hrest

/-- The bound is never reached: every step takes a pending name, and each name adds those it uses once. -/
theorem search_of_lt {candidate : String} {fuel : Nat} {visited pending : List String}
    (h : pending.length + unvisited visited G.parents < fuel) :
    Search G candidate visited pending (G.reaches candidate fuel visited pending) := by
  induction fuel generalizing visited pending with
  | zero => exact absurd h (Nat.not_lt_zero _)
  | succ fuel ih =>
    cases pending with
    | nil => exact .exhausted
    | cons name pending =>
      rw [reaches]
      rw [List.length_cons] at h
      by_cases hfound : name = candidate
      · rw [if_pos hfound, hfound]
        exact .found
      · rw [if_neg hfound]
        by_cases hvisited : name ∈ visited
        · rw [if_pos hvisited]
          exact .skip hfound hvisited (ih (by omega))
        · rw [if_neg hvisited]
          refine .expand hfound hvisited (ih ?_)
          have hle : (G.usedBy name).length + unvisited (name :: visited) G.parents ≤ unvisited visited G.parents :=
            length_add_unvisited_le hvisited G.parents
          rw [List.length_append]
          omega

theorem search_reaches {candidate qname : String} {used : List String} (hused : G.parents.get? qname = some used) :
    Search G candidate [qname] used (G.reaches candidate G.searchBound [qname] used) := by
  refine search_of_lt ?_
  have hstart := length_add_unvisited_le (List.not_mem_nil (a := qname)) G.parents
  rw [usedIn, hused, Option.getD_some] at hstart
  have hbound := two_mul_unvisited_lt_searchBound (G := G)
  omega

/-- What is used by what has been visited is pending, or has been visited when it was found to be another name. The
name that the search starts with counts as visited without having been compared. -/
def Covered (G : Groupings) (candidate : String) (visited pending : List String) : Prop :=
  ∀ v ∈ visited, ∀ w ∈ G.usedBy v, w ∈ pending ∨ w ∈ visited ∧ w ≠ candidate

/-- A search without success has seen all that can be reached from what it has visited. -/
theorem Search.ne_of_transGen {candidate : String} {visited pending : List String} {answer : Bool}
    (h : Search G candidate visited pending answer) (hanswer : answer = false)
    (hcovered : Covered G candidate visited pending) {q x : String} (hq : q ∈ visited)
    (hpath : Relation.TransGen (fun a b => b ∈ G.usedBy a) q x) : x ≠ candidate := by
  induction h with
  | @exhausted visited =>
    have hdone : ∀ v ∈ visited, ∀ w ∈ G.usedBy v, w ∈ visited ∧ w ≠ candidate := fun v hv w hw =>
      (hcovered v hv w hw).resolve_left (List.not_mem_nil)
    have hreached : x ∈ visited ∧ x ≠ candidate := by
      induction hpath with
      | single hstep => exact hdone q hq _ hstep
      | tail _ hstep ih => exact hdone _ ih.1 _ hstep
    exact hreached.2
  | found => cases hanswer
  | @skip visited pending name answer hne hvisited _ ih =>
    refine ih hanswer (fun v hv w hw => ?_) hq
    rcases hcovered v hv w hw with hw | hw
    · rcases List.mem_cons.mp hw with rfl | hw
      · exact .inr ⟨hvisited, hne⟩
      · exact .inl hw
    · exact .inr hw
  | @expand visited pending name answer hne hnew _ ih =>
    refine ih hanswer (fun v hv w hw => ?_) (List.mem_cons_of_mem _ hq)
    rcases List.mem_cons.mp hv with rfl | hv
    · exact .inl (List.mem_append_left _ hw)
    · rcases hcovered v hv w hw with hw | hw
      · rcases List.mem_cons.mp hw with rfl | hw
        · exact .inr ⟨List.mem_cons_self, hne⟩
        · exact .inl (List.mem_append_right _ hw)
      · exact .inr ⟨List.mem_cons_of_mem _ hw.1, hw.2⟩

/-- What can be reached is an ancestor. -/
theorem isAncestorOf_of_transGen (h : (ofSchema s).result = .ok G) {candidate qname : String}
    (hpath : Relation.TransGen (Mentions s) qname candidate) :
    (G.isAncestorOf candidate qname).result = .ok true := by
  replace hpath : Relation.TransGen (fun a b => b ∈ G.usedBy a) qname candidate :=
    hpath.lift id fun _ _ hmentions => mem_usedBy_of_mentions h hmentions
  obtain ⟨name, hname, -⟩ := Relation.TransGen.head'_iff.mp hpath
  cases hused : G.parents.get? qname with
  | none => simp [usedBy, hused] at hname
  | some used =>
    have hsearch : Search G candidate [qname] used _ := search_reaches hused
    rw [isAncestorOf, hused]
    refine congrArg Except.ok (Bool.of_not_eq_false fun hfalse => ?_)
    refine hsearch.ne_of_transGen hfalse (fun v hv w hw => .inl ?_) List.mem_cons_self hpath rfl
    rw [List.mem_singleton.mp hv, usedBy, hused] at hw
    exact hw

end Groupings

open Groupings

/-- Whether a grouping is an ancestor of another one is always found out if the names of the groupings are keys (if one
is not, there is no hierarchy to ask): it is exactly if it can be reached from it in one or more steps, each from a
grouping to one that its statement uses. -/
theorem Groupings.isAncestorOf_iff (s : Schema) :
    ((∃ G, (ofSchema s).result = .ok G) ↔ ∀ g ∈ s.groupings, ∃ key, g.node.name.key? = .ok key) ∧
      ∀ G, (ofSchema s).result = .ok G → ∀ candidate qname, ∃ answer,
        (G.isAncestorOf candidate qname).result = .ok answer ∧
          (∀ used, G.parents.get? qname = some used → Search G candidate [qname] used answer) ∧
          (answer = true ↔ (∃ g ∈ s.groupings, g.node.qname = qname) ∧
            Relation.TransGen (Mentions s) qname candidate) := by
  refine ⟨exists_ofSchema_iff, fun G hG candidate qname => ?_⟩
  have hiff : ∀ answer, (G.isAncestorOf candidate qname).result = .ok answer →
      (answer = true ↔ (∃ g ∈ s.groupings, g.node.qname = qname) ∧
        Relation.TransGen (Mentions s) qname candidate) := by
    intro answer hanswer
    constructor
    · rintro rfl
      have hpath := transGen_of_isAncestorOf hG hanswer
      obtain ⟨_, ⟨g, hg, hname, -⟩, -⟩ := Relation.TransGen.head'_iff.mp hpath
      exact ⟨⟨g, hg, hname⟩, hpath⟩
    · rintro ⟨-, hpath⟩
      exact Except.ok.inj (hanswer.symm.trans (isAncestorOf_of_transGen hG hpath))
  cases hused : G.parents.get? qname with
  | none =>
    have hanswer : (G.isAncestorOf candidate qname).result = .ok false := by
      rw [isAncestorOf, hused]
      rfl
    exact ⟨false, hanswer, fun _ h => (by cases h), hiff false hanswer⟩
  | some used =>
    have hanswer : (G.isAncestorOf candidate qname).result =
        .ok (G.reaches candidate G.searchBound [qname] used) := by
      rw [isAncestorOf, hused]
      rfl
    refine ⟨_, hanswer, fun used' hused' => ?_, hiff _ hanswer⟩
    obtain rfl := Option.some.inj hused'
    exact search_reaches hused

/-- Groupings that use each other, of which one uses another one that is not there, too. -/
def Example.circling : Schema :=
  let grouping (name : String) (uses : List String) : Node :=
    { kind := .grouping, name := .text name, owner := .text "m", uses }
  ⟨[{ name := .text "m", shortName := .text "m",
      groupings := [grouping "a" ["b", "ghost"], grouping "b" ["a"], grouping "c" ["a"]] }]⟩

/-- The first one can be reached from itself, and the last one cannot. -/
theorem isAncestorOf_iff_circling :
    ∃ G, (ofSchema Example.circling).result = .ok G ∧
      (G.isAncestorOf "m:a" "m:a").result = .ok true ∧ Relation.TransGen (Mentions Example.circling) "m:a" "m:a" ∧
        (G.isAncestorOf "m:c" "m:c").result = .ok false ∧
          ¬Relation.TransGen (Mentions Example.circling) "m:c" "m:c" := by
  obtain ⟨hkeys, hall⟩ := isAncestorOf_iff Example.circling
  have hnames : (Example.circling.groupings.all fun g => g.node.name.key?.toOption.isSome) = true := by
    decide +kernel
  obtain ⟨G, hG⟩ := hkeys.mpr fun g hg => exists_of_isSome (List.all_eq_true.mp hnames g hg)
  have htest : ((ofSchema Example.circling).result.toOption.any fun G =>
      (G.isAncestorOf "m:a" "m:a").result.toOption == some true &&
        (G.isAncestorOf "m:c" "m:c").result.toOption == some false) = true := by
    decide +kernel
  have hc : ∃ g ∈ Example.circling.groupings, g.node.qname = "m:c" := by
    decide +kernel
  rw [hG] at htest
  simp only [Except.toOption, Option.any_some, Bool.and_eq_true, beq_iff_eq] at htest
  obtain ⟨answer, hanswer, -, hcircle⟩ := hall G hG "m:a" "m:a"
  obtain ⟨answer', hanswer', -, hnone⟩ := hall G hG "m:c" "m:c"
  rw [hanswer, hanswer'] at htest
  obtain ⟨rfl, rfl⟩ : answer = true ∧ answer' = false := by simpa using htest
  exact ⟨G, hG, hanswer, (hcircle.mp rfl).2, hanswer', fun hpath => Bool.noConfusion (hnone.mpr ⟨hc, hpath⟩)⟩

end RestconfApi
