import RestconfApi.Proofs.Schema.Grafting
import RestconfApi.Proofs.Schema.Loading
import RestconfApi.Proofs.Schema.Unfolding

/-!
# Schema: what stands where

Every declared node stands in the expanded schema, with its own children, the copies that its `uses` add and what
augments add to it, in this order; a copy has a copy of each child of its template and what augments add. Nothing
else stands there. Each augment that is applied keeps this.
-/

namespace RestconfApi

/-! ### Trees of copies -/

namespace Node

theorem heads_of_forall₂ {ns ns' : List Node} (h : List.Forall₂ (fun n n' => n'.toStatement = n.toStatement) ns ns') :
    heads ns' = heads ns := by
  induction h with
  | nil => rfl
  | cons hn _ ih => exact congrArg₂ List.cons hn ih

theorem children_copyFor (owner : Name) (source : String) (a : Address) (n : Node) :
    (n.copyFor owner source a).children = copyAllFor owner source a 0 n.children := by
  obtain ⟨st, cs⟩ := n
  rw [copyFor]

/-- Below a copy are the copies of what is below its template. -/
theorem at?_copyFor (owner : Name) (source : String) (js : List Nat) (a : Address) (n : Node) :
    (n.copyFor owner source a).at? js =
      (n.at? js).map (copyFor owner source { a with path := a.path ++ js }) := by
  induction js generalizing n a with
  | nil => simp [at?]
  | cons j js ih =>
    simp only [at?, children_copyFor, getElem?_copyAllFor, Nat.zero_add]
    cases n.children[j]? with
    | none => rfl
    | some c =>
      simp only [Option.map_some, Option.bind_some, ih]
      simp [Address.child]

end Node

namespace Expansion

variable {s : Schema} {M : Expanded}

theorem Expanded.node?_append {a : Address} {t : Node} (h : M.node? a = some t) (js : List Nat) :
    M.node? { a with path := a.path ++ js } = t.at? js := by
  obtain ⟨i, part, path⟩ := a
  cases path with
  | nil => cases h
  | cons j is =>
    obtain ⟨b, hb, h⟩ := Option.bind_eq_some_iff.mp h
    show (M.get? ⟨i, part, [j]⟩).bind (Node.at? (is ++ js)) = _
    rw [hb, Option.bind_some, Node.at?_append, h, Option.bind_some]

/-- The node is a copy of a node of an expanded grouping, and so is all below it. -/
def IsCopied (M : Expanded) (x : Node) : Prop :=
  ∃ a t owner source, M.node? a = some t ∧ x = { t.copyFor owner source a with addedBy := x.addedBy }

theorem isCopied_copyFor {a : Address} {t x : Node} (ha : M.node? a = some t) {owner : Name} {source : String}
    (js : List Nat) (hx : (t.copyFor owner source a).at? js = some x) : IsCopied M x := by
  rw [Node.at?_copyFor] at hx
  obtain ⟨t', ht', rfl⟩ := Option.map_eq_some_iff.mp hx
  refine ⟨{ a with path := a.path ++ js }, t', owner, source, by rw [Expanded.node?_append ha, ht'], ?_⟩
  obtain ⟨⟨_, _, _, _, _, _, _, _, _, _, _, _, _, _⟩, _⟩ :=
    Node.copyFor owner source { a with path := a.path ++ js } t'
  rfl

theorem IsBlock.isCopied {st : Statement} {ref : String} {block : List Node} (h : IsBlock s st ref block M) {y : Node}
    (hy : y ∈ block) {js : List Nat} {x : Node} (hx : y.at? js = some x) : IsCopied M x := by
  rcases h with ⟨-, rfl⟩ | ⟨g, b, hg, hb, hblock⟩
  · cases hy
  · obtain ⟨i, hi⟩ := mem_tops_of_grouping? hg
    obtain ⟨j, hj⟩ := List.mem_iff_getElem?.mp hy
    rw [IsBlock.getElem? hblock] at hj
    obtain ⟨t, ht, rfl⟩ := Option.map_eq_some_iff.mp hj
    have hnode : M.node? (g.address.child j) = some t := by
      have hbelow := node?_grouping hi hb [j]
      rw [show b.at? [j] = some t by rw [Node.at?, ht]; rfl] at hbelow
      exact hbelow
    cases js with
    | nil =>
      obtain rfl := Option.some.inj hx
      exact ⟨_, t, st.owner, g.node.qname, hnode, rfl⟩
    | cons k js => exact isCopied_copyFor hnode (k :: js) hx

/-- What is below an unfolded tree is the unfolded form of what is below the declared one, or a copy. -/
theorem Unfolds.at? {n y x : Node} (h : Unfolds s M n y) {js : List Nat} (hx : y.at? js = some x) :
    (∃ n', n.at? js = some n' ∧ Unfolds s M n' x) ∨ IsCopied M x := by
  induction js generalizing n y with
  | nil =>
    obtain rfl := Option.some.inj hx
    exact .inl ⟨n, rfl, h⟩
  | cons j js ih =>
    obtain ⟨c, hc, hx⟩ := Option.bind_eq_some_iff.mp hx
    obtain ⟨-, own, blocks, hchildren, hown, hblocks⟩ := unfolds_iff.mp h
    rw [hchildren] at hc
    by_cases hlt : j < own.length
    · rw [List.getElem?_append_left hlt] at hc
      obtain ⟨m, hm, hunfolds⟩ := getElem?_of_forall₂_right hown hc
      rcases ih hunfolds hx with ⟨n', hn', h'⟩ | hcopied
      · exact .inl ⟨n', by rw [Node.at?, hm]; exact hn', h'⟩
      · exact .inr hcopied
    · rw [List.getElem?_append_right (Nat.le_of_not_lt hlt)] at hc
      obtain ⟨block, hblock, hmem⟩ := List.mem_flatten.mp (List.mem_of_getElem? hc)
      obtain ⟨ref, -, hR⟩ := exists_of_forall₂_right hblocks hblock
      exact .inr (hR.isCopied hmem hx)

theorem Unfolds.exists_at? {n y n' : Node} (h : Unfolds s M n y) (js : List Nat) (hn : n.at? js = some n') :
    ∃ x, y.at? js = some x ∧ Unfolds s M n' x := by
  induction js generalizing n y with
  | nil =>
    obtain rfl := Option.some.inj hn
    exact ⟨y, rfl, h⟩
  | cons j js ih =>
    obtain ⟨m, hm, hn⟩ := Option.bind_eq_some_iff.mp hn
    obtain ⟨-, own, blocks, hchildren, hown, -⟩ := unfolds_iff.mp h
    obtain ⟨c, hc, hunfolds⟩ := getElem?_of_forall₂ hown hm
    obtain ⟨x, hx, h'⟩ := ih hunfolds hn
    refine ⟨x, ?_, h'⟩
    rw [Node.at?, hchildren, List.getElem?_append_left (List.getElem?_eq_some_iff.mp hc).1, hc]
    exact hx

end Expansion

/-! ### Where declared nodes stand -/

namespace Schema

variable {declared s s' : Schema} {grafts grafts' : Address → List Node}

/-- `Stands declared grafts s n a`: the declared node `n` stands in the expanded schema at `a`. Top statements and
children are where they are declared; the nodes that augments add below a node, `grafts` tells which, are its last
children. -/
inductive Stands (declared : Schema) (grafts : Address → List Node) (s : Schema) : Node → Address → Prop
  | top {i : Nat} {m : Module} {part : Part} {j : Nat} {n : Node} : declared.modules[i]? = some m →
      (m.part part)[j]? = some n → Stands declared grafts s n ((Address.top i part).child j)
  | child {n c : Node} {a : Address} {i : Nat} : Stands declared grafts s n a → n.children[i]? = some c →
      Stands declared grafts s c (a.child i)
  | grafted {a : Address} {x n : Node} {i : Nat} : s.nodeAt? a = some x → (grafts a)[i]? = some n →
      Stands declared grafts s n (a.child (x.children.length - (grafts a).length + i))

theorem Stands.descend {n m : Node} {a : Address} (h : Stands declared grafts s n a) {js : List Nat}
    (hm : n.at? js = some m) : Stands declared grafts s m { a with path := a.path ++ js } := by
  induction js generalizing n a with
  | nil =>
    obtain rfl := Option.some.inj hm
    rwa [List.append_nil]
  | cons j js ih =>
    obtain ⟨c, hc, hm⟩ := Option.bind_eq_some_iff.mp hm
    have := ih (h.child hc) hm
    simpa [Address.child] using this

/-- The nodes that augments with given targets add to the node at an address. -/
def graftsOf (done : List (Declaration.Augment × Address)) (a : Address) : List Node :=
  (done.filter (·.2 == a)).flatMap (·.1.nodes)

open Expansion

/-- What stands in a schema when some augments have been applied to the nodes at given addresses. -/
structure Laid (declared : Schema) (M : Expanded) (done : List (Declaration.Augment × Address)) (s : Schema) :
    Prop where
  stands : ∀ {n a}, Stands declared (graftsOf done) s n a → ∃ x, s.nodeAt? a = some x ∧
    x.toStatement = n.toStatement ∧ ∃ blocks,
      List.Forall₂ (fun ref block => IsBlock declared n.toStatement ref block M) n.uses blocks ∧
        Node.heads x.children =
          Node.heads n.children ++ Node.heads (List.flatten blocks) ++ Node.heads (graftsOf done a)
  copies : ∀ {a x}, s.nodeAt? a = some x → x.template.isSome = true → ∃ b t owner source,
    M.node? b = some t ∧ x.toStatement = { (t.copyFor owner source b).toStatement with addedBy := x.addedBy } ∧
      Node.heads x.children = Node.heads (t.copyFor owner source b).children ++ Node.heads (graftsOf done a)
  own : ∀ {a x}, s.nodeAt? a = some x → x.template = none → ∃ n, Stands declared (graftsOf done) s n a
  targets : ∀ e ∈ done, (s.nodeAt? e.2).isSome = true

variable {M : Expanded}

/-- What stands where an unfolded tree stands to which nothing has been added. -/
theorem stands_of_unfolds {n x : Node} (h : Unfolds declared M n x) : x.toStatement = n.toStatement ∧ ∃ blocks,
    List.Forall₂ (fun ref block => IsBlock declared n.toStatement ref block M) n.uses blocks ∧
      Node.heads x.children = Node.heads n.children ++ Node.heads (List.flatten blocks) := by
  obtain ⟨htop, own, blocks, hchildren, hown, hblocks⟩ := unfolds_iff.mp h
  refine ⟨htop, blocks, hblocks, ?_⟩
  rw [hchildren, Node.heads_append]
  congr 1
  exact Node.heads_of_forall₂ (hown.imp fun _ _ h => (unfolds_iff.mp h).1)

theorem copies_of_isCopied {x : Node} (h : IsCopied M x) : ∃ b t owner source, M.node? b = some t ∧
    x.toStatement = { (t.copyFor owner source b).toStatement with addedBy := x.addedBy } ∧
      Node.heads x.children = Node.heads (t.copyFor owner source b).children := by
  obtain ⟨b, t, owner, source, hb, hx⟩ := h
  exact ⟨b, t, owner, source, hb, congrArg Node.toStatement hx, congrArg (fun y => Node.heads y.children) hx⟩

theorem template_of_isCopied {x : Node} (h : IsCopied M x) : x.template.isSome = true := by
  obtain ⟨b, t, owner, source, hb, hx⟩ := h
  rw [hx]
  show (t.copyFor owner source b).template.isSome = true
  rw [Node.template_copyFor]
  rfl

/-- What holds everywhere in what is declared holds everywhere in what stands somewhere. -/
theorem Stands.everywhere {P : Statement → List Statement → Prop}
    (hs : ∀ m ∈ declared.modules, ∀ part, ∀ n ∈ m.part part, n.Everywhere P)
    (hgrafts : ∀ a, ∀ n ∈ grafts a, n.Everywhere P) {n : Node} {a : Address} (h : Stands declared grafts s n a) :
    n.Everywhere P := by
  induction h with
  | top hm hn => exact hs _ (List.mem_of_getElem? hm) _ _ (List.mem_of_getElem? hn)
  | child _ hc ih => exact (Node.everywhere_iff.mp ih).2 _ (List.mem_of_getElem? hc)
  | grafted _ hn => exact hgrafts _ _ (List.mem_of_getElem? hn)

theorem Stands.template {done : List (Declaration.Augment × Address)} (hs : IsDeclaredSchema declared)
    (hdone : ∀ e ∈ done, ∀ n ∈ e.1.nodes, IsDeclared n) {n : Node} {a : Address}
    (h : Stands declared (graftsOf done) s n a) : n.template = none := by
  have hdeclared : IsDeclared n := h.everywhere hs fun a n hn => by
    obtain ⟨e, he, hn⟩ := List.mem_flatMap.mp hn
    exact hdone e (List.mem_filter.mp he).1 n hn
  exact (Node.everywhere_iff.mp hdeclared).1.1.template

/-! ### Before the augments -/

theorem stands_of_modules {modules : List Module} (hM : M.Unfolded declared)
    (h : List.Forall₂ (ModuleUnfolds declared M) declared.modules.zipIdx modules) {n : Node} {a : Address}
    (hn : Stands declared (graftsOf []) ⟨modules⟩ n a) :
    ∃ x, (⟨modules⟩ : Schema).nodeAt? a = some x ∧ Unfolds declared M n x := by
  induction hn with
  | @top i m part j n hm hj =>
    obtain ⟨m', hm', hunfolds⟩ := getElem?_of_forall₂ (i := i) (a := (m, i)) h
      (by simp [List.getElem?_zipIdx, hm])
    have hpart : ∃ x, (m'.part part)[j]? = some x ∧ Unfolds declared M n x := by
      cases part with
      | data => exact getElem?_of_forall₂ hunfolds.data hj
      | rpcs => exact getElem?_of_forall₂ hunfolds.rpcs hj
      | groupings =>
        have hg : (declared.tops i .groupings)[j]? = some ⟨(Address.top i .groupings).child j, n, []⟩ := by
          rw [Schema.tops, hm]
          show (Place.ofChildren (Address.top i .groupings) [] 0 m.groupings)[j]? = _
          rw [Place.getElem?_ofChildren, show m.groupings[j]? = some n from hj, Nat.zero_add]
          rfl
        obtain ⟨x, hx, hget⟩ := getElem?_of_forall₂ hunfolds.groupings hg
        exact ⟨x, hx, hM.unfolds (List.mem_of_getElem? hg) hget⟩
    obtain ⟨x, hx, hnx⟩ := hpart
    refine ⟨x, ?_, hnx⟩
    show (⟨modules⟩ : Schema).nodeAt? ⟨i, part, [j]⟩ = _
    rw [nodeAt?_cons, show (⟨modules⟩ : Schema).modules[i]? = some m' from hm', Option.bind_some, hx]
    rfl
  | @child n c a i _ hc ih =>
    obtain ⟨x, hx, hnx⟩ := ih
    obtain ⟨y, hy, hcy⟩ := hnx.exists_at? [i] (by rw [Node.at?, hc]; rfl)
    refine ⟨y, ?_, hcy⟩
    rw [← hy]
    exact nodeAt?_append hx [i]
  | grafted _ hi => cases hi

theorem laid_of_modules {modules : List Module} (hs : IsDeclaredSchema declared) (hM : M.Unfolded declared)
    (h : List.Forall₂ (ModuleUnfolds declared M) declared.modules.zipIdx modules) :
    Laid declared M [] ⟨modules⟩ := by
  have hall : ∀ {a x}, (⟨modules⟩ : Schema).nodeAt? a = some x →
      (∃ n, Stands declared (graftsOf []) ⟨modules⟩ n a ∧ Unfolds declared M n x) ∨ IsCopied M x := by
    intro a x hx
    obtain ⟨i, part, path⟩ := a
    obtain ⟨j, js, rfl⟩ := List.exists_cons_of_ne_nil (path_ne_nil_of_nodeAt? hx)
    rw [nodeAt?_cons] at hx
    obtain ⟨m', hm', hx⟩ := Option.bind_eq_some_iff.mp hx
    obtain ⟨y, hy, hx⟩ := Option.bind_eq_some_iff.mp hx
    obtain ⟨⟨m, i'⟩, hm, hunfolds⟩ := getElem?_of_forall₂_right h hm'
    rw [List.getElem?_zipIdx, Nat.zero_add] at hm
    obtain ⟨m₀, hm₀, heq⟩ := Option.map_eq_some_iff.mp hm
    obtain ⟨rfl, rfl⟩ := Prod.mk.inj heq
    have hpart : ∃ n, (m₀.part part)[j]? = some n ∧ Unfolds declared M n y := by
      cases part with
      | data => exact getElem?_of_forall₂_right hunfolds.data hy
      | rpcs => exact getElem?_of_forall₂_right hunfolds.rpcs hy
      | groupings =>
        obtain ⟨g, hg, hget⟩ := getElem?_of_forall₂_right hunfolds.groupings hy
        have hunfold := hM.unfolds (List.mem_of_getElem? hg) hget
        simp only [Schema.tops, hm₀] at hg
        rw [Place.getElem?_ofChildren] at hg
        obtain ⟨n, hn, rfl⟩ := Option.map_eq_some_iff.mp hg
        exact ⟨n, hn, hunfold⟩
    obtain ⟨n, hn, hny⟩ := hpart
    rcases hny.at? hx with ⟨n', hn', h'⟩ | hcopied
    · exact .inl ⟨n', (Stands.top hm₀ hn).descend hn', h'⟩
    · exact .inr hcopied
  refine ⟨fun hn => ?_, fun {a x} hx ht => ?_, fun hx ht => ?_,
    fun _ he => absurd he List.not_mem_nil⟩
  · obtain ⟨x, hx, hnx⟩ := stands_of_modules hM h hn
    obtain ⟨htop, blocks, hblocks, hheads⟩ := stands_of_unfolds hnx
    exact ⟨x, hx, htop, blocks, hblocks, by simpa [graftsOf, Node.heads] using hheads⟩
  · rcases hall hx with ⟨n, hn, hnx⟩ | hcopied
    · rw [show x.template = n.template by rw [(unfolds_iff.mp hnx).1], hn.template hs (by simp)] at ht
      cases ht
    · obtain ⟨b, t, owner, source, hb, hst, hheads⟩ := copies_of_isCopied hcopied
      exact ⟨b, t, owner, source, hb, hst, by simpa [graftsOf, Node.heads] using hheads⟩
  · rcases hall hx with ⟨n, hn, -⟩ | hcopied
    · exact ⟨n, hn⟩
    · have hsome := template_of_isCopied hcopied
      rw [ht] at hsome
      cases hsome

/-! ### An augment -/

section

variable {done : List (Declaration.Augment × Address)} {x : Declaration.Augment} {a : Address} {m : Node}
  {added : List Node}

/-- Where the node stands that an augment adds as the `k`-th one, or what is below it. -/
def addedAt (a : Address) (m : Node) (k : Nat) (js : List Nat) : Address :=
  { a with path := a.path ++ (m.children.length + k) :: js }

theorem graftsOf_append (b : Address) :
    graftsOf (done ++ [(x, a)]) b = graftsOf done b ++ if b = a then x.nodes else [] := by
  rw [graftsOf, List.filter_append, List.flatMap_append]
  congr 1
  by_cases hab : b = a
  · simp [hab]
  · simp [hab, Ne.symm hab]

theorem nodeAt?_addedAt (ha : s.nodeAt? a = some m) (k : Nat) (js : List Nat) :
    s.nodeAt? (addedAt a m k js) = none := by
  rw [addedAt, nodeAt?_append ha, Node.at?, List.getElem?_eq_none_iff.mpr (Nat.le_add_right _ _)]
  rfl

theorem Laid.isSome_target (h : Laid declared M done s) (ha : s.nodeAt? a = some m)
    {e : Declaration.Augment × Address} (he : e ∈ done ++ [(x, a)]) : (s.nodeAt? e.2).isSome = true := by
  rcases List.mem_append.mp he with he | he
  · exact h.targets e he
  · rw [List.mem_singleton.mp he]
    exact Option.isSome_iff_exists.mpr ⟨m, ha⟩

theorem Laid.graftsOf_addedAt (h : Laid declared M done s) (ha : s.nodeAt? a = some m) (k : Nat) (js : List Nat) :
    graftsOf (done ++ [(x, a)]) (addedAt a m k js) = [] := by
  have hnone := nodeAt?_addedAt ha k js
  refine List.flatMap_eq_nil_iff.mpr fun e he => ?_
  obtain ⟨he, heq⟩ := List.mem_filter.mp he
  have hsome := h.isSome_target ha he
  rw [eq_of_beq heq, hnone] at hsome
  cases hsome

/-- What has been added to a node is among its children. -/
theorem Laid.length_graftsOf_le (h : Laid declared M done s) (ha : s.nodeAt? a = some m) :
    (graftsOf done a).length ≤ m.children.length := by
  have hheads : ∃ before, Node.heads m.children = before ++ Node.heads (graftsOf done a) := by
    cases htemplate : m.template with
    | none =>
      obtain ⟨n, hn⟩ := h.own ha htemplate
      obtain ⟨m', hm', -, blocks, -, hheads⟩ := h.stands hn
      obtain rfl := Option.some.inj (ha.symm.trans hm')
      exact ⟨_, hheads⟩
    | some b =>
      obtain ⟨_, t, owner, source, -, -, hheads⟩ := h.copies ha (by rw [htemplate]; rfl)
      exact ⟨_, hheads⟩
  obtain ⟨before, hbefore⟩ := hheads
  have hlength := congrArg List.length hbefore
  rw [List.length_append, Node.heads, Node.heads, List.length_map, List.length_map] at hlength
  omega

theorem length_of_heads {n n' : Node} {more : List Statement}
    (h : Node.heads n'.children = Node.heads n.children ++ more) :
    n'.children.length = n.children.length + more.length := by
  have hlength := congrArg List.length h
  rwa [List.length_append, Node.heads, Node.heads, List.length_map, List.length_map] at hlength

/-- The children that no augment has added stay where they are. -/
theorem sub_length_graftsOf (done : List (Declaration.Augment × Address)) (hlength : added.length = x.nodes.length)
    {y y' : Node} {b : Address}
    (hheads : Node.heads y'.children = Node.heads y.children ++ if b = a then Node.heads added else []) :
    y'.children.length - (graftsOf (done ++ [(x, a)]) b).length =
      y.children.length - (graftsOf done b).length := by
  rw [graftsOf_append, List.length_append, length_of_heads hheads]
  by_cases hab : b = a
  · rw [if_pos hab, if_pos hab, Node.heads, List.length_map, hlength, Nat.add_sub_add_right]
  · rw [if_neg hab, if_neg hab]
    rfl

theorem Stands.append (ha : s.nodeAt? a = some m) (hlength : added.length = x.nodes.length) {n : Node} {b : Address}
    (h : Stands declared (graftsOf done) s n b) :
    Stands declared (graftsOf (done ++ [(x, a)])) (s.appendAt a added) n b := by
  induction h with
  | top hm hn => exact .top hm hn
  | child _ hc ih => exact ih.child hc
  | @grafted b y n i hy hi =>
    obtain ⟨y', hy', -, hheads⟩ := nodeAt?_appendAt added ha hy
    have hi' : (graftsOf (done ++ [(x, a)]) b)[i]? = some n := by
      rw [graftsOf_append, List.getElem?_append_left (List.getElem?_eq_some_iff.mp hi).1, hi]
    rw [← sub_length_graftsOf done hlength hheads]
    exact .grafted hy' hi'

theorem Laid.stands_added (h : Laid declared M done s) (ha : s.nodeAt? a = some m)
    (hlength : added.length = x.nodes.length) {k : Nat} {y n : Node} (hy : x.nodes[k]? = some y) {js : List Nat}
    (hn : y.at? js = some n) :
    Stands declared (graftsOf (done ++ [(x, a)])) (s.appendAt a added) n (addedAt a m k js) := by
  obtain ⟨m', hm', -, hheads⟩ := nodeAt?_appendAt added ha ha
  have hcount := length_of_heads hheads
  have hle := h.length_graftsOf_le ha
  have hgrafts : graftsOf (done ++ [(x, a)]) a = graftsOf done a ++ x.nodes := by rw [graftsOf_append, if_pos rfl]
  have hk : (graftsOf (done ++ [(x, a)]) a)[(graftsOf done a).length + k]? = some y := by
    rw [hgrafts, List.getElem?_append_right (Nat.le_add_right _ _), Nat.add_sub_cancel_left, hy]
  have hstands : Stands declared _ _ _ _ := .grafted hm' hk
  rw [if_pos rfl, Node.heads, List.length_map] at hcount
  have hindex : m'.children.length - (graftsOf (done ++ [(x, a)]) a).length + ((graftsOf done a).length + k) =
      m.children.length + k := by
    rw [hgrafts, List.length_append]
    omega
  rw [hindex] at hstands
  have hbelow := hstands.descend hn
  simpa [addedAt, Address.child] using hbelow

/-- What stands somewhere after an augment has stood there before or has been added by it. -/
theorem Laid.stands_cases (h : Laid declared M done s) (ha : s.nodeAt? a = some m)
    (hlength : added.length = x.nodes.length) {n : Node} {b : Address}
    (hn : Stands declared (graftsOf (done ++ [(x, a)])) (s.appendAt a added) n b) :
    Stands declared (graftsOf done) s n b ∨
      ∃ k js y, x.nodes[k]? = some y ∧ y.at? js = some n ∧ b = addedAt a m k js := by
  induction hn with
  | top hm hn => exact .inl (.top hm hn)
  | @child n c b i _ hc ih =>
    rcases ih with hold | ⟨k, js, y, hk, hy, rfl⟩
    · exact .inl (hold.child hc)
    · refine .inr ⟨k, js ++ [i], y, hk, ?_, by simp [addedAt, Address.child]⟩
      rw [Node.at?_append, hy, Option.bind_some, Node.at?, hc]
      rfl
  | @grafted b y' n i hy' hi =>
    rcases nodeAt?_of_appendAt ha hy' with hold | ⟨k, js, -, -, -, rfl⟩
    · obtain ⟨y, hy⟩ := Option.isSome_iff_exists.mp hold
      obtain ⟨y'', hy'', -, hheads⟩ := nodeAt?_appendAt added ha hy
      obtain rfl := Option.some.inj (hy'.symm.trans hy'')
      have hcount := length_of_heads hheads
      have hle := h.length_graftsOf_le hy
      by_cases hlt : i < (graftsOf done b).length
      · have hi₀ := hi
        rw [graftsOf_append, List.getElem?_append_left hlt] at hi₀
        rw [sub_length_graftsOf done hlength hheads]
        exact .inl (.grafted hy hi₀)
      · rw [graftsOf_append, List.getElem?_append_right (Nat.le_of_not_lt hlt)] at hi
        by_cases hab : b = a
        · obtain rfl := hab
          obtain rfl := Option.some.inj (ha.symm.trans hy)
          rw [if_pos rfl] at hi hcount
          rw [Node.heads, List.length_map] at hcount
          refine .inr ⟨i - (graftsOf done b).length, [], n, hi, rfl, ?_⟩
          rw [addedAt, Address.child, graftsOf_append, if_pos rfl, List.length_append]
          congr 3
          omega
        · rw [if_neg hab] at hi
          cases hi
    · rw [show ({ a with path := a.path ++ (m.children.length + k) :: js } : Address) = addedAt a m k js from rfl,
        h.graftsOf_addedAt ha] at hi
      cases hi

theorem heads_graftsOf_append (done : List (Declaration.Augment × Address))
    (hadded : List.Forall₂ (Unfolds declared M) x.nodes added) (b : Address) :
    Node.heads (graftsOf (done ++ [(x, a)]) b) =
      Node.heads (graftsOf done b) ++ if b = a then Node.heads added else [] := by
  rw [graftsOf_append, Node.heads_append]
  congr 1
  split
  · exact (Node.heads_of_forall₂ (hadded.imp fun _ _ hn => (unfolds_iff.mp hn).1)).symm
  · rfl

/-- What stands anywhere after an augment: what has stood there, or a node of an added tree. -/
theorem Laid.nodeAt?_cases (h : Laid declared M done s) (ha : s.nodeAt? a = some m)
    (hadded : List.Forall₂ (Unfolds declared M) x.nodes added) {b : Address} {y' : Node}
    (hy' : (s.appendAt a added).nodeAt? b = some y') :
    (∃ y, s.nodeAt? b = some y ∧ y'.toStatement = y.toStatement ∧ Node.heads y'.children =
      Node.heads y.children ++ if b = a then Node.heads added else []) ∨
    ∃ k js, b = addedAt a m k js ∧ ((∃ n, Stands declared (graftsOf (done ++ [(x, a)])) (s.appendAt a added) n b ∧
      Unfolds declared M n y') ∨ IsCopied M y') := by
  rcases nodeAt?_of_appendAt ha hy' with hold | ⟨k, js, z, hz, hzy, rfl⟩
  · obtain ⟨y, hy⟩ := Option.isSome_iff_exists.mp hold
    obtain ⟨y'', hy'', hst, hheads⟩ := nodeAt?_appendAt added ha hy
    obtain rfl := Option.some.inj (hy'.symm.trans hy'')
    exact .inl ⟨y, hy, hst, hheads⟩
  · refine .inr ⟨k, js, rfl, ?_⟩
    obtain ⟨n, hn, hunfolds⟩ := getElem?_of_forall₂_right hadded hz
    rcases hunfolds.at? hzy with ⟨n', hn', h'⟩ | hcopied
    · exact .inl ⟨n', h.stands_added ha hadded.length_eq.symm hn hn', h'⟩
    · exact .inr hcopied

theorem nodeAt?_appendAt_addedAt (ha : s.nodeAt? a = some m) {k : Nat} {z : Node} (hz : added[k]? = some z)
    (js : List Nat) :
    (s.appendAt a added).nodeAt? (addedAt a m k js) = z.at? js := by
  have htop := nodeAt?_append ((nodeAt?_appendAt_added added ha k).trans hz) js
  simpa [addedAt, Address.child] using htop

/-- An augment keeps what stands where, and what it adds stands below its target. -/
theorem Laid.appendAt (hs : IsDeclaredSchema declared) (h : Laid declared M done s)
    (hdone : ∀ e ∈ done, ∀ n ∈ e.1.nodes, IsDeclared n) (hx : ∀ n ∈ x.nodes, IsDeclared n)
    (ha : s.nodeAt? a = some m) (hadded : List.Forall₂ (Unfolds declared M) x.nodes added) :
    Laid declared M (done ++ [(x, a)]) (s.appendAt a added) := by
  have hlength : added.length = x.nodes.length := hadded.length_eq.symm
  have hdone' : ∀ e ∈ done ++ [(x, a)], ∀ n ∈ e.1.nodes, IsDeclared n := by
    intro e he
    rcases List.mem_append.mp he with he | he
    · exact hdone e he
    · rw [List.mem_singleton.mp he]
      exact hx
  refine ⟨fun {n b} hn => ?_, fun {b y'} hy' ht => ?_, fun {b y'} hy' ht => ?_, fun e he => ?_⟩
  · rcases h.stands_cases ha hlength hn with hold | ⟨k, js, y, hk, hy, rfl⟩
    · obtain ⟨y, hy, htop, blocks, hblocks, hchildren⟩ := h.stands hold
      obtain ⟨y', hy', hst, hchildren'⟩ := nodeAt?_appendAt added ha hy
      refine ⟨y', hy', hst.trans htop, blocks, hblocks, ?_⟩
      rw [hchildren', hchildren, heads_graftsOf_append done hadded, List.append_assoc]
    · obtain ⟨z, hz, hunfolds⟩ := getElem?_of_forall₂ hadded hk
      obtain ⟨w, hw, hnw⟩ := hunfolds.exists_at? js hy
      obtain ⟨htop, blocks, hblocks, hchildren⟩ := stands_of_unfolds hnw
      refine ⟨w, (nodeAt?_appendAt_addedAt ha hz js).trans hw, htop, blocks, hblocks, ?_⟩
      rw [hchildren, h.graftsOf_addedAt ha]
      exact (List.append_nil _).symm
  · rcases h.nodeAt?_cases ha hadded hy' with ⟨y, hy, hst, hchildren'⟩ | ⟨k, js, rfl, ⟨n, hn, hny⟩ | hcopied⟩
    · have htemplate : y.template.isSome = true := by
        rw [← show y'.template = y.template by rw [hst]]
        exact ht
      obtain ⟨c, t, owner, source, hc, hcopy, hchildren⟩ := h.copies hy htemplate
      refine ⟨c, t, owner, source, hc, ?_, ?_⟩
      · rw [hst, hcopy]
      · rw [hchildren', hchildren, heads_graftsOf_append done hadded, List.append_assoc]
    · rw [show y'.template = n.template by rw [(unfolds_iff.mp hny).1], hn.template hs hdone'] at ht
      cases ht
    · obtain ⟨c, t, owner, source, hc, hst, hchildren⟩ := copies_of_isCopied hcopied
      refine ⟨c, t, owner, source, hc, hst, ?_⟩
      rw [hchildren, h.graftsOf_addedAt ha]
      exact (List.append_nil _).symm
  · rcases h.nodeAt?_cases ha hadded hy' with ⟨y, hy, hst, -⟩ | ⟨k, js, rfl, ⟨n, hn, -⟩ | hcopied⟩
    · obtain ⟨n, hn⟩ := h.own hy (by rw [← show y'.template = y.template by rw [hst], ht])
      exact ⟨n, hn.append ha hlength⟩
    · exact ⟨n, hn⟩
    · have hsome := template_of_isCopied hcopied
      rw [ht] at hsome
      cases hsome
  · obtain ⟨y, hy⟩ := Option.isSome_iff_exists.mp (h.isSome_target ha he)
    obtain ⟨y', hy', -, -⟩ := nodeAt?_appendAt added ha hy
    rw [hy']
    rfl

end

end Schema

end RestconfApi
