import RestconfApi.Proofs.Lists
import RestconfApi.Proofs.Schema.Paths
import RestconfApi.Proofs.Schema.Stems

/-!
# Schema: what expansion ensures

Groupings are expanded one by one, each from those before it, and an expanded grouping stays as it is. All
trees that expansion leaves stem from the bodies of the groupings expanded so far.
-/

namespace RestconfApi

/-- Putting a value under a key that is not there adds it at the end. -/
theorem Entries.put_of_get?_none {κ α : Type} [BEq κ] {k : κ} {m : Entries κ α} (h : m.get? k = none)
    (v : α) : m.put k v = m ++ [(k, v)] := by
  induction m with
  | nil => rfl
  | cons e m ih =>
    obtain ⟨k', v'⟩ := e
    by_cases hk : (k' == k) = true
    · rw [get?, if_pos hk] at h
      cases h
    · rw [get?, if_neg hk] at h
      rw [put, if_neg hk, ih h, List.cons_append]

theorem Entries.get?_append {κ α : Type} [BEq κ] (k : κ) (m m' : Entries κ α) :
    Entries.get? k (m ++ m') = (m.get? k).or (m'.get? k) := by
  induction m with
  | nil => rfl
  | cons e m ih =>
    obtain ⟨k', v'⟩ := e
    by_cases hk : (k' == k) = true <;> simp [get?, hk, ih]

namespace Expansion

/-! ### Steps -/

/-- If `x` run from `M` succeeds then `Q` holds of what it gives and leaves. -/
def Gives {α : Type} (x : Expanding α) (M : Expanded) (Q : α → Expanded → Prop) : Prop :=
  ∀ a M', (x M).result = .ok (a, M') → Q a M'

section Rules

variable {α β : Type} {M : Expanded} {Q : β → Expanded → Prop}

theorem Gives.mono {x : Expanding β} {Q' : β → Expanded → Prop} (h : Gives x M Q)
    (hQ : ∀ a M', Q a M' → Q' a M') : Gives x M Q' :=
  fun a M' hx => hQ a M' (h a M' hx)

theorem gives_pure {b : β} (h : Q b M) : Gives (pure b) M Q := by
  rintro _ _ ⟨⟩
  exact h

theorem gives_fail {e : Failure} : Gives (fail e : Expanding β) M Q := by
  rintro _ _ ⟨⟩

theorem gives_bind {x : Expanding α} {f : α → Expanding β}
    (h : Gives x M fun a M' => Gives (f a) M' Q) : Gives (x >>= f) M Q := by
  intro b M' hx
  obtain ⟨⟨a, M₁⟩, ha, hb⟩ := Logged.ok_of_bind (x := x M) (f := fun r => f r.1 r.2) hx
  exact h a M₁ ha b M' hb

theorem gives_lift {x : Logged β} (h : ∀ b, x.result = .ok b → Q b M) :
    Gives (liftM x : Expanding β) M Q := by
  intro b M' hx
  obtain ⟨a, ha, hb⟩ := Logged.ok_of_bind (x := x) (f := fun a => pure (a, M)) hx
  obtain ⟨rfl, rfl⟩ := Prod.mk.inj (Except.ok.inj hb)
  exact h a ha

theorem gives_get {Q : Expanded → Expanded → Prop} (h : Q M M) : Gives (get : Expanding Expanded) M Q := by
  rintro _ _ ⟨⟩
  exact h

theorem gives_modify {f : Expanded → Expanded} {Q : Unit → Expanded → Prop} (h : Q () (f M)) :
    Gives (modify f : Expanding Unit) M Q := by
  rintro _ _ ⟨⟩
  exact h

/-- A loop relates each element to its value, if what is known of earlier ones stays true. -/
theorem gives_mapM {f : α → Expanding β} {l : List α} (I : Expanded → Expanded → Prop)
    (R : α → β → Expanded → Prop) (hrefl : ∀ M, I M M) (htrans : ∀ M M' M'', I M M' → I M' M'' → I M M'')
    (hR : ∀ a b M M', I M M' → R a b M → R a b M')
    (hstep : ∀ a ∈ l, ∀ M', I M M' → Gives (f a) M' fun b M'' => I M' M'' ∧ R a b M'') :
    Gives (l.mapM f) M fun bs M' => I M M' ∧ List.Forall₂ (fun a b => R a b M') l bs := by
  induction l generalizing M with
  | nil => exact gives_pure ⟨hrefl M, .nil⟩
  | cons a l ih =>
    rw [List.mapM_cons]
    refine gives_bind ((hstep a List.mem_cons_self M (hrefl M)).mono fun b M₁ ⟨hI, hb⟩ => ?_)
    refine gives_bind ((ih fun x hx M' hM' => hstep x (List.mem_cons_of_mem _ hx) M'
      (htrans _ _ _ hI hM')).mono fun bs M₂ ⟨hI', hbs⟩ => ?_)
    exact gives_pure ⟨htrans _ _ _ hI hI', .cons (hR _ _ _ _ hI' hb) hbs⟩

end Rules

/-- The expansion of all modules, and of the augments after that. -/
def expanding (declared : Schema) (augments : List Declaration.Augment) : Expanding Schema := do
  let modules ← declared.modules.zipIdx.mapM fun (m, i) => module declared m i
  augments.foldlM (augment declared) ⟨modules⟩

/-! ### Groupings expanded so far -/

/-- The node at an address in the groupings expanded so far. -/
def Expanded.node? (M : Expanded) (a : Address) : Option Node :=
  match a.path with
  | [] => none
  | i :: is => (M.get? { a with path := [i] }).bind (Node.at? is)

/-- Every expanded grouping is still there. -/
def Expanded.Grows (M M' : Expanded) : Prop := ∀ a n, M.get? a = some n → M'.get? a = some n

theorem Expanded.Grows.node? {M M' : Expanded} (h : M.Grows M') {a : Address} {n : Node}
    (hn : M.node? a = some n) : M'.node? a = some n := by
  unfold Expanded.node? at hn ⊢
  split at hn
  · cases hn
  · obtain ⟨b, hb, hn⟩ := Option.bind_eq_some_iff.mp hn
    rw [h _ _ hb]
    exact hn

variable {s : Schema}

/-- Groupings expanded one after the other: nothing in one stems from itself or a later one. -/
inductive Expanded.Built (s : Schema) : Expanded → Prop
  | nil : Built s []
  | snoc {M : Expanded} {i : Nat} {g : Place} {n : Node} : Built s M → g ∈ s.tops i .groupings →
      M.get? g.address = none → n.toStatement = g.node.toStatement →
      n.Everywhere (Stems s False M.node?) → Built s (M ++ [(g.address, n)])

/-- What an expansion does to the groupings expanded so far, while those named in `under` are being
expanded. -/
structure Steps (s : Schema) (under : List String) (M M' : Expanded) : Prop where
  built : M.Built s → M'.Built s
  grows : M.Grows M'
  keeps : ∀ i, ∀ g ∈ s.tops i .groupings, g.node.qname ∈ under → M.get? g.address = none →
    M'.get? g.address = none

variable {under : List String} {M M' M'' : Expanded}

theorem Steps.refl (M : Expanded) : Steps s under M M := ⟨id, fun _ _ h => h, fun _ _ _ _ h => h⟩

theorem Steps.trans (h : Steps s under M M') (h' : Steps s under M' M'') : Steps s under M M'' where
  built := fun hM => h'.built (h.built hM)
  grows := fun a n hn => h'.grows a n (h.grows a n hn)
  keeps := fun i g hg hu hn => h'.keeps i g hg hu (h.keeps i g hg hu hn)

/-- Gives the expanded form of groupings, without expanding those under expansion. -/
def Supplies (s : Schema) (under : List String) (supply : Place → Expanding Node) : Prop :=
  ∀ i, ∀ g ∈ s.tops i .groupings, ∀ M, M.Built s →
    Gives (supply g) M fun n M' => Steps s under M M' ∧ M'.get? g.address = some n

/-! ### Copies of bodies -/

/-- What a `uses` of the statement adds. -/
def IsBlock (s : Schema) (st : Statement) (ref : String) (block : List Node) (M : Expanded) : Prop :=
  s.grouping? ref st.owner = none ∧ block = [] ∨
    ∃ g b, s.grouping? ref st.owner = some g ∧ M.get? g.address = some b ∧
      block = (Node.copyAllFor st.owner g.node.qname g.address 0 b.children).map fun n =>
        { n with addedBy := some g.node.qname }

theorem mem_tops_of_grouping? {ref : String} {owner : Name} {g : Place}
    (h : s.grouping? ref owner = some g) : ∃ i, g ∈ s.tops i .groupings := by
  obtain ⟨m, i, -, -, hm, hg, -⟩ := Schema.mem_of_grouping? h
  exact ⟨i, by rw [Schema.tops, hm]; exact hg⟩

theorem node?_grouping {i : Nat} {g : Place} {b : Node} (hg : g ∈ s.tops i .groupings)
    (hb : M.get? g.address = some b) (is : List Nat) :
    M.node? { g.address with path := g.address.path ++ is } = b.at? is := by
  obtain ⟨j, hj⟩ := Schema.address_of_mem_tops hg
  rw [hj] at hb ⊢
  show (M.get? ⟨i, .groupings, [j]⟩).bind (Node.at? is) = _
  rw [hb]
  rfl

theorem supplied_gives {supply : Place → Expanding Node} (hsupply : Supplies s under supply)
    (path : List String) (st : Statement) (ref : String) (hM : M.Built s) :
    Gives (supplied s supply path st ref) M fun block M' =>
      Steps s under M M' ∧ IsBlock s st ref block M' := by
  unfold supplied
  cases hg : s.grouping? ref st.owner with
  | none =>
    dsimp only
    exact gives_bind (gives_lift fun _ _ => gives_pure ⟨.refl M, .inl ⟨hg, rfl⟩⟩)
  | some g =>
    obtain ⟨i, hi⟩ := mem_tops_of_grouping? hg
    refine gives_bind ((hsupply i g hi M hM).mono fun b M₁ ⟨hsteps, hb⟩ => ?_)
    exact gives_pure ⟨hsteps, .inr ⟨g, b, hg, hb, rfl⟩⟩

namespace IsBlock

variable {st : Statement} {ref : String} {block : List Node}

theorem grow (h : IsBlock s st ref block M) (hM : M.Grows M') : IsBlock s st ref block M' := by
  rcases h with h | ⟨g, b, hg, hb, hblock⟩
  · exact .inl h
  · exact .inr ⟨g, b, hg, hM _ _ hb, hblock⟩

theorem getElem? {g : Place} {b : Node}
    (hblock : block = (Node.copyAllFor st.owner g.node.qname g.address 0 b.children).map fun n =>
      { n with addedBy := some g.node.qname }) (j : Nat) :
    block[j]? = b.children[j]?.map fun n =>
      { n.copyFor st.owner g.node.qname (g.address.child j) with addedBy := some g.node.qname } := by
  rw [hblock, List.getElem?_map, Node.getElem?_copyAllFor, Nat.zero_add, Option.map_map]
  rfl

theorem isFrom (h : IsBlock s st ref block M) {m : Node} (hm : m ∈ block) :
    ∃ g, s.grouping? ref st.owner = some g ∧ m.IsFrom g ∧ m.owner = st.owner := by
  rcases h with ⟨-, rfl⟩ | ⟨g, b, hg, -, hblock⟩
  · simp at hm
  · obtain ⟨j, hj⟩ := List.mem_iff_getElem?.mp hm
    rw [getElem? hblock] at hj
    obtain ⟨n, -, rfl⟩ := Option.map_eq_some_iff.mp hj
    exact ⟨g, hg, ⟨rfl, j, Node.template_copyFor st.owner g.node.qname (g.address.child j) n⟩,
      Node.owner_copyFor st.owner g.node.qname (g.address.child j) n⟩

theorem everywhere (h : IsBlock s st ref block M) {m : Node} (hm : m ∈ block) :
    m.Everywhere (Stems s False M.node?) := by
  rcases h with ⟨-, rfl⟩ | ⟨g, b, hg, hb, hblock⟩
  · simp at hm
  · obtain ⟨i, hi⟩ := mem_tops_of_grouping? hg
    obtain ⟨j, hj⟩ := List.mem_iff_getElem?.mp hm
    rw [getElem? hblock] at hj
    obtain ⟨n, hn, rfl⟩ := Option.map_eq_some_iff.mp hj
    have hcopy : (n.copyFor st.owner g.node.qname (g.address.child j)).Everywhere (Stems s False M.node?) := by
      refine Node.everywhere_copyFor _ _ n _ fun is => ?_
      have := node?_grouping hi hb (j :: is)
      rw [Node.at?, hn] at this
      simpa [Address.child] using this
    obtain ⟨hstems, hchildren⟩ := Node.everywhere_iff.mp hcopy
    exact Node.everywhere_iff.mpr ⟨hstems.addedBy _, hchildren⟩

theorem complete (h : IsBlock s st ref block M) {g : Place} (hg : s.grouping? ref st.owner = some g) :
    ∃ b, M.node? g.address = some b ∧ ∀ j < b.children.length, ∃ c ∈ Node.heads block,
      c.addedBy = some g.node.qname ∧ c.template = some (g.address.child j) := by
  rcases h with ⟨hnone, -⟩ | ⟨g', b, hg', hb, hblock⟩
  · rw [hnone] at hg
    cases hg
  · obtain rfl := Option.some.inj (hg'.symm.trans hg)
    obtain ⟨i, hi⟩ := mem_tops_of_grouping? hg
    refine ⟨b, ?_, fun j hj => ?_⟩
    · have := node?_grouping hi hb []
      rwa [List.append_nil] at this
    · have hget := getElem? hblock j
      rw [List.getElem?_eq_getElem hj] at hget
      exact ⟨_, List.mem_map_of_mem (List.mem_of_getElem? hget), rfl,
        Node.template_copyFor st.owner g'.node.qname (g'.address.child j) b.children[j]⟩

/-- A declared statement with its own children and what its `uses` add. -/
theorem stems {own : List Node} {blocks : List (List Node)} (hst : st.template = none)
    (hown : ∀ c ∈ Node.heads own, c.IsOwn ∧ c.owner = st.owner)
    (hblocks : List.Forall₂ (fun ref block => IsBlock s st ref block M) st.uses blocks) :
    Stems s False M.node? st (Node.heads (own ++ blocks.flatten)) := by
  rw [Node.heads_append]
  refine .declared hst (fun c hc => ?_) fun ref href g hg => ?_
  · rcases List.mem_append.mp hc with hc | hc
    · exact .inl ((hown c hc).imp_right .inl)
    · obtain ⟨m, hm, rfl⟩ := List.mem_map.mp hc
      obtain ⟨block, hblock, hm⟩ := List.mem_flatten.mp hm
      obtain ⟨ref, href, hR⟩ := exists_of_forall₂_right hblocks hblock
      obtain ⟨g, hg, hfrom⟩ := hR.isFrom hm
      exact .inr ⟨ref, href, g, hg, hfrom⟩
  · obtain ⟨block, hblock, hR⟩ := exists_of_forall₂ hblocks href
    obtain ⟨b, hb, hcopies⟩ := hR.complete hg
    refine ⟨b, hb, fun j hj => ?_⟩
    obtain ⟨c, hc, hcopy⟩ := hcopies j hj
    obtain ⟨m, hm, rfl⟩ := List.mem_map.mp hc
    exact ⟨_, List.mem_append_right _ (List.mem_map_of_mem (List.mem_flatten.mpr ⟨block, hblock, hm⟩)),
      hcopy⟩

end IsBlock

/-! ### Expansion of trees -/

/-- What a tree becomes: its top stays as it was declared, and everything in it stems from bodies. -/
structure Becomes (s : Schema) (n n' : Node) (M : Expanded) : Prop where
  top : n'.toStatement = n.toStatement
  everywhere : n'.Everywhere (Stems s False M.node?)

theorem Becomes.grow {n n' : Node} (h : Becomes s n n' M) (hM : M.Grows M') : Becomes s n n' M' :=
  ⟨h.top, h.everywhere.mono fun _ _ hs => hs.mono fun _ _ hn => hM.node? hn⟩

/-- A tree as it is declared, without copies, and owned by one module. -/
abbrev IsDeclared (n : Node) : Prop :=
  n.Everywhere fun st cs => st.IsOwn ∧ ∀ c ∈ cs, c.IsOwn ∧ c.owner = st.owner

mutual

theorem node_gives {supply : Place → Expanding Node} (hsupply : Supplies s under supply)
    (above : List String) : ∀ (n : Node), IsDeclared n → ∀ {M : Expanded}, M.Built s →
      Gives (node s supply above n) M fun n' M' => Steps s under M M' ∧ Becomes s n n' M'
  | ⟨st, cs⟩, hn, M, hM => by
    obtain ⟨hst, hcs⟩ := Node.everywhere_iff.mp hn
    unfold node
    refine gives_bind ((nodes_gives hsupply _ cs hcs hM).mono fun cs' M₁ ⟨h₁, hcs'⟩ => ?_)
    refine gives_bind ((gives_mapM (Steps s under) (IsBlock s st) .refl (fun _ _ _ h h' => h.trans h')
      (fun _ _ _ _ h hb => hb.grow h.grows)
      fun ref _ M' h => supplied_gives hsupply _ st ref (h.built (h₁.built hM))).mono
      fun blocks M₂ ⟨h₂, hblocks⟩ => ?_)
    refine gives_pure ⟨h₁.trans h₂, rfl, Node.everywhere_iff.mpr ⟨?_, fun m hm => ?_⟩⟩
    · refine IsBlock.stems hst.1.template (fun c hc => ?_) hblocks
      obtain ⟨m', hm', rfl⟩ := List.mem_map.mp hc
      obtain ⟨m, hm, hbecomes⟩ := exists_of_forall₂_right hcs' hm'
      rw [hbecomes.top]
      exact hst.2 _ (List.mem_map_of_mem hm)
    · rcases List.mem_append.mp hm with hm | hm
      · obtain ⟨m', -, hbecomes⟩ := exists_of_forall₂_right hcs' hm
        exact (hbecomes.grow h₂.grows).everywhere
      · obtain ⟨block, hblock, hm⟩ := List.mem_flatten.mp hm
        obtain ⟨ref, -, hR⟩ := exists_of_forall₂_right hblocks hblock
        exact hR.everywhere hm

theorem nodes_gives {supply : Place → Expanding Node} (hsupply : Supplies s under supply)
    (above : List String) : ∀ (ns : List Node), (∀ n ∈ ns, IsDeclared n) → ∀ {M : Expanded}, M.Built s →
      Gives (nodes s supply above ns) M fun ns' M' =>
        Steps s under M M' ∧ List.Forall₂ (fun n n' => Becomes s n n' M') ns ns'
  | [], _, M, _ => gives_pure ⟨.refl M, .nil⟩
  | n :: ns, hns, M, hM => by
    unfold nodes
    refine gives_bind ((node_gives hsupply above n (hns n List.mem_cons_self) hM).mono
      fun n' M₁ ⟨h₁, hn'⟩ => ?_)
    refine gives_bind ((nodes_gives hsupply above ns (fun m hm => hns m (List.mem_cons_of_mem _ hm))
      (h₁.built hM)).mono fun ns' M₂ ⟨h₂, hns'⟩ => ?_)
    exact gives_pure ⟨h₁.trans h₂, .cons (hn'.grow h₂.grows) hns'⟩

end

/-- The groupings of the schema are as they are declared. -/
def HasDeclaredGroupings (s : Schema) : Prop := ∀ i, ∀ g ∈ s.tops i .groupings, IsDeclared g.node

theorem get?_put {M : Expanded} {a b : Address} {n : Node} (h : M.get? a = none) :
    (M.put a n).get? b = (M.get? b).or (if a = b then some n else none) := by
  rw [Entries.put_of_get?_none h, Entries.get?_append, Entries.get?]
  by_cases hab : a = b <;> simp [hab]

theorem supplies_grouping (hs : HasDeclaredGroupings s) (fuel : Nat) (under : List String) :
    Supplies s under (grouping s fuel under) := by
  induction fuel generalizing under with
  | zero =>
    intro i g _ M _
    unfold grouping
    exact gives_fail
  | succ fuel ih =>
    intro i g hg M hM
    unfold grouping
    refine gives_bind (gives_get ?_)
    split
    · exact gives_pure ⟨.refl M, ‹_›⟩
    · rename_i hnone
      dsimp only
      split
      · exact gives_fail
      · rename_i hunder
        refine gives_bind ((node_gives (ih (under ++ [g.node.qname])) [] g.node (hs i g hg) hM).mono
          fun n M₁ ⟨h₁, hn⟩ => ?_)
        -- the grouping has not been expanded meanwhile
        have hstill : M₁.get? g.address = none := h₁.keeps i g hg (by simp) hnone
        refine gives_bind (gives_modify (gives_pure ⟨⟨fun hM => ?_, fun a m hm => ?_,
          fun j g' hg' hg'under hnone' => ?_⟩, ?_⟩))
        · rw [Entries.put_of_get?_none hstill]
          exact .snoc (h₁.built hM) hg hstill hn.top hn.everywhere
        · rw [get?_put hstill, h₁.grows a m hm]
          rfl
        · rw [get?_put hstill, h₁.keeps j g' hg' (List.mem_append_left _ hg'under) hnone',
            if_neg fun heq => ?_]
          · rfl
          · refine hunder ?_
            rw [(Schema.has_of_mem_tops hg).eq (Schema.has_of_mem_tops hg') heq]
            exact hg'under
        · rw [get?_put hstill, hstill, if_pos rfl]
          rfl

theorem supplies_supply (hs : HasDeclaredGroupings s) : Supplies s [] (supply s) :=
  supplies_grouping hs _ []

end Expansion

end RestconfApi
