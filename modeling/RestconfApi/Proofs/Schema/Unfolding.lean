import RestconfApi.Proofs.Schema.Expansion

/-!
# Schema: what expansion computes

Expansion keeps the groupings that it has expanded and expands others when it meets a use of them. What it makes of
a tree is what the declared tree and the expanded groupings determine, and the expanded groupings are determined by
the declared ones: it does not matter in which order they are expanded.
-/

namespace RestconfApi.Expansion

variable {s : Schema} {M M' M'' : Expanded} {under : List String}

/-! ### Unfolded trees -/

mutual

/-- The second tree is the first one with all `uses` in it expanded: each node has its own children and then what
its `uses` add, one after the other. -/
def Unfolds (s : Schema) (M : Expanded) : Node → Node → Prop
  | ⟨st, cs⟩, n' => n'.toStatement = st ∧ ∃ own blocks, n'.children = own ++ List.flatten blocks ∧
      UnfoldsAll s M cs own ∧ List.Forall₂ (fun ref block => IsBlock s st ref block M) st.uses blocks

def UnfoldsAll (s : Schema) (M : Expanded) : List Node → List Node → Prop
  | [], ns' => ns' = []
  | n :: ns, ns' => ∃ m ms, ns' = m :: ms ∧ Unfolds s M n m ∧ UnfoldsAll s M ns ms

end

theorem unfoldsAll_iff {ns ns' : List Node} : UnfoldsAll s M ns ns' ↔ List.Forall₂ (Unfolds s M) ns ns' := by
  induction ns generalizing ns' with
  | nil => rw [UnfoldsAll, List.forall₂_nil_left_iff]
  | cons n ns ih =>
    rw [UnfoldsAll]
    constructor
    · rintro ⟨m, ms, rfl, hm, hms⟩
      exact .cons hm (ih.mp hms)
    · rintro (_ | ⟨hm, hms⟩)
      exact ⟨_, _, rfl, hm, ih.mpr hms⟩

theorem unfolds_iff {n n' : Node} : Unfolds s M n n' ↔ n'.toStatement = n.toStatement ∧ ∃ own blocks,
    n'.children = own ++ List.flatten blocks ∧ List.Forall₂ (Unfolds s M) n.children own ∧
      List.Forall₂ (fun ref block => IsBlock s n.toStatement ref block M) n.uses blocks := by
  obtain ⟨st, cs⟩ := n
  simp only [Unfolds, unfoldsAll_iff]

mutual

theorem Unfolds.grow (hM : M.Grows M') : ∀ {n n' : Node}, Unfolds s M n n' → Unfolds s M' n n'
  | ⟨_, _⟩, _, ⟨htop, own, blocks, hchildren, hown, hblocks⟩ =>
    ⟨htop, own, blocks, hchildren, UnfoldsAll.grow hM hown, hblocks.imp fun _ _ h => h.grow hM⟩

theorem UnfoldsAll.grow (hM : M.Grows M') : ∀ {ns ns' : List Node}, UnfoldsAll s M ns ns' → UnfoldsAll s M' ns ns'
  | [], _, h => h
  | _ :: _, _, ⟨m, ms, heq, hm, hms⟩ => ⟨m, ms, heq, hm.grow hM, UnfoldsAll.grow hM hms⟩

end

/-! ### Tables of expanded groupings -/

/-- Groupings expanded one after the other, each of them unfolded from those before it. -/
inductive Expanded.Unfolded (s : Schema) : Expanded → Prop
  | nil : Unfolded s []
  | snoc {M : Expanded} {i : Nat} {g : Place} {n : Node} : Unfolded s M → g ∈ s.tops i .groupings →
      M.get? g.address = none → Unfolds s M g.node n → Unfolded s (M ++ [(g.address, n)])

theorem grows_append (pre post : Expanded) : pre.Grows (pre ++ post) := by
  intro a n h
  rw [Entries.get?_append, h]
  rfl

/-- An expanded grouping is unfolded. -/
theorem Expanded.Unfolded.unfolds (h : M.Unfolded s) {i : Nat} {g : Place} {n : Node}
    (hg : g ∈ s.tops i .groupings) (hn : M.get? g.address = some n) : Unfolds s M g.node n := by
  induction h with
  | nil => cases hn
  | @snoc M j g' n' hM hg' hnone hunfolds ih =>
    have hgrows := grows_append M [(g'.address, n')]
    rw [Entries.get?_append] at hn
    rcases Option.or_eq_some_iff.mp hn with hold | ⟨-, hnew⟩
    · exact (ih hold).grow hgrows
    · rw [Entries.get?] at hnew
      split at hnew
      · rename_i heq
        obtain rfl := (Schema.has_of_mem_tops hg').eq (Schema.has_of_mem_tops hg) (eq_of_beq heq)
        obtain rfl := Option.some.inj hnew
        exact hunfolds.grow hgrows
      · cases hnew

/-- What an expansion does to the groupings expanded so far, while those named in `under` are being expanded. -/
structure Unfolding (s : Schema) (under : List String) (M M' : Expanded) : Prop where
  unfolded : M.Unfolded s → M'.Unfolded s
  grows : M.Grows M'
  keeps : ∀ i, ∀ g ∈ s.tops i .groupings, g.node.qname ∈ under → M.get? g.address = none →
    M'.get? g.address = none

theorem Unfolding.refl (M : Expanded) : Unfolding s under M M := ⟨id, fun _ _ h => h, fun _ _ _ _ h => h⟩

theorem Unfolding.trans (h : Unfolding s under M M') (h' : Unfolding s under M' M'') : Unfolding s under M M'' where
  unfolded := fun hM => h'.unfolded (h.unfolded hM)
  grows := fun a n hn => h'.grows a n (h.grows a n hn)
  keeps := fun i g hg hu hn => h'.keeps i g hg hu (h.keeps i g hg hu hn)

/-! ### Expansion unfolds -/

/-- Gives the expanded form of groupings, without expanding those under expansion. -/
def Unfolder (s : Schema) (under : List String) (supply : Place → Expanding Node) : Prop :=
  ∀ i, ∀ g ∈ s.tops i .groupings, ∀ M,
    Gives (supply g) M fun n M' => Unfolding s under M M' ∧ M'.get? g.address = some n

section

variable {supply : Place → Expanding Node}

theorem supplied_unfolds (hsupply : Unfolder s under supply) (path : List String) (st : Statement) (ref : String)
    (M : Expanded) : Gives (supplied s supply path st ref) M fun block M' =>
      Unfolding s under M M' ∧ IsBlock s st ref block M' := by
  unfold supplied
  cases hg : s.grouping? ref st.owner with
  | none =>
    dsimp only
    exact gives_bind (gives_lift fun _ _ => gives_pure ⟨.refl M, .inl ⟨hg, rfl⟩⟩)
  | some g =>
    obtain ⟨i, hi⟩ := mem_tops_of_grouping? hg
    refine gives_bind ((hsupply i g hi M).mono fun b M₁ ⟨hsteps, hb⟩ => ?_)
    exact gives_pure ⟨hsteps, .inr ⟨g, b, hg, hb, rfl⟩⟩

mutual

theorem node_unfolds (hsupply : Unfolder s under supply) (above : List String) : ∀ (n : Node) (M : Expanded),
    Gives (node s supply above n) M fun n' M' => Unfolding s under M M' ∧ Unfolds s M' n n'
  | ⟨st, cs⟩, M => by
    unfold node
    refine gives_bind ((nodes_unfold hsupply _ cs M).mono fun own M₁ ⟨h₁, hown⟩ => ?_)
    refine gives_bind ((gives_mapM (Unfolding s under) (IsBlock s st) .refl (fun _ _ _ h h' => h.trans h')
      (fun _ _ _ _ h hb => hb.grow h.grows) fun ref _ M' _ => supplied_unfolds hsupply _ st ref M').mono
      fun blocks M₂ ⟨h₂, hblocks⟩ => ?_)
    refine gives_pure ⟨h₁.trans h₂, unfolds_iff.mpr ⟨rfl, own, blocks, rfl, ?_, hblocks⟩⟩
    exact hown.imp fun _ _ h => h.grow h₂.grows

theorem nodes_unfold (hsupply : Unfolder s under supply) (above : List String) : ∀ (ns : List Node) (M : Expanded),
    Gives (nodes s supply above ns) M fun ns' M' =>
      Unfolding s under M M' ∧ List.Forall₂ (Unfolds s M') ns ns'
  | [], M => gives_pure ⟨.refl M, .nil⟩
  | n :: ns, M => by
    unfold nodes
    refine gives_bind ((node_unfolds hsupply above n M).mono fun n' M₁ ⟨h₁, hn'⟩ => ?_)
    refine gives_bind ((nodes_unfold hsupply above ns M₁).mono fun ns' M₂ ⟨h₂, hns'⟩ => ?_)
    exact gives_pure ⟨h₁.trans h₂, .cons (hn'.grow h₂.grows) hns'⟩

end

end

theorem unfolder_grouping (s : Schema) (fuel : Nat) (under : List String) :
    Unfolder s under (grouping s fuel under) := by
  induction fuel generalizing under with
  | zero =>
    intro i g _ M
    unfold grouping
    exact gives_fail
  | succ fuel ih =>
    intro i g hg M
    unfold grouping
    refine gives_bind (gives_get ?_)
    split
    · exact gives_pure ⟨.refl M, ‹_›⟩
    · rename_i hnone
      dsimp only
      split
      · exact gives_fail
      · rename_i hunder
        refine gives_bind ((node_unfolds (ih (under ++ [g.node.qname])) [] g.node M).mono
          fun n M₁ ⟨h₁, hn⟩ => ?_)
        -- the grouping has not been expanded meanwhile
        have hstill : M₁.get? g.address = none := h₁.keeps i g hg (by simp) hnone
        refine gives_bind (gives_modify (gives_pure ⟨⟨fun hM => ?_, fun a m hm => ?_,
          fun j g' hg' hg'under hnone' => ?_⟩, ?_⟩))
        · rw [Entries.put_of_get?_none hstill]
          exact .snoc (h₁.unfolded hM) hg hstill hn
        · rw [get?_put hstill, h₁.grows a m hm]
          rfl
        · rw [get?_put hstill, h₁.keeps j g' hg' (List.mem_append_left _ hg'under) hnone',
            if_neg fun heq => ?_]
          · rfl
          · refine hunder ?_
            rw [(Schema.has_of_mem_tops hg).eq (Schema.has_of_mem_tops hg') heq]
            exact hg'under
        · rw [get?_put hstill, hstill, if_pos rfl]
          rfl

theorem unfolder_supply (s : Schema) : Unfolder s [] (supply s) := unfolder_grouping s _ []

/-! ### Tables agree -/

/-- Both tables have the same expanded form of a grouping if both have one. -/
def Expanded.Agrees (M M' : Expanded) : Prop := ∀ a n n', M.get? a = some n → M'.get? a = some n' → n = n'

theorem IsBlock.eq {st : Statement} {ref : String} {block block' : List Node} (hM : M.Agrees M')
    (h : IsBlock s st ref block M) (h' : IsBlock s st ref block' M') : block = block' := by
  rcases h with ⟨hnone, rfl⟩ | ⟨g, b, hg, hb, rfl⟩ <;> rcases h' with ⟨hnone', rfl⟩ | ⟨g', b', hg', hb', rfl⟩
  · rfl
  · rw [hnone] at hg'
    cases hg'
  · rw [hnone'] at hg
    cases hg
  · obtain rfl := Option.some.inj (hg.symm.trans hg')
    rw [hM _ _ _ hb hb']

theorem eq_of_forall₂ {α β : Type} {R R' : α → β → Prop} {l : List α} {l₁ l₂ : List β}
    (h : List.Forall₂ R l l₁) (h' : List.Forall₂ R' l l₂) (heq : ∀ a b b', R a b → R' a b' → b = b') : l₁ = l₂ := by
  induction h generalizing l₂ with
  | nil =>
    cases h'
    rfl
  | cons hR _ ih =>
    cases h' with
    | cons hR' h' => rw [heq _ _ _ hR hR', ih h']

mutual

/-- A tree is unfolded in one way. -/
theorem Unfolds.eq (hM : M.Agrees M') : ∀ {n m m' : Node}, Unfolds s M n m → Unfolds s M' n m' → m = m'
  | ⟨_, _⟩, ⟨_, _⟩, ⟨_, _⟩, ⟨rfl, _, _, hchildren, hown, hblocks⟩, ⟨htop', _, _, hchildren', hown', hblocks'⟩ => by
    dsimp only at hchildren hchildren' htop'
    rw [hchildren, hchildren', UnfoldsAll.eq hM hown hown',
      eq_of_forall₂ hblocks hblocks' fun _ _ _ hb hb' => IsBlock.eq hM hb hb', htop']

theorem UnfoldsAll.eq (hM : M.Agrees M') :
    ∀ {ns ms ms' : List Node}, UnfoldsAll s M ns ms → UnfoldsAll s M' ns ms' → ms = ms'
  | [], _, _, rfl, rfl => rfl
  | _ :: _, _, _, ⟨_, _, rfl, hm, hms⟩, ⟨_, _, rfl, hm', hms'⟩ => by
    rw [hm.eq hM hm', UnfoldsAll.eq hM hms hms']

end

/-- The groupings have one expanded form, in whatever order they are expanded. -/
theorem Expanded.Unfolded.agrees (h : M.Unfolded s) (h' : M'.Unfolded s) : M.Agrees M' := by
  induction h with
  | nil => exact nofun
  | @snoc M i g n hM hg hnone hunfolds ih =>
    intro a m m' hm hm'
    rw [Entries.get?_append] at hm
    rcases Option.or_eq_some_iff.mp hm with hold | ⟨-, hnew⟩
    · exact ih a m m' hold hm'
    · rw [Entries.get?] at hnew
      split at hnew
      · rename_i heq
        obtain rfl := eq_of_beq heq
        obtain rfl := Option.some.inj hnew
        exact hunfolds.eq ih (h'.unfolds hg hm')
      · cases hnew

/-! ### Schemas -/

/-- What the `i`-th module becomes before any augment is applied. -/
structure ModuleUnfolds (s : Schema) (M : Expanded) (mi : Module × Nat) (m' : Module) : Prop where
  rest : m' = { mi.1 with groupings := m'.groupings, data := m'.data, rpcs := m'.rpcs }
  groupings : List.Forall₂ (fun g n => M.get? g.address = some n) (s.tops mi.2 .groupings) m'.groupings
  data : List.Forall₂ (Unfolds s M) mi.1.data m'.data
  rpcs : List.Forall₂ (Unfolds s M) mi.1.rpcs m'.rpcs

theorem ModuleUnfolds.grow {mi : Module × Nat} {m' : Module} (h : ModuleUnfolds s M mi m') (hM : M.Grows M') :
    ModuleUnfolds s M' mi m' where
  rest := h.rest
  groupings := h.groupings.imp fun _ _ hn => hM _ _ hn
  data := h.data.imp fun _ _ hn => hn.grow hM
  rpcs := h.rpcs.imp fun _ _ hn => hn.grow hM

/-- What the augments, one after the other, make of a schema. -/
inductive Grafts (s : Schema) (M : Expanded) : List Declaration.Augment → Schema → Schema → Prop
  | nil (S : Schema) : Grafts s M [] S S
  | cons {a : Declaration.Augment} {as : List Declaration.Augment} {S S' : Schema} {target : String} {p : Place}
      {added : List Node} : a.target.asText? = some target → S.node? target none = some p →
      List.Forall₂ (Unfolds s M) a.nodes added → Grafts s M as (S.appendAt p.address added) S' →
      Grafts s M (a :: as) S S'

theorem module_unfolds (m : Module) (i : Nat) (M : Expanded) :
    Gives (module s m i) M fun m' M' => Unfolding s [] M M' ∧ ModuleUnfolds s M' (m, i) m' := by
  have hsupply := unfolder_supply s
  unfold module
  refine gives_bind ((gives_mapM (Unfolding s []) (fun g n M => M.get? g.address = some n) .refl
    (fun _ _ _ h h' => h.trans h') (fun _ _ _ _ h => h.grows _ _)
    fun g hg M' _ => hsupply i g hg M').mono fun groupings M₁ ⟨h₁, hgroupings⟩ => ?_)
  refine gives_bind ((nodes_unfold hsupply [] m.data M₁).mono fun data M₂ ⟨h₂, hdata⟩ => ?_)
  refine gives_bind ((nodes_unfold hsupply [] m.rpcs M₂).mono fun rpcs M₃ ⟨h₃, hrpcs⟩ => ?_)
  refine gives_pure ⟨h₁.trans (h₂.trans h₃), rfl, hgroupings.imp fun g n hn => ?_, hdata.imp fun n n' hn => ?_,
    hrpcs⟩
  · exact h₃.grows _ _ (h₂.grows _ _ hn)
  · exact hn.grow h₃.grows

theorem augments_graft (augments : List Declaration.Augment) (S : Schema) (M : Expanded) :
    Gives (augments.foldlM (augment s) S) M fun S' M' => Unfolding s [] M M' ∧ Grafts s M' augments S S' := by
  induction augments generalizing S M with
  | nil => exact gives_pure ⟨.refl M, .nil S⟩
  | cons a augments ih =>
    rw [List.foldlM_cons, augment]
    cases htarget : a.target.asText? with
    | none => exact gives_bind gives_fail
    | some target =>
      dsimp only
      cases hp : S.node? target none with
      | none => exact gives_bind gives_fail
      | some p =>
        rw [bind_assoc]
        refine gives_bind ((nodes_unfold (unfolder_supply s) [] a.nodes M).mono fun added M₁ ⟨h₁, hadded⟩ => ?_)
        rw [bind_assoc]
        refine gives_bind (gives_lift fun _ _ => ?_)
        rw [pure_bind]
        refine (ih (S.appendAt p.address added) M₁).mono fun S' M₂ ⟨h₂, hgrafts⟩ => ⟨h₁.trans h₂, ?_⟩
        exact .cons htarget hp (hadded.imp fun _ _ hn => hn.grow h₂.grows) hgrafts

theorem modules_unfold (s : Schema) (M : Expanded) :
    Gives (s.modules.zipIdx.mapM fun (m, i) => module s m i) M fun modules M' =>
      Unfolding s [] M M' ∧ List.Forall₂ (ModuleUnfolds s M') s.modules.zipIdx modules :=
  gives_mapM (Unfolding s []) (fun mi m' M => ModuleUnfolds s M mi m') .refl (fun _ _ _ h h' => h.trans h')
    (fun _ _ _ _ h hm => hm.grow h.grows) fun mi _ M _ => module_unfolds mi.1 mi.2 M

/-- What a declared schema with its augments becomes. -/
structure Unrolls (declared : Schema) (augments : List Declaration.Augment) (M : Expanded) (s' : Schema) : Prop where
  unfolded : M.Unfolded declared
  expanded : ∃ S : Schema, List.Forall₂ (ModuleUnfolds declared M) declared.modules.zipIdx S.modules ∧
    Grafts declared M augments S s'

theorem expanding_unrolls (declared : Schema) (augments : List Declaration.Augment) (hM : M.Unfolded declared) :
    Gives (expanding declared augments) M (fun s' M' => Unrolls declared augments M' s') := by
  refine gives_bind ((modules_unfold declared M).mono fun modules M₁ ⟨h₁, hmodules⟩ => ?_)
  refine (augments_graft augments ⟨modules⟩ M₁).mono fun s' M₂ ⟨h₂, hgrafts⟩ => ⟨h₂.unfolded (h₁.unfolded hM), ?_⟩
  exact ⟨⟨modules⟩, hmodules.imp fun _ _ hm => hm.grow h₂.grows, hgrafts⟩

theorem ModuleUnfolds.eq {mi : Module × Nat} {m m' : Module} (hM : M.Agrees M') (h : ModuleUnfolds s M mi m)
    (h' : ModuleUnfolds s M' mi m') : m = m' := by
  rw [h.rest, h'.rest, eq_of_forall₂ h.groupings h'.groupings fun _ _ _ => hM _ _ _,
    eq_of_forall₂ h.data h'.data fun _ _ _ hn hn' => hn.eq hM hn',
    eq_of_forall₂ h.rpcs h'.rpcs fun _ _ _ hn hn' => hn.eq hM hn']

theorem Grafts.eq {augments : List Declaration.Augment} {S s₁ s₂ : Schema} (hM : M.Agrees M')
    (h : Grafts s M augments S s₁) (h' : Grafts s M' augments S s₂) : s₁ = s₂ := by
  induction h with
  | nil S =>
    cases h'
    rfl
  | cons htarget hp hadded _ ih =>
    cases h' with
    | cons htarget' hp' hadded' hgrafts' =>
      obtain rfl := Option.some.inj (htarget.symm.trans htarget')
      obtain rfl := Option.some.inj (hp.symm.trans hp')
      rw [eq_of_forall₂ hadded hadded' fun _ _ _ hn hn' => hn.eq hM hn'] at ih
      exact ih hgrafts'

/-- A declared schema becomes one schema only. -/
theorem Unrolls.eq {declared s₁ s₂ : Schema} {augments : List Declaration.Augment}
    (h : Unrolls declared augments M s₁) (h' : Unrolls declared augments M' s₂) : s₁ = s₂ := by
  have hM := h.unfolded.agrees h'.unfolded
  obtain ⟨⟨modules⟩, hmodules, hgrafts⟩ := h.expanded
  obtain ⟨⟨modules'⟩, hmodules', hgrafts'⟩ := h'.expanded
  obtain rfl : modules = modules' := eq_of_forall₂ hmodules hmodules' fun _ _ _ hm hm' => hm.eq hM hm'
  exact hgrafts.eq hM hgrafts'

end RestconfApi.Expansion
