import RestconfApi.Proofs.Schema.Declaration
import RestconfApi.Proofs.Schema.Expansion

/-!
# Schema: what loading leaves

Augments add declared nodes below data nodes and rpcs alone, and the config flags change nothing else, so that
all trees of a loaded schema still stem from the bodies of its groupings.
-/

namespace RestconfApi

namespace Expansion

variable {s : Schema} {augmented : Prop} {M M' : Expanded}

/-! ### Modules -/

/-- What a tree becomes, up to its config flags and to what augments add. -/
structure Yields (s : Schema) (augmented : Prop) (M : Expanded) (n n' : Node) : Prop where
  top : n'.toStatement.erased = n.toStatement.erased
  everywhere : n'.Everywhere (Stems s augmented M.node?)

/-- What the `i`-th module becomes: its groupings are the expanded ones, and its trees stem from such. -/
structure ModuleYields (s : Schema) (augmented : Prop) (M : Expanded) (mi : Module × Nat) (m' : Module) :
    Prop where
  rest : m' = { mi.1 with groupings := m'.groupings, data := m'.data, rpcs := m'.rpcs }
  groupings : List.Forall₂ (fun g n' => ∃ n, M.get? g.address = some n ∧ n'.erased = n.erased)
    (s.tops mi.2 .groupings) m'.groupings
  data : List.Forall₂ (Yields s augmented M) mi.1.data m'.data
  rpcs : List.Forall₂ (Yields s augmented M) mi.1.rpcs m'.rpcs

/-- What the declared schema becomes. -/
def SchemaYields (s : Schema) (augmented : Prop) (M : Expanded) (s' : Schema) : Prop :=
  List.Forall₂ (ModuleYields s augmented M) s.modules.zipIdx s'.modules

theorem Yields.grow {n n' : Node} (h : Yields s augmented M n n') (hM : M.Grows M') :
    Yields s augmented M' n n' :=
  ⟨h.top, h.everywhere.mono fun _ _ hs => hs.mono fun _ _ hn => hM.node? hn⟩

theorem ModuleYields.grow {mi : Module × Nat} {m' : Module} (h : ModuleYields s augmented M mi m')
    (hM : M.Grows M') : ModuleYields s augmented M' mi m' where
  rest := h.rest
  groupings := h.groupings.imp fun _ _ ⟨n, hn, he⟩ => ⟨n, hM _ _ hn, he⟩
  data := h.data.imp fun _ _ hn => hn.grow hM
  rpcs := h.rpcs.imp fun _ _ hn => hn.grow hM

theorem Becomes.yields {n n' : Node} (h : Becomes s n n' M) : Yields s augmented M n n' :=
  ⟨by rw [h.top], h.everywhere.mono fun _ _ hs => hs.weaken False.elim⟩

/-- All trees of a schema are as they are declared. -/
def IsDeclaredSchema (s : Schema) : Prop :=
  ∀ m ∈ s.modules, ∀ part, ∀ n ∈ m.part part, IsDeclared n

theorem IsDeclaredSchema.groupings (hs : IsDeclaredSchema s) : HasDeclaredGroupings s := by
  intro i g hg
  rw [Schema.tops] at hg
  split at hg
  · rename_i m hm
    obtain ⟨j, n, hn, rfl⟩ := Place.mem_ofChildren.mp hg
    exact hs m (List.mem_of_getElem? hm) .groupings n (List.mem_of_getElem? hn)
  · simp at hg

theorem module_gives (hs : IsDeclaredSchema s) {m : Module} {i : Nat} (hm : s.modules[i]? = some m)
    (hM : M.Built s) :
    Gives (module s m i) M fun m' M' => Steps s [] M M' ∧ ModuleYields s augmented M' (m, i) m' := by
  have hsupply := supplies_supply hs.groupings
  have hmem := List.mem_of_getElem? hm
  unfold module
  refine gives_bind ((gives_mapM (Steps s []) (fun g n M => M.get? g.address = some n) .refl
    (fun _ _ _ h h' => h.trans h') (fun _ _ _ _ h => h.grows _ _)
    fun g hg M' h => hsupply i g hg M' (h.built hM)).mono fun groupings M₁ ⟨h₁, hgroupings⟩ => ?_)
  refine gives_bind ((nodes_gives hsupply [] m.data (hs m hmem .data) (h₁.built hM)).mono
    fun data M₂ ⟨h₂, hdata⟩ => ?_)
  refine gives_bind ((nodes_gives hsupply [] m.rpcs (hs m hmem .rpcs) (h₂.built (h₁.built hM))).mono
    fun rpcs M₃ ⟨h₃, hrpcs⟩ => ?_)
  refine gives_pure ⟨h₁.trans (h₂.trans h₃), rfl, hgroupings.imp fun g n hn => ?_, hdata.imp fun n n' hn => ?_,
    hrpcs.imp fun n n' hn => hn.yields⟩
  · exact ⟨n, h₃.grows _ _ (h₂.grows _ _ hn), rfl⟩
  · exact (hn.grow h₃.grows).yields

theorem modules_give (hs : IsDeclaredSchema s) :
    Gives (s.modules.zipIdx.mapM fun (m, i) => module s m i) [] fun modules M =>
      M.Built s ∧ SchemaYields s augmented M ⟨modules⟩ := by
  refine (gives_mapM (Steps s []) (fun mi m' M => ModuleYields s augmented M mi m') .refl
    (fun _ _ _ h h' => h.trans h') (fun _ _ _ _ h hm => hm.grow h.grows) fun mi hmi M h => ?_).mono
    fun modules M ⟨h, hmodules⟩ => ⟨h.built .nil, hmodules⟩
  exact module_gives hs (List.mem_zipIdx_iff_getElem?.mp hmi) (h.built .nil)

/-! ### Augments -/

/-- A change of one tree outside the groupings that keeps what the tree stems from. -/
theorem SchemaYields.modify {s' : Schema} (h : SchemaYields s augmented M s') {f : Node → Node}
    {part : Part} (hpart : part ≠ .groupings) {i j : Nat}
    (hf : ∀ m' n', s'.modules[i]? = some m' → (m'.part part)[j]? = some n' →
      ∀ n, Yields s augmented M n n' → Yields s augmented M n (f n')) :
    SchemaYields s augmented M ⟨s'.modules.modify i fun m => m.mapPart (fun ns => ns.modify j f) part⟩ := by
  have hlist : ∀ {l l' : List Node} {j : Nat}, List.Forall₂ (Yields s augmented M) l l' →
      (∀ n', l'[j]? = some n' → ∀ n, Yields s augmented M n n' → Yields s augmented M n (f n')) →
      List.Forall₂ (Yields s augmented M) l (l'.modify j f) := by
    intro l l' j hl hf
    induction hl generalizing j with
    | nil => simp
    | cons hn hl ih =>
      cases j with
      | zero => exact .cons (hf _ rfl _ hn) hl
      | succ j => exact .cons hn (ih hf)
  have hmodule : ∀ mi m', ModuleYields s augmented M mi m' →
      (∀ n', (m'.part part)[j]? = some n' → ∀ n, Yields s augmented M n n' → Yields s augmented M n (f n')) →
      ModuleYields s augmented M mi (m'.mapPart (fun ns => ns.modify j f) part) := by
    intro mi m' hm hf
    have hrest := hm.rest
    cases part with
    | groupings => exact absurd rfl hpart
    | data =>
      refine ⟨?_, hm.groupings, hlist hm.data hf, hm.rpcs⟩
      rw [hrest]
      rfl
    | rpcs =>
      refine ⟨?_, hm.groupings, hm.data, hlist hm.rpcs hf⟩
      rw [hrest]
      rfl
  unfold SchemaYields at h ⊢
  generalize s.modules.zipIdx = l at h
  generalize s'.modules = l' at h hf
  induction h generalizing i with
  | nil => simp
  | cons hm hl ih =>
    cases i with
    | zero => exact .cons (hmodule _ _ hm fun n' => hf _ n' rfl) hl
    | succ i => exact .cons hm (ih hf)

theorem Yields.appendAt {n n' : Node} (h : Yields s augmented M n n') {added : List Node}
    (hadded : ∀ m ∈ added, m.Everywhere (Stems s augmented M.node?) ∧ m.IsOwn) {is : List Nat}
    (hgrow : ∀ m, n'.at? is = some m → m.MayGrow augmented) :
    Yields s augmented M n (n'.appendAt added is) := by
  refine ⟨by rw [Node.toStatement_appendAt, h.top], ?_⟩
  refine Node.everywhere_appendAt (fun m hm => (hadded m hm).1) (fun m hm cs hst => ?_) h.everywhere
  refine hst.append (fun c hc => ?_) (hgrow m hm)
  obtain ⟨m, hm, rfl⟩ := List.mem_map.mp hc
  exact (hadded m hm).2

end Expansion

/-! ### Loading -/

namespace Expansion

variable {s : Schema} {augmented : Prop} {M : Expanded}

theorem SchemaYields.grow {s' : Schema} {M' : Expanded} (h : SchemaYields s augmented M s')
    (hM : M.Grows M') : SchemaYields s augmented M' s' :=
  List.Forall₂.imp (fun _ _ hm => hm.grow hM) h

/-- Adding children to the target of an augment. -/
theorem SchemaYields.appendAt {s' : Schema} (h : SchemaYields s augmented M s') {p : Place}
    (hp : Schema.IsTarget s' p) (haugmented : augmented) {added : List Node}
    (hadded : ∀ m ∈ added, m.Everywhere (Stems s augmented M.node?) ∧ m.IsOwn) :
    SchemaYields s augmented M (s'.appendAt p.address added) := by
  obtain ⟨m, j, n, is, hm, hn, hpath, hdescend⟩ := hp.has.cases
  unfold Schema.appendAt
  rw [hpath]
  refine h.modify hp.part fun m' n' hm' hn' _ hyields => hyields.appendAt hadded fun q hq => ?_
  obtain rfl := Option.some.inj (hm.symm.trans hm')
  obtain rfl := Option.some.inj (hn.symm.trans hn')
  have hnode := Node.map_node_descend is ⟨⟨p.address.module, p.address.part, [j]⟩, n, []⟩
  rw [hdescend, show (⟨⟨p.address.module, p.address.part, [j]⟩, n, []⟩ : Place).node = n from rfl, hq] at hnode
  obtain rfl := Option.some.inj hnode
  exact ⟨haugmented, hp.visible⟩

/-- What an augment does: children that stem from groupings are added below its target. -/
structure Augments (s : Schema) (M : Expanded) (a : Declaration.Augment) (S S' : Schema) (p : Place)
    (added : List Node) : Prop where
  target : ∃ target, a.target.asText? = some target ∧ S.node? target none = some p
  heads : List.Forall₂ (fun n n' => n'.toStatement = n.toStatement) a.nodes added
  everywhere : ∀ n ∈ added, n.Everywhere (Stems s False M.node?)
  schema : S' = S.appendAt p.address added

theorem augment_gives (hs : IsDeclaredSchema s) {S : Schema} {a : Declaration.Augment}
    (ha : ∀ n ∈ a.nodes, IsDeclared n) (hM : M.Built s) :
    Gives (augment s S a) M fun S' M' => Steps s [] M M' ∧ ∃ p added, Augments s M' a S S' p added := by
  unfold augment
  cases htarget : a.target.asText? with
  | none => exact gives_fail
  | some target =>
    dsimp only
    cases hp : S.node? target none with
    | none => exact gives_fail
    | some p =>
      refine gives_bind ((nodes_gives (supplies_supply hs.groupings) [] a.nodes ha hM).mono
        fun added M₁ ⟨h₁, hadded⟩ => ?_)
      refine gives_bind (gives_lift fun _ _ => gives_pure ⟨h₁, p, added, ⟨target, htarget, hp⟩,
        hadded.imp fun _ _ hn => hn.top, fun n hn => ?_, rfl⟩)
      obtain ⟨_, -, hbecomes⟩ := exists_of_forall₂_right hadded hn
      exact hbecomes.everywhere

theorem Augments.isOwn {a : Declaration.Augment} {S S' : Schema} {p : Place} {added : List Node}
    (h : Augments s M a S S' p added) (ha : ∀ n ∈ a.nodes, IsDeclared n) : ∀ n ∈ added, n.IsOwn := by
  intro n hn
  obtain ⟨n₀, hn₀, htop⟩ := exists_of_forall₂_right h.heads hn
  rw [htop]
  exact (Node.everywhere_iff.mp (ha n₀ hn₀)).1.1

theorem Augments.yields {a : Declaration.Augment} {S S' : Schema} {p : Place} {added : List Node}
    (h : Augments s M a S S' p added) (ha : ∀ n ∈ a.nodes, IsDeclared n) (haugmented : augmented)
    (hS : SchemaYields s augmented M S) : SchemaYields s augmented M S' := by
  obtain ⟨target, -, hp⟩ := h.target
  rw [h.schema]
  refine hS.appendAt (Schema.isTarget_of_node? hp) haugmented fun n hn => ⟨?_, h.isOwn ha n hn⟩
  exact (h.everywhere n hn).mono fun _ _ hs => hs.weaken False.elim

theorem augments_give (hs : IsDeclaredSchema s) {augments : List Declaration.Augment}
    (ha : ∀ a ∈ augments, ∀ n ∈ a.nodes, IsDeclared n) (haugmented : augments ≠ [] → augmented) {S : Schema}
    (hM : M.Built s) (hS : SchemaYields s augmented M S) :
    Gives (augments.foldlM (augment s) S) M fun S' M' => M'.Built s ∧ SchemaYields s augmented M' S' := by
  induction augments generalizing S M with
  | nil => exact gives_pure ⟨hM, hS⟩
  | cons a augments ih =>
    rw [List.foldlM_cons]
    have ha₁ := ha a List.mem_cons_self
    refine gives_bind ((augment_gives hs ha₁ hM).mono fun S₁ M₁ ⟨h₁, p, added, haugment⟩ => ?_)
    have hyes : augmented := haugmented (by simp)
    exact ih (fun b hb => ha b (List.mem_cons_of_mem _ hb)) (fun _ => hyes) (h₁.built hM)
      (haugment.yields ha₁ hyes (hS.grow h₁.grows))

/-! ### Config flags -/

theorem erased_toStatement {n n' : Node} (h : n.erased = n'.erased) :
    n.toStatement.erased = n'.toStatement.erased := by
  have := congrArg Node.toStatement h
  rwa [Node.erased, Node.erased, Node.toStatement_mapStatements, Node.toStatement_mapStatements] at this

theorem Yields.of_erased {n n' n'' : Node} (h : Yields s augmented M n n') (he : n''.erased = n'.erased) :
    Yields s augmented M n n'' :=
  ⟨(erased_toStatement he).trans h.top,
    (Node.everywhere_of_erased (fun _ _ => Stems.erased_iff) he).mpr h.everywhere⟩

theorem SchemaYields.withConfig {s' : Schema} (h : SchemaYields s augmented M s') :
    SchemaYields s augmented M ⟨s'.modules.map Module.withConfig⟩ := by
  refine List.forall₂_map_right_iff.mpr (List.Forall₂.imp (fun mi m' hm => ?_) h)
  refine ⟨by rw [hm.rest]; rfl, ?_, ?_, ?_⟩
  · show List.Forall₂ _ _ (Node.withConfigAll true m'.groupings)
    rw [Node.withConfigAll_eq]
    refine List.forall₂_map_right_iff.mpr (hm.groupings.imp fun g n' ⟨n, hn, he⟩ => ⟨n, hn, ?_⟩)
    rw [Node.erased_withConfig, he]
  · show List.Forall₂ _ _ (Node.withConfigAll true m'.data)
    rw [Node.withConfigAll_eq]
    exact List.forall₂_map_right_iff.mpr (hm.data.imp fun _ _ hn =>
      hn.of_erased (Node.erased_withConfig _ _))
  · show List.Forall₂ _ _ (Node.mapStatementsAll Statement.erased m'.rpcs)
    rw [Node.mapStatementsAll_eq]
    exact List.forall₂_map_right_iff.mpr (hm.rpcs.imp fun _ _ hn => hn.of_erased (Node.erased_erased _))

end Expansion

namespace Schema

open Expansion

/-- The document has augments. -/
def HasAugments (d : Datum) : Prop :=
  ∃ modules augments, Declaration.document d = .ok (modules, augments) ∧ augments ≠ []

theorem hasAugments_iff {d : Datum} :
    HasAugments d ↔ ((Declaration.document d).toOption.any fun (_, augments) => !augments.isEmpty) = true := by
  constructor
  · rintro ⟨modules, augments, hdocument, hne⟩
    simpa [hdocument, Except.toOption] using hne
  · intro h
    obtain ⟨⟨modules, augments⟩, hdocument, hne⟩ := Option.any_eq_true _ _ |>.mp h
    cases hd : Declaration.document d with
    | error => simp [hd, Except.toOption] at hdocument
    | ok found =>
      obtain rfl : found = (modules, augments) := by simpa [hd, Except.toOption] using hdocument
      exact ⟨modules, augments, hd, by simpa using hne⟩

instance (d : Datum) : Decidable (HasAugments d) := decidable_of_iff _ hasAugments_iff.symm

/-- What a loaded schema has come from: the declared one, and the groupings as they were expanded. -/
structure LoadedFrom (augmented : Prop) (declared : Schema) (M : Expanded) (s : Schema) : Prop where
  modules : ∀ m ∈ declared.modules, Declaration.DeclaresModule m
  built : M.Built declared
  yields : SchemaYields declared augmented M s

theorem isDeclared_of_declaresTree {owner : Name} {n : Node} (h : Declaration.DeclaresTree owner n) :
    IsDeclared n :=
  h.heads.mono fun _ _ ⟨hst, hcs⟩ =>
    ⟨hst.toIsOwn, fun c hc => ⟨(hcs c hc).toIsOwn, (hcs c hc).owner.trans hst.owner.symm⟩⟩

/-- Loading expands what a document declares and passes the config flags down. -/
theorem exists_expanding {d : Datum} {s : Schema} (h : (load d).result = .ok s) : ∃ modules augments S M,
    Declaration.document d = .ok (modules, augments) ∧ (expanding ⟨modules⟩ augments []).result = .ok (S, M) ∧
      s = ⟨S.modules.map Module.withConfig⟩ := by
  unfold load at h
  obtain ⟨⟨modules, augments⟩, hdocument, h⟩ := Logged.ok_of_bind h
  obtain ⟨expanded, hexpanded, h⟩ := Logged.ok_of_bind h
  obtain ⟨-, -, h⟩ := Logged.ok_of_bind h
  obtain rfl := Except.ok.inj h
  unfold Expansion.schema at hexpanded
  obtain ⟨⟨S, M⟩, hrun, hS⟩ := Logged.ok_of_bind hexpanded
  obtain rfl := Except.ok.inj hS
  exact ⟨modules, augments, S, M, hdocument, hrun, rfl⟩

theorem isDeclaredSchema_of_document {d : Datum} {modules : List Module} {augments : List Declaration.Augment}
    (h : Declaration.document d = .ok (modules, augments)) :
    IsDeclaredSchema ⟨modules⟩ ∧ ∀ a ∈ augments, ∀ n ∈ a.nodes, IsDeclared n := by
  obtain ⟨hmodules, haugments⟩ := Declaration.document_ok h
  refine ⟨fun m hm part n hn => isDeclared_of_declaresTree ((hmodules m hm).trees part n hn), fun a ha n hn => ?_⟩
  obtain ⟨m, -, htrees⟩ := haugments a ha
  exact isDeclared_of_declaresTree (htrees n hn)

theorem loadedFrom_of_expanding {d : Datum} {modules : List Module} {augments : List Declaration.Augment} {S : Schema}
    {M : Expanded} (hdocument : Declaration.document d = .ok (modules, augments))
    (hrun : (expanding ⟨modules⟩ augments []).result = .ok (S, M)) :
    LoadedFrom (HasAugments d) ⟨modules⟩ M ⟨S.modules.map Module.withConfig⟩ := by
  obtain ⟨hs, ha⟩ := isDeclaredSchema_of_document hdocument
  have haugmented : augments ≠ [] → HasAugments d := fun hne => ⟨modules, augments, hdocument, hne⟩
  obtain ⟨hbuilt, hyields⟩ := gives_bind ((modules_give hs).mono fun _ _ ⟨hM, hS⟩ =>
    augments_give hs ha haugmented hM hS) S M hrun
  exact ⟨(Declaration.document_ok hdocument).1, hbuilt, hyields.withConfig⟩

theorem exists_loadedFrom {d : Datum} {s : Schema} (h : (load d).result = .ok s) :
    ∃ declared M, LoadedFrom (HasAugments d) declared M s := by
  obtain ⟨modules, augments, S, M, hdocument, hrun, rfl⟩ := exists_expanding h
  exact ⟨⟨modules⟩, M, loadedFrom_of_expanding hdocument hrun⟩

end Schema

end RestconfApi
