import RestconfApi.Proofs.Schema.Declaration

/-!
# Schema: how declared nodes are written

Every node that a document declares is read from a statement in it, and its children from the items of a field of that
statement. A choice has each of its children as a case, and an rpc has its payloads as children, too.
-/

namespace RestconfApi.Declaration

open Failure (ok_of_bind)

variable {owner : Name}

/-! ### Statements -/

theorem childrenIn_eq (owner : Name) (entries : List (Scalar × Datum)) :
    childrenIn owner entries = nodes owner (Datum.valueAt (.text "children") entries) := by
  induction entries with
  | nil => rfl
  | cons e rest ih =>
    obtain ⟨key, d⟩ := e
    unfold childrenIn Datum.valueAt Datum.lookup?
    rw [ih, Datum.valueAt]
    split <;> simp_all

theorem forall₂_of_nodesOf {ds : List Datum} {ns : List Node} (h : nodesOf owner ds = .ok ns) :
    List.Forall₂ (fun d n => node owner none none d = .ok n) ds ns := by
  induction ds generalizing ns with
  | nil =>
    obtain rfl := Except.ok.inj h
    exact .nil
  | cons d ds ih =>
    unfold nodesOf at h
    obtain ⟨n, hn, h⟩ := ok_of_bind h
    obtain ⟨ms, hms, h⟩ := ok_of_bind h
    obtain rfl := Except.ok.inj h
    exact .cons hn (ih hms)

/-- The items of a value declare one node each. -/
theorem forall₂_of_nodes {d : Datum} {ns : List Node} (h : nodes owner d = .ok ns) :
    ∃ items, itemsOrNone d = .ok items ∧ List.Forall₂ (fun d n => node owner none none d = .ok n) items ns := by
  cases d with
  | list items mark =>
    refine ⟨items, ?_, forall₂_of_nodesOf h⟩
    cases items <;> rfl
  | _ =>
    unfold nodes at h
    obtain ⟨items, hitems, h⟩ := ok_of_bind h
    cases items with
    | nil =>
      obtain rfl := Except.ok.inj h
      exact ⟨[], hitems, .nil⟩
    | cons item _ =>
      obtain ⟨_, -, h⟩ := ok_of_bind h
      cases h

/-- A declared node has the children that are declared, those of a choice that are no cases in cases of their own. -/
theorem children_of_node {kind? : Option Kind} {name? : Option String} {d : Datum} {n : Node}
    (h : node owner kind? name? d = .ok n) : ∃ items own, itemsOrNone (d.field "children") = .ok items ∧
      List.Forall₂ (fun d n => node owner none none d = .ok n) items own ∧
        n.children = if n.kind = .choice then own.map (inCase owner) else own := by
  cases d with
  | mapping entries mark =>
    unfold node at h
    dsimp only at h
    obtain ⟨kind, -, h⟩ := ok_of_bind h
    obtain ⟨name, -, h⟩ := ok_of_bind h
    obtain ⟨own, hown, h⟩ := ok_of_bind h
    rw [childrenIn_eq] at hown
    obtain ⟨items, hitems, hown⟩ := forall₂_of_nodes hown
    refine ⟨items, own, hitems, hown, ?_⟩
    unfold withChildren at h
    dsimp only at h
    obtain ⟨type, -, h⟩ := ok_of_bind h
    obtain ⟨keys, -, h⟩ := ok_of_bind h
    obtain ⟨uses, -, h⟩ := ok_of_bind h
    obtain rfl := Except.ok.inj h
    rfl
  | _ =>
    obtain ⟨_, -, h⟩ := ok_of_bind h
    cases h

/-! ### Written nodes -/

/-- `Written owner d n`: the value `d` stands for the node `n` of the module `owner`. The children of a statement are
what the items of its field `children` stand for, in a choice each as a case; an rpc has its payloads besides. -/
inductive Written (owner : Name) : Datum → Node → Prop
  | statement {d : Datum} {n : Node} {kind? : Option Kind} {name? : Option String} {items : List Datum}
      {own : List Node} : node owner kind? name? d = .ok n → itemsOrNone (d.field "children") = .ok items →
      List.Forall₂ (fun d n => node owner none none d = .ok n) items own →
      n.children = (if n.kind = .choice then own.map (inCase owner) else own) → Written owner d n
  | case {d : Datum} {n : Node} : Written owner d n → n.kind ≠ .case →
      Written owner d { kind := .case, name := n.name, owner, children := [n] }
  | rpc {d : Datum} {n : Node} {input output : List Node} : Written owner d n →
      payload owner .input (d.field "input") = .ok input → payload owner .output (d.field "output") = .ok output →
      Written owner d { n with children := n.children ++ input ++ output }

theorem written_of_node {kind? : Option Kind} {name? : Option String} {d : Datum} {n : Node}
    (h : node owner kind? name? d = .ok n) : Written owner d n := by
  obtain ⟨items, own, hitems, hown, hchildren⟩ := children_of_node h
  exact .statement h hitems hown hchildren

theorem written_of_rpc {d : Datum} {n : Node} (h : rpc owner d = .ok n) : Written owner d n := by
  unfold rpc at h
  split at h
  · obtain ⟨n₁, hn₁, h⟩ := ok_of_bind h
    obtain ⟨input, hinput, h⟩ := ok_of_bind h
    obtain ⟨output, houtput, h⟩ := ok_of_bind h
    obtain rfl := Except.ok.inj h
    exact .rpc (written_of_node hn₁) hinput houtput
  · obtain ⟨_, -, h⟩ := ok_of_bind h
    cases h

/-- The node is read from a value, as a statement or as an rpc. -/
inductive ReadAs (owner : Name) (x : Datum) (n : Node) : Prop
  | statement {kind? : Option Kind} {name? : Option String} : node owner kind? name? x = .ok n → ReadAs owner x n
  | rpc : rpc owner x = .ok n → ReadAs owner x n

theorem ReadAs.written {x : Datum} {n : Node} (h : ReadAs owner x n) : Written owner x n := by
  cases h with
  | statement h => exact written_of_node h
  | rpc h => exact written_of_rpc h

/-! ### Statements in a document -/

/-- `x` is one of the items of a value. -/
def IsItem (x d : Datum) : Prop := ∃ items, itemsOrNone d = .ok items ∧ x ∈ items

/-- `m` is one of the modules of a document. -/
def IsModule (m d : Datum) : Prop := ∃ items, (d.field "modules").items? = some items ∧ m ∈ items

/-- `Gives d owner x n`: the document `d` has the statement `x` for the node `n` of the module `owner`. It stands in a
field of the module, in an augment of it or among the children of another statement, or it is a payload of an rpc. -/
inductive Gives (d : Datum) : Name → Datum → Node → Prop
  | data {m x : Datum} {n : Node} : IsModule m d → IsItem x (m.field "data") →
      node (m.field "name") none none x = .ok n → Gives d (m.field "name") x n
  | grouping {m x : Datum} {n : Node} : IsModule m d → IsItem x (m.field "groupings") →
      node (m.field "name") (some .grouping) none x = .ok n → Gives d (m.field "name") x n
  | rpc {m x : Datum} {n : Node} : IsModule m d → IsItem x (m.field "rpcs") →
      rpc (m.field "name") x = .ok n → Gives d (m.field "name") x n
  | added {m a x : Datum} {n : Node} : IsModule m d → IsItem a (m.field "augments") → IsItem x (a.field "children") →
      node (m.field "name") none none x = .ok n → Gives d (m.field "name") x n
  | child {owner : Name} {x y : Datum} {p n : Node} : Gives d owner x p → IsItem y (x.field "children") →
      node owner none none y = .ok n → Gives d owner y n
  | payload {owner : Name} {x : Datum} {p n : Node} {kind : Kind} : Gives d owner x p → rpc owner x = .ok p →
      kind = .input ∨ kind = .output → x.field kind.name ≠ .null →
      node owner (some kind) (some kind.name) (payloadStatement (x.field kind.name)) = .ok n →
      Gives d owner (payloadStatement (x.field kind.name)) n

/-- A statement is given for the node, or for the only child of the case that it is: this is the case that a child of a
choice stands in by itself. -/
inductive IsGiven (d : Datum) (owner : Name) (n : Node) : Prop
  | statement {x : Datum} : Gives d owner x n → IsGiven d owner n
  | around {x : Datum} {c : Node} : Gives d owner x c → c.kind ≠ .case → n = inCase owner c → IsGiven d owner n

variable {d x : Datum} {n c : Node}

theorem Gives.readAs (h : Gives d owner x n) : ReadAs owner x n := by
  cases h with
  | data _ _ h | grouping _ _ h | added _ _ _ h | child _ _ h | payload _ _ _ _ h => exact .statement h
  | rpc _ _ h => exact .rpc h

theorem IsGiven.written (h : IsGiven d owner n) : ∃ x, Written owner x n := by
  cases h with
  | statement h => exact ⟨_, h.readAs.written⟩
  | around h hkind hn =>
    rw [hn, inCase, if_neg hkind]
    exact ⟨_, .case h.readAs.written hkind⟩

theorem isGiven_inCase (h : Gives d owner x n) : IsGiven d owner (inCase owner n) := by
  by_cases hkind : n.kind = .case
  · rw [inCase, if_pos hkind]
    exact .statement h
  · exact .around h hkind rfl

/-- Statements are given for the children of a node as well. -/
theorem Gives.isGiven_of_mem (h : Gives d owner x n) (hc : c ∈ n.children) : IsGiven d owner c := by
  have hbelow : ∀ {kind? name? m}, node owner kind? name? x = .ok m → ∀ c ∈ m.children, IsGiven d owner c := by
    intro kind? name? m hm c hc
    obtain ⟨items, own, hitems, hown, hchildren⟩ := children_of_node hm
    have hgiven : ∀ o ∈ own, ∃ y, Gives d owner y o := by
      intro o ho
      obtain ⟨y, hy, hread⟩ := exists_of_forall₂_right hown ho
      exact ⟨y, h.child ⟨items, hitems, hy⟩ hread⟩
    rw [hchildren] at hc
    split at hc
    · obtain ⟨o, ho, rfl⟩ := List.mem_map.mp hc
      obtain ⟨y, hy⟩ := hgiven o ho
      exact isGiven_inCase hy
    · obtain ⟨y, hy⟩ := hgiven c hc
      exact .statement hy
  cases h.readAs with
  | statement hread => exact hbelow hread c hc
  | rpc hread =>
    have hpayload : ∀ {kind ns}, kind = .input ∨ kind = .output →
        Declaration.payload owner kind (x.field kind.name) = .ok ns → ∀ m ∈ ns, IsGiven d owner m := by
      intro kind ns hkind hns m hm
      obtain ⟨hnull, hnode⟩ := exists_node_of_payload hns m hm
      exact .statement (h.payload hread hkind hnull hnode)
    unfold Declaration.rpc at hread
    split at hread
    · obtain ⟨n₁, hn₁, hread⟩ := ok_of_bind hread
      obtain ⟨input, hinput, hread⟩ := ok_of_bind hread
      obtain ⟨output, houtput, hread⟩ := ok_of_bind hread
      obtain rfl := Except.ok.inj hread
      rcases List.mem_append.mp hc with hc | hc
      · rcases List.mem_append.mp hc with hc | hc
        · exact hbelow hn₁ c hc
        · exact hpayload (.inl rfl) hinput c hc
      · exact hpayload (.inr rfl) houtput c hc
    · obtain ⟨_, -, hread⟩ := ok_of_bind hread
      cases hread

theorem IsGiven.child (h : IsGiven d owner n) (hc : c ∈ n.children) : IsGiven d owner c := by
  cases h with
  | statement h => exact h.isGiven_of_mem hc
  | around h hkind hn =>
    rw [hn, inCase, if_neg hkind] at hc
    rw [List.mem_singleton.mp hc]
    exact .statement h

/-! ### Modules -/

theorem exists_gives_of_module {m : Datum} {r : Module × List Augment} (hm : IsModule m d) (h : module m = .ok r) :
    (∀ part, ∀ n ∈ r.1.part part, ∃ x, Gives d r.1.name x n) ∧
      ∀ a ∈ r.2, ∀ n ∈ a.nodes, ∃ x, Gives d r.1.name x n := by
  have hread := readFrom_of_module h
  obtain ⟨rpcs, hrpcs, hrpc⟩ := hread.rpcs
  obtain ⟨groupings, hgroupings, hgrouping⟩ := hread.groupings
  obtain ⟨augments, haugments, haugment⟩ := hread.augments
  have hdata := hread.data
  rw [hread.name] at hdata hrpc hgrouping haugment ⊢
  refine ⟨fun part n hn => ?_, fun a ha n hn => ?_⟩
  · cases part with
    | data =>
      obtain ⟨items, hitems, hns⟩ := forall₂_of_nodes hdata
      obtain ⟨x, hx, hnode⟩ := exists_of_forall₂_right hns hn
      exact ⟨x, .data hm ⟨items, hitems, hx⟩ hnode⟩
    | rpcs =>
      obtain ⟨x, hx, hnode⟩ := exists_of_forall₂_right hrpc hn
      exact ⟨x, .rpc hm ⟨rpcs, hrpcs, hx⟩ hnode⟩
    | groupings =>
      obtain ⟨x, hx, hnode⟩ := exists_of_forall₂_right hgrouping hn
      exact ⟨x, .grouping hm ⟨groupings, hgroupings, hx⟩ hnode⟩
  · obtain ⟨y, hy, h⟩ := exists_of_forall₂_right haugment ha
    unfold augment at h
    split at h
    · obtain ⟨ns, hns, h⟩ := ok_of_bind h
      obtain rfl := Except.ok.inj h
      obtain ⟨items, hitems, hall⟩ := forall₂_of_nodes hns
      obtain ⟨x, hx, hnode⟩ := exists_of_forall₂_right hall hn
      exact ⟨x, .added hm ⟨augments, haugments, hy⟩ ⟨items, hitems, hx⟩ hnode⟩
    · cases h

/-- All that a document declares is given in it. -/
theorem exists_gives_of_document {modules : List Module} {augments : List Augment}
    (h : document d = .ok (modules, augments)) :
    (∀ m ∈ modules, ∀ part, ∀ n ∈ m.part part, ∃ x, Gives d m.name x n) ∧
      ∀ a ∈ augments, ∃ m ∈ modules, ∀ n ∈ a.nodes, ∃ x, Gives d m.name x n := by
  obtain ⟨items, results, hitems, hall, rfl, rfl⟩ := exists_module_of_document h
  refine ⟨fun m hm => ?_, fun a ha => ?_⟩
  · obtain ⟨r, hr, rfl⟩ := List.mem_map.mp hm
    obtain ⟨y, hy, hmodule⟩ := exists_of_forall₂_right hall hr
    exact (exists_gives_of_module ⟨items, hitems, hy⟩ hmodule).1
  · obtain ⟨r, hr, ha⟩ := List.mem_flatMap.mp ha
    obtain ⟨y, hy, hmodule⟩ := exists_of_forall₂_right hall hr
    exact ⟨r.1, List.mem_map_of_mem hr, (exists_gives_of_module ⟨items, hitems, hy⟩ hmodule).2 a ha⟩

end RestconfApi.Declaration
