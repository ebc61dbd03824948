import RestconfApi.Proofs.Lists
import RestconfApi.Proofs.Schema.Stems
import RestconfApi.Schema.Declaration

/-!
# Schema: what declarations leave

All trees that a document declares are made of statements of their own, owned by the module that declares
them.
-/

namespace RestconfApi.Declaration

open Failure (ok_of_bind)

variable {owner : Name}

/-- A statement that a module declares. -/
structure Declares (owner : Name) (st : Statement) : Prop extends st.IsOwn where
  owner : st.owner = owner

/-- A tree of statements that a module declares. -/
abbrev DeclaresTree (owner : Name) (n : Node) : Prop := n.Everywhere fun st _ => Declares owner st

theorem forall₂_of_mapM {α β : Type} {f : α → Except Failure β} {l : List α} {bs : List β}
    (h : l.mapM f = .ok bs) : List.Forall₂ (fun a b => f a = .ok b) l bs := by
  induction l generalizing bs with
  | nil =>
    obtain rfl := Except.ok.inj h
    exact .nil
  | cons a l ih =>
    rw [List.mapM_cons] at h
    obtain ⟨b, hb, h⟩ := ok_of_bind h
    obtain ⟨bs', hbs, h⟩ := ok_of_bind h
    obtain rfl := Except.ok.inj h
    exact .cons hb (ih hbs)

theorem exists_mapM_of_forall {α β : Type} {g : α → Except Failure β} {l : List α} (h : ∀ a ∈ l, ∃ b, g a = .ok b) :
    ∃ bs, l.mapM g = .ok bs := by
  induction l with
  | nil => exact ⟨[], rfl⟩
  | cons a l ih =>
    obtain ⟨b, hb⟩ := h a List.mem_cons_self
    obtain ⟨bs, hbs⟩ := ih fun x hx => h x (List.mem_cons_of_mem _ hx)
    exact ⟨b :: bs, by rw [List.mapM_cons, hb, hbs]; rfl⟩

theorem getElem?_of_mapM {α β : Type} {g : α → Except Failure β} {l : List α} {bs : List β} (h : l.mapM g = .ok bs)
    (i : Nat) : bs[i]? = l[i]?.bind fun a => (g a).toOption := by
  have hall := forall₂_of_mapM h
  cases hi : l[i]? with
  | none =>
    cases hb : bs[i]? with
    | none => rfl
    | some b =>
      obtain ⟨a, ha, -⟩ := getElem?_of_forall₂_right hall hb
      rw [hi] at ha
      cases ha
  | some a =>
    obtain ⟨b, hb, hg⟩ := getElem?_of_forall₂ hall hi
    rw [hb, Option.bind_some, hg]
    rfl

theorem declaresTree_mk {st : Statement} {cs : List Node} (hst : Declares owner st)
    (hcs : ∀ n ∈ cs, DeclaresTree owner n) : DeclaresTree owner ⟨st, cs⟩ :=
  Node.everywhere_iff.mpr ⟨hst, hcs⟩

theorem declaresTree_inCase {n : Node} (h : DeclaresTree owner n) : DeclaresTree owner (inCase owner n) := by
  unfold inCase
  split
  · exact h
  · exact declaresTree_mk ⟨⟨rfl, rfl⟩, rfl⟩ fun m hm => by rwa [List.mem_singleton.mp hm]

theorem withChildren_ok {kind : Kind} {name : Name} {fields : Datum} {children : List Node} {n : Node}
    (hcs : ∀ n ∈ children, DeclaresTree owner n)
    (h : withChildren owner kind name fields children = .ok n) :
    DeclaresTree owner n ∧ n.kind = kind ∧ n.name = name := by
  unfold withChildren at h
  dsimp only at h
  obtain ⟨type, -, h⟩ := ok_of_bind h
  obtain ⟨keys, -, h⟩ := ok_of_bind h
  obtain ⟨uses, -, h⟩ := ok_of_bind h
  obtain rfl := Except.ok.inj h
  refine ⟨declaresTree_mk ⟨⟨rfl, rfl⟩, rfl⟩ fun m hm => ?_, rfl, rfl⟩
  split at hm
  · obtain ⟨m', hm', rfl⟩ := List.mem_map.mp hm
    exact declaresTree_inCase (hcs m' hm')
  · exact hcs m hm

/-- What is no list declares nothing. -/
theorem nil_of_items {d : Datum} {ns : List Node}
    (h : (do
      match ← itemsOrNone d with
      | [] => .ok []
      | item :: _ => .error (.schema (.noStatement owner.wording (← item.literal?))) :
        Except Failure (List Node)) = .ok ns) : ∀ n ∈ ns, DeclaresTree owner n := by
  obtain ⟨items, -, h⟩ := ok_of_bind h
  cases items with
  | nil =>
    obtain rfl := Except.ok.inj h
    simp
  | cons item _ =>
    obtain ⟨_, -, h⟩ := ok_of_bind h
    cases h

mutual

theorem node_ok (owner : Name) : ∀ (d : Datum) (kind? : Option Kind) (name? : Option String) {n : Node},
    node owner kind? name? d = .ok n →
      DeclaresTree owner n ∧ (∀ kind, kind? = some kind → n.kind = kind) ∧
        (∀ name, name? = some name → n.name = .text name)
  | .mapping entries mark, kind?, name?, n, h => by
    unfold node at h
    dsimp only at h
    obtain ⟨kind, hkind, h⟩ := ok_of_bind h
    obtain ⟨name, hname, h⟩ := ok_of_bind h
    obtain ⟨children, hchildren, h⟩ := ok_of_bind h
    obtain ⟨hn, rfl, rfl⟩ := withChildren_ok (childrenIn_ok owner entries hchildren) h
    refine ⟨hn, fun k hk => ?_, fun s hs => ?_⟩
    · rw [hk] at hkind
      exact (Except.ok.inj hkind).symm
    · rw [hs] at hname
      exact (Except.ok.inj hname).symm
  | .scalar _, _, _, _, h => by
    obtain ⟨_, -, h⟩ := ok_of_bind h
    cases h
  | .list _ _, _, _, _, h => by
    obtain ⟨_, -, h⟩ := ok_of_bind h
    cases h
  | .set _ _, _, _, _, h => by
    obtain ⟨_, -, h⟩ := ok_of_bind h
    cases h
  | .pair _ _, _, _, _, h => by
    obtain ⟨_, -, h⟩ := ok_of_bind h
    cases h

theorem childrenIn_ok (owner : Name) : ∀ (entries : List (Scalar × Datum)) {ns : List Node},
    childrenIn owner entries = .ok ns → ∀ n ∈ ns, DeclaresTree owner n
  | [], ns, h => by
    obtain rfl := Except.ok.inj h
    simp
  | (key, d) :: rest, ns, h => by
    unfold childrenIn at h
    split at h
    · exact nodes_ok owner d h
    · exact childrenIn_ok owner rest h

theorem nodes_ok (owner : Name) : ∀ (d : Datum) {ns : List Node},
    nodes owner d = .ok ns → ∀ n ∈ ns, DeclaresTree owner n
  | .list items _, ns, h => nodesOf_ok owner items h
  | .scalar s, ns, h => by
    unfold nodes at h
    exact nil_of_items h
  | .mapping _ _, ns, h => by
    unfold nodes at h
    exact nil_of_items h
  | .set _ _, ns, h => by
    unfold nodes at h
    exact nil_of_items h
  | .pair _ _, ns, h => by
    unfold nodes at h
    exact nil_of_items h

theorem nodesOf_ok (owner : Name) : ∀ (ds : List Datum) {ns : List Node},
    nodesOf owner ds = .ok ns → ∀ n ∈ ns, DeclaresTree owner n
  | [], ns, h => by
    obtain rfl := Except.ok.inj h
    simp
  | d :: ds, ns, h => by
    unfold nodesOf at h
    obtain ⟨n, hn, h⟩ := ok_of_bind h
    obtain ⟨ms, hms, h⟩ := ok_of_bind h
    obtain rfl := Except.ok.inj h
    intro m hm
    rcases List.mem_cons.mp hm with rfl | hm
    · exact (node_ok owner d none none hn).1
    · exact nodesOf_ok owner ds hms m hm

end

/-! ### Modules -/

/-- The statement that a payload is read from: the value itself or, if it is no mapping, one with these children. -/
def payloadStatement : Datum → Datum
  | .mapping entries mark => .mapping entries mark
  | d => .object [("children", d)]

theorem exists_node_of_payload {kind : Kind} {d : Datum} {ns : List Node} (h : payload owner kind d = .ok ns) :
    ∀ n ∈ ns, d ≠ .null ∧ node owner (some kind) (some kind.name) (payloadStatement d) = .ok n := by
  unfold payload at h
  split at h
  · obtain rfl := Except.ok.inj h
    simp
  · obtain ⟨m, hm, h⟩ := ok_of_bind h
    obtain rfl := Except.ok.inj h
    intro n hn
    rw [List.mem_singleton.mp hn]
    exact ⟨by simp, hm⟩
  · rename_i hnull hmapping
    obtain ⟨m, hm, h⟩ := ok_of_bind h
    obtain rfl := Except.ok.inj h
    intro n hn
    rw [List.mem_singleton.mp hn]
    refine ⟨hnull, ?_⟩
    unfold payloadStatement
    split
    · exact absurd rfl (hmapping _ _)
    · exact hm

theorem payload_ok {kind : Kind} {d : Datum} {ns : List Node} (h : payload owner kind d = .ok ns) :
    ∀ n ∈ ns, DeclaresTree owner n := by
  intro n hn
  exact (node_ok owner _ _ _ (exists_node_of_payload h n hn).2).1

theorem rpc_ok {d : Datum} {n : Node} (h : rpc owner d = .ok n) :
    DeclaresTree owner n ∧ n.kind = .rpc := by
  unfold rpc at h
  split at h
  · obtain ⟨n₁, hn₁, h⟩ := ok_of_bind h
    obtain ⟨input, hinput, h⟩ := ok_of_bind h
    obtain ⟨output, houtput, h⟩ := ok_of_bind h
    obtain rfl := Except.ok.inj h
    obtain ⟨htree, hkind, -⟩ := node_ok owner _ (some .rpc) none hn₁
    obtain ⟨hst, hcs⟩ := Node.everywhere_iff.mp htree
    refine ⟨declaresTree_mk hst fun m hm => ?_, hkind _ rfl⟩
    rcases List.mem_append.mp hm with hm | hm
    · rcases List.mem_append.mp hm with hm | hm
      · exact hcs m hm
      · exact payload_ok hinput m hm
    · exact payload_ok houtput m hm
  · obtain ⟨_, -, h⟩ := ok_of_bind h
    cases h

/-- A module as it is declared. -/
structure DeclaresModule (m : Module) : Prop where
  name : m.name.holds = true
  retired : m.retired = false
  trees : ∀ part, ∀ n ∈ m.part part, DeclaresTree m.name n
  rpcs : ∀ n ∈ m.rpcs, n.kind = .rpc
  groupings : ∀ n ∈ m.groupings, n.kind = .grouping

theorem augment_ok {d : Datum} {a : Augment} (h : augment owner d = .ok a) :
    ∀ n ∈ a.nodes, DeclaresTree owner n := by
  unfold augment at h
  split at h
  · obtain ⟨ns, hns, h⟩ := ok_of_bind h
    obtain rfl := Except.ok.inj h
    exact nodes_ok owner _ hns
  · cases h

/-- What a module and its augments are read from: each of its lists from a field of the value. -/
structure ReadFrom (d : Datum) (r : Module × List Augment) : Prop where
  holds : (d.field "name").holds = true
  name : r.1.name = d.field "name"
  retired : r.1.retired = false
  data : nodes r.1.name (d.field "data") = .ok r.1.data
  rpcs : ∃ items, itemsOrNone (d.field "rpcs") = .ok items ∧
    List.Forall₂ (fun x n => rpc r.1.name x = .ok n) items r.1.rpcs
  groupings : ∃ items, itemsOrNone (d.field "groupings") = .ok items ∧
    List.Forall₂ (fun x n => node r.1.name (some .grouping) none x = .ok n) items r.1.groupings
  augments : ∃ items, itemsOrNone (d.field "augments") = .ok items ∧
    List.Forall₂ (fun x a => augment r.1.name x = .ok a) items r.2

theorem readFrom_of_module {d : Datum} {r : Module × List Augment} (h : module d = .ok r) : ReadFrom d r := by
  unfold module at h
  split at h
  · rename_i hname
    dsimp only at h
    obtain ⟨typedefs, -, h⟩ := ok_of_bind h
    obtain ⟨items, hitems, h⟩ := ok_of_bind h
    obtain ⟨augments, haugments, h⟩ := ok_of_bind h
    obtain ⟨data, hdata, h⟩ := ok_of_bind h
    obtain ⟨items', hitems', h⟩ := ok_of_bind h
    obtain ⟨rpcs, hrpcs, h⟩ := ok_of_bind h
    obtain ⟨items'', hitems'', h⟩ := ok_of_bind h
    obtain ⟨groupings, hgroupings, h⟩ := ok_of_bind h
    obtain rfl := Except.ok.inj h
    exact ⟨hname, rfl, rfl, hdata, ⟨items', hitems', forall₂_of_mapM hrpcs⟩,
      ⟨items'', hitems'', forall₂_of_mapM hgroupings⟩, ⟨items, hitems, forall₂_of_mapM haugments⟩⟩
  · cases h

theorem module_ok {d : Datum} {r : Module × List Augment} (h : module d = .ok r) :
    DeclaresModule r.1 ∧ ∀ a ∈ r.2, ∀ n ∈ a.nodes, DeclaresTree r.1.name n := by
  have hread := readFrom_of_module h
  obtain ⟨_, -, hrpcs⟩ := hread.rpcs
  obtain ⟨_, -, hgroupings⟩ := hread.groupings
  obtain ⟨_, -, haugments⟩ := hread.augments
  have hrpc : ∀ n ∈ r.1.rpcs, DeclaresTree r.1.name n ∧ n.kind = .rpc := by
    intro n hn
    obtain ⟨x, -, hx⟩ := exists_of_forall₂_right hrpcs hn
    exact rpc_ok hx
  have hgrouping : ∀ n ∈ r.1.groupings, DeclaresTree r.1.name n ∧ n.kind = .grouping := by
    intro n hn
    obtain ⟨x, -, hx⟩ := exists_of_forall₂_right hgroupings hn
    obtain ⟨htree, hkind, -⟩ := node_ok _ x (some .grouping) none hx
    exact ⟨htree, hkind _ rfl⟩
  refine ⟨⟨by rw [hread.name]; exact hread.holds, hread.retired, fun part n hn => ?_, fun n hn => (hrpc n hn).2,
    fun n hn => (hgrouping n hn).2⟩, fun a ha => ?_⟩
  · cases part with
    | data => exact nodes_ok _ _ hread.data n hn
    | rpcs => exact (hrpc n hn).1
    | groupings => exact (hgrouping n hn).1
  · obtain ⟨x, -, hx⟩ := exists_of_forall₂_right haugments ha
    exact augment_ok hx

theorem exists_module_of_document {d : Datum} {modules : List Module} {augments : List Augment}
    (h : document d = .ok (modules, augments)) : ∃ items results, (d.field "modules").items? = some items ∧
      List.Forall₂ (fun d r => module d = .ok r) items results ∧ modules = results.map (·.1) ∧
        augments = results.flatMap (·.2) := by
  unfold document at h
  split at h
  · dsimp only at h
    split at h
    · cases h
    · split at h
      · cases h
      · rename_i items hitems
        obtain ⟨results, hresults, h⟩ := ok_of_bind h
        obtain ⟨rfl, rfl⟩ := Prod.mk.inj (Except.ok.inj h)
        exact ⟨items, results, hitems, forall₂_of_mapM hresults, rfl, rfl⟩
  · cases h

/-- What a document declares. -/
theorem document_ok {d : Datum} {modules : List Module} {augments : List Augment}
    (h : document d = .ok (modules, augments)) :
    (∀ m ∈ modules, DeclaresModule m) ∧
      ∀ a ∈ augments, ∃ m ∈ modules, ∀ n ∈ a.nodes, DeclaresTree m.name n := by
  obtain ⟨items, results, -, hall, rfl, rfl⟩ := exists_module_of_document h
  refine ⟨fun m hm => ?_, fun a ha => ?_⟩
  · obtain ⟨r, hr, rfl⟩ := List.mem_map.mp hm
    obtain ⟨d', -, hd'⟩ := exists_of_forall₂_right hall hr
    exact (module_ok hd').1
  · obtain ⟨r, hr, ha⟩ := List.mem_flatMap.mp ha
    obtain ⟨d', -, hd'⟩ := exists_of_forall₂_right hall hr
    exact ⟨r.1, List.mem_map_of_mem hr, (module_ok hd').2 a ha⟩

end RestconfApi.Declaration
