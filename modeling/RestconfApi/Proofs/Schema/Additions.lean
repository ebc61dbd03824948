import RestconfApi.Proofs.Schema.Grafting

/-!
# Schema: spots below added children

Children that are added below a data node come after those that it has had. So at every spot stands what has stood
there, and below the data node there is more: what the names lead to among the added trees, where the first of them
is not taken already.
-/

namespace RestconfApi

/-! ### Trees by themselves -/

namespace Place

/-- The trees as the children of a node that stands for nothing else. -/
def forest (ns : List Node) : Place :=
  ⟨Address.top 0 .data, ⟨{ kind := .container, name := .null, owner := .null }, ns⟩, []⟩

mutual

/-- The data nodes that a tree stands for do not depend on where it is. -/
theorem map_node_dataOf (a a' : Address) (above above' : List Node) :
    ∀ n : Node, (dataOf a above n).map (·.node) = (dataOf a' above' n).map (·.node)
  | ⟨st, cs⟩ => by
    rw [dataOf, dataOf]
    split
    · exact map_node_dataOfAll a a' _ _ 0 0 cs
    · rfl

theorem map_node_dataOfAll (a a' : Address) (above above' : List Node) (i i' : Nat) :
    ∀ ns : List Node, (dataOfAll a above i ns).map (·.node) = (dataOfAll a' above' i' ns).map (·.node)
  | [] => rfl
  | n :: ns => by
    rw [dataOfAll, dataOfAll, List.map_append, List.map_append,
      map_node_dataOf (a.child i) (a'.child i') above above' n,
      map_node_dataOfAll a a' above above' (i + 1) (i' + 1) ns]

end

theorem map_node_named? (name : Name) (a a' : Address) (above above' : List Node) (i i' : Nat) (ns : List Node) :
    (named? name a above i ns).map (·.node) = (named? name a' above' i' ns).map (·.node) := by
  have hfind : ∀ l : List Place, (l.find? fun p => p.node.name == name).map (·.node) =
      (l.map (·.node)).find? fun n => n.name == name := by
    intro l
    rw [List.find?_map]
    rfl
  rw [named?, named?, hfind, hfind, map_node_dataOfAll a a' above above' i i' ns]

theorem map_node_child? {p p' : Place} (h : p.node.children = p'.node.children) (name : Name) :
    (p.child? name).map (·.node) = (p'.child? name).map (·.node) := by
  rw [child?, child?, h]
  exact map_node_named? name _ _ _ _ 0 0 _

/-- Names lead to the same node from wherever the same node is. -/
theorem map_node_below? {p p' : Place} (h : p.node = p'.node) (names : List String) :
    (p.below? names).map (·.node) = (p'.below? names).map (·.node) := by
  induction names with
  | nil => exact congrArg some h
  | cons name names ih =>
    rw [below?, below?]
    cases hq : p.below? names with
    | none =>
      rw [hq] at ih
      rw [Option.map_eq_none_iff.mp ih.symm]
    | some q =>
      rw [hq] at ih
      obtain ⟨q', hq', hnode⟩ := Option.map_eq_some_iff.mp ih.symm
      rw [hq', Option.bind_some, Option.bind_some]
      exact map_node_child? (congrArg Node.children hnode.symm) (.text name)

/-- The first child of a name is among the first children or else among those that come after them. -/
theorem map_node_child?_append {p : Place} {own added : List Node} (h : p.node.children = own ++ added) (name : Name) :
    (p.child? name).map (·.node) = ((named? name p.address (p.node :: p.above) 0 own).map (·.node)).or
      (((forest added).child? name).map (·.node)) := by
  rw [child?, h, named?, dataOfAll_append, List.find?_append, Option.map_or]
  congr 1
  exact map_node_named? name _ _ _ _ _ 0 added

end Place

/-! ### Children of nodes that have grown -/

namespace Schema

variable {s : Schema}

theorem nodeAt?_appendAt_grows (added : List Node) {a b : Address} {m n : Node} (ha : s.nodeAt? a = some m)
    (hvisible : m.kind.isTransparent = false) (hb : s.nodeAt? b = some n) :
    ∃ n' own, (s.appendAt a added).nodeAt? b = some n' ∧ n'.children = own ++ (if b = a then added else []) ∧
      List.Forall₂ (Node.Grows True) n.children own := by
  rcases nodeAt?_appendAt_cases added ha hb with ⟨hn, hne⟩ | ⟨ks, rfl, hm, hn⟩
  · exact ⟨n, n.children, hn, by rw [if_neg hne, List.append_nil], Node.growAll_refl _⟩
  · cases ks with
    | nil => exact ⟨_, n.children, hn, by simp [Node.appendAt], Node.growAll_refl _⟩
    | cons k ks =>
      refine ⟨_, n.children.modify k (Node.appendAt added ks), hn, ?_, ?_⟩
      · rw [if_neg (append_ne_self b k ks), List.append_nil]
        rfl
      · refine forall₂_modify .refl fun c hc => ?_
        rw [Node.at?, hc] at hm
        exact Node.grows_appendAt hm hvisible

/-! ### Spots tell data nodes apart -/

theorem module_of_mem_dataChildren {p x : Place} (h : x ∈ p.dataChildren) : x.address.module = p.address.module := by
  obtain ⟨q, i, hq, hi, -⟩ := Place.mem_dataChildren.mp h
  rw [Place.address_of_childAt? hi, Address.child]
  clear hi
  induction hq with
  | self => rfl
  | step _ hc _ ih =>
    rw [Place.address_of_childAt? hc]
    exact ih

theorem module_of_topNamed? {m : Module} {i : Nat} {name : Name} {p : Place} (h : m.topNamed? i name = some p) :
    p.address.module = i := by
  obtain ⟨part, hmem, -⟩ := Module.mem_of_topNamed? h
  obtain ⟨j, n, -, hmem⟩ := Place.mem_dataOfAll.mp hmem
  rw [Place.dataOf_eq] at hmem
  split at hmem
  · have hmodule := module_of_mem_dataChildren (p := ⟨(Address.top i part).child (0 + j), n, []⟩) hmem
    exact hmodule
  · obtain rfl := List.mem_singleton.mp hmem
    rfl

theorem module_of_spot? {x : Spot} {p : Place} (h : s.spot? x = some p) : p.address.module = x.module := by
  refine spot?_induction (P := fun x p => p.address.module = x.module) ?_ ?_ h
  · intro i name m p _ hp
    exact module_of_topNamed? hp
  · intro x name p q _ hp hq
    rw [module_of_mem_dataChildren (Place.mem_dataChildren_of_child? hq), hp]
    rfl

theorem name_of_spot? {i : Nat} {name : String} {names : List String} {p : Place}
    (h : s.spot? ⟨i, name :: names⟩ = some p) : p.node.name = .text name := by
  rcases spot?_cases h with ⟨-, m, -, hp⟩ | ⟨q, -, hp⟩
  · obtain ⟨part, -, hname⟩ := Module.mem_of_topNamed? hp
    exact Datum.eq_text_of_beq hname
  · exact Place.name_of_child? hp

/-- A data node is at one spot. -/
theorem spot_eq {x y : Spot} {p : Place} (hx : s.spot? x = some p) (hy : s.spot? y = some p) : x = y := by
  have hmodule := (module_of_spot? hx).symm.trans (module_of_spot? hy)
  obtain ⟨i, names⟩ := x
  obtain ⟨j, names'⟩ := y
  obtain rfl : i = j := hmodule
  congr 1
  induction names generalizing names' p with
  | nil => cases hx
  | cons name names ih =>
    cases names' with
    | nil => cases hy
    | cons name' names' =>
      have hname := (name_of_spot? hx).symm.trans (name_of_spot? hy)
      have hparent := (dataParent?_of_spot? hx).symm.trans (dataParent?_of_spot? hy)
      have hnames : name = name' := by simpa using hname
      rw [hnames]
      congr 1
      rcases spot?_cases hx with ⟨rfl, -⟩ | ⟨q, hq, -⟩
      · rcases spot?_cases hy with ⟨rfl, -⟩ | ⟨q, hq, -⟩
        · rfl
        · rw [hq] at hparent
          cases hparent
      · exact ih hq names' (hparent.symm.trans hq)

/-! ### Spots after an addition -/

section

variable {x y : Spot} {p q : Place} (added : List Node)

/-- What stands at a spot has the children that it has had, and the added ones if it is where they are added. -/
theorem spot?_appendAt (hp : s.spot? x = some p) (hq : s.spot? y = some q) :
    ∃ q' own, (s.appendAt p.address added).spot? y = some q' ∧ q.Grows True id q' ∧
      q'.node.children = own ++ (if y = x then added else []) ∧ List.Forall₂ (Node.Grows True) q.node.children own := by
  have hptarget := isTarget_of_spot? hp
  have hqtarget := isTarget_of_spot? hq
  obtain ⟨q', hq', hgrows⟩ := (growsTo_appendAt hptarget added).spot? hq
  have haddress : q'.address = q.address := hgrows.address
  have hnode : (s.appendAt p.address added).nodeAt? q.address = some q'.node := by
    have hhas := (isTarget_of_spot? hq').has
    rw [Has, haddress] at hhas
    rw [nodeAt?, hhas]
    rfl
  have hpnode : s.nodeAt? p.address = some p.node := by
    rw [nodeAt?, show s.place? p.address = some p from hptarget.has]
    rfl
  have hqnode : s.nodeAt? q.address = some q.node := by
    rw [nodeAt?, show s.place? q.address = some q from hqtarget.has]
    rfl
  obtain ⟨n', own, hn', hchildren, hown⟩ := nodeAt?_appendAt_grows added hpnode hptarget.visible hqnode
  obtain rfl := Option.some.inj (hnode.symm.trans hn')
  refine ⟨q', own, hq', hgrows, ?_, hown⟩
  have hiff : q.address = p.address ↔ y = x := by
    constructor
    · intro heq
      obtain rfl := hqtarget.has.eq hptarget.has heq
      exact spot_eq hq hp
    · rintro rfl
      rw [Option.some.inj (hq.symm.trans hp)]
  rw [hchildren]
  simp only [hiff]

/-- A name that was no child's is that of what has been added. -/
theorem map_node_child?_of_none {q' : Place} {own more : List Node} (hgrows : q.Grows True id q')
    (hchildren : q'.node.children = own ++ more) (hown : List.Forall₂ (Node.Grows True) q.node.children own)
    {name : Name} (hnone : q.child? name = none) :
    (q'.child? name).map (·.node) = ((Place.forest more).child? name).map (·.node) := by
  have hrel := Place.Grows.named? (f := id) (Node.growAll_iff.mpr hown) (hgrows.above.cons hgrows.node) name q.address 0
  have haddress : q'.address = q.address.moved id := hgrows.address
  rw [show Place.named? name q.address (q.node :: q.above) 0 q.node.children = none from hnone, ← haddress] at hrel
  have hfirst := Place.map_node_child?_append hchildren name
  generalize Place.named? name q'.address (q'.node :: q'.above) 0 own = found at hrel hfirst
  cases hrel with
  | none => simpa using hfirst

/-- A node that names lead to among the trees added at `x`, where the first of the names was no child's. -/
def IsAdded (s : Schema) (added : List Node) (x y : Spot) (n : Node) : Prop :=
  ∃ names name z, y = x.down (names ++ [name]) ∧ s.spot? (x.down [name]) = none ∧
    (Place.forest added).below? (names ++ [name]) = some z ∧ z.node = n

theorem IsAdded.child {n : Node} (h : IsAdded s added x y n) (hn : q.node = n) {name : String} {r : Place}
    (hr : q.child? (.text name) = some r) : IsAdded s added x (y.down [name]) r.node := by
  obtain ⟨names, first, z, rfl, hnone, hz, hnode⟩ := h
  have hchild := Place.map_node_child? (congrArg Node.children (hnode.trans hn.symm)) (.text name)
  rw [hr] at hchild
  obtain ⟨z', hz', hnode'⟩ := Option.map_eq_some_iff.mp hchild
  refine ⟨name :: names, first, z', rfl, hnone, ?_, hnode'⟩
  rw [List.cons_append, Place.below?, hz, Option.bind_some, hz']

/-- A data node has been there before an addition or stands in the added trees. -/
theorem spot?_or_isAdded (hp : s.spot? x = some p) {q' : Place}
    (hq' : (s.appendAt p.address added).spot? y = some q') :
    (∃ q, s.spot? y = some q) ∨ IsAdded s added x y q'.node := by
  refine spot?_induction (P := fun y q' => (∃ q, s.spot? y = some q) ∨ IsAdded s added x y q'.node) ?_ ?_ hq'
  · intro i name m' q' hm' hq'
    obtain ⟨m, hm, hgrows⟩ := getElem?_of_forall₂_right (modules_appendAt (isTarget_of_spot? hp) added) hm'
    have htop := hgrows.topNamed? (f := id) i (.text name)
    rw [id, hq'] at htop
    rw [spot?_top, hm, Option.bind_some]
    generalize m.topNamed? i (.text name) = found at htop
    cases htop with
    | some _ => exact .inl ⟨_, rfl⟩
  · rintro y name q' r' hq' (⟨q, hq⟩ | hadded) hr'
    · obtain ⟨q'', own, hq'', hgrows, hchildren, hown⟩ := spot?_appendAt added hp hq
      obtain rfl := Option.some.inj (hq''.symm.trans hq')
      rw [spot?_cons (names_ne_nil_of_spot? hq), hq, Option.bind_some]
      cases hr : q.child? (.text name) with
      | some r => exact .inl ⟨r, rfl⟩
      | none =>
        have hadded := map_node_child?_of_none hgrows hchildren hown hr
        rw [hr'] at hadded
        by_cases hyx : y = x
        · subst hyx
          obtain rfl := Option.some.inj (hq.symm.trans hp)
          rw [if_pos rfl] at hadded
          obtain ⟨z, hz, hnode⟩ := Option.map_eq_some_iff.mp hadded.symm
          refine .inr ⟨[], name, z, rfl, ?_, hz, hnode⟩
          rw [spot?_cons (names_ne_nil_of_spot? hq), hq, Option.bind_some, hr]
        · rw [if_neg hyx] at hadded
          cases hadded
    · exact .inr (hadded.child added rfl hr')

/-- What names lead to among the added trees is there afterwards, if the first of them has not been taken. -/
theorem IsAdded.isSome_spot? (hp : s.spot? x = some p) {n : Node} (h : IsAdded s added x y n) :
    ((s.appendAt p.address added).spot? y).isSome = true := by
  obtain ⟨names, name, z, rfl, hnone, hz, -⟩ := h
  obtain ⟨p', own, hp', hgrows, hchildren, hown⟩ := spot?_appendAt added hp hp
  rw [spot?_cons (names_ne_nil_of_spot? hp), hp, Option.bind_some] at hnone
  rw [if_pos rfl] at hchildren
  have hadded := map_node_child?_of_none hgrows hchildren hown hnone
  rw [Place.below?_append, Place.below?_singleton] at hz
  obtain ⟨w, hw, hz⟩ := Option.bind_eq_some_iff.mp hz
  rw [hw] at hadded
  obtain ⟨w', hw', hnode⟩ := Option.map_eq_some_iff.mp hadded
  have hrest := Place.map_node_below? hnode names
  rw [hz] at hrest
  obtain ⟨z', hz', -⟩ := Option.map_eq_some_iff.mp hrest
  rw [spot?_down hp', Place.below?_append, Place.below?_singleton, hw', Option.bind_some, hz']
  rfl

/-- After an addition there is a data node where there has been one, and where names lead to among the added trees
if the first of them has not been taken. -/
theorem isSome_spot?_appendAt (hp : s.spot? x = some p) (y : Spot) :
    ((s.appendAt p.address added).spot? y).isSome = true ↔ (s.spot? y).isSome = true ∨
      ∃ names name, y = x.down (names ++ [name]) ∧ s.spot? (x.down [name]) = none ∧
        ((Place.forest added).below? (names ++ [name])).isSome = true := by
  constructor
  · intro hy
    obtain ⟨q', hq'⟩ := Option.isSome_iff_exists.mp hy
    rcases spot?_or_isAdded added hp hq' with ⟨q, hq⟩ | ⟨names, name, z, hyx, hnone, hz, -⟩
    · exact .inl (by rw [hq]; rfl)
    · exact .inr ⟨names, name, hyx, hnone, by rw [hz]; rfl⟩
  · rintro (hy | ⟨names, name, hyx, hnone, hbelow⟩)
    · obtain ⟨q, hq⟩ := Option.isSome_iff_exists.mp hy
      obtain ⟨q', hq', -⟩ := (growsTo_appendAt (isTarget_of_spot? hp) added).spot? hq
      have hsame : (s.appendAt p.address added).spot? y = some q' := hq'
      rw [hsame]
      rfl
    · obtain ⟨z, hz⟩ := Option.isSome_iff_exists.mp hbelow
      exact IsAdded.isSome_spot? added hp ⟨names, name, z, hyx, hnone, hz, rfl⟩

end

end Schema

end RestconfApi
