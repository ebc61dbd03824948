import RestconfApi.Proofs.Lists
import RestconfApi.Proofs.Schema.Trees
import RestconfApi.Proofs.Schema.Waypoints

/-!
# Schema: paths in a schema that grows

Augments add children after those that a node has had, and never to a choice or a case, and neither config flags nor
templates bear on names. So a path goes on leading to where it has led, also when modules stand in another order.
-/

namespace RestconfApi

/-- An address when the modules stand where `f` says. -/
def Address.moved (f : Nat → Nat) (a : Address) : Address := { a with module := f a.module }

@[simp] theorem Address.moved_id (a : Address) : a.moved id = a := rfl

@[simp] theorem Address.moved_child (f : Nat → Nat) (a : Address) (i : Nat) :
    (a.child i).moved f = (a.moved f).child i := rfl

namespace Node

variable {grown : Prop}

mutual

/-- The second tree has grown from the first one: the nodes have the kinds and names that they have had, and where
things have `grown`, more children may follow those that a node has had if it is neither a choice nor a case. -/
def Grows (grown : Prop) : Node → Node → Prop
  | ⟨st, cs⟩, n' => n'.kind = st.kind ∧ n'.name = st.name ∧ ∃ own more, n'.children = own ++ more ∧
      GrowAll grown cs own ∧ (st.kind.isTransparent = true ∨ ¬grown → more = [])

def GrowAll (grown : Prop) : List Node → List Node → Prop
  | [], ns' => ns' = []
  | n :: ns, ns' => ∃ m ms, ns' = m :: ms ∧ Grows grown n m ∧ GrowAll grown ns ms

end

theorem growAll_iff {ns ns' : List Node} : GrowAll grown ns ns' ↔ List.Forall₂ (Grows grown) ns ns' := by
  induction ns generalizing ns' with
  | nil => rw [GrowAll, List.forall₂_nil_left_iff]
  | cons n ns ih =>
    rw [GrowAll]
    constructor
    · rintro ⟨m, ms, rfl, hm, hms⟩
      exact .cons hm (ih.mp hms)
    · rintro (_ | ⟨hm, hms⟩)
      exact ⟨_, _, rfl, hm, ih.mpr hms⟩

theorem grows_iff {n n' : Node} : n.Grows grown n' ↔ n'.kind = n.kind ∧ n'.name = n.name ∧ ∃ own more,
    n'.children = own ++ more ∧ List.Forall₂ (Grows grown) n.children own ∧
      (n.kind.isTransparent = true ∨ ¬grown → more = []) := by
  obtain ⟨st, cs⟩ := n
  simp only [Grows, growAll_iff]

/-- Nothing has been added to nodes that say the same and have the same children. -/
theorem grows_of_children {n n' : Node} (hkind : n'.kind = n.kind) (hname : n'.name = n.name)
    (hchildren : List.Forall₂ (Grows grown) n.children n'.children) : n.Grows grown n' :=
  grows_iff.mpr ⟨hkind, hname, _, [], (List.append_nil _).symm, hchildren, fun _ => rfl⟩

mutual

theorem grows_of_erased : ∀ {n n' : Node}, n'.erased = n.erased → n.Grows grown n'
  | ⟨st, cs⟩, ⟨st', cs'⟩, h => by
    rw [erased, erased, mapStatements, mapStatements] at h
    obtain ⟨hst, hcs⟩ := Node.mk.inj h
    have hkind := congrArg Statement.kind hst
    have hname := congrArg Statement.name hst
    exact ⟨hkind, hname, cs', [], (List.append_nil _).symm, growAll_of_erased hcs, fun _ => rfl⟩

theorem growAll_of_erased : ∀ {ns ns' : List Node},
    mapStatementsAll Statement.erased ns' = mapStatementsAll Statement.erased ns → GrowAll grown ns ns'
  | [], [], _ => rfl
  | [], _ :: _, h => nomatch h
  | _ :: _, [], h => nomatch h
  | _ :: _, _ :: _, h => by
    obtain ⟨hn, hns⟩ := List.cons.inj h
    exact ⟨_, _, rfl, grows_of_erased hn, growAll_of_erased hns⟩

end

theorem Grows.refl (n : Node) : n.Grows grown n := grows_of_erased rfl

theorem growAll_refl (ns : List Node) : List.Forall₂ (Grows grown) ns ns := List.forall₂_same.mpr fun n _ => .refl n

theorem grows_appendAt {added : List Node} {is : List Nat} {n m : Node} (hm : n.at? is = some m)
    (hvisible : m.kind.isTransparent = false) : n.Grows True (n.appendAt added is) := by
  induction is generalizing n with
  | nil =>
    obtain rfl := Option.some.inj hm
    refine grows_iff.mpr ⟨rfl, rfl, n.children, added, rfl, growAll_refl _, fun h => ?_⟩
    simp [hvisible] at h
  | cons i is ih =>
    refine grows_of_children rfl rfl (forall₂_modify .refl fun c hc => ?_)
    rw [at?, hc] at hm
    exact ih hm

theorem Grows.kind {n n' : Node} (h : n.Grows grown n') : n'.kind = n.kind := (grows_iff.mp h).1

theorem Grows.name {n n' : Node} (h : n.Grows grown n') : n'.name = n.name := (grows_iff.mp h).2.1

/-- Where nothing has grown, trees have children that correspond. -/
theorem Grows.children {n n' : Node} (h : n.Grows False n') : List.Forall₂ (Grows False) n.children n'.children := by
  obtain ⟨-, -, own, more, hchildren, hown, hmore⟩ := grows_iff.mp h
  rw [hchildren, hmore (.inr id), List.append_nil]
  exact hown

end Node

namespace Place

variable {grown : Prop} {f : Nat → Nat}

/-- The second place is where the first one was before the trees have grown and the modules have moved. -/
structure Grows (grown : Prop) (f : Nat → Nat) (p p' : Place) : Prop where
  address : p'.address = p.address.moved f
  node : p.node.Grows grown p'.node
  above : List.Forall₂ (Node.Grows grown) p.above p'.above

mutual

theorem dataOf_grows (a : Address) : ∀ {n n' : Node} {above above' : List Node}, n.Grows grown n' →
    List.Forall₂ (Node.Grows grown) above above' →
      List.Forall₂ (Grows grown f) (dataOf a above n) (dataOf (a.moved f) above' n')
  | ⟨st, cs⟩, ⟨st', cs'⟩, above, above', h, habove => by
    have hkind : st'.kind = st.kind := h.kind
    have hall := habove.cons h
    obtain ⟨-, -, own, more, rfl, hown, hmore⟩ := h
    rw [dataOf, dataOf, hkind]
    split
    · rename_i ht
      rw [hmore (.inl ht), List.append_nil] at hall ⊢
      exact dataOfAll_grows a 0 hown hall
    · cases hall with
      | cons h habove => exact .cons ⟨rfl, h, habove⟩ .nil
termination_by structural n => n

theorem dataOfAll_grows (a : Address) (i : Nat) : ∀ {ns ns' : List Node} {above above' : List Node},
    Node.GrowAll grown ns ns' → List.Forall₂ (Node.Grows grown) above above' →
      List.Forall₂ (Grows grown f) (dataOfAll a above i ns) (dataOfAll (a.moved f) above' i ns')
  | [], _, _, _, rfl, _ => .nil
  | _ :: _, _, _, _, ⟨_, _, rfl, hm, hms⟩, habove =>
    List.rel_append (dataOf_grows (a.child i) hm habove) (dataOfAll_grows a (i + 1) hms habove)
termination_by structural ns => ns

end

theorem dataOfAll_append (a : Address) (above : List Node) (i : Nat) (ns ms : List Node) :
    dataOfAll a above i (ns ++ ms) = dataOfAll a above i ns ++ dataOfAll a above (i + ns.length) ms := by
  induction ns generalizing i with
  | nil => rfl
  | cons n ns ih => rw [List.cons_append, dataOfAll, dataOfAll, ih, List.append_assoc, List.length_cons,
      Nat.add_assoc, Nat.add_comm 1]

theorem Grows.named? {ns ns' : List Node} (h : Node.GrowAll grown ns ns') {above above' : List Node}
    (habove : List.Forall₂ (Node.Grows grown) above above') (name : Name) (a : Address) (i : Nat) :
    Option.Rel (Grows grown f) (Place.named? name a above i ns) (Place.named? name (a.moved f) above' i ns') :=
  find?_of_forall₂ (dataOfAll_grows a i h habove) fun _ _ hp => by rw [hp.node.name]

theorem Grows.child? {p p' x : Place} (h : p.Grows grown f p') {name : Name} (hx : p.child? name = some x) :
    ∃ x', p'.child? name = some x' ∧ x.Grows grown f x' := by
  obtain ⟨haddr, hnode, habove⟩ := h
  have hall := habove.cons hnode
  obtain ⟨-, -, own, more, hchildren, hown, -⟩ := Node.grows_iff.mp hnode
  have hrel := Grows.named? (f := f) (Node.growAll_iff.mpr hown) hall name p.address 0
  rw [show Place.named? name p.address (p.node :: p.above) 0 p.node.children = some x from hx] at hrel
  generalize hfound : Place.named? name (p.address.moved f) (p'.node :: p'.above) 0 own = found at hrel
  cases hrel with
  | some hx' =>
    refine ⟨_, ?_, hx'⟩
    rw [Place.child?, haddr, hchildren, Place.named?, dataOfAll_append, List.find?_append,
      show (dataOfAll (p.address.moved f) (p'.node :: p'.above) 0 own).find? _ = _ from hfound]
    rfl

end Place

/-! ### Paths -/

/-- The second module has grown from the first one. -/
structure Module.Grows (grown : Prop) (m m' : Module) : Prop where
  name : m'.name = m.name
  shortName : m'.shortName = m.shortName
  data : List.Forall₂ (Node.Grows grown) m.data m'.data
  rpcs : List.Forall₂ (Node.Grows grown) m.rpcs m'.rpcs

theorem Module.Grows.topNamed? {grown : Prop} {f : Nat → Nat} {m m' : Module} (h : m.Grows grown m') (i : Nat)
    (name : Name) : Option.Rel (Place.Grows grown f) (m.topNamed? i name) (m'.topNamed? (f i) name) := by
  have hdata := Place.Grows.named? (f := f) (Node.growAll_iff.mpr h.data) .nil name (Address.top i .data) 0
  have hrpcs := Place.Grows.named? (f := f) (Node.growAll_iff.mpr h.rpcs) .nil name (Address.top i .rpcs) 0
  have hmoved : ∀ part, (Address.top i part).moved f = Address.top (f i) part := fun _ => rfl
  rw [hmoved] at hdata hrpcs
  unfold Module.topNamed?
  generalize Place.named? name (Address.top i .data) [] 0 m.data = found at hdata
  generalize Place.named? name (Address.top (f i) .data) [] 0 m'.data = found' at hdata
  cases hdata with
  | some h => exact .some h
  | none => exact hrpcs

namespace Schema

/-- The second schema has grown from the first one, its modules standing where `f` says. -/
structure GrowsTo (grown : Prop) (f : Nat → Nat) (s s' : Schema) : Prop where
  module : ∀ {i m}, s.modules[i]? = some m → ∃ m', s'.modules[f i]? = some m' ∧ m.Grows grown m'
  position : ∀ tag, s'.position? tag = (s.position? tag).map f

variable {grown : Prop} {f : Nat → Nat} {s s' : Schema}

theorem forall₂_zipIdx_of_forall₂ {α β : Type} {R : α → β → Prop} {l : List α} {l' : List β}
    (h : List.Forall₂ R l l') (i : Nat) :
    List.Forall₂ (fun a b => b.2 = a.2 ∧ R a.1 b.1) (l.zipIdx i) (l'.zipIdx i) := by
  induction h generalizing i with
  | nil => exact .nil
  | cons hR _ ih =>
    rw [List.zipIdx_cons, List.zipIdx_cons]
    exact .cons ⟨rfl, hR⟩ (ih (i + 1))

/-- Where modules are found does not depend on more than their names. -/
theorem position?_of_names (h : List.Forall₂ (fun m m' : Module => m'.name = m.name ∧ m'.shortName = m.shortName)
    s.modules s'.modules) (tag : String) : s'.position? tag = s.position? tag := by
  have hname := find?_of_forall₂ (forall₂_zipIdx_of_forall₂ h 0) (p := fun mi => mi.1.name == .text tag)
    (q := fun mi => mi.1.name == .text tag) fun _ _ hm => by rw [hm.2.1]
  have hshort := find?_of_forall₂ (forall₂_zipIdx_of_forall₂ h 0) (p := fun mi => mi.1.shortName == .text tag)
    (q := fun mi => mi.1.shortName == .text tag) fun _ _ hm => by rw [hm.2.2]
  unfold position? moduleByPrefix? module?
  generalize s.modules.zipIdx.find? (fun mi => mi.1.name == .text tag) = found at hname
  generalize s'.modules.zipIdx.find? (fun mi => mi.1.name == .text tag) = found' at hname
  cases hname with
  | some h => exact congrArg some h.1
  | none =>
    generalize s.modules.zipIdx.find? (fun mi => mi.1.shortName == .text tag) = found at hshort
    generalize s'.modules.zipIdx.find? (fun mi => mi.1.shortName == .text tag) = found' at hshort
    cases hshort with
    | some h => exact congrArg some h.1
    | none => rfl

theorem growsTo_of_forall₂ (h : List.Forall₂ (Module.Grows grown) s.modules s'.modules) : s.GrowsTo grown id s' where
  module hm := getElem?_of_forall₂ h hm
  position tag := by
    rw [position?_of_names (h.imp fun _ _ hm => ⟨hm.name, hm.shortName⟩), Option.map_id, id_eq]

/-- What stands at a spot stands there still. -/
theorem GrowsTo.spot? (h : s.GrowsTo grown f s') {x : Spot} {p : Place} (hp : s.spot? x = some p) :
    ∃ p', s'.spot? (x.moved f) = some p' ∧ p.Grows grown f p' := by
  refine spot?_induction (P := fun x p => ∃ p', s'.spot? (x.moved f) = some p' ∧ p.Grows grown f p') ?_ ?_ hp
  · intro i name m p hm hp
    obtain ⟨m', hm', hgrows⟩ := h.module hm
    have htop := hgrows.topNamed? (f := f) i (.text name)
    rw [hp] at htop
    rw [show (Spot.moved f ⟨i, [name]⟩ : Spot) = ⟨f i, [name]⟩ from rfl, spot?_top, hm', Option.bind_some]
    generalize m'.topNamed? (f i) (.text name) = found at htop
    cases htop with
    | some hp' => exact ⟨_, rfl, hp'⟩
  · rintro x name p q hx ⟨p', hp', hgrows⟩ hq
    obtain ⟨q', hq', hgrows'⟩ := hgrows.child? hq
    have hnames : (x.moved f).names ≠ [] := names_ne_nil_of_spot? hp'
    refine ⟨q', ?_, hgrows'⟩
    rw [show (x.down [name]).moved f = (x.moved f).down [name] from rfl, spot?_cons hnames, hp', Option.bind_some, hq']

theorem next?_moved (h : ∀ tag, s'.position? tag = (s.position? tag).map f) (step : String) (current : Option Spot) :
    s'.next? step (current.map (Spot.moved f)) = (s.next? step current).map (Spot.moved f) := by
  cases current with
  | none =>
    rw [Option.map_none, next?, next?, h]
    split
    · rfl
    · cases s.position? (splitName step).1 <;> rfl
  | some x =>
    rw [Option.map_some, next?, next?]
    by_cases hup : step = ".."
    · by_cases htop : x.names.tail = []
      · simp [hup, htop, Spot.moved]
      · simp [hup, htop, Spot.moved]
    · simp [hup, Spot.moved, Spot.down]

theorem passed?_moved (h : ∀ tag, s'.position? tag = (s.position? tag).map f) (steps : List String)
    (current : Option Spot) : s'.passed? steps (current.map (Spot.moved f)) =
      (s.passed? steps current).map (List.map (Spot.moved f)) := by
  induction steps generalizing current with
  | nil => cases current <;> rfl
  | cons step steps ih =>
    rw [passed?, passed?]
    by_cases hskip : (Text.trim step = "" || Text.trim step = ".") = true
    · rw [if_pos hskip, if_pos hskip]
      exact ih current
    · rw [if_neg hskip, if_neg hskip, next?_moved h]
      cases s.next? (Text.trim step) current with
      | none => rfl
      | some x =>
        have hrest := ih (some x)
        rw [Option.map_some] at hrest
        rw [Option.map_some, Option.bind_some, Option.bind_some, hrest]
        cases s.passed? steps (some x) <;> rfl

/-- A path passes the spots that it has passed. -/
theorem waypoints?_moved (h : ∀ tag, s'.position? tag = (s.position? tag).map f) (path : String) :
    s'.waypoints? path = (s.waypoints? path).map (List.map (Spot.moved f)) := by
  rw [waypoints?, waypoints?]
  split
  · exact passed?_moved h _ none
  · rfl

/-- A path leads to where it has led before. -/
theorem GrowsTo.node? (h : s.GrowsTo grown f s') {path : String} {p : Place} (hp : s.node? path none = some p) :
    ∃ p', s'.node? path none = some p' ∧ p.Grows grown f p' := by
  obtain ⟨xs, hxs, hall, hlast⟩ := node?_eq_some_iff.mp hp
  obtain ⟨x, hx, hp⟩ := Option.bind_eq_some_iff.mp hlast
  obtain ⟨p', hp', hgrows⟩ := h.spot? hp
  refine ⟨p', node?_eq_some_iff.mpr ⟨xs.map (Spot.moved f), ?_, ?_, ?_⟩, hgrows⟩
  · rw [waypoints?_moved h.position, hxs, Option.map_some]
  · intro _ hmem
    obtain ⟨y, hy, rfl⟩ := List.mem_map.mp hmem
    obtain ⟨q, hq⟩ := Option.isSome_iff_exists.mp (hall y hy)
    obtain ⟨q', hq', -⟩ := h.spot? hq
    rw [hq']
    rfl
  · rw [List.getLast?_map, hx, Option.map_some, Option.bind_some, hp']

end Schema

end RestconfApi
