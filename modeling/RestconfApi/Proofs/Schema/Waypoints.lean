import RestconfApi.Proofs.Names
import RestconfApi.Proofs.Schema.Paths

/-!
# Schema: what a path passes

A path that starts at the top of a module leads from one data node to the next. It says by itself, but for what its
prefix means, which spots it passes: a spot is told by the names from a data node up to the top. So where a path leads
depends on no more than on what stands at these spots.
-/

namespace RestconfApi

/-- A spot for a data node: the module that it stands in, its name and the names of the data nodes around it, the
nearest first. -/
structure Spot where
  module : Nat
  names : List String
deriving DecidableEq

/-- A spot when the modules stand where `f` says. -/
def Spot.moved (f : Nat → Nat) (x : Spot) : Spot := { x with module := f x.module }

/-- The spot that names lead to, the last name first. -/
def Spot.down (x : Spot) (names : List String) : Spot := { x with names := names ++ x.names }

namespace Place

/-! ### The data node around -/

theorem enclosing?_of_through {p q : Place} (hp : p.node.kind.isTransparent = false) (h : p.Through q) {a : Address}
    {levels : Nat} (ha : q.address = { a with path := a.path.take (a.path.length - (levels + 1)) }) :
    enclosing? a (q.node :: q.above) levels = some p := by
  induction h generalizing levels with
  | self => simp [enclosing?, hp, ← ha]
  | @step q x i _ hx ht ih =>
    have hchild := (address_of_childAt? hx).symm.trans ha
    have haddress : q.address = { a with path := a.path.take (a.path.length - (levels + 1 + 1)) } := by
      obtain ⟨m, part, path⟩ := a
      generalize q.address = b at hchild ⊢
      obtain ⟨m', part', js⟩ := b
      obtain ⟨rfl, rfl, hpath⟩ := Address.mk.inj hchild
      have hjs := Schema.take_of_child (Nat.sub_le path.length (levels + 1)) hpath
      rw [Nat.sub_sub] at hjs
      simpa using hjs
    rw [enclosing?, if_pos ht, above_of_childAt? hx]
    exact ih haddress

theorem dataParent?_of_mem_dataChildren {p x : Place} (hp : p.node.kind.isTransparent = false)
    (hx : x ∈ p.dataChildren) : x.dataParent? = some p := by
  obtain ⟨q, i, hq, hi, -⟩ := mem_dataChildren.mp hx
  have haddress := address_of_childAt? hi
  rw [dataParent?, above_of_childAt? hi]
  apply enclosing?_of_through hp hq
  rw [haddress]
  simp [Address.child]

theorem enclosing?_eq_none (a : Address) {above : List Node} (h : ∀ n ∈ above, n.kind.isTransparent = true)
    (levels : Nat) : enclosing? a above levels = none := by
  induction above generalizing levels with
  | nil => rfl
  | cons n above ih =>
    rw [enclosing?, if_pos (h n List.mem_cons_self)]
    exact ih (fun m hm => h m (List.mem_cons_of_mem _ hm)) (levels + 1)

theorem Through.isTransparent_above {p q : Place} (h : p.Through q)
    (hp : ∀ n ∈ p.node :: p.above, n.kind.isTransparent = true) :
    ∀ n ∈ q.node :: q.above, n.kind.isTransparent = true := by
  induction h with
  | self => exact hp
  | step _ hx ht ih =>
    rw [above_of_childAt? hx]
    intro n hn
    rcases List.mem_cons.mp hn with rfl | hn
    · exact ht
    · exact ih n hn

/-- No data node is around the top ones. -/
theorem dataParent?_of_mem_dataOfAll {a : Address} {i : Nat} {ns : List Node} {x : Place}
    (hx : x ∈ dataOfAll a [] i ns) : x.dataParent? = none := by
  obtain ⟨j, n, -, hx⟩ := mem_dataOfAll.mp hx
  rw [dataOf_eq] at hx
  split at hx
  · rename_i ht
    have hmem : x ∈ dataChildren ⟨a.child (i + j), n, []⟩ := hx
    obtain ⟨q, k, hq, hk, -⟩ := mem_dataChildren.mp hmem
    have htop : ∀ m ∈ [n], m.kind.isTransparent = true := by simpa using ht
    rw [dataParent?, above_of_childAt? hk]
    exact enclosing?_eq_none _ (hq.isTransparent_above htop) 0
  · obtain rfl := List.mem_singleton.mp hx
    rfl

/-! ### Going down by names -/

theorem mem_dataChildren_of_child? {p x : Place} {name : Name} (h : p.child? name = some x) : x ∈ p.dataChildren :=
  List.mem_of_find?_eq_some h

theorem name_of_child? {p x : Place} {name : String} (h : p.child? (.text name) = some x) :
    x.node.name = .text name := by
  have hname := List.find?_some h
  exact Datum.eq_text_of_beq hname

/-- The place that names lead to from a place, the last name first. -/
def below? (p : Place) : List String → Option Place
  | [] => some p
  | name :: names => (p.below? names).bind fun q => q.child? (.text name)

theorem below?_singleton (p : Place) (name : String) : p.below? [name] = p.child? (.text name) := rfl

theorem below?_append (p : Place) (names above : List String) :
    p.below? (names ++ above) = (p.below? above).bind fun q => q.below? names := by
  induction names with
  | nil => simp [below?]
  | cons name names ih => rw [List.cons_append, below?, ih, Option.bind_assoc]; rfl

end Place

theorem Module.mem_of_topNamed? {m : Module} {i : Nat} {name : Name} {x : Place} (h : m.topNamed? i name = some x) :
    ∃ part, x ∈ Place.dataOfAll (Address.top i part) [] 0 (m.part part) ∧ (x.node.name == name) = true := by
  unfold Module.topNamed? at h
  split at h
  · rename_i hp
    obtain rfl := Option.some.inj h
    have hname := List.find?_some hp
    exact ⟨.data, List.mem_of_find?_eq_some hp, hname⟩
  · have hname := List.find?_some h
    exact ⟨.rpcs, List.mem_of_find?_eq_some h, hname⟩

namespace Schema

variable {s : Schema}

/-- The data node that names of a module lead to, the last name first. -/
def named? (s : Schema) (i : Nat) : List String → Option Place
  | [] => none
  | name :: names =>
    if names = [] then s.modules[i]?.bind fun m => m.topNamed? i (.text name)
    else (s.named? i names).bind fun p => p.child? (.text name)

/-- The data node at a spot. -/
def spot? (s : Schema) (x : Spot) : Option Place := s.named? x.module x.names

theorem spot?_top (s : Schema) (i : Nat) (name : String) :
    s.spot? ⟨i, [name]⟩ = s.modules[i]?.bind fun m => m.topNamed? i (.text name) := by
  rw [spot?, named?, if_pos rfl]

theorem spot?_cons {x : Spot} (hx : x.names ≠ []) (name : String) :
    s.spot? (x.down [name]) = (s.spot? x).bind fun p => p.child? (.text name) := by
  rw [spot?, Spot.down, List.singleton_append, named?, if_neg hx]
  rfl

theorem names_ne_nil_of_spot? {x : Spot} {p : Place} (h : s.spot? x = some p) : x.names ≠ [] := by
  obtain ⟨i, names⟩ := x
  rintro rfl
  cases h

/-- Below a spot names lead on from what stands there. -/
theorem spot?_down_eq_bind {x : Spot} (hx : x.names ≠ []) (names : List String) :
    s.spot? (x.down names) = (s.spot? x).bind fun p => p.below? names := by
  induction names with
  | nil => exact (Option.bind_fun_some _).symm
  | cons name names ih =>
    have hne : (x.down names).names ≠ [] := by simp [Spot.down, hx]
    rw [show x.down (name :: names) = (x.down names).down [name] from rfl, spot?_cons hne, ih, Option.bind_assoc]
    rfl

theorem spot?_down {x : Spot} {p : Place} (h : s.spot? x = some p) (names : List String) :
    s.spot? (x.down names) = p.below? names := by
  rw [spot?_down_eq_bind (names_ne_nil_of_spot? h), h]
  rfl

/-- What stands at a spot is a top data node of its module, or a data child of what stands above. -/
theorem spot?_cases {i : Nat} {name : String} {names : List String} {p : Place}
    (h : s.spot? ⟨i, name :: names⟩ = some p) :
    (names = [] ∧ ∃ m, s.modules[i]? = some m ∧ m.topNamed? i (.text name) = some p) ∨
      ∃ q, s.spot? ⟨i, names⟩ = some q ∧ q.child? (.text name) = some p := by
  by_cases hnil : names = []
  · subst hnil
    rw [spot?_top] at h
    exact .inl ⟨rfl, Option.bind_eq_some_iff.mp h⟩
  · have hcons := spot?_cons (s := s) (x := ⟨i, names⟩) hnil name
    exact .inr (Option.bind_eq_some_iff.mp (hcons.symm.trans h))

/-- What holds of the top data nodes and is handed on to data children holds of all that stand at spots. -/
theorem spot?_induction {P : Spot → Place → Prop}
    (htop : ∀ i name m p, s.modules[i]? = some m → m.topNamed? i (.text name) = some p → P ⟨i, [name]⟩ p)
    (hchild : ∀ x name p q, s.spot? x = some p → P x p → p.child? (.text name) = some q → P (x.down [name]) q)
    {x : Spot} {p : Place} (h : s.spot? x = some p) : P x p := by
  obtain ⟨i, names⟩ := x
  induction names generalizing p with
  | nil => cases h
  | cons name names ih =>
    rcases spot?_cases h with ⟨rfl, m, hm, hp⟩ | ⟨q, hq, hp⟩
    · exact htop i name m p hm hp
    · exact hchild ⟨i, names⟩ name q p hq (ih hq) hp

theorem isTarget_of_spot? {x : Spot} {p : Place} (h : s.spot? x = some p) : IsTarget s p := by
  refine spot?_induction (P := fun _ p => IsTarget s p) ?_ ?_ h
  · intro i name m p hm hp
    exact lasts_isTarget.topNamed? hm hp
  · intro x name p q _ hp hq
    exact lasts_isTarget.child hp (Place.mem_dataChildren_of_child? hq)

theorem dataParent?_of_spot? {i : Nat} {name : String} {names : List String} {p : Place}
    (h : s.spot? ⟨i, name :: names⟩ = some p) : p.dataParent? = s.spot? ⟨i, names⟩ := by
  rcases spot?_cases h with ⟨rfl, m, -, hp⟩ | ⟨q, hq, hp⟩
  · obtain ⟨part, hmem, -⟩ := Module.mem_of_topNamed? hp
    exact Place.dataParent?_of_mem_dataOfAll hmem
  · rw [hq]
    exact Place.dataParent?_of_mem_dataChildren (isTarget_of_spot? hq).visible (Place.mem_dataChildren_of_child? hp)

/-! ### The spots of a path -/

/-- Where the module stands that a prefix means. -/
def position? (s : Schema) (tag : String) : Option Nat := (s.moduleByPrefix? (.text tag)).map (·.2)

/-- The spot that a step leads to. -/
def next? (s : Schema) (step : String) : Option Spot → Option Spot
  | some x =>
    if step = ".." then if x.names.tail = [] then none else some { x with names := x.names.tail }
    else some (x.down [(splitName step).2])
  | none =>
    if step = ".." ∨ (splitName step).1 = "" then none
    else (s.position? (splitName step).1).map fun i => ⟨i, [(splitName step).2]⟩

/-- The spots that the steps of a path lead to, if there are any. -/
def passed? (s : Schema) : List String → Option Spot → Option (List Spot)
  | [], current => current.map fun _ => []
  | step :: steps, current =>
    let step := Text.trim step
    if step = "" || step = "." then s.passed? steps current
    else (s.next? step current).bind fun x => (s.passed? steps (some x)).map (x :: ·)

/-- The spots that a path from the top of a module leads to one after the other. -/
def waypoints? (s : Schema) (path : String) : Option (List Spot) :=
  let cleaned := Text.trim (dropPredicates path)
  if cleaned.toList.head? = some '/' then s.passed? (Text.pieces '/' cleaned) none else none

theorem step?_eq {step : String} {current : Option Spot} (h : ∀ x, current = some x → (s.spot? x).isSome = true) :
    s.step? .null step (current.bind s.spot?) = (s.next? step current).bind s.spot? := by
  cases current with
  | none =>
    rw [step?, next?]
    by_cases hup : step = ".."
    · simp [hup]
    · by_cases htag : (splitName step).1 = ""
      · simp [hup, htag, Datum.holds]
      · simp [hup, htag, Datum.holds, position?]
        cases hm : s.moduleByPrefix? (.text (splitName step).1) with
        | none => rfl
        | some mi =>
          have hget := mem_of_moduleByPrefix? (m := mi.1) (i := mi.2) hm
          simp [spot?_top, hget]
  | some x =>
    obtain ⟨p, hp⟩ := Option.isSome_iff_exists.mp (h x rfl)
    rw [Option.bind_some, hp, step?, next?]
    by_cases hup : step = ".."
    · obtain ⟨i, names⟩ := x
      cases names with
      | nil => cases hp
      | cons name names =>
        have hparent := dataParent?_of_spot? hp
        by_cases hnil : names = []
        · subst hnil
          simpa [hup, spot?, named?] using hparent
        · simpa [hup, hnil] using hparent
    · rw [if_neg hup, if_neg hup, Option.bind_some, spot?_cons (names_ne_nil_of_spot? hp), hp]
      rfl

theorem follow_eq_some_iff {steps : List String} {current : Option Spot} {p : Place}
    (h : ∀ x, current = some x → (s.spot? x).isSome = true) :
    s.follow .null steps (current.bind s.spot?) = some p ↔ ∃ xs, s.passed? steps current = some xs ∧
      (∀ x ∈ xs, (s.spot? x).isSome = true) ∧ (xs.getLast?.or current).bind s.spot? = some p := by
  induction steps generalizing current with
  | nil =>
    rw [follow, passed?]
    cases current with
    | none => simp
    | some x => simp
  | cons step steps ih =>
    rw [follow, passed?]
    by_cases hskip : (Text.trim step = "" || Text.trim step = ".") = true
    · rw [if_pos hskip, if_pos hskip]
      exact ih h
    · rw [if_neg hskip, if_neg hskip, step?_eq h]
      cases hnext : s.next? (Text.trim step) current with
      | none => simp
      | some x =>
        rw [Option.bind_some, Option.bind_some]
        cases hx : s.spot? x with
        | none =>
          simp only [reduceCtorEq, false_iff, Option.map_eq_some_iff]
          rintro ⟨_, ⟨xs, -, rfl⟩, hall, -⟩
          have hsome := hall x List.mem_cons_self
          rw [hx] at hsome
          cases hsome
        | some q =>
          have hsome : ∀ y, some x = some y → (s.spot? y).isSome = true := by simp [hx]
          have hih := ih hsome
          rw [Option.bind_some, hx] at hih
          have hlast : ∀ xs : List Spot, (x :: xs).getLast?.or current = xs.getLast?.or (some x) := by
            intro xs
            rw [List.getLast?_cons]
            cases xs.getLast? <;> rfl
          rw [hih]
          constructor
          · rintro ⟨xs, hxs, hall, hp⟩
            refine ⟨x :: xs, by rw [hxs]; rfl, ?_, by rwa [hlast]⟩
            intro y hy
            rcases List.mem_cons.mp hy with rfl | hy
            · rw [hx]
              rfl
            · exact hall y hy
          · rintro ⟨_, hmap, hall, hp⟩
            obtain ⟨xs, hxs, rfl⟩ := Option.map_eq_some_iff.mp hmap
            exact ⟨xs, hxs, fun y hy => hall y (List.mem_cons_of_mem _ hy), by rwa [hlast] at hp⟩

/-- A path leads to a node if there is a node at each spot that it passes, and it is the one at the last of them. -/
theorem node?_eq_some_iff {path : String} {p : Place} :
    s.node? path none = some p ↔ ∃ xs, s.waypoints? path = some xs ∧
      (∀ x ∈ xs, (s.spot? x).isSome = true) ∧ xs.getLast?.bind s.spot? = some p := by
  rw [node?, waypoints?]
  split
  · have hnone : ∀ x, (none : Option Spot) = some x → (s.spot? x).isSome = true := nofun
    simpa using follow_eq_some_iff hnone
  · simp

end Schema

end RestconfApi
