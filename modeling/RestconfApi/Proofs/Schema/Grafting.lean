import Mathlib.Data.List.Induction
import RestconfApi.Proofs.Schema.Growth

/-!
# Schema: children added below a node

What stands at an address when children have been added below some node: what has stood there, with the new
children if it is that node, or something in the trees that have been added.
-/

namespace RestconfApi

namespace Schema

variable {s : Schema}

/-- The node at an address. -/
def nodeAt? (s : Schema) (a : Address) : Option Node := (s.place? a).map (·.node)

theorem nodeAt?_cons (s : Schema) (i : Nat) (part : Part) (j : Nat) (js : List Nat) :
    s.nodeAt? ⟨i, part, j :: js⟩ = s.modules[i]?.bind fun m => (m.part part)[j]?.bind (Node.at? js) := by
  simp only [nodeAt?, place?, Option.bind_eq_bind, Option.map_bind]
  congr 1
  funext m
  simp only [Function.comp_apply, Option.map_bind]
  congr 1
  funext n
  exact Node.map_node_descend js _

theorem nodeAt?_nil (s : Schema) {a : Address} (ha : a.path = []) : s.nodeAt? a = none := by
  obtain ⟨i, part, path⟩ := a
  obtain rfl : path = [] := ha
  simp [nodeAt?, place?]

theorem path_ne_nil_of_nodeAt? {a : Address} {n : Node} (h : s.nodeAt? a = some n) : a.path ≠ [] := by
  intro ha
  rw [nodeAt?_nil s ha] at h
  cases h

theorem nodeAt?_append {a : Address} {n : Node} (h : s.nodeAt? a = some n) (js : List Nat) :
    s.nodeAt? { a with path := a.path ++ js } = n.at? js := by
  obtain ⟨i, part, path⟩ := a
  cases path with
  | nil => exact absurd rfl (path_ne_nil_of_nodeAt? h)
  | cons j is =>
    rw [nodeAt?_cons] at h
    obtain ⟨m, hm, h⟩ := Option.bind_eq_some_iff.mp h
    obtain ⟨top, htop, h⟩ := Option.bind_eq_some_iff.mp h
    show s.nodeAt? ⟨i, part, j :: (is ++ js)⟩ = _
    rw [nodeAt?_cons, hm, Option.bind_some, htop, Option.bind_some, Node.at?_append, h, Option.bind_some]

theorem nodeAt?_child {a : Address} {n : Node} (h : s.nodeAt? a = some n) (i : Nat) :
    s.nodeAt? (a.child i) = n.children[i]? := by
  refine (nodeAt?_append h [i]).trans ?_
  show n.children[i]?.bind (Node.at? []) = _
  cases n.children[i]? <;> rfl

/-- What holds of the top statements and is handed on to children holds of all nodes. -/
theorem nodeAt?_induction {P : Address → Node → Prop}
    (htop : ∀ i part j n, s.nodeAt? ((Address.top i part).child j) = some n → P ((Address.top i part).child j) n)
    (hchild : ∀ a n i c, s.nodeAt? a = some n → P a n → n.children[i]? = some c → P (a.child i) c) {a : Address}
    {n : Node} (h : s.nodeAt? a = some n) : P a n := by
  obtain ⟨k, part, path⟩ := a
  induction path using List.reverseRecOn generalizing n with
  | nil => exact absurd rfl (path_ne_nil_of_nodeAt? h)
  | append_singleton js i ih =>
    by_cases hjs : js = []
    · subst hjs
      exact htop k part i n h
    · have hparent : ∃ m, s.nodeAt? ⟨k, part, js⟩ = some m := by
        obtain ⟨j, is, rfl⟩ := List.exists_cons_of_ne_nil hjs
        rw [List.cons_append, nodeAt?_cons] at h
        obtain ⟨m, hm, h⟩ := Option.bind_eq_some_iff.mp h
        obtain ⟨top, htop, h⟩ := Option.bind_eq_some_iff.mp h
        rw [Node.at?_append] at h
        obtain ⟨c, hc, -⟩ := Option.bind_eq_some_iff.mp h
        exact ⟨c, by rw [nodeAt?_cons, hm, Option.bind_some, htop, Option.bind_some, hc]⟩
      obtain ⟨m, hm⟩ := hparent
      have hc := nodeAt?_child hm i
      rw [show s.nodeAt? (Address.child ⟨k, part, js⟩ i) = some n from h] at hc
      exact hchild ⟨k, part, js⟩ m i n hm (ih hm) hc.symm

/-! ### Added children -/

variable {a : Address} {m : Node} (added : List Node)

theorem nodeAt?_appendAt_cons (s : Schema) (i : Nat) (part : Part) (j : Nat) (is js : List Nat) :
    (s.appendAt ⟨i, part, j :: is⟩ added).nodeAt? ⟨i, part, j :: js⟩ =
      s.modules[i]?.bind fun m => (m.part part)[j]?.bind fun n => (n.appendAt added is).at? js := by
  have hpart : ∀ (m : Module) (f : List Node → List Node), (m.mapPart f part).part part = f (m.part part) := by
    intro m f
    cases part <;> rfl
  rw [nodeAt?_cons, Schema.appendAt]
  simp only [List.getElem?_modify, if_true, Option.map_eq_map, Option.bind_map]
  congr 1
  funext m
  rw [Function.comp_apply, hpart, List.getElem?_modify]
  cases (m.part part)[j]? with
  | none => rfl
  | some n => exact congrArg (Node.at? js) (if_pos rfl)

theorem nodeAt?_appendAt_of_ne (s : Schema) {i k : Nat} {part part' : Part} {j l : Nat} (is js : List Nat)
    (hne : ¬(i = k ∧ part = part' ∧ j = l)) :
    (s.appendAt ⟨i, part, j :: is⟩ added).nodeAt? ⟨k, part', l :: js⟩ = s.nodeAt? ⟨k, part', l :: js⟩ := by
  rw [nodeAt?_cons, nodeAt?_cons, Schema.appendAt]
  simp only [List.getElem?_modify, Option.map_eq_map, Option.bind_map]
  congr 1
  funext m
  have hpart : ((m.mapPart (fun ns => ns.modify j (Node.appendAt added is)) part).part part')[l]? =
      (m.part part')[l]?.map fun n => if part = part' ∧ j = l then n.appendAt added is else n := by
    cases part <;> cases part' <;> simp [Module.mapPart, Module.part, List.getElem?_modify]
  by_cases hik : i = k
  · have hne' : ¬(part = part' ∧ j = l) := fun h => hne ⟨hik, h⟩
    simp [hik, hpart, hne']
  · simp [hik]

/-- What has stood at an address stays as it is, unless children are added to it or below it. -/
theorem nodeAt?_appendAt_cases (ha : s.nodeAt? a = some m) {b : Address} {n : Node} (hb : s.nodeAt? b = some n) :
    (s.appendAt a added).nodeAt? b = some n ∧ b ≠ a ∨ ∃ ks, a = { b with path := b.path ++ ks } ∧
      n.at? ks = some m ∧ (s.appendAt a added).nodeAt? b = some (n.appendAt added ks) := by
  obtain ⟨i, part, path⟩ := a
  obtain ⟨k, part', path'⟩ := b
  obtain ⟨j, is, rfl⟩ := List.exists_cons_of_ne_nil (path_ne_nil_of_nodeAt? ha)
  obtain ⟨l, js, rfl⟩ := List.exists_cons_of_ne_nil (path_ne_nil_of_nodeAt? hb)
  by_cases hsame : i = k ∧ part = part' ∧ j = l
  · obtain ⟨rfl, rfl, rfl⟩ := hsame
    rw [nodeAt?_cons] at ha hb
    obtain ⟨module, hmodule, hb⟩ := Option.bind_eq_some_iff.mp hb
    obtain ⟨top, htop, hb⟩ := Option.bind_eq_some_iff.mp hb
    rw [hmodule, Option.bind_some, htop, Option.bind_some] at ha
    rw [nodeAt?_appendAt_cons, hmodule, Option.bind_some, htop, Option.bind_some]
    rcases Node.at?_appendAt added is js hb with ⟨hn, hne⟩ | ⟨ks, rfl, hn⟩
    · exact .inl ⟨hn, by simpa using hne⟩
    · rw [Node.at?_append, hb, Option.bind_some] at ha
      exact .inr ⟨ks, rfl, ha, hn⟩
  · refine .inl ⟨?_, fun heq => ?_⟩
    · rw [nodeAt?_appendAt_of_ne added s is js hsame, hb]
    · obtain ⟨rfl, rfl, hpath⟩ := Address.mk.inj heq
      exact hsame ⟨rfl, rfl, (List.cons.inj hpath).1.symm⟩

theorem append_ne_self (b : Address) (k : Nat) (ks : List Nat) : b ≠ { b with path := b.path ++ k :: ks } := by
  intro heq
  have hpath := congrArg (·.path.length) heq
  simp at hpath

/-- What has stood at an address stands there still. -/
theorem nodeAt?_appendAt (ha : s.nodeAt? a = some m) {b : Address} {n : Node} (hb : s.nodeAt? b = some n) :
    ∃ n', (s.appendAt a added).nodeAt? b = some n' ∧ n'.toStatement = n.toStatement ∧
      Node.heads n'.children = Node.heads n.children ++ if b = a then Node.heads added else [] := by
  rcases nodeAt?_appendAt_cases added ha hb with ⟨hn, hne⟩ | ⟨ks, rfl, -, hn⟩
  · exact ⟨n, hn, rfl, by rw [if_neg hne, List.append_nil]⟩
  · refine ⟨_, hn, Node.toStatement_appendAt added ks n, ?_⟩
    cases ks with
    | nil => simpa [Node.appendAt] using Node.heads_append n.children added
    | cons k ks =>
      rw [if_neg (append_ne_self b k ks), List.append_nil]
      exact Node.heads_modify (Node.toStatement_appendAt added ks) k n.children

/-- The new children come after the others. -/
theorem nodeAt?_appendAt_added (ha : s.nodeAt? a = some m) (k : Nat) :
    (s.appendAt a added).nodeAt? (a.child (m.children.length + k)) = added[k]? := by
  obtain ⟨i, part, path⟩ := a
  obtain ⟨j, is, rfl⟩ := List.exists_cons_of_ne_nil (path_ne_nil_of_nodeAt? ha)
  rw [nodeAt?_cons] at ha
  obtain ⟨module, hmodule, ha⟩ := Option.bind_eq_some_iff.mp ha
  obtain ⟨top, htop, ha⟩ := Option.bind_eq_some_iff.mp ha
  show (s.appendAt ⟨i, part, j :: is⟩ added).nodeAt? ⟨i, part, j :: (is ++ [m.children.length + k])⟩ = _
  rw [nodeAt?_appendAt_cons, hmodule, Option.bind_some, htop, Option.bind_some,
    Node.at?_appendAt_added is ha]

/-- Whatever stands somewhere has done so before or is in what has been added. -/
theorem nodeAt?_of_appendAt {added : List Node} (ha : s.nodeAt? a = some m) {b : Address} {n : Node}
    (hb : (s.appendAt a added).nodeAt? b = some n) : (s.nodeAt? b).isSome = true ∨
      ∃ k js y, added[k]? = some y ∧ y.at? js = some n ∧
        b = { a with path := a.path ++ (m.children.length + k) :: js } := by
  refine nodeAt?_induction (P := fun b n => (s.nodeAt? b).isSome = true ∨ ∃ k js y, added[k]? = some y ∧
    y.at? js = some n ∧ b = { a with path := a.path ++ (m.children.length + k) :: js }) ?_ ?_ hb
  · intro i part j n hn
    refine .inl ?_
    obtain ⟨k, part', path⟩ := a
    obtain ⟨l, is, rfl⟩ := List.exists_cons_of_ne_nil (path_ne_nil_of_nodeAt? ha)
    replace hn : (s.appendAt ⟨k, part', l :: is⟩ added).nodeAt? ⟨i, part, [j]⟩ = some n := hn
    by_cases hsame : k = i ∧ part' = part ∧ l = j
    · obtain ⟨rfl, rfl, rfl⟩ := hsame
      rw [nodeAt?_appendAt_cons] at hn
      obtain ⟨module, hmodule, hn⟩ := Option.bind_eq_some_iff.mp hn
      obtain ⟨top, htop, -⟩ := Option.bind_eq_some_iff.mp hn
      show (s.nodeAt? ⟨k, part', [l]⟩).isSome = true
      rw [nodeAt?_cons, hmodule, Option.bind_some, htop]
      rfl
    · rw [nodeAt?_appendAt_of_ne added s is [] hsame] at hn
      show (s.nodeAt? ⟨i, part, [j]⟩).isSome = true
      rw [hn]
      rfl
  · rintro b n' i c hn' (hold | ⟨k, js, y, hk, hy, rfl⟩) hc
    · obtain ⟨n, hn⟩ := Option.isSome_iff_exists.mp hold
      obtain ⟨n'', hn'', -, hheads⟩ := nodeAt?_appendAt added ha hn
      obtain rfl := Option.some.inj (hn''.symm.trans hn')
      have hlength := congrArg List.length hheads
      rw [List.length_append, Node.heads, Node.heads, List.length_map, List.length_map] at hlength
      by_cases hi : i < n.children.length
      · rw [nodeAt?_child hn, List.getElem?_eq_getElem hi]
        exact .inl rfl
      · have hlt := (List.getElem?_eq_some_iff.mp hc).1
        by_cases hab : b = a
        · obtain rfl := hab
          obtain rfl := Option.some.inj (hn.symm.trans ha)
          refine .inr ⟨i - n.children.length, [], c, ?_, rfl, ?_⟩
          · rw [← nodeAt?_appendAt_added added ha, nodeAt?_child hn', ← hc]
            congr 1
            omega
          · rw [Address.child]
            congr 3
            omega
        · rw [if_neg hab, List.length_nil, Nat.add_zero] at hlength
          omega
    · refine .inr ⟨k, js ++ [i], y, hk, ?_, ?_⟩
      · rw [Node.at?_append, hy, Option.bind_some]
        show n'.children[i]?.bind (Node.at? []) = _
        rw [hc]
        rfl
      · simp [Address.child]

/-- Modules grow when children are added below what a path leads to. -/
theorem modules_appendAt {p : Place} (hp : IsTarget s p) (added : List Node) :
    List.Forall₂ (Module.Grows True) s.modules (s.appendAt p.address added).modules := by
  obtain ⟨m, j, n, is, hm, hn, hpath, hdescend⟩ := hp.has.cases
  have hat : n.at? is = some p.node := by
    have hnode := Node.map_node_descend is ⟨⟨p.address.module, p.address.part, [j]⟩, n, []⟩
    rw [hdescend] at hnode
    exact hnode.symm
  unfold Schema.appendAt
  rw [hpath]
  refine forall₂_modify (fun m => ⟨rfl, rfl, Node.growAll_refl _, Node.growAll_refl _⟩) fun m' hm' => ?_
  obtain rfl := Option.some.inj (hm.symm.trans hm')
  have hlist : List.Forall₂ (Node.Grows True) (m.part p.address.part)
      ((m.part p.address.part).modify j (Node.appendAt added is)) := by
    refine forall₂_modify .refl fun n' hn' => ?_
    obtain rfl := Option.some.inj (hn.symm.trans hn')
    exact Node.grows_appendAt hat hp.visible
  cases hpart : p.address.part with
  | data =>
    rw [hpart] at hlist
    exact ⟨rfl, rfl, hlist, Node.growAll_refl _⟩
  | rpcs =>
    rw [hpart] at hlist
    exact ⟨rfl, rfl, Node.growAll_refl _, hlist⟩
  | groupings => exact ⟨rfl, rfl, Node.growAll_refl _, Node.growAll_refl _⟩

/-- Paths lead to where they have led when children are added below what a path leads to. -/
theorem growsTo_appendAt {p : Place} (hp : IsTarget s p) (added : List Node) :
    s.GrowsTo True id (s.appendAt p.address added) :=
  growsTo_of_forall₂ (modules_appendAt hp added)

end Schema

end RestconfApi
