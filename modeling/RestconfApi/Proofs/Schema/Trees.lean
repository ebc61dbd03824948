import RestconfApi.Schema.Load

/-!
# Schema: what holds at every node of a tree

A property of what a node says together with what its children say holds everywhere in a tree when it holds
of all its nodes. Adding children to a node and passing the config flags down change little of this.
-/

namespace RestconfApi

/-- The statement without its config flag. -/
def Statement.erased (s : Statement) : Statement := { s with config := true }

namespace Node

variable {P P' : Statement → List Statement → Prop}

/-- What the children of a node say. -/
def heads (ns : List Node) : List Statement := ns.map (·.toStatement)

mutual

/-- `P` holds of every node of a tree and what its children say. -/
def Everywhere (P : Statement → List Statement → Prop) : Node → Prop
  | ⟨s, cs⟩ => P s (heads cs) ∧ EverywhereAll P cs

def EverywhereAll (P : Statement → List Statement → Prop) : List Node → Prop
  | [] => True
  | n :: ns => Everywhere P n ∧ EverywhereAll P ns

end

theorem everywhereAll_iff {ns : List Node} : EverywhereAll P ns ↔ ∀ n ∈ ns, n.Everywhere P := by
  induction ns with
  | nil => simp [EverywhereAll]
  | cons n ns ih => simp [EverywhereAll, ih]

theorem everywhere_iff {n : Node} :
    n.Everywhere P ↔ P n.toStatement (heads n.children) ∧ ∀ m ∈ n.children, m.Everywhere P := by
  obtain ⟨s, cs⟩ := n
  rw [Everywhere, everywhereAll_iff]

mutual

theorem everywhere_mono (hP : ∀ s cs, P s cs → P' s cs) : ∀ n : Node, n.Everywhere P → n.Everywhere P'
  | ⟨_, cs⟩, h => ⟨hP _ _ h.1, everywhereAll_mono hP cs h.2⟩

theorem everywhereAll_mono (hP : ∀ s cs, P s cs → P' s cs) :
    ∀ ns : List Node, EverywhereAll P ns → EverywhereAll P' ns
  | [], _ => trivial
  | n :: ns, h => ⟨everywhere_mono hP n h.1, everywhereAll_mono hP ns h.2⟩

end

theorem Everywhere.mono {n : Node} (h : n.Everywhere P) (hP : ∀ s cs, P s cs → P' s cs) :
    n.Everywhere P' :=
  everywhere_mono hP n h

/-- What holds of every node holds of the children of every node. -/
theorem Everywhere.heads {P : Statement → Prop} :
    ∀ {n : Node}, n.Everywhere (fun s _ => P s) → n.Everywhere fun s cs => P s ∧ ∀ c ∈ cs, P c
  | ⟨s, cs⟩, h => by
    obtain ⟨hs, hcs⟩ := everywhere_iff.mp h
    refine everywhere_iff.mpr ⟨⟨hs, fun c hc => ?_⟩, fun m hm => ?_⟩
    · obtain ⟨m, hm, rfl⟩ := List.mem_map.mp hc
      exact (everywhere_iff.mp (hcs m hm)).1
    · have hlt := List.sizeOf_lt_of_mem hm
      exact (hcs m hm).heads
termination_by n => sizeOf n
decreasing_by simp_wf; simp at hlt; omega

theorem heads_append (ns ms : List Node) : heads (ns ++ ms) = heads ns ++ heads ms := List.map_append

/-! ### Nodes below -/

/-- The node that the positions of the children lead to. -/
def at? : List Nat → Node → Option Node
  | [], n => some n
  | i :: is, n => n.children[i]?.bind (at? is)

theorem Everywhere.at? {n m : Node} (h : n.Everywhere P) {is : List Nat} (hm : n.at? is = some m) :
    m.Everywhere P := by
  induction is generalizing n with
  | nil =>
    obtain rfl := Option.some.inj hm
    exact h
  | cons i is ih =>
    obtain ⟨c, hc, hm⟩ := Option.bind_eq_some_iff.mp hm
    exact ih ((everywhere_iff.mp h).2 c (List.mem_of_getElem? hc)) hm

theorem map_node_descend (is : List Nat) (p : Place) :
    (Place.descend is p).map (·.node) = p.node.at? is := by
  induction is generalizing p with
  | nil => rfl
  | cons i is ih =>
    simp only [Place.descend, at?]
    cases p.node.children[i]? with
    | none => rfl
    | some n => exact ih _

/-! ### Changed statements -/

variable {f : Statement → Statement}

theorem mapStatementsAll_eq (ns : List Node) : mapStatementsAll f ns = ns.map (mapStatements f) := by
  induction ns with
  | nil => rfl
  | cons n ns ih => rw [mapStatementsAll, ih, List.map_cons]

theorem children_mapStatements (n : Node) :
    (n.mapStatements f).children = n.children.map (mapStatements f) := by
  obtain ⟨s, cs⟩ := n
  rw [mapStatements, mapStatementsAll_eq]

theorem toStatement_mapStatements (n : Node) : (n.mapStatements f).toStatement = f n.toStatement := by
  obtain ⟨s, cs⟩ := n
  rw [mapStatements]

theorem heads_mapStatements (ns : List Node) : heads (ns.map (mapStatements f)) = (heads ns).map f := by
  simp only [heads, List.map_map]
  exact List.map_congr_left fun n _ => toStatement_mapStatements n

mutual

theorem everywhere_mapStatements :
    ∀ n : Node, (n.mapStatements f).Everywhere P ↔ n.Everywhere fun s cs => P (f s) (cs.map f)
  | ⟨s, cs⟩ => by
    rw [mapStatements, Everywhere, Everywhere, mapStatementsAll_eq, heads_mapStatements,
      ← mapStatementsAll_eq, everywhereAll_mapStatementsAll cs]

theorem everywhereAll_mapStatementsAll :
    ∀ ns : List Node,
      EverywhereAll P (mapStatementsAll f ns) ↔ EverywhereAll (fun s cs => P (f s) (cs.map f)) ns
  | [] => Iff.rfl
  | n :: ns => by
    rw [mapStatementsAll, EverywhereAll, EverywhereAll, everywhere_mapStatements n,
      everywhereAll_mapStatementsAll ns]

end

theorem at?_mapStatements (is : List Nat) (n : Node) :
    (n.mapStatements f).at? is = (n.at? is).map (mapStatements f) := by
  induction is generalizing n with
  | nil => rfl
  | cons i is ih =>
    simp only [at?, children_mapStatements, List.getElem?_map]
    cases n.children[i]? with
    | none => rfl
    | some m => exact ih m

/-! ### Config flags -/

/-- The tree without its config flags. -/
abbrev erased (n : Node) : Node := n.mapStatements Statement.erased

mutual

theorem erased_withConfig (inherited : Bool) : ∀ n : Node, (n.withConfig inherited).erased = n.erased
  | ⟨s, cs⟩ => by
    rw [withConfig, erased, erased, mapStatements, mapStatements,
      erasedAll_withConfigAll _ cs]
    rfl

theorem erasedAll_withConfigAll (inherited : Bool) : ∀ ns : List Node,
    mapStatementsAll Statement.erased (withConfigAll inherited ns) = mapStatementsAll Statement.erased ns
  | [] => rfl
  | n :: ns => by
    rw [withConfigAll, mapStatementsAll, mapStatementsAll, erasedAll_withConfigAll inherited ns,
      show (n.withConfig inherited).mapStatements _ = n.mapStatements _ from erased_withConfig inherited n]

end

mutual

theorem erased_erased : ∀ n : Node, n.erased.erased = n.erased
  | ⟨s, cs⟩ => by
    rw [erased, erased, mapStatements, mapStatements, erasedAll_erasedAll cs]
    rfl

theorem erasedAll_erasedAll : ∀ ns : List Node,
    mapStatementsAll Statement.erased (mapStatementsAll Statement.erased ns) =
      mapStatementsAll Statement.erased ns
  | [] => rfl
  | n :: ns => by
    rw [mapStatementsAll, mapStatementsAll, erasedAll_erasedAll ns,
      show (n.mapStatements _).mapStatements _ = n.mapStatements _ from erased_erased n]

end

theorem withConfigAll_eq (inherited : Bool) (ns : List Node) :
    withConfigAll inherited ns = ns.map (withConfig inherited) := by
  induction ns with
  | nil => rfl
  | cons n ns ih => rw [withConfigAll, ih, List.map_cons]

/-- What holds everywhere and does not depend on config flags holds however they are changed. -/
theorem everywhere_of_erased (hP : ∀ s cs, P s.erased (cs.map Statement.erased) ↔ P s cs) {n m : Node}
    (h : n.erased = m.erased) : n.Everywhere P ↔ m.Everywhere P := by
  have hn := everywhere_mapStatements (P := P) (f := Statement.erased) n
  have hm := everywhere_mapStatements (P := P) (f := Statement.erased) m
  simp only [hP] at hn hm
  rw [← hn, ← hm, show n.mapStatements _ = m.mapStatements _ from h]

/-! ### Added children -/

theorem toStatement_appendAt (added : List Node) (is : List Nat) (n : Node) :
    (n.appendAt added is).toStatement = n.toStatement := by
  cases is <;> rfl

theorem heads_modify {g : Node → Node} (hg : ∀ n, (g n).toStatement = n.toStatement) (i : Nat)
    (ns : List Node) : heads (ns.modify i g) = heads ns := by
  refine List.ext_getElem? fun j => ?_
  simp only [heads, List.getElem?_map, List.getElem?_modify]
  split
  · cases ns[j]? <;> simp [hg]
  · simp

/-- What holds everywhere still does after children are added to a node, if that may have such children as
well. -/
theorem everywhere_appendAt {added : List Node} (hadded : ∀ m ∈ added, m.Everywhere P) {n : Node}
    {is : List Nat} (hP : ∀ m, n.at? is = some m → ∀ cs, P m.toStatement cs →
      P m.toStatement (cs ++ heads added)) (h : n.Everywhere P) : (n.appendAt added is).Everywhere P := by
  induction is generalizing n with
  | nil =>
    obtain ⟨hn, hcs⟩ := everywhere_iff.mp h
    refine everywhere_iff.mpr ⟨?_, fun m hm => ?_⟩
    · show P n.toStatement (heads (n.children ++ added))
      rw [heads_append]
      exact hP n rfl _ hn
    · rcases List.mem_append.mp hm with hm | hm
      · exact hcs m hm
      · exact hadded m hm
  | cons i is ih =>
    obtain ⟨hn, hcs⟩ := everywhere_iff.mp h
    refine everywhere_iff.mpr ⟨?_, fun m hm => ?_⟩
    · show P n.toStatement (heads (n.children.modify i _))
      rw [heads_modify (toStatement_appendAt added is)]
      exact hn
    · obtain ⟨j, hj⟩ := List.mem_iff_getElem?.mp hm
      simp only [appendAt, List.getElem?_modify] at hj
      obtain ⟨m', hm', hj⟩ := Option.map_eq_some_iff.mp hj
      have hev := hcs m' (List.mem_of_getElem? hm')
      split at hj
      · rename_i hij
        refine hj ▸ ih (fun m hm => hP m ?_) hev
        rw [at?, hij, hm']
        exact hm
      · exact hj ▸ hev

theorem at?_append (is js : List Nat) (n : Node) : n.at? (is ++ js) = (n.at? is).bind (at? js) := by
  induction is generalizing n with
  | nil => rfl
  | cons i is ih =>
    simp only [List.cons_append, at?]
    cases n.children[i]? with
    | none => rfl
    | some c => exact ih c

/-- What is below a node stays as it is when children are added, unless they are added to it or below it. -/
theorem at?_appendAt (added : List Node) (is js : List Nat) {n m : Node} (h : n.at? js = some m) :
    (n.appendAt added is).at? js = some m ∧ js ≠ is ∨
      ∃ ks, is = js ++ ks ∧ (n.appendAt added is).at? js = some (m.appendAt added ks) := by
  induction js generalizing n is with
  | nil =>
    obtain rfl := Option.some.inj h
    exact .inr ⟨is, rfl, rfl⟩
  | cons j js ih =>
    obtain ⟨c, hc, hm⟩ := Option.bind_eq_some_iff.mp h
    cases is with
    | nil =>
      have hlt := (List.getElem?_eq_some_iff.mp hc).1
      refine .inl ⟨?_, by simp⟩
      rw [at?, appendAt, List.getElem?_append_left hlt, hc]
      exact hm
    | cons i is =>
      by_cases hij : i = j
      · have hstep : (n.appendAt added (i :: is)).at? (j :: js) = (c.appendAt added is).at? js := by
          simp only [at?, appendAt, List.getElem?_modify, hc, hij, if_true]
          rfl
        rw [hstep, hij]
        rcases ih is hm with ⟨hsame, hne⟩ | ⟨ks, rfl, hgrown⟩
        · exact .inl ⟨hsame, by simpa using hne⟩
        · exact .inr ⟨ks, rfl, hgrown⟩
      · refine .inl ⟨?_, by simp [Ne.symm hij]⟩
        simp only [at?, appendAt, List.getElem?_modify, hc, hij, if_false]
        exact hm

/-- The children added to a node come after those it has. -/
theorem at?_appendAt_added {added : List Node} (is : List Nat) {n m : Node} (h : n.at? is = some m)
    (i : Nat) : (n.appendAt added is).at? (is ++ [m.children.length + i]) = added[i]? := by
  induction is generalizing n with
  | nil =>
    obtain rfl := Option.some.inj h
    show ((n.children ++ added)[n.children.length + i]?).bind (at? []) = _
    rw [List.getElem?_append_right (Nat.le_add_right _ _), Nat.add_sub_cancel_left]
    cases added[i]? <;> rfl
  | cons j is ih =>
    obtain ⟨c, hc, h⟩ := Option.bind_eq_some_iff.mp h
    simp only [List.cons_append, appendAt, at?, List.getElem?_modify]
    rw [hc]
    simpa using ih h

end Node

end RestconfApi
