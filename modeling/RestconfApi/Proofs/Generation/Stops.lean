import RestconfApi.Proofs.Generation.Walk

/-!
# Generation: the stops of a walk

Which containers and lists a walk comes to is told by the nodes around them: containers, lists, choices and
cases alone, of selected modules, and no more levels than the limit has.
-/

namespace RestconfApi

open Definitions Generation

namespace Generation

/-! ### Stops of a walk -/

/-- A walk passes a container, a list, a choice or a case; whoever owns a case does not matter. -/
def Passed (selected : List Name) (n : Node) : Prop :=
  (n.kind.isStructural = true ∨ n.kind.isTransparent = true) ∧
    (n.kind ≠ .case → selected.contains n.owner = true)

/-- What is left of a limit below some nodes, where cases do not count. -/
def left (limit : Option Nat) (above : List Node) : Option Nat :=
  limit.map (· - (above.filter (·.kind ≠ .case)).length)

/-- Cases are what choices have below them in data. -/
def HasCases (s : Schema) : Prop :=
  ∀ {p x : Place} {i : Nat}, s.Has p → p.address.part = .data → p.childAt? i = some x →
    (x.node.kind = .case ↔ p.node.kind = .choice)

variable {s : Schema} {selected : List Name} {limit lim : Option Nat} {i : Nat} {seg : Segment} {a : Address}
  {above : List Node} {x : Stop}

theorem deeper_left {n : Node} (h : n.kind ≠ .case) : deeper (left limit above) = left limit (n :: above) := by
  cases limit with
  | none => rfl
  | some l => simp [deeper, left, h, Nat.sub_sub]

theorem left_case {n : Node} (h : n.kind = .case) : left limit (n :: above) = left limit above := by
  simp [left, h]

/-- A walk comes to the node at a place exactly if its level is within the limit. -/
theorem left_ne_zero_iff {p : Place} :
    left limit p.above ≠ some 0 ↔ ∀ l, limit = some l → p.level ≤ l := by
  cases limit with
  | none => simp [left]
  | some l =>
    simp only [left, Option.map_some, ne_eq, Option.some.injEq, Place.level, forall_eq']
    omega

/-- A container or a list in the data of the `i`-th module that a walk comes to, with its segment. -/
structure IsStop (s : Schema) (selected : List Name) (limit : Option Nat) (i : Nat) (x : Stop) : Prop where
  has : s.Has x.place
  part : x.place.address.part = .data
  module : x.place.address.module = i
  structural : x.place.node.kind.isStructural = true
  way : ∀ n ∈ x.place.node :: x.place.above, Passed selected n
  level : ∀ l, limit = some l → x.place.level ≤ l
  segment : x.segment = s.segment x.place

/-- What a walk has on its way to the nodes at or below an address. -/
structure Nears (s : Schema) (selected : List Name) (limit : Option Nat) (i : Nat) (seg : Segment)
    (lim : Option Nat) (a : Address) (above : List Node) : Prop where
  part : a.part = .data
  module : a.module = i
  way : ∀ n ∈ above, Passed selected n
  segment : seg = Schema.segmentOf (s.moduleName i) above
  limit : lim = left limit above

theorem Nears.child (h : Nears s selected limit i seg lim a above) (j : Nat) :
    Nears s selected limit i seg lim (a.child j) above :=
  ⟨h.part, h.module, h.way, h.segment, h.limit⟩

theorem Nears.push (h : Nears s selected limit i seg lim a above) {n : Node}
    (hk : n.kind.isStructural = true) (ho : selected.contains n.owner = true) :
    Nears s selected limit i
      (seg.push n.name n.owner (!n.config) (if n.kind = .list then n.keys.map Datum.text else []) 0)
      (deeper lim) a (n :: above) where
  part := h.part
  module := h.module
  way := List.forall_mem_cons.mpr ⟨⟨.inl hk, fun _ => ho⟩, h.way⟩
  segment := by rw [Schema.segmentOf, if_pos hk, h.segment]
  limit := by
    rw [h.limit, deeper_left]
    rintro hcase
    simp [hcase, Kind.isStructural] at hk

theorem Nears.choice (h : Nears s selected limit i seg lim a above) {n : Node} (hk : n.kind = .choice)
    (ho : selected.contains n.owner = true) : Nears s selected limit i seg (deeper lim) a (n :: above) where
  part := h.part
  module := h.module
  way := List.forall_mem_cons.mpr ⟨⟨.inr (by simp [hk, Kind.isTransparent]), fun _ => ho⟩, h.way⟩
  segment := by rw [Schema.segmentOf, if_neg (by simp [hk, Kind.isStructural]), h.segment]
  limit := by rw [h.limit, deeper_left (n := n) (by simp [hk])]

theorem Nears.case (h : Nears s selected limit i seg lim a above) {n : Node} (hk : n.kind = .case) :
    Nears s selected limit i seg lim a (n :: above) where
  part := h.part
  module := h.module
  way := List.forall_mem_cons.mpr ⟨⟨.inr (by simp [hk, Kind.isTransparent]), fun hne => absurd hk hne⟩, h.way⟩
  segment := by rw [Schema.segmentOf, if_neg (by simp [hk, Kind.isStructural]), h.segment]
  limit := by rw [h.limit, left_case hk]

mutual

theorem isStop_of_mem_stops (hs : HasCases s) (seg : Segment) (lim : Option Nat) (a : Address)
    (above : List Node) : ∀ n : Node, s.Has ⟨a, n, above⟩ → n.kind ≠ .case →
      Nears s selected limit i seg lim a above → x ∈ stops selected seg lim a above n →
      IsStop s selected limit i x
  | ⟨st, cs⟩, hp, hcase, h, hx => by
    rw [stops] at hx
    split at hx
    · simp at hx
    rename_i hzero
    split at hx
    · simp at hx
    rename_i hother
    have ho : selected.contains st.owner = true := by simpa using hother
    split at hx
    · rename_i hk
      dsimp only at hx
      have hpush := h.push (n := ⟨st, cs⟩) hk ho
      rcases List.mem_cons.mp hx with rfl | hx
      · refine ⟨hp, h.part, h.module, hk, hpush.way, ?_, ?_⟩
        · rw [← left_ne_zero_iff, ← h.limit]
          exact hzero
        · rw [hpush.segment, Schema.segment, h.module]
      · refine isStop_of_mem_stopsAll hs _ _ a _ 0 cs (fun j n hj => ?_) hpush hx
        have hj := Place.childAt?_of_getElem? a above st hj
        rw [Nat.zero_add]
        refine ⟨hp.childAt? hj, fun hn => ?_⟩
        have hchoice : st.kind = .choice := (hs hp h.part hj).mp hn
        simp [hchoice, Kind.isStructural] at hk
    · split at hx
      · rename_i hchoice
        refine isStop_of_mem_stopsInCases hs _ _ a _ 0 cs (fun j n hj => ?_)
          (h.choice (n := ⟨st, cs⟩) hchoice ho) hx
        have hj := Place.childAt?_of_getElem? a above st hj
        rw [Nat.zero_add]
        exact ⟨hp.childAt? hj, (hs hp h.part hj).mpr hchoice⟩
      · simp at hx

theorem isStop_of_mem_stopsAll (hs : HasCases s) (seg : Segment) (lim : Option Nat) (a : Address)
    (above : List Node) (k : Nat) : ∀ ns : List Node,
      (∀ j n, ns[j]? = some n → s.Has ⟨a.child (k + j), n, above⟩ ∧ n.kind ≠ .case) →
      Nears s selected limit i seg lim a above → x ∈ stopsAll selected seg lim a above k ns →
      IsStop s selected limit i x
  | [], _, _, hx => by simp [stopsAll] at hx
  | n :: ns, hns, h, hx => by
    rw [stopsAll] at hx
    rcases List.mem_append.mp hx with hx | hx
    · obtain ⟨hp, hcase⟩ := hns 0 n rfl
      exact isStop_of_mem_stops hs seg lim _ above n hp hcase (h.child k) hx
    · refine isStop_of_mem_stopsAll hs seg lim a above (k + 1) ns (fun j m hm => ?_) h hx
      rw [Nat.add_right_comm, Nat.add_assoc]
      exact hns (j + 1) m hm

theorem isStop_of_mem_stopsInCases (hs : HasCases s) (seg : Segment) (lim : Option Nat) (a : Address)
    (above : List Node) (k : Nat) : ∀ ns : List Node,
      (∀ j n, ns[j]? = some n → s.Has ⟨a.child (k + j), n, above⟩ ∧ n.kind = .case) →
      Nears s selected limit i seg lim a above → x ∈ stopsInCases selected seg lim a above k ns →
      IsStop s selected limit i x
  | [], _, _, hx => by simp [stopsInCases] at hx
  | ⟨st, cs⟩ :: ns, hns, h, hx => by
    rw [stopsInCases] at hx
    rcases List.mem_append.mp hx with hx | hx
    · obtain ⟨hp, hcase⟩ := hns 0 _ rfl
      refine isStop_of_mem_stopsAll hs seg lim _ _ 0 cs (fun j n hj => ?_)
        ((h.child k).case (n := ⟨st, cs⟩) hcase) hx
      have hj := Place.childAt?_of_getElem? (a.child k) above st hj
      rw [Nat.zero_add]
      refine ⟨hp.childAt? hj, fun hn => ?_⟩
      have hchoice : st.kind = .choice := (hs hp h.part hj).mp hn
      have hcase : st.kind = .case := hcase
      rw [hchoice] at hcase
      cases hcase
    · refine isStop_of_mem_stopsInCases hs seg lim a above (k + 1) ns (fun j m hm => ?_) h hx
      rw [Nat.add_right_comm, Nat.add_assoc]
      exact hns (j + 1) m hm

end

theorem subset_stopsAll (selected : List Name) (seg : Segment) (lim : Option Nat) (a : Address) (above : List Node)
    {j k : Nat} {n : Node} {ns : List Node} (h : ns[j]? = some n) :
    stops selected seg lim (a.child (k + j)) above n ⊆ stopsAll selected seg lim a above k ns := by
  induction ns generalizing j k with
  | nil => simp at h
  | cons m ns ih =>
    rw [stopsAll]
    cases j with
    | zero =>
      obtain rfl : m = n := by simpa using h
      exact List.subset_append_left _ _
    | succ j =>
      rw [← Nat.add_assoc, Nat.add_right_comm]
      exact List.Subset.trans (ih (by simpa using h)) (List.subset_append_right _ _)

theorem subset_stopsInCases (selected : List Name) (seg : Segment) (lim : Option Nat) (a : Address)
    (above : List Node) {j k : Nat} {n : Node} {ns : List Node} (h : ns[j]? = some n) :
    stopsAll selected seg lim (a.child (k + j)) (n :: above) 0 n.children ⊆
      stopsInCases selected seg lim a above k ns := by
  induction ns generalizing j k with
  | nil => simp at h
  | cons m ns ih =>
    obtain ⟨st, cs⟩ := m
    rw [stopsInCases]
    cases j with
    | zero =>
      obtain rfl : (⟨st, cs⟩ : Node) = n := by simpa using h
      exact List.subset_append_left _ _
    | succ j =>
      rw [← Nat.add_assoc, Nat.add_right_comm]
      exact List.Subset.trans (ih (by simpa using h)) (List.subset_append_right _ _)

/-- A walk to a container or a list goes on below it. -/
theorem stopsAll_subset_stops {root : Name} {n : Node} (hzero : left limit above ≠ some 0)
    (hk : n.kind.isStructural = true) (hn : Passed selected n) :
    stopsAll selected (Schema.segmentOf root (n :: above)) (left limit (n :: above)) a (n :: above) 0 n.children ⊆
      stops selected (Schema.segmentOf root above) (left limit above) a above n := by
  obtain ⟨st, cs⟩ := n
  have hcase : st.kind ≠ .case := fun h => by
    have hk : st.kind.isStructural = true := hk
    simp [h, Kind.isStructural] at hk
  have ho : selected.contains st.owner = true := hn.2 hcase
  rw [stops, if_neg hzero, if_neg (by simp [ho]), if_pos hk, deeper_left (n := ⟨st, cs⟩) hcase, Schema.segmentOf,
    if_pos hk]
  exact List.subset_cons_self _ _

/-- A walk to a choice goes on below its cases. -/
theorem stopsInCases_subset_stops {root : Name} {n : Node} (hzero : left limit above ≠ some 0)
    (hk : n.kind = .choice) (hn : Passed selected n) :
    stopsInCases selected (Schema.segmentOf root (n :: above)) (left limit (n :: above)) a (n :: above) 0
        n.children ⊆
      stops selected (Schema.segmentOf root above) (left limit above) a above n := by
  obtain ⟨st, cs⟩ := n
  have hst : st.kind = .choice := hk
  have hcase : st.kind ≠ .case := by simp [hst]
  have ho : selected.contains st.owner = true := hn.2 hcase
  rw [stops, if_neg hzero, if_neg (by simp [ho]), if_neg (by simp [hst, Kind.isStructural]), if_pos hst,
    deeper_left (n := ⟨st, cs⟩) hcase, Schema.segmentOf, if_neg (by simp [hst, Kind.isStructural])]
  exact List.Subset.refl _

theorem Place.level_le_of_childAt? {p x : Place} {j : Nat} (hx : p.childAt? j = some x) : p.level ≤ x.level := by
  simp only [Place.level, Place.above_of_childAt? hx, List.filter_cons]
  split <;> simp

/-- The stops that the walk would make below a node that it passes are among `found`. -/
def GoesOn (s : Schema) (selected : List Name) (limit : Option Nat) (i : Nat) (found : List Stop)
    (p : Place) : Prop :=
  p.address.part = .data → p.address.module = i → (∀ n ∈ p.node :: p.above, Passed selected n) →
    (∀ l, limit = some l → p.level ≤ l) →
    (p.node.kind ≠ .case → stops selected (Schema.segmentOf (s.moduleName i) p.above) (left limit p.above)
      p.address p.above p.node ⊆ found) ∧
    (p.node.kind = .case → stopsAll selected (Schema.segmentOf (s.moduleName i) (p.node :: p.above))
      (left limit (p.node :: p.above)) p.address (p.node :: p.above) 0 p.node.children ⊆ found)

theorem goesOn (hs : HasCases s) (htops : ∀ q ∈ s.tops i .data, q.node.kind ≠ .case) {m : Module}
    (hm : s.modules[i]? = some m) {p : Place} (hp : s.Has p) :
    GoesOn s selected limit i
      (stopsAll selected (Segment.root m.name 0) limit (Address.top i .data) [] 0 m.data) p := by
  refine Schema.Has.induction (P := GoesOn s selected limit i _) (fun j part p hmem => ?_)
    (fun p x j hp ih hx => ?_) hp
  · intro hpart hmodule _ _
    obtain rfl : part = .data := (Schema.part_of_mem_tops hmem).symm.trans hpart
    obtain ⟨k, haddr⟩ := Schema.address_of_mem_tops hmem
    obtain rfl : j = i := by rw [← hmodule, haddr]
    refine ⟨fun _ => ?_, fun hcase => absurd hcase (htops p hmem)⟩
    rw [Schema.tops, hm] at hmem
    obtain ⟨k, n, hn, rfl⟩ := Place.mem_ofChildren.mp hmem
    have hroot : Schema.segmentOf (s.moduleName j) [] = .root m.name 0 := by
      rw [Schema.segmentOf, Schema.moduleName, hm]
      rfl
    have hlimit : left limit [] = limit := by cases limit <;> rfl
    rw [hroot, hlimit]
    exact subset_stopsAll _ _ _ _ _ hn
  · intro hpart hmodule hway hlevel
    have habove := Place.above_of_childAt? hx
    obtain ⟨n, hn, rfl⟩ := Option.map_eq_some_iff.mp hx
    obtain ⟨a, m, above⟩ := p
    have hway' : ∀ n ∈ m :: above, Passed selected n := fun n hn => hway n (List.mem_cons_of_mem _ hn)
    have hlevel' : ∀ l, limit = some l → Place.level ⟨a, m, above⟩ ≤ l := fun l hl =>
      Nat.le_trans (Place.level_le_of_childAt? hx) (hlevel l hl)
    obtain ⟨hstops, hcases⟩ := ih hpart hmodule hway' hlevel'
    have hzero : left limit above ≠ some 0 := (left_ne_zero_iff (p := ⟨a, m, above⟩)).mpr hlevel'
    have hpassed := hway' _ List.mem_cons_self
    have hkind : n.kind = .case ↔ m.kind = .choice := hs hp hpart hx
    have hall := subset_stopsAll selected (Schema.segmentOf (s.moduleName i) (m :: above))
      (left limit (m :: above)) a (m :: above) (k := 0) hn
    rw [Nat.zero_add] at hall
    rcases hpassed.1 with hk | hk
    · have hm : m.kind ≠ .case ∧ m.kind ≠ .choice := by
        constructor <;> intro h <;> simp [h, Kind.isStructural] at hk
      refine ⟨fun _ => ?_, fun h => absurd (hkind.mp h) hm.2⟩
      exact List.Subset.trans hall (List.Subset.trans (stopsAll_subset_stops hzero hk hpassed) (hstops hm.1))
    · have hor : m.kind = .choice ∨ m.kind = .case := by simpa [Kind.isTransparent] using hk
      rcases hor with hm | hm
      · have hn' : n.kind = .case := hkind.mpr hm
        refine ⟨fun h => absurd hn' h, fun _ => ?_⟩
        have hsub := subset_stopsInCases selected (Schema.segmentOf (s.moduleName i) (m :: above))
          (left limit (m :: above)) a (m :: above) (k := 0) hn
        rw [Nat.zero_add] at hsub
        rw [left_case hn', Schema.segmentOf, if_neg (by simp [hn', Kind.isStructural])]
        exact List.Subset.trans hsub (List.Subset.trans (stopsInCases_subset_stops hzero hm hpassed)
          (hstops (by simp [hm])))
      · refine ⟨fun _ => List.Subset.trans hall (hcases hm), fun h => ?_⟩
        have := hkind.mp h
        rw [hm] at this
        cases this

/-- The stops in the data of a module are the containers and lists that a walk comes to there. -/
theorem mem_stopsAll_iff (hs : HasCases s) (htops : ∀ q ∈ s.tops i .data, q.node.kind ≠ .case) {m : Module}
    (hm : s.modules[i]? = some m) :
    x ∈ stopsAll selected (Segment.root m.name 0) limit (Address.top i .data) [] 0 m.data ↔
      IsStop s selected limit i x := by
  constructor
  · intro hx
    refine isStop_of_mem_stopsAll hs _ _ _ _ 0 m.data (fun j n hj => ?_) ?_ hx
    · have hmem : (⟨(Address.top i .data).child (0 + j), n, []⟩ : Place) ∈ s.tops i .data := by
        rw [Schema.tops, hm]
        exact Place.mem_ofChildren.mpr ⟨j, n, hj, rfl⟩
      exact ⟨Schema.has_of_mem_tops hmem, htops _ hmem⟩
    · refine ⟨rfl, rfl, by simp, ?_, ?_⟩
      · rw [Schema.segmentOf, Schema.moduleName, hm]
        rfl
      · cases limit <;> rfl
  · intro h
    have hcase : x.place.node.kind ≠ .case := fun hcase => by
      have := h.structural
      simp [hcase, Kind.isStructural] at this
    refine (goesOn hs htops hm h.has h.part h.module h.way h.level).1 hcase ?_
    obtain ⟨⟨a, ⟨st, cs⟩, above⟩, seg⟩ := x
    have hk : st.kind.isStructural = true := h.structural
    have ho : selected.contains st.owner = true := (h.way _ List.mem_cons_self).2 hcase
    have hzero := (left_ne_zero_iff (p := ⟨a, ⟨st, cs⟩, above⟩)).mpr h.level
    dsimp only at hzero ⊢
    rw [stops, if_neg hzero, if_neg (by simp [ho]), if_pos hk]
    refine List.mem_cons.mpr (.inl ?_)
    obtain ⟨-, -, hmodule, -, -, -, hseg⟩ := h
    dsimp only at hmodule hseg
    rw [hseg, Schema.segment, hmodule, Schema.segmentOf, if_pos hk]

end Generation

end RestconfApi
