import RestconfApi.Proofs.Schema.Lookup

/-!
# Schema: climbing and going down

Where local names tell data nodes beside each other apart, a path that climbs to a node and goes down from it by local
names leads where the path from the top does. It cannot climb higher than the top nodes, though: above these there is
nothing to go down from.
-/

namespace RestconfApi

/-- Going down from `a` by data children one comes by the nodes `ns` to a place, the last of them. -/
inductive Place.Descends (a : Place) : List Node → Place → Prop
  | self : Descends a [] a
  | child {ns : List Node} {p x : Place} : Descends a ns p → x ∈ p.dataChildren → Descends a (ns ++ [x.node]) x

namespace Place

variable {a p : Place} {ns : List Node}

theorem Descends.visible (h : a.Descends ns p) (ha : a.node.kind.isTransparent = false) :
    p.node.kind.isTransparent = false := by
  cases h with
  | self => exact ha
  | child _ hx => exact isTransparent_of_mem_dataChildren hx

theorem Descends.part_eq (h : a.Descends ns p) : p.address.part = a.address.part := by
  induction h with
  | self => rfl
  | child _ hx ih => exact (part_of_mem_dataChildren hx).trans ih

theorem Descends.encloses (h : a.Descends ns p) : a.Encloses p := by
  induction h with
  | self => exact .self
  | child _ hx ih =>
    obtain ⟨r, i, hr, hi, -⟩ := mem_dataChildren.mp hx
    exact ih.trans (hr.encloses.trans (.child .self hi))

theorem Descends.has {s : Schema} (h : a.Descends ns p) (ha : s.Has a) : s.Has p := by
  induction h with
  | self => exact ha
  | child _ hx ih => exact ih.dataChild hx

/-- What one comes by stands in the schema. -/
theorem Descends.exists_of_mem {s : Schema} (h : a.Descends ns p) (ha : s.Has a) {n : Node} (hn : n ∈ ns) :
    ∃ q, s.Has q ∧ q.node = n ∧ q.address.part = a.address.part := by
  induction h with
  | self => cases hn
  | child hq hx ih =>
    rcases List.mem_append.mp hn with hn | hn
    · exact ih hn
    · obtain rfl := List.mem_singleton.mp hn
      exact ⟨_, (hq.has ha).dataChild hx, rfl, (part_of_mem_dataChildren hx).trans hq.part_eq⟩

end Place

namespace Schema

open Text (IsStep)

variable {s : Schema}

theorem AreUnlike.find? {ps : List Place} (h : AreUnlike ps) {p : Place} (hp : p ∈ ps)
    (hname : p.node.name.IsIdentifier) : ps.find? (fun x => x.node.name == p.node.name) = some p := by
  obtain ⟨t, ht, -⟩ := hname
  have hsymm : Std.Symm fun x y : Place => x.node.name ≠ y.node.name := ⟨fun _ _ hne => hne.symm⟩
  cases hfound : ps.find? (fun x => x.node.name == p.node.name) with
  | none =>
    have hself := List.find?_eq_none.mp hfound p hp
    simp [ht] at hself
  | some y =>
    have hy := List.find?_some hfound
    rw [ht] at hy
    have hsame : y.node.name = p.node.name := (Datum.eq_text_of_beq hy).trans ht.symm
    by_contra hne
    exact h.forall (List.mem_of_find?_eq_some hfound) hp (fun heq => hne (congrArg some heq)) hsame

/-- A schema whose paths can be read, and whose local names tell nodes beside each other in data apart. -/
structure IsUnambiguous (s : Schema) : Prop extends IsLegible s where
  siblings : ∀ {p : Place}, s.Has p → p.address.part = .data → AreUnlike p.dataChildren
  topSiblings : ∀ {i : Nat} {m : Module}, s.modules[i]? = some m →
    AreUnlike (Place.dataOfAll (Address.top i .data) [] 0 m.data)

theorem IsUnambiguous.child? (hs : s.IsUnambiguous) {p x : Place} (hp : s.Has p) (hpart : p.address.part = .data)
    (hx : x ∈ p.dataChildren) : p.child? (.text x.node.name.wording) = some x := by
  have hname := hs.names (hp.dataChild hx) ((Place.part_of_mem_dataChildren hx).trans hpart)
  have hfind := (hs.siblings hp hpart).find? hx hname
  obtain ⟨t, ht, -⟩ := hname
  rw [ht] at hfind ⊢
  exact hfind

/-- All nodes are the first ones of their names. -/
theorem IsUnambiguous.isFirst (hs : s.IsUnambiguous) {p : Place} (hp : s.Has p) (hpart : p.address.part = .data)
    (hvisible : p.node.kind.isTransparent = false) : s.IsFirst p := by
  refine Has.data_induction (P := fun p => p.address.part = .data → s.IsFirst p)
    (fun m p hp hm hvisible _ hmem hpart => ?_) (fun q p hq hqvisible hmem _ _ _ hpart => ?_) hp hvisible hpart
  · rw [IsFirst, besides, Place.dataParent?_of_mem_dataOfAll hmem]
    dsimp only
    rw [hm]
    rw [hpart] at hmem ⊢
    exact (hs.topSiblings hm).find? hmem (hs.names hp hpart)
  · rw [IsFirst, besides, Place.dataParent?_of_mem_dataChildren hqvisible hmem]
    have hqpart : q.address.part = .data := (Place.part_of_mem_dataChildren hmem).symm.trans hpart
    exact (hs.siblings hq hqpart).find? hmem (hs.names (hq.dataChild hmem) hpart)

/-! ### Going down -/

theorem isStepTo_of_isIdentifier {name : Name} (h : name.IsIdentifier) : IsStepTo name.wording name.wording := by
  obtain ⟨t, rfl, ht⟩ := h
  refine ⟨Text.isStep_of_isIdentifier ht, ?_, ?_, ?_⟩
  · rintro rfl
    cases ht
  · rintro rfl
    cases ht
  · show (splitName t).2 = t
    rw [splitName_of_not_mem (Text.not_mem_of_isIdentifier ht (by decide))]

theorem IsUnambiguous.below? (hs : s.IsUnambiguous) {a p : Place} {ns : List Node} (h : a.Descends ns p)
    (ha : s.Has a) (hpart : a.address.part = .data) : a.below? (ns.map (·.name.wording)).reverse = some p := by
  induction h with
  | self => rfl
  | child hq hx ih =>
    simp only [List.map_append, List.map_singleton, List.reverse_append, List.reverse_singleton, List.singleton_append]
    rw [Place.below?, ih]
    exact hs.child? (hq.has ha) (hq.part_eq.trans hpart) hx

/-! ### Climbing -/

theorem isStep_up : IsStep ".." where
  ne := by decide
  chars c hc := by
    have hdots : c ∈ ['.', '.'] := hc
    obtain rfl : c = '.' := by simpa using hdots
    rfl

theorem follow_up (owner : Name) (steps : List String) (p : Place) :
    s.follow owner (".." :: steps) (some p) = p.dataParent?.bind fun q => s.follow owner steps (some q) := by
  rw [follow, isStep_up.trim_eq, if_neg (by decide), step?, if_pos rfl, Option.bind_some]
  cases p.dataParent? <;> rfl

/-- Climbing as far as one has come down leads back. -/
theorem follow_climb {a c : Place} {ns : List Node} (h : a.Descends ns c) (ha : a.node.kind.isTransparent = false)
    (owner : Name) (steps : List String) :
    s.follow owner (List.replicate ns.length ".." ++ steps) (some c) = s.follow owner steps (some a) := by
  induction h with
  | self => rfl
  | child hq hx ih =>
    rw [List.length_append, List.length_singleton, List.replicate_succ, List.cons_append, follow_up,
      Place.dataParent?_of_mem_dataChildren (hq.visible ha) hx]
    exact ih

/-- Above the top nodes there is nothing to go on from. -/
theorem follow_climb_eq_none {c : Place} (hc : s.Has c) (hvisible : c.node.kind.isTransparent = false) (owner : Name)
    {levels : Nat} (hlevels : c.dataLineage.length ≤ levels) (steps : List String) :
    s.follow owner (List.replicate levels ".." ++ steps) (some c) = none := by
  refine Has.data_induction (P := fun c => ∀ levels, c.dataLineage.length ≤ levels →
    s.follow owner (List.replicate levels ".." ++ steps) (some c) = none)
    (fun m c _ _ hvisible habove hmem levels hlevels => ?_)
    (fun q c _ hqvisible hmem _ hlineage ih levels hlevels => ?_) hc hvisible levels hlevels
  · rw [Place.dataLineage_of_top hvisible habove, List.length_singleton] at hlevels
    obtain ⟨levels, rfl⟩ := Nat.exists_eq_add_of_le' hlevels
    rw [List.replicate_succ, List.cons_append, follow_up, Place.dataParent?_of_mem_dataOfAll hmem]
    rfl
  · rw [hlineage, List.length_append, List.length_singleton] at hlevels
    obtain ⟨levels, rfl⟩ := Nat.exists_eq_add_of_le' (Nat.le_trans (Nat.le_add_left 1 _) hlevels)
    rw [List.replicate_succ, List.cons_append, follow_up, Place.dataParent?_of_mem_dataChildren hqvisible hmem]
    exact ih levels (by omega)

/-! ### Climbing and going down -/

/-- The path that climbs some levels and then goes down by the local names of nodes. -/
def relativePath (levels : Nat) (ns : List Node) : String :=
  Text.join "/" (List.replicate levels ".." ++ ns.map (·.name.wording))

theorem node?_relativePath {ns : List Node} (h : ∀ n ∈ ns, n.name.IsIdentifier) (levels : Nat) (c : Place) :
    s.node? (relativePath levels ns) (some c) =
      s.follow c.node.owner (List.replicate levels ".." ++ ns.map (·.name.wording)) (some c) := by
  refine node?_relative (fun step hstep => ?_) c
  rcases List.mem_append.mp hstep with hup | hdown
  · rw [(List.mem_replicate.mp hup).2]
    exact isStep_up
  · obtain ⟨n, hn, rfl⟩ := List.mem_map.mp hdown
    exact (isStepTo_of_isIdentifier (h n hn)).toIsStep

/-- In a schema that loads, with distinct identifiers for its modules and identifiers for its data that tell nodes
beside each other apart, a path that climbs from one data node to another one and goes down from there leads to the
same node as the path from the top. A path that climbs higher than the top nodes leads nowhere. -/
theorem finds_relativePath_of_load {d : Datum} (h : (load d).result = .ok s) (hs : s.IsUnambiguous) {c t : Place}
    (hc : s.Has c) (hcpart : c.address.part = .data) (hcvisible : c.node.kind.isTransparent = false)
    (ht : s.Has t) (htpart : t.address.part = .data) (htvisible : t.node.kind.isTransparent = false) :
    (∀ (a : Place) (cs ts : List Node), a.node.kind.isTransparent = false → a.Descends cs c → a.Descends ts t →
        s.node? (relativePath cs.length ts) (some c) = some t) ∧
      (∀ context, s.node? t.absolutePath context = some t) ∧
      ∀ levels, c.dataLineage.length ≤ levels → s.node? (relativePath levels t.dataLineage) (some c) = none := by
  refine ⟨fun a cs ts ha hcs hts => ?_, fun context => ?_, fun levels hlevels => ?_⟩
  · have hhas := hc.of_encloses hcs.encloses
    have hpart := hcs.part_eq.symm.trans hcpart
    have hnames : ∀ n ∈ ts, n.name.IsIdentifier := by
      intro n hn
      obtain ⟨q, hq, rfl, hqpart⟩ := hts.exists_of_mem hhas hn
      exact hs.names hq (hqpart.trans hpart)
    rw [node?_relativePath hnames, follow_climb hcs ha,
      follow_map_eq_below? _ fun n hn => isStepTo_of_isIdentifier (hnames n hn)]
    exact hs.below? hts hhas hpart
  · rw [hs.node?_absolutePath h ht htpart htvisible, hs.spot?_eq_some_iff ht htpart htvisible]
    intro q hq hqvisible
    exact hs.isFirst (ht.of_encloses hq) (hq.part_eq.symm.trans htpart) hqvisible
  · have hnames : ∀ n ∈ t.dataLineage, n.name.IsIdentifier := by
      intro n hn
      obtain ⟨q, hq, rfl, hqpart⟩ := ht.exists_of_mem_dataLineage hn
      exact hs.names hq (hqpart.trans htpart)
    rw [node?_relativePath hnames]
    exact follow_climb_eq_none hc hcvisible _ hlevels _

/-! ### Examples -/

/-- Whether a schema reads well and names of nodes beside each other differ. -/
def readsApart (s : Schema) : Bool :=
  s.readsWell && decide (∀ p ∈ s.places, (p.dataChildren.map (·.node.name.wording)).Nodup) &&
    decide (∀ mi ∈ s.modules.zipIdx,
      ((Place.dataOfAll (Address.top mi.2 .data) [] 0 mi.1.data).map (·.node.name.wording)).Nodup)

theorem isUnambiguous_of_readsApart (h : s.readsApart = true) :
    s.IsUnambiguous ∧ (s.modules.map (·.shortName.wording)).Nodup := by
  simp only [readsApart, Bool.and_eq_true, decide_eq_true_eq] at h
  obtain ⟨⟨hreads, hsiblings⟩, htops⟩ := h
  obtain ⟨hlegible, hshort⟩ := isLegible_of_readsWell hreads
  refine ⟨⟨hlegible, fun hp _ => ?_, @fun i m hm => ?_⟩, hshort⟩
  · exact areUnlike_of_nodup (hsiblings _ hp.mem_places)
  · exact areUnlike_of_nodup (htops (m, i) (List.mem_zipIdx_iff_getElem?.mpr hm))

end Schema

open Example Schema

/-- A container with a leaf and another one in a choice, and a second container with a leaf. -/
def Example.apart : Datum :=
  document [("data", [
    container "a" [] [leaf "l", statement "choice" "o" [("children", .list [leaf "j"])]],
    container "b" [] [leaf "k"]])]

/-- From one leaf of the container a path leads to the one in the choice, but none leads on from above. -/
theorem finds_relativePath_of_load_apart : ∃ s a c t, (load Example.apart).result = .ok s ∧ s.IsUnambiguous ∧
    s.node? "/m:a" none = some a ∧ a.child? (.text "l") = some c ∧ a.child? (.text "j") = some t ∧
      s.node? "../j" (some c) = some t ∧ s.node? t.absolutePath (some c) = some t ∧
      s.node? (relativePath 2 t.dataLineage) (some c) = none := by
  have htest : ((load Example.apart).result.toOption.any fun s => s.readsApart &&
      (s.node? "/m:a" none).any fun a => a.address.part = .data &&
        ((a.child? (.text "l")).any fun c => decide (c.dataLineage.length ≤ 2)) &&
        (a.child? (.text "j")).isSome) = true := by
    decide +kernel
  obtain ⟨s, hload, htest⟩ := exists_of_any htest
  simp only [Bool.and_eq_true, decide_eq_true_eq, Option.any_eq_true] at htest
  obtain ⟨hapart, a, ha, ⟨hpart, c, hc, hlevels⟩, hsome⟩ := htest
  obtain ⟨t, ht⟩ := Option.isSome_iff_exists.mp hsome
  have htarget := isTarget_of_node? ha
  have hcmem := Place.mem_dataChildren_of_child? hc
  have htmem := Place.mem_dataChildren_of_child? ht
  obtain ⟨hs, -⟩ := isUnambiguous_of_readsApart hapart
  obtain ⟨hrelative, habsolute, hnone⟩ := finds_relativePath_of_load hload hs (htarget.has.dataChild hcmem)
    ((Place.part_of_mem_dataChildren hcmem).trans hpart) (Place.isTransparent_of_mem_dataChildren hcmem)
    (htarget.has.dataChild htmem) ((Place.part_of_mem_dataChildren htmem).trans hpart)
    (Place.isTransparent_of_mem_dataChildren htmem)
  have hpath : relativePath [c.node].length [t.node] = "../j" := by
    rw [relativePath, List.map_singleton, Place.name_of_child? ht]
    rfl
  have hfound := hrelative a [c.node] [t.node] htarget.visible (.child .self hcmem) (.child .self htmem)
  rw [hpath] at hfound
  exact ⟨s, a, c, t, hload, hs, ha, hc, ht, hfound, habsolute _, hnone 2 hlevels⟩

/-- No path leads from the first container to the leaf of the second one by way of the root. -/
theorem misses_relativePath_of_load_apart : ∃ s c t, (load Example.apart).result = .ok s ∧ s.IsUnambiguous ∧
    (s.modules.map (·.shortName.wording)).Nodup ∧ s.node? "/m:a/m:l" none = some c ∧
      s.node? "/m:b/m:k" none = some t ∧ c.address.part = .data ∧ t.address.part = .data ∧
      c.address.module = t.address.module ∧ c.node.kind = .leaf ∧ t.node.kind = .leaf ∧
      relativePath c.dataLineage.length t.dataLineage = "../../b/k" ∧ s.node? "../../b/k" (some c) ≠ some t := by
  have htest : ((load Example.apart).result.toOption.any fun s => s.readsApart &&
      (s.node? "/m:a/m:l" none).any fun c => (s.node? "/m:b/m:k" none).any fun t =>
        c.address.part = .data && t.address.part = .data && c.address.module = t.address.module &&
          c.node.kind = .leaf && t.node.kind = .leaf &&
          relativePath c.dataLineage.length t.dataLineage = "../../b/k" &&
          (s.node? "../../b/k" (some c)).isNone) = true := by
    decide +kernel
  obtain ⟨s, hload, htest⟩ := exists_of_any htest
  simp only [Bool.and_eq_true, decide_eq_true_eq, Option.any_eq_true, Option.isNone_iff_eq_none] at htest
  obtain ⟨hapart, c, hc, t, ht, ⟨⟨⟨⟨⟨hcpart, htpart⟩, hmodule⟩, hckind⟩, htkind⟩, hpath⟩, hnone⟩ := htest
  obtain ⟨hs, hshort⟩ := isUnambiguous_of_readsApart hapart
  exact ⟨s, c, t, hload, hs, hshort, hc, ht, hcpart, htpart, hmodule, hckind, htkind, hpath, by simp [hnone]⟩

end RestconfApi
