import RestconfApi.Proofs.Schema.Paths
import RestconfApi.Proofs.Schema.Trees

/-!
# Schema: config flags

In a loaded schema config flags are handed down: a node outside the rpcs is configuration when the node around
it is and it is not declared otherwise, and whatever stands in an rpc is configuration.
-/

namespace RestconfApi

namespace Node

theorem toStatement_withConfig (inherited : Bool) (n : Node) :
    (n.withConfig inherited).toStatement =
      { n.toStatement with config := inherited && n.declaredConfig.getD true } := by
  obtain ⟨s, cs⟩ := n
  rw [withConfig]

theorem children_withConfig (inherited : Bool) (n : Node) :
    (n.withConfig inherited).children = n.children.map (withConfig (n.withConfig inherited).config) := by
  obtain ⟨s, cs⟩ := n
  rw [withConfig, withConfigAll_eq]

end Node

namespace Schema

variable {s : Schema}

/-- How the config flags of a schema depend on each other. -/
structure Configured (s : Schema) : Prop where
  top : ∀ i part, part ≠ .rpcs → ∀ p ∈ s.tops i part, p.node.config = p.node.declaredConfig.getD true
  child : ∀ {p x : Place} {i : Nat}, s.Has p → p.address.part ≠ .rpcs → p.childAt? i = some x →
    x.node.config = (p.node.config && x.node.declaredConfig.getD true)
  rpcs : ∀ {p : Place}, s.Has p → p.address.part = .rpcs → p.node.config = true

/-- The trees outside the rpcs have had their flags passed down. -/
theorem exists_withConfig_of_mem_tops {ms : List Module} {i : Nat} {part : Part} (hpart : part ≠ .rpcs)
    {p : Place} (hp : p ∈ tops ⟨ms.map Module.withConfig⟩ i part) : ∃ n : Node, p.node = n.withConfig true := by
  rw [tops] at hp
  split at hp
  · rename_i m' hm
    rw [List.getElem?_map] at hm
    obtain ⟨m, -, rfl⟩ := Option.map_eq_some_iff.mp hm
    obtain ⟨j, n, hn, rfl⟩ := Place.mem_ofChildren.mp hp
    have hmem : ∀ {ns : List Node}, (Node.withConfigAll true ns)[j]? = some n →
        ∃ n₀ : Node, n = n₀.withConfig true := by
      intro ns h
      rw [Node.withConfigAll_eq, List.getElem?_map] at h
      obtain ⟨n₀, -, rfl⟩ := Option.map_eq_some_iff.mp h
      exact ⟨n₀, rfl⟩
    cases part with
    | data => exact hmem hn
    | groupings => exact hmem hn
    | rpcs => exact absurd rfl hpart
  · simp at hp

/-- Every node of an rpc has been made configuration. -/
theorem exists_mapStatements_of_mem_tops {ms : List Module} {i : Nat} {p : Place}
    (hp : p ∈ tops ⟨ms.map Module.withConfig⟩ i .rpcs) :
    ∃ n : Node, p.node = n.mapStatements fun s => { s with config := true } := by
  rw [tops] at hp
  split at hp
  · rename_i m' hm
    rw [List.getElem?_map] at hm
    obtain ⟨m, -, rfl⟩ := Option.map_eq_some_iff.mp hm
    obtain ⟨j, n, hn, rfl⟩ := Place.mem_ofChildren.mp hp
    replace hn : (Node.mapStatementsAll _ m.rpcs)[j]? = some n := hn
    rw [Node.mapStatementsAll_eq, List.getElem?_map] at hn
    obtain ⟨n₀, -, rfl⟩ := Option.map_eq_some_iff.mp hn
    exact ⟨n₀, rfl⟩
  · simp at hp

theorem children_of_withConfig {p x : Place} {i : Nat} {n : Node} {inherited : Bool}
    (hn : p.node = n.withConfig inherited) (hx : p.childAt? i = some x) :
    ∃ m : Node, x.node = m.withConfig p.node.config := by
  obtain ⟨m', hm', rfl⟩ := Option.map_eq_some_iff.mp hx
  rw [hn, Node.children_withConfig, List.getElem?_map, ← hn] at hm'
  obtain ⟨m, -, rfl⟩ := Option.map_eq_some_iff.mp hm'
  exact ⟨m, rfl⟩

theorem configured_of_withConfig (ms : List Module) : Configured ⟨ms.map Module.withConfig⟩ where
  top i part hpart p hp := by
    obtain ⟨n, hn⟩ := exists_withConfig_of_mem_tops hpart hp
    rw [hn, Node.toStatement_withConfig]
    simp
  child := by
    intro p x i hp hpart hx
    have hbelow : p.address.part ≠ .rpcs → ∃ (n : Node) (inherited : Bool), p.node = n.withConfig inherited := by
      refine Has.induction (P := fun p => p.address.part ≠ .rpcs →
        ∃ (n : Node) (inherited : Bool), p.node = n.withConfig inherited) ?_ ?_ hp
      · intro i part p hp hpart
        rw [part_of_mem_tops hp] at hpart
        obtain ⟨n, hn⟩ := exists_withConfig_of_mem_tops hpart hp
        exact ⟨n, true, hn⟩
      · intro p x i _ ih hx hpart
        rw [Place.part_of_childAt? hx] at hpart
        obtain ⟨n, inherited, hn⟩ := ih hpart
        obtain ⟨m, hm⟩ := children_of_withConfig hn hx
        exact ⟨m, _, hm⟩
    obtain ⟨n, inherited, hn⟩ := hbelow hpart
    obtain ⟨m, hm⟩ := children_of_withConfig hn hx
    rw [hm, Node.toStatement_withConfig]
  rpcs := by
    intro p hp hpart
    have hbelow : p.address.part = .rpcs →
        ∃ n : Node, p.node = n.mapStatements fun s => { s with config := true } := by
      refine Has.induction (P := fun p => p.address.part = .rpcs →
        ∃ n : Node, p.node = n.mapStatements fun s => { s with config := true }) ?_ ?_ hp
      · intro i part p hp hpart
        rw [part_of_mem_tops hp] at hpart
        exact exists_mapStatements_of_mem_tops (hpart ▸ hp)
      · intro p x i _ ih hx hpart
        rw [Place.part_of_childAt? hx] at hpart
        obtain ⟨n, hn⟩ := ih hpart
        obtain ⟨m', hm', rfl⟩ := Option.map_eq_some_iff.mp hx
        rw [hn, Node.children_mapStatements, List.getElem?_map] at hm'
        obtain ⟨m, -, rfl⟩ := Option.map_eq_some_iff.mp hm'
        exact ⟨m, rfl⟩
    obtain ⟨n, hn⟩ := hbelow hpart
    rw [hn, Node.toStatement_mapStatements]

theorem configured_of_load {d : Datum} {s : Schema} (h : (load d).result = .ok s) : s.Configured := by
  unfold load at h
  obtain ⟨⟨modules, augments⟩, -, h⟩ := Logged.ok_of_bind h
  obtain ⟨expanded, -, h⟩ := Logged.ok_of_bind h
  obtain ⟨-, -, h⟩ := Logged.ok_of_bind h
  obtain rfl := Except.ok.inj h
  exact configured_of_withConfig expanded.modules

namespace Configured

/-! ### What follows for nodes around each other -/

/-- What is operational state has nothing but operational state below it. -/
theorem of_childAt? (h : s.Configured) {p x : Place} {i : Nat} (hp : s.Has p) (hx : p.childAt? i = some x)
    (hc : p.node.config = false) : x.node.config = false := by
  by_cases hpart : p.address.part = .rpcs
  · rw [h.rpcs hp hpart] at hc
    cases hc
  · rw [h.child hp hpart hx, hc, Bool.false_and]

theorem of_mem_above (h : s.Configured) {p : Place} (hp : s.Has p) {n : Node} (hn : n ∈ p.above)
    (hc : n.config = false) : p.node.config = false := by
  induction habove : p.above generalizing p with
  | nil => simp [habove] at hn
  | cons m above ih =>
    obtain ⟨q, i, hq, hi, rfl, hqabove⟩ := hp.exists_parent habove
    refine h.of_childAt? hq hi ?_
    rw [habove] at hn
    rcases List.mem_cons.mp hn with rfl | hn
    · exact hc
    · exact ih hq (hqabove ▸ hn) hqabove

end Configured

end Schema

end RestconfApi
