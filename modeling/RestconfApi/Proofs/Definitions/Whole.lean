import RestconfApi.Proofs.Definitions.Sharing
import RestconfApi.Proofs.Path.Operations

/-!
# Definitions: walks in which nothing stays untyped

Without a limit no field has to stay an untyped object. What stands below a node that is walked over has been
defined before, and whatever else is demanded while a node is defined comes before it in the order of expansion, or
stands below it, so that no definition is demanded while it is underway.
-/

namespace RestconfApi

namespace Place

theorem Through.sizeOf_le {p q : Place} (h : p.Through q) : sizeOf q.node ≤ sizeOf p.node := by
  induction h with
  | self => exact Nat.le_refl _
  | step _ hc _ ih => exact Nat.le_of_lt (Nat.lt_of_lt_of_le (sizeOf_lt_of_childAt? hc) ih)

/-- `p` comes before `q` in the order of expansion, or is the smaller of two nodes of one rank. -/
def Precedes (rank : Address → Nat) (p q : Place) : Prop :=
  rank p.address < rank q.address ∨ rank p.address = rank q.address ∧ sizeOf p.node < sizeOf q.node

theorem Precedes.irrefl {rank : Address → Nat} {p : Place} : ¬p.Precedes rank p := by
  simp [Precedes]

theorem Precedes.trans {rank : Address → Nat} {p q r : Place} (h : p.Precedes rank q) (h' : q.Precedes rank r) :
    p.Precedes rank r := by
  simp only [Precedes] at *
  omega

end Place

namespace Schema

variable {s : Schema} {augmented : Prop} {rank : Address → Nat}

theorem Traced.precedes_of_mem_dataChildren (h : s.Traced augmented rank) {p x : Place} (hp : s.Has p)
    (hx : x ∈ p.dataChildren) : x.Precedes rank p := by
  obtain ⟨q, i, hq, hi, -⟩ := Place.mem_dataChildren.mp hx
  refine .inr ⟨?_, Nat.lt_of_lt_of_le (Place.sizeOf_lt_of_childAt? hi) hq.sizeOf_le⟩
  rw [h.rank_childAt? (hp.through hq) hi, rank_of_through h.rank_childAt? hp hq]

/-- What is behind a node has a lower rank and is not walked over. -/
theorem Traced.rank_of_isBehind (h : s.Traced augmented rank) {x y : Place} (hx : s.Has x) (hy : s.IsBehind y x) :
    y = x ∨ rank y.address < rank x.address ∧ y.isWalked = false := by
  induction hy with
  | self => exact .inl rfl
  | @step x t ht _ ih =>
    have hcopy := h.isCopy hx ht
    rcases ih hcopy.has with rfl | ⟨hrank, hwalked⟩
    · exact .inr ⟨hcopy.rank, hcopy.walked⟩
    · exact .inr ⟨Nat.lt_trans hrank hcopy.rank, hwalked⟩

theorem LoadedFrom.kind_of_groupingNamed? {declared : Schema} {M : Expansion.Expanded}
    (h : LoadedFrom augmented declared M s) {qname : String} {g : Place} (hg : s.groupingNamed? qname = some g) :
    g.node.kind = .grouping := by
  obtain ⟨i, htop⟩ := mem_tops_of_grouping? (show s.grouping? _ _ = some g from hg)
  exact h.kind_of_mem_groupings htop

theorem LoadedFrom.isWalked_of_groupingNamed? {declared : Schema} {M : Expansion.Expanded}
    (h : LoadedFrom augmented declared M s) {qname : String} {g : Place} (hg : s.groupingNamed? qname = some g) :
    g.isWalked = false := by
  obtain ⟨i, htop⟩ := mem_tops_of_grouping? (show s.grouping? _ _ = some g from hg)
  rw [Place.isWalked, Place.top, above_of_mem_tops htop]
  simp [h.kind_of_groupingNamed? hg]

end Schema

namespace Definitions

variable {c : Scope} {u : Definitions}

/-- Nothing that is underway comes before the node, and what stands below it has been defined if it is walked
over. -/
structure IsReady (c : Scope) (u : Definitions) (rank : Address → Nat) (d : Definitions) (p : Place) : Prop where
  has : c.schema.Has p
  first : ∀ r, c.schema.Has r → r.address ∈ d.underway → r = p ∨ p.Precedes rank r
  below : p.isWalked = true → ∀ x ∈ p.dataChildren, x.node.kind.isStructural = true →
    (d.names.get? (u.canonical c x).address).isSome = true

theorem definitionName_isSome {d : Definitions} {p : Place}
    (h : (d.names.get? (d.canonical c p).address).isSome = true) : (d.definitionName c p).isSome = true := by
  unfold definitionName
  split
  · split
    · rfl
    · exact h
  · exact h

/-- What comes before a node that may be defined, and is not walked over, may be defined as well; and it is not
underway. -/
theorem IsReady.of_precedes {rank : Address → Nat} {d : Definitions} {p q : Place} (h : IsReady c u rank d p)
    (hq : c.schema.Has q) (hprecedes : q.Precedes rank p) (hwalked : q.isWalked = false) :
    IsReady c u rank d q ∧ q.address ∉ d.underway := by
  have hfirst : ∀ r, c.schema.Has r → r.address ∈ d.underway → q.Precedes rank r := by
    intro r hr hmem
    rcases h.first r hr hmem with rfl | hpr
    · exact hprecedes
    · exact hprecedes.trans hpr
  refine ⟨⟨hq, fun r hr hmem => .inr (hfirst r hr hmem), fun hw => ?_⟩, fun hmem => ?_⟩
  · rw [hwalked] at hw
    cases hw
  · exact Place.Precedes.irrefl (hfirst q hq hmem)

section

variable {augmented : Prop} {declared : Schema} {M : Expansion.Expanded}
  (hfrom : Schema.LoadedFrom augmented declared M c.schema)
include hfrom

theorem precedes_canonical {p q : Place} (hp : c.schema.Has p) (h : p.Precedes (Expansion.rank M) q) :
    (u.canonical c p).Precedes (Expansion.rank M) q := by
  have hbehind := (mirrors_canonical (u := u) hfrom.traced.ranked True hp).behind
  rcases hfrom.traced.rank_of_isBehind hp hbehind with heq | ⟨hrank, -⟩
  · rwa [heq]
  · exact Place.Precedes.trans (.inl hrank) h

theorem isWalked_canonical {p : Place} (hp : c.schema.Has p) (h : p.isWalked = false) :
    (u.canonical c p).isWalked = false := by
  have hbehind := (mirrors_canonical (u := u) hfrom.traced.ranked True hp).behind
  rcases hfrom.traced.rank_of_isBehind hp hbehind with heq | ⟨-, hwalked⟩
  · rwa [heq]
  · exact hwalked

/-- No structural field stays untyped. -/
def Regime.whole (u : Definitions) (hknows : c.schema.KnowsGroupings) (hlimit : c.maxLevel = none) : Regime c u where
  cut _ := False
  ready := IsReady c u (Expansion.rank M)
  ready_advances ha h :=
    ⟨h.has, fun r hr hmem => h.first r hr (ha.underway hmem), fun hw x hx hk =>
      ha.names _ (h.below hw x hx hk)⟩
  ready_marked {d p marks} h hmarks := by
    refine ⟨h.has, fun r hr hmem => ?_, h.below⟩
    rcases List.mem_cons.mp (hmarks hmem) with heq | hmem
    · exact .inl (hr.eq h.has heq)
    · exact h.first r hr hmem
  child {d p x} hu hp h hx hk hnone := by
    have hxhas := hp.dataChild hx
    have hwalked : p.isWalked = false := by
      by_contra hw
      have hcanonical := h.below (by simpa using hw) x hx hk
      rw [← canonical_congr hu] at hcanonical
      have := definitionName_isSome hcanonical
      rw [hnone] at this
      cases this
    have hxwalked := isWalked_canonical (u := u) hfrom hxhas
      (by rw [Place.isWalked_of_mem_dataChildren hx, hwalked])
    have hprecedes := precedes_canonical (u := u) hfrom hxhas (hfrom.traced.precedes_of_mem_dataChildren hp hx)
    obtain ⟨hready, hunder⟩ := h.of_precedes (has_canonical hxhas) hprecedes hxwalked
    exact ⟨hready, .inr ⟨hxwalked, hunder, by rw [withinBound, hlimit]⟩⟩
  grouping {d p g qname} hp h houter hg := by
    obtain ⟨x, hx, hsupplier⟩ := houter.1
    obtain ⟨g', hg', -, hrank, -⟩ := hfrom.traced.exists_dataSupplier hknows hp hx (of_supplier? hsupplier).2.1
    obtain rfl := Option.some.inj (hg.symm.trans hg')
    have hghas := Schema.has_of_groupingNamed? hg
    exact (h.of_precedes (has_canonical hghas) (precedes_canonical hfrom hghas (.inl hrank))
      (isWalked_canonical hfrom hghas (hfrom.isWalked_of_groupingNamed? hg))).1

theorem Regime.whole_enters (hknows : c.schema.KnowsGroupings) (hlimit : c.maxLevel = none) :
    (Regime.whole hfrom u hknows hlimit).Enters True := by
  intro d p hp hu hidle hbelow
  refine ⟨has_canonical hp, fun r _ hmem => by simp [hidle] at hmem, fun hwalked => ?_⟩
  have hbehind := (mirrors_canonical (u := u) hfrom.traced.ranked True hp).behind
  rcases hfrom.traced.rank_of_isBehind hp hbehind with heq | ⟨-, hnot⟩
  · rw [heq] at hwalked ⊢
    exact fun x hx hk => (hbelow hwalked trivial x hx hk).2
  · rw [hnot] at hwalked
    cases hwalked

end

end Definitions

end RestconfApi
