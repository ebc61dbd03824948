import Mathlib.Data.Set.Basic
import Mathlib.Logic.Equiv.Basic
import RestconfApi.Proofs.Schema.Additions
import RestconfApi.Proofs.Schema.Unfolding

/-!
# Schema: augments that do not bear on each other

What an augment needs are data nodes at the spots that the path to its target passes, and what it gives are data nodes
at spots below its target. If neither of two augments gives what the other one needs or gives as well then they can
change places, and so can all augments as long as those keep their order that bear on each other.
-/

namespace RestconfApi

/-- An augment by its spots: those that the path to its target passes, and for the spot of each data node that it adds
to its target the spots at and below it. -/
structure Graft where
  passes : Set Spot
  adds : Spot → Set Spot
  rooted : ∀ {root x}, x ∈ adds root → root ∈ adds root

namespace Graft

/-- The spots of data nodes after a graft: what is added is found unless its first name has been taken. -/
def grow (g : Graft) (there : Set Spot) : Set Spot := {x | x ∈ there ∨ ∃ root, root ∉ there ∧ x ∈ g.adds root}

/-- One graft adds what the other one passes on the way to its target, or what it adds as well. -/
def BearsOn (g h : Graft) : Prop := ∃ root x, x ∈ g.adds root ∧ (x ∈ h.passes ∨ ∃ root', x ∈ h.adds root')

def Independent (g h : Graft) : Prop := ¬g.BearsOn h ∧ ¬h.BearsOn g

/-- Each graft, one after the other, finds what it passes. -/
def Runs : Set Spot → List Graft → Prop
  | _, [] => True
  | there, g :: gs => g.passes ⊆ there ∧ Runs (g.grow there) gs

variable {g h : Graft} {there : Set Spot}

theorem Independent.symm (hind : g.Independent h) : h.Independent g := ⟨hind.2, hind.1⟩

theorem subset_grow (g : Graft) (there : Set Spot) : there ⊆ g.grow there := fun _ hx => .inl hx

/-- The spots of an independent graft are not taken by the other one. -/
theorem mem_grow_iff (hbears : ¬g.BearsOn h) {x : Spot} (hx : x ∈ h.passes ∨ ∃ root, x ∈ h.adds root) :
    x ∈ g.grow there ↔ x ∈ there := by
  constructor
  · rintro (hthere | ⟨root, -, hadds⟩)
    · exact hthere
    · exact absurd ⟨root, x, hadds, hx⟩ hbears
  · intro hthere
    exact subset_grow g there hthere

theorem passes_subset_grow_iff (hbears : ¬g.BearsOn h) : h.passes ⊆ g.grow there ↔ h.passes ⊆ there := by
  constructor
  · intro hsub x hx
    exact (mem_grow_iff hbears (.inl hx)).mp (hsub hx)
  · intro hsub x hx
    exact subset_grow g there (hsub hx)

theorem mem_grow_grow_iff (hbears : ¬g.BearsOn h) {x : Spot} : x ∈ h.grow (g.grow there) ↔
    x ∈ there ∨ (∃ root, root ∉ there ∧ x ∈ g.adds root) ∨ ∃ root, root ∉ there ∧ x ∈ h.adds root := by
  have hroot : (∃ root, root ∉ g.grow there ∧ x ∈ h.adds root) ↔ ∃ root, root ∉ there ∧ x ∈ h.adds root := by
    refine exists_congr fun root => and_congr_left fun hx => not_congr ?_
    exact mem_grow_iff hbears (.inr ⟨root, h.rooted hx⟩)
  rw [grow, Set.mem_ofPred_eq, hroot, grow, Set.mem_ofPred_eq, or_assoc]

theorem grow_comm (hind : g.Independent h) (there : Set Spot) : h.grow (g.grow there) = g.grow (h.grow there) := by
  ext x
  rw [mem_grow_grow_iff hind.1, mem_grow_grow_iff hind.2]
  exact or_congr_right or_comm

/-- Independent grafts can change places. -/
theorem runs_swap (hind : g.Independent h) {gs : List Graft} :
    Runs there (g :: h :: gs) ↔ Runs there (h :: g :: gs) := by
  simp only [Runs, passes_subset_grow_iff hind.1, passes_subset_grow_iff hind.2, grow_comm hind]
  tauto

theorem runs_move {pre gs : List Graft} (hind : ∀ h ∈ pre, g.Independent h) :
    Runs there (pre ++ g :: gs) ↔ Runs there (g :: (pre ++ gs)) := by
  induction pre generalizing there with
  | nil => rfl
  | cons h pre ih =>
    have hrest : Runs (h.grow there) (pre ++ g :: gs) ↔ _ := ih fun h' hh' => hind h' (List.mem_cons_of_mem _ hh')
    rw [List.cons_append, List.cons_append, runs_swap (hind h List.mem_cons_self), Runs, Runs, hrest]

/-- Grafts can be moved before others if they are independent of them. -/
theorem runs_append_comm {pre block gs : List Graft} (hind : ∀ g ∈ block, ∀ h ∈ pre, g.Independent h) :
    Runs there (pre ++ (block ++ gs)) ↔ Runs there (block ++ (pre ++ gs)) := by
  induction block generalizing there with
  | nil => rfl
  | cons g block ih =>
    have hrest : Runs (g.grow there) (pre ++ (block ++ gs)) ↔ _ :=
      ih fun g' hg' => hind g' (List.mem_cons_of_mem _ hg')
    rw [List.cons_append, runs_move (hind g List.mem_cons_self), List.cons_append, Runs, Runs, hrest]

/-- Whether grafts find what they pass does not depend on their order if those keep their order that bear on each
other: `rank` tells the place of each group of them in the new order. -/
theorem runs_perm {α : Type} {grafts : α → List Graft} {rank : α → Nat} {l l' : List α} (hperm : l.Perm l')
    (hsorted : l'.Pairwise fun a b => rank a < rank b)
    (hkeep : l.Pairwise fun a b => rank a < rank b ∨ ∀ g ∈ grafts a, ∀ h ∈ grafts b, g.Independent h) :
    Runs there (l.flatMap grafts) ↔ Runs there (l'.flatMap grafts) := by
  induction l' generalizing l there with
  | nil => rw [hperm.eq_nil]
  | cons a l' ih =>
    obtain ⟨pre, post, rfl⟩ := List.append_of_mem (hperm.mem_iff.mpr List.mem_cons_self)
    have hrest : (pre ++ post).Perm l' := (List.perm_middle.symm.trans hperm).cons_inv
    obtain ⟨hfirst, hsorted⟩ := List.pairwise_cons.mp hsorted
    -- what stood before the first group of the new order does not bear on it
    have hind : ∀ g ∈ grafts a, ∀ h ∈ pre.flatMap grafts, g.Independent h := by
      intro g hg h hh
      obtain ⟨b, hb, hh⟩ := List.mem_flatMap.mp hh
      have hlt := hfirst b (hrest.mem_iff.mp (List.mem_append_left _ hb))
      rcases (List.pairwise_append.mp hkeep).2.2 b hb a List.mem_cons_self with hlt' | hind
      · omega
      · exact (hind h hh g hg).symm
    have hkeep' : (pre ++ post).Pairwise fun a b => rank a < rank b ∨ ∀ g ∈ grafts a, ∀ h ∈ grafts b, g.Independent h :=
      hkeep.sublist (List.Sublist.append_left (List.sublist_cons_self a post) pre)
    rw [List.flatMap_append, List.flatMap_cons, runs_append_comm hind, ← List.flatMap_append, List.flatMap_cons]
    -- both begin with the same group
    generalize grafts a = block
    induction block generalizing there with
    | nil => exact ih hrest hsorted hkeep'
    | cons g block ihblock => exact and_congr_right fun _ => ihblock

theorem pairwise_zipIdx {α : Type} (l : List α) : l.zipIdx.Pairwise fun x y => x.2 < y.2 := by
  have hrange := List.pairwise_lt_range' (s := 0) (n := l.length)
  rw [← List.zipIdx_map_snd 0 l, List.pairwise_map] at hrange
  exact hrange

theorem nodup_of_pairwise {α : Type} {l : List α} {rank : α → Nat} (h : l.Pairwise fun a b => rank a < rank b) :
    l.Nodup :=
  h.imp fun {a b} hlt heq => by
    rw [heq] at hlt
    omega

/-- The same for a list in another order, its `i`-th element at `f i`. -/
theorem runs_reorder {α : Type} {grafts : α → List Graft} {l l' : List α} {f : Equiv.Perm Nat}
    (hperm : ∀ i, l'[f i]? = l[i]?) (hkeep : ∀ {i j a b}, l[i]? = some a → l[j]? = some b → i < j →
      f i < f j ∨ ∀ g ∈ grafts a, ∀ h ∈ grafts b, g.Independent h) :
    Runs there (l.flatMap grafts) ↔ Runs there (l'.flatMap grafts) := by
  have hback : ∀ j, l[f.symm j]? = l'[j]? := by
    intro j
    rw [← hperm, Equiv.apply_symm_apply]
  -- each element with its position in the first list
  have hsorted : (l'.zipIdx.map fun x => (x.1, f.symm x.2)).Pairwise fun x y => f x.2 < f y.2 := by
    rw [List.pairwise_map]
    simpa using pairwise_zipIdx l'
  have hperm' : l.zipIdx.Perm (l'.zipIdx.map fun x => (x.1, f.symm x.2)) := by
    refine (List.perm_ext_iff_of_nodup (nodup_of_pairwise (pairwise_zipIdx l)) (nodup_of_pairwise hsorted)).mpr ?_
    rintro ⟨a, i⟩
    rw [List.mem_zipIdx_iff_getElem?, List.mem_map]
    constructor
    · intro ha
      exact ⟨(a, f i), List.mem_zipIdx_iff_getElem?.mpr ((hperm i).trans ha), by simp⟩
    · rintro ⟨⟨b, j⟩, hb, heq⟩
      obtain ⟨rfl, rfl⟩ := Prod.mk.inj heq
      exact (hback j).trans (List.mem_zipIdx_iff_getElem?.mp hb)
  have hkeep' : l.zipIdx.Pairwise fun x y => f x.2 < f y.2 ∨
      ∀ g ∈ grafts x.1, ∀ h ∈ grafts y.1, g.Independent h := by
    refine (pairwise_zipIdx l).imp_of_mem ?_
    intro x y hx hy hlt
    exact hkeep (List.mem_zipIdx_iff_getElem?.mp hx) (List.mem_zipIdx_iff_getElem?.mp hy) hlt
  have hruns : Runs there (l.zipIdx.flatMap fun x => grafts x.1) ↔ _ := runs_perm hperm' hsorted hkeep'
  have hlist : l.zipIdx.flatMap (fun x => grafts x.1) = l.flatMap grafts := by
    rw [← List.flatMap_map, List.zipIdx_map_fst]
  have hlist' : (l'.zipIdx.map fun x => (x.1, f.symm x.2)).flatMap (fun x => grafts x.1) = l'.flatMap grafts := by
    rw [← List.flatMap_map, List.map_map]
    show (l'.zipIdx.map Prod.fst).flatMap grafts = _
    rw [List.zipIdx_map_fst]
  rwa [hlist, hlist'] at hruns

end Graft

end RestconfApi
