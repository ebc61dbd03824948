import RestconfApi.Definitions.Basic
import RestconfApi.Proofs.Schema.Templates

/-!
# Definitions: the node that stands for another

The node whose definition stands for a place is the place itself or one of its templates, with the same
config flag, and it stands for itself. Which one it is depends on the counted uses alone.
-/

namespace RestconfApi.Definitions

variable {c : Scope} {u d : Definitions}

theorem isShared_congr (h : d.usages = u.usages) (qname : String) :
    d.isShared qname = u.isShared qname := by
  rw [isShared, isShared, usageCount, usageCount, h]

theorem represents_congr (h : d.usages = u.usages) (site copy template : Place) :
    d.represents site copy template = u.represents site copy template := by
  simp only [represents, isShared_congr h]

theorem canonical_congr (h : d.usages = u.usages) (p : Place) : d.canonical c p = u.canonical c p := by
  simp only [canonical, represents_congr h]

theorem canonical_unpacking (hc : c.strategy = .unpacking) (p : Place) : u.canonical c p = p := by
  rw [canonical, hc]

/-! ### The last template that may stand -/

/-- The last template of a chain that may stand for `site`, or else `target`. `copy` is the node that the
chain is behind. -/
def lastFor (u : Definitions) (site : Place) : Place → Place → List Place → Place
  | target, _, [] => target
  | target, copy, t :: ts => lastFor u site (if u.represents site copy t then t else target) t ts

theorem foldl_zip_eq_lastFor (site target copy : Place) (chain : List Place) :
    ((copy :: chain).zip chain).foldl
        (fun target (copy, template) => if u.represents site copy template then template else target)
        target =
      lastFor u site target copy chain := by
  induction chain generalizing target copy with
  | nil => rfl
  | cons t ts ih =>
    rw [List.zip_cons_cons, List.foldl_cons, lastFor]
    exact ih _ _

theorem canonical_optimizing (hc : c.strategy = .optimizing) (p : Place) :
    u.canonical c p = lastFor u p p p (c.schema.templates p) := by
  rw [canonical, hc]
  exact foldl_zip_eq_lastFor p p p _

/-- The last template that may stand is `target`, and none may, or it is one with the flag of `site` behind
which none may. -/
theorem lastFor_cases (site target copy : Place) (chain : List Place) :
    lastFor u site target copy chain = target ∧ lastFor u site site copy chain = site ∨
      ∃ t rest, lastFor u site target copy chain = t ∧ t :: rest <:+ chain ∧
        t.node.config = site.node.config ∧ lastFor u site t t rest = t := by
  induction chain generalizing target copy with
  | nil => exact .inl ⟨rfl, rfl⟩
  | cons t ts ih =>
    simp only [lastFor]
    by_cases h : u.represents site copy t = true
    · simp only [if_pos h]
      refine .inr ?_
      have hconfig : t.node.config = site.node.config := by
        unfold represents at h
        split at h
        · exact eq_of_beq ((Bool.and_eq_true _ _).mp h).2
        · simp at h
      rcases ih t t with ⟨ht, -⟩ | ⟨t', rest, ht, hrest, hconfig', hlast⟩
      · exact ⟨t, ts, ht, List.suffix_refl _, hconfig, ht⟩
      · exact ⟨t', rest, ht, hrest.trans (List.suffix_cons _ _), hconfig', hlast⟩
    · simp only [if_neg h]
      rcases ih target t with ⟨ht, hsite⟩ | ⟨t', rest, ht, hrest, hconfig', hlast⟩
      · exact .inl ⟨ht, hsite⟩
      · exact .inr ⟨t', rest, ht, hrest.trans (List.suffix_cons _ _), hconfig', hlast⟩

theorem lastFor_congr {site site' : Place} (h : site.node.config = site'.node.config) (target copy : Place)
    (chain : List Place) : lastFor u site target copy chain = lastFor u site' target copy chain := by
  induction chain generalizing target copy with
  | nil => rfl
  | cons t ts ih =>
    have hr : u.represents site copy t = u.represents site' copy t := by
      simp only [represents, h]
    rw [lastFor, lastFor, hr]
    exact ih _ _

/-! ### The canonical node -/

theorem canonical_mem (p : Place) : u.canonical c p ∈ p :: c.schema.templates p := by
  cases hc : c.strategy with
  | unpacking =>
    rw [canonical_unpacking hc]
    exact List.mem_cons_self
  | optimizing =>
    rw [canonical_optimizing hc]
    rcases lastFor_cases (u := u) p p p (c.schema.templates p) with ⟨h, -⟩ | ⟨t, rest, h, hrest, -, -⟩
    · rw [h]
      exact List.mem_cons_self
    · rw [h]
      exact List.mem_cons_of_mem _ (hrest.subset List.mem_cons_self)

theorem canonical_config (p : Place) : (u.canonical c p).node.config = p.node.config := by
  cases hc : c.strategy with
  | unpacking => rw [canonical_unpacking hc]
  | optimizing =>
    rw [canonical_optimizing hc]
    rcases lastFor_cases (u := u) p p p (c.schema.templates p) with ⟨h, -⟩ | ⟨t, rest, h, -, hconfig, -⟩
    · rw [h]
    · rw [h, hconfig]

theorem has_canonical {p : Place} (hp : c.schema.Has p) : c.schema.Has (u.canonical c p) := by
  rcases List.mem_cons.mp (canonical_mem (c := c) (u := u) p) with h | h
  · rwa [h]
  · exact Schema.has_of_mem_templates h

theorem eq_of_suffix {α : Type} {l r r' : List α} {t : α} (hl : l.Nodup) (hr : t :: r <:+ l)
    (hr' : t :: r' <:+ l) : r = r' := by
  have key : ∀ {r r' : List α}, t :: r' <:+ l → t :: r <:+ t :: r' → r = r' := by
    intro r r' hr' h
    rcases List.suffix_cons_iff.mp h with h | h
    · exact (List.cons.inj h).2
    · exact absurd (h.subset List.mem_cons_self) (List.nodup_cons.mp (hl.sublist hr'.sublist)).1
  rcases List.suffix_or_suffix_of_suffix hr hr' with h | h
  · exact key hr' h
  · exact (key hr h).symm

/-- What stands for a node stands for itself. -/
theorem canonical_canonical (hs : c.schema.Ranked) {p : Place} (hp : c.schema.Has p) :
    u.canonical c (u.canonical c p) = u.canonical c p := by
  cases hc : c.strategy with
  | unpacking => rw [canonical_unpacking hc]
  | optimizing =>
    have hchain := Schema.templates_suffix hs hp (canonical_mem (c := c) (u := u) p)
    have hconfig := canonical_config (c := c) (u := u) p
    rw [canonical_optimizing hc, canonical_optimizing hc]
    rw [canonical_optimizing hc] at hchain hconfig
    rcases lastFor_cases (u := u) p p p (c.schema.templates p) with ⟨h, -⟩ | ⟨t, rest, h, hrest, -, hlast⟩
    · simp only [h]
    · rw [h] at hchain hconfig ⊢
      have hrest' : rest = c.schema.templates t :=
        eq_of_suffix (Schema.nodup_templatesFrom hs hp c.schema.size)
          (hrest.trans (List.suffix_cons _ _)) hchain
      rw [← hrest', lastFor_congr hconfig, hlast]

end RestconfApi.Definitions
