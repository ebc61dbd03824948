import RestconfApi.Proofs.Schema.Independence

/-!
# Schema: when augments find their targets

The spots of an augment can be told from what is declared. A list of augments can be applied exactly if each of them
finds data nodes at the spots that it passes, in the schema or among what those before it have given.
-/

namespace RestconfApi

open Expansion

namespace Declaration.Augment

/-- The spots that the path to the target passes. -/
def spots? (s : Schema) (a : Augment) : Option (List Spot) := a.target.asText?.bind s.waypoints?

/-- The augment adds a data node at `x`, which is at or below the one that it adds to its target at `root`. -/
def Adds (s : Schema) (a : Augment) (root x : Spot) : Prop :=
  ∃ M added xs target names name, M.Unfolded s ∧ List.Forall₂ (Unfolds s M) a.nodes added ∧ a.spots? s = some xs ∧
    xs.getLast? = some target ∧ root = target.down [name] ∧ x = target.down (names ++ [name]) ∧
      ((Place.forest added).below? (names ++ [name])).isSome = true

theorem Adds.root {s : Schema} {a : Augment} {root x : Spot} (h : a.Adds s root x) : a.Adds s root root := by
  obtain ⟨M, added, xs, target, names, name, hM, hadded, hxs, htarget, rfl, rfl, hbelow⟩ := h
  refine ⟨M, added, xs, target, [], name, hM, hadded, hxs, htarget, rfl, rfl, ?_⟩
  rw [Place.below?_append] at hbelow
  cases hroot : (Place.forest added).below? [name] with
  | none =>
    rw [hroot] at hbelow
    cases hbelow
  | some _ => rw [List.nil_append, hroot]; rfl

theorem Adds.exists_target {s : Schema} {a : Augment} {root x : Spot} (h : a.Adds s root x) {xs : List Spot}
    {target : Spot} (hxs : a.spots? s = some xs) (htarget : xs.getLast? = some target) :
    target.module = x.module ∧ target.names <:+ x.names := by
  obtain ⟨M, added, xs', target', names, name, -, -, hxs', htarget', -, rfl, -⟩ := h
  obtain rfl := Option.some.inj (hxs.symm.trans hxs')
  obtain rfl := Option.some.inj (htarget.symm.trans htarget')
  exact ⟨rfl, names ++ [name], rfl⟩

/-- The spots of an augment, seen from where the modules stand before `f` moves them. -/
def graft (s : Schema) (f : Nat → Nat) (a : Augment) : Graft where
  passes := {x | ∃ xs, a.spots? s = some xs ∧ x.moved f ∈ xs}
  adds root := {x | a.Adds s (root.moved f) (x.moved f)}
  rooted h := h.root

/-- Neither path passes anything at or below the target of the other one. -/
def isApart (s : Schema) (a b : Augment) : Bool :=
  (a.spots? s).any fun xs => (b.spots? s).any fun ys => xs.getLast?.any fun x => ys.getLast?.any fun y =>
    ys.all (fun z => !decide (x.module = z.module ∧ x.names <:+ z.names)) &&
      xs.all fun z => !decide (y.module = z.module ∧ y.names <:+ z.names)

theorem isApart_comm (s : Schema) (a b : Augment) : a.isApart s b = true → b.isApart s a = true := by
  simp only [isApart, Option.any_eq_true, Bool.and_eq_true]
  rintro ⟨xs, hxs, ys, hys, x, hx, y, hy, hapart, hapart'⟩
  exact ⟨ys, hys, xs, hxs, y, hy, x, hx, hapart', hapart⟩

theorem not_bearsOn_of_isApart {s : Schema} {a b : Augment} (h : a.isApart s b = true) :
    ¬(a.graft s id).BearsOn (b.graft s id) := by
  simp only [isApart, Option.any_eq_true, Bool.and_eq_true, List.all_eq_true, Bool.not_eq_true',
    decide_eq_false_iff_not] at h
  obtain ⟨xs, hxs, ys, hys, x, hx, y, hy, hapart, hapart'⟩ := h
  rintro ⟨root, z, hadds, ⟨ys', hys', hz⟩ | ⟨root', hadds'⟩⟩
  · obtain rfl := Option.some.inj (hys.symm.trans hys')
    exact hapart z hz (Adds.exists_target hadds hxs hx)
  · -- of two targets above one spot one is above the other
    obtain ⟨hmodule, hnames⟩ := Adds.exists_target hadds hxs hx
    obtain ⟨hmodule', hnames'⟩ := Adds.exists_target hadds' hys hy
    rcases List.suffix_or_suffix_of_suffix hnames hnames' with hsuffix | hsuffix
    · exact hapart y (List.mem_of_getLast? hy) ⟨hmodule.trans hmodule'.symm, hsuffix⟩
    · exact hapart' x (List.mem_of_getLast? hx) ⟨hmodule'.trans hmodule.symm, hsuffix⟩

/-- Augments in different parts of the trees do not bear on each other. -/
theorem independent_of_isApart {s : Schema} {a b : Augment} (h : a.isApart s b = true) :
    (a.graft s id).Independent (b.graft s id) :=
  ⟨not_bearsOn_of_isApart h, not_bearsOn_of_isApart (isApart_comm s a b h)⟩

end Declaration.Augment

namespace Schema

variable {s S : Schema} {M : Expanded}

/-- The spots at which there are data nodes, seen from where the modules stand before `f` moves them. -/
def there (s : Schema) (f : Nat → Nat) : Set Spot := {x | (s.spot? (x.moved f)).isSome = true}

theorem ne_nil_of_passed? {steps : List String} {xs : List Spot} (h : s.passed? steps none = some xs) : xs ≠ [] := by
  induction steps with
  | nil => cases h
  | cons step steps ih =>
    rw [passed?] at h
    split at h
    · exact ih h
    · obtain ⟨x, -, h⟩ := Option.bind_eq_some_iff.mp h
      obtain ⟨xs', -, rfl⟩ := Option.map_eq_some_iff.mp h
      simp

theorem ne_nil_of_waypoints? {path : String} {xs : List Spot} (h : s.waypoints? path = some xs) : xs ≠ [] := by
  rw [waypoints?] at h
  split at h
  · exact ne_nil_of_passed? h
  · cases h

theorem waypoints?_congr (hposition : ∀ tag, S.position? tag = s.position? tag) (path : String) :
    S.waypoints? path = s.waypoints? path := by
  have hmap : ∀ tag, S.position? tag = (s.position? tag).map id := by simpa using hposition
  have hmoved := waypoints?_moved hmap path
  have hid : (Spot.moved id) = id := rfl
  simpa [hid] using hmoved

/-- An augment that is applied gives what it adds. -/
theorem there_appendAt {f : Equiv.Perm Nat} (hM : M.Unfolded s) {a : Declaration.Augment} {added : List Node}
    (hadded : List.Forall₂ (Unfolds s M) a.nodes added) {xs : List Spot} (hxs : a.spots? s = some xs) {target : Spot}
    (htarget : xs.getLast? = some target) {p : Place} (hp : S.spot? target = some p) :
    (S.appendAt p.address added).there f = (a.graft s f).grow (S.there f) := by
  ext x
  have hroots : ∀ name, ((target.down [name]).moved f.symm).moved f = target.down [name] := by simp [Spot.moved]
  have hiff := isSome_spot?_appendAt added hp (x.moved f)
  constructor
  · intro hx
    rcases hiff.mp hx with hthere | ⟨names, name, hdown, hnone, hbelow⟩
    · exact .inl hthere
    · refine .inr ⟨(target.down [name]).moved f.symm, ?_, ?_⟩
      · intro hroot
        rw [there, Set.mem_ofPred_eq, hroots, hnone] at hroot
        cases hroot
      · exact ⟨M, added, xs, target, names, name, hM, hadded, hxs, htarget, hroots name, hdown, hbelow⟩
  · rintro (hthere | ⟨root, hroot, M', added', xs', target', names, name, hM', hadded', hxs', htarget', hrootname,
      hdown, hbelow⟩)
    · exact hiff.mpr (.inl hthere)
    · obtain rfl := Option.some.inj (hxs.symm.trans hxs')
      obtain rfl := Option.some.inj (htarget.symm.trans htarget')
      obtain rfl := eq_of_forall₂ hadded hadded' fun _ _ _ hn hn' => hn.eq (hM.agrees hM') hn'
      refine hiff.mpr (.inr ⟨names, name, hdown, ?_, hbelow⟩)
      rw [there, Set.mem_ofPred_eq, hrootname] at hroot
      simpa using hroot

/-- Augments can be applied one after the other if each of them finds what it passes. -/
theorem exists_grafts_iff {f : Equiv.Perm Nat} (hM : M.Unfolded s) {augments : List Declaration.Augment}
    (hposition : ∀ tag, S.position? tag = s.position? tag) : (∃ T, Grafts s M augments S T) ↔
      (∀ a ∈ augments, (∃ xs, a.spots? s = some xs) ∧ ∃ added, List.Forall₂ (Unfolds s M) a.nodes added) ∧
        Graft.Runs (S.there f) (augments.map (·.graft s f)) := by
  have happend : ∀ {S : Schema} {p : Place} (added : List Node), IsTarget S p →
      (∀ tag, S.position? tag = s.position? tag) →
        ∀ tag, (S.appendAt p.address added).position? tag = s.position? tag := by
    intro S p added hp hposition tag
    have hgrows := (growsTo_appendAt hp added).position tag
    rw [hgrows, Option.map_id, id, hposition]
  constructor
  · rintro ⟨T, hgrafts⟩
    induction hgrafts with
    | nil => exact ⟨nofun, trivial⟩
    | @cons a as S T path p added hpath hp hadded _ ih =>
      have htarget := isTarget_of_node? hp
      obtain ⟨xs, hxs, hall, hlast⟩ := node?_eq_some_iff.mp hp
      obtain ⟨target, hlast, hspot⟩ := Option.bind_eq_some_iff.mp hlast
      have hspots : a.spots? s = some xs := by
        rw [Declaration.Augment.spots?, hpath, Option.bind_some, ← waypoints?_congr hposition, hxs]
      obtain ⟨hvalid, hruns⟩ := ih (happend added htarget hposition)
      refine ⟨fun b hb => ?_, ?_, ?_⟩
      · rcases List.mem_cons.mp hb with rfl | hb
        · exact ⟨⟨xs, hspots⟩, added, hadded⟩
        · exact hvalid b hb
      · rintro x ⟨xs', hxs', hx⟩
        obtain rfl := Option.some.inj (hspots.symm.trans hxs')
        exact hall _ hx
      · rwa [there_appendAt hM hadded hspots hlast hspot] at hruns
  · induction augments generalizing S with
    | nil => exact fun _ => ⟨S, .nil S⟩
    | cons a as ih =>
      rintro ⟨hvalid, hpasses, hruns⟩
      obtain ⟨⟨xs, hxs⟩, added, hadded⟩ := hvalid a List.mem_cons_self
      obtain ⟨path, hpath, hwaypoints⟩ := Option.bind_eq_some_iff.mp hxs
      have hne := ne_nil_of_waypoints? hwaypoints
      have hfound : ∀ x ∈ xs, (S.spot? x).isSome = true := by
        intro x hx
        have hmoved : (x.moved f.symm).moved f = x := by simp [Spot.moved]
        have hthere := hpasses ⟨xs, hxs, hmoved.symm ▸ hx⟩
        rwa [there, Set.mem_ofPred_eq, hmoved] at hthere
      have hlast := List.getLast?_eq_some_getLast hne
      obtain ⟨p, hspot⟩ := Option.isSome_iff_exists.mp (hfound _ (List.getLast_mem hne))
      have hp : S.node? path none = some p := by
        rw [← waypoints?_congr hposition] at hwaypoints
        exact node?_eq_some_iff.mpr ⟨xs, hwaypoints, hfound, by rw [hlast, Option.bind_some, hspot]⟩
      rw [← there_appendAt hM hadded hxs hlast hspot] at hruns
      obtain ⟨T, hgrafts⟩ := ih (happend added (isTarget_of_node? hp) hposition)
        ⟨fun b hb => hvalid b (List.mem_cons_of_mem _ hb), hruns⟩
      exact ⟨T, .cons hpath hp hadded hgrafts⟩

end Schema

end RestconfApi
