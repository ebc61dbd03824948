import RestconfApi.Proofs.Generation.Routes
import RestconfApi.Proofs.Generation.Stops
import RestconfApi.Proofs.Schema.Loaded

/-!
# Generation: the paths of different modules

The first name on a path is qualified with the module that is walked through, which owns it: that of an rpc, and that
of the outermost container or list on a route. So modules of different names have no path in common.
-/

namespace RestconfApi

/-- A path leads into the data or the rpcs of a module of a given name. -/
def LeadsInto (name path : String) : Prop :=
  ∃ rest, path = "/data/" ++ name ++ ":" ++ rest ∨ path = "/operations/" ++ name ++ ":" ++ rest

/-- A path tells the name of the module that it leads into, unless there are colons in names. -/
theorem LeadsInto.eq {name name' path : String} (h : LeadsInto name path) (h' : LeadsInto name' path)
    (hcolon : ':' ∉ name.toList) (hcolon' : ':' ∉ name'.toList) : name = name' := by
  have hcut : ∀ {root name rest : String}, ':' ∉ root.toList → ':' ∉ name.toList →
      Text.cutFirst ':' (root ++ name ++ ":" ++ rest).toList = some (root.toList ++ name.toList, rest.toList) := by
    intro root name rest hroot hname
    rw [String.toList_append, String.toList_append, String.toList_append, List.append_assoc]
    exact Text.cutFirst_append (by simp [hroot, hname]) _
  have hread : ∀ {name}, LeadsInto name path → ':' ∉ name.toList → ∃ rest,
      Text.cutFirst ':' path.toList = some ("/data/".toList ++ name.toList, rest) ∨
        Text.cutFirst ':' path.toList = some ("/operations/".toList ++ name.toList, rest) := by
    rintro name ⟨rest, rfl | rfl⟩ hname
    · exact ⟨rest.toList, .inl (hcut (by decide) hname)⟩
    · exact ⟨rest.toList, .inr (hcut (by decide) hname)⟩
  obtain ⟨rest, hread₁⟩ := hread h hcolon
  obtain ⟨rest', hread₂⟩ := hread h' hcolon'
  apply String.toList_injective
  rcases hread₁ with h₁ | h₁ <;> rcases hread₂ with h₂ | h₂ <;>
    have heq := (Prod.mk.inj (Option.some.inj (h₁.symm.trans h₂))).1
  · exact List.append_cancel_left heq
  · simp at heq
  · simp at heq
  · exact List.append_cancel_left heq

namespace Segment

/-- The outermost segment below the root stands for a node that the module of the root owns. -/
def IsOwned (name : String) (s : Segment) : Prop :=
  ∃ n readOnly keys, s.chain.head? = some (.step (.root (.text name) 0) n (.text name) readOnly keys 0)

variable {name : String} {s above : Segment}

theorem isOwned_push_root {n owner : Name} (howner : owner = .text name) (readOnly : Bool) (keys : List Name) :
    ((Segment.root (.text name) 0).push n owner readOnly keys 0).IsOwned name := by
  refine ⟨n, readOnly, keys, ?_⟩
  subst howner
  unfold push
  simp [chain, Segment.owner]

theorem IsOwned.push (h : above.IsOwned name) (n owner : Name) (readOnly : Bool) (keys : List Name) :
    (above.push n owner readOnly keys 0).IsOwned name := by
  obtain ⟨n', readOnly', keys', hhead⟩ := h
  exact ⟨n', readOnly', keys', by simp [Segment.push, chain, hhead]⟩

theorem exists_join_cons (sep t : String) (ts : List String) : ∃ rest, Text.join sep (t :: ts) = t ++ rest := by
  cases ts with
  | nil => exact ⟨"", (String.append_empty).symm⟩
  | cons t' ts =>
    refine ⟨sep ++ Text.join sep (t' :: ts), ?_⟩
    rw [Text.join, String.append_assoc]
    simp

/-- What the outermost segment contributes comes first in the path. -/
theorem IsOwned.path (h : s.IsOwned name) : ∃ rest, s.path = "/" ++ name ++ ":" ++ rest := by
  obtain ⟨n, readOnly, keys, hhead⟩ := h
  obtain ⟨more, hchain⟩ := List.head?_eq_some_iff.mp hhead
  have hshown : (Segment.step (.root (.text name) 0) n (.text name) readOnly keys 0).shownName =
      .text (name ++ ":" ++ n.wording) := rfl
  have hlabel : ∃ rest, (Segment.step (.root (.text name) 0) n (.text name) readOnly keys 0).label =
      name ++ ":" ++ rest := by
    unfold label
    dsimp only
    rw [hshown]
    split
    · exact ⟨n.wording, rfl⟩
    · generalize Text.join "," _ = parameters
      refine ⟨n.wording ++ ("=" ++ parameters), ?_⟩
      show name ++ ":" ++ n.wording ++ "=" ++ parameters = _
      simp only [String.append_assoc]
  obtain ⟨rest, hlabel⟩ := hlabel
  obtain ⟨rest', hjoin⟩ := exists_join_cons "/" (name ++ ":" ++ rest) (more.map label)
  refine ⟨rest ++ rest', ?_⟩
  rw [Segment.path, hchain, List.map_cons, hlabel, hjoin]
  simp [String.append_assoc]

end Segment

namespace Generation

variable {s : Schema} {i : Nat} {p : Place} {passed : List Place}

section

variable {augmented : Prop} {declared : Schema} {M : Expansion.Expanded}
  (hfrom : Schema.LoadedFrom augmented declared M s) (hcases : HasCases s) {m : Module}
  (hm : s.modules[i]? = some m)
include hfrom hcases hm

/-- What is reached through choices alone is owned by the module. -/
theorem Route.owner (h : Route s i p passed) (hpassed : ∀ q ∈ passed, ¬q.node.kind.isStructural = true) :
    p.node.owner = m.name := by
  induction h with
  | top hp => exact hfrom.owner_of_mem_tops hm hp
  | inside _ hk _ _ => exact absurd hk (hpassed _ List.mem_cons_self)
  | @through q y x passed j k hq hchoice hy hx ih =>
    have hqowner := ih fun r hr => hpassed r (List.mem_cons_of_mem _ hr)
    have htransparent : q.node.kind.isTransparent = true := by rw [hchoice]; rfl
    have hcase : y.node.kind = .case := (hcases hq.has hq.part hy).mpr hchoice
    have hytransparent : y.node.kind.isTransparent = true := by rw [hcase]; rfl
    have hyhas := hq.has.childAt? hy
    exact (hfrom.traced.owner hyhas (fun _ => hytransparent) hx).trans
      ((hfrom.traced.owner hq.has (fun _ => htransparent) hy).trans hqowner)

/-- On a route there is no segment yet, or the outermost one is owned by the module. -/
theorem Route.isOwned_or {name : String} (hname : m.name = .text name) (h : Route s i p passed) :
    (∀ q ∈ passed, ¬q.node.kind.isStructural = true) ∧ routeSegment m.name passed = .root m.name 0 ∨
      (routeSegment m.name passed).IsOwned name := by
  induction h with
  | top _ => exact .inl ⟨by simp, rfl⟩
  | @inside q x passed j hq hk _ ih =>
    rw [routeSegment_cons hk]
    rcases ih with ⟨hpassed, hroot⟩ | howned
    · rw [hroot, hname]
      exact .inr (Segment.isOwned_push_root ((hq.owner hfrom hcases hm hpassed).trans hname) _ _)
    · exact .inr (howned.push _ _ _ _)
  | @through q y x passed j k hq hchoice _ _ ih =>
    have hk : ¬q.node.kind.isStructural = true := by simp [hchoice, Kind.isStructural]
    rw [routeSegment_cons_of_not hk]
    exact ih.imp (fun h => ⟨List.forall_mem_cons.mpr ⟨hk, h.1⟩, h.2⟩) id

theorem IsOnWalk.isOwned {selected : List Name} {limit : Option Nat} {name : String} (hname : m.name = .text name)
    (h : IsOnWalk s selected limit i p passed) : (routeSegment m.name (p :: passed)).IsOwned name := by
  rw [routeSegment_cons h.structural]
  rcases h.route.isOwned_or hfrom hcases hm hname with ⟨hpassed, hroot⟩ | howned
  · rw [hroot, hname]
    exact Segment.isOwned_push_root ((h.route.owner hfrom hcases hm hpassed).trans hname) _ _
  · exact howned.push _ _ _ _

end

end Generation

end RestconfApi
