import RestconfApi.Groupings
import RestconfApi.Proofs.Ending
import RestconfApi.Proofs.Schema.Following
import RestconfApi.Proofs.Schema.Paths

/-!
# Schema: look-ups that end

Types, leafrefs and groupings are looked up in bounded chains: no look-up runs out of depth, and none warns of a node
that contains itself.
-/

namespace RestconfApi

theorem Record.isBenign_of_ne {level : Level} (h : level ≠ .warning) (text : String) :
    (⟨level, text⟩ : Record).IsBenign :=
  fun hlevel => absurd hlevel h

namespace Schema

open Logged

variable {s : Schema}

/-! ### Typedefs -/

theorem ends_typeName (name owner : Name) : Failure.Ends (typeName name owner) := by
  refine Failure.ends_bind (Datum.ends_key? _) fun _ => Failure.ends_bind (Datum.ends_key? _) fun _ => ?_
  cases name with
  | scalar k => cases k <;> first | exact Failure.ends_ok _ | exact Failure.ends_error (by simp)
  | _ => exact Failure.ends_error (by simp)

theorem Follows.ends {seen : List (Name × String)} {enum : List String} {x : TypeUse} {out : Logged Resolved}
    (h : s.Follows seen enum x out) : out.Ends := by
  induction h with
  | builtin => exact ends_pure _
  | unreadable _ hname => exact ends_fail (ends_typeName _ _ _ hname)
  | again =>
    refine ends_bind (ends_write ?_) fun _ => ends_pure _
    intro _
    simp [toString]
  | unknown => exact ends_bind (ends_write (Record.isBenign_of_ne (by simp) _)) fun _ => ends_pure _
  | next _ _ _ _ ih => exact ih

theorem ends_effective (t : LeafType) (owner : Name) : (s.effective t owner).Ends := (follows_effective t owner).ends

/-! ### Leafrefs -/

/-- What has been passed are different nodes of the schema. -/
structure HasPassed (s : Schema) (seen : List Address) : Prop where
  places : ∀ a ∈ seen, ∃ q, s.Has q ∧ q.address = a
  nodup : seen.Nodup

theorem hasPassed_nil (s : Schema) : s.HasPassed [] := ⟨by simp, List.nodup_nil⟩

theorem HasPassed.cons {seen : List Address} (h : s.HasPassed seen) {p : Place} (hp : s.Has p)
    (hnew : p.address ∉ seen) : s.HasPassed (p.address :: seen) :=
  ⟨List.forall_mem_cons.mpr ⟨⟨p, hp, rfl⟩, h.places⟩, List.nodup_cons.mpr ⟨hnew, h.nodup⟩⟩

theorem HasPassed.length_le {seen : List Address} (h : s.HasPassed seen) : seen.length ≤ s.size := by
  have hsub : seen ⊆ s.places.map (·.address) := by
    intro a ha
    obtain ⟨q, hq, rfl⟩ := h.places a ha
    exact List.mem_map_of_mem hq.mem_places
  have hle := (List.Nodup.subperm h.nodup hsub).length_le
  rwa [List.length_map, length_places] at hle

theorem ends_concreteFrom {fuel : Nat} {seen : List Address} {p : Place} (hp : s.Has p) (hseen : s.HasPassed seen)
    (hfuel : s.size < seen.length + fuel) (start : String) (r : Resolved) :
    (s.concreteFrom start fuel seen p r).Ends := by
  induction fuel generalizing seen p r with
  | zero => exact absurd hseen.length_le (Nat.not_le_of_lt hfuel)
  | succ fuel ih =>
    unfold concreteFrom
    split
    · exact ends_pure _
    split
    · exact ends_fail (by simp)
    rename_i hnew
    refine ends_bind (ends_ofExcept (Datum.ends_text? _)) fun path => ?_
    dsimp only
    split
    · exact ends_fail (by simp)
    rename_i target htarget
    split
    · exact ends_fail (by simp)
    refine ends_bind (ends_write (Record.isBenign_of_ne (by simp) _)) fun _ =>
      ends_bind (ends_effective _ _) fun r => ?_
    refine ih (hp.of_node? htarget) (hseen.cons hp hnew) ?_ r
    rw [List.length_cons]
    omega

theorem ends_concreteOrString {p : Place} (hp : s.Has p) (t : LeafType) : (s.concreteOrString p t).Ends := by
  refine ends_tryCatch (ends_bind (ends_effective _ _) fun r => ?_) fun e he => ?_
  · exact ends_concreteFrom hp s.hasPassed_nil (by simp) _ r
  · cases e with
    | leafref fault =>
      refine ends_ite (ends_bind (ends_write ?_) fun _ => ends_pure _) (ends_fail (by simp))
      intro _
      simp [toString]
    | _ => exact ends_fail he

theorem ends_leafProperty {p : Place} (hp : s.Has p) : (s.leafProperty p).Ends := by
  unfold leafProperty
  split
  · exact ends_fail (by simp)
  · exact ends_bind (ends_effective _ _) fun _ => ends_bind (ends_concreteOrString hp _) fun _ => ends_pure _

end Schema

namespace Groupings

open Logged

theorem ends_isAncestorOf (g : Groupings) (candidate qname : String) : (g.isAncestorOf candidate qname).Ends := by
  unfold isAncestorOf
  split
  · exact ends_pure _
  · refine ends_bind (ends_write ?_) fun _ => ends_pure _
    intro _
    simp [toString]

theorem ends_ofSchema (s : Schema) : (Groupings.ofSchema s).Ends := by
  refine ends_bind (ends_forM (fun g => ends_bind (ends_ofExcept (Datum.ends_key? _)) fun _ => ends_pure ()) _)
    fun _ => ends_bind (ends_foldlM (fun parents g => ends_foldlM (fun parents ref => ?_) _ _) _ _) fun _ =>
      ends_pure _
  unfold addUse
  split
  · exact ends_pure _
  · refine ends_bind (ends_write ?_) fun _ => ends_pure _
    intro _
    simp

end Groupings

end RestconfApi
