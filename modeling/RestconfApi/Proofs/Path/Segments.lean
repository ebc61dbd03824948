import Mathlib.Data.List.TakeWhile
import RestconfApi.Path.Operations
import RestconfApi.Proofs.Path.Parameters
import RestconfApi.Proofs.Schema.Paths
import RestconfApi.Proofs.Swagger.Likeness

/-!
# Paths: the segments of nodes

The path of a node has one segment for every container and list on the way to it. When names are identifiers,
the segments can be read off from the path again, and each tells the name and the owner of its node.
-/

namespace RestconfApi

namespace Segment

/-! ### Labels -/

theorem path?_ok {s : Segment} {path : String} (h : s.path? = .ok path) : path = s.path := by
  unfold path? at h
  split at h
  · exact (Except.ok.inj h).symm
  · cases h

/-- All names, owners and keys of a chain of segments are identifiers. -/
def IsPlain : Segment → Prop
  | .root _ _ => True
  | .step above name owner _ keys _ =>
    above.IsPlain ∧ name.IsIdentifier ∧ owner.IsIdentifier ∧ ∀ key ∈ keys, Datum.IsIdentifier key

theorem not_mem_join {c : Char} {sep : String} (hsep : c ∉ sep.toList) {texts : List String}
    (h : ∀ t ∈ texts, c ∉ t.toList) : c ∉ (Text.join sep texts).toList := by
  induction texts with
  | nil => simp [Text.join]
  | cons t texts ih =>
    have ht := h t List.mem_cons_self
    cases texts with
    | nil => exact ht
    | cons t' texts =>
      rw [Text.join, String.toList_append, String.toList_append, List.mem_append, List.mem_append, not_or, not_or]
      · exact ⟨⟨ht, hsep⟩, ih fun t ht => h t (List.mem_cons_of_mem _ ht)⟩
      · simp

variable {above above' : Segment} {name name' owner owner' : Name} {readOnly readOnly' : Bool}
  {keys keys' : List Name} {visit visit' : Nat}

theorem not_mem_shownName {c : Char} (hc : Text.isIdentifierChar c = false) (hcolon : c ≠ ':')
    (h : (Segment.step above name owner readOnly keys visit).IsPlain) :
    c ∉ (Segment.step above name owner readOnly keys visit).shownName.wording.toList := by
  obtain ⟨-, hname, howner, -⟩ := h
  simp only [shownName]
  generalize (if above.isRoot = true then Datum.null else above.owner) = outer
  by_cases ho : (outer == owner) = true
  · rw [if_pos ho]
    exact hname.not_mem hc
  · rw [if_neg ho]
    show c ∉ (owner.wording ++ ":" ++ name.wording).toList
    simp [howner.not_mem hc, hname.not_mem hc, hcolon]

/-- No label of a plain chain has a slash in it. -/
theorem not_mem_label (h : (Segment.step above name owner readOnly keys visit).IsPlain) :
    '/' ∉ (Segment.step above name owner readOnly keys visit).label.toList := by
  have hshown := not_mem_shownName (c := '/') (by decide) (by decide) h
  obtain ⟨-, hname, -, hkeys⟩ := h
  unfold label
  dsimp only
  split
  · exact hshown
  · have hparameters : '/' ∉ (Text.join "," ((keyParameters (.step above name owner readOnly keys visit)
        (above.parameters.map (·.name)) keys).map fun p => "\x7b" ++ p.name ++ "\x7d")).toList := by
      refine not_mem_join (by decide) fun t ht => ?_
      obtain ⟨p, hp, rfl⟩ := List.mem_map.mp ht
      have hslash := hname.not_mem (c := '/') (by decide)
      have := not_mem_keyParameters (.step above name owner readOnly keys visit) (by decide) (by decide) hslash
        (fun key hkey => (hkeys key hkey).not_mem (by decide)) _ p hp
      simp [this]
    simp [hshown, hparameters]

/-- What stands before the equals sign of a label is the name that is shown. -/
theorem takeWhile_label (h : (Segment.step above name owner readOnly keys visit).IsPlain) :
    (Segment.step above name owner readOnly keys visit).label.toList.takeWhile (· ≠ '=') =
      (Segment.step above name owner readOnly keys visit).shownName.wording.toList := by
  have hshown := not_mem_shownName (c := '=') (by decide) (by decide) h
  have hall : ∀ c ∈ (Segment.step above name owner readOnly keys visit).shownName.wording.toList,
      decide (c ≠ '=') = true := fun c hc => decide_eq_true fun heq => hshown (heq ▸ hc)
  unfold label
  dsimp only
  split
  · exact List.takeWhile_eq_self_iff.mpr hall
  · rw [String.toList_append, String.toList_append, List.append_assoc, List.takeWhile_append_of_pos hall]
    simp

/-- Below segments that are alike for their owners, a label tells the name and the owner. -/
theorem label_inj (h : (Segment.step above name owner readOnly keys visit).IsPlain)
    (h' : (Segment.step above' name' owner' readOnly' keys' visit').IsPlain)
    (houter : (if above.isRoot then Datum.null else above.owner) =
      (if above'.isRoot then Datum.null else above'.owner))
    (hlabel : (Segment.step above name owner readOnly keys visit).label =
      (Segment.step above' name' owner' readOnly' keys' visit').label) :
    name = name' ∧ owner = owner' := by
  have hshown := takeWhile_label h
  rw [hlabel, takeWhile_label h'] at hshown
  replace hshown := String.toList_injective hshown
  obtain ⟨-, hname, howner, -⟩ := h
  obtain ⟨-, hname', howner', -⟩ := h'
  simp only [shownName] at hshown
  rw [houter] at hshown
  generalize (if above'.isRoot = true then Datum.null else above'.owner) = outer at hshown
  -- a qualified name has a colon in it, and an identifier has none
  have hcolon : ∀ {o n n' : Name}, n'.IsIdentifier → o.wording ++ ":" ++ n.wording ≠ n'.wording := by
    intro o n n' hn' heq
    refine hn'.not_mem (c := ':') (by decide) ?_
    rw [← heq]
    simp
  by_cases ho : (outer == owner) = true <;> by_cases ho' : (outer == owner') = true
  · rw [if_pos ho, if_pos ho'] at hshown
    refine ⟨hname.wording_inj hname' hshown.symm, ?_⟩
    obtain ⟨t, rfl, -⟩ := howner
    obtain ⟨t', rfl, -⟩ := howner'
    obtain ⟨j, rfl, hj⟩ := Datum.beq_scalar_iff.mp ho
    obtain ⟨j', hjj', hj'⟩ := Datum.beq_scalar_iff.mp ho'
    obtain rfl := Datum.scalar.inj hjj'
    obtain rfl := Scalar.eq_text_of_beq hj
    simpa using hj'
  · rw [if_pos ho, if_neg ho'] at hshown
    exact absurd hshown (hcolon hname)
  · rw [if_neg ho, if_pos ho'] at hshown
    exact absurd hshown.symm (hcolon hname')
  · rw [if_neg ho, if_neg ho'] at hshown
    have hsplit := congrArg (fun t => Text.splitOn ':' (String.toList t)) hshown
    have hread : ∀ {o n : Name}, o.IsIdentifier → n.IsIdentifier →
        Text.splitOn ':' (o.wording ++ ":" ++ n.wording).toList = [o.wording.toList, n.wording.toList] := by
      intro o n ho hn
      rw [String.toList_append, String.toList_append, List.append_assoc]
      show Text.splitOn ':' (o.wording.toList ++ ':' :: n.wording.toList) = _
      rw [Text.splitOn_append_cons (ho.not_mem (by decide)), Text.splitOn_eq_singleton (hn.not_mem (by decide))]
    have heq : [owner'.wording.toList, name'.wording.toList] = [owner.wording.toList, name.wording.toList] := by
      rw [← hread howner hname, ← hread howner' hname']
      exact hsplit
    simp only [List.cons.injEq, and_true] at heq
    exact ⟨hname.wording_inj hname' (String.toList_injective heq.2.symm),
      howner.wording_inj howner' (String.toList_injective heq.1.symm)⟩

/-! ### Paths -/

theorem not_mem_labels : ∀ {s : Segment}, s.IsPlain → ∀ t ∈ s.chain.map label, '/' ∉ t.toList
  | .root _ _, _, t, ht => by simp [chain] at ht
  | .step above name owner readOnly keys visit, h, t, ht => by
    rw [chain, List.map_append, List.mem_append] at ht
    rcases ht with ht | ht
    · exact not_mem_labels h.1 t ht
    · obtain rfl := List.mem_singleton.mp ht
      exact not_mem_label h

theorem chain_ne_nil {s : Segment} (h : s.isRoot = false) : s.chain ≠ [] := by
  cases s with
  | root _ _ => cases h
  | step _ _ _ _ _ _ => simp [chain]

/-- A path tells the labels of its segments. -/
theorem path_inj {s s' : Segment} (hs : s.IsPlain) (hs' : s'.IsPlain) (hroot : s.isRoot = false)
    (hroot' : s'.isRoot = false) (h : s.path = s'.path) : s.chain.map label = s'.chain.map label := by
  have hjoin : Text.join "/" (s.chain.map label) = Text.join "/" (s'.chain.map label) := by
    have := congrArg String.toList h
    simp only [path, String.toList_append, List.append_cancel_left_eq] at this
    exact String.toList_injective this
  refine Text.join_inj (c := '/') rfl ?_ ?_ (not_mem_labels hs) (not_mem_labels hs') hjoin
  · simpa using chain_ne_nil hroot
  · simpa using chain_ne_nil hroot'

end Segment

namespace Schema

variable (s : Schema)

/-- The name of the module at a position. -/
def moduleName (i : Nat) : Name := (s.modules[i]?.map (·.name)).getD .null

/-- The segment that nodes below each other lead to, the innermost first, in a module of a given name. -/
def segmentOf (root : Name) : List Node → Segment
  | [] => .root root 0
  | n :: above =>
    if n.kind.isStructural then
      (segmentOf root above).push n.name n.owner (!n.config)
        (if n.kind = .list then n.keys.map Datum.text else []) 0
    else segmentOf root above

/-- The segment of a container or a list. -/
def segment (p : Place) : Segment := segmentOf (s.moduleName p.address.module) (p.node :: p.above)

/-- The path of a container or a list. -/
def dataPath (p : Place) : Scalar := .text ("/data" ++ (s.segment p).path)

end Schema

/-- What can be done with data: operational state can only be read. -/
def Handler.methods (readOnly : Bool) : List Scalar :=
  .text "get" :: if readOnly then [] else [.text "put", .text "post", .text "delete"]

end RestconfApi
