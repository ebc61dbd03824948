import RestconfApi.Proofs.Generation.Operations
import RestconfApi.Proofs.Generation.PathSet
import RestconfApi.Proofs.Lists

/-!
# Generation: path parameters

The operations on a container or a list have the parameters that their path shows: one for each key of the lists that
the path leads through, with the type of the key leaf.
-/

namespace RestconfApi

open Definitions Generation

/-! ### The owners of segments -/

namespace Generation

/-- The keys on a route, from the outermost list to the innermost, each with its list. -/
def pathKeys (passed : List Place) : List (Place × String) :=
  passed.reverse.flatMap fun q => if q.node.kind = .list then q.node.keys.map fun key => (q, key) else []

/-- The containers and lists on a route with their segments, the outermost first. -/
def segmentOwners (root : Name) : List Place → List (Segment × Place)
  | [] => []
  | q :: passed =>
    if q.node.kind.isStructural then segmentOwners root passed ++ [(routeSegment root (q :: passed), q)]
    else segmentOwners root passed

variable {root : Name} {q : Place} {passed : List Place} {h : Handler}

theorem depth_le_of_mem_segmentOwners {e : Segment × Place} (he : e ∈ segmentOwners root passed) :
    e.1.depth ≤ (routeSegment root passed).depth := by
  induction passed with
  | nil => simp [segmentOwners] at he
  | cons q passed ih =>
    rw [segmentOwners] at he
    split at he
    · rename_i hk
      rcases List.mem_append.mp he with he | he
      · have hdepth := ih he
        rw [routeSegment_cons hk, Segment.depth_push]
        omega
      · rw [List.mem_singleton.mp he]
    · rename_i hk
      rw [routeSegment_cons_of_not hk]
      exact ih he

/-- No segment above agrees with that of a container or a list. -/
theorem get?_segmentOwners_eq_none (hk : q.node.kind.isStructural = true) :
    Entries.get? (routeSegment root (q :: passed)) (segmentOwners root passed) = none := by
  refine Entries.get?_eq_none_iff.mpr fun seg hseg => ?_
  obtain ⟨e, he, rfl⟩ := List.mem_map.mp hseg
  by_contra hbeq
  have hdepth := Segment.depth_eq_of_beq (by simpa using hbeq)
  have hle := depth_le_of_mem_segmentOwners he
  rw [hdepth, routeSegment_cons hk, Segment.depth_push] at hle
  omega

/-- At the end of a route a handler knows what stands behind each segment. -/
theorem owners_routeHandler (hh : h.owners = []) : (routeHandler h root passed).owners = segmentOwners root passed := by
  induction passed with
  | nil => exact hh
  | cons q passed ih =>
    rw [routeHandler, segmentOwners]
    split
    · rename_i hk
      show Entries.put _ q (routeHandler h root passed).owners = _
      rw [ih, Entries.put_of_get?_none (get?_segmentOwners_eq_none hk)]
    · exact ih

/-- The owners of the nodes on a route, and all names and keys on it, are texts without braces. -/
def AreUnbraced (root : Name) (passed : List Place) : Prop :=
  root.IsUnbraced ∧ ∀ q ∈ passed, q.node.name.IsUnbraced ∧ q.node.owner.IsUnbraced ∧ q.node.owner.holds = true ∧
    ∀ key ∈ q.node.keys, Text.IsUnbraced key

theorem AreUnbraced.tail (hu : AreUnbraced root (q :: passed)) : AreUnbraced root passed :=
  ⟨hu.1, fun r hr => hu.2 r (List.mem_cons_of_mem _ hr)⟩

theorem AreUnbraced.routeSegment (hu : AreUnbraced root passed) : (routeSegment root passed).IsUnbraced := by
  induction passed with
  | nil => exact hu.1
  | cons q passed ih =>
    by_cases hk : q.node.kind.isStructural = true
    · obtain ⟨hname, howner, hholds, hkeys⟩ := hu.2 q List.mem_cons_self
      rw [routeSegment_cons hk, Segment.push, if_pos hholds]
      refine ⟨ih hu.tail, hname, howner, fun key hkey => ?_⟩
      split at hkey
      · obtain ⟨k, hk, rfl⟩ := List.mem_map.mp hkey
        exact ⟨k, rfl, hkeys k hk⟩
      · simp at hkey
    · rw [routeSegment_cons_of_not hk]
      exact ih hu.tail

/-- The owner of a segment on a route is found under it. -/
theorem get?_segmentOwners (hu : AreUnbraced root passed) {e : Segment × Place}
    (he : e ∈ segmentOwners root passed) : Entries.get? e.1 (segmentOwners root passed) = some e.2 := by
  induction passed with
  | nil => simp [segmentOwners] at he
  | cons q passed ih =>
    by_cases hk : q.node.kind.isStructural = true
    · rw [segmentOwners, if_pos hk] at he ⊢
      rcases List.mem_append.mp he with he | he
      · rw [Entries.get?_append, ih hu.tail he]
        rfl
      · rw [List.mem_singleton.mp he, Entries.get?_append, get?_segmentOwners_eq_none hk, Entries.get?,
          if_pos hu.routeSegment.beq_self]
        rfl
    · rw [segmentOwners, if_neg hk] at he ⊢
      exact ih hu.tail he

/-- The parameters of a path are for the keys on the route, and their segments are those of the lists. -/
theorem forall₂_pathKeys (root : Name) (passed : List Place) :
    List.Forall₂ (fun key p => (p.segment, key.1) ∈ segmentOwners root passed ∧ p.key = .text key.2)
      (pathKeys passed) (routeSegment root passed).parameters := by
  induction passed with
  | nil => exact .nil
  | cons q passed ih =>
    have hkeys : pathKeys (q :: passed) = pathKeys passed ++
        if q.node.kind = .list then q.node.keys.map fun key => (q, key) else [] := by
      simp [pathKeys]
    by_cases hk : q.node.kind.isStructural = true
    · have hown : ∀ (seg : Segment) (keys : List String) (used : List String),
          (seg, q) ∈ segmentOwners root (q :: passed) →
          List.Forall₂ (fun key p => (p.segment, key.1) ∈ segmentOwners root (q :: passed) ∧ p.key = .text key.2)
            (keys.map fun key => (q, key)) (Segment.keyParameters seg used (keys.map Datum.text)) := by
        intro seg keys used hmem
        induction keys generalizing used with
        | nil => exact .nil
        | cons key keys ih => exact .cons ⟨hmem, rfl⟩ (ih _)
      have hmem : (routeSegment root (q :: passed), q) ∈ segmentOwners root (q :: passed) := by
        rw [segmentOwners, if_pos hk]
        exact List.mem_append_right _ (List.mem_singleton.mpr rfl)
      rw [hkeys, routeSegment_cons hk, Segment.parameters_push]
      rw [routeSegment_cons hk] at hmem
      have hbefore := ih.imp (S := fun key p => (p.segment, key.1) ∈ segmentOwners root (q :: passed) ∧
          p.key = .text key.2) fun key p hp => by
        rw [segmentOwners, if_pos hk]
        exact ⟨List.mem_append_left _ hp.1, hp.2⟩
      refine List.rel_append hbefore ?_
      rw [Segment.own_push]
      by_cases hlist : q.node.kind = .list
      · rw [if_pos hlist] at hmem
        rw [if_pos hlist, if_pos hlist]
        exact hown _ _ _ hmem
      · rw [if_neg hlist, if_neg hlist]
        exact .nil
    · rw [hkeys, routeSegment_cons_of_not hk, segmentOwners, if_neg hk, if_neg, List.append_nil]
      · exact ih
      · intro hlist
        simp [hlist, Kind.isStructural] at hk

end Generation

/-! ### Types -/

/-- A parameter has type and format of the key leaf of a list, or those of a text if the list has no such child. -/
inductive Parameter.IsTypedFor (s : Schema) (key : Place × String) (q : Parameter) : Prop
  | leaf {leaf : Place} {property : Property} : key.1.child? (.text key.2) = some leaf →
      (s.leafProperty leaf).result = .ok property → q.type = property.type → q.format = property.format →
      IsTypedFor s key q
  | missing : key.1.child? (.text key.2) = none → q.type = .text "string" → q.format = .null → IsTypedFor s key q

/-- What an operation on data has in its path: it is for a container or a list at the end of a route, whose path it is
found under, and has a parameter for each key on the route, named in the path and typed like the key leaf. -/
structure Operation.HasPathOf (s : Schema) (path : String) (o : Operation) (i : Nat) (p : Place)
    (passed : List Place) : Prop where
  route : Route s i p passed
  structural : p.node.kind.isStructural = true
  found : path = "/data" ++ (routeSegment (s.moduleName i) (p :: passed)).path
  names : (Handler.inPath o).map (·.name) = (Text.braced path).map Datum.text
  types : List.Forall₂ (Parameter.IsTypedFor s) (pathKeys (p :: passed)) (Handler.inPath o)

/-- The names of modules, and in data the names and keys of nodes, are identifiers. -/
structure Schema.IsIdentified (s : Schema) : Prop where
  modules : ∀ m ∈ s.modules, m.name.IsIdentifier
  names : ∀ p, s.Has p → p.address.part = .data →
    p.node.name.IsIdentifier ∧ ∀ key ∈ p.node.keys, Text.isIdentifier key = true

theorem Text.isUnbraced_of_isIdentifier {t : String} (h : Text.isIdentifier t = true) : Text.IsUnbraced t :=
  ⟨Text.not_mem_of_isIdentifier h (by decide), Text.not_mem_of_isIdentifier h (by decide)⟩

theorem Datum.IsIdentifier.isUnbraced {name : Name} (h : name.IsIdentifier) : name.IsUnbraced := by
  obtain ⟨t, rfl, ht⟩ := h
  exact ⟨t, rfl, Text.isUnbraced_of_isIdentifier ht⟩

namespace Generation

variable {s : Schema}

/-- An owner that is selected has the name of a module. -/
theorem isIdentifier_of_selected (hs : s.IsIdentified) {names : List Name} {modules : List (Module × Nat)}
    (hselect : (select s names).result = .ok modules) {owner : Name}
    (h : (modules.map (·.1.name)).contains owner = true) : owner.IsIdentifier := by
  obtain ⟨name, hname, hbeq⟩ := List.contains_iff_exists_mem_beq.mp h
  obtain ⟨m, hm, rfl⟩ := List.mem_map.mp hname
  have hmodule := hs.modules m.1 (List.mem_of_getElem? (getElem?_of_select hselect hm))
  obtain ⟨t, ht, hidentifier⟩ := hmodule
  rw [ht] at hbeq
  exact ⟨t, Datum.eq_text_of_beq hbeq, hidentifier⟩

theorem IsOnWalk.areUnbraced (hs : s.IsIdentified) {names : List Name} {modules : List (Module × Nat)}
    (hselect : (select s names).result = .ok modules) {limit : Option Nat} {i : Nat} {m : Module} {p : Place}
    {passed : List Place} (hm : s.modules[i]? = some m)
    (h : IsOnWalk s (modules.map (·.1.name)) limit i p passed) : AreUnbraced m.name (p :: passed) := by
  refine ⟨(hs.modules m (List.mem_of_getElem? hm)).isUnbraced, fun q hq => ?_⟩
  have hroute : ∃ rest, Route s i q rest := by
    rcases List.mem_cons.mp hq with rfl | hq
    · exact ⟨passed, h.route⟩
    · obtain ⟨_, rest, -, hrest⟩ := h.route.of_mem hq
      exact ⟨rest, hrest⟩
  obtain ⟨rest, hrest⟩ := hroute
  obtain ⟨hname, hkeys⟩ := hs.names q hrest.has hrest.part
  have howner := isIdentifier_of_selected hs hselect (h.selected q hq)
  exact ⟨hname.isUnbraced, howner.isUnbraced, howner.holds, fun key hkey =>
    Text.isUnbraced_of_isIdentifier (hkeys key hkey)⟩

end Generation

theorem Handler.IsDataOperation.hasPathOf {s : Schema} {rules : List TagRule} {m : Module} {i : Nat}
    (hm : s.modules[i]? = some m) {p : Place} {passed : List Place} {method : String} {o : Operation}
    (hroute : Route s i p passed) (hk : p.node.kind.isStructural = true) (hu : AreUnbraced m.name (p :: passed))
    (h : IsDataOperation s (routeHandler (Handler.ofRules rules) m.name (p :: passed))
      (routeSegment m.name (p :: passed)) method o) :
    o.HasPathOf s ("/data" ++ (routeSegment m.name (p :: passed)).path) i p passed := by
  have hname : s.moduleName i = m.name := by rw [Schema.moduleName, hm]; rfl
  have howners : (routeHandler (Handler.ofRules rules) m.name (p :: passed)).owners =
      segmentOwners m.name (p :: passed) := owners_routeHandler rfl
  refine ⟨hroute, hk, by rw [hname], ?_, ?_⟩
  · have hbraced : Text.braced ("/data" ++ (routeSegment m.name (p :: passed)).path) =
        Text.braced (routeSegment m.name (p :: passed)).path := by
      rw [Text.braced, String.toList_append, Text.braces_of_not_mem (by decide), List.nil_append, Text.braced]
    rw [hbraced, hu.routeSegment.braced_path, List.map_map]
    have hnames := h.parameters.imp (S := fun p q => q.name = .text p.name) fun p q hq => by
      cases hq with
      | leaf hname _ _ _ _ => exact hname
      | missing hname _ _ _ => exact hname
    generalize (routeSegment m.name (p :: passed)).parameters = ps at hnames ⊢
    generalize Handler.inPath o = qs at hnames ⊢
    induction hnames with
    | nil => rfl
    | cons hq _ ih => rw [List.map_cons, List.map_cons, hq, ih]; rfl
  · refine forall₂_trans (fun key π q hkey hq => ?_) (forall₂_pathKeys m.name (p :: passed)) h.parameters
    have howner := get?_segmentOwners hu hkey.1
    rw [← howners] at howner
    have hchild : ((Entries.get? π.segment (routeHandler (Handler.ofRules rules) m.name (p :: passed)).owners).bind
        fun owner => owner.child? π.key) = key.1.child? (.text key.2) := by
      rw [howner, hkey.2]
      rfl
    cases hq with
    | leaf _ hleaf hproperty htype hformat => exact .leaf (hchild ▸ hleaf) hproperty htype hformat
    | missing _ hleaf htype hformat => exact .missing (hchild ▸ hleaf) htype hformat

/-- Paths and path parameters agree: the parameters of a chain of segments are those that its path shows in braces,
one for each key; what is pushed adds to path and parameters; and the operations on data have just these parameters,
with the types of the key leaves. -/
theorem pathParameters_agree :
    (∀ s : Segment, s.IsPushed → s.path? = .ok s.path ∧ (s.parameters.map (·.name)).Nodup ∧
      Text.braced s.path = s.parameters.map (·.name) ∧
      s.parameters.map (fun p => (p.segment, p.key)) = s.chain.flatMap fun t => t.keys.map fun key => (t, key)) ∧
    (∀ (above : Segment) (name owner : Name) (readOnly : Bool) (keys : List Name) (visit : Nat),
      above.isRoot = false →
        (above.push name owner readOnly keys visit).path =
          above.path ++ "/" ++ (above.push name owner readOnly keys visit).label ∧
        (above.push name owner readOnly keys visit).parameters =
          above.parameters ++ (above.push name owner readOnly keys visit).own) ∧
    ∀ (d : Datum) (s : Schema) (names : List Name) (settings : Settings) (doc : Document),
      (Schema.load d).result = .ok s → s.IsIdentified → (generate s names settings).result = .ok doc →
      ∀ path os, (path, os) ∈ doc.paths → path.IsDataPath → ∀ method o, (method, o) ∈ os →
        ∃ text i p passed, path = .text text ∧ o.HasPathOf s text i p passed := by
  refine ⟨fun s hs => ?_, fun above name owner readOnly keys visit hroot => ?_,
    fun d s names settings doc hload hs hdoc path os hos hpath method o ho => ?_⟩
  · have hu := hs.isUnbraced
    exact ⟨hu.path?_eq, s.nodup_parameters, hu.braced_path, s.keys_parameters⟩
  · exact ⟨Segment.path_push hroot, Segment.parameters_push⟩
  · obtain ⟨modules, r, info, hgenerated⟩ := exists_generated hload hdoc
    obtain ⟨text, method', rfl, rfl, horigin⟩ := (hgenerated.hasOnly_origin hload).of_mem hos ho
    cases horigin with
    | @data i m p passed _ _ hm hwalk hoperation =>
      have hu := hwalk.areUnbraced hs hgenerated.ran.selected hm
      exact ⟨_, i, p, passed, rfl, hoperation.hasPathOf hm hwalk.route hwalk.structural hu⟩
    | rpc _ _ _ => exact absurd hpath (not_isDataPath_operations _)

/-- A list in a list, with one key three times. -/
def Example.repeated : Segment :=
  ((Segment.root (.text "m") 0).push (.text "a") (.text "m") false [.text "id", .text "id"] 0).push (.text "b") .null
    false [.text "id"] 0

theorem isPushed_repeated : Example.repeated.IsPushed := by
  have hunbraced : ∀ t ∈ ["m", "a", "b", "id"], Datum.IsUnbraced (.text t) := by
    intro t ht
    simp only [List.mem_cons, List.not_mem_nil, or_false] at ht
    rcases ht with rfl | rfl | rfl | rfl <;> exact ⟨_, rfl, by decide, by decide⟩
  refine .push (.push (.root (hunbraced "m" (by simp))) (hunbraced "a" (by simp)) (fun _ => hunbraced "m" (by simp))
    fun key hkey => ?_) (hunbraced "b" (by simp)) (fun hholds => by cases hholds) fun key hkey => ?_
  · simp only [List.mem_cons, List.not_mem_nil, or_false, or_self] at hkey
    rw [hkey]
    exact hunbraced "id" (by simp)
  · rw [List.mem_singleton.mp hkey]
    exact hunbraced "id" (by simp)

theorem isIdentified_loadedShelf : Example.loadedShelf.IsIdentified where
  modules := isOrderly_loadedShelf.moduleNames
  names _ hp hpart := isOrderly_loadedShelf.names hp hpart

theorem pathParameters_agree_repeated :
    (Example.repeated.IsPushed ∧ Text.braced Example.repeated.path = ["id", "a-id", "b-id"]) ∧
      ∃ doc os o i p passed, (generate Example.loadedShelf [.text "m"] {}).result = .ok doc ∧
        (.text "/data/m:book=\x7bisbn\x7d/print", os) ∈ doc.paths ∧ (.text "get", o) ∈ os ∧
        o.HasPathOf Example.loadedShelf "/data/m:book=\x7bisbn\x7d/print" i p passed := by
  obtain ⟨-, -, hbraced, -⟩ := pathParameters_agree.1 _ isPushed_repeated
  refine ⟨⟨isPushed_repeated, hbraced.trans (by decide)⟩, ?_⟩
  have htest : passes Example.shelf [.text "m"] {} (fun _ doc =>
      (doc.operation? (.text "/data/m:book=\x7bisbn\x7d/print") (.text "get")).isSome) = true := by
    decide +kernel
  obtain ⟨s, doc, hload, hgenerate, hsome⟩ := exists_of_passes htest
  obtain rfl := Except.ok.inj (hload.symm.trans load_shelf)
  obtain ⟨o, ho⟩ := Option.isSome_iff_exists.mp hsome
  obtain ⟨os, method, hos, ho, hmethod⟩ := Document.mem_of_operation? ho
  obtain rfl := Scalar.eq_text_of_beq hmethod
  obtain ⟨text, i, p, passed, htext, hpath⟩ := pathParameters_agree.2.2 _ _ _ _ _ hload isIdentified_loadedShelf
    hgenerate _ _ hos ⟨"/m:book=\x7bisbn\x7d/print", rfl⟩ _ _ ho
  obtain rfl := Scalar.text.inj htext
  exact ⟨doc, os, o, i, p, passed, hgenerate, hos, ho, hpath⟩

end RestconfApi
