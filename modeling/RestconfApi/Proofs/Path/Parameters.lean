import RestconfApi.Path.Segment
import RestconfApi.Proofs.Names

/-!
# Paths: parameters

A path shows its parameters in braces, one for each key of the lists that it leads through. Their names are told
apart along the whole path, and a further segment only adds to what is there.
-/

namespace RestconfApi

namespace Text

/-! ### Braces -/

/-- The texts in braces; `held` is what has been read since the last opening brace, last character first. -/
def bracedFrom : Option (List Char) → List Char → List String
  | _, [] => []
  | none, c :: cs => if c = '\x7b' then bracedFrom (some []) cs else bracedFrom none cs
  | some held, c :: cs =>
    if c = '\x7d' then String.ofList held.reverse :: bracedFrom none cs else bracedFrom (some (c :: held)) cs

/-- The texts that stand in braces in a text, in their order. -/
def braced (t : String) : List String := bracedFrom none t.toList

/-- There is no brace in a text. -/
def IsUnbraced (t : String) : Prop := '\x7b' ∉ t.toList ∧ '\x7d' ∉ t.toList

/-- Reading `cs` yields `names`, whatever follows. -/
def Braces (cs : List Char) (names : List String) : Prop :=
  ∀ rest, bracedFrom none (cs ++ rest) = names ++ bracedFrom none rest

theorem Braces.braced {t : String} {names : List String} (h : Braces t.toList names) : braced t = names := by
  have hread := h []
  rwa [List.append_nil, bracedFrom, List.append_nil] at hread

theorem braces_of_not_mem {cs : List Char} (h : '\x7b' ∉ cs) : Braces cs [] := by
  intro rest
  induction cs with
  | nil => rfl
  | cons c cs ih =>
    rw [List.mem_cons, not_or] at h
    rw [List.cons_append, bracedFrom, if_neg (Ne.symm h.1), ih h.2]

theorem Braces.append {cs cs' : List Char} {names names' : List String} (h : Braces cs names)
    (h' : Braces cs' names') : Braces (cs ++ cs') (names ++ names') := by
  intro rest
  rw [List.append_assoc, h, h', List.append_assoc]

/-- A text without a closing brace in it is read as a whole. -/
theorem braces_enclosed {t : String} (h : '\x7d' ∉ t.toList) : Braces ("\x7b" ++ t ++ "\x7d").toList [t] := by
  have hheld : ∀ (cs held rest : List Char), '\x7d' ∉ cs →
      bracedFrom (some held) (cs ++ '\x7d' :: rest) = String.ofList (held.reverse ++ cs) :: bracedFrom none rest := by
    intro cs
    induction cs with
    | nil =>
      intro held rest _
      rw [List.nil_append, bracedFrom, if_pos rfl, List.append_nil]
    | cons c cs ih =>
      intro held rest hnot
      rw [List.mem_cons, not_or] at hnot
      rw [List.cons_append, bracedFrom, if_neg (Ne.symm hnot.1), ih _ _ hnot.2, List.reverse_cons, List.append_assoc,
        List.singleton_append]
  intro rest
  have hread := hheld t.toList [] rest h
  rw [List.reverse_nil, List.nil_append, String.ofList_toList] at hread
  rw [String.toList_append, String.toList_append, List.append_assoc, List.append_assoc]
  exact hread

theorem braces_join {α : Type} {sep : String} (hsep : '\x7b' ∉ sep.toList) {text : α → String}
    {names : α → List String} {l : List α} (h : ∀ x ∈ l, Braces (text x).toList (names x)) :
    Braces (join sep (l.map text)).toList (l.flatMap names) := by
  induction l with
  | nil => exact braces_of_not_mem (by simp [join])
  | cons x l ih =>
    have hx := h x List.mem_cons_self
    replace ih := ih fun y hy => h y (List.mem_cons_of_mem _ hy)
    cases l with
    | nil => simpa [join] using hx
    | cons y l =>
      have hall := (hx.append (braces_of_not_mem hsep)).append ih
      rw [List.append_nil] at hall
      rw [List.map_cons, List.map_cons, join, String.toList_append, String.toList_append]
      · exact hall
      · simp

theorem join_concat (sep : String) {texts : List String} (h : texts ≠ []) (t : String) :
    join sep (texts ++ [t]) = join sep texts ++ sep ++ t := by
  induction texts with
  | nil => exact absurd rfl h
  | cons u texts ih =>
    cases texts with
    | nil => rfl
    | cons v texts =>
      show u ++ sep ++ join sep (v :: texts ++ [t]) = u ++ sep ++ join sep (v :: texts) ++ sep ++ t
      rw [ih (by simp)]
      simp only [String.append_assoc]

end Text

namespace Segment

/-! ### Names of parameters -/

/-- The name of a parameter is used by none before it. -/
theorem parameterName_not_mem (used : List String) (segment key : String) :
    parameterName used segment key ∉ used := by
  obtain ⟨i, hi, hfree⟩ := Text.exists_numbered_not_mem (segment ++ "-" ++ key) 2 (Nat.lt_succ_self used.length)
  unfold parameterName
  dsimp only
  generalize hfound : List.find? _ _ = found
  cases found with
  | none =>
    rw [List.find?_eq_none] at hfound
    have hmem : segment ++ "-" ++ key ++ toString (i + 2) ∈ key :: (segment ++ "-" ++ key) ::
        (List.range (used.length + 1)).map fun i => segment ++ "-" ++ key ++ toString (i + 2) := by
      simp only [List.mem_cons, List.mem_map, List.mem_range]
      exact .inr (.inr ⟨i, hi, rfl⟩)
    have hused := hfound _ hmem
    rw [Bool.not_eq_true', Bool.not_eq_false, List.contains_iff_mem] at hused
    exact absurd hused hfree
  | some name => simpa using List.find?_some hfound

/-- What is neither a hyphen nor a digit occurs in the name of a parameter only if it occurs in those of the segment
or the key. -/
theorem not_mem_parameterName (used : List String) {segment key : String} {c : Char} (hhyphen : c ≠ '-')
    (hdigit : c.isDigit = false) (hs : c ∉ segment.toList) (hk : c ∉ key.toList) :
    c ∉ (parameterName used segment key).toList := by
  have hqualified : c ∉ (segment ++ "-" ++ key).toList := by simp [hs, hk, hhyphen]
  have hnumbered : ∀ n : Nat, c ∉ (toString n).toList := by
    intro n hn
    rw [Nat.toString_eq_ofList_toDigits, String.toList_ofList] at hn
    have := Nat.isDigit_of_mem_toDigits (by omega) (by omega) hn
    rw [hdigit] at this
    cases this
  unfold parameterName
  dsimp only
  generalize hfound : List.find? _ _ = found
  cases found with
  | none => exact hk
  | some name =>
    have hmem := List.mem_of_find?_eq_some hfound
    simp only [List.mem_cons, List.mem_map] at hmem
    rcases hmem with rfl | rfl | ⟨i, -, rfl⟩
    · exact hk
    · exact hqualified
    · rw [Option.getD_some, String.toList_append, List.mem_append, not_or]
      exact ⟨hqualified, hnumbered _⟩

theorem not_mem_keyParameters (s : Segment) {c : Char} (hhyphen : c ≠ '-') (hdigit : c.isDigit = false)
    (hs : c ∉ s.name.wording.toList) {keys : List Name} (hkeys : ∀ key ∈ keys, c ∉ key.wording.toList)
    (used : List String) : ∀ p ∈ keyParameters s used keys, c ∉ p.name.toList := by
  induction keys generalizing used with
  | nil => simp [keyParameters]
  | cons key keys ih =>
    intro p hp
    rw [keyParameters] at hp
    rcases List.mem_cons.mp hp with rfl | hp
    · exact not_mem_parameterName _ hhyphen hdigit hs (hkeys key List.mem_cons_self)
    · exact ih (fun key hkey => hkeys key (List.mem_cons_of_mem _ hkey)) _ p hp

/-- The keys of a segment. -/
def keys : Segment → List Name
  | .root _ _ => []
  | .step _ _ _ _ keys _ => keys

/-- The parameters that a segment itself adds. -/
def own : Segment → List PathParameter
  | .root _ _ => []
  | s@(.step above _ _ _ keys _) => keyParameters s (above.parameters.map (·.name)) keys

theorem parameters_eq : ∀ s : Segment, s.parameters = s.chain.flatMap own
  | .root _ _ => rfl
  | .step above name owner readOnly keys visit => by
    rw [parameters, chain, List.flatMap_append, ← parameters_eq above, List.flatMap_singleton, own]

theorem keys_keyParameters (s : Segment) (used : List String) (keys : List Name) :
    (keyParameters s used keys).map (fun p => (p.segment, p.key)) = keys.map fun key => (s, key) := by
  induction keys generalizing used with
  | nil => rfl
  | cons key keys ih => rw [keyParameters, List.map_cons, List.map_cons, ih]

/-- There is one parameter for each key on the way, in the same order. -/
theorem keys_parameters (s : Segment) :
    s.parameters.map (fun p => (p.segment, p.key)) = s.chain.flatMap fun t => t.keys.map fun key => (t, key) := by
  rw [parameters_eq, List.map_flatMap]
  refine List.flatMap_congr fun t _ => ?_
  cases t with
  | root owner visit => rfl
  | step above name owner readOnly keys visit => exact keys_keyParameters _ _ keys

theorem nodup_keyParameters (s : Segment) {used : List String} (hused : used.Nodup) (keys : List Name) :
    (used ++ (keyParameters s used keys).map (·.name)).Nodup := by
  induction keys generalizing used with
  | nil => simpa [keyParameters] using hused
  | cons key keys ih =>
    have hnew := parameterName_not_mem used s.name.wording key.wording
    have hmore : (used ++ [parameterName used s.name.wording key.wording]).Nodup := by
      rw [List.nodup_append]
      refine ⟨hused, by simp, fun a ha b hb heq => hnew ?_⟩
      rw [← List.mem_singleton.mp hb, ← heq]
      exact ha
    have hrest := ih hmore
    rwa [List.append_assoc] at hrest

/-- The parameters of a path have different names. -/
theorem nodup_parameters : ∀ s : Segment, (s.parameters.map (·.name)).Nodup
  | .root _ _ => List.nodup_nil
  | .step above _ _ _ keys _ => by
    rw [parameters, List.map_append]
    exact nodup_keyParameters _ (nodup_parameters above) keys

/-! ### Pushing -/

end Segment

/-- A name that is a text without braces. -/
def Datum.IsUnbraced (name : Name) : Prop := ∃ t, name = .text t ∧ Text.IsUnbraced t

namespace Segment

/-- A chain of pushed segments of which all names, modules and keys are texts without braces. A segment may be pushed
without a module. -/
inductive IsPushed : Segment → Prop
  | root {owner : Name} {visit : Nat} : owner.IsUnbraced → IsPushed (.root owner visit)
  | push {above : Segment} {name owner : Name} {readOnly : Bool} {keys : List Name} {visit : Nat} :
      above.IsPushed → name.IsUnbraced → (owner.holds = true → owner.IsUnbraced) →
      (∀ key ∈ keys, Datum.IsUnbraced key) → IsPushed (above.push name owner readOnly keys visit)

/-- All names, modules and keys on the way are texts without braces. -/
def IsUnbraced : Segment → Prop
  | .root owner _ => owner.IsUnbraced
  | .step above name owner _ keys _ =>
    above.IsUnbraced ∧ name.IsUnbraced ∧ owner.IsUnbraced ∧ ∀ key ∈ keys, Datum.IsUnbraced key

variable {s above : Segment} {name owner : Name} {readOnly : Bool} {keys : List Name} {visit : Nat}

theorem IsUnbraced.isUnbraced_owner : ∀ {s : Segment}, s.IsUnbraced → s.owner.IsUnbraced
  | .root _ _, h => h
  | .step _ _ _ _ _ _, h => h.2.2.1

theorem IsPushed.isUnbraced (h : s.IsPushed) : s.IsUnbraced := by
  induction h with
  | root howner => exact howner
  | push _ hname howner hkeys ih =>
    refine ⟨ih, hname, ?_, hkeys⟩
    split
    · exact howner ‹_›
    · exact ih.isUnbraced_owner

theorem isUnbraced_shownName (hname : name.IsUnbraced) (howner : owner.IsUnbraced) :
    (Segment.step above name owner readOnly keys visit).shownName.IsUnbraced := by
  obtain ⟨t, rfl, ht⟩ := hname
  obtain ⟨o, rfl, ho⟩ := howner
  simp only [shownName]
  generalize (if above.isRoot = true then Datum.null else above.owner) = outer
  split
  · exact ⟨t, rfl, ht⟩
  · refine ⟨o ++ ":" ++ t, rfl, ?_, ?_⟩
    · simp [ho.1, ht.1]
    · simp [ho.2, ht.2]

/-! ### Segments as keys -/

theorem depth_eq_of_beq : ∀ {s t : Segment}, (s == t) = true → s.depth = t.depth
  | .root _ _, .root _ _, _ => rfl
  | .root _ _, .step _ _ _ _ _ _, h => by cases h
  | .step _ _ _ _ _ _, .root _ _, h => by cases h
  | .step above name owner readOnly keys visit, .step above' name' owner' readOnly' keys' visit', h => by
    have hall : (above == above' && (name == name' && (owner == owner' && (readOnly == readOnly' &&
        (keys == keys' && visit == visit'))))) = true := h
    have habove := depth_eq_of_beq ((Bool.and_eq_true _ _).mp hall).1
    simp only [depth, chain, List.length_append, List.length_singleton] at habove ⊢
    rw [habove]

theorem own_push (above : Segment) (name owner : Name) (readOnly : Bool) (keys : List Name) (visit : Nat) :
    (above.push name owner readOnly keys visit).own =
      keyParameters (above.push name owner readOnly keys visit) (above.parameters.map (·.name)) keys := rfl

theorem depth_push (above : Segment) (name owner : Name) (readOnly : Bool) (keys : List Name) (visit : Nat) :
    (above.push name owner readOnly keys visit).depth = above.depth + 1 := by
  simp [push, depth, chain]

theorem beq_self_of_mem {α : Type} [BEq α] {l : List α} (h : ∀ a ∈ l, (a == a) = true) : (l == l) = true := by
  induction l with
  | nil => rfl
  | cons a l ih =>
    rw [List.cons_beq_cons, h a List.mem_cons_self, ih fun b hb => h b (List.mem_cons_of_mem _ hb)]
    rfl

/-- A segment whose names are texts is found as itself. -/
theorem IsUnbraced.beq_self : ∀ {s : Segment}, s.IsUnbraced → (s == s) = true
  | .root owner visit, h => by
    obtain ⟨t, rfl, -⟩ := h
    show (Datum.text t == Datum.text t && visit == visit) = true
    simp
  | .step above name owner readOnly keys visit, h => by
    obtain ⟨habove, ⟨n, rfl, -⟩, ⟨o, rfl, -⟩, hkeys⟩ := h
    have hrest : (keys == keys) = true := by
      refine beq_self_of_mem fun key hkey => ?_
      obtain ⟨k, rfl, -⟩ := hkeys key hkey
      simp
    show (above == above && (Datum.text n == Datum.text n && (Datum.text o == Datum.text o && (readOnly == readOnly &&
        (keys == keys && visit == visit))))) = true
    simp [habove.beq_self, hrest]

/-! ### Paths -/

/-- The label of a segment shows the parameters that it adds. -/
theorem IsUnbraced.braces_label (h : s.IsUnbraced) : Text.Braces s.label.toList (s.own.map (·.name)) := by
  cases s with
  | root owner visit => exact Text.braces_of_not_mem (by simp [label])
  | step above name owner readOnly keys visit =>
    obtain ⟨-, hname, howner, hkeys⟩ := h
    have hshownName : (Segment.step above name owner readOnly keys visit).shownName.IsUnbraced :=
      isUnbraced_shownName hname howner
    obtain ⟨t, ht, hopen, -⟩ := hshownName
    have hshown : Text.Braces (Segment.step above name owner readOnly keys visit).shownName.wording.toList [] :=
      Text.braces_of_not_mem (by rw [ht]; exact hopen)
    have hclosing : '\x7d' ∉ name.wording.toList := by
      obtain ⟨n, rfl, -, hn⟩ := hname
      exact hn
    have hkeys' : ∀ key ∈ keys, '\x7d' ∉ key.wording.toList := by
      intro key hkey
      obtain ⟨k, rfl, -, hk⟩ := hkeys key hkey
      exact hk
    have hparameters := not_mem_keyParameters (.step above name owner readOnly keys visit) (by decide) (by decide)
      hclosing hkeys' (above.parameters.map (·.name))
    have hcomma : '\x7b' ∉ ",".toList := by decide
    have hjoin := Text.braces_join hcomma fun p hp => Text.braces_enclosed (hparameters p hp)
    rw [label, own]
    split
    · rename_i hempty
      rw [List.isEmpty_iff.mp hempty]
      exact hshown
    · rw [String.toList_append, String.toList_append, List.append_assoc]
      have hequals : Text.Braces "=".toList [] := Text.braces_of_not_mem (by decide)
      have hall := hshown.append (hequals.append hjoin)
      rwa [List.nil_append, List.nil_append, ← List.map_eq_flatMap] at hall

theorem IsUnbraced.of_mem_chain : ∀ {s t : Segment}, s.IsUnbraced → t ∈ s.chain → t.IsUnbraced
  | .root _ _, _, _, ht => by simp [chain] at ht
  | .step above _ _ _ _ _, t, h, ht => by
    rw [chain, List.mem_append] at ht
    rcases ht with ht | ht
    · exact h.1.of_mem_chain ht
    · rwa [List.mem_singleton.mp ht]

/-- The path shows the names of all parameters in braces, in their order. -/
theorem IsUnbraced.braced_path (h : s.IsUnbraced) : Text.braced s.path = s.parameters.map (·.name) := by
  have hslash : '\x7b' ∉ "/".toList := by decide
  have hlabels := Text.braces_join hslash fun t ht => (h.of_mem_chain ht).braces_label
  have hpath := (Text.braces_of_not_mem hslash).append hlabels
  rw [List.nil_append, ← String.toList_append] at hpath
  rw [path, hpath.braced, parameters_eq, List.map_flatMap]

theorem IsUnbraced.isJoinable (h : s.IsUnbraced) : s.isJoinable = true := by
  cases s with
  | root owner visit => rfl
  | step above name owner readOnly keys visit =>
    obtain ⟨-, hname, howner, hkeys⟩ := h
    have hshownName : (Segment.step above name owner readOnly keys visit).shownName.IsUnbraced :=
      isUnbraced_shownName hname howner
    obtain ⟨t, ht, -⟩ := hshownName
    rw [Segment.isJoinable, ht, Bool.and_eq_true, List.all_eq_true]
    refine ⟨fun key hkey => ?_, by simp [Datum.asText?]⟩
    obtain ⟨k, rfl, -⟩ := hkeys key hkey
    rfl

theorem IsUnbraced.path?_eq (h : s.IsUnbraced) : s.path? = .ok s.path := by
  have hall : s.chain.all Segment.isJoinable = true :=
    List.all_eq_true.mpr fun t ht => (h.of_mem_chain ht).isJoinable
  rw [path?, if_pos hall]

/-- What is pushed onto a segment below a root adds its label to the path. -/
theorem path_push (hroot : above.isRoot = false) :
    (above.push name owner readOnly keys visit).path =
      above.path ++ "/" ++ (above.push name owner readOnly keys visit).label := by
  have hne : above.chain.map label ≠ [] := by
    cases above with
    | root _ _ => cases hroot
    | step _ _ _ _ _ _ => simp [chain]
  rw [push, path, chain, List.map_append, List.map_singleton, Text.join_concat "/" hne, path]
  simp only [String.append_assoc]

/-- What is pushed adds its parameters after those that are there. -/
theorem parameters_push :
    (above.push name owner readOnly keys visit).parameters =
      above.parameters ++ (above.push name owner readOnly keys visit).own := rfl

end Segment

end RestconfApi
