import RestconfApi.Proofs.Ending
import RestconfApi.Proofs.Schema.Circularity

/-!
# Schema: documents that are rejected

A document that says something wrong is rejected with a fault of the schema. Where the loader loops over a value, takes
its words or looks entries up in it, a value of a type for which this has no meaning leads to another failure, and so
does a whole number of too many digits where it would be quoted.
-/

namespace RestconfApi

/-! ### Failures -/

/-- A fault of the schema, or a failure that has an excuse: if `typed` fails, a value of a wrong type, and if `shown`
does, a number that cannot be shown. -/
def Excused (typed shown : Prop) (e : Failure) : Prop :=
  (∃ fault, e = .schema fault) ∨ ¬typed ∧ (e = .wrongType ∨ e = .noMember) ∨ ¬shown ∧ e = .value .tooLongToShow

section

variable {typed shown : Prop}

theorem excused_schema {fault : SchemaFault} : Excused typed shown (.schema fault) := .inl ⟨fault, rfl⟩

theorem excused_wrongType (h : ¬typed) : Excused typed shown .wrongType := .inr (.inl ⟨h, .inl rfl⟩)

theorem excused_noMember (h : ¬typed) : Excused typed shown .noMember := .inr (.inl ⟨h, .inr rfl⟩)

end

/-! ### Values that can be shown -/

namespace Datum

theorem areShowable_iff {ds : List Datum} : areShowable ds = true ↔ ∀ d ∈ ds, d.isShowable = true := by
  induction ds with
  | nil => simp [areShowable]
  | cons d ds ih => simp [areShowable, ih]

theorem areShowableEntries_iff {entries : List (Scalar × Datum)} :
    areShowableEntries entries = true ↔ ∀ e ∈ entries, e.1.isShowable = true ∧ e.2.isShowable = true := by
  induction entries with
  | nil => simp [areShowableEntries]
  | cons e entries ih => simp [areShowableEntries, ih]

theorem mem_of_lookup? {key : Scalar} {entries : List (Scalar × Datum)} {d : Datum}
    (h : lookup? key entries = some d) : ∃ k, (k, d) ∈ entries := by
  induction entries with
  | nil => cases h
  | cons e entries ih =>
    obtain ⟨k, v⟩ := e
    rw [lookup?] at h
    split at h
    · obtain rfl := Option.some.inj h
      exact ⟨k, List.mem_cons_self⟩
    · obtain ⟨k', hk'⟩ := ih h
      exact ⟨k', List.mem_cons_of_mem _ hk'⟩

theorem isShowable_valueAt {key : Scalar} {entries : List (Scalar × Datum)}
    (h : areShowableEntries entries = true) : (valueAt key entries).isShowable = true := by
  rw [valueAt]
  cases hd : lookup? key entries with
  | none => rfl
  | some d =>
    obtain ⟨k, hk⟩ := mem_of_lookup? hd
    exact (areShowableEntries_iff.mp h _ hk).2

/-- The fields of a value can be shown if the value can. -/
theorem isShowable_field {d : Datum} (h : d.isShowable = true) (name : String) : (d.field name).isShowable = true := by
  cases d with
  | mapping entries mark => exact isShowable_valueAt h
  | _ => rfl

theorem isShowable_byte (n : UInt8) : (int n.toNat).isShowable = true := by
  have hlt : (n.toNat : Int).natAbs < 2 ^ 8 := n.toNat_lt
  have hlog : (n.toNat : Int).natAbs.log2 < 3 * Text.maxDigits := by
    by_cases h0 : (n.toNat : Int).natAbs = 0
    · rw [h0]
      decide
    · exact Nat.lt_trans ((Nat.log2_lt h0).mpr hlt) (by decide)
  show (decide _ || decide _) = true
  rw [decide_eq_true hlog, Bool.true_or]

/-- What a loop over a value meets can be shown if the value can. -/
theorem isShowable_of_mem_items? {d : Datum} (h : d.isShowable = true) {items : List Datum}
    (hitems : d.items? = some items) : ∀ x ∈ items, x.isShowable = true := by
  intro x hx
  unfold items? at hitems
  split at hitems
  · obtain rfl := Option.some.inj hitems
    exact areShowable_iff.mp h x hx
  · obtain rfl := Option.some.inj hitems
    obtain ⟨c, -, rfl⟩ := List.mem_map.mp hx
    rfl
  · obtain rfl := Option.some.inj hitems
    obtain ⟨n, -, rfl⟩ := List.mem_map.mp hx
    exact isShowable_byte n
  · obtain rfl := Option.some.inj hitems
    obtain ⟨e, he, rfl⟩ := List.mem_map.mp hx
    exact (areShowableEntries_iff.mp h e he).1
  · obtain rfl := Option.some.inj hitems
    obtain ⟨k, hk, rfl⟩ := List.mem_map.mp hx
    exact List.all_eq_true.mp h k hk
  · obtain rfl := Option.some.inj hitems
    obtain ⟨ha, hb⟩ := Bool.and_eq_true_iff.mp h
    rcases List.mem_pair.mp hx with rfl | rfl
    · exact ha
    · exact hb
  · cases hitems

end Datum

namespace Declaration

open Datum

/-! ### Values of the right types -/

/-- Nothing that holds, or what a loop can go over. -/
def canLoop (d : Datum) : Bool := !d.holds || d.items?.isSome

/-- What a loop over the value meets, if it holds. -/
def met (d : Datum) : List Datum := d.items?.getD []

/-- Nothing, or what can be taken for a list of words. -/
def canList (d : Datum) : Bool := d.isNull || d.items?.isSome

/-- The enumerated values of a type, if it has such, can be listed. -/
def isTypedSpec (spec : Datum) : Bool := canLoop (spec.field "enum")

mutual

/-- All fields of a statement, and of those below it, have types with a meaning. -/
def isTyped : Datum → Bool
  | .mapping entries _ =>
    canList (valueAt (.text "key") entries) && canList (valueAt (.text "uses") entries) &&
      isTypedSpec (valueAt (.text "type") entries) && isTypedChildren entries
  | _ => true

def isTypedChildren : List (Scalar × Datum) → Bool
  | [] => true
  | (key, d) :: rest => if key == .text "children" then areTyped d else isTypedChildren rest

def areTyped : Datum → Bool
  | .list items _ => areTypedAll items
  | d => canLoop d

def areTypedAll : List Datum → Bool
  | [] => true
  | d :: ds => isTyped d && areTypedAll ds

end

/-- A payload is a statement, or a list of statements. -/
def isTypedPayload : Datum → Bool
  | .mapping entries mark => isTyped (.mapping entries mark)
  | d => d.isNull || areTyped d

def isTypedRpc (d : Datum) : Bool :=
  isTyped d && isTypedPayload (d.field "input") && isTypedPayload (d.field "output")

/-- Typedefs are a mapping. -/
def isTypedTypedefs : Datum → Bool
  | .mapping entries _ => entries.all fun e => isTypedSpec e.2
  | d => !d.holds

/-- The target of an augment is a text. -/
def isTypedAugment (d : Datum) : Bool :=
  areTyped (d.field "children") && (!(d.field "target").holds || (d.field "target").asText?.isSome)

def isTypedModule (d : Datum) : Bool :=
  isTypedTypedefs (d.field "typedefs") && areTyped (d.field "data") &&
    canLoop (d.field "augments") && (met (d.field "augments")).all isTypedAugment &&
    canLoop (d.field "rpcs") && (met (d.field "rpcs")).all isTypedRpc &&
    canLoop (d.field "groupings") && (met (d.field "groupings")).all isTyped

def isTypedDocument (d : Datum) : Bool :=
  canLoop (d.field "modules") && (met (d.field "modules")).all isTypedModule

/-! ### Statements -/

variable {typed shown : Prop} {owner : Name} {d : Datum}

theorem wording?_errs (h : shown → d.isShowable = true) : Errs d.wording? (Excused typed shown) := by
  unfold wording?
  split
  · exact errs_ok
  · rename_i hd
    exact errs_error (.inr (.inr ⟨fun hs => hd (h hs), rfl⟩))

theorem literal?_errs (h : shown → d.isShowable = true) : Errs d.literal? (Excused typed shown) := by
  unfold literal?
  split
  · exact errs_ok
  · rename_i hd
    exact errs_error (.inr (.inr ⟨fun hs => hd (h hs), rfl⟩))

theorem itemsOrNone_errs (h : typed → canLoop d = true) : Errs (itemsOrNone d) (Excused typed shown) := by
  unfold itemsOrNone
  split
  · rename_i hholds
    split
    · exact errs_ok
    · rename_i hitems
      exact errs_error (excused_wrongType fun ht => by simpa [canLoop, hholds, hitems] using h ht)
  · exact errs_ok

/-- A loop meets items of the value. -/
theorem met_of_itemsOrNone {items : List Datum} (h : itemsOrNone d = .ok items) : ∀ x ∈ items, x ∈ met d := by
  intro x hx
  unfold itemsOrNone at h
  split at h
  · split at h
    · rename_i hitems
      obtain rfl := Except.ok.inj h
      rwa [met, hitems]
    · cases h
  · obtain rfl := Except.ok.inj h
    cases hx

theorem isShowable_of_mem_met (h : d.isShowable = true) : ∀ x ∈ met d, x.isShowable = true := by
  intro x hx
  rw [met] at hx
  cases hitems : d.items? with
  | none =>
    rw [hitems] at hx
    cases hx
  | some items =>
    rw [hitems] at hx
    exact isShowable_of_mem_items? h hitems x hx

theorem texts_errs (h : typed → canList d = true) (hs : shown → d.isShowable = true) :
    Errs (texts d) (Excused typed shown) := by
  unfold texts
  split
  · exact errs_ok
  · exact errs_ok
  · split
    · rename_i hitems
      exact errs_mapM fun x hx => wording?_errs fun hshown => isShowable_of_mem_items? (hs hshown) hitems x hx
    · rename_i hnull _ _ hitems
      refine errs_error (excused_wrongType fun ht => ?_)
      have hlist := h ht
      rw [canList, hitems, Option.isSome_none, Bool.or_false] at hlist
      unfold isNull at hlist
      split at hlist
      · exact hnull rfl
      · cases hlist

theorem badType_errs {about : String} (hs : shown → d.isShowable = true) :
    Errs (badType about d) (Excused typed shown) :=
  errs_bind (literal?_errs hs) fun _ _ => errs_error excused_schema

theorem type_errs {about : String} (h : typed → isTypedSpec d = true) (hs : shown → d.isShowable = true) :
    Errs (type about d) (Excused typed shown) := by
  have hpath : ∀ named : LeafType, Errs (if (named.isLeafref && !named.path.holds) = true then
      .error (.schema (.noPath about)) else .ok named : Except Failure LeafType) (Excused typed shown) := by
    intro named
    split
    · exact errs_error excused_schema
    · exact errs_ok
  unfold type
  split
  · exact errs_bind errs_ok fun named _ => hpath named
  · split
    · refine errs_bind (itemsOrNone_errs h) fun values hvalues => ?_
      refine errs_bind (errs_mapM fun x hx => wording?_errs fun hshown => ?_) fun _ _ =>
        errs_bind errs_ok fun named _ => hpath named
      exact isShowable_of_mem_met (isShowable_field (hs hshown) "enum") x (met_of_itemsOrNone hvalues x hx)
    · exact errs_bind (badType_errs hs) fun named _ => hpath named
  · exact errs_bind (badType_errs hs) fun named _ => hpath named

theorem typeOf_errs {kind : Kind} {name : Name} (h : typed → isTypedSpec (d.field "type") = true)
    (hs : shown → d.isShowable = true) (howner : shown → owner.isShowable = true)
    (hname : shown → name.isShowable = true) : Errs (typeOf owner kind name d) (Excused typed shown) := by
  unfold typeOf
  split
  · refine errs_bind (wording?_errs howner) fun _ _ => errs_bind (wording?_errs hname) fun _ _ => ?_
    dsimp only
    split
    · exact errs_error excused_schema
    · exact errs_map (type_errs h fun hshown => isShowable_field (hs hshown) "type")
  · exact errs_ok

theorem withChildren_errs {kind : Kind} {name : Name} {children : List Node} {entries : List (Scalar × Datum)}
    {mark : Mark} (h : typed → isTyped (.mapping entries mark) = true)
    (hs : shown → (Datum.mapping entries mark).isShowable = true) (howner : shown → owner.isShowable = true)
    (hname : shown → name.isShowable = true) :
    Errs (withChildren owner kind name (.mapping entries mark) children) (Excused typed shown) := by
  simp only [isTyped, Bool.and_eq_true] at h
  have hfield := fun hshown => isShowable_field (hs hshown)
  unfold withChildren
  refine errs_bind (typeOf_errs (fun ht => (h ht).1.2) hs howner hname) fun _ _ => ?_
  refine errs_bind (texts_errs (fun ht => (h ht).1.1.1) fun hshown => hfield hshown "key") fun _ _ => ?_
  exact errs_bind (texts_errs (fun ht => (h ht).1.1.2) fun hshown => hfield hshown "uses") fun _ _ => errs_ok

theorem kindOf_errs {kind? : Option Kind} (hs : shown → d.isShowable = true) :
    Errs (kindOf owner kind? d) (Excused typed shown) := by
  unfold kindOf
  split
  · exact errs_ok
  · unfold kind
    split
    · exact errs_ok
    · refine errs_bind (wording?_errs fun hshown => isShowable_field (hs hshown) "kind") fun _ _ => ?_
      exact errs_error excused_schema

theorem nameOf_errs {kind : Kind} {name? : Option String} : Errs (nameOf owner kind name? d) (Excused typed shown) := by
  unfold nameOf
  split
  · exact errs_ok
  · split
    · exact errs_ok
    · exact errs_error excused_schema

/-- The name of a statement can be shown if the statement can. -/
theorem isShowable_nameOf {kind : Kind} {name? : Option String} {name : Name} (h : nameOf owner kind name? d = .ok name)
    (hs : d.isShowable = true) : name.isShowable = true := by
  unfold nameOf at h
  split at h
  · obtain rfl := Except.ok.inj h
    rfl
  · split at h
    · obtain rfl := Except.ok.inj h
      exact isShowable_field hs "name"
    · cases h

theorem noStatement_errs (hs : shown → d.isShowable = true) :
    Errs (do .error (.schema (.noStatement owner.wording (← d.literal?))) : Except Failure Node)
      (Excused typed shown) :=
  errs_bind (literal?_errs hs) fun _ _ => errs_error excused_schema

theorem items_errs (h : typed → canLoop d = true) (hs : shown → d.isShowable = true) :
    Errs (do
      match ← itemsOrNone d with
      | [] => .ok []
      | item :: _ => .error (.schema (.noStatement owner.wording (← item.literal?))) :
        Except Failure (List Node)) (Excused typed shown) := by
  refine errs_bind (itemsOrNone_errs h) fun items hitems => ?_
  cases items with
  | nil => exact errs_ok
  | cons item items =>
    refine errs_bind (literal?_errs fun hshown => ?_) fun _ _ => errs_error excused_schema
    exact isShowable_of_mem_met (hs hshown) item (met_of_itemsOrNone hitems item List.mem_cons_self)

mutual

theorem node_errs (howner : shown → owner.isShowable = true) : ∀ (d : Datum) (kind? : Option Kind)
    (name? : Option String), (typed → isTyped d = true) → (shown → d.isShowable = true) →
      Errs (node owner kind? name? d) (Excused typed shown)
  | .mapping entries mark, kind?, name?, h, hs => by
    unfold node
    refine errs_bind (kindOf_errs hs) fun _ _ => errs_bind nameOf_errs fun name hname => ?_
    refine errs_bind (childrenIn_errs howner entries (fun ht => ?_) hs) fun _ _ => ?_
    · have htyped := h ht
      simp only [isTyped, Bool.and_eq_true] at htyped
      exact htyped.2
    · exact withChildren_errs h hs howner fun hshown => isShowable_nameOf hname (hs hshown)
  | .scalar _, _, _, _, hs => noStatement_errs hs
  | .list _ _, _, _, _, hs => noStatement_errs hs
  | .set _ _, _, _, _, hs => noStatement_errs hs
  | .pair _ _, _, _, _, hs => noStatement_errs hs

theorem childrenIn_errs (howner : shown → owner.isShowable = true) : ∀ (entries : List (Scalar × Datum)),
    (typed → isTypedChildren entries = true) → (shown → areShowableEntries entries = true) →
      Errs (childrenIn owner entries) (Excused typed shown)
  | [], _, _ => errs_ok
  | (key, d) :: rest, h, hs => by
    simp only [areShowableEntries, Bool.and_eq_true] at hs
    unfold isTypedChildren at h
    unfold childrenIn
    split
    · rename_i hkey
      rw [if_pos hkey] at h
      exact nodes_errs howner d h fun hshown => (hs hshown).1.2
    · rename_i hkey
      rw [if_neg hkey] at h
      exact childrenIn_errs howner rest h fun hshown => (hs hshown).2

theorem nodes_errs (howner : shown → owner.isShowable = true) : ∀ (d : Datum),
    (typed → areTyped d = true) → (shown → d.isShowable = true) → Errs (nodes owner d) (Excused typed shown)
  | .list items _, h, hs => nodesOf_errs howner items h hs
  | .scalar _, h, hs => items_errs h hs
  | .mapping _ _, h, hs => items_errs h hs
  | .set _ _, h, hs => items_errs h hs
  | .pair _ _, h, hs => items_errs h hs

theorem nodesOf_errs (howner : shown → owner.isShowable = true) : ∀ (ds : List Datum),
    (typed → areTypedAll ds = true) → (shown → areShowable ds = true) → Errs (nodesOf owner ds) (Excused typed shown)
  | [], _, _ => errs_ok
  | d :: ds, h, hs => by
    simp only [areTypedAll, areShowable, Bool.and_eq_true] at h hs
    unfold nodesOf
    refine errs_bind (node_errs howner d none none (fun ht => (h ht).1) fun hshown => (hs hshown).1) fun _ _ => ?_
    exact errs_bind (nodesOf_errs howner ds (fun ht => (h ht).2) fun hshown => (hs hshown).2) fun _ _ => errs_ok

end

/-! ### Modules -/

/-- A loop over a field fails, or one of its steps does. -/
theorem loop_errs {α : Type} {f : Datum → Except Failure α} {items : List Datum} (hitems : itemsOrNone d = .ok items)
    (hs : shown → d.isShowable = true)
    (hf : ∀ x ∈ met d, (shown → x.isShowable = true) → Errs (f x) (Excused typed shown)) :
    Errs (items.mapM f) (Excused typed shown) :=
  errs_mapM fun x hx => hf x (met_of_itemsOrNone hitems x hx) fun hshown =>
    isShowable_of_mem_met (hs hshown) x (met_of_itemsOrNone hitems x hx)

theorem payload_errs {kind : Kind} (h : typed → isTypedPayload d = true) (hs : shown → d.isShowable = true)
    (howner : shown → owner.isShowable = true) : Errs (payload owner kind d) (Excused typed shown) := by
  unfold payload
  split
  · exact errs_ok
  · exact errs_bind (node_errs howner _ _ _ h hs) fun _ _ => errs_ok
  · rename_i hnull hmapping
    refine errs_bind (node_errs howner _ _ _ (fun ht => ?_) fun hshown => ?_) fun _ _ => errs_ok
    · have htyped := h ht
      unfold isTypedPayload at htyped
      split at htyped
      · exact absurd rfl (hmapping _ _)
      · rcases (Bool.or_eq_true _ _).mp htyped with hd | hd
        · unfold isNull at hd
          split at hd
          · exact absurd rfl hnull
          · cases hd
        · exact hd
    · show (true && d.isShowable && true) = true
      rw [hs hshown]
      rfl

theorem rpc_errs (h : typed → isTypedRpc d = true) (hs : shown → d.isShowable = true)
    (howner : shown → owner.isShowable = true) : Errs (rpc owner d) (Excused typed shown) := by
  simp only [isTypedRpc, Bool.and_eq_true] at h
  unfold rpc
  split
  · refine errs_bind (node_errs howner _ _ _ (fun ht => (h ht).1.1) hs) fun _ _ => ?_
    refine errs_bind (payload_errs (fun ht => (h ht).1.2) (fun hshown => isShowable_field (hs hshown) _) howner)
      fun _ _ => ?_
    exact errs_bind (payload_errs (fun ht => (h ht).2) (fun hshown => isShowable_field (hs hshown) _) howner)
      fun _ _ => errs_ok
  · exact errs_bind (literal?_errs hs) fun _ _ => errs_error excused_schema

theorem typedefs_errs (h : typed → isTypedTypedefs d = true) (hs : shown → d.isShowable = true) :
    Errs (typedefs d) (Excused typed shown) := by
  unfold typedefs
  split
  · rename_i hholds
    split
    · refine errs_bind (errs_mapM fun e he => ?_) fun _ _ => errs_ok
      refine errs_bind (type_errs (fun ht => List.all_eq_true.mp (h ht) e he) fun hshown => ?_) fun _ _ => errs_ok
      exact (areShowableEntries_iff.mp (hs hshown) e he).2
    · rename_i hmapping
      refine errs_error (excused_noMember fun ht => ?_)
      have htyped := h ht
      unfold isTypedTypedefs at htyped
      split at htyped
      · exact hmapping _ _ rfl
      · rw [hholds] at htyped
        cases htyped
  · exact errs_ok

theorem augment_errs (h : typed → isTypedAugment d = true) (hs : shown → d.isShowable = true)
    (howner : shown → owner.isShowable = true) : Errs (augment owner d) (Excused typed shown) := by
  simp only [isTypedAugment, Bool.and_eq_true] at h
  unfold augment
  split
  · refine errs_bind (nodes_errs howner _ (fun ht => (h ht).1) fun hshown => isShowable_field (hs hshown) _)
      fun _ _ => errs_ok
  · exact errs_error excused_schema

theorem module_errs (h : typed → isTypedModule d = true) (hs : shown → d.isShowable = true) :
    Errs (module d) (Excused typed shown) := by
  simp only [isTypedModule, Bool.and_eq_true, List.all_eq_true] at h
  have hfield := fun name hshown => isShowable_field (hs hshown) name
  have howner := hfield "name"
  unfold module
  split
  · refine errs_bind (typedefs_errs (fun ht => (h ht).1.1.1.1.1.1.1) (hfield _)) fun _ _ => ?_
    refine errs_bind (itemsOrNone_errs fun ht => (h ht).1.1.1.1.1.2) fun _ hitems => ?_
    refine errs_bind (loop_errs hitems (hfield _) fun x hx hs =>
      augment_errs (fun ht => (h ht).1.1.1.1.2 x hx) hs howner) fun _ _ => ?_
    refine errs_bind (nodes_errs howner _ (fun ht => (h ht).1.1.1.1.1.1.2) (hfield _)) fun _ _ => ?_
    refine errs_bind (itemsOrNone_errs fun ht => (h ht).1.1.1.2) fun _ hitems => ?_
    refine errs_bind (loop_errs hitems (hfield _) fun x hx hs =>
      rpc_errs (fun ht => (h ht).1.1.2 x hx) hs howner) fun _ _ => ?_
    refine errs_bind (itemsOrNone_errs fun ht => (h ht).1.2) fun _ hitems => ?_
    exact errs_bind (loop_errs hitems (hfield _) fun x hx hs =>
      node_errs howner x _ _ (fun ht => (h ht).2 x hx) hs) fun _ _ => errs_ok
  · exact errs_error excused_schema

theorem document_errs (h : typed → isTypedDocument d = true) (hs : shown → d.isShowable = true) :
    Errs (document d) (Excused typed shown) := by
  simp only [isTypedDocument, Bool.and_eq_true, List.all_eq_true] at h
  unfold document
  split
  · dsimp only
    split
    · exact errs_error excused_schema
    · rename_i hholds
      rw [Bool.not_eq_true, Bool.not_eq_false'] at hholds
      split
      · rename_i hitems
        exact errs_error (excused_wrongType fun ht => by simpa [canLoop, hholds, hitems] using (h ht).1)
      · rename_i items hitems
        refine errs_bind (errs_mapM fun x hx => ?_) fun _ _ => errs_ok
        refine module_errs (fun ht => (h ht).2 x ?_) fun hshown =>
          isShowable_of_mem_items? (isShowable_field (hs hshown) "modules") hitems x hx
        rwa [met, hitems]
  · exact errs_error excused_schema

/-- In a document of the right types the targets of augments are texts. -/
theorem isSome_target_of_document {modules : List Module} {augments : List Augment}
    (h : document d = .ok (modules, augments)) (ht : isTypedDocument d = true) :
    ∀ a ∈ augments, a.target.asText?.isSome = true := by
  obtain ⟨items, results, hitems, hall, -, rfl⟩ := exists_module_of_document h
  simp only [isTypedDocument, isTypedModule, isTypedAugment, met, hitems, Option.getD_some, Bool.and_eq_true,
    List.all_eq_true] at ht
  intro a ha
  obtain ⟨r, hr, ha⟩ := List.mem_flatMap.mp ha
  obtain ⟨x, hx, hmodule⟩ := exists_of_forall₂_right hall hr
  obtain ⟨ys, hys, haugments⟩ := (readFrom_of_module hmodule).augments
  obtain ⟨y, hy, haugment⟩ := exists_of_forall₂_right haugments ha
  have htarget := ((ht.2 x hx).1.1.1.1.2 y (met_of_itemsOrNone hys y hy)).2
  unfold augment at haugment
  split at haugment
  · rename_i hholds
    obtain ⟨_, -, haugment⟩ := Failure.ok_of_bind haugment
    obtain rfl := Except.ok.inj haugment
    rwa [hholds, Bool.not_true, Bool.false_or] at htarget
  · cases haugment

end Declaration

/-! ### Documents -/

namespace Schema

theorem load_errs (d : Datum) :
    Errs (load d).result (Excused (Declaration.isTypedDocument d = true) (d.isShowable = true)) := by
  cases hdocument : Declaration.document d with
  | error e =>
    intro e' he
    unfold load at he
    rw [Logged.ofExcept, hdocument, Logged.result_bind] at he
    obtain rfl := Except.error.inj he
    exact Declaration.document_errs id id e hdocument
  | ok r =>
    obtain ⟨modules, augments⟩ := r
    have hlisted : ∀ m ∈ (⟨modules⟩ : Schema).modules, m.retired = false :=
      fun m hm => ((Declaration.document_ok hdocument).1 m hm).retired
    rw [result_load hdocument]
    refine errs_map fun e he => ?_
    refine Expansion.expanding_fails hlisted (fun e he => ?_) (fun _ _ => excused_schema) (fun a ha hnone => ?_) [] e he
    · obtain ⟨⟨names, rfl⟩, -⟩ := he
      exact excused_schema
    · refine excused_wrongType fun ht => ?_
      have htext := Declaration.isSome_target_of_document hdocument ht a ha
      rw [hnone] at htext
      cases htext

/-- A document loads or is rejected with a fault of the schema, unless it has a value of a type that the loader has no
meaning for, or a whole number that cannot be shown. -/
theorem excused_of_load (d : Datum) : (∃ s, (load d).result = .ok s) ∨ ∃ e, (load d).result = .error e ∧
    ((∃ fault, e = .schema fault) ∨
      Declaration.isTypedDocument d = false ∧ (e = .wrongType ∨ e = .noMember) ∨
        d.isShowable = false ∧ e = .value .tooLongToShow) := by
  cases hload : (load d).result with
  | ok s => exact .inl ⟨s, rfl⟩
  | error e =>
    refine .inr ⟨e, rfl, ?_⟩
    simpa [Excused] using load_errs d e hload

end Schema

open Example Schema

/-- Modules that are no list, typedefs that are no mapping, keys that are no words and a target that is no path. -/
def Example.mistyped : List Datum := [
  .object [("modules", .int 5)],
  .object [("modules", .list [.object [("name", .text "m"), ("typedefs", .list [.text "t"])]])],
  document [("data", [statement "list" "l" [("key", .bool false)]])],
  document [("augments", [.object [("target", .int 5)]])]]

/-- Each of them escapes with a failure that is no fault of the schema. -/
theorem escapes_of_load_mistyped : Example.mistyped.Forall fun d => ∃ e, (load d).result = .error e ∧
    (e = .wrongType ∨ e = .noMember) ∧ Declaration.isTypedDocument d = false ∧ d.isShowable = true := by
  have htest : Example.mistyped.all (fun d => !(load d).result.toOption.isSome && (fault? d).isNone &&
      !Declaration.isTypedDocument d && d.isShowable) = true := by
    decide +kernel
  refine List.forall_iff_forall_mem.mpr fun d hd => ?_
  have hd := List.all_eq_true.mp htest d hd
  simp only [Bool.and_eq_true, Bool.not_eq_true'] at hd
  obtain ⟨⟨⟨hfails, hfault⟩, htyped⟩, hshown⟩ := hd
  cases he : (load d).result with
  | ok s =>
    rw [he] at hfails
    cases hfails
  | error e =>
    refine ⟨e, rfl, ?_, htyped, hshown⟩
    rcases load_errs d e he with ⟨fault, rfl⟩ | ⟨-, h⟩ | ⟨h, -⟩
    · rw [fault?, he] at hfault
      cases hfault
    · exact h
    · exact absurd hshown h

end RestconfApi
