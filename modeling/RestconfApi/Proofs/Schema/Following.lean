import Mathlib.Data.List.ProdSigma
import RestconfApi.Proofs.Schema.Typedefs

/-!
# Schema: following typedefs, step by step

From a type the typedef that is found for it is followed, and so on, until a built-in type, a name that no typedef has
or a pair of a module and a name that has been met before. Only finitely many such pairs can be met, so that this ends
in every schema, and no bound cuts it short.
-/

namespace RestconfApi

namespace TypeUse

variable {x : TypeUse} {name : String}

theorem LooksUp.beq_self (h : x.LooksUp name) : ((x.owner, name) == (x.owner, name)) = true := by
  obtain ⟨k, hk⟩ := h.owner
  rw [hk]
  exact Bool.and_eq_true_iff.mpr ⟨BEq.rfl (a := k), BEq.rfl⟩

theorem LooksUp.typeName_eq (h : x.LooksUp name) : Schema.typeName x.type.name x.owner = .ok name := by
  obtain ⟨k, hk⟩ := h.owner
  rw [h.name, hk]
  rfl

theorem LooksUp.of_typeName (hbuiltin : ¬x.IsBuiltin) (h : Schema.typeName x.type.name x.owner = .ok name) :
    x.LooksUp name := by
  unfold Schema.typeName at h
  obtain ⟨-, -, h⟩ := Failure.ok_of_bind h
  obtain ⟨k, hk, h⟩ := Failure.ok_of_bind h
  split at h
  · rename_i text heq
    obtain rfl := Except.ok.inj h
    exact ⟨hbuiltin, heq, k, Datum.eq_of_key? hk⟩
  · cases h
  · cases h

end TypeUse

namespace Schema

variable {s : Schema} {x₀ x : TypeUse} {name : String} {seen : List (Name × String)} {enum : List String}
  {base : LeafType} {out : Logged Resolved} {fuel : Nat}

/-! ### One step -/

/-- A name that is met again in a module counts as a text. -/
def circularTypedef (name : String) (owner : Name) (enum : List String) : Logged Resolved := do
  let place := owner.wording
  Logged.write .warning s!"Circular typedef {name} in module {place}, using string"
  pure (string enum)

/-- A name that no typedef has counts as a text. -/
def unknownType (name : String) (owner : Name) (enum : List String) : Logged Resolved := do
  let place := owner.wording
  Logged.write .debug s!"Unknown type {name} in module {place}, using string"
  pure (string enum)

/-- The name that the next typedef's module goes by, after a name that is written in a module. -/
def nextOwner (s : Schema) (name : String) (owner : Name) : Name :=
  if (splitName name).1 = "" then owner
  else ((s.moduleByPrefix? (.text (splitName name).1)).map (·.1.name)).getD owner

/-- The type is followed to a typedef that has been found for it. -/
def nextUse (s : Schema) (name : String) (x : TypeUse) (base : LeafType) : TypeUse :=
  ⟨base, s.nextOwner name x.owner⟩

/-- `Follows s seen enum x out`: after the pairs `seen`, and with the enumerated values found on the way, the type `x`
is followed to `out`, through as many typedefs as it takes. -/
inductive Follows (s : Schema) : List (Name × String) → List String → TypeUse → Logged Resolved → Prop
  | builtin {seen : List (Name × String)} {enum : List String} {x : TypeUse} : x.IsBuiltin →
      Follows s seen enum x (pure ⟨x.type, enum⟩)
  | unreadable {seen : List (Name × String)} {enum : List String} {x : TypeUse} {e : Failure} : ¬x.IsBuiltin →
      typeName x.type.name x.owner = .error e → Follows s seen enum x (Logged.fail e)
  | again {seen : List (Name × String)} {enum : List String} {x : TypeUse} {name : String} : x.LooksUp name →
      seen.contains (x.owner, name) = true → Follows s seen enum x (circularTypedef name x.owner enum)
  | unknown {seen : List (Name × String)} {enum : List String} {x : TypeUse} {name : String} : x.LooksUp name →
      seen.contains (x.owner, name) = false → s.typedef? name x.owner = none →
      Follows s seen enum x (unknownType name x.owner enum)
  | next {seen : List (Name × String)} {enum : List String} {x : TypeUse} {name : String} {base : LeafType}
      {out : Logged Resolved} : x.LooksUp name → seen.contains (x.owner, name) = false →
      s.typedef? name x.owner = some base →
      Follows s ((x.owner, name) :: seen) (if enum.isEmpty then base.enum else enum) (s.nextUse name x base) out →
      Follows s seen enum x out

theorem effectiveFrom_of_isBuiltin (h : x.IsBuiltin) :
    s.effectiveFrom (fuel + 1) seen enum x.type x.owner = pure ⟨x.type, enum⟩ := by
  rw [effectiveFrom]
  exact if_pos h

theorem effectiveFrom_of_error (h : ¬x.IsBuiltin) {e : Failure} (he : typeName x.type.name x.owner = .error e) :
    s.effectiveFrom (fuel + 1) seen enum x.type x.owner = Logged.fail e := by
  rw [effectiveFrom, he]
  exact if_neg h

theorem effectiveFrom_of_looksUp (h : x.LooksUp name) :
    s.effectiveFrom (fuel + 1) seen enum x.type x.owner =
      if seen.contains (x.owner, name) = true then circularTypedef name x.owner enum
      else (s.typedef? name x.owner).elim (unknownType name x.owner enum) fun base =>
        s.effectiveFrom fuel ((x.owner, name) :: seen) (if enum.isEmpty then base.enum else enum) base
          (s.nextOwner name x.owner) := by
  rw [effectiveFrom, h.typeName_eq]
  refine (if_neg h.builtin).trans ?_
  show (if seen.contains (x.owner, name) = true then _ else _ : Logged Resolved) = _
  cases s.typedef? name x.owner <;> rfl

theorem effectiveFrom_of_seen (h : x.LooksUp name) (hseen : seen.contains (x.owner, name) = true) :
    s.effectiveFrom (fuel + 1) seen enum x.type x.owner = circularTypedef name x.owner enum := by
  rw [effectiveFrom_of_looksUp h, if_pos hseen]

theorem effectiveFrom_of_unknown (h : x.LooksUp name) (hnew : seen.contains (x.owner, name) = false)
    (hnone : s.typedef? name x.owner = none) :
    s.effectiveFrom (fuel + 1) seen enum x.type x.owner = unknownType name x.owner enum := by
  rw [effectiveFrom_of_looksUp h, hnew, if_neg Bool.false_ne_true, hnone, Option.elim_none]

theorem effectiveFrom_of_known (h : x.LooksUp name) (hnew : seen.contains (x.owner, name) = false)
    (hbase : s.typedef? name x.owner = some base) :
    s.effectiveFrom (fuel + 1) seen enum x.type x.owner =
      s.effectiveFrom fuel ((x.owner, name) :: seen) (if enum.isEmpty then base.enum else enum) base
        (s.nextOwner name x.owner) := by
  rw [effectiveFrom_of_looksUp h, hnew, if_neg Bool.false_ne_true, hbase, Option.elim_some]

/-! ### What can be met -/

theorem mem_of_resolveName {ref : String} {owner name : Name} {m : Module} {i : Nat}
    (h : s.resolveName ref owner = (some (m, i), name)) : m ∈ s.modules := by
  have hfound : (if (splitName ref).1 = "" then s.module? owner else s.moduleByPrefix? (.text (splitName ref).1)) =
    some (m, i) := congrArg Prod.fst h
  split at hfound
  · exact List.mem_of_getElem? (mem_of_module? hfound).1
  · exact List.mem_of_getElem? (mem_of_moduleByPrefix? hfound)

/-- A typedef that is found stands in a module. -/
theorem exists_mem_of_typedef? {owner : Name} (h : s.typedef? name owner = some base) :
    ∃ m ∈ s.modules, ∃ entry ∈ m.typedefs, entry.2 = base := by
  unfold typedef? at h
  split at h
  · rename_i hresolve
    obtain ⟨k, -, hbase⟩ := Option.bind_eq_some_iff.mp h
    obtain ⟨j, hj, -⟩ := Entries.mem_of_get? hbase
    exact ⟨_, mem_of_resolveName hresolve, _, hj, rfl⟩
  · cases h

/-- A typedef without a known prefix is followed in the same module, any other in the module of the prefix. -/
theorem nextOwner_eq_or_mem (name : String) (owner : Name) :
    s.nextOwner name owner = owner ∨ ∃ m ∈ s.modules, s.nextOwner name owner = m.name := by
  unfold nextOwner
  split
  · exact .inl rfl
  · cases hfound : s.moduleByPrefix? (.text (splitName name).1) with
    | none => exact .inl rfl
    | some found => exact .inr ⟨found.1, List.mem_of_getElem? (mem_of_moduleByPrefix? hfound), rfl⟩

/-- The names of the modules that types are followed through from the module `owner`. -/
def owners (s : Schema) (owner : Name) : List Name := owner :: s.modules.map (·.name)

/-- The names of the types that `t` can be followed to. -/
def typeNames (s : Schema) (t : LeafType) : List Name :=
  t.name :: s.modules.flatMap fun m => m.typedefs.map (·.2.name)

theorem length_typeNames (t : LeafType) :
    (s.typeNames t).length = s.modules.foldl (fun n m => n + m.typedefs.length) 1 := by
  suffices h : ∀ (l : List Module) (n : Nat), l.foldl (fun n m => n + m.typedefs.length) n =
      n + (l.flatMap fun m => m.typedefs.map (·.2.name)).length by
    rw [h, typeNames, List.length_cons, Nat.add_comm]
  intro l
  induction l with
  | nil => exact fun n => rfl
  | cons m l ih =>
    intro n
    rw [List.foldl_cons, ih, List.flatMap_cons, List.length_append, List.length_map, Nat.add_assoc]

theorem length_product_lt_typedefBound (x : TypeUse) :
    (s.owners x.owner ×ˢ s.typeNames x.type).length < s.typedefBound := by
  rw [List.length_product, length_typeNames, owners, List.length_cons, List.length_map, Nat.mul_comm]
  exact Nat.lt_succ_self _

/-- What has been met since `x₀` are different pairs of a module and a name that there are. -/
structure IsWithin (s : Schema) (x₀ : TypeUse) (seen : List (Name × String)) (x : TypeUse) : Prop where
  owner : x.owner ∈ s.owners x₀.owner
  name : x.type.name ∈ s.typeNames x₀.type
  pairs : ∀ e ∈ seen, e.1 ∈ s.owners x₀.owner ∧ .text e.2 ∈ s.typeNames x₀.type
  nodup : seen.Nodup

theorem isWithin_start (x : TypeUse) : s.IsWithin x [] x where
  owner := List.mem_cons_self
  name := List.mem_cons_self
  pairs := by simp
  nodup := List.nodup_nil

theorem IsWithin.length_lt (h : s.IsWithin x₀ seen x) : seen.length < s.typedefBound := by
  have hinj : Function.Injective fun e : Name × String => (e.1, Datum.text e.2) := by
    intro e e' heq
    obtain ⟨howner, hname⟩ := Prod.mk.inj heq
    exact Prod.ext howner (Scalar.text.inj (Datum.scalar.inj hname))
  have hsub : seen.map (fun e => (e.1, Datum.text e.2)) ⊆ s.owners x₀.owner ×ˢ s.typeNames x₀.type := by
    intro pair hpair
    obtain ⟨e, he, rfl⟩ := List.mem_map.mp hpair
    exact List.mem_product.mpr (h.pairs e he)
  -- different pairs among so many are at most so many
  have hle := (List.Nodup.subperm (h.nodup.map hinj) hsub).length_le
  rw [List.length_map] at hle
  exact Nat.lt_of_le_of_lt hle (length_product_lt_typedefBound x₀)

/-- What looks up a name is one more than what has been seen without it. -/
theorem IsWithin.next (h : s.IsWithin x₀ seen x) (hx : x.LooksUp name)
    (hnew : seen.contains (x.owner, name) = false) (hbase : s.typedef? name x.owner = some base) :
    s.IsWithin x₀ ((x.owner, name) :: seen) (s.nextUse name x base) where
  owner := by
    show s.nextOwner name x.owner ∈ _
    rcases s.nextOwner_eq_or_mem name x.owner with hown | ⟨m, hm, hown⟩
    · rw [hown]
      exact h.owner
    · rw [hown]
      exact List.mem_cons_of_mem _ (List.mem_map_of_mem hm)
  name := by
    obtain ⟨m, hm, entry, hentry, rfl⟩ := exists_mem_of_typedef? hbase
    exact List.mem_cons_of_mem _ (List.mem_flatMap.mpr ⟨m, hm, List.mem_map.mpr ⟨entry, hentry, rfl⟩⟩)
  pairs := by
    refine List.forall_mem_cons.mpr ⟨⟨h.owner, ?_⟩, h.pairs⟩
    rw [← hx.name]
    exact h.name
  nodup := by
    refine List.nodup_cons.mpr ⟨fun hmem => ?_, h.nodup⟩
    have hseen : seen.contains (x.owner, name) = true := by
      rw [List.contains_eq_any_beq]
      exact List.any_eq_true.mpr ⟨_, hmem, hx.beq_self⟩
    rw [hnew] at hseen
    cases hseen

/-! ### The run -/

/-- Within the bound, the run from a type is followed to its end. -/
theorem follows_effectiveFrom (h : s.IsWithin x₀ seen x) (hfuel : s.typedefBound ≤ seen.length + fuel)
    (enum : List String) : Follows s seen enum x (s.effectiveFrom fuel seen enum x.type x.owner) := by
  induction fuel generalizing seen enum x with
  | zero => exact absurd h.length_lt (Nat.not_lt_of_le hfuel)
  | succ fuel ih =>
    by_cases hbuiltin : x.IsBuiltin
    · rw [effectiveFrom_of_isBuiltin hbuiltin]
      exact .builtin hbuiltin
    cases hname : typeName x.type.name x.owner with
    | error e =>
      rw [effectiveFrom_of_error hbuiltin hname]
      exact .unreadable hbuiltin hname
    | ok name =>
      have hx : x.LooksUp name := .of_typeName hbuiltin hname
      cases hseen : seen.contains (x.owner, name) with
      | true =>
        rw [effectiveFrom_of_seen hx hseen]
        exact .again hx hseen
      | false =>
        cases hbase : s.typedef? name x.owner with
        | none =>
          rw [effectiveFrom_of_unknown hx hseen hbase]
          exact .unknown hx hseen hbase
        | some base =>
          rw [effectiveFrom_of_known hx hseen hbase]
          refine .next hx hseen hbase (ih (h.next hx hseen hbase) ?_ _)
          rw [List.length_cons]
          omega

theorem exists_least_of_succ {α : Type} {f : Nat → α} {a : α} (h : ∀ n, f (n + 1) = a) :
    ∃ least, ∀ n, least ≤ n → f n = a := by
  refine ⟨1, fun n hn => ?_⟩
  obtain ⟨k, rfl⟩ := Nat.exists_eq_add_of_le' hn
  exact h k

/-- With enough fuel a type is followed to where it can be followed. -/
theorem Follows.exists_least (h : Follows s seen enum x out) :
    ∃ least, ∀ fuel, least ≤ fuel → s.effectiveFrom fuel seen enum x.type x.owner = out := by
  induction h with
  | builtin hbuiltin => exact exists_least_of_succ fun _ => effectiveFrom_of_isBuiltin hbuiltin
  | unreadable hbuiltin hname => exact exists_least_of_succ fun _ => effectiveFrom_of_error hbuiltin hname
  | again hx hseen => exact exists_least_of_succ fun _ => effectiveFrom_of_seen hx hseen
  | unknown hx hnew hnone => exact exists_least_of_succ fun _ => effectiveFrom_of_unknown hx hnew hnone
  | next hx hnew hbase _ ih =>
    obtain ⟨least, hleast⟩ := ih
    refine ⟨least + 1, fun fuel hfuel => ?_⟩
    obtain ⟨fuel, rfl⟩ := Nat.exists_eq_add_of_le' (Nat.le_trans (Nat.le_add_left 1 least) hfuel)
    rw [effectiveFrom_of_known hx hnew hbase]
    exact hleast fuel (Nat.le_of_succ_le_succ hfuel)

theorem Follows.unique {out' : Logged Resolved} (h : Follows s seen enum x out) (h' : Follows s seen enum x out') :
    out = out' := by
  obtain ⟨least, hleast⟩ := h.exists_least
  obtain ⟨least', hleast'⟩ := h'.exists_least
  exact (hleast _ (Nat.le_max_left least least')).symm.trans (hleast' _ (Nat.le_max_right least least'))

theorem follows_effective (t : LeafType) (owner : Name) : Follows s [] t.enum ⟨t, owner⟩ (s.effective t owner) :=
  follows_effectiveFrom (s.isWithin_start ⟨t, owner⟩) (by simp) t.enum

/-- The bound is never reached: the type is followed to the one outcome of the run. -/
theorem follows_iff {t : LeafType} {owner : Name} : Follows s [] t.enum ⟨t, owner⟩ out ↔ s.effective t owner = out := by
  constructor
  · exact (follows_effective t owner).unique
  · rintro rfl
    exact follows_effective t owner

end Schema

end RestconfApi
