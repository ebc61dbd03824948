import RestconfApi.Proofs.Names
import RestconfApi.Proofs.Schema.Typing

/-!
# Schema: chains of typedefs

A type leads from typedef to typedef, each looked up where the one before is written. A chain of them comes to a
built-in type, to a type that no typedef explains, or to a module and a name that it has met before; and it does only
one of these.
-/

namespace RestconfApi

/-! ### Types where they are written -/

/-- A type as it is written in a module. -/
structure TypeUse where
  type : LeafType
  owner : Name

namespace TypeUse

def IsBuiltin (x : TypeUse) : Prop := (builtin? x.type.name).isSome = true

instance (x : TypeUse) : Decidable x.IsBuiltin := inferInstanceAs (Decidable (_ = true))

/-- The name of the type is a text, and that of the module is a key, as names should be. -/
structure IsReadable (x : TypeUse) : Prop where
  name : ∃ name, x.type.name = .text name
  owner : ∃ k, x.owner = .scalar k

/-- It takes a typedef of this name to say what the type is. -/
structure LooksUp (x : TypeUse) (name : String) : Prop where
  builtin : ¬x.IsBuiltin
  name : x.type.name = .text name
  owner : ∃ k, x.owner = .scalar k

/-- It takes one and the same name in one and the same module to say what the types are. -/
def Repeats (x y : TypeUse) : Prop :=
  ∃ name, x.LooksUp name ∧ y.LooksUp name ∧ (x.owner == y.owner) = true

variable {x y : TypeUse} {name : String}

theorem LooksUp.eq {name' : String} (h : x.LooksUp name) (h' : x.LooksUp name') : name = name' := by
  have heq := h.name.symm.trans h'.name
  exact Scalar.text.inj (Datum.scalar.inj heq)

theorem IsReadable.exists_looksUp (h : x.IsReadable) (hbuiltin : ¬x.IsBuiltin) : ∃ name, x.LooksUp name := by
  obtain ⟨name, hname⟩ := h.name
  exact ⟨name, hbuiltin, hname, h.owner⟩

theorem Repeats.symm (h : x.Repeats y) : y.Repeats x := by
  obtain ⟨name, hx, hy, howner⟩ := h
  obtain ⟨j, hj⟩ := hx.owner
  obtain ⟨k, hk⟩ := hy.owner
  rw [hj, hk] at howner
  refine ⟨name, hy, hx, ?_⟩
  rw [hj, hk]
  exact BEq.symm (a := j) (b := k) howner

theorem isReadable_iff : x.IsReadable ↔ x.type.name.asText?.isSome = true ∧ x.owner.asKey?.isSome = true := by
  constructor
  · rintro ⟨⟨name, hname⟩, k, hk⟩
    rw [hname, hk]
    exact ⟨rfl, rfl⟩
  · rintro ⟨hname, howner⟩
    obtain ⟨name, hname⟩ := Option.isSome_iff_exists.mp hname
    obtain ⟨k, hk⟩ := Option.isSome_iff_exists.mp howner
    exact ⟨⟨name, Datum.eq_text_of_asText? hname⟩, k, Datum.eq_scalar_of_asKey? hk⟩

instance (x : TypeUse) : Decidable x.IsReadable := decidable_of_iff _ isReadable_iff.symm

theorem LooksUp.isReadable (h : x.LooksUp name) : x.IsReadable := ⟨⟨name, h.name⟩, h.owner⟩

end TypeUse

namespace Schema

variable {s : Schema} {x y z : TypeUse} {name : String} {n : Nat}

/-! ### What a type means -/

/-- A prefix denotes the module whose name it is or, if there is none, the first one whose short name it is. -/
inductive Denotes (s : Schema) (tag : String) (m : Module) : Prop
  | name : m ∈ s.modules → (m.name == .text tag) = true → Denotes s tag m
  | shortName : (∀ m' ∈ s.modules, (m'.name == .text tag) = false) →
      s.modules.find? (·.shortName == .text tag) = some m → Denotes s tag m

/-- The module whose typedef is meant by a name that is written in a module: this one itself or, if the name has a
prefix, the one that the prefix denotes. -/
inductive LooksIn (s : Schema) (name : String) (owner : Name) (m : Module) : Prop
  | own : (splitName name).1 = "" → m ∈ s.modules → (m.name == owner) = true → LooksIn s name owner m
  | foreign : (splitName name).1 ≠ "" → s.Denotes (splitName name).1 m → LooksIn s name owner m

/-- The typedef that a type means, as it is written in its module. A built-in type means none. -/
inductive Means (s : Schema) (x : TypeUse) : TypeUse → Prop
  | intro {name : String} {m : Module} {base : LeafType} : x.LooksUp name → s.LooksIn name x.owner m →
      m.typedefs.get? (.text (splitName name).2) = some base → Means s x ⟨base, m.name⟩

/-- The chain of typedefs from `x` meets `y` after `n` steps. -/
inductive Meets (s : Schema) (x : TypeUse) : Nat → TypeUse → Prop
  | start : Meets s x 0 x
  | step {n : Nat} {y z : TypeUse} : Meets s x n y → s.Means y z → Meets s x (n + 1) z

/-- The chain comes to a built-in type. It is the first one, as the chain goes no further. -/
def EndsIn (s : Schema) (x : TypeUse) (t : LeafType) : Prop :=
  ∃ n y, s.Meets x n y ∧ y.IsBuiltin ∧ y.type = t

/-- The chain comes to `y` and goes no further. -/
def IsLast (s : Schema) (x y : TypeUse) : Prop := (∃ n, s.Meets x n y) ∧ ∀ z, ¬s.Means y z

/-- The chain leaves the known typedefs: no typedef has the name that is looked up last. -/
def GetsLost (s : Schema) (x : TypeUse) : Prop := ∃ y name, s.IsLast x y ∧ y.LooksUp name

/-- The chain meets a pair of a module and a name again. -/
def GoesRound (s : Schema) (x : TypeUse) : Prop :=
  ∃ i j y z, i < j ∧ s.Meets x i y ∧ s.Meets x j z ∧ y.Repeats z

/-- The chain comes to a name that cannot be looked up, be it known or not. -/
def Breaks (s : Schema) (x : TypeUse) : Prop :=
  ∃ n y, s.Meets x n y ∧ ¬y.IsBuiltin ∧ ¬y.IsReadable

/-- The first enumerated values on the chain, none if all types on it enumerate none. -/
structure FirstEnum (s : Schema) (x : TypeUse) (enum : List String) : Prop where
  found : enum ≠ [] → ∃ n y, s.Meets x n y ∧ y.type.enum = enum ∧
    ∀ k z, k < n → s.Meets x k z → z.type.enum = []
  missing : enum = [] → ∀ n y, s.Meets x n y → y.type.enum = []

/-! ### Looking up in modules of different names -/

/-- No two modules have one name. -/
def HasDistinctNames (s : Schema) : Prop := s.modules.Pairwise fun m m' => (m.name == m'.name) = false

theorem map_fst_find?_zipIdx {α : Type} (l : List α) (p : α → Bool) :
    (l.zipIdx.find? fun e => p e.1).map (·.1) = l.find? p := by
  have hmap := List.find?_map (f := Prod.fst) (p := p) (l := l.zipIdx)
  rw [List.zipIdx_map_fst] at hmap
  exact hmap.symm

theorem map_fst_module? (name : Name) : (s.module? name).map (·.1) = s.modules.find? (·.name == name) :=
  map_fst_find?_zipIdx s.modules (·.name == name)

theorem map_fst_moduleByPrefix? (tag : Name) : (s.moduleByPrefix? tag).map (·.1) =
    (s.modules.find? (·.name == tag)).or (s.modules.find? (·.shortName == tag)) := by
  rw [← map_fst_module?, ← map_fst_find?_zipIdx s.modules (·.shortName == tag), moduleByPrefix?]
  cases s.module? tag <;> rfl

section Distinct

variable (hdistinct : s.HasDistinctNames)
include hdistinct

theorem find?_name_eq_some_iff {k : Scalar} {m : Module} :
    s.modules.find? (·.name == .scalar k) = some m ↔ m ∈ s.modules ∧ (m.name == .scalar k) = true := by
  constructor
  · intro h
    exact ⟨List.mem_of_find?_eq_some h, List.find?_some (p := fun m : Module => m.name == .scalar k) h⟩
  · rintro ⟨hm, hname⟩
    have hsome : (s.modules.find? (·.name == .scalar k)).isSome = true := List.find?_isSome.mpr ⟨m, hm, hname⟩
    obtain ⟨m', hfound⟩ := Option.isSome_iff_exists.mp hsome
    have hname' := List.find?_some (p := fun m : Module => m.name == .scalar k) hfound
    rw [hfound, Datum.eq_of_named hdistinct (List.mem_of_find?_eq_some hfound) hm hname' hname]

theorem denotes_iff {tag : String} {m : Module} :
    s.Denotes tag m ↔ (s.moduleByPrefix? (.text tag)).map (·.1) = some m := by
  rw [map_fst_moduleByPrefix?, Option.or_eq_some_iff, find?_name_eq_some_iff hdistinct, List.find?_eq_none]
  constructor
  · rintro (⟨hm, hname⟩ | ⟨hnone, hfound⟩)
    · exact .inl ⟨hm, hname⟩
    · exact .inr ⟨fun m' hm' => by simp [hnone m' hm'], hfound⟩
  · rintro (⟨hm, hname⟩ | ⟨hnone, hfound⟩)
    · exact .name hm hname
    · exact .shortName (fun m' hm' => by simpa using hnone m' hm') hfound

theorem looksIn_iff {k : Scalar} {m : Module} :
    s.LooksIn name (.scalar k) m ↔ (s.resolveName name (.scalar k)).1.map (·.1) = some m := by
  rw [resolveName]
  by_cases htag : (splitName name).1 = ""
  · simp only [htag, if_true, map_fst_module?, find?_name_eq_some_iff hdistinct]
    constructor
    · rintro (⟨-, hm, howner⟩ | ⟨hne, -⟩)
      · exact ⟨hm, howner⟩
      · exact absurd htag hne
    · rintro ⟨hm, howner⟩
      exact .own htag hm howner
  · simp only [htag, if_false, ← denotes_iff hdistinct]
    constructor
    · rintro (⟨heq, -, -⟩ | ⟨-, hdenotes⟩)
      · exact absurd heq htag
      · exact hdenotes
    · exact .foreign htag

theorem LooksIn.unique {owner : Name} (howner : ∃ k, owner = .scalar k) {m m' : Module}
    (h : s.LooksIn name owner m) (h' : s.LooksIn name owner m') : m = m' := by
  obtain ⟨k, rfl⟩ := howner
  rw [looksIn_iff hdistinct] at h h'
  exact Option.some.inj (h.symm.trans h')

theorem typedef?_eq_some_iff {k : Scalar} {base : LeafType} : s.typedef? name (.scalar k) = some base ↔
    ∃ m, s.LooksIn name (.scalar k) m ∧ m.typedefs.get? (.text (splitName name).2) = some base := by
  simp only [looksIn_iff hdistinct]
  have htypedef : s.typedef? name (.scalar k) = ((s.resolveName name (.scalar k)).1.map (·.1)).bind
      fun m => m.typedefs.get? (.text (splitName name).2) := by
    rw [typedef?, resolveName]
    dsimp only
    generalize (if (splitName name).1 = "" then _ else _) = found
    cases found <;> rfl
  rw [htypedef, Option.bind_eq_some_iff]

theorem Means.typedef?_eq (hx : x.LooksUp name) (h : s.Means x y) : s.typedef? name x.owner = some y.type := by
  cases h with
  | intro hx' hin hget =>
    obtain rfl := hx.eq hx'
    obtain ⟨k, hk⟩ := hx.owner
    rw [hk] at hin ⊢
    exact (typedef?_eq_some_iff hdistinct).mpr ⟨_, hin, hget⟩

theorem exists_means_of_typedef? (hx : x.LooksUp name) {base : LeafType}
    (hbase : s.typedef? name x.owner = some base) : ∃ y, s.Means x y ∧ y.type = base := by
  obtain ⟨k, hk⟩ := hx.owner
  rw [hk] at hbase
  obtain ⟨m, hin, hget⟩ := (typedef?_eq_some_iff hdistinct).mp hbase
  rw [← hk] at hin
  exact ⟨⟨base, m.name⟩, .intro hx hin hget, rfl⟩

theorem Means.unique (h : s.Means x y) (h' : s.Means x z) : y = z := by
  cases h with
  | @intro name m base hx hin hget =>
    cases h' with
    | @intro name' m' base' hx' hin' hget' =>
      obtain rfl := hx.eq hx'
      obtain rfl := hin.unique hdistinct hx.owner hin'
      rw [Option.some.inj (hget.symm.trans hget')]

theorem Meets.unique (h : s.Meets x n y) (h' : s.Meets x n z) : y = z := by
  induction h generalizing z with
  | start =>
    cases h'
    rfl
  | step _ hmeans ih =>
    cases h' with
    | step h' hmeans' =>
      obtain rfl := ih h'
      exact hmeans.unique hdistinct hmeans'

end Distinct

theorem Denotes.mem {tag : String} {m : Module} (h : s.Denotes tag m) : m ∈ s.modules := by
  cases h with
  | name hm _ => exact hm
  | shortName _ hfound => exact List.mem_of_find?_eq_some hfound

theorem LooksIn.mem {owner : Name} {m : Module} (h : s.LooksIn name owner m) : m ∈ s.modules := by
  cases h with
  | own _ hm _ => exact hm
  | foreign _ hdenotes => exact hdenotes.mem

/-- What is meant is one of the typedefs of a module. -/
theorem Means.exists_mem (h : s.Means x y) :
    ∃ m ∈ s.modules, y.owner = m.name ∧ ∃ entry ∈ m.typedefs, entry.2 = y.type := by
  cases h with
  | @intro _ m base _ hin hget =>
    obtain ⟨key, hkey, -⟩ := Entries.mem_of_get? hget
    exact ⟨m, hin.mem, rfl, (key, base), hkey, rfl⟩

theorem LooksIn.congr {j k : Scalar} (hjk : (j == k) = true) {m : Module} (h : s.LooksIn name (.scalar j) m) :
    s.LooksIn name (.scalar k) m := by
  cases h with
  | own htag hm hname => exact .own htag hm (Datum.beq_scalar_trans hname hjk)
  | foreign htag hdenotes => exact .foreign htag hdenotes

/-- What a type means depends on its name and on the module only. -/
theorem Means.congr (hxy : x.Repeats y) (h : s.Means x z) : s.Means y z := by
  obtain ⟨name, hx, hy, howner⟩ := hxy
  cases h with
  | intro hx' hin hget =>
    obtain rfl := hx.eq hx'
    obtain ⟨j, hj⟩ := hx.owner
    obtain ⟨k, hk⟩ := hy.owner
    rw [hj, hk] at howner
    rw [hj] at hin
    refine .intro hy ?_ hget
    rw [hk]
    exact hin.congr howner

theorem Means.exists_looksUp (h : s.Means x y) : ∃ name, x.LooksUp name := by
  cases h with
  | intro hx _ _ => exact ⟨_, hx⟩

/-! ### How chains end -/

theorem Meets.exists_means_of_lt {k : Nat} (h : s.Meets x n y) (hk : k < n) :
    ∃ z w, s.Meets x k z ∧ s.Means z w := by
  induction h with
  | start => exact absurd hk (Nat.not_lt_zero k)
  | @step n y z hy hmeans ih =>
    rcases Nat.lt_succ_iff_lt_or_eq.mp hk with hk | rfl
    · exact ih hk
    · exact ⟨y, z, hy, hmeans⟩

/-- Nothing is met beyond a type that means nothing. -/
theorem Meets.le_of_last (hdistinct : s.HasDistinctNames) {k : Nat} (h : s.Meets x n y)
    (hlast : ∀ w, ¬s.Means y w) (h' : s.Meets x k z) : k ≤ n := by
  by_contra hlt
  obtain ⟨y', w, hy', hmeans⟩ := h'.exists_means_of_lt (Nat.lt_of_not_le hlt)
  obtain rfl := h.unique hdistinct hy'
  exact hlast w hmeans

theorem IsLast.unique (hdistinct : s.HasDistinctNames) (h : s.IsLast x y) (h' : s.IsLast x z) : y = z := by
  obtain ⟨⟨n, hy⟩, hlast⟩ := h
  obtain ⟨⟨k, hz⟩, hlast'⟩ := h'
  obtain rfl := Nat.le_antisymm (hz.le_of_last hdistinct hlast' hy) (hy.le_of_last hdistinct hlast hz)
  exact hy.unique hdistinct hz

/-- From where a pair is met again the chain repeats itself. -/
theorem Meets.exists_le_of_repeats (hdistinct : s.HasDistinctNames) {i j : Nat} {w : TypeUse} (hij : i < j)
    (hy : s.Meets x i y) (hz : s.Meets x j z) (hrepeats : y.Repeats z) (h : s.Meets x n w) :
    ∃ k ≤ j, s.Meets x k w := by
  induction h with
  | start => exact ⟨0, Nat.zero_le j, .start⟩
  | step _ hmeans ih =>
    obtain ⟨k, hk, hw⟩ := ih
    rcases Nat.lt_or_eq_of_le hk with hk | rfl
    · exact ⟨k + 1, hk, hw.step hmeans⟩
    · obtain rfl := hw.unique hdistinct hz
      exact ⟨i + 1, hij, hy.step (hmeans.congr hrepeats.symm)⟩

/-- A chain that goes round has no end. -/
theorem GoesRound.not_isLast (hdistinct : s.HasDistinctNames) (h : s.GoesRound x) : ¬s.IsLast x y := by
  rintro ⟨⟨n, hy⟩, hlast⟩
  obtain ⟨i, j, z, w, hij, hz, hw, hrepeats⟩ := h
  obtain ⟨k, hk, hy⟩ := Meets.exists_le_of_repeats hdistinct hij hz hw hrepeats hy
  rcases Nat.lt_or_eq_of_le hk with hk | rfl
  · obtain ⟨y', v, hy', hmeans⟩ := hw.exists_means_of_lt hk
    obtain rfl := hy.unique hdistinct hy'
    exact hlast v hmeans
  · obtain ⟨z', v, hz', hmeans⟩ := hw.exists_means_of_lt hij
    obtain rfl := hz.unique hdistinct hz'
    obtain rfl := hy.unique hdistinct hw
    exact hlast v (hmeans.congr hrepeats)

theorem EndsIn.exists_isLast {t : LeafType} (h : s.EndsIn x t) : ∃ y, s.IsLast x y ∧ y.IsBuiltin ∧ y.type = t := by
  obtain ⟨n, y, hy, hbuiltin, htype⟩ := h
  refine ⟨y, ⟨⟨n, hy⟩, fun z hmeans => ?_⟩, hbuiltin, htype⟩
  obtain ⟨name, hlooks⟩ := hmeans.exists_looksUp
  exact hlooks.builtin hbuiltin

theorem Breaks.exists_isLast (h : s.Breaks x) : ∃ y, s.IsLast x y ∧ ¬y.IsBuiltin ∧ ¬y.IsReadable := by
  obtain ⟨n, y, hy, hbuiltin, hunreadable⟩ := h
  refine ⟨y, ⟨⟨n, hy⟩, fun z hmeans => ?_⟩, hbuiltin, hunreadable⟩
  obtain ⟨name, hlooks⟩ := hmeans.exists_looksUp
  exact hunreadable hlooks.isReadable

section Ends

variable (hdistinct : s.HasDistinctNames)
include hdistinct

theorem EndsIn.unique {t t' : LeafType} (h : s.EndsIn x t) (h' : s.EndsIn x t') : t = t' := by
  obtain ⟨y, hy, -, rfl⟩ := h.exists_isLast
  obtain ⟨z, hz, -, rfl⟩ := h'.exists_isLast
  rw [hy.unique hdistinct hz]

theorem EndsIn.not_getsLost {t : LeafType} (h : s.EndsIn x t) : ¬s.GetsLost x := by
  obtain ⟨y, hy, hbuiltin, -⟩ := h.exists_isLast
  rintro ⟨z, name, hz, hlooks⟩
  obtain rfl := hy.unique hdistinct hz
  exact hlooks.builtin hbuiltin

theorem EndsIn.not_goesRound {t : LeafType} (h : s.EndsIn x t) : ¬s.GoesRound x := by
  obtain ⟨y, hy, -⟩ := h.exists_isLast
  exact fun hround => hround.not_isLast hdistinct hy

theorem Breaks.not_endsIn {t : LeafType} (h : s.Breaks x) : ¬s.EndsIn x t := by
  obtain ⟨y, hy, hbuiltin, -⟩ := h.exists_isLast
  intro hends
  obtain ⟨z, hz, hbuiltin', -⟩ := hends.exists_isLast
  obtain rfl := hy.unique hdistinct hz
  exact hbuiltin hbuiltin'

theorem Breaks.not_getsLost (h : s.Breaks x) : ¬s.GetsLost x := by
  obtain ⟨y, hy, -, hunreadable⟩ := h.exists_isLast
  rintro ⟨z, name, hz, hlooks⟩
  obtain rfl := hy.unique hdistinct hz
  exact hunreadable hlooks.isReadable

theorem Breaks.not_goesRound (h : s.Breaks x) : ¬s.GoesRound x := by
  obtain ⟨y, hy, -⟩ := h.exists_isLast
  exact fun hround => hround.not_isLast hdistinct hy

end Ends

/-- Where all typedefs have names that can be read, a chain that starts with one goes on with such names. -/
theorem Meets.isReadable (hnames : ∀ m ∈ s.modules, ∀ entry ∈ m.typedefs, (TypeUse.mk entry.2 m.name).IsReadable)
    (h : s.Meets x n y) (hx : x.IsReadable) : y.IsReadable := by
  cases h with
  | start => exact hx
  | step _ hmeans =>
    obtain ⟨m, hm, howner, entry, hentry, htype⟩ := hmeans.exists_mem
    obtain ⟨hname, hkey⟩ := hnames m hm entry hentry
    rw [htype] at hname
    exact ⟨hname, howner ▸ hkey⟩

end Schema

end RestconfApi
