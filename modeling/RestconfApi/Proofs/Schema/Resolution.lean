import RestconfApi.Proofs.Schema.Following

/-!
# Schema: where following typedefs ends

In modules of different names the run that follows typedefs goes along the chain of what types mean. It ends where the
chain does, or where a pair of a module and a name is met again, and has the first enumerated values on the way.
-/

namespace RestconfApi

namespace TypeUse

variable {x y : TypeUse} {name : String}

/-- One type in one module, which may be named by different values that are the same key. -/
structure Alike (x y : TypeUse) : Prop where
  type : x.type = y.type
  owner : x.owner = y.owner ∨ ∃ j k, x.owner = .scalar j ∧ y.owner = .scalar k ∧ (j == k) = true

theorem Alike.refl (x : TypeUse) : x.Alike x := ⟨rfl, .inl rfl⟩

theorem Alike.symm (h : x.Alike y) : y.Alike x := by
  refine ⟨h.type.symm, ?_⟩
  rcases h.owner with heq | ⟨j, k, hj, hk, hjk⟩
  · exact .inl heq.symm
  · exact .inr ⟨k, j, hk, hj, BEq.symm hjk⟩

theorem Alike.isBuiltin (h : x.Alike y) (hx : x.IsBuiltin) : y.IsBuiltin := by
  unfold IsBuiltin
  rw [← h.type]
  exact hx

theorem Alike.isReadable (h : x.Alike y) (hx : x.IsReadable) : y.IsReadable := by
  refine ⟨?_, ?_⟩
  · rw [← h.type]
    exact hx.name
  · rcases h.owner with heq | ⟨-, k, -, hk, -⟩
    · rw [← heq]
      exact hx.owner
    · exact ⟨k, hk⟩

theorem Alike.looksUp (h : x.Alike y) (hx : x.LooksUp name) : y.LooksUp name where
  builtin hbuiltin := hx.builtin (h.symm.isBuiltin hbuiltin)
  name := by
    rw [← h.type]
    exact hx.name
  owner := (h.isReadable hx.isReadable).owner

theorem Alike.beq_scalar (h : x.Alike y) {k : Scalar} (hx : (x.owner == .scalar k) = true) :
    (y.owner == .scalar k) = true := by
  rcases h.owner with heq | ⟨i, j, hi, hj, hij⟩
  · rw [← heq]
    exact hx
  · rw [hi] at hx
    rw [hj]
    exact BEq.trans (a := j) (b := i) (c := k) (BEq.symm hij) hx

theorem Alike.repeats (h : x.Alike y) (hx : x.LooksUp name) : x.Repeats y := by
  refine ⟨name, hx, h.looksUp hx, ?_⟩
  rcases h.owner with heq | ⟨j, k, hj, hk, hjk⟩
  · obtain ⟨k, hk⟩ := hx.owner
    rw [← heq, hk]
    exact BEq.rfl (a := k)
  · rw [hj, hk]
    exact hjk

end TypeUse

namespace Schema

variable {s : Schema} {x₀ x y z : TypeUse} {name : String} {seen : List (Name × String)} {enum : List String}
  {n : Nat}

/-! ### Where a chain is followed to -/

theorem Means.alike_nextUse (hdistinct : s.HasDistinctNames) (hx : x.LooksUp name) (h : s.Means x y) :
    y.Alike (s.nextUse name x y.type) := by
  refine ⟨rfl, ?_⟩
  show y.owner = s.nextOwner name x.owner ∨ ∃ j k, y.owner = _ ∧ s.nextOwner name x.owner = _ ∧ _
  unfold nextOwner
  cases h with
  | @intro name' m base hx' hin _ =>
    obtain rfl := hx.eq hx'
    cases hin with
    | own htag _ howner =>
      obtain ⟨k, hk⟩ := hx.owner
      rw [hk] at howner
      obtain ⟨j, hj, hjk⟩ := Datum.beq_scalar_iff.mp howner
      rw [if_pos htag]
      exact .inr ⟨j, k, hj, hk, hjk⟩
    | foreign htag hdenotes =>
      have hfound := (denotes_iff hdistinct).mp hdenotes
      obtain ⟨found, hsome, rfl⟩ := Option.map_eq_some_iff.mp hfound
      rw [if_neg htag, hsome]
      exact .inl rfl

/-- `Reached s x₀ n seen enum y x`: after `n` steps from `x₀` the chain is at `y`, which is `x`, with the pairs `seen`
and the first enumerated values behind. -/
structure Reached (s : Schema) (x₀ : TypeUse) (n : Nat) (seen : List (Name × String)) (enum : List String)
    (y x : TypeUse) : Prop where
  meets : s.Meets x₀ n y
  alike : y.Alike x
  pairs : ∀ e ∈ seen, ∃ i z k, i < n ∧ s.Meets x₀ i z ∧ z.LooksUp e.2 ∧ e.1 = .scalar k ∧ (z.owner == .scalar k) = true
  found : enum ≠ [] → ∃ k z, s.Meets x₀ k z ∧ z.type.enum = enum ∧ ∀ j w, j < k → s.Meets x₀ j w → w.type.enum = []
  missing : enum = [] → ∀ k z, k ≤ n → s.Meets x₀ k z → z.type.enum = []

theorem reached_start (x : TypeUse) : s.Reached x 0 [] x.type.enum x x where
  meets := .start
  alike := .refl x
  pairs := by simp
  found _ := ⟨0, x, .start, rfl, fun _ _ hj => absurd hj (Nat.not_lt_zero _)⟩
  missing henum k z hk hz := by
    obtain rfl := Nat.le_zero.mp hk
    cases hz
    exact henum

theorem Reached.looksUp (h : s.Reached x₀ n seen enum y x) (hx : x.LooksUp name) : y.LooksUp name :=
  h.alike.symm.looksUp hx

/-- What the type at hand means is what the chain meets next. -/
theorem Reached.meets_next (h : s.Reached x₀ n seen enum y x) (hx : x.LooksUp name) (hmeans : s.Means x z) :
    s.Meets x₀ (n + 1) z :=
  h.meets.step (hmeans.congr (h.alike.symm.repeats hx))

theorem Reached.next (hdistinct : s.HasDistinctNames) (h : s.Reached x₀ n seen enum y x) (hx : x.LooksUp name)
    (hmeans : s.Means x z) :
    s.Reached x₀ (n + 1) ((x.owner, name) :: seen) (if enum.isEmpty then z.type.enum else enum) z
      (s.nextUse name x z.type) where
  meets := h.meets_next hx hmeans
  alike := hmeans.alike_nextUse hdistinct hx
  pairs := by
    refine List.forall_mem_cons.mpr ⟨?_, fun e he => ?_⟩
    · obtain ⟨k, hk⟩ := hx.owner
      have howner : (x.owner == .scalar k) = true := by
        rw [hk]
        exact BEq.rfl (a := k)
      exact ⟨n, y, k, Nat.lt_succ_self n, h.meets, h.looksUp hx, hk, h.alike.symm.beq_scalar howner⟩
    · obtain ⟨i, w, k, hi, hw⟩ := h.pairs e he
      exact ⟨i, w, k, Nat.lt_succ_of_lt hi, hw⟩
  found hfound := by
    split at hfound
    · rename_i hempty
      have hmissing := h.missing (List.isEmpty_iff.mp hempty)
      rw [if_pos hempty]
      refine ⟨n + 1, z, h.meets_next hx hmeans, rfl, fun j w hj => ?_⟩
      exact hmissing j w (Nat.le_of_lt_succ hj)
    · rename_i hempty
      rw [if_neg hempty]
      exact h.found hfound
  missing hmissing k w hk hw := by
    split at hmissing
    · rename_i hempty
      rcases Nat.le_succ_iff.mp hk with hk | rfl
      · exact h.missing (List.isEmpty_iff.mp hempty) k w hk hw
      · rw [hw.unique hdistinct (h.meets_next hx hmeans)]
        exact hmissing
    · rename_i hempty
      exact absurd (List.isEmpty_iff.mpr hmissing) hempty

/-- When the rest of the chain brings nothing new, the first enumerated values are known. -/
theorem Reached.firstEnum (h : s.Reached x₀ n seen enum y x)
    (hclosed : ∀ k w, s.Meets x₀ k w → ∃ j ≤ n, s.Meets x₀ j w) : s.FirstEnum x₀ enum where
  found := h.found
  missing henum k w hw := by
    obtain ⟨j, hj, hw⟩ := hclosed k w hw
    exact h.missing henum j w hj hw

theorem Reached.firstEnum_of_last (hdistinct : s.HasDistinctNames) (h : s.Reached x₀ n seen enum y x)
    (hlast : ∀ w, ¬s.Means y w) : s.FirstEnum x₀ enum :=
  h.firstEnum fun k _ hw => ⟨k, h.meets.le_of_last hdistinct hlast hw, hw⟩

/-- A pair that has been seen has been met before on the chain. -/
theorem Reached.exists_repeats (h : s.Reached x₀ n seen enum y x) (hx : x.LooksUp name)
    (hseen : seen.contains (x.owner, name) = true) : ∃ i z, i < n ∧ s.Meets x₀ i z ∧ z.Repeats y := by
  rw [List.contains_eq_any_beq] at hseen
  obtain ⟨e, he, hbeq⟩ := List.any_eq_true.mp hseen
  obtain ⟨i, z, k, hi, hz, hlooks, hk, howner⟩ := h.pairs e he
  obtain ⟨howner', hname⟩ := Bool.and_eq_true_iff.mp hbeq
  obtain rfl : name = e.2 := by simpa using hname
  rw [hk] at howner'
  refine ⟨i, z, hi, hz, e.2, hlooks, h.looksUp hx, ?_⟩
  exact Datum.beq_of_beq_scalar howner (h.alike.symm.beq_scalar howner')

/-- What following a chain comes to, when the first enumerated values on it are `enum`. -/
inductive ComesTo (s : Schema) (x : TypeUse) (enum : List String) : Except Failure Resolved → Prop
  | builtin {t : LeafType} : s.EndsIn x t → ComesTo s x enum (.ok ⟨t, enum⟩)
  | lost : s.GetsLost x → ComesTo s x enum (.ok (string enum))
  | round : s.GoesRound x → ComesTo s x enum (.ok (string enum))
  | broken {e : Failure} : s.Breaks x → ComesTo s x enum (.error e)

/-- Wherever on its chain a type is followed from, it is followed to what the chain comes to. -/
theorem Follows.comesTo (hdistinct : s.HasDistinctNames) {out : Logged Resolved} (h : Follows s seen enum x out)
    (hreached : s.Reached x₀ n seen enum y x) : ∃ enum, s.FirstEnum x₀ enum ∧ s.ComesTo x₀ enum out.result := by
  induction h generalizing n y with
  | @builtin seen enum x hbuiltin =>
    have hy := hreached.alike.symm.isBuiltin hbuiltin
    refine ⟨enum, hreached.firstEnum_of_last hdistinct fun w hmeans => ?_, ?_⟩
    · obtain ⟨name, hlooks⟩ := hmeans.exists_looksUp
      exact hlooks.builtin hy
    · exact .builtin ⟨n, y, hreached.meets, hy, hreached.alike.type⟩
  | @unreadable seen enum x e hbuiltin hname =>
    have hy : ¬y.IsBuiltin := fun hy => hbuiltin (hreached.alike.isBuiltin hy)
    have hunreadable : ¬y.IsReadable := by
      intro hreadable
      obtain ⟨name, hlooks⟩ := hreadable.exists_looksUp hy
      have hok := (hreached.alike.looksUp hlooks).typeName_eq
      rw [hname] at hok
      cases hok
    refine ⟨enum, hreached.firstEnum_of_last hdistinct fun w hmeans => ?_, ?_⟩
    · obtain ⟨name, hlooks⟩ := hmeans.exists_looksUp
      exact hunreadable hlooks.isReadable
    · exact .broken ⟨n, y, hreached.meets, hy, hunreadable⟩
  | @again seen enum x name hx hseen =>
    -- the chain goes on, but only through what it has been at
    obtain ⟨i, z, hi, hz, hrepeats⟩ := hreached.exists_repeats hx hseen
    refine ⟨enum, hreached.firstEnum fun k w hw => ?_, ?_⟩
    · exact Meets.exists_le_of_repeats hdistinct hi hz hreached.meets hrepeats hw
    · exact .round ⟨i, n, z, y, hi, hz, hreached.meets, hrepeats⟩
  | @unknown seen enum x name hx _ hnone =>
    have hlast : ∀ w, ¬s.Means y w := by
      intro w hmeans
      have hmeans := hmeans.congr (hreached.alike.symm.repeats hx).symm
      rw [hmeans.typedef?_eq hdistinct hx] at hnone
      cases hnone
    refine ⟨enum, hreached.firstEnum_of_last hdistinct hlast, ?_⟩
    exact .lost ⟨y, name, ⟨⟨n, hreached.meets⟩, hlast⟩, hreached.looksUp hx⟩
  | next hx _ hbase _ ih =>
    obtain ⟨z, hmeans, rfl⟩ := exists_means_of_typedef? hdistinct hx hbase
    exact ih (hreached.next hdistinct hx hmeans)

/-- In modules of different names the typedefs of a type are followed to an end: the run through as many of them as it
takes has one outcome, and this is it. It is a type if the names on the chain can be read, as they can be when they are
texts and the names of modules are keys. If the chain comes to a built-in type it is this one; otherwise the chain
leaves the known typedefs or meets a pair of a module and a name again, and it is a text. The enumerated values are the
first ones on the chain. -/
theorem effective_of_hasDistinctNames (hdistinct : s.HasDistinctNames) (t : LeafType) (owner : Name) :
    (∀ out, s.Follows [] t.enum ⟨t, owner⟩ out ↔ s.effective t owner = out) ∧
    ((∃ r, (s.effective t owner).result = .ok r) ↔ ¬s.Breaks ⟨t, owner⟩) ∧
    ((∀ m ∈ s.modules, ∀ entry ∈ m.typedefs, (TypeUse.mk entry.2 m.name).IsReadable) →
      (TypeUse.mk t owner).IsReadable → ∃ r, (s.effective t owner).result = .ok r) ∧
    ∀ r, (s.effective t owner).result = .ok r →
      s.FirstEnum ⟨t, owner⟩ r.enum ∧
      (∀ b, s.EndsIn ⟨t, owner⟩ b → r.type = b) ∧
      (s.GetsLost ⟨t, owner⟩ ∨ s.GoesRound ⟨t, owner⟩ → r.type = { name := .text "string" }) ∧
      ((s.GetsLost ⟨t, owner⟩ ∨ s.GoesRound ⟨t, owner⟩) ↔ ¬∃ b, s.EndsIn ⟨t, owner⟩ b) := by
  obtain ⟨enum, hfirst, hcomes⟩ := (follows_effective t owner).comesTo hdistinct (s.reached_start ⟨t, owner⟩)
  have hreturns : (∃ r, (s.effective t owner).result = .ok r) ↔ ¬s.Breaks ⟨t, owner⟩ := by
    constructor
    · rintro ⟨r, hr⟩ hbreaks
      rw [hr] at hcomes
      cases hcomes with
      | builtin hends => exact hbreaks.not_endsIn hdistinct hends
      | lost hlost => exact hbreaks.not_getsLost hdistinct hlost
      | round hround => exact hbreaks.not_goesRound hdistinct hround
    · intro hsound
      cases hresult : (s.effective t owner).result with
      | ok r => exact ⟨r, rfl⟩
      | error e =>
        rw [hresult] at hcomes
        cases hcomes with
        | broken hbreaks => exact absurd hbreaks hsound
  refine ⟨fun out => follows_iff, hreturns, fun hnames ht => ?_, fun r hr => ?_⟩
  · refine hreturns.mpr ?_
    rintro ⟨n, y, hy, -, hunreadable⟩
    exact hunreadable (hy.isReadable hnames ht)
  -- a chain that comes to a built-in type neither leaves the typedefs nor goes round
  have hexcludes : ∀ b, s.EndsIn ⟨t, owner⟩ b → ¬(s.GetsLost ⟨t, owner⟩ ∨ s.GoesRound ⟨t, owner⟩) :=
    fun b hb => not_or.mpr ⟨hb.not_getsLost hdistinct, hb.not_goesRound hdistinct⟩
  have hnone : s.GetsLost ⟨t, owner⟩ ∨ s.GoesRound ⟨t, owner⟩ → ¬∃ b, s.EndsIn ⟨t, owner⟩ b := by
    rintro h ⟨b, hb⟩
    exact hexcludes b hb h
  rw [hr] at hcomes
  cases hcomes with
  | builtin hends =>
    exact ⟨hfirst, fun b hb => hends.unique hdistinct hb, fun h => absurd h (hexcludes _ hends),
      hnone, fun h => absurd ⟨_, hends⟩ h⟩
  | lost hlost =>
    exact ⟨hfirst, fun b hb => absurd (.inl hlost) (hexcludes b hb), fun _ => rfl, hnone, fun _ => .inl hlost⟩
  | round hround =>
    exact ⟨hfirst, fun b hb => absurd (.inr hround) (hexcludes b hb), fun _ => rfl, hnone, fun _ => .inr hround⟩

end Schema

open Schema

/-- A module with names that lead to another one, which goes by the short name `f`. -/
def Example.near : Module where
  name := .text "near"
  shortName := .text "near"
  typedefs := [(.text "t", { name := .text "f:u" }), (.text "v", { name := .text "boolean" }),
    (.text "round", { name := .text "f:round" })]

/-- A module where the name `v` means something else, and with a name that leads back. -/
def Example.far : Module where
  name := .text "far"
  shortName := .text "f"
  typedefs := [(.text "u", { name := .text "v", enum := ["low", "high"] }),
    (.text "v", { name := .text "enumeration", enum := ["other"] }),
    (.text "round", { name := .text "near:round", enum := ["once"] })]

def Example.crossing : Schema := ⟨[Example.near, Example.far]⟩

/-- The name `f:round` leads to the other module and from there back. -/
theorem Example.goesRound_crossing : Example.crossing.GoesRound ⟨{ name := .text "f:round" }, .text "near"⟩ := by
  have hthere : (TypeUse.mk { name := .text "f:round" } (.text "near")).LooksUp "f:round" :=
    ⟨by decide +kernel, rfl, _, rfl⟩
  have hback : (TypeUse.mk { name := .text "near:round", enum := ["once"] } (.text "far")).LooksUp "near:round" :=
    ⟨by decide +kernel, rfl, _, rfl⟩
  have hfar : Example.crossing.LooksIn "f:round" (.text "near") Example.far :=
    .foreign (by decide +kernel) (.shortName (by decide +kernel) rfl)
  have hnear : Example.crossing.LooksIn "near:round" (.text "far") Example.near :=
    .foreign (by decide +kernel) (.name List.mem_cons_self (by decide +kernel))
  have hmeets := (Meets.start.step (.intro hthere hfar rfl)).step (.intro hback hnear rfl)
  exact ⟨0, 2, _, _, Nat.two_pos, .start, hmeets, "f:round", hthere, hthere, by decide +kernel⟩

/-- One type leads to the enumeration of the other module, with the values that are met first; another one goes
round. -/
theorem effective_of_hasDistinctNames_crossing : Example.crossing.HasDistinctNames ∧
    (∃ r, (Example.crossing.effective { name := .text "t" } (.text "near")).result = .ok r ∧
      r.type.name = .text "enumeration" ∧ r.enum = ["low", "high"] ∧
      Example.crossing.EndsIn ⟨{ name := .text "t" }, .text "near"⟩ r.type ∧
      Example.crossing.FirstEnum ⟨{ name := .text "t" }, .text "near"⟩ r.enum) ∧
    ∃ r, (Example.crossing.effective { name := .text "f:round" } (.text "near")).result = .ok r ∧
      r.type = { name := .text "string" } ∧ r.enum = ["once"] ∧
      Example.crossing.GoesRound ⟨{ name := .text "f:round" }, .text "near"⟩ ∧
      ¬∃ b, Example.crossing.EndsIn ⟨{ name := .text "f:round" }, .text "near"⟩ b := by
  have hdistinct : Example.crossing.HasDistinctNames := by
    unfold HasDistinctNames
    decide +kernel
  have hnames : ∀ m ∈ Example.crossing.modules, ∀ entry ∈ m.typedefs, (TypeUse.mk entry.2 m.name).IsReadable := by
    decide +kernel
  refine ⟨hdistinct, ?_, ?_⟩
  · obtain ⟨-, -, hreturns, hall⟩ := effective_of_hasDistinctNames hdistinct { name := .text "t" } (.text "near")
    obtain ⟨r, hr⟩ := hreturns hnames (by decide +kernel)
    have htest : (Example.crossing.effective { name := .text "t" } (.text "near")).result.toOption.any (fun r =>
        r.type.name.asText? == some "enumeration" && r.enum == ["low", "high"]) = true := by
      decide +kernel
    simp only [hr, Except.toOption, Option.any_some, Bool.and_eq_true, beq_iff_eq] at htest
    obtain ⟨hname, henum⟩ := htest
    obtain ⟨hfirst, hends, hstring, hiff⟩ := hall r hr
    refine ⟨r, hr, Datum.eq_text_of_asText? hname, henum, ?_, hfirst⟩
    by_contra hnot
    have hnone : ¬∃ b, Example.crossing.EndsIn ⟨{ name := .text "t" }, .text "near"⟩ b := by
      rintro ⟨b, hb⟩
      rw [hends b hb] at hnot
      exact hnot hb
    rw [hstring (hiff.mpr hnone)] at hname
    simp [Datum.asText?] at hname
  · obtain ⟨-, -, hreturns, hall⟩ := effective_of_hasDistinctNames hdistinct { name := .text "f:round" } (.text "near")
    obtain ⟨r, hr⟩ := hreturns hnames (by decide +kernel)
    have htest : (Example.crossing.effective { name := .text "f:round" } (.text "near")).result.toOption.any (fun r =>
        r.enum == ["once"]) = true := by
      decide +kernel
    simp only [hr, Except.toOption, Option.any_some, beq_iff_eq] at htest
    obtain ⟨-, -, hstring, hiff⟩ := hall r hr
    have hround := Example.goesRound_crossing
    exact ⟨r, hr, hstring (.inr hround), htest, hround, hiff.mp (.inr hround)⟩

end RestconfApi
