import RestconfApi.Proofs.Documents
import RestconfApi.Proofs.Schema.Inheritance
import RestconfApi.Proofs.Schema.Siblings
import RestconfApi.Proofs.Schema.Waypoints

/-!
# Schema: looking up the path of a node

The path of a node names it and the data nodes around it with the modules that own them. Following it, only the module
of the first name counts, and after that the first node of a local name is taken. So the path leads back to the node
exactly when no node on the way has one of its local name before it.
-/

namespace RestconfApi

/-! ### Steps of a path -/

namespace Text

/-- What the steps of a path are made of. -/
def isStepChar (c : Char) : Bool := isIdentifierChar c || c == ':'

theorem ne_of_isStepChar {c : Char} (h : isStepChar c = true) : c ≠ '/' ∧ c ≠ '[' ∧ isBlank c = false := by
  rw [isStepChar, Bool.or_eq_true, beq_iff_eq] at h
  rcases h with h | rfl
  · refine ⟨?_, ?_, isBlank_of_isIdentifierChar h⟩ <;> rintro rfl <;> cases h
  · decide

/-- A step that can be read off a path as it is. -/
structure IsStep (step : String) : Prop where
  ne : step ≠ ""
  chars : ∀ c ∈ step.toList, isStepChar c = true

theorem IsStep.not_mem_slash {step : String} (h : IsStep step) : '/' ∉ step.toList :=
  fun hmem => (ne_of_isStepChar (h.chars _ hmem)).1 rfl

theorem IsStep.trim_eq {step : String} (h : IsStep step) : trim step = step :=
  trim_eq_self fun c hc => (ne_of_isStepChar (h.chars c hc)).2.2

theorem isStep_of_isIdentifier {t : String} (h : isIdentifier t = true) : IsStep t where
  ne := by
    rintro rfl
    cases h
  chars c hc := by rw [isStepChar, isIdentifierChar_of_mem h hc, Bool.true_or]

end Text

namespace Schema

open Text (IsStep)

variable {s : Schema}

theorem dropFrom_none_eq_self {cs : List Char} (h : '[' ∉ cs) : dropFrom none cs = cs := by
  induction cs with
  | nil => rfl
  | cons c cs ih =>
    rw [List.mem_cons, not_or] at h
    rw [dropFrom, if_neg (Ne.symm h.1), ih h.2]

/-- A text of steps and slashes is read as it is. -/
theorem trim_dropPredicates {path : String} (h : ∀ c ∈ path.toList, Text.isStepChar c = true ∨ c = '/') :
    Text.trim (dropPredicates path) = path := by
  have hchar : ∀ c ∈ path.toList, c ≠ '[' ∧ Text.isBlank c = false := by
    intro c hc
    rcases h c hc with hc | rfl
    · exact (Text.ne_of_isStepChar hc).2
    · decide
  rw [dropPredicates, dropFrom_none_eq_self fun hmem => (hchar _ hmem).1 rfl, String.ofList_toList]
  exact Text.trim_eq_self fun c hc => (hchar c hc).2

theorem isStepChar_of_mem_join {steps : List String} (h : ∀ step ∈ steps, IsStep step) {c : Char}
    (hc : c ∈ (Text.join "/" steps).toList) : Text.isStepChar c = true ∨ c = '/' := by
  rcases Text.mem_join hc with hc | ⟨step, hstep, hc⟩
  · exact .inr (List.mem_singleton.mp hc)
  · exact .inl ((h step hstep).chars c hc)

/-- A path that starts with a slash leads where its steps lead from the top. -/
theorem node?_absolute {steps : List String} (hne : steps ≠ []) (h : ∀ step ∈ steps, IsStep step)
    (context : Option Place) : s.node? ("/" ++ Text.join "/" steps) context =
      s.follow ((context.map (·.node.owner)).getD .null) steps none := by
  have hchars : ("/" ++ Text.join "/" steps).toList = '/' :: (Text.join "/" steps).toList := String.toList_append
  have hpieces : Text.pieces '/' ("/" ++ Text.join "/" steps) = "" :: steps := by
    rw [Text.pieces, hchars, ← List.nil_append ('/' :: _), Text.splitOn_append_cons (by simp), List.map_cons]
    exact congrArg _ (Text.pieces_join rfl hne fun step hstep => (h step hstep).not_mem_slash)
  have hclean : Text.trim (dropPredicates ("/" ++ Text.join "/" steps)) = "/" ++ Text.join "/" steps := by
    refine trim_dropPredicates fun c hc => ?_
    rw [hchars] at hc
    rcases List.mem_cons.mp hc with rfl | hc
    · exact .inr rfl
    · exact isStepChar_of_mem_join h hc
  unfold node?
  dsimp only
  rw [hclean, hchars, List.head?_cons, if_pos rfl, hpieces, follow]
  rfl

/-- A path that starts with a step leads where its steps lead from the context. -/
theorem node?_relative {steps : List String} (h : ∀ step ∈ steps, IsStep step) (p : Place) :
    s.node? (Text.join "/" steps) (some p) = s.follow p.node.owner steps (some p) := by
  have hclean := trim_dropPredicates fun c hc => isStepChar_of_mem_join h hc
  cases steps with
  | nil => rfl
  | cons step steps =>
    have hpieces : Text.pieces '/' (Text.join "/" (step :: steps)) = step :: steps :=
      Text.pieces_join rfl (by simp) fun step hstep => (h step hstep).not_mem_slash
    have hhead : (Text.join "/" (step :: steps)).toList.head? ≠ some '/' := by
      have hstep := h step List.mem_cons_self
      obtain ⟨c, cs, hcs⟩ := List.exists_cons_of_ne_nil
        (fun hnil => hstep.ne (String.toList_injective hnil) : step.toList ≠ [])
      have hc : c ≠ '/' := (Text.ne_of_isStepChar (hstep.chars c (by simp [hcs]))).1
      cases steps <;> simp [Text.join, hcs, hc]
    rw [node?, hclean, if_neg hhead, hpieces]
    rfl

/-! ### Steps down -/

/-- A step down to what has a name. -/
structure IsStepTo (step name : String) : Prop extends IsStep step where
  here : step ≠ "."
  up : step ≠ ".."
  name : (splitName step).2 = name

theorem IsStepTo.follow_cons {step name : String} (h : IsStepTo step name) (owner : Name) (steps : List String)
    (p : Place) : s.follow owner (step :: steps) (some p) =
      (p.child? (.text name)).bind fun q => s.follow owner steps (some q) := by
  rw [follow, h.toIsStep.trim_eq, if_neg (by simp [h.ne, h.here]), step?, if_neg h.up]
  dsimp only
  rw [h.name]
  cases p.child? (.text name) <;> rfl

/-- Following the names of nodes goes down by these names. -/
theorem follow_map_eq_below? (owner : Name) {f : Node → String} {ns : List Node}
    (h : ∀ n ∈ ns, IsStepTo (f n) n.name.wording) (p : Place) :
    s.follow owner (ns.map f) (some p) = p.below? (ns.map (·.name.wording)).reverse := by
  induction ns generalizing p with
  | nil => rfl
  | cons n ns ih =>
    rw [List.map_cons, (h n List.mem_cons_self).follow_cons, List.map_cons, List.reverse_cons, Place.below?_append,
      Place.below?_singleton]
    exact congrArg _ (funext fun q => ih (fun m hm => h m (List.mem_cons_of_mem _ hm)) q)

end Schema

/-! ### The path of a node -/

namespace Place

/-- The nodes from the top one down as they show in instance data. -/
def dataLineage (p : Place) : List Node := p.lineage.filter fun n => !n.kind.isTransparent

/-- The qualified names of these after slashes. -/
def absolutePath (p : Place) : String := "/" ++ Text.join "/" (p.dataLineage.map (·.qname))

/-- The spot that a node stands at by its names. -/
def spot (p : Place) : Spot := ⟨p.address.module, (p.dataLineage.map (·.name.wording)).reverse⟩

theorem dataLineage_of_above {p q : Place} {between : List Node} (hp : p.node.kind.isTransparent = false)
    (hq : q.node.kind.isTransparent = false) (habove : p.above = between ++ q.node :: q.above)
    (hbetween : ∀ n ∈ between, n.kind.isTransparent = true) : p.dataLineage = q.dataLineage ++ [p.node] := by
  have hnone : between.reverse.filter (fun n => !n.kind.isTransparent) = [] :=
    List.filter_eq_nil_iff.mpr fun n hn => by simp [hbetween n (List.mem_reverse.mp hn)]
  simp [dataLineage, lineage, habove, List.filter_append, hnone, hp, hq]

theorem dataLineage_of_top {p : Place} (hp : p.node.kind.isTransparent = false)
    (habove : ∀ n ∈ p.above, n.kind.isTransparent = true) : p.dataLineage = [p.node] := by
  have hnone : p.above.reverse.filter (fun n => !n.kind.isTransparent) = [] :=
    List.filter_eq_nil_iff.mpr fun n hn => by simp [habove n (List.mem_reverse.mp hn)]
  simp [dataLineage, lineage, List.filter_append, hnone, hp]

/-! ### The nodes around a data child -/

theorem Through.encloses {p q : Place} (h : p.Through q) : p.Encloses q := by
  induction h with
  | self => exact .self
  | step _ hx _ ih => exact .child ih hx

theorem Encloses.trans {p q r : Place} (h : p.Encloses q) (h' : q.Encloses r) : p.Encloses r := by
  induction h' with
  | self => exact h
  | child _ hx ih => exact .child ih hx

/-- Between a node and what it goes through there is nothing that shows in instance data. -/
theorem Through.encloses_of_visible {p q x : Place} (h : p.Through q) (hx : x.node.kind.isTransparent = false)
    (henc : x.Encloses q) : x.Encloses p := by
  induction h with
  | self => exact henc
  | step _ hq ht ih =>
    rcases (encloses_childAt? hq).mp henc with rfl | henc
    · rw [ht] at hx
      cases hx
    · exact ih henc

theorem encloses_dataChild {p q x : Place} (hp : p ∈ q.dataChildren) (hx : x.node.kind.isTransparent = false) :
    x.Encloses p ↔ x = p ∨ x.Encloses q := by
  obtain ⟨r, i, hr, hi, -⟩ := mem_dataChildren.mp hp
  rw [encloses_childAt? hi]
  exact or_congr_right ⟨hr.encloses_of_visible hx, fun h => h.trans hr.encloses⟩

theorem Encloses.eq_or_mem_above {p q : Place} (h : q.Encloses p) : q = p ∨ q.node ∈ p.above := by
  induction h with
  | self => exact .inl rfl
  | child _ hx ih =>
    rw [above_of_childAt? hx]
    rcases ih with rfl | ih
    · exact .inr List.mem_cons_self
    · exact .inr (List.mem_cons_of_mem _ ih)

end Place

/-- Where a module has a data node of a name at the top, no rpc of the name is taken for it. -/
theorem Module.topNamed?_of_mem {m : Module} {i : Nat} {name : Name} {p : Place}
    (hp : p ∈ Place.dataOfAll (Address.top i .data) [] 0 m.data) (hname : (p.node.name == name) = true) :
    m.topNamed? i name = m.dataNode? i name := by
  unfold Module.topNamed? Module.dataNode?
  cases hfound : Place.named? name (Address.top i .data) [] 0 m.data with
  | some _ => rfl
  | none => exact absurd hname (List.find?_eq_none.mp hfound p hp)

namespace Schema

variable {s : Schema}

/-- What holds of the top data nodes and is handed on to data children holds of all nodes that show in instance
data. -/
theorem Has.data_induction {P : Place → Prop}
    (htop : ∀ m p, s.Has p → s.modules[p.address.module]? = some m → p.node.kind.isTransparent = false →
      (∀ n ∈ p.above, n.kind.isTransparent = true) →
      p ∈ Place.dataOfAll (Address.top p.address.module p.address.part) [] 0 (m.part p.address.part) → P p)
    (hchild : ∀ q p, s.Has q → q.node.kind.isTransparent = false → p ∈ q.dataChildren →
      p.address.module = q.address.module → p.dataLineage = q.dataLineage ++ [p.node] → P q → P p)
    {p : Place} (hp : s.Has p) (hvisible : p.node.kind.isTransparent = false) : P p := by
  induction hn : p.above.length using Nat.strongRecOn generalizing p with
  | _ n ih =>
    rcases hp.standsAmong with ⟨m, hm, habove, hamong, -⟩ | ⟨q, between, hq, hqv, ⟨hamong, -⟩, hmodule, -, habove, hb⟩
    · exact htop m p hp hm hvisible habove (hamong hvisible)
    · have hlt : q.above.length < n := by
        rw [← hn, habove, List.length_append, List.length_cons]
        omega
      exact hchild q p hq hqv (hamong hvisible) hmodule (Place.dataLineage_of_above hvisible hqv habove hb)
        (ih _ hlt hq hqv rfl)

theorem Has.exists_of_mem_dataLineage {p : Place} (hp : s.Has p) {n : Node} (hn : n ∈ p.dataLineage) :
    ∃ q, s.Has q ∧ q.node = n ∧ q.address.part = p.address.part := by
  rcases List.mem_cons.mp (List.mem_reverse.mp (List.mem_filter.mp hn).1) with rfl | hn
  · exact ⟨p, hp, rfl, rfl⟩
  · exact hp.exists_of_mem_above hn

/-- The nodes beside a node in instance data, itself among them. -/
def besides (s : Schema) (p : Place) : List Place :=
  match p.dataParent? with
  | some q => q.dataChildren
  | none =>
    (s.modules[p.address.module]?.map fun m =>
      Place.dataOfAll (Address.top p.address.module p.address.part) [] 0 (m.part p.address.part)).getD []

/-- The node is the first one of its local name among those beside it. -/
def IsFirst (s : Schema) (p : Place) : Prop := (s.besides p).find? (·.node.name == p.node.name) = some p

/-- A schema whose paths can be read: modules have different names, and these and the names of data are identifiers. -/
structure IsLegible (s : Schema) : Prop where
  modules : ∀ {i j : Nat} {m m' : Module}, s.modules[i]? = some m → s.modules[j]? = some m' →
    m.name = m'.name → i = j
  moduleNames : ∀ m ∈ s.modules, m.name.IsIdentifier
  names : ∀ {p : Place}, s.Has p → p.address.part = .data → p.node.name.IsIdentifier

theorem IsLegible.isNamed (hs : s.IsLegible) : s.IsNamed where
  distinct hm hm' hname :=
    hs.modules hm hm' ((hs.moduleNames _ (List.mem_of_getElem? hm)).eq_of_beq hname).symm
  names m hm := by
    obtain ⟨t, ht, hid⟩ := hs.moduleNames m hm
    exact ⟨t, ht, Text.not_mem_of_isIdentifier hid (by decide)⟩

/-! ### Where the path leads -/

theorem names_spot_ne_nil {p : Place} (hvisible : p.node.kind.isTransparent = false) : p.spot.names ≠ [] := by
  have hmem : p.node ∈ p.dataLineage := by simp [Place.dataLineage, Place.lineage, hvisible]
  intro hnil
  rw [Place.spot, List.reverse_eq_nil_iff, List.map_eq_nil_iff] at hnil
  rw [hnil] at hmem
  cases hmem

theorem spot_of_dataChild {p q : Place} (hmodule : p.address.module = q.address.module)
    (hlineage : p.dataLineage = q.dataLineage ++ [p.node]) : p.spot = q.spot.down [p.node.name.wording] := by
  simp [Place.spot, Spot.down, hmodule, hlineage]

/-- A node is found at its spot exactly when it and the data nodes around it are the first ones of their names. -/
theorem IsLegible.spot?_eq_some_iff (hs : s.IsLegible) {p : Place} (hp : s.Has p) (hpart : p.address.part = .data)
    (hvisible : p.node.kind.isTransparent = false) : s.spot? p.spot = some p ↔
      ∀ q : Place, q.Encloses p → q.node.kind.isTransparent = false → s.IsFirst q := by
  refine Has.data_induction (P := fun p => p.address.part = .data → (s.spot? p.spot = some p ↔
    ∀ q : Place, q.Encloses p → q.node.kind.isTransparent = false → s.IsFirst q))
    (fun m p hp hm hvisible habove hmem hpart => ?_)
    (fun q p hq hqvisible hmem hmodule hlineage ih hpart => ?_) hp hvisible hpart
  · obtain ⟨t, ht, -⟩ := hs.names hp hpart
    have hwording : p.node.name.wording = t := by rw [ht]; rfl
    have hfirst : s.spot? p.spot = some p ↔ s.IsFirst p := by
      rw [Place.spot, Place.dataLineage_of_top hvisible habove, List.map_singleton, List.reverse_singleton, spot?_top,
        hm, Option.bind_some, IsFirst, besides, Place.dataParent?_of_mem_dataOfAll hmem]
      dsimp only
      rw [hm, hwording, ← ht]
      rw [hpart] at hmem ⊢
      rw [Module.topNamed?_of_mem hmem (by simp [ht])]
      rfl
    rw [hfirst]
    constructor
    · intro h q hq hqv
      rcases hq.eq_or_mem_above with rfl | hq
      · exact h
      · rw [habove _ hq] at hqv
        cases hqv
    · exact fun h => h p .self hvisible
  · have hqpart : q.address.part = .data := (Place.part_of_mem_dataChildren hmem).symm.trans hpart
    have hvisible := Place.isTransparent_of_mem_dataChildren hmem
    obtain ⟨t, ht, -⟩ := hs.names (hq.dataChild hmem) hpart
    have hfirst : s.IsFirst p ↔ q.child? (.text p.node.name.wording) = some p := by
      rw [IsFirst, besides, Place.dataParent?_of_mem_dataChildren hqvisible hmem, ht]
      rfl
    rw [spot_of_dataChild hmodule hlineage, spot?_cons (names_spot_ne_nil hqvisible),
      Option.bind_eq_some_iff]
    constructor
    · rintro ⟨q', hq', hchild⟩ x hx hxv
      have hparent := Place.dataParent?_of_mem_dataChildren (isTarget_of_spot? hq').visible
        (Place.mem_dataChildren_of_child? hchild)
      obtain rfl := Option.some.inj ((Place.dataParent?_of_mem_dataChildren hqvisible hmem).symm.trans hparent)
      rcases (Place.encloses_dataChild hmem hxv).mp hx with rfl | hx
      · exact hfirst.mpr hchild
      · exact (ih hqpart).mp hq' x hx hxv
    · intro h
      refine ⟨q, (ih hqpart).mpr fun x hx hxv => h x ?_ hxv, hfirst.mp (h p .self hvisible)⟩
      exact (Place.encloses_dataChild hmem hxv).mpr (.inr hx)

/-! ### Following the path -/

theorem splitName_qname {n : Node} (hname : n.name.IsIdentifier) :
    splitName n.qname = (n.owner.wording, n.name.wording) := by
  have hcut : Text.cutLast ':' n.qname.toList = some (n.owner.wording.toList, n.name.wording.toList) := by
    rw [Statement.qname, String.toList_append, String.toList_append, List.append_assoc]
    exact Text.cutLast_append (hname.not_mem (by decide)) _
  rw [splitName, hcut]
  simp only [String.ofList_toList]

theorem isStepTo_qname {n : Node} (howner : n.owner.IsIdentifier) (hname : n.name.IsIdentifier) :
    IsStepTo n.qname n.name.wording := by
  have htoList : n.qname.toList = n.owner.wording.toList ++ ':' :: n.name.wording.toList := by
    rw [Statement.qname, String.toList_append, String.toList_append, List.append_assoc]
    rfl
  have hcolon : ':' ∈ n.qname.toList := by simp [htoList]
  have hne : ∀ t : String, ':' ∉ t.toList → n.qname ≠ t := by
    rintro t ht rfl
    exact ht hcolon
  refine ⟨⟨hne _ (by decide), fun c hc => ?_⟩, hne _ (by decide), hne _ (by decide), by rw [splitName_qname hname]⟩
  obtain ⟨o, ho, hoid⟩ := howner
  obtain ⟨t, ht, htid⟩ := hname
  rw [htoList, ho, ht, List.mem_append, List.mem_cons] at hc
  rcases hc with hc | rfl | hc
  · exact (Text.isStep_of_isIdentifier hoid).chars c hc
  · rfl
  · exact (Text.isStep_of_isIdentifier htid).chars c hc

/-- Following qualified names from the top goes to the module of the first one, and there down by the local names. -/
theorem follow_qnames {n : Node} {ns : List Node}
    (h : ∀ n' ∈ n :: ns, n'.owner.IsIdentifier ∧ n'.name.IsIdentifier) {m : Module} {i : Nat}
    (hm : s.modules[i]? = some m) (hfound : s.module? n.owner = some (m, i)) (owner : Name) :
    s.follow owner ((n :: ns).map (·.qname)) none = s.spot? ⟨i, ((n :: ns).map (·.name.wording)).reverse⟩ := by
  obtain ⟨howner, hname⟩ := h n List.mem_cons_self
  have hstep := isStepTo_qname howner hname
  obtain ⟨o, ho, hoid⟩ := howner
  have hne : o ≠ "" := (Text.isStep_of_isIdentifier hoid).ne
  have hprefix : s.moduleByPrefix? (.text n.owner.wording) = some (m, i) := by
    have htext : Datum.text n.owner.wording = n.owner := by rw [ho]; rfl
    rw [htext, moduleByPrefix?, hfound]
  have hwording : n.owner.wording ≠ "" := by rw [ho]; exact hne
  have hfirst : s.step? owner n.qname none = s.spot? ⟨i, [n.name.wording]⟩ := by
    rw [step?, if_neg hstep.up, splitName_qname hname]
    dsimp only
    rw [if_neg hwording, if_neg (by simp [Datum.holds, hwording]), hprefix, spot?_top, hm]
    rfl
  have hrest : ∀ n' ∈ ns, IsStepTo n'.qname n'.name.wording := fun n' hn' =>
    isStepTo_qname (h n' (List.mem_cons_of_mem _ hn')).1 (h n' (List.mem_cons_of_mem _ hn')).2
  have hspot : (⟨i, ((n :: ns).map (·.name.wording)).reverse⟩ : Spot) =
      Spot.down ⟨i, [n.name.wording]⟩ (ns.map (·.name.wording)).reverse := by
    simp [Spot.down]
  rw [hspot, spot?_down_eq_bind (by simp), ← hfirst, List.map_cons, follow, hstep.toIsStep.trim_eq,
    if_neg (by simp [hstep.ne, hstep.here])]
  cases s.step? owner n.qname none with
  | none => rfl
  | some p => exact follow_map_eq_below? owner hrest p

/-- The path of a node leads to what stands at its spot. -/
theorem IsLegible.node?_absolutePath (hs : s.IsLegible) {d : Datum} (h : (load d).result = .ok s) {p : Place}
    (hp : s.Has p) (hpart : p.address.part = .data) (hvisible : p.node.kind.isTransparent = false)
    (context : Option Place) : s.node? p.absolutePath context = s.spot? p.spot := by
  obtain ⟨declared, M, hfrom⟩ := exists_loadedFrom h
  have htop : p.address.part = .data → ∃ m n ns, s.modules[p.address.module]? = some m ∧ p.dataLineage = n :: ns ∧
      n.owner = m.name := by
    refine Has.data_induction (P := fun p => p.address.part = .data → ∃ m n ns,
      s.modules[p.address.module]? = some m ∧ p.dataLineage = n :: ns ∧ n.owner = m.name)
      (fun m p hp hm hvisible habove hmem hpart => ?_)
      (fun q p hq hqvisible hmem hmodule hlineage ih hpart => ?_) hp hvisible
    · rw [hpart] at hmem
      exact ⟨m, p.node, [], hm, Place.dataLineage_of_top hvisible habove, hfrom.owner_of_mem_dataOfAll hm hmem⟩
    · obtain ⟨m, n, ns, hm, hq, howner⟩ := ih ((Place.part_of_mem_dataChildren hmem).symm.trans hpart)
      exact ⟨m, n, ns ++ [p.node], hmodule ▸ hm, by rw [hlineage, hq]; rfl, howner⟩
  have hnames : ∀ n ∈ p.dataLineage, n.owner.IsIdentifier ∧ n.name.IsIdentifier := by
    intro n hn
    obtain ⟨q, hq, rfl, hqpart⟩ := hp.exists_of_mem_dataLineage hn
    obtain ⟨⟨m, hm, howner⟩, -⟩ := owned_of_load h hq
    exact ⟨howner ▸ hs.moduleNames m hm, hs.names hq (hqpart.trans hpart)⟩
  obtain ⟨m, n, ns, hm, hlineage, howner⟩ := htop hpart
  rw [hlineage] at hnames
  have hsteps : ∀ step ∈ (n :: ns).map (·.qname), Text.IsStep step := by
    intro step hstep
    obtain ⟨n', hn', rfl⟩ := List.mem_map.mp hstep
    exact (isStepTo_qname (hnames n' hn').1 (hnames n' hn').2).toIsStep
  have hfound : s.module? n.owner = some (m, p.address.module) := by
    rw [howner]
    exact hs.isNamed.module? hm
  rw [Place.absolutePath, Place.spot, hlineage, node?_absolute (by simp) hsteps]
  exact follow_qnames hnames hm hfound _

/-- In a schema that loads with distinct identifiers for its modules and identifiers for its data, the path of a node
leads to it exactly when the node and each data node around it is the first of its local name among those beside it,
whatever modules own these. -/
theorem finds_absolutePath_iff_of_load {d : Datum} (h : (load d).result = .ok s) (hs : s.IsLegible) {p : Place}
    (hp : s.Has p) (hpart : p.address.part = .data) (hvisible : p.node.kind.isTransparent = false)
    (context : Option Place) : s.node? p.absolutePath context = some p ↔
      ∀ q : Place, q.Encloses p → q.node.kind.isTransparent = false → s.IsFirst q := by
  rw [hs.node?_absolutePath h hp hpart hvisible]
  exact hs.spot?_eq_some_iff hp hpart hvisible

/-! ### Examples -/

/-- Whether names of modules differ, and their prefixes as well, and all names are identifiers. -/
def readsWell (s : Schema) : Bool :=
  decide ((s.modules.map (·.name.wording)).Nodup) && decide ((s.modules.map (·.shortName.wording)).Nodup) &&
    decide (∀ m ∈ s.modules, m.name.IsIdentifier) && decide (∀ p ∈ s.places, p.node.name.IsIdentifier)

theorem isLegible_of_readsWell (h : s.readsWell = true) :
    s.IsLegible ∧ (s.modules.map (·.shortName.wording)).Nodup := by
  simp only [readsWell, Bool.and_eq_true, decide_eq_true_eq] at h
  obtain ⟨⟨⟨hmodules, hshort⟩, hmoduleNames⟩, hnames⟩ := h
  refine ⟨⟨@fun i j m m' hm hm' hname => ?_, hmoduleNames, fun hp _ => hnames _ hp.mem_places⟩, hshort⟩
  have hi : i < (s.modules.map (·.name.wording)).length := by
    rw [List.length_map]
    exact (List.getElem?_eq_some_iff.mp hm).1
  refine (List.getElem?_inj hi hmodules).mp ?_
  rw [List.getElem?_map, List.getElem?_map, hm, hm', Option.map_some, Option.map_some, hname]

end Schema

open Example Schema

/-- A module with a leaf in a container, to which another module adds a leaf of the same local name. -/
def Example.homonyms : Datum :=
  .object [("modules", .list [
    module "a" [("data", [container "c" [] [leaf "x"]])],
    module "b" [("augments", [.object [("target", .text "/a:c"), ("children", .list [leaf "x"])]])]])]

/-- The path of the first leaf leads to it, as it is the first one of its name. -/
theorem finds_absolutePath_iff_of_load_homonyms : ∃ s p, (load Example.homonyms).result = .ok s ∧ s.IsLegible ∧
    s.Has p ∧ p.absolutePath = "/a:c/a:x" ∧ s.node? p.absolutePath none = some p ∧
      ∀ q : Place, q.Encloses p → q.node.kind.isTransparent = false → s.IsFirst q := by
  have htest : ((load Example.homonyms).result.toOption.any fun s => s.readsWell &&
      (s.node? "/a:c/a:x" none).any fun p => p.address.part = .data && p.absolutePath = "/a:c/a:x") = true := by
    decide +kernel
  obtain ⟨s, hload, htest⟩ := exists_of_any htest
  simp only [Bool.and_eq_true, decide_eq_true_eq, Option.any_eq_true] at htest
  obtain ⟨hreads, p, hp, hpart, hpath⟩ := htest
  obtain ⟨hs, -⟩ := isLegible_of_readsWell hreads
  have htarget := isTarget_of_node? hp
  have hfound : s.node? p.absolutePath none = some p := by rwa [hpath]
  exact ⟨s, p, hload, hs, htarget.has, hpath, hfound,
    (finds_absolutePath_iff_of_load hload hs htarget.has hpart htarget.visible none).mp hfound⟩

/-- The path of the second leaf leads to the first one, though their qualified names are different. -/
theorem misses_absolutePath_of_load_homonyms : ∃ s p q, (load Example.homonyms).result = .ok s ∧ s.IsLegible ∧
    (s.modules.map (·.shortName.wording)).Nodup ∧ (∀ p, s.Has p → AreDistinct p.dataChildren) ∧
      (∀ i m, s.modules[i]? = some m → AreDistinct (Place.dataOfAll (Address.top i .data) [] 0 m.data)) ∧
      s.Has p ∧ p.address.part = .data ∧ p.node.kind = .leaf ∧ p.absolutePath = "/a:c/b:x" ∧
      s.node? p.absolutePath none = some q ∧ q.absolutePath = "/a:c/a:x" := by
  have htest : ((load Example.homonyms).result.toOption.any fun s => s.readsWell &&
        decide (∀ p ∈ s.places, (p.dataChildren.map (·.node.qname)).Nodup) &&
        decide (∀ mi ∈ s.modules.zipIdx,
          ((Place.dataOfAll (Address.top mi.2 .data) [] 0 mi.1.data).map (·.node.qname)).Nodup) &&
        (s.place? ⟨0, .data, [0, 1]⟩).any fun p => p.address.part = .data && p.node.kind = .leaf &&
          p.absolutePath = "/a:c/b:x" &&
          (s.node? "/a:c/b:x" none).any fun q => q.absolutePath = "/a:c/a:x") = true := by
    decide +kernel
  obtain ⟨s, hload, htest⟩ := exists_of_any htest
  simp only [Bool.and_eq_true, decide_eq_true_eq, Option.any_eq_true] at htest
  obtain ⟨⟨⟨hreads, hsiblings⟩, htops⟩, p, hp, ⟨⟨hpart, hkind⟩, hpath⟩, q, hq, hqpath⟩ := htest
  obtain ⟨hs, hshort⟩ := isLegible_of_readsWell hreads
  refine ⟨s, p, q, hload, hs, hshort, fun p hp => areDistinct_of_qnames (hsiblings p hp.mem_places), fun i m hm => ?_,
    has_of_place? hp, hpart, hkind, hpath, by rwa [hpath], hqpath⟩
  exact areDistinct_of_qnames (htops (m, i) (List.mem_zipIdx_iff_getElem?.mpr hm))

end RestconfApi
