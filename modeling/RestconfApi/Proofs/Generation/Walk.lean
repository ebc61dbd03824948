import RestconfApi.Generate
import RestconfApi.Proofs.Path.Operations

/-!
# Generation: what a walk ensures

Two walks over one schema meet the same nodes and leave the same operations behind. A node is open from
when its operations are added until its definition is built, so that none is open in the end and every
property that awaited a definition can be completed. When nothing is passed over, what is below a node has
been defined before the node itself.
-/

namespace RestconfApi.Generation

open Definitions Building

/-! ### Counting -/

/-- Nothing but the counts and records of copies differs. -/
structure Untouched (d d' : Definitions) : Prop where
  document : d'.document = d.document
  names : d'.names = d.names
  completed : d'.completed = d.completed
  underway : d'.underway = d.underway
  records : d'.records = d.records

theorem Untouched.refl (d : Definitions) : Untouched d d := ⟨rfl, rfl, rfl, rfl, rfl⟩

theorem Untouched.trans {d d' d'' : Definitions} (h : Untouched d d') (h' : Untouched d' d'') :
    Untouched d d'' :=
  ⟨h'.document.trans h.document, h'.names.trans h.names, h'.completed.trans h.completed,
    h'.underway.trans h.underway, h'.records.trans h.records⟩

theorem untouched_foldl {α : Type} {f : Definitions → α → Definitions}
    (hf : ∀ d x, Untouched d (f d x)) (l : List α) (d : Definitions) : Untouched d (l.foldl f d) := by
  induction l generalizing d with
  | nil => exact .refl d
  | cons x l ih => exact (hf d x).trans (ih _)

theorem untouched_countUses (s : Schema) (d : Definitions) (p : Place) :
    Untouched d (countUses s d p) := by
  unfold countUses
  split
  · exact .refl d
  · refine untouched_foldl (fun d ref => ?_) _ d
    split
    · exact ⟨rfl, rfl, rfl, rfl, rfl⟩
    · exact .refl d

theorem untouched_recordCopy (s : Schema) (inPayload : Bool) (d : Definitions) (p : Place) :
    Untouched d (recordCopy s inPayload d p) := by
  unfold recordCopy
  refine untouched_foldl (fun d t => ?_) _ d
  split
  · exact ⟨rfl, rfl, rfl, rfl, rfl⟩
  · exact ⟨rfl, rfl, rfl, rfl, rfl⟩

theorem untouched_processTree (s : Schema) (d : Definitions) (top : Place) :
    Untouched d (processTree s d top) := by
  unfold processTree
  exact untouched_foldl (fun d p => (untouched_countUses s d p).trans (untouched_recordCopy s _ _ p)) _ d

theorem untouched_countBodies (s : Schema) (d : Definitions) : Untouched d (countBodies s d) := by
  unfold countBodies
  split
  · exact .refl d
  · have h := untouched_foldl (untouched_countUses s) (s.groupings.flatMap Place.nodes) d
    exact ⟨h.document, h.names, h.completed, h.underway, h.records⟩

theorem processModule_settles (s : Schema) (i : Nat) (d : Definitions) :
    (processModule s i).Settles d (fun _ d' => Untouched d d') fun e d' => e = Failure.wrongType ∧ Untouched d d' := by
  unfold processModule
  split
  · exact settles_pure (.refl d)
  · refine settles_bind (settles_modify ?_)
    split
    · exact settles_fail ⟨rfl, untouched_countBodies s d⟩
    · refine settles_modify ((untouched_countBodies s d).trans ?_)
      dsimp only
      have h := fun d => untouched_foldl (untouched_processTree s) (s.tops i .data ++ s.tops i .rpcs) d
      exact ⟨(h _).document, (h _).names, (h _).completed, (h _).underway, (h _).records⟩

theorem processModules_settles (s : Schema) (modules : List (Module × Nat)) (d : Definitions) :
    (modules.forM fun (_, i) => processModule s i).Settles d (fun _ d' => Untouched d d')
      fun e d' => e = Failure.wrongType ∧ Untouched d d' := by
  refine settles_forM (fun d' => Untouched d d') (.refl d) fun m _ d₁ h => ?_
  exact (processModule_settles s m.2 d₁).mono (fun _ _ h' => h.trans h') fun _ _ h' => ⟨h'.1, h.trans h'.2⟩

theorem processModules_ensures (s : Schema) (modules : List (Module × Nat)) (d : Definitions) :
    (modules.forM fun (_, i) => processModule s i).Ensures d fun _ d' => Untouched d d' :=
  (processModules_settles s modules d).ok

/-! ### What a walk meets -/

/-- A container or a list that a walk comes to, with its segment. -/
structure Stop where
  place : Place
  segment : Segment

/-- The path under which the operations of a stop are. -/
def Stop.path (x : Stop) : String := "/data" ++ x.segment.path

section Met

variable (selected : List Name)

mutual

/-- The stops of a walk from the node at `a` on, below the segment `s`, with `limit` levels to go. -/
def stops (s : Segment) (limit : Option Nat) (a : Address) (above : List Node) : Node → List Stop
  | ⟨st, cs⟩ =>
    if limit = some 0 then []
    else if !selected.contains st.owner then []
    else if st.kind.isStructural then
      let keys := if st.kind = .list then st.keys.map Datum.text else []
      let s := s.push st.name st.owner (!st.config) keys 0
      ⟨⟨a, ⟨st, cs⟩, above⟩, s⟩ :: stopsAll s (deeper limit) a (⟨st, cs⟩ :: above) 0 cs
    else if st.kind = .choice then stopsInCases s (deeper limit) a (⟨st, cs⟩ :: above) 0 cs
    else []

/-- The stops among the children of the node at `a` from the `i`-th on and below them. -/
def stopsAll (s : Segment) (limit : Option Nat) (a : Address) (above : List Node) (i : Nat) :
    List Node → List Stop
  | [] => []
  | n :: ns => stops s limit (a.child i) above n ++ stopsAll s limit a above (i + 1) ns

/-- The stops in the cases of the choice at `a` from the `i`-th on. -/
def stopsInCases (s : Segment) (limit : Option Nat) (a : Address) (above : List Node) (i : Nat) :
    List Node → List Stop
  | [] => []
  | ⟨st, cs⟩ :: ns =>
    stopsAll s limit (a.child i) (⟨st, cs⟩ :: above) 0 cs ++ stopsInCases s limit a above (i + 1) ns

end

end Met

/-! ### Visiting -/

/-- The node is owned by a selected module, and its children are cases exactly if it is a choice. -/
structure Fits (selected : List Name) (p : Place) : Prop where
  selected : selected.contains p.node.owner = true
  cases : ∀ q ∈ p.children, (q.node.kind = .case ↔ p.node.kind = .choice)

/-- A node that a walk may come to; it stands in a data tree unless it is passed over. If `complete`,
nothing below it is passed over. -/
structure Visitable (s : Schema) (selected : List Name) (complete : Prop) (p : Place) : Prop where
  has : s.Has p
  walked : p.node.kind.isStructural = true ∨ p.node.kind = .choice → p.isWalked = true
  fits : complete → ∀ x ∈ p.nodes, Fits selected x

theorem Visitable.childAt? {s : Schema} {selected : List Name} {complete : Prop} {p x : Place} {i : Nat}
    (h : Visitable s selected complete p) (hwalked : p.isWalked = true) (hx : p.childAt? i = some x) :
    Visitable s selected complete x ∧ x.isWalked = true := by
  have hw : x.isWalked = true := by rwa [Place.isWalked, Place.top_of_childAt? hx]
  exact ⟨⟨h.has.childAt? hx, fun _ => hw, fun hc y hy => h.fits hc y (Place.nodes_of_childAt? hx y hy)⟩, hw⟩

theorem Visitable.fitsSelf {s : Schema} {selected : List Name} {complete : Prop} {p : Place}
    (h : Visitable s selected complete p) (hc : complete) : Fits selected p :=
  h.fits hc p p.self_mem_nodes

/-- What is known of the children of a node that a walk may come to, counted from the first. -/
theorem Visitable.below {s : Schema} {selected : List Name} {complete : Prop} {a : Address} {above : List Node}
    {st : Statement} {cs : List Node} (h : Visitable s selected complete ⟨a, ⟨st, cs⟩, above⟩)
    (hwalked : Place.isWalked ⟨a, ⟨st, cs⟩, above⟩ = true) {j : Nat} {n : Node} (hj : cs[j]? = some n) :
    Visitable s selected complete ⟨a.child (0 + j), n, ⟨st, cs⟩ :: above⟩ ∧
      Place.isWalked ⟨a.child (0 + j), n, ⟨st, cs⟩ :: above⟩ = true ∧
      (complete → (n.kind = .case ↔ st.kind = .choice)) := by
  have hx := Place.childAt?_of_getElem? a above st hj
  obtain ⟨hvisitable, hw⟩ := h.childAt? hwalked hx
  rw [Nat.zero_add]
  exact ⟨hvisitable, hw, fun hc => (h.fitsSelf hc).cases _ (Place.mem_children.mpr ⟨j, hx⟩)⟩

theorem isTransparent_of_isStructural {k : Kind} (h : k.isStructural = true) :
    k.isTransparent = false := by
  cases k <;> simp_all [Kind.isStructural, Kind.isTransparent]

/-- Whether both runs have names for a node. -/
def Named (c : Scope) (u d : Definitions) (x : Place) : Prop :=
  (d.names.get? x.address).isSome = true ∧ (d.names.get? (u.canonical c x).address).isSome = true

theorem Named.advance {c : Scope} {u d d' : Definitions} {x : Place} (h : Named c u d x)
    (ha : Advances d d') : Named c u d' x :=
  ⟨ha.names _ h.1, ha.names _ h.2⟩

variable {c c' : Scope} {u u' : Definitions} {R : Regime c u} {R' : Regime c' u'}
  {Q : Scalar → Scalar → Place → Prop} {complete : Prop} {selected : List Name} {opened : List Address}
  {d e d' e' : Definitions}

/-- Whether a run has made a definition for a node. -/
def IsDone (d : Definitions) (x : Place) : Prop := (d.completed.get? x.address).isSome = true

/-- What both runs have done with a container or a list that they met: it has names and a definition, and there
are operations for whatever can be done with it. -/
structure Found (c : Scope) (u : Definitions) (c' : Scope) (u' : Definitions) (d e : Definitions)
    (x : Stop) : Prop where
  named : Named c u d x.place
  named' : Named c' u' e x.place
  done : IsDone d x.place
  done' : IsDone e x.place
  offers : Handler.Offers d x.path (Handler.methods x.segment.isReadOnly)

theorem Found.advance {x : Stop} (h : Found c u c' u' d e x) (hd : Advances d d') (he : Advances e e') :
    Found c u c' u' d' e' x :=
  ⟨h.named.advance hd, h.named'.advance he, hd.completed _ h.done, he.completed _ h.done', h.offers.advance hd⟩

/-- What two runs keep while they visit nodes: the containers and lists that they meet have been dealt with,
and if nothing is passed over, those among `below` have names afterwards. -/
structure Visited (R : Regime c u) (R' : Regime c' u') (Q : Scalar → Scalar → Place → Prop) (complete : Prop)
    (opened : List Address) (below : List Place) (found : List Stop) (d e d' e' : Definitions) : Prop where
  along : Along R R' Q opened d e d' e'
  below : complete → ∀ x ∈ below, x.node.kind.isStructural = true → Named c u d' x ∧ Named c' u' e' x
  found : ∀ x ∈ found, Found c u c' u' d' e' x

theorem Visited.append {below below' : List Place} {found found' : List Stop} {d'' e'' : Definitions}
    (h : Visited R R' Q complete opened below found d e d' e')
    (h' : Visited R R' Q complete opened below' found' d' e' d'' e'') :
    Visited R R' Q complete opened (below ++ below') (found ++ found') d e d'' e'' where
  along := h.along.trans h'.along
  below := by
    intro hc x hx hk
    rcases List.mem_append.mp hx with hx | hx
    · obtain ⟨hn, hn'⟩ := h.below hc x hx hk
      exact ⟨hn.advance h'.along.2.1, hn'.advance h'.along.2.2⟩
    · exact h'.below hc x hx hk
  found := by
    intro x hx
    rcases List.mem_append.mp hx with hx | hx
    · exact (h.found x hx).advance h'.along.2.1 h'.along.2.2
    · exact h'.found x hx

/-- There may be operations for the nodes at the stops. -/
abbrev Served (Q : Scalar → Scalar → Place → Prop) (found : List Stop) : Prop :=
  ∀ x ∈ found, ∀ method ∈ Handler.methods x.segment.isReadOnly, Q (.text x.path) method x.place

/-- A node that was open is closed when both runs have defined it. -/
theorem define_closes (hschema : c'.schema = c.schema) (hs : c.schema.Ranked) (hR : R.Enters complete)
    (hR' : R'.Enters complete) {p : Place} (hp : c.schema.Has p)
    (ht : Twins R R' Q (p.address :: opened) d e)
    (hbelow : complete → ∀ x ∈ p.dataChildren, x.node.kind.isStructural = true →
      Named c u d x ∧ Named c' u' e x) :
    Both (Definitions.define c p) (Definitions.define c' p) d e fun _ _ d' e' =>
      Along R R' Q opened d e d' e' ∧ (Named c u d' p ∧ Named c' u' e' p) ∧ IsDone d' p ∧ IsDone e' p := by
  have hready : R.ready d (u.canonical c p) :=
    hR hp ht.left.usages ht.idle fun _ hc x hx hk => (hbelow hc x hx hk).1
  have hready' : R'.ready e (u'.canonical c' p) :=
    hR' (hschema ▸ hp) ht.right.usages ht.idle' fun _ hc x hx hk => (hbelow hc x hx hk).2
  refine (both_of_ensures (define_ensures hs R hp ht.left hready)
    (define_ensures (hschema ▸ hs) R' (hschema ▸ hp) ht.right hready')).mono
    fun name name' d' e' ⟨hd, he⟩ => ?_
  refine ⟨⟨?_, hd.extended.toAdvances, he.extended.toAdvances⟩, ⟨⟨?_, hd.canonical⟩, ?_, he.canonical⟩,
    hd.completed, he.completed⟩
  · refine ht.extend hd.sound he.sound hd.extended he.extended fun a ha => ?_
    rcases List.mem_cons.mp ha with rfl | ha
    · exact .inr ⟨hd.completed, he.completed⟩
    · exact .inl ha
  · rw [hd.named]
    rfl
  · rw [he.named]
    rfl

/-- Where nothing is met, nothing has to be named if all that is passed over is no data. -/
theorem Visited.of_unmet {a : Address} {above : List Node} {st : Statement} {cs : List Node}
    (hk : complete → st.kind.isStructural = false ∧ st.kind.isTransparent = false)
    (h : Along R R' Q opened d e d' e') :
    Visited R R' Q complete opened (Place.dataOf a above ⟨st, cs⟩) [] d e d' e' := by
  refine ⟨h, fun hc x hx hstructural => ?_, by simp⟩
  rw [Place.dataOf, if_neg (by simp [(hk hc).2])] at hx
  rw [List.mem_singleton.mp hx] at hstructural
  exact absurd hstructural (by simp [(hk hc).1])

/-- A container or a list gets its operations, then what is below it is visited, then it gets its definition. -/
theorem structural_both (hschema : c'.schema = c.schema) (hs : c.schema.Ranked) (hR : R.Enters complete)
    (hR' : R'.Enters complete) (h : Handler) (seg : Segment) {p : Place} (hp : c.schema.Has p)
    (hk : p.node.kind.isStructural = true) (level : Level) (text : String) {x x' : Building Unit} {found : List Stop}
    (hserved : Served Q (⟨p, seg⟩ :: found))
    (hbelow : ∀ {d₁ e₁ : Definitions}, Twins R R' Q (p.address :: opened) d₁ e₁ →
      Both x x' d₁ e₁ fun _ _ d₂ e₂ =>
        Visited R R' Q complete (p.address :: opened) p.dataChildren found d₁ e₁ d₂ e₂)
    (ht : Twins R R' Q opened d e) :
    Both (do note level text; h.emit c p seg; x; let _ ← Definitions.define c p)
      (do note level text; h.emit c' p seg; x'; let _ ← Definitions.define c' p) d e fun _ _ d' e' =>
        Visited R R' Q complete opened [p] (⟨p, seg⟩ :: found) d e d' e' := by
  refine both_bind (both_note ?_)
  have hopen := fun records records' => (ht.noted records records').open (List.subset_cons_self p.address opened)
  have hrpc : p.node.kind ≠ .rpc := fun hrpc => by simp [hrpc, Kind.isStructural] at hk
  refine both_bind ((Handler.emit_data_both hschema hs (hopen _ _) hp hrpc List.mem_cons_self seg
    (hserved _ List.mem_cons_self)).mono fun _ _ d₁ e₁ hoffered => ?_)
  obtain ⟨h₁, hoffers⟩ := hoffered
  refine both_bind ((hbelow h₁.1).mono fun _ _ d₂ e₂ h₂ => ?_)
  refine both_bind ((define_closes hschema hs hR hR' hp h₂.along.1 h₂.below).mono
    fun _ _ d₃ e₃ hclosed => both_pure ?_)
  obtain ⟨h₃, hnamed, hdone, hdone'⟩ := hclosed
  have hbefore : Along R R' Q (p.address :: opened) d e d₁ e₁ :=
    ⟨h₁.1, (Extends.noted d _).toAdvances.trans h₁.2.1, (Extends.noted e _).toAdvances.trans h₁.2.2⟩
  refine ⟨(hbefore.trans h₂.along).trans h₃, fun _ y hy _ => ?_, fun y hy => ?_⟩
  · obtain rfl := List.mem_singleton.mp hy
    exact hnamed
  · rcases List.mem_cons.mp hy with rfl | hy
    · exact ⟨hnamed.1, hnamed.2, hdone, hdone', (hoffers.advance h₂.along.2.1).advance h₃.2.1⟩
    · exact (h₂.found y hy).advance h₃.2.1 h₃.2.2

variable {w w' : Walk}

mutual

theorem visit_both (hw : w.scope = c) (hw' : w'.scope = c') (hsel : w.selected = selected)
    (hsel' : w'.selected = selected) (hschema : c'.schema = c.schema) (hs : c.schema.Ranked)
    (hR : R.Enters complete) (hR' : R'.Enters complete) {limit : Option Nat}
    (hlimit : complete → limit = none) {opened : List Address} {d e : Definitions} (h : Handler)
    (seg : Segment) (a : Address) (above : List Node) :
    ∀ (n : Node), Visitable c.schema selected complete ⟨a, n, above⟩ → (complete → n.kind ≠ .case) →
      Served Q (stops selected seg limit a above n) → Twins R R' Q opened d e →
      Both (visit w h seg limit a above n) (visit w' h seg limit a above n) d e fun _ _ d' e' =>
        Visited R R' Q complete opened (Place.dataOf a above n) (stops selected seg limit a above n) d e d' e'
  | ⟨st, cs⟩, hv, hcase, hserved, ht => by
    unfold visit
    dsimp only
    have hdeeper : complete → deeper limit = none := fun hc => by rw [hlimit hc]; rfl
    refine both_ite (fun hzero => ?_) fun hzero => ?_
    · rw [stops, if_pos hzero]
      refine both_note (.of_unmet (fun hc => ?_) ((Along.refl ht).noted _ _))
      rw [hlimit hc] at hzero
      cases hzero
    refine both_ite (fun _ => both_fail) fun _ => ?_
    rw [hsel, hsel']
    refine both_ite (fun hother => ?_) fun hother => ?_
    · rw [stops, if_neg hzero, if_pos hother]
      refine both_note (.of_unmet (fun hc => ?_) ((Along.refl ht).noted _ _))
      have hselected : selected.contains st.owner = true := (hv.fitsSelf hc).selected
      simp [hselected] at hother
    rw [stops, if_neg hzero, if_neg hother] at hserved ⊢
    refine both_ite (fun hk => ?_) fun hk => both_ite (fun hchoice => ?_) fun hchoice => ?_
    · -- a container or a list
      rw [if_pos hk] at hserved ⊢
      have hshows : ¬st.kind.isTransparent = true := by simp [isTransparent_of_isStructural hk]
      rw [hw, hw', Place.dataOf, if_neg hshows]
      refine structural_both hschema hs hR hR' h _ hv.has hk _ _ hserved (fun ht => ?_) ht
      refine visitAll_both hw hw' hsel hsel' hschema hs hR hR' hdeeper _ _ a (⟨st, cs⟩ :: above) 0 cs
        (fun j n hj => ?_) (fun x hx => hserved x (List.mem_cons_of_mem _ hx)) ht
      obtain ⟨hvisitable, -, hcases⟩ := hv.below (hv.walked (.inl hk)) hj
      refine ⟨hvisitable, fun hc hnode => ?_⟩
      have hchoice := (hcases hc).mp hnode
      simp [hchoice, Kind.isStructural] at hk
    · -- a choice: what is in its cases
      rw [if_neg hk, if_pos hchoice] at hserved ⊢
      refine both_bind (both_note ?_)
      refine (visitCases_both hw hw' hsel hsel' hschema hs hR hR' hdeeper _ _ a (⟨st, cs⟩ :: above) 0 cs
        (fun j n hj => ?_) hserved (ht.noted _ _)).mono fun _ _ d₁ e₁ h₁ => ?_
      · obtain ⟨hvisitable, hw₁, hcases⟩ := hv.below (hv.walked (.inr hchoice)) hj
        exact ⟨hvisitable, hw₁, fun hc => (hcases hc).mpr hchoice⟩
      · rw [Place.dataOf, if_pos (by simp [hchoice, Kind.isTransparent])]
        exact ⟨⟨h₁.along.1, (Extends.noted d _).toAdvances.trans h₁.along.2.1,
          (Extends.noted e _).toAdvances.trans h₁.along.2.2⟩, h₁.below, h₁.found⟩
    · rw [if_neg hk, if_neg hchoice]
      refine both_pure (.of_unmet (fun hc => ?_) (.refl ht))
      have hcase := hcase hc
      simp_all [Kind.isTransparent]

theorem visitAll_both (hw : w.scope = c) (hw' : w'.scope = c') (hsel : w.selected = selected)
    (hsel' : w'.selected = selected) (hschema : c'.schema = c.schema) (hs : c.schema.Ranked)
    (hR : R.Enters complete) (hR' : R'.Enters complete) {limit : Option Nat}
    (hlimit : complete → limit = none) {opened : List Address} {d e : Definitions} (h : Handler)
    (seg : Segment) (a : Address) (above : List Node) (i : Nat) :
    ∀ (ns : List Node),
      (∀ j n, ns[j]? = some n → Visitable c.schema selected complete ⟨a.child (i + j), n, above⟩ ∧
        (complete → n.kind ≠ .case)) →
      Served Q (stopsAll selected seg limit a above i ns) → Twins R R' Q opened d e →
      Both (visitAll w h seg limit a above i ns) (visitAll w' h seg limit a above i ns) d e
        fun _ _ d' e' => Visited R R' Q complete opened (Place.dataOfAll a above i ns)
          (stopsAll selected seg limit a above i ns) d e d' e'
  | [], _, _, ht => by
    unfold visitAll
    exact both_pure ⟨.refl ht, by simp [Place.dataOfAll], by simp [stopsAll]⟩
  | n :: ns, hv, hserved, ht => by
    unfold visitAll
    rw [stopsAll] at hserved
    obtain ⟨hn, hcase⟩ := hv 0 n rfl
    refine both_bind ((visit_both hw hw' hsel hsel' hschema hs hR hR' hlimit h seg (a.child i) above n hn
      hcase (fun x hx => hserved x (List.mem_append_left _ hx)) ht).mono fun _ _ d₁ e₁ h₁ => ?_)
    refine (visitAll_both hw hw' hsel hsel' hschema hs hR hR' hlimit h seg a above (i + 1) ns
      (fun j m hm => ?_) (fun x hx => hserved x (List.mem_append_right _ hx)) h₁.along.1).mono
      fun _ _ d₂ e₂ h₂ => ?_
    · rw [Nat.add_right_comm, Nat.add_assoc]
      exact hv (j + 1) m hm
    · rw [Place.dataOfAll, stopsAll]
      exact h₁.append h₂

theorem visitCases_both (hw : w.scope = c) (hw' : w'.scope = c') (hsel : w.selected = selected)
    (hsel' : w'.selected = selected) (hschema : c'.schema = c.schema) (hs : c.schema.Ranked)
    (hR : R.Enters complete) (hR' : R'.Enters complete) {limit : Option Nat}
    (hlimit : complete → limit = none) {opened : List Address} {d e : Definitions} (h : Handler)
    (seg : Segment) (a : Address) (above : List Node) (i : Nat) :
    ∀ (ns : List Node),
      (∀ j n, ns[j]? = some n → Visitable c.schema selected complete ⟨a.child (i + j), n, above⟩ ∧
        Place.isWalked ⟨a.child (i + j), n, above⟩ = true ∧ (complete → n.kind = .case)) →
      Served Q (stopsInCases selected seg limit a above i ns) → Twins R R' Q opened d e →
      Both (visitCases w h seg limit a above i ns) (visitCases w' h seg limit a above i ns) d e
        fun _ _ d' e' => Visited R R' Q complete opened (Place.dataOfAll a above i ns)
          (stopsInCases selected seg limit a above i ns) d e d' e'
  | [], _, _, ht => by
    unfold visitCases
    exact both_pure ⟨.refl ht, by simp [Place.dataOfAll], by simp [stopsInCases]⟩
  | ⟨st, cs⟩ :: ns, hv, hserved, ht => by
    unfold visitCases
    rw [stopsInCases] at hserved
    obtain ⟨hn, hwalked, hcase⟩ := hv 0 _ rfl
    refine both_bind ((visitAll_both hw hw' hsel hsel' hschema hs hR hR' hlimit h seg (a.child i)
      (⟨st, cs⟩ :: above) 0 cs (fun j n hj => ?_) (fun x hx => hserved x (List.mem_append_left _ hx)) ht).mono
      fun _ _ d₁ e₁ h₁ => ?_)
    · obtain ⟨hvisitable, -, hcases⟩ := hn.below hwalked hj
      refine ⟨hvisitable, fun hc hnode => ?_⟩
      have hst : st.kind = .case := hcase hc
      have hst' := (hcases hc).mp hnode
      rw [hst] at hst'
      cases hst'
    · refine (visitCases_both hw hw' hsel hsel' hschema hs hR hR' hlimit h seg a above (i + 1) ns
        (fun j m hm => ?_) (fun x hx => hserved x (List.mem_append_right _ hx)) h₁.along.1).mono
        fun _ _ d₂ e₂ h₂ => ?_
      · rw [Nat.add_right_comm, Nat.add_assoc]
        exact hv (j + 1) m hm
      · rw [Place.dataOfAll, stopsInCases]
        refine Visited.append ⟨h₁.along, fun hc => ?_, h₁.found⟩ h₂
        have hst : st.kind = .case := hcase hc
        rw [Place.dataOf, if_pos (by simp [hst, Kind.isTransparent])]
        exact h₁.below hc

end

/-! ### Modules -/

/-- Nothing in the data trees of some modules is passed over: it is all owned by modules named in
`selected`, and cases are what choices have below them. -/
def IsWhole (s : Schema) (selected : List Name) (modules : List (Module × Nat)) : Prop :=
  ∀ m ∈ modules, ∀ p ∈ s.tops m.2 .data, p.node.kind ≠ .case ∧ ∀ x ∈ p.nodes, Fits selected x

theorem isWalked_of_above_nil {p : Place} (h : p.above = []) :
    p.isWalked = (p.node.kind ≠ .grouping && p.node.kind ≠ .rpc) := by
  rw [Place.isWalked, Place.top, h]
  rfl

/-- The stops of the walk through the `i`-th module. -/
def moduleStops (s : Schema) (selected : List Name) (settings : Settings) (i : Nat) : List Stop :=
  match s.modules[i]? with
  | none => []
  | some m =>
    if .data ∈ settings.elements then
      stopsAll selected (Segment.root m.name 0) settings.walkLimit (Address.top i .data) [] 0 m.data
    else []

theorem mem_tops_data {s : Schema} {i : Nat} {m : Module} (hm : s.modules[i]? = some m) {j : Nat} {n : Node}
    (hj : m.data[j]? = some n) : ⟨(Address.top i .data).child (0 + j), n, []⟩ ∈ s.tops i .data := by
  rw [Schema.tops, hm]
  exact Place.mem_ofChildren.mpr ⟨j, n, hj, rfl⟩

theorem visitable_top {s : Schema} {selected : List Name} {complete : Prop} {i : Nat} {m : Module}
    (hm : s.modules[i]? = some m) {j : Nat} {n : Node} (hj : m.data[j]? = some n)
    (hfits : complete → ∀ x ∈ Place.nodes ⟨(Address.top i .data).child (0 + j), n, []⟩, Fits selected x) :
    Visitable s selected complete ⟨(Address.top i .data).child (0 + j), n, []⟩ := by
  refine ⟨Schema.has_of_mem_tops (mem_tops_data hm hj), fun hk => ?_, hfits⟩
  rw [isWalked_of_above_nil rfl]
  have hk' : n.kind.isStructural = true ∨ n.kind = .choice := hk
  cases hn : n.kind <;> simp_all [Kind.isStructural]

/-- The operations of the rpcs of a module are added alike. -/
theorem rpcs_both (hschema : c'.schema = c.schema) (hs : c.schema.Ranked) (hR : R.Enters complete)
    (hR' : R'.Enters complete) {i : Nat} (hrpcs : ∀ p ∈ c.schema.tops i .rpcs, p.node.kind = .rpc)
    (hQ : ∀ path method p, ¬path.IsDataPath → p.address.part = .rpcs → Q path method p) (h : Handler) (root : Name)
    (ht : Twins R R' Q opened d e) :
    Both ((c.schema.tops i .rpcs).forM fun rpc =>
        h.emit c rpc ((Segment.root root 0).push rpc.node.name root false [] 0))
      ((c.schema.tops i .rpcs).forM fun rpc =>
        h.emit c' rpc ((Segment.root root 0).push rpc.node.name root false [] 0)) d e
      fun _ _ d' e' => Along R R' Q opened d e d' e' := by
  refine both_forM (fun _ d' e' => Along R R' Q opened d e d' e') (.refl ht)
    fun pre rpc post d₁ e₁ hmem h₁ => ?_
  have hrpc : rpc ∈ c.schema.tops i .rpcs := hmem ▸ by simp
  have hk := hrpcs rpc hrpc
  have hwalked : rpc.isWalked = false := by
    rw [isWalked_of_above_nil (Schema.above_of_mem_tops hrpc), hk]
    rfl
  exact (Handler.emit_rpc_both hschema hs hR hR' h₁.1 (Schema.has_of_mem_tops hrpc) hk hwalked
    (Schema.part_of_mem_tops hrpc) hQ _).mono fun _ _ d₂ e₂ h₂ => h₁.trans h₂

theorem visitModule_both (hw : w.scope = c) (hw' : w'.scope = c') (hsel : w.selected = selected)
    (hsel' : w'.selected = selected) (hschema : c'.schema = c.schema) (hs : c.schema.Ranked)
    (hR : R.Enters complete) (hR' : R'.Enters complete) {settings : Settings}
    (hlimit : complete → settings.walkLimit = none) {i : Nat}
    (hwhole : complete → ∀ p ∈ c.schema.tops i .data, p.node.kind ≠ .case ∧ ∀ x ∈ p.nodes, Fits selected x)
    (hrpcs : ∀ p ∈ c.schema.tops i .rpcs, p.node.kind = .rpc)
    (hserved : Served Q (moduleStops c.schema selected settings i))
    (hQ : ∀ path method p, ¬path.IsDataPath → p.address.part = .rpcs → Q path method p)
    (ht : Twins R R' Q opened d e) :
    Both (visitModule w settings i) (visitModule w' settings i) d e fun _ _ d' e' =>
      Visited R R' Q complete opened [] (moduleStops c.schema selected settings i) d e d' e' := by
  unfold visitModule
  rw [hw, hw', hschema]
  cases hm : c.schema.modules[i]? with
  | none => exact both_pure ⟨.refl ht, by simp, by simp [moduleStops, hm]⟩
  | some m =>
    dsimp only
    rw [moduleStops, hm] at hserved
    dsimp only at hserved
    -- the rpcs, after the data
    have hrest : ∀ {found : List Stop} {d₁ e₁ : Definitions},
        Visited R R' Q complete opened [] found d e d₁ e₁ →
        Both (if .rpc ∈ settings.elements then
            (c.schema.tops i .rpcs).forM fun rpc => (Handler.ofRules settings.tagRules).emit c rpc
              ((Segment.root m.name 0).push rpc.node.name m.name false [] 0)
          else pure ())
          (if .rpc ∈ settings.elements then
            (c.schema.tops i .rpcs).forM fun rpc => (Handler.ofRules settings.tagRules).emit c' rpc
              ((Segment.root m.name 0).push rpc.node.name m.name false [] 0)
          else pure ()) d₁ e₁ fun _ _ d' e' => Visited R R' Q complete opened [] found d e d' e' := by
      intro found d₁ e₁ h₁
      refine both_ite (fun _ => ?_) fun _ => both_pure h₁
      refine (rpcs_both hschema hs hR hR' hrpcs hQ _ m.name h₁.along.1).mono fun _ _ d₂ e₂ h₂ =>
        ⟨h₁.along.trans h₂, by simp, fun x hx => (h₁.found x hx).advance h₂.2.1 h₂.2.2⟩
    rw [moduleStops, hm]
    dsimp only
    by_cases hdata : Element.data ∈ settings.elements
    · rw [if_pos hdata, if_pos hdata]
      rw [if_pos hdata] at hserved ⊢
      refine both_bind ?_
      refine (visitAll_both hw hw' hsel hsel' hschema hs hR hR' hlimit _ _ _ _ 0 m.data
        (fun j n hj => ?_) hserved ht).mono fun _ _ d₁ e₁ h₁ => hrest ⟨h₁.along, by simp, h₁.found⟩
      have hmem := mem_tops_data hm hj
      exact ⟨visitable_top hm hj fun hc => (hwhole hc _ hmem).2, fun hc => (hwhole hc _ hmem).1⟩
    · rw [if_neg hdata, if_neg hdata, if_neg hdata]
      exact hrest ⟨.refl ht, by simp, by simp⟩

/-- The uses of groupings that have been counted, on which it depends what stands for a node. -/
def counted (d : Definitions) : Definitions := { usages := d.usages }

theorem counted_congr (h : d'.usages = d.usages) : counted d' = counted d := by
  rw [counted, counted, h]

/-- Definitions with nothing built yet. -/
structure IsFresh (d : Definitions) : Prop where
  paths : d.document.paths = []
  definitions : d.models = []
  names : d.names = []
  completed : d.completed = []
  underway : d.underway = []

theorem IsFresh.untouched (h : IsFresh d) (hu : Untouched d d') : IsFresh d' where
  paths := by rw [hu.document, h.paths]
  definitions := (congrArg Document.definitions hu.document).trans h.definitions
  names := hu.names.trans h.names
  completed := hu.completed.trans h.completed
  underway := hu.underway.trans h.underway

theorem IsFresh.sound {u : Definitions} (h : IsFresh d) (hu : d.usages = u.usages) (cut : Place → Prop) :
    Sound c u cut d where
  usages := hu
  closed := by
    rw [h.definitions]
    exact ⟨Entries.unique_nil, by simp, by simp⟩
  names p name _ hname := by simp [h.names] at hname
  completed p name _ hname := by simp [h.completed] at hname
  built e he := by simp [h.definitions] at he

/-- The stops of the walk through all selected modules. -/
def walkStops (s : Schema) (selected : List Name) (settings : Settings) (modules : List (Module × Nat)) :
    List Stop :=
  modules.flatMap fun m => moduleStops s selected settings m.2

/-- Which node the operation of a method under a path may be for: that of a stop with this path, or one that
stands in an rpc if it is not the path of data. -/
def Serves (found : List Stop) (path method : Scalar) (p : Place) : Prop :=
  (∃ x ∈ found, x.place = p ∧ path = .text x.path ∧ method ∈ Handler.methods x.segment.isReadOnly) ∨
    ¬path.IsDataPath ∧ p.address.part = .rpcs

/-- What a walk ensures: operations that are alike, all of whose schemas point at definitions or await one
that has been registered, names that describe the nodes they are bound to, and all this for every stop. -/
theorem walk_both (hw : w.scope = c) (hw' : w'.scope = c') (hsel : w.selected = selected)
    (hsel' : w'.selected = selected) (hschema : c'.schema = c.schema) (hs : c.schema.Ranked)
    (hrpcs : ∀ i, ∀ p ∈ c.schema.tops i .rpcs, p.node.kind = .rpc) (R : ∀ u, Regime c u)
    (R' : ∀ u, Regime c' u) (hR : ∀ u, (R u).Enters complete) (hR' : ∀ u, (R' u).Enters complete)
    {settings : Settings} (hlimit : complete → settings.walkLimit = none)
    {modules : List (Module × Nat)} (hwhole : complete → IsWhole c.schema selected modules)
    (hd : IsFresh d) (he : IsFresh e) :
    Both (walk w settings modules) (walk w' settings modules) d e fun _ _ d' e' =>
      Twins (R (counted d')) (R' (counted e')) (Serves (walkStops c.schema selected settings modules)) [] d' e' ∧
        ∀ x ∈ walkStops c.schema selected settings modules, Found c (counted d') c' (counted e') d' e' x := by
  unfold walk
  rw [hw, hw']
  refine both_bind ((both_of_ensures (processModules_ensures _ _ d)
    (processModules_ensures _ _ e)).mono fun _ _ d₁ e₁ ⟨hd₁, he₁⟩ => ?_)
  have hfresh := hd.untouched hd₁
  have hfresh' := he.untouched he₁
  have hstart : Twins (R (counted d₁)) (R' (counted e₁)) (Serves (walkStops c.schema selected settings modules))
      [] d₁ e₁ :=
    { left := hfresh.sound (u := counted d₁) rfl _
      right := hfresh'.sound (u := counted e₁) rfl _
      idle := hfresh.underway
      idle' := hfresh'.underway
      paths := by
        rw [hfresh.paths, hfresh'.paths]
        exact .nil }
  refine (both_forM (fun pre d e => Visited (R (counted d₁)) (R' (counted e₁))
    (Serves (walkStops c.schema selected settings modules)) complete [] []
    (walkStops c.schema selected settings pre) d₁ e₁ d e) ⟨.refl hstart, by simp, by simp [walkStops]⟩
    fun pre m post d₂ e₂ hm h₂ => ?_).mono fun _ _ d₂ e₂ h₂ => ?_
  · have hmem : m ∈ modules := hm ▸ by simp
    have hserved : Served (Serves (walkStops c.schema selected settings modules))
        (moduleStops c.schema selected settings m.2) := fun x hx method hmethod =>
      .inl ⟨x, List.mem_flatMap.mpr ⟨m, hmem, hx⟩, rfl, rfl, hmethod⟩
    refine (visitModule_both hw hw' hsel hsel' hschema hs (hR _) (hR' _) hlimit
      (fun hc => hwhole hc m hmem) (hrpcs m.2) hserved (fun path method p hpath hp => .inr ⟨hpath, hp⟩)
      h₂.along.1).mono fun _ _ d₃ e₃ h₃ => ?_
    have hstops : walkStops c.schema selected settings (pre ++ [m]) =
        walkStops c.schema selected settings pre ++ moduleStops c.schema selected settings m.2 := by
      simp [walkStops]
    rw [hstops]
    exact h₂.append h₃
  · rw [counted_congr h₂.along.1.left.usages, counted_congr h₂.along.1.right.usages]
    exact ⟨h₂.along.1, h₂.found⟩

end RestconfApi.Generation
