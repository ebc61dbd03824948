import RestconfApi.Proofs.Generation.Operations
import RestconfApi.Proofs.Generation.PathSet
import RestconfApi.Proofs.Path.Words

/-!
# Generation: operation ids

The id of an operation tells its verb and the words of the names on the way to what it is for, and nothing else. Where
the names are words and tell the nodes apart that a walk comes to, operations with the same id are one.
-/

namespace RestconfApi

open Definitions Generation

namespace Generation

/-! ### Containers and lists on a route -/

/-- The containers and lists on a route. -/
def around (passed : List Place) : List Place := passed.filter (·.node.kind.isStructural)

theorem around_cons {q : Place} {passed : List Place} (hk : q.node.kind.isStructural = true) :
    around (q :: passed) = q :: around passed :=
  List.filter_cons_of_pos hk

theorem around_cons_of_not {q : Place} {passed : List Place} (hk : ¬q.node.kind.isStructural = true) :
    around (q :: passed) = around passed :=
  List.filter_cons_of_neg hk

theorem routeSegment_around (root : Name) (passed : List Place) :
    routeSegment root (around passed) = routeSegment root passed := by
  induction passed with
  | nil => rfl
  | cons q passed ih =>
    by_cases hk : q.node.kind.isStructural = true
    · rw [around_cons hk, routeSegment_cons hk, routeSegment_cons hk, ih]
    · rw [around_cons_of_not hk, routeSegment_cons_of_not hk, ih]

variable {s : Schema} {i i' : Nat} {p p' : Place} {passed passed' : List Place}

theorem routeSegment_congr (root : Name) (h : around passed = around passed') :
    routeSegment root passed = routeSegment root passed' := by
  rw [← routeSegment_around, h, routeSegment_around]

/-- The innermost container or list on a route has a route of its own. -/
theorem Route.cases_around (h : Route s i p passed) :
    around passed = [] ∨ ∃ q rest, Route s i q rest ∧ q.node.kind.isStructural = true ∧
      around passed = q :: around rest := by
  induction h with
  | top _ => exact .inl rfl
  | @inside q x rest j hroute hk _ _ => exact .inr ⟨q, rest, hroute, hk, around_cons hk⟩
  | @through q y x rest j k _ hk _ _ ih =>
    rwa [around_cons_of_not (by simp [hk, Kind.isStructural])]

end Generation

/-! ### Names that tell nodes apart -/

/-- Names tell the containers and lists apart that a walk comes to below the same ones, and at the top those of one
owner. -/
def Schema.TellsApart (s : Schema) : Prop :=
  ∀ ⦃i i' : Nat⦄ ⦃p p' : Place⦄ ⦃passed passed' : List Place⦄, Route s i p passed → Route s i' p' passed' →
    p.node.kind.isStructural = true → p'.node.kind.isStructural = true → around passed = around passed' →
    (around passed = [] → (routeSegment (s.moduleName i) [p]).owner = (routeSegment (s.moduleName i') [p']).owner) →
    p.node.name = p'.node.name → p = p'

namespace Segment

variable {above : Segment} {name owner : Name} {readOnly : Bool} {keys : List Name} {visit : Nat}

theorem stops_push_root (root : Name) (n : Nat) :
    ((Segment.root root n).push name owner readOnly keys visit).stops =
      [((Segment.root root n).push name owner readOnly keys visit).owner, name] := by
  simp [stops, push, chain, Segment.name]

theorem stops_push (h : above.isRoot = false) :
    (above.push name owner readOnly keys visit).stops = above.stops ++ [name] := by
  obtain ⟨t, ts, hchain⟩ := List.exists_cons_of_ne_nil (chain_ne_nil h)
  simp [stops, push, chain, Segment.name, hchain]

theorem two_le_length_stops (h : above.isRoot = false) : 2 ≤ above.stops.length := by
  obtain ⟨before, hne, hstops⟩ := exists_stops h
  have := List.length_pos_iff.mpr hne
  rw [hstops, List.length_append, List.length_singleton]
  omega

end Segment

namespace Generation

variable {s : Schema} {i i' : Nat} {p p' : Place} {passed passed' : List Place}

theorem isRoot_routeSegment (root : Name) (hk : p.node.kind.isStructural = true) :
    (routeSegment root (p :: passed)).isRoot = false := by
  rw [routeSegment_cons hk]
  rfl

/-- Where names tell nodes apart, the names on the way to a node tell the node. -/
theorem Route.eq_of_stops (hs : s.TellsApart) (h : Route s i p passed) (h' : Route s i' p' passed')
    (hk : p.node.kind.isStructural = true) (hk' : p'.node.kind.isStructural = true)
    (heq : (routeSegment (s.moduleName i) (p :: passed)).stops =
      (routeSegment (s.moduleName i') (p' :: passed')).stops) :
    p = p' ∧ around passed = around passed' := by
  induction hlen : (around passed).length using Nat.strongRecOn generalizing p p' passed passed' with
  | _ n ih =>
    rw [routeSegment_cons hk, routeSegment_cons hk', ← routeSegment_around _ passed, ← routeSegment_around _ passed']
      at heq
    rcases h.cases_around with htop | ⟨q, rest, hroute, hq, haround⟩ <;>
      rcases h'.cases_around with htop' | ⟨q', rest', hroute', hq', haround'⟩
    · rw [htop, htop'] at heq
      simp only [routeSegment, List.map_nil, Schema.segmentOf, Segment.stops_push_root, List.cons.injEq,
        and_true] at heq
      refine ⟨hs h h' hk hk' (htop.trans htop'.symm) (fun _ => ?_) heq.2, htop.trans htop'.symm⟩
      rw [routeSegment_cons hk, routeSegment_cons hk']
      exact heq.1
    · rw [htop, haround'] at heq
      have hroot : (routeSegment (s.moduleName i') (q' :: around rest')).isRoot = false := isRoot_routeSegment _ hq'
      have hlength := congrArg List.length heq
      rw [Segment.stops_push hroot] at hlength
      have := Segment.two_le_length_stops hroot
      simp only [routeSegment, List.map_nil, Schema.segmentOf, Segment.stops_push_root, List.length_append,
        List.length_cons, List.length_nil] at hlength this
      omega
    · rw [htop', haround] at heq
      have hroot : (routeSegment (s.moduleName i) (q :: around rest)).isRoot = false := isRoot_routeSegment _ hq
      have hlength := congrArg List.length heq
      rw [Segment.stops_push hroot] at hlength
      have := Segment.two_le_length_stops hroot
      simp only [routeSegment, List.map_nil, Schema.segmentOf, Segment.stops_push_root, List.length_append,
        List.length_cons, List.length_nil] at hlength this
      omega
    · have hsegment : ∀ {root : Name} {r : Place} {rest : List Place}, r.node.kind.isStructural = true →
          routeSegment root (r :: around rest) = routeSegment root (r :: rest) := by
        intro root r rest hr
        rw [routeSegment_cons hr, routeSegment_cons hr, routeSegment_around]
      rw [haround, haround', hsegment hq, hsegment hq', Segment.stops_push (isRoot_routeSegment _ hq),
        Segment.stops_push (isRoot_routeSegment _ hq')] at heq
      obtain ⟨habove, hname⟩ := List.append_inj' heq rfl
      obtain ⟨rfl, hrest⟩ := ih _ (by rw [← hlen, haround, List.length_cons]; omega) hroute hroute' hq hq' habove rfl
      have hsame : around passed = around passed' := by rw [haround, haround', hrest]
      refine ⟨hs h h' hk hk' hsame (fun hnil => ?_) (List.cons.inj hname).1, hsame⟩
      rw [haround] at hnil
      cases hnil

end Generation

/-! ### What operations are for -/

/-- Under a path and a method there is an operation with a verb for what stands behind a segment: for a container or a
list, or for an rpc. -/
inductive Generation.Addresses (s : Schema) : Scalar → Scalar → String → Segment → Prop
  | data {i : Nat} {p : Place} {passed : List Place} {verb : String} : Route s i p passed →
      p.node.kind.isStructural = true → verb ∈ ["get", "put", "post", "delete"] →
      Addresses s (.text ("/data" ++ (routeSegment (s.moduleName i) (p :: passed)).path)) (.text verb) verb
        (routeSegment (s.moduleName i) (p :: passed))
  | rpc {i : Nat} {rpc : Place} : rpc ∈ s.tops i .rpcs →
      Addresses s (.text ("/operations" ++
          ((Segment.root (s.moduleName i) 0).push rpc.node.name (s.moduleName i) false [] 0).path)) (.text "post")
        "rpc" ((Segment.root (s.moduleName i) 0).push rpc.node.name (s.moduleName i) false [] 0)

namespace Generation

variable {s : Schema} {path path' method method' : Scalar} {verb verb' : String} {seg seg' : Segment}

theorem Addresses.isWord (h : Addresses s path method verb seg) : Text.IsWord verb := by
  cases h with
  | data _ _ hverb =>
    simp only [List.mem_cons, List.not_mem_nil, or_false] at hverb
    rcases hverb with rfl | rfl | rfl | rfl <;> decide
  | rpc _ => decide

theorem Addresses.isRoot (h : Addresses s path method verb seg) : seg.isRoot = false := by
  cases h with
  | data _ hk _ => exact isRoot_routeSegment _ hk
  | rpc _ => rfl

/-- Where names tell nodes apart, a verb and the names on the way tell path and method. -/
theorem Addresses.eq_of_stops (hs : s.TellsApart) (h : Addresses s path method verb seg)
    (h' : Addresses s path' method' verb' seg') (hverb : verb = verb') (hstops : seg.stops = seg'.stops) :
    path = path' ∧ method = method' := by
  subst hverb
  cases h with
  | data hroute hk hknown =>
    cases h' with
    | data hroute' hk' _ =>
      obtain ⟨rfl, haround⟩ := hroute.eq_of_stops hs hroute' hk hk' hstops
      obtain rfl := hroute.module.symm.trans hroute'.module
      rw [routeSegment_cons hk, routeSegment_cons hk, routeSegment_congr _ haround]
      exact ⟨rfl, rfl⟩
    | rpc _ => simp at hknown
  | rpc _ =>
    cases h' with
    | data _ _ hknown => simp at hknown
    | rpc _ =>
      simp only [Segment.stops_push_root, List.cons.injEq, and_true] at hstops
      have howner : ∀ root : Name, ∀ name : Name,
          ((Segment.root root 0).push name root false [] 0).owner = root := by
        intro root name
        rw [Segment.push]
        split <;> rfl
      rw [howner, howner] at hstops
      rw [hstops.1, hstops.2]
      exact ⟨rfl, rfl⟩

end Generation

theorem Origin.addresses {s : Schema} {selected : List Name} {settings : Settings} {path method : String}
    {o : Operation} (h : Origin s selected settings path method o) :
    ∃ verb seg, Addresses s (.text path) (.text method) verb seg ∧ o.operationId = .text (seg.operationId verb) := by
  cases h with
  | @data i m p passed _ _ hm hwalk ho =>
    have hname : m.name = s.moduleName i := by rw [Schema.moduleName, hm]; rfl
    rw [hname] at ho ⊢
    exact ⟨_, _, .data hwalk.route hwalk.structural ho.known, ho.named⟩
  | @rpc i m rpc _ hm hrpc ho =>
    have hname : m.name = s.moduleName i := by rw [Schema.moduleName, hm]; rfl
    rw [hname] at ho ⊢
    exact ⟨_, _, .rpc hrpc, ho.named⟩

/-! ### When names tell nodes apart -/

/-- A node on a route stands among the data children of the innermost container or list around, or else among the
data of its module. -/
theorem Generation.Route.standsAmong {s : Schema} (hs : HasCases s) {i : Nat} {p : Place} {passed : List Place}
    (h : Route s i p passed) :
    (around passed = [] → ∃ m, s.modules[i]? = some m ∧
      Schema.StandsAmong (Place.dataOfAll (Address.top i .data) [] 0 m.data) p) ∧
    ∀ q rest, around passed = q :: rest → Schema.StandsAmong q.dataChildren p := by
  induction h with
  | @top p hp =>
    exact ⟨fun _ => Schema.standsAmong_of_mem_tops hp, fun q rest hcons => absurd hcons (by simp [around])⟩
  | @inside q x passed j _ hk hx _ =>
    rw [around_cons hk]
    refine ⟨fun hnil => absurd hnil (by simp), fun r rest hr => ?_⟩
    obtain ⟨rfl, -⟩ := List.cons.inj hr
    exact Place.mem_dataChildren_of_childAt? hx
  | @through q y x passed j k hroute hk hy hx ih =>
    rw [around_cons_of_not (by simp [hk, Kind.isStructural])]
    have hcase : y.node.kind = .case := (hs hroute.has hroute.part hy).mpr hk
    have hlift : ∀ {ps : List Place}, Schema.StandsAmong ps q → Schema.StandsAmong ps x := fun hamong =>
      (hamong.childAt? (by simp [hk, Kind.isTransparent]) hy).childAt? (by simp [hcase, Kind.isTransparent]) hx
    refine ⟨fun hnil => ?_, fun r rest hr => hlift (ih.2 r rest hr)⟩
    obtain ⟨m, hm, hamong⟩ := ih.1 hnil
    exact ⟨m, hm, hlift hamong⟩

/-- Names tell nodes apart where no two modules and no two nodes beside each other have the same name. -/
theorem Schema.tellsApart_of_areUnlike {d : Datum} {s : Schema} (hload : (load d).result = .ok s)
    (hmodules : ∀ {i j : Nat} {m m' : Module}, s.modules[i]? = some m → s.modules[j]? = some m' →
      m.name = m'.name → i = j)
    (hcases : HasCases s) (hsiblings : ∀ {p : Place}, s.Has p → p.address.part = .data → AreUnlike p.dataChildren)
    (htops : ∀ {i : Nat} {m : Module}, s.modules[i]? = some m →
      AreUnlike (Place.dataOfAll (Address.top i .data) [] 0 m.data)) : s.TellsApart := by
  obtain ⟨declared, M, hfrom⟩ := exists_loadedFrom hload
  intro i i' p p' passed passed' h h' hk hk' haround howner hname
  have hvisible := isTransparent_of_isStructural hk
  have hvisible' := isTransparent_of_isStructural hk'
  rcases h.cases_around with hnil | ⟨q, rest, hq, -, hcons⟩
  · obtain ⟨m, hm, hamong⟩ := (h.standsAmong hcases).1 hnil
    obtain ⟨m', hm', hamong'⟩ := (h'.standsAmong hcases).1 (haround ▸ hnil)
    have hmem := hamong.1 hvisible
    have hmem' := hamong'.1 hvisible'
    -- whether or not the owner counts as one, it is the module
    have hshown : ∀ {j : Nat} {m : Module} {x : Place}, s.modules[j]? = some m → x.node.kind.isStructural = true →
        x.node.owner = m.name → (routeSegment (s.moduleName j) [x]).owner = m.name := by
      intro j m x hm hx hx'
      have hroot : s.moduleName j = m.name := by rw [moduleName, hm]; rfl
      rw [routeSegment_cons hx, Segment.push, hx', hroot]
      split <;> rfl
    have hsame := howner hnil
    rw [hshown hm hk (hfrom.owner_of_mem_dataOfAll hm hmem),
      hshown hm' hk' (hfrom.owner_of_mem_dataOfAll hm' hmem')] at hsame
    obtain rfl := hmodules hm hm' hsame
    obtain rfl := Option.some.inj (hm.symm.trans hm')
    exact (htops hm).eq hmem hmem' hname
  · have hmem := ((h.standsAmong hcases).2 _ _ hcons).1 hvisible
    have hmem' := ((h'.standsAmong hcases).2 _ _ (haround ▸ hcons)).1 hvisible'
    exact (hsiblings hq.has hq.part).eq hmem hmem' hname

/-! ### The ids -/

/-- Two operations have the same id exactly if they have the same verb, the words of the names on the ways are the
same, and neither or both of the ways end in a word. Where names tell nodes apart and those on both ways are words, the
operations then stand under one path and one method. -/
theorem operationId_eq_iff_of_generate {d : Datum} {s : Schema} {names : List Name} {settings : Settings}
    {doc : Document} (hload : (Schema.load d).result = .ok s) (hdoc : (generate s names settings).result = .ok doc)
    {path path' method method' : Scalar} {os os' : Entries Scalar Operation} {o o' : Operation}
    (hos : (path, os) ∈ doc.paths) (ho : (method, o) ∈ os) (hos' : (path', os') ∈ doc.paths)
    (ho' : (method', o') ∈ os') :
    ∃ verb verb' seg seg', Addresses s path method verb seg ∧ Addresses s path' method' verb' seg' ∧
      (o.operationId = o'.operationId ↔ verb = verb' ∧ seg.words = seg'.words ∧ seg.isOpen = seg'.isOpen) ∧
      (s.TellsApart → (∀ n ∈ seg.stops ++ seg'.stops, n.IsWord) → o.operationId = o'.operationId →
        path = path' ∧ method = method') := by
  obtain ⟨modules, r, info, hgenerated⟩ := exists_generated hload hdoc
  have horigins := hgenerated.hasOnly_origin hload
  obtain ⟨_, _, rfl, rfl, horigin⟩ := horigins.of_mem hos ho
  obtain ⟨_, _, rfl, rfl, horigin'⟩ := horigins.of_mem hos' ho'
  obtain ⟨verb, seg, haddresses, hid⟩ := horigin.addresses
  obtain ⟨verb', seg', haddresses', hid'⟩ := horigin'.addresses
  have hiff : o.operationId = o'.operationId ↔ verb = verb' ∧ seg.words = seg'.words ∧ seg.isOpen = seg'.isOpen := by
    rw [hid, hid', ← Segment.operationId_eq_iff haddresses.isWord haddresses'.isWord haddresses.isRoot
      haddresses'.isRoot]
    simp
  refine ⟨verb, verb', seg, seg', haddresses, haddresses', hiff, fun hs hwords heq => ?_⟩
  obtain ⟨hverb, hsame, -⟩ := hiff.mp heq
  refine haddresses.eq_of_stops hs haddresses' hverb (Segment.stops_eq_of_words (fun n hn => ?_) (fun n hn => ?_) hsame)
  · exact hwords n (List.mem_append_left _ hn)
  · exact hwords n (List.mem_append_right _ hn)

/-- Where all names and owners are words, those on the way to what an operation is for are. -/
theorem Generation.Addresses.isWord_of_mem {s : Schema} (hmodules : ∀ m ∈ s.modules, m.name.IsWord)
    (hnames : ∀ p, s.Has p → p.node.name.IsWord ∧ p.node.owner.IsWord) {path method : Scalar} {verb : String}
    {seg : Segment} (h : Addresses s path method verb seg) : ∀ n ∈ seg.stops, n.IsWord := by
  have hmodule : ∀ {i : Nat} {part : Part} {p : Place}, p ∈ s.tops i part → (s.moduleName i).IsWord := by
    intro i part p hp
    obtain ⟨m, hm, -⟩ := Schema.standsAmong_of_mem_tops hp
    rw [Schema.moduleName, hm]
    exact hmodules m (List.mem_of_getElem? hm)
  cases h with
  | @data i p passed _ hroute hk _ =>
    clear * - hroute hmodule hnames hk
    induction hlen : (around passed).length using Nat.strongRecOn generalizing p passed with
    | _ n ih =>
      have hp := hnames p hroute.has
      rw [routeSegment_cons hk, ← routeSegment_around]
      rcases hroute.cases_around with htop | ⟨q, rest, hroute', hq, haround⟩
      · rw [htop, routeSegment, List.map_nil, Schema.segmentOf, Segment.stops_push_root, Segment.push,
          if_pos hp.2.holds]
        intro n hn
        simp only [List.mem_cons, List.not_mem_nil, or_false] at hn
        rcases hn with rfl | rfl
        · exact hp.2
        · exact hp.1
      · have hsegment : routeSegment (s.moduleName i) (q :: around rest) =
            routeSegment (s.moduleName i) (q :: rest) := by
          rw [routeSegment_cons hq, routeSegment_cons hq, routeSegment_around]
        rw [haround, hsegment, Segment.stops_push (isRoot_routeSegment _ hq)]
        intro n hn
        rcases List.mem_append.mp hn with hn | hn
        · exact ih _ (by rw [← hlen, haround, List.length_cons]; omega) hroute' hq rfl n hn
        · rw [List.mem_singleton.mp hn]
          exact hp.1
  | @rpc i rpc hrpc =>
    intro n hn
    have hroot := hmodule hrpc
    rw [Segment.stops_push_root, Segment.push, if_pos hroot.holds] at hn
    simp only [List.mem_cons, List.not_mem_nil, or_false] at hn
    rcases hn with rfl | rfl
    · exact hroot
    · exact (hnames rpc (Schema.has_of_mem_tops hrpc)).1

theorem operationId_eq_iff_of_generate_shelf :
    ∃ doc os o os' o' verb verb' seg seg', (Schema.load Example.shelf).result = .ok Example.loadedShelf ∧
      (generate Example.loadedShelf [.text "m"] {}).result = .ok doc ∧
      (.text "/data/m:book=\x7bisbn\x7d", os) ∈ doc.paths ∧ (.text "put", o) ∈ os ∧
      (.text "/data/m:book=\x7bisbn\x7d/print", os') ∈ doc.paths ∧ (.text "get", o') ∈ os' ∧
      Addresses Example.loadedShelf (.text "/data/m:book=\x7bisbn\x7d") (.text "put") verb seg ∧
      Addresses Example.loadedShelf (.text "/data/m:book=\x7bisbn\x7d/print") (.text "get") verb' seg' ∧
      Example.loadedShelf.TellsApart ∧ (∀ n ∈ seg.stops ++ seg'.stops, n.IsWord) ∧
      ¬(verb = verb' ∧ seg.words = seg'.words ∧ seg.isOpen = seg'.isOpen) ∧ o.operationId ≠ o'.operationId := by
  have htest : passes Example.shelf [.text "m"] {} (fun _ doc =>
      (doc.operation? (.text "/data/m:book=\x7bisbn\x7d") (.text "put")).isSome &&
        (doc.operation? (.text "/data/m:book=\x7bisbn\x7d/print") (.text "get")).isSome) = true := by
    decide +kernel
  obtain ⟨s, doc, hload, hgenerate, htest⟩ := exists_of_passes htest
  obtain rfl := Except.ok.inj (hload.symm.trans load_shelf)
  simp only [Bool.and_eq_true, Option.isSome_iff_exists] at htest
  obtain ⟨⟨o, ho⟩, o', ho'⟩ := htest
  obtain ⟨os, _, hos, ho, hmethod⟩ := Document.mem_of_operation? ho
  obtain ⟨os', _, hos', ho', hmethod'⟩ := Document.mem_of_operation? ho'
  obtain rfl := Scalar.eq_text_of_beq hmethod
  obtain rfl := Scalar.eq_text_of_beq hmethod'
  obtain ⟨verb, verb', seg, seg', haddresses, haddresses', hiff, happly⟩ :=
    operationId_eq_iff_of_generate hload hgenerate hos ho hos' ho'
  obtain ⟨hsiblings, htops⟩ := Schema.areUnlike_of_isTidy isTidy_loadedShelf
  have hs : Example.loadedShelf.TellsApart := Schema.tellsApart_of_areUnlike hload isOrderly_loadedShelf.modules
    isOrderly_loadedShelf.cases hsiblings htops
  have hmodules : ∀ m ∈ Example.loadedShelf.modules, m.name.IsWord := by decide
  have hnames : ∀ p ∈ Example.loadedShelf.places, p.node.name.IsWord ∧ p.node.owner.IsWord := by decide
  have hwords : ∀ n ∈ seg.stops ++ seg'.stops, n.IsWord := fun n hn => by
    rcases List.mem_append.mp hn with hn | hn
    · exact haddresses.isWord_of_mem hmodules (fun p hp => hnames p hp.mem_places) n hn
    · exact haddresses'.isWord_of_mem hmodules (fun p hp => hnames p hp.mem_places) n hn
  have hdiffer : o.operationId ≠ o'.operationId := fun heq => by
    have hmethods := (happly hs hwords heq).2
    exact absurd hmethods (by simp)
  exact ⟨doc, os, o, os', o', verb, verb', seg, seg', hload, hgenerate, hos, ho, hos', ho', haddresses, haddresses', hs,
    hwords, fun hsame => hdiffer (hiff.mpr hsame), hdiffer⟩

/-- Containers beside each other whose names differ in a character that an id does not keep. -/
def Example.hyphened : Datum := document [("data", [container "a-b" [], container "a_b" []])]

/-- Containers beside each other whose names differ in what an id does not keep have the same ids. -/
theorem operationId_eq_hyphened :
    ∃ s doc os o os' o', (Schema.load Example.hyphened).result = .ok s ∧ s.IsOrderly ∧
      (∀ m ∈ s.modules, m.rpcs = []) ∧ (generate s [.text "m"] {}).result = .ok doc ∧
      (.text "/data/m:a-b", os) ∈ doc.paths ∧ (.text "get", o) ∈ os ∧
      (.text "/data/m:a_b", os') ∈ doc.paths ∧ (.text "get", o') ∈ os' ∧ o.operationId = o'.operationId := by
  have htest : passes Example.hyphened [.text "m"] {} (fun s doc => s.isTidy && s.modules.all (·.rpcs.isEmpty) &&
      (doc.operation? (.text "/data/m:a-b") (.text "get")).any fun o =>
        (doc.operation? (.text "/data/m:a_b") (.text "get")).any fun o' =>
          o.operationId == .text "get_m_a_b" && o'.operationId == .text "get_m_a_b") = true := by
    decide +kernel
  obtain ⟨s, doc, hload, hgenerate, htest⟩ := exists_of_passes htest
  simp only [Bool.and_eq_true, Option.any_eq_true, List.all_eq_true, List.isEmpty_iff] at htest
  obtain ⟨⟨htidy, hrpcs⟩, o, ho, o', ho', hid, hid'⟩ := htest
  obtain ⟨os, _, hos, ho, hmethod⟩ := Document.mem_of_operation? ho
  obtain ⟨os', _, hos', ho', hmethod'⟩ := Document.mem_of_operation? ho'
  obtain rfl := Scalar.eq_text_of_beq hmethod
  obtain rfl := Scalar.eq_text_of_beq hmethod'
  refine ⟨s, doc, os, o, os', o', hload, Schema.isOrderly_of_isTidy htidy, hrpcs, hgenerate, hos, ho, hos', ho', ?_⟩
  rw [Datum.eq_text_of_beq hid, Datum.eq_text_of_beq hid']

end RestconfApi
