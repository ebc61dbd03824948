import Mathlib.Data.List.Flatten
import RestconfApi.Proofs.Definitions.Counting
import RestconfApi.Proofs.Generation.Revisiting
import RestconfApi.Proofs.Generation.Strategies
import RestconfApi.Proofs.Swagger.Dependencies

/-!
# Generation: modules that are selected again

A module that is selected again is recorded as it is already, and visiting it again changes nothing but log records.
But the uses in a module count as often as it is selected, so that selecting it again may share what is used once. Where
it does not, selecting modules again changes nothing but what the document says about itself.
-/

namespace RestconfApi

/-! ### Lists with repetitions -/

/-- The first list is the second with some of its elements once more, each after it has come. -/
inductive Repeats {α : Type} : List α → List α → Prop
  | nil : Repeats [] []
  | keep {l l' : List α} (a : α) : Repeats l l' → Repeats (l ++ [a]) (l' ++ [a])
  | again {l l' : List α} {a : α} : Repeats l l' → a ∈ l' → Repeats (l ++ [a]) l'

/-- Both fail alike, or both succeed with results that `R` relates. -/
inductive SameOutcome {α β : Type} (R : α → β → Prop) : Except Failure α → Except Failure β → Prop
  | error (e : Failure) : SameOutcome R (.error e) (.error e)
  | ok {a : α} {b : β} : R a b → SameOutcome R (.ok a) (.ok b)

namespace SameOutcome

variable {α β γ δ : Type} {R : α → β → Prop} {S : γ → δ → Prop}

theorem self {R : α → α → Prop} {x : Except Failure α} (h : ∀ a, x = .ok a → R a a) : SameOutcome R x x := by
  cases x with
  | error e => exact .error e
  | ok a => exact .ok (h a rfl)

theorem bind {x : Except Failure α} {y : Except Failure β} {f : α → Except Failure γ} {g : β → Except Failure δ}
    (h : SameOutcome R x y) (hfg : ∀ a b, x = .ok a → y = .ok b → R a b → SameOutcome S (f a) (g b)) :
    SameOutcome S (x >>= f) (y >>= g) := by
  cases h with
  | error e => exact .error e
  | ok h => exact hfg _ _ rfl rfl h

/-- What follows the first alone has to succeed. -/
theorem bind_left {x : Except Failure α} {y : Except Failure β} {f : α → Except Failure γ} {T : γ → β → Prop}
    (h : SameOutcome R x y) (hf : ∀ a b, x = .ok a → y = .ok b → R a b → SameOutcome T (f a) (.ok b)) :
    SameOutcome T (x >>= f) y := by
  cases h with
  | error e => exact .error e
  | ok h => exact hf _ _ rfl rfl h

theorem map_eq {x : Except Failure α} {y : Except Failure β} {f : α → γ} {g : β → γ}
    (h : SameOutcome (fun a b => f a = g b) x y) : x.map f = y.map g := by
  cases h with
  | error e => rfl
  | ok h => exact congrArg Except.ok h

end SameOutcome

namespace Repeats

variable {α β : Type} {l l' : List α}

theorem mem_iff (h : Repeats l l') {a : α} : a ∈ l ↔ a ∈ l' := by
  induction h with
  | nil => rfl
  | keep b _ ih => rw [List.mem_append, List.mem_append, ih]
  | again _ hb ih =>
    rw [List.mem_append, List.mem_singleton, ih]
    exact ⟨fun h => h.elim id fun h => h ▸ hb, .inl⟩

theorem sublist (h : Repeats l l') : l'.Sublist l := by
  induction h with
  | nil => exact .refl _
  | keep b _ ih => exact ih.append (.refl _)
  | again _ _ ih => exact ih.trans (List.sublist_append_left _ _)

theorem isEmpty_eq (h : Repeats l l') : l.isEmpty = l'.isEmpty := by
  rw [Bool.eq_iff_iff, List.isEmpty_iff, List.isEmpty_iff, List.eq_nil_iff_forall_not_mem,
    List.eq_nil_iff_forall_not_mem]
  simp only [h.mem_iff]

theorem map (f : α → β) (h : Repeats l l') : Repeats (l.map f) (l'.map f) := by
  induction h with
  | nil => exact .nil
  | keep b _ ih =>
    rw [List.map_append, List.map_append]
    exact ih.keep (f b)
  | again _ hb ih =>
    rw [List.map_append]
    exact ih.again (List.mem_map_of_mem hb)

theorem filter (p : α → Bool) (h : Repeats l l') : Repeats (l.filter p) (l'.filter p) := by
  induction h with
  | nil => exact .nil
  | keep b _ ih =>
    rw [List.filter_append, List.filter_append]
    cases hb : p b with
    | true => simpa [hb] using ih.keep b
    | false => simpa [hb] using ih
  | @again l l' b _ hmem ih =>
    rw [List.filter_append]
    cases hb : p b with
    | true => simpa [hb] using ih.again (List.mem_filter.mpr ⟨hmem, hb⟩)
    | false => simpa [hb] using ih

/-- What is looked up for each element comes once more where the element does. -/
theorem mapM (f : α → Except Failure β) (h : Repeats l l') : SameOutcome Repeats (l.mapM f) (l'.mapM f) := by
  have happend : ∀ (l : List α) (a : α), (l ++ [a]).mapM f =
      l.mapM f >>= fun bs => f a >>= fun b => .ok (bs ++ [b]) := by
    intro l a
    rw [List.mapM_append]
    refine bind_congr fun bs => ?_
    rw [List.mapM_cons, List.mapM_nil]
    cases f a <;> rfl
  induction h with
  | nil => exact .ok .nil
  | @keep l l' a _ ih =>
    rw [happend, happend]
    refine ih.bind fun bs bs' _ _ hbs => (SameOutcome.self fun _ _ => rfl).bind fun b b' _ _ hb => ?_
    obtain rfl := hb
    exact .ok (hbs.keep b)
  | @again l l' a _ ha ih =>
    rw [happend]
    refine ih.bind_left fun bs bs' _ hbs' hbs => ?_
    obtain ⟨b, hb, hfb⟩ := exists_of_forall₂ (Declaration.forall₂_of_mapM hbs') ha
    rw [hfb]
    exact .ok (hbs.again hb)

end Repeats

/-! ### Documents apart from what they say about themselves -/

namespace Document

def withInfo (d : Document) (info : Info) : Document := { d with info }

/-- The document without what it says about itself. -/
def withoutInfo (d : Document) : Document := d.withInfo {}

variable (d : Document) (info : Info)

theorem foldFrom_withInfo (fuel : Nat) :
    foldFrom fuel (d.withInfo info) = ((foldFrom fuel d).1.withInfo info, (foldFrom fuel d).2) := by
  induction fuel generalizing d with
  | zero => rfl
  | succ fuel ih =>
    have hfoldable : (d.withInfo info).foldable = d.foldable := rfl
    have hreplace : (d.withInfo info).replace d.foldable = (d.replace d.foldable).withInfo info := rfl
    rw [foldFrom, foldFrom, hfoldable, hreplace, ih]
    dsimp only
    split
    · rfl
    · rfl

theorem result_foldAliases?_withInfo :
    (d.withInfo info).foldAliases?.result = d.foldAliases?.result.map fun d' => d'.withInfo info := by
  have hkeyed : (d.withInfo info).hasKeyedRefs = d.hasKeyedRefs := rfl
  have hunkeyed : (d.withInfo info).hasUnkeyedParent = d.hasUnkeyedParent := rfl
  have hfoldable : (d.withInfo info).foldable = d.foldable := rfl
  have hfold : (d.withInfo info).foldAliases = (d.foldAliases.1.withInfo info, d.foldAliases.2) :=
    foldFrom_withInfo d info _
  unfold foldAliases?
  rw [hkeyed, hunkeyed, hfoldable, hfold]
  split
  · rfl
  · split
    · rfl
    · dsimp only
      split
      · rfl
      · rfl

theorem sortDefinitions_withInfo : (d.withInfo info).sortDefinitions = d.sortDefinitions.withInfo info := by
  have hdefinitions : (d.withInfo info).definitions = d.definitions := rfl
  have hvisit : ∀ fuel, (d.withInfo info).visit fuel = d.visit fuel := visit_congr rfl rfl
  unfold sortDefinitions orderedNames
  rw [hdefinitions, hvisit]
  rfl

theorem sortDefinitions?_withInfo :
    (d.withInfo info).sortDefinitions? = d.sortDefinitions?.map fun d' => d'.withInfo info := by
  have hdefinitions : (d.withInfo info).definitions = d.definitions := rfl
  unfold sortDefinitions?
  rw [hdefinitions, sortDefinitions_withInfo]
  split
  · rfl
  · rfl

theorem sort?_withInfo : (d.withInfo info).sort? = d.sort?.map fun d' => d'.withInfo info := by
  unfold sort?
  rw [sortDefinitions?_withInfo]
  cases d.sortDefinitions? with
  | error e => rfl
  | ok d' =>
    have hpaths : (d'.withInfo info).paths = d'.paths := rfl
    show sortPaths? (d'.withInfo info) = (sortPaths? d').map _
    unfold sortPaths?
    rw [hpaths]
    split
    · rfl
    · rfl

end Document

namespace Generation

open Building Definitions Document

theorem result_postprocess_withInfo (d : Document) (info : Info) (p : Postprocessor) :
    (postprocess (d.withInfo info) p).result = (postprocess d p).result.map fun d' => d'.withInfo info := by
  cases p with
  | foldAliases => exact result_foldAliases?_withInfo d info
  | sortDefinitions => exact sortDefinitions?_withInfo d info
  | sort => exact sort?_withInfo d info

/-- Postprocessing does not look at what the document says about itself. -/
theorem result_postprocessAll_withInfo (settings : Settings) (d : Document) (info : Info) :
    (postprocessAll settings (d.withInfo info)).result =
      (postprocessAll settings d).result.map fun d' => d'.withInfo info := by
  have hdefinitions : (d.withInfo info).definitions = d.definitions := rfl
  unfold postprocessAll
  rw [hdefinitions]
  split
  · rfl
  · rename_i hsome
    clear hsome hdefinitions
    generalize settings.postprocessors = ps
    induction ps generalizing d with
    | nil => rfl
    | cons p ps ih =>
      rw [List.foldlM_cons, List.foldlM_cons, Logged.result_bind, Logged.result_bind, result_postprocess_withInfo]
      cases (postprocess d p).result with
      | error e => rfl
      | ok d' => exact ih d'

/-- What becomes of a document does not depend on how often modules are named in what it says about itself. -/
theorem concluded_of_repeats {modules modules' : List Module} (h : Repeats modules modules') (settings : Settings)
    (title title' : String) (d : Document) :
    SameOutcome (fun doc doc' => doc.withoutInfo = doc'.withoutInfo) (concluded settings modules title d)
      (concluded settings modules' title' d) := by
  have hdescribed : SameOutcome (fun _ _ => True) (info settings title modules) (info settings title' modules') := by
    refine SameOutcome.bind (R := fun _ _ => True) ?_ fun _ _ _ _ _ => .ok trivial
    exact (((h.map _).filter _).mapM _).bind fun _ _ _ _ _ => .ok trivial
  refine hdescribed.bind fun about about' _ _ _ => ?_
  have hpost := result_postprocessAll_withInfo settings d
  show SameOutcome _ (postprocessAll settings (d.withInfo about)).result
    (postprocessAll settings (d.withInfo about')).result
  rw [hpost, hpost]
  cases (postprocessAll settings d).result with
  | error e => exact .error e
  | ok doc => exact .ok rfl

/-! ### Selections -/

variable {s : Schema} {names names' : List Name} {modules modules' : List (Module × Nat)} {settings : Settings}

theorem result_mapM {α β : Type} (f : α → Logged β) (l : List α) :
    (l.mapM f).result = l.mapM fun a => (f a).result := by
  induction l with
  | nil => rfl
  | cons a l ih =>
    rw [List.mapM_cons, List.mapM_cons, Logged.result_bind, ← ih]
    refine bind_congr fun b => ?_
    rw [Logged.result_bind]
    rfl

/-- Where a name comes once more, its module is selected once more. -/
theorem select_of_repeats (h : Repeats names names') :
    SameOutcome Repeats (select s names).result (select s names').result := by
  unfold select
  rw [h.isEmpty_eq]
  split
  · exact .error _
  · split
    · refine SameOutcome.self fun _ hok => ?_
      obtain ⟨_, -, hok⟩ := Logged.ok_of_bind hok
      obtain ⟨_, -, hok⟩ := Logged.ok_of_bind hok
      obtain ⟨_, -, hok⟩ := Logged.ok_of_bind hok
      cases hok
    · rw [result_mapM, result_mapM]
      exact h.mapM _

theorem exists_text_of_modules (hnamed : s.IsNamed) (hmodules : ∀ m ∈ modules, s.modules[m.2]? = some m.1)
    {m : Module × Nat} (hm : m ∈ modules) : ∃ t, m.1.name = .text t := by
  obtain ⟨t, ht, -⟩ := hnamed.names m.1 (List.mem_of_getElem? (hmodules m hm))
  exact ⟨t, ht⟩

/-- Modules of a schema whose modules are named have names that are keys. -/
theorem forM_key?_of_modules (hnamed : s.IsNamed) (hmodules : ∀ m ∈ modules, s.modules[m.2]? = some m.1) :
    ((modules.map (·.1.name)).forM fun name => do let _ ← name.key?) = .ok () := by
  have htexts : ∀ name ∈ modules.map (·.1.name), ∃ t, name = .text t := by
    intro name hname
    obtain ⟨m, hm, rfl⟩ := List.mem_map.mp hname
    exact exists_text_of_modules hnamed hmodules hm
  generalize modules.map (·.1.name) = names at htexts
  induction names with
  | nil => rfl
  | cons name names ih =>
    obtain ⟨⟨t, rfl⟩, hnames⟩ := List.forall_mem_cons.mp htexts
    exact ih hnames

/-! ### Counts -/

/-- Where modules come once more, what is used is counted at least as often, and nothing else is. -/
theorem countP_usesOf_of_repeats {indices indices' : List Nat} (h : Repeats indices indices') (qname : String) :
    (usesOf s indices').countP (s.means qname) ≤ (usesOf s indices).countP (s.means qname) ∧
      ((usesOf s indices').countP (s.means qname) = 0 → (usesOf s indices).countP (s.means qname) = 0) := by
  unfold usesOf
  rw [h.isEmpty_eq]
  split
  · exact ⟨le_rfl, id⟩
  · unfold Schema.usesAt
    constructor
    · refine List.Sublist.countP_le (List.Sublist.flatMap (List.Sublist.flatMap ?_ _) _)
      exact (List.Sublist.refl _).append (h.sublist.flatMap _)
    · simp only [List.countP_eq_zero, List.mem_flatMap, List.mem_append, h.mem_iff]
      exact id

/-! ### What is recorded before the walk -/

/-- What is known when modules have been processed. -/
structure IsPrepared (s : Schema) (modules : List (Module × Nat)) (d d' : Definitions) : Prop where
  untouched : Untouched d d'
  processed : Processed s modules d d'
  counted : Counted s (modules.map (·.2)) d'

theorem isPrepared_prepared (hnamed : s.IsNamed) (hmodules : ∀ m ∈ modules, s.modules[m.2]? = some m.1)
    (settings : Settings) :
    (modules.forM fun m => processModule s m.2) { document := emptyDocument settings } =
        (.ok (), prepared s settings modules) ∧
      IsPrepared s modules { document := emptyDocument settings } (prepared s settings modules) := by
  have htexts : ∀ m ∈ modules, s.modules[m.2]? = some m.1 ∧ ∃ t, m.1.name = .text t := fun m hm =>
    ⟨hmodules m hm, exists_text_of_modules hnamed hmodules hm⟩
  have hindices : ∀ i ∈ modules.map (·.2), i < s.modules.length := by
    intro i hi
    obtain ⟨m, hm, rfl⟩ := List.mem_map.mp hi
    exact (List.getElem?_eq_some_iff.mp (hmodules m hm)).1
  have hmap : (modules.map (·.2)).forM (processModule s) = modules.forM fun m => processModule s m.2 := List.forM_map
  have hcounted := processModules_counted hindices (emptyDocument settings)
  rw [hmap] at hcounted
  rcases hrun : (modules.forM fun m => processModule s m.2) { document := emptyDocument settings } with ⟨e | _, d⟩
  · -- processing fails only where a name is no key
    obtain ⟨i, hi, m, hm, hkey⟩ := hcounted.error e d hrun
    obtain ⟨t, ht, -⟩ := hnamed.names m (List.mem_of_getElem? hm)
    rw [ht] at hkey
    cases hkey
  · have hprepared : prepared s settings modules = d := congrArg Prod.snd hrun
    rw [hprepared]
    exact ⟨rfl, processModules_ensures s modules _ _ d hrun, processModules_records htexts _ d hrun,
      (hcounted.ok _ d hrun).2⟩

/-- Nothing is built before the walk. -/
theorem IsPrepared.settled {document : Document} {d : Definitions} (h : IsPrepared s modules { document } d)
    (c : Scope) : Settled c d d := by
  have hnames : d.names = [] := h.untouched.names
  have hcompleted : d.completed = [] := h.untouched.completed
  exact ⟨rfl, by simp [hnames], by simp [hcompleted]⟩

/-- What is recorded once more has been recorded already. -/
theorem IsPrepared.similar {document : Document} {d d' : Definitions} (h : IsPrepared s modules { document } d)
    (h' : IsPrepared s modules' { document } d') (hrepeats : Repeats modules modules') {c : Scope} {t t' : Strategy}
    (hshares : ∀ qname, d.shares (c.under t) qname = d'.shares (c.under t') qname) : Similar c t t' d d' := by
  have hdocument : d.document = d'.document := h.untouched.document.trans h'.untouched.document.symm
  have hcompleted : d.completed = d'.completed := h.untouched.completed.trans h'.untouched.completed.symm
  refine ⟨?_, h.untouched.names.trans h'.untouched.names.symm, hcompleted,
    h.untouched.underway.trans h'.untouched.underway.symm, fun name => ?_, fun x => ?_, fun a => ?_, hshares⟩
  · rw [finished, finished, hdocument, current_congr hcompleted]
  · refine contains_eq_of_mem_iff (fun name => ?_) name
    rw [h.processed.processed, h'.processed.processed, (hrepeats.map _).mem_iff]
  · simp only [h.processed.copies, h'.processed.copies, List.mem_append, List.mem_flatMap, hrepeats.mem_iff]
  · simp only [h.processed.payload, h'.processed.payload, List.mem_append, List.mem_flatMap, hrepeats.mem_iff]

/-- What is shared does not change where no use that is the only one of its grouping comes once more. -/
theorem IsPrepared.isShared_eq {document : Document} {d d' : Definitions} (h : IsPrepared s modules { document } d)
    (h' : IsPrepared s modules' { document } d') (hrepeats : Repeats modules modules') {qname : String}
    (hone : d'.usageCount qname = 1 → d.usageCount qname = 1) : d.isShared qname = d'.isShared qname := by
  obtain ⟨hle, hzero⟩ := countP_usesOf_of_repeats (s := s) (hrepeats.map (·.2)) qname
  rw [← h.counted.usages, ← h'.counted.usages] at hle hzero
  rw [isShared, isShared, decide_eq_decide]
  omega

/-! ### Walks -/

section

variable {w : Walk} {u d e : Definitions} {augmented : Prop} {declared : Schema} {M : Expansion.Expanded}
  (hfrom : Schema.LoadedFrom augmented declared M w.scope.schema)
  (hknows : w.scope.strategy = .optimizing → w.scope.schema.KnowsGroupings)
  (hcases : HasCases w.scope.schema) (hnamed : w.scope.schema.IsNamed)
include hfrom hknows hcases hnamed

/-- A module among those visited may be visited once more in the end. -/
theorem visitModules_again (hmodules : ∀ m ∈ modules, w.scope.schema.modules[m.2]? = some m.1) {m : Module × Nat}
    (hm : m ∈ modules) (hd : Settled w.scope u d) :
    Agree (Similar w.scope w.scope.strategy w.scope.strategy)
      ((modules ++ [m]).forM fun m => visitModule w settings m.2) (modules.forM fun m => visitModule w settings m.2)
      d d := by
  rw [forM_concat]
  refine agree_bind_self (fun d => .refl _ _ d) fun d' hrun => ?_
  obtain ⟨hsettled, hvisited⟩ := visitModules_visit hfrom hknows hcases hnamed hmodules hd () d' hrun
  exact ((hvisited m hm).again hfrom hsettled).imp fun _ _ h => h.symm

/-- Walks through selections that differ in what comes once more agree. -/
theorem visitModules_of_repeats (settings : Settings) {selected : List Name}
    (hselected : ∀ name, selected.contains name = w.selected.contains name) (hrepeats : Repeats modules modules')
    (hmodules : ∀ m ∈ modules', w.scope.schema.modules[m.2]? = some m.1)
    (hd : Similar w.scope w.scope.strategy w.scope.strategy d e) (he : Settled w.scope u e) :
    Agree (Similar w.scope w.scope.strategy w.scope.strategy)
      (modules.forM fun m => visitModule ⟨w.scope, selected⟩ settings m.2)
      (modules'.forM fun m => visitModule w settings m.2) d e := by
  -- one more visit on both sides
  have hboth : ∀ {l l' : List (Module × Nat)} (m : Module × Nat),
      Agree (Similar w.scope w.scope.strategy w.scope.strategy)
        (l.forM fun m => visitModule ⟨w.scope, selected⟩ settings m.2) (l'.forM fun m => visitModule w settings m.2)
        d e →
      Agree (Similar w.scope w.scope.strategy w.scope.strategy)
        ((l ++ [m]).forM fun m => visitModule ⟨w.scope, selected⟩ settings m.2)
        ((l' ++ [m]).forM fun m => visitModule w settings m.2) d e := by
    intro l l' m h
    rw [forM_concat, forM_concat]
    exact agree_bind h fun _ _ _ h' => visitModule_agree hselected settings m.2 h'
  induction hrepeats with
  | nil => exact agree_pure hd
  | @keep l l' m _ ih => exact hboth m (ih fun m hm => hmodules m (List.mem_append_left _ hm))
  | @again l l' m _ hm ih =>
    exact (hboth m (ih hmodules)).trans (visitModules_again hfrom hknows hcases hnamed hmodules hm he)
      fun _ _ _ h h' => h.trans h'

end

/-- Walks through selections that differ in what comes once more end alike if they share the same groupings. -/
theorem walked_of_repeats {datum : Datum} (hload : (Schema.load datum).result = .ok s) (hnamed : s.IsNamed)
    (hcases : HasCases s) (hrepeats : Repeats modules modules')
    (hmodules' : ∀ m ∈ modules', s.modules[m.2]? = some m.1) {groupings : Groupings}
    (hshares : ∀ qname,
      (prepared s settings modules).shares ⟨s, groupings, settings.strategy, settings.levelLimit⟩ qname =
        (prepared s settings modules').shares ⟨s, groupings, settings.strategy, settings.levelLimit⟩ qname) :
    (walked s settings modules groupings).1 = (walked s settings modules' groupings).1 ∧
      (walked s settings modules groupings).2.finished = (walked s settings modules' groupings).2.finished := by
  obtain ⟨declared, M, hfrom⟩ := Schema.exists_loadedFrom hload
  have hmodules : ∀ m ∈ modules, s.modules[m.2]? = some m.1 := fun m hm => hmodules' m (hrepeats.mem_iff.mp hm)
  obtain ⟨hrun, hprepared⟩ := isPrepared_prepared hnamed hmodules settings
  obtain ⟨hrun', hprepared'⟩ := isPrepared_prepared hnamed hmodules' settings
  have hwalked : ∀ {modules : List (Module × Nat)}, (modules.forM fun m => processModule s m.2)
      { document := emptyDocument settings } = (.ok (), prepared s settings modules) →
      walked s settings modules groupings = (modules.forM fun m =>
        visitModule (walkThrough s settings modules groupings) settings m.2) (prepared s settings modules) := by
    intro modules hrun
    show ((modules.forM fun m => processModule s m.2) >>= fun _ => modules.forM fun m =>
      visitModule (walkThrough s settings modules groupings) settings m.2) { document := emptyDocument settings } = _
    rw [run_bind, hrun]
  rw [hwalked hrun, hwalked hrun']
  have hselected : ∀ name, (modules.map (·.1.name)).contains name = (modules'.map (·.1.name)).contains name :=
    contains_eq_of_mem_iff fun _ => (hrepeats.map _).mem_iff
  have hagree := visitModules_of_repeats (w := walkThrough s settings modules' groupings) hfrom
    (fun _ => hnamed.knowsGroupings hfrom) hcases hnamed settings hselected hrepeats hmodules'
    (hprepared.similar hprepared' hrepeats hshares) (hprepared'.settled _)
  exact ⟨hagree.result, hagree.states.finished⟩

end Generation

open Generation Definitions

/-- Modules that are selected once more change nothing but what the document says about itself, unless a grouping that
was used once is then used more often and shared. -/
theorem generate_of_repeats {datum : Datum} {s : Schema} (hload : (Schema.load datum).result = .ok s)
    (hnamed : s.IsNamed) (hcases : HasCases s) {names names' : List Name} (hnames : Repeats names names')
    (settings : Settings)
    (hsharing : settings.strategy = .unpacking ∨ ∀ modules modules', (select s names).result = .ok modules →
      (select s names').result = .ok modules' → ∀ qname, (prepared s settings modules').usageCount qname = 1 →
        (prepared s settings modules).usageCount qname = 1) :
    (generate s names settings).result.map Document.withoutInfo =
      (generate s names' settings).result.map Document.withoutInfo := by
  refine SameOutcome.map_eq ?_
  rw [result_generate, result_generate]
  refine (select_of_repeats hnames).bind fun modules modules' hselect hselect' hrepeats => ?_
  have hmodules := fun m (hm : m ∈ modules) => getElem?_of_select hselect hm
  have hmodules' := fun m (hm : m ∈ modules') => getElem?_of_select hselect' hm
  rw [forM_key?_of_modules hnamed hmodules, forM_key?_of_modules hnamed hmodules']
  refine (SameOutcome.self (R := Eq) fun _ _ => rfl).bind fun _ _ _ _ _ =>
    (SameOutcome.self (R := Eq) fun _ _ => rfl).bind fun groupings _ _ _ hgroupings => ?_
  subst hgroupings
  have htitle : SameOutcome (fun _ _ => True) (joined "," (modules.map (·.1.name)))
      (joined "," (modules'.map (·.1.name))) :=
    ((hrepeats.map _).mapM _).bind fun _ _ _ _ _ => .ok trivial
  refine htitle.bind fun title title' _ _ _ => ?_
  have hshares : ∀ qname,
      (prepared s settings modules).shares ⟨s, groupings, settings.strategy, settings.levelLimit⟩ qname =
        (prepared s settings modules').shares ⟨s, groupings, settings.strategy, settings.levelLimit⟩ qname := by
    intro qname
    rcases hsharing with hunpacking | hsame
    · simp [shares, hunpacking]
    · have hprepared := (isPrepared_prepared hnamed hmodules settings).2
      have hprepared' := (isPrepared_prepared hnamed hmodules' settings).2
      rw [shares, shares, hprepared.isShared_eq hprepared' hrepeats (hsame modules modules' hselect hselect' qname)]
  obtain ⟨hresult, hfinished⟩ := walked_of_repeats hload hnamed hcases hrepeats hmodules' hshares
  rw [hresult, hfinished]
  refine (SameOutcome.self (R := Eq) fun _ _ => rfl).bind fun _ _ _ _ _ => ?_
  exact concluded_of_repeats (hrepeats.map _) settings title title' _

open Example

/-- A module that uses its grouping twice, and one that uses its own once. -/
def Example.recurring : Datum :=
  .object [("modules", .list [
    module "a" [
      ("groupings", [grouping "g" [leaf "l"]]),
      ("data", [container "x" ["g"], container "y" ["g"]])],
    module "b" [
      ("groupings", [grouping "h" [leaf "n"]]),
      ("data", [container "z" ["h"] [leaf "k"]])]])]

/-- The first module may be selected once more after the second. -/
theorem generate_of_repeats_recurring :
    ∃ s modules modules' doc doc', (Schema.load Example.recurring).result = .ok s ∧ s.IsNamed ∧ HasCases s ∧
      Repeats ([.text "a", .text "b", .text "a"] : List Name) [.text "a", .text "b"] ∧
      (select s [.text "a", .text "b", .text "a"]).result = .ok modules ∧
      (select s [.text "a", .text "b"]).result = .ok modules' ∧
      (∀ qname, (prepared s {} modules').usageCount qname = 1 → (prepared s {} modules).usageCount qname = 1) ∧
      (prepared s {} modules).usageCount "a:g" = 4 ∧ (prepared s {} modules').usageCount "a:g" = 2 ∧
      (prepared s {} modules').usageCount "b:h" = 1 ∧
      (generate s [.text "a", .text "b", .text "a"] {}).result = .ok doc ∧
      (generate s [.text "a", .text "b"] {}).result = .ok doc' ∧ doc.withoutInfo = doc'.withoutInfo := by
  have htest : passes Example.recurring [.text "a", .text "b", .text "a"] {} (fun s _ =>
      s.modules.map (·.name.asText?) = ["a", "b"].map some && s.isRegular &&
        (select s [.text "a", .text "b", .text "a"]).result.toOption.any fun modules =>
          decide ((prepared s {} modules).usages = [("a:g", 4), ("b:h", 1)])) = true := by
    decide +kernel
  have htest' : passes Example.recurring [.text "a", .text "b"] {} (fun s _ =>
      (select s [.text "a", .text "b"]).result.toOption.any fun modules =>
        decide ((prepared s {} modules).usages = [("a:g", 2), ("b:h", 1)])) = true := by
    decide +kernel
  obtain ⟨s, doc, hload, h, htest⟩ := exists_of_passes htest
  obtain ⟨s', doc', hload', h', htest'⟩ := exists_of_passes htest'
  obtain rfl : s = s' := Except.ok.inj (hload.symm.trans hload')
  simp only [Bool.and_eq_true, decide_eq_true_eq] at htest
  obtain ⟨⟨hnames, hregular⟩, htest⟩ := htest
  obtain ⟨modules, hselect, husages⟩ := exists_of_any htest
  obtain ⟨modules', hselect', husages'⟩ := exists_of_any htest'
  have hnamed : s.IsNamed := Schema.isNamed_of_nodup hnames (by decide) (by decide)
  obtain ⟨hcases, -⟩ := Schema.of_isRegular hregular
  have hrepeats : Repeats ([.text "a", .text "b", .text "a"] : List Name) [.text "a", .text "b"] :=
    ((Repeats.nil.keep (Datum.text "a")).keep (Datum.text "b")).again (a := Datum.text "a") (by simp)
  have hcount : ∀ qname, (prepared s {} modules).usageCount qname =
      (Entries.get? qname [("a:g", 4), ("b:h", 1)]).getD 0 := fun qname => by
    rw [usageCount, of_decide_eq_true husages]
  have hcount' : ∀ qname, (prepared s {} modules').usageCount qname =
      (Entries.get? qname [("a:g", 2), ("b:h", 1)]).getD 0 := fun qname => by
    rw [usageCount, of_decide_eq_true husages']
  have hsame : ∀ qname, (prepared s {} modules').usageCount qname = 1 →
      (prepared s {} modules).usageCount qname = 1 := by
    intro qname
    rw [hcount, hcount']
    simp only [Entries.get?]
    split
    · simp
    · exact id
  have hsharing : ∀ modules₁ modules₂, (select s [.text "a", .text "b", .text "a"]).result = .ok modules₁ →
      (select s [.text "a", .text "b"]).result = .ok modules₂ → ∀ qname,
        (prepared s {} modules₂).usageCount qname = 1 → (prepared s {} modules₁).usageCount qname = 1 := by
    intro modules₁ modules₂ h₁ h₂
    obtain rfl := Except.ok.inj (hselect.symm.trans h₁)
    obtain rfl := Except.ok.inj (hselect'.symm.trans h₂)
    exact hsame
  have hequal := generate_of_repeats hload hnamed hcases hrepeats {} (.inr hsharing)
  rw [h, h'] at hequal
  exact ⟨s, modules, modules', doc, doc', hload, hnamed, hcases, hrepeats, hselect, hselect', hsame, hcount _,
    hcount' _, hcount' _, h, h', Except.ok.inj hequal⟩

/-! ### A grouping that is used once -/

/-- A container that uses a grouping, the only one to do so. -/
def Example.counted : Datum :=
  document [("groupings", [grouping "g" [leaf "l"]]), ("data", [container "x" ["g"] [leaf "k"]])]

/-- When the module is selected twice, the grouping gets a definition of its own. -/
theorem definitions_generate_twice :
    ∃ s doc doc', (Schema.load Example.counted).result = .ok s ∧
      (generate s [.text "m", .text "m"] {}).result = .ok doc ∧ (generate s [.text "m"] {}).result = .ok doc' ∧
      doc.definitions ≠ doc'.definitions := by
  have htwice : passes Example.counted [.text "m", .text "m"] {} (fun _ doc =>
      (doc.definitions.get? (.text "g")).isSome) = true := by
    decide +kernel
  have honce : passes Example.counted [.text "m"] {} (fun _ doc =>
      (doc.definitions.get? (.text "g")).isNone) = true := by
    decide +kernel
  obtain ⟨s, doc, hload, h, hsome⟩ := exists_of_passes htwice
  obtain ⟨s', doc', hload', h', hnone⟩ := exists_of_passes honce
  obtain rfl : s = s' := Except.ok.inj (hload.symm.trans hload')
  refine ⟨s, doc, doc', hload, h, h', fun heq => ?_⟩
  rw [heq, Option.isNone_iff_eq_none.mp hnone] at hsome
  cases hsome

end RestconfApi
