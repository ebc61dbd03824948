import RestconfApi.Path.Segment
import RestconfApi.Proofs.Path.Parameters

/-!
# Paths: the words of an operation id

An operation id keeps the words of the names on the way, the longest runs of ASCII letters and digits, and loses which
other characters stand between them. So two ids are equal exactly if they are made of the same words, up to the
underscore at the end that a last name leaves that does not end in a word.
-/

namespace RestconfApi

namespace Text

/-! ### Words -/

/-- The longest runs of letters and digits; `word` is what has been read of the first. -/
def runsFrom (word : List Char) : List Char → List (List Char)
  | [] => if word.isEmpty then [] else [word]
  | c :: cs =>
    if c.isAlphanum then runsFrom (word ++ [c]) cs
    else if word.isEmpty then runsFrom [] cs
    else word :: runsFrom [] cs

/-- The words of a text: its longest runs of ASCII letters and digits. -/
def runs (t : String) : List (List Char) := runsFrom [] t.toList

/-- Whether the last character that is read is no letter and no digit. -/
def isOpenFrom (isOpen : Bool) : List Char → Bool
  | [] => isOpen
  | c :: cs => isOpenFrom (!c.isAlphanum) cs

/-- Whether a text does not end in a word. -/
def isOpen (t : String) : Bool := isOpenFrom true t.toList

/-- A text of letters and digits. -/
def IsWord (t : String) : Prop := t ≠ "" ∧ ∀ c ∈ t.toList, c.isAlphanum = true

instance (t : String) : Decidable (IsWord t) :=
  decidable_of_iff (t ≠ "" ∧ t.toList.all Char.isAlphanum = true) (and_congr_right fun _ => List.all_eq_true)

theorem mem_runsFrom {word cs : List Char} (hword : ∀ c ∈ word, c.isAlphanum = true) {w : List Char}
    (hw : w ∈ runsFrom word cs) : w ≠ [] ∧ ∀ c ∈ w, c.isAlphanum = true := by
  induction cs generalizing word with
  | nil =>
    rw [runsFrom] at hw
    split at hw
    · simp at hw
    · rename_i hne
      rw [List.mem_singleton.mp hw]
      exact ⟨by simpa using hne, hword⟩
  | cons c cs ih =>
    rw [runsFrom] at hw
    split at hw
    · rename_i hc
      refine ih (fun d hd => ?_) hw
      rcases List.mem_append.mp hd with hd | hd
      · exact hword d hd
      · rwa [List.mem_singleton.mp hd]
    · split at hw
      · exact ih (by simp) hw
      · rename_i hne
        rcases List.mem_cons.mp hw with rfl | hw
        · exact ⟨by simpa using hne, hword⟩
        · exact ih (by simp) hw

theorem runsFrom_ne_nil {word : List Char} (hword : word ≠ []) (cs : List Char) : runsFrom word cs ≠ [] := by
  induction cs generalizing word with
  | nil => simp [runsFrom, hword]
  | cons c cs ih =>
    rw [runsFrom]
    split
    · exact ih (by simp)
    · simp [hword]

/-- Where there is no word, nothing but other characters has been read. -/
theorem isOpenFrom_of_runsFrom {cs : List Char} (h : runsFrom [] cs = []) : isOpenFrom true cs = true := by
  induction cs with
  | nil => rfl
  | cons c cs ih =>
    rw [runsFrom] at h
    split at h
    · exact absurd h (runsFrom_ne_nil (by simp) cs)
    · rename_i hc
      rw [isOpenFrom, Bool.eq_false_iff.mpr hc]
      exact ih (by simpa using h)

/-- Words end at an underscore. -/
theorem runsFrom_append (word cs rest : List Char) :
    runsFrom word (cs ++ '_' :: rest) = runsFrom word cs ++ runsFrom [] rest := by
  have hunderscore : ¬ '_'.isAlphanum = true := by decide
  induction cs generalizing word with
  | nil =>
    rw [List.nil_append, runsFrom.eq_2, if_neg hunderscore, runsFrom]
    split <;> rfl
  | cons c cs ih =>
    rw [List.cons_append, runsFrom, runsFrom]
    split
    · exact ih _
    · split
      · exact ih _
      · rw [ih, List.cons_append]

theorem isOpenFrom_append (isOpen : Bool) (cs rest : List Char) :
    isOpenFrom isOpen (cs ++ '_' :: rest) = isOpenFrom true rest := by
  induction cs generalizing isOpen with
  | nil => rfl
  | cons c cs ih => exact ih _

theorem runs_join (texts : List String) : runs (join "_" texts) = texts.flatMap runs := by
  induction texts with
  | nil => rfl
  | cons t texts ih =>
    cases texts with
    | nil => simp [join]
    | cons t' texts =>
      rw [join, runs, String.toList_append, String.toList_append, List.append_assoc, List.flatMap_cons, ← ih]
      · exact runsFrom_append _ _ _
      · simp

theorem isOpen_join {texts : List String} (hne : texts ≠ []) (t : String) :
    isOpen (join "_" (texts ++ [t])) = isOpen t := by
  rw [join_concat _ hne, isOpen, String.toList_append, String.toList_append, List.append_assoc]
  exact isOpenFrom_append _ _ _

/-- A word is the only one of its text. -/
theorem IsWord.runs {t : String} (h : IsWord t) : runs t = [t.toList] := by
  have hread : ∀ cs word : List Char, (∀ c ∈ cs, c.isAlphanum = true) → word ++ cs ≠ [] →
      runsFrom word cs = [word ++ cs] := by
    intro cs
    induction cs with
    | nil =>
      intro word _ hne
      rw [List.append_nil] at hne ⊢
      rw [runsFrom, if_neg (by simpa using hne)]
    | cons c cs ih =>
      intro word hall _
      rw [runsFrom, if_pos (hall c List.mem_cons_self), ih _ (fun d hd => hall d (List.mem_cons_of_mem _ hd)) (by simp),
        List.append_assoc, List.singleton_append]
  exact hread _ _ h.2 (by simpa using h.1)

/-! ### Spelling words -/

/-- Words with underscores between them, and one more at the end if something follows them. -/
def spell : List (List Char) → Bool → List Char
  | [], _ => []
  | [w], more => w ++ if more then ['_'] else []
  | w :: w' :: ws, more => w ++ '_' :: spell (w' :: ws) more

theorem spell_cons {w : List Char} {ws : List (List Char)} {more : Bool} (h : ws = [] → more = true) :
    spell (w :: ws) more = w ++ '_' :: spell ws more := by
  cases ws with
  | nil => simp [spell, h rfl]
  | cons w' ws => rw [spell]

/-- What has been spelled can be read again. -/
theorem splitOn_spell {ws : List (List Char)} (hne : ws ≠ []) (h : ∀ w ∈ ws, '_' ∉ w) (more : Bool) :
    splitOn '_' (spell ws more) = ws ++ if more then [[]] else [] := by
  induction ws with
  | nil => exact absurd rfl hne
  | cons w ws ih =>
    have hw := h w List.mem_cons_self
    cases ws with
    | nil =>
      cases more with
      | false =>
        show splitOn '_' (w ++ []) = _
        rw [List.append_nil, splitOn_eq_singleton hw]
        rfl
      | true =>
        show splitOn '_' (w ++ '_' :: []) = _
        rw [splitOn_append_cons hw]
        rfl
    | cons w' ws =>
      rw [spell, splitOn_append_cons hw, ih (by simp) fun w hw => h w (List.mem_cons_of_mem _ hw)]
      rfl

theorem spell_inj {ws ws' : List (List Char)} (hne : ws ≠ []) (hne' : ws' ≠ [])
    (h : ∀ w ∈ ws, w ≠ [] ∧ '_' ∉ w) (h' : ∀ w ∈ ws', w ≠ [] ∧ '_' ∉ w) {more more' : Bool}
    (heq : spell ws more = spell ws' more') : ws = ws' ∧ more = more' := by
  have hread := splitOn_spell hne (fun w hw => (h w hw).2) more
  rw [heq, splitOn_spell hne' (fun w hw => (h' w hw).2) more'] at hread
  -- the piece after the last underscore is empty, and no word is
  have hlast : ∀ {vs vs' : List (List Char)}, (∀ w ∈ vs, w ≠ []) → vs ≠ vs' ++ [[]] := by
    rintro vs vs' hvs rfl
    exact hvs [] (by simp) rfl
  cases more <;> cases more' <;> simp only [Bool.false_eq_true, if_true, if_false, List.append_nil] at hread
  · exact ⟨hread.symm, rfl⟩
  · exact absurd hread.symm (hlast fun w hw => (h w hw).1)
  · exact absurd hread (hlast fun w hw => (h' w hw).1)
  · exact ⟨(List.append_cancel_right hread).symm, rfl⟩

end Text

/-- A name that is made of letters and digits. -/
def Datum.IsWord (name : Name) : Prop := ∃ t, name = .text t ∧ Text.IsWord t

instance (name : Name) : Decidable name.IsWord :=
  decidable_of_iff (name.asText?.any (fun t => decide (Text.IsWord t)) = true) <| by
    constructor
    · intro h
      obtain ⟨t, ht, h⟩ := (Option.any_eq_true _ _).mp h
      exact ⟨t, Datum.eq_text_of_asText? ht, of_decide_eq_true h⟩
    · rintro ⟨t, rfl, h⟩
      exact decide_eq_true h

theorem Datum.IsWord.holds {name : Name} (h : name.IsWord) : name.holds = true := by
  obtain ⟨t, rfl, ht⟩ := h
  simpa [Datum.holds] using ht.1

namespace Segment

/-! ### Operation ids -/

/-- Squashing spells the words. A word that has been begun goes on; within other characters the underscore has been
written. -/
theorem squash_eq (cs : List Char) :
    squash true cs = Text.spell (Text.runsFrom [] cs) (Text.isOpenFrom true cs) ∧
      ∀ word ≠ [], word ++ squash false cs = Text.spell (Text.runsFrom word cs) (Text.isOpenFrom false cs) := by
  induction cs with
  | nil =>
    refine ⟨rfl, fun word hword => ?_⟩
    rw [squash, Text.runsFrom, if_neg (by simpa using hword)]
    rfl
  | cons c cs ih =>
    obtain ⟨hinside, hword⟩ := ih
    rw [squash, squash, Text.isOpenFrom, Text.isOpenFrom, Text.runsFrom]
    by_cases hc : c.isAlphanum = true
    · rw [if_pos hc, if_pos hc, hc]
      refine ⟨hword [c] (by simp), fun word _ => ?_⟩
      rw [if_pos rfl, Text.runsFrom, if_pos hc, Bool.not_true, ← hword (word ++ [c]) (by simp), List.append_assoc,
        List.singleton_append]
    · rw [if_neg hc, if_neg hc, Bool.eq_false_iff.mpr hc]
      refine ⟨hinside, fun word hne => ?_⟩
      rw [if_neg Bool.false_ne_true, if_neg Bool.false_ne_true, Text.runsFrom, if_neg hc, if_neg (by simp [hne]),
        Bool.not_false, Text.spell_cons Text.isOpenFrom_of_runsFrom, ← hinside]

/-- The words of the names on the way. -/
def words (s : Segment) : List (List Char) := s.stops.flatMap fun n => Text.runs n.wording

/-- Whether the last name on the way does not end in a word. -/
def isOpen (s : Segment) : Bool := Text.isOpen s.name.wording

variable {s s' : Segment} {method method' : String}

theorem exists_stops (h : s.isRoot = false) : ∃ before, before ≠ [] ∧ s.stops = before ++ [s.name] := by
  cases s with
  | root _ _ => cases h
  | step above name owner readOnly keys visit =>
    refine ⟨((chain (.step above name owner readOnly keys visit)).head?.map Segment.owner).toList ++
      above.chain.map Segment.name, ?_, ?_⟩
    · cases hchain : above.chain <;> simp [chain, hchain]
    · simp [stops, chain, Segment.name]

theorem toList_operationId (hmethod : Text.IsWord method) (h : s.isRoot = false) :
    (s.operationId method).toList = Text.spell (method.toList :: s.words) s.isOpen := by
  obtain ⟨before, hne, hstops⟩ := exists_stops h
  have hopen : Text.isOpen (Text.join "_" (method :: s.stops.map Datum.wording)) = s.isOpen := by
    rw [hstops, List.map_append, ← List.cons_append]
    exact Text.isOpen_join (by simp) _
  have hruns : Text.runs (Text.join "_" (method :: s.stops.map Datum.wording)) = method.toList :: s.words := by
    rw [Text.runs_join, List.flatMap_cons, hmethod.runs, List.flatMap_map]
    rfl
  -- the method begins with a word
  obtain ⟨c, cs, hcs⟩ := List.exists_cons_of_ne_nil (by simpa using hmethod.1 : method.toList ≠ [])
  have hc : c.isAlphanum = true := hmethod.2 c (hcs ▸ List.mem_cons_self)
  obtain ⟨rest, hrest⟩ : ∃ rest, (Text.join "_" (method :: s.stops.map Datum.wording)).toList = c :: rest := by
    rw [hstops]
    cases hbefore : before with
    | nil => exact absurd hbefore hne
    | cons n before => exact ⟨_, by rw [List.cons_append, List.map_cons, Text.join, String.toList_append,
        String.toList_append, hcs]; rfl; simp⟩
  rw [operationId, String.toList_ofList, hrest, squash, if_pos hc, ← hopen, ← hruns, Text.runs, Text.isOpen, hrest,
    Text.runsFrom, if_pos hc, Text.isOpenFrom, hc]
  exact (squash_eq rest).2 [c] (by simp)

/-- Operation ids are equal exactly if method and words are, and neither or both of the last names end in a word. -/
theorem operationId_eq_iff (hmethod : Text.IsWord method) (hmethod' : Text.IsWord method') (h : s.isRoot = false)
    (h' : s'.isRoot = false) :
    s.operationId method = s'.operationId method' ↔ method = method' ∧ s.words = s'.words ∧ s.isOpen = s'.isOpen := by
  have hunderscore : ∀ {w : List Char}, (∀ c ∈ w, c.isAlphanum = true) → '_' ∉ w := fun hw hmem => by
    have := hw _ hmem
    cases this
  have hwords : ∀ {t : Segment} {verb : String}, Text.IsWord verb → ∀ w ∈ verb.toList :: t.words,
      w ≠ [] ∧ '_' ∉ w := by
    intro t verb hverb w hw
    rcases List.mem_cons.mp hw with rfl | hw
    · exact ⟨by simpa using hverb.1, hunderscore hverb.2⟩
    · obtain ⟨n, -, hw⟩ := List.mem_flatMap.mp hw
      obtain ⟨hne, hall⟩ := Text.mem_runsFrom (by simp) hw
      exact ⟨hne, hunderscore hall⟩
  constructor
  · intro heq
    have hlist := congrArg String.toList heq
    rw [toList_operationId hmethod h, toList_operationId hmethod' h'] at hlist
    obtain ⟨hws, hmore⟩ := Text.spell_inj (by simp) (by simp) (hwords hmethod) (hwords hmethod') hlist
    obtain ⟨hverb, hws⟩ := List.cons.inj hws
    exact ⟨String.toList_injective hverb, hws, hmore⟩
  · rintro ⟨rfl, hws, hmore⟩
    refine String.toList_injective ?_
    rw [toList_operationId hmethod h, toList_operationId hmethod h', hws, hmore]

/-- Names that are words can be read off from the words. -/
theorem stops_eq_of_words (h : ∀ n ∈ s.stops, n.IsWord) (h' : ∀ n ∈ s'.stops, n.IsWord) (heq : s.words = s'.words) :
    s.stops = s'.stops := by
  have hread : ∀ {ns : List Name}, (∀ n ∈ ns, n.IsWord) →
      (ns.flatMap fun n => Text.runs n.wording).map (fun w => Datum.text (String.ofList w)) = ns := by
    intro ns hns
    induction ns with
    | nil => rfl
    | cons n ns ih =>
      obtain ⟨t, rfl, ht⟩ := hns n List.mem_cons_self
      rw [List.flatMap_cons, List.map_append, ih fun n hn => hns n (List.mem_cons_of_mem _ hn),
        show Text.runs (Datum.text t).wording = [t.toList] from ht.runs, List.map_singleton, String.ofList_toList]
      rfl
  rw [← hread h, ← hread h']
  exact congrArg _ heq

end Segment

end RestconfApi
