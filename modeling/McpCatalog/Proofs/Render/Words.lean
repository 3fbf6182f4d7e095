import McpCatalog.Proofs.Render.Legality
import McpCatalog.Proofs.Render.Namespace
/-!
# The words of a name

The words of a name are what a scan over its characters leaves, which ends the word that it is in at
a character that is no letter or digit, and in front of some upper-case letters. To tell which, it
looks one character back and one ahead. The words are all that there is in the name: no letter and
no digit is lost, and nothing but their case changes. Names have the same constant only if they have
the same words.

Results:
* `words_cons`: the words of a name by its first character.
* `scan?_eq`: the scan ends without looking in front of the name, with the words.
* `between_iff`: where words end.
* `constant_eq_iff`: names with the same constant.
* `words_of_name`: all of this together.
-/
namespace McpCatalog.Identifier

/-! ## Words by characters -/

/-- A word ends behind the letter or digit if these characters follow it. -/
def endsWord (c : Char) : List Char → Bool
  | [] => true
  | d :: rest => !d.isAlphanum || startsWord c d rest.head?

theorem exists_splitOnP_eq (p : Char → Bool) (cs : List Char) :
    ∃ rest, cs.splitOnP p = (cs.takeWhile fun c => !p c) :: rest := by
  induction cs with
  | nil => exact ⟨[], List.splitOnP_nil⟩
  | cons c cs ih =>
    rw [List.splitOnP_cons_eq_if_modifyHead]
    cases hc : p c with
    | true => exact ⟨cs.splitOnP p, by simp [hc]⟩
    | false =>
      obtain ⟨rest, hrest⟩ := ih
      exact ⟨rest, by simp [hc, hrest]⟩

/-- The words of runs, of which some can be empty. -/
def wordsOfRuns (runs : List (List Char)) : List (List Char) :=
  (runs.flatMap splitRun).map fun word => word.map Char.toLower

theorem wordsOfRuns_cons (run : List Char) (runs : List (List Char)) :
    wordsOfRuns (run :: runs)
      = (splitRun run).map (fun word => word.map Char.toLower) ++ wordsOfRuns runs := by
  rw [wordsOfRuns, List.flatMap_cons, List.map_append, wordsOfRuns]

theorem words_eq (name : List Char) :
    words name = wordsOfRuns (name.splitOnP fun c => !c.isAlphanum) := by
  have hfilter : ∀ runs : List (List Char),
      (runs.filter fun run => !run.isEmpty).flatMap splitRun = runs.flatMap splitRun := by
    intro runs
    induction runs with
    | nil => rfl
    | cons run runs ih =>
      cases run with
      | nil => exact ih
      | cons c cs => exact congrArg (splitRun (c :: cs) ++ ·) ih
  rw [words, runs, hfilter, wordsOfRuns]

theorem words_cons_of_not_alphanum {c : Char} (hc : c.isAlphanum = false) (rest : List Char) :
    words (c :: rest) = words rest := by
  rw [words_eq, words_eq, List.splitOnP_cons_eq_if_modifyHead, if_pos (by simp [hc])]
  rfl

/-- What follows a run makes no difference to its words: it is no lower-case letter. -/
theorem startsWord_takeWhile (c d : Char) (rest : List Char) :
    startsWord c d (rest.takeWhile Char.isAlphanum).head? = startsWord c d rest.head? := by
  cases rest with
  | nil => rfl
  | cons e rest =>
    cases he : e.isAlphanum with
    | true => simp [he]
    | false =>
      have hlower : e.isLower = false := by
        rw [isAlphanum_eq, Bool.or_eq_false_iff, Bool.or_eq_false_iff] at he
        exact he.1.2
      simp [he, startsWord, hlower]

theorem exists_splitRun_cons (c : Char) (run : List Char) :
    ∃ word more, splitRun (c :: run) = word :: more := by
  apply List.exists_cons_of_ne_nil
  intro hnil
  have hflatten := flatten_splitRun (c :: run)
  rw [hnil] at hflatten
  cases hflatten

/-- The first letter or digit of a run is a word of its own, or belongs to the first word of the
others. -/
theorem splitRun_cons (c : Char) (rest : List Char) :
    splitRun (c :: rest.takeWhile Char.isAlphanum) =
      if endsWord c rest then [c] :: splitRun (rest.takeWhile Char.isAlphanum)
      else (splitRun (rest.takeWhile Char.isAlphanum)).modifyHead (c :: ·) := by
  cases rest with
  | nil => rfl
  | cons d rest =>
    cases hd : d.isAlphanum with
    | false => simp [hd, endsWord, splitRun]
    | true =>
      rw [List.takeWhile_cons_of_pos hd, splitRun, startsWord_takeWhile, endsWord, hd,
        Bool.not_true, Bool.false_or]
      obtain ⟨word, more, hsplit⟩ := exists_splitRun_cons d (rest.takeWhile Char.isAlphanum)
      rw [hsplit, List.modifyHead_cons]

/-- A word goes on only with another letter or digit. -/
theorem exists_of_not_endsWord {c : Char} {rest : List Char} (h : endsWord c rest = false) :
    ∃ d cs, rest = d :: cs ∧ d.isAlphanum = true := by
  cases rest with
  | nil => cases h
  | cons d cs =>
    rw [endsWord, Bool.or_eq_false_iff, Bool.not_eq_false'] at h
    exact ⟨d, cs, rfl, h.1⟩

theorem words_cons {c : Char} (hc : c.isAlphanum = true) (rest : List Char) :
    words (c :: rest) =
      if endsWord c rest then [c.toLower] :: words rest
      else (words rest).modifyHead (c.toLower :: ·) := by
  obtain ⟨more, hsplit⟩ := exists_splitOnP_eq (fun c => !c.isAlphanum) rest
  simp only [Bool.not_not] at hsplit
  rw [words_eq, words_eq, List.splitOnP_cons_eq_if_modifyHead, if_neg (by simp [hc]), hsplit,
    List.modifyHead_cons, wordsOfRuns_cons, wordsOfRuns_cons, splitRun_cons]
  cases hends : endsWord c rest with
  | true => rfl
  | false =>
    obtain ⟨d, cs, rfl, hd⟩ := exists_of_not_endsWord hends
    obtain ⟨word, more, hword⟩ := exists_splitRun_cons d (cs.takeWhile Char.isAlphanum)
    rw [List.takeWhile_cons_of_pos hd, hword]
    rfl

theorem words_ne_nil {c : Char} (hc : c.isAlphanum = true) (rest : List Char) :
    words (c :: rest) ≠ [] := by
  induction rest generalizing c with
  | nil =>
    rw [words_cons hc]
    exact List.cons_ne_nil _ _
  | cons d rest ih =>
    rw [words_cons hc]
    cases hends : endsWord c (d :: rest) with
    | true => exact List.cons_ne_nil _ _
    | false =>
      obtain ⟨_, _, ⟨⟩, hd⟩ := exists_of_not_endsWord hends
      obtain ⟨word, more, hwords⟩ := List.exists_cons_of_ne_nil (ih hd)
      rw [hwords]
      exact List.cons_ne_nil _ _

/-- The word of a letter or digit ends behind it, or goes on with the first word of what follows. -/
theorem words_cases {c : Char} (hc : c.isAlphanum = true) (rest : List Char) :
    (endsWord c rest = true ∧ words (c :: rest) = [c.toLower] :: words rest) ∨
      endsWord c rest = false ∧ ∃ word more, words rest = word :: more ∧ word ≠ [] ∧
        words (c :: rest) = (c.toLower :: word) :: more := by
  rw [words_cons hc]
  cases hends : endsWord c rest with
  | true => exact .inl ⟨rfl, rfl⟩
  | false =>
    obtain ⟨d, cs, rfl, hd⟩ := exists_of_not_endsWord hends
    obtain ⟨word, more, hwords⟩ := List.exists_cons_of_ne_nil (words_ne_nil hd cs)
    have hne : word ≠ [] := ne_nil_of_mem_words (hwords ▸ List.mem_cons_self)
    exact .inr ⟨rfl, word, more, hwords, hne, by rw [hwords]; rfl⟩

/-! ## Letters and digits -/

/-- The letters and digits of a name, in lower case. -/
def lettersOf (name : List Char) : List Char :=
  (name.filter Char.isAlphanum).map Char.toLower

theorem lettersOf_cons {c : Char} (hc : c.isAlphanum = true) (rest : List Char) :
    lettersOf (c :: rest) = c.toLower :: lettersOf rest := by
  simp [lettersOf, hc]

theorem lettersOf_cons_of_not_alphanum {c : Char} (hc : c.isAlphanum = false) (rest : List Char) :
    lettersOf (c :: rest) = lettersOf rest := by
  simp [lettersOf, hc]

theorem lettersOf_append (front back : List Char) :
    lettersOf (front ++ back) = lettersOf front ++ lettersOf back := by
  simp [lettersOf]

/-- No letter and no digit is lost. -/
theorem flatten_words (name : List Char) : (words name).flatten = lettersOf name := by
  induction name with
  | nil => rfl
  | cons c rest ih =>
    cases hc : c.isAlphanum with
    | false => rw [words_cons_of_not_alphanum hc, ih, lettersOf_cons_of_not_alphanum hc]
    | true =>
      rw [lettersOf_cons hc, ← ih]
      rcases words_cases hc rest with ⟨-, hwords⟩ | ⟨-, word, more, hrest, -, hwords⟩
      · rw [hwords]
        rfl
      · rw [hwords, hrest]
        rfl

/-! ## Where words end -/

/-- The first of the words have the given letters and digits between them. -/
def StartWith (ws : List (List Char)) (letters : List Char) : Prop :=
  ∃ us vs, ws = us ++ vs ∧ us.flatten = letters

theorem startWith_cons_iff {x : Char} {ws : List (List Char)} {letters : List Char} :
    StartWith ([x] :: ws) (x :: letters) ↔ StartWith ws letters := by
  constructor
  · rintro ⟨us, vs, hsplit, hletters⟩
    cases us with
    | nil => cases hletters
    | cons u us =>
      obtain ⟨rfl, hrest⟩ := List.cons.inj hsplit
      exact ⟨us, vs, hrest, (List.cons.inj hletters).2⟩
  · rintro ⟨us, vs, rfl, rfl⟩
    exact ⟨[x] :: us, vs, rfl, rfl⟩

theorem startWith_cons_cons_iff {x : Char} {word letters : List Char} {ws : List (List Char)}
    (hletters : letters ≠ []) :
    StartWith ((x :: word) :: ws) (x :: letters) ↔ StartWith (word :: ws) letters := by
  constructor
  · rintro ⟨us, vs, hsplit, hflatten⟩
    cases us with
    | nil => cases hflatten
    | cons u us =>
      obtain ⟨rfl, hrest⟩ := List.cons.inj hsplit
      exact ⟨word :: us, vs, by rw [hrest]; rfl, (List.cons.inj hflatten).2⟩
  · rintro ⟨us, vs, hsplit, rfl⟩
    cases us with
    | nil => exact absurd rfl hletters
    | cons u us =>
      obtain ⟨rfl, hrest⟩ := List.cons.inj hsplit
      exact ⟨(x :: word) :: us, vs, by rw [hrest]; rfl, rfl⟩

/-- Words are made up of what comes up to a letter or digit exactly if the word ends there. -/
theorem startWith_words_iff (front : List Char) {c : Char} (hc : c.isAlphanum = true)
    (back : List Char) :
    StartWith (words (front ++ c :: back)) (lettersOf (front ++ [c])) ↔ endsWord c back = true := by
  induction front with
  | nil =>
    rw [List.nil_append, List.nil_append, lettersOf_cons hc]
    rcases words_cases hc back with ⟨hends, hwords⟩ | ⟨hends, word, more, -, hne, hwords⟩
    · rw [hwords, startWith_cons_iff, hends]
      exact iff_of_true ⟨[], _, rfl, rfl⟩ rfl
    · rw [hwords, hends]
      refine iff_of_false ?_ Bool.false_ne_true
      rintro ⟨us, vs, hsplit, hflatten⟩
      cases us with
      | nil => cases hflatten
      | cons u us =>
        obtain ⟨rfl, -⟩ := List.cons.inj hsplit
        have hempty := (List.cons.inj hflatten).2
        exact hne (List.append_eq_nil_iff.1 hempty).1
  | cons a front ih =>
    rw [List.cons_append, List.cons_append]
    cases ha : a.isAlphanum with
    | false => rw [words_cons_of_not_alphanum ha, lettersOf_cons_of_not_alphanum ha, ih]
    | true =>
      have hletters : lettersOf (front ++ [c]) ≠ [] := by
        rw [lettersOf_append, lettersOf_cons hc]
        simp
      rw [lettersOf_cons ha, ← ih]
      rcases words_cases ha (front ++ c :: back)
        with ⟨-, hwords⟩ | ⟨-, word, more, hrest, -, hwords⟩
      · rw [hwords, startWith_cons_iff]
      · rw [hwords, hrest, startWith_cons_cons_iff hletters]

/-- Some of the words of the two parts, put together, are those of the letters and digits of the
first part, and the others those of the second one. -/
def Between (front back : List Char) : Prop :=
  ∃ us vs, words (front ++ back) = us ++ vs ∧ us.flatten = lettersOf front ∧
    vs.flatten = lettersOf back

theorem between_iff_startWith {front back : List Char} :
    Between front back ↔ StartWith (words (front ++ back)) (lettersOf front) := by
  constructor
  · rintro ⟨us, vs, hsplit, hfront, -⟩
    exact ⟨us, vs, hsplit, hfront⟩
  · rintro ⟨us, vs, hsplit, hfront⟩
    refine ⟨us, vs, hsplit, hfront, ?_⟩
    have hletters := flatten_words (front ++ back)
    rw [hsplit, List.flatten_append, lettersOf_append, hfront] at hletters
    exact List.append_cancel_left hletters

/-- A word ends between two letters or digits with nothing but other characters between them exactly
if there is such a character, or if the second one is an upper-case letter and the first one a
lower-case letter or a digit, or if both are upper-case letters and a lower-case one follows. -/
theorem between_iff (front : List Char) {c d : Char} {gap : List Char} (back : List Char)
    (hc : c.isAlphanum = true) (hd : d.isAlphanum = true)
    (hgap : ∀ g ∈ gap, g.isAlphanum = false) :
    Between (front ++ [c]) (gap ++ d :: back) ↔
      gap ≠ [] ∨ (d.isUpper = true ∧ (c.isLower = true ∨ c.isDigit = true)) ∨
        c.isUpper = true ∧ d.isUpper = true ∧ ∃ e ∈ back.head?, e.isLower = true := by
  have hname : front ++ [c] ++ (gap ++ d :: back) = front ++ c :: (gap ++ d :: back) := by simp
  rw [between_iff_startWith, hname, startWith_words_iff front hc]
  cases gap with
  | nil =>
    have hnext : back.head?.any Char.isLower = true ↔ ∃ e ∈ back.head?, e.isLower = true := by
      cases back.head? <;> simp
    rw [List.nil_append, endsWord, hd, Bool.not_true, Bool.false_or, startsWord]
    simp only [Bool.and_eq_true, Bool.or_eq_true, hnext, ne_eq, not_true_eq_false, false_or,
      and_or_left, and_left_comm]
  | cons g gap =>
    have hg := hgap g List.mem_cons_self
    rw [List.cons_append, endsWord, hg]
    exact iff_of_true rfl (.inl (List.cons_ne_nil _ _))

/-! ## The scan -/

/-- What a scan has found: words that have ended, and the letters and digits since then. -/
structure Scan where
  words : List (List Char)
  current : List Char

/-- The current word ends, if there is one. -/
def Scan.flush (s : Scan) : Scan :=
  if s.current.isEmpty then s else ⟨s.words ++ [s.current], []⟩

def Scan.push (s : Scan) (c : Char) : Scan :=
  ⟨s.words, s.current ++ [c.toLower]⟩

/-- The character in front of a position; there is none in front of the first one. -/
def before? (name : List Char) : Nat → Option Char
  | 0 => none
  | index + 1 => name[index]?

/-- The scan with the character at a position; `none` if it would look outside of the name. -/
def step? (name : List Char) (s : Scan) (index : Nat) : Option Scan := do
  let c ← name[index]?
  if !c.isAlphanum then return s.flush
  if c.isUpper && !s.current.isEmpty then
    let previous ← before? name index
    let nextIsLower := name[index + 1]?.any Char.isLower
    if previous.isLower || previous.isDigit || (previous.isUpper && nextIsLower) then
      return s.flush.push c
  return s.push c

/-- The words of a name as a scan finds them, one position after the other. -/
def scan? (name : List Char) : Option (List (List Char)) :=
  ((List.range name.length).foldlM (step? name) ⟨[], []⟩).map fun s => s.flush.words

/-- The words from a word on that has come up to a letter or digit. -/
def goOn (current : List Char) (c : Char) (rest : List Char) : List (List Char) :=
  if endsWord c rest then current :: words rest else (words rest).modifyHead (current ++ ·)

theorem goOn_singleton {c : Char} (hc : c.isAlphanum = true) (rest : List Char) :
    goOn [c.toLower] c rest = words (c :: rest) :=
  (words_cons hc rest).symm

/-- The scan of the first part of a name, with the second part still to come, leads to the words. -/
inductive Leads : List Char → List Char → Scan → List (List Char) → Prop
  | fresh {front back : List Char} {ws : List (List Char)} :
    Leads front back ⟨ws, []⟩ (ws ++ words back)
  | inWord {front back current : List Char} {ws : List (List Char)} {c : Char}
    (hne : current ≠ []) : Leads (front ++ [c]) back ⟨ws, current⟩ (ws ++ goOn current c back)

section
variable {front back current : List Char} {ws : List (List Char)} {b c : Char}

theorem flush_of_ne_nil (hne : current ≠ []) :
    Scan.flush ⟨ws, current⟩ = ⟨ws ++ [current], []⟩ := by
  rw [Scan.flush, if_neg (by simpa using hne)]

theorem step?_of_not_alphanum (hc : c.isAlphanum = false) (s : Scan) :
    step? (front ++ c :: back) s front.length = some s.flush := by
  simp [step?, hc]

theorem step?_fresh (hc : c.isAlphanum = true) :
    step? (front ++ c :: back) ⟨ws, []⟩ front.length = some ⟨ws, [c.toLower]⟩ := by
  simp [step?, hc, Scan.push]

/-- Inside a word the scan looks at the characters beside the one it is at, and both are there to be
looked at as far as it needs them. -/
theorem step?_inWord (hc : c.isAlphanum = true) (hne : current ≠ []) :
    step? (front ++ [b] ++ c :: back) ⟨ws, current⟩ (front ++ [b]).length =
      some (if startsWord b c back.head? then ⟨ws ++ [current], [c.toLower]⟩
        else ⟨ws, current ++ [c.toLower]⟩) := by
  have hat : (front ++ [b] ++ c :: back)[(front ++ [b]).length]? = some c := by simp
  have hbefore : before? (front ++ [b] ++ c :: back) (front ++ [b]).length = some b := by
    simp [before?]
  have hafter : (front ++ [b] ++ c :: back)[(front ++ [b]).length + 1]? = back.head? := by
    rw [List.getElem?_append_right (Nat.le_add_right _ 1), Nat.add_sub_cancel_left,
      List.getElem?_cons_succ, List.head?_eq_getElem?]
  rw [step?, hat, hbefore, hafter]
  have hword : current.isEmpty = false := by simpa using hne
  cases hstarts : startsWord b c back.head? with
  | true =>
    have hupper := startsWord_upper hstarts
    rw [startsWord, hupper, Bool.true_and] at hstarts
    simp only [Option.bind_eq_bind, Option.bind_some, hc, hupper, hword, hstarts]
    simp [Scan.push, flush_of_ne_nil hne]
  | false =>
    cases hupper : c.isUpper with
    | false => simp [hc, hupper, Scan.push]
    | true =>
      rw [startsWord, hupper, Bool.true_and] at hstarts
      simp only [Option.bind_eq_bind, Option.bind_some, hc, hupper, hword, hstarts]
      simp [Scan.push]

theorem leads_step {s : Scan} (h : Leads front (c :: back) s ws) :
    ∃ s', step? (front ++ c :: back) s front.length = some s' ∧
      Leads (front ++ [c]) back s' ws := by
  cases hc : c.isAlphanum with
  | false =>
    refine ⟨s.flush, step?_of_not_alphanum hc s, ?_⟩
    cases h with
    | fresh =>
      rw [words_cons_of_not_alphanum hc]
      exact .fresh
    | @inWord front _ current ws b hne =>
      have hends : endsWord b (c :: back) = true := by simp [endsWord, hc]
      rw [flush_of_ne_nil hne, goOn, hends, if_pos rfl, words_cons_of_not_alphanum hc,
        List.append_cons ws current (words back)]
      exact .fresh
  | true =>
    cases h with
    | fresh =>
      refine ⟨_, step?_fresh hc, ?_⟩
      rw [← goOn_singleton hc]
      exact .inWord (List.cons_ne_nil _ _)
    | @inWord front _ current ws b hne =>
      refine ⟨_, step?_inWord hc hne, ?_⟩
      have hends : endsWord b (c :: back) = startsWord b c back.head? := by
        rw [endsWord, hc, Bool.not_true, Bool.false_or]
      rw [goOn, hends, ← goOn_singleton hc]
      cases startsWord b c back.head? with
      | true =>
        rw [if_pos rfl, if_pos rfl, List.append_cons ws current (goOn [c.toLower] c back)]
        exact .inWord (List.cons_ne_nil _ _)
      | false =>
        have hgoOn : (goOn [c.toLower] c back).modifyHead (current ++ ·)
            = goOn (current ++ [c.toLower]) c back := by
          unfold goOn
          cases endsWord c back with
          | true => rfl
          | false => cases words back <;> simp
        rw [if_neg Bool.false_ne_true, if_neg Bool.false_ne_true, hgoOn]
        exact .inWord (by simp)

theorem leads_scan {s : Scan} (h : Leads front back s ws) :
    ∃ s', (List.range' front.length back.length).foldlM (step? (front ++ back)) s = some s' ∧
      s'.flush.words = ws := by
  induction back generalizing front s with
  | nil =>
    refine ⟨s, rfl, ?_⟩
    cases h with
    | fresh => exact (List.append_nil _).symm
    | inWord hne =>
      rw [flush_of_ne_nil hne]
      rfl
  | cons c back ih =>
    obtain ⟨s', hstep, hleads⟩ := leads_step h
    obtain ⟨s'', hrun, hwords⟩ := ih hleads
    refine ⟨s'', ?_, hwords⟩
    rw [List.length_append, List.length_singleton, List.append_assoc, List.singleton_append] at hrun
    rw [List.length_cons, List.range'_succ, List.foldlM_cons, hstep]
    exact hrun

end

theorem scan?_eq (name : List Char) : scan? name = some (words name) := by
  have hstart : Leads [] name ⟨[], []⟩ (words name) := .fresh
  obtain ⟨s, hrun, hwords⟩ := leads_scan hstart
  rw [List.length_nil, List.nil_append, ← List.range_eq_range'] at hrun
  rw [scan?, hrun, Option.map_some, hwords]

/-! ## Names with the same constant -/

/-- The text that the guard has seen, if it did not start with an underscore. -/
def unguarded (cs : List Char) : List Char :=
  if cs.head? = some '_' then (if cs.tail = "unnamed".toList then [] else cs.tail) else cs

theorem unguarded_guarded {cs : List Char} (h : cs.head? ≠ some '_') :
    unguarded (guarded cs) = cs := by
  cases cs with
  | nil => rfl
  | cons c rest =>
    cases hdigit : c.isDigit with
    | true =>
      have hguard : guarded (c :: rest) = '_' :: c :: rest := if_pos hdigit
      have hunnamed : c :: rest ≠ "unnamed".toList := by
        rintro ⟨⟩
        cases hdigit
      rw [hguard, unguarded, if_pos List.head?_cons, List.tail_cons, if_neg hunnamed]
    | false =>
      have hguard : guarded (c :: rest) = c :: rest := if_neg (by simp [hdigit])
      rw [hguard, unguarded, if_neg h]

theorem underscore_not_mem_word {name w : List Char} (hw : w ∈ words name) : '_' ∉ w := by
  intro hmem
  have hword := isWordChar_of_mem_words hw hmem
  exact absurd hword (by decide)

/-- The words are found again between the underscores. -/
theorem words_eq_of_joined (name : List Char) :
    words name = if ['_'].intercalate (words name) = [] then []
      else (['_'].intercalate (words name)).splitOn '_' := by
  by_cases hnil : words name = []
  · rw [hnil]
    rfl
  · have hsplit := List.splitOn_intercalate '_' (fun _ => underscore_not_mem_word) hnil
    have hjoined : ['_'].intercalate (words name) ≠ [] := by
      intro hjoined
      -- the only piece of nothing is empty, and there is no empty word
      rw [hjoined, List.splitOn_nil] at hsplit
      exact ne_nil_of_mem_words (hsplit ▸ List.mem_singleton_self []) rfl
    rw [if_neg hjoined, hsplit]

theorem constant_eq_iff {key key' : String} :
    constant key = constant key' ↔ words key.toList = words key'.toList := by
  constructor
  · intro h
    have hguarded := String.ofList_injective h
    have hupper := congrArg unguarded hguarded
    rw [unguarded_guarded (head?_constant_ne _), unguarded_guarded (head?_constant_ne _)] at hupper
    have hjoined := congrArg (List.map Char.toLower) hupper
    rw [map_toLower_joined, map_toLower_joined] at hjoined
    rw [words_eq_of_joined key.toList, words_eq_of_joined key'.toList, hjoined]
  · intro h
    rw [constant, constant, h]

/-- **Words.** The words of a name are found by a scan that never looks in front of it. They are not
empty, consist of lower-case letters and digits, and have all letters and digits of the name in
order. A word ends where other characters stand between two of these, in front of an upper-case
letter behind a lower-case one or a digit, and in front of the last of some upper-case letters if a
lower-case one follows. Two names have the same constant if and only if they have the same words. -/
theorem words_of_name :
    (∀ name, scan? name = some (words name)) ∧
    (∀ name, ∀ word ∈ words name, word ≠ [] ∧ ∀ c ∈ word, isWordChar c = true) ∧
    (∀ name, (words name).flatten = lettersOf name) ∧
    (∀ front c gap d back, c.isAlphanum = true → d.isAlphanum = true →
      (∀ g ∈ gap, g.isAlphanum = false) →
        (Between (front ++ [c]) (gap ++ d :: back) ↔
          gap ≠ [] ∨ (d.isUpper = true ∧ (c.isLower = true ∨ c.isDigit = true)) ∨
            c.isUpper = true ∧ d.isUpper = true ∧ ∃ e ∈ back.head?, e.isLower = true)) ∧
    ∀ key key', constant key = constant key' ↔ words key.toList = words key'.toList := by
  refine ⟨scan?_eq, fun name word hword => ⟨ne_nil_of_mem_words hword, fun c hc => ?_⟩,
    flatten_words, fun front c gap d back hc hd hgap => between_iff front back hc hd hgap,
    fun key key' => constant_eq_iff⟩
  exact isWordChar_of_mem_words hword hc

/-- The last of some upper-case letters belongs to the word behind it. -/
theorem words_of_name_httpServer :
    'P'.isAlphanum = true ∧ 'S'.isAlphanum = true ∧
      Between ("HTT".toList ++ ['P']) ([] ++ 'S' :: "erver".toList) ∧
      ¬ Between ("HT".toList ++ ['T']) ([] ++ 'P' :: "Server".toList) := by
  have hbetween := words_of_name.2.2.2.1
  refine ⟨rfl, rfl, ?_, ?_⟩
  · rw [hbetween "HTT".toList 'P' [] 'S' "erver".toList rfl rfl (by simp)]
    exact .inr (.inr ⟨rfl, rfl, 'e', rfl, rfl⟩)
  · rw [hbetween "HT".toList 'T' [] 'P' "Server".toList rfl rfl (by simp)]
    rintro (hgap | ⟨-, hlower | hdigit⟩ | ⟨-, -, e, ⟨⟩, hlower⟩)
    · exact hgap rfl
    · cases hlower
    · cases hdigit
    · cases hlower

end McpCatalog.Identifier
