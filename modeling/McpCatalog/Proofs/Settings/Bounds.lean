import McpCatalog.Proofs.Settings.Agreement
import McpCatalog.Proofs.Text.Offset
/-!
# Limits of settings

Settings are checked whichever way they came in, so that only those within the limits are used. The
path of the file for events is looked at without the blanks at its ends but kept with them: it is a
path within the limits between blanks, and with these it can go over the limits. A path that the
parameter itself gives has no blanks at its ends; any other one comes from a document.

Results:
* `fault?_eq_none_iff`: which settings are accepted.
* `accepted_settings`: the limits that settings keep to, on every way in.
* `not_fits_blankTail`: a document with a path that is accepted and too long.
-/
namespace McpCatalog.Settings

/-! ## Limits -/

/-- The path keeps to the limits on its own length and on that of its components. -/
structure PathFits (path : List Char) : Prop where
  bytes : Text.byteCount path ≤ 4096
  components : ∀ c ∈ Path.components path, Text.byteCount c.text ≤ 255

structure SuffixFits (suffix : String) : Prop where
  bytes : 1 ≤ suffix.utf8ByteSize ∧ suffix.utf8ByteSize ≤ 64
  separators : '/' ∉ suffix.toList ∧ '\\' ∉ suffix.toList

/-- The path is not blank, and keeps to the limits without the blanks at its ends. -/
structure FitsInside (path : List Char) : Prop where
  not_blank : ¬ Text.Blank path
  inside : PathFits (Text.trim path)

structure Bounded (s : Settings) : Prop where
  nameLimit : 8 ≤ s.nameLimit ∧ s.nameLimit ≤ 1024
  suffix : ∀ suffix ∈ s.suffix, SuffixFits suffix
  diagnosticsFile : ∀ path ∈ s.diagnosticsFile, FitsInside path.toList

/-- Without blanks at its ends, it is the path itself that keeps to the limits. -/
theorem FitsInside.pathFits {path : List Char} (h : FitsInside path)
    (htrim : Text.trim path = path) : PathFits path :=
  htrim ▸ h.inside

/-! ## Accepted settings -/

/-- A check that finds nothing goes on with the next one. -/
theorem ite_some_eq_none_iff {α : Type} {p : Prop} [Decidable p] {a : α} {x : Option α} :
    (if p then some a else x) = none ↔ ¬ p ∧ x = none := by
  by_cases hp : p <;> simp [hp]

theorem hasLongComponent_iff {path : List Char} :
    hasLongComponent path = true ↔ ∃ c ∈ Path.components path, 255 < Text.byteCount c.text := by
  simp only [hasLongComponent, List.any_eq_true, decide_eq_true_eq]
  rfl

theorem suffixFault?_eq_none_iff {suffix : String} :
    suffixFault? suffix = none ↔ SuffixFits suffix := by
  have hempty : suffix.isEmpty = true ↔ suffix.utf8ByteSize = 0 := by
    rw [String.isEmpty_iff, String.utf8ByteSize_eq_zero_iff]
  have hseparator : (suffix.toList.any fun c => c == '/' || c == '\\') = true ↔
      '/' ∈ suffix.toList ∨ '\\' ∈ suffix.toList := by
    simp [List.any_eq_true, exists_or, and_or_left]
  rw [suffixFault?, ite_some_eq_none_iff, ite_some_eq_none_iff, ite_some_eq_none_iff, hempty,
    hseparator, not_or, and_iff_left rfl, maxSuffixBytes]
  constructor
  · intro ⟨hzero, hlong, hseparators⟩
    exact ⟨by omega, hseparators⟩
  · intro ⟨hbytes, hseparators⟩
    exact ⟨by omega, by omega, hseparators⟩

theorem diagnosticsFileFault?_eq_none_iff {path : String} :
    diagnosticsFileFault? path = none ↔ FitsInside path.toList := by
  have hblank : (Text.trim path.toList).isEmpty = true ↔ Text.Blank path.toList := by
    rw [List.isEmpty_iff, Text.trim_eq_nil_iff]
  rw [diagnosticsFileFault?, ite_some_eq_none_iff, ite_some_eq_none_iff, ite_some_eq_none_iff,
    hblank, hasLongComponent_iff, and_iff_left rfl, maxPathBytes, Nat.not_lt]
  constructor
  · intro ⟨hne, hbytes, hcomponents⟩
    exact ⟨hne, hbytes, by simpa using hcomponents⟩
  · intro ⟨hne, hbytes, hcomponents⟩
    exact ⟨hne, hbytes, by simpa using hcomponents⟩

/-- Nothing is wrong with settings exactly if they keep to the limits. -/
theorem fault?_eq_none_iff {s : Settings} : s.fault? = none ↔ s.Bounded := by
  rw [fault?, ite_some_eq_none_iff, Option.or_eq_none_iff, Option.bind_eq_none_iff,
    Option.bind_eq_none_iff, minNameLimit, maxNameLimit]
  simp only [suffixFault?_eq_none_iff, diagnosticsFileFault?_eq_none_iff]
  constructor
  · intro ⟨hlimit, hsuffix, hpath⟩
    exact ⟨by omega, hsuffix, hpath⟩
  · intro ⟨hlimit, hsuffix, hpath⟩
    exact ⟨by omega, hsuffix, hpath⟩

theorem check_eq_ok_iff_bounded {s : Settings} : s.check = .ok s ↔ s.Bounded := by
  rw [check_eq_ok_iff, and_iff_right rfl, fault?_eq_none_iff]

/-! ## Ways in -/

theorem bounded_of_load {read? : String → Option Bytes} {path : String} {s : Settings}
    (h : load read? path = .ok s) : s.Bounded := by
  unfold load at h
  split at h
  · cases h
  · split at h
    · cases h
    · split at h
      · cases h
      · split at h
        · cases h
        · split at h
          · cases h
          · exact fault?_eq_none_iff.1 (ofDocument_eq_ok h)

/-- The value of a pair is trimmed. -/
theorem trim_of_pair {segment : List Char} {e : String × String} (h : pair segment = .ok e) :
    Text.trim e.2.toList = e.2.toList := by
  unfold pair at h
  split at h
  · cases h
  · dsimp only at h
    split at h
    · cases h
    · cases h
      dsimp only
      rw [trimmed, String.toList_ofList, Text.trim_idem]

theorem trim_of_mem_pairs {parameter : String} {ps : List (String × String)}
    (h : pairs parameter = .ok ps) {e : String × String} (he : e ∈ ps) :
    Text.trim e.2.toList = e.2.toList := by
  have hpairs := (pairs_eq_ok_iff.1 h).1.flip
  have htrimmed : List.Forall₂
      (fun e segment => Text.trim e.2.toList = e.2.toList ∧ HasPair segment e) ps
      (marked (parameter.toList.splitOn ',')) :=
    hpairs.imp fun _ _ hpair => ⟨trim_of_pair hpair, hpair⟩
  exact ((List.forall₂_and_left _ _).1 htrimmed).1 e he

/-- A pair leaves the path as it was, or gives it. -/
theorem diagnosticsFile_of_withPair {s t : Settings} {e : String × String}
    (h : withPair s e = .ok t) :
    t.diagnosticsFile = s.diagnosticsFile ∨ t.diagnosticsFile = some e.2 := by
  obtain ⟨key, text⟩ := e
  obtain ⟨k, rfl⟩ := exists_key_of_withPair h
  obtain ⟨x, hx, rfl⟩ := withPair_eq_ok_iff.1 h
  cases k with
  | diagnosticsFile => exact .inr hx
  | config | suffix | nameLimit | format | diagnostics => exact .inl rfl

theorem diagnosticsFile_of_foldlM {ps : List (String × String)} {s t : Settings}
    (h : ps.foldlM withPair s = .ok t) :
    t.diagnosticsFile = s.diagnosticsFile ∨ ∃ e ∈ ps, t.diagnosticsFile = some e.2 := by
  induction ps generalizing s with
  | nil =>
    cases h
    exact .inl rfl
  | cons e ps ih =>
    rw [List.foldlM_cons, bind_eq_ok_iff] at h
    obtain ⟨u, hu, ht⟩ := h
    rcases ih ht with hkept | ⟨e', he', hgiven⟩
    · rw [hkept]
      refine (diagnosticsFile_of_withPair hu).imp_right fun hgiven => ?_
      exact ⟨e, List.mem_cons_self, hgiven⟩
    · exact .inr ⟨e', List.mem_cons_of_mem _ he', hgiven⟩

/-- The path comes from the document that the parameter starts from. -/
def FromBase (read? : String → Option Bytes) (parameter path : String) : Prop :=
  ∃ file start, baseFile? parameter = some file ∧ load read? file = .ok start ∧
    start.diagnosticsFile = some path

theorem bounded_of_ofParameter {read? : String → Option Bytes} {parameter : String} {s : Settings}
    (h : ofParameter read? parameter = .ok s) : s.Bounded := by
  obtain ⟨ps, start, -, -, -, hfault⟩ := ofParameter_eq_ok_iff.1 h
  exact fault?_eq_none_iff.1 hfault

/-- A path that is kept with blanks at its ends comes from a document. -/
theorem trim_or_fromBase {read? : String → Option Bytes} {parameter path : String} {s : Settings}
    (h : ofParameter read? parameter = .ok s) (hpath : s.diagnosticsFile = some path) :
    Text.trim path.toList = path.toList ∨ FromBase read? parameter path := by
  obtain ⟨ps, start, hps, hstart, hfold, -⟩ := ofParameter_eq_ok_iff.1 h
  rcases diagnosticsFile_of_foldlM hfold with hkept | ⟨e, he, hgiven⟩
  · rw [hkept] at hpath
    unfold base at hstart
    split at hstart
    · rename_i file hfile
      have hbase : baseFile? parameter = some file := by
        rw [baseFile?, hps]
        exact hfile
      exact .inr ⟨file, start, hbase, hstart, hpath⟩
    · cases hstart
      cases hpath
  · rw [hgiven] at hpath
    cases hpath
    exact .inl (trim_of_mem_pairs hps he)

/-- **Limits.** Settings are accepted if and only if they keep to the limits, where the path of the
file for events is taken without the blanks at its ends, and no settings come out of a document, a
file or a parameter that are not accepted. The path is kept as it was given: it keeps to the limits
itself if there are no blanks at its ends, as for every path that is given in the parameter and not
in a document. -/
theorem accepted_settings (read? : String → Option Bytes) :
    (∀ s : Settings, s.check = .ok s ↔ s.Bounded) ∧
    (∀ document s, ofDocument document = .ok s → s.Bounded) ∧
    (∀ path s, load read? path = .ok s → s.Bounded) ∧
    ∀ parameter s, ofParameter read? parameter = .ok s → s.Bounded ∧
      ∀ path ∈ s.diagnosticsFile, PathFits path.toList ∨ FromBase read? parameter path := by
  refine ⟨fun s => check_eq_ok_iff_bounded, fun document s h => ?_, fun path s h => ?_,
    fun parameter s h => ⟨bounded_of_ofParameter h, fun path hpath => ?_⟩⟩
  · exact fault?_eq_none_iff.1 (ofDocument_eq_ok h)
  · exact bounded_of_load h
  · have hfits := (bounded_of_ofParameter h).diagnosticsFile path hpath
    exact (trim_or_fromBase h hpath).imp_left hfits.pathFits

/-- The settings with a path of the file for events, and otherwise those by default. -/
def withLog (path : String) : Settings :=
  { default with diagnosticsFile := some path }

/-- A file with settings, whose path of the file for events has blanks at its ends. -/
def baseLog (path : String) : Option Bytes :=
  if path = "base.toml" then some (Text.toBytes "diagnostics_file = \" a \"") else none

/-- The file to start from is read first, and then its path is replaced. -/
theorem accepted_settings_baseLog :
    ofParameter baseLog "config=base.toml" = .ok (withLog " a ") ∧ FitsInside " a ".toList ∧
      ofParameter baseLog "config=base.toml,diagnostics_file= b " = .ok (withLog "b") ∧
      PathFits "b".toList := by
  have hkept : ofParameter baseLog "config=base.toml" = .ok (withLog " a ") := by rfl
  have hgiven : ofParameter baseLog "config=base.toml,diagnostics_file= b "
      = .ok (withLog "b") := by rfl
  have hlimits := (accepted_settings baseLog).2.2.2
  refine ⟨hkept, (hlimits _ _ hkept).1.diagnosticsFile " a " rfl, hgiven, ?_⟩
  rcases (hlimits _ _ hgiven).2 "b" rfl with hfits | ⟨file, start, hfile, hload, hpath⟩
  · exact hfits
  · have hbase : baseFile? "config=base.toml,diagnostics_file= b " = some "base.toml" := by rfl
    have hstart : load baseLog "base.toml" = .ok (withLog " a ") := by rfl
    obtain rfl : "base.toml" = file := Option.some.inj (hbase.symm.trans hfile)
    obtain rfl : withLog " a " = start := Except.ok.inj (hstart.symm.trans hload)
    exact absurd hpath (by decide)

/-! ## Paths that are too long -/

/-- A document with the path and nothing else. -/
def logDocument (path : String) : String :=
  String.ofList (Toml.line "diagnostics_file" (.text path))

/-- The path in a document is kept as it stands there. -/
theorem ofDocument_logDocument {path : String}
    (hclean : ∀ c ∈ path.toList, Toml.isControl c = false) (hfits : FitsInside path.toList) :
    ofDocument (logDocument path) = .ok (withLog path) := by
  have hlines : Toml.Lines [("diagnostics_file", .text path)] (logDocument path).toList := by
    rw [logDocument, String.toList_ofList]
    exact .last _ _
  have hwritable : Toml.Writable [("diagnostics_file", .text path)] := by
    rintro _ he
    obtain rfl := List.mem_singleton.1 he
    exact ⟨Key.bare_name .diagnosticsFile, hclean⟩
  have hlimit : (withLog path).nameLimit = 64 := rfl
  have hbounded : (withLog path).Bounded :=
    { nameLimit := by omega
      suffix := by rintro _ ⟨⟩
      diagnosticsFile := by rintro _ ⟨⟩; exact hfits }
  rw [ofDocument_eq_ok_iff (Toml.parse?_of_lines hlines hwritable (by simp))]
  exact ⟨rfl, fault?_eq_none_iff.2 hbounded⟩

/-- A letter with blanks behind it. -/
def blankTail (blanks : Nat) : String :=
  String.ofList ('a' :: List.replicate blanks ' ')

section
variable {blanks : Nat}

theorem mem_blankTail {c : Char} (h : c ∈ (blankTail blanks).toList) : c = 'a' ∨ c = ' ' := by
  rw [blankTail, String.toList_ofList, List.mem_cons] at h
  exact h.imp_right List.eq_of_mem_replicate

theorem trim_blankTail : Text.trim (blankTail blanks).toList = ['a'] := by
  have hpadded : Text.Padded ['a'] (blankTail blanks).toList := by
    refine ⟨[], List.replicate blanks ' ', by simp [Text.Blank], ?_, ?_⟩
    · intro c hc
      rw [List.eq_of_mem_replicate hc]
      rfl
    · rw [blankTail, String.toList_ofList]
      rfl
  exact hpadded.trim_eq

theorem fitsInside_blankTail : FitsInside (blankTail blanks).toList where
  not_blank := by
    rw [← Text.trim_eq_nil_iff, trim_blankTail]
    simp
  inside := by
    rw [trim_blankTail]
    exact ⟨by decide, by decide⟩

theorem byteCount_blankTail : Text.byteCount (blankTail blanks).toList = blanks + 1 := by
  have hnarrow : ∀ c ∈ (blankTail blanks).toList, c.utf8Size = 1 := by
    intro c hc
    rcases mem_blankTail hc with rfl | rfl <;> rfl
  rw [Text.byteCount_of_narrow hnarrow, blankTail, String.toList_ofList, List.length_cons,
    List.length_replicate]

/-- Without slashes there is one component. -/
theorem components_blankTail :
    Path.components (blankTail blanks).toList = [.normal (blankTail blanks).toList] := by
  have hslash : '/' ∉ (blankTail blanks).toList := by
    intro hmem
    rcases mem_blankTail hmem with heq | heq <;> cases heq
  obtain ⟨cs, hcs⟩ : ∃ cs, (blankTail blanks).toList = 'a' :: cs :=
    ⟨List.replicate blanks ' ', String.toList_ofList⟩
  rw [hcs] at hslash ⊢
  have hnames : Path.names ('a' :: cs) = ['a' :: cs] := by
    rw [Path.names, List.splitOn_eq_singleton hslash]
    rfl
  have hinner : Path.inner? ('a' :: cs) = some (.normal ('a' :: cs)) := by
    rw [Path.inner?, if_neg (by simp), if_neg (by simp)]
  rw [Path.components, if_neg (by simp), hnames]
  dsimp only
  rw [Path.first, hinner]
  rfl

end

/-- A path that is accepted in a document, though it takes more bytes than a path may, and its only
component more than a component may. -/
theorem not_fits_blankTail :
    ofDocument (logDocument (blankTail 4096)) = .ok (withLog (blankTail 4096)) ∧
      4096 < Text.byteCount (blankTail 4096).toList ∧
      ∃ c ∈ Path.components (blankTail 4096).toList, 255 < Text.byteCount c.text := by
  refine ⟨ofDocument_logDocument (fun c hc => ?_) fitsInside_blankTail, ?_, ?_⟩
  · rcases mem_blankTail hc with rfl | rfl <;> rfl
  · rw [byteCount_blankTail]
    omega
  · rw [components_blankTail]
    refine ⟨_, List.mem_singleton_self _, ?_⟩
    rw [Path.Component.text, byteCount_blankTail]
    omega

end McpCatalog.Settings
