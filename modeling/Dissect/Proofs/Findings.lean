import Dissect.Proofs.Checks
import Dissect.Proofs.Lines
import Dissect.Proofs.Walk
import Mathlib.Data.List.Find

/-! What a survey of a directory finds out. Each file is compared with all files before it, whatever
became of them, and only then with the definitions in their order; what comes out is printed when
the formats alone are asked for, and is counted once otherwise. Files are compared by hashes, which
is by contents as long as no two of these share a hash. -/
namespace Dissect.Survey

/-- No two of some contents share a hash. -/
def Distinguishes (hash : Buffer → String) (contents : List Buffer) : Prop :=
  ∀ a ∈ contents, ∀ b ∈ contents, hash a = hash b → a = b

instance (hash : Buffer → String) (contents : List Buffer) :
    Decidable (Distinguishes hash contents) :=
  inferInstanceAs (Decidable (∀ a ∈ contents, ∀ b ∈ contents, hash a = hash b → a = b))

section Keys
variable {κ : Type} [BEq κ]

def keyed (key : Buffer → κ) (dir : OsText) (files : List (List OsText × Buffer)) :
    List (κ × OsText) :=
  files.map fun file => (key file.2, Path.within dir file.1)

/-- Files with what is found out about them, each by the definitions and the files before it, of
which there are earlier ones. Contents are compared by a key. -/
def findings (key : Buffer → κ) (ds : List Definition) (dir : OsText)
    (earlier files : List (List OsText × Buffer)) : List ((List OsText × Buffer) × Finding) :=
  files.mapIdx fun i file =>
    (file, finding ds (keyed key dir (earlier ++ files.take i)) (key file.2) file.2)

/-- A session knows the same keys by the same paths as it would with all files in memory. -/
def Agrees (seen seen' : List (κ × OsText)) : Prop :=
  ∀ key, seen.find? (·.1 == key) = seen'.find? (·.1 == key)

variable {key : Buffer → κ} {ds : List Definition} {dir : OsText}
  {earlier files : List (List OsText × Buffer)} {file : List OsText × Buffer}
  {seen seen' : List (κ × OsText)}

theorem findings_cons : findings key ds dir earlier (file :: files) =
    (file, finding ds (keyed key dir earlier) (key file.2) file.2) ::
      findings key ds dir (earlier ++ [file]) files := by
  rw [findings, List.mapIdx_cons, List.take_zero, List.append_nil, findings]
  simp only [List.take_succ_cons, List.append_assoc, List.singleton_append]

theorem length_findings : (findings key ds dir earlier files).length = files.length := by
  rw [findings, List.length_mapIdx]

theorem Agrees.finding (h : Agrees seen seen') (ds : List Definition) (k : κ) (content : Buffer) :
    finding ds seen k content = Survey.finding ds seen' k content := by
  rw [Survey.finding, Survey.finding, h k]

theorem Agrees.remember [LawfulBEq κ] (h : Agrees seen seen') (path : OsText) (k : κ) :
    Agrees (remember seen path k) (seen' ++ [(k, path)]) := by
  intro other
  rw [Survey.remember, List.find?_append, ← h other]
  split
  · rename_i hsome
    cases hother : seen.find? (·.1 == other) with
    | some entry => rfl
    | none =>
      -- The key is known, the other one is not.
      have hne : k ≠ other := by
        rintro rfl
        rw [hother] at hsome
        cases hsome
      simp [hne]
  · rw [List.find?_append]

theorem find?_keyed (key : Buffer → κ) (dir : OsText) (earlier : List (List OsText × Buffer))
    (k : κ) : (keyed key dir earlier).find? (·.1 == k) =
      (earlier.find? fun file => key file.2 == k).map
        fun file => (key file.2, Path.within dir file.1) := by
  rw [keyed, List.find?_map]
  rfl

end Keys

/-! ### Hashes for contents -/

section Hashes
variable {hash : Buffer → String} {ds : List Definition} {dir : OsText}
  {earlier files : List (List OsText × Buffer)}

theorem finding_of_distinguishes {content : Buffer}
    (h : Distinguishes hash (content :: earlier.map Prod.snd)) :
    finding ds (keyed hash dir earlier) (hash content) content =
      finding ds (keyed id dir earlier) content content := by
  have hfind : (earlier.find? fun file => hash file.2 == hash content) =
      earlier.find? fun file => file.2 == content := by
    refine List.find?_congr fun file hfile => ?_
    have hsame : hash file.2 = hash content ↔ file.2 = content :=
      ⟨h _ (List.mem_cons_of_mem _ (List.mem_map_of_mem hfile)) _ List.mem_cons_self,
        congrArg hash⟩
    rw [Bool.eq_iff_iff, beq_iff_eq, beq_iff_eq, hsame]
  rw [finding, finding, find?_keyed, find?_keyed, hfind]
  simp only [id]
  cases earlier.find? fun file => file.2 == content <;> rfl

theorem findings_of_distinguishes (h : Distinguishes hash ((earlier ++ files).map Prod.snd)) :
    findings hash ds dir earlier files = findings id ds dir earlier files := by
  induction files generalizing earlier with
  | nil => rfl
  | cons file files ih =>
    rw [List.append_cons] at h
    rw [findings_cons, findings_cons, ih h, finding_of_distinguishes]
    · rfl
    · intro a ha b hb
      have hmem {c : Buffer} (hc : c ∈ file.2 :: earlier.map Prod.snd) :
          c ∈ ((earlier ++ [file]) ++ files).map Prod.snd := by
        simp only [List.map_append, List.mem_append, List.map_cons, List.map_nil,
          List.mem_singleton]
        exact .inl ((List.mem_cons.1 hc).symm)
      exact h a (hmem ha) b (hmem hb)

theorem findings_byContent (h : Distinguishes hash (files.map Prod.snd)) :
    findings hash ds dir [] files = findings id ds dir [] files :=
  findings_of_distinguishes h

end Hashes

/-! ### Visits -/

/-- What is printed on a file when the formats alone are asked for. -/
def findingText (dir : OsText) (result : (List OsText × Buffer) × Finding) : String :=
  (Path.within dir result.1.1).display ++ ": " ++ result.2.text

def findingLine (dir : OsText) (result : (List OsText × Buffer) × Finding) : String :=
  findingText dir result ++ "\n"

section Visits
variable {hash : Buffer → String} {o : Options} {ds : List Definition} {dir : OsText}
  {base : List OsText} {s s' : Session} {earlier files : List (List OsText × Buffer)}

theorem visit_agrees (hseen : Agrees s.seen (keyed hash dir earlier))
    (file : List OsText × Buffer) :
    Agrees (s.visit hash o ds dir file).seen (keyed hash dir (earlier ++ [file])) := by
  obtain ⟨before, counts, hlogs, -, -, heq⟩ := visit_eq hash o ds dir s file
  have hbefore : before.seen = remember s.seen (Path.within dir file.1) (hash file.2) := hlogs.seen
  rw [heq, conclude_seen, hbefore, keyed, List.map_append]
  exact hseen.remember _ _

/-! ### Formats alone -/

theorem visit_prints (hmode : o.detectOnly = true)
    (hseen : Agrees s.seen (keyed hash dir earlier)) (file : List OsText × Buffer) :
    s.Prints 1 [findingLine dir (file, finding ds (keyed hash dir earlier) (hash file.2) file.2)]
      (s.visit hash o ds dir file) := by
  obtain ⟨before, counts, hlogs, -, -, heq⟩ := visit_eq hash o ds dir s file
  obtain ⟨-, hline⟩ | ⟨hreport, -⟩ | ⟨hreport, -⟩ :=
    conclude_cases o (Path.within dir file.1) file.2 before (finding ds s.seen (hash file.2) file.2)
  · have hstart : s.Prints 1 [] before := ⟨hlogs.prints.verbosity, hlogs.prints.pieces⟩
    rw [heq, hline, hseen.finding]
    exact hstart.trans (before.prints_print _)
  · exact absurd (hmode.symm.trans hreport) (by decide)
  · exact absurd (hmode.symm.trans hreport) (by decide)

theorem Walk.prints (h : Walk hash o ds dir base s files s') (hmode : o.detectOnly = true)
    (hseen : Agrees s.seen (keyed hash dir earlier)) :
    s.Prints 1 ((findings hash ds dir earlier files).map (findingLine dir)) s' := by
  induction h generalizing earlier with
  | done s => exact .silent rfl rfl
  | visit _ _ ih =>
    rw [findings_cons, List.map_cons, ← List.singleton_append]
    exact (visit_prints hmode hseen _).trans (ih (visit_agrees hseen _))

/-! ### Counts -/

theorem visit_counts (ds : List Definition) (hmode : o.detectOnly = false)
    (hseen : Agrees s.seen (keyed hash dir earlier)) (file : List OsText × Buffer) : ∃ written,
    (s.visit hash o ds dir file).counts =
      { s.counts.visit
          ((finding ds (keyed hash dir earlier) (hash file.2) file.2).category o file.2) with
        written := written } := by
  obtain ⟨before, counts, hlogs, -, hcounts, heq⟩ := visit_eq hash o ds dir s file
  obtain ⟨written, hwritten⟩ :=
    conclude_counts o (Path.within dir file.1) file.2 before
      (finding ds s.seen (hash file.2) file.2)
  have hbefore : before.counts = counts := hlogs.counts
  refine ⟨written, ?_⟩
  rw [heq, hwritten, hbefore, hcounts hmode, hseen.finding]

theorem Walk.counts (h : Walk hash o ds dir base s files s') (hmode : o.detectOnly = false)
    (hseen : Agrees s.seen (keyed hash dir earlier)) :
    s'.counts.files = s.counts.files + files.length ∧
      ∀ category, s'.counts.of category = s.counts.of category +
        ((findings hash ds dir earlier files).map fun result =>
          result.2.category o result.1.2).count category := by
  induction h generalizing earlier with
  | done s => exact ⟨rfl, fun _ => rfl⟩
  | @visit s s' file files _ _ ih =>
    obtain ⟨hfiles, hof⟩ := ih (visit_agrees hseen file)
    obtain ⟨written, hvisit⟩ := visit_counts ds hmode hseen file
    rw [hvisit] at hfiles hof
    constructor
    · rw [hfiles, Counts.files_visit, List.length_cons]
      omega
    · intro category
      rw [hof, Counts.of_written, Counts.of_visit, findings_cons, List.map_cons, List.count_cons,
        Nat.add_assoc, Nat.add_comm (List.count _ _)]
      simp only [beq_iff_eq]

end Visits

theorem sum_count_category (categories : List Category) :
    categories.count .duplicate + categories.count .unrecognized + categories.count .complete +
      categories.count .halted = categories.length := by
  induction categories with
  | nil => rfl
  | cons category categories ih =>
    rw [List.length_cons, ← ih]
    cases category <;> simp only [List.count_cons] <;> simp <;> omega

/-- The survey of a directory when the formats alone are asked for: there is an entry on each
visible file, in the order of their places, with messages in between that are only shown when asked
for. An entry is followed by a line break, and is one line as long as it has no break inside. -/
structure ListsFormats (hash : Buffer → String) (o : Options) (ds : List Definition) (fs : Files)
    (path : OsText) (t : Tree) (files : List (List OsText × Buffer)) (pieces : List Piece) :
    Prop where
  perm : files.Perm (t.files.filter fun file => isVisible file.1)
  sorted : (files.map Prod.fst).Pairwise (· < ·)
  result : survey hash o fs = ⟨0, String.join (pieces.map Piece.text), "", fs⟩
  entries : pieces.filterMap Piece.output? =
    (findings hash ds path [] files).map (findingLine path)
  messages : ∀ piece ∈ pieces, piece.Shown 1 o.verbosity
  quiet : o.verbosity = 0 → (survey hash o fs).stdout =
    Text.unlines ((findings hash ds path [] files).map (findingText path))
  lines : o.verbosity = 0 → (Text.lines (survey hash o fs).stdout =
      (findings hash ds path [] files).map (findingText path) ↔
    ∀ result ∈ findings hash ds path [] files, Text.Plain (findingText path result))
  number : o.verbosity = 0 → (Text.lines (survey hash o fs).stdout).length =
    files.length + Text.breaksIn ((findings hash ds path [] files).map (findingText path))
  byContent : Distinguishes hash (files.map Prod.snd) →
    findings hash ds path [] files = findings id ds path [] files

/-- The survey of a directory that ends in a session with these files counted: each visible one that
was there at the start, in the order of their places, and no others unless reports are written. -/
structure CountsFiles (hash : Buffer → String) (o : Options) (ds : List Definition) (fs : Files)
    (path : OsText) (t : Tree) (files : List (List OsText × Buffer)) (s : Session) : Prop where
  sorted : (files.map Prod.fst).Pairwise (· < ·)
  visible : ∀ file ∈ files, isVisible file.1 = true
  all : ∀ file ∈ t.files, isVisible file.1 = true → file.1 ∈ files.map Prod.fst
  perm : o.output = none → files.Perm (t.files.filter fun file => isVisible file.1)
  number : s.counts.files = files.length
  total : s.counts.files = s.counts.duplicates + s.counts.unrecognized + s.counts.complete +
    s.counts.halted
  category : ∀ category, s.counts.of category =
    ((findings hash ds path [] files).map fun result =>
      result.2.category o result.1.2).count category
  byContent : Distinguishes hash (files.map Prod.snd) →
    findings hash ds path [] files = findings id ds path [] files
  result : survey hash o fs =
    ((s.log .info ("Processed " ++ toString files.length ++ " files")).summarize o).result

variable {o : Options} {ds : List Definition} {fs : Files} {path : OsText} {t : Tree}

theorem Surveyed.agrees {hash : Buffer → String} {files : List (List OsText × Buffer)}
    {base : List OsText} {s s' : Session} (h : Surveyed hash o ds fs path t files base s s') :
    Agrees s.seen (keyed hash path []) := by
  intro key
  rw [h.start.seen]
  rfl

theorem survey_lists (hash : Buffer → String) (hin : o.input = .directory path)
    (hds : List.Forall₂ (fun document d => loadDefinition fs document = .ok d) o.definitions ds)
    (hdir : fs.found? path = some (.dir t)) (hproper : fs.root.Proper)
    (hmode : o.detectOnly = true) :
    ∃ files pieces, ListsFormats hash o ds fs path t files pieces := by
  obtain ⟨files, base, s, s', h⟩ := survey_directory hash hin hds hdir hproper
  obtain ⟨pieces, hjoin, hentries, hmessages⟩ :=
    h.stdout (Nat.le_refl 1) (h.walk.prints hmode h.agrees)
  have hfiles : (survey hash o fs).files = fs := by
    rw [h.files_result, (h.walk.files_eq (.inl hmode)).1, h.start.files]
  have hresult : survey hash o fs = ⟨0, String.join (pieces.map Piece.text), "", fs⟩ := by
    rw [h.succeeds, hjoin, hfiles]
  have hquiet (hquiet : o.verbosity = 0) : (survey hash o fs).stdout =
      Text.unlines ((findings hash ds path [] files).map (findingText path)) := by
    rw [hquiet] at hmessages
    rw [hresult, Piece.map_text Nat.zero_lt_one hmessages, hentries, Text.unlines, List.map_map]
    rfl
  refine ⟨files, pieces, h.perm (hproper.at? h.place) (.inl hmode), h.sorted, hresult, hentries,
    hmessages, hquiet, fun hzero => ?_, fun hzero => ?_,
    findings_byContent⟩
  · rw [hquiet hzero, Text.lines_unlines_iff, List.forall_mem_map]
  · rw [hquiet hzero, Text.length_lines_unlines, List.length_map, length_findings]

theorem survey_counts (hash : Buffer → String) (hin : o.input = .directory path)
    (hds : List.Forall₂ (fun document d => loadDefinition fs document = .ok d) o.definitions ds)
    (hdir : fs.found? path = some (.dir t)) (hproper : fs.root.Proper)
    (hmode : o.detectOnly = false) : ∃ files s, CountsFiles hash o ds fs path t files s := by
  obtain ⟨files, base, s, s', h⟩ := survey_directory hash hin hds hdir hproper
  have ht : t.Proper := hproper.at? h.place
  obtain ⟨hfiles, hof⟩ := h.walk.counts hmode h.agrees
  rw [h.start.counts, Nat.zero_add] at hfiles
  replace hof (category : Category) : s'.counts.of category =
      ((findings hash ds path [] files).map fun result =>
        result.2.category o result.1.2).count category := by
    rw [hof, h.start.counts]
    cases category <;> exact Nat.zero_add _
  refine ⟨files, s', h.sorted, h.visible, h.all, fun hout => h.perm ht (.inr hout), hfiles, ?_,
    hof, findings_byContent, h.result⟩
  have hsum := sum_count_category ((findings hash ds path [] files).map fun result =>
    result.2.category o result.1.2)
  rw [← hof, ← hof, ← hof, ← hof, List.length_map, length_findings] at hsum
  exact hfiles.trans hsum.symm

theorem survey_directory_findings (hash : Buffer → String) (hin : o.input = .directory path)
    (hds : List.Forall₂ (fun document d => loadDefinition fs document = .ok d) o.definitions ds)
    (hdir : fs.found? path = some (.dir t)) (hproper : fs.root.Proper) :
    (o.detectOnly = true → ∃ files pieces, ListsFormats hash o ds fs path t files pieces) ∧
      (o.detectOnly = false → ∃ files s, CountsFiles hash o ds fs path t files s) :=
  ⟨survey_lists hash hin hds hdir hproper, survey_counts hash hin hds hdir hproper⟩

def formatSample : String :=
  "<format name='Sample' short='S'><endianness order='big'/>
   <magic><signature><read var='m' size='1'/></signature></magic><colors/>
   <field-defs><field id='x' name='x'><size remaining='true'/></field></field-defs>
   <run><field ref='x'/></run></format>"

/-- A file, a later one of the same content in a directory of its own, an empty and a hidden one. -/
def inputSample : Tree :=
  .dir "sub" (.file "a.bin" #[1] .nil)
    (.file "c.bin" #[1] (.file "b.bin" #[] (.file ".hidden" #[1, 2] .nil)))

def filesSample : Files :=
  ⟨.file "s.xml" formatSample.toUTF8.data (.dir "in" inputSample .nil), []⟩

theorem loadDefinition_filesSample : (loadDefinition filesSample "s.xml").isOk = true := by
  decide +kernel

def optionsSample (detectOnly : Bool) : Options where
  definitions := ["s.xml"]
  input := .directory "in"
  output := none
  verbosity := 0
  format := .text
  stepLimit := 1000000
  noGaps := false
  force := false
  detectOnly := detectOnly

theorem survey_directory_findings_filesSample : ∃ d,
    (∃ files pieces, ListsFormats contentHash (optionsSample true) [d] filesSample "in" inputSample
      files pieces) ∧
    (∃ files s, CountsFiles contentHash (optionsSample false) [d] filesSample "in" inputSample
      files s) ∧
    Distinguishes contentHash (inputSample.files.map Prod.snd) := by
  have hproper : filesSample.root.Proper := by decide +kernel
  obtain ⟨d, hd⟩ := exists_ok loadDefinition_filesSample
  exact ⟨d,
    (survey_directory_findings (o := optionsSample true) contentHash rfl (.cons hd .nil) rfl
      hproper).1 rfl,
    (survey_directory_findings (o := optionsSample false) contentHash rfl (.cons hd .nil) rfl
      hproper).2 rfl,
    by decide +kernel⟩

/-- One file and a format whose name has a line break in it. -/
def breakSample (name : OsText) : Files :=
  ⟨.file "s.xml" "<format name='A&#10;in/ghost: B' short='S'><endianness order='big'/>
     <magic><signature><read var='m' size='1'/></signature></magic><colors/>
     <field-defs><field id='x' name='x'><size remaining='true'/></field></field-defs>
     <run><field ref='x'/></run></format>".toUTF8.data (.dir "in" (.file name #[1] .nil) .nil), []⟩

theorem loadDefinition_breakSample (name : OsText) : ∃ d,
    loadDefinition (breakSample name) "s.xml" = .ok d ∧ d.detects #[1] = true ∧
      d.name = "A\nin/ghost: B" := by
  have hread : (breakSample name).read "s.xml" = (breakSample "a").read "s.xml" := rfl
  have hformat : (loadDefinition (breakSample "a") "s.xml").toOption.any
      (fun d => d.detects #[1] && d.name == "A\nin/ghost: B") = true := by decide +kernel
  obtain ⟨d, hd, hd'⟩ := exists_of_any hformat
  rw [Bool.and_eq_true, beq_iff_eq] at hd'
  rw [loadDefinition, ← hread, ← loadDefinition] at hd
  exact ⟨d, hd, hd'⟩

theorem stdout_breakSample {name : OsText} {shown : String} (hname : ProperName name)
    (hvisible : isHidden name = false) (hshown : (Path.within "in" [name]).display = shown) :
    (survey contentHash (optionsSample true) (breakSample name)).stdout =
      shown ++ ": A\nin/ghost: B\n" := by
  obtain ⟨d, hd, hdetects, htitle⟩ := loadDefinition_breakSample name
  have hproper : (breakSample name).root.Proper :=
    ⟨by decide +kernel, rfl, by decide +kernel, rfl, ⟨hname, rfl, trivial⟩, trivial⟩
  obtain ⟨files, pieces, h⟩ := survey_lists (o := optionsSample true) contentHash rfl
    (.cons hd .nil) rfl hproper rfl
  have hperm := h.perm
  have hall : (Tree.files (.file name #[1] .nil)).filter (fun file => isVisible file.1) =
      [([name], #[1])] := by
    simp [Tree.files, isVisible, hvisible]
  rw [hall, List.perm_singleton] at hperm
  have hfound : finding [d] (keyed contentHash "in" []) (contentHash #[1]) #[1] = .format d :=
    finding_of_detects rfl hdetects
  rw [h.quiet rfl, hperm, findings_cons, hfound, List.map_cons, Text.unlines_cons, findingText,
    hshown, Finding.text, htitle]
  simp [findings, Text.unlines, String.append_assoc]

/-- Two lines on the one file there is, and an entry on a file whose name begins with a dot. -/
theorem not_lines_breakSample :
    (∃ d, loadDefinition (breakSample "a") "s.xml" = .ok d ∧ d.detects #[1] = true ∧
      d.name = "A\nin/ghost: B") ∧
    Text.lines (survey contentHash (optionsSample true) (breakSample "a")).stdout =
      ["in/a: A", "in/ghost: B"] ∧
    (breakSample "a").found? "in" = some (.dir (.file "a" #[1] .nil)) ∧
    (⟨[0x2E, 0xFF]⟩ : OsText).octets.head? = some Path.dot ∧
    (survey contentHash (optionsSample true) (breakSample ⟨[0x2E, 0xFF]⟩)).stdout =
      "in/.\uFFFD: A\nin/ghost: B\n" := by
  have hplain : (Path.within "in" ["a"]).display = "in/a" := by decide +kernel
  have hdot : (Path.within "in" [⟨[0x2E, 0xFF]⟩]).display = "in/.\uFFFD" := by decide +kernel
  rw [stdout_breakSample (by decide +kernel) (by decide +kernel) hplain,
    stdout_breakSample (by decide +kernel) (by decide +kernel) hdot]
  exact ⟨loadDefinition_breakSample "a", by decide +kernel, rfl, rfl, by decide +kernel⟩

end Dissect.Survey
