import Dissect.Proofs.Checks
import Dissect.Proofs.Encodings
import Dissect.Proofs.Walk

/-! Reports stay in the directory that is given for them as long as no short name has a slash in it.
The name of a report is made of the name of a file, which has none, and of a short name, which is
taken as it is but for its case; what follows a slash there leads on from the directory, and upwards
as well. -/
namespace Dissect

namespace Text

theorem lowercaseRuns_beyond_slash :
    ∀ run ∈ lowercaseRuns, 47 < run.first ∧ 47 < (run.first : Int) + run.shift := by
  decide +kernel

theorem ofNat_ne_slash {n : Nat} (h : n ≠ 47) : Char.ofNat n ≠ '/' :=
  fun hn => h (eq_toNat_of_ofNat hn (by decide))

theorem slash_mem_lowercaseChar {c : Char} : '/' ∈ lowercaseChar c ↔ c = '/' := by
  rw [lowercaseChar]
  split
  · rename_i hc
    constructor
    · intro h
      simp at h
    · rintro rfl
      exact absurd hc (by decide)
  · split
    · rename_i run hrun
      obtain ⟨hfirst, hshift⟩ := lowercaseRuns_beyond_slash run (List.mem_of_find?_eq_some hrun)
      have hcovers := List.find?_some hrun
      simp only [CaseRun.covers, Bool.and_eq_true, decide_eq_true_eq] at hcovers
      have hle : run.first ≤ c.toNat := hcovers.1.1
      constructor
      · intro h
        refine absurd (List.mem_singleton.1 h).symm (ofNat_ne_slash ?_)
        omega
      · rintro rfl
        have h47 : '/'.toNat = 47 := rfl
        omega
    · rw [List.mem_singleton, eq_comm]

theorem slash_mem_lowercase (s : String) : '/' ∈ (lowercase s).toList ↔ '/' ∈ s.toList := by
  have hfrom (before cs : List Char) : '/' ∈ lowercaseFrom before cs ↔ '/' ∈ cs := by
    induction cs generalizing before with
    | nil => rfl
    | cons c cs ih =>
      rw [lowercaseFrom, List.mem_append, ih, List.mem_cons, eq_comm (a := '/')]
      refine or_congr_left ?_
      split
      · rename_i hc
        constructor
        · intro h
          refine absurd (List.mem_singleton.1 h).symm (ofNat_ne_slash ?_)
          split <;> decide
        · rintro rfl
          exact absurd hc (by decide)
      · exact slash_mem_lowercaseChar
  rw [lowercase, String.toList_ofList]
  exact hfrom [] s.toList

end Text

namespace Survey

namespace Path

/-- The path of an entry of a directory, by one name and without a step elsewhere. -/
def IsEntry (dir path : OsText) : Prop :=
  ∃ name, path = join dir name ∧ slash ∉ name.octets ∧ name ≠ "" ∧ name ≠ "." ∧ name ≠ ".."

theorem join_injective {dir name name' : OsText} (h : join dir name = join dir name') :
    name = name' := by
  have happend {front a b : OsText} (h : front ++ a = front ++ b) : a = b :=
    OsText.ext_octets (List.append_cancel_left (congrArg OsText.octets h))
  rw [join, join] at h
  split at h
  · exact happend h
  · exact happend h

theorem mem_of_mem_cutEnd {name : OsText} {names : List OsText} (h : name ∈ cutEnd names) :
    name ∈ names := by
  fun_induction cutEnd names with
  | case1 last other rest _ ih => exact List.mem_cons_of_mem last (ih h)
  | case2 => exact h
  | case3 => exact h

theorem no_slash_fileName {path name : OsText} (h : fileName? path = some name) :
    slash ∉ name.octets := by
  rw [fileName?] at h
  split at h
  · rename_i last _ hcut
    split at h
    · cases h
    · cases h
      have hlast : name ∈ cutEnd (names path).reverse := hcut ▸ List.mem_cons_self
      exact no_slash (List.mem_reverse.1 (mem_of_mem_cutEnd hlast))
  · cases h

theorem octets_withoutExtension {name : OsText} {octet : UInt8}
    (h : octet ∈ (withoutExtension name).octets) : octet ∈ name.octets := by
  rw [withoutExtension] at h
  split at h
  · exact h
  · exact List.mem_reverse.1 ((List.dropWhile_sublist _).subset
      (List.mem_of_mem_drop (List.mem_reverse.1 h)))

theorem no_slash_stem (path : OsText) : '/' ∉ (stem path).toList := by
  rw [stem]
  cases hstem : (fileName? path).bind fun name => (withoutExtension name).text? with
  | none => decide
  | some text =>
    obtain ⟨name, hname, htext⟩ := Option.bind_eq_some_iff.1 hstem
    exact OsText.not_mem_of_text? (by decide) htext
      (mt octets_withoutExtension (no_slash_fileName hname))

end Path

/-- A report goes directly into the directory exactly if there is no slash in the short name. -/
theorem isEntry_reportPath (dir input : OsText) (d : Definition) :
    Path.IsEntry dir (reportPath dir input d) ↔ '/' ∉ d.shortName.toList := by
  rw [reportPath]
  generalize hname : Path.stem input ++ "." ++ Text.lowercase d.shortName ++ ".txt" = name
  have hslash : Path.slash ∉ (OsText.ofString name).octets ↔ '/' ∉ d.shortName.toList := by
    have hoctet := OsText.mem_octets_ofString (c := '/') (s := name) (by decide)
    rw [← Text.slash_mem_lowercase d.shortName]
    refine (not_congr hoctet).trans ?_
    simp [← hname, String.toList_append, Path.no_slash_stem]
  have hlast : name.toList.getLast? = some 't' := by
    rw [← hname, String.toList_append, List.getLast?_append]
    rfl
  constructor
  · rintro ⟨name', heq, hname', -⟩
    rw [← hslash, Path.join_injective heq]
    exact hname'
  · intro h
    refine ⟨_, rfl, hslash.2 h, ?_, ?_, ?_⟩
    all_goals
      intro he
      rw [OsText.ofString_inj he] at hlast
      exact absurd hlast (by decide)

/-! ### Files -/

namespace Files
variable {fs fs' fs'' : Files} {dir path : OsText} {place : List OsText} {content : Buffer}

theorem place?_of_isEntry (hdir : dir ≠ "") (hentry : Path.IsEntry dir path)
    (h : fs.place? path = some place) :
    ∃ base name, fs.place? dir = some base ∧ place = base ++ [name] := by
  have hpath := ne_empty_of_place? h
  obtain ⟨name, rfl, hslash, hempty, hhere, habove⟩ := hentry
  obtain ⟨before, hnames, hjoin⟩ := Path.names_join dir hslash
  rw [place?_eq_follow hpath, Path.head?_join hdir, hjoin, follow_append] at h
  obtain ⟨mid, hmid, hlast⟩ := h
  obtain ⟨hkind, next, hnext, hend⟩ := follow_cons.1 hlast
  have hplace : place = mid.1 ++ [name] := by
    cases hnext with
    | stay hstay => exact absurd hstay (not_or.2 ⟨hempty, hhere⟩)
    | up hup => exact absurd hup habove
    | down =>
      cases hend
      rfl
  have hfound : mid = (mid.1, fs.root.at? mid.1) := Prod.ext rfl (follow_found hmid)
  refine ⟨mid.1, name, (place?_eq_follow hdir).2 ?_, hplace⟩
  obtain hnames | hnames := hnames
  · rw [hnames, hmid, ← hfound]
  · rw [hnames, follow_append]
    exact ⟨mid, hmid, follow_cons.2 ⟨hkind, _, .stay (.inl rfl), rfl⟩⟩

theorem makeDir_file (h : fs.makeDir path = .ok fs')
    (hfile : fs'.root.kind place = some (some content)) :
    fs.root.kind place = some (some content) := by
  rw [makeDir] at h
  split at h
  · cases h
  · cases h
  · rename_i made hresolve
    have hnone : fs.root.at? made = none := (resolve_found hresolve).symm
    have hkind : fs.root.kind made ≠ some none := by
      rw [Tree.kind, hnone]
      exact (Option.some_ne_none none).symm
    have hputs := puts_put none (place?_eq_some.2 (resolve_found hresolve ▸ hresolve)) hkind
    cases h
    rw [hputs.kind] at hfile
    split at hfile
    · cases hfile
    · exact hfile

theorem makeDirs_file (paths : List OsText)
    (hfile : (fs.makeDirs paths).1.root.kind place = some (some content)) :
    fs.root.kind place = some (some content) := by
  induction paths generalizing fs with
  | nil => exact hfile
  | cons path parents ih =>
    rw [makeDirs] at hfile
    split at hfile
    · exact makeDir_file ‹_› hfile
    · split at hfile
      · exact hfile
      · have hparents := @ih fs
        split at hfile
        · rename_i hmade
          rw [hmade] at hparents
          exact hparents hfile
        · rename_i hmade
          rw [hmade] at hparents
          split at hfile
          · exact hparents (makeDir_file ‹_› hfile)
          · exact hparents hfile
    · exact hfile

/-- From some files to later ones nothing is taken away, and every file that is new or has another
content lies directly in a directory. -/
structure Contained (dir : OsText) (fs fs' : Files) : Prop where
  keeps : fs.Keeps fs'
  files : ∀ place content, fs'.root.kind place = some (some content) →
    fs.root.kind place = some (some content) ∨
      ∃ base name, fs'.place? dir = some base ∧ place = base ++ [name]

theorem Contained.refl (dir : OsText) (fs : Files) : Contained dir fs fs :=
  ⟨.refl fs, fun _ _ h => .inl h⟩

theorem Contained.trans (h : Contained dir fs fs') (h' : Contained dir fs' fs'') :
    Contained dir fs fs'' := by
  refine ⟨h.keeps.trans h'.keeps, fun place content hfile => ?_⟩
  obtain hsame | hin := h'.files place content hfile
  · obtain hsame | ⟨base, name, hbase, hplace⟩ := h.files place content hsame
    · exact .inl hsame
    · exact .inr ⟨base, name, h'.keeps.place? hbase, hplace⟩
  · exact .inr hin

end Files

theorem writeReport_file {fs : Files} {target : OsText} {text : String} {force : Bool}
    {place : List OsText} {content : Buffer}
    (hfile : (writeReport fs target text force).1.root.kind place = some (some content)) :
    fs.root.kind place = some (some content) ∨
      (writeReport fs target text force).1.place? target = some place := by
  rw [writeReport] at hfile ⊢
  have hmakes : (fs.makeDirs (Path.parents target)).1.root.kind place = some (some content) → _ :=
    Files.makeDirs_file (Path.parents target)
  cases hmade : fs.makeDirs (Path.parents target) with
  | mk between made =>
    rw [hmade] at hmakes hfile
    cases made with
    | false => exact .inl (hmakes hfile)
    | true =>
      simp only at hfile ⊢
      split at hfile
      · exact .inl (hmakes hfile)
      · rename_i hfree
        rw [if_neg hfree]
        split at hfile
        · rename_i fs' hwrite
          obtain ⟨written, hplace, hputs⟩ := Files.write_eq_ok hwrite
          dsimp only at hfile ⊢
          rw [hputs.kind] at hfile
          split at hfile
          · rename_i hsame
            rw [hsame]
            exact .inr (hputs.keeps.place? hplace)
          · exact .inl (hmakes hfile)
        · exact .inl (hmakes hfile)

theorem writeReport_contained {dir target : OsText} (hdir : dir ≠ "")
    (hentry : Path.IsEntry dir target) (fs : Files) (text : String) (force : Bool) :
    fs.Contained dir (writeReport fs target text force).1 := by
  constructor
  case keeps =>
    obtain ⟨fs', hwrite, place, hreceives⟩ | ⟨fs', message, hwrite, hgrows⟩ :=
      writeReport_cases fs target text force
    · rw [hwrite]
      exact hreceives.keeps
    · rw [hwrite]
      exact hgrows.keeps
  case files =>
    intro place content hfile
    exact (writeReport_file hfile).imp_right (Files.place?_of_isEntry hdir hentry)

/-! ### Surveys -/

theorem mem_of_finding {ds : List Definition} {seen : List (String × OsText)} {key : String}
    {data : Buffer} {d : Definition} (h : finding ds seen key data = .format d) : d ∈ ds := by
  rw [finding] at h
  split at h
  · cases h
  · rw [newFinding] at h
    split at h
    · rename_i hfind
      cases h
      exact List.mem_of_find?_eq_some hfind
    · cases h

section Surveying
variable (hash : Buffer → String) {o : Options} {dir : OsText} (hout : o.output = some dir)
  (hdir : dir ≠ "")
include hout hdir

theorem deliver_contained {d : Definition} (hd : '/' ∉ d.shortName.toList) (path : OsText)
    (content : String) (s : Session) :
    s.files.Contained dir (deliver o d path content s).files := by
  have hwrite := writeReport_contained hdir ((isEntry_reportPath dir path d).2 hd) s.files content
    o.force
  rw [deliver, hout]
  dsimp only
  cases hresult : writeReport s.files (reportPath dir path d) content o.force with
  | mk fs' fault =>
    rw [hresult] at hwrite
    cases fault with
    | none => exact hwrite
    | some message =>
      dsimp only
      rw [Session.files_log]
      exact hwrite

variable {ds : List Definition} (hds : ∀ d ∈ ds, '/' ∉ d.shortName.toList)
include hds

theorem surveyFile_contained (path : OsText) (data : Buffer) (s : Session) :
    s.files.Contained dir (surveyFile hash o ds path data s).files := by
  obtain ⟨before, counts, hlogs, -, -, heq⟩ := surveyFile_eq hash o ds path data s
  have hfiles : before.files = s.files := hlogs.files
  rw [heq, ← hfiles]
  obtain ⟨-, hline⟩ | ⟨-, -, hnothing⟩ | ⟨-, d, hfound, hdeliver⟩ :=
    conclude_cases o path data before (finding ds s.seen (hash data) data)
  · rw [hline]
    exact .refl dir before.files
  · rw [hnothing]
    exact .refl dir before.files
  · rw [hdeliver]
    exact deliver_contained hout hdir (hds d (mem_of_finding hfound)) path _ before

theorem surveyDir_contained (depth : Nat) (path : OsText) (acc : Session × Nat) :
    acc.1.files.Contained dir (surveyDir hash o ds depth path acc).1.files := by
  induction depth generalizing path acc with
  | zero => exact .refl dir _
  | succ depth ih =>
    have hentry (acc : Session × Nat) (entry : OsText × Bool) :
        acc.1.files.Contained dir (surveyEntry hash o ds depth path acc entry).1.files := by
      rw [surveyEntry]
      split
      · exact ih _ acc
      · split
        · rw [Session.visit]
          refine .trans ?_ (surveyFile_contained hash hout hdir hds _ _ _)
          rw [Session.files_log]
          exact .refl dir _
        · exact .refl dir _
    rw [surveyDir_succ]
    generalize acc.1.files.list path = entries
    induction entries generalizing acc with
    | nil => exact .refl dir _
    | cons entry entries ihentries => exact (hentry acc entry).trans (ihentries _)

theorem surveyInput_contained (s : Session) :
    s.files.Contained dir (surveyInput hash o ds s).files := by
  rw [surveyInput]
  split
  · split
    · exact .refl dir _
    · exact .refl dir _
    · rw [Session.result, Session.files_summarize]
      exact surveyFile_contained hash hout hdir hds _ _ s
  · split
    · exact .refl dir _
    · exact .refl dir _
    · rename_i path _ _ _ _
      have hstart := s.files_log .info ("Scanning directory: " ++ path.display)
      generalize s.log .info ("Scanning directory: " ++ path.display) = s₁ at hstart ⊢
      have hwalk := surveyDir_contained hash hout hdir hds (depthBound s₁.files o ds) path
        (s₁, 0)
      dsimp only
      generalize surveyDir hash o ds (depthBound s₁.files o ds) path (s₁, 0) = acc at hwalk ⊢
      rw [Session.result, Session.files_summarize, Session.files_log, ← hstart]
      exact hwalk

end Surveying

theorem loadDefinitions_loaded {s s' : Session} {paths : List OsText}
    {loaded : Except (OsText × Failure) (List Definition)}
    (h : loadDefinitions s paths = (s', loaded)) :
    s'.files = s.files ∧ ∀ ds, loaded = .ok ds →
      ∀ d ∈ ds, ∃ path ∈ paths, loadDefinition s.files path = .ok d := by
  induction paths generalizing s s' loaded with
  | nil =>
    cases h
    exact ⟨rfl, fun ds hds d hd => by cases hds; cases hd⟩
  | cons path rest ih =>
    rw [loadDefinitions] at h
    cases hload : loadDefinition s.files path with
    | error failure =>
      rw [hload] at h
      cases h
      exact ⟨rfl, fun ds hds => by cases hds⟩
    | ok first =>
      rw [hload] at h
      dsimp only at h
      generalize hlogged : Session.log _ .info _ = s₁ at h
      have hfiles : s₁.files = s.files := by
        rw [← hlogged, Session.files_log, Session.files_log, Session.files_log]
      cases hothers : loadDefinitions s₁ rest with
      | mk s₂ others =>
        rw [hothers] at h
        cases h
        obtain ⟨hsame, hrest⟩ := ih hothers
        refine ⟨hsame.trans hfiles, fun ds hds d hd => ?_⟩
        cases others with
        | error failure => cases hds
        | ok more =>
          cases hds
          rcases List.mem_cons.1 hd with rfl | hd
          · exact ⟨path, List.mem_cons_self, hload⟩
          · obtain ⟨document, hdocument, hd⟩ := hrest more rfl d hd
            exact ⟨document, List.mem_cons_of_mem _ hdocument, hfiles ▸ hd⟩

/-! ### Arguments -/

/-- No output directory without a name was asked for so far. -/
def Progress.Named : Progress → Prop
  | .stop command => ∀ o, command ≠ .survey o
  | .next d => d.output ≠ some ""
  | .valueOf _ d => d.output ≠ some ""

namespace Draft
variable {d d' : Draft}

theorem setValue_named {value : String} {key : Key} (h : d.setValue value key = some d')
    (hd : d.output ≠ some "") : d'.output ≠ some "" := by
  cases key with
  | output =>
    rw [setValue, nonEmpty] at h
    obtain ⟨v, hv, rfl⟩ := Option.map_eq_some_iff.1 h
    cases hearlier : d.output with
    | some earlier =>
      rw [hearlier] at hv
      cases hv
    | none =>
      rw [hearlier] at hv
      split at hv
      · cases hv
      · rename_i hvalue
        cases hv
        exact fun he => hvalue (Option.some.inj he)
  | definition | file | directory | format | stepLimit =>
    obtain ⟨v, -, rfl⟩ := Option.map_eq_some_iff.1 h
    exact hd
  | _ => cases h

theorem setFlag_named {key : Key} (h : d.setFlag key = some d') (hd : d.output ≠ some "") :
    d'.output ≠ some "" := by
  cases key with
  | verbose =>
    cases h
    exact hd
  | noGaps | force | detectOnly =>
    rw [setFlag] at h
    split at h
    · cases h
    · cases h
      exact hd
  | _ => cases h

theorem finish_named {o : Options} (h : d.finish = .survey o) (hd : d.output ≠ some "") :
    o.output ≠ some "" := by
  rw [finish] at h
  split at h
  · cases h
    intro hout
    obtain ⟨name, hname, hempty⟩ := Option.map_eq_some_iff.1 hout
    exact hd (OsText.ofString_inj hempty ▸ hname)
  · cases h

end Draft

theorem ofDraft_named {d? : Option Draft} (h : ∀ d, d? = some d → d.output ≠ some "") :
    (Progress.ofDraft d?).Named := by
  cases d? with
  | none => exact fun _ h => by cases h
  | some d => exact h d rfl

theorem readShort_named {d : Draft} (hd : d.output ≠ some "") (cs : List Char) :
    (readShort d cs).Named := by
  induction cs generalizing d with
  | nil => exact hd
  | cons c cs ih =>
    rw [readShort]
    split
    · exact fun _ h => by cases h
    · exact fun _ h => by cases h
    · exact fun _ h => by cases h
    · rename_i key _ _ _
      split
      · split
        · exact hd
        · exact ofDraft_named fun d' h => Draft.setValue_named h hd
        · exact ofDraft_named fun d' h => Draft.setValue_named h hd
      · split
        · exact ih (Draft.setFlag_named ‹_› hd)
        · exact fun _ h => by cases h

theorem readArgument_named {d : Draft} (hd : d.output ≠ some "") (arg : String) :
    (readArgument d arg).Named := by
  rw [readArgument]
  split
  · exact fun _ h => by cases h
  · rw [readLong]
    split
    · exact fun _ h => by cases h
    · exact fun _ h => by cases h
    · exact fun _ h => by cases h
    · split
      · exact hd
      · exact ofDraft_named fun d' h => Draft.setFlag_named h hd
    · split
      · exact ofDraft_named fun d' h => Draft.setValue_named h hd
      · exact fun _ h => by cases h
  · exact readShort_named hd _
  · exact fun _ h => by cases h

theorem readArguments_named {d : Draft} {args : List String} {o : Options}
    (hd : d.output ≠ some "") (h : readArguments d args = .survey o) : o.output ≠ some "" := by
  fun_induction readArguments d args with
  | case1 d => exact Draft.finish_named h hd
  | case2 d => exact Draft.finish_named h hd
  | case3 d arg rest _ command hstop =>
    have hnamed := readArgument_named hd arg
    rw [hstop] at hnamed
    exact absurd h (hnamed o)
  | case4 d arg rest _ d' hnext ih =>
    have hnamed := readArgument_named hd arg
    rw [hnext] at hnamed
    exact ih hnamed h
  | case6 d arg key d' hvalue value rest _ d'' hset _ ih =>
    have hnamed := readArgument_named hd arg
    rw [hvalue] at hnamed
    exact ih (Draft.setValue_named hset hnamed) h
  | case5 | case7 | case8 => cases h

/-- What a run changes when reports are asked for in a directory. -/
structure ReportsInto (dir : OsText) (o : Options) (fs fs' : Files) : Prop where
  path : ∀ input (d : Definition),
    Path.IsEntry dir (reportPath dir input d) ↔ '/' ∉ d.shortName.toList
  /-- Without slashes in the short names no file changes but in the directory. -/
  files : (∀ document ∈ o.definitions, ∀ d, loadDefinition fs document = .ok d →
    '/' ∉ d.shortName.toList) → fs.Contained dir fs'

theorem runCommand_reportsInto {args : List String} {o : Options} {dir : OsText}
    (hargs : Command.ofArguments args = .survey o) (hout : o.output = some dir) (fs : Files)
    (hash : Buffer → String) : ReportsInto dir o fs (runCommand args fs hash).files := by
  have hdir : dir ≠ "" := by
    rintro rfl
    have hstart : ({} : Draft).output ≠ some "" := by decide
    exact readArguments_named hstart hargs hout
  refine ⟨fun input d => isEntry_reportPath dir input d, fun hslash => ?_⟩
  rw [runCommand, hargs]
  dsimp only
  rw [survey]
  cases hload : loadDefinitions { files := fs, verbosity := o.verbosity } o.definitions with
  | mk s loaded =>
    obtain ⟨hfiles, hloaded⟩ := loadDefinitions_loaded hload
    cases loaded with
    | error failure =>
      obtain ⟨document, failure⟩ := failure
      show fs.Contained dir s.files
      rw [hfiles]
      exact .refl dir fs
    | ok ds =>
      have hds : ∀ d ∈ ds, '/' ∉ d.shortName.toList := by
        intro d hd
        obtain ⟨document, hdocument, hd⟩ := hloaded ds rfl d hd
        exact hslash document hdocument d hd
      have hcontained := surveyInput_contained hash hout hdir hds s
      rw [hfiles] at hcontained
      exact hcontained

def intoSample (short : String) : Files :=
  ⟨.file "s.xml" ("<format name='Sample' short='" ++ short ++ "'><endianness order='big'/>
     <magic><signature><read var='m' size='1'/></signature></magic><colors/>
     <field-defs><field id='x' name='x'><size remaining='true'/></field></field-defs>
     <run><field ref='x'/></run></format>").toUTF8.data
    (.dir "in" (.file "a" #[1] .nil) .nil), []⟩

def intoArguments : List String :=
  ["-D", "s.xml", "-f", "in/a", "-o", "out", "--format", "ranges"]

def intoOptions : Options where
  definitions := ["s.xml"]
  input := .file "in/a"
  output := some "out"
  verbosity := 0
  format := .ranges
  stepLimit := 1000000
  noGaps := false
  force := false
  detectOnly := false

theorem runCommand_reportsInto_intoSample :
    ReportsInto "out" intoOptions (intoSample "S")
      (runCommand intoArguments (intoSample "S")).files ∧
      (intoSample "S").Contained "out" (runCommand intoArguments (intoSample "S")).files := by
  have hargs : Command.ofArguments intoArguments = .survey intoOptions := by decide +kernel
  have hslash : (loadDefinition (intoSample "S") "s.xml").toOption.all
      (fun d => !d.shortName.toList.contains '/') = true := by decide +kernel
  have hinto := runCommand_reportsInto hargs rfl (intoSample "S") contentHash
  refine ⟨hinto, hinto.files fun document hdocument d hd => ?_⟩
  rw [List.mem_singleton.1 hdocument] at hd
  rw [hd] at hslash
  simpa [Except.toOption] using hslash

/-- A short name that leads out of the directory, and the report beside it. -/
theorem not_contained_intoSample : ∃ d,
    loadDefinition (intoSample "/../../x") "s.xml" = .ok d ∧
    Command.ofArguments intoArguments = .survey intoOptions ∧
    reportPath "out" "in/a" d = "out/a./../../x.txt" ∧
    ¬ Path.IsEntry "out" (reportPath "out" "in/a" d) ∧
    (runCommand intoArguments (intoSample "/../../x")).files.root.kind ["x.txt"] =
      some (some "0x00000000        1 fg0   x\n".toUTF8.data) ∧
    ¬ (intoSample "/../../x").Contained "out"
      (runCommand intoArguments (intoSample "/../../x")).files := by
  have hformat : (loadDefinition (intoSample "/../../x") "s.xml").toOption.any (fun d =>
      d.shortName.toList.contains '/' &&
        reportPath "out" "in/a" d == "out/a./../../x.txt") = true := by decide +kernel
  have hargs : Command.ofArguments intoArguments = .survey intoOptions := by decide +kernel
  obtain ⟨hreport, hplace⟩ :
      (runCommand intoArguments (intoSample "/../../x")).files.root.kind ["x.txt"] =
        some (some "0x00000000        1 fg0   x\n".toUTF8.data) ∧
      (runCommand intoArguments (intoSample "/../../x")).files.place? "out" =
        some [("out" : OsText)] := by
    decide +kernel
  obtain ⟨d, hd, hd'⟩ := exists_of_any hformat
  simp only [Bool.and_eq_true, List.contains_iff_mem, beq_iff_eq] at hd'
  refine ⟨d, hd, hargs, hd'.2, fun h => ?_, hreport, fun h => ?_⟩
  · exact (isEntry_reportPath _ _ _).1 h hd'.1
  · obtain hsame | ⟨base, name, hbase, hin⟩ := h.files _ _ hreport
    · have hnone : (intoSample "/../../x").root.kind ["x.txt"] = none := by decide +kernel
      rw [hnone] at hsame
      cases hsame
    · rw [hplace] at hbase
      cases hbase
      exact absurd (congrArg List.length hin) (by simp)

end Survey

end Dissect
