import Dissect.Proofs.Findings
import Mathlib.Data.Finset.Card
import Mathlib.Data.List.Find

/-! Reports in a directory. Every report stays what it is as long as no later one goes to the same
place, which only happens by force: names of reports keep neither the directory of a file nor its
extension. -/
namespace Dissect.Survey

structure Delivery where
  path : OsText
  data : Buffer
  format : Definition

namespace Delivery

def target (out : OsText) (r : Delivery) : OsText := reportPath out r.path r.format

def content (o : Options) (r : Delivery) : Buffer :=
  (reportOn o r.format r.path r.data).toUTF8.data

def line (out : OsText) (r : Delivery) : String := "Wrote " ++ (r.target out).display ++ "\n"

def of? (dir : OsText) : (List OsText × Buffer) × Finding → Option Delivery
  | (file, .format d) => some ⟨Path.within dir file.1, file.2, d⟩
  | _ => none

theorem of?_eq_some {dir : OsText} {file : List OsText × Buffer} {found : Finding} {r : Delivery}
    (h : of? dir (file, found) = some r) : found = .format r.format ∧ r.data = file.2 := by
  cases found with
  | format d =>
    cases h
    exact ⟨rfl, rfl⟩
  | duplicate first => cases h
  | unknown => cases h

end Delivery

/-- What is to be delivered on files, of which there are earlier ones. -/
def deliveries {κ : Type} [BEq κ] (key : Buffer → κ) (ds : List Definition) (dir : OsText)
    (earlier files : List (List OsText × Buffer)) : List Delivery :=
  (findings key ds dir earlier files).filterMap (Delivery.of? dir)

section Deliveries
variable {κ : Type} [BEq κ] [LawfulBEq κ] {key : Buffer → κ} {ds : List Definition} {dir : OsText}
  {earlier files : List (List OsText × Buffer)} {file : List OsText × Buffer}

omit [LawfulBEq κ] in
theorem deliveries_cons : deliveries key ds dir earlier (file :: files) =
    (Delivery.of? dir (file,
      finding ds (keyed key dir earlier) (key file.2) file.2)).toList ++
      deliveries key ds dir (earlier ++ [file]) files := by
  rw [deliveries, findings_cons, List.filterMap_cons, deliveries]
  cases Delivery.of? dir (file, finding ds (keyed key dir earlier) (key file.2) file.2) <;> rfl

theorem newFinding_eq_format {content : Buffer} {d : Definition}
    (h : newFinding ds content = .format d) : ds.find? (·.detects content) = some d := by
  rw [newFinding] at h
  split at h
  · cases h
    assumption
  · cases h

theorem finding_eq_format {content : Buffer} {d : Definition} :
    finding ds (keyed key dir earlier) (key content) content = .format d ↔
      (∀ file ∈ earlier, key file.2 ≠ key content) ∧ newFinding ds content = .format d := by
  rw [finding, find?_keyed]
  cases hfind : earlier.find? fun file => key file.2 == key content with
  | some file =>
    have hmem := List.mem_of_find?_eq_some hfind
    have hsame := List.find?_some hfind
    rw [beq_iff_eq] at hsame
    constructor
    · intro h
      cases h
    · rintro ⟨hnew, -⟩
      exact absurd hsame (hnew file hmem)
  | none =>
    have hnew : ∀ file ∈ earlier, key file.2 ≠ key content :=
      fun file hfile => ne_of_beq_false (by simpa using List.find?_eq_none.1 hfind file hfile)
    exact ⟨fun h => ⟨hnew, h⟩, And.right⟩

/-- A report is on a content whose key no file before has, by the first definition that accepts
it. -/
theorem mem_deliveries {r : Delivery} (h : r ∈ deliveries key ds dir earlier files) :
    (∀ file ∈ earlier, key file.2 ≠ key r.data) ∧
      ds.find? (·.detects r.data) = some r.format := by
  induction files generalizing earlier with
  | nil => cases h
  | cons file files ih =>
    rw [deliveries_cons, List.mem_append, Option.mem_toList] at h
    obtain h | h := h
    · obtain ⟨hfound, hdata⟩ := Delivery.of?_eq_some h
      obtain ⟨hearlier, hformat⟩ := finding_eq_format.1 hfound
      exact hdata ▸ ⟨hearlier, newFinding_eq_format hformat⟩
    · obtain ⟨hearlier, hformat⟩ := ih h
      exact ⟨(List.forall_mem_append.1 hearlier).1, hformat⟩

theorem nodup_deliveries : ((deliveries key ds dir earlier files).map Delivery.data).Nodup := by
  induction files generalizing earlier with
  | nil => exact List.nodup_nil
  | cons file files ih =>
    rw [deliveries_cons]
    cases hr : Delivery.of? dir
      (file, finding ds (keyed key dir earlier) (key file.2) file.2) with
    | none => exact ih
    | some r =>
      refine List.nodup_cons.2 ⟨fun hmem => ?_, ih⟩
      obtain ⟨r', hr', hdata⟩ := List.mem_map.1 hmem
      have hne := (List.forall_mem_append.1 (mem_deliveries hr').1).2 file List.mem_cons_self
      exact hne (congrArg key ((Delivery.of?_eq_some hr).2.symm.trans hdata.symm))

/-- A hash that contents share only takes reports away. -/
theorem deliveries_sublist (hash : Buffer → String) :
    (deliveries hash ds dir earlier files).Sublist (deliveries id ds dir earlier files) := by
  induction files generalizing earlier with
  | nil => exact .slnil
  | cons file files ih =>
    rw [deliveries_cons, deliveries_cons]
    refine .append ?_ ih
    cases hr : Delivery.of? dir
      (file, finding ds (keyed hash dir earlier) (hash file.2) file.2) with
    | none => exact List.nil_sublist _
    | some r =>
      obtain ⟨hnew, hformat⟩ := finding_eq_format.1 (Delivery.of?_eq_some hr).1
      have hsame : finding ds (keyed id dir earlier) (id file.2) file.2 = .format r.format :=
        finding_eq_format.2 ⟨fun f hf heq => hnew f hf (congrArg hash heq), hformat⟩
      rw [hsame, ← (Delivery.of?_eq_some hr).1, hr]

end Deliveries

def lastAt (fs : Files) (out : OsText) (rs : List Delivery) (place : List OsText) :
    Option Delivery :=
  rs.reverse.find? fun r => decide (fs.place? (r.target out) = some place)

def places (fs : Files) (out : OsText) (rs : List Delivery) : List (Option (List OsText)) :=
  rs.map fun r => fs.place? (r.target out)

theorem lastAt_append (fs : Files) (out : OsText) (rs rs' : List Delivery) (place : List OsText) :
    lastAt fs out (rs ++ rs') place = (lastAt fs out rs' place).or (lastAt fs out rs place) := by
  rw [lastAt, List.reverse_append, List.find?_append]
  rfl

theorem lastAt_congr {fs fs' : Files} {out : OsText} {rs : List Delivery}
    (h : ∀ r ∈ rs, fs.place? (r.target out) = fs'.place? (r.target out)) (place : List OsText) :
    lastAt fs out rs place = lastAt fs' out rs place :=
  List.find?_congr fun r hr => by rw [h r (List.mem_reverse.1 hr)]

/-- Between two sessions these reports are written, and no others. -/
structure Delivers (o : Options) (out : OsText) (rs : List Delivery) (s s' : Session) : Prop where
  prints : s.Prints 0 (rs.map (Delivery.line out)) s'
  written : s'.counts.written = s.counts.written + rs.length
  keeps : s.files.Keeps s'.files
  placed : ∀ r ∈ rs, ∃ place, s'.files.place? (r.target out) = some place ∧
    (s'.files.root.kind place).isSome
  last : ∀ place r, lastAt s'.files out rs place = some r →
    s'.files.root.kind place = some (some (r.content o))
  elsewhere : ∀ place, (s.files.root.kind place).isSome → lastAt s'.files out rs place = none →
    s'.files.root.kind place = s.files.root.kind place
  distinct : o.force = false → (places s'.files out rs).Nodup
  fresh : o.force = false → ∀ r ∈ rs, ∀ place, s'.files.place? (r.target out) = some place →
    s.files.root.kind place = none

section Delivering
variable {o : Options} {out : OsText} {rs rs' : List Delivery} {s s' s'' : Session}

theorem Delivers.nothing (hprints : s.Prints 0 [] s')
    (hwritten : s'.counts.written = s.counts.written) (hgrows : s.files.Grows s'.files) :
    Delivers o out [] s s' where
  prints := hprints
  written := hwritten
  keeps := hgrows.keeps
  placed := List.forall_mem_nil _
  last := fun _ _ h => nomatch h
  elsewhere := fun place hsome _ => hgrows.kind place hsome
  distinct := fun _ => List.nodup_nil
  fresh := fun _ => List.forall_mem_nil _

theorem Delivers.single {r : Delivery} {place : List OsText}
    (hprints : s.Prints 0 [r.line out] s') (hwritten : s'.counts.written = s.counts.written + 1)
    (h : Files.Receives place (r.content o) o.force (r.target out) s.files s'.files) :
    Delivers o out [r] s s' := by
  have hplace := h.place?
  have hlast (other : List OsText) : lastAt s'.files out [r] other =
      if place = other then some r else none := by
    rw [lastAt, List.reverse_singleton, List.find?_singleton, hplace]
    simp only [Option.some.injEq, decide_eq_true_eq]
  refine ⟨hprints, hwritten, h.keeps, ?_, ?_, ?_, fun _ => List.nodup_singleton _, ?_⟩
  · rintro r' hr'
    rw [List.mem_singleton.1 hr']
    exact ⟨place, hplace, h.kind ▸ rfl⟩
  · intro other r' hr'
    rw [hlast] at hr'
    split at hr'
    · rename_i hother
      cases hr'
      exact hother ▸ h.kind
    · cases hr'
  · intro other hsome hnone
    refine h.kind_of_ne ?_ hsome
    rintro rfl
    rw [hlast, if_pos rfl] at hnone
    cases hnone
  · intro hforce r' hr' other hother
    rw [List.mem_singleton.1 hr', hplace, Option.some.injEq] at hother
    exact hother ▸ h.fresh hforce

theorem Delivers.trans (h : Delivers o out rs s s') (h' : Delivers o out rs' s' s'') :
    Delivers o out (rs ++ rs') s s'' := by
  have hsame : ∀ r ∈ rs, s''.files.place? (r.target out) = s'.files.place? (r.target out) := by
    intro r hr
    obtain ⟨place, hplace, -⟩ := h.placed r hr
    rw [hplace, h'.keeps.place? hplace]
  have hlast (place : List OsText) : lastAt s''.files out (rs ++ rs') place =
      (lastAt s''.files out rs' place).or (lastAt s'.files out rs place) := by
    rw [lastAt_append, lastAt_congr hsame]
  refine ⟨?_, ?_, h.keeps.trans h'.keeps, ?_, ?_, ?_, ?_, ?_⟩
  · rw [List.map_append]
    exact h.prints.trans h'.prints
  · rw [h'.written, h.written, List.length_append, Nat.add_assoc]
  · refine List.forall_mem_append.2 ⟨fun r hr => ?_, h'.placed⟩
    obtain ⟨place, hplace, hsome⟩ := h.placed r hr
    exact ⟨place, h'.keeps.place? hplace, h'.keeps.isSome hsome⟩
  · intro place r hr
    rw [hlast, Option.or_eq_some_iff] at hr
    obtain hr | ⟨hnone, hr⟩ := hr
    · exact h'.last place r hr
    · have hkind := h.last place r hr
      rw [h'.elsewhere place (hkind ▸ rfl) hnone, hkind]
  · intro place hsome hnone
    rw [hlast, Option.or_eq_none_iff] at hnone
    rw [h'.elsewhere place (h.keeps.isSome hsome) hnone.1, h.elsewhere place hsome hnone.2]
  · intro hforce
    rw [places, List.map_append, List.map_congr_left hsame, List.nodup_append]
    refine ⟨h.distinct hforce, h'.distinct hforce, fun place hplace place' hplace' heq => ?_⟩
    obtain ⟨r, hr, rfl⟩ := List.mem_map.1 hplace
    obtain ⟨r', hr', rfl⟩ := List.mem_map.1 hplace'
    obtain ⟨place, hplace, hsome⟩ := h.placed r hr
    rw [h'.fresh hforce r' hr' place (heq ▸ hplace)] at hsome
    cases hsome
  · intro hforce
    refine List.forall_mem_append.2 ⟨fun r hr place hplace => ?_, fun r hr place hplace => ?_⟩
    · exact h.fresh hforce r hr place (hsame r hr ▸ hplace)
    · have hnone := h'.fresh hforce r hr place hplace
      by_contra hsome
      have hstays := h.keeps.isSome (Option.isSome_iff_ne_none.2 hsome)
      rw [hnone] at hstays
      cases hstays

theorem deliver_delivers (hout : o.output = some out) (r : Delivery) (s : Session) :
    ∃ rs, Delivers o out rs s (deliver o r.format r.path (reportOn o r.format r.path r.data) s) ∧
      rs.Sublist [r] := by
  obtain ⟨fs', place, hreceives, heq⟩ | ⟨fs', message, hgrows, heq⟩ :=
    deliver_cases r.path s hout r.format (reportOn o r.format r.path r.data)
  · refine ⟨[r], ?_, List.Sublist.refl _⟩
    rw [heq]
    exact .single ⟨rfl, ({ s with files := fs' }.prints_print _).pieces⟩ rfl hreceives
  · refine ⟨[], ?_, List.nil_sublist _⟩
    have hlog := { s with files := fs' }.prints_log .error message (Nat.zero_le _)
    rw [heq]
    refine .nothing ⟨hlog.verbosity, hlog.pieces⟩ ?_ ?_
    · rw [Session.log]
      split <;> rfl
    · rw [Session.files_log]
      exact hgrows

end Delivering

section Walking
variable {hash : Buffer → String} {o : Options} {ds : List Definition} {dir out : OsText}
  {base : List OsText} {s s' : Session} {earlier files : List (List OsText × Buffer)}

theorem visit_delivers (hmode : o.detectOnly = false) (hout : o.output = some out)
    (hseen : Agrees s.seen (keyed hash dir earlier)) (file : List OsText × Buffer) :
    ∃ rs, Delivers o out rs s (s.visit hash o ds dir file) ∧
      rs.Sublist (Delivery.of? dir
        (file, finding ds (keyed hash dir earlier) (hash file.2) file.2)).toList := by
  obtain ⟨before, counts, hlogs, hwritten, -, heq⟩ := visit_eq hash o ds dir s file
  have hstart : Delivers o out [] s before := by
    refine .nothing ⟨hlogs.prints.verbosity, (hlogs.prints.mono (Nat.zero_le 1)).pieces⟩ ?_ ?_
    · rw [hlogs.counts]
      exact hwritten
    · rw [hlogs.files]
      exact .refl _
  rw [heq, ← hseen.finding]
  obtain ⟨hdetect, -⟩ | ⟨-, -, hnothing⟩ | ⟨-, d, hfound, hdeliver⟩ :=
    conclude_cases o (Path.within dir file.1) file.2 before (finding ds s.seen (hash file.2) file.2)
  · exact absurd (hmode.symm.trans hdetect) (by decide)
  · rw [hnothing]
    exact ⟨[], hstart, List.nil_sublist _⟩
  · obtain ⟨rs, hrs, hsub⟩ := deliver_delivers hout ⟨Path.within dir file.1, file.2, d⟩ before
    rw [hdeliver, hfound]
    exact ⟨rs, hstart.trans hrs, hsub⟩

theorem Walk.delivers (h : Walk hash o ds dir base s files s') (hmode : o.detectOnly = false)
    (hout : o.output = some out) (hseen : Agrees s.seen (keyed hash dir earlier)) :
    ∃ rs, Delivers o out rs s s' ∧ rs.Sublist (deliveries hash ds dir earlier files) := by
  induction h generalizing earlier with
  | done s => exact ⟨[], .nothing (.silent rfl rfl) rfl (.refl _), List.nil_sublist _⟩
  | @visit s s' file files _ _ ih =>
    obtain ⟨rs, hrs, hsub⟩ := visit_delivers hmode hout hseen file
    obtain ⟨rs', hrs', hsub'⟩ := ih (visit_agrees hseen file)
    rw [deliveries_cons]
    exact ⟨rs ++ rs', hrs.trans hrs', hsub.append hsub'⟩

theorem Walk.written (h : Walk hash o ds dir base s files s') (hmode : o.detectOnly = true) :
    s'.counts.written = s.counts.written := by
  induction h with
  | done s => rfl
  | @visit s s' file files _ _ ih =>
    obtain ⟨before, counts, hlogs, hwritten, -, heq⟩ := visit_eq hash o ds dir s file
    have hbefore : before.counts = counts := hlogs.counts
    obtain ⟨-, hline⟩ | ⟨hreport, -⟩ | ⟨hreport, -⟩ :=
      conclude_cases o (Path.within dir file.1) file.2 before
        (finding ds s.seen (hash file.2) file.2)
    · rw [ih, heq, hline, ← hwritten, ← hbefore]
      rfl
    · exact absurd (hmode.symm.trans hreport) (by decide)
    · exact absurd (hmode.symm.trans hreport) (by decide)

end Walking

/-- The survey of a directory that visits some files and writes reports on some of these, in this
order: on different contents, each by the first definition that accepts it. The last report to go to
a place stays there. -/
structure WritesReports (hash : Buffer → String) (o : Options) (ds : List Definition) (fs : Files)
    (path out : OsText) (t : Tree) (files : List (List OsText × Buffer)) (rs : List Delivery)
    (s : Session) : Prop where
  sorted : (files.map Prod.fst).Pairwise (· < ·)
  all : ∀ file ∈ t.files, isVisible file.1 = true → file.1 ∈ files.map Prod.fst
  reports : rs.Sublist (deliveries id ds path [] files)
  byHash : rs.Sublist (deliveries hash ds path [] files)
  byContent : Distinguishes hash (files.map Prod.snd) →
    deliveries hash ds path [] files = deliveries id ds path [] files
  result : survey hash o fs =
    ((s.log .info ("Processed " ++ toString files.length ++ " files")).summarize o).result
  lines : o.detectOnly = false → ∃ pieces : List Piece,
    (survey hash o fs).stdout = String.join (pieces.map Piece.text) ∧
    pieces.filterMap Piece.output? = rs.map (Delivery.line out) ∧
    ∀ piece ∈ pieces, piece.Shown 0 o.verbosity
  formatsAlone : o.detectOnly = true → rs = [] ∧ (survey hash o fs).files = fs
  contents : (rs.map Delivery.data).Nodup
  formats : ∀ r ∈ rs, ds.find? (·.detects r.data) = some r.format
  written : s.counts.written = rs.length
  last : ∀ earlier r later, rs = earlier ++ r :: later →
    (∀ r' ∈ later, (survey hash o fs).files.place? (r'.target out) ≠
      (survey hash o fs).files.place? (r.target out)) →
    (survey hash o fs).files.found? (r.target out) = some (.file (r.content o))
  own : (places (survey hash o fs).files out rs).Nodup →
    (∀ r ∈ rs, (survey hash o fs).files.found? (r.target out) = some (.file (r.content o))) ∧
      (places (survey hash o fs).files out rs).toFinset.card = s.counts.written
  unforced : o.force = false → (places (survey hash o fs).files out rs).Nodup

section Surveying
variable {o : Options} {ds : List Definition} {fs : Files} {path out : OsText} {t : Tree}
  {rs : List Delivery} {s s' : Session}

theorem Delivers.found (h : Delivers o out rs s s') {earlier later : List Delivery} {r : Delivery}
    (hrs : rs = earlier ++ r :: later)
    (hlater : ∀ r' ∈ later, s'.files.place? (r'.target out) ≠ s'.files.place? (r.target out)) :
    s'.files.found? (r.target out) = some (.file (r.content o)) := by
  obtain ⟨place, hplace, -⟩ := h.placed r (hrs ▸ List.mem_append_right _ List.mem_cons_self)
  have hlast : lastAt s'.files out rs place = some r := by
    rw [lastAt, List.find?_eq_some_iff_append]
    refine ⟨decide_eq_true hplace, later.reverse, earlier.reverse, ?_, fun r' hr' => ?_⟩
    · simp [hrs]
    · have hne := hlater r' (List.mem_reverse.1 hr')
      rw [hplace] at hne
      simp [hne]
  exact Files.found?_eq_some.2 ⟨place, hplace, Tree.kind_eq_file.1 (h.last place r hlast)⟩

theorem Delivers.own (h : Delivers o out rs s s')
    (hdistinct : (places s'.files out rs).Nodup) {r : Delivery}
    (hr : r ∈ rs) : s'.files.found? (r.target out) = some (.file (r.content o)) := by
  obtain ⟨earlier, later, hrs⟩ := List.append_of_mem hr
  refine h.found hrs fun r' hr' heq => ?_
  rw [places, hrs, List.map_append, List.map_cons] at hdistinct
  have htail := (List.nodup_append.1 hdistinct).2.1
  exact (List.nodup_cons.1 htail).1 (List.mem_map.2 ⟨r', hr', heq⟩)

theorem deliveries_of_distinguishes {hash : Buffer → String} {dir : OsText}
    {files : List (List OsText × Buffer)} (h : Distinguishes hash (files.map Prod.snd)) :
    deliveries hash ds dir [] files = deliveries id ds dir [] files := by
  rw [deliveries, findings_byContent h, ← deliveries]

theorem survey_directory_reports (hash : Buffer → String) (hin : o.input = .directory path)
    (hds : List.Forall₂ (fun document d => loadDefinition fs document = .ok d) o.definitions ds)
    (hdir : fs.found? path = some (.dir t)) (hproper : fs.root.Proper)
    (hout : o.output = some out) :
    ∃ files rs s, WritesReports hash o ds fs path out t files rs s := by
  obtain ⟨files, base, s, s', h⟩ := survey_directory hash hin hds hdir hproper
  have hfiles : (survey hash o fs).files = s'.files := h.files_result
  have hnone : s.counts.written = 0 := by rw [h.start.counts]
  cases hmode : o.detectOnly with
  | true =>
    refine ⟨files, [], s', h.sorted, h.all, List.nil_sublist _, List.nil_sublist _,
      deliveries_of_distinguishes, h.result, fun h => ?_, fun _ => ⟨rfl, ?_⟩,
      List.nodup_nil, List.forall_mem_nil _, ?_, ?_, ?_,
      fun _ => List.nodup_nil⟩
    · exact absurd (hmode.symm.trans h) (by decide)
    · rw [hfiles, (h.walk.files_eq (.inl hmode)).1, h.start.files]
    · rw [h.walk.written hmode, hnone]
      rfl
    · intro earlier r later hrs
      exact absurd hrs (by simp)
    · intro _
      refine ⟨List.forall_mem_nil _, ?_⟩
      rw [h.walk.written hmode, hnone]
      rfl
  | false =>
    obtain ⟨rs, hrs, hsub⟩ := h.walk.delivers hmode hout h.agrees
    have hwritten : s'.counts.written = rs.length := by rw [hrs.written, hnone, Nat.zero_add]
    refine ⟨files, rs, s', h.sorted, h.all, hsub.trans (deliveries_sublist hash), hsub,
      deliveries_of_distinguishes, h.result, fun _ => ?_, fun h => ?_,
      (hsub.map _).nodup nodup_deliveries, fun r hr => (mem_deliveries (hsub.subset hr)).2,
      hwritten, ?_, ?_, ?_⟩
    · exact h.stdout (Nat.zero_le 1) hrs.prints
    · exact absurd (h.symm.trans hmode) (by decide)
    · rw [hfiles]
      exact fun earlier r later => hrs.found
    · rw [hfiles]
      intro hdistinct
      refine ⟨fun r hr => hrs.own hdistinct hr, ?_⟩
      rw [List.toFinset_card_of_nodup hdistinct, places, List.length_map, hwritten]
    · rw [hfiles]
      exact hrs.distinct

end Surveying

/-- Two files whose names differ in the extension, beside the document of their format. -/
def stemSample (rest : Tree) : Files :=
  ⟨.file "s.xml" formatSample.toUTF8.data
    (.dir "in" (.file "x.bin" #[1] (.file "x.dat" #[2, 3] .nil)) rest), []⟩

def reportSample (content : Buffer) : Tree := .dir "out" (.file "x.s.txt" content .nil) .nil

def forceSample : Options :=
  { optionsSample false with output := some "out", format := .ranges, force := true }

theorem loadDefinition_stemSample : ∃ d, loadDefinition (stemSample .nil) "s.xml" = .ok d ∧
    d.detects #[1] = true ∧ d.detects #[2, 3] = true ∧
    reportPath "out" "in/x.bin" d = "out/x.s.txt" ∧
    reportPath "out" "in/x.dat" d = "out/x.s.txt" ∧
    Delivery.content forceSample ⟨"in/x.bin", #[1], d⟩ ≠
      Delivery.content forceSample ⟨"in/x.dat", #[2, 3], d⟩ := by
  have hformat : (loadDefinition (stemSample .nil) "s.xml").toOption.any (fun d =>
      d.detects #[1] && d.detects #[2, 3] &&
        reportPath "out" "in/x.bin" d == "out/x.s.txt" &&
        reportPath "out" "in/x.dat" d == "out/x.s.txt" &&
        Delivery.content forceSample ⟨"in/x.bin", #[1], d⟩ !=
          Delivery.content forceSample ⟨"in/x.dat", #[2, 3], d⟩) = true := by
    decide +kernel
  obtain ⟨d, hd, hd'⟩ := exists_of_any hformat
  simp only [Bool.and_eq_true, beq_iff_eq, bne_iff_ne] at hd'
  obtain ⟨⟨⟨⟨hfirst, hsecond⟩, htarget⟩, htarget'⟩, hdiffer⟩ := hd'
  exact ⟨d, hd, hfirst, hsecond, htarget, htarget', hdiffer⟩

theorem survey_directory_reports_stemSample : ∃ d files rs s,
    WritesReports contentHash { forceSample with force := false } [d] (stemSample .nil) "in" "out"
      (.file "x.bin" #[1] (.file "x.dat" #[2, 3] .nil)) files rs s ∧
    ∀ r ∈ rs,
      (survey contentHash { forceSample with force := false } (stemSample .nil)).files.found?
        (r.target "out") = some (.file (r.content { forceSample with force := false })) := by
  have hproper : (stemSample .nil).root.Proper := by decide +kernel
  obtain ⟨d, hd, -⟩ := loadDefinition_stemSample
  obtain ⟨files, rs, s, h⟩ := survey_directory_reports (o := { forceSample with force := false })
    contentHash rfl (.cons hd .nil) rfl hproper rfl
  exact ⟨d, files, rs, s, h, (h.own (h.unforced rfl)).1⟩

theorem visit_writes (hash : Buffer → String) (o : Options) (ds : List Definition) (dir : OsText)
    (s : Session) (place : List OsText) (data : Buffer) {out path target : OsText} {d : Definition}
    {fs' : Files}
    (hmode : o.detectOnly = false) (hquiet : s.verbosity = 0) (hout : o.output = some out)
    (hpath : Path.within dir place = path) (hfound : finding ds s.seen (hash data) data = .format d)
    (htarget : reportPath out path d = target)
    (hwrite : writeReport s.files target (reportOn o d path data) o.force = (fs', none)) :
    ∃ counts, s.visit hash o ds dir (place, data) =
      { files := fs', verbosity := 0, seen := remember s.seen path (hash data), counts := counts
        printed := ("Wrote " ++ target.display ++ "\n") :: s.printed } := by
  obtain ⟨before, counts, hlogs, -, -, heq⟩ := visit_eq hash o ds dir s (place, data)
  have hbefore := hlogs.quiet hquiet
  refine ⟨{ counts with written := counts.written + 1 }, ?_⟩
  rw [heq, hfound, hbefore, hpath, Session.conclude, hmode, if_neg Bool.false_ne_true, deliver,
    hout]
  dsimp only
  rw [htarget, hwrite, ← hquiet]
  rfl

def startSample : Session := { files := stemSample .nil, verbosity := 0 }

theorem writeReport_stemSample (rest : Tree) (content : String) :
    (rest = .nil ∨ ∃ earlier, rest = reportSample earlier) →
    writeReport (stemSample rest) "out/x.s.txt" content true =
      (stemSample (reportSample content.toUTF8.data), none) := by
  have hparents : Path.parents "out/x.s.txt" = [("out" : OsText), ("" : OsText)] := by
    decide +kernel
  rw [writeReport, hparents]
  rintro (rfl | ⟨earlier, rfl⟩) <;> rfl

theorem list_stemSample (rest : Tree) :
    (stemSample rest).list "in" = [(.ofString "x.bin", false), (.ofString "x.dat", false)] := by
  have hfound : (stemSample rest).found? "in" =
      some (.dir (.file "x.bin" #[1] (.file "x.dat" #[2, 3] .nil))) := rfl
  rw [Files.list, hfound]
  exact List.mergeSort_of_pairwise (by decide +kernel)

/-- Both reports are written to one place, and the first one is lost. -/
theorem not_own_stemSample : ∃ d, loadDefinition (stemSample .nil) "s.xml" = .ok d ∧
    (survey contentHash forceSample (stemSample .nil)).stdout =
      "Wrote out/x.s.txt\nWrote out/x.s.txt\n" ∧
    (survey contentHash forceSample (stemSample .nil)).files.found? "out/x.s.txt" =
      some (.file (Delivery.content forceSample ⟨"in/x.dat", #[2, 3], d⟩)) ∧
    Delivery.content forceSample ⟨"in/x.bin", #[1], d⟩ ≠
      Delivery.content forceSample ⟨"in/x.dat", #[2, 3], d⟩ := by
  obtain ⟨d, hd, hfirst, hsecond, htarget, htarget', hdiffer⟩ := loadDefinition_stemSample
  have hpath : Path.within "in" ["x.bin"] = "in/x.bin" := by decide +kernel
  have hpath' : Path.within "in" ["x.dat"] = "in/x.dat" := by decide +kernel
  -- Each of the two files is reported on in the same place.
  obtain ⟨counts, hvisit⟩ := visit_writes contentHash forceSample [d] "in" startSample
    ["x.bin"] #[1] rfl rfl rfl hpath (finding_of_detects rfl hfirst) htarget
    (writeReport_stemSample .nil _ (.inl rfl))
  have hnew : (remember [] "in/x.bin" (contentHash #[1])).find?
      (·.1 == contentHash #[2, 3]) = none := by decide +kernel
  obtain ⟨counts', hvisit'⟩ := visit_writes contentHash forceSample [d] "in"
    (startSample.visit contentHash forceSample [d] "in" (["x.bin"], #[1])) ["x.dat"] #[2, 3]
    rfl (by rw [hvisit]) rfl hpath' (finding_of_detects (by rw [hvisit]; exact hnew) hsecond)
    htarget' (by rw [hvisit]; exact writeReport_stemSample _ _ (.inr ⟨_, rfl⟩))
  have hwalk (depth : Nat) :
      surveyDir contentHash forceSample [d] (depth + 1) "in" (startSample, 0) =
        ((startSample.visit contentHash forceSample [d] "in" (["x.bin"], #[1])).visit
          contentHash forceSample [d] "in" (["x.dat"], #[2, 3]), 2) := by
    rw [surveyDir_succ, startSample, list_stemSample, List.foldl_cons,
      surveyEntry_file (by decide) rfl, List.foldl_cons,
      surveyEntry_file (by decide) (by rw [← startSample, hvisit]; rfl)]
    rfl
  have hsurvey := survey_quiet (o := forceSample) rfl rfl (.cons hd .nil) rfl (hwalk _)
    (by rw [hvisit'])
  refine ⟨d, hd, ?_, ?_, hdiffer⟩
  · have hprinted : String.join ["Wrote " ++ "out/x.s.txt" ++ "\n",
        "Wrote " ++ "out/x.s.txt" ++ "\n"] = "Wrote out/x.s.txt\nWrote out/x.s.txt\n" := by
      decide +kernel
    rw [hsurvey, hvisit', hvisit]
    exact hprinted
  · rw [hsurvey, hvisit']
    rfl

end Dissect.Survey
