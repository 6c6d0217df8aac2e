import Dissect.Proofs.Sessions

/-! The way through a directory. Files are visited one after the other in the order of their places,
each with what it contains when it is reached, and none that was there at the start is left out
unless it is hidden. -/
namespace Dissect.Survey

def Path.within (dir : OsText) (place : List OsText) : OsText := place.foldl Path.join dir

def isVisible (place : List OsText) : Bool := !place.getLast?.any isHidden

theorem isVisible_cons (name : OsText) {place : List OsText} (h : place ≠ []) :
    isVisible (name :: place) = isVisible place := by
  obtain ⟨next, rest, rfl⟩ := List.exists_cons_of_ne_nil h
  rw [isVisible, List.getLast?_cons_cons, isVisible]

section
variable (hash : Buffer → String) (o : Options) (ds : List Definition)

def Session.visit (dir : OsText) (s : Session) (file : List OsText × Buffer) : Session :=
  surveyFile hash o ds (Path.within dir file.1) file.2
    (s.log .debug ("Processing file: " ++ (Path.within dir file.1).display))

/-- Files are visited one after the other, each with what it contains when it is reached. -/
inductive Walk (dir : OsText) (base : List OsText) :
    Session → List (List OsText × Buffer) → Session → Prop
  | done (s : Session) : Walk dir base s [] s
  | visit {s s' : Session} {file : List OsText × Buffer} {files : List (List OsText × Buffer)} :
    s.files.root.kind (base ++ file.1) = some (some file.2) →
    Walk dir base (s.visit hash o ds dir file) files s' → Walk dir base s (file :: files) s'

end

section Walks
variable {hash : Buffer → String} {o : Options} {ds : List Definition} {dir : OsText}
  {base : List OsText} {s s' s'' : Session} {files files' : List (List OsText × Buffer)}

theorem visit_eq (hash : Buffer → String) (o : Options) (ds : List Definition) (dir : OsText)
    (s : Session) (file : List OsText × Buffer) : ∃ before counts,
      Session.Logs { s with
        seen := remember s.seen (Path.within dir file.1) (hash file.2), counts := counts } before ∧
      counts.written = s.counts.written ∧
      (o.detectOnly = false →
        counts = s.counts.visit ((finding ds s.seen (hash file.2) file.2).category o file.2)) ∧
      s.visit hash o ds dir file = before.conclude o (Path.within dir file.1) file.2
        (finding ds s.seen (hash file.2) file.2) := by
  have hlog := s.logs_log .debug ("Processing file: " ++ (Path.within dir file.1).display)
    (by decide)
  obtain ⟨before, counts, hlogs, hwritten, hcounts, heq⟩ :=
    surveyFile_eq hash o ds (Path.within dir file.1) file.2
      (s.log .debug ("Processing file: " ++ (Path.within dir file.1).display))
  rw [hlog.seen] at hlogs hcounts heq
  rw [hlog.counts] at hwritten hcounts
  have hstart := (hlog.see (remember s.seen (Path.within dir file.1) (hash file.2))).count
    fun _ => counts
  exact ⟨before, counts, hstart.trans hlogs, hwritten, hcounts, heq⟩

theorem visit_keeps (s : Session) (file : List OsText × Buffer) :
    s.files.Keeps (s.visit hash o ds dir file).files := by
  obtain ⟨before, counts, hlogs, -, -, heq⟩ := visit_eq hash o ds dir s file
  have hfiles : before.files = s.files := hlogs.files
  rw [heq, ← hfiles]
  exact conclude_keeps _

theorem visit_files (h : o.detectOnly = true ∨ o.output = none) (s : Session)
    (file : List OsText × Buffer) : (s.visit hash o ds dir file).files = s.files := by
  obtain ⟨before, counts, hlogs, -, -, heq⟩ := visit_eq hash o ds dir s file
  rw [heq, conclude_files h]
  exact hlogs.files

theorem Walk.append (h : Walk hash o ds dir base s files s')
    (h' : Walk hash o ds dir base s' files' s'') :
    Walk hash o ds dir base s (files ++ files') s'' := by
  induction h with
  | done s => exact h'
  | visit hfile _ ih => exact .visit hfile (ih h')

theorem Walk.inside {name : OsText}
    (h : Walk hash o ds (Path.join dir name) (base ++ [name]) s files s') :
    Walk hash o ds dir base s (files.map fun file => (name :: file.1, file.2)) s' := by
  induction h with
  | done s => exact .done s
  | visit hfile _ ih =>
    rw [List.append_assoc] at hfile
    exact .visit hfile ih

theorem Walk.keeps (h : Walk hash o ds dir base s files s') : s.files.Keeps s'.files := by
  induction h with
  | done s => exact .refl _
  | visit _ _ ih => exact (visit_keeps _ _).trans ih

theorem Walk.files_eq (h : Walk hash o ds dir base s files s')
    (hmode : o.detectOnly = true ∨ o.output = none) :
    s'.files = s.files ∧
      ∀ file ∈ files, s.files.root.kind (base ++ file.1) = some (some file.2) := by
  induction h with
  | done s => exact ⟨rfl, fun _ h => nomatch h⟩
  | visit hfile _ ih =>
    rw [visit_files hmode] at ih
    exact ⟨ih.1, List.forall_mem_cons.2 ⟨hfile, ih.2⟩⟩

end Walks

/-! ### What is visited -/

/-- The visible files among some places in a directory are visited in the order of their places. -/
structure Covers (root : Tree) (base : List OsText) (A : List OsText → Prop)
    (files : List (List OsText × Buffer)) : Prop where
  sorted : (files.map Prod.fst).Pairwise (· < ·)
  visible : ∀ file ∈ files, isVisible file.1 = true
  among : ∀ file ∈ files, A file.1
  all : ∀ place content, root.kind (base ++ place) = some (some content) →
    isVisible place = true → A place → place ∈ files.map Prod.fst

section Covering
variable {root root' : Tree} {base : List OsText} {A B : List OsText → Prop}
  {files files' : List (List OsText × Buffer)}

theorem Covers.nothing (h : ∀ place content, root.kind (base ++ place) = some (some content) →
    isVisible place = true → ¬A place) : Covers root base A [] :=
  ⟨.nil, List.forall_mem_nil _, List.forall_mem_nil _,
    fun place content hkind hvisible hA => absurd hA (h place content hkind hvisible)⟩

theorem Covers.single {file : List OsText × Buffer} (hvisible : isVisible file.1 = true)
    (hfile : A file.1) (hall : ∀ place content,
      root.kind (base ++ place) = some (some content) → A place → place = file.1) :
    Covers root base A [file] := by
  refine ⟨List.pairwise_singleton _ _, List.forall_mem_singleton.2 hvisible,
    List.forall_mem_singleton.2 hfile, fun place content hkind _ hplace => ?_⟩
  rw [hall place content hkind hplace]
  exact List.mem_cons_self

theorem Covers.append (h : Covers root base A files) (h' : Covers root' base B files')
    (hroot : ∀ place content, root.kind place = some (some content) →
      ∃ content', root'.kind place = some (some content'))
    (hlt : ∀ place place', A place → B place' → place < place') :
    Covers root base (fun place => A place ∨ B place) (files ++ files') := by
  refine ⟨?_, ?_, ?_, fun place content hkind hvisible hamong => ?_⟩
  · rw [List.map_append, List.pairwise_append]
    refine ⟨h.sorted, h'.sorted, fun place hplace place' hplace' => ?_⟩
    obtain ⟨file, hfile, rfl⟩ := List.mem_map.1 hplace
    obtain ⟨file', hfile', rfl⟩ := List.mem_map.1 hplace'
    exact hlt _ _ (h.among file hfile) (h'.among file' hfile')
  · exact List.forall_mem_append.2 ⟨h.visible, h'.visible⟩
  · exact List.forall_mem_append.2
      ⟨fun file hfile => .inl (h.among file hfile), fun file hfile => .inr (h'.among file hfile)⟩
  · rw [List.map_append, List.mem_append]
    obtain hA | hB := hamong
    · exact .inl (h.all place content hkind hvisible hA)
    · obtain ⟨content', hkind'⟩ := hroot _ _ hkind
      exact .inr (h'.all place content' hkind' hvisible hB)

theorem Covers.inside {name : OsText} (h : Covers root (base ++ [name]) A files)
    (hA : ∀ place, A place → place ≠ []) :
    Covers root base (fun place => ∃ rest, place = name :: rest ∧ A rest)
      (files.map fun file => (name :: file.1, file.2)) := by
  have hplaces : (files.map fun file => (name :: file.1, file.2)).map Prod.fst =
      (files.map Prod.fst).map (name :: ·) := by
    rw [List.map_map, List.map_map]
    rfl
  refine ⟨?_, ?_, ?_, ?_⟩
  · rw [hplaces, List.pairwise_map]
    exact h.sorted.imp fun hlt => List.cons_lt_cons_iff.2 (.inr ⟨rfl, hlt⟩)
  · intro file hfile
    obtain ⟨inner, hinner, rfl⟩ := List.mem_map.1 hfile
    rw [isVisible_cons name (hA _ (h.among inner hinner))]
    exact h.visible inner hinner
  · intro file hfile
    obtain ⟨inner, hinner, rfl⟩ := List.mem_map.1 hfile
    exact ⟨inner.1, rfl, h.among inner hinner⟩
  · rintro _ content hkind hvisible ⟨rest, rfl, hrest⟩
    rw [isVisible_cons name (hA rest hrest)] at hvisible
    rw [List.append_cons] at hkind
    rw [hplaces]
    exact List.mem_map_of_mem (h.all rest content hkind hvisible hrest)

theorem Covers.widen (h : Covers root base A files) (hAB : ∀ place, A place → B place)
    (hBA : ∀ place content, root.kind (base ++ place) = some (some content) → B place → A place) :
    Covers root base B files :=
  ⟨h.sorted, h.visible, fun file hfile => hAB _ (h.among file hfile),
    fun place content hkind hvisible hB => h.all place content hkind hvisible
      (hBA place content hkind hB)⟩

end Covering

section
variable (hash : Buffer → String) (o : Options) (ds : List Definition)

def surveyEntry (depth : Nat) (dir : OsText) (acc : Session × Nat) (entry : OsText × Bool) :
    Session × Nat :=
  if entry.2 then surveyDir hash o ds depth (Path.join dir entry.1) acc
  else
    match isHidden entry.1, acc.1.files.found? (Path.join dir entry.1) with
    | false, some (.file data) => (acc.1.visit hash o ds dir ([entry.1], data), acc.2 + 1)
    | _, _ => acc

theorem surveyDir_succ (depth : Nat) (dir : OsText) (acc : Session × Nat) :
    surveyDir hash o ds (depth + 1) dir acc =
      (acc.1.files.list dir).foldl (surveyEntry hash o ds depth dir) acc := rfl

/-- There is a walk from the files so far to the later ones that covers some places. -/
def Tours (dir : OsText) (base : List OsText) (A : List OsText → Prop) (acc acc' : Session × Nat) :
    Prop :=
  ∃ files, acc'.2 = acc.2 + files.length ∧ Walk hash o ds dir base acc.1 files acc'.1 ∧
    Covers acc.1.files.root base A files

end

structure Open (dir : OsText) (base : List OsText) (fs : Files) : Prop where
  place : fs.place? dir = some base
  dir : fs.root.kind base = some none
  proper : fs.root.Proper

section Surveying
variable {hash : Buffer → String} {o : Options} {ds : List Definition} {depth : Nat}
  {dir name : OsText} {base : List OsText} {acc acc' : Session × Nat} {fs fs' : Files}

theorem surveyEntry_file {data : Buffer} (hvisible : isHidden name = false)
    (hfound : acc.1.files.found? (Path.join dir name) = some (.file data)) :
    surveyEntry hash o ds depth dir acc (name, false) =
      (acc.1.visit hash o ds dir ([name], data), acc.2 + 1) := by
  rw [surveyEntry, if_neg Bool.false_ne_true, hvisible, hfound]

theorem surveyEntry_hidden (hhidden : isHidden name = true) :
    surveyEntry hash o ds depth dir acc (name, false) = acc := by
  rw [surveyEntry, if_neg Bool.false_ne_true, hhidden]

theorem Open.keeps (h : Open dir base fs) (hkeeps : fs.Keeps fs') : Open dir base fs' :=
  ⟨hkeeps.place? h.place, hkeeps.dir h.dir, hkeeps.proper h.proper⟩

theorem Open.inside (h : Open dir base fs) (hname : ProperName name)
    (hdir : fs.root.kind (base ++ [name]) = some none) :
    Open (Path.join dir name) (base ++ [name]) fs :=
  ⟨Files.place?_join h.place h.dir hname, hdir, h.proper⟩

def Within (depth : Nat) (place : List OsText) : Prop := place ≠ [] ∧ place.length ≤ depth

def Under (name : OsText) (depth : Nat) (place : List OsText) : Prop :=
  ∃ rest, place = name :: rest ∧ rest.length ≤ depth

def Reaches (hash : Buffer → String) (o : Options) (ds : List Definition) (depth : Nat) : Prop :=
  ∀ dir base acc, Open dir base acc.1.files →
    Tours hash o ds dir base (Within depth) acc (surveyDir hash o ds depth dir acc)

theorem surveyEntry_tours_dir (h : Open dir base acc.1.files) (hname : ProperName name)
    (hdir : acc.1.files.root.kind (base ++ [name]) = some none) (ih : Reaches hash o ds depth) :
    Tours hash o ds dir base (Under name depth) acc
      (surveyEntry hash o ds depth dir acc (name, true)) := by
  obtain ⟨files, hcount, hwalk, hcovers⟩ := ih _ _ acc (h.inside hname hdir)
  refine ⟨_, ?_, hwalk.inside, (hcovers.inside fun _ hplace => hplace.1).widen ?_ ?_⟩
  · rw [List.length_map]
    exact hcount
  · rintro _ ⟨rest, rfl, -, hlength⟩
    exact ⟨rest, rfl, hlength⟩
  · rintro _ content hfile ⟨rest, rfl, hlength⟩
    refine ⟨rest, rfl, ?_, hlength⟩
    rintro rfl
    rw [hdir] at hfile
    cases hfile

theorem surveyEntry_tours_file (h : Open dir base acc.1.files) (hname : ProperName name)
    {data : Buffer} (hfile : acc.1.files.root.kind (base ++ [name]) = some (some data)) :
    Tours hash o ds dir base (Under name depth) acc
      (surveyEntry hash o ds depth dir acc (name, false)) := by
  have hfound : acc.1.files.found? (Path.join dir name) = some (.file data) :=
    Files.found?_eq_some.2 ⟨_, Files.place?_join h.place h.dir hname, Tree.kind_eq_file.1 hfile⟩
  -- Behind a file there is nothing.
  have hnil {rest : List OsText} {content : Buffer}
      (hrest : acc.1.files.root.kind (base ++ name :: rest) = some (some content)) :
      rest = [] := by
    by_contra hne
    rw [List.append_cons, Tree.kind_beyond (by rw [hfile]; simp) hne] at hrest
    cases hrest
  have hvisible : isVisible [name] = !isHidden name := by
    rw [isVisible, List.getLast?_singleton, Option.any_some]
  cases hhidden : isHidden name with
  | true =>
    rw [surveyEntry_hidden hhidden]
    refine ⟨[], rfl, .done _, .nothing ?_⟩
    rintro _ content hplace hshown ⟨rest, rfl, -⟩
    rw [hnil hplace, hvisible, hhidden] at hshown
    cases hshown
  | false =>
    rw [surveyEntry_file hhidden hfound]
    refine ⟨[([name], data)], rfl, .visit hfile (.done _), ?_⟩
    refine .single ?_ ⟨[], rfl, Nat.zero_le _⟩ ?_
    · rw [hvisible, hhidden]
      rfl
    · rintro _ content hplace ⟨rest, rfl, -⟩
      rw [hnil hplace]

theorem surveyEntry_tours (h : Open dir base acc.1.files) (hname : ProperName name)
    {isDir : Bool}
    (hkind : (acc.1.files.root.kind (base ++ [name])).map Option.isNone = some isDir)
    (ih : Reaches hash o ds depth) :
    Tours hash o ds dir base (Under name depth) acc
      (surveyEntry hash o ds depth dir acc (name, isDir)) := by
  obtain ⟨what, hwhat, rfl⟩ := Option.map_eq_some_iff.1 hkind
  cases what with
  | none => exact surveyEntry_tours_dir h hname hwhat ih
  | some data => exact surveyEntry_tours_file h hname hwhat

theorem surveyEntries_tours {entries : List (OsText × Bool)} (h : Open dir base acc.1.files)
    (hsorted : entries.Pairwise fun entry entry' => entry.1 < entry'.1)
    (hentries : ∀ entry ∈ entries, ProperName entry.1 ∧
      (acc.1.files.root.kind (base ++ [entry.1])).map Option.isNone = some entry.2)
    (ih : Reaches hash o ds depth) :
    Tours hash o ds dir base (fun place => ∃ entry ∈ entries, Under entry.1 depth place) acc
      (entries.foldl (surveyEntry hash o ds depth dir) acc) := by
  induction entries generalizing acc with
  | nil =>
    refine ⟨[], rfl, .done _, .nothing ?_⟩
    rintro place content - - ⟨entry, hentry, -⟩
    exact absurd hentry List.not_mem_nil
  | cons entry entries ihEntries =>
    obtain ⟨hfirst, hsorted⟩ := List.pairwise_cons.1 hsorted
    obtain ⟨⟨hname, hkind⟩, hentries⟩ := List.forall_mem_cons.1 hentries
    obtain ⟨files, hcount, hwalk, hcovers⟩ := surveyEntry_tours h hname hkind ih
    have hkeeps := hwalk.keeps
    obtain ⟨files', hcount', hwalk', hcovers'⟩ :=
      ihEntries (h.keeps hkeeps) hsorted fun entry' hentry' => by
        obtain ⟨hname', hkind'⟩ := hentries entry' hentry'
        have hsome := Option.isSome_map ▸ Option.isSome_of_eq_some hkind'
        exact ⟨hname', (hkeeps.kind _ hsome).trans hkind'⟩
    refine ⟨files ++ files', ?_, hwalk.append hwalk', (hcovers.append hcovers' ?_ ?_).widen ?_ ?_⟩
    · rw [List.foldl_cons, hcount', hcount, List.length_append, Nat.add_assoc]
    · exact fun place content => hkeeps.file
    · rintro _ _ ⟨rest, rfl, -⟩ ⟨entry', hentry', rest', rfl, -⟩
      exact List.cons_lt_cons_iff.2 (.inl (hfirst entry' hentry'))
    · rintro place (hplace | ⟨entry', hentry', hplace⟩)
      · exact ⟨entry, List.mem_cons_self, hplace⟩
      · exact ⟨entry', List.mem_cons_of_mem _ hentry', hplace⟩
    · rintro place content - ⟨entry', hentry', hplace⟩
      obtain rfl | hentry' := List.mem_cons.1 hentry'
      · exact .inl hplace
      · exact .inr ⟨entry', hentry', hplace⟩

theorem surveyDir_reaches (hash : Buffer → String) (o : Options) (ds : List Definition)
    (depth : Nat) : Reaches hash o ds depth := by
  induction depth with
  | zero =>
    intro dir base acc h
    refine ⟨[], rfl, .done _, .nothing ?_⟩
    rintro place content - - ⟨hne, hlength⟩
    exact absurd (List.length_eq_zero_iff.1 (Nat.le_zero.1 hlength)) hne
  | succ depth ih =>
    intro dir base acc h
    obtain ⟨t, ht⟩ := Tree.kind_eq_dir.1 h.dir
    have hproper : t.Proper := h.proper.at? ht
    have hfound := Files.found?_eq_some.2 ⟨base, h.place, ht⟩
    obtain ⟨files, hcount, hwalk, hcovers⟩ := surveyEntries_tours h
      (Files.sorted_list hfound hproper) (fun entry hentry => by
        have hkind := (Files.mem_list hfound hproper).1 hentry
        rw [Tree.kind_append ht]
        refine ⟨?_, hkind⟩
        rw [Tree.kind_single, Option.map_map] at hkind
        obtain ⟨found, hfind, -⟩ := Option.map_eq_some_iff.1 hkind
        exact hproper.properName hfind) ih
    refine ⟨files, hcount, hwalk, hcovers.widen ?_ ?_⟩
    · rintro _ ⟨entry, -, rest, rfl, hlength⟩
      exact ⟨List.cons_ne_nil _ _, Nat.succ_le_succ hlength⟩
    · rintro place content hfile ⟨hne, hlength⟩
      obtain ⟨name, rest, rfl⟩ := List.exists_cons_of_ne_nil hne
      rw [Tree.kind_append ht] at hfile
      cases hfind : t.find? name with
      | none =>
        rw [Tree.kind_of_not_found hfind] at hfile
        cases hfile
      | some found =>
        have hentry : (name, found.content?.isNone) ∈ acc.1.files.list dir := by
          rw [Files.mem_list hfound hproper, Tree.kind_single, hfind]
          rfl
        exact ⟨_, hentry, rest, rfl, Nat.le_of_succ_le_succ hlength⟩

end Surveying

/-! ### Surveys of a directory -/

theorem loadDefinitions_eq {s : Session} {paths : List OsText} {ds : List Definition}
    (h : List.Forall₂ (fun path d => loadDefinition s.files path = .ok d) paths ds) :
    ∃ s', loadDefinitions s paths = (s', .ok ds) ∧ s.Logs s' := by
  induction paths generalizing s ds with
  | nil =>
    cases h
    exact ⟨s, rfl, .refl s⟩
  | cons path paths ih =>
    cases h with
    | cons hd hrest =>
      rename_i d ds
      have hlogs := ((s.logs_log .debug (definitionText d) (by decide)).trans
        (Session.logs_log _ .debug ("Compiled " ++ d.name ++ " from " ++ path.display)
          (by decide))).trans
        (Session.logs_log _ .info
          ("Loaded definition '" ++ d.name ++ "' (" ++ d.shortName ++ ") from " ++ path.display)
          (by decide))
      rw [← hlogs.files] at hrest
      obtain ⟨s', heq, hlogs'⟩ := ih hrest
      refine ⟨s', ?_, hlogs.trans hlogs'⟩
      rw [loadDefinitions, hd]
      dsimp only
      rw [heq]
      rfl

/-- The survey of a directory is a walk through it, with messages before and after. -/
structure Surveyed (hash : Buffer → String) (o : Options) (ds : List Definition) (fs : Files)
    (path : OsText) (t : Tree) (files : List (List OsText × Buffer)) (base : List OsText)
    (s s' : Session) : Prop where
  place : fs.root.at? base = some (.dir t)
  start : Session.Logs { files := fs, verbosity := o.verbosity } s
  walk : Walk hash o ds path base s files s'
  sorted : (files.map Prod.fst).Pairwise (· < ·)
  visible : ∀ file ∈ files, isVisible file.1 = true
  all : ∀ file ∈ t.files, isVisible file.1 = true → file.1 ∈ files.map Prod.fst
  result : survey hash o fs =
    ((s'.log .info ("Processed " ++ toString files.length ++ " files")).summarize o).result

variable {hash : Buffer → String} {o : Options} {ds : List Definition} {fs : Files} {path : OsText}
  {t : Tree}

theorem survey_directory (hash : Buffer → String) (hin : o.input = .directory path)
    (hds : List.Forall₂ (fun document d => loadDefinition fs document = .ok d) o.definitions ds)
    (hdir : fs.found? path = some (.dir t)) (hproper : fs.root.Proper) :
    ∃ files base s s', Surveyed hash o ds fs path t files base s s' := by
  obtain ⟨base, hplace, hat⟩ := Files.found?_eq_some.1 hdir
  obtain ⟨s, hload, hlogs⟩ :=
    loadDefinitions_eq (s := { files := fs, verbosity := o.verbosity }) hds
  have hfound : s.files.found? path = some (.dir t) := hlogs.files ▸ hdir
  replace hlogs := hlogs.trans
    (s.logs_log .info ("Scanning directory: " ++ path.display) (by decide))
  have hopen : Open path base (s.log .info ("Scanning directory: " ++ path.display)).files :=
    hlogs.files ▸ ⟨hplace, Tree.kind_eq_dir.2 ⟨t, hat⟩, hproper⟩
  obtain ⟨files, hcount, hwalk, hcovers⟩ := surveyDir_reaches hash o ds (depthBound fs o ds)
    path base (s.log .info ("Scanning directory: " ++ path.display), 0) hopen
  refine ⟨files, base, _, _, hat, hlogs, hwalk, hcovers.sorted, hcovers.visible, ?_, ?_⟩
  · rintro ⟨place, content⟩ hfile hvisible
    rw [Tree.mem_files (hproper.at? hat)] at hfile
    refine hcovers.all place content ?_ hvisible ⟨?_, ?_⟩
    · rw [hlogs.files, Tree.kind_append hat]
      exact hfile
    · rintro rfl
      cases hfile
    · have hlength := Tree.length_le_of_file hfile
      have hheight := Tree.height_of_at? hat
      rw [depthBound]
      omega
  · rw [survey, hload]
    dsimp only
    rw [surveyInput, hin]
    dsimp only
    rw [hfound]
    dsimp only
    rw [hlogs.files, ← Nat.zero_add files.length, ← hcount]

theorem survey_quiet (hquiet : o.verbosity = 0) (hin : o.input = .directory path)
    (hds : List.Forall₂ (fun document d => loadDefinition fs document = .ok d) o.definitions ds)
    (hdir : fs.found? path = some (.dir t)) {s : Session} {number : Nat}
    (hwalk : surveyDir hash o ds (depthBound fs o ds) path ({ files := fs, verbosity := 0 }, 0) =
      (s, number)) (hs : s.verbosity = 0) : survey hash o fs = s.result := by
  have hlog (s : Session) (hs : s.verbosity = 0) (text : String) : s.log .info text = s :=
    (s.logs_log .info text (by decide)).quiet hs
  obtain ⟨s₁, hload, hlogs⟩ := loadDefinitions_eq (s := { files := fs, verbosity := 0 }) hds
  rw [hlogs.quiet rfl] at hload
  rw [survey, hquiet, hload]
  dsimp only
  rw [surveyInput, hin]
  dsimp only
  rw [hdir]
  dsimp only
  rw [hlog { files := fs, verbosity := 0 } rfl, hwalk, hlog s hs, Session.summarize, hlog s hs,
    ite_self]

section Results
variable {files : List (List OsText × Buffer)} {base : List OsText} {s s' : Session}

theorem Surveyed.succeeds (h : Surveyed hash o ds fs path t files base s s') :
    survey hash o fs = ⟨0, (survey hash o fs).stdout, "", (survey hash o fs).files⟩ := by
  rw [h.result]
  rfl

theorem Surveyed.files_result (h : Surveyed hash o ds fs path t files base s s') :
    (survey hash o fs).files = s'.files := by
  rw [h.result, Session.result, Session.files_summarize, Session.files_log]

theorem Surveyed.stdout {least : Nat} {outputs : List String}
    (h : Surveyed hash o ds fs path t files base s s') (hleast : least ≤ 1)
    (hwalk : s.Prints least outputs s') : ∃ pieces : List Piece,
      (survey hash o fs).stdout = String.join (pieces.map Piece.text) ∧
      pieces.filterMap Piece.output? = outputs ∧
      ∀ piece ∈ pieces, piece.Shown least o.verbosity := by
  have hend := (h.start.prints.mono hleast).trans (hwalk.trans
    ((s'.prints_log .info ("Processed " ++ toString files.length ++ " files") hleast).trans
    (Session.prints_summarize hleast _ o)))
  rw [List.append_nil, List.append_nil, List.nil_append] at hend
  obtain ⟨pieces, hjoin, hpieces⟩ := hend.output
  exact ⟨pieces, h.result ▸ hjoin, hpieces⟩

/-- Where nothing is written, the visible files are visited as they are. -/
theorem Surveyed.perm (h : Surveyed hash o ds fs path t files base s s') (ht : t.Proper)
    (hmode : o.detectOnly = true ∨ o.output = none) :
    files.Perm (t.files.filter fun file => isVisible file.1) := by
  obtain ⟨-, hfiles⟩ := h.walk.files_eq hmode
  rw [h.start.files] at hfiles
  have hne {place place' : List OsText} (hlt : place < place') : place ≠ place' := by
    rintro rfl
    exact List.lt_irrefl _ hlt
  have hplaces : (files.map Prod.fst).Nodup := h.sorted.imp hne
  rw [List.perm_ext_iff_of_nodup hplaces.of_map ((Tree.nodup_files ht).filter _)]
  rintro ⟨place, content⟩
  have hkind {content : Buffer} (hmem : (place, content) ∈ files) :
      t.kind place = some (some content) :=
    Tree.kind_append h.place place ▸ hfiles _ hmem
  rw [List.mem_filter, Tree.mem_files ht]
  constructor
  · intro hmem
    exact ⟨hkind hmem, h.visible _ hmem⟩
  · rintro ⟨hfile, hvisible⟩
    obtain ⟨⟨place, content'⟩, hmem, rfl⟩ := List.mem_map.1
      (h.all (place, content) ((Tree.mem_files ht).2 hfile) hvisible)
    rw [hkind hmem, Option.some.injEq, Option.some.injEq] at hfile
    exact hfile ▸ hmem

end Results

end Dissect.Survey
