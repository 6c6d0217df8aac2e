import Dissect.Proofs.Octets
import Dissect.Proofs.Trees
import Mathlib.Tactic.Basic

/-! Paths and the places they lead to. A path leads to the same place as long as directories stay
directories, and neither a new directory nor a file that is written takes one away. -/
namespace Dissect.Survey

namespace Path

theorem names_ne_nil (path : OsText) : names path ≠ [] :=
  fun h => List.splitOn_ne_nil slash path.octets (List.map_eq_nil_iff.1 h)

theorem not_mem_of_mem_splitOn {sep : UInt8} {octets part : List UInt8}
    (h : part ∈ octets.splitOn sep) : sep ∉ part := by
  induction octets generalizing part with
  | nil =>
    rw [List.splitOn_nil, List.mem_singleton] at h
    simp [h]
  | cons o octets ih =>
    rw [List.splitOn_cons_eq_if_modifyHead] at h
    split at h
    · obtain rfl | h := List.mem_cons.1 h
      · exact List.not_mem_nil
      · exact ih h
    · rename_i hne
      cases hparts : octets.splitOn sep with
      | nil => exact absurd hparts (List.splitOn_ne_nil sep octets)
      | cons first parts =>
        rw [hparts] at h ih
        obtain rfl | h := List.mem_cons.1 h
        · exact List.not_mem_cons_of_ne_of_not_mem (fun heq => hne (beq_iff_eq.2 heq.symm))
            (ih List.mem_cons_self)
        · exact ih (List.mem_cons_of_mem _ h)

theorem no_slash {path name : OsText} (h : name ∈ names path) : slash ∉ name.octets := by
  obtain ⟨part, hpart, rfl⟩ := List.mem_map.1 h
  exact not_mem_of_mem_splitOn hpart

theorem names_join (dir : OsText) {name : OsText} (hname : slash ∉ name.octets) :
    ∃ before, (names dir = before ∨ names dir = before ++ [("" : OsText)]) ∧
      names (join dir name) = before ++ [name] := by
  have hpart : (name.octets.splitOn slash).map OsText.mk = [name] := by
    rw [List.splitOn_eq_singleton hname, List.map_singleton]
  rw [join]
  split
  · rename_i hslash
    obtain ⟨front, hfront⟩ := List.getLast?_eq_some_iff.1 hslash
    refine ⟨(front.splitOn slash).map .mk, .inr ?_, ?_⟩
    · rw [names, hfront, List.splitOn_append_cons_self, List.map_append]
      rfl
    · rw [names, OsText.octets_append, hfront, List.append_assoc, List.singleton_append,
        List.splitOn_append_cons_self, List.map_append, hpart]
  · refine ⟨names dir, .inl rfl, ?_⟩
    have hslash : (OsText.ofString "/").octets = [slash] := rfl
    rw [names, OsText.octets_append, OsText.octets_append, hslash, List.append_assoc,
      List.singleton_append, List.splitOn_append_cons_self, List.map_append, hpart, names]

theorem octets_ne_nil {path : OsText} (hpath : path ≠ "") : path.octets ≠ [] :=
  fun h => hpath (OsText.ext_octets h)

theorem head?_join {dir : OsText} (hdir : dir ≠ "") (name : OsText) :
    (join dir name).octets.head? = dir.octets.head? := by
  have hhead (rest : OsText) : (dir ++ rest).octets.head? = dir.octets.head? := by
    rw [OsText.octets_append, List.head?_append_of_ne_nil _ (octets_ne_nil hdir)]
  rw [join]
  split
  · exact hhead name
  · rw [OsText.octets_append, OsText.octets_append, List.append_assoc]
    exact hhead ("/" ++ name)

end Path

def Tree.Admits (root : Tree) (place : List OsText) : Prop :=
  root.kind place = some none ∨
    ∃ dir name, place = dir ++ [name] ∧ root.kind dir = some none ∧ ProperName name

namespace Files
variable {fs fs' : Files} {root : Tree} {here place : List OsText} {path name : OsText}

/-! ### Following names -/

/-- Where a name leads from a directory. -/
inductive Leads (here : List OsText) (name : OsText) : List OsText → Prop
  | stay : name = "" ∨ name = "." → Leads here name here
  | up : name = ".." → Leads here name here.dropLast
  | down : ¬(name = "" ∨ name = ".") → name ≠ ".." → name.octets.length ≤ 255 →
    Leads here name (here ++ [name])

theorem follow_cons {rest : List OsText} {r : List OsText × Option Found} :
    follow root here (name :: rest) = .ok r ↔
      root.kind here = some none ∧
        ∃ next, Leads here name next ∧ follow root next rest = .ok r := by
  rw [follow, Tree.kind_eq_dir]
  constructor
  · intro h
    split at h
    · cases h
    · cases h
    · rename_i inner hat
      refine ⟨⟨inner, hat⟩, ?_⟩
      split at h
      · exact ⟨here, .stay ‹_›, h⟩
      · split at h
        · exact ⟨_, .up ‹_›, h⟩
        · split at h
          · cases h
          · exact ⟨_, .down ‹_› ‹_› (Nat.le_of_not_lt ‹_›), h⟩
  · rintro ⟨⟨inner, hat⟩, next, hnext, h⟩
    rw [hat]
    cases hnext with
    | stay hstay => exact (if_pos hstay).trans h
    | up hup =>
      subst hup
      exact h
    | down hstay hup hshort =>
      exact ((if_neg hstay).trans ((if_neg hup).trans (if_neg (Nat.not_lt.2 hshort)))).trans h

theorem follow_found {names : List OsText} {found : Option Found}
    (h : follow root here names = .ok (place, found)) : found = root.at? place := by
  induction names generalizing here with
  | nil =>
    cases h
    rfl
  | cons name rest ih =>
    obtain ⟨-, next, -, hrest⟩ := follow_cons.1 h
    exact ih hrest

theorem follow_append {names more : List OsText} {r : List OsText × Option Found} :
    follow root here (names ++ more) = .ok r ↔
      ∃ mid, follow root here names = .ok mid ∧ follow root mid.1 more = .ok r := by
  induction names generalizing here with
  | nil => simp [follow]
  | cons name rest ih =>
    rw [List.cons_append, follow_cons]
    simp only [follow_cons, ih]
    constructor
    · rintro ⟨hdir, next, hnext, mid, hmid, hmore⟩
      exact ⟨mid, ⟨hdir, next, hnext, hmid⟩, hmore⟩
    · rintro ⟨mid, ⟨hdir, next, hnext, hmid⟩, hmore⟩
      exact ⟨hdir, next, hnext, mid, hmid, hmore⟩

/-- Only the directories on the way count. -/
theorem follow_keeps {root' : Tree}
    (hdirs : ∀ p, root.kind p = some none → root'.kind p = some none)
    {names : List OsText} {found : Option Found}
    (h : follow root here names = .ok (place, found)) :
    follow root' here names = .ok (place, root'.at? place) := by
  induction names generalizing here with
  | nil =>
    cases h
    rfl
  | cons name rest ih =>
    obtain ⟨hdir, next, hnext, hrest⟩ := follow_cons.1 h
    exact follow_cons.2 ⟨hdirs here hdir, next, hnext, ih hrest⟩

theorem follow_admits {names : List OsText} (hslash : ∀ name ∈ names, Path.slash ∉ name.octets)
    (hhere : names = [] → root.Admits here) {found : Option Found}
    (h : follow root here names = .ok (place, found)) : root.Admits place := by
  induction names generalizing here with
  | nil =>
    cases h
    exact hhere rfl
  | cons name rest ih =>
    obtain ⟨hdir, next, hnext, hrest⟩ := follow_cons.1 h
    refine ih (fun n hn => hslash n (List.mem_cons_of_mem _ hn)) (fun _ => ?_) hrest
    cases hnext with
    | stay => exact .inl hdir
    | up => exact .inl (Tree.kind_dropLast hdir)
    | down hstay hup hshort =>
      obtain ⟨hempty, hdot⟩ := not_or.1 hstay
      exact .inr ⟨here, name, rfl, hdir, hempty, hdot, hup, hslash name List.mem_cons_self, hshort⟩

/-! ### Places -/

def place? (fs : Files) (path : OsText) : Option (List OsText) :=
  (fs.resolve path).toOption.map Prod.fst

theorem resolve_found {found : Option Found} (h : fs.resolve path = .ok (place, found)) :
    found = fs.root.at? place := by
  rw [resolve] at h
  split at h
  · cases h
  · exact follow_found h

theorem place?_eq_some :
    fs.place? path = some place ↔ fs.resolve path = .ok (place, fs.root.at? place) := by
  rw [place?]
  cases hresolve : fs.resolve path with
  | error fault => simp [Except.toOption]
  | ok r =>
    obtain ⟨place', found⟩ := r
    rw [resolve_found hresolve]
    simp only [Except.toOption, Option.map_some, Option.some.injEq, Except.ok.injEq, Prod.mk.injEq]
    constructor
    · rintro rfl
      exact ⟨rfl, rfl⟩
    · exact And.left

theorem found?_eq_some {found : Found} : fs.found? path = some found ↔
    ∃ place, fs.place? path = some place ∧ fs.root.at? place = some found := by
  simp only [place?_eq_some]
  rw [found?]
  cases hresolve : fs.resolve path with
  | error fault => simp
  | ok r =>
    obtain ⟨place, found'⟩ := r
    rw [resolve_found hresolve]
    simp only [Except.ok.injEq, Prod.mk.injEq]
    constructor
    · intro h
      exact ⟨place, ⟨rfl, rfl⟩, h⟩
    · rintro ⟨_, ⟨rfl, -⟩, h⟩
      exact h

theorem place?_eq_follow (hpath : path ≠ "") : fs.place? path = some place ↔
    follow fs.root (if path.octets.head? = some Path.slash then [] else fs.home) (Path.names path) =
      .ok (place, fs.root.at? place) := by
  rw [place?_eq_some, resolve, if_neg hpath]

theorem ne_empty_of_place? (h : fs.place? path = some place) : path ≠ "" := by
  rintro rfl
  cases h

theorem place?_join {dir : OsText} (hdir : fs.place? dir = some place)
    (hkind : fs.root.kind place = some none) (hname : ProperName name) :
    fs.place? (Path.join dir name) = some (place ++ [name]) := by
  have hne : dir ≠ "" := ne_empty_of_place? hdir
  have hjoin : Path.join dir name ≠ "" := by
    intro h
    have hhead := Path.head?_join hne name
    rw [h] at hhead
    exact Path.octets_ne_nil hne (List.head?_eq_none_iff.1 hhead.symm)
  rw [place?_eq_follow hne] at hdir
  rw [place?_eq_follow hjoin, Path.head?_join hne]
  obtain ⟨before, hnames, hentry⟩ := Path.names_join dir hname.no_slash
  have hdown : Leads place name (place ++ [name]) :=
    .down (not_or.2 ⟨hname.ne_empty, hname.ne_here⟩) hname.ne_above hname.short
  have hstep : follow fs.root place [name] =
      .ok (place ++ [name], fs.root.at? (place ++ [name])) :=
    follow_cons.2 ⟨hkind, _, hdown, rfl⟩
  rw [hentry, follow_append]
  obtain hnames | hnames := hnames
  · rw [hnames] at hdir
    exact ⟨_, hdir, hstep⟩
  · -- A slash at the end stays where it is.
    rw [hnames, follow_append] at hdir
    obtain ⟨mid, hmid, hempty⟩ := hdir
    refine ⟨mid, hmid, ?_⟩
    obtain ⟨-, next, hnext, hend⟩ := follow_cons.1 hempty
    have hstay : next = mid.1 := by
      cases hnext with
      | stay => rfl
      | up h => exact absurd h (by decide)
      | down h => exact absurd (.inl rfl) h
    rw [hstay] at hend
    cases hend
    exact hstep

theorem place?_admits (h : fs.place? path = some place) : fs.root.Admits place := by
  rw [place?_eq_follow (ne_empty_of_place? h)] at h
  exact follow_admits (fun _ => Path.no_slash) (fun h => absurd h (Path.names_ne_nil path)) h

/-! ### Entries of a directory -/

theorem mem_list {t : Tree} (hdir : fs.found? path = some (.dir t)) (ht : t.Proper)
    {isDir : Bool} :
    (name, isDir) ∈ fs.list path ↔ (t.kind [name]).map Option.isNone = some isDir := by
  rw [list, hdir, (List.mergeSort_perm _ _).mem_iff, Tree.mem_entries ht]

theorem sorted_list {t : Tree} (hdir : fs.found? path = some (.dir t)) (ht : t.Proper) :
    (fs.list path).Pairwise fun entry entry' => entry.1 < entry'.1 := by
  rw [list, hdir]
  have hsorted : (t.entries.mergeSort fun a b => decide (a.1 ≤ b.1)).Pairwise
      fun a b => decide (a.1 ≤ b.1) = true :=
    List.pairwise_mergeSort
      (fun a b c => by simpa only [decide_eq_true_eq] using OsText.le_trans)
      (fun a b => by simpa only [Bool.or_eq_true, decide_eq_true_eq] using OsText.le_total a.1 b.1)
      t.entries
  have hdistinct := (((List.mergeSort_perm t.entries fun a b => decide (a.1 ≤ b.1)).map
    Prod.fst).nodup_iff).2 (Tree.nodup_entries ht)
  rw [List.Nodup, List.pairwise_map] at hdistinct
  exact hsorted.imp₂
    (fun _ _ hle hne => OsText.lt_of_le_of_ne (of_decide_eq_true hle) hne) hdistinct

/-! ### Changes -/

structure Keeps (fs fs' : Files) : Prop where
  home : fs'.home = fs.home
  kind : ∀ place, (fs.root.kind place).isSome →
    (fs'.root.kind place).map Option.isNone = (fs.root.kind place).map Option.isNone
  proper : fs.root.Proper → fs'.root.Proper

structure Grows (fs fs' : Files) : Prop where
  home : fs'.home = fs.home
  kind : ∀ place, (fs.root.kind place).isSome → fs'.root.kind place = fs.root.kind place
  proper : fs.root.Proper → fs'.root.Proper

/-- One place changes, which is no directory before. -/
structure Puts (place : List OsText) (content : Option Buffer) (fs fs' : Files) : Prop where
  home : fs'.home = fs.home
  before : fs.root.kind place ≠ some none
  kind : ∀ p, fs'.root.kind p = if p = place then some content else fs.root.kind p
  proper : fs.root.Proper → fs'.root.Proper

theorem Keeps.refl (fs : Files) : Keeps fs fs := ⟨rfl, fun _ _ => rfl, id⟩

theorem Keeps.isSome (h : Keeps fs fs') (hplace : (fs.root.kind place).isSome) :
    (fs'.root.kind place).isSome := by
  rw [← Option.isSome_map (f := Option.isNone), h.kind place hplace, Option.isSome_map]
  exact hplace

theorem Keeps.trans {fs'' : Files} (h : Keeps fs fs') (h' : Keeps fs' fs'') : Keeps fs fs'' :=
  ⟨h'.home.trans h.home, fun p hp => (h'.kind p (h.isSome hp)).trans (h.kind p hp),
    fun hproper => h'.proper (h.proper hproper)⟩

theorem Grows.refl (fs : Files) : Grows fs fs := ⟨rfl, fun _ _ => rfl, id⟩

theorem Grows.trans {fs'' : Files} (h : Grows fs fs') (h' : Grows fs' fs'') : Grows fs fs'' := by
  refine ⟨h'.home.trans h.home, fun p hp => ?_, fun hproper => h'.proper (h.proper hproper)⟩
  rw [h'.kind p (h.kind p hp ▸ hp), h.kind p hp]

theorem Grows.keeps (h : Grows fs fs') : Keeps fs fs' :=
  ⟨h.home, fun p hp => congrArg _ (h.kind p hp), h.proper⟩

theorem Puts.keeps {content : Buffer} (h : Puts place (some content) fs fs') : Keeps fs fs' := by
  refine ⟨h.home, fun p hp => ?_, h.proper⟩
  rw [h.kind]
  split
  · rename_i hplace
    subst hplace
    obtain ⟨old, hold⟩ := Option.isSome_iff_exists.1 hp
    cases old with
    | none => exact absurd hold h.before
    | some bytes => rw [hold]; rfl
  · rfl

theorem Puts.grows (h : Puts place none fs fs') (hnew : fs.root.kind place = none) :
    Grows fs fs' := by
  refine ⟨h.home, fun p hp => ?_, h.proper⟩
  rw [h.kind, if_neg]
  rintro rfl
  rw [hnew] at hp
  cases hp

theorem Keeps.dir (h : Keeps fs fs') (hdir : fs.root.kind place = some none) :
    fs'.root.kind place = some none := by
  have hkind := h.kind place (hdir ▸ rfl)
  rw [hdir] at hkind
  obtain ⟨content, hcontent, hnone⟩ := Option.map_eq_some_iff.1 hkind
  rw [hcontent, Option.isNone_iff_eq_none.1 hnone]

theorem Keeps.file (h : Keeps fs fs') {content : Buffer}
    (hfile : fs.root.kind place = some (some content)) :
    ∃ content', fs'.root.kind place = some (some content') := by
  have hkind := h.kind place (hfile ▸ rfl)
  rw [hfile] at hkind
  obtain ⟨content', hcontent, hsome⟩ := Option.map_eq_some_iff.1 hkind
  obtain ⟨bytes, rfl⟩ := Option.isSome_iff_exists.1 (Option.isNone_eq_false_iff.1 hsome)
  exact ⟨bytes, hcontent⟩

theorem Keeps.place? (h : Keeps fs fs') (hplace : fs.place? path = some place) :
    fs'.place? path = some place := by
  have hne := ne_empty_of_place? hplace
  rw [place?_eq_follow hne] at hplace ⊢
  rw [h.home]
  exact follow_keeps (fun p => h.dir) hplace

theorem puts_put (content : Option Buffer) (hplace : fs.place? path = some place)
    (hbefore : fs.root.kind place ≠ some none) :
    Puts place content fs { fs with root := fs.root.put content place } := by
  obtain hdir | ⟨dir, name, rfl, hdir, hname⟩ := place?_admits hplace
  · exact absurd hdir hbefore
  · exact ⟨rfl, hbefore, Tree.kind_put content hdir hbefore,
      fun hproper => hproper.put content hdir hname⟩

theorem write_eq_ok {content : Buffer} (h : fs.write path content = .ok fs') :
    ∃ place, fs.place? path = some place ∧ Puts place (some content) fs fs' := by
  rw [write] at h
  split at h
  · cases h
  · cases h
  · rename_i place found hdir hresolve
    have hplace := place?_eq_some.2 (resolve_found hresolve ▸ hresolve)
    cases h
    refine ⟨place, hplace, puts_put _ hplace fun hkind => ?_⟩
    obtain ⟨inner, hinner⟩ := Tree.kind_eq_dir.1 hkind
    exact hdir inner (by rw [resolve_found hresolve, hinner])

theorem makeDir_grows (h : fs.makeDir path = .ok fs') : Grows fs fs' := by
  rw [makeDir] at h
  split at h
  · cases h
  · cases h
  · rename_i place hresolve
    have hnone : fs.root.at? place = none := (resolve_found hresolve).symm
    have hkind : fs.root.kind place = none := by rw [Tree.kind, hnone]; rfl
    have hplace := place?_eq_some.2 (resolve_found hresolve ▸ hresolve)
    cases h
    exact (puts_put none hplace (hkind ▸ by simp)).grows hkind

theorem makeDirs_grows (fs : Files) (paths : List OsText) : Grows fs (fs.makeDirs paths).1 := by
  induction paths generalizing fs with
  | nil => exact .refl fs
  | cons path parents ih =>
    rw [makeDirs]
    split
    · exact makeDir_grows ‹_›
    · split
      · exact .refl fs
      · have hparents := ih fs
        split
        · rename_i hmade
          rwa [hmade] at hparents
        · rename_i hmade
          rw [hmade] at hparents
          split
          · exact hparents.trans (makeDir_grows ‹_›)
          · exact hparents
    · exact .refl fs

end Files

end Dissect.Survey
