import Dissect.Survey.Files
import Mathlib.Data.List.Nodup
import Mathlib.Tactic.Basic

/-! Trees by their places. A place is nothing, a directory or a file with its content, and what is
put into a tree changes one place. -/
namespace Dissect.Survey

def Found.content? : Found → Option Buffer
  | .file content => some content
  | .dir _ => none

/-- A name that a file or a directory can have. -/
structure ProperName (name : OsText) : Prop where
  ne_empty : name ≠ ""
  ne_here : name ≠ "."
  ne_above : name ≠ ".."
  no_slash : Path.slash ∉ name.octets
  short : name.octets.length ≤ 255

instance (name : OsText) : Decidable (ProperName name) :=
  decidable_of_iff (name ≠ "" ∧ name ≠ "." ∧ name ≠ ".." ∧ Path.slash ∉ name.octets ∧
      name.octets.length ≤ 255)
    ⟨fun ⟨h₁, h₂, h₃, h₄, h₅⟩ => ⟨h₁, h₂, h₃, h₄, h₅⟩,
      fun ⟨h₁, h₂, h₃, h₄, h₅⟩ => ⟨h₁, h₂, h₃, h₄, h₅⟩⟩

namespace Tree
variable {t inner : Tree} {name : OsText} {place : List OsText}

/-- What is at a place: nothing, or the content of a file, or a directory without any. -/
def kind (t : Tree) (place : List OsText) : Option (Option Buffer) :=
  (t.at? place).map Found.content?

theorem kind_cons (t : Tree) (name : OsText) (place : List OsText) :
    t.kind (name :: place) = match t.find? name with
      | some (.dir inner) => inner.kind place
      | some (.file content) => if place = [] then some (some content) else none
      | none => none := by
  rw [kind, at?]
  cases t.find? name with
  | none => rfl
  | some found =>
    cases found with
    | dir inner => rfl
    | file content => cases place <;> rfl

theorem kind_of_dir (h : t.find? name = some (.dir inner)) :
    t.kind (name :: place) = inner.kind place := by
  rw [kind_cons, h]

theorem kind_eq_dir : t.kind place = some none ↔ ∃ inner, t.at? place = some (.dir inner) := by
  rw [kind, Option.map_eq_some_iff]
  constructor
  · rintro ⟨found, hfound, hnone⟩
    cases found with
    | dir inner => exact ⟨inner, hfound⟩
    | file content => cases hnone
  · rintro ⟨inner, hinner⟩
    exact ⟨.dir inner, hinner, rfl⟩

theorem kind_eq_file {content : Buffer} :
    t.kind place = some (some content) ↔ t.at? place = some (.file content) := by
  rw [kind, Option.map_eq_some_iff]
  constructor
  · rintro ⟨found, hfound, hsome⟩
    cases found with
    | dir inner => cases hsome
    | file content =>
      cases hsome
      exact hfound
  · intro h
    exact ⟨.file content, h, rfl⟩

theorem find?_of_kind (h : t.kind (name :: place) = some none) :
    ∃ inner, t.find? name = some (.dir inner) ∧ inner.kind place = some none := by
  rw [kind_cons] at h
  split at h
  · exact ⟨_, ‹_›, h⟩
  · split at h <;> cases h
  · cases h

theorem kind_beyond {more : List OsText} (h : t.kind place ≠ some none) (hmore : more ≠ []) :
    t.kind (place ++ more) = none := by
  induction place generalizing t with
  | nil => exact absurd rfl h
  | cons name place ih =>
    rw [kind_cons] at h
    rw [List.cons_append, kind_cons]
    split
    · rename_i hfind
      rw [hfind] at h
      exact ih h
    · exact if_neg (List.append_ne_nil_of_right_ne_nil place hmore)
    · rfl

theorem kind_dropLast (h : t.kind place = some none) : t.kind place.dropLast = some none := by
  induction place generalizing t with
  | nil => exact h
  | cons name place ih =>
    cases place with
    | nil => rfl
    | cons next rest =>
      obtain ⟨inner, hfind, hinner⟩ := find?_of_kind h
      rw [List.dropLast_cons_cons, kind_of_dir hfind]
      exact ih hinner

theorem at?_append (h : t.at? place = some (.dir inner)) (more : List OsText) :
    t.at? (place ++ more) = inner.at? more := by
  induction place generalizing t with
  | nil =>
    cases h
    rfl
  | cons name place ih =>
    obtain ⟨next, hfind, -⟩ := find?_of_kind (kind_eq_dir.2 ⟨inner, h⟩)
    rw [at?, hfind] at h
    rw [List.cons_append, at?, hfind]
    exact ih h

theorem kind_append (h : t.at? place = some (.dir inner)) (more : List OsText) :
    t.kind (place ++ more) = inner.kind more := by
  rw [kind, kind, at?_append h]

/-! ### What is put into a tree -/

theorem find?_putFile (name' : OsText) (content : Buffer) (t : Tree) :
    (t.putFile name' content).find? name =
      if name' = name then some (.file content) else t.find? name := by
  induction t with
  | nil => rfl
  | file n c rest ih => grind [putFile, find?]
  | dir n inner rest _ ih => grind [putFile, find?]

theorem find?_putDir (name' : OsText) (inner t : Tree) :
    (putDir name' inner t).find? name =
      if name' = name then some (.dir inner) else t.find? name := by
  induction t with
  | nil => rfl
  | file n c rest ih => grind [putDir, find?]
  | dir n inner' rest _ ih => grind [putDir, find?]

theorem put_single (content : Option Buffer) (name' : OsText) (t : Tree) :
    (put content [name'] t).find? name =
      if name' = name then some (content.elim (.dir .nil) .file) else t.find? name := by
  cases content with
  | none => exact find?_putDir name' .nil t
  | some bytes => exact find?_putFile name' bytes t

theorem put_cons (content : Option Buffer) (hplace : place ≠ [])
    (h : t.find? name = some (.dir inner)) :
    put content (name :: place) t = putDir name (put content place inner) t := by
  cases place with
  | nil => exact absurd rfl hplace
  | cons next rest =>
    rw [put, h]
    exact hplace

/-- What is put in a directory under a name that is no directory is at this place alone. -/
theorem kind_put (content : Option Buffer) {dir : List OsText} (hdir : t.kind dir = some none)
    (hnew : t.kind (dir ++ [name]) ≠ some none) (place : List OsText) :
    (put content (dir ++ [name]) t).kind place =
      if place = dir ++ [name] then some content else t.kind place := by
  induction dir generalizing t place with
  | nil =>
    cases place with
    | nil => rfl
    | cons name' more =>
      rw [List.nil_append, kind_cons, put_single]
      by_cases hname : name = name'
      · -- Behind the place there is nothing, before and afterwards.
        subst hname
        rw [if_pos rfl]
        cases more with
        | nil =>
          rw [if_pos rfl]
          cases content <;> rfl
        | cons next rest =>
          have hbeyond : t.kind (name :: next :: rest) = none := kind_beyond hnew (by simp)
          rw [if_neg (by simp), hbeyond]
          cases content <;> rfl
      · rw [if_neg hname, ← kind_cons, if_neg (fun h => hname (List.cons.inj h).1.symm)]
  | cons first dir ih =>
    obtain ⟨inner, hinner, hdir⟩ := find?_of_kind hdir
    rw [List.cons_append, kind_of_dir hinner] at hnew
    rw [List.cons_append, put_cons content (by simp) hinner]
    cases place with
    | nil => rfl
    | cons name' more =>
      rw [kind_cons, find?_putDir]
      by_cases hname : first = name'
      · subst hname
        rw [if_pos rfl, kind_of_dir hinner]
        simp only [List.cons.injEq, true_and]
        exact ih hdir hnew more
      · rw [if_neg hname, ← kind_cons, if_neg (fun h => hname (List.cons.inj h).1.symm)]

/-! ### Trees with proper names -/

def Proper : Tree → Prop
  | nil => True
  | file name _ rest => ProperName name ∧ rest.find? name = none ∧ rest.Proper
  | dir name inner rest =>
    ProperName name ∧ rest.find? name = none ∧ inner.Proper ∧ rest.Proper

instance Proper.decidable : (t : Tree) → Decidable t.Proper
  | nil => .isTrue trivial
  | file name _ rest =>
    have := Proper.decidable rest
    have := Option.decidableEqNone (o := rest.find? name)
    inferInstanceAs (Decidable (ProperName name ∧ rest.find? name = none ∧ rest.Proper))
  | dir name inner rest =>
    have := Proper.decidable inner
    have := Proper.decidable rest
    have := Option.decidableEqNone (o := rest.find? name)
    inferInstanceAs (Decidable
      (ProperName name ∧ rest.find? name = none ∧ inner.Proper ∧ rest.Proper))

theorem Proper.properName (h : t.Proper) {found : Found} (hfind : t.find? name = some found) :
    ProperName name := by
  induction t with
  | nil => cases hfind
  | file n c rest ih => grind [Proper, find?]
  | dir n inner rest _ ih => grind [Proper, find?]

theorem Proper.inside (h : t.Proper) (hfind : t.find? name = some (.dir inner)) :
    inner.Proper := by
  induction t with
  | nil => cases hfind
  | file n c rest ih => grind [Proper, find?]
  | dir n inner' rest _ ih => grind [Proper, find?]

theorem Proper.at? (h : t.Proper) (hplace : t.at? place = some (.dir inner)) : inner.Proper := by
  induction place generalizing t with
  | nil =>
    cases hplace
    exact h
  | cons name place ih =>
    obtain ⟨next, hfind, -⟩ := find?_of_kind (kind_eq_dir.2 ⟨inner, hplace⟩)
    rw [Tree.at?, hfind] at hplace
    exact ih (h.inside hfind) hplace

theorem Proper.putFile (h : t.Proper) (hname : ProperName name) (content : Buffer) :
    (t.putFile name content).Proper := by
  induction t with
  | nil => exact ⟨hname, rfl, trivial⟩
  | file n c rest ih => grind [Proper, Tree.putFile, find?_putFile]
  | dir n inner rest _ ih => grind [Proper, Tree.putFile, find?_putFile]

theorem Proper.putDir (h : t.Proper) (hname : ProperName name) (hinner : inner.Proper) :
    (Tree.putDir name inner t).Proper := by
  induction t with
  | nil => exact ⟨hname, rfl, hinner, trivial⟩
  | file n c rest ih => grind [Proper, Tree.putDir, find?_putDir]
  | dir n inner' rest _ ih => grind [Proper, Tree.putDir, find?_putDir]

theorem Proper.put (h : t.Proper) (content : Option Buffer) {dir : List OsText}
    (hdir : t.kind dir = some none) (hname : ProperName name) :
    (Tree.put content (dir ++ [name]) t).Proper := by
  induction dir generalizing t with
  | nil =>
    cases content with
    | none => exact h.putDir hname trivial
    | some bytes => exact h.putFile hname bytes
  | cons first dir ih =>
    obtain ⟨inner, hfind, hinner⟩ := find?_of_kind hdir
    rw [List.cons_append, put_cons content (by simp) hfind]
    exact h.putDir (h.properName hfind) (ih (h.inside hfind) hinner)

/-! ### Entries and files -/

theorem kind_single : t.kind [name] = (t.find? name).map Found.content? := by
  rw [kind_cons]
  cases t.find? name with
  | none => rfl
  | some found => cases found <;> rfl

theorem mem_entries (h : t.Proper) {isDir : Bool} :
    (name, isDir) ∈ t.entries ↔ (t.kind [name]).map Option.isNone = some isDir := by
  rw [kind_single]
  induction t with
  | nil => simp [entries, find?]
  | file n c rest ih => grind [Proper, entries, find?, Found.content?]
  | dir n inner rest _ ih => grind [Proper, entries, find?, Found.content?]

theorem nodup_entries (h : t.Proper) : (t.entries.map Prod.fst).Nodup := by
  have hfresh {rest : Tree} {name : OsText} (hrest : rest.Proper)
      (hname : rest.find? name = none) : name ∉ rest.entries.map Prod.fst := by
    intro hmem
    obtain ⟨⟨_, isDir⟩, hentry, rfl⟩ := List.mem_map.1 hmem
    rw [mem_entries hrest, kind_single, hname] at hentry
    cases hentry
  induction t with
  | nil => exact List.nodup_nil
  | file n c rest ih => grind [Proper, entries]
  | dir n inner rest _ ih => grind [Proper, entries]

theorem kind_of_not_found (h : t.find? name = none) : t.kind (name :: place) = none := by
  rw [kind_cons, h]

theorem mem_files (h : t.Proper) {content : Buffer} :
    (place, content) ∈ t.files ↔ t.kind place = some (some content) := by
  induction t generalizing place with
  | nil => cases place <;> simp [files, kind, at?, find?, Found.content?]
  | file n c rest ih =>
    obtain ⟨-, hfresh, hrest⟩ := h
    rw [files, List.mem_cons, ih hrest, Prod.mk.injEq]
    cases place with
    | nil => simp [kind, at?, Found.content?]
    | cons name more =>
      by_cases hname : n = name
      · subst hname
        rw [kind_of_not_found hfresh, kind_cons, find?, if_pos rfl]
        cases more <;> simp [eq_comm]
      · rw [kind_cons, kind_cons, find?, if_neg hname]
        simp [Ne.symm hname]
  | dir n inner rest ihInner ihRest =>
    obtain ⟨-, hfresh, hinner, hrest⟩ := h
    rw [files, List.mem_append, ihRest hrest, List.mem_map]
    cases place with
    | nil => simp [kind, at?, Found.content?]
    | cons name more =>
      by_cases hname : n = name
      · subst hname
        rw [kind_of_not_found hfresh, kind_cons, find?, if_pos rfl]
        simp [ihInner hinner]
      · rw [kind_cons, kind_cons, find?, if_neg hname]
        simp [hname]

theorem nodup_files (h : t.Proper) : t.files.Nodup := by
  induction t with
  | nil => exact List.nodup_nil
  | file n c rest ih =>
    obtain ⟨-, hfresh, hrest⟩ := h
    refine List.nodup_cons.2 ⟨?_, ih hrest⟩
    rw [mem_files hrest, kind_of_not_found hfresh]
    simp
  | dir n inner rest ihInner ihRest =>
    obtain ⟨-, hfresh, hinner, hrest⟩ := h
    refine List.nodup_append.2 ⟨?_, ihRest hrest, ?_⟩
    · refine (ihInner hinner).map ?_
      rintro ⟨place, content⟩ ⟨place', content'⟩ heq
      simpa using heq
    · rintro _ hfile ⟨place, content⟩ hmem rfl
      obtain ⟨⟨more, bytes⟩, -, heq⟩ := List.mem_map.1 hfile
      cases heq
      rw [mem_files hrest, kind_of_not_found hfresh] at hmem
      cases hmem

theorem height_of_find? (h : t.find? name = some (.dir inner)) : inner.height + 1 ≤ t.height := by
  induction t with
  | nil => cases h
  | file n c rest ih => grind [find?, height]
  | dir n inner' rest _ ih => grind [find?, height]

theorem height_of_at? (h : t.at? place = some (.dir inner)) :
    place.length + inner.height ≤ t.height := by
  induction place generalizing t with
  | nil =>
    cases h
    exact Nat.le_of_eq (Nat.zero_add _)
  | cons name place ih =>
    obtain ⟨next, hfind, -⟩ := find?_of_kind (kind_eq_dir.2 ⟨inner, h⟩)
    rw [at?, hfind] at h
    have hinner := ih h
    have hnext := height_of_find? hfind
    rw [List.length_cons]
    omega

/-- A file does not lie deeper than directories are nested. -/
theorem length_le_of_file {content : Buffer} (h : t.kind place = some (some content)) :
    place.length ≤ t.height + 1 := by
  induction place generalizing t with
  | nil => exact Nat.zero_le _
  | cons name place ih =>
    rw [kind_cons] at h
    split at h
    · have hinner := ih h
      have hheight := height_of_find? ‹_›
      rw [List.length_cons]
      omega
    · split at h
      · rename_i hnil
        rw [hnil]
        exact Nat.le_add_left 1 _
      · cases h
    · cases h

end Tree

end Dissect.Survey
