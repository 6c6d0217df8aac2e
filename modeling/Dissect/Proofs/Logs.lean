import Dissect.Machine.Run
import Mathlib.Data.List.Induction
import Mathlib.Data.List.Nodup

/-! Logs of what a run writes. A log says which lines were written, to which tab if to any, and
when a tab was asked for; from it alone follows what is delivered, in which pieces and in which
order. -/
namespace Dissect

inductive Mark where
  | wrote (tab : Option String) (line : Line)
  | insert (tab : String)
  deriving DecidableEq, Repr

def Mark.loose? : Mark → Option Line
  | .wrote none line => some line
  | _ => none

def Mark.into? (name : String) : Mark → Option Line
  | .wrote (some tab) line => if tab = name then some line else none
  | _ => none

abbrev Log := List Mark

namespace Log

def looseLines (log : Log) : List Line := log.filterMap Mark.loose?

def linesInto (name : String) (log : Log) : List Line := log.filterMap (Mark.into? name)

/-- The lines that were written to a tab before it was asked for, between one time and the next,
and after the last. -/
def stretches (name : String) (log : Log) : List (List Line) :=
  (log.splitOnP (· == .insert name)).map (linesInto name)

/-- The lines whose tab was not asked for any more. -/
def pending : Log → List (String × Line)
  | [] => []
  | .wrote (some tab) line :: log =>
    if .insert tab ∈ log then pending log else (tab, line) :: pending log
  | .wrote none _ :: log => pending log
  | .insert _ :: log => pending log

def pendingInto (name : String) (log : Log) : List Line :=
  (pending log).filterMap fun p => if p.1 = name then some p.2 else none

/-- The tabs with pending lines, in the order in which the first of these lines were written. -/
def opened (log : Log) : List String := ((pending log).map Prod.fst).eraseDups

def openTabs (log : Log) : List Tab := (opened log).map fun name => ⟨name, pendingInto name log⟩

/-! ### One mark more -/

theorem looseLines_append (log log' : Log) :
    looseLines (log ++ log') = looseLines log ++ looseLines log' :=
  List.filterMap_append

theorem linesInto_concat (name : String) (log : Log) (mark : Mark) :
    linesInto name (log ++ [mark]) = linesInto name log ++ (mark.into? name).toList := by
  rw [linesInto, List.filterMap_append, linesInto]
  cases h : mark.into? name <;> simp [h]

theorem pending_loose (log : Log) (line : Line) :
    pending (log ++ [.wrote none line]) = pending log := by
  induction log with
  | nil => rfl
  | cons mark log ih =>
    cases mark with
    | insert tab => exact ih
    | wrote tab line' =>
      cases tab with
      | none => exact ih
      | some tab => simp [pending, ih]

theorem pending_wrote (log : Log) (tab : String) (line : Line) :
    pending (log ++ [.wrote (some tab) line]) = pending log ++ [(tab, line)] := by
  induction log with
  | nil => simp [pending]
  | cons mark log ih =>
    cases mark with
    | insert tab' => exact ih
    | wrote tab' line' =>
      cases tab' with
      | none => exact ih
      | some tab' =>
        by_cases hin : .insert tab' ∈ log <;> simp [pending, hin, ih]

theorem pending_insert (log : Log) (tab : String) :
    pending (log ++ [.insert tab]) = (pending log).filter (·.1 ≠ tab) := by
  induction log with
  | nil => rfl
  | cons mark log ih =>
    cases mark with
    | insert tab' => exact ih
    | wrote tab' line =>
      cases tab' with
      | none => exact ih
      | some tab' =>
        by_cases hin : .insert tab' ∈ log
        · simp [pending, hin, ih]
        · by_cases htab : tab' = tab
          · simp [pending, htab, ih, htab ▸ hin]
          · simp [pending, hin, htab, ih]

theorem pendingInto_append (name : String) (log : Log) (mark : Mark) :
    pendingInto name (log ++ [mark]) =
      if mark = .insert name then [] else pendingInto name log ++ (mark.into? name).toList := by
  cases mark with
  | insert tab =>
    rw [pendingInto, pending_insert, List.filterMap_filter]
    by_cases htab : tab = name
    · subst htab
      simp
    · simp only [Mark.insert.injEq, htab, if_false, Mark.into?, Option.toList_none, List.append_nil,
        pendingInto]
      refine List.filterMap_congr fun p _ => ?_
      by_cases hp : p.1 = tab
      · simp [hp, htab]
      · simp [hp]
  | wrote tab line =>
    cases tab with
    | none => simp [pendingInto, pending_loose, Mark.into?]
    | some tab => by_cases htab : tab = name <;> simp [pendingInto, pending_wrote, Mark.into?, htab]

theorem splitOnP_concat {α : Type} (p : α → Bool) (xs : List α) (a : α) :
    ∃ parts last, xs.splitOnP p = parts ++ [last] ∧
      (xs ++ [a]).splitOnP p = if p a then parts ++ [last, []] else parts ++ [last ++ [a]] := by
  induction xs with
  | nil =>
    refine ⟨[], [], rfl, ?_⟩
    rw [List.nil_append, List.splitOnP_cons_eq_if_modifyHead]
    rfl
  | cons x xs ih =>
    obtain ⟨parts, last, hxs, hconcat⟩ := ih
    rw [List.cons_append, List.splitOnP_cons_eq_if_modifyHead,
      List.splitOnP_cons_eq_if_modifyHead, hxs, hconcat]
    by_cases hx : p x
    · refine ⟨[] :: parts, last, ?_, ?_⟩
      · rw [if_pos hx, List.cons_append]
      · rw [if_pos hx]
        split <;> rfl
    · rw [if_neg hx, if_neg hx]
      cases parts with
      | nil =>
        refine ⟨[], x :: last, rfl, ?_⟩
        split <;> rfl
      | cons part parts =>
        refine ⟨(x :: part) :: parts, last, rfl, ?_⟩
        split <;> rfl

theorem stretches_eq (name : String) (log : Log) :
    stretches name log = (stretches name log).dropLast ++ [pendingInto name log] := by
  induction log using List.reverseRecOn with
  | nil => rfl
  | append_singleton log mark ih =>
    obtain ⟨parts, last, hlog, hconcat⟩ := splitOnP_concat (· == Mark.insert name) log mark
    rw [stretches, hlog, List.map_append, List.map_singleton, List.dropLast_concat] at ih
    have hlast : linesInto name last = pendingInto name log := by
      simpa using ih
    rw [pendingInto_append, stretches, hconcat]
    by_cases hmark : mark = .insert name
    · simp [hmark, linesInto]
    · simp [hmark, linesInto_concat, hlast]

theorem stretches_insert (name : String) (log : Log) :
    (stretches name (log ++ [.insert name])).dropLast = stretches name log := by
  obtain ⟨parts, last, hlog, hconcat⟩ :=
    splitOnP_concat (· == Mark.insert name) log (.insert name)
  simp [stretches, hlog, hconcat]

theorem stretches_append {name : String} {mark : Mark} (h : mark ≠ .insert name) (log : Log) :
    (stretches name (log ++ [mark])).dropLast = (stretches name log).dropLast := by
  obtain ⟨parts, last, hlog, hconcat⟩ := splitOnP_concat (· == Mark.insert name) log mark
  simp [stretches, hlog, hconcat, h]

/-- The stretches take nothing away from what was written, and change no order. -/
theorem flatten_stretches (name : String) (log : Log) :
    (stretches name log).flatten = linesInto name log := by
  induction log using List.reverseRecOn with
  | nil => rfl
  | append_singleton log mark ih =>
    rw [stretches_eq, List.flatten_append, List.flatten_singleton] at ih
    rw [stretches_eq, linesInto_concat, pendingInto_append]
    by_cases hmark : mark = .insert name
    · subst hmark
      rw [stretches_insert, stretches_eq]
      simp [ih, Mark.into?]
    · rw [stretches_append hmark, if_neg hmark]
      simp [← ih]

/-! ### Open tabs -/

theorem eraseDups_concat (names : List String) (name : String) :
    (names ++ [name]).eraseDups =
      if name ∈ names then names.eraseDups else names.eraseDups ++ [name] := by
  rw [List.eraseDups_append]
  by_cases hin : name ∈ names <;> simp [List.removeAll, List.eraseDups_cons, hin]

theorem nodup_eraseDups (names : List String) : names.eraseDups.Nodup := by
  induction names using List.reverseRecOn with
  | nil => exact .nil
  | append_singleton names name ih =>
    rw [eraseDups_concat]
    by_cases hin : name ∈ names
    · rwa [if_pos hin]
    · rw [if_neg hin]
      rw [← List.concat_eq_append]
      exact ih.concat fun h => hin (List.mem_eraseDups.1 h)

theorem eraseDups_filter (p : String → Bool) (names : List String) :
    (names.filter p).eraseDups = names.eraseDups.filter p := by
  induction names using List.reverseRecOn with
  | nil => rfl
  | append_singleton names name ih =>
    rw [List.filter_append, eraseDups_concat]
    by_cases hp : p name
    · have hlast : [name].filter p = [name] := List.filter_singleton.trans (by rw [hp]; rfl)
      rw [hlast, eraseDups_concat, ih]
      by_cases hin : name ∈ names <;> simp [hin, hp]
    · have hlast : [name].filter p = [] := by simp [hp]
      rw [hlast, List.append_nil, ih]
      by_cases hin : name ∈ names <;> simp [hin, hp]

theorem opened_loose (log : Log) (line : Line) :
    opened (log ++ [.wrote none line]) = opened log := by
  rw [opened, pending_loose, opened]

theorem opened_wrote (log : Log) (tab : String) (line : Line) :
    opened (log ++ [.wrote (some tab) line]) =
      if tab ∈ opened log then opened log else opened log ++ [tab] := by
  rw [opened, pending_wrote, List.map_append, List.map_singleton, eraseDups_concat]
  simp only [opened, List.mem_eraseDups]

theorem opened_insert (log : Log) (tab : String) :
    opened (log ++ [.insert tab]) = (opened log).filter (· ≠ tab) := by
  have hnames : ((pending log).filter (·.1 ≠ tab)).map Prod.fst =
      ((pending log).map Prod.fst).filter (· ≠ tab) := by
    rw [List.filter_map]
    rfl
  rw [opened, pending_insert, hnames, eraseDups_filter, opened]

theorem nodup_opened (log : Log) : (opened log).Nodup := nodup_eraseDups _

theorem mem_opened {log : Log} {name : String} :
    name ∈ opened log ↔ pendingInto name log ≠ [] := by
  rw [opened, List.mem_eraseDups, pendingInto]
  simp

end Log

end Dissect
