import Dissect.Proofs.Image

/-! How long a program can be: no token makes more than one element, and no element more than two
steps, so that places in a program are words if the places in its document are. -/
namespace Dissect
open Markup

/-! ## Tokens of a source -/

namespace Markup

/-- How many tokens there can be besides one for each character. -/
def Mode.pending : Mode → Nat
  | .between => 0
  | _ => 1

theorem Mode.length_atEnd (start pos : Nat) (mode : Mode) :
    (mode.atEnd start pos).length = mode.pending := by
  cases mode <;> rfl

theorem Mode.pending_le (mode : Mode) : mode.pending ≤ 1 := by
  cases mode <;> simp [pending]

theorem Mode.feed_between (c : Char) : ∃ mode, Mode.between.feed c = .more mode := by
  rw [feed]
  split
  · exact ⟨_, rfl⟩
  · split <;> exact ⟨_, rfl⟩

theorem length_scanFrom (start pos : Nat) (mode : Mode) (cs : List Char) :
    (scanFrom start pos mode cs).length ≤ cs.length + mode.pending := by
  induction cs generalizing start pos mode with
  | nil =>
    rw [scanFrom, Mode.length_atEnd]
    exact Nat.le_add_left ..
  | cons c cs ih =>
    have hmore (start pos : Nat) (mode : Mode) :
        (scanFrom start pos mode cs).length ≤ cs.length + 1 :=
      (ih start pos mode).trans (Nat.add_le_add_left mode.pending_le _)
    by_cases hb : mode = .between
    · obtain ⟨mode', hfeed⟩ := Mode.feed_between c
      simp only [scanFrom, hb, hfeed]
      exact hmore ..
    · have hpending : mode.pending = 1 := by
        cases mode with
        | between => exact absurd rfl hb
        | _ => rfl
      rw [hpending, List.length_cons, scanFrom.eq_def]
      dsimp only
      split
      · exact (hmore ..).trans (Nat.le_succ _)
      · exact Nat.succ_le_succ (hmore ..)
      · exact Nat.succ_le_succ (Nat.zero_le _)
      · exact Nat.succ_le_succ ((ih _ _ .between).trans (Nat.le_succ _))
      · exact Nat.succ_le_succ (Nat.zero_le _)

theorem length_scan (cs : List Char) : (scan cs).length ≤ cs.length := by
  rw [scan.eq_def]
  split
  · exact (length_scanFrom 0 0 .between _).trans (Nat.le_succ _)
  · exact length_scanFrom 0 0 .between _

end Markup

namespace Document

/-! ## Elements of a document -/

def Content.elements : Content → Nat
  | .done => 0
  | .blemish _ _ => 0
  | .element _ inner rest => inner.elements + rest.elements + 1

def elementsBefore (before : List (Tag × Content)) : Nat :=
  (before.map fun t => t.2.elements + 1).sum

def elementsOpen (opens : List Open) : Nat :=
  (opens.map fun o => elementsBefore o.before + 1).sum

theorem elementsBefore_nil : elementsBefore [] = 0 := rfl

theorem elementsBefore_cons (t : Tag × Content) (before : List (Tag × Content)) :
    elementsBefore (t :: before) = t.2.elements + 1 + elementsBefore before := by
  rw [elementsBefore, List.map_cons, List.sum_cons, elementsBefore]

theorem elementsOpen_cons (o : Open) (opens : List Open) :
    elementsOpen (o :: opens) = elementsBefore o.before + 1 + elementsOpen opens := by
  rw [elementsOpen, List.map_cons, List.sum_cons, elementsOpen]

namespace Content

theorem elements_prepend (before : List (Tag × Content)) (tail : Content) :
    (prepend before tail).elements = elementsBefore before + tail.elements := by
  induction before generalizing tail with
  | nil =>
    rw [prepend, elementsBefore_nil]
    omega
  | cons t before ih =>
    rw [prepend, ih, elements, elementsBefore_cons]
    omega

theorem elements_enclose (opens : List Open) (before : List (Tag × Content)) (tail : Content) :
    (enclose opens before tail).elements =
      elementsOpen opens + elementsBefore before + tail.elements := by
  induction opens generalizing before tail with
  | nil =>
    rw [enclose, elements_prepend]
    simp [elementsOpen]
  | cons o opens ih =>
    rw [enclose, ih, elementsBefore_cons, elements_prepend, elementsOpen_cons, elements]
    omega

theorem elements_ofTokensFrom (opens : List Open) (before : List (Tag × Content))
    (ts : List Token) :
    (ofTokensFrom opens before ts).elements ≤
      elementsOpen opens + elementsBefore before + ts.length := by
  have hbroken (opens : List Open) (before : List (Tag × Content)) (offset : Nat) (cause : Cause)
      (n : Nat) : (enclose opens before (.blemish offset cause)).elements ≤
        elementsOpen opens + elementsBefore before + n := by
    rw [elements_enclose, elements]
    omega
  induction ts generalizing opens before with
  | nil =>
    cases opens with
    | nil =>
      rw [ofTokensFrom, elements_prepend, elements]
      omega
    | cons o opens => exact hbroken ..
  | cons t ts ih =>
    have hskip := (ih opens before).trans (Nat.add_le_add_left (Nat.le_succ _) _)
    rw [List.length_cons]
    rw [ofTokensFrom]
    split
    case h_1 => exact hskip
    case h_2 => exact hbroken ..
    case h_3 => exact hbroken ..
    case h_4 =>
      split
      · exact hskip
      · exact hbroken ..
    case h_5 =>
      -- An end tag moves an element from those that have begun to those of a row.
      cases opens with
      | nil => exact hbroken ..
      | cons o opens =>
        dsimp only
        split
        · refine (ih ..).trans ?_
          rw [elementsBefore_cons, elementsOpen_cons, elements_prepend, elements]
          omega
        · exact hbroken ..
    case h_6 =>
      split
      · refine (ih ..).trans ?_
        rw [elementsBefore_cons, elements]
        omega
      · refine (ih ..).trans ?_
        rw [elementsOpen_cons, elementsBefore_nil]
        dsimp only
        omega

theorem elements_ofSource (source : List Char) :
    (ofSource source).elements ≤ source.length := by
  have h := elements_ofTokensFrom [] [] (scan source)
  have hscan := length_scan source
  simp only [elementsOpen, elementsBefore, List.map_nil, List.sum_nil] at h
  exact h.trans (by omega)

theorem elements_of_mem_row {c : Content} {t : Tag × Content} (h : t ∈ c.row) :
    t.2.elements < c.elements := by
  induction c with
  | done => cases h
  | blemish offset cause => cases h
  | element tag inner rest ihinner ihrest =>
    rw [elements]
    obtain rfl | hrest := List.mem_cons.1 h
    · dsimp only
      omega
    · have hlt := ihrest hrest
      omega

theorem Flattens.length_le {c : Content} {written : List (Step String)} (h : c.Flattens written) :
    written.length ≤ 2 * c.elements := by
  induction h with
  | done => exact Nat.zero_le _
  | act head tail ih =>
    simp only [elements, List.length_cons]
    omega
  | guarded name head inside tail ihinside ih =>
    simp only [elements, List.length_cons, List.length_append]
    omega
  | loop name head inside tail ihinside ih =>
    simp only [elements, List.length_cons, List.length_append]
    omega
  | selection name inside tail ihinside ih =>
    simp only [elements, List.length_cons, List.length_append]
    omega

end Content

end Document

end Dissect
