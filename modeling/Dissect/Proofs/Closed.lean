import Dissect.Proofs.Lengths
import Dissect.Proofs.Sound

/-! A compiled definition is closed: its references stand for texts of the document, so that each
has its entry. -/
namespace Dissect

namespace Definition
variable {d : Definition}

theorem lt_of_lookup {α : Type} {xs : List α} {key : α → String} {i : Nat} {text : String}
    (h : xs[i]?.map key = some text) : i < xs.length := by
  obtain ⟨x, hx, -⟩ := Option.map_eq_some_iff.1 h
  exact (List.getElem?_eq_some_iff.1 hx).1

theorem lookup_of_mem {α : Type} {look : Nat → Option α} {o : Option Nat} {texts : Option α}
    (h : o.map look = texts.map some) {i : Nat} (hi : i ∈ o) : ∃ text, look i = some text := by
  rw [Option.mem_def.1 hi] at h
  cases texts with
  | none => cases h
  | some text => exact ⟨text, Option.some.inj h⟩

theorem closed_of_lookup {step : Step Nat} {written : Step String}
    (h : d.lookup.step step = Document.found.step written) : step.Closed d := by
  cases step with
  | act action =>
    cases written with
    | act text =>
      have haction : d.lookup.action action = Document.found.action text := Step.act.inj h
      cases action with
      | field step =>
        cases text with
        | field text =>
          have hstep := Action.field.inj haction
          have hvar : step.var.map d.lookup.var = text.var.map some :=
            congrArg FieldStep.var hstep
          refine ⟨lt_of_lookup (congrArg FieldStep.field hstep), fun id hid => ?_⟩
          obtain ⟨name, hname⟩ := lookup_of_mem hvar hid
          exact (List.getElem?_eq_some_iff.1 hname).1
        | _ => cases haction
      | block id =>
        cases text with
        | block text => exact lt_of_lookup (Action.block.inj haction)
        | _ => cases haction
      | exec step =>
        cases text with
        | exec text =>
          have hvar : d.lookup.var step.var = some text.var :=
            congrArg ExecStep.var (Action.exec.inj haction)
          exact (List.getElem?_eq_some_iff.1 hvar).1
        | _ => cases haction
      | _ => trivial
    | _ => cases h
  | _ => trivial

theorem colored_of_lookup {f : FieldDef Nat} {written : FieldDef String}
    (h : f.map d.lookup.color = written.map some) : f.Colored d := by
  have hin {o : Option Nat} {texts : Option String} (ho : o.map d.lookup.color = texts.map some)
      (id : Nat) (hid : id ∈ o) : id < d.colors.length := by
    obtain ⟨text, htext⟩ := lookup_of_mem ho hid
    exact lt_of_lookup htext
  exact ⟨hin (congrArg FieldDef.color h), hin (congrArg FieldDef.accent h)⟩

end Definition

namespace Document
open Definition
variable {e : Element} {inner : Content} {f : Format} {d : Definition}

theorem exists_code (hread : f.Read e inner) (hd : f.definition = .ok d) (code : Code) :
    ∃ (c : Content) (written : List (Step String)), c.elements ≤ inner.elements ∧
      c.Flattens written ∧ d.Renders (d.code code) written := by
  cases code with
  | main =>
    obtain ⟨t, ht, -, written, hflat, hrenders⟩ := image_program hread hd
    exact ⟨t.2, written, (Content.elements_of_mem_row ht).le, hflat, hrenders⟩
  | block id =>
    rw [Definition.code, Definition.block]
    cases hb : d.blocks[id]? with
    | none => exact ⟨.done, [], Nat.zero_le _, .done, rfl⟩
    | some b =>
      obtain ⟨t, ht, -, written, hflat, hrenders⟩ := image_block hread hd (List.mem_of_getElem? hb)
      obtain ⟨u, hu, ht⟩ := List.mem_flatMap.1 ht
      have hin := Content.elements_of_mem_row ht
      have hout := Content.elements_of_mem_row (List.mem_filter.1 hu).1
      exact ⟨t.2, written, by omega, hflat, hrenders⟩

theorem closed_definition (hread : f.Read e inner) (hd : f.definition = .ok d)
    (hlength : inner.elements < 2 ^ 63) : d.Closed := by
  constructor
  case field =>
    intro a ha
    obtain ⟨t, -, written, -, -, hwritten⟩ | ⟨rfl, -⟩ := image_field hread hd ha
    · exact colored_of_lookup hwritten
    · exact ⟨fun _ => nofun, fun _ => nofun⟩
  case step =>
    intro code step hstep
    obtain ⟨c, written, -, -, hrenders⟩ := exists_code hread hd code
    have hmem : d.lookup.step step ∈ written.map found.step :=
      hrenders ▸ List.mem_map_of_mem hstep
    obtain ⟨text, -, htext⟩ := List.mem_map.1 hmem
    exact closed_of_lookup htext.symm
  case length =>
    intro code
    obtain ⟨c, written, hle, hflat, hrenders⟩ := exists_code hread hd code
    have hsame := congrArg List.length hrenders
    rw [List.length_map, List.length_map] at hsame
    have htwice := hflat.length_le
    omega
  case unused =>
    obtain ⟨a, ha, -⟩ := image_unused hread hd
    exact (List.getElem?_eq_some_iff.1 ha).1

/-- Whatever document compiles, the definition is closed. -/
theorem closed_of_compile {source : List Char} (h : compile source = .ok d)
    (hlength : source.length < 2 ^ 63) : d.Closed := by
  obtain ⟨f, hf, hd⟩ := compile_eq_ok.1 h
  obtain ⟨tag, inner, e, hdoc, he, hread⟩ := each_singleton.1 (ofContent?_eq_ok.1 hf)
  have helements := Content.elements_ofSource source
  rw [hdoc, Content.elements] at helements
  exact closed_definition hread hd (by omega)

end Document

end Dissect
