import Dissect.Proofs.Acceptance
import Dissect.Proofs.Renaming

/-! Elements at another place of a text: they are read as before, and the references they make are
the same but for the place. -/
namespace Dissect.Document

def Reference.moved (offset : Nat) (r : Reference) : Reference := { r with offset := offset }

def relocation (offset : Nat) : Renaming Reference Reference :=
  ⟨Reference.moved offset, Reference.moved offset, Reference.moved offset, Reference.moved offset⟩

def Element.moved (e : Element) (offset : Nat) : Element := { e with offset := offset }

namespace Element
variable {e : Element} {key : String} {offset : Nat}

@[simp] theorem get?_moved : (e.moved offset).get? key = e.get? key := rfl

theorem gives_moved {α : Type} {means : String → α → Prop} {o : Option α} :
    (e.moved offset).Gives key means o ↔ e.Gives key means o := by
  cases o <;> exact Iff.rfl

@[simp] theorem required_moved {v : String} :
    (e.moved offset).required key = .ok v ↔ e.required key = .ok v := by
  rw [required_eq_ok, required_eq_ok, get?_moved]

@[simp] theorem only_moved {keys : List String} :
    (e.moved offset).only keys = .ok () ↔ e.only keys = .ok () := by
  rw [only_eq_ok, only_eq_ok]
  exact Iff.rfl

@[simp] theorem flag_moved {b : Bool} :
    (e.moved offset).flag key = .ok b ↔ e.flag key = .ok b := by
  rw [flag_eq_ok, flag_eq_ok, get?_moved]

@[simp] theorem natural?_moved {bound : Nat} {o : Option Nat} :
    (e.moved offset).natural? key bound = .ok o ↔ e.natural? key bound = .ok o := by
  rw [natural?_eq_ok, natural?_eq_ok, gives_moved]

@[simp] theorem width?_moved {o : Option Width} :
    (e.moved offset).width? key = .ok o ↔ e.width? key = .ok o := by
  rw [width?_eq_ok, width?_eq_ok, gives_moved]

@[simp] theorem hex?_moved {o : Option (List UInt8)} :
    (e.moved offset).hex? key = .ok o ↔ e.hex? key = .ok o := by
  rw [hex?_eq_ok, hex?_eq_ok, gives_moved]

@[simp] theorem hex_moved {bytes : List UInt8} :
    (e.moved offset).hex key = .ok bytes ↔ e.hex key = .ok bytes := by
  rw [hex_eq_ok, hex_eq_ok, gives_moved]

theorem size_moved {rule : SizeRule} (h : e.size = .ok rule) :
    (e.moved offset).size = .ok rule := by
  rw [size_eq_ok] at h ⊢
  cases rule with
  | fixed n => exact ⟨h.1, natural?_moved.2 h.2.1, flag_moved.2 h.2.2.1, hex?_moved.2 h.2.2.2⟩
  | remaining => exact ⟨natural?_moved.2 h.1, flag_moved.2 h.2.1, hex?_moved.2 h.2.2⟩
  | terminated byte => exact ⟨natural?_moved.2 h.1, flag_moved.2 h.2.1, hex?_moved.2 h.2.2⟩

theorem mask_moved {bytes : List UInt8} (h : e.mask = .ok bytes) :
    (e.moved offset).mask = .ok bytes := by
  rw [mask_eq_ok] at h ⊢
  exact ⟨hex_moved.2 h.1, h.2⟩

theorem shift_moved {bits : Nat} (h : e.shift = .ok bits) : (e.moved offset).shift = .ok bits := by
  rw [shift_eq_ok] at h ⊢
  exact natural?_moved.2 h

theorem encoding_moved {form : Encoding} (h : e.encoding = .ok form) :
    (e.moved offset).encoding = .ok form := by
  rw [encoding_eq_ok] at h ⊢
  exact h

theorem printMode_moved {mode : PrintMode} (h : e.printMode = .ok mode) :
    (e.moved offset).printMode = .ok mode := by
  rw [printMode_eq_ok] at h ⊢
  exact h

/-! References, which come out with the new place. -/

theorem var?_moved {o : Option Reference} (h : e.var? key = .ok o) :
    (e.moved offset).var? key = .ok (o.map (Reference.moved offset)) := by
  rw [var?_eq_ok] at h ⊢
  cases o with
  | none => exact h
  | some r =>
    obtain ⟨v, hv, hid, rfl⟩ := h
    exact ⟨v, hv, hid, rfl⟩

theorem var_moved {r : Reference} (h : e.var key = .ok r) :
    (e.moved offset).var key = .ok (r.moved offset) :=
  var?_eq_some.1 (var?_moved (var?_eq_some.2 h))

theorem operand?_moved {o : Option (Operand Reference)} (h : e.operand? key = .ok o) :
    (e.moved offset).operand? key = .ok (o.map (relocation offset).operand) := by
  rw [operand?_eq_ok] at h ⊢
  cases o with
  | none => exact h
  | some o =>
    obtain ⟨v, hv, hspells⟩ := h
    refine ⟨v, hv, ?_⟩
    cases o with
    | literal value => exact hspells
    | var r =>
      obtain ⟨hl, hid, rfl⟩ := hspells
      exact ⟨hl, hid, rfl⟩

theorem tests_moved {ts : List (VarTest Reference)} (h : e.tests = .ok ts) :
    (e.moved offset).tests = .ok (ts.map (relocation offset).test) := by
  obtain ⟨eq, gt, bit, heq, hgt, hbit, h⟩ := tests_eq_ok.1 h
  refine tests_eq_ok.2 ⟨_, _, _, operand?_moved heq, operand?_moved hgt, operand?_moved hbit, ?_⟩
  obtain ⟨hd, rfl⟩ | ⟨hd, rfl⟩ := h
  · refine .inl ⟨hd, ?_⟩
    cases eq <;> cases gt <;> cases bit <;> rfl
  · refine .inr ⟨hd, ?_⟩
    cases eq <;> cases gt <;> cases bit <;> rfl

theorem guard_moved {g : Guard Reference} (h : e.guard = .ok g) :
    (e.moved offset).guard = .ok ((relocation offset).guard g) := by
  rw [guard_eq_ok] at h ⊢
  cases g with
  | bytes pattern convert =>
    obtain ⟨hbytes, hvar, hconvert, honly⟩ := h
    exact ⟨hex_moved.2 hbytes, hvar, flag_moved.2 hconvert, only_moved.2 honly⟩
  | var r t =>
    obtain ⟨hbytes, hr, htests, honly⟩ := h
    exact ⟨hbytes, var_moved hr, tests_moved htests, only_moved.2 honly⟩

theorem loopGuard_moved {g : LoopGuard Reference} (h : e.loopGuard = .ok g) :
    (e.moved offset).loopGuard = .ok ((relocation offset).loopGuard g) := by
  rw [loopGuard_eq_ok] at h ⊢
  obtain ⟨condition, count⟩ := g
  obtain ⟨hcount, honly, h⟩ := h
  refine ⟨natural?_moved.2 hcount, only_moved.2 honly, ?_⟩
  cases condition with
  | remaining => exact h
  | below r o =>
    obtain ⟨hremaining, hvar, htarget⟩ := h
    exact ⟨flag_moved.2 hremaining, var_moved hvar, operand?_moved htarget⟩
  | always =>
    obtain ⟨hremaining, hrest⟩ := h
    exact ⟨flag_moved.2 hremaining, hrest⟩

theorem fieldStep_moved {s : FieldStep Reference} (h : e.fieldStep = .ok s) :
    (e.moved offset).fieldStep = .ok ((relocation offset).fieldStep s) := by
  simp only [fieldStep, bind_eq_ok, pure_eq_ok] at h ⊢
  obtain ⟨v, hv, var, hvar, position, hposition, limit, hlimit, _, honly, rfl⟩ := h
  exact ⟨v, required_moved.2 hv, _, var?_moved hvar, _, operand?_moved hposition, _,
    operand?_moved hlimit, (), only_moved.2 honly, rfl⟩

theorem printStep_moved {s : PrintStep Reference} (h : e.printStep = .ok s) :
    (e.moved offset).printStep = .ok ((relocation offset).printStep s) := by
  simp only [printStep, bind_eq_ok, pure_eq_ok] at h ⊢
  obtain ⟨label, hlabel, var, hvar, suppress, hsuppress, hex, hhex, _, honly, rfl⟩ := h
  exact ⟨label, required_moved.2 hlabel, _, var_moved hvar, suppress, flag_moved.2 hsuppress, hex,
    flag_moved.2 hhex, (), only_moved.2 honly, rfl⟩

theorem execStep_moved {s : ExecStep Reference} (h : e.execStep = .ok s) :
    (e.moved offset).execStep = .ok ((relocation offset).execStep s) := by
  simp only [execStep, bind_eq_ok] at h ⊢
  obtain ⟨var, hvar, name, hname, h⟩ := h
  refine ⟨_, var_moved hvar, name, required_moved.2 hname, ?_⟩
  cases hop : ArithOp.ofName? name with
  | none =>
    rw [hop] at h
    cases h
  | some op =>
    simp only [hop, pure_bind, bind_eq_ok, demand_eq_ok, pure_eq_ok] at h ⊢
    obtain ⟨_, hvalue, value, rfl, signed, hsigned, width, hwidth, _, honly, rfl⟩ := h
    exact ⟨_, operand?_moved hvalue, _, rfl, signed, flag_moved.2 hsigned, width,
      width?_moved.2 hwidth, (), only_moved.2 honly, rfl⟩

theorem endianness_moved {policy : Endianness Reference} (h : e.endianness = .ok policy) :
    (e.moved offset).endianness = .ok ((relocation offset).endianness policy) := by
  simp only [endianness, bind_eq_ok] at h ⊢
  obtain ⟨order, horder, h⟩ := h
  refine ⟨order, required_moved.2 horder, ?_⟩
  split at h
  · simp only [bind_eq_ok, pure_eq_ok] at h ⊢
    obtain ⟨_, honly, rfl⟩ := h
    exact ⟨(), only_moved.2 honly, rfl⟩
  · simp only [bind_eq_ok, pure_eq_ok] at h ⊢
    obtain ⟨_, honly, rfl⟩ := h
    exact ⟨(), only_moved.2 honly, rfl⟩
  · simp only [bind_eq_ok, check_eq_ok, pure_eq_ok] at h ⊢
    obtain ⟨r, hr, big, hbig, little, hlittle, hne, _, honly, rfl⟩ := h
    exact ⟨_, var_moved hr, big, hex_moved.2 hbig, little, hex_moved.2 hlittle, hne, (),
      only_moved.2 honly, rfl⟩
  · cases h

end Element

theorem FieldParts.field_moved {parts : FieldParts} {id : String} {e : Element} {offset : Nat}
    {f : FieldDef Reference} (h : parts.field id e = .ok f) :
    parts.field id (e.moved offset) = .ok (f.map (Reference.moved offset)) := by
  obtain ⟨size, bits, hsize, hbits, hoptions, hflags, hcheck, rfl⟩ := field_eq_ok.1 h
  refine field_eq_ok.2 ⟨size, bits, hsize, hbits, hoptions, hflags, hcheck, ?_⟩
  simp only [FieldDef.map, Element.get?_moved, Option.map_map]
  rfl

def Head.renamed (r : Renaming Reference Reference) : Head → Head
  | .act a => .act (r.action a)
  | .guarded g => .guarded (r.guard g)
  | .loop g => .loop (r.loopGuard g)
  | .selection => .selection

theorem Head.inner_renamed (r : Renaming Reference Reference) (head : Head) :
    (head.renamed r).inner = head.inner := by
  cases head <;> rfl

theorem Head.before_renamed (r : Renaming Reference Reference) (head : Head)
    (body rest : Program Reference) :
    (head.renamed r).before (r.program body) (r.program rest) =
      r.program (head.before body rest) := by
  cases head <;> rfl

theorem Head.renamed_comp (q r : Renaming Reference Reference) (head : Head) :
    head.renamed (q.comp r) = (head.renamed r).renamed q := by
  cases head with
  | act a => exact congrArg Head.act (q.action_comp r a)
  | guarded g => exact congrArg Head.guarded (q.guard_comp r g)
  | loop g => exact congrArg Head.loop (q.loopGuard_comp r g)
  | selection => rfl

theorem Element.head_moved {e : Element} {offset : Nat} {h : Head} (hh : e.head = .ok h) :
    (e.moved offset).head = .ok (h.renamed (relocation offset)) := by
  rw [head_eq_ok] at hh ⊢
  cases h with
  | act a =>
    cases a with
    | field s => exact ⟨hh.1, fieldStep_moved hh.2⟩
    | block r =>
      obtain ⟨hn, honly, v, hv, rfl⟩ := hh
      exact ⟨hn, only_moved.2 honly, v, required_moved.2 hv, rfl⟩
    | print s => exact ⟨hh.1, printStep_moved hh.2⟩
    | exec s => exact ⟨hh.1, execStep_moved hh.2⟩
    | title text => exact ⟨hh.1, only_moved.2 hh.2.1, required_moved.2 hh.2.2⟩
    | insert tab => exact ⟨hh.1, only_moved.2 hh.2.1, required_moved.2 hh.2.2⟩
  | guarded g => exact ⟨hh.1, guard_moved hh.2⟩
  | loop g => exact ⟨hh.1, loopGuard_moved hh.2⟩
  | selection => exact ⟨hh.1, only_moved.2 hh.2⟩

end Dissect.Document
