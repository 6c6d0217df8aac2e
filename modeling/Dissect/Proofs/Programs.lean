import Dissect.Proofs.Fields
import Dissect.Proofs.Tables

/-! Programs that can be read: every step is written in one of its forms, and so is every step
inside it. -/
namespace Dissect.Document
variable {declared : Table → String → Prop} {parent : String} {depth : Nat}

namespace Element
variable {e : Element} {key : String}

@[simp] theorem operand?_eq_none : e.operand? key = .ok none ↔ e.get? key = none := operand?_eq_ok

@[simp] theorem var?_eq_none : e.var? key = .ok none ↔ e.get? key = none := var?_eq_ok

theorem hex?_eq_some {bytes : List UInt8} :
    e.hex? key = .ok (some bytes) ↔ e.hex key = .ok bytes := by
  rw [hex?_eq_ok, hex_eq_ok]

theorem var?_eq_some {r : Reference} : e.var? key = .ok (some r) ↔ e.var key = .ok r := by
  rw [var?_eq_ok, var_eq_ok]

theorem has_eq_false : e.has key = false ↔ e.get? key = none := by
  simp [has]

theorem tests_eq_ok {ts : List (VarTest Reference)} : e.tests = .ok ts ↔ ∃ eq gt bit,
    e.operand? "eq" = .ok eq ∧ e.operand? "gt" = .ok gt ∧ e.operand? "bit" = .ok bit ∧
      ((e.get? "defined" = none ∧ (eq.map VarTest.equals).toList ++
          (gt.map VarTest.greater).toList ++ (bit.map VarTest.bit).toList = ts) ∨
        (e.get? "defined" = some "true" ∧ (eq.map VarTest.equals).toList ++
          (gt.map VarTest.greater).toList ++ (bit.map VarTest.bit).toList ++ [.defined] = ts)) := by
  cases hd : e.get? "defined" with
  | none =>
    have hhas : e.has "defined" = false := has_eq_false.2 hd
    simp only [tests, hhas, bind_eq_ok, pure_eq_ok, pure_bind, Bool.false_eq_true, if_false,
      List.append_nil]
    constructor
    · intro h
      obtain ⟨eq, heq, gt, hgt, bit, hbit, hts⟩ := h
      exact ⟨eq, gt, bit, heq, hgt, hbit, .inl ⟨trivial, hts⟩⟩
    · intro h
      obtain ⟨eq, gt, bit, heq, hgt, hbit, ⟨-, hts⟩ | ⟨hd, -⟩⟩ := h
      · exact ⟨eq, heq, gt, hgt, bit, hbit, hts⟩
      · cases hd
  | some v =>
    have hhas : e.has "defined" = true := by simp [has, hd]
    simp only [tests, hhas, bind_eq_ok, check_eq_ok, pure_eq_ok, pure_bind, if_true,
      Bool.not_eq_true', Bool.not_eq_false]
    constructor
    · intro h
      obtain ⟨eq, heq, gt, hgt, bit, hbit, _, hflag, rfl, hts⟩ := h
      have hv : e.get? "defined" = some "true" := flag_eq_true.1 hflag
      exact ⟨eq, gt, bit, heq, hgt, hbit, .inr ⟨hd.symm.trans hv, hts⟩⟩
    · intro h
      obtain ⟨eq, gt, bit, heq, hgt, hbit, ⟨hd', -⟩ | ⟨hv, hts⟩⟩ := h
      · cases hd'
      · have hflag : e.flag "defined" = .ok true := flag_eq_true.2 (hd.trans hv)
        exact ⟨eq, heq, gt, hgt, bit, hbit, true, hflag, rfl, hts⟩

theorem exists_test : (∃ t, e.tests = .ok [t]) ↔
    ((∃ o, e.operand? "eq" = .ok (some o)) ∧ e.get? "gt" = none ∧ e.get? "bit" = none ∧
      e.get? "defined" = none) ∨
    ((∃ o, e.operand? "gt" = .ok (some o)) ∧ e.get? "eq" = none ∧ e.get? "bit" = none ∧
      e.get? "defined" = none) ∨
    ((∃ o, e.operand? "bit" = .ok (some o)) ∧ e.get? "eq" = none ∧ e.get? "gt" = none ∧
      e.get? "defined" = none) ∨
    (e.get? "defined" = some "true" ∧ e.get? "eq" = none ∧ e.get? "gt" = none ∧
      e.get? "bit" = none) := by
  simp only [tests_eq_ok, ← operand?_eq_none]
  constructor
  · intro h
    obtain ⟨t, eq, gt, bit, heq, hgt, hbit, ⟨hd, hts⟩ | ⟨hd, hts⟩⟩ := h
    · cases eq with
      | some o =>
        cases gt <;> cases bit <;> cases hts
        exact .inl ⟨⟨o, heq⟩, hgt, hbit, hd⟩
      | none =>
        cases gt with
        | some o =>
          cases bit <;> cases hts
          exact .inr (.inl ⟨⟨o, hgt⟩, heq, hbit, hd⟩)
        | none =>
          cases bit with
          | some o => exact .inr (.inr (.inl ⟨⟨o, hbit⟩, heq, hgt, hd⟩))
          | none => cases hts
    · cases eq <;> cases gt <;> cases bit <;> cases hts
      exact .inr (.inr (.inr ⟨hd, heq, hgt, hbit⟩))
  · intro h
    obtain ⟨⟨o, ho⟩, ha, hb, hd⟩ | ⟨⟨o, ho⟩, ha, hb, hd⟩ | ⟨⟨o, ho⟩, ha, hb, hd⟩ |
      ⟨hd, ha, hb, hc⟩ := h
    · exact ⟨.equals o, some o, none, none, ho, ha, hb, .inl ⟨hd, rfl⟩⟩
    · exact ⟨.greater o, none, some o, none, ha, ho, hb, .inl ⟨hd, rfl⟩⟩
    · exact ⟨.bit o, none, none, some o, ha, hb, ho, .inl ⟨hd, rfl⟩⟩
    · exact ⟨.defined, none, none, none, ha, hb, hc, .inr ⟨hd, rfl⟩⟩

theorem guard_eq_ok {g : Guard Reference} : e.guard = .ok g ↔
    match g with
    | .bytes pattern convert => e.hex "bytes" = .ok pattern ∧ e.get? "var" = none ∧
        e.flag "convert" = .ok convert ∧ e.only ["bytes", "convert"] = .ok ()
    | .var r t => e.get? "bytes" = none ∧ e.var "var" = .ok r ∧ e.tests = .ok [t] ∧
        e.only ["var", "eq", "gt", "bit", "defined"] = .ok () := by
  simp only [guard, bind_eq_ok]
  constructor
  · intro h
    obtain ⟨bytes, hbytes, h⟩ := h
    cases bytes with
    | some pattern =>
      simp only [check_eq_ok, bind_eq_ok, pure_eq_ok, Bool.not_eq_true, has_eq_false] at h
      obtain ⟨hvar, convert, hconvert, _, honly, rfl⟩ := h
      exact ⟨hex?_eq_some.1 hbytes, hvar, hconvert, honly⟩
    | none =>
      simp only [bind_eq_ok] at h
      obtain ⟨r, hr, tests, htests, h⟩ := h
      split at h
      · next t =>
        simp only [bind_eq_ok, pure_eq_ok] at h
        obtain ⟨_, honly, rfl⟩ := h
        exact ⟨hex?_eq_none.1 hbytes, hr, htests, honly⟩
      · cases h
      · cases h
  · intro h
    cases g with
    | bytes pattern convert =>
      obtain ⟨hbytes, hvar, hconvert, honly⟩ := h
      refine ⟨some pattern, hex?_eq_some.2 hbytes, ?_⟩
      simp [has, hvar, hconvert, honly]
    | var r t =>
      obtain ⟨hbytes, hr, htests, honly⟩ := h
      refine ⟨none, hex?_eq_none.2 hbytes, ?_⟩
      simp [hr, htests, honly]

theorem exists_guard : (∃ g, e.guard = .ok g) ↔
    (e.only ["bytes", "convert"] = .ok () ∧ (∃ bytes, e.hex "bytes" = .ok bytes) ∧
      ∃ b, e.flag "convert" = .ok b) ∨
    (e.only ["var", "eq"] = .ok () ∧ (∃ r, e.var "var" = .ok r) ∧
      ∃ o, e.operand? "eq" = .ok (some o)) ∨
    (e.only ["var", "gt"] = .ok () ∧ (∃ r, e.var "var" = .ok r) ∧
      ∃ o, e.operand? "gt" = .ok (some o)) ∨
    (e.only ["var", "bit"] = .ok () ∧ (∃ r, e.var "var" = .ok r) ∧
      ∃ o, e.operand? "bit" = .ok (some o)) ∨
    (e.only ["var", "defined"] = .ok () ∧ (∃ r, e.var "var" = .ok r) ∧
      e.get? "defined" = some "true") := by
  have honly (keys absent : List String)
      (h : ∀ key ∈ keys, key ∈ ["bytes", "convert", "var", "eq", "gt", "bit", "defined"])
      (ha : ["bytes", "convert", "var", "eq", "gt", "bit", "defined"].filter (· ∉ keys) = absent) :=
    only_iff_of_subset (e := e) h ha
  have hguard : (∃ g, e.guard = .ok g) ↔
      ((∃ bytes, e.hex "bytes" = .ok bytes) ∧ e.get? "var" = none ∧
        (∃ b, e.flag "convert" = .ok b) ∧ e.only ["bytes", "convert"] = .ok ()) ∨
      (e.get? "bytes" = none ∧ (∃ r, e.var "var" = .ok r) ∧ (∃ t, e.tests = .ok [t]) ∧
        e.only ["var", "eq", "gt", "bit", "defined"] = .ok ()) := by
    simp only [guard_eq_ok]
    constructor
    · intro h
      obtain ⟨g, h⟩ := h
      cases g with
      | bytes pattern convert => exact .inl ⟨⟨pattern, h.1⟩, h.2.1, ⟨convert, h.2.2.1⟩, h.2.2.2⟩
      | var r t => exact .inr ⟨h.1, ⟨r, h.2.1⟩, ⟨t, h.2.2.1⟩, h.2.2.2⟩
    · intro h
      obtain ⟨⟨pattern, hp⟩, hvar, ⟨convert, hc⟩, ho⟩ | ⟨hb, ⟨r, hr⟩, ⟨t, ht⟩, ho⟩ := h
      · exact ⟨.bytes pattern convert, hp, hvar, hc, ho⟩
      · exact ⟨.var r t, hb, hr, ht, ho⟩
  rw [hguard, exists_test,
    honly ["bytes", "convert"] ["var", "eq", "gt", "bit", "defined"] (by decide) (by decide),
    honly ["var", "eq", "gt", "bit", "defined"] ["bytes", "convert"] (by decide) (by decide),
    honly ["var", "eq"] ["bytes", "convert", "gt", "bit", "defined"] (by decide) (by decide),
    honly ["var", "gt"] ["bytes", "convert", "eq", "bit", "defined"] (by decide) (by decide),
    honly ["var", "bit"] ["bytes", "convert", "eq", "gt", "defined"] (by decide) (by decide),
    honly ["var", "defined"] ["bytes", "convert", "eq", "gt", "bit"] (by decide) (by decide)]
  simp only [List.forall_mem_cons, List.not_mem_nil, false_imp_iff, implies_true, and_true]
  constructor
  · intro h
    obtain ⟨hbytes, hvar, hconvert, honly, -, heq, hgt, hbit, hd⟩ |
      ⟨hbytes, hr, htest, honly, -, hconvert⟩ := h
    · exact .inl ⟨⟨honly, hvar, heq, hgt, hbit, hd⟩, hbytes, hconvert⟩
    · obtain ⟨ho, hgt, hbit, hd⟩ | ⟨ho, heq, hbit, hd⟩ | ⟨ho, heq, hgt, hd⟩ |
        ⟨hd, heq, hgt, hbit⟩ := htest
      · exact .inr (.inl ⟨⟨honly, hbytes, hconvert, hgt, hbit, hd⟩, hr, ho⟩)
      · exact .inr (.inr (.inl ⟨⟨honly, hbytes, hconvert, heq, hbit, hd⟩, hr, ho⟩))
      · exact .inr (.inr (.inr (.inl ⟨⟨honly, hbytes, hconvert, heq, hgt, hd⟩, hr, ho⟩)))
      · exact .inr (.inr (.inr (.inr ⟨⟨honly, hbytes, hconvert, heq, hgt, hbit⟩, hr, hd⟩)))
  · intro h
    obtain ⟨⟨honly, hvar, hrest⟩, hbytes, hconvert⟩ |
      ⟨⟨honly, hbytes, hconvert, hrest⟩, hr, ho⟩ | ⟨⟨honly, hbytes, hconvert, hrest⟩, hr, ho⟩ |
      ⟨⟨honly, hbytes, hconvert, hrest⟩, hr, ho⟩ | ⟨⟨honly, hbytes, hconvert, hrest⟩, hr, hd⟩ := h
    · exact .inl ⟨hbytes, hvar, hconvert, honly, hvar, hrest⟩
    · exact .inr ⟨hbytes, hr, .inl ⟨ho, hrest⟩, honly, hbytes, hconvert⟩
    · exact .inr ⟨hbytes, hr, .inr (.inl ⟨ho, hrest⟩), honly, hbytes, hconvert⟩
    · exact .inr ⟨hbytes, hr, .inr (.inr (.inl ⟨ho, hrest⟩)), honly, hbytes, hconvert⟩
    · exact .inr ⟨hbytes, hr, .inr (.inr (.inr ⟨hd, hrest⟩)), honly, hbytes, hconvert⟩

theorem loopGuard_eq_ok {g : LoopGuard Reference} : e.loopGuard = .ok g ↔
    e.natural? "count" UInt64.size = .ok g.count ∧
      e.only ["remaining", "var", "until", "count"] = .ok () ∧
      match g.condition with
      | .remaining => e.get? "remaining" = some "true" ∧ e.get? "var" = none ∧
          e.get? "until" = none
      | .below r o => e.flag "remaining" = .ok false ∧ e.var "var" = .ok r ∧
          e.operand? "until" = .ok (some o)
      | .always => e.flag "remaining" = .ok false ∧ e.get? "var" = none ∧
          e.get? "until" = none ∧ g.count.isSome := by
  simp only [loopGuard, bind_eq_ok]
  constructor
  · intro h
    obtain ⟨remaining, hremaining, var, hvar, target, htarget, count, hcount, h⟩ := h
    split at h
    · simp only [pure_bind, bind_eq_ok, pure_eq_ok] at h
      obtain ⟨_, honly, rfl⟩ := h
      exact ⟨hcount, honly, flag_eq_true.1 hremaining, var?_eq_none.1 hvar,
        operand?_eq_none.1 htarget⟩
    · simp only [pure_bind, bind_eq_ok, pure_eq_ok] at h
      obtain ⟨_, honly, rfl⟩ := h
      exact ⟨hcount, honly, hremaining, var?_eq_some.1 hvar, htarget⟩
    · split at h
      · next hsome =>
        simp only [pure_bind, bind_eq_ok, pure_eq_ok] at h
        obtain ⟨_, honly, rfl⟩ := h
        exact ⟨hcount, honly, hremaining, var?_eq_none.1 hvar, operand?_eq_none.1 htarget, hsome⟩
      · cases h
    · cases h
    · cases h
    · cases h
  · intro h
    obtain ⟨condition, count⟩ := g
    obtain ⟨hcount, honly, h⟩ := h
    cases condition with
    | remaining =>
      obtain ⟨hremaining, hvar, htarget⟩ := h
      refine ⟨true, flag_eq_true.2 hremaining, none, var?_eq_none.2 hvar, none,
        operand?_eq_none.2 htarget, count, hcount, ?_⟩
      simp [honly]
    | below r o =>
      obtain ⟨hremaining, hvar, htarget⟩ := h
      refine ⟨false, hremaining, some r, var?_eq_some.2 hvar, some o, htarget, count, hcount, ?_⟩
      simp [honly]
    | always =>
      obtain ⟨hremaining, hvar, htarget, hsome⟩ := h
      have hsome' : count.isSome = true := hsome
      refine ⟨false, hremaining, none, var?_eq_none.2 hvar, none, operand?_eq_none.2 htarget, count,
        hcount, ?_⟩
      simp [honly, hsome']

theorem exists_loopGuard : (∃ g, e.loopGuard = .ok g) ↔
    (e.only ["remaining", "count"] = .ok () ∧ e.get? "remaining" = some "true" ∧
      ∃ o, e.natural? "count" UInt64.size = .ok o) ∨
    (e.only ["var", "until", "remaining", "count"] = .ok () ∧ (∃ r, e.var "var" = .ok r) ∧
      (∃ o, e.operand? "until" = .ok (some o)) ∧
      (∀ v, e.get? "remaining" = some v → v = "false") ∧
      ∃ o, e.natural? "count" UInt64.size = .ok o) ∨
    (e.only ["count", "remaining"] = .ok () ∧
      (∃ n, e.natural? "count" UInt64.size = .ok (some n)) ∧
      ∀ v, e.get? "remaining" = some v → v = "false") := by
  have honly (keys absent : List String)
      (h : ∀ key ∈ keys, key ∈ ["remaining", "var", "until", "count"])
      (ha : ["remaining", "var", "until", "count"].filter (· ∉ keys) = absent) :=
    only_iff_of_subset (e := e) h ha
  rw [honly ["remaining", "count"] ["var", "until"] (by decide) (by decide),
    honly ["var", "until", "remaining", "count"] [] (by decide) (by decide),
    honly ["count", "remaining"] ["var", "until"] (by decide) (by decide)]
  simp only [loopGuard_eq_ok, ← flag_eq_false, List.forall_mem_cons, List.not_mem_nil,
    false_imp_iff,
    implies_true, and_true]
  constructor
  · intro h
    obtain ⟨⟨condition, count⟩, hcount, honly, h⟩ := h
    cases condition with
    | remaining => exact .inl ⟨⟨honly, h.2⟩, h.1, count, hcount⟩
    | below r o => exact .inr (.inl ⟨honly, ⟨r, h.2.1⟩, ⟨o, h.2.2⟩, h.1, count, hcount⟩)
    | always =>
      obtain ⟨n, hn⟩ := Option.isSome_iff_exists.1 h.2.2.2
      exact .inr (.inr ⟨⟨honly, h.2.1, h.2.2.1⟩, ⟨n, hn ▸ hcount⟩, h.1⟩)
  · intro h
    obtain ⟨⟨honly, habsent⟩, hremaining, count, hcount⟩ |
      ⟨honly, ⟨r, hr⟩, ⟨o, ho⟩, hremaining, count, hcount⟩ |
      ⟨⟨honly, hvar, htarget⟩, ⟨n, hn⟩, hremaining⟩ := h
    · exact ⟨⟨.remaining, count⟩, hcount, honly, hremaining, habsent⟩
    · exact ⟨⟨.below r o, count⟩, hcount, honly, hremaining, hr, ho⟩
    · exact ⟨⟨.always, some n⟩, hn, honly, hremaining, hvar, htarget, rfl⟩

end Element

/-! Steps, and what they mention. -/

namespace Mentions

theorem declared_vars (vars : List Reference) : Declared declared { vars := vars } := by
  intro table r hr
  cases table <;> cases hr

theorem declared_field {r : Reference} {vars : List Reference} :
    Declared declared { fields := [r], vars := vars } ↔ declared .field r.id := by
  constructor
  · intro h
    exact h .field r (List.mem_singleton_self r)
  · intro h table s hs
    cases table with
    | field =>
      rw [List.mem_singleton.1 hs]
      exact h
    | _ => cases hs

theorem declared_block {r : Reference} :
    Declared declared { blocks := [r] } ↔ declared .block r.id := by
  constructor
  · intro h
    exact h .block r (List.mem_singleton_self r)
  · intro h table s hs
    cases table with
    | block =>
      rw [List.mem_singleton.1 hs]
      exact h
    | _ => cases hs

end Mentions

def Head.mentions : Head → Mentions
  | .act a => Mentions.ofAction a
  | .guarded g => { vars := guardVars g }
  | .loop g => { vars := conditionVars g.condition }
  | .selection => {}

def Head.inner : Head → Context
  | .act _ => .leaf
  | _ => .program

@[simp] theorem Head.inner_act (a : Action Reference) : (Head.act a).inner = .leaf := rfl

theorem exists_fieldStep {e : Element} :
    (∃ s, e.fieldStep = .ok s ∧ declared .field s.field.id) ↔
      e.only ["ref", "var", "offset", "limit", "tab"] = .ok () ∧
        (∃ v, e.required "ref" = .ok v ∧ declared .field v) ∧ (∃ o, e.var? "var" = .ok o) ∧
        (∃ o, e.operand? "offset" = .ok o) ∧ ∃ o, e.operand? "limit" = .ok o := by
  simp only [Element.fieldStep, bind_eq_ok, pure_eq_ok]
  constructor
  · intro h
    obtain ⟨_, ⟨v, hv, var, hvar, offset, hoffset, limit, hlimit, _, honly, rfl⟩, hd⟩ := h
    exact ⟨honly, ⟨v, hv, hd⟩, ⟨var, hvar⟩, ⟨offset, hoffset⟩, ⟨limit, hlimit⟩⟩
  · intro h
    obtain ⟨honly, ⟨v, hv, hd⟩, ⟨var, hvar⟩, ⟨offset, hoffset⟩, ⟨limit, hlimit⟩⟩ := h
    exact ⟨_, ⟨v, hv, var, hvar, offset, hoffset, limit, hlimit, (), honly, rfl⟩, hd⟩

theorem exists_printStep {e : Element} : (∃ s, e.printStep = .ok s) ↔
    e.only ["label", "var", "tab", "suppress", "hex"] = .ok () ∧
      (∃ v, e.required "label" = .ok v) ∧ (∃ r, e.var "var" = .ok r) ∧
      (∃ b, e.flag "suppress" = .ok b) ∧ ∃ b, e.flag "hex" = .ok b := by
  simp only [Element.printStep, bind_eq_ok, pure_eq_ok]
  constructor
  · intro h
    obtain ⟨_, label, hlabel, var, hvar, suppress, hsuppress, hex, hhex, _, honly, -⟩ := h
    exact ⟨honly, ⟨label, hlabel⟩, ⟨var, hvar⟩, ⟨suppress, hsuppress⟩, ⟨hex, hhex⟩⟩
  · intro h
    obtain ⟨honly, ⟨label, hlabel⟩, ⟨var, hvar⟩, ⟨suppress, hsuppress⟩, ⟨hex, hhex⟩⟩ := h
    exact ⟨_, label, hlabel, var, hvar, suppress, hsuppress, hex, hhex, (), honly, rfl⟩

theorem exists_arith (name : String) : (∃ op, ArithOp.ofName? name = some op) ↔
    name ∈ ["set", "mod", "add", "sub", "mul", "div"] := by
  unfold ArithOp.ofName?
  split <;> simp_all

theorem exists_execStep {e : Element} : (∃ s, e.execStep = .ok s) ↔
    e.only ["var", "op", "value", "signed", "size"] = .ok () ∧ (∃ r, e.var "var" = .ok r) ∧
      (∃ v ∈ ["set", "mod", "add", "sub", "mul", "div"], e.get? "op" = some v) ∧
      (∃ o, e.operand? "value" = .ok (some o)) ∧ (∃ b, e.flag "signed" = .ok b) ∧
      ∃ o, e.width? "size" = .ok o := by
  simp only [Element.execStep, bind_eq_ok, Element.required_eq_ok, ← exists_arith]
  constructor
  · intro h
    obtain ⟨_, var, hvar, name, hname, h⟩ := h
    cases hop : ArithOp.ofName? name with
    | none =>
      rw [hop] at h
      cases h
    | some op =>
      simp only [hop, pure_bind, bind_eq_ok, Element.demand_eq_ok] at h
      obtain ⟨_, hvalue, value, rfl, signed, hsigned, width, hwidth, _, honly, -⟩ := h
      exact ⟨honly, ⟨var, hvar⟩, ⟨name, ⟨op, hop⟩, hname⟩, ⟨value, hvalue⟩, ⟨signed, hsigned⟩,
        ⟨width, hwidth⟩⟩
  · intro h
    obtain ⟨honly, ⟨var, hvar⟩, ⟨name, ⟨op, hop⟩, hname⟩, ⟨value, hvalue⟩, ⟨signed, hsigned⟩,
      ⟨width, hwidth⟩⟩ := h
    refine ⟨⟨var, op, signed, value, width⟩, var, hvar, name, hname, ?_⟩
    simp [hop, hvalue, hsigned, hwidth, honly]

theorem allowed_step (e : Element) (inner : Content) : Allowed declared .program depth e inner ↔
    (e.name = "field" ∧ (∃ s, e.fieldStep = .ok s ∧ declared .field s.field.id) ∧ inner = .done) ∨
    (e.name = "match" ∧ (∃ g, e.guard = .ok g) ∧ inner.Conforms declared .program (depth + 1)) ∨
    (e.name = "loop" ∧ (∃ g, e.loopGuard = .ok g) ∧
      inner.Conforms declared .program (depth + 1)) ∨
    (e.name = "selection" ∧ e.only [] = .ok () ∧ inner.Conforms declared .program (depth + 1)) ∨
    (e.name = "block" ∧ (e.only ["ref"] = .ok () ∧ ∃ v, e.required "ref" = .ok v ∧
      declared .block v) ∧ inner = .done) ∨
    (e.name = "print" ∧ (∃ s, e.printStep = .ok s) ∧ inner = .done) ∨
    (e.name = "exec" ∧ (∃ s, e.execStep = .ok s) ∧ inner = .done) ∨
    (e.name = "section" ∧ (e.only ["title"] = .ok () ∧ ∃ v, e.required "title" = .ok v) ∧
      inner = .done) ∨
    (e.name = "insert" ∧ (e.only ["tab"] = .ok () ∧ ∃ v, e.required "tab" = .ok v) ∧
      inner = .done) := by
  rw [exists_fieldStep, Element.exists_guard, Element.exists_loopGuard]
  -- the forms are told apart first, then written as what they read
  simp only [or_and_right, and_or_left, or_assoc, and_assoc]
  rw [exists_printStep, exists_execStep, allowed_iff]
  simp only [Context.elements, List.exists_mem_cons_iff]
  simp [and_assoc]

theorem head_eq_ok {e : Element} {h : Head} : e.head = .ok h ↔
    match h with
    | .act (.field s) => e.name = "field" ∧ e.fieldStep = .ok s
    | .guarded g => e.name = "match" ∧ e.guard = .ok g
    | .loop g => e.name = "loop" ∧ e.loopGuard = .ok g
    | .selection => e.name = "selection" ∧ e.only [] = .ok ()
    | .act (.block r) => e.name = "block" ∧ e.only ["ref"] = .ok () ∧
        ∃ v, e.required "ref" = .ok v ∧ e.mention v = r
    | .act (.print s) => e.name = "print" ∧ e.printStep = .ok s
    | .act (.exec s) => e.name = "exec" ∧ e.execStep = .ok s
    | .act (.title text) => e.name = "section" ∧ e.only ["title"] = .ok () ∧
        e.required "title" = .ok text
    | .act (.insert tab) => e.name = "insert" ∧ e.only ["tab"] = .ok () ∧
        e.required "tab" = .ok tab := by
  constructor
  · intro hh
    unfold Element.head at hh
    split at hh
    · next hn =>
      simp only [bind_eq_ok, pure_eq_ok] at hh
      obtain ⟨s, hs, rfl⟩ := hh
      exact ⟨hn, hs⟩
    · next hn =>
      simp only [bind_eq_ok, pure_eq_ok] at hh
      obtain ⟨g, hg, rfl⟩ := hh
      exact ⟨hn, hg⟩
    · next hn =>
      simp only [bind_eq_ok, pure_eq_ok] at hh
      obtain ⟨g, hg, rfl⟩ := hh
      exact ⟨hn, hg⟩
    · next hn =>
      simp only [bind_eq_ok, pure_eq_ok] at hh
      obtain ⟨_, honly, rfl⟩ := hh
      exact ⟨hn, honly⟩
    · next hn =>
      simp only [bind_eq_ok, pure_eq_ok] at hh
      obtain ⟨v, hv, _, honly, rfl⟩ := hh
      exact ⟨hn, honly, v, hv, rfl⟩
    · next hn =>
      simp only [bind_eq_ok, pure_eq_ok] at hh
      obtain ⟨s, hs, rfl⟩ := hh
      exact ⟨hn, hs⟩
    · next hn =>
      simp only [bind_eq_ok, pure_eq_ok] at hh
      obtain ⟨s, hs, rfl⟩ := hh
      exact ⟨hn, hs⟩
    · next hn =>
      simp only [bind_eq_ok, pure_eq_ok] at hh
      obtain ⟨v, hv, _, honly, rfl⟩ := hh
      exact ⟨hn, honly, hv⟩
    · next hn =>
      simp only [bind_eq_ok, pure_eq_ok] at hh
      obtain ⟨v, hv, _, honly, rfl⟩ := hh
      exact ⟨hn, honly, hv⟩
    · cases hh
  · intro hh
    cases h with
    | act a =>
      cases a with
      | field s => simp [Element.head, hh.1, hh.2]
      | block r =>
        obtain ⟨hn, honly, v, hv, rfl⟩ := hh
        simp [Element.head, hn, honly, hv]
      | print s => simp [Element.head, hh.1, hh.2]
      | exec s => simp [Element.head, hh.1, hh.2]
      | title text => simp [Element.head, hh.1, hh.2.1, hh.2.2]
      | insert tab => simp [Element.head, hh.1, hh.2.1, hh.2.2]
    | guarded g => simp [Element.head, hh.1, hh.2]
    | loop g => simp [Element.head, hh.1, hh.2]
    | selection => simp [Element.head, hh.1, hh.2]

theorem head_allowed (e : Element) (inner : Content) :
    (∃ h, e.head = .ok h ∧ h.mentions.Declared declared ∧
      inner.Conforms declared h.inner (depth + 1)) ↔ Allowed declared .program depth e inner := by
  rw [allowed_step]
  constructor
  · intro h
    obtain ⟨h, hh, hd, hinner⟩ := h
    have hread := head_eq_ok.1 hh
    cases h with
    | act a =>
      have hdone : inner = .done := conforms_leaf.1 hinner
      cases a with
      | field s =>
        exact .inl ⟨hread.1, ⟨s, hread.2, Mentions.declared_field.1 hd⟩, hdone⟩
      | block r =>
        obtain ⟨hn, honly, v, hv, rfl⟩ := hread
        exact .inr (.inr (.inr (.inr (.inl
          ⟨hn, ⟨honly, v, hv, Mentions.declared_block.1 hd⟩, hdone⟩))))
      | print s => exact .inr (.inr (.inr (.inr (.inr (.inl ⟨hread.1, ⟨s, hread.2⟩, hdone⟩)))))
      | exec s =>
        exact .inr (.inr (.inr (.inr (.inr (.inr (.inl ⟨hread.1, ⟨s, hread.2⟩, hdone⟩))))))
      | title text =>
        exact .inr (.inr (.inr (.inr (.inr (.inr (.inr (.inl
          ⟨hread.1, ⟨hread.2.1, text, hread.2.2⟩, hdone⟩)))))))
      | insert tab =>
        exact .inr (.inr (.inr (.inr (.inr (.inr (.inr (.inr
          ⟨hread.1, ⟨hread.2.1, tab, hread.2.2⟩, hdone⟩)))))))
    | guarded g => exact .inr (.inl ⟨hread.1, ⟨g, hread.2⟩, hinner⟩)
    | loop g => exact .inr (.inr (.inl ⟨hread.1, ⟨g, hread.2⟩, hinner⟩))
    | selection => exact .inr (.inr (.inr (.inl ⟨hread.1, hread.2, hinner⟩)))
  · intro h
    obtain ⟨hn, ⟨s, hs, hd⟩, hinner⟩ | ⟨hn, ⟨g, hg⟩, hinner⟩ | ⟨hn, ⟨g, hg⟩, hinner⟩ |
      ⟨hn, honly, hinner⟩ | ⟨hn, ⟨honly, v, hv, hd⟩, hinner⟩ | ⟨hn, ⟨s, hs⟩, hinner⟩ |
      ⟨hn, ⟨s, hs⟩, hinner⟩ | ⟨hn, ⟨honly, v, hv⟩, hinner⟩ | ⟨hn, ⟨honly, v, hv⟩, hinner⟩ := h
    · exact ⟨.act (.field s), head_eq_ok.2 ⟨hn, hs⟩, Mentions.declared_field.2 hd,
        conforms_leaf.2 hinner⟩
    · exact ⟨.guarded g, head_eq_ok.2 ⟨hn, hg⟩, Mentions.declared_vars _, hinner⟩
    · exact ⟨.loop g, head_eq_ok.2 ⟨hn, hg⟩, Mentions.declared_vars _, hinner⟩
    · exact ⟨.selection, head_eq_ok.2 ⟨hn, honly⟩, Mentions.declared_vars _, hinner⟩
    · exact ⟨.act (.block (e.mention v)), head_eq_ok.2 ⟨hn, honly, v, hv, rfl⟩,
        Mentions.declared_block.2 hd, conforms_leaf.2 hinner⟩
    · exact ⟨.act (.print s), head_eq_ok.2 ⟨hn, hs⟩, Mentions.declared_vars _,
        conforms_leaf.2 hinner⟩
    · exact ⟨.act (.exec s), head_eq_ok.2 ⟨hn, hs⟩, Mentions.declared_vars _,
        conforms_leaf.2 hinner⟩
    · exact ⟨.act (.title v), head_eq_ok.2 ⟨hn, honly, hv⟩, Mentions.declared_vars _,
        conforms_leaf.2 hinner⟩
    · exact ⟨.act (.insert v), head_eq_ok.2 ⟨hn, honly, hv⟩, Mentions.declared_vars _,
        conforms_leaf.2 hinner⟩

/-- A step in front of others. Only a step that can have one takes the body. -/
def Head.before (head : Head) (body rest : Program Reference) : Program Reference :=
  match head with
  | .act a => .act a rest
  | .guarded g => .guarded g body rest
  | .loop g => .loop g body rest
  | .selection => .selection body rest

theorem Head.declared_before {head : Head} {body rest : Program Reference}
    (hbody : head.inner = .leaf → body = .done) :
    (Mentions.ofProgram (head.before body rest)).Declared declared ↔
      head.mentions.Declared declared ∧ (Mentions.ofProgram body).Declared declared ∧
        (Mentions.ofProgram rest).Declared declared := by
  have hnone : Mentions.Declared declared {} := Mentions.declared_vars []
  cases head with
  | act a =>
    rw [hbody rfl]
    exact Mentions.declared_append.trans (and_congr_right fun _ => (and_iff_right hnone).symm)
  | guarded g => exact Mentions.declared_append.trans (and_congr_right' Mentions.declared_append)
  | loop g => exact Mentions.declared_append.trans (and_congr_right' Mentions.declared_append)
  | selection => exact Mentions.declared_append.trans (and_iff_right hnone).symm

theorem program_eq_done {c : Content} : c.program parent depth = .ok .done ↔ c = .done := by
  cases c with
  | done => simp [Content.program]
  | blemish offset cause => simp [Content.program]
  | element tag inner rest =>
    simp only [Content.program, bind_eq_ok, reduceCtorEq, iff_false]
    intro h
    obtain ⟨e, -, head, -, h⟩ := h
    cases head <;> simp at h

theorem program_element {tag : Tag} {inner rest : Content} {p : Program Reference} :
    (Content.element tag inner rest).program parent depth = .ok p ↔
      ∃ e head body after, tag.enter depth = .ok e ∧ e.head = .ok head ∧
        inner.program e.name (depth + 1) = .ok body ∧ (head.inner = .leaf → body = .done) ∧
        rest.program parent depth = .ok after ∧ head.before body after = p := by
  simp only [Content.program, bind_eq_ok]
  constructor
  · intro h
    obtain ⟨e, he, head, hhead, h⟩ := h
    cases head with
    | act a =>
      simp only [bind_eq_ok, nothing_eq_ok, pure_eq_ok] at h
      obtain ⟨_, hinner, after, hafter, rfl⟩ := h
      exact ⟨e, _, .done, after, he, hhead, program_eq_done.2 hinner, fun _ => rfl, hafter, rfl⟩
    | _ =>
      simp only [bind_eq_ok, pure_eq_ok] at h
      obtain ⟨body, hbody, after, hafter, rfl⟩ := h
      refine ⟨e, _, body, after, he, hhead, hbody, ?_, hafter, rfl⟩
      intro hleaf
      cases hleaf
  · intro h
    obtain ⟨e, head, body, after, he, hhead, hbody, hleaf, hafter, rfl⟩ := h
    refine ⟨e, he, head, hhead, ?_⟩
    cases head with
    | act a =>
      simp only [bind_eq_ok, nothing_eq_ok, pure_eq_ok]
      exact ⟨(), program_eq_done.1 (hleaf rfl ▸ hbody), after, hafter, rfl⟩
    | _ =>
      simp only [bind_eq_ok, pure_eq_ok]
      exact ⟨body, hbody, after, hafter, rfl⟩

/-- A program can be read, and what it mentions is declared, if its elements are steps. -/
theorem exists_program {c : Content} :
    (∃ p, c.program parent depth = .ok p ∧ (Mentions.ofProgram p).Declared declared) ↔
      c.Conforms declared .program depth := by
  induction c generalizing parent depth with
  | done =>
    simpa [Content.program, Content.Conforms, Mentions.ofProgram] using Mentions.declared_vars []
  | blemish offset cause => simp [Content.program, Content.Conforms]
  | element tag inner rest ihinner ihrest =>
    have hinside (name : String) (head : Head) :
        (∃ body, inner.program name (depth + 1) = .ok body ∧ (head.inner = .leaf → body = .done) ∧
          (Mentions.ofProgram body).Declared declared) ↔
            inner.Conforms declared head.inner (depth + 1) := by
      cases head with
      | act a =>
        rw [Head.inner_act, conforms_leaf, ← @program_eq_done name (depth + 1)]
        constructor
        · intro h
          obtain ⟨body, hbody, hleaf, -⟩ := h
          rw [hbody, hleaf rfl]
        · intro h
          exact ⟨.done, h, fun _ => rfl, Mentions.declared_vars []⟩
      | _ =>
        refine Iff.trans ?_ (@ihinner name (depth + 1))
        refine exists_congr fun body => and_congr_right fun _ => and_iff_right ?_
        intro hleaf
        cases hleaf
    rw [conforms_element]
    simp only [← head_allowed, ← @ihrest parent, program_element]
    constructor
    · intro h
      obtain ⟨_, ⟨e, head, body, after, he, hhead, hbody, hleaf, hafter, rfl⟩, hd⟩ := h
      obtain ⟨hmentions, hdb, hda⟩ := (Head.declared_before hleaf).1 hd
      have hinner := (hinside e.name head).1 ⟨body, hbody, hleaf, hdb⟩
      exact ⟨⟨e, he, head, hhead, hmentions, hinner⟩, after, hafter, hda⟩
    · intro h
      obtain ⟨⟨e, he, head, hhead, hmentions, hinner⟩, after, hafter, hda⟩ := h
      obtain ⟨body, hbody, hleaf, hdb⟩ := (hinside e.name head).2 hinner
      exact ⟨_, ⟨e, head, body, after, he, hhead, hbody, hleaf, hafter, rfl⟩,
        (Head.declared_before hleaf).2 ⟨hmentions, hdb, hda⟩⟩

/-! Blocks, which are programs under identifiers. -/

def BlockDecl.Read (e : Element) (inner : Content) (x : BlockDecl) : Prop :=
  e.name = "block-def" ∧ e.required "id" = .ok x.id ∧ e.only ["id"] = .ok () ∧
    inner.program e.name 4 = .ok x.program ∧ x.offset = e.offset

theorem addBlock_eq_ok {decls decls' : List BlockDecl} {e : Element} {inner : Content} :
    addBlock decls e inner = .ok decls' ↔ ∃ x, BlockDecl.Read e inner x ∧
      x.id ∉ decls.map (·.id) ∧ decls ++ [x] = decls' := by
  simp only [addBlock, check_eq_ok, bind_eq_ok, pure_eq_ok, any_key_iff, Decidable.not_not]
  constructor
  · intro h
    obtain ⟨hn, id, hid, hnew, _, honly, program, hprogram, rfl⟩ := h
    exact ⟨⟨id, program, e.offset⟩, ⟨hn, hid, honly, hprogram, rfl⟩, hnew, rfl⟩
  · intro h
    obtain ⟨x, ⟨hn, hid, honly, hprogram, hoffset⟩, hnew, rfl⟩ := h
    refine ⟨hn, _, hid, hnew, (), honly, _, hprogram, ?_⟩
    rw [← hoffset]

theorem block_allowed (e : Element) (inner : Content) :
    (∃ x, BlockDecl.Read e inner x ∧ (Mentions.ofProgram x.program).Declared declared) ↔
      Allowed declared .blocks 3 e inner := by
  have hallowed : Allowed declared .blocks 3 e inner ↔ e.name = "block-def" ∧
      e.only ["id"] = .ok () ∧ (∃ id, e.required "id" = .ok id) ∧
      inner.Conforms declared .program 4 := by
    simp [allowed_iff, Context.elements]
  rw [hallowed, ← @exists_program declared e.name]
  constructor
  · intro h
    obtain ⟨x, ⟨hn, hid, honly, hprogram, -⟩, hd⟩ := h
    exact ⟨hn, honly, ⟨_, hid⟩, x.program, hprogram, hd⟩
  · intro h
    obtain ⟨hn, honly, ⟨id, hid⟩, program, hprogram, hd⟩ := h
    exact ⟨⟨id, program, e.offset⟩, ⟨hn, hid, honly, hprogram, rfl⟩, hd⟩

theorem blocks_eq_ok {c : Content} {decls : List BlockDecl} :
    c.fold parent depth addBlock [] = .ok decls ↔
      c.Each depth BlockDecl.Read decls ∧ (decls.map (·.id)).Nodup := by
  apply Content.fold_distinct_eq_ok
  intro _ _ _ _
  exact addBlock_eq_ok

end Dissect.Document
