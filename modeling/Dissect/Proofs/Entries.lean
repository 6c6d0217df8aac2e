import Dissect.Proofs.Rows

/-! Entries of tables, steps of signatures and parts of fields: what the reader of each kind of
element accepts is what the grammar allows. -/
namespace Dissect.Document
variable {declared : Table → String → Prop} {parent : String} {depth : Nat}

/-! ## Options and flags -/

def OptionEntry.Read (e : Element) (inner : Content) (x : OptionEntry) : Prop :=
  e.name = "option" ∧ e.required "name" = .ok x.name ∧ e.hex "value" = .ok x.pattern ∧
    e.only ["name", "value"] = .ok () ∧ inner = .done

theorem addOption_eq_ok {entries entries' : List OptionEntry} {e : Element} {inner : Content} :
    addOption entries e inner = .ok entries' ↔
      ∃ x, OptionEntry.Read e inner x ∧ entries ++ [x] = entries' := by
  simp only [addOption, check_eq_ok, bind_eq_ok, pure_eq_ok, nothing_eq_ok, Decidable.not_not]
  constructor
  · intro h
    obtain ⟨hn, name, hname, bytes, hbytes, _, honly, _, hinner, rfl⟩ := h
    exact ⟨⟨name, bytes⟩, ⟨hn, hname, hbytes, honly, hinner⟩, rfl⟩
  · intro h
    obtain ⟨x, ⟨hn, hname, hbytes, honly, hinner⟩, rfl⟩ := h
    exact ⟨hn, x.name, hname, x.pattern, hbytes, (), honly, (), hinner, rfl⟩

theorem option_allowed (e : Element) (inner : Content) :
    (∃ x, OptionEntry.Read e inner x) ↔ Allowed declared .options 5 e inner := by
  have hallowed : Allowed declared .options 5 e inner ↔ e.name = "option" ∧
      e.only ["name", "value"] = .ok () ∧ (∃ name, e.required "name" = .ok name) ∧
      (∃ bytes, e.hex "value" = .ok bytes) ∧ inner = .done := by
    simp [allowed_iff, Context.elements, and_assoc]
  rw [hallowed]
  constructor
  · intro h
    obtain ⟨x, hn, hname, hbytes, honly, hinner⟩ := h
    exact ⟨hn, honly, ⟨x.name, hname⟩, ⟨x.pattern, hbytes⟩, hinner⟩
  · intro h
    obtain ⟨hn, honly, ⟨name, hname⟩, ⟨bytes, hbytes⟩, hinner⟩ := h
    exact ⟨⟨name, bytes⟩, hn, hname, hbytes, honly, hinner⟩

theorem options_eq_ok {c : Content} {entries : List OptionEntry} :
    c.fold parent depth addOption [] = .ok entries ↔ c.Each depth OptionEntry.Read entries := by
  apply Content.fold_append_eq_ok
  intro _ _ _ _
  exact addOption_eq_ok

theorem number_eq_zero {bytes : List UInt8} :
    Bytes.number bytes = 0 ↔ ∀ b ∈ bytes, b = 0 := by
  have h (acc : Nat) : bytes.foldl (fun n b => n * 256 + b.toNat) acc = 0 ↔
      acc = 0 ∧ ∀ b ∈ bytes, b = 0 := by
    induction bytes generalizing acc with
    | nil => simp
    | cons b bytes ih =>
      have hb : acc * 256 + b.toNat = 0 ↔ acc = 0 ∧ b = 0 := by
        rw [← UInt8.toNat_inj, UInt8.toNat_zero]
        omega
      rw [List.foldl_cons, ih, List.forall_mem_cons, hb, and_assoc]
  rw [Bytes.number, h 0]
  simp

theorem number_lt (bytes : List UInt8) : Bytes.number bytes < 1 <<< (8 * bytes.length) := by
  have hradix : 256 = 1 <<< 8 := rfl
  exact foldl_lt_shiftLeft hradix (fun b _ => b.toNat_lt) 0

theorem number_lt_size {bytes : List UInt8} (h : bytes.length ≤ 8) :
    Bytes.number bytes < UInt64.size :=
  calc Bytes.number bytes < 1 <<< (8 * bytes.length) := number_lt bytes
    _ = 2 ^ (8 * bytes.length) := by rw [Nat.shiftLeft_eq, Nat.one_mul]
    _ ≤ 2 ^ 64 := Nat.pow_le_pow_right (by decide) (by omega)

theorem word?_ne_zero {bytes : List UInt8} : (∃ mask, Bytes.word? bytes = some mask ∧ mask ≠ 0) ↔
    bytes.length ≤ 8 ∧ ∃ b ∈ bytes, b ≠ 0 := by
  rw [Bytes.word?]
  by_cases hlen : bytes.length ≤ 8
  · have hz : UInt64.ofNat (Bytes.number bytes) = 0 ↔ Bytes.number bytes = 0 := by
      rw [← UInt64.toNat_inj, UInt64.toNat_ofNat', Nat.mod_eq_of_lt (number_lt_size hlen)]
      rfl
    simp [hlen, hz, number_eq_zero]
  · simp [hlen]

def FlagEntry.Read (e : Element) (inner : Content) (x : FlagEntry) : Prop :=
  e.name = "flag" ∧ e.required "name" = .ok x.name ∧
    (∃ bytes, e.hex "mask" = .ok bytes ∧ Bytes.word? bytes = some x.mask) ∧ x.mask ≠ 0 ∧
    e.only ["name", "mask", "meaning"] = .ok () ∧ inner = .done ∧
    (e.get? "meaning").getD "" = x.meaning

theorem addFlag_eq_ok {entries entries' : List FlagEntry} {e : Element} {inner : Content} :
    addFlag entries e inner = .ok entries' ↔
      ∃ x, FlagEntry.Read e inner x ∧ entries ++ [x] = entries' := by
  simp only [addFlag, check_eq_ok, bind_eq_ok, Decidable.not_not]
  constructor
  · intro h
    obtain ⟨hn, name, hname, bytes, hbytes, h⟩ := h
    cases hw : Bytes.word? bytes with
    | none =>
      rw [hw] at h
      cases h
    | some mask =>
      simp only [hw, check_eq_ok, bind_eq_ok, pure_eq_ok, nothing_eq_ok] at h
      obtain ⟨hmask, _, honly, _, hinner, rfl⟩ := h
      exact ⟨⟨name, mask, _⟩, ⟨hn, hname, ⟨bytes, hbytes, hw⟩, hmask, honly, hinner, rfl⟩, rfl⟩
  · intro h
    obtain ⟨⟨name, mask, meaning⟩, ⟨hn, hname, ⟨bytes, hbytes, hw⟩, hmask, honly, hinner, rfl⟩,
      rfl⟩ := h
    refine ⟨hn, name, hname, bytes, hbytes, ?_⟩
    simp only [hw, check_eq_ok, bind_eq_ok, pure_eq_ok, nothing_eq_ok]
    exact ⟨hmask, (), honly, (), hinner, trivial⟩

theorem flag_allowed (e : Element) (inner : Content) :
    (∃ x, FlagEntry.Read e inner x) ↔ Allowed declared .flags 5 e inner := by
  have hallowed : Allowed declared .flags 5 e inner ↔ e.name = "flag" ∧
      e.only ["name", "mask", "meaning"] = .ok () ∧ (∃ name, e.required "name" = .ok name) ∧
      (∃ bytes, e.hex "mask" = .ok bytes ∧ bytes.length ≤ 8 ∧ ∃ b ∈ bytes, b ≠ 0) ∧
      inner = .done := by
    simp [allowed_iff, Context.elements, and_assoc]
  rw [hallowed]
  simp only [← word?_ne_zero]
  constructor
  · intro h
    obtain ⟨x, hn, hname, ⟨bytes, hbytes, hw⟩, hmask, honly, hinner, -⟩ := h
    exact ⟨hn, honly, ⟨x.name, hname⟩, ⟨bytes, hbytes, x.mask, hw, hmask⟩, hinner⟩
  · intro h
    obtain ⟨hn, honly, ⟨name, hname⟩, ⟨bytes, hbytes, mask, hw, hmask⟩, hinner⟩ := h
    exact ⟨⟨name, mask, _⟩, hn, hname, ⟨bytes, hbytes, hw⟩, hmask, honly, hinner, rfl⟩

theorem flags_eq_ok {c : Content} {entries : List FlagEntry} :
    c.fold parent depth addFlag [] = .ok entries ↔ c.Each depth FlagEntry.Read entries := by
  apply Content.fold_append_eq_ok
  intro _ _ _ _
  exact addFlag_eq_ok

/-! ## Colors -/

def ColorDecl.Read (e : Element) (inner : Content) (x : ColorDecl) : Prop :=
  e.name = "color" ∧ e.required "id" = .ok x.color.id ∧
    e.natural? "index" UInt32.size = .ok (some x.color.index) ∧
    e.flag "background" = .ok x.color.background ∧
    e.only ["id", "index", "name", "background"] = .ok () ∧ inner = .done ∧
    x.color.name = (e.get? "name").getD x.color.id ∧ x.offset = e.offset

theorem addColor_eq_ok {decls decls' : List ColorDecl} {e : Element} {inner : Content} :
    addColor decls e inner = .ok decls' ↔ ∃ x, ColorDecl.Read e inner x ∧
      x.color.id ∉ decls.map (·.color.id) ∧ decls ++ [x] = decls' := by
  simp only [addColor, check_eq_ok, bind_eq_ok, pure_eq_ok, nothing_eq_ok, Element.demand_eq_ok,
    any_key_iff, Decidable.not_not]
  constructor
  · intro h
    obtain ⟨hn, id, hid, hnew, _, hindex, index, rfl, background, hflag, _, honly, _, hinner,
      rfl⟩ := h
    exact ⟨⟨⟨id, _, index, background⟩, e.offset⟩,
      ⟨hn, hid, hindex, hflag, honly, hinner, rfl, rfl⟩, hnew, rfl⟩
  · intro h
    obtain ⟨x, ⟨hn, hid, hindex, hflag, honly, hinner, hname, hoffset⟩, hnew, rfl⟩ := h
    refine ⟨hn, _, hid, hnew, _, hindex, _, rfl, _, hflag, (), honly, (), hinner, ?_⟩
    rw [← hname, ← hoffset]

theorem color_allowed (e : Element) (inner : Content) :
    (∃ x, ColorDecl.Read e inner x) ↔ Allowed declared .colors 3 e inner := by
  have hallowed : Allowed declared .colors 3 e inner ↔ e.name = "color" ∧
      e.only ["id", "index", "name", "background"] = .ok () ∧ (∃ id, e.required "id" = .ok id) ∧
      (∃ index, e.natural? "index" UInt32.size = .ok (some index)) ∧
      (∃ background, e.flag "background" = .ok background) ∧ inner = .done := by
    simp [allowed_iff, Context.elements, and_assoc]
  rw [hallowed]
  constructor
  · intro h
    obtain ⟨x, hn, hid, hindex, hflag, honly, hinner, -⟩ := h
    exact ⟨hn, honly, ⟨_, hid⟩, ⟨_, hindex⟩, ⟨_, hflag⟩, hinner⟩
  · intro h
    obtain ⟨hn, honly, ⟨id, hid⟩, ⟨index, hindex⟩, ⟨background, hflag⟩, hinner⟩ := h
    exact ⟨⟨⟨id, (e.get? "name").getD id, index, background⟩, e.offset⟩, hn, hid, hindex, hflag,
      honly, hinner, rfl, rfl⟩

theorem colors_eq_ok {c : Content} {decls : List ColorDecl} :
    c.fold parent depth addColor [] = .ok decls ↔
      c.Each depth ColorDecl.Read decls ∧ (decls.map (·.color.id)).Nodup := by
  apply Content.fold_distinct_eq_ok
  intro _ _ _ _
  exact addColor_eq_ok

/-! ## Signatures -/

def MagicStep.Read (e : Element) (inner : Content) : MagicStep Reference → Prop
  | .pattern bytes offset => e.name = "match" ∧ e.hex "value" = .ok bytes ∧
      e.operand? "offset" = .ok offset ∧ e.only ["value", "offset"] = .ok () ∧ inner = .done
  | .capture var width offset => e.name = "read" ∧ e.var "var" = .ok var ∧
      e.width? "size" = .ok (some width) ∧ e.operand? "offset" = .ok offset ∧
      e.only ["var", "size", "offset"] = .ok () ∧ inner = .done

theorem addMagicStep_eq_ok {steps steps' : Signature Reference} {e : Element} {inner : Content} :
    addMagicStep steps e inner = .ok steps' ↔
      ∃ x, MagicStep.Read e inner x ∧ steps ++ [x] = steps' := by
  constructor
  · intro h
    unfold addMagicStep at h
    split at h
    · next hn =>
      simp only [bind_eq_ok, pure_eq_ok, nothing_eq_ok] at h
      obtain ⟨bytes, hbytes, offset, hoffset, _, honly, _, rfl, _, hinner, rfl⟩ := h
      exact ⟨.pattern bytes offset, ⟨hn, hbytes, hoffset, honly, hinner⟩, rfl⟩
    · next hn =>
      simp only [bind_eq_ok, pure_eq_ok, nothing_eq_ok, Element.demand_eq_ok] at h
      obtain ⟨var, hvar, _, hsize, width, rfl, offset, hoffset, _, honly, _, rfl, _, hinner,
        rfl⟩ := h
      exact ⟨.capture var width offset, ⟨hn, hvar, hsize, hoffset, honly, hinner⟩, rfl⟩
    · cases h
  · intro h
    obtain ⟨x, hread, rfl⟩ := h
    cases x with
    | pattern bytes offset =>
      obtain ⟨hn, hbytes, hoffset, honly, rfl⟩ := hread
      simp [addMagicStep, hn, hbytes, hoffset, honly]
    | capture var width offset =>
      obtain ⟨hn, hvar, hsize, hoffset, honly, rfl⟩ := hread
      simp [addMagicStep, hn, hvar, hsize, hoffset, honly]

theorem magicStep_allowed (e : Element) (inner : Content) :
    (∃ x, MagicStep.Read e inner x) ↔ Allowed declared .signature 4 e inner := by
  have hallowed : Allowed declared .signature 4 e inner ↔
      (e.name = "match" ∧ e.only ["value", "offset"] = .ok () ∧
        (∃ bytes, e.hex "value" = .ok bytes) ∧ (∃ o, e.operand? "offset" = .ok o) ∧
        inner = .done) ∨
      (e.name = "read" ∧ e.only ["var", "size", "offset"] = .ok () ∧
        (∃ r, e.var "var" = .ok r) ∧ (∃ w, e.width? "size" = .ok (some w)) ∧
        (∃ o, e.operand? "offset" = .ok o) ∧ inner = .done) := by
    simp [allowed_iff, Context.elements, and_assoc]
  rw [hallowed]
  constructor
  · intro h
    obtain ⟨x, hread⟩ := h
    cases x with
    | pattern bytes offset =>
      obtain ⟨hn, hbytes, hoffset, honly, hinner⟩ := hread
      exact .inl ⟨hn, honly, ⟨_, hbytes⟩, ⟨_, hoffset⟩, hinner⟩
    | capture var width offset =>
      obtain ⟨hn, hvar, hsize, hoffset, honly, hinner⟩ := hread
      exact .inr ⟨hn, honly, ⟨_, hvar⟩, ⟨_, hsize⟩, ⟨_, hoffset⟩, hinner⟩
  · intro h
    obtain ⟨hn, honly, ⟨bytes, hbytes⟩, ⟨offset, hoffset⟩, hinner⟩ |
      ⟨hn, honly, ⟨var, hvar⟩, ⟨width, hsize⟩, ⟨offset, hoffset⟩, hinner⟩ := h
    · exact ⟨.pattern bytes offset, hn, hbytes, hoffset, honly, hinner⟩
    · exact ⟨.capture var width offset, hn, hvar, hsize, hoffset, honly, hinner⟩

theorem magicSteps_eq_ok {c : Content} {steps : Signature Reference} :
    c.fold parent depth addMagicStep [] = .ok steps ↔ c.Each depth MagicStep.Read steps := by
  apply Content.fold_append_eq_ok
  intro _ _ _ _
  exact addMagicStep_eq_ok

def Signature.Read (e : Element) (inner : Content) (x : Signature Reference) : Prop :=
  e.name = "signature" ∧ e.only [] = .ok () ∧ inner.Each 4 MagicStep.Read x ∧ x ≠ []

theorem addSignature_eq_ok {signatures signatures' : List (Signature Reference)} {e : Element}
    {inner : Content} : addSignature signatures e inner = .ok signatures' ↔
      ∃ x, Signature.Read e inner x ∧ signatures ++ [x] = signatures' := by
  simp only [addSignature, check_eq_ok, bind_eq_ok, pure_eq_ok, magicSteps_eq_ok, Decidable.not_not]
  constructor
  · intro h
    obtain ⟨hn, _, honly, steps, hsteps, hne, rfl⟩ := h
    exact ⟨steps, ⟨hn, honly, hsteps, hne⟩, rfl⟩
  · intro h
    obtain ⟨steps, ⟨hn, honly, hsteps, hne⟩, rfl⟩ := h
    exact ⟨hn, (), honly, steps, hsteps, hne, rfl⟩

theorem signature_allowed (e : Element) (inner : Content) :
    (∃ x, Signature.Read e inner x) ↔ Allowed declared .magic 3 e inner := by
  have hallowed : Allowed declared .magic 3 e inner ↔ e.name = "signature" ∧
      e.only [] = .ok () ∧ inner.row ≠ [] ∧ inner.Conforms declared .signature 4 := by
    simp [allowed_iff, Context.elements]
  rw [hallowed, ← Content.each_iff_of_exists magicStep_allowed]
  constructor
  · intro h
    obtain ⟨steps, hn, honly, hsteps, hne⟩ := h
    exact ⟨hn, honly, fun hrow => hne (hsteps.row_eq_nil.1 hrow), steps, hsteps⟩
  · intro h
    obtain ⟨hn, honly, hrow, steps, hsteps⟩ := h
    exact ⟨steps, hn, honly, hsteps, fun h => hrow (hsteps.row_eq_nil.2 h)⟩

theorem signatures_eq_ok {c : Content} {signatures : List (Signature Reference)} :
    c.fold parent depth addSignature [] = .ok signatures ↔
      c.Each depth Signature.Read signatures := by
  apply Content.fold_append_eq_ok
  intro _ _ _ _
  exact addSignature_eq_ok

/-! ## Parts of fields -/

/-- What one element inside a field says. -/
inductive Part where
  | size (rule : SizeRule)
  | mask (bytes : List UInt8)
  | shift (bits : Nat)
  | encoding (form : Encoding)
  | print (mode : PrintMode)
  | options (entries : List OptionEntry)
  | flags (entries : List FlagEntry)

def Part.name : Part → String
  | .size _ => "size"
  | .mask _ => "mask"
  | .shift _ => "shift"
  | .encoding _ => "encoding"
  | .print _ => "print"
  | .options _ => "options"
  | .flags _ => "flags"

namespace FieldParts

def put (parts : FieldParts) : Part → FieldParts
  | .size rule => { parts with size := some rule }
  | .mask bytes => { parts with mask := some bytes }
  | .shift bits => { parts with shift := some bits }
  | .encoding form => { parts with encoding := some form }
  | .print mode => { parts with print := some mode }
  | .options entries => { parts with options := some entries }
  | .flags entries => { parts with flags := some entries }

def Lacks (parts : FieldParts) : Part → Prop
  | .size _ => parts.size = none
  | .mask _ => parts.mask = none
  | .shift _ => parts.shift = none
  | .encoding _ => parts.encoding = none
  | .print _ => parts.print = none
  | .options _ => parts.options = none
  | .flags _ => parts.flags = none

end FieldParts

def Part.Read (e : Element) (inner : Content) : Part → Prop
  | .size rule => e.name = "size" ∧ e.size = .ok rule ∧
      e.only ["fixed", "remaining", "terminator"] = .ok () ∧ inner = .done
  | .mask bytes => e.name = "mask" ∧ e.mask = .ok bytes ∧ e.only ["value"] = .ok () ∧ inner = .done
  | .shift bits => e.name = "shift" ∧ e.shift = .ok bits ∧ e.only ["bits"] = .ok () ∧ inner = .done
  | .encoding form => e.name = "encoding" ∧ e.encoding = .ok form ∧
      e.only ["value"] = .ok () ∧ inner = .done
  | .print mode => e.name = "print" ∧ e.printMode = .ok mode ∧ e.only ["mode"] = .ok () ∧
      inner = .done
  | .options entries => e.name = "options" ∧ e.only [] = .ok () ∧
      inner.Each 5 OptionEntry.Read entries ∧ entries ≠ []
  | .flags entries => e.name = "flags" ∧ e.only [] = .ok () ∧
      inner.Each 5 FlagEntry.Read entries ∧ entries ≠ []

theorem once_eq_ok {α : Type} {e : Element} {o : Option α} {u : Unit} :
    e.once o = .ok u ↔ o = none := by
  cases o <;> simp [Element.once]

theorem Part.name_of_read {e : Element} {inner : Content} {part : Part}
    (h : part.Read e inner) : e.name = part.name := by
  cases part <;> exact h.1

theorem addPart_eq_ok {parts parts' : FieldParts} {e : Element} {inner : Content} :
    addPart parts e inner = .ok parts' ↔
      ∃ part : Part, part.Read e inner ∧ parts.Lacks part ∧ parts.put part = parts' := by
  constructor
  · intro h
    unfold addPart at h
    split at h
    · next hn =>
      simp only [bind_eq_ok, pure_eq_ok, once_eq_ok, nothing_eq_ok] at h
      obtain ⟨size, hsize, _, hnew, _, honly, _, hinner, rfl⟩ := h
      exact ⟨.size size, ⟨hn, hsize, honly, hinner⟩, hnew, rfl⟩
    · next hn =>
      simp only [bind_eq_ok, pure_eq_ok, once_eq_ok, nothing_eq_ok] at h
      obtain ⟨bytes, hmask, _, hnew, _, honly, _, hinner, rfl⟩ := h
      exact ⟨.mask bytes, ⟨hn, hmask, honly, hinner⟩, hnew, rfl⟩
    · next hn =>
      simp only [bind_eq_ok, pure_eq_ok, once_eq_ok, nothing_eq_ok] at h
      obtain ⟨bits, hbits, _, hnew, _, honly, _, hinner, rfl⟩ := h
      exact ⟨.shift bits, ⟨hn, hbits, honly, hinner⟩, hnew, rfl⟩
    · next hn =>
      simp only [bind_eq_ok, pure_eq_ok, once_eq_ok, nothing_eq_ok] at h
      obtain ⟨encoding, hencoding, _, hnew, _, honly, _, hinner, rfl⟩ := h
      exact ⟨.encoding encoding, ⟨hn, hencoding, honly, hinner⟩, hnew, rfl⟩
    · next hn =>
      simp only [bind_eq_ok, pure_eq_ok, once_eq_ok, nothing_eq_ok] at h
      obtain ⟨mode, hmode, _, hnew, _, honly, _, hinner, rfl⟩ := h
      exact ⟨.print mode, ⟨hn, hmode, honly, hinner⟩, hnew, rfl⟩
    · next hn =>
      simp only [bind_eq_ok, pure_eq_ok, check_eq_ok, once_eq_ok, options_eq_ok,
        List.isEmpty_iff] at h
      obtain ⟨_, hnew, _, honly, entries, hentries, hne, rfl⟩ := h
      exact ⟨.options entries, ⟨hn, honly, hentries, hne⟩, hnew, rfl⟩
    · next hn =>
      simp only [bind_eq_ok, pure_eq_ok, check_eq_ok, once_eq_ok, flags_eq_ok,
        List.isEmpty_iff] at h
      obtain ⟨_, hnew, _, honly, entries, hentries, hne, rfl⟩ := h
      exact ⟨.flags entries, ⟨hn, honly, hentries, hne⟩, hnew, rfl⟩
    · cases h
  · rintro ⟨part, hread, hnew, rfl⟩
    cases part with
    | size rule =>
      obtain ⟨hn, hsize, honly, rfl⟩ := hread
      have hnone : parts.size = none := hnew
      simp [addPart, hn, hsize, once_eq_ok, hnone, honly, FieldParts.put]
    | mask bytes =>
      obtain ⟨hn, hmask, honly, rfl⟩ := hread
      have hnone : parts.mask = none := hnew
      simp [addPart, hn, hmask, once_eq_ok, hnone, honly, FieldParts.put]
    | shift bits =>
      obtain ⟨hn, hshift, honly, rfl⟩ := hread
      have hnone : parts.shift = none := hnew
      simp [addPart, hn, hshift, once_eq_ok, hnone, honly, FieldParts.put]
    | encoding form =>
      obtain ⟨hn, hencoding, honly, rfl⟩ := hread
      have hnone : parts.encoding = none := hnew
      simp [addPart, hn, hencoding, once_eq_ok, hnone, honly, FieldParts.put]
    | print mode =>
      obtain ⟨hn, hmode, honly, rfl⟩ := hread
      have hnone : parts.print = none := hnew
      simp [addPart, hn, hmode, once_eq_ok, hnone, honly, FieldParts.put]
    | options entries =>
      obtain ⟨hn, honly, hentries, hne⟩ := hread
      have hnone : parts.options = none := hnew
      have hread : inner.fold "options" 5 addOption [] = .ok entries := options_eq_ok.2 hentries
      simp [addPart, hn, once_eq_ok, hnone, honly, hread, hne, FieldParts.put]
    | flags entries =>
      obtain ⟨hn, honly, hentries, hne⟩ := hread
      have hnone : parts.flags = none := hnew
      have hread : inner.fold "flags" 5 addFlag [] = .ok entries := flags_eq_ok.2 hentries
      simp [addPart, hn, once_eq_ok, hnone, honly, hread, hne, FieldParts.put]

theorem size_eq_ok {e : Element} {rule : SizeRule} : e.size = .ok rule ↔
    match rule with
    | .fixed n => 1 ≤ n ∧ e.natural? "fixed" UInt64.size = .ok (some n) ∧
        e.flag "remaining" = .ok false ∧ e.hex? "terminator" = .ok none
    | .remaining => e.natural? "fixed" UInt64.size = .ok none ∧ e.flag "remaining" = .ok true ∧
        e.hex? "terminator" = .ok none
    | .terminated byte => e.natural? "fixed" UInt64.size = .ok none ∧
        e.flag "remaining" = .ok false ∧ e.hex? "terminator" = .ok (some [byte]) := by
  constructor
  · intro h
    rw [Element.size, bind_eq_ok] at h
    obtain ⟨fixed, hfixed, hrest⟩ := h
    obtain ⟨remaining, hremaining, hlast⟩ := bind_eq_ok.1 hrest
    obtain ⟨terminator, hterminator, hrule⟩ := bind_eq_ok.1 hlast
    cases fixed with
    | some n =>
      cases remaining with
      | true => cases n <;> cases hrule
      | false =>
        cases terminator with
        | some bytes => cases n <;> cases hrule
        | none =>
          cases n with
          | zero => cases hrule
          | succ n =>
            cases hrule
            exact ⟨n.succ_pos, hfixed, hremaining, hterminator⟩
    | none =>
      cases remaining with
      | true =>
        cases terminator with
        | some bytes => cases hrule
        | none =>
          cases hrule
          exact ⟨hfixed, hremaining, hterminator⟩
      | false =>
        cases terminator with
        | none => cases hrule
        | some bytes =>
          cases bytes with
          | nil => cases hrule
          | cons byte bytes =>
            cases bytes with
            | nil =>
              cases hrule
              exact ⟨hfixed, hremaining, hterminator⟩
            | cons byte' bytes => cases hrule
  · intro h
    cases rule with
    | fixed n =>
      obtain ⟨hn, hfixed, hremaining, hterminator⟩ := h
      rw [Element.size, hfixed, ok_bind, hremaining, ok_bind, hterminator, ok_bind]
      cases n with
      | zero => cases hn
      | succ n => rfl
    | remaining =>
      obtain ⟨hfixed, hremaining, hterminator⟩ := h
      rw [Element.size, hfixed, ok_bind, hremaining, ok_bind, hterminator, ok_bind]
      rfl
    | terminated byte =>
      obtain ⟨hfixed, hremaining, hterminator⟩ := h
      rw [Element.size, hfixed, ok_bind, hremaining, ok_bind, hterminator, ok_bind]
      rfl

theorem exists_size {e : Element} :
    (∃ rule, e.size = .ok rule ∧ e.only ["fixed", "remaining", "terminator"] = .ok ()) ↔
      (e.only ["fixed", "remaining"] = .ok () ∧
        (∃ n, 1 ≤ n ∧ e.natural? "fixed" UInt64.size = .ok (some n)) ∧
        ∀ v, e.get? "remaining" = some v → v = "false") ∨
      (e.only ["remaining"] = .ok () ∧ e.get? "remaining" = some "true") ∨
      (e.only ["terminator", "remaining"] = .ok () ∧
        (∃ bytes, e.hex "terminator" = .ok bytes ∧ bytes.length = 1) ∧
        ∀ v, e.get? "remaining" = some v → v = "false") := by
  have honly (keys absent : List String)
      (h : ∀ key ∈ keys, key ∈ ["fixed", "remaining", "terminator"])
      (ha : ["fixed", "remaining", "terminator"].filter (· ∉ keys) = absent) :=
    Element.only_iff_of_subset (e := e) h ha
  rw [honly ["fixed", "remaining"] ["terminator"] (by decide) (by decide),
    honly ["remaining"] ["fixed", "terminator"] (by decide) (by decide),
    honly ["terminator", "remaining"] ["fixed"] (by decide) (by decide)]
  simp only [size_eq_ok, List.forall_mem_cons, List.not_mem_nil, false_imp_iff, implies_true,
    and_true]
  constructor
  · intro h
    obtain ⟨rule, hrule, honly⟩ := h
    cases rule with
    | fixed n =>
      obtain ⟨hn, hfixed, hremaining, hterminator⟩ := hrule
      have hf := Element.flag_eq_false.1 hremaining
      exact .inl ⟨⟨honly, Element.hex?_eq_none.1 hterminator⟩, ⟨n, hn, hfixed⟩, hf⟩
    | remaining =>
      obtain ⟨hfixed, hremaining, hterminator⟩ := hrule
      have habsent :=
        And.intro (Element.natural?_eq_none.1 hfixed) (Element.hex?_eq_none.1 hterminator)
      exact .inr (.inl ⟨⟨honly, habsent⟩, Element.flag_eq_true.1 hremaining⟩)
    | terminated byte =>
      obtain ⟨hfixed, hremaining, hterminator⟩ := hrule
      have hf := Element.flag_eq_false.1 hremaining
      have hbytes : e.hex "terminator" = .ok [byte] :=
        Element.hex_eq_ok.2 (Element.hex?_eq_ok.1 hterminator)
      exact .inr (.inr ⟨⟨honly, Element.natural?_eq_none.1 hfixed⟩, ⟨[byte], hbytes, rfl⟩, hf⟩)
  · intro h
    obtain ⟨⟨honly, ht⟩, ⟨n, hn, hfixed⟩, hremaining⟩ | ⟨⟨honly, hn, ht⟩, hremaining⟩ |
      ⟨⟨honly, hn⟩, ⟨bytes, hbytes, hlen⟩, hremaining⟩ := h
    · exact ⟨.fixed n, ⟨hn, hfixed, Element.flag_eq_false.2 hremaining, Element.hex?_eq_none.2 ht⟩,
        honly⟩
    · exact ⟨.remaining, ⟨Element.natural?_eq_none.2 hn, Element.flag_eq_true.2 hremaining,
        Element.hex?_eq_none.2 ht⟩, honly⟩
    · obtain ⟨byte, rfl⟩ := List.length_eq_one_iff.1 hlen
      exact ⟨.terminated byte, ⟨Element.natural?_eq_none.2 hn, Element.flag_eq_false.2 hremaining,
        Element.hex?_eq_ok.2 (Element.hex_eq_ok.1 hbytes)⟩, honly⟩

theorem mask_eq_ok {e : Element} {bytes : List UInt8} :
    e.mask = .ok bytes ↔ e.hex "value" = .ok bytes ∧ bytes.length ≤ 8 := by
  simp [Element.mask]

theorem shift_eq_ok {e : Element} {bits : Nat} :
    e.shift = .ok bits ↔ e.natural? "bits" 64 = .ok (some bits) := by
  simp only [Element.shift, bind_eq_ok, check_eq_ok, pure_eq_ok, Element.demand_eq_ok,
    Element.natural?_eq_ok]
  constructor
  · intro h
    obtain ⟨_, hbits, _, rfl, hlt, rfl⟩ := h
    obtain ⟨v, hv, hn, -⟩ := hbits
    exact ⟨v, hv, hn, by omega⟩
  · intro h
    obtain ⟨v, hv, hn, hlt⟩ := h
    have hsize : 64 ≤ UInt32.size := by decide
    exact ⟨some bits, ⟨v, hv, hn, by omega⟩, bits, rfl, by omega, rfl⟩

theorem encoding_eq_ok {e : Element} {form : Encoding} :
    e.encoding = .ok form ↔ ∃ v, e.get? "value" = some v ∧ Encoding.ofName? v = some form := by
  simp only [Element.encoding, bind_eq_ok, Element.required_eq_ok]
  refine exists_congr fun v => and_congr_right fun _ => ?_
  cases Encoding.ofName? v <;> simp

theorem exists_encoding (v : String) : (∃ form, Encoding.ofName? v = some form) ↔
    v ∈ ["ascii", "utf8", "latin1", "utf16le", "utf16be"] := by
  unfold Encoding.ofName?
  split <;> simp_all

theorem printMode_eq_ok {e : Element} {mode : PrintMode} :
    e.printMode = .ok mode ↔ ∃ v, e.get? "mode" = some v ∧ PrintMode.ofName? v = some mode := by
  simp only [Element.printMode, bind_eq_ok, Element.required_eq_ok]
  refine exists_congr fun v => and_congr_right fun _ => ?_
  cases PrintMode.ofName? v <;> simp

theorem exists_printMode (v : String) : (∃ mode, PrintMode.ofName? v = some mode) ↔
    v ∈ ["raw", "hex", "int", "uint", "text", "options", "flags"] := by
  unfold PrintMode.ofName?
  split <;> simp_all

theorem allowed_part (e : Element) (inner : Content) : Allowed declared .field 4 e inner ↔
    (e.name = "size" ∧ e.only ["fixed", "remaining"] = .ok () ∧
      (∃ n, 1 ≤ n ∧ e.natural? "fixed" UInt64.size = .ok (some n)) ∧
      (∀ v, e.get? "remaining" = some v → v = "false") ∧ inner = .done) ∨
    (e.name = "size" ∧ e.only ["remaining"] = .ok () ∧ e.get? "remaining" = some "true" ∧
      inner = .done) ∨
    (e.name = "size" ∧ e.only ["terminator", "remaining"] = .ok () ∧
      (∃ bytes, e.hex "terminator" = .ok bytes ∧ bytes.length = 1) ∧
      (∀ v, e.get? "remaining" = some v → v = "false") ∧ inner = .done) ∨
    (e.name = "mask" ∧ e.only ["value"] = .ok () ∧
      (∃ bytes, e.hex "value" = .ok bytes ∧ bytes.length ≤ 8) ∧ inner = .done) ∨
    (e.name = "shift" ∧ e.only ["bits"] = .ok () ∧
      (∃ bits, e.natural? "bits" 64 = .ok (some bits)) ∧ inner = .done) ∨
    (e.name = "encoding" ∧ e.only ["value"] = .ok () ∧
      (∃ v ∈ ["ascii", "utf8", "latin1", "utf16le", "utf16be"], e.get? "value" = some v) ∧
      inner = .done) ∨
    (e.name = "print" ∧ e.only ["mode"] = .ok () ∧
      (∃ v ∈ ["raw", "hex", "int", "uint", "text", "options", "flags"], e.get? "mode" = some v) ∧
      inner = .done) ∨
    (e.name = "options" ∧ e.only [] = .ok () ∧ inner.row ≠ [] ∧
      inner.Conforms declared .options 5) ∨
    (e.name = "flags" ∧ e.only [] = .ok () ∧ inner.row ≠ [] ∧
      inner.Conforms declared .flags 5) := by
  rw [allowed_iff]
  simp only [Context.elements, List.exists_mem_cons_iff]
  simp [and_assoc]

theorem part_allowed (e : Element) (inner : Content) :
    (∃ part : Part, part.Read e inner) ↔ Allowed declared .field 4 e inner := by
  rw [allowed_part, ← Content.each_iff_of_exists option_allowed,
    ← Content.each_iff_of_exists flag_allowed]
  simp only [← exists_encoding, ← exists_printMode]
  constructor
  · intro h
    obtain ⟨part, hread⟩ := h
    cases part with
    | size rule =>
      obtain ⟨hn, hsize, honly, hinner⟩ := hread
      obtain ⟨honly, hfixed, hremaining⟩ | ⟨honly, hremaining⟩ |
        ⟨honly, hterminator, hremaining⟩ := exists_size.1 ⟨rule, hsize, honly⟩
      · exact .inl ⟨hn, honly, hfixed, hremaining, hinner⟩
      · exact .inr (.inl ⟨hn, honly, hremaining, hinner⟩)
      · exact .inr (.inr (.inl ⟨hn, honly, hterminator, hremaining, hinner⟩))
    | mask bytes =>
      obtain ⟨hn, hmask, honly, hinner⟩ := hread
      exact .inr (.inr (.inr (.inl ⟨hn, honly, ⟨bytes, mask_eq_ok.1 hmask⟩, hinner⟩)))
    | shift bits =>
      obtain ⟨hn, hshift, honly, hinner⟩ := hread
      exact .inr (.inr (.inr (.inr (.inl ⟨hn, honly, ⟨bits, shift_eq_ok.1 hshift⟩, hinner⟩))))
    | encoding form =>
      obtain ⟨hn, hencoding, honly, hinner⟩ := hread
      obtain ⟨v, hv, hform⟩ := encoding_eq_ok.1 hencoding
      exact .inr (.inr (.inr (.inr (.inr (.inl ⟨hn, honly, ⟨v, ⟨form, hform⟩, hv⟩, hinner⟩)))))
    | print mode =>
      obtain ⟨hn, hmode, honly, hinner⟩ := hread
      obtain ⟨v, hv, hprint⟩ := printMode_eq_ok.1 hmode
      exact .inr (.inr (.inr (.inr (.inr (.inr (.inl
        ⟨hn, honly, ⟨v, ⟨mode, hprint⟩, hv⟩, hinner⟩))))))
    | options entries =>
      obtain ⟨hn, honly, hentries, hne⟩ := hread
      have hrow : inner.row ≠ [] := fun h => hne (hentries.row_eq_nil.1 h)
      exact .inr (.inr (.inr (.inr (.inr (.inr (.inr
        (.inl ⟨hn, honly, hrow, entries, hentries⟩)))))))
    | flags entries =>
      obtain ⟨hn, honly, hentries, hne⟩ := hread
      have hrow : inner.row ≠ [] := fun h => hne (hentries.row_eq_nil.1 h)
      exact .inr (.inr (.inr (.inr (.inr (.inr (.inr
        (.inr ⟨hn, honly, hrow, entries, hentries⟩)))))))
  · intro h
    have hsize (hn : e.name = "size") (hinner : inner = .done)
        (hforms : ∃ rule, e.size = .ok rule ∧
          e.only ["fixed", "remaining", "terminator"] = .ok ()) :
        ∃ part : Part, part.Read e inner := by
      obtain ⟨rule, hrule, honly⟩ := hforms
      exact ⟨.size rule, hn, hrule, honly, hinner⟩
    obtain ⟨hn, honly, hfixed, hremaining, hinner⟩ | ⟨hn, honly, hremaining, hinner⟩ |
      ⟨hn, honly, hterminator, hremaining, hinner⟩ | ⟨hn, honly, ⟨bytes, hbytes⟩, hinner⟩ |
      ⟨hn, honly, ⟨bits, hbits⟩, hinner⟩ | ⟨hn, honly, ⟨v, ⟨form, hform⟩, hv⟩, hinner⟩ |
      ⟨hn, honly, ⟨v, ⟨mode, hmode⟩, hv⟩, hinner⟩ | ⟨hn, honly, hrow, entries, hentries⟩ |
      ⟨hn, honly, hrow, entries, hentries⟩ := h
    · exact hsize hn hinner (exists_size.2 (.inl ⟨honly, hfixed, hremaining⟩))
    · exact hsize hn hinner (exists_size.2 (.inr (.inl ⟨honly, hremaining⟩)))
    · exact hsize hn hinner (exists_size.2 (.inr (.inr ⟨honly, hterminator, hremaining⟩)))
    · exact ⟨.mask bytes, hn, mask_eq_ok.2 hbytes, honly, hinner⟩
    · exact ⟨.shift bits, hn, shift_eq_ok.2 hbits, honly, hinner⟩
    · exact ⟨.encoding form, hn, encoding_eq_ok.2 ⟨v, hv, hform⟩, honly, hinner⟩
    · exact ⟨.print mode, hn, printMode_eq_ok.2 ⟨v, hv, hmode⟩, honly, hinner⟩
    · exact ⟨.options entries, hn, honly, hentries, fun h => hrow (hentries.row_eq_nil.2 h)⟩
    · exact ⟨.flags entries, hn, honly, hentries, fun h => hrow (hentries.row_eq_nil.2 h)⟩

end Dissect.Document
