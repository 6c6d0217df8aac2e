import Dissect.Proofs.Checks
import Dissect.Proofs.Language

/-! Attributes as they are read and as the language has them: every reader of a value succeeds on
the texts of a kind, and with what they spell. -/
namespace Dissect.Document
open Text

/-! Numbers and bytes. -/

theorem digits?_eq_some {radix acc n : Nat} {cs : List Char} :
    digits? radix acc cs = some n ↔ (∀ c ∈ cs, (digit? radix c).isSome) ∧
      cs.foldl (fun acc c => acc * radix + (digit? radix c).getD 0) acc = n := by
  induction cs generalizing acc with
  | nil => simp [digits?]
  | cons c cs ih =>
    rw [digits?]
    cases hd : digit? radix c with
    | none => simp [hd]
    | some d => simp [hd, ih]

theorem natural?_eq_some {radix n : Nat} {cs : List Char} :
    natural? radix cs = some n ↔ Digits radix cs n := by
  cases cs with
  | nil => simp [natural?, Digits]
  | cons c cs =>
    simp only [natural?, digits?_eq_some, Digits, ne_eq, reduceCtorEq, not_false_eq_true, true_and]

theorem digit?_plus (radix : Nat) : digit? radix '+' = none := by
  have h : ¬('0' ≤ '+' ∧ '+' ≤ '9') ∧ ¬('a' ≤ '+' ∧ '+' ≤ 'z') ∧ ¬('A' ≤ '+' ∧ '+' ≤ 'Z') := by
    decide
  simp only [digit?, h.1, h.2.1, h.2.2, if_false, Nat.lt_irrefl]

theorem digit?_lt {radix v : Nat} {c : Char} (h : digit? radix c = some v) : v < radix := by
  obtain ⟨hlt, hv⟩ := Option.ite_none_right_eq_some.1 h
  exact Option.some.inj hv ▸ hlt

theorem foldl_lt_shiftLeft {α : Type} {radix bits : Nat} (hradix : radix = 1 <<< bits)
    {digit : α → Nat} {cs : List α} (h : ∀ c ∈ cs, digit c < radix) (acc : Nat) :
    cs.foldl (fun acc c => acc * radix + digit c) acc < (acc + 1) <<< (bits * cs.length) := by
  induction cs generalizing acc with
  | nil => simp
  | cons c cs ih =>
    obtain ⟨hc, hcs⟩ := List.forall_mem_cons.1 h
    have hle : acc * radix + digit c + 1 ≤ (acc + 1) <<< bits := by
      rw [Nat.shiftLeft_eq, ← Nat.one_shiftLeft, ← hradix, Nat.succ_mul]
      omega
    calc cs.foldl (fun acc c => acc * radix + digit c) (acc * radix + digit c)
        < (acc * radix + digit c + 1) <<< (bits * cs.length) := ih hcs _
      _ ≤ ((acc + 1) <<< bits) <<< (bits * cs.length) := by
        simp only [Nat.shiftLeft_eq _ (bits * cs.length)]
        exact Nat.mul_le_mul_right _ hle
      _ = (acc + 1) <<< (bits * (cs.length + 1)) := by
        rw [← Nat.shiftLeft_add, Nat.mul_succ, Nat.add_comm (bits * cs.length)]

theorem Digits.lt_shiftLeft {n : Nat} {cs : List Char} (h : Digits 16 cs n) :
    n < 1 <<< (4 * cs.length) := by
  obtain ⟨-, hdigits, rfl⟩ := h
  have hradix : 16 = 1 <<< 4 := rfl
  have hlt : ∀ c ∈ cs, (digit? 16 c).getD 0 < 16 := by
    intro c hc
    obtain ⟨v, hv⟩ := Option.isSome_iff_exists.1 (hdigits c hc)
    rw [hv]
    exact digit?_lt hv
  exact foldl_lt_shiftLeft hradix hlt 0

theorem unsigned?_eq_some {radix bound n : Nat} {cs : List Char} :
    unsigned? radix bound cs = some n ↔ Numeral radix cs n ∧ n < bound := by
  unfold unsigned?
  split
  · next rest =>
    have hp : ¬Digits radix ('+' :: rest) n := by
      rintro ⟨_, h, _⟩
      simpa [digit?_plus] using h '+'
    simp [Option.filter_eq_some_iff, natural?_eq_some, Numeral, hp]
  · next hcs =>
    have hp (digits : List Char) : cs ≠ '+' :: digits := hcs digits
    simp [Option.filter_eq_some_iff, natural?_eq_some, Numeral, hp]

theorem Numeral.unique {radix m n : Nat} {cs : List Char} (hm : Numeral radix cs m)
    (hn : Numeral radix cs n) : m = n := by
  have h1 := unsigned?_eq_some.2 ⟨hm, Nat.lt_succ_of_le (Nat.le_max_left m n)⟩
  have h2 := unsigned?_eq_some.2 ⟨hn, Nat.lt_succ_of_le (Nat.le_max_right m n)⟩
  rw [h1] at h2
  exact Option.some.inj h2

theorem exists_map {α β : Type} {o : Option α} {f : α → β} :
    (∃ b, o.map f = some b) ↔ ∃ a, o = some a := by
  cases o <;> simp

theorem exists_bind {α β : Type} {o : Option α} {f : α → β} :
    (∃ b, (o.bind fun a => some (f a)) = some b) ↔ ∃ a, o = some a := by
  cases o <;> simp

theorem signed64?_isSome {cs : List Char} :
    (∃ v, signed64? cs = some v) ↔ (∃ n, Numeral 10 cs n ∧ n < 1 <<< 63) ∨
      ∃ digits n, cs = '-' :: digits ∧ Digits 10 digits n ∧ n ≤ 1 <<< 63 := by
  unfold signed64?
  split
  · next rest =>
    have hm (n : Nat) : ¬Numeral 10 ('-' :: rest) n := by
      rintro (⟨_, h, _⟩ | ⟨digits, h, _⟩)
      · have hd : digit? 10 '-' = none := by decide
        simpa [hd] using h '-'
      · simp at h
    simp only [exists_map, Option.bind_eq_bind, Option.pure_def, exists_bind]
    simp [Option.filter_eq_some_iff, natural?_eq_some, hm]
  · next hcs =>
    have hm (digits : List Char) : cs ≠ '-' :: digits := hcs digits
    simp [exists_bind, unsigned?_eq_some, hm]

theorem literal?_isSome {text : List Char} :
    (∃ v, literal? text = some v) ↔ Literal (trim text) := by
  have hx (digits : List Char) (x : Char) (h : digit? 10 x = none) :
      ¬∃ v, signed64? ('0' :: x :: digits) = some v := by
    rw [signed64?_isSome]
    rintro (⟨n, ⟨_, hd, _⟩ | ⟨_, hd, _⟩, _⟩ | ⟨_, _, hd, _⟩)
    · simpa [h] using hd x
    · simp at hd
    · simp at hd
  have hdec (cs : List Char) : Literal cs ↔ (∃ v, signed64? cs = some v) ∨
      ∃ digits n, (cs = '0' :: 'x' :: digits ∨ cs = '0' :: 'X' :: digits) ∧
        Numeral 16 digits n ∧ n < UInt64.size := by
    rw [signed64?_isSome, Literal, or_assoc]
  rw [literal?, hdec]
  split
  · next digits h =>
    simp only [exists_map, Option.bind_eq_bind, Option.pure_def, exists_bind, unsigned?_eq_some]
    simp [h, hx digits 'x' (by decide)]
  · next digits h =>
    simp only [exists_map, Option.bind_eq_bind, Option.pure_def, exists_bind, unsigned?_eq_some]
    simp [h, hx digits 'X' (by decide)]
  · next digits h1 h2 =>
    have hn (digits : List Char) :
        ¬(trim text = '0' :: 'x' :: digits ∨ trim text = '0' :: 'X' :: digits) :=
      fun h => h.elim (h1 digits) (h2 digits)
    simp only [exists_map]
    simp [hn]

theorem pairs?_eq_some {cs : List Char} {bytes : List UInt8} :
    Hex.pairs? cs = some bytes ↔ Pairs cs bytes := by
  induction cs using Hex.pairs?.induct generalizing bytes with
  | case1 =>
    simp only [Hex.pairs?, Option.some.injEq]
    constructor
    · rintro rfl
      exact .nil
    · rintro ⟨⟩
      rfl
  | case2 c =>
    simp only [Hex.pairs?, reduceCtorEq, false_iff]
    rintro ⟨⟩
  | case3 hi lo rest ih =>
    simp only [Hex.pairs?, Option.bind_eq_bind, Option.bind_eq_some_iff, Option.pure_def,
      Option.some.injEq]
    constructor
    · rintro ⟨h, hh, l, hl, bs, hbs, rfl⟩
      exact .cons hh hl (ih.1 hbs)
    · rintro ⟨⟩
      next hh hl hbs => exact ⟨_, hh, _, hl, _, ih.2 hbs, rfl⟩

theorem bytes?_eq_some {text : String} {bytes : List UInt8} :
    Hex.bytes? text = some bytes ↔ HexText text bytes := by
  rw [Hex.bytes?, Hex.decode, HexText]
  split
  · next h =>
    simp only [h, reduceCtorEq, false_iff]
    rintro ⟨hne, ⟨⟩⟩
    exact hne rfl
  · next digits h =>
    rw [pairs?_eq_some]
    refine ⟨fun hp => ⟨?_, hp⟩, fun hp => hp.2⟩
    rintro rfl
    generalize trim text.toList = cs at hp h
    cases hp
    exact h rfl

theorem HexText.unique {text : String} {a b : List UInt8} (ha : HexText text a)
    (hb : HexText text b) : a = b := by
  rw [← bytes?_eq_some] at ha hb
  rw [ha] at hb
  exact Option.some.inj hb

/-! Readers of attributes. -/

namespace Element
variable {e : Element} {key : String}

/-- The attribute, if it is there, says `a`. -/
def Gives {α : Type} (e : Element) (key : String) (means : String → α → Prop) : Option α → Prop
  | none => e.get? key = none
  | some a => ∃ v, e.get? key = some v ∧ means v a

@[simp] theorem demand_eq_ok {α : Type} {o : Option α} {a : α} :
    e.demand key o = .ok a ↔ o = some a := by
  cases o <;> simp [demand]

theorem required_eq_ok {v : String} : e.required key = .ok v ↔ e.get? key = some v := demand_eq_ok

theorem only_eq_ok {keys : List String} {u : Unit} :
    e.only keys = .ok u ↔ ∀ a ∈ e.attributes, a.key ∈ keys := by
  rw [only]
  split
  · next a h =>
    have ha := List.find?_some h
    simp only [reduceCtorEq, false_iff]
    intro hall
    simp [hall a (List.mem_of_find?_eq_some h)] at ha
  · next h =>
    simp only [true_iff]
    simpa using h

theorem get?_eq_none : e.get? key = none ↔ ∀ a ∈ e.attributes, a.key ≠ key := by
  simp [get?]

theorem flag_eq_ok {b : Bool} : e.flag key = .ok b ↔
    (b = false ∧ e.get? key = none) ∨ (b = false ∧ e.get? key = some "false") ∨
      (b = true ∧ e.get? key = some "true") := by
  rw [flag]
  split
  · next h => simp [h, eq_comm]
  · next h => simp [h, eq_comm]
  · next h => simp [h, eq_comm]
  · next other hfalse htrue h =>
    have hf : other ≠ "false" := hfalse
    have ht : other ≠ "true" := htrue
    simp [h, hf, ht]

@[simp] theorem flag_eq_true : e.flag key = .ok true ↔ e.get? key = some "true" := by
  simp [flag_eq_ok]

@[simp] theorem flag_eq_false :
    e.flag key = .ok false ↔ ∀ v, e.get? key = some v → v = "false" := by
  cases h : e.get? key <;> simp [flag_eq_ok, h]

/-- A reader of an attribute gives nothing without it, and with it what its text means. -/
theorem eq_ok_iff_gives {α : Type} {means : String → α → Prop} {read : Except Fault (Option α)}
    (absent : e.get? key = none → read = .ok none)
    (present : ∀ text, e.get? key = some text →
      read ≠ .ok none ∧ ∀ a, read = .ok (some a) ↔ means text a) {o : Option α} :
    read = .ok o ↔ e.Gives key means o := by
  cases h : e.get? key with
  | none => cases o <;> simp [Gives, h, absent h]
  | some text =>
    obtain ⟨hsome, hmeans⟩ := present text h
    cases o <;> simp [Gives, h, hsome, hmeans]

theorem natural?_eq_ok {bound : Nat} {o : Option Nat} : e.natural? key bound = .ok o ↔
    e.Gives key (fun v n => Numeral 10 (trim v.toList) n ∧ n < bound) o := by
  refine eq_ok_iff_gives (fun h => by rw [natural?, h]) fun text h => ?_
  simp only [natural?, h, ← unsigned?_eq_some]
  cases unsigned? 10 bound (trim text.toList) <;> simp

@[simp] theorem natural?_eq_none {bound : Nat} :
    e.natural? key bound = .ok none ↔ e.get? key = none := natural?_eq_ok

theorem ofBytes?_eq_some {n : Nat} {w : Width} : Width.ofBytes? n = some w ↔ n = w.bytes := by
  constructor
  · intro h
    unfold Width.ofBytes? at h
    split at h <;> cases h <;> rfl
  · rintro rfl
    exact Width.ofBytes?_bytes w

theorem width?_eq_ok {o : Option Width} : e.width? key = .ok o ↔
    e.Gives key (fun v w => Numeral 10 (trim v.toList) w.bytes) o := by
  have hw (cs : List Char) (w : Width) :
      (unsigned? 10 UInt64.size cs).bind Width.ofBytes? = some w ↔ Numeral 10 cs w.bytes := by
    simp only [Option.bind_eq_some_iff, unsigned?_eq_some, ofBytes?_eq_some, exists_eq_right]
    refine ⟨fun h => h.1, fun h => ⟨h, ?_⟩⟩
    cases w <;> decide
  refine eq_ok_iff_gives (fun h => by rw [width?, h]) fun text h => ?_
  simp only [width?, h, ← hw]
  cases (unsigned? 10 UInt64.size (trim text.toList)).bind Width.ofBytes? <;> simp

theorem hex?_eq_ok {o : Option (List UInt8)} :
    e.hex? key = .ok o ↔ e.Gives key HexText o := by
  refine eq_ok_iff_gives (fun h => by rw [hex?, h]) fun text h => ?_
  simp only [hex?, h, ← bytes?_eq_some]
  cases Hex.bytes? text <;> simp

@[simp] theorem hex?_eq_none : e.hex? key = .ok none ↔ e.get? key = none := hex?_eq_ok

theorem hex_eq_ok {bytes : List UInt8} :
    e.hex key = .ok bytes ↔ e.Gives key HexText (some bytes) := by
  simp only [hex, bind_eq_ok, demand_eq_ok, hex?_eq_ok, exists_eq_right]

theorem var?_eq_ok {o : Option Reference} : e.var? key = .ok o ↔
    e.Gives key (fun v r => isIdentifier v.toList ∧ r = e.mention v) o := by
  refine eq_ok_iff_gives (fun h => by rw [var?, h]) fun name h => ?_
  by_cases hname : isIdentifier name.toList <;> simp [var?, h, hname, eq_comm]

theorem var_eq_ok {r : Reference} : e.var key = .ok r ↔
    e.Gives key (fun v r => isIdentifier v.toList ∧ r = e.mention v) (some r) := by
  simp only [var, bind_eq_ok, demand_eq_ok, var?_eq_ok, exists_eq_right]

def Spells (e : Element) (text : String) : Operand Reference → Prop
  | .literal value => literal? text.toList = some value
  | .var r => literal? text.toList = none ∧ isIdentifier (trim text.toList) ∧
      r = e.mention (String.ofList (trim text.toList))

theorem operand?_eq_ok {o : Option (Operand Reference)} :
    e.operand? key = .ok o ↔ e.Gives key e.Spells o := by
  refine eq_ok_iff_gives (fun h => by rw [operand?, h]) fun text h => ?_
  cases hl : literal? text.toList with
  | some value =>
    refine ⟨by simp [operand?, h, hl], fun operand => ?_⟩
    cases operand <;> simp [operand?, h, hl, Spells]
  | none =>
    by_cases hname : isIdentifier (trim text.toList)
    · refine ⟨by simp [operand?, h, hl, hname], fun operand => ?_⟩
      cases operand <;> simp [operand?, h, hl, hname, Spells, eq_comm (a := e.mention _)]
    · refine ⟨by simp [operand?, h, hl, hname], fun operand => ?_⟩
      cases operand <;> simp [operand?, h, hl, hname, Spells]

/-! Rules, as what their readers say. -/

variable {declared : Table → String → Prop}

theorem takes_iff {α : Type} {means : String → α → Prop} {kind : Kind}
    (h : ∀ v, kind.Accepts declared v ↔ ∃ a, means v a) :
    (takes key kind).Holds declared e ↔ ∃ o, e.Gives key means o := by
  simp only [AttributeRule.Holds, takes]
  cases hv : e.get? key with
  | none => simpa using ⟨none, hv⟩
  | some v =>
    simp only [h]
    constructor
    · rintro ⟨a, ha⟩
      exact ⟨some a, v, hv, ha⟩
    · rintro ⟨_ | a, ho⟩
      · exact absurd hv (by simp [show e.get? key = none from ho])
      · obtain ⟨v', hv', ha⟩ := ho
        rw [hv] at hv'
        cases hv'
        exact ⟨a, ha⟩

theorem needs_iff {α : Type} {means : String → α → Prop} {kind : Kind}
    (h : ∀ v, kind.Accepts declared v ↔ ∃ a, means v a) :
    (needs key kind).Holds declared e ↔ ∃ a, e.Gives key means (some a) := by
  simp only [AttributeRule.Holds, needs, Gives]
  cases hv : e.get? key with
  | none => simp
  | some v => simp only [h, Option.some.injEq, exists_eq_left']

@[simp] theorem needs_text :
    (needs key .text).Holds declared e ↔ ∃ v, e.required key = .ok v := by
  simp only [required_eq_ok, AttributeRule.Holds, needs]
  cases e.get? key <;> simp [Kind.Accepts]

@[simp] theorem takes_text : (takes key .text).Holds declared e := by
  simp only [AttributeRule.Holds, takes]
  cases e.get? key <;> simp [Kind.Accepts]

@[simp] theorem needs_oneOf {values : List String} :
    (needs key (.oneOf values)).Holds declared e ↔ ∃ v ∈ values, e.get? key = some v := by
  simp only [AttributeRule.Holds, needs]
  cases e.get? key <;> simp [Kind.Accepts]

@[simp] theorem takes_oneOf {values : List String} :
    (takes key (.oneOf values)).Holds declared e ↔ ∀ v, e.get? key = some v → v ∈ values := by
  simp only [AttributeRule.Holds, takes]
  cases e.get? key <;> simp [Kind.Accepts]

@[simp] theorem takes_flag :
    (takes key .flag).Holds declared e ↔ ∃ b, e.flag key = .ok b := by
  simp only [Kind.flag, takes_oneOf, flag_eq_ok]
  cases e.get? key <;> simp [exists_or, or_comm]

@[simp] theorem takes_natural {bound : Nat} : (takes key (.natural (· < bound))).Holds declared e ↔
    ∃ o, e.natural? key bound = .ok o := by
  simp only [natural?_eq_ok]
  exact takes_iff fun v => Iff.rfl

@[simp] theorem needs_natural {bound : Nat} : (needs key (.natural (· < bound))).Holds declared e ↔
    ∃ n, e.natural? key bound = .ok (some n) := by
  simp only [natural?_eq_ok]
  exact needs_iff fun v => Iff.rfl

@[simp] theorem needs_positive {bound : Nat} :
    (needs key (.natural fun n => 1 ≤ n ∧ n < bound)).Holds declared e ↔
      ∃ n, 1 ≤ n ∧ e.natural? key bound = .ok (some n) := by
  simp only [natural?_eq_ok, AttributeRule.Holds, needs, Gives]
  cases e.get? key with
  | none => simp
  | some v => simp [Kind.Accepts, and_left_comm]

theorem accepts_width (v : String) :
    Kind.width.Accepts declared v ↔ ∃ w : Width, Numeral 10 (trim v.toList) w.bytes := by
  constructor
  · rintro ⟨n, hn, hw⟩
    have hcases : n = 1 ∨ n = 2 ∨ n = 4 ∨ n = 8 := by simpa using hw
    rcases hcases with rfl | rfl | rfl | rfl
    · exact ⟨.byte, hn⟩
    · exact ⟨.word, hn⟩
    · exact ⟨.dword, hn⟩
    · exact ⟨.qword, hn⟩
  · rintro ⟨w, hw⟩
    exact ⟨w.bytes, hw, by cases w <;> decide⟩

@[simp] theorem takes_width :
    (takes key .width).Holds declared e ↔ ∃ o, e.width? key = .ok o := by
  simp only [width?_eq_ok]
  exact takes_iff accepts_width

@[simp] theorem needs_width :
    (needs key .width).Holds declared e ↔ ∃ w, e.width? key = .ok (some w) := by
  simp only [width?_eq_ok]
  exact needs_iff accepts_width

@[simp] theorem needs_hex {fits : List UInt8 → Prop} :
    (needs key (.hex fits)).Holds declared e ↔ ∃ bytes, e.hex key = .ok bytes ∧ fits bytes := by
  simp only [hex_eq_ok, AttributeRule.Holds, needs, Gives]
  cases e.get? key with
  | none => simp
  | some v => simp [Kind.Accepts]

theorem accepts_identifier (v : String) : Kind.identifier.Accepts declared v ↔
    ∃ r, isIdentifier v.toList ∧ r = e.mention v := by
  simp [Kind.Accepts]

@[simp] theorem takes_identifier :
    (takes key .identifier).Holds declared e ↔ ∃ o, e.var? key = .ok o := by
  simp only [var?_eq_ok]
  exact takes_iff accepts_identifier

@[simp] theorem needs_identifier :
    (needs key .identifier).Holds declared e ↔ ∃ r, e.var key = .ok r := by
  simp only [var_eq_ok]
  exact needs_iff accepts_identifier

theorem accepts_operand (v : String) :
    Kind.operand.Accepts declared v ↔ ∃ operand, e.Spells v operand := by
  rw [Kind.Accepts, ← literal?_isSome]
  cases hl : literal? v.toList with
  | none =>
    constructor
    · rintro (⟨_, h⟩ | h)
      · cases h
      · exact ⟨.var _, hl, h, rfl⟩
    · rintro ⟨operand, h⟩
      cases operand with
      | literal value => exact absurd h (by simp [Spells, hl])
      | var r => exact .inr h.2.1
  | some value => simpa using ⟨.literal value, hl⟩

@[simp] theorem takes_operand :
    (takes key .operand).Holds declared e ↔ ∃ o, e.operand? key = .ok o := by
  simp only [operand?_eq_ok]
  exact takes_iff accepts_operand

@[simp] theorem needs_operand :
    (needs key .operand).Holds declared e ↔ ∃ operand, e.operand? key = .ok (some operand) := by
  simp only [operand?_eq_ok]
  exact needs_iff accepts_operand

@[simp] theorem needs_reference {table : Table} : (needs key (.reference table)).Holds declared e ↔
    ∃ v, e.required key = .ok v ∧ declared table v := by
  simp only [required_eq_ok, AttributeRule.Holds, needs]
  cases e.get? key <;> simp [Kind.Accepts]

@[simp] theorem takes_reference {table : Table} : (takes key (.reference table)).Holds declared e ↔
    ∀ v, e.get? key = some v → declared table v := by
  simp only [AttributeRule.Holds, takes]
  cases e.get? key <;> simp [Kind.Accepts]

@[simp] theorem keeps_nil : e.Keeps declared [] ↔ True := by simp [Keeps]

@[simp] theorem keeps_cons {r : AttributeRule} {rules : List AttributeRule} :
    e.Keeps declared (r :: rules) ↔ r.Holds declared e ∧ e.Keeps declared rules :=
  List.forall_mem_cons

theorem obeys_iff {rules : List AttributeRule} : e.Obeys declared rules ↔
    e.only (rules.map (·.key)) = .ok () ∧ e.Keeps declared rules := by
  rw [Obeys, only_eq_ok]

theorem only_iff_of_subset {keys keys' absent : List String} (h : ∀ key ∈ keys', key ∈ keys)
    (ha : keys.filter (· ∉ keys') = absent) :
    e.only keys' = .ok () ↔ e.only keys = .ok () ∧ ∀ key ∈ absent, e.get? key = none := by
  simp only [only_eq_ok, get?_eq_none, ← ha, List.mem_filter, decide_eq_true_eq, and_imp]
  constructor
  · intro h'
    refine ⟨fun a ha => h _ (h' a ha), fun key _ hn a ha he => ?_⟩
    subst he
    exact hn (h' a ha)
  · intro hk a ha
    by_cases hc : a.key ∈ keys'
    · exact hc
    · exact absurd rfl (hk.2 a.key (hk.1 a ha) hc a ha)

end Element

end Dissect.Document
