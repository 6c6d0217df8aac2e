import Dissect.Machine.Reading

/-! Texts of fields and their encodings. A text that is written in an encoding and filled up with
NULs is what the field reads as, if it can be written in that encoding and has no NUL of its own at
the end. -/
namespace Dissect

theorem dropWhile_filled {α : Type} [BEq α] [LawfulBEq α] {a : α} {xs : List α}
    (h : xs.getLast? ≠ some a) (k : Nat) :
    ((xs ++ List.replicate k a).reverse.dropWhile (· == a)).reverse = xs := by
  have hfilling : (List.replicate k a).dropWhile (· == a) = [] := by
    rw [List.dropWhile_replicate, if_pos (beq_self_eq_true a)]
  have hown : xs.reverse.dropWhile (· == a) = xs.reverse := by
    cases hx : xs.reverse with
    | nil => rfl
    | cons x rest =>
      have hlast : xs.getLast? = some x := by rw [← List.head?_reverse, hx, List.head?_cons]
      have hne : ¬(x == a) = true := fun he => h (eq_of_beq he ▸ hlast)
      rw [List.dropWhile_cons, if_neg hne]
  rw [List.reverse_append, List.reverse_replicate, List.dropWhile_append, hfilling, hown]
  exact List.reverse_reverse xs

theorem toNat_octet {n : Nat} (h : n < 256) : (UInt8.ofNat n).toNat = n := by
  rw [UInt8.toNat_ofNat', Nat.mod_eq_of_lt h]

theorem octet_ne_zero {n : Nat} (hn : n ≠ 0) (h : n < 256) : UInt8.ofNat n ≠ 0 := by
  intro hzero
  have htoNat := congrArg UInt8.toNat hzero
  rw [toNat_octet h] at htoNat
  exact hn htoNat

theorem eq_toNat_of_ofNat {n : Nat} {c : Char} (h : Char.ofNat n = c) (hc : c ≠ '\x00') :
    n = c.toNat := by
  by_cases hvalid : n.isValidChar
  · have hn : (Char.ofNat n).toNat = n := by rw [Char.ofNat, dif_pos hvalid]; rfl
    rw [← hn, h]
  · rw [Char.ofNat, dif_neg hvalid] at h
    exact absurd h.symm hc

namespace Text

/-! ### Characters in UTF-8 -/

namespace Utf8

def tail (n : Nat) : UInt8 := UInt8.ofNat (n % 64 + 128)

theorem toNat_tail (n : Nat) : (tail n).toNat = n % 64 + 128 := toNat_octet (by omega)

theorem extend_tail (b : Begun) (n : Nat) : b.extend (tail n) = b.bits * 64 + n % 64 := by
  rw [Begun.extend, toNat_tail]
  omega

theorem decodeFrom_last {b : Begun} {octet : UInt8} (howed : b.owed = 1)
    (hlow : b.low ≤ octet.toNat) (hhigh : octet.toNat ≤ b.high) (rest : List UInt8) :
    decodeFrom (some b) (octet :: rest) =
      some (Char.ofNat (b.extend octet)) :: decodeFrom none rest := by
  rw [decodeFrom, if_pos ⟨hlow, hhigh⟩, if_pos (Nat.le_of_eq howed)]

theorem decodeFrom_more {b : Begun} {octet : UInt8} (howed : 1 < b.owed)
    (hlow : b.low ≤ octet.toNat) (hhigh : octet.toNat ≤ b.high) (rest : List UInt8) :
    decodeFrom (some b) (octet :: rest) =
      decodeFrom (some ⟨b.extend octet, b.owed - 1, 0x80, 0xBF⟩) rest := by
  rw [decodeFrom, if_pos ⟨hlow, hhigh⟩, if_neg (Nat.not_le_of_lt howed)]

theorem decodeFrom_tail {n : Nat} {b : Begun} (howed : b.owed = 1) (hbits : b.bits = n / 64)
    (hlow : b.low ≤ n % 64 + 128) (hhigh : n % 64 + 128 ≤ b.high) (rest : List UInt8) :
    decodeFrom (some b) (tail n :: rest) = some (Char.ofNat n) :: decodeFrom none rest := by
  have hn : n / 64 * 64 + n % 64 = n := by omega
  rw [decodeFrom_last howed (by rwa [toNat_tail]) (by rwa [toNat_tail]), extend_tail, hbits, hn]

theorem decodeFrom_two_tails {n : Nat} {b : Begun} (howed : b.owed = 2) (hbits : b.bits = n / 4096)
    (hlow : b.low ≤ n / 64 % 64 + 128) (hhigh : n / 64 % 64 + 128 ≤ b.high) (rest : List UInt8) :
    decodeFrom (some b) (tail (n / 64) :: tail n :: rest) =
      some (Char.ofNat n) :: decodeFrom none rest := by
  rw [decodeFrom_more (by omega) (by rwa [toNat_tail]) (by rwa [toNat_tail]), extend_tail]
  exact decodeFrom_tail (by dsimp only; omega) (by dsimp only; omega) (by dsimp only; omega)
    (by dsimp only; omega) rest

/-! The first octet of two, of three and of four. What it begins admits the next octet, since no
shorter form was possible, no surrogate is a character and none is past the last code point. -/

theorem lead_two {n : Nat} (h : 0x80 ≤ n) (h' : n ≤ 0x7FF) :
    lead (UInt8.ofNat (n / 64 % 32 + 192)) = .begun ⟨n / 64, 1, 0x80, 0xBF⟩ := by
  have hoctet : n / 64 % 32 + 192 = n / 64 + 192 := by omega
  rw [lead, toNat_octet (by omega), hoctet]
  simp only [if_neg (show ¬n / 64 + 192 ≤ 0x7F by omega),
    if_neg (show ¬n / 64 + 192 < 0xC2 by omega),
    if_pos (show n / 64 + 192 ≤ 0xDF by omega), Nat.add_sub_cancel]

theorem lead_three {n : Nat} (h : 0x800 ≤ n) (h' : n ≤ 0xFFFF) (hvalid : n < 0xD800 ∨ 0xDFFF < n) :
    ∃ b, lead (UInt8.ofNat (n / 4096 % 16 + 224)) = .begun b ∧ b.owed = 2 ∧ b.bits = n / 4096 ∧
      b.low ≤ n / 64 % 64 + 128 ∧ n / 64 % 64 + 128 ≤ b.high := by
  have hoctet : n / 4096 % 16 + 224 = n / 4096 + 224 := by omega
  rw [lead, toNat_octet (by omega), hoctet]
  simp only [if_neg (show ¬n / 4096 + 224 ≤ 0x7F by omega),
    if_neg (show ¬n / 4096 + 224 < 0xC2 by omega), if_neg (show ¬n / 4096 + 224 ≤ 0xDF by omega)]
  by_cases hshort : n / 4096 + 224 = 0xE0
  · rw [if_pos hshort]
    exact ⟨_, rfl, rfl, by dsimp only; omega, by dsimp only; omega, by dsimp only; omega⟩
  · rw [if_neg hshort]
    by_cases hsurrogate : n / 4096 + 224 = 0xED
    · rw [if_pos hsurrogate]
      exact ⟨_, rfl, rfl, by dsimp only; omega, by dsimp only; omega, by dsimp only; omega⟩
    · rw [if_neg hsurrogate, if_pos (by omega)]
      exact ⟨_, rfl, rfl, by dsimp only; omega, by dsimp only; omega, by dsimp only; omega⟩

theorem lead_four {n : Nat} (h : 0x10000 ≤ n) (h' : n < 0x110000) :
    ∃ b, lead (UInt8.ofNat (n / 262144 % 8 + 240)) = .begun b ∧ b.owed = 3 ∧ b.bits = n / 262144 ∧
      b.low ≤ n / 4096 % 64 + 128 ∧ n / 4096 % 64 + 128 ≤ b.high := by
  have hoctet : n / 262144 % 8 + 240 = n / 262144 + 240 := by omega
  rw [lead, toNat_octet (by omega), hoctet]
  simp only [if_neg (show ¬n / 262144 + 240 ≤ 0x7F by omega),
    if_neg (show ¬n / 262144 + 240 < 0xC2 by omega),
    if_neg (show ¬n / 262144 + 240 ≤ 0xDF by omega),
    if_neg (show ¬n / 262144 + 240 = 0xE0 by omega),
    if_neg (show ¬n / 262144 + 240 = 0xED by omega),
    if_neg (show ¬n / 262144 + 240 ≤ 0xEF by omega)]
  by_cases hshort : n / 262144 + 240 = 0xF0
  · rw [if_pos hshort]
    exact ⟨_, rfl, rfl, by dsimp only; omega, by dsimp only; omega, by dsimp only; omega⟩
  · rw [if_neg hshort]
    by_cases hlast : n / 262144 + 240 ≤ 0xF3
    · rw [if_pos hlast]
      exact ⟨_, rfl, rfl, by dsimp only; omega, by dsimp only; omega, by dsimp only; omega⟩
    · rw [if_neg hlast, if_pos (by omega)]
      exact ⟨_, rfl, rfl, by dsimp only; omega, by dsimp only; omega, by dsimp only; omega⟩

theorem decodeFrom_encodeChar (c : Char) (rest : List UInt8) :
    decodeFrom none (String.utf8EncodeChar c ++ rest) = some c :: decodeFrom none rest := by
  have hvalid : c.val.toNat < 0xD800 ∨ 0xDFFF < c.val.toNat ∧ c.val.toNat < 0x110000 := c.valid
  have hc : some c :: decodeFrom none rest =
      some (Char.ofNat c.val.toNat) :: decodeFrom none rest := by
    rw [show Char.ofNat c.val.toNat = c from c.ofNat_toNat]
  rw [hc, String.utf8EncodeChar]
  generalize c.val.toNat = n at hvalid
  by_cases hone : n ≤ 0x7F
  · simp only [if_pos hone, List.singleton_append]
    rw [decodeFrom, lead, toNat_octet (by omega), if_pos hone]
  · by_cases htwo : n ≤ 0x7FF
    · simp only [if_neg hone, if_pos htwo, List.cons_append, List.nil_append]
      rw [decodeFrom, lead_two (by omega) htwo]
      exact decodeFrom_tail rfl rfl (by dsimp only; omega) (by dsimp only; omega) rest
    · by_cases hthree : n ≤ 0xFFFF
      · simp only [if_neg hone, if_neg htwo, if_pos hthree, List.cons_append, List.nil_append]
        obtain ⟨b, hlead, howed, hbits, hlow, hhigh⟩ := lead_three (by omega) hthree (by omega)
        rw [decodeFrom, hlead]
        exact decodeFrom_two_tails howed hbits hlow hhigh rest
      · simp only [if_neg hone, if_neg htwo, if_neg hthree, List.cons_append, List.nil_append]
        obtain ⟨b, hlead, howed, hbits, hlow, hhigh⟩ :=
          lead_four (n := n) (by omega) (by omega)
        have hnext : tail (n / 4096) = UInt8.ofNat (n / 4096 % 64 + 128) := rfl
        rw [decodeFrom, hlead, ← hnext]
        dsimp only
        rw [decodeFrom_more (by omega) (by rwa [toNat_tail]) (by rwa [toNat_tail]), extend_tail]
        exact decodeFrom_two_tails (by dsimp only; omega) (by dsimp only; omega)
          (by dsimp only; omega) (by dsimp only; omega) rest

theorem decodeLossy_encode (cs : List Char) :
    decodeLossy (cs.flatMap String.utf8EncodeChar) = cs := by
  induction cs with
  | nil => rfl
  | cons c cs ih =>
    rw [decodeLossy] at ih
    rw [decodeLossy, List.flatMap_cons, decodeFrom_encodeChar, List.map_cons, ih]
    rfl

theorem getLast?_encodeChar {c : Char} (hc : c ≠ '\x00') :
    ∃ octet, (String.utf8EncodeChar c).getLast? = some octet ∧ octet ≠ 0 := by
  have hne : c.val.toNat ≠ 0 := fun hzero => hc (Char.toNat_inj.1 hzero)
  have htail (n : Nat) : UInt8.ofNat (n % 64 + 128) ≠ 0 := octet_ne_zero (by omega) (by omega)
  rw [String.utf8EncodeChar]
  generalize c.val.toNat = n at hne
  split
  · exact ⟨_, rfl, octet_ne_zero hne (by omega)⟩
  · split
    · exact ⟨_, rfl, htail n⟩
    · split
      · exact ⟨_, rfl, htail n⟩
      · exact ⟨_, rfl, htail n⟩

end Utf8

/-! ### Characters in UTF-16 -/

namespace Utf16

/-- One code unit, or for a character past the first plane a high surrogate and a low one. -/
def encodeChar (c : Char) : List Nat :=
  if c.toNat < 0x10000 then [c.toNat]
  else [0xD800 + (c.toNat - 0x10000) / 0x400, 0xDC00 + (c.toNat - 0x10000) % 0x400]

def octets (little : Bool) (unit : Nat) : List UInt8 :=
  if little then [UInt8.ofNat (unit % 256), UInt8.ofNat (unit / 256)]
  else [UInt8.ofNat (unit / 256), UInt8.ofNat (unit % 256)]

theorem units_octets (little : Bool) {unit : Nat} (h : unit < 0x10000) (rest : List UInt8) :
    units little (octets little unit ++ rest) = unit :: units little rest := by
  have hunit : unit / 256 * 256 + unit % 256 = unit := by omega
  cases little with
  | true =>
    simp only [octets, if_true, List.cons_append, List.nil_append, units,
      toNat_octet (show unit % 256 < 256 by omega),
      toNat_octet (show unit / 256 < 256 by omega), hunit]
  | false =>
    simp only [octets, Bool.false_eq_true, if_false, List.cons_append, List.nil_append, units,
      toNat_octet (show unit % 256 < 256 by omega),
      toNat_octet (show unit / 256 < 256 by omega), hunit]

theorem units_flatMap (little : Bool) {us : List Nat} (h : ∀ u ∈ us, u < 0x10000) :
    units little (us.flatMap (octets little)) = us := by
  induction us with
  | nil => rfl
  | cons u us ih =>
    rw [List.forall_mem_cons] at h
    rw [List.flatMap_cons, units_octets little h.1, ih h.2]

theorem lt_of_mem_encodeChar {c : Char} {u : Nat} (h : u ∈ encodeChar c) : u < 0x10000 := by
  have hvalid : c.toNat < 0xD800 ∨ 0xDFFF < c.toNat ∧ c.toNat < 0x110000 := c.valid
  rw [encodeChar] at h
  split at h
  · rw [List.mem_singleton.1 h]
    assumption
  · simp only [List.mem_cons, List.not_mem_nil, or_false] at h
    omega

theorem decodeLossy_single {u : Nat} (hhigh : isHigh u = false) (hlow : isLow u = false)
    (rest : List Nat) : decodeLossy (u :: rest) = Char.ofNat u :: decodeLossy rest := by
  cases rest <;> simp [decodeLossy, hhigh, hlow]

theorem decodeLossy_pair {u v : Nat} (hhigh : isHigh u = true) (hlow : isLow v = true)
    (rest : List Nat) : decodeLossy (u :: v :: rest) = join u v :: decodeLossy rest := by
  simp [decodeLossy, hhigh, hlow]

theorem decodeLossy_encodeChar (c : Char) (rest : List Nat) :
    decodeLossy (encodeChar c ++ rest) = c :: decodeLossy rest := by
  have hvalid : c.toNat < 0xD800 ∨ 0xDFFF < c.toNat ∧ c.toNat < 0x110000 := c.valid
  rw [encodeChar]
  by_cases hone : c.toNat < 0x10000
  · have hhigh : isHigh c.toNat = false := by
      simp only [isHigh, Bool.and_eq_false_imp, decide_eq_true_eq, decide_eq_false_iff_not]
      omega
    have hlow : isLow c.toNat = false := by
      simp only [isLow, Bool.and_eq_false_imp, decide_eq_true_eq, decide_eq_false_iff_not]
      omega
    rw [if_pos hone, List.singleton_append, decodeLossy_single hhigh hlow, c.ofNat_toNat]
  · have hhigh : isHigh (0xD800 + (c.toNat - 0x10000) / 0x400) = true := by
      simp only [isHigh, Bool.and_eq_true, decide_eq_true_eq]
      omega
    have hlow : isLow (0xDC00 + (c.toNat - 0x10000) % 0x400) = true := by
      simp only [isLow, Bool.and_eq_true, decide_eq_true_eq]
      omega
    have hjoin : join (0xD800 + (c.toNat - 0x10000) / 0x400)
        (0xDC00 + (c.toNat - 0x10000) % 0x400) = c := by
      refine Eq.trans (congrArg Char.ofNat ?_) c.ofNat_toNat
      omega
    rw [if_neg hone, List.cons_append, List.singleton_append, decodeLossy_pair hhigh hlow, hjoin]

theorem decodeLossy_encode (cs : List Char) : decodeLossy (cs.flatMap encodeChar) = cs := by
  induction cs with
  | nil => rfl
  | cons c cs ih => rw [List.flatMap_cons, decodeLossy_encodeChar, ih]

end Utf16

end Text

/-! ### Texts in the encodings of fields -/

namespace Encoding
open Text

def Has : Encoding → Char → Prop
  | .ascii, c => 0x20 ≤ c.toNat ∧ c.toNat ≤ 0x7E
  | .latin1, c => c.toNat < 256
  | .utf8, _ | .utf16le, _ | .utf16be, _ => True

def encodeChar : Encoding → Char → List UInt8
  | .ascii, c | .latin1, c => [UInt8.ofNat c.toNat]
  | .utf8, c => String.utf8EncodeChar c
  | .utf16le, c => (Utf16.encodeChar c).flatMap (Utf16.octets true)
  | .utf16be, c => (Utf16.encodeChar c).flatMap (Utf16.octets false)

def encode (encoding : Encoding) (cs : List Char) : List UInt8 := cs.flatMap encoding.encodeChar

def nul : Encoding → List UInt8
  | .ascii | .utf8 | .latin1 => [0]
  | .utf16le | .utf16be => [0, 0]

theorem decode_utf16 (little : Bool) {cs : List Char} (hend : cs.getLast? ≠ some '\x00') (k : Nat) :
    dropEndWhile (· == '\x00') (Utf16.decodeLossy (Utf16.units little
      (cs.flatMap (fun c => (Utf16.encodeChar c).flatMap (Utf16.octets little)) ++
        (List.replicate k [0, 0]).flatten))) = cs := by
  have hnul : (Utf16.encodeChar '\x00').flatMap (Utf16.octets little) = [0, 0] := by
    cases little <;> rfl
  -- The filling is made of NULs that are written like any other character.
  have hfilling : (List.replicate k [0, 0]).flatten = (List.replicate k '\x00').flatMap
      (fun c => (Utf16.encodeChar c).flatMap (Utf16.octets little)) := by
    rw [List.flatMap_def, List.map_replicate, hnul]
  have hunits : ∀ u ∈ (cs ++ List.replicate k '\x00').flatMap Utf16.encodeChar, u < 0x10000 := by
    intro u hu
    obtain ⟨c, -, hc⟩ := List.mem_flatMap.1 hu
    exact Utf16.lt_of_mem_encodeChar hc
  rw [hfilling, ← List.flatMap_append, ← List.flatMap_assoc, Utf16.units_flatMap little hunits,
    Utf16.decodeLossy_encode]
  exact dropWhile_filled hend k

/-- NULs behind a text are taken off the octets where only NUL itself ends in an octet that is
zero. -/
theorem dropNuls_flatMap {write : Char → List UInt8} {cs : List Char}
    (h : ∀ c ∈ cs, c ≠ '\x00' → ∃ octet, (write c).getLast? = some octet ∧ octet ≠ 0)
    (hend : cs.getLast? ≠ some '\x00') (k : Nat) :
    dropNuls (cs.flatMap write ++ (List.replicate k [0]).flatten) = cs.flatMap write := by
  have hlast : (cs.flatMap write).getLast? ≠ some 0 := by
    obtain rfl | ⟨before, c, rfl⟩ := cs.eq_nil_or_concat
    · simp
    · rw [List.concat_eq_append] at h hend ⊢
      rw [List.getLast?_concat] at hend
      obtain ⟨octet, hoctet, hne⟩ := h c (by simp) fun hc => hend (congrArg some hc)
      rw [List.flatMap_append, List.flatMap_singleton, List.getLast?_append, hoctet,
        Option.some_or]
      exact fun hzero => hne (Option.some.inj hzero)
  rw [List.flatten_replicate_singleton]
  exact dropWhile_filled hlast k

theorem decode_octets {cs : List Char} {glyph : UInt8 → Char} (hlt : ∀ c ∈ cs, c.toNat < 256)
    (hglyph : ∀ c ∈ cs, glyph (UInt8.ofNat c.toNat) = c) (hend : cs.getLast? ≠ some '\x00')
    (k : Nat) : (dropNuls (cs.flatMap (fun c => [UInt8.ofNat c.toNat]) ++
      (List.replicate k [0]).flatten)).map glyph = cs := by
  have hoctet : ∀ c ∈ cs, c ≠ '\x00' →
      ∃ octet, [UInt8.ofNat c.toNat].getLast? = some octet ∧ octet ≠ 0 := by
    intro c hc hne
    exact ⟨_, rfl, octet_ne_zero (fun hzero => hne (Char.toNat_inj.1 hzero)) (hlt c hc)⟩
  rw [dropNuls_flatMap hoctet hend, ← List.map_eq_flatMap, List.map_map]
  exact (List.map_congr_left hglyph).trans (List.map_id cs)

/-- A text reads as it was written, however many NULs it is filled up with. -/
theorem decode_encode (encoding : Encoding) {cs : List Char} (hcs : ∀ c ∈ cs, encoding.Has c)
    (hend : cs.getLast? ≠ some '\x00') (k : Nat) :
    encoding.decode (encoding.encode cs ++ (List.replicate k encoding.nul).flatten) = cs := by
  cases encoding with
  | ascii =>
    refine decode_octets (fun c hc => ?_) (fun c hc => ?_) hend k
    · have h : 0x20 ≤ c.toNat ∧ c.toNat ≤ 0x7E := hcs c hc
      omega
    · have h : 0x20 ≤ c.toNat ∧ c.toNat ≤ 0x7E := hcs c hc
      rw [toNat_octet (by omega), if_pos (by omega), c.ofNat_toNat]
  | latin1 =>
    refine decode_octets hcs (fun c hc => ?_) hend k
    rw [toNat_octet (hcs c hc), c.ofNat_toNat]
  | utf8 =>
    have hoctets : dropNuls (cs.flatMap String.utf8EncodeChar ++ (List.replicate k [0]).flatten) =
        cs.flatMap String.utf8EncodeChar :=
      dropNuls_flatMap (fun c _ => Utf8.getLast?_encodeChar) hend k
    exact (congrArg Utf8.decodeLossy hoctets).trans (Utf8.decodeLossy_encode cs)
  | utf16le => exact decode_utf16 true hend k
  | utf16be => exact decode_utf16 false hend k

/-- A NUL inside, two surrogates, and a last character whose lower octet is zero. -/
theorem decode_encode_zeroOctets :
    let cs := ['a', '\x00', '😀', 'Ā']
    let octets : List UInt8 := [0x61, 0, 0, 0, 0x3D, 0xD8, 0, 0xDE, 0, 1]
    (∀ c ∈ cs, utf16le.Has c) ∧ cs.getLast? ≠ some '\x00' ∧ utf16le.encode cs = octets ∧
      utf16le.decode (octets ++ [0, 0, 0, 0]) = cs ∧
      (∀ c ∈ ['\x00', 'ÿ'], latin1.Has c) ∧ latin1.decode [0, 0xFF, 0] = ['\x00', 'ÿ'] := by
  intro cs octets
  have hcs : ∀ c ∈ cs, utf16le.Has c := fun _ _ => trivial
  have hend : cs.getLast? ≠ some '\x00' := by decide
  have hoctets : utf16le.encode cs = octets := by decide
  have hlatin : ∀ c ∈ ['\x00', 'ÿ'], latin1.Has c := by simp [Has]
  exact ⟨hcs, hend, hoctets, hoctets ▸ decode_encode utf16le hcs hend 2, hlatin,
    decode_encode latin1 hlatin (by decide) 1⟩

example : utf8.decode (utf8.encode ['é', '😀'] ++ [0, 0]) = ['é', '😀'] := by
  decide

end Encoding

end Dissect
