import Mathlib.Data.List.DropRight
import Dissect.Markup.Position
import Dissect.Proofs.Standing

/-! Lines and columns. A place between two characters is on the line after as many newlines as stand
before it, in the column after as many characters as stand since the last of them; and the place
where a tag is reported is that of its bracket. -/
namespace Dissect.Markup
open Text

def lastLine (cs : List Char) : List Char := cs.rtakeWhile (· ≠ '\n')

theorem lastLine_eq_self {cs : List Char} (h : '\n' ∉ cs) : lastLine cs = cs := by
  rw [lastLine, List.rtakeWhile_eq_self_iff]
  intro c hc
  rw [decide_eq_true_eq]
  rintro rfl
  exact h hc

theorem lastLine_cons {c : Char} {cs : List Char} (h : c = '\n' ∨ '\n' ∈ cs) :
    lastLine (c :: cs) = lastLine cs := by
  have htake : (cs.reverse ++ [c]).takeWhile (· ≠ '\n') = cs.reverse.takeWhile (· ≠ '\n') := by
    rw [List.takeWhile_append]
    split
    · next hlen =>
      have hall := (List.takeWhile_prefix (· ≠ '\n')).eq_of_length hlen
      obtain rfl | hcs := h
      · rw [hall, List.takeWhile_cons_of_neg (by simp), List.append_nil]
      · rw [List.takeWhile_eq_self_iff] at hall
        simpa using hall '\n' (List.mem_reverse.2 hcs)
    · rfl
  rw [lastLine, List.rtakeWhile, List.reverse_cons, htake, lastLine, List.rtakeWhile]

theorem advance_cons (line chars bytes n : Nat) (c : Char) (cs : List Char) :
    advance line chars bytes (c.utf8Size + n) (c :: cs) =
      if c = '\n' then advance (line + 1) 0 0 n cs
      else advance line (chars + 1) (bytes + c.utf8Size) n cs := by
  obtain ⟨size, hsize⟩ : ∃ size, c.utf8Size = size + 1 :=
    Nat.exists_eq_succ_of_ne_zero (Nat.ne_of_gt c.utf8Size_pos)
  rw [hsize, Nat.add_right_comm, advance, hsize]
  have hle : ¬size + n + 1 < size + 1 := by omega
  rw [if_neg hle]
  split
  · next hc =>
    have hone : size = 0 := by
      subst hc
      exact Nat.succ.inj hsize.symm
    rw [hone, Nat.zero_add]
  · rw [Nat.add_right_comm, Nat.add_sub_cancel_left]

theorem advance_append (line chars bytes : Nat) (before rest : List Char) :
    advance line chars bytes (utf8Length before) (before ++ rest) =
      (line + before.count '\n',
        (if '\n' ∈ before then 0 else chars) + (lastLine before).length + 1) := by
  induction before generalizing line chars bytes with
  | nil => simp [utf8Length, advance, lastLine_eq_self]
  | cons c cs ih =>
    rw [List.cons_append, utf8Length, advance_cons]
    split
    · next hc =>
      rw [ih, lastLine_cons (.inl hc)]
      simp [hc, Nat.add_assoc, Nat.add_comm 1]
    · next hc =>
      rw [ih]
      by_cases hcs : '\n' ∈ cs
      · rw [lastLine_cons (.inr hcs)]
        simp [hc, hcs]
      · have hccs : '\n' ∉ c :: cs := by
          rw [List.mem_cons, not_or]
          exact ⟨fun h => hc h.symm, hcs⟩
        rw [lastLine_eq_self hcs, lastLine_eq_self hccs]
        simp only [hcs, hccs, if_false, List.length_cons, List.count_cons_of_ne hc]
        rw [Nat.add_assoc chars, Nat.add_comm 1]

theorem ofOffset_append (before rest : List Char) :
    Position.ofOffset (before ++ rest) (utf8Length before) =
      ⟨1 + before.count '\n', 1 + (lastLine before).length, utf8Length before⟩ := by
  have hstop : min (utf8Length before) (utf8Length (before ++ rest)) = utf8Length before := by
    rw [utf8Length_append]
    exact Nat.min_eq_left (Nat.le_add_right _ _)
  simp only [Position.ofOffset, hstop, advance_append, ite_self, Nat.zero_add]
  rw [Nat.add_comm 1 (lastLine before).length]

theorem ofOffset_offset (source : List Char) (offset : Nat) :
    Position.ofOffset source (Position.ofOffset source offset).offset =
      Position.ofOffset source offset := by
  simp only [Position.ofOffset, Nat.min_assoc, Nat.min_self]

theorem afterBytes_append (before rest : List Char) :
    afterBytes (utf8Length before) (before ++ rest) = some rest := by
  induction before with
  | nil => rw [List.nil_append, utf8Length, afterBytes]
  | cons c cs ih =>
    obtain ⟨size, hsize⟩ : ∃ size, c.utf8Size = size + 1 :=
      Nat.exists_eq_succ_of_ne_zero (Nat.ne_of_gt c.utf8Size_pos)
    rw [List.cons_append, utf8Length, hsize, Nat.add_right_comm, afterBytes, hsize]
    have hle : size + 1 ≤ size + utf8Length cs + 1 := by omega
    rw [if_pos hle, Nat.add_right_comm, Nat.add_sub_cancel_left, ih]

theorem isBlank_of_isMarkupBlank {c : Char} (h : isMarkupBlank c = true) : isBlank c = true := by
  simp only [isMarkupBlank, Bool.or_eq_true, beq_iff_eq] at h
  obtain ((rfl | rfl) | rfl) | rfl := h
  all_goals decide

theorem Stands.ofStart {source text : List Char} {offset : Nat} (h : Stands source offset text) :
    ∃ before rest, source = before ++ '<' :: (text ++ rest) ∧
      utf8Length before = (Position.ofStart source offset).offset := by
  obtain ⟨before, blanks, rest, rfl, rfl, hb⟩ := h
  refine ⟨before ++ blanks, rest, by simp, ?_⟩
  have htake : (blanks ++ '<' :: (text ++ rest)).takeWhile isBlank = blanks := by
    rw [List.takeWhile_append_of_pos fun c hc => isBlank_of_isMarkupBlank (hb c hc)]
    have hbracket : isBlank '<' = false := by decide
    rw [List.takeWhile_cons_of_neg (by simp [hbracket]), List.append_nil]
  have hskip : skipBlank (before ++ (blanks ++ '<' :: (text ++ rest))) (utf8Length before) =
      utf8Length (before ++ blanks) := by
    rw [skipBlank, afterBytes_append]
    simp only [htake, utf8Length_append]
  rw [Position.ofStart, hskip, ← List.append_assoc, ofOffset_append]

end Dissect.Markup
