import Dissect.Machine.Run
import Mathlib.Data.List.Chain
import Mathlib.Data.List.Nodup

/-! Gap filling makes a partition. The sweep is repeated with each piece remembering where it comes
from; what a piece may hold is then an invariant of the sweep over a list sorted by start and
position. -/
namespace Dissect.TaggedRange

def Holds (r : TaggedRange) (x : Nat) : Prop := r.start ≤ x ∧ x < r.stop

/-- The ranges stand one behind the other from `first` to `last`, and none is empty. -/
def Tiles (first last : Nat) : List TaggedRange → Prop
  | [] => first = last
  | r :: rest => r.start = first ∧ 0 < r.length ∧ Tiles r.stop last rest

/-- Everything but the place is the same. -/
def LooksLike (r t : TaggedRange) : Prop := { r with start := t.start, length := t.length } = t

/-- A range of a partition, with the position of the range it is a part of, none for a filler. -/
abbrev Part := TaggedRange × Option Nat

/-- The order in which ranges claim bytes: by start, then by position. -/
def Before (a b : TaggedRange × Nat) : Prop :=
  a.1.start < b.1.start ∨ a.1.start = b.1.start ∧ a.2 ≤ b.2

/-- Among numbered ranges `source` is the first that holds the byte, none if no range does. -/
def Claims (numbered : List (TaggedRange × Nat)) (x : Nat) : Option Nat → Prop
  | none => ∀ a ∈ numbered, ¬a.1.Holds x
  | some i => ∃ r, (r, i) ∈ numbered ∧ r.Holds x ∧ ∀ a ∈ numbered, a.1.Holds x → Before (r, i) a

/-- What a piece may look like: a filler of its place, or a piece of the range it comes from. -/
def Derives (filler : Nat → Nat → TaggedRange) (numbered : List (TaggedRange × Nat)) (p : Part) :
    Prop :=
  match p.2 with
  | none => p.1 = filler p.1.start p.1.length
  | some i => ∃ r, (r, i) ∈ numbered ∧ r.LooksLike p.1

def parts (filler : Nat → Nat → TaggedRange) (len : Nat) :
    Nat → List (TaggedRange × Nat) → List Part
  | covered, [] => if covered < len then [(filler covered (len - covered), none)] else []
  | covered, (r, i) :: rest =>
    let stop := min r.stop len
    if r.length = 0 ∨ len ≤ r.start ∨ stop ≤ covered then parts filler len covered rest
    else if covered < r.start then
      (filler covered (r.start - covered), none) :: ({ r with length := stop - r.start }, some i) ::
        parts filler len stop rest
    else
      ({ r with start := covered, length := stop - covered }, some i) :: parts filler len stop rest

section Sweep
variable {filler : Nat → Nat → TaggedRange} {len : Nat}

theorem map_parts (covered : Nat) (numbered : List (TaggedRange × Nat)) :
    (parts filler len covered numbered).map Prod.fst =
      sweep filler len covered (numbered.map Prod.fst) := by
  induction numbered generalizing covered with
  | nil =>
    simp only [parts, sweep, List.map_nil]
    split <;> rfl
  | cons a rest ih =>
    obtain ⟨r, i⟩ := a
    simp only [parts, sweep, List.map_cons]
    split
    · exact ih covered
    · split <;> simp [ih]

/-- Each range goes into at most one piece, and pieces keep the order of the ranges. -/
theorem sources_sublist (covered : Nat) (numbered : List (TaggedRange × Nat)) :
    ((parts filler len covered numbered).filterMap Prod.snd).Sublist (numbered.map Prod.snd) := by
  induction numbered generalizing covered with
  | nil =>
    simp only [parts]
    split <;> simp
  | cons a rest ih =>
    obtain ⟨r, i⟩ := a
    simp only [parts, List.map_cons]
    split
    · exact (ih covered).cons i
    · split <;> simpa using ih _

theorem isChain_parts (covered : Nat) (numbered : List (TaggedRange × Nat)) :
    (parts filler len covered numbered).IsChain fun p q => p.2.isSome ∨ q.2.isSome := by
  induction numbered generalizing covered with
  | nil =>
    simp only [parts]
    split <;> simp
  | cons a rest ih =>
    obtain ⟨r, i⟩ := a
    simp only [parts]
    split
    · exact ih covered
    · split <;> simp [List.isChain_cons, ih]

theorem tiles_parts (hf : ∀ start length, (filler start length).start = start ∧
    (filler start length).length = length) (covered : Nat) (numbered : List (TaggedRange × Nat))
    (h : covered ≤ len) :
    Tiles covered len ((parts filler len covered numbered).map Prod.fst) := by
  have hfill (start length : Nat) : (filler start length).stop = start + length := by
    rw [stop, (hf start length).1, (hf start length).2]
  induction numbered generalizing covered with
  | nil =>
    simp only [parts]
    by_cases hc : covered < len
    · rw [if_pos hc]
      refine ⟨(hf _ _).1, ?_, ?_⟩
      · rw [(hf _ _).2]
        omega
      · simp only [List.map_nil, Tiles, hfill]
        omega
    · rw [if_neg hc]
      simp only [List.map_nil, Tiles]
      omega
  | cons a rest ih =>
    obtain ⟨r, i⟩ := a
    have hstop : r.stop = r.start + r.length := rfl
    have ht := ih (min r.stop len) (Nat.min_le_right _ _)
    simp only [parts]
    split
    · exact ih covered h
    · split
      · refine ⟨(hf _ _).1, ?_, ?_, ?_, ?_⟩
        · rw [(hf _ _).2]
          omega
        · rw [hfill]
          show r.start = covered + (r.start - covered)
          omega
        · show 0 < min r.stop len - r.start
          omega
        · have he : r.start + (min r.stop len - r.start) = min r.stop len := by omega
          rwa [stop, he]
      · refine ⟨rfl, ?_, ?_⟩
        · show 0 < min r.stop len - covered
          omega
        · have he : covered + (min r.stop len - covered) = min r.stop len := by omega
          rwa [stop, he]

theorem Derives.mono {l l' : List (TaggedRange × Nat)} {p : Part} (hl : ∀ a, a ∈ l → a ∈ l')
    (h : Derives filler l p) : Derives filler l' p := by
  obtain ⟨t, source⟩ := p
  cases source with
  | none => exact h
  | some i =>
    obtain ⟨r, hr, hlook⟩ := h
    exact ⟨r, hl _ hr, hlook⟩

theorem derives_parts (hf : ∀ start length, (filler start length).start = start ∧
    (filler start length).length = length) (covered : Nat) (numbered : List (TaggedRange × Nat)) :
    ∀ p ∈ parts filler len covered numbered, Derives filler numbered p := by
  have hfill (start length : Nat) (l : List (TaggedRange × Nat)) :
      Derives filler l (filler start length, none) := by
    simp only [Derives, hf]
  have hrest {a : TaggedRange × Nat} {rest : List (TaggedRange × Nat)} {p : Part}
      (h : Derives filler rest p) : Derives filler (a :: rest) p :=
    h.mono fun _ => List.mem_cons_of_mem a
  induction numbered generalizing covered with
  | nil =>
    intro p hp
    simp only [parts] at hp
    split at hp
    · rw [List.mem_singleton.mp hp]
      exact hfill _ _ _
    · simp at hp
  | cons a rest ih =>
    obtain ⟨r, i⟩ := a
    have hr (start length : Nat) :
        Derives filler ((r, i) :: rest) ({ r with start := start, length := length }, some i) :=
      ⟨r, List.mem_cons_self, rfl⟩
    intro p hp
    simp only [parts] at hp
    split at hp
    · exact hrest (ih covered p hp)
    · split at hp
      · rcases List.mem_cons.mp hp with rfl | hp
        · exact hfill _ _ _
        · rcases List.mem_cons.mp hp with rfl | hp
          · exact hr r.start _
          · exact hrest (ih _ p hp)
      · rcases List.mem_cons.mp hp with rfl | hp
        · exact hr covered _
        · exact hrest (ih _ p hp)

theorem Claims.cons {numbered : List (TaggedRange × Nat)} {x : Nat} {o : Option Nat}
    {a : TaggedRange × Nat} (ha : ¬a.1.Holds x) (h : Claims numbered x o) :
    Claims (a :: numbered) x o := by
  cases o with
  | none =>
    intro b hb
    rcases List.mem_cons.mp hb with rfl | hb
    · exact ha
    · exact h b hb
  | some i =>
    obtain ⟨r, hr, hx, hfirst⟩ := h
    refine ⟨r, List.mem_cons_of_mem a hr, hx, ?_⟩
    intro b hb hbx
    rcases List.mem_cons.mp hb with rfl | hb
    · exact absurd hbx ha
    · exact hfirst b hb hbx

theorem claims_none {numbered : List (TaggedRange × Nat)} {x : Nat} {a : TaggedRange × Nat}
    (h : (a :: numbered).Pairwise Before) (hx : x < a.1.start) : Claims (a :: numbered) x none := by
  intro b hb hbx
  have hab : a.1.start ≤ b.1.start := by
    rcases List.mem_cons.mp hb with rfl | hb
    · exact Nat.le_refl _
    · rcases (List.pairwise_cons.mp h).1 b hb with hlt | ⟨heq, _⟩ <;> omega
  have hle := hbx.1
  omega

theorem claims_head {numbered : List (TaggedRange × Nat)} {x : Nat} {r : TaggedRange} {i : Nat}
    (h : ((r, i) :: numbered).Pairwise Before) (hx : r.Holds x) :
    Claims ((r, i) :: numbered) x (some i) := by
  refine ⟨r, List.mem_cons_self, hx, ?_⟩
  intro b hb _
  rcases List.mem_cons.mp hb with rfl | hb
  · exact .inr ⟨rfl, Nat.le_refl _⟩
  · exact (List.pairwise_cons.mp h).1 b hb

/-- A piece lies where nothing is covered yet, and each of its bytes is claimed by its source. -/
theorem claims_parts (hf : ∀ start length, (filler start length).start = start ∧
    (filler start length).length = length) (covered : Nat) (numbered : List (TaggedRange × Nat))
    (hs : numbered.Pairwise Before) (hc : covered ≤ len) :
    ∀ p ∈ parts filler len covered numbered, ∀ x, p.1.Holds x →
      covered ≤ x ∧ x < len ∧ Claims numbered x p.2 := by
  have hfill (start length x : Nat) (hx : (filler start length).Holds x) :
      start ≤ x ∧ x < start + length := by
    simpa only [Holds, stop, hf] using hx
  induction numbered generalizing covered with
  | nil =>
    intro p hp x hx
    simp only [parts] at hp
    split at hp
    · rw [List.mem_singleton.mp hp] at hx ⊢
      have hb := hfill _ _ _ hx
      exact ⟨by omega, by omega, by simp [Claims]⟩
    · simp at hp
  | cons a rest ih =>
    obtain ⟨r, i⟩ := a
    have hrest := (List.pairwise_cons.mp hs).2
    have hstop : r.stop = r.start + r.length := rfl
    have hown (start length x : Nat) (hx : ({ r with start := start, length := length } :
        TaggedRange).Holds x) : start ≤ x ∧ x < start + length := hx
    intro p hp x hx
    simp only [parts] at hp
    by_cases hskip : r.length = 0 ∨ len ≤ r.start ∨ min r.stop len ≤ covered
    · rw [if_pos hskip] at hp
      obtain ⟨hlo, hhi, hcl⟩ := ih covered hrest hc p hp x hx
      refine ⟨hlo, hhi, hcl.cons ?_⟩
      simp only [Holds]
      omega
    · rw [if_neg hskip] at hp
      have htail (hp : p ∈ parts filler len (min r.stop len) rest) :
          covered ≤ x ∧ x < len ∧ Claims ((r, i) :: rest) x p.2 := by
        obtain ⟨hlo, hhi, hcl⟩ := ih _ hrest (Nat.min_le_right _ _) p hp x hx
        refine ⟨by omega, hhi, hcl.cons ?_⟩
        simp only [Holds]
        omega
      split at hp
      · rcases List.mem_cons.mp hp with rfl | hp
        · have hb := hfill _ _ _ hx
          have hlt : x < r.start := by omega
          exact ⟨hb.1, by omega, claims_none hs hlt⟩
        · rcases List.mem_cons.mp hp with rfl | hp
          · have hb := hown _ _ _ hx
            exact ⟨by omega, by omega, claims_head hs ⟨by omega, by omega⟩⟩
          · exact htail hp
      · rcases List.mem_cons.mp hp with rfl | hp
        · have hb := hown _ _ _ hx
          exact ⟨by omega, by omega, claims_head hs ⟨by omega, by omega⟩⟩
        · exact htail hp

end Sweep

def ranked (ranges : List TaggedRange) : List (TaggedRange × Nat) :=
  ranges.zipIdx.mergeSort (List.zipIdxLE fun a b => a.start ≤ b.start)

theorem map_ranked (ranges : List TaggedRange) :
    (ranked ranges).map Prod.fst = ranges.mergeSort fun a b => a.start ≤ b.start :=
  List.mergeSort_zipIdx

theorem ranked_perm (ranges : List TaggedRange) : (ranked ranges).Perm ranges.zipIdx :=
  List.mergeSort_perm _ _

theorem pairwise_ranked (ranges : List TaggedRange) : (ranked ranges).Pairwise Before := by
  have htrans (a b c : TaggedRange) : decide (a.start ≤ b.start) → decide (b.start ≤ c.start) →
      decide (a.start ≤ c.start) := by
    simp only [decide_eq_true_eq]
    omega
  have htotal (a b : TaggedRange) : decide (a.start ≤ b.start) || decide (b.start ≤ a.start) := by
    simp only [Bool.or_eq_true, decide_eq_true_eq]
    omega
  have h := List.pairwise_mergeSort (List.zipIdxLE_trans htrans) (List.zipIdxLE_total htotal)
    ranges.zipIdx
  refine h.imp ?_
  intro a b hab
  simp only [List.zipIdxLE, Before] at hab ⊢
  by_cases h₁ : a.1.start ≤ b.1.start <;> by_cases h₂ : b.1.start ≤ a.1.start <;>
    simp [h₁, h₂] at hab <;> omega

theorem nodup_sources (ranges : List TaggedRange) : ((ranked ranges).map Prod.snd).Nodup := by
  rw [((ranked_perm ranges).map Prod.snd).nodup_iff, List.zipIdx_map_snd]
  exact List.nodup_range' _

theorem Tiles.exists_holds {first last x : Nat} {ranges : List TaggedRange}
    (h : Tiles first last ranges) (hlo : first ≤ x) (hhi : x < last) :
    ∃ r ∈ ranges, r.Holds x := by
  induction ranges generalizing first with
  | nil =>
    have he : first = last := h
    omega
  | cons r rest ih =>
    obtain ⟨hstart, _, htail⟩ := h
    by_cases hx : x < r.stop
    · exact ⟨r, List.mem_cons_self, by omega, hx⟩
    · obtain ⟨t, ht, hold⟩ := ih htail (by omega)
      exact ⟨t, List.mem_cons_of_mem r ht, hold⟩

theorem Tiles.le {first last : Nat} {ranges : List TaggedRange} (h : Tiles first last ranges) :
    first ≤ last := by
  induction ranges generalizing first with
  | nil => exact Nat.le_of_eq h
  | cons r rest ih =>
    obtain ⟨hstart, _, htail⟩ := h
    have hle := ih htail
    have hstop : r.stop = r.start + r.length := rfl
    omega

theorem Tiles.eq_nil_iff {first last : Nat} {ranges : List TaggedRange}
    (h : Tiles first last ranges) : ranges = [] ↔ first = last := by
  cases ranges with
  | nil => exact ⟨fun _ => h, fun _ => rfl⟩
  | cons r rest =>
    obtain ⟨hstart, hpos, htail⟩ := h
    have hle := htail.le
    have hstop : r.stop = r.start + r.length := rfl
    have hne : first ≠ last := by omega
    simp [hne]

theorem tiles_fillGaps {filler : Nat → Nat → TaggedRange} (hf : ∀ start length,
    (filler start length).start = start ∧ (filler start length).length = length) (len : Nat)
    (ranges : List TaggedRange) : Tiles 0 len (fillGaps filler len ranges) := by
  rw [fillGaps, ← map_ranked, ← map_parts]
  exact tiles_parts hf 0 _ (Nat.zero_le _)

theorem Claims.congr {l l' : List (TaggedRange × Nat)} {x : Nat} {o : Option Nat}
    (hl : ∀ a, a ∈ l ↔ a ∈ l') (h : Claims l x o) : Claims l' x o := by
  cases o with
  | none =>
    intro a ha
    exact h a ((hl a).mpr ha)
  | some i =>
    obtain ⟨r, hr, hx, hfirst⟩ := h
    exact ⟨r, (hl _).mp hr, hx, fun a ha => hfirst a ((hl a).mpr ha)⟩

/-- What a partition of the first `len` bytes has to be: pieces that tile the bytes, each cut from
the range that claims its bytes, or a filler where none does. No range is in two pieces, and no
filler stands next to another. -/
structure IsPartition (filler : Nat → Nat → TaggedRange) (len : Nat) (ranges : List TaggedRange)
    (pieces : List Part) : Prop where
  tiles : Tiles 0 len (pieces.map Prod.fst)
  held : ∀ x < len, ∃ p ∈ pieces, p.1.Holds x
  claims : ∀ p ∈ pieces, ∀ x, p.1.Holds x → Claims ranges.zipIdx x p.2
  derives : ∀ p ∈ pieces, Derives filler ranges.zipIdx p
  once : (pieces.filterMap Prod.snd).Nodup
  apart : pieces.IsChain fun p q => p.2.isSome ∨ q.2.isSome

/-- Filling the gaps of any list of ranges, in any order and however they overlap, gives a
partition. -/
theorem fillGaps_isPartition (filler : Nat → Nat → TaggedRange) (hf : ∀ start length,
    (filler start length).start = start ∧ (filler start length).length = length) (len : Nat)
    (ranges : List TaggedRange) :
    (fillGaps filler len ranges = [] ↔ len = 0) ∧
      ∃ pieces : List Part, pieces.map Prod.fst = fillGaps filler len ranges ∧
        IsPartition filler len ranges pieces := by
  have ht := tiles_fillGaps hf len ranges
  have hmap : (parts filler len 0 (ranked ranges)).map Prod.fst = fillGaps filler len ranges := by
    rw [map_parts, map_ranked, fillGaps]
  have hmem (a : TaggedRange × Nat) : a ∈ ranked ranges ↔ a ∈ ranges.zipIdx :=
    (ranked_perm ranges).mem_iff
  refine ⟨ht.eq_nil_iff.trans eq_comm, parts filler len 0 (ranked ranges), hmap, ?_⟩
  constructor
  case tiles =>
    rw [hmap]
    exact ht
  case held =>
    intro x hx
    obtain ⟨r, hr, hold⟩ := ht.exists_holds (Nat.zero_le x) hx
    rw [← hmap] at hr
    obtain ⟨p, hp, rfl⟩ := List.mem_map.mp hr
    exact ⟨p, hp, hold⟩
  case claims =>
    intro p hp x hx
    exact (claims_parts hf 0 _ (pairwise_ranked ranges) (Nat.zero_le _) p hp x hx).2.2.congr hmem
  case derives =>
    intro p hp
    exact (derives_parts hf 0 _ p hp).mono fun a => (hmem a).mp
  case once => exact (nodup_sources ranges).sublist (sources_sublist 0 _)
  case apart => exact isChain_parts 0 _

theorem fillGaps_isPartition_overlapping :
    let filler (start length : Nat) : TaggedRange := ⟨start, length, 0, false, "gap", none, none⟩
    let range (start length : Nat) (label : String) : TaggedRange :=
      ⟨start, length, 1, false, label, none, none⟩
    let ranges := [range 3 9 "late", range 1 2 "first", range 1 3 "second", range 2 1 "inner"]
    (∀ start length, (filler start length).start = start ∧
      (filler start length).length = length) ∧
    fillGaps filler 5 ranges =
      [filler 0 1, range 1 2 "first", range 3 1 "second", range 4 1 "late"] ∧
    ∃ pieces : List Part, pieces.map Prod.fst = fillGaps filler 5 ranges ∧
      IsPartition filler 5 ranges pieces :=
  ⟨fun _ _ => ⟨rfl, rfl⟩,
    by simp [fillGaps, List.mergeSort, List.MergeSort.Internal.splitInTwo, List.splitAt,
      List.splitAt.go, sweep, stop],
    (fillGaps_isPartition _ (fun _ _ => ⟨rfl, rfl⟩) 5 _).2⟩

end Dissect.TaggedRange
