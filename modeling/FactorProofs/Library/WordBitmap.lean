import FactorProofs.Library.Bits

namespace FactorProofs.WordBitmap

open BitVec FactorProofs.Bits

variable {w : Nat}

/-- Bit `l` of a bitmap packed into `w`-bit words, low word and low bit first.
Positions past the last word read as clear. -/
def bitAt (words : List (BitVec w)) (l : Nat) : Bool := (words.getD (l / w) 0).getLsbD (l % w)

/-- The number of set bits below position `l`. -/
def rank (words : List (BitVec w)) (l : Nat) : Nat := (List.range l).countP (bitAt words)

theorem exists_first {P : Nat → Prop} {l : Nat} (h : ∃ L, l ≤ L ∧ P L) :
    ∃ L, l ≤ L ∧ P L ∧ ∀ j, l ≤ j → j < L → ¬P j := by
  classical
  have hex : ∃ L, l ≤ L ∧ P L := h
  refine ⟨Nat.find hex, (Nat.find_spec hex).1, (Nat.find_spec hex).2, fun j hj hjL hP => ?_⟩
  exact Nat.find_min hex hjL ⟨hj, hP⟩

theorem getD_modify (words : List (BitVec w)) (j : Nat) (f : BitVec w → BitVec w) (i : Nat) :
    (words.modify j f).getD i 0 =
      if j = i ∧ i < words.length then f (words.getD i 0) else words.getD i 0 := by
  simp only [List.getD_eq_getElem?_getD, List.getElem?_modify]
  by_cases hji : j = i
  · subst hji
    by_cases hl : j < words.length <;> simp [hl]
  · simp [hji]

theorem getD_of_length_le {words : List (BitVec w)} {i : Nat} (h : words.length ≤ i) :
    words.getD i 0 = 0 := by
  rw [List.getD_eq_getElem?_getD, List.getElem?_eq_none h]
  rfl

theorem bitAt_of_length_le (hw : 0 < w) {words : List (BitVec w)} {l : Nat}
    (h : words.length * w ≤ l) : bitAt words l = false := by
  rw [bitAt, getD_of_length_le ((Nat.le_div_iff_mul_le hw).mpr h)]
  exact BitVec.getLsbD_zero

theorem bitAt_mul_add (words : List (BitVec w)) (hw : 0 < w) {i t : Nat} (ht : t < w) :
    bitAt words (i * w + t) = (words.getD i 0).getLsbD t := by
  rw [bitAt, Nat.mul_comm, Nat.mul_add_div hw, Nat.div_eq_of_lt ht, Nat.add_zero,
    Nat.mul_add_mod, Nat.mod_eq_of_lt ht]

theorem rank_mul_add (words : List (BitVec w)) (hw : 0 < w) (i : Nat) {r : Nat} (hr : r ≤ w) :
    rank words (i * w + r) =
      ((words.take i).map fun x => x.cpopNatRec w 0).sum + (words.getD i 0).cpopNatRec r 0 := by
  induction i generalizing r with
  | zero =>
    rw [rank, Nat.zero_mul, Nat.zero_add, cpopNatRec_eq_countP]
    simp only [List.take_zero, List.map_nil, List.sum_nil, Nat.zero_add]
    apply List.countP_congr
    intro t ht
    rw [List.mem_range] at ht
    have := bitAt_mul_add words hw (i := 0) (t := t) (by omega)
    simpa using this
  | succ i ih =>
    have hsplit : (i + 1) * w + r = (i * w + w) + r := by rw [Nat.succ_mul]
    rw [rank, hsplit, List.range_add, List.countP_append, ← rank, ih (Nat.le_refl w),
      List.countP_map, cpopNatRec_eq_countP, cpopNatRec_eq_countP]
    have hword : (List.range r).countP ((bitAt words) ∘ fun t => i * w + w + t) =
        (List.range r).countP fun t => (words.getD (i + 1) 0).getLsbD t := by
      apply List.countP_congr
      intro t ht
      rw [List.mem_range] at ht
      have := bitAt_mul_add words hw (i := i + 1) (t := t) (by omega)
      rw [Nat.succ_mul] at this
      simp [this]
    rw [hword]
    by_cases hi : i < words.length
    · rw [List.take_add_one, List.getElem?_eq_getElem hi]
      simp only [Option.toList_some, List.map_append, List.map_cons, List.map_nil, List.sum_append,
        List.sum_cons, List.sum_nil, List.getD_eq_getElem?_getD, List.getElem?_eq_getElem hi,
        Option.getD_some, cpopNatRec_eq_countP]
      omega
    · rw [List.take_of_length_le (by omega), List.take_of_length_le (by omega),
        getD_of_length_le (by omega : words.length ≤ i), getD_of_length_le (by omega)]
      simp

theorem rank_add_of_const {words : List (BitVec w)} {l n : Nat} {c : Bool}
    (h : ∀ j, l ≤ j → j < l + n → bitAt words j = c) :
    rank words (l + n) = rank words l + if c then n else 0 := by
  rw [rank, rank, List.range_add, List.countP_append]
  congr 1
  have hrun : ∀ t ∈ List.range n, ((bitAt words) ∘ fun t => l + t) t = c := by
    intro t ht
    rw [List.mem_range] at ht
    exact h (l + t) (by omega) (by omega)
  rw [List.countP_map, List.countP_congr (fun t ht => by rw [hrun t ht])]
  cases c <;> simp

end FactorProofs.WordBitmap
