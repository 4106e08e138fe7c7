import FactorProofs.Vm.FreeListInvariant
import FactorProofs.Library.Runs
import Mathlib.Algebra.BigOperators.Ring.List

namespace FactorProofs.Vm

open FactorProofs.Runs

namespace MarkBits

variable (m : MarkBits)

/-! The scans of the mark bitmap are the scans of `Runs` over its lines, when
the bitmap covers the whole region: its size is a multiple of the lines of one
mark word. -/

theorem lineBlock_inj {a b : Nat} : m.lineBlock a = m.lineBlock b ↔ a = b := by
  simp only [lineBlock, dataAlignment]
  omega

theorem lineBlock_add (L k : Nat) : m.lineBlock L + k * dataAlignment = m.lineBlock (L + k) := by
  simp only [lineBlock, Nat.add_mul]
  omega

theorem bitsSize_mul_eq (hcover : dataAlignment * granularity ∣ m.size) :
    m.bitsSize * 64 * dataAlignment = m.size := by
  obtain ⟨q, hq⟩ := hcover
  have hq' : m.size = q * 1024 := by
    rw [hq, Nat.mul_comm]
    rfl
  simp only [bitsSize, hq', dataAlignment, granularity]
  omega

theorem lineBlock_bitsSize (hcover : dataAlignment * granularity ∣ m.size) :
    m.lineBlock (m.bitsSize * 64) = m.start + m.size := by
  rw [lineBlock, m.bitsSize_mul_eq hcover, Nat.add_comm]

theorem blockLine_lt (hcover : dataAlignment * granularity ∣ m.size) {a : Nat} (hs : m.start ≤ a)
    (ha : a < m.start + m.size) : m.blockLine a < m.bitsSize * 64 := by
  have := m.bitsSize_mul_eq hcover
  rw [blockLine, Nat.div_lt_iff_lt_mul (by decide)]
  omega

theorem bitmapDeref_lineBlock_blockLine (a : Nat) :
    m.bitmapDeref (m.lineBlock (m.blockLine a)) = m.bitmapDeref a := by
  rw [bitmapDeref_lineBlock]
  rfl

theorem nextUnmarkedBlockAfter_blockLine (a : Nat) :
    m.nextUnmarkedBlockAfter (m.lineBlock (m.blockLine a)) = m.nextUnmarkedBlockAfter a := by
  rw [nextUnmarkedBlockAfter, nextUnmarkedBlockAfter, bitmapDeref_lineBlock_blockLine]

theorem nextMarkedBlockAfter_blockLine (a : Nat) :
    m.nextMarkedBlockAfter (m.lineBlock (m.blockLine a)) = m.nextMarkedBlockAfter a := by
  rw [nextMarkedBlockAfter, nextMarkedBlockAfter, bitmapDeref_lineBlock_blockLine]

variable {m} {l : Nat}

theorem nextUnmarkedBlockAfter_eq_lineBlock (hcover : dataAlignment * granularity ∣ m.size) (hl : l ≤ m.bitsSize * 64) :
    m.nextUnmarkedBlockAfter (m.lineBlock l) =
      m.lineBlock (nextUnmarked m.markedLine (m.bitsSize * 64) l) := by
  have hle := le_nextUnmarked m.markedLine (m.bitsSize * 64) l
  have hge : nextUnmarked m.markedLine (m.bitsSize * 64) l ≤ m.bitsSize * 64 := nextUnmarked_le hl
  rcases Nat.lt_or_ge (nextUnmarked m.markedLine (m.bitsSize * 64) l) (m.bitsSize * 64) with hL | hL
  · exact m.nextUnmarkedBlockAfter_of_unmarked hle hL (unmarked_nextUnmarked hL)
      fun j hj hjL => marked_of_lt_nextUnmarked hj hjL
  · -- every line from `l` is marked: the lookup runs off the bitmap to the end
    rw [m.nextUnmarkedBlockAfter_of_none hl fun j hj hjN => marked_of_lt_nextUnmarked (n := m.bitsSize * 64) hj (by omega),
      show nextUnmarked m.markedLine (m.bitsSize * 64) l = m.bitsSize * 64 by omega,
      lineBlock_bitsSize m hcover]

theorem nextMarkedBlockAfter_eq_lineBlock (hcover : dataAlignment * granularity ∣ m.size) (hl : l ≤ m.bitsSize * 64) :
    m.nextMarkedBlockAfter (m.lineBlock l) = m.lineBlock (nextMarked m.markedLine (m.bitsSize * 64) l) := by
  obtain ⟨hle, hge⟩ := nextMarked_bounds m.markedLine (m.bitsSize * 64) hl
  rcases Nat.lt_or_ge (nextMarked m.markedLine (m.bitsSize * 64) l) (m.bitsSize * 64) with hM | hM
  · exact m.nextMarkedBlockAfter_of_marked hle (marked_nextMarked hM)
      fun j hj hjM => unmarked_of_lt_nextMarked hj hjM
  · rw [m.nextMarkedBlockAfter_of_none ?_, show nextMarked m.markedLine (m.bitsSize * 64) l = m.bitsSize * 64
      by omega, lineBlock_bitsSize m hcover]
    intro j hj
    by_cases hjN : j < m.bitsSize * 64
    · exact unmarked_of_lt_nextMarked (n := m.bitsSize * 64) hj (by omega)
    · -- no line past the bitmap carries a mark
      cases hm : m.markedLine j with
      | false => rfl
      | true => exact absurd (m.lt_of_markedLine hm) hjN

theorem unmarkedBlockSize_eq (hcover : dataAlignment * granularity ∣ m.size) {L : Nat} (hL : L < m.bitsSize * 64) (hu : m.markedLine L = false) :
    m.unmarkedBlockSize (m.lineBlock L) = (nextMarked m.markedLine (m.bitsSize * 64) L - L) * dataAlignment := by
  have hmul : L * dataAlignment ≤ nextMarked m.markedLine (m.bitsSize * 64) L * dataAlignment :=
    Nat.mul_le_mul_right _ (Nat.le_of_lt (lt_nextMarked hL hu))
  rw [unmarkedBlockSize, nextMarkedBlockAfter_eq_lineBlock hcover (Nat.le_of_lt hL), lineBlock, lineBlock,
    Nat.sub_mul]
  omega

theorem nextUnmarkedBlockAfter_spec (hcover : dataAlignment * granularity ∣ m.size) {a : Nat}
    (hs : m.start ≤ a) (ha : a < m.start + m.size) :
    ∃ L, m.blockLine a ≤ L ∧ L ≤ m.bitsSize * 64 ∧
      (∀ j, m.blockLine a ≤ j → j < L → m.markedLine j = true) ∧
      (L < m.bitsSize * 64 → m.markedLine L = false) ∧ m.nextUnmarkedBlockAfter a = m.lineBlock L := by
  have hl := Nat.le_of_lt (m.blockLine_lt hcover hs ha)
  refine ⟨nextUnmarked m.markedLine (m.bitsSize * 64) (m.blockLine a), le_nextUnmarked _ _ _,
    nextUnmarked_le hl, fun j hj hjL => marked_of_lt_nextUnmarked hj hjL, unmarked_nextUnmarked, ?_⟩
  rw [← m.nextUnmarkedBlockAfter_blockLine, nextUnmarkedBlockAfter_eq_lineBlock hcover hl]

theorem nextMarkedBlockAfter_spec (hcover : dataAlignment * granularity ∣ m.size) {a : Nat}
    (hs : m.start ≤ a) (ha : a < m.start + m.size) :
    ∃ M, m.blockLine a ≤ M ∧ M ≤ m.bitsSize * 64 ∧
      (∀ j, m.blockLine a ≤ j → j < M → m.markedLine j = false) ∧
      (M < m.bitsSize * 64 → m.markedLine M = true) ∧ m.nextMarkedBlockAfter a = m.lineBlock M := by
  have hl := Nat.le_of_lt (m.blockLine_lt hcover hs ha)
  obtain ⟨hle, hge⟩ := nextMarked_bounds m.markedLine (m.bitsSize * 64) hl
  refine ⟨nextMarked m.markedLine (m.bitsSize * 64) (m.blockLine a), hle, hge,
    fun j hj hjM => unmarked_of_lt_nextMarked hj hjM, marked_nextMarked, ?_⟩
  rw [← m.nextMarkedBlockAfter_blockLine, nextMarkedBlockAfter_eq_lineBlock hcover hl]

end MarkBits

namespace FreeListAllocator

variable {s : FreeListAllocator} {p : Nat}

theorem sweepIterFrom_fst (s : FreeListAllocator) (p fuel : Nat) :
    (sweepIterFrom s p fuel).1 = sweepFrom s p fuel := by
  induction fuel generalizing s p with
  | zero => rfl
  | succ fuel ih =>
    rw [sweepIterFrom, sweepFrom]
    dsimp only
    by_cases hpe : p ≠ s.endAddr
    · by_cases hr : s.state.nextUnmarkedBlockAfter p ≠ s.endAddr
      · simp only [if_pos hpe, if_pos hr]
        exact ih _ _
      · simp only [if_pos hpe, if_neg hr]
    · simp only [if_neg hpe]

theorem sweepIterFrom_fst_eq_foldl (s : FreeListAllocator) (p fuel : Nat) :
    (sweepIterFrom s p fuel).1 = (sweepIterFrom s p fuel).2.foldl (fun t b => t.free b.1 b.2) s := by
  induction fuel generalizing s p with
  | zero => rfl
  | succ fuel ih =>
    rw [sweepIterFrom]
    dsimp only
    by_cases hpe : p ≠ s.endAddr
    · by_cases hr : s.state.nextUnmarkedBlockAfter p ≠ s.endAddr
      · simp only [if_pos hpe, if_pos hr, List.foldl_cons]
        exact ih _ _
      · simp only [if_pos hpe, if_neg hr, List.foldl_nil]
    · simp only [if_neg hpe, List.foldl_nil]

theorem freeBlocks_sweepIterFrom (fuel : Nat) (h : s.Inv) (h16 : dataAlignment ∣ s.size)
    (hp : s.SweepPos p) (hbelow : ∀ c ∈ s.freeBlocks, c.1 + c.2 ≤ p) :
    (sweepIterFrom s p fuel).1.freeBlocks.Perm ((sweepIterFrom s p fuel).2 ++ s.freeBlocks) := by
  induction fuel generalizing s p with
  | zero => exact List.Perm.refl _
  | succ fuel ih =>
    rw [sweepIterFrom]
    dsimp only
    by_cases hpe : p ≠ s.endAddr
    · by_cases hr : s.state.nextUnmarkedBlockAfter p ≠ s.endAddr
      · obtain ⟨h', hp', hbelow', hfb⟩ := h.sweep_turn h16 hp hbelow hpe hr rfl rfl
        simp only [if_pos hpe, if_pos hr]
        exact (ih h' (by simpa using h16) hp' hbelow').trans ((hfb.append_left _).trans List.perm_middle)
      · simp only [if_pos hpe, if_neg hr]
        exact List.Perm.refl _
    · simp only [if_neg hpe]
      exact List.Perm.refl _

theorem sweepIterFrom_snd {m : MarkBits} (hcover : dataAlignment * granularity ∣ m.size)
    (hm : s.state = m) {l : Nat} (hl : l ≤ m.bitsSize * 64) (fuel : Nat) :
    (sweepIterFrom s (m.lineBlock l) fuel).2 =
      (runsFrom m.markedLine (m.bitsSize * 64) fuel l).map fun r => (m.lineBlock r.1, r.2 * dataAlignment) := by
  induction fuel generalizing s l with
  | zero => rfl
  | succ fuel ih =>
    have hend : s.endAddr = m.lineBlock (m.bitsSize * 64) := by
      rw [MarkBits.lineBlock_bitsSize m hcover, ← hm, s.state_start, s.state_size]
      rfl
    rw [sweepIterFrom, runsFrom]
    dsimp only
    rw [hm]
    rcases Nat.lt_or_ge l (m.bitsSize * 64) with hln | hln
    · have hpe : m.lineBlock l ≠ s.endAddr := by
        rw [hend, Ne, MarkBits.lineBlock_inj]
        omega
      rw [MarkBits.nextUnmarkedBlockAfter_eq_lineBlock hcover hl]
      by_cases hL : nextUnmarked m.markedLine (m.bitsSize * 64) l < m.bitsSize * 64
      · have hr : m.lineBlock (nextUnmarked m.markedLine (m.bitsSize * 64) l) ≠ s.endAddr := by
          rw [hend, Ne, MarkBits.lineBlock_inj]
          omega
        have hlt := lt_nextMarked hL (unmarked_nextUnmarked hL)
        obtain ⟨-, hMn⟩ := nextMarked_bounds m.markedLine (m.bitsSize * 64) (Nat.le_of_lt hL)
        simp only [if_pos hpe, if_pos hr, if_pos hL, List.map_cons,
          MarkBits.unmarkedBlockSize_eq hcover hL (unmarked_nextUnmarked hL), MarkBits.lineBlock_add,
          Nat.add_sub_cancel' (Nat.le_of_lt hlt)]
        exact congrArg (List.cons _) (ih (by simpa using hm) hMn)
      · have hr : ¬m.lineBlock (nextUnmarked m.markedLine (m.bitsSize * 64) l) ≠ s.endAddr := by
          rw [hend, Ne, MarkBits.lineBlock_inj, not_not]
          have : nextUnmarked m.markedLine (m.bitsSize * 64) l ≤ m.bitsSize * 64 := nextUnmarked_le hl
          omega
        simp only [if_pos hpe, if_neg hr, if_neg hL, List.map_nil]
    · -- the loop starts at the end
      have hpe : ¬m.lineBlock l ≠ s.endAddr := by
        rw [hend, Ne, MarkBits.lineBlock_inj, not_not]
        omega
      simp only [if_neg hpe, nextUnmarked_of_ge hln, if_neg (Nat.not_lt.mpr hln), List.map_nil]

section Sweep

theorem cover_state (hcover : dataAlignment * granularity ∣ s.size) : dataAlignment * granularity ∣ s.state.size := by
  rw [s.state_size]
  exact hcover

theorem lines_eq_of_cover (hcover : dataAlignment * granularity ∣ s.size) :
    s.size / dataAlignment = s.state.bitsSize * 64 := by
  have h := s.state.bitsSize_mul_eq (cover_state hcover)
  rw [s.state_size] at h
  rw [← h, Nat.mul_div_cancel _ (by decide)]

theorem start_eq_lineBlock_zero (s : FreeListAllocator) : s.start = s.state.lineBlock 0 := by
  rw [MarkBits.lineBlock, Nat.zero_mul, Nat.zero_add, s.state_start]

theorem sweepIter_snd (hcover : dataAlignment * granularity ∣ s.size) : s.sweepIter.2 =
    (runsFrom s.state.markedLine (s.state.bitsSize * 64) (s.size / dataAlignment + 1) 0).map
      fun r => (s.state.lineBlock r.1, r.2 * dataAlignment) := by
  rw [sweepIter, start_eq_lineBlock_zero s]
  exact sweepIterFrom_snd (s := s.clearFreeList) (cover_state hcover) rfl (Nat.zero_le _) _

theorem mem_sweepIter (hcover : dataAlignment * granularity ∣ s.size) {b : Nat × Nat} :
    b ∈ s.sweepIter.2 ↔ ∃ L k, IsRun s.state.markedLine (s.state.bitsSize * 64) L k ∧
      b = (s.state.lineBlock L, k * dataAlignment) := by
  have hfuel : s.state.bitsSize * 64 ≤ s.size / dataAlignment + 1 := by
    rw [lines_eq_of_cover hcover]
    exact Nat.le_succ _
  rw [sweepIter_snd hcover, List.mem_map]
  constructor
  · rintro ⟨⟨L, k⟩, hmem, rfl⟩
    exact ⟨L, k, ((mem_runsFrom hfuel (.inl rfl)).mp hmem).1, rfl⟩
  · rintro ⟨L, k, hr, rfl⟩
    exact ⟨(L, k), (mem_runsFrom hfuel (.inl rfl)).mpr ⟨hr, Nat.zero_le _⟩, rfl⟩

theorem sweepIter_pairwise (hcover : dataAlignment * granularity ∣ s.size) : s.sweepIter.2.Pairwise fun b c => b.1 + b.2 < c.1 := by
  have hfuel : s.state.bitsSize * 64 ≤ s.size / dataAlignment + 1 := by
    rw [lines_eq_of_cover hcover]
    exact Nat.le_succ _
  rw [sweepIter_snd hcover, List.pairwise_map]
  refine (runsFrom_pairwise hfuel (.inl rfl)).imp fun {x y} h => ?_
  have := Nat.mul_lt_mul_of_pos_right h (by decide : 0 < dataAlignment)
  simp only [MarkBits.lineBlock, Nat.add_mul] at this ⊢
  omega

theorem freeBlocks_sweep_perm (hcover : dataAlignment * granularity ∣ s.size) : s.sweep.freeBlocks.Perm s.sweepIter.2 := by
  have h16 : dataAlignment ∣ s.size := Nat.dvd_trans (Nat.dvd_mul_right _ _) hcover
  have hp : s.clearFreeList.SweepPos s.start := .inl ⟨0, Nat.zero_le _, start_eq_lineBlock_zero s⟩
  have := freeBlocks_sweepIterFrom (s.size / dataAlignment + 1) (inv_clearFreeList s) h16 hp
    (by simp [freeBlocks_clearFreeList])
  rwa [sweepIterFrom_fst, freeBlocks_clearFreeList, List.append_nil] at this

end Sweep

/-- Over a region its bitmap covers, a whole number of mark words, the lookups
find the first unmarked and the first marked line at or after an address's
line, the line past the bitmap standing for the end. `sweep(iter)` hands
`iter` exactly the maximal runs of unmarked lines, in increasing address order
and with a mark between neighbours; the lists of `sweep()` hold just these
blocks, the free space is the unmarked lines and the count is the number of
runs. More turns than the loop's bound change nothing. -/
theorem sweep_lists_unmarked_runs (hcover : dataAlignment * granularity ∣ s.size) :
    s.state.lineBlock (s.state.bitsSize * 64) = s.endAddr ∧
    (∀ a, s.start ≤ a → a < s.endAddr →
      (∃ L, s.state.blockLine a ≤ L ∧ L ≤ s.state.bitsSize * 64 ∧
        (∀ j, s.state.blockLine a ≤ j → j < L → s.state.markedLine j = true) ∧
        (L < s.state.bitsSize * 64 → s.state.markedLine L = false) ∧
        s.state.nextUnmarkedBlockAfter a = s.state.lineBlock L) ∧
      (∃ M, s.state.blockLine a ≤ M ∧ M ≤ s.state.bitsSize * 64 ∧
        (∀ j, s.state.blockLine a ≤ j → j < M → s.state.markedLine j = false) ∧
        (M < s.state.bitsSize * 64 → s.state.markedLine M = true) ∧
        s.state.nextMarkedBlockAfter a = s.state.lineBlock M)) ∧
    s.sweepIter.1 = s.sweep ∧
    (∀ b, b ∈ s.sweepIter.2 ↔ ∃ L k, IsRun s.state.markedLine (s.state.bitsSize * 64) L k ∧
      b = (s.state.lineBlock L, k * dataAlignment)) ∧
    s.sweepIter.2.Pairwise (fun b c => b.1 + b.2 < c.1) ∧
    s.sweep.freeBlocks.Perm s.sweepIter.2 ∧
    s.sweep.freeSpace = unmarkedCount s.state.markedLine (s.state.bitsSize * 64) 0 * dataAlignment ∧
    s.sweep.freeBlockCount = s.sweepIter.2.length ∧
    ∀ fuel, s.size / dataAlignment + 1 ≤ fuel → sweepFrom s.clearFreeList s.start fuel = s.sweep := by
  have hc := cover_state hcover
  have hend : s.state.start + s.state.size = s.endAddr := by rw [s.state_start, s.state_size]; rfl
  have h16 : dataAlignment ∣ s.size := Nat.dvd_trans (Nat.dvd_mul_right _ _) hcover
  have hfuel : s.state.bitsSize * 64 ≤ s.size / dataAlignment + 1 := by
    rw [lines_eq_of_cover hcover]
    exact Nat.le_succ _
  have hperm := freeBlocks_sweep_perm hcover
  refine ⟨by rw [s.state.lineBlock_bitsSize hc, hend], fun a hs ha => ?_, sweepIterFrom_fst _ _ _,
    fun b => mem_sweepIter hcover, sweepIter_pairwise hcover, hperm, ?_, ?_, ?_⟩
  · rw [← s.state_start] at hs
    rw [← hend] at ha
    exact ⟨s.state.nextUnmarkedBlockAfter_spec hc hs ha, s.state.nextMarkedBlockAfter_spec hc hs ha⟩
  · -- the free space adds up the runs' lengths
    rw [(inv_sweep h16).space, (hperm.map Prod.snd).sum_eq, sweepIter_snd hcover, List.map_map]
    rw [show (Prod.snd ∘ fun r : Nat × Nat => (s.state.lineBlock r.1, r.2 * dataAlignment)) =
      fun r => r.2 * dataAlignment from rfl, List.sum_map_mul_right, sum_runsFrom hfuel]
  · rw [(inv_sweep h16).count, ← hperm.length_eq, freeBlocks, List.length_map]
  · intro fuel hf
    have hruns : runsFrom s.state.markedLine (s.state.bitsSize * 64) fuel 0 =
        runsFrom s.state.markedLine (s.state.bitsSize * 64) (s.size / dataAlignment + 1) 0 :=
      runsFrom_congr (by omega) hfuel
    rw [sweep, ← sweepIterFrom_fst, ← sweepIterFrom_fst, sweepIterFrom_fst_eq_foldl,
      sweepIterFrom_fst_eq_foldl, start_eq_lineBlock_zero s, sweepIterFrom_snd (s := s.clearFreeList) hc rfl (Nat.zero_le _),
      sweepIterFrom_snd (s := s.clearFreeList) hc rfl (Nat.zero_le _), hruns]

/-- A region of one mark word, 64 lines, with every other group of four lines
marked. -/
def stripedRegion : FreeListAllocator :=
  ⟨0, 1024, fun _ => [], [], 0, 0, fun _ => 0, ⟨1024, 0, [0x0F0F0F0F0F0F0F0F#64], [0], rfl, rfl⟩, rfl, rfl⟩

theorem sweep_lists_unmarked_runs_striped :
    dataAlignment * granularity ∣ stripedRegion.size ∧
      stripedRegion.sweep.freeSpace =
        unmarkedCount stripedRegion.state.markedLine (stripedRegion.state.bitsSize * 64) 0 * dataAlignment :=
  ⟨by decide, (sweep_lists_unmarked_runs (s := stripedRegion) (by decide)).2.2.2.2.2.2.1⟩

/-- A region of 65 lines, one more than its one mark word covers, with all 64
bits of the word set. -/
def uncoveredTail : FreeListAllocator :=
  ⟨0, 1040, fun _ => [], [], 0, 0, fun _ => 0, ⟨1040, 0, [BitVec.allOnes 64], [0], rfl, rfl⟩, rfl, rfl⟩

theorem sweep_uncoveredTail :
    ¬dataAlignment * granularity ∣ uncoveredTail.size ∧
    uncoveredTail.state.lineBlock 64 < uncoveredTail.endAddr ∧
    uncoveredTail.state.markedLine 64 = false ∧
    uncoveredTail.state.nextUnmarkedBlockAfter (uncoveredTail.state.lineBlock 64) = uncoveredTail.endAddr ∧
    uncoveredTail.sweep.freeSpace = 0 ∧
    (List.range (uncoveredTail.size / dataAlignment)).countP (fun j => !uncoveredTail.state.markedLine j) = 1 :=
  ⟨by decide, by decide, by decide, by decide, by decide, by decide⟩

end FreeListAllocator

end FactorProofs.Vm
