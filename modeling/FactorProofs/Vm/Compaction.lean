import FactorProofs.Vm.FreeListInvariant

namespace FactorProofs.Vm

open FactorProofs.Intervals FactorProofs.WordBitmap

/-- A block of a heap region: its size, and whether the mark phase reached it. -/
structure HeapBlock where
  size : Nat
  live : Bool
  deriving DecidableEq, Repr

/-- The blocks laid out one after another from address `a`. -/
def layout : Nat → List HeapBlock → List (Nat × HeapBlock)
  | _, [] => []
  | a, b :: bs => (a, b) :: layout (a + b.size) bs

/-- The bytes of the live blocks placed below address `p`. -/
def liveBelow (placed : List (Nat × HeapBlock)) (p : Nat) : Nat :=
  ((placed.filter fun x => x.2.live && decide (x.1 < p)).map fun x => x.2.size).sum

/-- The bytes of the live blocks. -/
def liveSize (blocks : List HeapBlock) : Nat := ((blocks.filter HeapBlock.live).map HeapBlock.size).sum

/-- Each live block in address order with the running destination from
`dest`, and its size. -/
def liveMoves (dest : Nat) : List (Nat × HeapBlock) → List (Nat × Nat × Nat)
  | [] => []
  | (a, b) :: placed =>
    if b.live then (a, dest, b.size) :: liveMoves (dest + b.size) placed else liveMoves dest placed

section Layout

variable {x a : Nat} {b : HeapBlock} {bs : List HeapBlock}

@[simp] theorem layout_nil (x : Nat) : layout x [] = [] := rfl

@[simp] theorem layout_cons (x : Nat) (b : HeapBlock) (bs : List HeapBlock) :
    layout x (b :: bs) = (x, b) :: layout (x + b.size) bs := rfl

theorem layout_append (x : Nat) (pre bs : List HeapBlock) :
    layout x (pre ++ bs) = layout x pre ++ layout (x + (pre.map HeapBlock.size).sum) bs := by
  induction pre generalizing x with
  | nil => simp
  | cons b pre ih => simp [ih, Nat.add_assoc]

theorem le_of_mem_layout (h : (a, b) ∈ layout x bs) :
    x ≤ a ∧ a + b.size ≤ x + (bs.map HeapBlock.size).sum := by
  induction bs generalizing x with
  | nil => cases h
  | cons c bs ih =>
    rcases List.mem_cons.mp h with h | h
    · cases h
      simp
    · have := ih h
      simp only [List.map_cons, List.sum_cons]
      omega

theorem mem_of_mem_layout (h : (a, b) ∈ layout x bs) : b ∈ bs := by
  induction bs generalizing x with
  | nil => cases h
  | cons c bs ih =>
    rcases List.mem_cons.mp h with h | h
    · cases h
      exact List.mem_cons_self
    · exact List.mem_cons_of_mem _ (ih h)

theorem dvd_sub_of_mem_layout (hs : ∀ c ∈ bs, dataAlignment ∣ c.size) (h : (a, b) ∈ layout x bs) :
    dataAlignment ∣ a - x := by
  induction bs generalizing x with
  | nil => cases h
  | cons c bs ih =>
    rcases List.mem_cons.mp h with h | h
    · cases h
      simp
    · have hle := (le_of_mem_layout h).1
      have hc := hs c List.mem_cons_self
      have := ih (fun d hd => hs d (List.mem_cons_of_mem _ hd)) h
      have heq : a - x = (a - (x + c.size)) + c.size := by omega
      rw [heq]
      exact Nat.dvd_add this hc

theorem eq_of_mem_layout {a' p : Nat} {b' : HeapBlock} (h : (a, b) ∈ layout x bs)
    (h' : (a', b') ∈ layout x bs) (hp : a ≤ p ∧ p < a + b.size) (hp' : a' ≤ p ∧ p < a' + b'.size) :
    a = a' ∧ b = b' := by
  induction bs generalizing x with
  | nil => cases h
  | cons c bs ih =>
    rcases List.mem_cons.mp h with h | h <;> rcases List.mem_cons.mp h' with h' | h'
    · cases h
      cases h'
      exact ⟨rfl, rfl⟩
    · cases h
      have := (le_of_mem_layout h').1
      omega
    · cases h'
      have := (le_of_mem_layout h).1
      omega
    · exact ih h h'

theorem mem_layout_append (x : Nat) (pre : List HeapBlock) (b : HeapBlock) (post : List HeapBlock) :
    (x + (pre.map HeapBlock.size).sum, b) ∈ layout x (pre ++ b :: post) := by
  rw [layout_append, layout_cons]
  exact List.mem_append_right _ List.mem_cons_self

theorem exists_of_mem_layout (h : (a, b) ∈ layout x bs) :
    ∃ pre post, bs = pre ++ b :: post ∧ a = x + (pre.map HeapBlock.size).sum := by
  induction bs generalizing x with
  | nil => cases h
  | cons c bs ih =>
    rcases List.mem_cons.mp h with h | h
    · cases h
      exact ⟨[], bs, rfl, rfl⟩
    · obtain ⟨pre, post, rfl, rfl⟩ := ih h
      exact ⟨c :: pre, post, rfl, by simp [Nat.add_assoc]⟩

theorem length_mul_le_sum {d : Nat} (hs : ∀ c ∈ bs, d ≤ c.size) :
    bs.length * d ≤ (bs.map HeapBlock.size).sum := by
  induction bs with
  | nil => simp
  | cons b bs ih =>
    have := ih fun c hc => hs c (List.mem_cons_of_mem _ hc)
    have := hs b List.mem_cons_self
    simp only [List.length_cons, List.map_cons, List.sum_cons, Nat.succ_mul]
    omega

@[simp] theorem liveSize_nil : liveSize [] = 0 := rfl

@[simp] theorem liveSize_cons : liveSize (b :: bs) = (if b.live then b.size else 0) + liveSize bs := by
  cases hb : b.live <;> simp [liveSize, hb]

theorem liveSize_le (bs : List HeapBlock) : liveSize bs ≤ (bs.map HeapBlock.size).sum := by
  induction bs with
  | nil => exact Nat.le_refl _
  | cons b bs ih =>
    rw [liveSize_cons, List.map_cons, List.sum_cons]
    split <;> omega

theorem dvd_liveSize {d : Nat} (hs : ∀ c ∈ bs, d ∣ c.size) : d ∣ liveSize bs := by
  induction bs with
  | nil => exact Nat.dvd_zero d
  | cons b bs ih =>
    rw [liveSize_cons]
    refine Nat.dvd_add ?_ (ih fun c hc => hs c (List.mem_cons_of_mem _ hc))
    split
    · exact hs b List.mem_cons_self
    · exact Nat.dvd_zero d

@[simp] theorem liveBelow_nil (p : Nat) : liveBelow [] p = 0 := rfl

theorem liveBelow_cons (y : Nat) (c : HeapBlock) (placed : List (Nat × HeapBlock)) (p : Nat) :
    liveBelow ((y, c) :: placed) p = (if c.live ∧ y < p then c.size else 0) + liveBelow placed p := by
  unfold liveBelow
  by_cases hc : c.live ∧ y < p
  · simp [hc]
  · have : (c.live && decide (y < p)) = false := by
      cases hl : c.live <;> simp_all
    simp [this, hc]

theorem liveBelow_append (placed placed' : List (Nat × HeapBlock)) (p : Nat) :
    liveBelow (placed ++ placed') p = liveBelow placed p + liveBelow placed' p := by
  simp [liveBelow, List.filter_append]

theorem liveBelow_layout_of_le {p : Nat} (x : Nat) (bs : List HeapBlock) (hp : p ≤ x) :
    liveBelow (layout x bs) p = 0 := by
  unfold liveBelow
  have hfil : ∀ y ∈ layout x bs, ¬(y.2.live && decide (y.1 < p)) = true := by
    intro y hy
    have := (le_of_mem_layout (a := y.1) (b := y.2) hy).1
    simp only [Bool.and_eq_true, decide_eq_true_eq, not_and, not_lt]
    intro _
    omega
  rw [List.filter_eq_nil_iff.mpr hfil]
  rfl

theorem liveBelow_layout_of_ge {p : Nat} (x : Nat) (bs : List HeapBlock)
    (hp : x + (bs.map HeapBlock.size).sum ≤ p) : liveBelow (layout x bs) p = liveSize bs := by
  induction bs generalizing x with
  | nil => rfl
  | cons b bs ih =>
    simp only [List.map_cons, List.sum_cons] at hp
    rw [layout_cons, liveBelow_cons, liveSize_cons, ih (x + b.size) (by omega)]
    by_cases hx : x < p
    · simp [hx]
    · -- only an empty block can start at `p` itself
      have hsize : b.size = 0 := by omega
      simp [hsize]

theorem liveBelow_layout_prefix (x : Nat) (pre bs : List HeapBlock) :
    liveBelow (layout x (pre ++ bs)) (x + (pre.map HeapBlock.size).sum) = liveSize pre := by
  rw [layout_append, liveBelow_append, liveBelow_layout_of_ge _ _ (Nat.le_refl _),
    liveBelow_layout_of_le _ _ (Nat.le_refl _), Nat.add_zero]

theorem liveBelow_layout_le (h : (a, b) ∈ layout x bs) : liveBelow (layout x bs) a ≤ a - x := by
  induction bs generalizing x with
  | nil => cases h
  | cons c bs ih =>
    rw [layout_cons] at h ⊢
    rcases List.mem_cons.mp h with h | h
    · cases h
      rw [liveBelow_cons, if_neg (by omega), Nat.zero_add, liveBelow_layout_of_le _ _ (by omega)]
      exact Nat.zero_le _
    · have hle := (le_of_mem_layout h).1
      have := ih h
      rw [liveBelow_cons]
      split <;> omega

theorem liveBelow_layout_lt (hpos : ∀ c ∈ bs, 0 < c.size) {a' : Nat} {b' : HeapBlock}
    (h : (a, b) ∈ layout x bs) (h' : (a', b') ∈ layout x bs) (hlt : a < a') (hlive : b.live = true) :
    liveBelow (layout x bs) a + b.size ≤ liveBelow (layout x bs) a' := by
  induction bs generalizing x with
  | nil => cases h
  | cons c bs ih =>
    have hc := hpos c List.mem_cons_self
    rw [layout_cons] at h h' ⊢
    rcases List.mem_cons.mp h with h | h
    · cases h
      rw [liveBelow_cons, if_neg (by omega), Nat.zero_add, liveBelow_layout_of_le _ _ (by omega),
        Nat.zero_add, liveBelow_cons, if_pos ⟨hlive, hlt⟩]
      exact Nat.le_add_right _ _
    · have ha := (le_of_mem_layout h).1
      rcases List.mem_cons.mp h' with h' | h'
      · cases h'
        omega
      · have ha' := (le_of_mem_layout h').1
        have := ih (fun c hc => hpos c (List.mem_cons_of_mem _ hc)) h h'
        rw [liveBelow_cons, liveBelow_cons]
        by_cases hcl : c.live = true
        · rw [if_pos ⟨hcl, by omega⟩, if_pos ⟨hcl, by omega⟩]
          omega
        · rw [if_neg (fun h => hcl h.1), if_neg (fun h => hcl h.1)]
          omega

theorem liveMoves_layout (dest x : Nat) (bs : List HeapBlock) :
    liveMoves dest (layout x bs) =
      ((layout x bs).filter (·.2.live)).map fun p => (p.1, dest + liveBelow (layout x bs) p.1, p.2.size) := by
  induction bs generalizing x dest with
  | nil => rfl
  | cons b bs ih =>
    have hafter : ∀ p ∈ layout (x + b.size) bs, liveBelow ((x, b) :: layout (x + b.size) bs) p.1 =
        (if b.live then b.size else 0) + liveBelow (layout (x + b.size) bs) p.1 := by
      intro p hp
      have := (le_of_mem_layout (a := p.1) (b := p.2) hp).1
      rw [liveBelow_cons]
      by_cases hx : x < p.1
      · simp [hx]
      · have hsize : b.size = 0 := by omega
        simp [hsize]
    have hfirst : liveBelow ((x, b) :: layout (x + b.size) bs) x = 0 := by
      rw [liveBelow_cons, if_neg (fun h => Nat.lt_irrefl _ h.2), liveBelow_layout_of_le _ _ (by omega)]
    rw [layout_cons, List.filter_cons]
    cases hl : b.live with
    | true =>
      simp only [liveMoves, hl, if_true, ih, List.map_cons, hfirst, Nat.add_zero]
      congr 1
      apply List.map_congr_left
      intro p hp
      rw [hafter p (List.mem_of_mem_filter hp), hl, if_pos rfl, Nat.add_assoc]
    | false =>
      simp only [liveMoves, hl, Bool.false_eq_true, if_false, ih]
      apply List.map_congr_left
      intro p hp
      rw [hafter p (List.mem_of_mem_filter hp), hl, if_neg (by simp), Nat.zero_add]

end Layout

section Iterate

variable (s : FreeListAllocator) (objectSize : Nat → Nat) {scan destAddr : Nat}

@[simp] theorem compactFrom_endAddr (destAddr fuel : Nat) :
    s.compactFrom objectSize s.endAddr destAddr fuel = ([], destAddr) := by
  cases fuel <;> simp [FreeListAllocator.compactFrom]

theorem compactFrom_marked (fuel : Nat) (hne : scan ≠ s.endAddr) (hfree : s.freeP scan = false)
    (hmk : s.state.markedP scan = true) :
    s.compactFrom objectSize scan destAddr (fuel + 1) =
      ((scan, destAddr, objectSize scan) ::
          (s.compactFrom objectSize (scan + objectSize scan) (destAddr + objectSize scan) fuel).1,
        (s.compactFrom objectSize (scan + objectSize scan) (destAddr + objectSize scan) fuel).2) := by
  simp [FreeListAllocator.compactFrom, hne, hfree, hmk]

theorem compactFrom_unmarked (fuel : Nat) (hne : scan ≠ s.endAddr) (hmk : s.state.markedP scan = false) :
    s.compactFrom objectSize scan destAddr (fuel + 1) =
      s.compactFrom objectSize (scan + s.state.unmarkedBlockSize scan) destAddr fuel := by
  simp [FreeListAllocator.compactFrom, hne, hmk]

@[simp] theorem memmove_start (dest src size : Nat) : (s.memmove dest src size).start = s.start := rfl
@[simp] theorem memmove_size (dest src size : Nat) : (s.memmove dest src size).size = s.size := rfl

@[simp] theorem moveBlocks_start (moves : List (Nat × Nat × Nat)) :
    (FreeListAllocator.moveBlocks s moves).start = s.start := by
  induction moves generalizing s with
  | nil => rfl
  | cons m moves ih =>
    obtain ⟨block, dest, size⟩ := m
    rw [FreeListAllocator.moveBlocks, ih]
    split <;> rfl

@[simp] theorem moveBlocks_size (moves : List (Nat × Nat × Nat)) :
    (FreeListAllocator.moveBlocks s moves).size = s.size := by
  induction moves generalizing s with
  | nil => rfl
  | cons m moves ih =>
    obtain ⟨block, dest, size⟩ := m
    rw [FreeListAllocator.moveBlocks, ih]
    split <;> rfl

@[simp] theorem compact_start : (s.compact objectSize).2.start = s.start := by
  simp [FreeListAllocator.compact]

@[simp] theorem compact_size : (s.compact objectSize).2.size = s.size := by
  simp [FreeListAllocator.compact]

end Iterate

/-- The blocks tile the allocator's region from its start, each a positive
multiple of the line size; the region is a whole number of mark words and its
line count fits a machine word. -/
structure Tiles (s : FreeListAllocator) (blocks : List HeapBlock) : Prop where
  start_aligned : dataAlignment ∣ s.start
  size_words : dataAlignment * granularity ∣ s.size
  size_lt : s.size < 2 ^ 64
  sum_sizes : (blocks.map HeapBlock.size).sum = s.size
  sizes : ∀ b ∈ blocks, 0 < b.size ∧ dataAlignment ∣ b.size

/-- The allocator's mark bits are what `set_marked_p` leaves for exactly the
live blocks, in any order and with repeats, on cleared bits, followed by
`compute_forwarding`; a live object's header is not a free block's, and its
`size()` is the block's size. -/
structure MarkedLive (s : FreeListAllocator) (blocks : List HeapBlock) (marks : List (Nat × Nat))
    (m₀ : MarkBits) (objectSize : Nat → Nat) : Prop where
  marks_live : ∀ y, y ∈ marks ↔ ∃ a b, (a, b) ∈ layout s.start blocks ∧ b.live = true ∧ y = (a, b.size)
  state_eq : s.state =
    (marks.foldl (fun m y => m.setMarkedP y.1 y.2) m₀.clearMarkBits).computeForwarding
  object_size : ∀ a b, (a, b) ∈ layout s.start blocks → b.live = true → objectSize a = b.size
  not_free : ∀ a b, (a, b) ∈ layout s.start blocks → b.live = true → s.freeP a = false

section Lines

variable {s : FreeListAllocator} {blocks : List HeapBlock} {marks : List (Nat × Nat)} {m₀ : MarkBits}
  {objectSize : Nat → Nat} {a : Nat} {b : HeapBlock}

theorem Tiles.lines_eq (ht : Tiles s blocks) : s.state.bitsSize * 64 * dataAlignment = s.size := by
  obtain ⟨k, hk⟩ := ht.size_words
  simp only [MarkBits.bitsSize, s.state_size, granularity, hk, dataAlignment] at *
  omega

theorem Tiles.end_eq (ht : Tiles s blocks) : s.state.lineBlock (s.state.bitsSize * 64) = s.endAddr := by
  rw [MarkBits.lineBlock, ht.lines_eq, s.state_start, FreeListAllocator.endAddr, Nat.add_comm]

theorem Tiles.dvd_sub_start (ht : Tiles s blocks) (h : (a, b) ∈ layout s.start blocks) :
    dataAlignment ∣ a - s.start :=
  dvd_sub_of_mem_layout (fun c hc => (ht.sizes c hc).2) h

theorem Tiles.lineBlock_blockLine (ht : Tiles s blocks) (h : (a, b) ∈ layout s.start blocks) :
    s.state.lineBlock (s.state.blockLine a) = a :=
  s.state.lineBlock_blockLine (by rw [s.state_start]; exact (le_of_mem_layout h).1)
    (by rw [s.state_start]; exact ht.dvd_sub_start h)

theorem Tiles.lineBlock_blockLine_add (ht : Tiles s blocks) (h : (a, b) ∈ layout s.start blocks) :
    s.state.lineBlock (s.state.blockLine (a + b.size)) = a + b.size := by
  have hle := (le_of_mem_layout h).1
  have hd : dataAlignment ∣ a + b.size - s.start := by
    rw [show a + b.size - s.start = (a - s.start) + b.size by omega]
    exact Nat.dvd_add (ht.dvd_sub_start h) (ht.sizes b (mem_of_mem_layout h)).2
  exact s.state.lineBlock_blockLine (by rw [s.state_start]; omega) (by rw [s.state_start]; exact hd)

theorem Tiles.blockLine_add (ht : Tiles s blocks) (h : (a, b) ∈ layout s.start blocks) :
    s.state.blockLine (a + b.size) = s.state.blockLine a + b.size / dataAlignment := by
  obtain ⟨k, hk⟩ := dvd_sub_of_mem_layout (fun c hc => (ht.sizes c hc).2) h
  obtain ⟨j, hj⟩ := (ht.sizes b (mem_of_mem_layout h)).2
  have hle := (le_of_mem_layout h).1
  have h1 : a + b.size - s.state.start = dataAlignment * (k + j) := by
    rw [s.state_start, Nat.mul_add, ← hk, ← hj]
    omega
  rw [MarkBits.blockLine, MarkBits.blockLine, h1, s.state_start, hk, hj]
  simp only [dataAlignment, Nat.mul_div_cancel_left _ (by decide : 0 < 16)]

theorem MarkedLive.start_eq (hm : MarkedLive s blocks marks m₀ objectSize) : m₀.start = s.start := by
  have := congrArg MarkBits.start hm.state_eq
  simp only [MarkBits.computeForwarding_start, MarkBits.foldl_setMarkedP_start,
    MarkBits.clearMarkBits_start, s.state_start] at this
  exact this.symm

theorem MarkedLive.size_eq (hm : MarkedLive s blocks marks m₀ objectSize) : m₀.size = s.size := by
  have := congrArg MarkBits.size hm.state_eq
  simp only [MarkBits.computeForwarding_size, MarkBits.foldl_setMarkedP_size,
    MarkBits.clearMarkBits_size, s.state_size] at this
  exact this.symm

theorem Tiles.lineBlock_mem (ht : Tiles s blocks) (h : (a, b) ∈ layout s.start blocks) {l : Nat}
    (hl : s.state.blockLine a ≤ l) (hl' : l < s.state.blockLine (a + b.size)) :
    a ≤ s.state.lineBlock l ∧ s.state.lineBlock l < a + b.size := by
  have hla := ht.lineBlock_blockLine h
  obtain ⟨j, hj⟩ := (ht.sizes b (mem_of_mem_layout h)).2
  rw [ht.blockLine_add h, hj, Nat.mul_div_cancel_left _ (by decide)] at hl'
  simp only [MarkBits.lineBlock, dataAlignment] at hla hj ⊢
  omega

theorem Tiles.blockLine_add_le (ht : Tiles s blocks) (h : (a, b) ∈ layout s.start blocks) :
    s.state.blockLine (a + b.size) ≤ s.state.bitsSize * 64 := by
  have hle := le_of_mem_layout h
  rw [ht.sum_sizes] at hle
  have hlines : s.size / dataAlignment = s.state.bitsSize * 64 := by
    rw [← ht.lines_eq, Nat.mul_div_cancel _ (by decide)]
  rw [MarkBits.blockLine, s.state_start, ← hlines]
  exact Nat.div_le_div_right (by omega)

theorem Tiles.blockLine_lt (ht : Tiles s blocks) (h : (a, b) ∈ layout s.start blocks) :
    s.state.blockLine a < s.state.blockLine (a + b.size) := by
  obtain ⟨hpos, j, hj⟩ := ht.sizes b (mem_of_mem_layout h)
  rw [ht.blockLine_add h, hj, Nat.mul_div_cancel_left _ (by decide)]
  simp only [dataAlignment] at hj
  omega

theorem Tiles.lt_endAddr (ht : Tiles s blocks) (h : (a, b) ∈ layout s.start blocks) : a < s.endAddr := by
  have hle := (le_of_mem_layout h).2
  have hpos := (ht.sizes b (mem_of_mem_layout h)).1
  rw [ht.sum_sizes] at hle
  rw [FreeListAllocator.endAddr]
  omega

theorem Tiles.bits_lt (ht : Tiles s blocks) : s.state.bitsSize * 64 < 2 ^ 64 := by
  have := ht.lines_eq
  have := ht.size_lt
  simp only [dataAlignment] at *
  omega

theorem Tiles.nextMarkedBlockAfter_endAddr (ht : Tiles s blocks) :
    s.state.nextMarkedBlockAfter s.endAddr = s.endAddr := by
  rw [← ht.end_eq, MarkBits.nextMarkedBlockAfter_end, ht.end_eq, s.state_start, s.state_size]
  rfl

theorem MarkedLive.markedLine_eq (ht : Tiles s blocks) (hm : MarkedLive s blocks marks m₀ objectSize)
    (h : (a, b) ∈ layout s.start blocks) {l : Nat} (hl : s.state.blockLine a ≤ l)
    (hl' : l < s.state.blockLine (a + b.size)) : s.state.markedLine l = b.live := by
  have hbl : m₀.clearMarkBits.blockLine = s.state.blockLine := by
    funext y
    simp only [MarkBits.blockLine, MarkBits.clearMarkBits_start, hm.start_eq, s.state_start]
  have hbits : m₀.clearMarkBits.bitsSize = s.state.bitsSize := by
    simp only [MarkBits.bitsSize, MarkBits.clearMarkBits_size, hm.size_eq, s.state_size]
  have hmarks : ∀ y ∈ marks, m₀.clearMarkBits.blockLine y.1 ≤ m₀.clearMarkBits.blockLine (y.1 + y.2) ∧
      m₀.clearMarkBits.blockLine (y.1 + y.2) ≤ m₀.clearMarkBits.bitsSize * 64 := by
    intro y hy
    obtain ⟨a', b', h', -, rfl⟩ := (hm.marks_live y).mp hy
    rw [hbl, hbits, ht.blockLine_add h']
    exact ⟨Nat.le_add_right _ _, ht.blockLine_add h' ▸ ht.blockLine_add_le h'⟩
  have hline : s.state.markedLine l = (m₀.clearMarkBits.markedLine l ||
      decide (∃ y ∈ marks, m₀.clearMarkBits.blockLine y.1 ≤ l ∧ l < m₀.clearMarkBits.blockLine (y.1 + y.2))) := by
    rw [← MarkBits.markedLine_foldl_setMarkedP _ _ hmarks, hm.state_eq]
    rfl
  rw [hline, MarkBits.markedLine_clearMarkBits, Bool.false_or, hbl]
  cases hb : b.live with
  | true => exact decide_eq_true ⟨(a, b.size), (hm.marks_live _).mpr ⟨a, b, h, hb, rfl⟩, hl, hl'⟩
  | false =>
    apply decide_eq_false
    rintro ⟨y, hy, h1, h2⟩
    obtain ⟨a', b', h', hlive', rfl⟩ := (hm.marks_live y).mp hy
    have heq := eq_of_mem_layout h h' (ht.lineBlock_mem h hl hl') (ht.lineBlock_mem h' h1 h2)
    rw [← heq.2, hb] at hlive'
    cases hlive'

theorem MarkedLive.markedP_eq (ht : Tiles s blocks) (hm : MarkedLive s blocks marks m₀ objectSize)
    (h : (a, b) ∈ layout s.start blocks) : s.state.markedP a = b.live := by
  rw [MarkBits.markedP_eq]
  exact hm.markedLine_eq ht h (Nat.le_refl _) (ht.blockLine_lt h)

theorem MarkedLive.nextMarkedBlockAfter_live (ht : Tiles s blocks) (hm : MarkedLive s blocks marks m₀ objectSize)
    (h : (a, b) ∈ layout s.start blocks) (hb : b.live = true) : s.state.nextMarkedBlockAfter a = a := by
  have hl := hm.markedLine_eq ht h (Nat.le_refl _) (ht.blockLine_lt h)
  rw [hb] at hl
  have := s.state.nextMarkedBlockAfter_self hl
  rwa [ht.lineBlock_blockLine h] at this

theorem MarkedLive.nextMarkedBlockAfter_dead (ht : Tiles s blocks) (hm : MarkedLive s blocks marks m₀ objectSize)
    (h : (a, b) ∈ layout s.start blocks) (hb : b.live = false) :
    s.state.nextMarkedBlockAfter a = s.state.nextMarkedBlockAfter (a + b.size) := by
  have hskip := s.state.nextMarkedBlockAfter_skip (l := s.state.blockLine a) (n := b.size / dataAlignment)
    fun j h1 h2 => by rw [hm.markedLine_eq ht h h1 (by rw [ht.blockLine_add h]; exact h2), hb]
  rwa [← ht.blockLine_add h, ht.lineBlock_blockLine h, ht.lineBlock_blockLine_add h] at hskip

theorem Tiles.le_nextMarkedBlockAfter (ht : Tiles s blocks) (h : (a, b) ∈ layout s.start blocks) :
    a ≤ s.state.nextMarkedBlockAfter a := by
  have hle := s.state.le_nextMarkedBlockAfter
    ((Nat.le_of_lt (ht.blockLine_lt h)).trans (ht.blockLine_add_le h))
  rwa [ht.lineBlock_blockLine h] at hle

end Lines

section Walk

variable {s : FreeListAllocator} {blocks : List HeapBlock} {marks : List (Nat × Nat)} {m₀ : MarkBits}
  {objectSize : Nat → Nat}

theorem MarkedLive.compactFrom_layout (ht : Tiles s blocks) (hm : MarkedLive s blocks marks m₀ objectSize)
    (bs pre : List HeapBlock) (hsplit : blocks = pre ++ bs) (x : Nat)
    (hx : x = s.start + (pre.map HeapBlock.size).sum) (dest fuel : Nat) (hfuel : bs.length ≤ fuel) :
    s.compactFrom objectSize x dest fuel = (liveMoves dest (layout x bs), dest + liveSize bs) ∧
      s.compactFrom objectSize (s.state.nextMarkedBlockAfter x) dest fuel =
        (liveMoves dest (layout x bs), dest + liveSize bs) := by
  induction bs generalizing pre x dest fuel with
  | nil =>
    have hend : x = s.endAddr := by
      rw [hx, FreeListAllocator.endAddr, ← ht.sum_sizes, hsplit, List.append_nil]
    rw [hend, ht.nextMarkedBlockAfter_endAddr, compactFrom_endAddr]
    exact ⟨rfl, rfl⟩
  | cons b bs ih =>
    have hmem : (x, b) ∈ layout s.start blocks := by
      rw [hsplit, hx]
      exact mem_layout_append _ _ _ _
    have hsplit' : blocks = (pre ++ [b]) ++ bs := by rw [hsplit, List.append_assoc]; rfl
    have hx' : x + b.size = s.start + ((pre ++ [b]).map HeapBlock.size).sum := by
      simp [hx, Nat.add_assoc]
    obtain ⟨fuel, rfl⟩ : ∃ f, fuel = f + 1 := ⟨fuel - 1, by simp at hfuel; omega⟩
    have hfuel' : bs.length ≤ fuel := by simpa using hfuel
    have hne : x ≠ s.endAddr := Nat.ne_of_lt (ht.lt_endAddr hmem)
    rw [layout_cons, liveSize_cons]
    cases hb : b.live with
    | true =>
      have hA : s.compactFrom objectSize x dest (fuel + 1) =
          (liveMoves dest ((x, b) :: layout (x + b.size) bs), dest + ((if true = true then b.size else 0) + liveSize bs)) := by
        rw [compactFrom_marked s objectSize fuel hne (hm.not_free x b hmem hb) (by rw [hm.markedP_eq ht hmem, hb]),
          hm.object_size x b hmem hb, (ih (pre ++ [b]) hsplit' (x + b.size) hx' (dest + b.size) fuel hfuel').1]
        simp [liveMoves, hb, Nat.add_assoc]
      rw [hm.nextMarkedBlockAfter_live ht hmem hb]
      exact ⟨hA, hA⟩
    | false =>
      have hmoves : liveMoves dest ((x, b) :: layout (x + b.size) bs) = liveMoves dest (layout (x + b.size) bs) := by
        simp [liveMoves, hb]
      rw [hmoves, if_neg (by simp), Nat.zero_add, hm.nextMarkedBlockAfter_dead ht hmem hb]
      refine ⟨?_, (ih (pre ++ [b]) hsplit' (x + b.size) hx' dest (fuel + 1) (by omega)).2⟩
      rw [compactFrom_unmarked s objectSize fuel hne (by rw [hm.markedP_eq ht hmem, hb]),
        MarkBits.unmarkedBlockSize, Nat.add_sub_cancel' (ht.le_nextMarkedBlockAfter hmem),
        hm.nextMarkedBlockAfter_dead ht hmem hb]
      exact (ih (pre ++ [b]) hsplit' (x + b.size) hx' dest fuel hfuel').2

theorem Tiles.length_le (ht : Tiles s blocks) : blocks.length ≤ s.size / dataAlignment := by
  rw [Nat.le_div_iff_mul_le (by decide), ← ht.sum_sizes]
  exact length_mul_le_sum fun c hc => Nat.le_of_dvd (ht.sizes c hc).1 (ht.sizes c hc).2

theorem MarkedLive.compactFrom_start (ht : Tiles s blocks) (hm : MarkedLive s blocks marks m₀ objectSize) :
    s.compactFrom objectSize s.start s.start (s.size / dataAlignment + 1) =
      (liveMoves s.start (layout s.start blocks), s.start + liveSize blocks) :=
  (hm.compactFrom_layout ht blocks [] rfl s.start (by simp) s.start _
    (Nat.le_succ_of_le ht.length_le)).1

end Walk

section Forwarding

variable {s : FreeListAllocator} {blocks : List HeapBlock} {marks : List (Nat × Nat)} {m₀ : MarkBits}
  {objectSize : Nat → Nat} {a a' : Nat} {b b' : HeapBlock}

theorem Tiles.dvd_of_mem (ht : Tiles s blocks) (h : (a, b) ∈ layout s.start blocks) : dataAlignment ∣ a := by
  have hd := Nat.dvd_add ht.start_aligned (ht.dvd_sub_start h)
  rwa [Nat.add_sub_cancel' (le_of_mem_layout h).1] at hd

theorem MarkedLive.rank_blockLine_append (ht : Tiles s blocks) (hm : MarkedLive s blocks marks m₀ objectSize)
    (mid : List HeapBlock) : ∀ pre post, blocks = pre ++ mid ++ post →
      rank s.state.marked (s.state.blockLine (s.start + (pre.map HeapBlock.size).sum + (mid.map HeapBlock.size).sum)) *
          dataAlignment =
        rank s.state.marked (s.state.blockLine (s.start + (pre.map HeapBlock.size).sum)) * dataAlignment +
          liveSize mid := by
  induction mid with
  | nil =>
    intro pre post _
    simp
  | cons b mid ih =>
    intro pre post hsplit
    have hmem : (s.start + (pre.map HeapBlock.size).sum, b) ∈ layout s.start blocks := by
      rw [hsplit, List.append_assoc]
      exact mem_layout_append _ _ _ _
    have hnext := ih (pre ++ [b]) post (by rw [hsplit]; simp)
    have hsum : s.start + ((pre ++ [b]).map HeapBlock.size).sum =
        s.start + (pre.map HeapBlock.size).sum + b.size := by
      simp [Nat.add_assoc]
    rw [hsum] at hnext
    obtain ⟨j, hj⟩ := (ht.sizes b (mem_of_mem_layout hmem)).2
    have hrank := rank_add_of_const
      (l := s.state.blockLine (s.start + (pre.map HeapBlock.size).sum)) (n := b.size / dataAlignment)
      (c := b.live) fun l h1 h2 => hm.markedLine_eq ht hmem h1 (by rw [ht.blockLine_add hmem]; exact h2)
    rw [List.map_cons, List.sum_cons, ← Nat.add_assoc, hnext, ht.blockLine_add hmem, hrank, Nat.add_mul,
      liveSize_cons, hj, Nat.mul_div_cancel_left _ (by decide)]
    cases b.live <;> simp [Nat.mul_comm, Nat.add_assoc]

theorem MarkedLive.rank_blockLine (ht : Tiles s blocks) (hm : MarkedLive s blocks marks m₀ objectSize)
    {pre bs : List HeapBlock} (hsplit : blocks = pre ++ bs) :
    rank s.state.marked (s.state.blockLine (s.start + (pre.map HeapBlock.size).sum)) * dataAlignment =
      liveSize pre := by
  have h := hm.rank_blockLine_append ht pre [] bs (by simpa using hsplit)
  simpa [MarkBits.blockLine, s.state_start, rank] using h

theorem MarkedLive.forwardBlock_eq_rank (ht : Tiles s blocks) (hm : MarkedLive s blocks marks m₀ objectSize)
    {p : Nat} (hline : s.state.blockLine p < s.state.bitsSize * 64) :
    s.state.forwardBlock p = s.state.lineBlock (rank s.state.marked (s.state.blockLine p)) + p % dataAlignment := by
  have hsmall := ht.bits_lt
  rw [hm.state_eq] at hline hsmall ⊢
  exact MarkBits.forwardBlock_computeForwarding _ p hline hsmall

theorem MarkedLive.forwardBlock_eq (ht : Tiles s blocks) (hm : MarkedLive s blocks marks m₀ objectSize)
    (h : (a, b) ∈ layout s.start blocks) :
    s.state.forwardBlock a = s.start + liveBelow (layout s.start blocks) a := by
  have hline := (ht.blockLine_lt h).trans_le (ht.blockLine_add_le h)
  have hmod := Nat.mod_eq_zero_of_dvd (ht.dvd_of_mem h)
  obtain ⟨pre, post, hsplit, rfl⟩ := exists_of_mem_layout h
  rw [hm.forwardBlock_eq_rank ht hline, MarkBits.lineBlock, hm.rank_blockLine ht hsplit, hmod, hsplit,
    liveBelow_layout_prefix, s.state_start]
  omega

theorem MarkedLive.forwardBlock_interior (ht : Tiles s blocks) (hm : MarkedLive s blocks marks m₀ objectSize)
    (h : (a, b) ∈ layout s.start blocks) (hb : b.live = true) {p : Nat} (hp : a ≤ p) (hp' : p < a + b.size) :
    s.state.forwardBlock p = s.state.forwardBlock a + (p - a) := by
  have hle := (le_of_mem_layout h).1
  have hda := ht.dvd_sub_start h
  have hs := (ht.sizes b (mem_of_mem_layout h)).2
  have hblp : s.state.blockLine p = s.state.blockLine a + (p - a) / dataAlignment := by
    simp only [MarkBits.blockLine, s.state_start, dataAlignment] at hda ⊢
    omega
  have hn : (p - a) / dataAlignment < b.size / dataAlignment := Nat.div_lt_div_of_lt_of_dvd hs (by omega)
  have hbits := ht.blockLine_add_le h
  rw [ht.blockLine_add h] at hbits
  have hla := (ht.blockLine_lt h).trans_le (ht.blockLine_add_le h)
  have hlp : s.state.blockLine p < s.state.bitsSize * 64 := by omega
  have hrank := rank_add_of_const (l := s.state.blockLine a)
    (n := (p - a) / dataAlignment) (c := true) fun j h1 h2 =>
      (hm.markedLine_eq ht h h1 (by rw [ht.blockLine_add h]; omega)).trans hb
  rw [hm.forwardBlock_eq_rank ht hlp, hm.forwardBlock_eq_rank ht hla, hblp, hrank, if_pos rfl,
    MarkBits.lineBlock, MarkBits.lineBlock]
  have ha := ht.dvd_of_mem h
  simp only [dataAlignment] at ha ⊢
  omega

theorem MarkedLive.forwardBlock_lt (ht : Tiles s blocks) (hm : MarkedLive s blocks marks m₀ objectSize)
    (h : (a, b) ∈ layout s.start blocks) (h' : (a', b') ∈ layout s.start blocks) (hb : b.live = true)
    (hlt : a < a') : s.state.forwardBlock a < s.state.forwardBlock a' := by
  rw [hm.forwardBlock_eq ht h, hm.forwardBlock_eq ht h']
  have hgain := liveBelow_layout_lt (fun c hc => (ht.sizes c hc).1) h h' hlt hb
  have hpos := (ht.sizes b (mem_of_mem_layout h)).1
  omega

theorem MarkedLive.forwardBlock_le (ht : Tiles s blocks) (hm : MarkedLive s blocks marks m₀ objectSize)
    (h : (a, b) ∈ layout s.start blocks) : s.state.forwardBlock a ≤ a := by
  rw [hm.forwardBlock_eq ht h]
  have := liveBelow_layout_le h
  have := (le_of_mem_layout h).1
  omega

theorem MarkedLive.compact_moves (ht : Tiles s blocks) (hm : MarkedLive s blocks marks m₀ objectSize) :
    (s.compact objectSize).1 =
      ((layout s.start blocks).filter (·.2.live)).map fun p => (p.1, s.state.forwardBlock p.1, p.2.size) := by
  simp only [FreeListAllocator.compact, hm.compactFrom_start ht, liveMoves_layout]
  apply List.map_congr_left
  intro p hp
  rw [hm.forwardBlock_eq ht (List.mem_of_mem_filter hp)]

theorem Tiles.liveSize_le_size (ht : Tiles s blocks) : liveSize blocks ≤ s.size :=
  ht.sum_sizes ▸ liveSize_le blocks

theorem Tiles.dvd_size_sub_liveSize (ht : Tiles s blocks) : dataAlignment ∣ s.size - liveSize blocks :=
  Nat.dvd_sub (Nat.dvd_trans (Nat.dvd_mul_right _ _) ht.size_words)
    (dvd_liveSize fun c hc => (ht.sizes c hc).2)

theorem MarkedLive.compact_eq (ht : Tiles s blocks) (hm : MarkedLive s blocks marks m₀ objectSize) :
    (s.compact objectSize).2 =
      (FreeListAllocator.moveBlocks s (liveMoves s.start (layout s.start blocks))).initialFreeList
        (liveSize blocks) := by
  simp only [FreeListAllocator.compact, hm.compactFrom_start ht, Nat.add_sub_cancel_left]

theorem MarkedLive.freeBlocks_compact (ht : Tiles s blocks) (hm : MarkedLive s blocks marks m₀ objectSize) :
    (s.compact objectSize).2.freeBlocks =
      if liveSize blocks ≠ s.size then [(s.start + liveSize blocks, s.size - liveSize blocks)] else [] := by
  rw [hm.compact_eq ht, FreeListAllocator.freeBlocks_initialFreeList (by simpa using ht.liveSize_le_size)
    (by simpa using ht.dvd_size_sub_liveSize)]
  simp

theorem MarkedLive.inv_compact (ht : Tiles s blocks) (hm : MarkedLive s blocks marks m₀ objectSize) :
    (s.compact objectSize).2.Inv := by
  rw [hm.compact_eq ht]
  exact FreeListAllocator.inv_initialFreeList (by simpa using ht.liveSize_le_size)
    (by simpa using ht.dvd_size_sub_liveSize)

end Forwarding

section Agreement

variable {s : FreeListAllocator} {blocks : List HeapBlock} {marks : List (Nat × Nat)} {m₀ : MarkBits}
  {objectSize : Nat → Nat}

/-- The forwarding map and the mover agree: every live block is forwarded to
the start plus the live bytes below it, interior addresses keep their offset,
forwarding keeps the order of live blocks and never moves a block up, the
mover is handed each live block with that same address, and the free list
left by `compact` is the one block after the live bytes, or empty when every
block is live. -/
theorem compact_forwarding_agrees (ht : Tiles s blocks) (hm : MarkedLive s blocks marks m₀ objectSize) :
    (∀ a b, (a, b) ∈ layout s.start blocks → b.live = true →
      s.state.forwardBlock a = s.start + liveBelow (layout s.start blocks) a ∧
      (∀ p, a ≤ p → p < a + b.size → s.state.forwardBlock p = s.state.forwardBlock a + (p - a)) ∧
      s.state.forwardBlock a ≤ a) ∧
    (∀ a b a' b', (a, b) ∈ layout s.start blocks → (a', b') ∈ layout s.start blocks →
      b.live = true → b'.live = true → a < a' → s.state.forwardBlock a < s.state.forwardBlock a') ∧
    (s.compact objectSize).1 =
      ((layout s.start blocks).filter (·.2.live)).map (fun p => (p.1, s.state.forwardBlock p.1, p.2.size)) ∧
    (s.compact objectSize).2.freeBlocks =
      if liveSize blocks ≠ s.size then [(s.start + liveSize blocks, s.size - liveSize blocks)] else [] := by
  refine ⟨?_, ?_, hm.compact_moves ht, hm.freeBlocks_compact ht⟩
  · intro a b h hb
    exact ⟨hm.forwardBlock_eq ht h, fun p hp hp' => hm.forwardBlock_interior ht h hb hp hp',
      hm.forwardBlock_le ht h⟩
  · intro a b a' b' h h' hb _ hlt
    exact hm.forwardBlock_lt ht h h' hb hlt

/-- A heap of one mark word at address 0, with nothing on the free list, after
the mark phase marked `marks` and `compute_forwarding` ran. -/
def markedHeap (marks : List (Nat × Nat)) : FreeListAllocator where
  start := 0
  size := 1024
  smallBlocks := fun _ => []
  largeBlocks := []
  freeBlockCount := 0
  freeSpace := 0
  memory := fun _ => 0
  state := (marks.foldl (fun m y => m.setMarkedP y.1 y.2) (MarkBits.new 1024 0).clearMarkBits).computeForwarding
  state_start := by
    rw [MarkBits.computeForwarding_start, MarkBits.foldl_setMarkedP_start, MarkBits.clearMarkBits_start]
    rfl
  state_size := by
    rw [MarkBits.computeForwarding_size, MarkBits.foldl_setMarkedP_size, MarkBits.clearMarkBits_size]
    rfl

/-- A live line, a dead block of two lines and a live block filling the rest. -/
def sampleBlocks : List HeapBlock := [⟨16, true⟩, ⟨32, false⟩, ⟨976, true⟩]

def sampleMarks : List (Nat × Nat) := [(0, 16), (48, 976)]

def sampleObjectSize (a : Nat) : Nat := if a = 0 then 16 else 976

theorem sampleHeap_tiles : Tiles (markedHeap sampleMarks) sampleBlocks :=
  ⟨by decide, by decide, by decide, by decide, by decide⟩

theorem sampleHeap_markedLive :
    MarkedLive (markedHeap sampleMarks) sampleBlocks sampleMarks (MarkBits.new 1024 0) sampleObjectSize where
  marks_live y := by
    constructor
    · intro hy
      rcases List.mem_cons.mp hy with rfl | hy
      · exact ⟨0, ⟨16, true⟩, by decide, rfl, rfl⟩
      · rw [List.mem_singleton.mp hy]
        exact ⟨48, ⟨976, true⟩, by decide, rfl, rfl⟩
    · rintro ⟨a, b, h, hb, rfl⟩
      simp [sampleBlocks, markedHeap] at h
      rcases h with ⟨rfl, rfl⟩ | ⟨rfl, rfl⟩ | ⟨rfl, rfl⟩
      · decide
      · cases hb
      · decide
  state_eq := rfl
  object_size a b h hb := by
    simp [sampleBlocks, markedHeap] at h
    rcases h with ⟨rfl, rfl⟩ | ⟨rfl, rfl⟩ | ⟨rfl, rfl⟩ <;> first | rfl | cases hb
  not_free _ _ _ _ := rfl

theorem compact_forwarding_agrees_sample :
    Tiles (markedHeap sampleMarks) sampleBlocks ∧
      MarkedLive (markedHeap sampleMarks) sampleBlocks sampleMarks (MarkBits.new 1024 0) sampleObjectSize ∧
      (markedHeap sampleMarks).state.forwardBlock 48 = 16 ∧
      ((markedHeap sampleMarks).compact sampleObjectSize).2.freeBlocks = [(992, 32)] := by
  obtain ⟨hfwd, -, -, hfree⟩ := compact_forwarding_agrees sampleHeap_tiles sampleHeap_markedLive
  refine ⟨sampleHeap_tiles, sampleHeap_markedLive, ?_, ?_⟩
  · rw [(hfwd 48 ⟨976, true⟩ (by decide) rfl).1]
    decide
  · rw [hfree]
    decide

theorem compact_all_live_free_list_empty :
    Tiles (markedHeap [(0, 1024)]) [⟨1024, true⟩] ∧
      MarkedLive (markedHeap [(0, 1024)]) [⟨1024, true⟩] [(0, 1024)] (MarkBits.new 1024 0) (fun _ => 1024) ∧
      ((markedHeap [(0, 1024)]).compact fun _ => 1024).2.freeBlocks = [] := by
  have ht : Tiles (markedHeap [(0, 1024)]) [⟨1024, true⟩] :=
    ⟨by decide, by decide, by decide, by decide, by decide⟩
  have hm : MarkedLive (markedHeap [(0, 1024)]) [⟨1024, true⟩] [(0, 1024)] (MarkBits.new 1024 0)
      (fun _ => 1024) := by
    refine ⟨fun y => ?_, rfl, fun a b h _ => ?_, fun _ _ _ _ => rfl⟩
    · constructor
      · intro hy
        rw [List.mem_singleton.mp hy]
        exact ⟨0, ⟨1024, true⟩, by decide, rfl, rfl⟩
      · rintro ⟨a, b, h, -, rfl⟩
        simp [markedHeap] at h
        rw [h.1, h.2]
        decide
    · simp [markedHeap] at h
      rw [h.2]
  refine ⟨ht, hm, ?_⟩
  rw [hm.freeBlocks_compact ht]
  decide

end Agreement

end FactorProofs.Vm
