import FactorProofs.Vm.Layouts
import FactorProofs.Vm.BitwiseHacks
import FactorProofs.Library.WordBitmap
import FactorProofs.Library.Containers

namespace FactorProofs.Vm

open FactorProofs.Bits FactorProofs.WordBitmap FactorProofs.Containers

def granularity : Nat := 64

/-- One mark bit per `data_alignment` line, packed into words. The bitmaps
have exactly `bits_size` words, which the constructor allocates. -/
structure MarkBits where
  size : Nat
  start : Nat
  marked : List Cell
  forwarding : List Cell
  marked_length : marked.length = size / dataAlignment / granularity
  forwarding_length : forwarding.length = size / dataAlignment / granularity

namespace MarkBits

variable (m : MarkBits)

def bitsSize : Nat := m.size / dataAlignment / granularity

def new (size start : Nat) : MarkBits :=
  ⟨size, start, List.replicate (size / dataAlignment / granularity) 0,
    List.replicate (size / dataAlignment / granularity) 0, by simp, by simp⟩

def clearMarkBits : MarkBits :=
  { m with marked := List.replicate m.bitsSize 0, marked_length := by simp [bitsSize] }

def blockLine (address : Nat) : Nat := (address - m.start) / dataAlignment

def lineBlock (line : Nat) : Nat := line * dataAlignment + m.start

def bitmapDeref (address : Nat) : Nat × Nat :=
  (m.blockLine address / granularity, m.blockLine address % granularity)

def bitmapElt (bits : List Cell) (address : Nat) : Bool :=
  (bits.getD (m.bitmapDeref address).1 0 &&& 1#64 <<< (m.bitmapDeref address).2) != 0

end MarkBits

/-- The middle words of a range, `bits[index] = (cell)-1` for the `n` words from
`index` on. -/
def fillWords : List Cell → Nat → Nat → List Cell
  | bits, _, 0 => bits
  | bits, index, n + 1 => fillWords (bits.set index (-1)) (index + 1) n

theorem length_fillWords (bits : List Cell) (index n : Nat) :
    (fillWords bits index n).length = bits.length := by
  induction n generalizing bits index with
  | zero => rfl
  | succ n ih => rw [fillWords, ih, List.length_set]

theorem getD_fillWords (bits : List Cell) (index n i : Nat) :
    (fillWords bits index n).getD i 0 =
      if index ≤ i ∧ i < index + n ∧ i < bits.length then -1 else bits.getD i 0 := by
  induction n generalizing bits index with
  | zero =>
    rw [fillWords, if_neg (by omega)]
  | succ n ih =>
    rw [fillWords, ih, List.length_set, getD_set]
    by_cases hi : index = i
    · subst hi
      simp
    · by_cases hr : index + 1 ≤ i ∧ i < index + 1 + n ∧ i < bits.length
      · rw [if_pos hr, if_pos (by omega)]
      · rw [if_neg hr, if_neg (by omega), if_neg (by omega)]

namespace MarkBits

variable (m : MarkBits)

/-- `set_bitmap_range`: mark the lines from `address` up to, not including,
the line of `address + data_size`, within one word or across several. -/
def setBitmapRange (bits : List Cell) (address dataSize : Nat) : List Cell :=
  let s := m.bitmapDeref address
  let e := m.bitmapDeref (address + dataSize)
  let startMask : Cell := 1#64 <<< s.2 - 1
  let endMask : Cell := 1#64 <<< e.2 - 1
  if s.1 = e.1 then bits.modify s.1 (· ||| startMask ^^^ endMask)
  else
    let bits := fillWords (bits.modify s.1 (· ||| ~~~startMask)) (s.1 + 1) (e.1 - (s.1 + 1))
    if endMask ≠ 0 then bits.modify e.1 (· ||| endMask) else bits

theorem length_setBitmapRange (bits : List Cell) (address dataSize : Nat) :
    (m.setBitmapRange bits address dataSize).length = bits.length := by
  simp only [setBitmapRange]
  split
  · simp
  · split <;> simp [length_fillWords]

theorem bitmapElt_eq (bits : List Cell) (address : Nat) :
    m.bitmapElt bits address = bitAt bits (m.blockLine address) := by
  have hs : m.blockLine address % 64 < 64 := Nat.mod_lt _ (by decide)
  have hne : BitVec.twoPow 64 (m.blockLine address % 64) ≠ 0#64 := by
    intro h0
    have := congrArg (fun x => x.getLsbD (m.blockLine address % 64)) h0
    simp [hs] at this
  rw [bitmapElt, bitAt, bitmapDeref]
  dsimp only [granularity]
  rw [← BitVec.twoPow_eq, BitVec.and_twoPow]
  cases (bits.getD (m.blockLine address / 64) 0).getLsbD (m.blockLine address % 64) <;> simp [hne]

theorem bitAt_setBitmapRange (bits : List Cell) (address dataSize : Nat)
    (hle : m.blockLine address ≤ m.blockLine (address + dataSize))
    (hend : m.blockLine (address + dataSize) ≤ bits.length * 64) (l : Nat) :
    bitAt (m.setBitmapRange bits address dataSize) l =
      (bitAt bits l ||
        decide (m.blockLine address ≤ l ∧ l < m.blockLine (address + dataSize))) := by
  have hg : granularity = 64 := rfl
  have hl64 : l % 64 < 64 := Nat.mod_lt _ (by decide)
  have hs64 : m.blockLine address % 64 < 64 := Nat.mod_lt _ (by decide)
  have he64 : m.blockLine (address + dataSize) % 64 < 64 := Nat.mod_lt _ (by decide)
  simp only [setBitmapRange, bitmapDeref, hg]
  split
  · rename_i hword
    rw [bitAt, getD_modify]
    split
    · rename_i hj
      rw [BitVec.getLsbD_or, BitVec.getLsbD_xor, getLsbD_lowMask hs64, getLsbD_lowMask he64]
      congr 1
      by_cases h1 : l % 64 < m.blockLine address % 64 <;>
        by_cases h2 : l % 64 < m.blockLine (address + dataSize) % 64 <;> simp [h1, h2] <;> omega
    · rename_i hj
      have hout : ¬(m.blockLine address ≤ l ∧ l < m.blockLine (address + dataSize)) := by omega
      simp [bitAt, hout]
  · rename_i hword
    have hs1 : m.blockLine address / 64 < m.blockLine (address + dataSize) / 64 := by omega
    have hones : (-1 : Cell).getLsbD (l % 64) = true := by
      rw [show (-1 : Cell) = -1#64 from rfl, BitVec.neg_one_eq_allOnes, BitVec.getLsbD_allOnes]
      exact decide_eq_true hl64
    have hfirst : (bits.modify (m.blockLine address / 64) (· ||| ~~~(1#64 <<< (m.blockLine address % 64) - 1))).getD (l / 64) 0 =
        if l / 64 = m.blockLine address / 64 then
          bits.getD (l / 64) 0 ||| ~~~(1#64 <<< (m.blockLine address % 64) - 1)
        else bits.getD (l / 64) 0 := by
      rw [getD_modify]
      by_cases hj : l / 64 = m.blockLine address / 64
      · rw [if_pos ⟨hj.symm, by omega⟩, if_pos hj]
      · rw [if_neg (by omega), if_neg hj]
    split
    · rename_i hmask
      have he2 : m.blockLine (address + dataSize) % 64 ≠ 0 := by
        intro h
        apply hmask
        rw [h]
        decide
      rw [bitAt, getD_modify, length_fillWords, List.length_modify, getD_fillWords,
        List.length_modify, hfirst, bitAt]
      by_cases hj1 : l / 64 = m.blockLine address / 64
      · rw [if_neg (by omega), if_neg (by omega), if_pos hj1, BitVec.getLsbD_or, BitVec.getLsbD_not,
          getLsbD_lowMask hs64]
        have key : ¬l % 64 < m.blockLine address % 64 ↔
            (m.blockLine address ≤ l ∧ l < m.blockLine (address + dataSize)) := by
          constructor
          · intro h
            omega
          · intro h
            omega
        simp only [hl64, decide_true, Bool.true_and, ← decide_not, key]
      by_cases hj2 : l / 64 = m.blockLine (address + dataSize) / 64
      · rw [if_pos ⟨hj2.symm, by omega⟩, if_neg (by omega), if_neg hj1, BitVec.getLsbD_or,
          getLsbD_lowMask he64]
        have key : l % 64 < m.blockLine (address + dataSize) % 64 ↔
            (m.blockLine address ≤ l ∧ l < m.blockLine (address + dataSize)) := by
          constructor
          · intro h
            omega
          · intro h
            omega
        simp only [key]
      rw [if_neg (by omega)]
      by_cases hmid : m.blockLine address / 64 < l / 64 ∧ l / 64 < m.blockLine (address + dataSize) / 64
      · rw [if_pos ⟨by omega, by omega, by omega⟩, hones]
        have hin : m.blockLine address ≤ l ∧ l < m.blockLine (address + dataSize) := by omega
        simp [hin]
      · rw [if_neg (by omega), if_neg hj1]
        have hout : ¬(m.blockLine address ≤ l ∧ l < m.blockLine (address + dataSize)) := by omega
        simp [hout]
    · rename_i hmask
      have he2 : m.blockLine (address + dataSize) % 64 = 0 := by
        by_contra h
        exact hmask ((lowMask_eq_zero_iff he64).not.mpr h)
      rw [bitAt, getD_fillWords, List.length_modify, hfirst, bitAt]
      by_cases hj1 : l / 64 = m.blockLine address / 64
      · rw [if_neg (by omega), if_pos hj1, BitVec.getLsbD_or, BitVec.getLsbD_not,
          getLsbD_lowMask hs64]
        have key : ¬l % 64 < m.blockLine address % 64 ↔
            (m.blockLine address ≤ l ∧ l < m.blockLine (address + dataSize)) := by
          constructor
          · intro h
            omega
          · intro h
            omega
        simp only [hl64, decide_true, Bool.true_and, ← decide_not, key]
      by_cases hmid : m.blockLine address / 64 < l / 64 ∧ l / 64 < m.blockLine (address + dataSize) / 64
      · rw [if_pos ⟨by omega, by omega, by omega⟩, hones]
        have hin : m.blockLine address ≤ l ∧ l < m.blockLine (address + dataSize) := by omega
        simp [hin]
      · rw [if_neg (by omega), if_neg hj1]
        have hout : ¬(m.blockLine address ≤ l ∧ l < m.blockLine (address + dataSize)) := by omega
        simp [hout]

def markedP (address : Nat) : Bool := m.bitmapElt m.marked address

def setMarkedP (address dsize : Nat) : MarkBits :=
  { m with
    marked := m.setBitmapRange m.marked address dsize
    marked_length := by rw [length_setBitmapRange, m.marked_length] }

/-- Line `l` of the region carries a mark. -/
def markedLine (l : Nat) : Bool := bitAt m.marked l

theorem markedP_eq (address : Nat) : m.markedP address = m.markedLine (m.blockLine address) :=
  m.bitmapElt_eq m.marked address

theorem markedLine_setMarkedP (address dsize : Nat)
    (hle : m.blockLine address ≤ m.blockLine (address + dsize))
    (hend : m.blockLine (address + dsize) ≤ m.bitsSize * 64) (l : Nat) :
    (m.setMarkedP address dsize).markedLine l =
      (m.markedLine l || decide (m.blockLine address ≤ l ∧ l < m.blockLine (address + dsize))) :=
  m.bitAt_setBitmapRange m.marked address dsize hle (by rw [m.marked_length]; exact hend) l

end MarkBits

/-- The running sum of `compute_forwarding`: each word's entry is the number of
marks in the words before it. -/
def forwardingFrom : List Cell → Cell → List Cell
  | [], _ => []
  | word :: words, accum => accum :: forwardingFrom words (accum + popcount word)

theorem length_forwardingFrom (words : List Cell) (accum : Cell) :
    (forwardingFrom words accum).length = words.length := by
  induction words generalizing accum with
  | nil => rfl
  | cons word words ih => simp [forwardingFrom, ih]

theorem getD_forwardingFrom (words : List Cell) (accum : Cell) {i : Nat} (hi : i < words.length) :
    (forwardingFrom words accum).getD i 0 =
      accum + BitVec.ofNat 64 ((words.take i).map fun x => x.cpopNatRec 64 0).sum := by
  induction words generalizing accum i with
  | nil => simp at hi
  | cons word words ih =>
    cases i with
    | zero =>
      rw [forwardingFrom, List.getD_cons_zero, List.take_zero, List.map_nil, List.sum_nil]
      exact (BitVec.add_zero accum).symm
    | succ i =>
      rw [forwardingFrom, List.getD_cons_succ, ih _ (by simpa using hi), List.take_succ_cons,
        List.map_cons, List.sum_cons, popcount, BitVec.cpop, BitVec.add_assoc, BitVec.ofNat_add]

theorem getD_forwardingFrom_zero (words : List Cell) {i : Nat} (hi : i < words.length) :
    (forwardingFrom words 0).getD i 0 =
      BitVec.ofNat 64 ((words.take i).map fun x => x.cpopNatRec 64 0).sum := by
  rw [getD_forwardingFrom _ _ hi]
  exact BitVec.zero_add _

namespace MarkBits

variable (m : MarkBits)

def computeForwarding : MarkBits :=
  { m with
    forwarding := forwardingFrom m.marked 0
    forwarding_length := by rw [length_forwardingFrom, m.marked_length] }

/-- `forward_block`: the new line of a marked address is the number of marked
lines before it, read off the word's forwarding entry and the marks below it
in its word; the offset within the line is kept. -/
def forwardBlock (original : Nat) : Nat :=
  let p := m.bitmapDeref original
  let offset := original % dataAlignment
  let approxPopcount := m.forwarding.getD p.1 0
  let mask : Cell := 1#64 <<< p.2 - 1
  let newLineNumber := approxPopcount + popcount (m.marked.getD p.1 0 &&& mask)
  m.lineBlock newLineNumber.toNat + offset

/-- The word loop of `next_unmarked_block_after`, from word `index` with
`fuel` words left before `bits_size`. The shift is arithmetic, as the code
casts the word to `fixnum`. -/
def nextUnmarkedFrom (index bitIndex : Nat) : Nat → Nat
  | 0 => m.start + m.size
  | fuel + 1 =>
    let mask := (m.marked.getD index 0).sshiftRight bitIndex
    if ~~~mask ≠ 0 then m.lineBlock (index * granularity + bitIndex + (rightmostClearBit mask).toNat)
    else nextUnmarkedFrom (index + 1) 0 fuel

def nextUnmarkedBlockAfter (original : Nat) : Nat :=
  m.nextUnmarkedFrom (m.bitmapDeref original).1 (m.bitmapDeref original).2
    (m.bitsSize - (m.bitmapDeref original).1)

def nextMarkedFrom (index bitIndex : Nat) : Nat → Nat
  | 0 => m.start + m.size
  | fuel + 1 =>
    let mask := m.marked.getD index 0 >>> bitIndex
    if mask ≠ 0 then m.lineBlock (index * granularity + bitIndex + (rightmostSetBit mask).toNat)
    else nextMarkedFrom (index + 1) 0 fuel

def nextMarkedBlockAfter (original : Nat) : Nat :=
  m.nextMarkedFrom (m.bitmapDeref original).1 (m.bitmapDeref original).2
    (m.bitsSize - (m.bitmapDeref original).1)

def unmarkedBlockSize (original : Nat) : Nat := m.nextMarkedBlockAfter original - original

theorem markedLine_mul_add (index : Nat) {t : Nat} (ht : t < 64) :
    m.markedLine (index * 64 + t) = (m.marked.getD index 0).getLsbD t :=
  bitAt_mul_add m.marked (by decide) ht

theorem lt_of_markedLine {l : Nat} (h : m.markedLine l = true) : l < m.bitsSize * 64 := by
  by_contra hl
  rw [markedLine, bitAt_of_length_le (by decide) (by rw [m.marked_length]; exact Nat.le_of_not_lt hl)] at h
  cases h

theorem nextMarkedFrom_eq_of_marked {index bitIndex fuel L : Nat} (hb : bitIndex < 64)
    (hfuel : m.bitsSize ≤ index + fuel) (hstart : index * 64 + bitIndex ≤ L)
    (hL : m.markedLine L = true)
    (hgap : ∀ l, index * 64 + bitIndex ≤ l → l < L → m.markedLine l = false) :
    m.nextMarkedFrom index bitIndex fuel = m.lineBlock L := by
  have hLlt := m.lt_of_markedLine hL
  induction fuel generalizing index bitIndex with
  | zero => omega
  | succ fuel ih =>
    rw [nextMarkedFrom]
    by_cases hw : L < index * 64 + 64
    · have hk : (m.marked.getD index 0 >>> bitIndex).getLsbD (L - index * 64 - bitIndex) = true := by
        rw [BitVec.getLsbD_ushiftRight, ← m.markedLine_mul_add index (by omega)]
        rwa [show index * 64 + (bitIndex + (L - index * 64 - bitIndex)) = L by omega]
      have hlow : ∀ j < L - index * 64 - bitIndex,
          (m.marked.getD index 0 >>> bitIndex).getLsbD j = false := by
        intro j hj
        rw [BitVec.getLsbD_ushiftRight, ← m.markedLine_mul_add index (by omega)]
        exact hgap _ (by omega) (by omega)
      have hne : m.marked.getD index 0 >>> bitIndex ≠ 0 := by
        intro h0
        rw [h0] at hk
        simp at hk
      simp only [granularity]
      rw [if_pos hne, toNat_rightmostSetBit hk hlow]
      congr 1
      omega
    · have hzero : m.marked.getD index 0 >>> bitIndex = 0 := by
        apply ushiftRight_eq_zero
        intro j hj hj64
        rw [← m.markedLine_mul_add index hj64]
        exact hgap _ (by omega) (by omega)
      rw [if_neg (fun h => h hzero)]
      exact ih (by decide) (by omega) (by omega) (fun l h1 h2 => hgap l (by omega) h2)

theorem nextMarkedFrom_eq_end {index bitIndex : Nat} (fuel : Nat) (hb : bitIndex < 64)
    (hgap : ∀ l, index * 64 + bitIndex ≤ l → m.markedLine l = false) :
    m.nextMarkedFrom index bitIndex fuel = m.start + m.size := by
  induction fuel generalizing index bitIndex with
  | zero => rfl
  | succ fuel ih =>
    have hzero : m.marked.getD index 0 >>> bitIndex = 0 := by
      apply ushiftRight_eq_zero
      intro j hj hj64
      rw [← m.markedLine_mul_add index hj64]
      exact hgap _ (by omega)
    rw [nextMarkedFrom, if_neg (fun h => h hzero)]
    exact ih (by decide) (fun l h => hgap l (by omega))

theorem nextUnmarkedFrom_eq_of_unmarked {index bitIndex fuel L : Nat} (hb : bitIndex < 64)
    (hfuel : m.bitsSize ≤ index + fuel) (hstart : index * 64 + bitIndex ≤ L)
    (hLlt : L < m.bitsSize * 64) (hL : m.markedLine L = false)
    (hgap : ∀ l, index * 64 + bitIndex ≤ l → l < L → m.markedLine l = true) :
    m.nextUnmarkedFrom index bitIndex fuel = m.lineBlock L := by
  induction fuel generalizing index bitIndex with
  | zero => omega
  | succ fuel ih =>
    rw [nextUnmarkedFrom]
    by_cases hw : L < index * 64 + 64
    · have hk : (~~~(m.marked.getD index 0).sshiftRight bitIndex).getLsbD
          (L - index * 64 - bitIndex) = true := by
        rw [BitVec.getLsbD_not, getLsbD_sshiftRight_of_lt (by omega),
          ← m.markedLine_mul_add index (by omega),
          show index * 64 + (bitIndex + (L - index * 64 - bitIndex)) = L by omega, hL]
        simp only [Bool.not_false, Bool.and_true, decide_eq_true_eq]
        omega
      have hlow : ∀ j < L - index * 64 - bitIndex,
          (~~~(m.marked.getD index 0).sshiftRight bitIndex).getLsbD j = false := by
        intro j hj
        rw [BitVec.getLsbD_not, getLsbD_sshiftRight_of_lt (by omega),
          ← m.markedLine_mul_add index (by omega), hgap _ (by omega) (by omega)]
        simp
      have hne : ~~~(m.marked.getD index 0).sshiftRight bitIndex ≠ 0 := by
        intro h0
        rw [h0] at hk
        simp at hk
      simp only [granularity]
      rw [if_pos hne, rightmostClearBit_eq, toNat_rightmostSetBit hk hlow]
      congr 1
      omega
    · have hones : ~~~(m.marked.getD index 0).sshiftRight bitIndex = 0 := by
        apply not_sshiftRight_eq_zero hb
        intro j hj hj64
        rw [← m.markedLine_mul_add index hj64]
        exact hgap _ (by omega) (by omega)
      rw [if_neg (fun h => h hones)]
      exact ih (by decide) (by omega) (by omega) (fun l h1 h2 => hgap l (by omega) h2)

theorem nextUnmarkedFrom_eq_end {index bitIndex fuel : Nat} (hb : bitIndex < 64)
    (hfuel : index + fuel ≤ m.bitsSize)
    (hgap : ∀ l, index * 64 + bitIndex ≤ l → l < m.bitsSize * 64 → m.markedLine l = true) :
    m.nextUnmarkedFrom index bitIndex fuel = m.start + m.size := by
  induction fuel generalizing index bitIndex with
  | zero => rfl
  | succ fuel ih =>
    have hones : ~~~(m.marked.getD index 0).sshiftRight bitIndex = 0 := by
      apply not_sshiftRight_eq_zero hb
      intro j hj hj64
      rw [← m.markedLine_mul_add index hj64]
      exact hgap _ (by omega) (by omega)
    rw [nextUnmarkedFrom, if_neg (fun h => h hones)]
    exact ih (by decide) (by omega) (fun l h1 h2 => hgap l (by omega) h2)

theorem blockLine_lineBlock (l : Nat) : m.blockLine (m.lineBlock l) = l := by
  rw [blockLine, lineBlock, Nat.add_sub_cancel, Nat.mul_div_cancel _ (by decide)]

theorem lineBlock_blockLine {y : Nat} (hle : m.start ≤ y) (hd : dataAlignment ∣ y - m.start) :
    m.lineBlock (m.blockLine y) = y := by
  rw [lineBlock, blockLine, Nat.div_mul_cancel hd]
  omega

theorem bitmapDeref_lineBlock (l : Nat) : m.bitmapDeref (m.lineBlock l) = (l / 64, l % 64) := by
  rw [bitmapDeref, blockLine_lineBlock]
  rfl

theorem nextMarkedBlockAfter_of_marked {l L : Nat} (hl : l ≤ L) (hL : m.markedLine L = true)
    (hgap : ∀ j, l ≤ j → j < L → m.markedLine j = false) :
    m.nextMarkedBlockAfter (m.lineBlock l) = m.lineBlock L := by
  rw [nextMarkedBlockAfter, bitmapDeref_lineBlock]
  exact m.nextMarkedFrom_eq_of_marked (Nat.mod_lt _ (by decide)) (by omega)
    (by rw [Nat.mul_comm, Nat.div_add_mod]; exact hl) hL
    (fun j hj hjL => hgap j (by rwa [Nat.mul_comm, Nat.div_add_mod] at hj) hjL)

theorem nextMarkedBlockAfter_of_none {l : Nat} (hgap : ∀ j, l ≤ j → m.markedLine j = false) :
    m.nextMarkedBlockAfter (m.lineBlock l) = m.start + m.size := by
  rw [nextMarkedBlockAfter, bitmapDeref_lineBlock]
  exact m.nextMarkedFrom_eq_end _ (Nat.mod_lt _ (by decide))
    (fun j hj => hgap j (by rwa [Nat.mul_comm, Nat.div_add_mod] at hj))

theorem nextUnmarkedBlockAfter_of_unmarked {l L : Nat} (hl : l ≤ L) (hLlt : L < m.bitsSize * 64)
    (hL : m.markedLine L = false) (hgap : ∀ j, l ≤ j → j < L → m.markedLine j = true) :
    m.nextUnmarkedBlockAfter (m.lineBlock l) = m.lineBlock L := by
  rw [nextUnmarkedBlockAfter, bitmapDeref_lineBlock]
  exact m.nextUnmarkedFrom_eq_of_unmarked (Nat.mod_lt _ (by decide)) (by omega)
    (by rw [Nat.mul_comm, Nat.div_add_mod]; exact hl) hLlt hL
    (fun j hj hjL => hgap j (by rwa [Nat.mul_comm, Nat.div_add_mod] at hj) hjL)

theorem nextUnmarkedBlockAfter_of_none {l : Nat} (hl : l ≤ m.bitsSize * 64)
    (hgap : ∀ j, l ≤ j → j < m.bitsSize * 64 → m.markedLine j = true) :
    m.nextUnmarkedBlockAfter (m.lineBlock l) = m.start + m.size := by
  rw [nextUnmarkedBlockAfter, bitmapDeref_lineBlock]
  exact m.nextUnmarkedFrom_eq_end (Nat.mod_lt _ (by decide)) (by omega)
    (fun j hj hjL => hgap j (by rwa [Nat.mul_comm, Nat.div_add_mod] at hj) hjL)

theorem bitsSize_mul_le : m.bitsSize * 64 * dataAlignment ≤ m.size := by
  have h1 := Nat.div_mul_le_self (m.size / dataAlignment) 64
  have h2 := Nat.div_mul_le_self m.size dataAlignment
  simp only [bitsSize, granularity] at h1 ⊢
  calc m.size / dataAlignment / 64 * 64 * dataAlignment
      ≤ m.size / dataAlignment * dataAlignment := Nat.mul_le_mul_right _ h1
    _ ≤ m.size := h2

theorem lineBlock_lt_end {L : Nat} (hL : L < m.bitsSize * 64) : m.lineBlock L < m.start + m.size := by
  have := m.bitsSize_mul_le
  have : L * dataAlignment < m.bitsSize * 64 * dataAlignment :=
    Nat.mul_lt_mul_of_pos_right hL (by decide)
  rw [lineBlock]
  omega

theorem unmarkedBlockSize_lineBlock (h16 : dataAlignment ∣ m.size) {L : Nat}
    (hL : L < m.bitsSize * 64) (hLu : m.markedLine L = false) :
    0 < m.unmarkedBlockSize (m.lineBlock L) ∧ dataAlignment ∣ m.unmarkedBlockSize (m.lineBlock L) ∧
      ((∃ L', L < L' ∧ L' < m.bitsSize * 64 ∧
          m.lineBlock L + m.unmarkedBlockSize (m.lineBlock L) = m.lineBlock L') ∨
        m.lineBlock L + m.unmarkedBlockSize (m.lineBlock L) = m.start + m.size) := by
  have hend := m.lineBlock_lt_end hL
  by_cases hex : ∃ L', L ≤ L' ∧ m.markedLine L' = true
  · obtain ⟨L', hLL', hL', hgap⟩ := exists_first hex
    have hlt : L < L' := Nat.lt_of_le_of_ne hLL' (by rintro rfl; rw [hLu] at hL'; cases hL')
    have hnext := m.nextMarkedBlockAfter_of_marked hLL' hL' (fun j h1 h2 => by simpa using hgap j h1 h2)
    have hmul : L * dataAlignment < L' * dataAlignment := Nat.mul_lt_mul_of_pos_right hlt (by decide)
    have hsize : m.unmarkedBlockSize (m.lineBlock L) = (L' - L) * dataAlignment := by
      rw [unmarkedBlockSize, hnext, lineBlock, lineBlock, Nat.sub_mul]
      omega
    refine ⟨by rw [hsize]; exact Nat.mul_pos (by omega) (by decide), by rw [hsize]; exact Nat.dvd_mul_left _ _,
      .inl ⟨L', hlt, m.lt_of_markedLine hL', ?_⟩⟩
    rw [unmarkedBlockSize, hnext]
    simp only [lineBlock] at hmul ⊢
    omega
  · have hnone : ∀ j, L ≤ j → m.markedLine j = false := by
      intro j hj
      cases hj' : m.markedLine j with
      | false => rfl
      | true => exact absurd ⟨j, hj, hj'⟩ hex
    have hnext := m.nextMarkedBlockAfter_of_none hnone
    refine ⟨?_, ?_, .inr ?_⟩
    · rw [unmarkedBlockSize, hnext]
      omega
    · rw [unmarkedBlockSize, hnext, lineBlock]
      have : m.start + m.size - (L * dataAlignment + m.start) = m.size - L * dataAlignment := by omega
      rw [this]
      exact Nat.dvd_sub h16 (Nat.dvd_mul_left _ _)
    · rw [unmarkedBlockSize, hnext]
      omega

theorem nextUnmarkedBlockAfter_lineBlock {l : Nat} (hl : l ≤ m.bitsSize * 64) :
    (∃ L, l ≤ L ∧ L < m.bitsSize * 64 ∧ m.markedLine L = false ∧
      m.nextUnmarkedBlockAfter (m.lineBlock l) = m.lineBlock L) ∨
    m.nextUnmarkedBlockAfter (m.lineBlock l) = m.start + m.size := by
  by_cases hex : ∃ L, l ≤ L ∧ (L < m.bitsSize * 64 ∧ m.markedLine L = false)
  · obtain ⟨L, hlL, ⟨hL, hLu⟩, hgap⟩ := exists_first hex
    refine .inl ⟨L, hlL, hL, hLu, m.nextUnmarkedBlockAfter_of_unmarked hlL hL hLu ?_⟩
    intro j h1 h2
    have := hgap j h1 h2
    cases hj : m.markedLine j with
    | true => rfl
    | false => exact absurd ⟨by omega, hj⟩ this
  · refine .inr (m.nextUnmarkedBlockAfter_of_none hl ?_)
    intro j h1 h2
    cases hj : m.markedLine j with
    | true => rfl
    | false => exact absurd ⟨j, h1, h2, hj⟩ hex

@[simp] theorem setMarkedP_start (a n : Nat) : (m.setMarkedP a n).start = m.start := rfl
@[simp] theorem blockLine_setMarkedP (a n : Nat) : (m.setMarkedP a n).blockLine = m.blockLine := rfl
@[simp] theorem bitsSize_setMarkedP (a n : Nat) : (m.setMarkedP a n).bitsSize = m.bitsSize := rfl
@[simp] theorem setMarkedP_size (a n : Nat) : (m.setMarkedP a n).size = m.size := rfl
@[simp] theorem clearMarkBits_start : m.clearMarkBits.start = m.start := rfl
@[simp] theorem clearMarkBits_size : m.clearMarkBits.size = m.size := rfl
@[simp] theorem computeForwarding_start : m.computeForwarding.start = m.start := rfl
@[simp] theorem computeForwarding_size : m.computeForwarding.size = m.size := rfl
@[simp] theorem computeForwarding_marked : m.computeForwarding.marked = m.marked := rfl

theorem markedLine_clearMarkBits (l : Nat) : m.clearMarkBits.markedLine l = false := by
  rw [markedLine, bitAt, clearMarkBits]
  dsimp only
  rw [List.getD_eq_getElem?_getD]
  by_cases hl : l / 64 < m.bitsSize
  · rw [List.getElem?_replicate_of_lt hl]
    simp
  · rw [List.getElem?_eq_none (by simpa using hl)]
    simp

@[simp] theorem foldl_setMarkedP_start (marks : List (Nat × Nat)) :
    (marks.foldl (fun m x => m.setMarkedP x.1 x.2) m).start = m.start := by
  induction marks generalizing m with
  | nil => rfl
  | cons x marks ih => exact ih _

@[simp] theorem foldl_setMarkedP_size (marks : List (Nat × Nat)) :
    (marks.foldl (fun m x => m.setMarkedP x.1 x.2) m).size = m.size := by
  induction marks generalizing m with
  | nil => rfl
  | cons x marks ih => exact ih _

theorem markedLine_foldl_setMarkedP (marks : List (Nat × Nat))
    (hmarks : ∀ x ∈ marks, m.blockLine x.1 ≤ m.blockLine (x.1 + x.2) ∧
      m.blockLine (x.1 + x.2) ≤ m.bitsSize * 64) (l : Nat) :
    (marks.foldl (fun m x => m.setMarkedP x.1 x.2) m).markedLine l =
      (m.markedLine l || decide (∃ x ∈ marks, m.blockLine x.1 ≤ l ∧ l < m.blockLine (x.1 + x.2))) := by
  induction marks generalizing m with
  | nil => simp
  | cons x marks ih =>
    obtain ⟨hle, hend⟩ := hmarks x List.mem_cons_self
    rw [List.foldl_cons, ih (m.setMarkedP x.1 x.2) (fun y hy => hmarks y (List.mem_cons_of_mem _ hy)),
      markedLine_setMarkedP _ _ _ hle hend]
    simp only [blockLine_setMarkedP, List.mem_cons, or_and_right, exists_or, exists_eq_left,
      Bool.decide_or, Bool.or_assoc]
    congr

theorem nextMarkedBlockAfter_self {L : Nat} (hL : m.markedLine L = true) :
    m.nextMarkedBlockAfter (m.lineBlock L) = m.lineBlock L :=
  m.nextMarkedBlockAfter_of_marked (Nat.le_refl L) hL (fun j h1 h2 => absurd h2 (by omega))

theorem nextMarkedBlockAfter_skip {l n : Nat} (h : ∀ j, l ≤ j → j < l + n → m.markedLine j = false) :
    m.nextMarkedBlockAfter (m.lineBlock l) = m.nextMarkedBlockAfter (m.lineBlock (l + n)) := by
  by_cases hex : ∃ L, l + n ≤ L ∧ m.markedLine L = true
  · obtain ⟨L, hL, hLm, hgap⟩ := exists_first hex
    have hgap' : ∀ j, l + n ≤ j → j < L → m.markedLine j = false := fun j h1 h2 => by
      simpa using hgap j h1 h2
    rw [m.nextMarkedBlockAfter_of_marked (by omega) hLm (fun j h1 h2 => ?_),
      m.nextMarkedBlockAfter_of_marked hL hLm hgap']
    by_cases hj : j < l + n
    · exact h j h1 hj
    · exact hgap' j (by omega) h2
  · have hnone : ∀ j, l + n ≤ j → m.markedLine j = false := by
      intro j hj
      cases hj' : m.markedLine j with
      | false => rfl
      | true => exact absurd ⟨j, hj, hj'⟩ hex
    rw [m.nextMarkedBlockAfter_of_none hnone, m.nextMarkedBlockAfter_of_none (fun j hj => ?_)]
    by_cases hjn : j < l + n
    · exact h j hj hjn
    · exact hnone j (by omega)

theorem le_nextMarkedBlockAfter {l : Nat} (hl : l ≤ m.bitsSize * 64) :
    m.lineBlock l ≤ m.nextMarkedBlockAfter (m.lineBlock l) := by
  by_cases hex : ∃ L, l ≤ L ∧ m.markedLine L = true
  · obtain ⟨L, hlL, hL, hgap⟩ := exists_first hex
    rw [m.nextMarkedBlockAfter_of_marked hlL hL (fun j h1 h2 => by simpa using hgap j h1 h2)]
    have := Nat.mul_le_mul_right dataAlignment hlL
    simp only [lineBlock]
    omega
  · rw [m.nextMarkedBlockAfter_of_none (fun j hj => Bool.eq_false_iff.mpr fun h => hex ⟨j, hj, h⟩)]
    have h1 := m.bitsSize_mul_le
    have h2 := Nat.mul_le_mul_right dataAlignment hl
    rw [lineBlock]
    omega

theorem nextMarkedBlockAfter_end :
    m.nextMarkedBlockAfter (m.lineBlock (m.bitsSize * 64)) = m.start + m.size :=
  m.nextMarkedBlockAfter_of_none fun j hj =>
    Bool.eq_false_iff.mpr fun h => absurd (m.lt_of_markedLine h) (by omega)

theorem forwardBlock_computeForwarding (original : Nat)
    (hline : m.blockLine original < m.bitsSize * 64) (hsmall : m.bitsSize * 64 < 2 ^ 64) :
    m.computeForwarding.forwardBlock original =
      m.lineBlock (rank m.marked (m.blockLine original)) + original % dataAlignment := by
  have hr : m.blockLine original % 64 < 64 := Nat.mod_lt _ (by decide)
  have hi : m.blockLine original / 64 < m.marked.length := by
    rw [m.marked_length]
    change _ < m.bitsSize
    omega
  have hrank := rank_mul_add m.marked (by decide : 0 < 64) (m.blockLine original / 64)
    (r := m.blockLine original % 64) (by omega)
  rw [Nat.div_add_mod' (m.blockLine original) 64] at hrank
  have hbound : rank m.marked (m.blockLine original) ≤ m.blockLine original := by
    rw [rank]
    exact (List.countP_le_length).trans (by simp)
  show m.lineBlock ((forwardingFrom m.marked 0).getD (m.blockLine original / 64) 0 +
      popcount (m.marked.getD (m.blockLine original / 64) 0 &&&
        1#64 <<< (m.blockLine original % 64) - 1)).toNat + original % dataAlignment = _
  rw [getD_forwardingFrom_zero _ hi, popcount, BitVec.cpop, cpopNatRec_and_lowMask hr,
    Nat.min_eq_right (by omega), ← BitVec.ofNat_add, ← hrank, BitVec.toNat_ofNat,
    Nat.mod_eq_of_lt (by omega)]

end MarkBits

end FactorProofs.Vm
