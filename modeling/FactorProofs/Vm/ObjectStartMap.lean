import FactorProofs.Vm.MarkBits

namespace FactorProofs.Vm

open FactorProofs.Bits

def cardBits : Nat := 8

def cardSize : Nat := 2 ^ cardBits

def addrCardMask : Nat := cardSize - 1

def addrToCard (a : Nat) : Nat := a / 2 ^ cardBits

/-- The `card` entry of a card in which no object starts. -/
def cardStartsInsideObject : Nat := 0xff

/-- The byte offset of the first object starting in each card of a generation,
or `card_starts_inside_object`. One `uint8_t` entry per card. -/
structure ObjectStartMap where
  size : Nat
  start : Nat
  objectStartOffsets : List Nat
  offsets_length : objectStartOffsets.length = size / cardSize
  offsets_le : ∀ o ∈ objectStartOffsets, o ≤ cardStartsInsideObject

namespace ObjectStartMap

variable (m : ObjectStartMap)

def entry (index : Nat) : Nat := m.objectStartOffsets.getD index cardStartsInsideObject

theorem entry_le (index : Nat) : m.entry index ≤ cardStartsInsideObject := by
  rw [entry, List.getD_eq_getElem?_getD]
  cases h : m.objectStartOffsets[index]? with
  | none => exact Nat.le_refl _
  | some o => exact m.offsets_le o (List.mem_of_getElem? h)

/-- Store a `card` value into the table. -/
def setEntry (index value : Nat) (h : value ≤ cardStartsInsideObject) : ObjectStartMap :=
  { m with
    objectStartOffsets := m.objectStartOffsets.set index value
    offsets_length := by rw [List.length_set, m.offsets_length]
    offsets_le := by
      intro o ho
      rcases List.mem_or_eq_of_mem_set ho with ho | rfl
      · exact m.offsets_le o ho
      · exact h }

theorem entry_setEntry (index value : Nat) (h : value ≤ cardStartsInsideObject) (j : Nat) :
    (m.setEntry index value h).entry j =
      if index = j ∧ index < m.objectStartOffsets.length then value else m.entry j := by
  simp only [entry, setEntry, List.getD_eq_getElem?_getD, List.getElem?_set]
  by_cases hj : index = j
  · subst hj
    by_cases hl : index < m.objectStartOffsets.length <;> simp [hl]
  · simp [hj]

def new (size start : Nat) : ObjectStartMap :=
  ⟨size, start, List.replicate (size / cardSize) cardStartsInsideObject, by simp,
    fun o ho => by rw [List.eq_of_mem_replicate ho]⟩

def clearObjectStartOffsets : ObjectStartMap := new m.size m.start

/-- The backward loop of `find_object_containing_card` from card `index`.
`none` is the `FACTOR_ASSERT (card_index > 0)` failing: the scan has reached
card 0 and found no object start there, and a release build reads below the
table. -/
def scanBack : Nat → Option Nat
  | 0 => if m.entry 0 = cardStartsInsideObject then none else some 0
  | index + 1 => if m.entry (index + 1) = cardStartsInsideObject then scanBack index else some (index + 1)

def findObjectContainingCard (cardIndex : Nat) : Option Nat :=
  if cardIndex = 0 then some m.start
  else (m.scanBack (cardIndex - 1)).map fun index => m.start + index * cardSize + m.entry index

/-- `record_object_start_offset`: keep the smallest offset seen in the card. -/
def recordObjectStartOffset (obj : Nat) : ObjectStartMap :=
  let idx := addrToCard (obj - m.start)
  m.setEntry idx (min (m.entry idx) (obj % cardSize)) (Nat.le_trans (Nat.min_le_left _ _) (m.entry_le idx))

/-- `update_card_for_sweep`: `mask` holds the mark bits of the card's sixteen
lines. The entry moves forward to the first marked line at or after the old
first object, or is cleared when there is none. -/
def updateCardForSweep (index mask : Nat) : ObjectStartMap :=
  let offset := m.entry index
  if offset ≠ cardStartsInsideObject then
    let mask := mask >>> (offset / dataAlignment)
    if mask = 0 then m.setEntry index cardStartsInsideObject (Nat.le_refl _)
    else
      m.setEntry index ((offset + (rightmostSetBit (BitVec.ofNat 64 mask)).toNat * dataAlignment) % 256)
        (by unfold cardStartsInsideObject; omega)
  else m

def updateForSweepFrom : ObjectStartMap → List Cell → Nat → ObjectStartMap
  | m, [], _ => m
  | m, word :: words, index =>
    let m := m.updateCardForSweep (index * 4) (word &&& 0xffff).toNat
    let m := m.updateCardForSweep (index * 4 + 1) (word >>> 16 &&& 0xffff).toNat
    let m := m.updateCardForSweep (index * 4 + 2) (word >>> 32 &&& 0xffff).toNat
    let m := m.updateCardForSweep (index * 4 + 3) (word >>> 48 &&& 0xffff).toNat
    updateForSweepFrom m words (index + 1)

/-- `update_for_sweep`: each 64-bit mark word covers the sixteen lines of four
cards. -/
def updateForSweep (state : MarkBits) : ObjectStartMap := m.updateForSweepFrom state.marked 0

/-- The entry a card should hold when `objects` are the generation's allocated
objects: the offset of the first one starting in the card, or
`card_starts_inside_object` when none does. -/
def expectedEntry (objects : List Nat) (index : Nat) : Nat :=
  ((objects.filter fun o => addrToCard (o - m.start) = index).map (· % cardSize)).foldr min
    cardStartsInsideObject

/-- Every card's entry is the first object start of `objects` in the card. -/
def Describes (objects : List Nat) : Prop :=
  ∀ index < m.objectStartOffsets.length, m.entry index = m.expectedEntry objects index

instance (objects : List Nat) : Decidable (m.Describes objects) :=
  inferInstanceAs (Decidable (∀ index < _, _))

theorem scanBack_eq_none_iff (index : Nat) :
    m.scanBack index = none ↔ ∀ k ≤ index, m.entry k = cardStartsInsideObject := by
  induction index with
  | zero =>
    simp only [scanBack]
    split
    · exact ⟨fun _ k hk => by rwa [Nat.le_zero.mp hk], fun _ => rfl⟩
    · constructor
      · intro h
        cases h
      · intro h
        exact absurd (h 0 (Nat.le_refl 0)) ‹_›
  | succ index ih =>
    simp only [scanBack]
    split
    · rw [ih]
      constructor
      · intro h k hk
        rcases Nat.lt_or_eq_of_le hk with hk | rfl
        · exact h k (Nat.lt_succ_iff.mp hk)
        · assumption
      · exact fun h k hk => h k (Nat.le_succ_of_le hk)
    · constructor
      · intro h
        cases h
      · intro h
        exact absurd (h (index + 1) (Nat.le_refl _)) ‹_›

theorem scanBack_spec {index j : Nat} (h : m.scanBack index = some j) :
    j ≤ index ∧ m.entry j ≠ cardStartsInsideObject ∧
      ∀ k, j < k → k ≤ index → m.entry k = cardStartsInsideObject := by
  induction index with
  | zero =>
    simp only [scanBack] at h
    split at h
    · cases h
    · cases h
      exact ⟨Nat.le_refl 0, ‹_›, fun k hjk hk => absurd hk (by omega)⟩
  | succ index ih =>
    simp only [scanBack] at h
    split at h
    · obtain ⟨hj, hne, hgap⟩ := ih h
      refine ⟨Nat.le_succ_of_le hj, hne, fun k hjk hk => ?_⟩
      rcases Nat.lt_or_eq_of_le hk with hk | rfl
      · exact hgap k hjk (Nat.lt_succ_iff.mp hk)
      · assumption
    · cases h
      exact ⟨Nat.le_refl _, ‹_›, fun k hjk hk => absurd hk (by omega)⟩

theorem scanBack_isSome {index : Nat} (h0 : m.entry 0 ≠ cardStartsInsideObject) :
    (m.scanBack index).isSome := by
  cases h : m.scanBack index with
  | none => exact absurd ((m.scanBack_eq_none_iff index).mp h 0 (Nat.zero_le _)) h0
  | some j => rfl

theorem findObjectContainingCard_lt {cardIndex a : Nat} (hc : 0 < cardIndex)
    (h : m.findObjectContainingCard cardIndex = some a) : a < m.start + cardIndex * cardSize := by
  rw [findObjectContainingCard, if_neg (Nat.pos_iff_ne_zero.mp hc)] at h
  obtain ⟨j, hj, rfl⟩ := Option.map_eq_some_iff.mp h
  obtain ⟨hji, hne, -⟩ := m.scanBack_spec hj
  have hlt : m.entry j < cardSize := by
    have := m.entry_le j
    simp only [cardStartsInsideObject, cardSize, cardBits] at hne this ⊢
    omega
  have hmul : (j + 1) * cardSize ≤ cardIndex * cardSize := Nat.mul_le_mul_right _ (by omega)
  rw [Nat.succ_mul] at hmul
  omega

theorem entry_recordObjectStartOffset_le (obj index : Nat) :
    (m.recordObjectStartOffset obj).entry index ≤ m.entry index := by
  simp only [recordObjectStartOffset, entry_setEntry]
  split
  · rename_i h
    rw [← h.1]
    exact Nat.min_le_left _ _
  · exact Nat.le_refl _

theorem entry_updateCardForSweep_of_ne {index j : Nat} (mask : Nat) (h : index ≠ j) :
    (m.updateCardForSweep index mask).entry j = m.entry j := by
  simp only [updateCardForSweep]
  split
  · split <;> simp [entry_setEntry, h]
  · rfl

theorem updateForSweepFrom_cons (word : Cell) (words : List Cell) (index : Nat) :
    m.updateForSweepFrom (word :: words) index =
      ((((m.updateCardForSweep (index * 4) (word &&& 0xffff).toNat).updateCardForSweep (index * 4 + 1)
        (word >>> 16 &&& 0xffff).toNat).updateCardForSweep (index * 4 + 2)
          (word >>> 32 &&& 0xffff).toNat).updateCardForSweep (index * 4 + 3)
            (word >>> 48 &&& 0xffff).toNat).updateForSweepFrom words (index + 1) := by
  conv_lhs => unfold updateForSweepFrom

theorem entry_updateForSweepFrom_of_lt (words : List Cell) {index j : Nat} (h : j < 4 * index) :
    (m.updateForSweepFrom words index).entry j = m.entry j := by
  induction words generalizing m index with
  | nil => rfl
  | cons word words ih =>
    rw [updateForSweepFrom_cons, ih _ (by omega), entry_updateCardForSweep_of_ne _ _ (by omega),
      entry_updateCardForSweep_of_ne _ _ (by omega), entry_updateCardForSweep_of_ne _ _ (by omega),
      entry_updateCardForSweep_of_ne _ _ (by omega)]

theorem findObjectContainingCard_eq_none_iff {cardIndex : Nat} (hc : 0 < cardIndex) :
    m.findObjectContainingCard cardIndex = none ↔
      ∀ k < cardIndex, m.entry k = cardStartsInsideObject := by
  rw [findObjectContainingCard, if_neg (Nat.pos_iff_ne_zero.mp hc), Option.map_eq_none_iff,
    scanBack_eq_none_iff]
  constructor
  · intro h k hk
    exact h k (by omega)
  · intro h k hk
    exact h k (by omega)

theorem length_updateCardForSweep (index mask : Nat) :
    (m.updateCardForSweep index mask).objectStartOffsets.length = m.objectStartOffsets.length := by
  simp only [updateCardForSweep]
  split
  · split <;> simp [setEntry]
  · rfl

theorem entry_updateCardForSweep_zero {index : Nat} (h : index < m.objectStartOffsets.length) :
    (m.updateCardForSweep index 0).entry index = cardStartsInsideObject := by
  simp only [updateCardForSweep, Nat.zero_shiftRight, if_true]
  split
  · rw [entry_setEntry, if_pos ⟨rfl, h⟩]
  · rename_i hoff
    exact not_not.mp hoff

theorem lowMask16_eq : (0xffff : Cell) = 1#64 <<< 16 - 1 := by decide

theorem entry_updateForSweep_zero (state : MarkBits) (hbits : 0 < state.bitsSize)
    (hcards : 0 < m.objectStartOffsets.length) (hmarks : ∀ l < 16, state.markedLine l = false) :
    (m.updateForSweep state).entry 0 = cardStartsInsideObject := by
  obtain ⟨word, words, hw⟩ : ∃ word words, state.marked = word :: words := by
    cases h : state.marked with
    | nil =>
      have := state.marked_length
      rw [h] at this
      exact absurd this (by simp only [List.length_nil]; exact Nat.ne_of_lt hbits)
    | cons word words => exact ⟨word, words, rfl⟩
  have hlow : (word &&& 0xffff).toNat = 0 := by
    have hzero : word &&& 0xffff = 0 := by
      apply BitVec.eq_of_getLsbD_eq
      intro i hi
      rw [lowMask16_eq, BitVec.getLsbD_and, getLsbD_lowMask (by decide),
        show (0 : Cell) = 0#64 from rfl, BitVec.getLsbD_zero]
      by_cases hi16 : i < 16
      · have := hmarks i hi16
        rw [show i = 0 * 64 + i by omega, state.markedLine_mul_add 0 (by omega), hw,
          List.getD_cons_zero] at this
        simp [this]
      · simp [hi16]
    rw [hzero]
    rfl
  rw [updateForSweep, hw, updateForSweepFrom_cons, entry_updateForSweepFrom_of_lt _ _ (by omega),
    entry_updateCardForSweep_of_ne _ _ (by omega), entry_updateCardForSweep_of_ne _ _ (by omega),
    entry_updateCardForSweep_of_ne _ _ (by omega), Nat.zero_mul, hlow]
  exact m.entry_updateCardForSweep_zero hcards

theorem findObjectContainingCard_one_updateForSweep (state : MarkBits) (hbits : 0 < state.bitsSize)
    (hcards : 0 < m.objectStartOffsets.length) (hmarks : ∀ l < 16, state.markedLine l = false) :
    (m.updateForSweep state).findObjectContainingCard 1 = none := by
  rw [findObjectContainingCard_eq_none_iff _ (by decide)]
  intro k hk
  rw [Nat.lt_one_iff.mp hk]
  exact m.entry_updateForSweep_zero state hbits hcards hmarks

/-- A generation of four cards holding object A at its start and object B at
the start of card 1. B survives the mark phase and A does not; after the sweep
the map describes the one live object, and the search for card 1 steps below
card 0. -/
theorem sweep_dead_first_card_find_below_zero :
    (((new 1024 0).recordObjectStartOffset 0).recordObjectStartOffset 256).Describes [0, 256] ∧
    ((((new 1024 0).recordObjectStartOffset 0).recordObjectStartOffset 256).updateForSweep
      ((MarkBits.new 1024 0).setMarkedP 256 16)).Describes [256] ∧
    ((((new 1024 0).recordObjectStartOffset 0).recordObjectStartOffset 256).updateForSweep
      ((MarkBits.new 1024 0).setMarkedP 256 16)).findObjectContainingCard 1 = none := by
  refine ⟨by decide, by decide, ?_⟩
  apply findObjectContainingCard_one_updateForSweep
  · decide
  · decide
  · decide

end ObjectStartMap

end FactorProofs.Vm
