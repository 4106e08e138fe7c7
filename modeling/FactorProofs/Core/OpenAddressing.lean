import FactorProofs.Library.TriangularProbing
import FactorProofs.Library.Containers
import Mathlib.Data.Nat.Bitwise

namespace FactorProofs.Core

open FactorProofs.TriangularProbing FactorProofs.Containers

/-! The open addressing that `hashtables.private` implements and `hash-sets`
reuses: an array of slots probed triangularly from the key's hash, with the
sentinels `+empty+` and `+tombstone+`. A hashtable keeps a key and its value
in two elements of the array, a hash-set one item in one, so the code indexes
the array in elements, `width` of them a slot. -/

/-- An entry of the array: the sentinels `+empty+` and `+tombstone+`, both
instances of the class `tombstone`, or a stored entry. -/
inductive Slot (α : Type*) where
  | empty
  | tombstone
  | full (a : α)
  deriving DecidableEq, Repr

namespace Slot

variable {α : Type*}

/-- `+empty+ eq?` -/
def emptyP : Slot α → Bool
  | empty => true
  | _ => false

/-- `tombstone?`: true of both sentinels. -/
def tombstoneP : Slot α → Bool
  | full _ => false
  | _ => true

/-- The deleted sentinel `+tombstone+`. -/
def deletedP : Slot α → Bool
  | tombstone => true
  | _ => false

/-- The entry a slot stores, if any. -/
def entry : Slot α → Option α
  | full a => some a
  | _ => none

@[simp] theorem emptyP_empty : (empty : Slot α).emptyP = true := rfl
@[simp] theorem emptyP_tombstone : (tombstone : Slot α).emptyP = false := rfl
@[simp] theorem emptyP_full (a : α) : (full a).emptyP = false := rfl
@[simp] theorem tombstoneP_empty : (empty : Slot α).tombstoneP = true := rfl
@[simp] theorem tombstoneP_tombstone : (tombstone : Slot α).tombstoneP = true := rfl
@[simp] theorem tombstoneP_full (a : α) : (full a).tombstoneP = false := rfl
@[simp] theorem deletedP_empty : (empty : Slot α).deletedP = false := rfl
@[simp] theorem deletedP_tombstone : (tombstone : Slot α).deletedP = true := rfl
@[simp] theorem deletedP_full (a : α) : (full a).deletedP = false := rfl
theorem tombstoneP_of_emptyP {s : Slot α} (h : s.emptyP = true) : s.tombstoneP = true := by
  cases s <;> simp_all

theorem tombstoneP_of_deletedP {s : Slot α} (h : s.deletedP = true) : s.tombstoneP = true := by
  cases s <;> simp_all

theorem deletedP_of_emptyP {s : Slot α} (h : s.emptyP = true) : s.deletedP = false := by
  cases s <;> simp_all

theorem tombstoneP_eq_false {s : Slot α} (he : s.emptyP = false) (hd : s.deletedP = false) :
    s.tombstoneP = false := by
  cases s <;> simp_all

@[simp] theorem entry_empty : (empty : Slot α).entry = none := rfl
@[simp] theorem entry_tombstone : (tombstone : Slot α).entry = none := rfl
@[simp] theorem entry_full (a : α) : (full a).entry = some a := rfl

end Slot

/-- `next-power-of-2` -/
def nextPowerOf2 (m : Nat) : Nat := if m ≤ 2 then 2 else 2 ^ (Nat.log2 (m - 1) + 1)

/-- The slots of `<hash-array>`: `3 * 1 + 2/ next-power-of-2`. -/
def hashArraySlots (n : Nat) : Nat := nextPowerOf2 ((3 * n + 1) / 2)

theorem nextPowerOf2_eq_pow (m : Nat) : ∃ e, nextPowerOf2 m = 2 ^ e := by
  unfold nextPowerOf2
  split
  · exact ⟨1, rfl⟩
  · exact ⟨_, rfl⟩

theorem le_nextPowerOf2 (m : Nat) : m ≤ nextPowerOf2 m ∧ 2 ≤ nextPowerOf2 m := by
  unfold nextPowerOf2
  split
  · omega
  · have hlt : m - 1 < 2 ^ (Nat.log2 (m - 1) + 1) := Nat.lt_log2_self
    have hpow : 2 ^ 1 ≤ 2 ^ (Nat.log2 (m - 1) + 1) := Nat.pow_le_pow_right (by decide) (by omega)
    omega

theorem lt_hashArraySlots (n : Nat) : n < hashArraySlots n := by
  obtain ⟨hle, htwo⟩ := le_nextPowerOf2 ((3 * n + 1) / 2)
  rw [hashArraySlots]
  omega

theorem nextPowerOf2_le {m e : Nat} (htwo : 2 ≤ 2 ^ e) (hm : m ≤ 2 ^ e) : nextPowerOf2 m ≤ 2 ^ e := by
  unfold nextPowerOf2
  split
  · exact htwo
  · rename_i hgt
    have hlog : Nat.log2 (m - 1) < e := (Nat.log2_lt (by omega)).mpr (by omega)
    exact Nat.pow_le_pow_right (by decide) hlog

theorem nextPowerOf2_mono {m m' : Nat} (h : m ≤ m') : nextPowerOf2 m ≤ nextPowerOf2 m' := by
  obtain ⟨e, he⟩ := nextPowerOf2_eq_pow m'
  obtain ⟨hle, htwo⟩ := le_nextPowerOf2 m'
  rw [he] at hle htwo ⊢
  exact nextPowerOf2_le htwo (h.trans hle)

theorem hashArraySlots_succ {c : Nat} (h : 3 * (c + 1) < 2 * hashArraySlots c) :
    hashArraySlots (c + 1) = hashArraySlots c := by
  apply Nat.le_antisymm
  · obtain ⟨e, he⟩ := nextPowerOf2_eq_pow ((3 * c + 1) / 2)
    have htwo := (le_nextPowerOf2 ((3 * c + 1) / 2)).2
    unfold hashArraySlots at h ⊢
    rw [he] at h htwo ⊢
    exact nextPowerOf2_le htwo (by omega)
  · exact nextPowerOf2_mono (by omega)

/-- The tuple of a hashtable or a hash-set: `count` counts the slots in use
and the tombstones, `deleted` the tombstones. -/
structure Table (α : Type*) where
  count : Nat
  deleted : Nat
  array : List (Slot α)

namespace Table

variable {α K : Type*} [DecidableEq K] (width : Nat) (key : α → K) (hashcode : K → Nat)

/-- `length>>` of the array: `width` elements a slot. -/
def arrayLength (array : List (Slot α)) : Nat := width * array.length

/-- `wrap` -/
def wrap (i : Nat) (array : List (Slot α)) : Nat := i &&& (arrayLength width array - 1)

/-- `hash@`: the element index of the key's first probe. For a hashtable,
`hashcode >fixnum dup fixnum+fast` doubles the hashcode. The hashcode is the
fixnum's bit pattern: `wrap` reads only its low bits. -/
def hashAt (k : K) (array : List (Slot α)) : Nat := wrap width (width * hashcode k) array

/-- `probe`: the probe number grows by a slot each time and is added to the index. -/
def probe (array : List (Slot α)) (i probeNum : Nat) : Nat × Nat :=
  (wrap width (i + (probeNum + width)) array, probeNum + width)

/-- `array-nth` at the element index of a slot's first element. -/
def slotAt (array : List (Slot α)) (i : Nat) : Slot α := array.getD (i / width) .empty

/-- `=` between the key sought and an element: the sentinels are never keys. -/
def keyIs (k : K) : Slot α → Bool
  | .full a => decide (k = key a)
  | _ => false

@[simp] theorem keyIs_empty (k : K) : keyIs key k .empty = false := rfl
@[simp] theorem keyIs_tombstone (k : K) : keyIs key k .tombstone = false := rfl
@[simp] theorem keyIs_full (k : K) (a : α) : keyIs key k (.full a) = decide (k = key a) := rfl

/-- `(key@)`, with `fuel` probes left: stops at `+empty+` or at the key. -/
def keyAtFrom (k : K) (array : List (Slot α)) : Nat → Nat → Nat → Option Nat
  | _, _, 0 => none
  | i, probeNum, fuel + 1 =>
    let slot := slotAt width array i
    if slot.emptyP then none
    else if keyIs key k slot then some i
    else
      let p := probe width array i probeNum
      keyAtFrom k array p.1 p.2 fuel

/-- `key@`: the element index of `k`, probing each slot at most once. -/
def keyAt (k : K) (array : List (Slot α)) : Option Nat :=
  if arrayLength width array = 0 then none
  else keyAtFrom width key k array (hashAt width hashcode k array) 0 array.length

/-- `(new-key@)`, with `fuel` probes left: the index where the probe stopped,
the first tombstone passed, and whether it stopped at `+empty+` rather than
at the key. -/
def newKeyAtFrom (k : K) (array : List (Slot α)) : Nat → Nat → Option Nat → Nat → Nat × Option Nat × Bool
  | i, _, j, 0 => (i, j, true)
  | i, probeNum, j, fuel + 1 =>
    let slot := slotAt width array i
    if slot.tombstoneP then
      if slot.emptyP then (i, j, true)
      else
        let p := probe width array i probeNum
        newKeyAtFrom k array p.1 p.2 (j.or (some i)) fuel
    else if keyIs key k slot then (i, j, false)
    else
      let p := probe width array i probeNum
      newKeyAtFrom k array p.1 p.2 j fuel

/-- `new-key@`: where `k` is stored, with the counters of a new entry, and
whether it is new. A new entry takes the first tombstone passed, and
otherwise the empty slot reached. -/
def newKeyAt (k : K) (t : Table α) : Nat × Table α × Bool :=
  let r := newKeyAtFrom width key k t.array (hashAt width hashcode k t.array) 0 none t.array.length
  if r.2.2 then
    match r.2.1 with
    | some j => (j, { t with deleted := t.deleted - 1 }, true)
    | none => (r.1, { t with count := t.count + 1 }, true)
  else (r.1, t, false)

@[simp] theorem newKeyAt_array (k : K) (t : Table α) : (newKeyAt width key hashcode k t).2.1.array = t.array := by
  unfold newKeyAt
  dsimp only
  split
  · split <;> rfl
  · rfl

/-- `set-nth-pair` and `set-nth-item`: write the slot at an element index. -/
def setSlot (t : Table α) (n : Nat) (slot : Slot α) : Table α :=
  { t with array := t.array.set (n / width) slot }

/-- Store `a` under its key: `new-key@`, then write the slot. -/
def insert (t : Table α) (a : α) : Table α :=
  let r := newKeyAt width key hashcode (key a) t
  setSlot width r.2.1 r.1 (.full a)

/-- Remove `k`: a tombstone where it was, counted in `deleted`. -/
def remove (t : Table α) (k : K) : Table α :=
  match keyAt width key hashcode k t.array with
  | some n => { setSlot width t n .tombstone with deleted := t.deleted + 1 }
  | none => t

/-- `(rehash)` and the loop of `grow-hash`: `(set-at)` or `(adjoin)` of each
element in turn, with no growth check. -/
def insertAll (t : Table α) (l : List α) : Table α := l.foldl (insert width key hashcode) t

variable {width key hashcode}

/-- The entries in the order of the array: `each-pair` and `each-member`. -/
def entries (t : Table α) : List α := t.array.filterMap Slot.entry

/-- `assoc-size` and `cardinality` -/
def size (t : Table α) : Nat := t.count - t.deleted

/-- `clear-assoc` and `clear-set`: every element becomes `+empty+`. -/
def clear (t : Table α) : Table α := ⟨0, 0, t.array.map fun _ => .empty⟩

/-- A fresh array from `<hash-array>`, with the counters of `init-hash`. -/
def fresh (n : Nat) : Table α := ⟨0, 0, List.replicate (hashArraySlots n) .empty⟩

variable (key) in
/-- What the table stores under `k`: its abstract content as a finite map. -/
def lookup (t : Table α) (k : K) : Option α := t.entries.find? fun a => key a = k

/-- Writing an entry into slot `i`, with the counters `new-key@` keeps: a
slot that was `+empty+` is counted, a `+tombstone+` no longer is. -/
def writeFull (t : Table α) (i : Nat) (a : α) : Table α :=
  ⟨t.count + (if (t.array.getD i .empty).emptyP then 1 else 0),
    t.deleted - (if (t.array.getD i .empty).deletedP then 1 else 0), t.array.set i (.full a)⟩

/-- Writing `+tombstone+` over the entry in slot `i`, counted by `hash-deleted+`. -/
def writeTombstone (t : Table α) (i : Nat) : Table α := ⟨t.count, t.deleted + 1, t.array.set i .tombstone⟩

variable (width key hashcode) in
/-- `grow-hash`: `reset-hash` to a fresh array for one more than `assoc-size`
entries, then every entry of the old array stored again. -/
def grow (t : Table α) : Table α := insertAll width key hashcode (fresh (t.size + 1)) t.entries

variable (width key hashcode) in
/-- `set-at` and `adjoin`: `?grow-hash`, then the store. Both words' `hash-large?`
compare `3 * (count + 1)` with twice the number of slots. -/
def insertGrowing (t : Table α) (a : α) : Table α :=
  insert width key hashcode (if 2 * t.array.length ≤ 3 * (t.count + 1) then grow width key hashcode t else t) a

/-- `collect-pairs` and `members`: the entries, in the order of the array,
each written by `set-nth-unsafe` at the next index of an array of `assoc-size`
elements made by `f <array>`. An element never written stays `f`, here `none`. -/
def collect {β : Type*} (f : α → β) (t : Table α) : List (Option β) :=
  (t.entries.foldl (fun acc a => (acc.1.set acc.2 (some (f a)), acc.2 + 1)) (List.replicate t.size none, 0)).1

section Arithmetic

variable {array : List (Slot α)} {m : Nat}

omit [DecidableEq K] in
theorem wrap_eq_mod (hw : width = 1 ∨ width = 2) (hn : array.length = 2 ^ m) (i : Nat) :
    wrap width i array = i % (width * array.length) := by
  have hpow : width * array.length = 2 ^ (m + width - 1) := by
    rcases hw with rfl | rfl
    · simp [hn]
    · rw [hn, show m + 2 - 1 = m + 1 by omega, Nat.pow_succ, Nat.mul_comm]
  rw [wrap, arrayLength, hpow, Nat.and_two_pow_sub_one_eq_mod]

omit [DecidableEq K] in
theorem hashAt_eq (hw : width = 1 ∨ width = 2) (hn : array.length = 2 ^ m) (k : K) :
    hashAt width hashcode k array = width * triProbe array.length (hashcode k) 0 := by
  rw [hashAt, wrap_eq_mod hw hn, Nat.mul_mod_mul_left, triProbe_zero]

omit [DecidableEq K] in
theorem probe_eq (hw : width = 1 ∨ width = 2) (hn : array.length = 2 ^ m) (h q : Nat) :
    probe width array (width * triProbe array.length h q) (width * q) =
      (width * triProbe array.length h (q + 1), width * (q + 1)) := by
  rw [probe, wrap_eq_mod hw hn, triProbe_succ,
    show width * triProbe array.length h q + (width * q + width) =
      width * (triProbe array.length h q + (q + 1)) by ring, Nat.mul_mod_mul_left, Nat.mul_succ]

omit [DecidableEq K] in
theorem slotAt_mul (hw : 0 < width) (i : Nat) : slotAt width array (width * i) = array.getD i .empty := by
  rw [slotAt, Nat.mul_div_cancel_left _ hw]

end Arithmetic

/-- The element index of the first `+tombstone+` among the probes `q`, ...,
`q + n - 1` for `k`: what `(new-key@)` threads through as `j`. -/
def firstDeleted (width : Nat) (hashcode : K → Nat) (array : List (Slot α)) (k : K) : Nat → Nat → Option Nat
  | _, 0 => none
  | q, n + 1 =>
    if (array.getD (triProbe array.length (hashcode k) q) .empty).deletedP then
      some (width * triProbe array.length (hashcode k) q)
    else firstDeleted width hashcode array k (q + 1) n

section Search

variable {array : List (Slot α)} {m : Nat} (hw : width = 1 ∨ width = 2) (hn : array.length = 2 ^ m)
  (k : K) {q₀ p : Nat}

include hw hn in
theorem keyAtFrom_eq (fuel : Nat) (hp : q₀ ≤ p) (hfuel : p < q₀ + fuel)
    (hgap : ∀ q, q₀ ≤ q → q < p →
      (array.getD (triProbe array.length (hashcode k) q) .empty).emptyP = false ∧
        keyIs key k (array.getD (triProbe array.length (hashcode k) q) .empty) = false)
    (hstop : (array.getD (triProbe array.length (hashcode k) p) .empty).emptyP = true ∨
      keyIs key k (array.getD (triProbe array.length (hashcode k) p) .empty) = true) :
    keyAtFrom width key k array (width * triProbe array.length (hashcode k) q₀) (width * q₀) fuel =
      if (array.getD (triProbe array.length (hashcode k) p) .empty).emptyP then none
      else some (width * triProbe array.length (hashcode k) p) := by
  have hw0 : 0 < width := by omega
  induction fuel generalizing q₀ with
  | zero => omega
  | succ fuel ih =>
    simp only [keyAtFrom, slotAt_mul hw0]
    by_cases hq : q₀ = p
    · subst hq
      by_cases he : (array.getD (triProbe array.length (hashcode k) q₀) .empty).emptyP = true
      · rw [if_pos he, if_pos he]
      · have hk := hstop.resolve_left he
        rw [if_neg he, if_pos hk, if_neg he]
    · obtain ⟨he, hk⟩ := hgap q₀ (Nat.le_refl _) (by omega)
      simp only [he, hk, Bool.false_eq_true, if_false, probe_eq hw hn]
      exact ih (by omega) (by omega) fun q h1 h2 => hgap q (by omega) h2

include hw hn in
theorem newKeyAtFrom_eq (fuel : Nat) (j : Option Nat) (hp : q₀ ≤ p) (hfuel : p < q₀ + fuel)
    (hgap : ∀ q, q₀ ≤ q → q < p →
      (array.getD (triProbe array.length (hashcode k) q) .empty).emptyP = false ∧
        keyIs key k (array.getD (triProbe array.length (hashcode k) q) .empty) = false)
    (hstop : (array.getD (triProbe array.length (hashcode k) p) .empty).emptyP = true ∨
      keyIs key k (array.getD (triProbe array.length (hashcode k) p) .empty) = true) :
    newKeyAtFrom width key k array (width * triProbe array.length (hashcode k) q₀) (width * q₀) j fuel =
      (width * triProbe array.length (hashcode k) p, j.or (firstDeleted width hashcode array k q₀ (p - q₀)),
        (array.getD (triProbe array.length (hashcode k) p) .empty).emptyP) := by
  have hw0 : 0 < width := by omega
  induction fuel generalizing q₀ j with
  | zero => omega
  | succ fuel ih =>
    simp only [newKeyAtFrom, slotAt_mul hw0]
    by_cases hq : q₀ = p
    · subst hq
      rw [Nat.sub_self, firstDeleted, Option.or_none]
      cases hs : array.getD (triProbe array.length (hashcode k) q₀) .empty with
      | empty => simp
      | tombstone =>
        rw [hs] at hstop
        simp at hstop
      | full a =>
        rw [hs] at hstop
        simp only [Slot.emptyP_full, Bool.false_eq_true, false_or] at hstop
        simp only [Slot.tombstoneP_full, Bool.false_eq_true, if_false, hstop, if_true, Slot.emptyP_full]
    · obtain ⟨he, hk⟩ := hgap q₀ (Nat.le_refl _) (by omega)
      have hgap' : ∀ q, q₀ + 1 ≤ q → q < p → _ := fun q h1 h2 => hgap q (by omega) h2
      have hsub : p - q₀ = p - (q₀ + 1) + 1 := by omega
      rw [hsub, firstDeleted]
      cases hs : array.getD (triProbe array.length (hashcode k) q₀) .empty with
      | empty =>
        rw [hs] at he
        simp at he
      | tombstone =>
        simp only [Slot.tombstoneP_tombstone, Slot.emptyP_tombstone, Slot.deletedP_tombstone, if_true,
          Bool.false_eq_true, if_false, probe_eq hw hn]
        rw [ih (j.or (some _)) (by omega) (by omega) hgap', Option.or_assoc, Option.some_or]
      | full a =>
        rw [hs] at hk
        simp only [Slot.tombstoneP_full, Slot.deletedP_full, hk, Bool.false_eq_true, if_false, probe_eq hw hn]
        exact ih j (by omega) (by omega) hgap'

end Search

section Slots

variable {l : List (Slot α)} {i j : Nat} {a : α}

omit [DecidableEq K] in
theorem lt_length_of_getD_full (h : l.getD i .empty = .full a) : i < l.length := by
  by_contra hi
  rw [List.getD_eq_default _ _ (Nat.le_of_not_lt hi)] at h
  cases h

omit [DecidableEq K] in
theorem getD_set_self {s : Slot α} (hi : i < l.length) : (l.set i s).getD i .empty = s := by
  rw [getD_set, if_pos ⟨rfl, hi⟩]

omit [DecidableEq K] in
theorem getD_set_of_ne {s : Slot α} (hij : i ≠ j) : (l.set i s).getD j .empty = l.getD j .empty := by
  rw [getD_set, if_neg fun h => hij h.1]

omit [DecidableEq K] in
theorem mem_entries_iff : a ∈ l.filterMap Slot.entry ↔ ∃ i, l.getD i .empty = .full a := by
  rw [List.mem_filterMap]
  constructor
  · rintro ⟨s, hs, hsa⟩
    obtain ⟨i, hi, rfl⟩ := List.mem_iff_getElem.mp hs
    refine ⟨i, ?_⟩
    rw [List.getD_eq_getElem _ _ hi]
    cases h : l[i] with
    | full b =>
      rw [h] at hsa
      cases hsa
      rfl
    | empty => rw [h] at hsa; cases hsa
    | tombstone => rw [h] at hsa; cases hsa
  · rintro ⟨i, hi⟩
    have hlt := lt_length_of_getD_full hi
    rw [List.getD_eq_getElem _ _ hlt] at hi
    exact ⟨_, List.getElem_mem hlt, by rw [hi]; rfl⟩

omit [DecidableEq K] in
theorem getD_set_eq_full {s : Slot α} {b : α} (h : (l.set i s).getD j .empty = .full b) :
    (j = i ∧ i < l.length ∧ s = .full b) ∨ (j ≠ i ∧ l.getD j .empty = .full b) := by
  rw [getD_set] at h
  split at h
  · rename_i hij
    exact .inl ⟨hij.1.symm, hij.1 ▸ hij.2, h⟩
  · rename_i hij
    refine .inr ⟨fun hji => hij ⟨hji.symm, ?_⟩, h⟩
    subst hji
    exact lt_length_of_getD_full h

omit [DecidableEq K] in
theorem emptyP_getD_set {s : Slot α} (hs : s.emptyP = false) (hj : (l.getD j .empty).emptyP = false) :
    ((l.set i s).getD j .empty).emptyP = false := by
  rw [getD_set]
  split
  · exact hs
  · exact hj

omit [DecidableEq K] in
theorem countP_set_add (p : Slot α → Bool) (hi : i < l.length) (s : Slot α) :
    (l.set i s).countP p + (if p (l.getD i .empty) then 1 else 0) = l.countP p + (if p s then 1 else 0) := by
  rw [List.countP_set hi, ← List.getD_eq_getElem _ .empty hi]
  have hle : (if p (l.getD i .empty) then 1 else 0) ≤ l.countP p := by
    split
    · rename_i hp
      rw [List.getD_eq_getElem _ _ hi] at hp
      exact List.countP_pos_iff.mpr ⟨_, List.getElem_mem hi, hp⟩
    · exact Nat.zero_le _
  omega

omit [DecidableEq K] in
theorem countP_not_emptyP (l : List (Slot α)) :
    l.countP (fun s => !s.emptyP) = l.countP Slot.deletedP + (l.filterMap Slot.entry).length := by
  induction l with
  | nil => rfl
  | cons s l ih =>
    cases s <;> simp [List.countP_cons, List.filterMap_cons, ih] <;> omega

end Slots

/-- The representation invariant of a table whose keys are hashed by
`hashcode`: a power-of-two number of slots; `count` counts the slots that
are not `+empty+` and `deleted` the `+tombstone+`s; some slot is `+empty+`;
no key is stored twice; and each stored key lies on its own probe sequence,
among its first probes, with no `+empty+` slot before it. -/
structure Inv (key : α → K) (hashcode : K → Nat) (t : Table α) : Prop where
  pow2 : ∃ m, t.array.length = 2 ^ m
  count_eq : t.count = t.array.countP fun s => !s.emptyP
  deleted_eq : t.deleted = t.array.countP Slot.deletedP
  count_lt : t.count < t.array.length
  unique : ∀ i j a b, t.array.getD i .empty = .full a → t.array.getD j .empty = .full b →
    key a = key b → i = j
  reach : ∀ i a, t.array.getD i .empty = .full a → ∃ p < t.array.length,
    triProbe t.array.length (hashcode (key a)) p = i ∧
      ∀ q < p, (t.array.getD (triProbe t.array.length (hashcode (key a)) q) .empty).emptyP = false

theorem keyIs_of_absent {k : K} {l : List (Slot α)} (hk : ∀ i a, l.getD i .empty = .full a → key a ≠ k)
    (j : Nat) : keyIs key k (l.getD j .empty) = false := by
  cases hs : l.getD j .empty with
  | empty => rfl
  | tombstone => rfl
  | full a => exact decide_eq_false fun h => hk j a hs h.symm

section FirstDeleted

variable {array : List (Slot α)} {k : K}

omit [DecidableEq K] in
theorem firstDeleted_eq_none {q₀ n : Nat} (h : firstDeleted width hashcode array k q₀ n = none) :
    ∀ q, q₀ ≤ q → q < q₀ + n →
      (array.getD (triProbe array.length (hashcode k) q) .empty).deletedP = false := by
  induction n generalizing q₀ with
  | zero => intro q h1 h2; omega
  | succ n ih =>
    rw [firstDeleted] at h
    split at h
    · cases h
    · rename_i hd
      intro q h1 h2
      by_cases hq : q = q₀
      · subst hq
        exact Bool.eq_false_iff.mpr hd
      · exact ih h q (by omega) (by omega)

omit [DecidableEq K] in
theorem firstDeleted_eq_some {q₀ n x : Nat} (h : firstDeleted width hashcode array k q₀ n = some x) :
    ∃ q, q₀ ≤ q ∧ q < q₀ + n ∧ x = width * triProbe array.length (hashcode k) q ∧
      (array.getD (triProbe array.length (hashcode k) q) .empty).deletedP = true ∧
      ∀ q', q₀ ≤ q' → q' < q →
        (array.getD (triProbe array.length (hashcode k) q') .empty).deletedP = false := by
  induction n generalizing q₀ with
  | zero => cases h
  | succ n ih =>
    rw [firstDeleted] at h
    split at h
    · rename_i hd
      cases h
      exact ⟨q₀, Nat.le_refl _, by omega, rfl, hd, fun q' h1 h2 => by omega⟩
    · rename_i hd
      obtain ⟨q, h1, h2, hx, hq, hbefore⟩ := ih h
      refine ⟨q, by omega, by omega, hx, hq, fun q' h1' h2' => ?_⟩
      by_cases hq' : q' = q₀
      · subst hq'
        exact Bool.eq_false_iff.mpr hd
      · exact hbefore q' (by omega) h2'

end FirstDeleted

section Spec

variable {t : Table α} (hw : width = 1 ∨ width = 2)

omit [DecidableEq K] in
theorem Inv.length_pos (h : t.Inv key hashcode) : 0 < t.array.length := by
  obtain ⟨m, hm⟩ := h.pow2
  rw [hm]
  exact Nat.two_pow_pos m

omit [DecidableEq K] in
theorem Inv.exists_empty (h : t.Inv key hashcode) :
    ∃ i < t.array.length, (t.array.getD i .empty).emptyP = true := by
  by_contra hne
  simp only [not_exists, not_and] at hne
  have hall : t.array.countP (fun s => !s.emptyP) = t.array.length := by
    rw [List.countP_eq_length]
    intro s hs
    obtain ⟨i, hi, rfl⟩ := List.mem_iff_getElem.mp hs
    have := hne i hi
    rw [List.getD_eq_getElem _ _ hi] at this
    simpa using this
  have := h.count_lt
  rw [h.count_eq, hall] at this
  exact Nat.lt_irrefl _ this

omit [DecidableEq K] in
theorem Inv.first_empty (h : t.Inv key hashcode) (k : K) :
    ∃ e < t.array.length,
      (t.array.getD (triProbe t.array.length (hashcode k) e) .empty).emptyP = true ∧
      ∀ q < e, (t.array.getD (triProbe t.array.length (hashcode k) q) .empty).emptyP = false := by
  obtain ⟨m, hm⟩ := h.pow2
  obtain ⟨i, hi, he⟩ := h.exists_empty
  obtain ⟨q, hq, hPq⟩ := exists_triProbe_eq m (hashcode k) (hm ▸ hi)
  have hex : ∃ q, (t.array.getD (triProbe t.array.length (hashcode k) q) .empty).emptyP = true :=
    ⟨q, by rw [hm, hPq]; exact he⟩
  refine ⟨Nat.find hex, ?_, Nat.find_spec hex, fun q' hq' => Bool.eq_false_iff.mpr (Nat.find_min hex hq')⟩
  have := Nat.find_min' hex (m := q) (by rw [hm, hPq]; exact he)
  omega

theorem Inv.keyIs_before (h : t.Inv key hashcode) {i p : Nat} {a : α}
    (hi : t.array.getD i .empty = .full a) (hp : p < t.array.length)
    (hPp : triProbe t.array.length (hashcode (key a)) p = i) :
    ∀ q < p, keyIs key (key a) (t.array.getD (triProbe t.array.length (hashcode (key a)) q) .empty) = false := by
  intro q hq
  cases hs : t.array.getD (triProbe t.array.length (hashcode (key a)) q) .empty with
  | empty => rfl
  | tombstone => rfl
  | full b =>
    refine decide_eq_false fun hkey => ?_
    have heq := (h.unique _ _ _ _ hs hi hkey.symm).trans hPp.symm
    obtain ⟨m, hm⟩ := h.pow2
    rw [hm] at heq hp
    have := triProbe_injective _ (by omega) hp heq
    omega

include hw in
theorem Inv.keyAt_of_full (h : t.Inv key hashcode) {i : Nat} {a : α} (hi : t.array.getD i .empty = .full a) :
    keyAt width key hashcode (key a) t.array = some (width * i) := by
  obtain ⟨m, hm⟩ := h.pow2
  obtain ⟨p, hp, hPp, hgap⟩ := h.reach i a hi
  have hlen : arrayLength width t.array ≠ 0 := Nat.mul_ne_zero (by omega) (Nat.ne_of_gt h.length_pos)
  have hloop := keyAtFrom_eq hw hm (key a) t.array.length (Nat.zero_le p) (by omega)
    (fun q _ hq => ⟨hgap q hq, h.keyIs_before hi hp hPp q hq⟩) (.inr (by rw [hPp, hi]; simp))
  rw [Nat.mul_zero, hPp, hi, Slot.emptyP_full] at hloop
  rw [keyAt, if_neg hlen, hashAt_eq hw hm, hloop]
  rfl

include hw in
theorem Inv.keyAt_of_absent (h : t.Inv key hashcode) {k : K}
    (hk : ∀ i a, t.array.getD i .empty = .full a → key a ≠ k) : keyAt width key hashcode k t.array = none := by
  obtain ⟨m, hm⟩ := h.pow2
  obtain ⟨e, he, hempty, hbefore⟩ := h.first_empty k
  have hlen : arrayLength width t.array ≠ 0 := Nat.mul_ne_zero (by omega) (Nat.ne_of_gt h.length_pos)
  have hloop := keyAtFrom_eq hw hm k t.array.length (Nat.zero_le e) (by omega)
    (fun q _ hq => ⟨hbefore q hq, keyIs_of_absent hk _⟩) (.inl hempty)
  rw [Nat.mul_zero, hempty, if_pos rfl] at hloop
  rw [keyAt, if_neg hlen, hashAt_eq hw hm, hloop]

include hw in
theorem Inv.newKeyAt_of_full (h : t.Inv key hashcode) {i : Nat} {a : α} (hi : t.array.getD i .empty = .full a) :
    newKeyAt width key hashcode (key a) t = (width * i, t, false) := by
  obtain ⟨m, hm⟩ := h.pow2
  obtain ⟨p, hp, hPp, hgap⟩ := h.reach i a hi
  have hloop := newKeyAtFrom_eq hw hm (key a) t.array.length none (Nat.zero_le p)
    (by omega) (fun q _ hq => ⟨hgap q hq, h.keyIs_before hi hp hPp q hq⟩) (.inr (by rw [hPp, hi]; simp))
  rw [Nat.mul_zero, hPp, hi, Slot.emptyP_full] at hloop
  rw [newKeyAt, hashAt_eq hw hm, hloop]
  rfl

include hw in
theorem Inv.newKeyAt_of_absent (h : t.Inv key hashcode) {k : K}
    (hk : ∀ i a, t.array.getD i .empty = .full a → key a ≠ k) :
    ∃ q < t.array.length,
      (t.array.getD (triProbe t.array.length (hashcode k) q) .empty).tombstoneP = true ∧
      (∀ q' < q, (t.array.getD (triProbe t.array.length (hashcode k) q') .empty).tombstoneP = false) ∧
      newKeyAt width key hashcode k t =
        (width * triProbe t.array.length (hashcode k) q,
          if (t.array.getD (triProbe t.array.length (hashcode k) q) .empty).deletedP then
            { t with deleted := t.deleted - 1 }
          else { t with count := t.count + 1 }, true) := by
  obtain ⟨m, hm⟩ := h.pow2
  obtain ⟨e, he, hempty, hbefore⟩ := h.first_empty k
  have hloop := newKeyAtFrom_eq hw hm k t.array.length none (Nat.zero_le e) (by omega)
    (fun q _ hq => ⟨hbefore q hq, keyIs_of_absent hk _⟩) (.inl hempty)
  rw [Nat.mul_zero, hempty, Option.none_or, Nat.sub_zero] at hloop
  rw [newKeyAt, hashAt_eq hw hm, hloop]
  dsimp only
  rw [if_pos rfl]
  cases hfd : firstDeleted width hashcode t.array k 0 e with
  | some x =>
    obtain ⟨q, -, hqe, rfl, hdel, hbef⟩ := firstDeleted_eq_some hfd
    refine ⟨q, by omega, Slot.tombstoneP_of_deletedP hdel,
      fun q' hq' => Slot.tombstoneP_eq_false (hbefore q' (by omega)) (hbef q' (Nat.zero_le _) hq'), ?_⟩
    rw [if_pos hdel]
  | none =>
    have hnd := firstDeleted_eq_none hfd
    refine ⟨e, he, Slot.tombstoneP_of_emptyP hempty,
      fun q' hq' => Slot.tombstoneP_eq_false (hbefore q' hq') (hnd q' (Nat.zero_le _) (by omega)), ?_⟩
    rw [if_neg (by rw [Slot.deletedP_of_emptyP hempty]; exact Bool.false_ne_true)]

end Spec

section Writes

variable {t : Table α} {i : Nat}

/-- Slot `i` is where an entry for `k` belongs: it holds no other key, no
other slot holds `k`, and `k`'s probe sequence reaches it with no `+empty+`
slot before. -/
structure Target (key : α → K) (hashcode : K → Nat) (t : Table α) (k : K) (i : Nat) : Prop where
  lt : i < t.array.length
  same : ∀ b, t.array.getD i .empty = .full b → key b = k
  only : ∀ j b, t.array.getD j .empty = .full b → key b = k → j = i
  reach : ∃ p < t.array.length, triProbe t.array.length (hashcode k) p = i ∧
    ∀ q < p, (t.array.getD (triProbe t.array.length (hashcode k) q) .empty).emptyP = false

omit [DecidableEq K] in
@[simp] theorem writeFull_length (a : α) : (t.writeFull i a).array.length = t.array.length :=
  List.length_set

omit [DecidableEq K] in
@[simp] theorem writeTombstone_length : (t.writeTombstone i).array.length = t.array.length :=
  List.length_set

omit [DecidableEq K] in
theorem writeFull_count_le (a : α) : (t.writeFull i a).count ≤ t.count + 1 := by
  simp only [writeFull]
  split <;> omega

omit [DecidableEq K] in
theorem Inv.writeFull (h : t.Inv key hashcode) {a : α} (ht : Target key hashcode t (key a) i)
    (hroom : (t.array.getD i .empty).emptyP = true → t.count + 1 < t.array.length) :
    (t.writeFull i a).Inv key hashcode where
  pow2 := by simpa using h.pow2
  count_eq := by
    have hc := countP_set_add (fun s => !s.emptyP) ht.lt (.full a)
    simp only [Table.writeFull, h.count_eq]
    cases he : (t.array.getD i .empty).emptyP <;> simp only [he] at hc ⊢ <;> simp at hc ⊢ <;> omega
  deleted_eq := by
    have hc := countP_set_add Slot.deletedP ht.lt (.full a)
    simp only [Table.writeFull, h.deleted_eq]
    cases hd : (t.array.getD i .empty).deletedP <;> simp only [hd] at hc ⊢ <;> simp at hc ⊢ <;> omega
  count_lt := by
    simp only [Table.writeFull, List.length_set]
    split
    · exact hroom ‹_›
    · exact Nat.add_zero _ ▸ h.count_lt
  unique := by
    intro j₁ j₂ b₁ b₂ h₁ h₂ hk
    rcases getD_set_eq_full h₁ with ⟨hj₁, -, hb₁⟩ | ⟨hne₁, h₁'⟩ <;>
      rcases getD_set_eq_full h₂ with ⟨hj₂, -, hb₂⟩ | ⟨hne₂, h₂'⟩
    · exact hj₁.trans hj₂.symm
    · -- the new entry's key is stored nowhere else
      cases hb₁
      exact absurd (ht.only _ _ h₂' hk.symm) hne₂
    · cases hb₂
      exact absurd (ht.only _ _ h₁' hk) hne₁
    · exact h.unique _ _ _ _ h₁' h₂' hk
  reach := by
    intro j b hj
    simp only [Table.writeFull, List.length_set]
    rcases getD_set_eq_full hj with ⟨rfl, -, hb⟩ | ⟨-, hj⟩
    · cases hb
      obtain ⟨p, hp, hP, hgap⟩ := ht.reach
      exact ⟨p, hp, hP, fun q hq => emptyP_getD_set rfl (hgap q hq)⟩
    · obtain ⟨p, hp, hP, hgap⟩ := h.reach j b hj
      exact ⟨p, hp, hP, fun q hq => emptyP_getD_set rfl (hgap q hq)⟩

omit [DecidableEq K] in
theorem Inv.writeTombstone (h : t.Inv key hashcode) {b : α} (hi : t.array.getD i .empty = .full b) :
    (t.writeTombstone i).Inv key hashcode where
  pow2 := by simpa using h.pow2
  count_eq := by
    have hc := countP_set_add (fun s => !s.emptyP) (lt_length_of_getD_full hi) .tombstone
    rw [hi] at hc
    simp at hc
    simp only [Table.writeTombstone, h.count_eq]
    omega
  deleted_eq := by
    have hc := countP_set_add Slot.deletedP (lt_length_of_getD_full hi) .tombstone
    rw [hi] at hc
    simp at hc
    simp only [Table.writeTombstone, h.deleted_eq]
    omega
  count_lt := by simpa [Table.writeTombstone] using h.count_lt
  unique := by
    intro j₁ j₂ b₁ b₂ h₁ h₂ hk
    rcases getD_set_eq_full h₁ with ⟨-, -, hb₁⟩ | ⟨-, h₁⟩
    · cases hb₁
    rcases getD_set_eq_full h₂ with ⟨-, -, hb₂⟩ | ⟨-, h₂⟩
    · cases hb₂
    exact h.unique _ _ _ _ h₁ h₂ hk
  reach := by
    intro j c hj
    simp only [Table.writeTombstone, List.length_set]
    rcases getD_set_eq_full hj with ⟨-, -, hc⟩ | ⟨-, hj⟩
    · cases hc
    obtain ⟨p, hp, hP, hgap⟩ := h.reach j c hj
    exact ⟨p, hp, hP, fun q hq => emptyP_getD_set rfl (hgap q hq)⟩

theorem lookup_eq_some {k : K} {a : α} (hf : lookup key t k = some a) :
    key a = k ∧ ∃ i, t.array.getD i .empty = .full a := by
  rw [lookup] at hf
  have hk := List.find?_some hf
  exact ⟨of_decide_eq_true hk, mem_entries_iff.mp (List.mem_of_find?_eq_some hf)⟩

theorem lookup_eq_none_iff {k : K} :
    lookup key t k = none ↔ ∀ i a, t.array.getD i .empty = .full a → key a ≠ k := by
  rw [lookup, List.find?_eq_none]
  constructor
  · intro hn i a hi hk
    exact hn a (mem_entries_iff.mpr ⟨i, hi⟩) (decide_eq_true hk)
  · intro hn a ha hk
    obtain ⟨i, hi⟩ := mem_entries_iff.mp ha
    exact hn i a hi (of_decide_eq_true hk)

theorem Inv.lookup_eq_some_iff (h : t.Inv key hashcode) {k : K} {a : α} :
    lookup key t k = some a ↔ key a = k ∧ ∃ i, t.array.getD i .empty = .full a := by
  refine ⟨lookup_eq_some, ?_⟩
  rintro ⟨hk, i, hi⟩
  cases hf : lookup key t k with
  | none => exact absurd hk (lookup_eq_none_iff.mp hf i a hi)
  | some b =>
    obtain ⟨hkb, j, hj⟩ := lookup_eq_some hf
    have hij := h.unique _ _ _ _ hi hj (hk.trans hkb.symm)
    subst hij
    rw [hi] at hj
    cases hj
    rfl

theorem Inv.lookup_eq (h : t.Inv key hashcode) {f : K → Option α}
    (hf : ∀ k a, f k = some a ↔ key a = k ∧ ∃ i, t.array.getD i .empty = .full a) : lookup key t = f := by
  funext k
  cases hfk : f k with
  | none =>
    refine lookup_eq_none_iff.mpr fun i a hi hk => ?_
    rw [(hf k a).mpr ⟨hk, i, hi⟩] at hfk
    cases hfk
  | some a => exact h.lookup_eq_some_iff.mpr ((hf k a).mp hfk)

theorem Inv.lookup_writeFull (h : t.Inv key hashcode) {a : α} (ht : Target key hashcode t (key a) i)
    (hroom : (t.array.getD i .empty).emptyP = true → t.count + 1 < t.array.length) :
    lookup key (t.writeFull i a) = Function.update (lookup key t) (key a) (some a) := by
  refine (h.writeFull ht hroom).lookup_eq fun k b => ?_
  simp only [Table.writeFull]
  by_cases hk : k = key a
  · subst hk
    rw [Function.update_self, Option.some_inj]
    constructor
    · rintro rfl
      exact ⟨rfl, i, getD_set_self ht.lt⟩
    · rintro ⟨hkb, j, hj⟩
      rcases getD_set_eq_full hj with ⟨-, -, hb⟩ | ⟨hne, hj⟩
      · cases hb
        rfl
      · exact absurd (ht.only _ _ hj hkb) hne
  · rw [Function.update_of_ne hk, h.lookup_eq_some_iff]
    constructor
    · rintro ⟨hkb, j, hj⟩
      have hji : j ≠ i := by
        rintro rfl
        exact hk (hkb.symm.trans (ht.same b hj))
      exact ⟨hkb, j, (getD_set_of_ne hji.symm).trans hj⟩
    · rintro ⟨hkb, j, hj⟩
      rcases getD_set_eq_full hj with ⟨-, -, hb⟩ | ⟨-, hj⟩
      · cases hb
        exact absurd hkb.symm hk
      · exact ⟨hkb, j, hj⟩

theorem Inv.lookup_writeTombstone (h : t.Inv key hashcode) {b : α} (hi : t.array.getD i .empty = .full b) :
    lookup key (t.writeTombstone i) = Function.update (lookup key t) (key b) none := by
  refine (h.writeTombstone hi).lookup_eq fun k c => ?_
  simp only [Table.writeTombstone]
  constructor
  · intro hc
    by_cases hk : k = key b
    · subst hk
      rw [Function.update_self] at hc
      cases hc
    · rw [Function.update_of_ne hk, h.lookup_eq_some_iff] at hc
      obtain ⟨hkc, j, hj⟩ := hc
      have hji : j ≠ i := by
        rintro rfl
        rw [hi] at hj
        cases hj
        exact hk hkc.symm
      exact ⟨hkc, j, (getD_set_of_ne hji.symm).trans hj⟩
  · rintro ⟨hkc, j, hj⟩
    rcases getD_set_eq_full hj with ⟨-, -, hc⟩ | ⟨hne, hj⟩
    · cases hc
    have hk : k ≠ key b := fun hk => hne (h.unique _ _ _ _ hj hi (hkc.trans hk))
    rw [Function.update_of_ne hk, h.lookup_eq_some_iff]
    exact ⟨hkc, j, hj⟩

end Writes

section Operations

variable {t : Table α} (hw : width = 1 ∨ width = 2)

omit [DecidableEq K] in
theorem setSlot_mul (hw₀ : 0 < width) (i : Nat) (s : Slot α) :
    setSlot width t (width * i) s = { t with array := t.array.set i s } := by
  rw [setSlot, Nat.mul_div_cancel_left _ hw₀]

omit [DecidableEq K] in
theorem Slot.emptyP_eq_false_of_tombstoneP {s : Slot α} (h : s.tombstoneP = false) : s.emptyP = false := by
  cases s <;> simp_all

include hw in
theorem Inv.insert_eq (h : t.Inv key hashcode) (a : α) :
    ∃ i, Target key hashcode t (key a) i ∧ Table.insert width key hashcode t a = t.writeFull i a := by
  have hw₀ : 0 < width := by omega
  by_cases hk : ∃ i b, t.array.getD i .empty = .full b ∧ key b = key a
  · -- the key is stored: its slot is overwritten and the counters stay
    obtain ⟨i, b, hi, hkb⟩ := hk
    have hnk := h.newKeyAt_of_full hw hi
    rw [hkb] at hnk
    obtain ⟨p, hp, hP, hgap⟩ := h.reach i b hi
    rw [hkb] at hP hgap
    refine ⟨i, ⟨lt_length_of_getD_full hi, fun c hc => ?_,
      fun j c hj hkc => h.unique _ _ _ _ hj hi (hkc.trans hkb.symm), ⟨p, hp, hP, hgap⟩⟩, ?_⟩
    · rw [hi] at hc
      cases hc
      exact hkb
    · rw [Table.insert, hnk]
      dsimp only
      rw [setSlot_mul hw₀, Table.writeFull, hi]
      simp
  · -- the key is new: it takes the first slot of its sequence holding no entry
    simp only [not_exists, not_and] at hk
    obtain ⟨q, hq, htomb, hbefore, hnk⟩ := h.newKeyAt_of_absent hw (fun i b hb hkb => hk i b hb hkb)
    refine ⟨triProbe t.array.length (hashcode (key a)) q,
      ⟨triProbe_lt h.length_pos _ _, fun c hc => ?_, fun j c hj hkc => absurd hkc (hk j c hj), ⟨q, hq, rfl,
        fun q' hq' => Slot.emptyP_eq_false_of_tombstoneP (hbefore q' hq')⟩⟩, ?_⟩
    · rw [hc] at htomb
      cases htomb
    · rw [Table.insert, hnk]
      cases hs : t.array.getD (triProbe t.array.length (hashcode (key a)) q) .empty with
      | empty =>
        dsimp only
        rw [setSlot_mul hw₀, Table.writeFull, hs]
        simp
      | tombstone =>
        dsimp only
        rw [setSlot_mul hw₀, Table.writeFull, hs]
        simp
      | full c =>
        rw [hs] at htomb
        cases htomb

@[simp] theorem length_insert (a : α) : (Table.insert width key hashcode t a).array.length = t.array.length := by
  simp [Table.insert, setSlot]

include hw in
theorem Inv.insert (h : t.Inv key hashcode) (hroom : t.count + 1 < t.array.length) (a : α) :
    (Table.insert width key hashcode t a).Inv key hashcode := by
  obtain ⟨i, ht, heq⟩ := h.insert_eq hw a
  rw [heq]
  exact h.writeFull ht fun _ => hroom

include hw in
theorem Inv.count_insert_le (h : t.Inv key hashcode) (a : α) :
    (Table.insert width key hashcode t a).count ≤ t.count + 1 := by
  obtain ⟨i, -, heq⟩ := h.insert_eq hw a
  rw [heq]
  exact writeFull_count_le a

include hw in
theorem Inv.lookup_insert (h : t.Inv key hashcode) (hroom : t.count + 1 < t.array.length) (a : α) :
    lookup key (Table.insert width key hashcode t a) = Function.update (lookup key t) (key a) (some a) := by
  obtain ⟨i, ht, heq⟩ := h.insert_eq hw a
  rw [heq]
  exact h.lookup_writeFull ht fun _ => hroom

include hw in
theorem Inv.keyAt_eq (h : t.Inv key hashcode) (k : K) :
    (∃ i a, t.array.getD i .empty = .full a ∧ lookup key t k = some a ∧
        keyAt width key hashcode k t.array = some (width * i)) ∨
      (lookup key t k = none ∧ keyAt width key hashcode k t.array = none) := by
  cases hf : lookup key t k with
  | none => exact .inr ⟨rfl, h.keyAt_of_absent hw (lookup_eq_none_iff.mp hf)⟩
  | some a =>
    obtain ⟨hka, i, hi⟩ := lookup_eq_some hf
    subst hka
    exact .inl ⟨i, a, hi, rfl, h.keyAt_of_full hw hi⟩

include hw in
theorem Inv.remove_eq (h : t.Inv key hashcode) (k : K) :
    (∃ i a, t.array.getD i .empty = .full a ∧ lookup key t k = some a ∧
        Table.remove width key hashcode t k = t.writeTombstone i) ∨
      (lookup key t k = none ∧ Table.remove width key hashcode t k = t) := by
  rcases h.keyAt_eq hw k with ⟨i, a, hi, hf, hkey⟩ | ⟨hf, hkey⟩
  · refine .inl ⟨i, a, hi, hf, ?_⟩
    rw [Table.remove, hkey]
    dsimp only
    rw [setSlot_mul (by omega)]
    rfl
  · exact .inr ⟨hf, by rw [Table.remove, hkey]⟩

include hw in
theorem Inv.remove (h : t.Inv key hashcode) (k : K) : (Table.remove width key hashcode t k).Inv key hashcode := by
  rcases h.remove_eq hw k with ⟨i, a, hi, -, heq⟩ | ⟨-, heq⟩
  · rw [heq]
    exact h.writeTombstone hi
  · rw [heq]
    exact h

include hw in
theorem Inv.lookup_remove (h : t.Inv key hashcode) (k : K) :
    lookup key (Table.remove width key hashcode t k) = Function.update (lookup key t) k none := by
  rcases h.remove_eq hw k with ⟨i, a, hi, hf, heq⟩ | ⟨hf, heq⟩
  · rw [heq, h.lookup_writeTombstone hi, (lookup_eq_some hf).1]
  · rw [heq, ← hf, Function.update_eq_self]

@[simp] theorem length_remove (k : K) : (Table.remove width key hashcode t k).array.length = t.array.length := by
  unfold remove
  split <;> simp [setSlot]

@[simp] theorem count_remove (k : K) : (Table.remove width key hashcode t k).count = t.count := by
  unfold remove
  split <;> rfl

omit [DecidableEq K] in
theorem getD_clear (i : Nat) : t.clear.array.getD i .empty = .empty := by
  simp [Table.clear, List.getD_eq_getElem?_getD]

omit [DecidableEq K] in
@[simp] theorem length_clear : t.clear.array.length = t.array.length := by
  simp [Table.clear]

omit [DecidableEq K] in
@[simp] theorem count_clear : t.clear.count = 0 := rfl

omit [DecidableEq K] in
theorem inv_of_empty {t : Table α} (hpow : ∃ m, t.array.length = 2 ^ m) (hc : t.count = 0) (hd : t.deleted = 0)
    (he : ∀ i, t.array.getD i .empty = .empty) : t.Inv key hashcode where
  pow2 := hpow
  count_eq := by
    rw [hc, eq_comm, List.countP_eq_zero]
    intro s hs
    obtain ⟨i, hi, rfl⟩ := List.mem_iff_getElem.mp hs
    have := he i
    rw [List.getD_eq_getElem _ _ hi] at this
    simp [this]
  deleted_eq := by
    rw [hd, eq_comm, List.countP_eq_zero]
    intro s hs
    obtain ⟨i, hi, rfl⟩ := List.mem_iff_getElem.mp hs
    have := he i
    rw [List.getD_eq_getElem _ _ hi] at this
    simp [this]
  count_lt := by
    obtain ⟨m, hm⟩ := hpow
    rw [hc, hm]
    exact Nat.two_pow_pos m
  unique := fun i _ a _ hi => by rw [he i] at hi; cases hi
  reach := fun i a hi => by rw [he i] at hi; cases hi

theorem lookup_of_empty {t : Table α} (he : ∀ i, t.array.getD i .empty = .empty) :
    lookup key t = fun _ => none := by
  funext k
  exact lookup_eq_none_iff.mpr fun i a hi => by rw [he i] at hi; cases hi

omit [DecidableEq K] in
theorem Inv.clear (h : t.Inv key hashcode) : t.clear.Inv key hashcode :=
  inv_of_empty (by simpa using h.pow2) rfl rfl getD_clear

omit [DecidableEq K] in
theorem getD_fresh (n i : Nat) : (fresh n : Table α).array.getD i .empty = .empty := by
  simp [fresh, List.getD_eq_getElem?_getD, List.getElem?_replicate]
  split <;> rfl

omit [DecidableEq K] in
@[simp] theorem length_fresh (n : Nat) : (fresh n : Table α).array.length = hashArraySlots n := by
  simp [fresh]

omit [DecidableEq K] in
theorem inv_fresh (n : Nat) : (fresh n : Table α).Inv key hashcode :=
  inv_of_empty (by rw [length_fresh]; exact nextPowerOf2_eq_pow _) rfl rfl (getD_fresh n)

include hw in
theorem Inv.insertAll (h : t.Inv key hashcode) (l : List α) (hroom : t.count + l.length < t.array.length) :
    (Table.insertAll width key hashcode t l).Inv key hashcode ∧
      (Table.insertAll width key hashcode t l).count ≤ t.count + l.length ∧
      (Table.insertAll width key hashcode t l).array.length = t.array.length ∧
      lookup key (Table.insertAll width key hashcode t l) =
        l.foldl (fun f a => Function.update f (key a) (some a)) (lookup key t) := by
  induction l generalizing t with
  | nil => exact ⟨h, Nat.le_refl _, rfl, rfl⟩
  | cons a l ih =>
    have hcons : Table.insertAll width key hashcode t (a :: l) =
        Table.insertAll width key hashcode (Table.insert width key hashcode t a) l := rfl
    rw [hcons, List.foldl_cons]
    rw [List.length_cons] at hroom ⊢
    have hroom₁ : t.count + 1 < t.array.length := by omega
    have hc₁ := h.count_insert_le hw a
    obtain ⟨h₂, hc₂, hl₂, hf₂⟩ := ih (h.insert hw hroom₁ a) (by rw [length_insert]; omega)
    refine ⟨h₂, by omega, hl₂.trans (length_insert a), ?_⟩
    rw [← h.lookup_insert hw hroom₁ a]
    exact hf₂

omit [DecidableEq K] in
theorem nodup_keys_of_unique {l : List (Slot α)}
    (hu : ∀ i j a b, l.getD i .empty = .full a → l.getD j .empty = .full b → key a = key b → i = j) :
    ((l.filterMap Slot.entry).map key).Nodup := by
  induction l with
  | nil => exact List.nodup_nil
  | cons s l ih =>
    have hu' : ∀ i j a b, l.getD i .empty = .full a → l.getD j .empty = .full b → key a = key b → i = j :=
      fun i j a b hi hj hk => Nat.succ_injective (hu (i + 1) (j + 1) a b hi hj hk)
    cases s with
    | empty => exact ih hu'
    | tombstone => exact ih hu'
    | full a =>
      rw [List.filterMap_cons, Slot.entry_full, List.map_cons, List.nodup_cons]
      refine ⟨fun hmem => ?_, ih hu'⟩
      obtain ⟨b, hb, hkb⟩ := List.mem_map.mp hmem
      obtain ⟨j, hj⟩ := mem_entries_iff.mp hb
      exact Nat.succ_ne_zero j (hu 0 (j + 1) a b rfl hj hkb.symm).symm

omit [DecidableEq K] in
theorem Inv.nodup_keys (h : t.Inv key hashcode) : (t.entries.map key).Nodup :=
  nodup_keys_of_unique h.unique

omit [DecidableEq K] in
theorem Inv.size_eq (h : t.Inv key hashcode) : t.size = t.entries.length := by
  rw [size, h.count_eq, h.deleted_eq, countP_not_emptyP, entries]
  omega

theorem mem_keys_iff {k : K} : k ∈ t.entries.map key ↔ (lookup key t k).isSome := by
  rw [Option.isSome_iff_ne_none, ne_eq, lookup_eq_none_iff, List.mem_map]
  constructor
  · rintro ⟨a, ha, hk⟩ hn
    obtain ⟨i, hi⟩ := mem_entries_iff.mp ha
    exact hn i a hi hk
  · intro hn
    simp only [not_forall, not_not] at hn
    obtain ⟨i, a, hi, hk⟩ := hn
    exact ⟨a, mem_entries_iff.mpr ⟨i, hi⟩, hk⟩

theorem Inv.lookup_eq_foldl (h : t.Inv key hashcode) :
    lookup key t = t.entries.foldl (fun f a => Function.update f (key a) (some a)) (fun _ => none : K → Option α) := by
  funext k
  rw [foldl_update_apply key _ h.nodup_keys, Option.or_none, lookup]

include hw in
theorem Inv.grow (h : t.Inv key hashcode) :
    (Table.grow width key hashcode t).Inv key hashcode ∧ (Table.grow width key hashcode t).count + 1 <
      (Table.grow width key hashcode t).array.length ∧
      lookup key (Table.grow width key hashcode t) = lookup key t := by
  have hcount : (fresh (t.size + 1) : Table α).count = 0 := rfl
  have hslots := lt_hashArraySlots (t.size + 1)
  have hroom : (fresh (t.size + 1) : Table α).count + t.entries.length <
      (fresh (t.size + 1) : Table α).array.length := by
    rw [hcount, ← h.size_eq, length_fresh]
    omega
  have h₀ : (fresh (t.size + 1) : Table α).Inv key hashcode := inv_fresh _
  obtain ⟨h₁, hc₁, hl₁, hf₁⟩ := h₀.insertAll hw t.entries hroom
  refine ⟨h₁, ?_, ?_⟩
  · rw [Table.grow, hl₁, length_fresh]
    rw [hcount, ← h.size_eq] at hc₁
    omega
  · rw [Table.grow, hf₁, lookup_of_empty (getD_fresh _), h.lookup_eq_foldl]

omit [DecidableEq K] in
theorem Inv.collect_eq (h : t.Inv key hashcode) {β : Type*} (f : α → β) :
    t.collect f = t.entries.map (some ∘ f) := by
  have hl := foldl_set_succ (fun a => some (f a)) t.entries [] (List.replicate t.size none)
    (by rw [List.length_replicate, h.size_eq])
  rw [collect]
  simp only [List.nil_append, List.length_nil] at hl
  rw [hl, h.size_eq, List.drop_replicate, Nat.sub_self, List.replicate_zero, List.append_nil]
  rfl

end Operations

section Presizing

variable {t : Table α} {c : Nat} (hw : width = 1 ∨ width = 2)

omit [DecidableEq K] in
theorem Inv.getD_ne_tombstone (h : t.Inv key hashcode) (hd : t.deleted = 0) (i : Nat) :
    t.array.getD i .empty ≠ .tombstone := by
  intro hs
  have hzero : t.array.countP Slot.deletedP = 0 := h.deleted_eq.symm.trans hd
  have hi : i < t.array.length := by
    by_contra hi
    rw [List.getD_eq_default _ _ (Nat.le_of_not_lt hi)] at hs
    cases hs
  rw [List.getD_eq_getElem _ _ hi] at hs
  exact List.countP_eq_zero.mp hzero _ (List.getElem_mem hi) (by rw [hs]; rfl)

include hw in
theorem Inv.insert_of_absent (h : t.Inv key hashcode) (hd : t.deleted = 0) {a : α}
    (hk : lookup key t (key a) = none) :
    (Table.insert width key hashcode t a).count = t.count + 1 ∧ (Table.insert width key hashcode t a).deleted = 0 := by
  obtain ⟨i, ht, heq⟩ := h.insert_eq hw a
  have hempty : t.array.getD i .empty = .empty := by
    cases hs : t.array.getD i .empty with
    | empty => rfl
    | tombstone => exact absurd hs (h.getD_ne_tombstone hd i)
    | full b => exact absurd (ht.same b hs) (lookup_eq_none_iff.mp hk i b hs)
  rw [heq, Table.writeFull, hempty]
  simp [hd]

theorem absent_of_update {f : K → Option α} {a : α} {l : List α} (hnew : key a ∉ l.map key)
    (habsent : ∀ b ∈ a :: l, f (key b) = none) : ∀ b ∈ l, Function.update f (key a) (some a) (key b) = none := by
  intro b hb
  have hne : key b ≠ key a := fun heq => hnew (heq ▸ List.mem_map_of_mem hb)
  rw [Function.update_of_ne hne]
  exact habsent b (List.mem_cons_of_mem _ hb)

include hw in
theorem Inv.insertAll_of_absent (h : t.Inv key hashcode) (hd : t.deleted = 0) (l : List α)
    (hnodup : (l.map key).Nodup) (habsent : ∀ a ∈ l, lookup key t (key a) = none)
    (hroom : t.count + l.length < t.array.length) :
    (Table.insertAll width key hashcode t l).count = t.count + l.length ∧
      (Table.insertAll width key hashcode t l).deleted = 0 := by
  induction l generalizing t with
  | nil => exact ⟨rfl, hd⟩
  | cons a l ih =>
    have hcons : Table.insertAll width key hashcode t (a :: l) =
        Table.insertAll width key hashcode (Table.insert width key hashcode t a) l := rfl
    rw [List.map_cons, List.nodup_cons] at hnodup
    rw [List.length_cons] at hroom ⊢
    have hroom₁ : t.count + 1 < t.array.length := by omega
    obtain ⟨hc, hd₁⟩ := h.insert_of_absent hw hd (habsent a List.mem_cons_self)
    have habsent₁ : ∀ b ∈ l, lookup key (Table.insert width key hashcode t a) (key b) = none := by
      rw [h.lookup_insert hw hroom₁ a]
      exact absent_of_update hnodup.1 habsent
    obtain ⟨hc₂, hd₂⟩ := ih (h.insert hw hroom₁ a) hd₁ hnodup.2 habsent₁ (by rw [length_insert, hc]; omega)
    rw [hcons, hc₂, hc]
    exact ⟨by omega, hd₂⟩

include hw in
theorem Inv.grow_count (h : t.Inv key hashcode) :
    (Table.grow width key hashcode t).count = t.size ∧ (Table.grow width key hashcode t).deleted = 0 ∧
      (Table.grow width key hashcode t).array.length = hashArraySlots (t.size + 1) := by
  have h₀ : (fresh (t.size + 1) : Table α).Inv key hashcode := inv_fresh _
  have hslots := lt_hashArraySlots (t.size + 1)
  have hroom : (fresh (t.size + 1) : Table α).count + t.entries.length <
      (fresh (t.size + 1) : Table α).array.length := by
    rw [show (fresh (t.size + 1) : Table α).count = 0 from rfl, ← h.size_eq, length_fresh]
    omega
  have habsent : ∀ a ∈ t.entries, lookup key (fresh (t.size + 1) : Table α) (key a) = none := by
    intro a _
    rw [lookup_of_empty (getD_fresh _)]
  obtain ⟨hc, hd⟩ := h₀.insertAll_of_absent hw rfl t.entries h.nodup_keys habsent hroom
  obtain ⟨-, -, hl, -⟩ := h₀.insertAll hw t.entries hroom
  refine ⟨?_, hd, ?_⟩
  · rw [Table.grow, hc, h.size_eq]
    exact Nat.zero_add _
  · rw [Table.grow, hl, length_fresh]

variable (key hashcode) in
/-- A table after `c` new keys were stored one by one from `<hash-array> 0`:
no tombstones, `count` is `c`, and the slots are those `<hash-array> c` makes. -/
structure Presized (t : Table α) (c : Nat) : Prop where
  inv : t.Inv key hashcode
  deleted_eq : t.deleted = 0
  count_eq : t.count = c
  length_eq : t.array.length = hashArraySlots c

omit [DecidableEq K] in
theorem presized_fresh : (fresh 0 : Table α).Presized key hashcode 0 :=
  ⟨inv_fresh 0, rfl, rfl, length_fresh 0⟩

include hw in
theorem Presized.insertGrowing (h : t.Presized key hashcode c) {a : α} (hk : lookup key t (key a) = none) :
    (Table.insertGrowing width key hashcode t a).Presized key hashcode (c + 1) ∧
      lookup key (Table.insertGrowing width key hashcode t a) = Function.update (lookup key t) (key a) (some a) := by
  have hsize : t.size = c := by
    rw [size, h.deleted_eq, h.count_eq]
    rfl
  unfold Table.insertGrowing
  split
  · obtain ⟨hinv, hroom, hlookup⟩ := h.inv.grow hw
    obtain ⟨hc, hd, hl⟩ := h.inv.grow_count hw
    rw [← hlookup] at hk
    obtain ⟨hc₁, hd₁⟩ := hinv.insert_of_absent hw hd hk
    refine ⟨⟨hinv.insert hw hroom a, hd₁, by rw [hc₁, hc, hsize], by rw [length_insert, hl, hsize]⟩, ?_⟩
    rw [hinv.lookup_insert hw hroom a, hlookup]
  · rename_i hsmall
    have hroom : t.count + 1 < t.array.length := by omega
    have hslots : hashArraySlots (c + 1) = hashArraySlots c :=
      hashArraySlots_succ (by rw [← h.length_eq, ← h.count_eq]; omega)
    obtain ⟨hc₁, hd₁⟩ := h.inv.insert_of_absent hw h.deleted_eq hk
    exact ⟨⟨h.inv.insert hw hroom a, hd₁, by rw [hc₁, h.count_eq], by rw [length_insert, h.length_eq, hslots]⟩,
      h.inv.lookup_insert hw hroom a⟩

include hw in
theorem Presized.foldl (h : t.Presized key hashcode c) (l : List α) (hnodup : (l.map key).Nodup)
    (habsent : ∀ a ∈ l, lookup key t (key a) = none) :
    (l.foldl (Table.insertGrowing width key hashcode) t).Presized key hashcode (c + l.length) := by
  induction l generalizing t c with
  | nil => exact h
  | cons a l ih =>
    rw [List.map_cons, List.nodup_cons] at hnodup
    obtain ⟨h₁, hlookup⟩ := h.insertGrowing hw (habsent a List.mem_cons_self)
    have habsent₁ : ∀ b ∈ l, lookup key (Table.insertGrowing width key hashcode t a) (key b) = none := by
      rw [hlookup]
      exact absent_of_update hnodup.1 habsent
    have hlen : c + (a :: l).length = c + 1 + l.length := by
      rw [List.length_cons]
      omega
    rw [List.foldl_cons, hlen]
    exact ih h₁ hnodup.2 habsent₁

end Presizing

end Table

end FactorProofs.Core
