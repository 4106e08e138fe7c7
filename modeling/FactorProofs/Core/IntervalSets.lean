import FactorProofs.Core.Sorting
import FactorProofs.Core.BinarySearch

namespace FactorProofs.Core.IntervalSets

open FactorProofs.Core.BinarySearch FactorProofs.Core.Sorting

/-! `interval-sets`: a set of naturals as a flat array of half-open boundaries
`s0 e0 s1 e1 ...`. The `uint-array` is a list of naturals: the values the
specifications give stay below `2 ^ 32`, so no store wraps. -/

structure IntervalSet where
  array : List Nat
  deriving DecidableEq, Repr

/-- `interval-in?`: the index `search` lands on tells whether the key sits at a
start (even) or before an end (odd). -/
def intervalIn (key : Int) (set : IntervalSet) : Bool :=
  match search set.array (fun elt => compare key (elt : Int)) with
  | some (i, elt) => if i % 2 = 0 then decide (key ≥ elt) else decide (key ≤ (elt : Int) - 1)
  | none => false

/-- An element of a specification: a number, or an inclusive pair. -/
inductive SpecElement
  | number (n : Nat)
  | pair (a b : Nat)
  deriving DecidableEq, Repr

/-- `spec>pairs` -/
def specToPairs (sequence : List SpecElement) : List (Nat × Nat) :=
  sequence.map fun
    | .number n => (n, n)
    | .pair a b => (a, b)

/-- `delete-redundancies`: where a boundary is not below the next, both go. -/
def deleteRedundancies : List Nat → List Nat
  | [] => []
  | [a] => [a]
  | a :: b :: rest => if a < b then a :: deleteRedundancies (b :: rest) else deleteRedundancies rest

/-- `make-intervals` -/
def makeIntervals (seq : List Nat) : IntervalSet := ⟨deleteRedundancies seq⟩

/-- `>intervals`: each inclusive pair becomes its half-open boundaries. -/
def toIntervals (seq : List (Nat × Nat)) : List Nat := seq.flatMap fun p => [p.1, p.2 + 1]

/-- `<interval-set>` -/
def intervalSet (specification : List SpecElement) : IntervalSet :=
  makeIntervals (toIntervals (sortKeys (specToPairs specification)))

/-- `or-step`: emit the first set's start, and its end when the second set
starts after it, else the second set's end with the second set's first
interval dropped. The rests come back in the other order. `none` where
`second` or `tail-slice` runs off a set. -/
def orStep (set1 set2 : List Nat) : Option (List Nat × List Nat × List Nat) := do
  let s1 ← set1[0]?
  let e1 ← set1[1]?
  let s2 ← set2[0]?
  if e1 ≤ s2 then pure ([s1, e1], set2, set1.drop 2)
  else
    let e2 ← set2[1]?
    pure ([s1, e2], set2.drop 2, set1.drop 2)

/-- `combine-or`, with what it emits returned; the set with the smaller start
goes first. Every step drops two boundaries, so the lengths bound the steps. -/
def combineOrFrom : Nat → List Nat → List Nat → Option (List Nat)
  | _, [], set2 => some set2
  | _, set1, [] => some set1
  | 0, _, _ => none
  | fuel + 1, s1 :: set1, s2 :: set2 =>
    let (a, b) := if s1 ≤ s2 then (s1 :: set1, s2 :: set2) else (s2 :: set2, s1 :: set1)
    (orStep a b).bind fun (out, set1', set2') => (combineOrFrom fuel set1' set2').map (out ++ ·)

def combineOr (set1 set2 : List Nat) : Option (List Nat) :=
  combineOrFrom (set1.length + set2.length) set1 set2

/-- `<interval-or>` -/
def intervalOr (set1 set2 : IntervalSet) : Option IntervalSet :=
  (combineOr set1.array set2.array).map makeIntervals

/-- `prefix-0`: a leading 0 goes, else one is put in front. -/
def prefix0 (seq : List Nat) : List Nat :=
  if seq[0]? = some 0 then seq.tail else 0 :: seq

/-- `interval-max` -/
def intervalMax (set1 set2 : IntervalSet) : Nat :=
  max (set1.array.getLast?.getD 0) (set2.array.getLast?.getD 0)

/-- `<interval-not>` -/
def intervalNot (set : IntervalSet) (maximum : Nat) : IntervalSet :=
  makeIntervals (prefix0 set.array ++ [maximum])

/-- `<interval-and>`: De Morgan through `<interval-not>` below the larger of
the two last boundaries. -/
def intervalAnd (set1 set2 : IntervalSet) : Option IntervalSet :=
  let m := intervalMax set1 set2
  (intervalOr (intervalNot set1 m) (intervalNot set2 m)).map (intervalNot · m)

/-- `k` lies in one of the half-open intervals `[s_m, e_m)` of the array. -/
def Mem (array : List Nat) (k : Int) : Prop :=
  ∃ m, 2 * m + 1 < array.length ∧ (array.getD (2 * m) 0 : Int) ≤ k ∧ k < array.getD (2 * m + 1) 0

/-- An array of boundaries as `<interval-set>` means it: increasing, and
starts paired with ends. -/
structure WellFormed (array : List Nat) : Prop where
  sorted : array.Pairwise (· < ·)
  even : array.length % 2 = 0

/-- What an element of a specification lists. -/
def SpecElement.Contains : SpecElement → Int → Prop
  | .number n, k => k = n
  | .pair a b, k => a ≤ k ∧ k ≤ b

instance : ∀ e k, Decidable (SpecElement.Contains e k)
  | .number n, k => inferInstanceAs (Decidable (k = n))
  | .pair a b, k => inferInstanceAs (Decidable ((a : Int) ≤ k ∧ k ≤ b))

/-- A pair is listed with its start first. -/
def SpecElement.Valid : SpecElement → Prop
  | .number _ => True
  | .pair a b => a ≤ b

@[simp]
theorem not_mem_nil (k : Int) : ¬Mem [] k := by
  rintro ⟨m, hm, -⟩
  exact absurd hm (Nat.not_lt_zero _)

@[simp]
theorem not_mem_singleton (a : Nat) (k : Int) : ¬Mem [a] k := by
  rintro ⟨m, hm, -⟩
  simp at hm

@[simp]
theorem mem_cons_cons {a b : Nat} {l : List Nat} {k : Int} :
    Mem (a :: b :: l) k ↔ (a ≤ k ∧ k < b) ∨ Mem l k := by
  constructor
  · rintro ⟨_ | m, hm, hs, he⟩
    · exact Or.inl ⟨hs, he⟩
    · rw [show 2 * (m + 1) = 2 * m + 1 + 1 by omega, List.getD_cons_succ, List.getD_cons_succ] at hs he
      exact Or.inr ⟨m, by simp at hm; omega, hs, he⟩
  · rintro (⟨hs, he⟩ | ⟨m, hm, hs, he⟩)
    · exact ⟨0, by simp, hs, he⟩
    · refine ⟨m + 1, by simp; omega, ?_, ?_⟩
      · rwa [show 2 * (m + 1) = 2 * m + 1 + 1 by omega, List.getD_cons_succ, List.getD_cons_succ]
      · rwa [show 2 * (m + 1) + 1 = 2 * m + 1 + 1 + 1 by omega, List.getD_cons_succ, List.getD_cons_succ]

section Search

variable {array : List Nat} {key : Int}

theorem getD_lt_getD (h : array.Pairwise (· < ·)) {j k : Nat} (hjk : j < k) (hk : k < array.length) :
    array.getD j 0 < array.getD k 0 := by
  rw [List.getD_eq_getElem?_getD, List.getD_eq_getElem?_getD, List.getElem?_eq_getElem (by omega),
    List.getElem?_eq_getElem hk]
  exact List.pairwise_iff_getElem.mp h j k (by omega) hk hjk

theorem monotone_compare (h : array.Pairwise (· < ·)) :
    Monotone array fun elt => compare key (elt : Int) := by
  intro j k hjk hk hne
  rw [show (default : Nat) = 0 from rfl] at hne ⊢
  rw [ne_eq, Int.compare_eq_lt, not_lt] at hne
  have := getD_lt_getD h hjk hk
  rw [Int.compare_eq_gt]
  omega

theorem mem_iff_of_pivot (hwf : WellFormed array) {i : Nat} (hi : i < array.length)
    (hb : ∀ j, j < i → (array.getD j 0 : Int) < key) (ha : ∀ j, i < j → j < array.length → key < array.getD j 0) :
    Mem array key ↔ if i % 2 = 0 then (array.getD i 0 : Int) ≤ key else key < array.getD i 0 := by
  have heven := hwf.even
  split
  · constructor
    · rintro ⟨m, hm, h1, h2⟩
      rcases lt_trichotomy (2 * m) i with hlt | heq | hgt
      · have := hb (2 * m + 1) (by omega)
        omega
      · rwa [← heq]
      · have := ha (2 * m) hgt (by omega)
        omega
    · intro hk
      refine ⟨i / 2, by omega, by rwa [show 2 * (i / 2) = i by omega], ?_⟩
      exact ha _ (by omega) (by omega)
  · constructor
    · rintro ⟨m, hm, h1, h2⟩
      rcases lt_trichotomy (2 * m + 1) i with hlt | heq | hgt
      · have := hb (2 * m + 1) hlt
        omega
      · rwa [← heq]
      · have := ha (2 * m) (by omega) (by omega)
        omega
    · intro hk
      refine ⟨i / 2, by omega, ?_, by rwa [show 2 * (i / 2) + 1 = i by omega]⟩
      exact le_of_lt (hb _ (by omega))

theorem intervalIn_iff_mem {set : IntervalSet} (hwf : WellFormed set.array) :
    intervalIn key set = true ↔ Mem set.array key := by
  obtain ⟨array⟩ := set
  by_cases hnil : array = []
  · subst hnil
    simp [intervalIn, search_nil]
  have hmono : Monotone array fun elt => compare key (elt : Int) := monotone_compare hwf.sorted
  obtain ⟨i, hsearch, hi, hb, ha⟩ := search_spec hmono hnil
  rw [mem_iff_of_pivot hwf hi (fun j hj => Int.compare_eq_gt.mp (hb j hj))
    (fun j hj hjl => Int.compare_eq_lt.mp (ha j hj hjl)), intervalIn, hsearch]
  dsimp only
  rw [show (default : Nat) = 0 from rfl]
  split
  · simp only [ge_iff_le, decide_eq_true_eq]
  · simp only [decide_eq_true_eq]
    omega

end Search

section Redundancies

variable {ps : List (Nat × Nat)} {s e : Nat}

theorem deleteRedundancies_cons_cons_of_lt {a b : Nat} {rest : List Nat} (h : a < b) :
    deleteRedundancies (a :: b :: rest) = a :: deleteRedundancies (b :: rest) := by
  rw [deleteRedundancies, if_pos h]

theorem deleteRedundancies_cons_cons_of_le {a b : Nat} {rest : List Nat} (h : b ≤ a) :
    deleteRedundancies (a :: b :: rest) = deleteRedundancies rest := by
  rw [deleteRedundancies, if_neg (Nat.not_lt.mpr h)]

@[simp]
theorem toIntervals_nil : toIntervals [] = [] := rfl

@[simp]
theorem toIntervals_cons (p : Nat × Nat) (ps : List (Nat × Nat)) :
    toIntervals (p :: ps) = p.1 :: (p.2 + 1) :: toIntervals ps := rfl

theorem mem_open_nil {k : Int} : Mem (s :: deleteRedundancies (e :: toIntervals [])) k ↔ s ≤ k ∧ k < e := by
  simp [deleteRedundancies]

theorem deleteRedundancies_open_sorted (hse : s < e) (hord : ∀ p ∈ ps, p.1 ≤ p.2)
    (hsorted : ps.Pairwise fun p q => p.1 ≤ q.1) (hs : ∀ p ∈ ps, s ≤ p.1) :
    (∀ x ∈ deleteRedundancies (e :: toIntervals ps), s < x) ∧
      (deleteRedundancies (e :: toIntervals ps)).Pairwise (· < ·) ∧
      (deleteRedundancies (e :: toIntervals ps)).length % 2 = 1 := by
  induction ps generalizing s e with
  | nil => simp [deleteRedundancies, hse]
  | cons p ps ih =>
    rw [List.pairwise_cons] at hsorted
    have hp : p.1 ≤ p.2 := hord p List.mem_cons_self
    have hord' : ∀ q ∈ ps, q.1 ≤ q.2 := fun q hq => hord q (List.mem_cons_of_mem _ hq)
    have hsp : s ≤ p.1 := hs p List.mem_cons_self
    rw [toIntervals_cons]
    by_cases he : e < p.1
    · -- the interval closes at `e`, and the next opens at `p.1`
      obtain ⟨hab, hsort, hlen⟩ := ih (s := p.1) (e := p.2 + 1) (by omega) hord' hsorted.2 hsorted.1
      rw [deleteRedundancies_cons_cons_of_lt he, deleteRedundancies_cons_cons_of_lt (by omega : p.1 < p.2 + 1)]
      refine ⟨?_, ?_, by simp only [List.length_cons]; omega⟩
      · intro x hx
        rcases List.mem_cons.mp hx with rfl | hx
        · exact hse
        rcases List.mem_cons.mp hx with rfl | hx
        · omega
        · have := hab x hx
          omega
      · rw [List.pairwise_cons, List.pairwise_cons]
        refine ⟨fun x hx => ?_, hab, hsort⟩
        rcases List.mem_cons.mp hx with rfl | hx
        · exact he
        · have := hab x hx
          omega
    · -- the interval runs on to `p.2 + 1`
      rw [deleteRedundancies_cons_cons_of_le (by omega : p.1 ≤ e)]
      exact ih (by omega) hord' hsorted.2 fun q hq => hs q (List.mem_cons_of_mem _ hq)

theorem mem_deleteRedundancies_open (hord : ∀ p ∈ ps, p.1 ≤ p.2) {k : Int}
    (hk : Mem (s :: deleteRedundancies (e :: toIntervals ps)) k) :
    (s ≤ k ∧ k < e) ∨ ∃ p ∈ ps, p.1 ≤ k ∧ k ≤ p.2 := by
  induction ps generalizing s e with
  | nil => exact Or.inl (mem_open_nil.mp hk)
  | cons p ps ih =>
    have hp : p.1 ≤ p.2 := hord p List.mem_cons_self
    have hord' : ∀ q ∈ ps, q.1 ≤ q.2 := fun q hq => hord q (List.mem_cons_of_mem _ hq)
    rw [toIntervals_cons] at hk
    by_cases he : e < p.1
    · rw [deleteRedundancies_cons_cons_of_lt he, deleteRedundancies_cons_cons_of_lt (by omega : p.1 < p.2 + 1),
        mem_cons_cons] at hk
      rcases hk with hk | hk
      · exact Or.inl hk
      rcases ih hord' hk with hk | ⟨q, hq, hk⟩
      · exact Or.inr ⟨p, List.mem_cons_self, hk.1, by omega⟩
      · exact Or.inr ⟨q, List.mem_cons_of_mem _ hq, hk⟩
    · rw [deleteRedundancies_cons_cons_of_le (by omega : p.1 ≤ e)] at hk
      rcases ih hord' hk with hk | ⟨q, hq, hk⟩
      · -- past `e` the key lies in `p`, which starts before `e`
        by_cases hke : k < e
        · exact Or.inl ⟨hk.1, hke⟩
        · exact Or.inr ⟨p, List.mem_cons_self, by omega, by omega⟩
      · exact Or.inr ⟨q, List.mem_cons_of_mem _ hq, hk⟩

theorem mem_deleteRedundancies_open_of_ends (hord : ∀ p ∈ ps, p.1 ≤ p.2)
    (hends : ps.Pairwise fun p q => p.1 ≤ q.1 ∧ p.2 ≤ q.2) (hs : ∀ p ∈ ps, s ≤ p.1 ∧ e ≤ p.2 + 1) {k : Int}
    (hk : (s ≤ k ∧ k < e) ∨ ∃ p ∈ ps, p.1 ≤ k ∧ k ≤ p.2) :
    Mem (s :: deleteRedundancies (e :: toIntervals ps)) k := by
  induction ps generalizing s e with
  | nil =>
    rcases hk with hk | ⟨q, hq, -⟩
    · exact mem_open_nil.mpr hk
    · exact absurd hq List.not_mem_nil
  | cons p ps ih =>
    rw [List.pairwise_cons] at hends
    have hp : p.1 ≤ p.2 := hord p List.mem_cons_self
    have hord' : ∀ q ∈ ps, q.1 ≤ q.2 := fun q hq => hord q (List.mem_cons_of_mem _ hq)
    have hsp : s ≤ p.1 := (hs p List.mem_cons_self).1
    have hep : e ≤ p.2 + 1 := (hs p List.mem_cons_self).2
    have hnext : ∀ q ∈ ps, p.1 ≤ q.1 ∧ p.2 + 1 ≤ q.2 + 1 := fun q hq => by
      have := hends.1 q hq
      omega
    rw [toIntervals_cons]
    by_cases he : e < p.1
    · rw [deleteRedundancies_cons_cons_of_lt he, deleteRedundancies_cons_cons_of_lt (by omega : p.1 < p.2 + 1),
        mem_cons_cons]
      rcases hk with hk | ⟨q, hq, hk⟩
      · exact Or.inl hk
      right
      apply ih hord' hends.2 hnext
      rcases List.mem_cons.mp hq with rfl | hq
      · exact Or.inl ⟨hk.1, by omega⟩
      · exact Or.inr ⟨q, hq, hk⟩
    · -- the larger end is `p.2 + 1`, so taking it loses nothing
      rw [deleteRedundancies_cons_cons_of_le (by omega : p.1 ≤ e)]
      apply ih hord' hends.2 fun q hq => ⟨le_trans hsp (hnext q hq).1, (hnext q hq).2⟩
      rcases hk with hk | ⟨q, hq, hk⟩
      · exact Or.inl ⟨hk.1, by omega⟩
      rcases List.mem_cons.mp hq with rfl | hq
      · exact Or.inl ⟨by omega, by omega⟩
      · exact Or.inr ⟨q, hq, hk⟩

theorem wellFormed_deleteRedundancies (hord : ∀ p ∈ ps, p.1 ≤ p.2) (hsorted : ps.Pairwise fun p q => p.1 ≤ q.1) :
    WellFormed (deleteRedundancies (toIntervals ps)) := by
  cases ps with
  | nil => exact ⟨List.Pairwise.nil, rfl⟩
  | cons p ps =>
    rw [List.pairwise_cons] at hsorted
    have hp : p.1 ≤ p.2 := hord p List.mem_cons_self
    obtain ⟨hab, hsort, hlen⟩ := deleteRedundancies_open_sorted (s := p.1) (e := p.2 + 1) (by omega)
      (fun q hq => hord q (List.mem_cons_of_mem _ hq)) hsorted.2 hsorted.1
    rw [toIntervals_cons, deleteRedundancies_cons_cons_of_lt (by omega : p.1 < p.2 + 1)]
    exact ⟨List.Pairwise.cons hab hsort, by simp only [List.length_cons]; omega⟩

theorem mem_deleteRedundancies (hord : ∀ p ∈ ps, p.1 ≤ p.2) {k : Int}
    (hk : Mem (deleteRedundancies (toIntervals ps)) k) : ∃ p ∈ ps, p.1 ≤ k ∧ k ≤ p.2 := by
  cases ps with
  | nil => exact absurd hk (not_mem_nil k)
  | cons p ps =>
    have hp : p.1 ≤ p.2 := hord p List.mem_cons_self
    rw [toIntervals_cons, deleteRedundancies_cons_cons_of_lt (by omega : p.1 < p.2 + 1)] at hk
    rcases mem_deleteRedundancies_open (fun q hq => hord q (List.mem_cons_of_mem _ hq)) hk with hk | ⟨q, hq, hk⟩
    · exact ⟨p, List.mem_cons_self, hk.1, by omega⟩
    · exact ⟨q, List.mem_cons_of_mem _ hq, hk⟩

theorem mem_deleteRedundancies_of_ends (hord : ∀ p ∈ ps, p.1 ≤ p.2)
    (hends : ps.Pairwise fun p q => p.1 ≤ q.1 ∧ p.2 ≤ q.2) {k : Int} (hk : ∃ p ∈ ps, p.1 ≤ k ∧ k ≤ p.2) :
    Mem (deleteRedundancies (toIntervals ps)) k := by
  cases ps with
  | nil =>
    obtain ⟨q, hq, -⟩ := hk
    exact absurd hq List.not_mem_nil
  | cons p ps =>
    rw [List.pairwise_cons] at hends
    have hp : p.1 ≤ p.2 := hord p List.mem_cons_self
    rw [toIntervals_cons, deleteRedundancies_cons_cons_of_lt (by omega : p.1 < p.2 + 1)]
    refine mem_deleteRedundancies_open_of_ends (fun q hq => hord q (List.mem_cons_of_mem _ hq)) hends.2
      (fun q hq => by have := hends.1 q hq; omega) ?_
    obtain ⟨q, hq, hk⟩ := hk
    rcases List.mem_cons.mp hq with rfl | hq
    · exact Or.inl ⟨hk.1, by omega⟩
    · exact Or.inr ⟨q, hq, hk⟩

end Redundancies

section Specification

variable {spec : List SpecElement}

theorem ordered_specToPairs (hvalid : ∀ x ∈ spec, x.Valid) : ∀ p ∈ specToPairs spec, p.1 ≤ p.2 := by
  intro p hp
  obtain ⟨x, hx, rfl⟩ := List.mem_map.mp hp
  have := hvalid x hx
  cases x with
  | number n => exact Nat.le_refl n
  | pair a b => exact this

theorem exists_specToPairs_iff {k : Int} :
    (∃ p ∈ specToPairs spec, (p.1 : Int) ≤ k ∧ k ≤ p.2) ↔ ∃ x ∈ spec, x.Contains k := by
  constructor
  · rintro ⟨p, hp, hk⟩
    obtain ⟨x, hx, rfl⟩ := List.mem_map.mp hp
    refine ⟨x, hx, ?_⟩
    cases x with
    | number n => exact show k = n by dsimp only at hk; omega
    | pair a b => exact hk
  · rintro ⟨x, hx, hk⟩
    refine ⟨_, List.mem_map_of_mem hx, ?_⟩
    cases x with
    | number n => exact show (n : Int) ≤ k ∧ k ≤ n by rw [show k = n from hk]; omega
    | pair a b => exact hk

theorem mem_sortKeys {ps : List (Nat × Nat)} {p : Nat × Nat} : p ∈ sortKeys ps ↔ p ∈ ps :=
  (stablySorts_sortKeys ps).perm.mem_iff

theorem sorted_sortKeys (ps : List (Nat × Nat)) : (sortKeys ps).Pairwise fun p q => p.1 ≤ q.1 :=
  (stablySorts_sortKeys ps).sorted.imp fun h => by rwa [ne_eq, compare_gt_iff_gt, not_lt] at h

theorem ordered_sortKeys (hvalid : ∀ x ∈ spec, x.Valid) : ∀ p ∈ sortKeys (specToPairs spec), p.1 ≤ p.2 :=
  fun p hp => ordered_specToPairs hvalid p (mem_sortKeys.mp hp)

theorem intervalSet_wellFormed (hvalid : ∀ x ∈ spec, x.Valid) : WellFormed (intervalSet spec).array :=
  wellFormed_deleteRedundancies (ordered_sortKeys hvalid) (sorted_sortKeys _)

theorem intervalIn_intervalSet_sound (hvalid : ∀ x ∈ spec, x.Valid) {k : Int}
    (h : intervalIn k (intervalSet spec) = true) : ∃ x ∈ spec, x.Contains k := by
  rw [intervalIn_iff_mem (intervalSet_wellFormed hvalid)] at h
  obtain ⟨p, hp, hk⟩ := mem_deleteRedundancies (ordered_sortKeys hvalid) h
  exact exists_specToPairs_iff.mp ⟨p, mem_sortKeys.mp hp, hk⟩

theorem intervalIn_intervalSet_iff (hvalid : ∀ x ∈ spec, x.Valid)
    (hends : ∀ p ∈ specToPairs spec, ∀ q ∈ specToPairs spec, p.1 ≤ q.1 → p.2 ≤ q.2) {k : Int} :
    intervalIn k (intervalSet spec) = true ↔ ∃ x ∈ spec, x.Contains k := by
  refine ⟨intervalIn_intervalSet_sound hvalid, fun h => ?_⟩
  rw [intervalIn_iff_mem (intervalSet_wellFormed hvalid)]
  obtain ⟨p, hp, hk⟩ := exists_specToPairs_iff.mpr h
  have hsorted : (sortKeys (specToPairs spec)).Pairwise fun p q => p.1 ≤ q.1 ∧ p.2 ≤ q.2 :=
    (sorted_sortKeys (specToPairs spec)).imp_of_mem fun ha hb hab =>
    ⟨hab, hends _ (mem_sortKeys.mp ha) _ (mem_sortKeys.mp hb) hab⟩
  exact mem_deleteRedundancies_of_ends (ordered_sortKeys hvalid) hsorted ⟨p, mem_sortKeys.mpr hp, hk⟩

end Specification

section Complement

theorem Mem.exists_le {l : List Nat} {k : Int} (h : Mem l k) : ∃ x ∈ l, (x : Int) ≤ k := by
  obtain ⟨m, hm, hs, -⟩ := h
  refine ⟨l.getD (2 * m) 0, ?_, hs⟩
  rw [List.getD_eq_getElem?_getD, List.getElem?_eq_getElem (by omega)]
  exact List.getElem_mem _

theorem deleteRedundancies_of_pairwise : ∀ {l : List Nat}, l.Pairwise (· < ·) → deleteRedundancies l = l
  | [], _ => rfl
  | [_], _ => rfl
  | a :: b :: rest, h => by
    rw [deleteRedundancies_cons_cons_of_lt ((List.pairwise_cons.mp h).1 b List.mem_cons_self),
      deleteRedundancies_of_pairwise h.of_cons]

theorem deleteRedundancies_append_dup : ∀ {l : List Nat} {y : Nat}, (l ++ [y]).Pairwise (· < ·) →
    deleteRedundancies (l ++ [y, y]) = l
  | [], y, _ => by rw [List.nil_append, deleteRedundancies_cons_cons_of_le (Nat.le_refl y)]; rfl
  | [a], y, h => by
    have hay : a < y := (List.pairwise_cons.mp h).1 y List.mem_cons_self
    rw [List.singleton_append, deleteRedundancies_cons_cons_of_lt hay,
      deleteRedundancies_cons_cons_of_le (Nat.le_refl y)]
    rfl
  | a :: b :: l, y, h => by
    simp only [List.cons_append] at h ⊢
    rw [deleteRedundancies_cons_cons_of_lt ((List.pairwise_cons.mp h).1 b List.mem_cons_self),
      ← List.cons_append, deleteRedundancies_append_dup h.of_cons]

theorem mem_append_pair : ∀ {l : List Nat}, l.length % 2 = 0 → ∀ {a b : Nat} {k : Int},
    Mem (l ++ [a, b]) k ↔ Mem l k ∨ (a ≤ k ∧ k < b)
  | [], _, _, _, _ => by simp
  | [_], h, _, _, _ => absurd h (by simp)
  | x :: y :: l, h, a, b, k => by
    simp only [List.length_cons] at h
    rw [List.cons_append, List.cons_append, mem_cons_cons, mem_cons_cons, mem_append_pair (by omega), or_assoc]

theorem mem_gaps : ∀ (l : List Nat) {lo hi : Nat}, (lo :: (l ++ [hi])).Pairwise (· < ·) → l.length % 2 = 0 →
    ∀ {k : Int}, Mem (lo :: (l ++ [hi])) k ↔ (lo ≤ k ∧ k < hi) ∧ ¬Mem l k
  | [], _, _, _, _, _ => by simp
  | [_], _, _, _, h, _ => absurd h (by simp)
  | a :: b :: l, lo, hi, hsort, heven, k => by
    simp only [List.cons_append] at hsort ⊢
    simp only [List.length_cons] at heven
    have hl : ∀ x ∈ l ++ [hi], b < x := (List.pairwise_cons.mp hsort.of_cons.of_cons).1
    have hab : a < b := (List.pairwise_cons.mp hsort.of_cons).1 b List.mem_cons_self
    have hla : lo < a := (List.pairwise_cons.mp hsort).1 a List.mem_cons_self
    have hbhi : b < hi := hl hi (List.mem_append_right _ List.mem_cons_self)
    have hmem : Mem l k → (b : Int) < k := fun h => by
      obtain ⟨x, hx, hxk⟩ := h.exists_le
      have := hl x (List.mem_append_left _ hx)
      omega
    rw [mem_cons_cons, mem_gaps l hsort.of_cons.of_cons (by omega), mem_cons_cons]
    by_cases hm : Mem l k
    · have := hmem hm
      simp only [hm, not_true, or_true, and_false, or_false, iff_false]
      omega
    · simp only [hm, not_false_eq_true, or_false, and_true]
      omega

theorem prefix0_cons_zero (l : List Nat) : prefix0 (0 :: l) = l := by
  simp [prefix0]

theorem prefix0_cons_of_ne {a : Nat} (l : List Nat) (ha : a ≠ 0) : prefix0 (a :: l) = 0 :: a :: l := by
  simp [prefix0, ha]

theorem prefix0_append {l : List Nat} (r : List Nat) (hne : l ≠ []) : prefix0 (l ++ r) = prefix0 l ++ r := by
  cases l with
  | nil => exact absurd rfl hne
  | cons a l =>
    by_cases ha : a = 0
    · subst ha
      rw [List.cons_append, prefix0_cons_zero, prefix0_cons_zero]
    · rw [List.cons_append, prefix0_cons_of_ne _ ha, prefix0_cons_of_ne _ ha, List.cons_append, List.cons_append]

theorem length_prefix0 (l : List Nat) : (prefix0 l).length % 2 = (l.length + 1) % 2 := by
  cases l with
  | nil => rfl
  | cons a l =>
    by_cases ha : a = 0
    · subst ha
      rw [prefix0_cons_zero, List.length_cons]
      omega
    · rw [prefix0_cons_of_ne _ ha, List.length_cons, List.length_cons]

theorem pairwise_prefix0 {l : List Nat} {hi : Nat} (hhi : 0 < hi) (h : (l ++ [hi]).Pairwise (· < ·)) :
    (prefix0 l ++ [hi]).Pairwise (· < ·) := by
  cases l with
  | nil => simpa [prefix0] using hhi
  | cons a l =>
    by_cases ha : a = 0
    · subst ha
      rw [prefix0_cons_zero]
      exact h.of_cons
    · rw [prefix0_cons_of_ne _ ha, List.cons_append]
      refine List.Pairwise.cons (fun x hx => ?_) h
      rcases List.mem_cons.mp hx with rfl | hx
      · omega
      · have := (List.pairwise_cons.mp h).1 x hx
        omega

theorem mem_prefix0 {l : List Nat} {hi : Nat} (hhi : 0 < hi) (h : (l ++ [hi]).Pairwise (· < ·))
    (heven : l.length % 2 = 0) {k : Int} (hk : 0 ≤ k) : Mem (prefix0 l ++ [hi]) k ↔ k < hi ∧ ¬Mem l k := by
  cases l with
  | nil => simp [prefix0, hk]
  | cons a l =>
    by_cases ha : a = 0
    · subst ha
      cases l with
      | nil => simp at heven
      | cons b l =>
        simp only [List.length_cons] at heven
        simp only [List.cons_append] at h
        rw [prefix0_cons_zero, List.cons_append, mem_gaps l h.of_cons (by omega), mem_cons_cons]
        by_cases hm : Mem l k
        · simp [hm]
        · simp only [hm, not_false_eq_true, or_false, and_true]
          omega
    · have hp := pairwise_prefix0 hhi h
      rw [prefix0_cons_of_ne _ ha] at hp ⊢
      rw [List.cons_append, mem_gaps (a :: l) hp heven]
      simp [hk]

theorem intervalNot_of_lt {set : IntervalSet} {maximum : Nat} (hpos : 0 < maximum) (hwf : WellFormed set.array)
    (hlt : (set.array ++ [maximum]).Pairwise (· < ·)) :
    WellFormed (intervalNot set maximum).array ∧
      ∀ k : Int, 0 ≤ k → k < maximum → (Mem (intervalNot set maximum).array k ↔ ¬Mem set.array k) := by
  have hp := pairwise_prefix0 hpos hlt
  have harray : (intervalNot set maximum).array = prefix0 set.array ++ [maximum] :=
    deleteRedundancies_of_pairwise hp
  rw [harray]
  refine ⟨⟨hp, ?_⟩, fun k hk hkm => ?_⟩
  · have := length_prefix0 set.array
    have := hwf.even
    rw [List.length_append, List.length_singleton]
    omega
  · rw [mem_prefix0 hpos hlt hwf.even hk]
    exact and_iff_right hkm

theorem intervalNot_of_last {l : List Nat} {sn maximum : Nat} (hsort : (l ++ [sn, maximum]).Pairwise (· < ·))
    (heven : l.length % 2 = 0) :
    WellFormed (intervalNot ⟨l ++ [sn, maximum]⟩ maximum).array ∧
      ∀ k : Int, 0 ≤ k → k < maximum →
        (Mem (intervalNot ⟨l ++ [sn, maximum]⟩ maximum).array k ↔ ¬Mem (l ++ [sn, maximum]) k) := by
  have hsplit : l ++ [sn, maximum] = (l ++ [sn]) ++ [maximum] := by simp
  have hsn : (l ++ [sn]).Pairwise (· < ·) := (List.pairwise_append.mp (hsplit ▸ hsort)).1
  by_cases hzero : l = [] ∧ sn = 0
  · -- `{ 0 maximum }`: the complement is empty
    obtain ⟨rfl, rfl⟩ := hzero
    have harray : (intervalNot ⟨[0, maximum]⟩ maximum).array = [] := by
      show deleteRedundancies (prefix0 [0, maximum] ++ [maximum]) = []
      rw [prefix0_cons_zero, List.singleton_append, deleteRedundancies_cons_cons_of_le (Nat.le_refl _)]
      rfl
    rw [List.nil_append, harray]
    refine ⟨⟨List.Pairwise.nil, rfl⟩, fun k hk hkm => ?_⟩
    simp [hk, hkm]
  · have hne : l ≠ [] ∨ sn ≠ 0 := by
      by_cases hl : l = []
      · exact Or.inr fun h => hzero ⟨hl, h⟩
      · exact Or.inl hl
    have hsnmax : sn < maximum :=
      (List.pairwise_cons.mp (List.pairwise_append.mp hsort).2.1).1 maximum List.mem_cons_self
    have hpos : 0 < sn := by
      rcases hne with hne | hne
      · obtain ⟨a, l', rfl⟩ := List.exists_cons_of_ne_nil hne
        have := (List.pairwise_cons.mp hsn).1 sn (by simp)
        omega
      · omega
    have hpre : prefix0 (l ++ [sn, maximum]) ++ [maximum] = (prefix0 l ++ [sn]) ++ [maximum, maximum] := by
      by_cases hl : l = []
      · subst hl
        rw [List.nil_append, prefix0_cons_of_ne _ (by omega)]
        rfl
      · rw [prefix0_append _ hl]
        simp
    have hp : (prefix0 l ++ [sn] ++ [maximum]).Pairwise (· < ·) := by
      have : (prefix0 (l ++ [sn]) ++ [maximum]).Pairwise (· < ·) := pairwise_prefix0 (by omega) (hsplit ▸ hsort)
      by_cases hl : l = []
      · subst hl
        rwa [List.nil_append, prefix0_cons_of_ne _ (by omega)] at this
      · rwa [prefix0_append _ hl] at this
    have harray : (intervalNot ⟨l ++ [sn, maximum]⟩ maximum).array = prefix0 l ++ [sn] :=
      (congrArg deleteRedundancies hpre).trans (deleteRedundancies_append_dup hp)
    rw [harray]
    refine ⟨⟨(List.pairwise_append.mp hp).1, ?_⟩, fun k hk hkm => ?_⟩
    · have := length_prefix0 l
      rw [List.length_append, List.length_singleton]
      omega
    · rw [mem_prefix0 hpos hsn heven hk, mem_append_pair heven]
      by_cases hm : Mem l k
      · simp [hm]
      · simp only [hm, not_false_eq_true, and_true, false_or, not_and, not_lt]
        omega

end Complement

theorem intervalSet_of_length_le_two (spec : List SpecElement)
    (h : (sortPairs (fun a b : Nat × Nat => compare a.1 b.1) (specToPairs spec)).length ≤ 2) :
    intervalSet spec = makeIntervals (toIntervals (sortPairs (fun a b => compare a.1 b.1) (specToPairs spec))) := by
  rw [intervalSet, sortKeys, sortBy, sortWith_of_length_le_two _ _ h]

/-- `{ { 1 10 } { 2 3 } }` lists 5, but `<interval-set>` builds `{ 1 4 }`:
the flat boundaries `1 11 2 4` lose `11 2`. `<interval-or>` of `{ { 1 10 } }`
and `{ { 2 3 } }` builds the same, from `or-step` taking the end 4. And
`<interval-and>` of `{ 5 }` and `{ { 1 8 } }` builds `[1, 6)`, with 1 in it,
from the complements `0 5 6 9` and `0 1` combined to `0 1 6 9`. -/
theorem intervalSet_drops_nested_pairs :
    SpecElement.Contains (.pair 1 10) 5 ∧ intervalSet [.pair 1 10, .pair 2 3] = ⟨[1, 4]⟩ ∧
      intervalIn 5 (intervalSet [.pair 1 10, .pair 2 3]) = false ∧
      intervalIn 5 (intervalSet [.pair 1 10]) = true ∧
      intervalOr (intervalSet [.pair 1 10]) (intervalSet [.pair 2 3]) = some ⟨[1, 4]⟩ ∧
      intervalIn 1 (intervalSet [.number 5]) = false ∧
      intervalAnd (intervalSet [.number 5]) (intervalSet [.pair 1 8]) = some ⟨[1, 6]⟩ ∧
      intervalIn 1 ⟨[1, 6]⟩ = true := by
  rw [intervalSet_of_length_le_two [.pair 1 10, .pair 2 3] (by decide),
    intervalSet_of_length_le_two [.pair 1 10] (by decide), intervalSet_of_length_le_two [.pair 2 3] (by decide),
    intervalSet_of_length_le_two [.number 5] (by decide), intervalSet_of_length_le_two [.pair 1 8] (by decide)]
  decide

end FactorProofs.Core.IntervalSets
