import Mathlib.Data.Nat.Prime.Basic
import FactorProofs.Core.Ranges
import FactorProofs.Library.WordBitmap

namespace FactorProofs.Math.Erato

/-! math.primes.erato: a sieve of Eratosthenes over the 2-3-5 wheel. Each byte
stands for thirty numbers and holds one bit for each of the eight residues
prime to 30; `masks` gives the bit of a residue, or none. The sieve clears,
for each marked odd `i` up to the root of the bound, the odd multiples of `i`
from `i * i`. -/

def masks : List (Option (BitVec 8)) :=
  [none, some 128#8, none, none, none, none, none, some 64#8, none, none, none, some 32#8, none,
    some 16#8, none, none, none, some 8#8, none, some 4#8, none, none, none, some 2#8, none, none,
    none, none, none, some 1#8]

def bitPos (n : ℕ) : ℕ × Option (BitVec 8) := (n / 30, masks.getD (n % 30) none)

def markedUnsafe (n : ℕ) (sieve : List (BitVec 8)) : Bool :=
  match (bitPos n).2 with
  | some mask => sieve.getD (bitPos n).1 0 &&& mask != 0
  | none => false

def unmark (n : ℕ) (sieve : List (BitVec 8)) : List (BitVec 8) :=
  match (bitPos n).2 with
  | some mask => sieve.modify (bitPos n).1 fun x => x &&& ~~~mask
  | none => sieve

def upperBound (sieve : List (BitVec 8)) : ℕ := sieve.length * 30 - 1

/-- The while loop of unmark-multiples, at `j`, with enough fuel. -/
def unmarkMultiplesLoop (i upper : ℕ) : ℕ → ℕ → List (BitVec 8) → List (BitVec 8)
  | 0, _, sieve => sieve
  | fuel + 1, j, sieve =>
    if j ≤ upper then unmarkMultiplesLoop i upper fuel (j + 2 * i) (unmark j sieve) else sieve

def unmarkMultiples (i upper : ℕ) (sieve : List (BitVec 8)) : List (BitVec 8) :=
  unmarkMultiplesLoop i upper (upper + 1) (i * i) sieve

def initSieve (n : ℕ) : List (BitVec 8) := List.replicate (n / 30 + 1) 255#8

/-- `3 upper sqrt 2 <range>`. The float root is taken as its floor `Nat.sqrt`:
the range reads its end only through the floor of `(end - 3) / 2`. -/
def candidates (upper : ℕ) : List ℕ :=
  (Core.Range.make 3 (Nat.sqrt upper) 2).members.map fun q => ⌊q⌋.toNat

def sieve (n : ℕ) : List (BitVec 8) :=
  let s := initSieve n
  let upper := upperBound s
  (candidates upper).foldl (fun s i => if markedUnsafe i s then unmarkMultiples i upper s else s) s

/-- marked-prime?: 2, 3 and 5 have no bit; numbers outside `[2, upper]` are a
bounds error. -/
def markedPrime (n : ℕ) (sieve : List (BitVec 8)) : Option Bool :=
  if 2 ≤ n ∧ n ≤ upperBound sieve then
    some (if n ∈ [2, 3, 5] then true else markedUnsafe n sieve)
  else none

theorem masks_table :
    (∀ r, r < 30 → ((masks.getD r none).isSome ↔ Nat.Coprime r 30)) ∧
    (∀ r, r < 30 → (masks.getD r none).all fun m => m != 0 && 255#8 &&& m == m) ∧
    (∀ r, r < 30 → ∀ r', r' < 30 → r ≠ r' →
      (masks.getD r none).all fun m => (masks.getD r' none).all fun m' => ~~~m &&& m' == m') := by
  decide

theorem isSome_mask_iff (n : ℕ) : (masks.getD (n % 30) none).isSome ↔ Nat.Coprime n 30 := by
  rw [masks_table.1 _ (Nat.mod_lt _ (by norm_num)), Nat.Coprime, Nat.Coprime, ← Nat.gcd_rec, Nat.gcd_comm]

theorem mask_ne_zero {r : ℕ} {m : BitVec 8} (hr : r < 30) (hm : masks.getD r none = some m) :
    m ≠ 0 ∧ 255#8 &&& m = m := by
  have h := masks_table.2.1 r hr
  rw [hm] at h
  simpa using h

theorem mask_disjoint {r r' : ℕ} {m m' : BitVec 8} (hr : r < 30) (hr' : r' < 30)
    (hm : masks.getD r none = some m) (hm' : masks.getD r' none = some m') (hne : r ≠ r') :
    ~~~m &&& m' = m' := by
  have h := masks_table.2.2 r hr r' hr' hne
  rw [hm, hm'] at h
  simpa using h

theorem markedUnsafe_iff (n : ℕ) (s : List (BitVec 8)) :
    markedUnsafe n s = true ↔ ∃ m, masks.getD (n % 30) none = some m ∧ s.getD (n / 30) 0 &&& m ≠ 0 := by
  unfold markedUnsafe bitPos
  cases masks.getD (n % 30) none with
  | none => simp
  | some m => simp

theorem markedUnsafe_unmark (n j : ℕ) (s : List (BitVec 8)) :
    markedUnsafe n (unmark j s) = true ↔ markedUnsafe n s = true ∧ n ≠ j := by
  have hr30 : ∀ k, k % 30 < 30 := fun k => Nat.mod_lt _ (by norm_num)
  rcases hj : masks.getD (j % 30) none with _ | mj
  · -- `j` has no bit, so nothing changes, and neither has `n = j`
    have hu : unmark j s = s := by simp only [unmark, bitPos, hj]
    rw [hu]
    refine ⟨fun hn => ⟨hn, ?_⟩, fun h => h.1⟩
    rintro rfl
    obtain ⟨m, hm, -⟩ := (markedUnsafe_iff n s).mp hn
    rw [hj] at hm
    exact Option.some_ne_none m hm.symm
  · have hu : unmark j s = s.modify (j / 30) fun x => x &&& ~~~mj := by simp only [unmark, bitPos, hj]
    rw [hu, markedUnsafe_iff, markedUnsafe_iff, WordBitmap.getD_modify]
    by_cases hq : j / 30 = n / 30 ∧ n / 30 < s.length
    · rw [if_pos hq]
      by_cases hnj : n = j
      · -- the bit of `j` itself is cleared
        subst hnj
        refine ⟨?_, fun h => absurd rfl h.2⟩
        rintro ⟨m, hm, hne⟩
        rw [hj, Option.some.injEq] at hm
        subst hm
        rw [BitVec.and_assoc, BitVec.not_and_self] at hne
        simp at hne
      · -- another residue of the same thirty keeps its bit
        have hrr : j % 30 ≠ n % 30 := fun h =>
          hnj (by rw [← Nat.div_add_mod n 30, ← Nat.div_add_mod j 30, hq.1, h])
        have hkeep : ∀ m, masks.getD (n % 30) none = some m → ∀ x : BitVec 8, x &&& ~~~mj &&& m = x &&& m :=
          fun m hm x => by rw [BitVec.and_assoc, mask_disjoint (hr30 j) (hr30 n) hj hm hrr]
        constructor
        · rintro ⟨m, hm, hne⟩
          exact ⟨⟨m, hm, by rwa [hkeep m hm] at hne⟩, hnj⟩
        · rintro ⟨⟨m, hm, hne⟩, -⟩
          exact ⟨m, hm, by rwa [hkeep m hm]⟩
    · rw [if_neg hq]
      by_cases hlen : n / 30 < s.length
      · have hnj : n ≠ j := fun h => hq ⟨by rw [h], hlen⟩
        exact ⟨fun h => ⟨h, hnj⟩, fun h => h.1⟩
      · -- past the last byte nothing is marked
        rw [WordBitmap.getD_of_length_le (not_lt.mp hlen)]
        simp

theorem upperBound_initSieve (N : ℕ) : upperBound (initSieve N) = (N / 30 + 1) * 30 - 1 := by
  rw [upperBound, initSieve, List.length_replicate]

theorem markedUnsafe_initSieve (n N : ℕ) :
    markedUnsafe n (initSieve N) = true ↔ n.Coprime 30 ∧ n ≤ upperBound (initSieve N) := by
  have hr30 : n % 30 < 30 := Nat.mod_lt _ (by norm_num)
  have hlen : n / 30 < (initSieve N).length ↔ n ≤ upperBound (initSieve N) := by
    rw [upperBound, Nat.div_lt_iff_lt_mul (by norm_num)]
    have : 0 < (initSieve N).length := by rw [initSieve, List.length_replicate]; omega
    omega
  rw [markedUnsafe_iff, ← isSome_mask_iff, ← hlen]
  by_cases hn : n / 30 < (initSieve N).length
  · have hget : (initSieve N).getD (n / 30) 0 = 255#8 := by
      unfold initSieve at hn ⊢
      rw [List.getD_eq_getElem?_getD, List.getElem?_eq_getElem hn, Option.getD_some, List.getElem_replicate]
    rw [hget]
    constructor
    · rintro ⟨m, hm, -⟩
      exact ⟨by rw [hm]; rfl, hn⟩
    · rintro ⟨hsome, -⟩
      obtain ⟨m, hm⟩ := Option.isSome_iff_exists.mp hsome
      obtain ⟨hm0, h255⟩ := mask_ne_zero hr30 hm
      exact ⟨m, hm, by rwa [h255]⟩
  · rw [WordBitmap.getD_of_length_le (not_lt.mp hn)]
    simp [hn]

theorem markedUnsafe_unmarkMultiplesLoop {i : ℕ} (hi : 0 < i) (upper : ℕ) (fuel : ℕ) :
    ∀ j s, upper < j + fuel → ∀ n, markedUnsafe n (unmarkMultiplesLoop i upper fuel j s) = true ↔
      markedUnsafe n s = true ∧ ¬∃ k, n = j + 2 * i * k ∧ n ≤ upper := by
  induction fuel with
  | zero =>
    intro j s hf n
    simp only [unmarkMultiplesLoop]
    refine ⟨fun h => ⟨h, ?_⟩, fun h => h.1⟩
    rintro ⟨k, rfl, hle⟩
    omega
  | succ fuel ih =>
    intro j s hf n
    simp only [unmarkMultiplesLoop]
    split_ifs with hj
    · rw [ih (j + 2 * i) (unmark j s) (by omega) n, markedUnsafe_unmark]
      constructor
      · rintro ⟨⟨hm, hnj⟩, hk⟩
        refine ⟨hm, ?_⟩
        rintro ⟨_ | k, rfl, hle⟩
        · exact hnj (by ring)
        · exact hk ⟨k, by ring, hle⟩
      · rintro ⟨hm, hk⟩
        refine ⟨⟨hm, fun hnj => hk ⟨0, by rw [hnj]; ring, hnj ▸ hj⟩⟩, ?_⟩
        rintro ⟨k, rfl, hle⟩
        exact hk ⟨k + 1, by ring, hle⟩
    · refine ⟨fun h => ⟨h, ?_⟩, fun h => h.1⟩
      rintro ⟨k, rfl, hle⟩
      omega

theorem markedUnsafe_unmarkMultiples {i : ℕ} (hi : 0 < i) (upper n : ℕ) (s : List (BitVec 8)) :
    markedUnsafe n (unmarkMultiples i upper s) = true ↔
      markedUnsafe n s = true ∧ ¬∃ k, n = i * i + 2 * i * k ∧ n ≤ upper :=
  markedUnsafe_unmarkMultiplesLoop hi upper (upper + 1) (i * i) s (by omega) n

theorem candidates_eq (upper : ℕ) :
    candidates upper = (List.range ((Nat.sqrt upper - 1) / 2)).map fun k => 2 * k + 3 := by
  have hlen : (Core.Range.make 3 (Nat.sqrt upper) 2).length.toNat = (Nat.sqrt upper - 1) / 2 := by
    rw [Core.Range.make_length (by norm_num)]
    have hcast : ((Nat.sqrt upper : ℚ) - 3) / 2 = (((Nat.sqrt upper : ℤ) - 3 : ℤ) : ℚ) / ((2 : ℕ) : ℚ) := by
      push_cast
      ring
    rw [hcast, Rat.floor_intCast_div_natCast]
    omega
  rw [candidates, Core.Range.members, hlen, List.map_map]
  refine List.map_congr_left fun k _ => ?_
  show ⌊(k : ℚ) * 2 + 3⌋.toNat = 2 * k + 3
  have : (k : ℚ) * 2 + 3 = ((2 * k + 3 : ℕ) : ℚ) := by push_cast; ring
  rw [this, Int.floor_natCast, Int.toNat_natCast]

/-- What stays marked once every odd `i < d` is done: the numbers prime to 30
up to the bound that no prime below `d` divides with its square at most them. -/
def Unsieved (upper d n : ℕ) : Prop :=
  n.Coprime 30 ∧ n ≤ upper ∧ ∀ q, q.Prime → q < d → q * q ≤ n → ¬q ∣ n

theorem prime_of_unsieved_self {upper i : ℕ} (hi : 2 ≤ i) (h : Unsieved upper i i) : i.Prime := by
  by_contra hnp
  have hq := Nat.minFac_prime (show i ≠ 1 by omega)
  have hsq := Nat.minFac_sq_le_self (by omega) hnp
  have h2 := hq.two_le
  exact h.2.2 _ hq (by nlinarith) (by rw [← sq]; exact hsq) (Nat.minFac_dvd i)

theorem unsieved_add_two {upper i n : ℕ} (hodd : i % 2 = 1) :
    Unsieved upper (i + 2) n ↔ Unsieved upper i n ∧ ¬(i.Prime ∧ i * i ≤ n ∧ i ∣ n) := by
  constructor
  · rintro ⟨hc, hle, hq⟩
    exact ⟨⟨hc, hle, fun q hp hqi => hq q hp (by omega)⟩, fun ⟨hp, hii, hd⟩ => hq i hp (by omega) hii hd⟩
  · rintro ⟨⟨hc, hle, hq⟩, hi⟩
    refine ⟨hc, hle, fun q hp hqi hqq hqd => ?_⟩
    rcases Nat.lt_or_ge q i with hlt | hge
    · exact hq q hp hlt hqq hqd
    · rcases Nat.eq_or_lt_of_le hge with rfl | hgt
      · exact hi ⟨hp, hqq, hqd⟩
      · -- q = i + 1 is even, so it is 2, which divides no number prime to 30
        have h2 : 2 ∣ q := ⟨(i + 1) / 2, by omega⟩
        have hq2 := (Nat.Prime.eq_one_or_self_of_dvd hp 2 h2).resolve_left (by norm_num)
        subst hq2
        exact absurd (Nat.Coprime.coprime_dvd_left hqd hc) (by decide)

theorem exists_odd_multiple {i n : ℕ} (hodd : i % 2 = 1) (hc : n.Coprime 30) :
    (∃ k, n = i * i + 2 * i * k) ↔ i * i ≤ n ∧ i ∣ n := by
  constructor
  · rintro ⟨k, rfl⟩
    exact ⟨Nat.le_add_right _ _, ⟨i + 2 * k, by ring⟩⟩
  · rintro ⟨hle, m, rfl⟩
    have hnodd : (i * m) % 2 = 1 := by
      have := Nat.Coprime.coprime_dvd_right (show 2 ∣ 30 by norm_num) hc
      rw [Nat.coprime_two_right] at this
      exact Nat.odd_iff.mp this
    have hmodd : m % 2 = 1 := by
      rcases Nat.mod_two_eq_zero_or_one m with h | h
      · rw [Nat.mul_mod, h, Nat.mul_zero] at hnodd
        exact absurd hnodd (by norm_num)
      · exact h
    have him : i ≤ m := Nat.le_of_mul_le_mul_left hle (by omega)
    refine ⟨(m - i) / 2, ?_⟩
    have : m = i + 2 * ((m - i) / 2) := by omega
    conv_lhs => rw [this]
    ring

theorem markedUnsafe_sieveStep {upper i : ℕ} (hi3 : 3 ≤ i) (hodd : i % 2 = 1) (hii : i * i ≤ upper)
    {s : List (BitVec 8)} (hs : ∀ n, markedUnsafe n s = true ↔ Unsieved upper i n) (n : ℕ) :
    markedUnsafe n (if markedUnsafe i s then unmarkMultiples i upper s else s) = true ↔
      Unsieved upper (i + 2) n := by
  rw [unsieved_add_two hodd]
  split_ifs with hm
  · -- a marked `i` is prime, and its odd multiples from its square are cleared
    have hp : i.Prime := prime_of_unsieved_self (by omega) ((hs i).mp hm)
    rw [markedUnsafe_unmarkMultiples (by omega), hs]
    constructor
    · rintro ⟨hu, hk⟩
      exact ⟨hu, fun ⟨_, hle, hd⟩ => hk ⟨((exists_odd_multiple hodd hu.1).mpr ⟨hle, hd⟩).choose,
        ((exists_odd_multiple hodd hu.1).mpr ⟨hle, hd⟩).choose_spec, hu.2.1⟩⟩
    · rintro ⟨hu, hn⟩
      refine ⟨hu, fun ⟨k, hk, _⟩ => hn ⟨hp, (exists_odd_multiple hodd hu.1).mp ⟨k, hk⟩⟩⟩
  · -- an unmarked prime `i` divides 30, so it divides no marked number
    rw [hs]
    refine ⟨fun hu => ⟨hu, fun ⟨hp, _, hd⟩ => ?_⟩, fun h => h.1⟩
    have hnc : ¬i.Coprime 30 := fun hc => hm ((hs i).mpr ⟨hc, by nlinarith, fun q hq hqi _ hqd =>
      by have := (Nat.Prime.eq_one_or_self_of_dvd hp q hqd); have := hq.two_le; omega⟩)
    have h30 : i ∣ 30 := by rwa [Nat.Prime.coprime_iff_not_dvd hp, not_not] at hnc
    exact hp.one_lt.ne' (Nat.Coprime.eq_one_of_dvd (Nat.Coprime.coprime_dvd_left hd hu.1) h30)

theorem markedUnsafe_foldl (N c : ℕ)
    (hc : ∀ k, k < c → (2 * k + 3) * (2 * k + 3) ≤ upperBound (initSieve N)) (n : ℕ) :
    markedUnsafe n (((List.range c).map fun k => 2 * k + 3).foldl
        (fun s i => if markedUnsafe i s then unmarkMultiples i (upperBound (initSieve N)) s else s)
        (initSieve N)) = true ↔
      Unsieved (upperBound (initSieve N)) (2 * c + 3) n := by
  induction c generalizing n with
  | zero =>
    rw [List.range_zero, List.map_nil, List.foldl_nil, markedUnsafe_initSieve]
    refine ⟨fun ⟨hc30, hle⟩ => ⟨hc30, hle, fun q hq hq3 _ hqd => ?_⟩, fun h => ⟨h.1, h.2.1⟩⟩
    have hq2 : q = 2 := by have := hq.two_le; omega
    subst hq2
    exact absurd (Nat.Coprime.coprime_dvd_left hqd hc30) (by decide)
  | succ c ih =>
    rw [List.range_succ, List.map_append, List.foldl_append, List.map_singleton, List.foldl_cons,
      List.foldl_nil, markedUnsafe_sieveStep (by omega) (by omega) (hc c (by omega))
        (ih (fun k hk => hc k (by omega)))]
    ring_nf

theorem unsieved_iff {upper d n : ℕ} (hd : Nat.sqrt upper < d) :
    Unsieved upper d n ↔ n.Coprime 30 ∧ n ≤ upper ∧ (n = 1 ∨ n.Prime) := by
  constructor
  · rintro ⟨hc, hle, hq⟩
    refine ⟨hc, hle, ?_⟩
    by_contra hn
    obtain ⟨hn1, hnp⟩ := not_or.mp hn
    have hn0 : n ≠ 0 := by rintro rfl; exact absurd hc (by decide)
    have hp := Nat.minFac_prime hn1
    have hsq := Nat.minFac_sq_le_self (by omega) hnp
    have hroot : n.minFac ≤ Nat.sqrt upper := Nat.le_sqrt.mpr (by rw [← sq]; omega)
    exact hq _ hp (by omega) (by rw [← sq]; exact hsq) (Nat.minFac_dvd n)
  · rintro ⟨hc, hle, h1p⟩
    refine ⟨hc, hle, fun q hq _ hqq hqd => ?_⟩
    rcases h1p with rfl | hp
    · exact hq.one_lt.ne' (Nat.dvd_one.mp hqd)
    · have hqn := (Nat.Prime.eq_one_or_self_of_dvd hp q hqd).resolve_left hq.one_lt.ne'
      subst hqn
      have := hq.two_le
      nlinarith

theorem sieve_spec (N n : ℕ) :
    markedUnsafe n (sieve N) = true ↔ n.Coprime 30 ∧ n ≤ upperBound (initSieve N) ∧ (n = 1 ∨ n.Prime) := by
  have hroot : ∀ k, k < (Nat.sqrt (upperBound (initSieve N)) - 1) / 2 →
      (2 * k + 3) * (2 * k + 3) ≤ upperBound (initSieve N) := fun k hk =>
    Nat.le_sqrt.mp (by omega)
  rw [sieve, candidates_eq, markedUnsafe_foldl N _ hroot, unsieved_iff (by omega)]

theorem length_unmark (n : ℕ) (s : List (BitVec 8)) : (unmark n s).length = s.length := by
  unfold unmark
  split
  · exact List.length_modify ..
  · rfl

theorem length_unmarkMultiplesLoop (i upper fuel j : ℕ) (s : List (BitVec 8)) :
    (unmarkMultiplesLoop i upper fuel j s).length = s.length := by
  induction fuel generalizing j s with
  | zero => rfl
  | succ fuel ih =>
    simp only [unmarkMultiplesLoop]
    split_ifs
    · rw [ih, length_unmark]
    · rfl

theorem upperBound_sieve (N : ℕ) : upperBound (sieve N) = upperBound (initSieve N) := by
  have hstep : ∀ (l : List ℕ) (s : List (BitVec 8)), (l.foldl (fun s i =>
      if markedUnsafe i s then unmarkMultiples i (upperBound (initSieve N)) s else s) s).length = s.length := by
    intro l
    induction l with
    | nil => intro s; rfl
    | cons i l ih =>
      intro s
      rw [List.foldl_cons, ih]
      split_ifs
      · exact length_unmarkMultiplesLoop ..
      · rfl
  rw [upperBound, upperBound, sieve, hstep]

theorem coprime_thirty_iff (m : ℕ) : m.Coprime 30 ↔ ¬2 ∣ m ∧ ¬3 ∣ m ∧ ¬5 ∣ m := by
  have h2 : m.Coprime 2 ↔ ¬2 ∣ m := Nat.coprime_comm.trans (Nat.Prime.coprime_iff_not_dvd Nat.prime_two)
  have h3 : m.Coprime 3 ↔ ¬3 ∣ m := Nat.coprime_comm.trans (Nat.Prime.coprime_iff_not_dvd Nat.prime_three)
  have h5 : m.Coprime 5 ↔ ¬5 ∣ m := Nat.coprime_comm.trans (Nat.Prime.coprime_iff_not_dvd Nat.prime_five)
  rw [show (30 : ℕ) = 2 * 3 * 5 by norm_num, Nat.coprime_mul_iff_right, Nat.coprime_mul_iff_right, h2, h3, h5,
    and_assoc]

theorem coprime_thirty_of_prime {p : ℕ} (hp : p.Prime) (h235 : p ∉ [2, 3, 5]) : p.Coprime 30 := by
  rw [Nat.Prime.coprime_iff_not_dvd hp]
  intro hd
  have h : p ∣ 2 ∨ p ∣ 3 ∨ p ∣ 5 := by
    rcases (Nat.Prime.dvd_mul hp).mp (show p ∣ 2 * 3 * 5 from hd) with h | h
    · exact ((Nat.Prime.dvd_mul hp).mp h).elim Or.inl (Or.inr ∘ Or.inl)
    · exact Or.inr (Or.inr h)
  simp only [List.mem_cons, List.not_mem_nil, or_false] at h235
  rcases h with h | h | h
  · exact h235 (Or.inl ((Nat.prime_dvd_prime_iff_eq hp Nat.prime_two).mp h))
  · exact h235 (Or.inr (Or.inl ((Nat.prime_dvd_prime_iff_eq hp Nat.prime_three).mp h)))
  · exact h235 (Or.inr (Or.inr ((Nat.prime_dvd_prime_iff_eq hp Nat.prime_five).mp h)))

/-- marked-prime? answers primality on `[2, upper]`. -/
theorem markedPrime_sieve (N n : ℕ) :
    markedPrime n (sieve N) = if 2 ≤ n ∧ n ≤ upperBound (sieve N) then some (decide n.Prime) else none := by
  unfold markedPrime
  split_ifs with hr h235
  · simp only [List.mem_cons, List.not_mem_nil, or_false] at h235
    rcases h235 with rfl | rfl | rfl
    · simp [Nat.prime_two]
    · simp [Nat.prime_three]
    · simp [Nat.prime_five]
  · rw [upperBound_sieve] at hr
    rw [Option.some.injEq, Bool.eq_iff_iff, sieve_spec, decide_eq_true_iff]
    constructor
    · rintro ⟨-, -, h1 | hp⟩
      · omega
      · exact hp
    · intro hp
      exact ⟨coprime_thirty_of_prime hp h235, hr.2, Or.inr hp⟩
  · rfl

end FactorProofs.Math.Erato
