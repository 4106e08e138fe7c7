import Mathlib.NumberTheory.Bertrand
import FactorProofs.Math.Erato
import FactorProofs.Math.MillerRabin

namespace FactorProofs.Math.Primes

open Erato MillerRabin

/-! math.primes. prime? answers below 7 from { 2 3 5 }, rejects what 2, 3 or 5
divides, reads the sieve of 8,999,999 up to that bound and runs ten trials of
miller-rabin above it. next-prime tests the odd numbers after `n` in turn, and
primes-between filters the odd numbers of the interval through prime? into a
vector sized by the bounds upper-pi and lower-pi. Each call of prime? draws its
own bases: `rand m k` is the base of the trial `k` when prime? tests `m`. -/

/-- `n` is a natural prime. -/
def IsPrime (n : ℤ) : Prop := ∃ p : ℕ, p.Prime ∧ n = p

instance (n : ℤ) : Decidable (IsPrime n) :=
  decidable_of_iff (0 ≤ n ∧ n.toNat.Prime)
    ⟨fun ⟨h0, hp⟩ => ⟨n.toNat, hp, (Int.toNat_of_nonneg h0).symm⟩,
      fun ⟨p, hp, he⟩ => ⟨he ▸ Int.natCast_nonneg p, by rw [he, Int.toNat_natCast]; exact hp⟩⟩

/-- Every base that prime? draws for `m` is one that random answers for
2 m 2 - [a..b]. -/
def Draws (rand : ℤ → ℕ → ℕ) : Prop := ∀ m k, k < 10 → Drawable m.toNat (rand m k)

/-- simple?: even, or divided by 3 or 5. -/
def simple (n : ℤ) : Bool := n % 2 = 0 || n % 3 = 0 || n % 5 = 0

def lookInBitmap (n : ℤ) : Bool := markedUnsafe n.toNat (sieve 8999999)

/-- (prime?) -/
def primeAux (draw : ℕ → ℕ) (n : ℤ) : Bool :=
  if n ≤ 8999999 then lookInBitmap n else millerRabin n draw

/-- prime? on the integers. -/
def primeP (draw : ℕ → ℕ) (n : ℤ) : Bool :=
  if n < 7 then decide (n ∈ ([2, 3, 5] : List ℤ))
  else if simple n then false
  else primeAux draw n

def nextOdd (m : ℤ) : ℤ := if m % 2 = 0 then m + 1 else m + 2

/-- The until loop of next-prime from `m`. -/
def nextPrimeLoop (rand : ℤ → ℕ → ℕ) : ℕ → ℤ → Option ℤ
  | 0, _ => none
  | fuel + 1, m => if primeP (rand m) m then some m else nextPrimeLoop rand fuel (m + 2)

/-- next-prime. The loop stops at the latest at the first prime after `n`,
which lies below `2 n` (Bertrand), so `n + 1` turns never run out. -/
def nextPrime (rand : ℤ → ℕ → ℕ) (n : ℤ) : Option ℤ :=
  if n < 2 then some 2 else nextPrimeLoop rand (n.toNat + 1) (nextOdd n)

/-- <primes-range>: the odd numbers from `3 max low` up to `high`. -/
def primesRange (low high : ℤ) : Core.Range :=
  let a := max 3 low
  Core.Range.make (if a % 2 = 0 then a + 1 else a : ℤ) high 2

inductive PrimesError
  | noMathMethod
  deriving DecidableEq, Repr

/-- The float bound `x / log x * (c / log x + 1)` rounded by floor (ceiling is
`neg floor neg`). Below 0 the log is complex, and floor fails in its `1 mod`.
Elsewhere the bound is a float (or an infinity or NaN) that only sizes the
vector, so only whether it fails is modelled. -/
def piBound (x : ℤ) : Except PrimesError Unit := if x < 0 then .error .noMathMethod else .ok ()

def upperPi (x : ℤ) : Except PrimesError Unit := piBound x

def lowerPi (x : ℤ) : Except PrimesError Unit := piBound x

/-- <primes-vector>: `high upper-pi low lower-pi -` sizes the vector, which
starts with 2 when `low < 3`. -/
def primesVector (low high : ℤ) : Except PrimesError (List ℤ) := do
  upperPi high
  lowerPi low
  pure (if low < 3 then [2] else [])

/-- (primes-between): the elements of the range are integers. -/
def primesBetweenAux (rand : ℤ → ℕ → ℕ) (low high : ℤ) : Except PrimesError (List ℤ) := do
  let range := primesRange low high
  let vector ← primesVector low high
  pure (vector ++ (range.members.map fun q => ⌊q⌋).filter fun m => primeP (rand m) m)

def primesBetween (rand : ℤ → ℕ → ℕ) (low high : ℚ) : Except PrimesError (List ℤ) :=
  let lo := ⌈low⌉
  let hi := ⌊high⌋
  if lo > hi then .ok []
  else if hi = 2 then .ok [2]
  else if hi < 2 then .ok []
  else primesBetweenAux rand lo hi

theorem isPrime_natCast (p : ℕ) : IsPrime p ↔ p.Prime :=
  ⟨fun ⟨q, hq, he⟩ => by rwa [Int.natCast_inj.mp he], fun hp => ⟨p, hp, rfl⟩⟩

theorem IsPrime.two_le {n : ℤ} (h : IsPrime n) : 2 ≤ n := by
  obtain ⟨p, hp, rfl⟩ := h
  exact_mod_cast hp.two_le

theorem IsPrime.eq_of_dvd {n : ℤ} (h : IsPrime n) {d : ℕ} (hd : d.Prime) (hdn : (d : ℤ) ∣ n) : n = d := by
  obtain ⟨p, hp, rfl⟩ := h
  rw [Int.natCast_dvd_natCast] at hdn
  exact_mod_cast ((Nat.prime_dvd_prime_iff_eq hd hp).mp hdn).symm

theorem IsPrime.eq_two_of_even {n : ℤ} (h : IsPrime n) (he : n % 2 = 0) : n = 2 :=
  h.eq_of_dvd Nat.prime_two (Int.dvd_of_emod_eq_zero he)

theorem simple_natCast_eq_false_iff (m : ℕ) : simple m = false ↔ m.Coprime 30 := by
  rw [coprime_thirty_iff]
  simp only [simple, Bool.or_eq_false_iff, decide_eq_false_iff_not]
  have hdvd : ∀ d : ℕ, ((m : ℤ) % d = 0 ↔ d ∣ m) := fun d => by
    rw [← Int.dvd_iff_emod_eq_zero, Int.natCast_dvd_natCast]
  rw [show (2 : ℤ) = (2 : ℕ) from rfl, show (3 : ℤ) = (3 : ℕ) from rfl, show (5 : ℤ) = (5 : ℕ) from rfl,
    hdvd, hdvd, hdvd, and_assoc]

theorem mem_two_three_five_iff {n : ℤ} (hn : n < 7) : n ∈ ([2, 3, 5] : List ℤ) ↔ IsPrime n := by
  constructor
  · intro h
    simp only [List.mem_cons, List.not_mem_nil, or_false] at h
    rcases h with rfl | rfl | rfl
    · exact (isPrime_natCast 2).mpr Nat.prime_two
    · exact (isPrime_natCast 3).mpr Nat.prime_three
    · exact (isPrime_natCast 5).mpr Nat.prime_five
  · rintro ⟨p, hp, rfl⟩
    have hp7 : p < 7 := by exact_mod_cast hn
    interval_cases p <;> revert hp <;> decide

theorem simple_eq_false_of_isPrime {n : ℤ} (h : IsPrime n) (h7 : 7 ≤ n) : simple n = false := by
  obtain ⟨p, hp, rfl⟩ := h
  rw [simple_natCast_eq_false_iff]
  exact coprime_thirty_of_prime hp (by simp only [List.mem_cons, List.not_mem_nil, or_false]; omega)

theorem primeP_iff {n : ℤ} (hn : n ≤ 8999999) (draw : ℕ → ℕ) : primeP draw n = true ↔ IsPrime n := by
  unfold primeP
  split_ifs with h7 hs
  · exact decide_eq_true_iff.trans (mem_two_three_five_iff h7)
  · -- 2, 3 or 5 divides n, and n is not one of them
    refine ⟨fun h => by simp at h, fun hp => ?_⟩
    rw [simple_eq_false_of_isPrime hp (by omega)] at hs
    exact absurd hs Bool.false_ne_true
  · -- the sieve of 8,999,999 marks exactly 1 and the primes prime to 30
    obtain ⟨m, rfl⟩ := Int.eq_ofNat_of_zero_le (show (0 : ℤ) ≤ n by omega)
    have hc : m.Coprime 30 := (simple_natCast_eq_false_iff m).mp (Bool.not_eq_true _ ▸ hs)
    have hub : upperBound (initSieve 8999999) = 8999999 := by rw [upperBound_initSieve]
    rw [primeAux, if_pos hn, lookInBitmap, Int.toNat_natCast, sieve_spec, hub, isPrime_natCast]
    constructor
    · rintro ⟨-, -, h1 | hp⟩
      · omega
      · exact hp
    · intro hp
      exact ⟨hc, by omega, Or.inr hp⟩

theorem primeP_of_isPrime {n : ℤ} (h : IsPrime n) (draw : ℕ → ℕ)
    (hdraw : ∀ k, k < 10 → Drawable n.toNat (draw k)) : primeP draw n = true := by
  rcases le_or_gt n 8999999 with hn | hn
  · exact (primeP_iff hn draw).mpr h
  · -- above the sieve, ten trials of miller-rabin
    have hs := simple_eq_false_of_isPrime h (by omega)
    obtain ⟨p, hp, rfl⟩ := h
    rw [Int.toNat_natCast] at hdraw
    rw [primeP, if_neg (by omega), hs, if_neg Bool.false_ne_true, primeAux, if_neg (by omega)]
    exact millerRabinStar_of_prime hp 10 draw hdraw

theorem primeP_two (draw : ℕ → ℕ) : primeP draw 2 = true := by
  rw [primeP, if_pos (by norm_num)]
  decide

theorem primeP_of_even {k : ℤ} (he : k % 2 = 0) (h2 : k ≠ 2) (draw : ℕ → ℕ) : primeP draw k = false := by
  rcases le_or_gt k 8999999 with hk | hk
  · rw [← Bool.not_eq_true, primeP_iff hk]
    exact fun hp => h2 (hp.eq_two_of_even he)
  · rw [primeP, if_neg (by omega), if_pos (by simp [simple, he])]

section NextPrime

variable (rand : ℤ → ℕ → ℕ)

theorem nextPrimeLoop_spec (fuel : ℕ) : ∀ m q : ℤ, m ≤ q → (q - m) % 2 = 0 → q - m < 2 * fuel →
    primeP (rand q) q = true →
    ∃ p, nextPrimeLoop rand fuel m = some p ∧ m ≤ p ∧ p ≤ q ∧ primeP (rand p) p = true ∧
      ∀ k, m ≤ k → k < p → (k - m) % 2 = 0 → primeP (rand k) k = false := by
  induction fuel with
  | zero => intro m q hmq _ hf; omega
  | succ fuel ih =>
    intro m q hmq heven hf hq
    rw [nextPrimeLoop]
    split_ifs with hm
    · exact ⟨m, rfl, le_rfl, hmq, hm, fun k hk hkp => absurd hkp (not_lt.mpr hk)⟩
    · -- m is rejected, so q lies two or more above it
      have hmq2 : m + 2 ≤ q := by
        rcases eq_or_lt_of_le hmq with rfl | hlt
        · exact absurd hq hm
        · omega
      obtain ⟨p, hloop, hp2, hpq, hp, hbefore⟩ := ih (m + 2) q hmq2 (by omega) (by omega) hq
      refine ⟨p, hloop, by omega, hpq, hp, fun k hk hkp hke => ?_⟩
      rcases eq_or_lt_of_le hk with rfl | hlt
      · exact Bool.not_eq_true _ ▸ hm
      · exact hbefore k (by omega) hkp (by omega)

theorem nextPrime_spec (hrand : Draws rand) (n : ℤ) :
    ∃ p, nextPrime rand n = some p ∧ n < p ∧ primeP (rand p) p = true ∧
      ∀ k, n < k → k < p → primeP (rand k) k = false := by
  rw [nextPrime]
  split_ifs with h2
  · refine ⟨2, rfl, h2, primeP_two _, fun k hnk hk2 => ?_⟩
    rw [primeP, if_pos (by omega), decide_eq_false_iff_not]
    simp only [List.mem_cons, List.not_mem_nil, or_false]
    omega
  · -- a prime below 2 n (Bertrand) is accepted, and it bounds the loop
    obtain ⟨q, hq, hnq, hq2n⟩ := Nat.exists_prime_lt_and_le_two_mul n.toNat (by omega)
    have hqodd : (q : ℤ) % 2 = 1 := by
      have := hq.eq_one_or_self_of_dvd 2
      omega
    have hstart : n < nextOdd n ∧ nextOdd n ≤ n + 2 ∧ nextOdd n % 2 = 1 := by
      unfold nextOdd
      split_ifs <;> omega
    have hacc : primeP (rand q) q = true :=
      primeP_of_isPrime ((isPrime_natCast q).mpr hq) _ fun k hk => hrand q k hk
    obtain ⟨p, hloop, hsp, hpq, hp, hbefore⟩ :=
      nextPrimeLoop_spec rand (n.toNat + 1) (nextOdd n) q (by omega) (by omega) (by omega) hacc
    refine ⟨p, hloop, by omega, hp, fun k hnk hkp => ?_⟩
    by_cases hke : k % 2 = 0
    · exact primeP_of_even hke (by omega) _
    · exact hbefore k (by omega) hkp (by omega)

end NextPrime

theorem primesRange_members (low high : ℤ) :
    ((primesRange low high).members.map fun q => ⌊q⌋).Pairwise (· < ·) ∧
      ∀ m, m ∈ (primesRange low high).members.map (fun q => ⌊q⌋) ↔ max 3 low ≤ m ∧ m ≤ high ∧ m % 2 = 1 := by
  set a := if max 3 low % 2 = 0 then max 3 low + 1 else max 3 low with ha
  have ha' : max 3 low ≤ a ∧ a ≤ max 3 low + 1 ∧ a % 2 = 1 := by
    rw [ha]
    split_ifs <;> omega
  have hlist : (primesRange low high).members.map (fun q => ⌊q⌋) =
      (List.range ((high - a) / 2 + 1).toNat).map fun i : ℕ => a + 2 * i := by
    rw [← Core.Range.floor_members_make_two]
    rfl
  rw [hlist]
  refine ⟨?_, fun m => ?_⟩
  · exact List.pairwise_map.mpr (List.pairwise_lt_range.imp fun hij => by omega)
  · rw [List.mem_map]
    constructor
    · rintro ⟨i, hi, rfl⟩
      rw [List.mem_range] at hi
      omega
    · rintro ⟨hlo, hhi, hodd⟩
      refine ⟨((m - a) / 2).toNat, List.mem_range.mpr (by omega), by omega⟩

theorem primesBetween_of_nonneg (rand : ℤ → ℕ → ℕ) {low high : ℚ} (hlow : 0 ≤ ⌈low⌉)
    (hhigh : ⌊high⌋ ≤ 8999999) :
    ∃ L, primesBetween rand low high = .ok L ∧ L.Pairwise (· < ·) ∧
      ∀ m, m ∈ L ↔ ⌈low⌉ ≤ m ∧ m ≤ ⌊high⌋ ∧ IsPrime m := by
  unfold primesBetween
  dsimp only
  split_ifs with hgt h2 hlt2
  · exact ⟨[], rfl, List.Pairwise.nil, fun m => by simp only [List.not_mem_nil, false_iff]; omega⟩
  · refine ⟨[2], rfl, List.pairwise_singleton _ _, fun m => ?_⟩
    rw [List.mem_singleton]
    constructor
    · rintro rfl
      exact ⟨by omega, by omega, (isPrime_natCast 2).mpr Nat.prime_two⟩
    · rintro ⟨-, hm, hp⟩
      have := hp.two_le
      omega
  · exact ⟨[], rfl, List.Pairwise.nil, fun m => by
      simp only [List.not_mem_nil, false_iff, not_and]
      exact fun _ hm hp => absurd hp.two_le (by omega)⟩
  · -- the vector starts with 2 when it lies in the interval, then the odd primes
    obtain ⟨hsorted, hmem⟩ := primesRange_members ⌈low⌉ ⌊high⌋
    have hfilter : ((primesRange ⌈low⌉ ⌊high⌋).members.map fun q => ⌊q⌋).filter
        (fun m => primeP (rand m) m) = ((primesRange ⌈low⌉ ⌊high⌋).members.map fun q => ⌊q⌋).filter
        (fun m => decide (IsPrime m)) := by
      refine List.filter_congr fun m hm => ?_
      rw [Bool.eq_iff_iff, primeP_iff (by have := ((hmem m).mp hm).2.1; omega), decide_eq_true_iff]
    refine ⟨(if ⌈low⌉ < 3 then [2] else []) ++ ((primesRange ⌈low⌉ ⌊high⌋).members.map fun q => ⌊q⌋).filter
      (fun m => decide (IsPrime m)), ?_, ?_, fun m => ?_⟩
    · simp only [primesBetweenAux, primesVector, upperPi, lowerPi, piBound, if_neg (show ¬⌊high⌋ < 0 by omega),
        if_neg (show ¬⌈low⌉ < 0 by omega), hfilter]
      rfl
    · refine List.pairwise_append.mpr ⟨by split_ifs <;> simp, hsorted.filter _, fun x hx y hy => ?_⟩
      have hy3 := ((hmem y).mp (List.mem_of_mem_filter hy)).1
      split_ifs at hx
      · rw [List.mem_singleton.mp hx]
        omega
      · exact absurd hx List.not_mem_nil
    · rw [List.mem_append, List.mem_filter, hmem, decide_eq_true_iff]
      constructor
      · rintro (h | ⟨⟨hlo, hhi, -⟩, hp⟩)
        · split_ifs at h with h3
          · rw [List.mem_singleton.mp h]
            exact ⟨by omega, by omega, (isPrime_natCast 2).mpr Nat.prime_two⟩
          · exact absurd h List.not_mem_nil
        · exact ⟨by omega, hhi, hp⟩
      · rintro ⟨hlo, hhi, hp⟩
        by_cases hm2 : m = 2
        · left
          rw [if_pos (by omega), hm2]
          exact List.mem_singleton_self _
        · -- an odd prime of at least 3
          right
          have hodd : m % 2 = 1 := by
            have := hp.eq_two_of_even
            omega
          exact ⟨⟨by have := hp.two_le; omega, hhi, hodd⟩, hp⟩

theorem primesBetween_error_of_neg (rand : ℤ → ℕ → ℕ) {low high : ℚ} (hlow : ⌈low⌉ < 0) (hhigh : 3 ≤ ⌊high⌋) :
    primesBetween rand low high = .error .noMathMethod := by
  unfold primesBetween
  dsimp only
  rw [if_neg (by omega), if_neg (by omega), if_neg (by omega)]
  simp only [primesBetweenAux, primesVector, upperPi, lowerPi, piBound, if_neg (show ¬⌊high⌋ < 0 by omega),
    if_pos hlow]
  rfl

theorem primesBetween_negative_low (rand : ℤ → ℕ → ℕ) :
    primesBetween rand (-1) 10 = .error .noMathMethod ∧ primesBetween rand 0 10 = .ok [2, 3, 5, 7] := by
  constructor
  · exact primesBetween_error_of_neg rand (by norm_num) (by norm_num)
  · -- the primes up to 10, as the one increasing list of them
    obtain ⟨L, hL, hsorted, hmem⟩ := primesBetween_of_nonneg rand (show (0 : ℤ) ≤ ⌈(0 : ℚ)⌉ by norm_num)
      (show ⌊(10 : ℚ)⌋ ≤ 8999999 by norm_num)
    have hspec : ∀ m, m ∈ L ↔ m ∈ ([2, 3, 5, 7] : List ℤ) := by
      intro m
      rw [hmem, Int.ceil_zero, show ⌊(10 : ℚ)⌋ = 10 by norm_num]
      constructor
      · rintro ⟨h0, h10, hp⟩
        obtain ⟨k, rfl⟩ := Int.eq_ofNat_of_zero_le h0
        rw [isPrime_natCast] at hp
        have hk : k ≤ 10 := by exact_mod_cast h10
        interval_cases k <;> revert hp <;> decide
      · intro h
        simp only [List.mem_cons, List.not_mem_nil, or_false] at h
        rcases h with rfl | rfl | rfl | rfl <;> exact ⟨by norm_num, by norm_num, by decide⟩
    have hperm : L.Perm [2, 3, 5, 7] :=
      (List.perm_ext_iff_of_nodup (hsorted.imp ne_of_lt) (by decide)).mpr hspec
    rw [hL, List.Perm.eq_of_pairwise (fun a b _ _ hab hba => absurd hba (lt_asymm hab)) hsorted (by decide) hperm]

end FactorProofs.Math.Primes
