import FactorProofs.Math.Combinatorics

namespace FactorProofs.Math.UniquePermutations

open FactorProofs.Lex FactorProofs.Math.Combinatorics

/-! math.combinatorics: unique-permutations, the backtracking generator of the
distinct rearrangements of a sequence that may repeat elements. At position `i`
it exchanges in, one after another, each later element not seen before from
`i` on, permutes what follows and exchanges back. -/

variable {α : Type*} [DecidableEq α]

/-- should-swap?: the element at `curr` does not occur from `start` up to
`curr`. Positions past the end are never asked for. -/
def shouldSwap (start curr : ℕ) (seq : List α) : Bool :=
  match seq[curr]? with
  | some x => decide (x ∉ (seq.drop start).take (curr - start))
  | none => true

/-- unique-permutations from position `i` below `n`: at `i ≥ n` a copy of the
array goes to the quotation; else for each `j` from `i` whose element is new the
array is exchanged at `i` and `j`, the rest permuted, and exchanged back. It
returns the array as it is left and what the quotation received, in order. -/
def uniquePermutations (seq : List α) (i n : ℕ) : List α × List (List α) :=
  if _h : n ≤ i then (seq, [seq])
  else
    (List.range' i (n - i)).foldl (fun (acc : List α × List (List α)) j =>
      if shouldSwap i j acc.1 then
        let r := uniquePermutations (exchange i j acc.1) (i + 1) n
        (exchange i j r.1, acc.2 ++ r.2)
      else acc) (seq, [])
termination_by n - i

/-- all-unique-permutations: what each-unique-permutation hands on from position 0. -/
def allUniquePermutations (seq : List α) : List (List α) := (uniquePermutations seq 0 seq.length).2

section Exchange

variable {seq : List α} {i j : ℕ}

omit [DecidableEq α] in
theorem exchange_eq (hi : i < seq.length) (hj : j < seq.length) :
    exchange i j seq = (seq.set i seq[j]).set j seq[i] := by
  simp only [exchange, List.getElem?_eq_getElem hi, List.getElem?_eq_getElem hj]

omit [DecidableEq α] in
@[simp]
theorem length_exchange (i j : ℕ) (seq : List α) : (exchange i j seq).length = seq.length := by
  unfold exchange
  split <;> simp

omit [DecidableEq α] in
theorem exchange_exchange (hi : i < seq.length) (hj : j < seq.length) : exchange i j (exchange i j seq) = seq := by
  have hi' : i < ((seq.set i seq[j]).set j seq[i]).length := by simpa using hi
  have hj' : j < ((seq.set i seq[j]).set j seq[i]).length := by simpa using hj
  rw [exchange_eq hi hj, exchange_eq hi' hj']
  refine List.ext_getElem (by simp) fun k h1 h2 => ?_
  simp only [List.getElem_set]
  split_ifs <;> subst_vars <;> rfl

omit [DecidableEq α] in
theorem perm_exchange (hi : i < seq.length) (hj : j < seq.length) : (exchange i j seq).Perm seq := by
  rw [exchange_eq hi hj]
  have hj1 : j < (seq.set i seq[j]).length := by rwa [List.length_set]
  have hread : (seq.set i seq[j])[j] = seq[j] := by
    rw [List.getElem_set]
    split_ifs with h
    · subst h; rfl
    · rfl
  have h1 := cons_set_perm (seq.set i seq[j]) seq[i] hj1
  have h2 := cons_set_perm seq seq[j] hi
  rw [hread] at h1
  exact (h1.trans h2).cons_inv

omit [DecidableEq α] in
theorem take_succ_exchange (hij : i ≤ j) (hj : j < seq.length) :
    (exchange i j seq).take (i + 1) = seq.take i ++ [seq[j]] := by
  have hi : i < seq.length := by omega
  rw [List.take_add_one, exchange_eq hi hj, List.take_set_of_le hij, List.take_set_of_le le_rfl]
  congr 1
  rw [List.getElem?_set, List.getElem?_set]
  by_cases h : j = i
  · subst h; simp [hj]
  · simp [h, hi]

end Exchange

section Recursion

variable {n : ℕ}

/-- The step of the each over `j`. -/
def uniqueStep (i n : ℕ) (acc : List α × List (List α)) (j : ℕ) : List α × List (List α) :=
  if shouldSwap i j acc.1 then
    (exchange i j (uniquePermutations (exchange i j acc.1) (i + 1) n).1,
      acc.2 ++ (uniquePermutations (exchange i j acc.1) (i + 1) n).2)
  else acc

theorem uniquePermutations_of_le {seq : List α} {i : ℕ} (h : n ≤ i) : uniquePermutations seq i n = (seq, [seq]) := by
  rw [uniquePermutations, dif_pos h]

theorem uniquePermutations_of_lt {seq : List α} {i : ℕ} (h : i < n) :
    uniquePermutations seq i n = (List.range' i (n - i)).foldl (uniqueStep i n) (seq, []) := by
  rw [uniquePermutations, dif_neg (by omega)]
  rfl

theorem foldl_uniqueStep {seq : List α} {i : ℕ} (hseq : seq.length = n)
    (hrest : ∀ j, i ≤ j → j < n → (uniquePermutations (exchange i j seq) (i + 1) n).1 = exchange i j seq) :
    ∀ (js : List ℕ) (out : List (List α)), (∀ j ∈ js, i ≤ j ∧ j < n) →
      js.foldl (uniqueStep i n) (seq, out) =
        (seq, out ++ js.flatMap fun j =>
          if shouldSwap i j seq then (uniquePermutations (exchange i j seq) (i + 1) n).2 else [])
  | [], out, _ => by rw [List.foldl_nil, List.flatMap_nil, List.append_nil]
  | j :: js, out, hjs => by
    obtain ⟨hij, hjn⟩ := hjs j List.mem_cons_self
    have hi : i < seq.length := by omega
    have hj : j < seq.length := by omega
    rw [List.foldl_cons, List.flatMap_cons, ← List.append_assoc]
    by_cases hs : shouldSwap i j seq
    · rw [uniqueStep, if_pos hs, hrest j hij hjn, exchange_exchange hi hj, if_pos hs]
      exact foldl_uniqueStep hseq hrest js _ fun j' hj' => hjs j' (List.mem_cons_of_mem _ hj')
    · rw [uniqueStep, if_neg hs, if_neg hs, List.append_nil]
      exact foldl_uniqueStep hseq hrest js _ fun j' hj' => hjs j' (List.mem_cons_of_mem _ hj')

theorem uniquePermutations_eq : ∀ (d i : ℕ) (seq : List α), seq.length = n → n - i = d →
    (uniquePermutations seq i n).1 = seq ∧
      (i < n → (uniquePermutations seq i n).2 = (List.range' i (n - i)).flatMap fun j =>
        if shouldSwap i j seq then (uniquePermutations (exchange i j seq) (i + 1) n).2 else [])
  | 0, i, seq, _, hd => by
    rw [uniquePermutations_of_le (by omega)]
    exact ⟨rfl, fun h => absurd hd (by omega)⟩
  | d + 1, i, seq, hseq, hd => by
    have hrest : ∀ j, i ≤ j → j < n → (uniquePermutations (exchange i j seq) (i + 1) n).1 = exchange i j seq :=
      fun j _ _ => (uniquePermutations_eq d (i + 1) _ (by rw [length_exchange, hseq]) (by omega)).1
    have hloop := foldl_uniqueStep hseq hrest (List.range' i (n - i)) [] fun j hj => by
      rw [List.mem_range'_1] at hj
      omega
    rw [uniquePermutations_of_lt (by omega), hloop, List.nil_append]
    exact ⟨rfl, fun _ => rfl⟩

end Recursion

section Spec

variable {n : ℕ}

theorem shouldSwap_iff {seq : List α} {i j : ℕ} (hj : j < seq.length) :
    shouldSwap i j seq = true ↔ ∀ k, i ≤ k → k < j → seq[k]? ≠ some seq[j] := by
  rw [shouldSwap, List.getElem?_eq_getElem hj, decide_eq_true_iff, List.mem_iff_getElem?]
  constructor
  · rintro h k hik hkj heq
    refine h ⟨k - i, ?_⟩
    rw [List.getElem?_take, if_pos (by omega), List.getElem?_drop, Nat.add_sub_cancel' hik, heq]
  · rintro h ⟨t, ht⟩
    rw [List.getElem?_take] at ht
    split_ifs at ht with htj
    rw [List.getElem?_drop] at ht
    exact h (i + t) (by omega) (by omega) ht

theorem mem_uniquePermutations : ∀ (d i : ℕ) (seq : List α), seq.length = n → n - i = d → i ≤ n →
    ∀ m, m ∈ (uniquePermutations seq i n).2 ↔ m.take i = seq.take i ∧ m.Perm seq
  | 0, i, seq, hseq, hd, hi, m => by
    rw [uniquePermutations_of_le (by omega), List.mem_singleton]
    constructor
    · rintro rfl
      exact ⟨rfl, List.Perm.refl _⟩
    · rintro ⟨htake, hperm⟩
      rwa [List.take_of_length_le (by rw [hperm.length_eq]; omega), List.take_of_length_le (by omega)] at htake
  | d + 1, i, seq, hseq, hd, hi, m => by
    have hin : i < n := by omega
    have hlenE : ∀ j, (exchange i j seq).length = n := fun j => by rw [length_exchange, hseq]
    rw [(uniquePermutations_eq (d + 1) i seq hseq hd).2 hin, List.mem_flatMap]
    constructor
    · rintro ⟨j, hj, hm⟩
      rw [List.mem_range'_1] at hj
      split_ifs at hm with hs
      · obtain ⟨htake, hperm⟩ := (mem_uniquePermutations d (i + 1) _ (hlenE j) (by omega) (by omega) m).mp hm
        rw [take_succ_exchange hj.1 (by omega)] at htake
        refine ⟨?_, hperm.trans (perm_exchange (by omega) (by omega))⟩
        have h := congrArg (List.take i) htake
        rwa [List.take_take, Nat.min_eq_left (Nat.le_succ i), List.take_left' (List.length_take_of_le (by omega))]
          at h
      · exact absurd hm List.not_mem_nil
    · rintro ⟨htake, hperm⟩
      have hmlen : m.length = n := hperm.length_eq.trans hseq
      have hdrop : (m.drop i).Perm (seq.drop i) := by
        have h := hperm
        rw [← List.take_append_drop i m, ← List.take_append_drop i seq, htake] at h
        exact (List.perm_append_left_iff _).mp h
      have hmi : m[i] ∈ seq.drop i := hdrop.subset (List.mem_iff_getElem.mpr ⟨0, by simp; omega, by simp⟩)
      obtain ⟨t, ht, hteq⟩ := List.getElem_of_mem hmi
      have hex : ∃ j, i ≤ j ∧ j < n ∧ seq[j]? = some m[i] :=
        ⟨i + t, by omega, by simp at ht; omega, by rw [← hteq, List.getElem_drop, List.getElem?_eq_getElem]⟩
      obtain ⟨j, ⟨hij, hjn, hjv⟩, hmin⟩ : ∃ j, (i ≤ j ∧ j < n ∧ seq[j]? = some m[i]) ∧
          ∀ k, i ≤ k → k < j → seq[k]? ≠ some m[i] :=
        ⟨Nat.find hex, Nat.find_spec hex, fun k hik hkj heq =>
          Nat.find_min hex hkj ⟨hik, by have := (Nat.find_spec hex).2.1; omega, heq⟩⟩
      have hjlen : j < seq.length := by omega
      have hseqj : seq[j] = m[i] := by
        rw [List.getElem?_eq_getElem hjlen] at hjv
        exact Option.some.inj hjv
      have hs : shouldSwap i j seq = true :=
        (shouldSwap_iff hjlen).mpr fun k hik hkj => by rw [hseqj]; exact hmin k hik hkj
      refine ⟨j, List.mem_range'_1.mpr ⟨hij, by omega⟩, ?_⟩
      rw [if_pos hs]
      refine (mem_uniquePermutations d (i + 1) _ (hlenE _) (by omega) (by omega) m).mpr
        ⟨?_, hperm.trans (perm_exchange (by omega) hjlen).symm⟩
      rw [take_succ_exchange hij hjlen, hseqj, List.take_add_one, htake, List.getElem?_eq_getElem (by omega),
        Option.toList_some]

theorem nodup_uniquePermutations : ∀ (d i : ℕ) (seq : List α), seq.length = n → n - i = d → i ≤ n →
    (uniquePermutations seq i n).2.Nodup
  | 0, i, seq, _, hd, hi => by
    rw [uniquePermutations_of_le (by omega)]
    exact List.nodup_singleton _
  | d + 1, i, seq, hseq, hd, hi => by
    have hlenE : ∀ j, (exchange i j seq).length = n := fun j => by rw [length_exchange, hseq]
    rw [(uniquePermutations_eq (d + 1) i seq hseq hd).2 (by omega), List.nodup_flatMap]
    refine ⟨fun j hj => ?_, (List.pairwise_lt_range' 1 (by omega)).imp_of_mem fun {j j'} hj hj' hjj' => ?_⟩
    · split_ifs
      · exact nodup_uniquePermutations d (i + 1) _ (hlenE j) (by omega) (by omega)
      · exact List.nodup_nil
    · rw [List.mem_range'_1] at hj hj'
      have hjlen : j < seq.length := by omega
      have hjlen' : j' < seq.length := by omega
      intro m hm hm'
      dsimp only at hm hm'
      by_cases hs : shouldSwap i j seq
      · by_cases hs' : shouldSwap i j' seq
        · -- both calls put their element at position `i`, and the later element is new
          rw [if_pos hs] at hm
          rw [if_pos hs'] at hm'
          have htake := ((mem_uniquePermutations d (i + 1) _ (hlenE j) (by omega) (by omega) m).mp hm).1
          have htake' := ((mem_uniquePermutations d (i + 1) _ (hlenE j') (by omega) (by omega) m).mp hm').1
          rw [take_succ_exchange hj.1 hjlen] at htake
          rw [take_succ_exchange hj'.1 hjlen'] at htake'
          have heq : seq[j] = seq[j'] := List.singleton_inj.mp (List.append_cancel_left (htake.symm.trans htake'))
          exact (shouldSwap_iff hjlen').mp hs' j hj.1 hjj' (by rw [List.getElem?_eq_getElem hjlen, heq])
        · rw [if_neg hs'] at hm'
          exact List.not_mem_nil hm'
      · rw [if_neg hs] at hm
        exact List.not_mem_nil hm

/-- all-unique-permutations lists every rearrangement of the sequence, repeated
elements included, exactly once, and each-unique-permutation leaves the array
as it found it. -/
theorem allUniquePermutations_spec (seq : List α) :
    (∀ m, m ∈ allUniquePermutations seq ↔ m.Perm seq) ∧ (allUniquePermutations seq).Nodup ∧
      (uniquePermutations seq 0 seq.length).1 = seq := by
  refine ⟨fun m => ?_, nodup_uniquePermutations _ 0 seq rfl rfl (Nat.zero_le _),
    (uniquePermutations_eq _ 0 seq rfl rfl).1⟩
  rw [allUniquePermutations, mem_uniquePermutations _ 0 seq rfl rfl (Nat.zero_le _), List.take_zero, List.take_zero]
  exact and_iff_right rfl

end Spec

end FactorProofs.Math.UniquePermutations
