import Mathlib.Data.List.Basic
import Mathlib.Algebra.GroupWithZero.Nat

namespace FactorProofs.Runs

/-! Maximal runs of unmarked positions in `[0, n)`. Scanning from a position
for the next unmarked one, and from there for the next marked one, lists the
runs in order; their lengths add up to the number of unmarked positions. -/

/-- The first position of `[l, l + k)` where `p` holds, or `l + k`. -/
def scan (p : ℕ → Bool) : ℕ → ℕ → ℕ
  | l, 0 => l
  | l, k + 1 => if p l then l else scan p (l + 1) k

section Scan

variable {p : ℕ → Bool}

theorem scan_bounds (l k : ℕ) : l ≤ scan p l k ∧ scan p l k ≤ l + k := by
  induction k generalizing l with
  | zero => exact ⟨Nat.le_refl l, Nat.le_refl l⟩
  | succ k ih =>
    by_cases hpl : p l
    · rw [scan, if_pos hpl]
      omega
    · rw [scan, if_neg hpl]
      have := ih (l + 1)
      omega

theorem scan_false {l k j : ℕ} (hl : l ≤ j) (hj : j < scan p l k) : p j = false := by
  induction k generalizing l with
  | zero => exact absurd hj (by rw [scan]; omega)
  | succ k ih =>
    by_cases hpl : p l
    · rw [scan, if_pos hpl] at hj
      omega
    · rw [scan, if_neg hpl] at hj
      rcases Nat.eq_or_lt_of_le hl with rfl | hlt
      · simpa using hpl
      · exact ih hlt hj

theorem scan_true {l k : ℕ} (h : scan p l k < l + k) : p (scan p l k) = true := by
  induction k generalizing l with
  | zero => exact absurd h (by rw [scan]; omega)
  | succ k ih =>
    by_cases hpl : p l
    · rw [scan, if_pos hpl]
      exact hpl
    · rw [scan, if_neg hpl] at h ⊢
      exact ih (by omega)

theorem scan_eq {l k L : ℕ} (hl : l ≤ L) (hL : L ≤ l + k) (hbefore : ∀ j, l ≤ j → j < L → p j = false)
    (hat : L < l + k → p L = true) : scan p l k = L := by
  obtain ⟨hle, hle'⟩ := scan_bounds (p := p) l k
  rcases Nat.lt_trichotomy (scan p l k) L with hlt | heq | hgt
  · -- a position before `L` where `p` holds
    have := hbefore _ hle hlt
    rw [scan_true (p := p) (l := l) (k := k) (by omega)] at this
    cases this
  · exact heq
  · have := scan_false hl hgt
    rw [hat (by omega)] at this
    cases this

end Scan

section Runs

variable (marked : ℕ → Bool) (n : ℕ)

/-- `(L, k)` is a maximal run: the `k > 0` positions from `L` are unmarked and
lie in `[0, n)`, and on each side is a marked position or an end. -/
def IsRun (L k : ℕ) : Prop :=
  0 < k ∧ L + k ≤ n ∧ (∀ j, L ≤ j → j < L + k → marked j = false) ∧
    (L = 0 ∨ marked (L - 1) = true) ∧ (L + k = n ∨ marked (L + k) = true)

/-- The position `l` does not split a run: it is an end, or a marked position
stands on one side of it. -/
def Boundary (l : ℕ) : Prop := l = 0 ∨ n ≤ l ∨ marked (l - 1) = true ∨ marked l = true

/-- The first unmarked position from `l`, or `n`. -/
def nextUnmarked (l : ℕ) : ℕ := scan (fun j => !marked j) l (n - l)

/-- The first marked position from `l`, or `n`. -/
def nextMarked (l : ℕ) : ℕ := scan marked l (n - l)

/-- The runs from `l` on, in order: from the next unmarked position to the
next marked one, then on from there. A turn passes at least one position, so
`n - l` turns are enough. -/
def runsFrom : ℕ → ℕ → List (ℕ × ℕ)
  | 0, _ => []
  | fuel + 1, l =>
    let L := nextUnmarked marked n l
    if L < n then
      let M := nextMarked marked n L
      (L, M - L) :: runsFrom fuel M
    else []

/-- The number of unmarked positions of `[l, n)`. -/
def unmarkedCount (l : ℕ) : ℕ := (List.range' l (n - l)).countP fun j => !marked j

theorem le_nextUnmarked (l : ℕ) : l ≤ nextUnmarked marked n l := (scan_bounds _ _).1

theorem nextMarked_bounds {l : ℕ} (hl : l ≤ n) : l ≤ nextMarked marked n l ∧ nextMarked marked n l ≤ n := by
  have := scan_bounds (p := marked) l (n - l)
  rw [nextMarked]
  omega

theorem boundary_nextMarked (l : ℕ) : Boundary marked n (nextMarked marked n l) := by
  have hb := scan_bounds (p := marked) l (n - l)
  by_cases h : scan marked l (n - l) < l + (n - l)
  · exact .inr (.inr (.inr (scan_true h)))
  · exact .inr (.inl (by rw [nextMarked]; omega))

variable {marked n} {l L : ℕ}

theorem marked_of_lt_nextUnmarked {j : ℕ} (hl : l ≤ j) (hj : j < nextUnmarked marked n l) :
    marked j = true := by
  simpa using scan_false hl hj

theorem unmarked_nextUnmarked (h : nextUnmarked marked n l < n) :
    marked (nextUnmarked marked n l) = false := by
  have hl := le_nextUnmarked marked n l
  have := scan_true (p := fun j => !marked j) (l := l) (k := n - l) (by rw [nextUnmarked] at h hl; omega)
  simpa [nextUnmarked] using this

theorem nextUnmarked_of_ge (h : n ≤ l) : nextUnmarked marked n l = l := by
  rw [nextUnmarked, Nat.sub_eq_zero_of_le h, scan]

theorem nextUnmarked_le (hl : l ≤ n) : nextUnmarked marked n l ≤ n := by
  have := scan_bounds (p := fun j => !marked j) l (n - l)
  rw [nextUnmarked]
  omega

theorem marked_nextMarked (h : nextMarked marked n l < n) : marked (nextMarked marked n l) = true := by
  have hl := (nextMarked_bounds marked n (Nat.le_of_lt (Nat.lt_of_le_of_lt
    (scan_bounds (p := marked) l (n - l)).1 h))).1
  exact scan_true (by rw [nextMarked] at h hl; omega)

theorem unmarked_of_lt_nextMarked {j : ℕ} (hl : l ≤ j) (hj : j < nextMarked marked n l) :
    marked j = false :=
  scan_false hl hj

theorem lt_nextMarked (hL : L < n) (hu : marked L = false) : L < nextMarked marked n L := by
  obtain ⟨hle, -⟩ := nextMarked_bounds marked n (Nat.le_of_lt hL)
  rcases Nat.eq_or_lt_of_le hle with heq | hlt
  · -- the scan stops at `L` only at a mark
    have heq' : scan marked L (n - L) = L := heq.symm
    have := scan_true (p := marked) (l := L) (k := n - L) (by omega)
    rw [heq', hu] at this
    cases this
  · exact hlt

theorem IsRun.nextMarked_eq {k : ℕ} (h : IsRun marked n L k) : nextMarked marked n L = L + k := by
  obtain ⟨hk, hkn, hun, -, hright⟩ := h
  apply scan_eq (Nat.le_add_right L k) (by omega) hun
  intro hlt
  rcases hright with heq | hm
  · omega
  · exact hm

theorem isRun_next (hb : Boundary marked n l) (hL : nextUnmarked marked n l < n) :
    IsRun marked n (nextUnmarked marked n l)
      (nextMarked marked n (nextUnmarked marked n l) - nextUnmarked marked n l) := by
  have hu := unmarked_nextUnmarked hL
  have hlt := lt_nextMarked hL hu
  obtain ⟨-, hMn⟩ := nextMarked_bounds marked n (Nat.le_of_lt hL)
  refine ⟨by omega, by omega, fun j hj hjM => unmarked_of_lt_nextMarked (n := n) hj (by omega), ?_, ?_⟩
  · -- the left side: `l` itself, or a mark passed by the scan
    rcases Nat.eq_or_lt_of_le (le_nextUnmarked marked n l) with heq | hlt'
    · rw [← heq]
      rcases hb with h0 | hn | hm | hm
      · exact .inl h0
      · omega
      · exact .inr hm
      · rw [heq, hu] at hm
        cases hm
    · exact .inr (marked_of_lt_nextUnmarked (n := n) (l := l) (by omega) (by omega))
  · rw [Nat.add_sub_cancel' (Nat.le_of_lt hlt)]
    rcases boundary_nextMarked marked n (nextUnmarked marked n l) with h0 | hn | hm | hm
    · omega
    · exact .inl (by omega)
    · -- the position before the mark is in the run
      have hu' : marked (nextMarked marked n (nextUnmarked marked n l) - 1) = false :=
        unmarked_of_lt_nextMarked (n := n) (l := nextUnmarked marked n l) (by omega) (by omega)
      rw [hu'] at hm
      cases hm
    · exact .inr hm

theorem IsRun.eq_or_le {k : ℕ} (h : IsRun marked n L k) (hl : l ≤ L) :
    L = nextUnmarked marked n l ∨ nextMarked marked n (nextUnmarked marked n l) ≤ L := by
  obtain ⟨hk, hkn, hun, hleft, -⟩ := h
  have hLu : marked L = false := hun L (Nat.le_refl L) (by omega)
  have hge : nextUnmarked marked n l ≤ L := by
    by_contra hlt
    have hm : marked L = true := marked_of_lt_nextUnmarked (n := n) hl (by omega)
    rw [hm] at hLu
    cases hLu
  rcases Nat.eq_or_lt_of_le hge with heq | hlt
  · exact .inl heq.symm
  · refine .inr (Nat.le_of_not_lt fun hM => ?_)
    rcases hleft with h0 | hm
    · omega
    · have hu : marked (L - 1) = false :=
        unmarked_of_lt_nextMarked (n := n) (l := nextUnmarked marked n l) (by omega) (by omega)
      rw [hu] at hm
      cases hm

theorem mem_runsFrom {fuel : ℕ} (hfuel : n - l ≤ fuel) (hb : Boundary marked n l) {k : ℕ} :
    (L, k) ∈ runsFrom marked n fuel l ↔ IsRun marked n L k ∧ l ≤ L := by
  induction fuel generalizing l with
  | zero =>
    simp only [runsFrom, List.not_mem_nil, false_iff, not_and]
    intro h hl
    obtain ⟨hk, hkn, -⟩ := h
    omega
  | succ fuel ih =>
    by_cases hL : nextUnmarked marked n l < n
    · have hrun := isRun_next hb hL
      have hlt := lt_nextMarked hL (unmarked_nextUnmarked hL)
      have hle := le_nextUnmarked marked n l
      have ih' := ih (l := nextMarked marked n (nextUnmarked marked n l)) (by omega)
        (boundary_nextMarked marked n _)
      simp only [runsFrom, if_pos hL, List.mem_cons, Prod.mk.injEq, ih']
      constructor
      · rintro (⟨rfl, rfl⟩ | ⟨hr, hM⟩)
        · exact ⟨hrun, hle⟩
        · exact ⟨hr, by omega⟩
      · rintro ⟨hr, hlL⟩
        rcases hr.eq_or_le hlL with rfl | hM
        · -- the same start gives the same end
          have := hr.nextMarked_eq
          exact .inl ⟨rfl, by omega⟩
        · exact .inr ⟨hr, hM⟩
    · -- no unmarked position is left
      simp only [runsFrom, if_neg hL, List.not_mem_nil, false_iff, not_and]
      intro hr hlL
      obtain ⟨hk, hkn, hun, -⟩ := hr
      have := hun L (Nat.le_refl L) (by omega)
      have hm : marked L = true := marked_of_lt_nextUnmarked (n := n) hlL (by omega)
      rw [hm] at this
      cases this

theorem runsFrom_eq_nil (h : n ≤ l) (fuel : ℕ) : runsFrom marked n fuel l = [] := by
  cases fuel with
  | zero => rfl
  | succ fuel => simp only [runsFrom, nextUnmarked_of_ge h, if_neg (Nat.not_lt.mpr h)]

theorem runsFrom_congr {fuel fuel' : ℕ} (hf : n - l ≤ fuel) (hf' : n - l ≤ fuel') :
    runsFrom marked n fuel l = runsFrom marked n fuel' l := by
  induction fuel generalizing l fuel' with
  | zero => rw [runsFrom_eq_nil (n := n) (l := l) (by omega), runsFrom_eq_nil (n := n) (l := l) (by omega)]
  | succ fuel ih =>
    rcases Nat.lt_or_ge l n with hl | hl
    · obtain ⟨f', rfl⟩ : ∃ f', fuel' = f' + 1 := ⟨fuel' - 1, by omega⟩
      by_cases hL : nextUnmarked marked n l < n
      · have hlt := lt_nextMarked hL (unmarked_nextUnmarked hL)
        have hle := le_nextUnmarked marked n l
        simp only [runsFrom, if_pos hL]
        exact congrArg (List.cons _) (ih (by omega) (by omega))
      · simp only [runsFrom, if_neg hL]
    · rw [runsFrom_eq_nil hl, runsFrom_eq_nil hl]

theorem runsFrom_pairwise {fuel : ℕ} (hfuel : n - l ≤ fuel) (hb : Boundary marked n l) :
    (runsFrom marked n fuel l).Pairwise fun a b => a.1 + a.2 < b.1 := by
  induction fuel generalizing l with
  | zero => exact List.Pairwise.nil
  | succ fuel ih =>
    by_cases hL : nextUnmarked marked n l < n
    · have hlt := lt_nextMarked hL (unmarked_nextUnmarked hL)
      have hle := le_nextUnmarked marked n l
      have hfuel' : n - nextMarked marked n (nextUnmarked marked n l) ≤ fuel := by omega
      simp only [runsFrom, if_pos hL]
      refine List.Pairwise.cons ?_ (ih hfuel' (boundary_nextMarked marked n _))
      rintro ⟨L', k'⟩ hmem
      obtain ⟨⟨hk, hkn, hun, -⟩, hM⟩ := (mem_runsFrom hfuel' (boundary_nextMarked marked n _)).mp hmem
      dsimp only
      rw [Nat.add_sub_cancel' (Nat.le_of_lt hlt)]
      rcases Nat.eq_or_lt_of_le hM with heq | hgt
      · rcases boundary_nextMarked marked n (nextUnmarked marked n l) with h0 | hn | hm | hm
        · omega
        · omega
        · have hu : marked (nextMarked marked n (nextUnmarked marked n l) - 1) = false :=
            unmarked_of_lt_nextMarked (n := n) (l := nextUnmarked marked n l) (by omega) (by omega)
          rw [hu] at hm
          cases hm
        · rw [heq, hun L' (Nat.le_refl L') (by omega)] at hm
          cases hm
      · exact hgt
    · simp only [runsFrom, if_neg hL]
      exact List.Pairwise.nil

section Count

theorem unmarkedCount_split {M : ℕ} (hlM : l ≤ M) (hM : M ≤ n) :
    unmarkedCount marked n l =
      (List.range' l (M - l)).countP (fun j => !marked j) + unmarkedCount marked n M := by
  have hsplit : List.range' l (n - l) = List.range' l (M - l) ++ List.range' M (n - M) := by
    have := @List.range'_append_1 l (M - l) (n - M)
    rw [show l + (M - l) = M by omega, show M - l + (n - M) = n - l by omega] at this
    exact this.symm
  rw [unmarkedCount, hsplit, List.countP_append, unmarkedCount]

theorem unmarkedCount_of_marked (hlL : l ≤ L) (hL : L ≤ n) (hgap : ∀ j, l ≤ j → j < L → marked j = true) :
    unmarkedCount marked n l = unmarkedCount marked n L := by
  rw [unmarkedCount_split hlL hL, List.countP_eq_zero.mpr, Nat.zero_add]
  intro j hj
  rw [List.mem_range'_1] at hj
  simp [hgap j hj.1 (by omega)]

theorem unmarkedCount_of_unmarked {M : ℕ} (hLM : L ≤ M) (hM : M ≤ n)
    (hgap : ∀ j, L ≤ j → j < M → marked j = false) :
    unmarkedCount marked n L = M - L + unmarkedCount marked n M := by
  rw [unmarkedCount_split hLM hM, List.countP_eq_length.mpr, List.length_range']
  intro j hj
  rw [List.mem_range'_1] at hj
  simp [hgap j hj.1 (by omega)]

theorem sum_runsFrom {fuel : ℕ} (hfuel : n - l ≤ fuel) :
    ((runsFrom marked n fuel l).map Prod.snd).sum = unmarkedCount marked n l := by
  induction fuel generalizing l with
  | zero => simp [runsFrom, unmarkedCount, Nat.le_zero.mp hfuel]
  | succ fuel ih =>
    by_cases hL : nextUnmarked marked n l < n
    · have hlt := lt_nextMarked hL (unmarked_nextUnmarked hL)
      have hle := le_nextUnmarked marked n l
      obtain ⟨-, hMn⟩ := nextMarked_bounds marked n (Nat.le_of_lt hL)
      simp only [runsFrom, if_pos hL, List.map_cons, List.sum_cons]
      rw [ih (by omega), unmarkedCount_of_marked hle (Nat.le_of_lt hL) fun j hj hjL =>
        marked_of_lt_nextUnmarked hj hjL, unmarkedCount_of_unmarked (Nat.le_of_lt hlt) hMn fun j hj hjM =>
        unmarked_of_lt_nextMarked hj hjM]
    · simp only [runsFrom, if_neg hL, List.map_nil, List.sum_nil]
      by_cases hln : l ≤ n
      · rw [unmarkedCount_of_marked hln (Nat.le_refl n) fun j hj hjn =>
          marked_of_lt_nextUnmarked (n := n) hj (by omega)]
        simp [unmarkedCount]
      · simp [unmarkedCount, Nat.sub_eq_zero_of_le (Nat.le_of_not_le hln)]

end Count

end Runs

end FactorProofs.Runs
