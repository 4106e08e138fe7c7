import FactorProofs.Math.Reals

namespace FactorProofs.Math

/-- The answer of `interval<` and its kind: `t`, `f` or `incomparable`. -/
inductive Answer
  | t
  | f
  | incomparable
  deriving DecidableEq

namespace ExactIntervals

/-- An endpoint `{ value closed? }`. -/
structure Endpoint where
  value : Value
  closed : Bool
  deriving DecidableEq

/-- `empty-interval`, `full-interval`, and the `interval` tuple of its two
endpoints, as `<interval>` builds it. -/
inductive Interval
  | empty
  | full
  | mk (lo hi : Endpoint)
  deriving DecidableEq

namespace Interval

/-- `from>>`: the empty interval reads as `{ 1/0. f }`, the full one as
`{ -1/0. t }`. -/
def fromPoint : Interval → Endpoint
  | empty => ⟨.posInf, false⟩
  | full => ⟨.negInf, true⟩
  | mk lo _ => lo

/-- `to>>` -/
def toPoint : Interval → Endpoint
  | empty => ⟨.negInf, false⟩
  | full => ⟨.posInf, true⟩
  | mk _ hi => hi

/-- `special-interval?` -/
def specialP : Interval → Bool
  | empty | full => true
  | mk _ _ => false

end Interval

/-- `compare-endpoints`: the values compare by `quot`, and equal values by
their flags, the first being closed or the second open. -/
def compareEndpoints (quot : Value → Value → Bool) (p1 p2 : Endpoint) : Bool :=
  if quot p1.value p2.value then true
  else if p1.value = p2.value then p1.closed || !p2.closed
  else false

/-- `endpoint=` -/
def endpointEq (p1 p2 : Endpoint) : Bool := decide (p1.value = p2.value) && p1.closed == p2.closed

/-- `endpoint<` -/
def endpointLt (p1 p2 : Endpoint) : Bool := compareEndpoints (fun a b => decide (a < b)) p1 p2

/-- `endpoint>` -/
def endpointGt (p1 p2 : Endpoint) : Bool := compareEndpoints (fun a b => decide (a > b)) p1 p2

/-- `<interval>`: empty when the endpoints cross or meet without both being
closed, and `full-interval` for `{ -1/0. t } { 1/0. t }`. -/
def mkInterval (lo hi : Endpoint) : Interval :=
  if lo.value > hi.value then .empty
  else if lo.value = hi.value then (if lo.closed && hi.closed then .mk lo hi else .empty)
  else if lo = ⟨.negInf, true⟩ ∧ hi = ⟨.posInf, true⟩ then .full
  else .mk lo hi

/-- `[a,b]` -/
def closedInterval (a b : Value) : Interval := mkInterval ⟨a, true⟩ ⟨b, true⟩

/-- `[a,b)` -/
def closedOpenInterval (a b : Value) : Interval := mkInterval ⟨a, true⟩ ⟨b, false⟩

/-- `(a,b]` -/
def openClosedInterval (a b : Value) : Interval := mkInterval ⟨a, false⟩ ⟨b, true⟩

/-- `interval-intersect`: the later of the lower endpoints and the earlier of
the upper ones, each chosen by `most`. -/
def intervalIntersect : Interval → Interval → Interval
  | .empty, _ => .empty
  | _, .empty => .empty
  | .full, i2 => i2
  | i1, .full => i1
  | .mk lo1 hi1, .mk lo2 hi2 =>
    mkInterval (if endpointLt lo2 lo1 then lo1 else lo2) (if endpointGt hi2 hi1 then hi1 else hi2)

/-- `interval-subset?`: the intersection is the first interval. -/
def intervalSubsetP (i1 i2 : Interval) : Bool := decide (intervalIntersect i1 i2 = i1)

/-- `interval-singleton?`: a closed point. -/
def intervalSingletonP : Interval → Bool
  | .mk lo hi => lo.closed && hi.closed && decide (lo.value = hi.value)
  | _ => false

/-- `interval-contains?` -/
def intervalContainsP (x : ℚ) : Interval → Bool
  | .empty => false
  | .full => true
  | .mk lo hi =>
    (if lo.closed then decide (lo.value ≤ .num x) else decide (lo.value < .num x)) &&
      (if hi.closed then decide (.num x ≤ hi.value) else decide (.num x < hi.value))

/-- `left-endpoint-<`: the second interval is a closed point inside the first
that starts at the same endpoint. -/
def leftEndpointLt (i1 i2 : Interval) : Bool :=
  intervalSubsetP i2 i1 && intervalSingletonP i2 && endpointEq i1.fromPoint i2.fromPoint

/-- `right-endpoint-<`: the first interval is a closed point inside the
second that ends at the same endpoint. -/
def rightEndpointLt (i1 i2 : Interval) : Bool :=
  intervalSubsetP i1 i2 && intervalSingletonP i1 && endpointEq i1.toPoint i2.toPoint

/-- `(interval<)`: which of two disjoint intervals starts first. -/
def intervalLtAux (i1 i2 : Interval) : Answer :=
  if endpointLt i1.fromPoint i2.fromPoint then .t else .f

/-- `interval<` -/
def intervalLt (i1 i2 : Interval) : Answer :=
  if i1.specialP || i2.specialP then .incomparable
  else if intervalIntersect i1 i2 = .empty then intervalLtAux i1 i2
  else if leftEndpointLt i1 i2 then .f
  else if rightEndpointLt i1 i2 then .f
  else .incomparable

/-- `right-endpoint-<=`: the first interval ends where the second starts. -/
def rightEndpointLe (i1 i2 : Interval) : Bool := endpointEq i1.toPoint i2.fromPoint

/-- `interval<=` -/
def intervalLe (i1 i2 : Interval) : Answer :=
  if i1.specialP || i2.specialP then .incomparable
  else if intervalIntersect i1 i2 = .empty then intervalLtAux i1 i2
  else if rightEndpointLe i1 i2 then .t
  else .incomparable

/-- `interval>` -/
def intervalGt (i1 i2 : Interval) : Answer := intervalLt i2 i1

/-- `interval>=` -/
def intervalGe (i1 i2 : Interval) : Answer := intervalLe i2 i1

/-- `assume<`: what is below some member of `i2`, `[-inf,b)` for its upper
endpoint `b`; a special `i2` tells nothing. -/
def assumeLt (i1 i2 : Interval) : Interval :=
  if i2.specialP then i1 else intervalIntersect i1 (closedOpenInterval .negInf i2.toPoint.value)

/-- `assume<=` -/
def assumeLe (i1 i2 : Interval) : Interval :=
  if i2.specialP then i1 else intervalIntersect i1 (closedInterval .negInf i2.toPoint.value)

/-- `assume>` -/
def assumeGt (i1 i2 : Interval) : Interval :=
  if i2.specialP then i1 else intervalIntersect i1 (openClosedInterval i2.fromPoint.value .posInf)

/-- `assume>=` -/
def assumeGe (i1 i2 : Interval) : Interval :=
  if i2.specialP then i1 else intervalIntersect i1 (closedInterval i2.fromPoint.value .posInf)

section Semantics

/-- `x` is on the inner side of a lower endpoint. -/
def Endpoint.LowerSat (p : Endpoint) (x : ℚ) : Prop := if p.closed then p.value ≤ .num x else p.value < .num x

/-- `x` is on the inner side of an upper endpoint. -/
def Endpoint.UpperSat (p : Endpoint) (x : ℚ) : Prop := if p.closed then .num x ≤ p.value else .num x < p.value

/-- The rationals an interval stands for. -/
def Interval.Mem (x : ℚ) : Interval → Prop
  | .empty => False
  | .full => True
  | .mk lo hi => lo.LowerSat x ∧ hi.UpperSat x

theorem intervalContainsP_iff (x : ℚ) (i : Interval) : intervalContainsP x i = true ↔ i.Mem x := by
  cases i with
  | empty => simp [intervalContainsP, Interval.Mem]
  | full => simp [intervalContainsP, Interval.Mem]
  | mk lo hi =>
    simp only [intervalContainsP, Interval.Mem, Endpoint.LowerSat, Endpoint.UpperSat, Bool.and_eq_true]
    cases lo.closed <;> cases hi.closed <;> simp

instance (x : ℚ) (i : Interval) : Decidable (i.Mem x) := decidable_of_iff _ (intervalContainsP_iff x i)

variable {p q : Endpoint} {x y : ℚ}

theorem Endpoint.LowerSat.le (h : p.LowerSat x) : p.value ≤ .num x := by
  unfold Endpoint.LowerSat at h
  split at h
  · exact h
  · exact h.le

theorem Endpoint.UpperSat.le (h : p.UpperSat x) : .num x ≤ p.value := by
  unfold Endpoint.UpperSat at h
  split at h
  · exact h
  · exact h.le

theorem Endpoint.LowerSat.of_le (h : p.LowerSat x) (hxy : x ≤ y) : p.LowerSat y := by
  have hval : Value.num x ≤ .num y := Value.num_le_num.mpr hxy
  unfold Endpoint.LowerSat at *
  by_cases hc : p.closed = true
  · rw [if_pos hc] at h ⊢
    exact h.trans hval
  · rw [if_neg hc] at h ⊢
    exact h.trans_le hval

theorem Endpoint.UpperSat.of_le (h : p.UpperSat y) (hxy : x ≤ y) : p.UpperSat x := by
  have hval : Value.num x ≤ .num y := Value.num_le_num.mpr hxy
  unfold Endpoint.UpperSat at *
  by_cases hc : p.closed = true
  · rw [if_pos hc] at h ⊢
    exact hval.trans h
  · rw [if_neg hc] at h ⊢
    exact hval.trans_lt h

theorem Interval.Mem.fromPoint_le {i : Interval} (h : i.Mem x) : i.fromPoint.value ≤ .num x := by
  cases i with
  | empty => exact h.elim
  | full => exact Value.negInf_le _
  | mk lo hi => exact h.1.le

theorem Interval.Mem.le_toPoint {i : Interval} (h : i.Mem x) : .num x ≤ i.toPoint.value := by
  cases i with
  | empty => exact h.elim
  | full => exact Value.le_posInf _
  | mk lo hi => exact h.2.le

theorem Endpoint.LowerSat.of_endpointLt (h : endpointLt p q = true) (hx : q.LowerSat x) : p.LowerSat x := by
  unfold endpointLt compareEndpoints at h
  simp only [decide_eq_true_eq] at h
  unfold Endpoint.LowerSat
  split at h
  · -- a smaller value admits everything above the larger one
    rename_i hlt
    have hlt' : p.value < .num x := hlt.trans_le hx.le
    split
    · exact hlt'.le
    · exact hlt'
  split at h
  · -- equal values: `p` closed, or both open
    rename_i heq
    have hflags : p.closed = true ∨ q.closed = false := by simpa using h
    rw [heq]
    by_cases hp : p.closed = true
    · rw [if_pos hp]
      exact hx.le
    · have hq : q.closed = false := hflags.resolve_left hp
      have hx' := hx
      unfold Endpoint.LowerSat at hx'
      rw [if_neg hp]
      rw [if_neg (by simp [hq])] at hx'
      exact hx'
  · cases h

theorem endpointLt_of_eq_false (h : endpointLt p q = false) : endpointLt q p = true := by
  unfold endpointLt compareEndpoints at *
  simp only [decide_eq_true_eq] at *
  by_cases hlt : p.value < q.value
  · rw [if_pos hlt] at h
    cases h
  rw [if_neg hlt] at h
  rcases lt_or_eq_of_le (not_lt.mp hlt) with hgt | heq
  · rw [if_pos hgt]
  · -- equal values: `p` is open and `q` closed
    rw [if_pos heq.symm] at h
    have hflags : p.closed = false ∧ q.closed = true := by simpa using h
    rw [if_neg (lt_irrefl _ ∘ (heq ▸ ·)), if_pos heq]
    simp [hflags.2]

theorem mem_mkInterval {lo hi : Endpoint} (hlo : lo.LowerSat x) (hhi : hi.UpperSat x) :
    (mkInterval lo hi).Mem x := by
  unfold mkInterval
  split
  · rename_i hgt
    exact absurd (hlo.le.trans hhi.le) (not_le.mpr hgt)
  split
  · rename_i heq
    have hxval : lo.value = .num x := le_antisymm hlo.le (heq ▸ hhi.le)
    have hclosed : (lo.closed && hi.closed) = true := by
      have hlo' := hlo
      have hhi' := hhi
      unfold Endpoint.LowerSat at hlo'
      unfold Endpoint.UpperSat at hhi'
      rw [Bool.and_eq_true]
      constructor
      · by_contra hc
        rw [if_neg hc, hxval] at hlo'
        exact lt_irrefl _ hlo'
      · by_contra hc
        rw [if_neg hc, ← heq, hxval] at hhi'
        exact lt_irrefl _ hhi'
    rw [if_pos hclosed]
    exact ⟨hlo, hhi⟩
  split
  · trivial
  · exact ⟨hlo, hhi⟩

theorem mem_intervalIntersect {i1 i2 : Interval} (h1 : i1.Mem x) (h2 : i2.Mem x) :
    (intervalIntersect i1 i2).Mem x := by
  cases i1 with
  | empty => exact h1.elim
  | full =>
    cases i2 with
    | empty => exact h2.elim
    | _ => exact h2
  | mk lo1 hi1 =>
    cases i2 with
    | empty => exact h2.elim
    | full => exact h1
    | mk lo2 hi2 =>
      apply mem_mkInterval
      · split
        · exact h1.1
        · exact h2.1
      · split
        · exact h1.2
        · exact h2.2

theorem not_mem_of_intervalIntersect_eq_empty {i1 i2 : Interval} (h : intervalIntersect i1 i2 = .empty)
    (h1 : i1.Mem x) (h2 : i2.Mem x) : False := by
  have hmem := mem_intervalIntersect h1 h2
  rw [h] at hmem
  exact hmem

end Semantics

section Comparisons

variable {i1 i2 : Interval} {x y : ℚ}

theorem lt_of_disjoint {lo1 hi1 lo2 hi2 : Endpoint}
    (hdisj : intervalIntersect (.mk lo1 hi1) (.mk lo2 hi2) = .empty) (hlt : endpointLt lo1 lo2 = true)
    (hx : (Interval.mk lo1 hi1).Mem x) (hy : (Interval.mk lo2 hi2).Mem y) : x < y := by
  by_contra hle
  have hyx : y ≤ x := not_lt.mp hle
  have hyI : (Interval.mk lo1 hi1).Mem y := ⟨hy.1.of_endpointLt hlt, hx.2.of_le hyx⟩
  exact not_mem_of_intervalIntersect_eq_empty hdisj hyI hy

theorem intervalLtAux_spec {lo1 hi1 lo2 hi2 : Endpoint}
    (hdisj : intervalIntersect (.mk lo1 hi1) (.mk lo2 hi2) = .empty)
    (hx : (Interval.mk lo1 hi1).Mem x) (hy : (Interval.mk lo2 hi2).Mem y) :
    (intervalLtAux (.mk lo1 hi1) (.mk lo2 hi2) = .t → x < y) ∧
      (intervalLtAux (.mk lo1 hi1) (.mk lo2 hi2) = .f → y < x) := by
  unfold intervalLtAux Interval.fromPoint
  cases hlt : endpointLt lo1 lo2
  · refine ⟨nofun, fun _ => ?_⟩
    by_contra hle
    have hxy : x ≤ y := not_lt.mp hle
    have hxJ : (Interval.mk lo2 hi2).Mem x := ⟨hx.1.of_endpointLt (endpointLt_of_eq_false hlt), hy.2.of_le hxy⟩
    exact not_mem_of_intervalIntersect_eq_empty hdisj hx hxJ
  · exact ⟨fun _ => lt_of_disjoint hdisj hlt hx hy, nofun⟩

theorem value_eq_of_singleton {lo hi : Endpoint} (hs : intervalSingletonP (.mk lo hi) = true)
    (hy : (Interval.mk lo hi).Mem y) : lo.value = .num y ∧ lo.closed = true ∧ hi.value = .num y ∧ hi.closed = true := by
  simp only [intervalSingletonP, Bool.and_eq_true, decide_eq_true_eq] at hs
  obtain ⟨⟨hlc, hhc⟩, heq⟩ := hs
  have hval : lo.value = .num y := le_antisymm hy.1.le (heq ▸ hy.2.le)
  exact ⟨hval, hlc, heq ▸ hval, hhc⟩

theorem le_of_leftEndpointLt (h : leftEndpointLt i1 i2 = true) (hx : i1.Mem x) (hy : i2.Mem y) : y ≤ x := by
  simp only [leftEndpointLt, Bool.and_eq_true] at h
  obtain ⟨⟨-, hs⟩, heq⟩ := h
  cases i2 with
  | empty => exact hy.elim
  | full => cases hs
  | mk lo2 hi2 =>
    obtain ⟨hval, hclosed, -, -⟩ := value_eq_of_singleton hs hy
    simp only [endpointEq, Bool.and_eq_true, beq_iff_eq] at heq
    have hv : i1.fromPoint.value = lo2.value := of_decide_eq_true heq.1
    cases i1 with
    | empty => exact hx.elim
    | full => exact absurd (hv.trans hval) (by simp [Interval.fromPoint])
    | mk lo1 hi1 =>
      have hlow := hx.1
      unfold Endpoint.LowerSat at hlow
      rw [show lo1.closed = lo2.closed from heq.2, hclosed, if_pos rfl,
        show lo1.value = lo2.value from hv, hval] at hlow
      exact Value.num_le_num.mp hlow

theorem le_of_rightEndpointLt (h : rightEndpointLt i1 i2 = true) (hx : i1.Mem x) (hy : i2.Mem y) : y ≤ x := by
  simp only [rightEndpointLt, Bool.and_eq_true] at h
  obtain ⟨⟨-, hs⟩, heq⟩ := h
  cases i1 with
  | empty => exact hx.elim
  | full => cases hs
  | mk lo1 hi1 =>
    obtain ⟨-, -, hval, hclosed⟩ := value_eq_of_singleton hs hx
    simp only [endpointEq, Bool.and_eq_true, beq_iff_eq] at heq
    have hv : hi1.value = i2.toPoint.value := of_decide_eq_true heq.1
    cases i2 with
    | empty => exact hy.elim
    | full => exact absurd (hval.symm.trans hv) (by simp [Interval.toPoint])
    | mk lo2 hi2 =>
      have hup := hy.2
      unfold Endpoint.UpperSat at hup
      rw [← show hi1.closed = hi2.closed from heq.2, hclosed, if_pos rfl,
        ← show hi1.value = hi2.value from hv, hval] at hup
      exact Value.num_le_num.mp hup

theorem le_of_rightEndpointLe (h : rightEndpointLe i1 i2 = true) (hx : i1.Mem x) (hy : i2.Mem y) : x ≤ y := by
  simp only [rightEndpointLe, endpointEq, Bool.and_eq_true] at h
  have hv : i1.toPoint.value = i2.fromPoint.value := of_decide_eq_true h.1
  exact Value.num_le_num.mp (hx.le_toPoint.trans (hv ▸ hy.fromPoint_le))

theorem intervalLt_spec (hx : i1.Mem x) (hy : i2.Mem y) :
    (intervalLt i1 i2 = .t → x < y) ∧ (intervalLt i1 i2 = .f → y ≤ x) := by
  unfold intervalLt
  split
  · exact ⟨nofun, nofun⟩
  rename_i hspecial
  cases i1 with
  | empty | full => simp [Interval.specialP] at hspecial
  | mk lo1 hi1 =>
    cases i2 with
    | empty | full => simp [Interval.specialP] at hspecial
    | mk lo2 hi2 =>
      split
      · rename_i hdisj
        obtain ⟨ht, hf⟩ := intervalLtAux_spec hdisj hx hy
        exact ⟨ht, fun h => (hf h).le⟩
      split
      · exact ⟨nofun, fun _ => le_of_leftEndpointLt ‹_› hx hy⟩
      split
      · exact ⟨nofun, fun _ => le_of_rightEndpointLt ‹_› hx hy⟩
      · exact ⟨nofun, nofun⟩

example : intervalLt (closedInterval (.num 0) (.num 1)) (closedInterval (.num 1) (.num 2)) = .incomparable := by
  decide

theorem intervalLe_spec (hx : i1.Mem x) (hy : i2.Mem y) :
    (intervalLe i1 i2 = .t → x ≤ y) ∧ (intervalLe i1 i2 = .f → y < x) := by
  unfold intervalLe
  split
  · exact ⟨nofun, nofun⟩
  rename_i hspecial
  cases i1 with
  | empty | full => simp [Interval.specialP] at hspecial
  | mk lo1 hi1 =>
    cases i2 with
    | empty | full => simp [Interval.specialP] at hspecial
    | mk lo2 hi2 =>
      split
      · rename_i hdisj
        obtain ⟨ht, hf⟩ := intervalLtAux_spec hdisj hx hy
        exact ⟨fun h => (ht h).le, hf⟩
      split
      · exact ⟨fun _ => le_of_rightEndpointLe ‹_› hx hy, nofun⟩
      · exact ⟨nofun, nofun⟩

end Comparisons

section Assume

variable {i1 i2 : Interval} {x y : ℚ}

theorem mem_assumeLt (hx : i1.Mem x) (hy : i2.Mem y) (hxy : x < y) : (assumeLt i1 i2).Mem x := by
  unfold assumeLt
  split
  · exact hx
  rename_i hspecial
  cases i2 with
  | empty | full => simp [Interval.specialP] at hspecial
  | mk lo2 hi2 =>
    have hbelow : Value.num x < hi2.value := (Value.num_lt_num.mpr hxy).trans_le hy.2.le
    refine mem_intervalIntersect hx (mem_mkInterval ?_ ?_)
    · simp [Endpoint.LowerSat]
    · simpa [Endpoint.UpperSat, Interval.toPoint] using hbelow

theorem mem_assumeLe (hx : i1.Mem x) (hy : i2.Mem y) (hxy : x ≤ y) : (assumeLe i1 i2).Mem x := by
  unfold assumeLe
  split
  · exact hx
  rename_i hspecial
  cases i2 with
  | empty | full => simp [Interval.specialP] at hspecial
  | mk lo2 hi2 =>
    have hbelow : Value.num x ≤ hi2.value := (Value.num_le_num.mpr hxy).trans hy.2.le
    refine mem_intervalIntersect hx (mem_mkInterval ?_ ?_)
    · simp [Endpoint.LowerSat]
    · simpa [Endpoint.UpperSat, Interval.toPoint] using hbelow

theorem mem_assumeGt (hx : i1.Mem x) (hy : i2.Mem y) (hxy : y < x) : (assumeGt i1 i2).Mem x := by
  unfold assumeGt
  split
  · exact hx
  rename_i hspecial
  cases i2 with
  | empty | full => simp [Interval.specialP] at hspecial
  | mk lo2 hi2 =>
    have habove : lo2.value < Value.num x := hy.1.le.trans_lt (Value.num_lt_num.mpr hxy)
    refine mem_intervalIntersect hx (mem_mkInterval ?_ ?_)
    · simpa [Endpoint.LowerSat, Interval.fromPoint] using habove
    · simp [Endpoint.UpperSat]

theorem mem_assumeGe (hx : i1.Mem x) (hy : i2.Mem y) (hxy : y ≤ x) : (assumeGe i1 i2).Mem x := by
  unfold assumeGe
  split
  · exact hx
  rename_i hspecial
  cases i2 with
  | empty | full => simp [Interval.specialP] at hspecial
  | mk lo2 hi2 =>
    have habove : lo2.value ≤ Value.num x := hy.1.le.trans (Value.num_le_num.mpr hxy)
    refine mem_intervalIntersect hx (mem_mkInterval ?_ ?_)
    · simpa [Endpoint.LowerSat, Interval.fromPoint] using habove
    · simp [Endpoint.UpperSat]

end Assume

end ExactIntervals

end FactorProofs.Math
