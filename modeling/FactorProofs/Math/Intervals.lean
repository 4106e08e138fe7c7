import FactorProofs.Math.ExactIntervals

namespace FactorProofs.Math

/-! `math.intervals`: intervals of reals with open or closed endpoints, which
value propagation in the optimizing compiler uses to bound the values a word
can take. Every comparison of two endpoints is Factor's own `<`, `>`,
`number=` or `=`, so an integer or ratio endpoint goes through `>float` when
the other endpoint is a float. -/

/-- An endpoint `{ value closed? }`. -/
structure Endpoint where
  value : Num
  closed : Bool
  deriving DecidableEq

/-- `empty-interval`, `full-interval`, and the `interval` tuple of its two
endpoints. -/
inductive Interval
  | empty
  | full
  | mk (lo hi : Endpoint)
  deriving DecidableEq

namespace Interval

/-- `from>>` -/
def fromPoint : Interval → Endpoint
  | empty => ⟨posInfinity, false⟩
  | full => ⟨negInfinity, true⟩
  | mk lo _ => lo

/-- `to>>` -/
def toPoint : Interval → Endpoint
  | empty => ⟨negInfinity, false⟩
  | full => ⟨posInfinity, true⟩
  | mk _ hi => hi

/-- `special-interval?` -/
def specialP : Interval → Bool
  | empty | full => true
  | mk _ _ => false

end Interval

/-- `compare-endpoints` -/
def compareEndpoints (quot : Num → Num → Bool) (p1 p2 : Endpoint) : Bool :=
  if quot p1.value p2.value then true
  else if p1.value.numberEq p2.value then p1.closed || !p2.closed
  else false

/-- `endpoint=` -/
def endpointEq (p1 p2 : Endpoint) : Bool := p1.value.numberEq p2.value && p1.closed == p2.closed

/-- `endpoint<` -/
def endpointLt (p1 p2 : Endpoint) : Bool := compareEndpoints Num.lt p1 p2

/-- `endpoint>` -/
def endpointGt (p1 p2 : Endpoint) : Bool := compareEndpoints Num.gt p1 p2

/-- `=` on two endpoints, arrays compared element by element. -/
def Endpoint.equal (p1 p2 : Endpoint) : Bool := p1.value.equal p2.value && p1.closed == p2.closed

/-- `<interval>` -/
def mkInterval (lo hi : Endpoint) : Interval :=
  if lo.value.gt hi.value then .empty
  else if lo.value.numberEq hi.value then (if lo.closed && hi.closed then .mk lo hi else .empty)
  else if lo.equal ⟨negInfinity, true⟩ && hi.equal ⟨posInfinity, true⟩ then .full
  else .mk lo hi

/-- `[a,b]` -/
def closedInterval (a b : Num) : Interval := mkInterval ⟨a, true⟩ ⟨b, true⟩

/-- `[a,b)` -/
def closedOpenInterval (a b : Num) : Interval := mkInterval ⟨a, true⟩ ⟨b, false⟩

/-- `(a,b]` -/
def openClosedInterval (a b : Num) : Interval := mkInterval ⟨a, false⟩ ⟨b, true⟩

/-- `interval-intersect` -/
def intervalIntersect : Interval → Interval → Interval
  | .empty, _ => .empty
  | _, .empty => .empty
  | .full, i2 => i2
  | i1, .full => i1
  | .mk lo1 hi1, .mk lo2 hi2 =>
    mkInterval (if endpointLt lo2 lo1 then lo1 else lo2) (if endpointGt hi2 hi1 then hi1 else hi2)

/-- `=` on intervals: each singleton equals itself only, and two `interval`
tuples are compared slot by slot. -/
def Interval.equal : Interval → Interval → Bool
  | .empty, .empty | .full, .full => true
  | .mk lo1 hi1, .mk lo2 hi2 => lo1.equal lo2 && hi1.equal hi2
  | .empty, .full | .empty, .mk _ _ | .full, .empty | .full, .mk _ _ | .mk _ _, .empty
  | .mk _ _, .full => false

/-- `interval-subset?` -/
def intervalSubsetP (i1 i2 : Interval) : Bool := (intervalIntersect i1 i2).equal i1

/-- `interval-singleton?` -/
def intervalSingletonP : Interval → Bool
  | .mk lo hi => lo.closed && hi.closed && lo.value.numberEq hi.value
  | _ => false

/-- `interval-contains?` -/
def intervalContainsP (x : Num) : Interval → Bool
  | .empty => false
  | .full => true
  | .mk lo hi =>
    (if lo.closed then x.ge lo.value else x.gt lo.value) &&
      (if hi.closed then x.le hi.value else x.lt hi.value)

/-- `left-endpoint-<` -/
def leftEndpointLt (i1 i2 : Interval) : Bool :=
  intervalSubsetP i2 i1 && intervalSingletonP i2 && endpointEq i1.fromPoint i2.fromPoint

/-- `right-endpoint-<` -/
def rightEndpointLt (i1 i2 : Interval) : Bool :=
  intervalSubsetP i1 i2 && intervalSingletonP i1 && endpointEq i1.toPoint i2.toPoint

/-- `(interval<)` -/
def intervalLtAux (i1 i2 : Interval) : Answer :=
  if endpointLt i1.fromPoint i2.fromPoint then .t else .f

/-- `interval<` -/
def intervalLt (i1 i2 : Interval) : Answer :=
  if i1.specialP || i2.specialP then .incomparable
  else if intervalIntersect i1 i2 = .empty then intervalLtAux i1 i2
  else if leftEndpointLt i1 i2 then .f
  else if rightEndpointLt i1 i2 then .f
  else .incomparable

/-- `right-endpoint-<=` -/
def rightEndpointLe (i1 i2 : Interval) : Bool := endpointEq i1.toPoint i2.fromPoint

/-- `interval<=` -/
def intervalLe (i1 i2 : Interval) : Answer :=
  if i1.specialP || i2.specialP then .incomparable
  else if intervalIntersect i1 i2 = .empty then intervalLtAux i1 i2
  else if rightEndpointLe i1 i2 then .t
  else .incomparable

/-- `interval>` -/
def intervalGt (i1 i2 : Interval) : Answer := intervalLt i2 i1

/-- `interval>=` -/
def intervalGe (i1 i2 : Interval) : Answer := intervalLe i2 i1

/-- `assume<` -/
def assumeLt (i1 i2 : Interval) : Interval :=
  if i2.specialP then i1 else intervalIntersect i1 (closedOpenInterval negInfinity i2.toPoint.value)

/-- `assume<=` -/
def assumeLe (i1 i2 : Interval) : Interval :=
  if i2.specialP then i1 else intervalIntersect i1 (closedInterval negInfinity i2.toPoint.value)

/-- `assume>` -/
def assumeGt (i1 i2 : Interval) : Interval :=
  if i2.specialP then i1 else intervalIntersect i1 (openClosedInterval i2.fromPoint.value posInfinity)

/-- `assume>=` -/
def assumeGe (i1 i2 : Interval) : Interval :=
  if i2.specialP then i1 else intervalIntersect i1 (closedInterval i2.fromPoint.value posInfinity)

/-- The exact endpoint an endpoint stands for. -/
def Endpoint.decode (p : Endpoint) : ExactIntervals.Endpoint := ⟨p.value.value, p.closed⟩

/-- The exact interval an interval stands for. -/
def Interval.decode : Interval → ExactIntervals.Interval
  | .empty => .empty
  | .full => .full
  | .mk lo hi => .mk lo.decode hi.decode

/-- A real of kind `k` that is not a NaN: a float when `k` is true, an
integer or a ratio when it is false. -/
def Endpoint.ofKind (k : Bool) (p : Endpoint) : Bool := p.value.ordinary && p.value.isFloat == k

/-- Every endpoint of the interval is of kind `k`; a special interval has none. -/
def Interval.ofKind (k : Bool) : Interval → Bool
  | .mk lo hi => lo.ofKind k && hi.ofKind k
  | .empty | .full => true

section Refinement

variable {k : Bool} {p q lo hi : Endpoint} {i1 i2 : Interval}

theorem Endpoint.ofKind_iff : p.ofKind k = true ↔ p.value.ordinary = true ∧ p.value.isFloat = k := by
  simp [Endpoint.ofKind]

@[simp] theorem Interval.ofKind_mk : (Interval.mk lo hi).ofKind k = true ↔ lo.ofKind k = true ∧ hi.ofKind k = true := by
  simp [Interval.ofKind]

@[simp] theorem Interval.specialP_mk : (Interval.mk lo hi).specialP = false := rfl

@[simp] theorem Interval.decode_mk : (Interval.mk lo hi).decode = .mk lo.decode hi.decode := rfl

@[simp] theorem Endpoint.decode_value : p.decode.value = p.value.value := rfl

@[simp] theorem Endpoint.decode_closed : p.decode.closed = p.closed := rfl

theorem Endpoint.ext_decode : p.decode = q.decode ↔ p.value.value = q.value.value ∧ p.closed = q.closed := by
  cases p
  cases q
  simp [Endpoint.decode]

theorem compareEndpoints_decode {quot : Num → Num → Bool} {quot' : Value → Value → Bool}
    (hquot : quot p.value q.value = quot' p.value.value q.value.value)
    (heq : p.value.numberEq q.value = decide (p.value.value = q.value.value)) :
    compareEndpoints quot p q = ExactIntervals.compareEndpoints quot' p.decode q.decode := by
  unfold compareEndpoints ExactIntervals.compareEndpoints
  rw [hquot, heq, Endpoint.decode_value, Endpoint.decode_value, Endpoint.decode_closed, Endpoint.decode_closed]
  simp only [decide_eq_true_eq]

section SameKind

variable (hp : p.ofKind k = true) (hq : q.ofKind k = true)
include hp hq

theorem Num.lt_eq_of_ofKind : p.value.lt q.value = decide (p.value.value < q.value.value) := by
  rw [Endpoint.ofKind_iff] at hp hq
  exact Bool.eq_iff_iff.mpr ((Num.lt_iff hp.1 hq.1 (hp.2.trans hq.2.symm)).trans decide_eq_true_iff.symm)

theorem Num.gt_eq_of_ofKind : p.value.gt q.value = decide (q.value.value < p.value.value) :=
  Num.lt_eq_of_ofKind hq hp

theorem Num.numberEq_eq_of_ofKind : p.value.numberEq q.value = decide (p.value.value = q.value.value) := by
  rw [Endpoint.ofKind_iff] at hp hq
  exact Bool.eq_iff_iff.mpr ((Num.numberEq_iff hp.1 hq.1 (hp.2.trans hq.2.symm)).trans decide_eq_true_iff.symm)

theorem Endpoint.equal_eq_of_ofKind : p.equal q = decide (p.decode = q.decode) := by
  rw [Endpoint.ofKind_iff] at hp hq
  have hval := Num.equal_iff hp.1 hq.1 (hp.2.trans hq.2.symm)
  rw [Bool.eq_iff_iff, Endpoint.equal, Bool.and_eq_true, hval, decide_eq_true_iff, Endpoint.ext_decode]
  simp

theorem endpointLt_decode : endpointLt p q = ExactIntervals.endpointLt p.decode q.decode :=
  compareEndpoints_decode (Num.lt_eq_of_ofKind hp hq) (Num.numberEq_eq_of_ofKind hp hq)

theorem endpointGt_decode : endpointGt p q = ExactIntervals.endpointGt p.decode q.decode :=
  compareEndpoints_decode (Num.gt_eq_of_ofKind hp hq) (Num.numberEq_eq_of_ofKind hp hq)

theorem endpointEq_decode : endpointEq p q = ExactIntervals.endpointEq p.decode q.decode := by
  rw [endpointEq, ExactIntervals.endpointEq, Num.numberEq_eq_of_ofKind hp hq]
  rfl

theorem mkInterval_decode : (mkInterval p q).decode = ExactIntervals.mkInterval p.decode q.decode := by
  have hinf : ∀ {r : Endpoint} (neg : Bool), r.ofKind k = true →
      (r.equal ⟨.float (signedInfinity neg), true⟩ = true ↔
        r.decode = ⟨if neg then .negInf else .posInf, true⟩) := by
    intro r neg hr
    rw [Endpoint.ofKind_iff] at hr
    rw [Endpoint.equal, Bool.and_eq_true, Num.equal_infinity_iff hr.1, Endpoint.decode,
      ExactIntervals.Endpoint.mk.injEq]
    simp
  have hlo := hinf true hp
  have hhi := hinf false hq
  simp only [if_true, Bool.false_eq_true, if_false] at hlo hhi
  unfold mkInterval ExactIntervals.mkInterval
  rw [Num.gt_eq_of_ofKind hp hq, Num.numberEq_eq_of_ofKind hp hq]
  simp only [decide_eq_true_eq, Endpoint.decode_value, Endpoint.decode_closed, gt_iff_lt]
  split_ifs <;> simp_all [Interval.decode, negInfinity, posInfinity]

theorem mkInterval_ofKind : (mkInterval p q).ofKind k = true := by
  unfold mkInterval
  split_ifs <;> simp [Interval.ofKind, hp, hq]

end SameKind

theorem ite_ofKind {c : Prop} [Decidable c] (hp : p.ofKind k = true) (hq : q.ofKind k = true) :
    (if c then p else q).ofKind k = true := by
  split <;> assumption

section Intervals

variable (h1 : i1.ofKind k = true) (h2 : i2.ofKind k = true)
include h1 h2

theorem intervalIntersect_decode :
    (intervalIntersect i1 i2).decode = ExactIntervals.intervalIntersect i1.decode i2.decode ∧
      (intervalIntersect i1 i2).ofKind k = true := by
  cases i1 with
  | empty => exact ⟨rfl, rfl⟩
  | full => cases i2 <;> exact ⟨rfl, by assumption⟩
  | mk lo1 hi1 =>
    cases i2 with
    | empty => exact ⟨rfl, rfl⟩
    | full => exact ⟨rfl, h1⟩
    | mk lo2 hi2 =>
      simp only [Interval.ofKind_mk] at h1 h2
      have hlo := ite_ofKind (c := endpointLt lo2 lo1 = true) h1.1 h2.1
      have hhi := ite_ofKind (c := endpointGt hi2 hi1 = true) h1.2 h2.2
      refine ⟨?_, mkInterval_ofKind hlo hhi⟩
      rw [intervalIntersect, mkInterval_decode hlo hhi, endpointLt_decode h2.1 h1.1, endpointGt_decode h2.2 h1.2]
      simp only [Interval.decode, ExactIntervals.intervalIntersect]
      split_ifs <;> rfl

theorem Interval.equal_eq_decide : i1.equal i2 = decide (i1.decode = i2.decode) := by
  cases i1 with
  | mk lo1 hi1 =>
    cases i2 with
    | mk lo2 hi2 =>
      simp only [Interval.ofKind_mk] at h1 h2
      rw [Interval.equal, Endpoint.equal_eq_of_ofKind h1.1 h2.1, Endpoint.equal_eq_of_ofKind h1.2 h2.2,
        Bool.eq_iff_iff]
      simp [Interval.decode]
    | _ => rfl
  | _ => cases i2 <;> rfl

theorem intervalSubsetP_decode : intervalSubsetP i1 i2 = ExactIntervals.intervalSubsetP i1.decode i2.decode := by
  obtain ⟨hdec, hkind⟩ := intervalIntersect_decode h1 h2
  rw [intervalSubsetP, Interval.equal_eq_decide hkind h1, hdec, ExactIntervals.intervalSubsetP]

end Intervals

theorem intervalSingletonP_decode (h : i1.ofKind k = true) :
    intervalSingletonP i1 = ExactIntervals.intervalSingletonP i1.decode := by
  cases i1 with
  | mk lo hi =>
    simp only [Interval.ofKind_mk] at h
    rw [intervalSingletonP, Num.numberEq_eq_of_ofKind h.1 h.2]
    rfl
  | _ => rfl

theorem comparisons_decode (h1 : i1.ofKind k = true) (h2 : i2.ofKind k = true) :
    intervalLt i1 i2 = ExactIntervals.intervalLt i1.decode i2.decode ∧
      intervalLe i1 i2 = ExactIntervals.intervalLe i1.decode i2.decode := by
  cases i1 with
  | empty | full => exact ⟨rfl, rfl⟩
  | mk lo1 hi1 =>
    cases i2 with
    | empty | full => exact ⟨rfl, rfl⟩
    | mk lo2 hi2 =>
      have hdisj : (intervalIntersect (.mk lo1 hi1) (.mk lo2 hi2) = .empty) ↔
          ExactIntervals.intervalIntersect (Interval.mk lo1 hi1).decode (Interval.mk lo2 hi2).decode = .empty := by
        rw [← (intervalIntersect_decode h1 h2).1]
        cases intervalIntersect (.mk lo1 hi1) (.mk lo2 hi2) <;> simp [Interval.decode]
      have hsub12 := intervalSubsetP_decode h1 h2
      have hsub21 := intervalSubsetP_decode h2 h1
      have hs1 := intervalSingletonP_decode h1
      have hs2 := intervalSingletonP_decode h2
      simp only [Interval.ofKind_mk] at h1 h2
      simp only [intervalLt, intervalLe, ExactIntervals.intervalLt, ExactIntervals.intervalLe, hdisj,
        intervalLtAux, ExactIntervals.intervalLtAux, leftEndpointLt, ExactIntervals.leftEndpointLt,
        rightEndpointLt, ExactIntervals.rightEndpointLt, rightEndpointLe, ExactIntervals.rightEndpointLe,
        Interval.fromPoint, Interval.toPoint, ExactIntervals.Interval.fromPoint, ExactIntervals.Interval.toPoint,
        Interval.specialP, ExactIntervals.Interval.specialP, Interval.decode, hsub12, hsub21, hs1, hs2,
        endpointLt_decode h1.1 h2.1, endpointEq_decode h1.1 h2.1, endpointEq_decode h1.2 h2.2,
        endpointEq_decode h1.2 h2.1]
      exact ⟨rfl, rfl⟩

theorem intervalIntersect_mkInterval_decode (h1 : i1.ofKind k = true) (hp : p.ofKind k = true)
    (hq : q.ofKind k = true) :
    (intervalIntersect i1 (mkInterval p q)).decode =
      ExactIntervals.intervalIntersect i1.decode (ExactIntervals.mkInterval p.decode q.decode) := by
  rw [(intervalIntersect_decode h1 (mkInterval_ofKind hp hq)).1, mkInterval_decode hp hq]

theorem assumes_decode (h1 : i1.ofKind true = true) (h2 : i2.ofKind true = true) :
    (assumeLt i1 i2).decode = ExactIntervals.assumeLt i1.decode i2.decode ∧
      (assumeLe i1 i2).decode = ExactIntervals.assumeLe i1.decode i2.decode ∧
      (assumeGt i1 i2).decode = ExactIntervals.assumeGt i1.decode i2.decode ∧
      (assumeGe i1 i2).decode = ExactIntervals.assumeGe i1.decode i2.decode := by
  cases i2 with
  | empty | full => exact ⟨rfl, rfl, rfl, rfl⟩
  | mk lo2 hi2 =>
    simp only [Interval.ofKind_mk] at h2
    have hneg : (⟨negInfinity, true⟩ : Endpoint).ofKind true = true := by decide
    have hpos : (⟨posInfinity, true⟩ : Endpoint).ofKind true = true := by decide
    have hkind : ∀ (r : Endpoint) (c : Bool), r.ofKind true = true → (⟨r.value, c⟩ : Endpoint).ofKind true = true :=
      fun _ _ h => h
    refine ⟨?_, ?_, ?_, ?_⟩
    · rw [assumeLt, Interval.specialP_mk, if_neg Bool.false_ne_true, closedOpenInterval,
        intervalIntersect_mkInterval_decode h1 hneg (hkind (Interval.mk lo2 hi2).toPoint false h2.2)]
      rfl
    · rw [assumeLe, Interval.specialP_mk, if_neg Bool.false_ne_true, closedInterval,
        intervalIntersect_mkInterval_decode h1 hneg (hkind (Interval.mk lo2 hi2).toPoint true h2.2)]
      rfl
    · rw [assumeGt, Interval.specialP_mk, if_neg Bool.false_ne_true, openClosedInterval,
        intervalIntersect_mkInterval_decode h1 (hkind (Interval.mk lo2 hi2).fromPoint false h2.1) hpos]
      rfl
    · rw [assumeGe, Interval.specialP_mk, if_neg Bool.false_ne_true, closedInterval,
        intervalIntersect_mkInterval_decode h1 (hkind (Interval.mk lo2 hi2).fromPoint true h2.1) hpos]
      rfl

end Refinement

/-- The members of an interval: the rationals between the values of its endpoints. -/
def Interval.Mem (x : ℚ) (i : Interval) : Prop := i.decode.Mem x

instance (x : ℚ) (i : Interval) : Decidable (i.Mem x) := inferInstanceAs (Decidable (i.decode.Mem x))

end FactorProofs.Math
