import FactorProofs.Core.HashSets

namespace FactorProofs.Core

namespace HashSet

/-! The set words of `sets.factor` on two hash-sets, through `members`,
`cardinality` and `in?`, and the overrides in `hash-sets.factor` that scan the
raw array of one set instead. -/

variable {K : Type*} [DecidableEq K] (hashcode : K → Nat)

/-- `small/large`: the set with fewer items first. -/
def smallLarge (a b : HashSet K) : HashSet K × HashSet K :=
  if cardinality a > cardinality b then (b, a) else (a, b)

/-- `M: set intersect`: `(intersect)` filters the members of the smaller set
by the larger one's `in?`; `set-like` makes a hash-set of them. -/
def setIntersect (a b : HashSet K) : HashSet K :=
  let p := smallLarge a b
  toHashSet hashcode ((members p.1).reduceOption.filter fun k => inP hashcode k p.2)

/-- `M: set intersects?` -/
def setIntersectsP (a b : HashSet K) : Bool :=
  let p := smallLarge a b
  (members p.1).reduceOption.any fun k => inP hashcode k p.2

/-- `M: set union`: `(union)` appends the members of both. -/
def setUnion (a b : HashSet K) : HashSet K :=
  toHashSet hashcode ((members a).reduceOption ++ (members b).reduceOption)

/-- `M: set diff`: `(diff)` rejects the members of the first set that the
second holds. -/
def setDiff (a b : HashSet K) : HashSet K :=
  toHashSet hashcode ((members a).reduceOption.filter fun k => !inP hashcode k b)

/-- `M: set subset?` -/
def setSubsetP (a b : HashSet K) : Bool :=
  if cardinality a > cardinality b then false else (members a).reduceOption.all fun k => inP hashcode k b

/-- `M: set set=` -/
def setSetEq (a b : HashSet K) : Bool :=
  if cardinality a = cardinality b then (members a).reduceOption.all fun k => inP hashcode k b else false

/-- `and-tombstones`: a slot that is `tombstone?` (`+empty+` or
`+tombstone+`) passes; an item is tested. -/
def andTombstones (p : K → Bool) : Slot K → Bool
  | .full k => p k
  | _ => true

/-- `not-tombstones`: a slot that is `tombstone?` fails. -/
def notTombstones (p : K → Bool) : Slot K → Bool
  | .full k => p k
  | _ => false

/-- `array/tester`: the raw array of the first set and the second set's `in?`. -/
def arrayTester (a b : HashSet K) : List (Slot K) × (K → Bool) := (a.array, fun k => inP hashcode k b)

/-- `filter-members`: the elements of the array the quotation accepts, pushed
in order. -/
def filterMembers (array : List (Slot K)) (p : Slot K → Bool) : List K :=
  array.filterMap fun s => if p s then s.entry else none

/-- `M: hash-set intersect` on two hash-sets. -/
def intersect (a b : HashSet K) : HashSet K :=
  let p := smallLarge a b
  let r := arrayTester hashcode p.1 p.2
  toHashSet hashcode (filterMembers r.1 (notTombstones r.2))

/-- `M: hash-set intersects?` on two hash-sets. -/
def intersectsP (a b : HashSet K) : Bool :=
  let p := smallLarge a b
  let r := arrayTester hashcode p.1 p.2
  r.1.any (notTombstones r.2)

/-- `M: hash-set union` on two hash-sets: the items of the smaller set, by
`each-member`, adjoined to a `clone` of the larger. -/
def union (a b : HashSet K) : HashSet K :=
  let p := smallLarge a b
  p.1.entries.foldl (fun t k => adjoin hashcode k t) (clone p.2)

/-- `M: hash-set diff` on two hash-sets. -/
def diff (a b : HashSet K) : HashSet K :=
  let r := arrayTester hashcode a b
  toHashSet hashcode (filterMembers r.1 (notTombstones fun k => !r.2 k))

/-- `M: hash-set subset?` on two hash-sets. -/
def subsetP (a b : HashSet K) : Bool :=
  if cardinality a > cardinality b then false
  else
    let r := arrayTester hashcode a b
    r.1.all (andTombstones r.2)

/-- `M: hash-set set=` on two hash-sets: `eq?` on the cardinalities, which are
fixnums. -/
def setEq (a b : HashSet K) : Bool :=
  if cardinality a = cardinality b then
    let r := arrayTester hashcode a b
    r.1.all (andTombstones r.2)
  else false

section Scans

omit [DecidableEq K]

theorem any_notTombstones (p : K → Bool) (l : List (Slot K)) :
    l.any (notTombstones p) = (l.filterMap Slot.entry).any p := by
  induction l with
  | nil => rfl
  | cons s l ih =>
    cases s <;> simp [notTombstones, ih]

theorem all_andTombstones (p : K → Bool) (l : List (Slot K)) :
    l.all (andTombstones p) = (l.filterMap Slot.entry).all p := by
  induction l with
  | nil => rfl
  | cons s l ih =>
    cases s <;> simp [andTombstones, ih]

theorem filterMembers_notTombstones (p : K → Bool) (l : List (Slot K)) :
    filterMembers l (notTombstones p) = (l.filterMap Slot.entry).filter p := by
  induction l with
  | nil => rfl
  | cons s l ih =>
    cases s with
    | empty => exact ih
    | tombstone => exact ih
    | full k =>
      by_cases hk : p k = true
      · simp [filterMembers, notTombstones, hk, ← ih]
      · simp [filterMembers, notTombstones, hk, ← ih]

end Scans

section Spec

variable {hashcode} {a b t : HashSet K}

omit [DecidableEq K] in
theorem smallLarge_cases (a b : HashSet K) : smallLarge a b = (a, b) ∨ smallLarge a b = (b, a) := by
  unfold smallLarge
  split
  · exact .inr rfl
  · exact .inl rfl

omit [DecidableEq K] in
theorem inv_smallLarge_fst (ha : a.Inv id hashcode) (hb : b.Inv id hashcode) :
    (smallLarge a b).1.Inv id hashcode := by
  rcases smallLarge_cases a b with hp | hp <;> rw [hp]
  · exact ha
  · exact hb

theorem mem_content_iff (h : t.Inv id hashcode) (k : K) : k ∈ content t ↔ k ∈ t.entries :=
  ((members_spec h).2.2.1 k).symm

theorem finite_content (h : t.Inv id hashcode) : (content t).Finite := by
  have hset : content t = {k | k ∈ t.entries} := Set.ext (mem_content_iff h)
  rw [hset]
  exact List.finite_toSet t.entries

theorem content_toHashSet_filter (h : t.Inv id hashcode) (p : K → Bool) :
    content (toHashSet hashcode (t.entries.filter p)) = {k | k ∈ content t ∧ p k = true} := by
  rw [(inv_toHashSet _).2]
  ext k
  rw [Set.mem_ofPred_eq, Set.mem_ofPred_eq, List.mem_filter, mem_content_iff h]

theorem content_foldl_adjoin (h : t.Inv id hashcode) (l : List K) :
    (l.foldl (fun t k => adjoin hashcode k t) t).Inv id hashcode ∧
      content (l.foldl (fun t k => adjoin hashcode k t) t) = content t ∪ {k | k ∈ l} := by
  induction l generalizing t with
  | nil => simp [h]
  | cons k l ih =>
    obtain ⟨h₁, hc₁, -⟩ := inv_adjoin h k
    obtain ⟨h₂, hc₂⟩ := ih h₁
    refine ⟨h₂, ?_⟩
    rw [List.foldl_cons, hc₂, hc₁]
    ext k'
    simp only [Set.mem_union, Set.mem_insert_iff, Set.mem_ofPred_eq, List.mem_cons]
    tauto

theorem content_intersect_of_pair {p : HashSet K × HashSet K} (hp : p = (a, b) ∨ p = (b, a))
    (ha : a.Inv id hashcode) (hb : b.Inv id hashcode) :
    content (toHashSet hashcode (p.1.entries.filter fun k => inP hashcode k p.2)) = content a ∩ content b := by
  rcases hp with rfl | rfl
  · rw [content_toHashSet_filter ha]
    ext k
    rw [Set.mem_ofPred_eq, inP_iff hb]
    rfl
  · rw [content_toHashSet_filter hb, Set.inter_comm]
    ext k
    rw [Set.mem_ofPred_eq, inP_iff ha]
    rfl

theorem content_setIntersect (ha : a.Inv id hashcode) (hb : b.Inv id hashcode) :
    content (setIntersect hashcode a b) = content a ∩ content b := by
  rw [setIntersect, members_reduceOption (inv_smallLarge_fst ha hb)]
  exact content_intersect_of_pair (smallLarge_cases a b) ha hb

theorem any_inP_iff {s l : HashSet K} (hs : s.Inv id hashcode) (hl : l.Inv id hashcode) :
    (s.entries.any fun k => inP hashcode k l) = true ↔ (content s ∩ content l).Nonempty := by
  rw [List.any_eq_true]
  constructor
  · rintro ⟨k, hk, hin⟩
    exact ⟨k, (mem_content_iff hs k).mpr hk, (inP_iff hl k).mp hin⟩
  · rintro ⟨k, hks, hkl⟩
    exact ⟨k, (mem_content_iff hs k).mp hks, (inP_iff hl k).mpr hkl⟩

theorem setIntersectsP_iff (ha : a.Inv id hashcode) (hb : b.Inv id hashcode) :
    setIntersectsP hashcode a b = true ↔ (content a ∩ content b).Nonempty := by
  rw [setIntersectsP, members_reduceOption (inv_smallLarge_fst ha hb)]
  rcases smallLarge_cases a b with hp | hp <;> rw [hp]
  · exact any_inP_iff ha hb
  · rw [Set.inter_comm]
    exact any_inP_iff hb ha

theorem content_setUnion (ha : a.Inv id hashcode) (hb : b.Inv id hashcode) :
    content (setUnion hashcode a b) = content a ∪ content b := by
  rw [setUnion, members_reduceOption ha, members_reduceOption hb, (inv_toHashSet _).2]
  ext k
  rw [Set.mem_ofPred_eq, List.mem_append, Set.mem_union, mem_content_iff ha, mem_content_iff hb]

theorem content_setDiff (ha : a.Inv id hashcode) (hb : b.Inv id hashcode) :
    content (setDiff hashcode a b) = content a \ content b := by
  rw [setDiff, members_reduceOption ha, content_toHashSet_filter ha]
  ext k
  rw [Set.mem_ofPred_eq, Set.mem_sdiff, Bool.not_eq_true', ← Bool.not_eq_true, inP_iff hb]

theorem all_inP_iff_subset (ha : a.Inv id hashcode) (hb : b.Inv id hashcode) :
    (a.entries.all fun k => inP hashcode k b) = true ↔ content a ⊆ content b := by
  rw [List.all_eq_true]
  constructor
  · intro hall k hk
    exact (inP_iff hb k).mp (hall k ((mem_content_iff ha k).mp hk))
  · intro hsub k hk
    exact (inP_iff hb k).mpr (hsub ((mem_content_iff ha k).mpr hk))

theorem setSubsetP_iff (ha : a.Inv id hashcode) (hb : b.Inv id hashcode) :
    setSubsetP hashcode a b = true ↔ content a ⊆ content b := by
  rw [setSubsetP, members_reduceOption ha]
  split
  · -- more items than `b` holds: `a` cannot be inside it
    rename_i hcard
    rw [cardinality_eq_ncard ha, cardinality_eq_ncard hb] at hcard
    simp only [Bool.false_eq_true, false_iff]
    intro hsub
    exact absurd (Set.ncard_le_ncard hsub (finite_content hb)) (Nat.not_le.mpr hcard)
  · exact all_inP_iff_subset ha hb

theorem setSetEq_iff (ha : a.Inv id hashcode) (hb : b.Inv id hashcode) :
    setSetEq hashcode a b = true ↔ content a = content b := by
  rw [setSetEq, members_reduceOption ha]
  split
  · -- with as many items, inclusion is equality
    rename_i hcard
    rw [cardinality_eq_ncard ha, cardinality_eq_ncard hb] at hcard
    rw [all_inP_iff_subset ha hb]
    constructor
    · intro hsub
      exact Set.eq_of_subset_of_ncard_le hsub hcard.symm.le (finite_content hb)
    · intro heq
      exact heq.le
  · rename_i hcard
    rw [cardinality_eq_ncard ha, cardinality_eq_ncard hb] at hcard
    simp only [Bool.false_eq_true, false_iff]
    intro heq
    exact hcard (congrArg Set.ncard heq)

theorem intersect_eq_setIntersect (ha : a.Inv id hashcode) (hb : b.Inv id hashcode) :
    intersect hashcode a b = setIntersect hashcode a b := by
  rw [intersect, setIntersect, arrayTester, filterMembers_notTombstones, members_reduceOption (inv_smallLarge_fst ha hb)]
  rfl

theorem intersectsP_eq_setIntersectsP (ha : a.Inv id hashcode) (hb : b.Inv id hashcode) :
    intersectsP hashcode a b = setIntersectsP hashcode a b := by
  rw [intersectsP, setIntersectsP, arrayTester, any_notTombstones, members_reduceOption (inv_smallLarge_fst ha hb)]
  rfl

omit [DecidableEq K] in
theorem inv_smallLarge_snd (ha : a.Inv id hashcode) (hb : b.Inv id hashcode) :
    (smallLarge a b).2.Inv id hashcode := by
  rcases smallLarge_cases a b with hp | hp <;> rw [hp]
  · exact hb
  · exact ha

theorem inv_union (ha : a.Inv id hashcode) (hb : b.Inv id hashcode) : (union hashcode a b).Inv id hashcode :=
  (content_foldl_adjoin (inv_smallLarge_snd ha hb) _).1

theorem content_union (ha : a.Inv id hashcode) (hb : b.Inv id hashcode) :
    content (union hashcode a b) = content a ∪ content b := by
  rw [union]
  rcases smallLarge_cases a b with hp | hp <;> rw [hp]
  · -- `clone` copies the larger set, here `b`
    rw [(content_foldl_adjoin (t := clone b) hb a.entries).2, Set.union_comm]
    ext k
    rw [Set.mem_union, Set.mem_union, Set.mem_ofPred_eq, mem_content_iff ha]
    rfl
  · rw [(content_foldl_adjoin (t := clone a) ha b.entries).2]
    ext k
    rw [Set.mem_union, Set.mem_union, Set.mem_ofPred_eq, mem_content_iff hb]
    rfl

theorem diff_eq_setDiff (ha : a.Inv id hashcode) :
    diff hashcode a b = setDiff hashcode a b := by
  rw [diff, setDiff, arrayTester, filterMembers_notTombstones, members_reduceOption ha]
  rfl

theorem subsetP_eq_setSubsetP (ha : a.Inv id hashcode) :
    subsetP hashcode a b = setSubsetP hashcode a b := by
  rw [subsetP, setSubsetP, arrayTester, all_andTombstones, members_reduceOption ha]
  rfl

theorem setEq_eq_setSetEq (ha : a.Inv id hashcode) :
    setEq hashcode a b = setSetEq hashcode a b := by
  rw [setEq, setSetEq, arrayTester, all_andTombstones, members_reduceOption ha]
  rfl

end Spec

/-- On two hash-sets the overrides of `hash-sets.factor` agree with the
generic methods of `sets.factor`, and both compute the set operations. -/
theorem hashSet_overrides_agree (a b : HashSet K) (ha : a.Inv id hashcode) (hb : b.Inv id hashcode) :
    (intersect hashcode a b).Inv id hashcode ∧ (union hashcode a b).Inv id hashcode ∧
      (diff hashcode a b).Inv id hashcode ∧
    intersect hashcode a b = setIntersect hashcode a b ∧
      content (intersect hashcode a b) = content a ∩ content b ∧
    intersectsP hashcode a b = setIntersectsP hashcode a b ∧
      (intersectsP hashcode a b = true ↔ (content a ∩ content b).Nonempty) ∧
    content (union hashcode a b) = content (setUnion hashcode a b) ∧
      content (union hashcode a b) = content a ∪ content b ∧
    diff hashcode a b = setDiff hashcode a b ∧ content (diff hashcode a b) = content a \ content b ∧
    subsetP hashcode a b = setSubsetP hashcode a b ∧ (subsetP hashcode a b = true ↔ content a ⊆ content b) ∧
    setEq hashcode a b = setSetEq hashcode a b ∧ (setEq hashcode a b = true ↔ content a = content b) := by
  have hintersect := intersect_eq_setIntersect ha hb
  have hintersects := intersectsP_eq_setIntersectsP ha hb
  have hdiff := diff_eq_setDiff (b := b) ha
  have hsubset := subsetP_eq_setSubsetP (b := b) ha
  have hseteq := setEq_eq_setSetEq (b := b) ha
  refine ⟨(inv_toHashSet _).1, inv_union ha hb, (inv_toHashSet _).1, hintersect, ?_, hintersects, ?_, ?_,
    content_union ha hb, hdiff, ?_, hsubset, ?_, hseteq, ?_⟩
  · rw [hintersect, content_setIntersect ha hb]
  · rw [hintersects, setIntersectsP_iff ha hb]
  · rw [content_union ha hb, content_setUnion ha hb]
  · rw [hdiff, content_setDiff ha hb]
  · rw [hsubset, setSubsetP_iff ha hb]
  · rw [hseteq, setSetEq_iff ha hb]

theorem hashSet_overrides_agree_small :
    intersect id (toHashSet id [1, 2]) (toHashSet id [2, 3]) = setIntersect id (toHashSet id [1, 2]) (toHashSet id [2, 3]) :=
  (hashSet_overrides_agree id _ _ (inv_toHashSet _).1 (inv_toHashSet _).1).2.2.2.1

end HashSet

end FactorProofs.Core
