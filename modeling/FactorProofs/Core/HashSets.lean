import FactorProofs.Core.Hashtables

namespace FactorProofs.Core

open FactorProofs.Containers FactorProofs.Transition

/-! `hash-sets`: one item an element, so a slot is one element and `hash@`
takes the hashcode as it is. -/

/-- `hash-set`: the tuple of `count`, `deleted` and the array. -/
abbrev HashSet (K : Type*) := Table K

namespace HashSet

variable {K : Type*} [DecidableEq K] (hashcode : K → Nat)

/-- `key@` -/
def keyAt (k : K) (t : HashSet K) : Option Nat := Table.keyAt 1 id hashcode k t.array

/-- `new-key@`: the element index for `k`, the counters of a new key, and
whether the key is new. -/
def newKeyAt (k : K) (t : HashSet K) : Nat × HashSet K × Bool := Table.newKeyAt 1 id hashcode k t

/-- `set-nth-item` -/
def setNthItem (k : K) (t : HashSet K) (n : Nat) : HashSet K := Table.setSlot 1 t n (.full k)

/-- `(adjoin)`: whether the key was new, and the set with it. -/
def adjoinAux (k : K) (t : HashSet K) : Bool × HashSet K :=
  let r := newKeyAt hashcode k t
  (r.2.2, setNthItem k r.2.1 r.1)

/-- `(delete)`: whether the key was there, and the set with `+tombstone+`
in its place and `hash-deleted+`. -/
def deleteAux (k : K) (t : HashSet K) : Bool × HashSet K :=
  ((keyAt hashcode k t).isSome, Table.remove 1 id hashcode t k)

/-- `(rehash)`: `(adjoin)` of each item, with no growth check. -/
def rehashAux (items : List K) (t : HashSet K) : HashSet K := items.foldl (fun h k => (adjoinAux hashcode k h).2) t

/-- `hash-large?`: `count>> 1+ 3*` against the length of the array shifted
left once. -/
def hashLargeP (t : HashSet K) : Bool := decide (t.array.length * 2 ≤ 3 * (t.count + 1))

/-- `cardinality` -/
def cardinality (t : HashSet K) : Nat := t.count - t.deleted

/-- `grow-hash`: `reset-hash` for `cardinality 1 +` items, then `(adjoin)` of
each item of the old array, by `each-member`. -/
def growHash (t : HashSet K) : HashSet K := rehashAux hashcode t.entries (Table.fresh (cardinality t + 1))

/-- `?grow-hash` -/
def growHashIfLarge (t : HashSet K) : HashSet K := if hashLargeP t then growHash hashcode t else t

/-- `<hash-set>` -/
def new (n : Nat) : HashSet K := Table.fresh n

/-- `in?` -/
def inP (k : K) (t : HashSet K) : Bool := (keyAt hashcode k t).isSome

/-- `clear-set` -/
def clearSet (t : HashSet K) : HashSet K := t.clear

/-- `delete` -/
def delete (k : K) (t : HashSet K) : HashSet K := (deleteAux hashcode k t).2

/-- `?delete`: whether the key was there, and the set without it. -/
def deleteP (k : K) (t : HashSet K) : Bool × HashSet K := deleteAux hashcode k t

/-- `members`: each item, by `each-member`, into an array of `cardinality` elements. -/
def members (t : HashSet K) : List (Option K) := Table.collect id t

/-- `rehash`: `members`, `clear-set`, then `(rehash)` of the items. -/
def rehash (t : HashSet K) : HashSet K := rehashAux hashcode (members t).reduceOption (clearSet t)

/-- `adjoin`: `?grow-hash`, then `(adjoin)`. -/
def adjoin (k : K) (t : HashSet K) : HashSet K := (adjoinAux hashcode k (growHashIfLarge hashcode t)).2

/-- `?adjoin`: `?grow-hash`, then `(adjoin)`, with its answer. -/
def adjoinP (k : K) (t : HashSet K) : Bool × HashSet K := adjoinAux hashcode k (growHashIfLarge hashcode t)

/-- `clone`: a copy of the tuple and of its array. -/
def clone (t : HashSet K) : HashSet K := { t with array := t.array }

/-- `>hash-set`: `dup length <hash-set>`, then `(rehash)`. -/
def toHashSet (items : List K) : HashSet K := rehashAux hashcode items (new items.length)

/-- The finite set a hash-set stands for. -/
def content (t : HashSet K) : Set K := {k | (Table.lookup id t k).isSome}

section Spec

variable {hashcode} {t : HashSet K}

theorem rehashAux_eq (items : List K) (t : HashSet K) :
    rehashAux hashcode items t = Table.insertAll 1 id hashcode t items := rfl

theorem growHash_eq (t : HashSet K) : growHash hashcode t = Table.grow 1 id hashcode t := rfl

theorem adjoin_eq_insertGrowing (k : K) (t : HashSet K) :
    adjoin hashcode k t = Table.insertGrowing 1 id hashcode t k := by
  have hadjoin : adjoin hashcode k t = Table.insert 1 id hashcode (growHashIfLarge hashcode t) k := rfl
  have hlarge : hashLargeP t = decide (2 * t.array.length ≤ 3 * (t.count + 1)) := by
    rw [hashLargeP, Nat.mul_comm]
  rw [hadjoin, growHashIfLarge, hlarge, Table.insertGrowing, growHash_eq]
  by_cases h : 2 * t.array.length ≤ 3 * (t.count + 1) <;> simp [h]

omit [DecidableEq K] in
theorem room_of_hashLargeP_eq_false (h : hashLargeP t = false) : t.count + 1 < t.array.length := by
  rw [hashLargeP, decide_eq_false_iff_not] at h
  omega

theorem content_insert {t' : HashSet K} {k : K}
    (hf : Table.lookup id t' = Function.update (Table.lookup id t) k (some k)) :
    content t' = insert k (content t) := by
  ext k'
  by_cases hk : k' = k
  · subst hk
    simp [content, hf]
  · simp [content, hf, hk]

theorem content_diff {t' : HashSet K} {k : K}
    (hf : Table.lookup id t' = Function.update (Table.lookup id t) k none) :
    content t' = content t \ {k} := by
  ext k'
  by_cases hk : k' = k
  · subst hk
    simp [content, hf]
  · simp [content, hf, hk]

theorem setOf_foldl (l : List K) (g : K → Option K) :
    {k | (l.foldl (fun (f : K → Option K) a => Function.update f a (some a)) g k).isSome} =
      {k | k ∈ l} ∪ {k | (g k).isSome} := by
  induction l generalizing g with
  | nil => simp
  | cons a l ih =>
    rw [List.foldl_cons, ih]
    ext k
    by_cases hk : k = a
    · subst hk
      simp
    · simp [hk]

theorem inv_growHashIfLarge (h : t.Inv id hashcode) :
    (growHashIfLarge hashcode t).Inv id hashcode ∧
      (growHashIfLarge hashcode t).count + 1 < (growHashIfLarge hashcode t).array.length ∧
      Table.lookup id (growHashIfLarge hashcode t) = Table.lookup id t := by
  unfold growHashIfLarge
  split
  · rw [growHash_eq]
    exact h.grow (.inl rfl)
  · exact ⟨h, room_of_hashLargeP_eq_false (Bool.eq_false_iff.mpr ‹_›), rfl⟩

theorem inP_iff (h : t.Inv id hashcode) (k : K) : inP hashcode k t = true ↔ k ∈ content t := by
  rcases h.keyAt_eq (.inl rfl) k with ⟨i, a, -, hf, hkey⟩ | ⟨hf, hkey⟩
  · rw [inP, keyAt, hkey]
    simp [content, hf]
  · rw [inP, keyAt, hkey]
    simp [content, hf]

theorem adjoinAux_fst (h : t.Inv id hashcode) (k : K) : (adjoinAux hashcode k t).1 = true ↔ k ∉ content t := by
  rw [adjoinAux, newKeyAt]
  dsimp only
  by_cases hk : ∃ i, t.array.getD i .empty = .full k
  · obtain ⟨i, hi⟩ := hk
    have hnk := h.newKeyAt_of_full (.inl rfl) hi
    rw [id_eq] at hnk
    rw [hnk]
    have hf : Table.lookup id t k = some k := h.lookup_eq_some_iff.mpr ⟨rfl, i, hi⟩
    have hmem : k ∈ content t := by
      simp [content, hf]
    simp [hmem]
  · obtain ⟨q, -, -, -, hnk⟩ := h.newKeyAt_of_absent (.inl rfl) (k := k)
      (fun i a hi hka => hk ⟨i, by rw [hi]; exact congrArg Slot.full hka⟩)
    have hf : Table.lookup id t k = none :=
      Table.lookup_eq_none_iff.mpr fun i a hi hka => hk ⟨i, by rw [hi]; exact congrArg Slot.full hka⟩
    rw [hnk]
    simp [content, hf]

theorem inv_adjoin (h : t.Inv id hashcode) (k : K) :
    (adjoin hashcode k t).Inv id hashcode ∧ content (adjoin hashcode k t) = insert k (content t) ∧
      ((adjoinP hashcode k t).1 = true ↔ k ∉ content t) := by
  obtain ⟨h₁, hroom, hf⟩ := inv_growHashIfLarge h
  have hc : content (growHashIfLarge hashcode t) = content t := by
    rw [content, content, hf]
  refine ⟨h₁.insert (.inl rfl) hroom k, content_insert ?_, ?_⟩
  · rw [← hf]
    exact h₁.lookup_insert (.inl rfl) hroom k
  · rw [adjoinP, adjoinAux_fst h₁, hc]

theorem inv_delete (h : t.Inv id hashcode) (k : K) :
    (delete hashcode k t).Inv id hashcode ∧ content (delete hashcode k t) = content t \ {k} ∧
      ((deleteP hashcode k t).1 = true ↔ k ∈ content t) := by
  refine ⟨h.remove (.inl rfl) k, content_diff (h.lookup_remove (.inl rfl) k), ?_⟩
  rw [deleteP, deleteAux]
  exact inP_iff h k

theorem inv_clearSet (h : t.Inv id hashcode) : (clearSet t).Inv id hashcode ∧ content (clearSet t) = ∅ := by
  refine ⟨h.clear, ?_⟩
  simp [content, clearSet, Table.lookup_of_empty Table.getD_clear]

theorem inv_new (n : Nat) : (new n : HashSet K).Inv id hashcode ∧ content (new n : HashSet K) = ∅ := by
  refine ⟨Table.inv_fresh n, ?_⟩
  simp [content, new, Table.lookup_of_empty (Table.getD_fresh n)]

omit [DecidableEq K] in
theorem members_reduceOption (h : t.Inv id hashcode) : (members t).reduceOption = t.entries := by
  rw [members, h.collect_eq]
  exact reduceOption_map_some t.entries

theorem inv_rehashAux_entries {t₀ : HashSet K} (h : t.Inv id hashcode) (h₀ : t₀.Inv id hashcode)
    (he : Table.lookup id t₀ = fun _ => none) (hroom : t₀.count + t.size < t₀.array.length) :
    (rehashAux hashcode t.entries t₀).Inv id hashcode ∧ content (rehashAux hashcode t.entries t₀) = content t := by
  obtain ⟨h₁, -, -, hf⟩ := h₀.insertAll (.inl rfl) t.entries (h.size_eq ▸ hroom)
  refine ⟨h₁, ?_⟩
  rw [rehashAux_eq, content, hf, he, content, h.lookup_eq_foldl]

theorem inv_rehash (h : t.Inv id hashcode) :
    (rehash hashcode t).Inv id hashcode ∧ content (rehash hashcode t) = content t := by
  rw [rehash, members_reduceOption h]
  refine inv_rehashAux_entries h h.clear (Table.lookup_of_empty Table.getD_clear) ?_
  rw [clearSet, Table.count_clear, Table.length_clear, Table.size]
  have := h.count_lt
  omega

theorem inv_toHashSet_self (h : t.Inv id hashcode) :
    (toHashSet hashcode (members t).reduceOption).Inv id hashcode ∧
      content (toHashSet hashcode (members t).reduceOption) = content t := by
  rw [toHashSet, members_reduceOption h, ← h.size_eq]
  refine inv_rehashAux_entries h (Table.inv_fresh _) (Table.lookup_of_empty (Table.getD_fresh _)) ?_
  have := lt_hashArraySlots t.size
  show 0 + t.size < (Table.fresh t.size : HashSet K).array.length
  rw [Table.length_fresh]
  omega

theorem inv_toHashSet (items : List K) :
    (toHashSet hashcode items).Inv id hashcode ∧ content (toHashSet hashcode items) = {k | k ∈ items} := by
  have h₀ : (new items.length : HashSet K).Inv id hashcode := Table.inv_fresh _
  have hroom : (new items.length : HashSet K).count + items.length < (new items.length : HashSet K).array.length := by
    have := lt_hashArraySlots items.length
    show 0 + items.length < (Table.fresh items.length : HashSet K).array.length
    rw [Table.length_fresh]
    omega
  obtain ⟨h₁, -, -, hf⟩ := h₀.insertAll (.inl rfl) items hroom
  refine ⟨h₁, ?_⟩
  rw [toHashSet, rehashAux_eq, content, hf, new, Table.lookup_of_empty (Table.getD_fresh _)]
  simp only [id_eq]
  rw [setOf_foldl]
  simp

theorem members_spec (h : t.Inv id hashcode) :
    members t = t.entries.map some ∧ t.entries.Nodup ∧ (∀ k, k ∈ t.entries ↔ k ∈ content t) ∧
      cardinality t = t.entries.length := by
  refine ⟨h.collect_eq id, by simpa using h.nodup_keys, fun k => ?_, h.size_eq⟩
  have : k ∈ t.entries.map id ↔ (Table.lookup id t k).isSome := Table.mem_keys_iff
  simpa [content] using this

theorem cardinality_eq_ncard (h : t.Inv id hashcode) : cardinality t = (content t).ncard := by
  obtain ⟨-, hnd, hmem, hcard⟩ := members_spec h
  have hset : content t = ↑t.entries.toFinset := by
    ext k
    rw [← hmem, Finset.mem_coe, List.mem_toFinset]
  rw [hset, Set.ncard_coe_finset, List.toFinset_card_of_nodup hnd, hcard]

end Spec

section Runs

/-- The words that change a hash-set. `>hash-set` of a hash-set makes a new
one from its members. -/
inductive Op (K : Type*)
  | adjoin (k : K)
  | adjoinP (k : K)
  | delete (k : K)
  | deleteP (k : K)
  | clearSet
  | rehash
  | clone
  | toHashSet

/-- A word on the hash-set. -/
def Op.apply : Op K → HashSet K → HashSet K
  | .adjoin k, t => HashSet.adjoin hashcode k t
  | .adjoinP k, t => (HashSet.adjoinP hashcode k t).2
  | .delete k, t => HashSet.delete hashcode k t
  | .deleteP k, t => (HashSet.deleteP hashcode k t).2
  | .clearSet, t => HashSet.clearSet t
  | .rehash, t => HashSet.rehash hashcode t
  | .clone, t => HashSet.clone t
  | .toHashSet, t => HashSet.toHashSet hashcode (members t).reduceOption

/-- The same word on the finite set. -/
def Op.update : Op K → Set K → Set K
  | .adjoin k, S => insert k S
  | .adjoinP k, S => insert k S
  | .delete k, S => S \ {k}
  | .deleteP k, S => S \ {k}
  | .clearSet, _ => ∅
  | .rehash, S => S
  | .clone, S => S
  | .toHashSet, S => S

/-- The constructors, each with the set it stands for. -/
inductive Start : HashSet K × Set K → Prop
  | new (n : Nat) : Start (new n, ∅)
  | toHashSet (items : List K) : Start (toHashSet hashcode items, {k | k ∈ items})

/-- One word, on the hash-set and on the set. -/
def Step (p p' : HashSet K × Set K) : Prop := ∃ o : Op K, p' = (o.apply hashcode p.1, o.update p.2)

variable {hashcode}

theorem Op.apply_spec {t : HashSet K} (h : t.Inv id hashcode) (o : Op K) :
    (o.apply hashcode t).Inv id hashcode ∧ content (o.apply hashcode t) = o.update (content t) := by
  cases o with
  | adjoin k => exact ⟨(inv_adjoin h k).1, (inv_adjoin h k).2.1⟩
  | adjoinP k => exact ⟨(inv_adjoin h k).1, (inv_adjoin h k).2.1⟩
  | delete k => exact ⟨(inv_delete h k).1, (inv_delete h k).2.1⟩
  | deleteP k => exact ⟨(inv_delete h k).1, (inv_delete h k).2.1⟩
  | clearSet => exact inv_clearSet h
  | rehash => exact inv_rehash h
  | clone => exact ⟨h, rfl⟩
  | toHashSet => exact inv_toHashSet_self h

theorem reachable_refines {p : HashSet K × Set K} (hp : Reachable (Start hashcode) (Step hashcode) p) :
    p.1.Inv id hashcode ∧ content p.1 = p.2 := by
  refine hp.invariant (P := fun p => p.1.Inv id hashcode ∧ content p.1 = p.2) ?_ ?_
  · rintro _ (⟨n⟩ | ⟨items⟩)
    · exact inv_new n
    · exact inv_toHashSet items
  · rintro ⟨t, S⟩ _ ⟨h, hS⟩ ⟨o, rfl⟩
    obtain ⟨h', hc⟩ := Op.apply_spec h o
    exact ⟨h', hc.trans (congrArg o.update hS)⟩

end Runs

end HashSet

/-- Hashtables and hash-sets implement finite maps and finite sets: along any
run from a constructor, the representation invariant holds, `at*` and `in?`
answer as the map and the set built by the same words, `?adjoin` and
`?delete` say whether the key was missing or there, `assoc-size` and
`cardinality` count the keys, and `>alist`, `keys`, `values` and `members`
fill their arrays with the keys, each once. -/
theorem openAddressing_refines {K V : Type*} [DecidableEq K] (hashcode : K → Nat) :
    (∀ p : Hashtable K V × (K → Option V), Reachable (Hashtable.Start hashcode) (Hashtable.Step hashcode) p →
      p.1.Inv Prod.fst hashcode ∧ (∀ k, Hashtable.atStar hashcode k p.1 = p.2 k) ∧
      Hashtable.assocSize p.1 = {k | (p.2 k).isSome}.ncard ∧
      ∃ l : List (K × V), Hashtable.toAlist p.1 = l.map some ∧ Hashtable.keys p.1 = l.map (some ∘ Prod.fst) ∧
        Hashtable.values p.1 = l.map (some ∘ Prod.snd) ∧ (l.map Prod.fst).Nodup ∧
        ∀ k v, (k, v) ∈ l ↔ p.2 k = some v) ∧
    (∀ q : HashSet K × Set K, Reachable (HashSet.Start hashcode) (HashSet.Step hashcode) q →
      q.1.Inv id hashcode ∧ (∀ k, HashSet.inP hashcode k q.1 = true ↔ k ∈ q.2) ∧
      (∀ k, (HashSet.adjoinP hashcode k q.1).1 = true ↔ k ∉ q.2) ∧
      (∀ k, (HashSet.deleteP hashcode k q.1).1 = true ↔ k ∈ q.2) ∧
      HashSet.cardinality q.1 = q.2.ncard ∧
      ∃ l : List K, HashSet.members q.1 = l.map some ∧ l.Nodup ∧ ∀ k, k ∈ l ↔ k ∈ q.2) := by
  refine ⟨fun p hp => ?_, fun q hq => ?_⟩
  · obtain ⟨h, hc⟩ := Hashtable.reachable_refines hp
    obtain ⟨ha, hk, hv, hnd, hmem, -⟩ := Hashtable.toAlist_spec h
    refine ⟨h, fun k => by rw [Hashtable.atStar_eq h, hc], by rw [Hashtable.assocSize_eq_ncard h, hc],
      p.1.entries, ha, hk, hv, hnd, fun k v => by rw [hmem, hc]⟩
  · obtain ⟨h, hc⟩ := HashSet.reachable_refines hq
    obtain ⟨hm, hnd, hmem, -⟩ := HashSet.members_spec h
    refine ⟨h, fun k => by rw [HashSet.inP_iff h, hc], fun k => by rw [(HashSet.inv_adjoin h k).2.2, hc],
      fun k => by rw [(HashSet.inv_delete h k).2.2, hc], by rw [HashSet.cardinality_eq_ncard h, hc],
      q.1.entries, hm, hnd, fun k => by rw [hmem, hc]⟩

theorem openAddressing_refines_setAt :
    Reachable (Hashtable.Start id) (Hashtable.Step id)
        (Hashtable.setAt id 5 7 (Hashtable.new 0 : Hashtable Nat Nat), Function.update (fun _ => none) 7 (some 5)) ∧
      Hashtable.atStar id 7 (Hashtable.setAt id 5 7 (Hashtable.new 0 : Hashtable Nat Nat)) = some 5 ∧
      Reachable (HashSet.Start id) (HashSet.Step id) (HashSet.adjoin id 3 (HashSet.new 0 : HashSet Nat), insert 3 ∅) ∧
      HashSet.inP id 3 (HashSet.adjoin id 3 (HashSet.new 0 : HashSet Nat)) = true := by
  have hp : Reachable (Hashtable.Start id) (Hashtable.Step id)
      (Hashtable.setAt id 5 7 (Hashtable.new 0 : Hashtable Nat Nat), Function.update (fun _ => none) 7 (some 5)) :=
    .step (.init (.new 0)) ⟨.setAt 5 7, rfl⟩
  have hq : Reachable (HashSet.Start id) (HashSet.Step id)
      (HashSet.adjoin id 3 (HashSet.new 0 : HashSet Nat), insert 3 ∅) :=
    .step (.init (.new 0)) ⟨.adjoin 3, rfl⟩
  refine ⟨hp, ?_, hq, ?_⟩
  · exact ((openAddressing_refines id).1 _ hp).2.1 7
  · exact (((openAddressing_refines (V := Nat) id).2 _ hq).2.1 3).mpr (Set.mem_insert 3 ∅)

/-- Pre-sizing and incremental growth agree: storing `n` distinct keys one by
one into an empty table leaves the array that `<hashtable> n` (resp.
`<hash-set> n`) allocates. -/
theorem presize_matches_growth {K V : Type*} [DecidableEq K] (hashcode : K → Nat) :
    (∀ l : List (K × V), (l.map Prod.fst).Nodup →
      Table.arrayLength 2 (l.foldl (fun t p => Hashtable.setAt hashcode p.2 p.1 t) (Hashtable.new 0)).array =
        Table.arrayLength 2 (Hashtable.new l.length : Hashtable K V).array) ∧
    (∀ l : List K, l.Nodup →
      Table.arrayLength 1 (l.foldl (fun t k => HashSet.adjoin hashcode k t) (HashSet.new 0)).array =
        Table.arrayLength 1 (HashSet.new l.length : HashSet K).array) := by
  refine ⟨?_, ?_⟩
  · intro l hl
    have hfold : l.foldl (fun t p => Hashtable.setAt hashcode p.2 p.1 t) (Hashtable.new 0) =
        l.foldl (Table.insertGrowing 2 Prod.fst hashcode) (Table.fresh 0) := by
      congr
      funext t p
      rw [Hashtable.setAt_eq_insertGrowing]
    have hfresh : (Table.fresh 0 : Hashtable K V).Presized Prod.fst hashcode 0 := Table.presized_fresh
    have hrun := hfresh.foldl (.inr rfl) l hl fun a _ => by rw [Table.lookup_of_empty (Table.getD_fresh 0)]
    rw [hfold, Table.arrayLength, Table.arrayLength, hrun.length_eq, Nat.zero_add, Hashtable.new, Table.length_fresh]
  · intro l hl
    have hfold : l.foldl (fun t k => HashSet.adjoin hashcode k t) (HashSet.new 0) =
        l.foldl (Table.insertGrowing 1 id hashcode) (Table.fresh 0) := by
      congr
      funext t k
      rw [HashSet.adjoin_eq_insertGrowing]
    have hfresh : (Table.fresh 0 : HashSet K).Presized id hashcode 0 := Table.presized_fresh
    have hrun := hfresh.foldl (.inl rfl) l (by rwa [List.map_id]) fun a _ => by
      rw [Table.lookup_of_empty (Table.getD_fresh 0)]
    rw [hfold, Table.arrayLength, Table.arrayLength, hrun.length_eq, Nat.zero_add, HashSet.new, Table.length_fresh]

theorem presize_matches_growth_three :
    Table.arrayLength 2 (([(0, 0), (1, 1), (2, 2)] : List (Nat × Nat)).foldl
        (fun t p => Hashtable.setAt id p.2 p.1 t) (Hashtable.new 0)).array =
      Table.arrayLength 2 (Hashtable.new 3 : Hashtable Nat Nat).array :=
  (presize_matches_growth id).1 _ (by decide)

end FactorProofs.Core
