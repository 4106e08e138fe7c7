import FactorProofs.Core.OpenAddressing
import FactorProofs.Library.Transition
import Mathlib.Data.Set.Card

namespace FactorProofs.Core

open FactorProofs.Containers FactorProofs.Transition

/-! `hashtables`: a key and its value in two consecutive elements of the
array, so a slot is two elements and `hash@` doubles the hashcode. -/

/-- `hashtable`: the tuple of `count`, `deleted` and the array. -/
abbrev Hashtable (K V : Type*) := Table (K × V)

namespace Hashtable

variable {K V : Type*} [DecidableEq K] (hashcode : K → Nat)

/-- `hash@` -/
def hashAt (k : K) (array : List (Slot (K × V))) : Nat := Table.hashAt 2 hashcode k array

/-- `key@`: the element index of the key, if it is stored. -/
def keyAt (k : K) (t : Hashtable K V) : Option Nat := Table.keyAt 2 Prod.fst hashcode k t.array

/-- `new-key@`: the element index for `k`, with the counters of a new key. -/
def newKeyAt (k : K) (t : Hashtable K V) : Nat × Hashtable K V :=
  let r := Table.newKeyAt 2 Prod.fst hashcode k t
  (r.1, r.2.1)

/-- `set-nth-pair`: the key at element `n` and the value at `n + 1`. -/
def setNthPair (v : V) (k : K) (t : Hashtable K V) (n : Nat) : Hashtable K V := Table.setSlot 2 t n (.full (k, v))

/-- `(set-at)` -/
def setAtAux (v : V) (k : K) (t : Hashtable K V) : Hashtable K V :=
  let r := newKeyAt hashcode k t
  setNthPair v k r.2 r.1

/-- `(rehash)`: `(set-at)` of each pair of an alist, with no growth check. -/
def rehashAux (alist : List (K × V)) (t : Hashtable K V) : Hashtable K V :=
  alist.foldl (fun h p => setAtAux hashcode p.2 p.1 h) t

/-- `hash-large?`: `count>> 1+ 3*` against the length of the array in elements. -/
def hashLargeP (t : Hashtable K V) : Bool := decide (Table.arrayLength 2 t.array ≤ 3 * (t.count + 1))

/-- `assoc-size` -/
def assocSize (t : Hashtable K V) : Nat := t.count - t.deleted

/-- `grow-hash`: `reset-hash` for `assoc-size 1 +` pairs, then `(set-at)` of
each pair of the old array, by `each-pair`. -/
def growHash (t : Hashtable K V) : Hashtable K V := rehashAux hashcode t.entries (Table.fresh (assocSize t + 1))

/-- `?grow-hash` -/
def growHashIfLarge (t : Hashtable K V) : Hashtable K V := if hashLargeP t then growHash hashcode t else t

/-- `<hashtable>` -/
def new (n : Nat) : Hashtable K V := Table.fresh n

/-- `at*`: the value in the element after the key, if the key is stored. -/
def atStar (k : K) (t : Hashtable K V) : Option V :=
  match keyAt hashcode k t with
  | some n => (Table.slotAt 2 t.array (n + 1)).entry.map Prod.snd
  | none => none

/-- `clear-assoc` -/
def clearAssoc (t : Hashtable K V) : Hashtable K V := t.clear

/-- `delete-at`: `+tombstone+` in both elements of the key's slot, then `hash-deleted+`. -/
def deleteAt (k : K) (t : Hashtable K V) : Hashtable K V := Table.remove 2 Prod.fst hashcode t k

/-- `collect-pairs`: `f` of each pair, by `each-pair`, into an array of `assoc-size` elements. -/
def collectPairs {β : Type*} (f : K → V → β) (t : Hashtable K V) : List (Option β) :=
  Table.collect (fun p => f p.1 p.2) t

/-- `>alist` -/
def toAlist (t : Hashtable K V) : List (Option (K × V)) := collectPairs (fun k v => (k, v)) t

/-- `keys` -/
def keys (t : Hashtable K V) : List (Option K) := collectPairs (fun k _ => k) t

/-- `values` -/
def values (t : Hashtable K V) : List (Option V) := collectPairs (fun _ v => v) t

/-- `rehash`: `>alist`, `clear-assoc`, then `(rehash)` of the pairs. -/
def rehash (t : Hashtable K V) : Hashtable K V := rehashAux hashcode (toAlist t).reduceOption (clearAssoc t)

/-- `set-at`: `?grow-hash`, then `(set-at)`. -/
def setAt (v : V) (k : K) (t : Hashtable K V) : Hashtable K V := setAtAux hashcode v k (growHashIfLarge hashcode t)

/-- `associate`: a `<hash-array>` for one pair, the pair at its `hash@`, and `count` 1. -/
def associate (v : V) (k : K) : Hashtable K V :=
  let array : List (Slot (K × V)) := List.replicate (hashArraySlots 1) .empty
  setNthPair v k ⟨1, 0, array⟩ (hashAt hashcode k array)

/-- `clone`: a copy of the tuple and of its array. -/
def clone (t : Hashtable K V) : Hashtable K V := { t with array := t.array }

/-- `>hashtable` of an assoc, given by its `>alist` and its `assoc-size`:
a `<hashtable>` of that size, then `(rehash)`. -/
def toHashtable (alist : List (K × V)) (n : Nat) : Hashtable K V := rehashAux hashcode alist (new n)

/-- The finite map a hashtable stands for. -/
def content (t : Hashtable K V) (k : K) : Option V := (Table.lookup Prod.fst t k).map Prod.snd

section Spec

variable {hashcode} {t : Hashtable K V}

theorem content_eq (t : Hashtable K V) : content t = fun k => (Table.lookup Prod.fst t k).map Prod.snd := rfl

theorem rehashAux_eq (alist : List (K × V)) (t : Hashtable K V) :
    rehashAux hashcode alist t = Table.insertAll 2 Prod.fst hashcode t alist := rfl

theorem setAtAux_eq (v : V) (k : K) (t : Hashtable K V) :
    setAtAux hashcode v k t = Table.insert 2 Prod.fst hashcode t (k, v) := rfl

theorem growHash_eq (t : Hashtable K V) : growHash hashcode t = Table.grow 2 Prod.fst hashcode t := rfl

theorem setAt_eq_insertGrowing (v : V) (k : K) (t : Hashtable K V) :
    setAt hashcode v k t = Table.insertGrowing 2 Prod.fst hashcode t (k, v) := by
  have hlarge : hashLargeP t = decide (2 * t.array.length ≤ 3 * (t.count + 1)) := rfl
  rw [setAt, setAtAux_eq, growHashIfLarge, hlarge, Table.insertGrowing, growHash_eq]
  by_cases h : 2 * t.array.length ≤ 3 * (t.count + 1) <;> simp [h]

omit [DecidableEq K] in
theorem room_of_hashLargeP_eq_false (h : hashLargeP t = false) : t.count + 1 < t.array.length := by
  rw [hashLargeP, decide_eq_false_iff_not, Table.arrayLength] at h
  omega

theorem content_update (f : K → Option (K × V)) (k : K) (x : Option (K × V)) :
    (fun k' => (Function.update f k x k').map Prod.snd) =
      Function.update (fun k' => (f k').map Prod.snd) k (x.map Prod.snd) := by
  funext k'
  by_cases hk : k' = k
  · subst hk
    simp
  · simp [Function.update_of_ne hk]

theorem content_foldl (l : List (K × V)) (f : K → Option (K × V)) :
    (fun k => (l.foldl (fun (g : K → Option (K × V)) a => Function.update g a.1 (some a)) f k).map Prod.snd) =
      l.foldl (fun (M : K → Option V) p => Function.update M p.1 (some p.2)) fun k => (f k).map Prod.snd := by
  induction l generalizing f with
  | nil => rfl
  | cons a l ih =>
    rw [List.foldl_cons, List.foldl_cons, ih, content_update]
    rfl

theorem inv_growHashIfLarge (h : t.Inv Prod.fst hashcode) :
    (growHashIfLarge hashcode t).Inv Prod.fst hashcode ∧
      (growHashIfLarge hashcode t).count + 1 < (growHashIfLarge hashcode t).array.length ∧
      content (growHashIfLarge hashcode t) = content t := by
  unfold growHashIfLarge
  split
  · obtain ⟨h₁, hroom, hf⟩ := h.grow (.inr rfl)
    rw [growHash_eq, content_eq, content_eq, hf]
    exact ⟨h₁, hroom, rfl⟩
  · exact ⟨h, room_of_hashLargeP_eq_false (Bool.eq_false_iff.mpr ‹_›), rfl⟩

theorem inv_setAt (h : t.Inv Prod.fst hashcode) (v : V) (k : K) :
    (setAt hashcode v k t).Inv Prod.fst hashcode ∧
      content (setAt hashcode v k t) = Function.update (content t) k (some v) := by
  obtain ⟨h₁, hroom, hf⟩ := inv_growHashIfLarge h
  rw [setAt, setAtAux_eq, ← hf]
  refine ⟨h₁.insert (.inr rfl) hroom (k, v), ?_⟩
  rw [content_eq, h₁.lookup_insert (.inr rfl) hroom (k, v), content_update]
  rfl

theorem inv_deleteAt (h : t.Inv Prod.fst hashcode) (k : K) :
    (deleteAt hashcode k t).Inv Prod.fst hashcode ∧
      content (deleteAt hashcode k t) = Function.update (content t) k none := by
  refine ⟨h.remove (.inr rfl) k, ?_⟩
  rw [content_eq, deleteAt, h.lookup_remove (.inr rfl) k, content_update]
  rfl

theorem inv_clearAssoc (h : t.Inv Prod.fst hashcode) :
    (clearAssoc t).Inv Prod.fst hashcode ∧ content (clearAssoc t) = fun _ => none := by
  refine ⟨h.clear, ?_⟩
  rw [content_eq, clearAssoc, Table.lookup_of_empty Table.getD_clear]
  rfl

omit [DecidableEq K] in
theorem collectPairs_eq (h : t.Inv Prod.fst hashcode) {β : Type*} (f : K → V → β) :
    collectPairs f t = t.entries.map fun p => some (f p.1 p.2) :=
  h.collect_eq _

omit [DecidableEq K] in
theorem toAlist_reduceOption (h : t.Inv Prod.fst hashcode) : (toAlist t).reduceOption = t.entries := by
  rw [toAlist, collectPairs_eq h]
  exact reduceOption_map_some t.entries

theorem inv_rehashAux_entries {t₀ : Hashtable K V} (h : t.Inv Prod.fst hashcode)
    (h₀ : t₀.Inv Prod.fst hashcode) (he : content t₀ = fun _ => none) (hroom : t₀.count + t.size < t₀.array.length) :
    (rehashAux hashcode t.entries t₀).Inv Prod.fst hashcode ∧ content (rehashAux hashcode t.entries t₀) = content t := by
  obtain ⟨h₁, -, -, hf⟩ := h₀.insertAll (.inr rfl) t.entries (h.size_eq ▸ hroom)
  refine ⟨h₁, ?_⟩
  rw [rehashAux_eq, content_eq, hf]
  have hfold := content_foldl t.entries (Table.lookup Prod.fst t₀)
  rw [← content_eq, he] at hfold
  rw [hfold, content_eq, h.lookup_eq_foldl, content_foldl]
  rfl

theorem inv_rehash (h : t.Inv Prod.fst hashcode) :
    (rehash hashcode t).Inv Prod.fst hashcode ∧ content (rehash hashcode t) = content t := by
  obtain ⟨h₀, he⟩ := inv_clearAssoc h
  rw [rehash, toAlist_reduceOption h]
  refine inv_rehashAux_entries h h₀ he ?_
  rw [clearAssoc, Table.count_clear, Table.length_clear, Table.size]
  have := h.count_lt
  omega

theorem inv_new (n : Nat) : (new n : Hashtable K V).Inv Prod.fst hashcode ∧ content (new n : Hashtable K V) = fun _ => none := by
  refine ⟨Table.inv_fresh n, ?_⟩
  rw [content_eq, new, Table.lookup_of_empty (Table.getD_fresh n)]
  rfl

theorem inv_toHashtable_self (h : t.Inv Prod.fst hashcode) :
    (toHashtable hashcode (toAlist t).reduceOption (assocSize t)).Inv Prod.fst hashcode ∧
      content (toHashtable hashcode (toAlist t).reduceOption (assocSize t)) = content t := by
  have hnew : (new (assocSize t) : Hashtable K V).Inv Prod.fst hashcode ∧
      content (new (assocSize t) : Hashtable K V) = fun _ => none := inv_new _
  obtain ⟨h₀, he⟩ := hnew
  rw [toHashtable, toAlist_reduceOption h]
  refine inv_rehashAux_entries h h₀ he ?_
  have := lt_hashArraySlots (assocSize t)
  show 0 + assocSize t < (Table.fresh (assocSize t) : Hashtable K V).array.length
  rw [Table.length_fresh]
  omega

theorem inv_toHashtable (alist : List (K × V)) :
    (toHashtable hashcode alist alist.length).Inv Prod.fst hashcode ∧
      content (toHashtable hashcode alist alist.length) =
        alist.foldl (fun (M : K → Option V) p => Function.update M p.1 (some p.2)) fun _ => none := by
  have hnew : (new alist.length : Hashtable K V).Inv Prod.fst hashcode ∧
      content (new alist.length : Hashtable K V) = fun _ => none := inv_new _
  obtain ⟨h₀, he⟩ := hnew
  have hroom : (new alist.length : Hashtable K V).count + alist.length < (new alist.length : Hashtable K V).array.length := by
    have := lt_hashArraySlots alist.length
    simp only [new, Table.length_fresh]
    exact Nat.zero_add _ ▸ this
  obtain ⟨h₁, -, -, hf⟩ := h₀.insertAll (.inr rfl) alist hroom
  refine ⟨h₁, ?_⟩
  rw [toHashtable, rehashAux_eq, content_eq, hf, content_foldl, ← content_eq, he]

theorem associate_eq (v : V) (k : K) : associate hashcode v k = setAtAux hashcode v k (new 1) := by
  have hlen : (new 1 : Hashtable K V).array.length = 1 + 1 := by
    rw [new, Table.length_fresh]
    decide
  have hempty : ∀ n, Table.slotAt 2 (new 1 : Hashtable K V).array n = .empty := fun n => Table.getD_fresh 1 _
  simp only [setAtAux, newKeyAt, Table.newKeyAt, hlen, Table.newKeyAtFrom, hempty, Slot.tombstoneP_empty,
    Slot.emptyP_empty, if_true]
  rfl

theorem inv_associate (v : V) (k : K) :
    (associate hashcode v k).Inv Prod.fst hashcode ∧
      content (associate hashcode v k) = Function.update (fun _ => none) k (some v) := by
  have hnew : (new 1 : Hashtable K V).Inv Prod.fst hashcode ∧ content (new 1 : Hashtable K V) = fun _ => none :=
    inv_new _
  obtain ⟨h₀, he⟩ := hnew
  have hroom : (new 1 : Hashtable K V).count + 1 < (new 1 : Hashtable K V).array.length := by
    rw [new, Table.length_fresh]
    show 0 + 1 < hashArraySlots 1
    decide
  rw [associate_eq, setAtAux_eq]
  refine ⟨h₀.insert (.inr rfl) hroom (k, v), ?_⟩
  rw [content_eq, h₀.lookup_insert (.inr rfl) hroom (k, v), content_update, ← content_eq, he]
  rfl

theorem atStar_eq (h : t.Inv Prod.fst hashcode) (k : K) : atStar hashcode k t = content t k := by
  rcases h.keyAt_eq (.inr rfl) k with ⟨i, a, hi, hf, hkey⟩ | ⟨hf, hkey⟩
  · have hslot : Table.slotAt 2 t.array (2 * i + 1) = .full a := by
      rw [Table.slotAt, show (2 * i + 1) / 2 = i by omega, hi]
    rw [atStar, keyAt, hkey]
    dsimp only
    rw [hslot, content_eq]
    simp [hf]
  · rw [atStar, keyAt, hkey, content_eq]
    simp [hf]

theorem mem_entries_iff_content (h : t.Inv Prod.fst hashcode) (k : K) (v : V) :
    (k, v) ∈ t.entries ↔ content t k = some v := by
  rw [Table.entries, Table.mem_entries_iff, content_eq, Option.map_eq_some_iff]
  constructor
  · rintro ⟨i, hi⟩
    exact ⟨(k, v), h.lookup_eq_some_iff.mpr ⟨rfl, i, hi⟩, rfl⟩
  · rintro ⟨a, hf, rfl⟩
    obtain ⟨hka, i, hi⟩ := Table.lookup_eq_some hf
    subst hka
    exact ⟨i, hi⟩

theorem toAlist_spec (h : t.Inv Prod.fst hashcode) :
    toAlist t = t.entries.map some ∧ keys t = t.entries.map (some ∘ Prod.fst) ∧
      values t = t.entries.map (some ∘ Prod.snd) ∧ (t.entries.map Prod.fst).Nodup ∧
      (∀ k v, (k, v) ∈ t.entries ↔ content t k = some v) ∧ assocSize t = t.entries.length :=
  ⟨collectPairs_eq h _, collectPairs_eq h _, collectPairs_eq h _, h.nodup_keys, mem_entries_iff_content h,
    h.size_eq⟩

theorem assocSize_eq_ncard (h : t.Inv Prod.fst hashcode) : assocSize t = {k | (content t k).isSome}.ncard := by
  have hset : {k | (content t k).isSome} = ↑(t.entries.map Prod.fst).toFinset := by
    ext k
    rw [Set.mem_ofPred_eq, content_eq, Option.isSome_map, ← Table.mem_keys_iff, Finset.mem_coe,
      List.mem_toFinset]
  rw [hset, Set.ncard_coe_finset, List.toFinset_card_of_nodup h.nodup_keys, List.length_map, ← h.size_eq]
  rfl

end Spec

section Runs

/-- The words that change a hashtable. `>hashtable` of a hashtable makes a
new one from its pairs. -/
inductive Op (K V : Type*)
  | setAt (v : V) (k : K)
  | deleteAt (k : K)
  | clearAssoc
  | rehash
  | clone
  | toHashtable

/-- A word on the table. -/
def Op.apply : Op K V → Hashtable K V → Hashtable K V
  | .setAt v k, t => Hashtable.setAt hashcode v k t
  | .deleteAt k, t => Hashtable.deleteAt hashcode k t
  | .clearAssoc, t => Hashtable.clearAssoc t
  | .rehash, t => Hashtable.rehash hashcode t
  | .clone, t => Hashtable.clone t
  | .toHashtable, t => Hashtable.toHashtable hashcode (toAlist t).reduceOption (assocSize t)

/-- The same word on the finite map. -/
def Op.update : Op K V → (K → Option V) → K → Option V
  | .setAt v k, M => Function.update M k (some v)
  | .deleteAt k, M => Function.update M k none
  | .clearAssoc, _ => fun _ => none
  | .rehash, M => M
  | .clone, M => M
  | .toHashtable, M => M

/-- The constructors, each with the map it stands for: `>hashtable` of an
alist stores its pairs in order. -/
inductive Start : Hashtable K V × (K → Option V) → Prop
  | new (n : Nat) : Start (new n, fun _ => none)
  | associate (v : V) (k : K) : Start (associate hashcode v k, Function.update (fun _ => none) k (some v))
  | toHashtable (alist : List (K × V)) :
      Start (toHashtable hashcode alist alist.length,
        alist.foldl (fun (M : K → Option V) p => Function.update M p.1 (some p.2)) fun _ => none)

/-- One word, on the table and on the map. -/
def Step (p p' : Hashtable K V × (K → Option V)) : Prop := ∃ o : Op K V, p' = (o.apply hashcode p.1, o.update p.2)

variable {hashcode}

theorem Op.apply_spec {t : Hashtable K V} (h : t.Inv Prod.fst hashcode) (o : Op K V) :
    (o.apply hashcode t).Inv Prod.fst hashcode ∧ content (o.apply hashcode t) = o.update (content t) := by
  cases o with
  | setAt v k => exact inv_setAt h v k
  | deleteAt k => exact inv_deleteAt h k
  | clearAssoc => exact inv_clearAssoc h
  | rehash => exact inv_rehash h
  | clone => exact ⟨h, rfl⟩
  | toHashtable => exact inv_toHashtable_self h

theorem start_spec {p : Hashtable K V × (K → Option V)} (hp : Start hashcode p) :
    p.1.Inv Prod.fst hashcode ∧ content p.1 = p.2 := by
  cases hp with
  | new n => exact inv_new n
  | associate v k => exact inv_associate v k
  | toHashtable alist => exact inv_toHashtable alist

theorem reachable_refines {p : Hashtable K V × (K → Option V)} (hp : Reachable (Start hashcode) (Step hashcode) p) :
    p.1.Inv Prod.fst hashcode ∧ content p.1 = p.2 := by
  refine hp.invariant (fun p hp => start_spec hp) ?_
  rintro ⟨t, M⟩ _ ⟨h, hM⟩ ⟨o, rfl⟩
  obtain ⟨h', hc⟩ := Op.apply_spec h o
  exact ⟨h', hc.trans (congrArg o.update hM)⟩

end Runs

end Hashtable

end FactorProofs.Core
