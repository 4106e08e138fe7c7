import Mathlib.Order.Defs.LinearOrder
import Mathlib.Logic.Function.Basic
import FactorProofs.Library.BinaryHeap
import FactorProofs.Library.Containers

namespace FactorProofs.Core.Heaps

open FactorProofs.BinaryHeap

/-! heaps.factor: min- and max-heaps as vectors of entries, each entry an
object that records its own position in the vector (its index) so that
heap-delete can find it, and the heap it belongs to. Entries are objects, so
the model keeps them in a store: `data` holds references, `store` gives the
entry behind each reference, and `next` is the first reference not yet handed
out. The sifts are CPython's: sift-down carries a hole toward the root,
sift-up walks it down the lesser children to a leaf and then sifts down. -/

inductive HeapClass
  | minHeap
  | maxHeap
  deriving DecidableEq, Repr

inductive HeapError
  | boundsError
  | badHeapDelete
  deriving DecidableEq, Repr

structure Entry (V K : Type*) where
  value : V
  key : K
  heap : ℕ
  index : Option ℕ

structure Heap (V K : Type*) where
  klass : HeapClass
  /-- The heap object's identity, what the eq? of entry>index compares. -/
  ident : ℕ
  data : List ℕ
  store : ℕ → Entry V K
  next : ℕ

variable {V K : Type*}

def left (n : ℕ) : ℕ := 2 * n + 1

def up (n : ℕ) : ℕ := (n - 1) / 2

theorem up_eq_parent : up = parent := rfl

section Compare

variable [LinearOrder K]

def after (a b : K) : Bool := decide (compare a b = .gt)

def before (a b : K) : Bool := decide (compare a b = .lt)

def heapCompare : HeapClass → Entry V K → Entry V K → Bool
  | .minHeap, e1, e2 => after e1.key e2.key
  | .maxHeap, e1, e2 => before e1.key e2.key

/-- The order a heap of each class keeps: no child comes before its parent. -/
def HeapClass.Le : HeapClass → K → K → Prop
  | .minHeap, a, b => a ≤ b
  | .maxHeap, a, b => b ≤ a

instance HeapClass.total (c : HeapClass) : Std.Total (c.Le (K := K)) where
  total a b := by cases c <;> exact le_total _ _

instance HeapClass.trans (c : HeapClass) : IsTrans K c.Le where
  trans a b d hab hbd := by
    cases c
    · exact le_trans hab hbd
    · exact le_trans hbd hab

instance HeapClass.decidableLe (c : HeapClass) : DecidableRel (c.Le (K := K)) := fun a b =>
  match c with
  | .minHeap => inferInstanceAs (Decidable (a ≤ b))
  | .maxHeap => inferInstanceAs (Decidable (b ≤ a))

theorem heapCompare_iff (c : HeapClass) (e1 e2 : Entry V K) :
    heapCompare c e1 e2 = true ↔ ¬c.Le e1.key e2.key := by
  cases c
  · simp only [heapCompare, after, decide_eq_true_iff, compare_gt_iff_gt, HeapClass.Le, not_le]
  · simp only [heapCompare, before, decide_eq_true_iff, compare_lt_iff_lt, HeapClass.Le, not_le]

end Compare

namespace Heap

def heapEmpty (h : Heap V K) : Bool := h.data.isEmpty

def heapSize (h : Heap V K) : ℕ := h.data.length

def dataNth (h : Heap V K) (n : ℕ) : ℕ := h.data.getD n 0

/-- The slot writer index<< on the entry behind a reference. -/
def setIndex (h : Heap V K) (entry : ℕ) (index : Option ℕ) : Heap V K :=
  { h with store := Function.update h.store entry { h.store entry with index := index } }

def dataSetNth (h : Heap V K) (entry n : ℕ) : Heap V K :=
  { h.setIndex entry (some n) with data := h.data.set n entry }

def dataPush (h : Heap V K) (entry : ℕ) : Heap V K × ℕ :=
  ({ h.setIndex entry (some h.data.length) with data := h.data ++ [entry] }, h.data.length)

section Sifts

variable [LinearOrder K]

/-- The while loop of sift-down: the hole at `pos` takes its parent while the
parent must go below `tmp`, never above `from'`. -/
def siftDownLoop (h : Heap V K) (from' tmp : ℕ) : ℕ → ℕ → Heap V K × ℕ
  | 0, pos => (h, pos)
  | fuel + 1, pos =>
    if pos > from' then
      let entry := h.dataNth (up pos)
      if heapCompare h.klass (h.store entry) (h.store tmp) then
        (h.dataSetNth entry pos).siftDownLoop from' tmp fuel (up pos)
      else (h, pos)
    else (h, pos)

def siftDown (h : Heap V K) (from' to' : ℕ) : Heap V K :=
  let tmp := h.dataNth to'
  let r := h.siftDownLoop from' tmp (to' + 1) to'
  r.1.dataSetNth tmp r.2

/-- The while loop of sift-up: the hole at `pos` takes its lesser child until
it has none. -/
def siftUpLoop (h : Heap V K) (end' : ℕ) : ℕ → ℕ → Heap V K × ℕ
  | 0, pos => (h, pos)
  | fuel + 1, pos =>
    let child := left pos
    if child < end' then
      let right := child + 1
      let chosen :=
        if right < end' ∧ heapCompare h.klass (h.store (h.dataNth child)) (h.store (h.dataNth right))
        then right else child
      (h.dataSetNth (h.dataNth chosen) pos).siftUpLoop end' fuel chosen
    else (h, pos)

def siftUp (h : Heap V K) (n : ℕ) : Heap V K :=
  let end' := h.data.length
  let tmp := h.dataNth n
  let r := h.siftUpLoop end' end' n
  (r.1.dataSetNth tmp r.2).siftDown n r.2

end Sifts

/-- <entry>, at the first reference not yet handed out. -/
def newEntry (h : Heap V K) (value : V) (key : K) : Heap V K × ℕ :=
  ({ h with store := Function.update h.store h.next ⟨value, key, h.ident, none⟩, next := h.next + 1 },
    h.next)

section Operations

variable [LinearOrder K]

def heapPushStar (h : Heap V K) (value : V) (key : K) : Heap V K × ℕ :=
  let e := h.newEntry value key
  let p := e.1.dataPush e.2
  (p.1.siftDown 0 p.2, e.2)

def heapPush (h : Heap V K) (value : V) (key : K) : Heap V K := (h.heapPushStar value key).1

/-- heap-push-all pushes each key and value of an association list. -/
def heapPushAll (h : Heap V K) (assoc : List (K × V)) : Heap V K :=
  assoc.foldl (fun h kv => h.heapPush kv.2 kv.1) h

def heapPeek (h : Heap V K) : Except HeapError (V × K) :=
  match h.data.head? with
  | some first => .ok ((h.store first).value, (h.store first).key)
  | none => .error .boundsError

/-- heap-pop*: the first entry loses its index, the last is popped and, unless
it was the only one, put first by a plain set-first (its index is stale until
sift-up settles it). -/
def heapPopStar (h : Heap V K) : Except HeapError (Heap V K) :=
  match h.data.head?, h.data.getLast? with
  | some first, some last =>
    let h1 := h.setIndex first none
    let data := h.data.dropLast
    if data.isEmpty then .ok { h1 with data := data }
    else .ok ({ h1 with data := data.set 0 last }.siftUp 0)
  | _, _ => .error .boundsError

def heapPop (h : Heap V K) : Except HeapError ((V × K) × Heap V K) := do
  let vk ← h.heapPeek
  let h' ← h.heapPopStar
  return (vk, h')

/-- The until loop of slurp-heap in heap-pop-all, collecting key and value
pairs; the fuel is the heap's size, one pop a turn. -/
def heapPopAllLoop : ℕ → Heap V K → List (K × V) → Except HeapError (List (K × V) × Heap V K)
  | 0, h, acc => .ok (acc, h)
  | fuel + 1, h, acc =>
    if h.heapEmpty then .ok (acc, h)
    else do
      let r ← h.heapPop
      heapPopAllLoop fuel r.2 (acc ++ [(r.1.2, r.1.1)])

def heapPopAll (h : Heap V K) : Except HeapError (List (K × V) × Heap V K) :=
  heapPopAllLoop h.heapSize h []

/-- entry>index: the entry must belong to this heap and still have an index. -/
def entryIndex (h : Heap V K) (entry : ℕ) : Except HeapError ℕ :=
  if (h.store entry).heap = h.ident then
    match (h.store entry).index with
    | some n => .ok n
    | none => .error .badHeapDelete
  else .error .badHeapDelete

/-- heap-delete: the last entry is popped and, unless the deleted one was last,
fills the deleted one's slot and is sifted toward the leaves when it is at
the root or must go below its parent, toward the root otherwise. -/
def heapDelete (h : Heap V K) (entry : ℕ) : Except HeapError (Heap V K) :=
  match h.entryIndex entry, h.data.getLast? with
  | .error e, _ => .error e
  | .ok _, none => .error .boundsError
  | .ok n, some nthEntry =>
    let data := h.data.dropLast
    let h1 := { h.setIndex entry none with data := data }
    if n = data.length then .ok h1
    else
      let h2 := h1.dataSetNth nthEntry n
      if n = 0 ∨ heapCompare h2.klass (h2.store nthEntry) (h2.store (h2.dataNth (up n))) = true
      then .ok (h2.siftUp n)
      else .ok (h2.siftDown 0 n)

end Operations

end Heap

/-- The memory a new heap object is made in: the entries so far, the first
free reference, and the new object's identity, which no entry refers to yet. -/
structure Memory (V K : Type*) where
  store : ℕ → Entry V K
  next : ℕ
  ident : ℕ
  fresh : ∀ r, (store r).heap ≠ ident

/-- <heap>: a new heap object of the class, with no entries. -/
def newHeap (klass : HeapClass) (m : Memory V K) : Heap V K :=
  ⟨klass, m.ident, [], m.store, m.next⟩

namespace Heap

section Writers

variable (h : Heap V K) (entry n r : ℕ) (index : Option ℕ)

@[simp] theorem setIndex_klass : (h.setIndex entry index).klass = h.klass := rfl
@[simp] theorem setIndex_ident : (h.setIndex entry index).ident = h.ident := rfl
@[simp] theorem setIndex_next : (h.setIndex entry index).next = h.next := rfl
@[simp] theorem setIndex_data : (h.setIndex entry index).data = h.data := rfl

@[simp] theorem setIndex_value : ((h.setIndex entry index).store r).value = (h.store r).value := by
  by_cases hr : r = entry
  · subst hr
    simp only [setIndex, Function.update_self]
  · simp only [setIndex, Function.update_of_ne hr]

@[simp] theorem setIndex_key : ((h.setIndex entry index).store r).key = (h.store r).key := by
  by_cases hr : r = entry
  · subst hr
    simp only [setIndex, Function.update_self]
  · simp only [setIndex, Function.update_of_ne hr]

@[simp] theorem setIndex_heap : ((h.setIndex entry index).store r).heap = (h.store r).heap := by
  by_cases hr : r = entry
  · subst hr
    simp only [setIndex, Function.update_self]
  · simp only [setIndex, Function.update_of_ne hr]

theorem setIndex_index :
    ((h.setIndex entry index).store r).index = if r = entry then index else (h.store r).index := by
  by_cases hr : r = entry
  · subst hr
    simp only [setIndex, Function.update_self, if_true]
  · simp only [setIndex, Function.update_of_ne hr, if_neg hr]

@[simp] theorem dataSetNth_data : (h.dataSetNth entry n).data = h.data.set n entry := rfl

@[simp] theorem dataSetNth_store : (h.dataSetNth entry n).store = (h.setIndex entry (some n)).store :=
  rfl

@[simp] theorem dataSetNth_klass : (h.dataSetNth entry n).klass = h.klass := rfl
@[simp] theorem dataSetNth_ident : (h.dataSetNth entry n).ident = h.ident := rfl
@[simp] theorem dataSetNth_next : (h.dataSetNth entry n).next = h.next := rfl

@[simp] theorem dataPush_data : (h.dataPush entry).1.data = h.data ++ [entry] := rfl
@[simp] theorem dataPush_index : (h.dataPush entry).2 = h.data.length := rfl

@[simp] theorem dataPush_store :
    (h.dataPush entry).1.store = (h.setIndex entry (some h.data.length)).store := rfl

@[simp] theorem dataPush_klass : (h.dataPush entry).1.klass = h.klass := rfl
@[simp] theorem dataPush_ident : (h.dataPush entry).1.ident = h.ident := rfl
@[simp] theorem dataPush_next : (h.dataPush entry).1.next = h.next := rfl

end Writers

/-- The key at a position of the vector. -/
def keyAt (h : Heap V K) (i : ℕ) : K := (h.store (h.dataNth i)).key

theorem keyAt_dataSetNth (h : Heap V K) (entry : ℕ) {n : ℕ} (hn : n < h.data.length) :
    (h.dataSetNth entry n).keyAt = Function.update h.keyAt n (h.store entry).key := by
  funext i
  by_cases hi : i = n
  · subst hi
    simp [keyAt, dataNth, hn]
  · simp only [keyAt, dataNth, dataSetNth_data, dataSetNth_store, setIndex_key,
      Containers.getD_set, Function.update_of_ne hi]
    rw [if_neg (fun h => hi h.1.symm)]

end Heap

end FactorProofs.Core.Heaps
