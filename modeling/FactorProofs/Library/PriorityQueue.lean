import Mathlib.Data.Finset.Basic

namespace FactorProofs.PriorityQueue

/-! An addressable priority queue as an abstract machine: a finite set of live
handles, each with a value and a key. Inserting hands out a handle that is not
live; extracting or deleting the minimum takes a live handle whose key no live
key comes before, for a preorder `le`; deleting a handle removes it when it is
live and fails otherwise. The payloads of handles never change. -/

variable {ι V K : Type*}

structure Queue (ι V K : Type*) where
  live : Finset ι
  payload : ι → V × K

namespace Queue

variable [DecidableEq ι]

def insert (q : Queue ι V K) (r : ι) (v : V) (k : K) : Queue ι V K :=
  ⟨Insert.insert r q.live, Function.update q.payload r (v, k)⟩

def erase (q : Queue ι V K) (r : ι) : Queue ι V K :=
  ⟨q.live.erase r, q.payload⟩

/-- `r` is live and its key comes before every live key. -/
def IsMin (le : K → K → Prop) (q : Queue ι V K) (r : ι) : Prop :=
  r ∈ q.live ∧ ∀ r' ∈ q.live, le (q.payload r).2 (q.payload r').2

/-- The multiset of the live values and keys. -/
def contents (q : Queue ι V K) : Multiset (V × K) := q.live.val.map q.payload

theorem contents_eq_cons_erase {q : Queue ι V K} {r : ι} (hr : r ∈ q.live) :
    q.contents = q.payload r ::ₘ (q.erase r).contents := by
  rw [contents, ← Multiset.cons_erase (Finset.mem_val.mpr hr), Multiset.map_cons]
  rfl

theorem IsMin.le_of_mem_erase {le : K → K → Prop} {q : Queue ι V K} {r : ι} (hr : q.IsMin le r)
    {p : V × K} (hp : p ∈ (q.erase r).contents) : le (q.payload r).2 p.2 := by
  obtain ⟨r', hr', rfl⟩ := Multiset.mem_map.mp hp
  exact hr.2 r' (Finset.mem_of_mem_erase hr')

end Queue

inductive Op (ι V K : Type*)
  | insert (v : V) (k : K)
  | extractMin
  | deleteMin
  | delete (r : ι)

inductive Outcome (ι V K : Type*)
  | handle (r : ι)
  | payload (v : V) (k : K)
  | done
  | failed

variable [DecidableEq ι]

/-- One operation of the abstract queue, with what it answers. -/
inductive Step (le : K → K → Prop) : Queue ι V K → Op ι V K → Outcome ι V K → Queue ι V K → Prop
  | insert {q : Queue ι V K} {r : ι} {v : V} {k : K} :
      r ∉ q.live → Step le q (.insert v k) (.handle r) (q.insert r v k)
  | extractMin {q : Queue ι V K} {r : ι} :
      q.IsMin le r → Step le q .extractMin (.payload (q.payload r).1 (q.payload r).2) (q.erase r)
  | extractEmpty {q : Queue ι V K} : q.live = ∅ → Step le q .extractMin .failed q
  | deleteMin {q : Queue ι V K} {r : ι} : q.IsMin le r → Step le q .deleteMin .done (q.erase r)
  | deleteMinEmpty {q : Queue ι V K} : q.live = ∅ → Step le q .deleteMin .failed q
  | delete {q : Queue ι V K} {r : ι} : r ∈ q.live → Step le q (.delete r) .done (q.erase r)
  | deleteAbsent {q : Queue ι V K} {r : ι} : r ∉ q.live → Step le q (.delete r) .failed q

end FactorProofs.PriorityQueue
