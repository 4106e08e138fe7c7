import FactorProofs.Core.HeapsSift
import FactorProofs.Library.PriorityQueue
import FactorProofs.Library.Transition
import Mathlib.Data.List.GetD
import Mathlib.Data.Finset.Card

namespace FactorProofs.Core.Heaps

open FactorProofs.BinaryHeap FactorProofs.PriorityQueue

variable {V K : Type*}

namespace Heap

/-! ## Valid heaps

A heap is valid when its entries are its own, every position of the vector
is recorded in the entry there, removed entries have no index, and no child
comes before its parent. Each operation keeps validity and does to the vector
what the abstract queue does to its live handles (`toQueue`). -/

/-- The bookkeeping no sift touches: every entry of this heap was handed out
by it, the vector holds only its entries, and those not in the vector have no
index. -/
structure Owned (h : Heap V K) : Prop where
  fresh : ∀ r, (h.store r).heap = h.ident → r < h.next
  own : ∀ r ∈ h.data, (h.store r).heap = h.ident
  removed : ∀ r, (h.store r).heap = h.ident → r ∉ h.data → (h.store r).index = none

structure Valid [LinearOrder K] (h : Heap V K) : Prop extends Owned h where
  index : ∀ i, i < h.data.length → (h.store (h.dataNth i)).index = some i
  ordered : Ordered h.klass.Le h.keyAt h.data.length

def payload (h : Heap V K) (r : ℕ) : V × K := ((h.store r).value, (h.store r).key)

/-- The abstract queue a heap stands for: the entries in its vector, with their
values and keys. -/
def toQueue (h : Heap V K) : Queue ℕ V K := ⟨h.data.toFinset, h.payload⟩

theorem Frame.payload_eq {h0 h : Heap V K} (f : Frame h0 h) : h.payload = h0.payload :=
  funext fun r => by rw [payload, payload, f.value, f.key]

theorem toQueue_eq {h : Heap V K} {q : Queue ℕ V K} (hlive : ∀ r, r ∈ h.data ↔ r ∈ q.live)
    (hpay : h.payload = q.payload) : h.toQueue = q := by
  cases q
  simp only [toQueue, Queue.mk.injEq]
  exact ⟨Finset.ext fun r => by rw [List.mem_toFinset, hlive], hpay⟩

theorem mem_toQueue_erase {h : Heap V K} {r r' : ℕ} : r' ∈ (h.toQueue.erase r).live ↔ r' ≠ r ∧ r' ∈ h.data := by
  rw [toQueue, Queue.erase, Finset.mem_erase, List.mem_toFinset]

theorem toQueue_live_eq_empty {h : Heap V K} (hd : h.data = []) : h.toQueue.live = ∅ := by
  rw [toQueue, hd, List.toFinset_nil]

theorem Owned.settled {h0 h : Heap V K} (ho : Owned h0) (s : Settled h0 h) : Owned h where
  fresh r hr := by
    rw [s.next]
    exact ho.fresh r (by rw [← s.heap, ← s.ident]; exact hr)
  own r hr := by
    rw [s.heap, s.ident]
    exact ho.own r (s.perm.mem_iff.mp hr)
  removed r hr hnot := by
    have hnot0 : r ∉ h0.data := fun hm => hnot (s.perm.mem_iff.mpr hm)
    rw [s.outside r hnot0]
    exact ho.removed r (by rw [← s.heap, ← s.ident]; exact hr) hnot0

section Valid

variable [LinearOrder K] {h : Heap V K}

theorem Valid.of_settled {h0 : Heap V K} (ho : Owned h0) (s : Settled h0 h)
    (hord : Ordered h.klass.Le h.keyAt h.data.length) : Valid h :=
  { ho.settled s with index := s.index, ordered := hord }

theorem Valid.nodup (hv : Valid h) : h.data.Nodup := by
  rw [List.nodup_iff_injective_get]
  rintro ⟨i, hi⟩ ⟨j, hj⟩ heq
  have hi' := hv.index i hi
  have hj' := hv.index j hj
  rw [dataNth_eq_getElem hi] at hi'
  rw [dataNth_eq_getElem hj] at hj'
  simp only [List.get_eq_getElem] at heq
  rw [heq, hj'] at hi'
  exact Fin.ext (Option.some.inj hi').symm

theorem Valid.getElem_of_index (hv : Valid h) {r n : ℕ} (hr : (h.store r).heap = h.ident)
    (hn : (h.store r).index = some n) : ∃ hlt : n < h.data.length, h.data[n] = r := by
  have hmem : r ∈ h.data := by
    by_contra hnot
    rw [hv.removed r hr hnot] at hn
    exact Option.some_ne_none n hn.symm
  obtain ⟨j, hj, rfl⟩ := List.mem_iff_getElem.mp hmem
  have hidx := hv.index j hj
  rw [dataNth_eq_getElem hj, hn] at hidx
  obtain rfl := Option.some.inj hidx
  exact ⟨hj, rfl⟩

theorem Valid.isMin_head (hv : Valid h) {first : ℕ} {rest : List ℕ} (hd : h.data = first :: rest) :
    h.toQueue.IsMin h.klass.Le first := by
  have h0 : 0 < h.data.length := by rw [hd]; exact Nat.succ_pos _
  have hfirst : h.dataNth 0 = first := by rw [dataNth_eq_getElem h0]; simp only [hd, List.getElem_cons_zero]
  refine ⟨by rw [toQueue, List.mem_toFinset, hd]; exact List.mem_cons_self, fun r' hr' => ?_⟩
  obtain ⟨i, hi, rfl⟩ := List.mem_iff_getElem.mp (List.mem_toFinset.mp hr')
  have hle := hv.ordered.root_le i hi
  rwa [keyAt, keyAt, hfirst, dataNth_eq_getElem hi] at hle

end Valid

theorem newHeap_valid [LinearOrder K] (klass : HeapClass) (m : Memory V K) : Valid (newHeap klass m) where
  fresh r hr := absurd hr (m.fresh r)
  own _ hr := absurd hr List.not_mem_nil
  removed r hr _ := absurd hr (m.fresh r)
  index i hi := absurd hi (Nat.not_lt_zero i)
  ordered i _ hi := absurd hi (Nat.not_lt_zero i)

section Push

variable [LinearOrder K] {h : Heap V K}

theorem pushed_owned (hv : Valid h) (value : V) (key : K) :
    Owned ((h.newEntry value key).1.dataPush h.next).1 where
  fresh r hr := by
    by_cases hrn : r = h.next
    · show r < h.next + 1
      omega
    · simp only [dataPush_store, setIndex_heap, dataPush_ident, newEntry] at hr
      rw [Function.update_of_ne hrn] at hr
      exact Nat.lt_succ_of_lt (hv.fresh r hr)
  own r hr := by
    simp only [dataPush_store, setIndex_heap, dataPush_ident, newEntry]
    by_cases hrn : r = h.next
    · rw [hrn, Function.update_self]
    · rw [Function.update_of_ne hrn]
      rw [dataPush_data, List.mem_append, List.mem_singleton] at hr
      exact hv.own r (hr.resolve_right hrn)
  removed r hr hnot := by
    rw [dataPush_data, List.mem_append, List.mem_singleton, not_or] at hnot
    simp only [dataPush_store, setIndex_heap, dataPush_ident, newEntry] at hr
    rw [Function.update_of_ne hnot.2] at hr
    rw [dataPush_store, setIndex_index, if_neg hnot.2]
    simp only [newEntry]
    rw [Function.update_of_ne hnot.2]
    exact hv.removed r hr hnot.1

theorem heapPushStar_spec (hv : Valid h) (value : V) (key : K) :
    Valid (h.heapPushStar value key).1 ∧ (h.heapPushStar value key).1.klass = h.klass ∧
      (h.heapPushStar value key).2 ∉ h.data ∧
      (h.heapPushStar value key).1.toQueue = h.toQueue.insert (h.heapPushStar value key).2 value key := by
  set h1 := (h.newEntry value key).1
  set h2 := (h1.dataPush h.next).1
  show Valid (h2.siftDown 0 h.data.length) ∧ (h2.siftDown 0 h.data.length).klass = h.klass ∧
    h.next ∉ h.data ∧ (h2.siftDown 0 h.data.length).toQueue = h.toQueue.insert h.next value key
  have hnew : h.next ∉ h.data := fun hm => Nat.lt_irrefl _ (hv.fresh _ (hv.own _ hm))
  have hd2 : h2.data = h.data ++ [h.next] := rfl
  have hnd2 : h2.data.Nodup := by
    rw [hd2, ← List.concat_eq_append, List.nodup_concat]
    exact ⟨hnew, hv.nodup⟩
  have hold : ∀ i, i < h.data.length → h2.dataNth i = h.dataNth i ∧ h2.store (h.dataNth i) = h.store (h.dataNth i) := by
    intro i hi
    have hne : h.dataNth i ≠ h.next := fun heq => hnew (heq ▸ dataNth_mem hi)
    refine ⟨List.getD_append _ _ _ _ hi, ?_⟩
    simp only [h2, h1, dataPush_store, setIndex, newEntry, Function.update_of_ne hne]
  have hidx2 : ∀ i, i < h2.data.length → i ≠ h.data.length → (h2.store (h2.dataNth i)).index = some i := by
    intro i hi hin
    have hi' : i < h.data.length := by rw [hd2, List.length_append, List.length_singleton] at hi; omega
    rw [(hold i hi').1, (hold i hi').2]
    exact hv.index i hi'
  have ho2 : UpOrder h2.klass.Le h2.keyAt h2.data.length h.data.length (h2.keyAt h.data.length) := by
    rw [hd2, List.length_append, List.length_singleton]
    refine Ordered.upOrder_last (hv.ordered.congr fun i hi => ?_) _
    rw [keyAt, keyAt, (hold i hi).1, (hold i hi).2]
  obtain ⟨hset, hord⟩ :=
    siftDown_spec hnd2 (by rw [hd2, List.length_append, List.length_singleton]; omega) hidx2
      (ancestor_zero _) ho2 (absurd rfl)
  have hlen : (h2.siftDown 0 h.data.length).data.length = h2.data.length := hset.length
  refine ⟨Valid.of_settled (pushed_owned hv value key) hset (by rw [hlen, hset.klass]; exact hord),
    hset.klass, hnew, toQueue_eq (fun r => ?_) ?_⟩
  · rw [hset.perm.mem_iff, hd2, List.mem_append, List.mem_singleton, toQueue, Queue.insert,
      Finset.mem_insert, List.mem_toFinset, or_comm]
  · rw [hset.payload_eq]
    funext r
    by_cases hrn : r = h.next
    · subst hrn
      simp only [payload, h2, h1, dataPush_store, setIndex_value, setIndex_key, newEntry,
        Function.update_self, toQueue, Queue.insert]
    · simp only [payload, h2, h1, dataPush_store, setIndex_value, setIndex_key, newEntry,
        Function.update_of_ne hrn, toQueue, Queue.insert]

end Push

section Removal

variable {h : Heap V K} {d : List ℕ} {last : ℕ}

theorem Owned.setIndex_mem (ho : Owned h) {e : ℕ} (he : e ∈ h.data) (i : Option ℕ) :
    Owned (h.setIndex e i) where
  fresh r hr := ho.fresh r (by simpa using hr)
  own r hr := by simpa using ho.own r hr
  removed r hr hnot := by
    have hne : r ≠ e := fun heq => hnot (heq ▸ he)
    rw [setIndex_index, if_neg hne]
    exact ho.removed r (by simpa using hr) hnot

theorem Owned.removal (ho : Owned h) (hnd : h.data.Nodup) (hdl : h.data = d ++ [last]) {n : ℕ}
    (hn : n < d.length) :
    (∀ r, r ∈ d.set n last ↔ r ≠ d[n] ∧ r ∈ h.data) ∧
      Owned { h.setIndex d[n] none with data := d.set n last } := by
  have hndd : (d ++ [last]).Nodup := hdl ▸ hnd
  have hmem : ∀ r, r ∈ d.set n last ↔ r ≠ d[n] ∧ r ∈ h.data := fun r => by
    rw [(Containers.set_perm_erase (List.nodup_append.mp hndd).1 hn last).mem_iff, ← hdl,
      hnd.mem_erase_iff]
  refine ⟨hmem, ⟨fun r hr => ho.fresh r (by simpa using hr), fun r hr => ?_, fun r hr hnot => ?_⟩⟩
  · simpa using ho.own r ((hmem r).mp hr).2
  · show ((h.setIndex d[n] none).store r).index = none
    rw [setIndex_index]
    split
    · rfl
    · exact ho.removed r (by simpa using hr) fun hm => hnot ((hmem r).mpr ⟨‹_›, hm⟩)

theorem Owned.removal_last (ho : Owned h) (hnd : h.data.Nodup) (hdl : h.data = d ++ [last]) :
    (∀ r, r ∈ d ↔ r ≠ last ∧ r ∈ h.data) ∧ Owned { h.setIndex last none with data := d } := by
  have hndd : (d ++ [last]).Nodup := hdl ▸ hnd
  have hlast : last ∉ d := fun hm => (List.nodup_append.mp hndd).2.2 last hm last (List.mem_singleton_self _) rfl
  have hmem : ∀ r, r ∈ d ↔ r ≠ last ∧ r ∈ h.data := fun r => by
    rw [← hnd.mem_erase_iff, hdl, List.erase_append_right _ hlast, List.erase_cons_head, List.append_nil]
  refine ⟨hmem, ⟨fun r hr => ho.fresh r (by simpa using hr), fun r hr => ?_, fun r hr hnot => ?_⟩⟩
  · simpa using ho.own r ((hmem r).mp hr).2
  · show ((h.setIndex last none).store r).index = none
    rw [setIndex_index]
    split
    · rfl
    · exact ho.removed r (by simpa using hr) fun hm => hnot ((hmem r).mpr ⟨‹_›, hm⟩)

theorem getD_of_concat (hdl : h.data = d ++ [last]) {i : ℕ} (hi : i < d.length) :
    d.getD i 0 = h.dataNth i := by
  rw [dataNth, hdl, List.getD_append _ _ _ _ hi]

theorem getD_set_of_ne (hdl : h.data = d ++ [last]) {n i : ℕ} (hi : i < d.length) (hin : i ≠ n) :
    (d.set n last).getD i 0 = h.dataNth i := by
  rw [Containers.getD_set, if_neg (fun h => hin h.1.symm), getD_of_concat hdl hi]

variable [LinearOrder K]

theorem Valid.removal_index (hv : Valid h) (hdl : h.data = d ++ [last]) {n e : ℕ} (hn : n < d.length)
    (he : e = d[n]) {i : ℕ} (hi : i < d.length) (hin : i ≠ n) :
    ((h.setIndex e none).store ((d.set n last).getD i 0)).index = some i := by
  have hlen : d.length < h.data.length := by rw [hdl, List.length_append, List.length_singleton]; omega
  have hdn : d[n] = h.dataNth n := by
    rw [dataNth_eq_getElem (by omega)]
    simp only [hdl, List.getElem_append_left hn]
  have hne : h.dataNth i ≠ e := by
    intro heq
    have hidx := hv.index i (by omega)
    rw [heq, he, hdn, hv.index n (by omega)] at hidx
    exact hin (Option.some.inj hidx).symm
  rw [getD_set_of_ne hdl hi hin, setIndex_index, if_neg hne]
  exact hv.index i (by omega)

end Removal

section Pop

variable {h : Heap V K}

theorem heapPeek_cons {first : ℕ} {rest : List ℕ} (hd : h.data = first :: rest) :
    h.heapPeek = .ok (h.payload first) := by
  simp only [heapPeek, hd, List.head?_cons, payload]

theorem heapPeek_nil (hd : h.data = []) : h.heapPeek = .error .boundsError := by
  simp only [heapPeek, hd, List.head?_nil]

variable [LinearOrder K]

theorem heapPopStar_nil (hd : h.data = []) : h.heapPopStar = .error .boundsError := by
  simp only [heapPopStar, hd, List.head?_nil, List.getLast?_nil]

theorem heapPopStar_spec (hv : Valid h) {first : ℕ} {rest : List ℕ} (hd : h.data = first :: rest) :
    ∃ h', h.heapPopStar = .ok h' ∧ Valid h' ∧ h'.klass = h.klass ∧ h'.toQueue = h.toQueue.erase first := by
  obtain ⟨d, last, hdl⟩ : ∃ d last, h.data = d ++ [last] := by
    rcases List.eq_nil_or_concat' h.data with hnil | hc
    · rw [hd] at hnil
      exact absurd hnil (List.cons_ne_nil _ _)
    · exact hc
  have hhead : h.data.head? = some first := by rw [hd, List.head?_cons]
  have hlast : h.data.getLast? = some last := by rw [hdl, List.getLast?_concat]
  have hdrop : h.data.dropLast = d := by rw [hdl, List.dropLast_concat]
  have hnd := hv.nodup
  rcases d with _ | ⟨first', init⟩
  · -- the only entry: nothing is left to sift
    have hfl : first = last := by
      rw [hdl] at hd
      exact (List.cons.inj hd).1.symm
    subst hfl
    obtain ⟨hmem, hown⟩ := hv.toOwned.removal_last hnd hdl
    simp only [heapPopStar, hhead, hlast, hdrop, List.isEmpty_nil, if_true]
    refine ⟨_, rfl, ⟨hown, fun i hi => absurd hi (Nat.not_lt_zero i),
      fun i _ hi => absurd hi (Nat.not_lt_zero i)⟩, rfl,
      toQueue_eq (fun r => by rw [mem_toQueue_erase, ← hmem]) (frame_setIndex h first none).payload_eq⟩
  · have hff : first' = first := by
      rw [hdl] at hd
      exact (List.cons.inj hd).1
    subst hff
    simp only [heapPopStar, hhead, hlast, hdrop, List.isEmpty_cons, Bool.false_eq_true, if_false]
    have hn : 0 < (first' :: init).length := Nat.succ_pos _
    obtain ⟨hmem, hown⟩ := hv.toOwned.removal hnd hdl hn
    simp only [List.getElem_cons_zero] at hmem hown
    set h0 : Heap V K := { h.setIndex first' none with data := (first' :: init).set 0 last }
    have hlen0 : h0.data.length < h.data.length := by
      simp only [h0, List.length_set, hdl, List.length_append, List.length_singleton]
      omega
    have hnd0 : h0.data.Nodup := by
      have hndd : ((first' :: init) ++ [last]).Nodup := hdl ▸ hnd
      refine (List.nodup_append.mp hndd).1.set fun hm => ?_
      exact (List.nodup_append.mp hndd).2.2 last hm last (List.mem_singleton_self _) rfl
    have hkeys : ∀ i, i < h0.data.length → i ≠ 0 → h.keyAt i = h0.keyAt i := by
      intro i hi hi0
      simp only [h0, List.length_set] at hi
      simp only [keyAt, h0, dataNth, getD_set_of_ne hdl hi hi0, setIndex_key]
    obtain ⟨hset, hord⟩ := siftUp_spec (h := h0) hnd0 (by simp [h0])
      (fun i hi hi0 => hv.removal_index hdl hn rfl (by simpa [h0] using hi) hi0)
      ((hv.ordered.downOrder hlen0.le).congr hkeys) (absurd rfl)
    refine ⟨_, rfl, Valid.of_settled hown hset (by rwa [hset.length, hset.klass]), hset.klass,
      toQueue_eq (fun r => ?_) ?_⟩
    · rw [hset.perm.mem_iff, mem_toQueue_erase]
      exact hmem r
    · rw [hset.payload_eq]
      exact (frame_setIndex h first' none).payload_eq

theorem heapPop_nil (hd : h.data = []) : h.heapPop = .error .boundsError := by
  simp only [heapPop, heapPeek_nil hd]
  rfl

theorem heapPop_spec (hv : Valid h) {first : ℕ} {rest : List ℕ} (hd : h.data = first :: rest) :
    ∃ h', h.heapPop = .ok (h.payload first, h') ∧ Valid h' ∧ h'.klass = h.klass ∧
      h'.toQueue = h.toQueue.erase first := by
  obtain ⟨h', hpop, hv', hk, hq⟩ := heapPopStar_spec hv hd
  refine ⟨h', ?_, hv', hk, hq⟩
  simp only [heapPop, heapPeek_cons hd, hpop]
  rfl

end Pop

section Delete

variable [LinearOrder K] {h : Heap V K}

theorem entryIndex_getElem (hv : Valid h) {n : ℕ} (hn : n < h.data.length) :
    h.entryIndex h.data[n] = .ok n := by
  have hidx := hv.index n hn
  rw [dataNth_eq_getElem hn] at hidx
  simp only [entryIndex, hv.own _ (List.getElem_mem hn), if_true, hidx]

theorem heapDelete_of_not_mem (hv : Valid h) {r : ℕ} (hr : r ∉ h.data) :
    h.heapDelete r = .error .badHeapDelete := by
  have hentry : h.entryIndex r = .error .badHeapDelete := by
    unfold entryIndex
    split
    · rename_i hh
      rw [hv.removed r hh hr]
    · rfl
  simp only [heapDelete, hentry]

theorem heapDelete_spec (hv : Valid h) {r : ℕ} (hr : r ∈ h.data) :
    ∃ h', h.heapDelete r = .ok h' ∧ Valid h' ∧ h'.klass = h.klass ∧ h'.toQueue = h.toQueue.erase r := by
  obtain ⟨n, hn, rfl⟩ := List.mem_iff_getElem.mp hr
  obtain ⟨last, hlast⟩ : ∃ last, h.data.getLast? = some last :=
    Option.isSome_iff_exists.mp (List.getLast?_isSome.mpr (List.ne_nil_of_mem hr))
  have hdl : h.data = h.data.dropLast ++ [last] := (List.dropLast_append_getLast? last hlast).symm
  have hnd := hv.nodup
  have hlen : h.data.length = h.data.dropLast.length + 1 := by
    rw [List.length_dropLast]
    have := List.length_pos_of_mem hr
    omega
  simp only [heapDelete, entryIndex_getElem hv hn, hlast]
  set d := h.data.dropLast with hd
  have hdn : ∀ i (hi : i < d.length), h.dataNth i = d[i] := fun i hi => by
    rw [dataNth_eq_getElem (by omega)]
    simp only [hdl, List.getElem_append_left hi]
  have hlast_ne : ∀ i, i < d.length → h.dataNth i ≠ last := by
    intro i hi heq
    have hl : h.dataNth d.length = last := by
      rw [dataNth_eq_getElem (by omega)]
      simp only [hdl, List.getElem_append_right (Nat.le_refl _), Nat.sub_self, List.getElem_cons_zero]
    have hidx := hv.index i (by omega)
    rw [heq, ← hl, hv.index d.length (by omega)] at hidx
    exact absurd (Option.some.inj hidx) (by omega)
  split
  · -- the deleted entry was last: the vector only shrinks
    rename_i hnl
    have hrl : h.data[n] = last := by
      simp only [hdl, hnl, List.getElem_append_right (Nat.le_refl _), Nat.sub_self, List.getElem_cons_zero]
    rw [hrl]
    obtain ⟨hmem, hown⟩ := hv.toOwned.removal_last hnd hdl
    refine ⟨_, rfl, ⟨hown, fun i hi => ?_, ?_⟩, rfl,
      toQueue_eq (fun r => by rw [mem_toQueue_erase, ← hmem]) (frame_setIndex h last none).payload_eq⟩
    · change i < d.length at hi
      show ((h.setIndex last none).store (d.getD i 0)).index = some i
      rw [getD_of_concat hdl hi, setIndex_index, if_neg (hlast_ne i hi)]
      exact hv.index i (by omega)
    · refine (hv.ordered.mono (show d.length ≤ h.data.length by omega)).congr fun i hi => ?_
      show h.keyAt i = ((h.setIndex last none).store (d.getD i 0)).key
      rw [setIndex_key, getD_of_concat hdl hi]
      rfl
  · -- the last entry fills the deleted one's slot
    rename_i hnl
    have hnd' : n < d.length := by omega
    have hrd : h.data[n] = d[n] := by rw [← dataNth_eq_getElem hn, hdn n hnd']
    rw [hrd]
    obtain ⟨hmem, hown⟩ := hv.toOwned.removal hnd hdl hnd'
    set h2 := ({ h.setIndex d[n] none with data := d } : Heap V K).dataSetNth last n
    have hown2 : Owned h2 := hown.setIndex_mem (List.mem_set hnd' last) (some n)
    have hlen2 : h2.data.length = d.length := List.length_set
    have hnd2 : h2.data.Nodup := by
      have hndd : (d ++ [last]).Nodup := hdl ▸ hnd
      exact (List.nodup_append.mp hndd).1.set fun hm =>
        (List.nodup_append.mp hndd).2.2 last hm last (List.mem_singleton_self _) rfl
    have hat : h2.dataNth n = last := by
      rw [dataNth_dataSetNth, if_pos ⟨rfl, hnd'⟩]
    have hoff : ∀ i, i < d.length → i ≠ n → h2.dataNth i = h.dataNth i := fun i hi hin => by
      rw [dataNth_dataSetNth, if_neg (fun h => hin h.1.symm)]
      exact getD_of_concat hdl hi
    have hidx2 : ∀ i, i < h2.data.length → i ≠ n → (h2.store (h2.dataNth i)).index = some i := by
      intro i hi hin
      rw [hlen2] at hi
      rw [dataSetNth_store, setIndex_index, if_neg (by rw [hoff i hi hin]; exact hlast_ne i hi)]
      exact hv.removal_index hdl hnd' rfl hi hin
    have hkeys2 : ∀ i, i < d.length → i ≠ n → h.keyAt i = h2.keyAt i := fun i hi hin => by
      simp only [keyAt, hoff i hi hin, h2, dataSetNth_store, setIndex_key]
    have hkl : (h2.store last).key = (h.store last).key := by
      simp only [h2, dataSetNth_store, setIndex_key]
    have hkeyn : h2.keyAt n = (h.store last).key := by rw [keyAt, hat, hkl]
    have hfinish : ∀ h', Settled h2 h' → Ordered h2.klass.Le h'.keyAt h2.data.length →
        Valid h' ∧ h'.klass = h.klass ∧ h'.toQueue = h.toQueue.erase d[n] := by
      intro h' hset hord
      refine ⟨Valid.of_settled hown2 hset (by rwa [hset.length, hset.klass]), hset.klass,
        toQueue_eq (fun r => by rw [hset.perm.mem_iff, mem_toQueue_erase]; exact hmem r) ?_⟩
      rw [hset.payload_eq]
      exact (frame_dataSetNth _ last n).payload_eq.trans (frame_setIndex h d[n] none).payload_eq
    split
    · -- at the root, or below its parent: toward the leaves
      rename_i hc
      have hpar : n ≠ 0 → h2.klass.Le (h2.keyAt (parent n)) (h2.keyAt n) := by
        intro hn0
        have hb := (heapCompare_iff _ _ _).mp (hc.resolve_left hn0)
        rw [hkl] at hb
        rw [hkeyn]
        exact le_of_not_le hb
      obtain ⟨hset, hord⟩ := siftUp_spec hnd2 (hlen2 ▸ hnd') hidx2
        (by rw [hlen2]; exact (hv.ordered.downOrder (show d.length ≤ h.data.length by omega)).congr hkeys2)
        hpar
      exact ⟨_, rfl, hfinish _ hset hord⟩
    · -- not at the root and allowed below its parent: toward the root
      rename_i hc
      have hn0 : n ≠ 0 := fun h0 => hc (Or.inl h0)
      have hp : parent n < n := parent_lt (Nat.pos_of_ne_zero hn0)
      have hx : h2.klass.Le (h2.keyAt n) (h.keyAt (parent n)) := by
        have hb := (heapCompare_iff _ _ _).not.mp fun hcmp => hc (Or.inr hcmp)
        rw [not_not, hkl] at hb
        rw [hkeyn, hkeys2 (parent n) (by omega) (by omega)]
        exact hb
      have hup : UpOrder h2.klass.Le h2.keyAt h2.data.length n (h2.keyAt n) := by
        rw [hlen2]
        exact (hv.ordered.upOrder (show d.length ≤ h.data.length by omega) hn (fun _ => hx)
          (fun h0 => absurd h0 hn0)).congr hkeys2
      obtain ⟨hset, hord⟩ := siftDown_spec hnd2 (hlen2 ▸ hnd') hidx2 (ancestor_zero n) hup (absurd rfl)
      exact ⟨_, rfl, hfinish _ hset hord⟩

end Delete

section Queue

variable [LinearOrder K] {h : Heap V K}

theorem Valid.contents_eq (hv : Valid h) : (h.data.map h.payload : Multiset (V × K)) = h.toQueue.contents := by
  rw [Queue.contents, toQueue, List.toFinset_val, hv.nodup.dedup, Multiset.map_coe]

theorem Valid.heapSize_eq (hv : Valid h) : h.heapSize = h.toQueue.live.card :=
  (List.toFinset_card_of_nodup hv.nodup).symm

/-- A caller running one operation of the abstract queue with heap-push*,
heap-pop, heap-pop* or heap-delete, and catching an error, which leaves the
heap as it was. -/
def runOp (h : Heap V K) : Op ℕ V K → Outcome ℕ V K × Heap V K
  | .insert v k => (.handle (h.heapPushStar v k).2, (h.heapPushStar v k).1)
  | .extractMin =>
    match h.heapPop with
    | .ok r => (.payload r.1.1 r.1.2, r.2)
    | .error _ => (.failed, h)
  | .deleteMin =>
    match h.heapPopStar with
    | .ok h' => (.done, h')
    | .error _ => (.failed, h)
  | .delete r =>
    match h.heapDelete r with
    | .ok h' => (.done, h')
    | .error _ => (.failed, h)

theorem runOp_refines (hv : Valid h) (op : Op ℕ V K) :
    Step h.klass.Le h.toQueue op (h.runOp op).1 (h.runOp op).2.toQueue ∧ Valid (h.runOp op).2 ∧
      (h.runOp op).2.klass = h.klass := by
  cases op with
  | insert v k =>
    obtain ⟨hv', hk, hnew, hq⟩ := heapPushStar_spec hv v k
    simp only [runOp]
    rw [hq]
    exact ⟨Step.insert (by rw [toQueue, List.mem_toFinset]; exact hnew), hv', hk⟩
  | extractMin =>
    rcases hd : h.data with _ | ⟨first, rest⟩
    · simp only [runOp, heapPop_nil hd]
      exact ⟨Step.extractEmpty (toQueue_live_eq_empty hd), hv, trivial⟩
    · obtain ⟨h', hpop, hv', hk, hq⟩ := heapPop_spec hv hd
      simp only [runOp, hpop]
      rw [hq]
      exact ⟨Step.extractMin (hv.isMin_head hd), hv', hk⟩
  | deleteMin =>
    rcases hd : h.data with _ | ⟨first, rest⟩
    · simp only [runOp, heapPopStar_nil hd]
      exact ⟨Step.deleteMinEmpty (toQueue_live_eq_empty hd), hv, trivial⟩
    · obtain ⟨h', hpop, hv', hk, hq⟩ := heapPopStar_spec hv hd
      simp only [runOp, hpop]
      rw [hq]
      exact ⟨Step.deleteMin (hv.isMin_head hd), hv', hk⟩
  | delete r =>
    by_cases hr : r ∈ h.data
    · obtain ⟨h', hdel, hv', hk, hq⟩ := heapDelete_spec hv hr
      simp only [runOp, hdel]
      rw [hq]
      exact ⟨Step.delete (by rw [toQueue, List.mem_toFinset]; exact hr), hv', hk⟩
    · simp only [runOp, heapDelete_of_not_mem hv hr]
      exact ⟨Step.deleteAbsent (by rw [toQueue, List.mem_toFinset]; exact hr), hv, trivial⟩

theorem runList_runOp_refines (klass : HeapClass) (m : Memory V K) (ops : List (Op ℕ V K)) :
    Transition.Trace (Step klass.Le) (newHeap klass m).toQueue ops
        (Transition.runList runOp (newHeap klass m) ops).1
        (Transition.runList runOp (newHeap klass m) ops).2.toQueue ∧
      Valid (Transition.runList runOp (newHeap klass m) ops).2 ∧
      (Transition.runList runOp (newHeap klass m) ops).2.klass = klass := by
  have hstep : ∀ (s : Heap V K) a, Valid s ∧ s.klass = klass →
      Step klass.Le s.toQueue a (s.runOp a).1 (s.runOp a).2.toQueue ∧
        (Valid (s.runOp a).2 ∧ (s.runOp a).2.klass = klass) := by
    rintro s a ⟨hv, rfl⟩
    obtain ⟨hspec, hv', hk⟩ := runOp_refines hv a
    exact ⟨hspec, hv', hk⟩
  obtain ⟨htrace, hv, hk⟩ := Transition.runList_trace toQueue hstep ops ⟨newHeap_valid klass m, rfl⟩
  exact ⟨htrace, hv, hk⟩

theorem heapPopAllLoop_spec (fuel : ℕ) {h : Heap V K} (acc : List (K × V)) (hv : Valid h)
    (hfuel : h.data.length ≤ fuel) :
    ∃ l h', heapPopAllLoop fuel h acc = .ok (acc ++ l, h') ∧
      (l.map Prod.swap : Multiset (V × K)) = h.toQueue.contents ∧ (l.map Prod.fst).Pairwise h.klass.Le ∧
      h'.data = [] := by
  induction fuel generalizing h acc with
  | zero =>
    have hd : h.data = [] := List.eq_nil_of_length_eq_zero (by omega)
    refine ⟨[], h, by rw [heapPopAllLoop, List.append_nil], ?_, List.Pairwise.nil, hd⟩
    rw [List.map_nil, Queue.contents, toQueue_live_eq_empty hd]
    rfl
  | succ fuel ih =>
    rcases hd : h.data with _ | ⟨first, rest⟩
    · have he : h.heapEmpty = true := by rw [heapEmpty, hd, List.isEmpty_nil]
      refine ⟨[], h, by rw [heapPopAllLoop, if_pos he, List.append_nil], ?_, List.Pairwise.nil, hd⟩
      rw [List.map_nil, Queue.contents, toQueue_live_eq_empty hd]
      rfl
    · have he : h.heapEmpty = false := by rw [heapEmpty, hd, List.isEmpty_cons]
      obtain ⟨h1, hpop, hv1, hk1, hq1⟩ := heapPop_spec hv hd
      have hlive : first ∈ h.toQueue.live := by rw [toQueue, List.mem_toFinset, hd]; exact List.mem_cons_self
      have hlen1 : h1.data.length + 1 = h.data.length := by
        rw [← List.toFinset_card_of_nodup hv1.nodup, ← List.toFinset_card_of_nodup hv.nodup]
        change h1.toQueue.live.card + 1 = h.toQueue.live.card
        rw [hq1, Queue.erase, Finset.card_erase_of_mem hlive]
        have := Finset.card_pos.mpr ⟨first, hlive⟩
        omega
      obtain ⟨l1, h', hloop, hcont, hsort, hempty⟩ :=
        ih (acc ++ [((h.payload first).2, (h.payload first).1)]) hv1 (by omega)
      refine ⟨((h.payload first).2, (h.payload first).1) :: l1, h', ?_, ?_, ?_, hempty⟩
      · rw [heapPopAllLoop, if_neg (by rw [he]; exact Bool.false_ne_true)]
        simp only [hpop]
        rw [List.append_assoc, List.singleton_append] at hloop
        exact hloop
      · rw [List.map_cons, ← Multiset.cons_coe, hcont, hq1, Queue.contents_eq_cons_erase hlive]
        rfl
      · rw [List.map_cons, List.pairwise_cons, ← hk1]
        refine ⟨fun k hk => ?_, hsort⟩
        obtain ⟨p, hp, rfl⟩ := List.mem_map.mp hk
        have hmem : p.swap ∈ (h.toQueue.erase first).contents := by
          rw [← hq1, ← hcont]
          exact Multiset.mem_coe.mpr (List.mem_map_of_mem hp)
        rw [hk1]
        exact (hv.isMin_head hd).le_of_mem_erase hmem

theorem heapPopAll_spec (hv : Valid h) :
    ∃ l h', h.heapPopAll = .ok (l, h') ∧ (l.map Prod.swap : Multiset (V × K)) = h.toQueue.contents ∧
      (l.map Prod.fst).Pairwise h.klass.Le ∧ h'.data = [] := by
  obtain ⟨l, h', hloop, hrest⟩ := heapPopAllLoop_spec h.heapSize [] hv le_rfl
  exact ⟨l, h', hloop, hrest⟩

example : ((newHeap .minHeap ⟨fun _ => (⟨0, 0, 1, none⟩ : Entry ℕ ℕ), 0, 0, fun _ => by decide⟩).heapPushAll
    [(3, 30), (1, 10), (4, 40), (2, 20)]).heapPopAll.toOption.map Prod.fst =
    some [(1, 10), (2, 20), (3, 30), (4, 40)] := by decide +kernel

example : ((newHeap .maxHeap ⟨fun _ => (⟨0, 0, 1, none⟩ : Entry ℕ ℕ), 0, 0, fun _ => by decide⟩).heapPushAll
    [(3, 30), (1, 10), (4, 40), (2, 20)]).heapPopAll.toOption.map Prod.fst =
    some [(4, 40), (3, 30), (2, 20), (1, 10)] := by decide +kernel

/-- Over any run of heap-push*, heap-pop, heap-pop* and heap-delete on a new
min- or max-heap, the heap is an addressable priority queue: the run is a run
of the abstract queue, whose live entries the vector holds and heap-size
counts; heap-peek answers an entry of least key for the heap's order;
heap-pop-all answers the live entries in that order; live entries record their
position, and removed ones have no index, so deleting one again is refused. -/
theorem heap_addressable_priority_queue (klass : HeapClass) (m : Memory V K) (ops : List (Op ℕ V K)) :
    let h := (Transition.runList runOp (newHeap klass m) ops).2
    Transition.Trace (Step klass.Le) (newHeap klass m).toQueue ops
        (Transition.runList runOp (newHeap klass m) ops).1 h.toQueue ∧
      (h.data.map h.payload : Multiset (V × K)) = h.toQueue.contents ∧
      h.heapSize = h.toQueue.live.card ∧
      (∀ first rest, h.data = first :: rest →
        h.toQueue.IsMin klass.Le first ∧ h.heapPeek = .ok (h.toQueue.payload first)) ∧
      (∃ l h', h.heapPopAll = .ok (l, h') ∧ (l.map Prod.swap : Multiset (V × K)) = h.toQueue.contents ∧
        (l.map Prod.fst).Pairwise klass.Le) ∧
      (∀ i (hi : i < h.data.length), (h.store h.data[i]).index = some i) ∧
      ∀ r, (h.store r).heap = h.ident → r ∉ h.data →
        (h.store r).index = none ∧ h.heapDelete r = .error .badHeapDelete := by
  intro h
  obtain ⟨htrace, hv, hk⟩ := runList_runOp_refines klass m ops
  obtain ⟨l, h', hall, hcont, hsort, -⟩ := heapPopAll_spec hv
  refine ⟨htrace, hv.contents_eq, hv.heapSize_eq, fun first rest hd => ?_, ⟨l, h', hall, hcont, hk ▸ hsort⟩,
    fun i hi => ?_, fun r hr hnot => ⟨hv.removed r hr hnot, heapDelete_of_not_mem hv hnot⟩⟩
  · exact ⟨hk ▸ hv.isMin_head hd, heapPeek_cons hd⟩
  · have hidx := hv.index i hi
    rwa [dataNth_eq_getElem hi] at hidx

end Queue

end Heap

end FactorProofs.Core.Heaps
