import FactorProofs.Core.Heaps

namespace FactorProofs.Core.Heaps

open FactorProofs.BinaryHeap

variable {V K : Type*}

namespace Heap

/-! ## What the sifts keep

A sift moves references within the vector and tells each moved entry its new
position; nothing else changes (`Frame`). While it runs, one position is the
hole: with the moving entry `tmp` written there the vector is a permutation of
the one the sift started from, and every other position is recorded in its
entry (`Sifting`). Once `tmp` is written back, every position is recorded
(`Settled`). -/

/-- What a sift leaves alone: everything but the vector and the entries' indices. -/
structure Frame (h0 h : Heap V K) : Prop where
  klass : h.klass = h0.klass
  ident : h.ident = h0.ident
  next : h.next = h0.next
  value : ∀ r, (h.store r).value = (h0.store r).value
  key : ∀ r, (h.store r).key = (h0.store r).key
  heap : ∀ r, (h.store r).heap = (h0.store r).heap

theorem Frame.refl (h : Heap V K) : Frame h h :=
  ⟨rfl, rfl, rfl, fun _ => rfl, fun _ => rfl, fun _ => rfl⟩

theorem Frame.trans {h0 h1 h2 : Heap V K} (f1 : Frame h0 h1) (f2 : Frame h1 h2) : Frame h0 h2 :=
  ⟨f2.klass.trans f1.klass, f2.ident.trans f1.ident, f2.next.trans f1.next,
    fun r => (f2.value r).trans (f1.value r), fun r => (f2.key r).trans (f1.key r),
    fun r => (f2.heap r).trans (f1.heap r)⟩

theorem frame_setIndex (h : Heap V K) (entry : ℕ) (index : Option ℕ) : Frame h (h.setIndex entry index) :=
  ⟨rfl, rfl, rfl, fun r => setIndex_value h entry r index, fun r => setIndex_key h entry r index,
    fun r => setIndex_heap h entry r index⟩

theorem frame_dataSetNth (h : Heap V K) (entry n : ℕ) : Frame h (h.dataSetNth entry n) :=
  ⟨rfl, rfl, rfl, fun r => setIndex_value h entry r (some n), fun r => setIndex_key h entry r (some n),
    fun r => setIndex_heap h entry r (some n)⟩

theorem dataNth_dataSetNth (h : Heap V K) (entry n i : ℕ) :
    (h.dataSetNth entry n).dataNth i = if n = i ∧ i < h.data.length then entry else h.dataNth i :=
  Containers.getD_set h.data n entry 0 i

theorem dataNth_eq_getElem {h : Heap V K} {i : ℕ} (hi : i < h.data.length) : h.dataNth i = h.data[i] := by
  rw [dataNth, List.getD_eq_getElem?_getD, List.getElem?_eq_getElem hi, Option.getD_some]

theorem dataNth_mem {h : Heap V K} {i : ℕ} (hi : i < h.data.length) : h.dataNth i ∈ h.data := by
  rw [dataNth_eq_getElem hi]
  exact List.getElem_mem hi

structure Sifting (h0 h : Heap V K) (hole tmp : ℕ) : Prop extends Frame h0 h where
  length : h.data.length = h0.data.length
  hole_lt : hole < h0.data.length
  perm : (h.data.set hole tmp).Perm h0.data
  index : ∀ i, i < h0.data.length → i ≠ hole → (h.store (h.dataNth i)).index = some i
  outside : ∀ r, r ∉ h0.data → (h.store r).index = (h0.store r).index

structure Settled (h0 h : Heap V K) : Prop extends Frame h0 h where
  perm : h.data.Perm h0.data
  index : ∀ i, i < h.data.length → (h.store (h.dataNth i)).index = some i
  outside : ∀ r, r ∉ h0.data → (h.store r).index = (h0.store r).index

section Hole

variable {h0 h : Heap V K} {hole tmp : ℕ}

theorem Sifting.start (h : Heap V K) {hole : ℕ} (hlt : hole < h.data.length)
    (hidx : ∀ i, i < h.data.length → i ≠ hole → (h.store (h.dataNth i)).index = some i) :
    Sifting h h hole (h.dataNth hole) where
  toFrame := Frame.refl h
  length := rfl
  hole_lt := hlt
  perm := by rw [dataNth_eq_getElem hlt, List.set_getElem_self]
  index := hidx
  outside _ _ := rfl

theorem Sifting.dataNth_inj (hs : Sifting h0 h hole tmp) {i j : ℕ} (hi : i < h0.data.length)
    (hj : j < h0.data.length) (hih : i ≠ hole) (hjh : j ≠ hole) (heq : h.dataNth i = h.dataNth j) :
    i = j := by
  have hidx := hs.index i hi hih
  rw [heq, hs.index j hj hjh] at hidx
  exact (Option.some.inj hidx).symm

theorem Sifting.mem (hs : Sifting h0 h hole tmp) {i : ℕ} (hi : i < h0.data.length) (hih : i ≠ hole) :
    h.dataNth i ∈ h0.data := by
  have hi' : i < h.data.length := hs.length ▸ hi
  refine hs.perm.mem_iff.mp ?_
  rw [dataNth_eq_getElem hi', ← List.getElem_set_ne (a := tmp) (Ne.symm hih)
    (by rw [List.length_set]; exact hi')]
  exact List.getElem_mem _

theorem Sifting.tmp_mem (hs : Sifting h0 h hole tmp) : tmp ∈ h0.data :=
  hs.perm.mem_iff.mp (List.mem_set (hs.length ▸ hs.hole_lt) tmp)

theorem Sifting.dataNth_ne_tmp (hs : Sifting h0 h hole tmp) (hnd : h0.data.Nodup) {i : ℕ}
    (hi : i < h0.data.length) (hih : i ≠ hole) : h.dataNth i ≠ tmp := by
  have hi' : i < h.data.length := hs.length ▸ hi
  have hh' : hole < h.data.length := hs.length ▸ hs.hole_lt
  have hnd' : (h.data.set hole tmp).Nodup := hs.perm.nodup_iff.mpr hnd
  have hi'' : i < (h.data.set hole tmp).length := by rw [List.length_set]; exact hi'
  have hh'' : hole < (h.data.set hole tmp).length := by rw [List.length_set]; exact hh'
  intro heq
  have hget : (h.data.set hole tmp)[i] = (h.data.set hole tmp)[hole] := by
    rw [List.getElem_set_ne (Ne.symm hih), List.getElem_set_self, ← dataNth_eq_getElem hi', heq]
  exact hih (hnd'.getElem_inj_iff.mp hget)

theorem Sifting.move (hs : Sifting h0 h hole tmp) {q : ℕ} (hq : q < h0.data.length) (hqh : q ≠ hole) :
    Sifting h0 (h.dataSetNth (h.dataNth q) hole) q tmp where
  toFrame := hs.toFrame.trans (frame_dataSetNth h _ hole)
  length := by rw [dataSetNth_data, List.length_set, hs.length]
  hole_lt := hq
  perm := by
    have hh : hole < h.data.length := hs.length ▸ hs.hole_lt
    exact (Containers.perm_set_set_getD hh (hs.length ▸ hq) (Ne.symm hqh) tmp 0).trans hs.perm
  index i hi hiq := by
    have hi' : i < h.data.length := hs.length ▸ hi
    rw [dataNth_dataSetNth, dataSetNth_store]
    by_cases hih : i = hole
    · subst hih
      rw [if_pos ⟨rfl, hi'⟩, setIndex_index, if_pos rfl]
    · have hne : h.dataNth i ≠ h.dataNth q := fun heq => hiq (hs.dataNth_inj hi hq hih hqh heq)
      rw [if_neg (fun h => hih h.1.symm), setIndex_index, if_neg hne]
      exact hs.index i hi hih
  outside r hr := by
    have hne : r ≠ h.dataNth q := fun heq => hr (heq ▸ hs.mem hq hqh)
    rw [dataSetNth_store, setIndex_index, if_neg hne]
    exact hs.outside r hr

theorem Sifting.finish (hs : Sifting h0 h hole tmp) (hnd : h0.data.Nodup) :
    Settled h0 (h.dataSetNth tmp hole) where
  toFrame := hs.toFrame.trans (frame_dataSetNth h tmp hole)
  perm := hs.perm
  index i hi := by
    have hi' : i < h.data.length := by simpa using hi
    rw [dataNth_dataSetNth, dataSetNth_store]
    by_cases hih : i = hole
    · subst hih
      rw [if_pos ⟨rfl, hi'⟩, setIndex_index, if_pos rfl]
    · rw [if_neg (fun h => hih h.1.symm), setIndex_index,
        if_neg (hs.dataNth_ne_tmp hnd (hs.length ▸ hi') hih)]
      exact hs.index i (hs.length ▸ hi') hih
  outside r hr := by
    have hne : r ≠ tmp := fun heq => hr (heq ▸ hs.tmp_mem)
    rw [dataSetNth_store, setIndex_index, if_neg hne]
    exact hs.outside r hr

theorem Settled.trans {h0 h1 h2 : Heap V K} (s1 : Settled h0 h1) (s2 : Settled h1 h2) : Settled h0 h2 where
  toFrame := s1.toFrame.trans s2.toFrame
  perm := s2.perm.trans s1.perm
  index := s2.index
  outside r hr := (s2.outside r (fun hm => hr (s1.perm.mem_iff.mp hm))).trans (s1.outside r hr)

theorem Settled.length {h0 h : Heap V K} (s : Settled h0 h) : h.data.length = h0.data.length :=
  s.perm.length_eq

theorem Settled.nodup {h0 h : Heap V K} (s : Settled h0 h) (hnd : h0.data.Nodup) : h.data.Nodup :=
  s.perm.nodup_iff.mpr hnd

end Hole

section Sifts

variable [LinearOrder K]

theorem siftUpLoop_chosen (h : Heap V K) (end' pos : ℕ) :
    (if left pos + 1 < end' ∧
        heapCompare h.klass (h.store (h.dataNth (left pos))) (h.store (h.dataNth (left pos + 1))) = true
      then left pos + 1 else left pos) =
    if 2 * pos + 2 < end' ∧ ¬h.klass.Le (h.keyAt (2 * pos + 1)) (h.keyAt (2 * pos + 2))
      then 2 * pos + 2 else 2 * pos + 1 := by
  simp only [heapCompare_iff, left]
  rfl

theorem siftDownLoop_spec {h0 : Heap V K} {from' tmp : ℕ} (fuel : ℕ) {h : Heap V K} {pos : ℕ}
    (hs : Sifting h0 h pos tmp) (hfuel : pos < fuel) (hanc : Ancestor from' pos)
    (ho : UpOrder h0.klass.Le h.keyAt h0.data.length pos (h0.store tmp).key)
    (hfrom : from' ≠ 0 → h0.klass.Le (h.keyAt (parent from')) (h0.store tmp).key) :
    let r := h.siftDownLoop from' tmp fuel pos
    Sifting h0 r.1 r.2 tmp ∧ UpOrder h0.klass.Le r.1.keyAt h0.data.length r.2 (h0.store tmp).key ∧
      (r.2 ≠ 0 → h0.klass.Le (r.1.keyAt (parent r.2)) (h0.store tmp).key) := by
  induction fuel generalizing h pos with
  | zero => omega
  | succ fuel ih =>
    have hkey : (h.store tmp).key = (h0.store tmp).key := hs.key tmp
    simp only [siftDownLoop]
    by_cases hgt : pos > from'
    · rw [if_pos hgt]
      have hpos0 : pos ≠ 0 := by omega
      have hp : up pos < pos := parent_lt (by omega)
      have hlt : pos < h0.data.length := hs.hole_lt
      by_cases hc : heapCompare h.klass (h.store (h.dataNth (up pos))) (h.store tmp) = true
      · rw [if_pos hc]
        have hb : ¬h0.klass.Le (h.keyAt (parent pos)) (h0.store tmp).key := by
          have := (heapCompare_iff _ _ _).mp hc
          rwa [hs.klass, hkey] at this
        have hkeys : (h.dataSetNth (h.dataNth (up pos)) pos).keyAt =
            Function.update h.keyAt pos (h.keyAt (parent pos)) :=
          keyAt_dataSetNth h _ (hs.length ▸ hlt)
        refine ih (hs.move (by omega) (by omega)) (by omega) (hanc.parent (by omega))
          (by rw [hkeys]; exact ho.move hpos0 hlt hb) (fun hf => ?_)
        have hne : parent from' ≠ pos := by have := parent_le from'; omega
        rw [hkeys, Function.update_of_ne hne]
        exact hfrom hf
      · rw [if_neg hc]
        refine ⟨hs, ho, fun _ => ?_⟩
        have := (heapCompare_iff _ _ _).not.mp hc
        rw [not_not, hs.klass, hkey] at this
        exact this
    · rw [if_neg hgt]
      have heq : pos = from' := hanc.eq_of_le (by omega)
      subst heq
      exact ⟨hs, ho, hfrom⟩

theorem siftDown_spec {h : Heap V K} {from' to' : ℕ} (hnd : h.data.Nodup) (hto : to' < h.data.length)
    (hidx : ∀ i, i < h.data.length → i ≠ to' → (h.store (h.dataNth i)).index = some i)
    (hanc : Ancestor from' to') (ho : UpOrder h.klass.Le h.keyAt h.data.length to' (h.keyAt to'))
    (hfrom : from' ≠ 0 → h.klass.Le (h.keyAt (parent from')) (h.keyAt to')) :
    Settled h (h.siftDown from' to') ∧ Ordered h.klass.Le (h.siftDown from' to').keyAt h.data.length := by
  obtain ⟨hs, ho', hstop⟩ :=
    siftDownLoop_spec (to' + 1) (Sifting.start h hto hidx) (Nat.lt_succ_self _) hanc ho hfrom
  refine ⟨hs.finish hnd, ?_⟩
  have hlt : (h.siftDownLoop from' (h.dataNth to') (to' + 1) to').2 <
      (h.siftDownLoop from' (h.dataNth to') (to' + 1) to').1.data.length := by
    rw [hs.length]
    exact hs.hole_lt
  rw [siftDown, keyAt_dataSetNth _ _ hlt, hs.key]
  exact ho'.finish hstop

theorem siftUpLoop_spec {h0 : Heap V K} {tmp : ℕ} (fuel : ℕ) {h : Heap V K} {pos : ℕ}
    (hs : Sifting h0 h pos tmp) (hfuel : h0.data.length ≤ fuel + pos)
    (ho : DownOrder h0.klass.Le h.keyAt h0.data.length pos) :
    let r := h.siftUpLoop h0.data.length fuel pos
    Sifting h0 r.1 r.2 tmp ∧ UpOrder h0.klass.Le r.1.keyAt h0.data.length r.2 (h0.store tmp).key ∧
      Ancestor pos r.2 ∧ ∀ i, i < pos → r.1.keyAt i = h.keyAt i := by
  induction fuel generalizing h pos with
  | zero =>
    exact ⟨hs, ho.leaf (by omega) _, ancestor_refl pos, fun _ _ => rfl⟩
  | succ fuel ih =>
    simp only [siftUpLoop]
    by_cases hl : left pos < h0.data.length
    · rw [if_pos hl, siftUpLoop_chosen, hs.klass]
      have hl' : 2 * pos + 1 < h0.data.length := hl
      set c := if 2 * pos + 2 < h0.data.length ∧ ¬h0.klass.Le (h.keyAt (2 * pos + 1)) (h.keyAt (2 * pos + 2))
        then 2 * pos + 2 else 2 * pos + 1 with hc
      obtain ⟨hchild, hcn, hmin⟩ : IsChild c pos ∧ c < h0.data.length ∧
          ∀ c', IsChild c' pos → c' < h0.data.length → h0.klass.Le (h.keyAt c) (h.keyAt c') := by
        rw [hc]
        exact lesser_child_min hl'
      have hpc : pos < c := hchild.lt
      have hkeys : (h.dataSetNth (h.dataNth c) pos).keyAt = Function.update h.keyAt pos (h.keyAt c) :=
        keyAt_dataSetNth h _ (hs.length ▸ hs.hole_lt)
      obtain ⟨hs', ho', hanc', hkeep⟩ :=
        ih (hs.move hcn (by omega)) (by omega) (hkeys ▸ ho.move hchild hcn hmin)
      refine ⟨hs', ho', (ancestor_refl pos).child hchild |>.trans hanc', fun i hi => ?_⟩
      rw [hkeep i (by omega), hkeys, Function.update_of_ne (by omega)]
    · rw [if_neg hl]
      exact ⟨hs, ho.leaf (by simp only [left] at hl; omega) _, ancestor_refl pos, fun _ _ => rfl⟩

theorem siftUp_spec {h : Heap V K} {n : ℕ} (hnd : h.data.Nodup) (hn : n < h.data.length)
    (hidx : ∀ i, i < h.data.length → i ≠ n → (h.store (h.dataNth i)).index = some i)
    (ho : DownOrder h.klass.Le h.keyAt h.data.length n)
    (hpar : n ≠ 0 → h.klass.Le (h.keyAt (parent n)) (h.keyAt n)) :
    Settled h (h.siftUp n) ∧ Ordered h.klass.Le (h.siftUp n).keyAt h.data.length := by
  obtain ⟨hs, ho1, hanc, hkeep⟩ :=
    siftUpLoop_spec h.data.length (Sifting.start h hn hidx) (by omega) ho
  set r := h.siftUpLoop h.data.length h.data.length n
  have hset := hs.finish hnd
  set h2 := r.1.dataSetNth (h.dataNth n) r.2
  have hlt : r.2 < r.1.data.length := by
    rw [hs.length]
    exact hs.hole_lt
  have hkeys : h2.keyAt = Function.update r.1.keyAt r.2 (h.keyAt n) := by
    rw [keyAt_dataSetNth _ _ hlt, hs.key]
    rfl
  have hlen : h2.data.length = h.data.length := hset.length
  have hn2 : n ≤ r.2 := hanc.le_index
  have ho2 : UpOrder h2.klass.Le h2.keyAt h2.data.length r.2 (h2.keyAt r.2) := by
    rw [hset.klass, hlen, hkeys, Function.update_self]
    exact ho1.congr fun i _ hi => by rw [Function.update_of_ne hi]
  have hfrom : n ≠ 0 → h2.klass.Le (h2.keyAt (parent n)) (h2.keyAt r.2) := by
    intro hn0
    have hp : parent n < n := parent_lt (Nat.pos_of_ne_zero hn0)
    rw [hset.klass, hkeys, Function.update_self, Function.update_of_ne (by omega), hkeep _ hp]
    exact hpar hn0
  obtain ⟨hset2, hord⟩ :=
    siftDown_spec (hset.nodup hnd) (hlen ▸ hlt.trans_eq hs.length) (fun i hi _ => hset.index i hi) hanc ho2
      hfrom
  refine ⟨hset.trans hset2, ?_⟩
  rw [hset.klass, hlen] at hord
  exact hord

end Sifts

end Heap

end FactorProofs.Core.Heaps
