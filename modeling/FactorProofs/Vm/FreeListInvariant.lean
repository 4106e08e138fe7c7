import FactorProofs.Vm.FreeList
import FactorProofs.Library.Intervals
import FactorProofs.Library.Containers

namespace FactorProofs.Vm

open FactorProofs.Intervals FactorProofs.Containers

namespace FreeListAllocator

variable (s : FreeListAllocator)

/-- Every listed block: the small buckets in order, then the large blocks. -/
def listed : List Nat := (List.finRange freeListCount).flatMap s.smallBlocks ++ s.largeBlocks

/-- The listed blocks with the sizes their headers give. -/
def freeBlocks : List (Nat × Nat) := s.listed.map fun b => (b, s.blockSize b)

/-- What the counters and headers say about the listed blocks as a whole. -/
structure ListsOk : Prop where
  all_free : ∀ b ∈ s.listed, s.freeP b = true
  aligned : ∀ b ∈ s.listed, 0 < s.blockSize b ∧ dataAlignment ∣ s.blockSize b
  inside : ∀ b ∈ s.freeBlocks, Within b (s.start, s.size)
  disjoint : s.freeBlocks.Pairwise NoOverlap
  count : s.freeBlockCount = s.listed.length
  space : s.freeSpace = (s.freeBlocks.map Prod.snd).sum

/-- The bookkeeping of the allocator: the lists are well formed, and each
block sits in the structure its size selects. -/
structure Inv : Prop extends s.ListsOk where
  small_size : ∀ i, ∀ b ∈ s.smallBlocks i, s.blockSize b = dataAlignment * i
  large_size : ∀ b ∈ s.largeBlocks, freeListCount * dataAlignment ≤ s.blockSize b
  large_sorted : s.largeBlocks.Pairwise fun a b => s.blockSize a ≤ s.blockSize b

variable {s}

section Basic

variable {a b n : Nat}

@[simp] theorem makeFree_smallBlocks : (s.makeFree a n).smallBlocks = s.smallBlocks := rfl
@[simp] theorem makeFree_largeBlocks : (s.makeFree a n).largeBlocks = s.largeBlocks := rfl
@[simp] theorem makeFree_freeBlockCount : (s.makeFree a n).freeBlockCount = s.freeBlockCount := rfl
@[simp] theorem makeFree_freeSpace : (s.makeFree a n).freeSpace = s.freeSpace := rfl
@[simp] theorem makeFree_start : (s.makeFree a n).start = s.start := rfl
@[simp] theorem makeFree_size : (s.makeFree a n).size = s.size := rfl
@[simp] theorem makeFree_state : (s.makeFree a n).state = s.state := rfl
@[simp] theorem listed_makeFree : (s.makeFree a n).listed = s.listed := rfl
@[simp] theorem makeFree_memory :
    (s.makeFree a n).memory = Function.update s.memory a (freeHeader n) := rfl

theorem blockSize_makeFree_of_ne (h : b ≠ a) : (s.makeFree a n).blockSize b = s.blockSize b := by
  simp only [blockSize, makeFree, Function.update_of_ne h]

theorem blockSize_makeFree_self (h : dataAlignment ∣ n) : (s.makeFree a n).blockSize a = n := by
  rw [blockSize, makeFree_memory, Function.update_self]
  exact headerSize_freeHeader (Nat.dvd_trans (by decide) h)

theorem freeP_makeFree_of_ne (h : b ≠ a) : (s.makeFree a n).freeP b = s.freeP b := by
  simp only [freeP, makeFree, Function.update_of_ne h]

theorem freeP_makeFree_self (h : dataAlignment ∣ n) : (s.makeFree a n).freeP a = true := by
  rw [freeP, makeFree_memory, Function.update_self]
  exact headerFreeP_freeHeader (Nat.dvd_trans (by decide) h)

theorem mem_listed_of_small {i : Fin freeListCount} (h : b ∈ s.smallBlocks i) : b ∈ s.listed :=
  List.mem_append_left _ (List.mem_flatMap.mpr ⟨i, List.mem_finRange i, h⟩)

theorem mem_listed_of_large (h : b ∈ s.largeBlocks) : b ∈ s.listed :=
  List.mem_append_right _ h

theorem mem_freeBlocks (h : b ∈ s.listed) : (b, s.blockSize b) ∈ s.freeBlocks :=
  List.mem_map_of_mem h

theorem not_mem_listed_of_fresh (hok : s.ListsOk) {c : Nat × Nat}
    (hfresh : Fresh c s.freeBlocks) (ha : c.1 ≤ a) (hac : a < c.1 + c.2) : a ∉ s.listed := by
  intro hmem
  exact (hfresh _ (mem_freeBlocks hmem)).fst_ne ha hac (hok.aligned a hmem).1 rfl

end Basic

section Frame

variable {a n : Nat}

theorem freeBlocks_makeFree (ha : a ∉ s.listed) : (s.makeFree a n).freeBlocks = s.freeBlocks := by
  rw [freeBlocks, freeBlocks, listed_makeFree]
  apply List.map_congr_left
  intro b hb
  rw [blockSize_makeFree_of_ne (by rintro rfl; exact ha hb)]

theorem Inv.frame (h : s.Inv) {s' : FreeListAllocator} (hsmall : s'.smallBlocks = s.smallBlocks)
    (hlarge : s'.largeBlocks = s.largeBlocks) (hcount : s'.freeBlockCount = s.freeBlockCount)
    (hspace : s'.freeSpace = s.freeSpace) (hstart : s'.start = s.start) (hsize : s'.size = s.size)
    (hmem : ∀ b ∈ s.listed, s'.memory b = s.memory b) : s'.Inv := by
  have hlisted : s'.listed = s.listed := by rw [listed, listed, hsmall, hlarge]
  have hbs : ∀ b ∈ s.listed, s'.blockSize b = s.blockSize b := fun b hb => by
    rw [blockSize, blockSize, hmem b hb]
  have hfb : s'.freeBlocks = s.freeBlocks := by
    rw [freeBlocks, freeBlocks, hlisted]
    exact List.map_congr_left fun b hb => by rw [hbs b hb]
  refine ⟨⟨?_, ?_, ?_, ?_, ?_, ?_⟩, ?_, ?_, ?_⟩
  · intro b hb
    rw [hlisted] at hb
    rw [freeP, hmem b hb]
    exact h.all_free b hb
  · intro b hb
    rw [hlisted] at hb
    rw [hbs b hb]
    exact h.aligned b hb
  · rw [hfb, hstart, hsize]
    exact h.inside
  · rw [hfb]
    exact h.disjoint
  · rw [hcount, hlisted]
    exact h.count
  · rw [hspace, hfb]
    exact h.space
  · intro i b hb
    rw [hsmall] at hb
    rw [hbs b (mem_listed_of_small hb)]
    exact h.small_size i b hb
  · intro b hb
    rw [hlarge] at hb
    rw [hbs b (mem_listed_of_large hb)]
    exact h.large_size b hb
  · rw [hlarge]
    refine h.large_sorted.imp_of_mem fun {b c} hb hc hbc => ?_
    rwa [hbs b (mem_listed_of_large hb), hbs c (mem_listed_of_large hc)]

theorem Inv.makeFree (h : s.Inv) (ha : a ∉ s.listed) : (s.makeFree a n).Inv :=
  h.frame rfl rfl rfl rfl rfl rfl fun b hb =>
    Function.update_of_ne (by rintro rfl; exact ha hb) _ _

theorem Inv.nodup (h : s.Inv) : s.listed.Nodup := by
  have hfst : s.freeBlocks.map Prod.fst = s.listed := by
    rw [freeBlocks, List.map_map]
    exact List.map_id' _
  rw [← hfst]
  refine nodup_map_fst (fun c hc => ?_) h.disjoint
  obtain ⟨b, hb, rfl⟩ := List.mem_map.mp hc
  exact (h.aligned b hb).1

end Frame

section Perm

variable {s' : FreeListAllocator} {a : Nat}

theorem blockSize_congr (hm : s'.memory = s.memory) : s'.blockSize = s.blockSize := by
  funext b
  rw [blockSize, blockSize, hm]

theorem freeP_congr (hm : s'.memory = s.memory) : s'.freeP = s.freeP := by
  funext b
  rw [freeP, freeP, hm]

theorem freeBlocks_perm_of_listed_perm (hm : s'.memory = s.memory)
    (hp : s'.listed.Perm (a :: s.listed)) :
    s'.freeBlocks.Perm ((a, s.blockSize a) :: s.freeBlocks) := by
  have h := hp.map fun b => (b, s.blockSize b)
  rwa [freeBlocks, blockSize_congr hm]

theorem ListsOk.add (h : s.ListsOk) (hm : s'.memory = s.memory) (hstart : s'.start = s.start)
    (hsize : s'.size = s.size) (hp : s'.listed.Perm (a :: s.listed))
    (hcount : s'.freeBlockCount = s.freeBlockCount + 1)
    (hspace : s'.freeSpace = s.freeSpace + s.blockSize a) (hfree : s.freeP a = true)
    (hpos : 0 < s.blockSize a) (halign : dataAlignment ∣ s.blockSize a)
    (hin : Within (a, s.blockSize a) (s.start, s.size))
    (hfresh : Fresh (a, s.blockSize a) s.freeBlocks) : s'.ListsOk := by
  have hfb := freeBlocks_perm_of_listed_perm hm hp
  refine ⟨?_, ?_, ?_, ?_, ?_, ?_⟩
  · intro b hb
    rw [freeP_congr hm]
    rcases List.mem_cons.mp (hp.subset hb) with rfl | hb
    · exact hfree
    · exact h.all_free b hb
  · intro b hb
    rw [blockSize_congr hm]
    rcases List.mem_cons.mp (hp.subset hb) with rfl | hb
    · exact ⟨hpos, halign⟩
    · exact h.aligned b hb
  · intro c hc
    rw [hstart, hsize]
    rcases List.mem_cons.mp (hfb.subset hc) with rfl | hc
    · exact hin
    · exact h.inside c hc
  · exact (pairwise_cons_of_fresh hfresh h.disjoint).perm hfb.symm NoOverlap.symm
  · rw [hcount, hp.length_eq, h.count, List.length_cons]
  · rw [hspace, (hfb.map Prod.snd).sum_nat, h.space, List.map_cons, List.sum_cons, Nat.add_comm]

theorem ListsOk.remove (s' : FreeListAllocator) (h : s.ListsOk) (hm : s'.memory = s.memory) (hstart : s'.start = s.start)
    (hsize : s'.size = s.size) (hp : s.listed.Perm (a :: s'.listed))
    (hcount : s'.freeBlockCount = s.freeBlockCount - 1)
    (hspace : s'.freeSpace = s.freeSpace - s.blockSize a) :
    s'.ListsOk ∧ Fresh (a, s.blockSize a) s'.freeBlocks ∧
      s'.freeSpace + s.blockSize a = s.freeSpace := by
  have hfb : s.freeBlocks.Perm ((a, s.blockSize a) :: s'.freeBlocks) := by
    have := freeBlocks_perm_of_listed_perm hm.symm hp
    rwa [blockSize_congr hm] at this
  have hpair := h.disjoint.perm hfb NoOverlap.symm
  have hsum : s.freeSpace = s.blockSize a + (s'.freeBlocks.map Prod.snd).sum := by
    rw [h.space, (hfb.map Prod.snd).sum_nat, List.map_cons, List.sum_cons]
  refine ⟨⟨?_, ?_, ?_, (List.pairwise_cons.mp hpair).2, ?_, ?_⟩, (List.pairwise_cons.mp hpair).1, ?_⟩
  · intro b hb
    rw [freeP_congr hm]
    exact h.all_free b (hp.symm.subset (List.mem_cons_of_mem _ hb))
  · intro b hb
    rw [blockSize_congr hm]
    exact h.aligned b (hp.symm.subset (List.mem_cons_of_mem _ hb))
  · intro c hc
    rw [hstart, hsize]
    exact h.inside c (hfb.symm.subset (List.mem_cons_of_mem _ hc))
  · rw [hcount, h.count, hp.length_eq, List.length_cons, Nat.add_sub_cancel]
  · rw [hspace, hsum, Nat.add_sub_cancel_left]
  · omega

end Perm

section Add

variable {a n : Nat}

@[simp] theorem addToFreeList_memory : (s.addToFreeList a).memory = s.memory := by
  unfold addToFreeList
  dsimp only
  split <;> rfl

@[simp] theorem addToFreeList_start : (s.addToFreeList a).start = s.start := by
  unfold addToFreeList
  dsimp only
  split <;> rfl

@[simp] theorem addToFreeList_size : (s.addToFreeList a).size = s.size := by
  unfold addToFreeList
  dsimp only
  split <;> rfl

@[simp] theorem addToFreeList_state : (s.addToFreeList a).state = s.state := by
  unfold addToFreeList
  dsimp only
  split <;> rfl

@[simp] theorem addToFreeList_freeBlockCount :
    (s.addToFreeList a).freeBlockCount = s.freeBlockCount + 1 := by
  unfold addToFreeList
  dsimp only
  split <;> rfl

@[simp] theorem addToFreeList_freeSpace :
    (s.addToFreeList a).freeSpace = s.freeSpace + s.blockSize a := by
  unfold addToFreeList
  dsimp only
  split <;> rfl

theorem listed_addToFreeList : (s.addToFreeList a).listed.Perm (a :: s.listed) := by
  unfold addToFreeList
  dsimp only
  split
  · simp only [listed]
    exact (flatMap_update_cons_perm s.smallBlocks (List.nodup_finRange _)
      (List.mem_finRange _) a).append_right _
  · simp only [listed]
    exact ((List.perm_orderedInsert _ a s.largeBlocks).append_left _).trans List.perm_middle

theorem freeBlocks_addToFreeList :
    (s.addToFreeList a).freeBlocks.Perm ((a, s.blockSize a) :: s.freeBlocks) :=
  freeBlocks_perm_of_listed_perm addToFreeList_memory listed_addToFreeList

theorem smallBlocks_addToFreeList_of_lt (h : s.blockSize a < freeListCount * dataAlignment) :
    (s.addToFreeList a).smallBlocks =
      Function.update s.smallBlocks ⟨s.blockSize a / dataAlignment, bucket_lt h⟩
        (a :: s.smallBlocks ⟨s.blockSize a / dataAlignment, bucket_lt h⟩) := by
  unfold addToFreeList
  rw [dif_pos h]

theorem largeBlocks_addToFreeList_of_lt (h : s.blockSize a < freeListCount * dataAlignment) :
    (s.addToFreeList a).largeBlocks = s.largeBlocks := by
  unfold addToFreeList
  rw [dif_pos h]

theorem smallBlocks_addToFreeList_of_not_lt (h : ¬s.blockSize a < freeListCount * dataAlignment) :
    (s.addToFreeList a).smallBlocks = s.smallBlocks := by
  unfold addToFreeList
  rw [dif_neg h]

theorem largeBlocks_addToFreeList_of_not_lt (h : ¬s.blockSize a < freeListCount * dataAlignment) :
    (s.addToFreeList a).largeBlocks =
      s.largeBlocks.orderedInsert (fun a b => s.blockSize a < s.blockSize b) a := by
  unfold addToFreeList
  rw [dif_neg h]

theorem Inv.addToFreeList (h : s.Inv) (hfree : s.freeP a = true) (hpos : 0 < s.blockSize a)
    (halign : dataAlignment ∣ s.blockSize a) (hin : Within (a, s.blockSize a) (s.start, s.size))
    (hfresh : Fresh (a, s.blockSize a) s.freeBlocks) : (s.addToFreeList a).Inv := by
  have hlists : (s.addToFreeList a).ListsOk :=
    h.toListsOk.add addToFreeList_memory addToFreeList_start addToFreeList_size
      listed_addToFreeList addToFreeList_freeBlockCount addToFreeList_freeSpace hfree hpos halign
      hin hfresh
  have hbs : (s.addToFreeList a).blockSize = s.blockSize := blockSize_congr addToFreeList_memory
  by_cases hsmall : s.blockSize a < freeListCount * dataAlignment
  · refine ⟨hlists, ?_, ?_, ?_⟩
    · intro i b hb
      rw [smallBlocks_addToFreeList_of_lt hsmall] at hb
      rw [hbs]
      by_cases hik : i = ⟨s.blockSize a / dataAlignment, bucket_lt hsmall⟩
      · subst hik
        rw [Function.update_self] at hb
        rcases List.mem_cons.mp hb with rfl | hb
        · exact (Nat.mul_div_cancel' halign).symm
        · exact h.small_size _ b hb
      · rw [Function.update_of_ne hik] at hb
        exact h.small_size i b hb
    · rw [largeBlocks_addToFreeList_of_lt hsmall, hbs]
      exact h.large_size
    · rw [largeBlocks_addToFreeList_of_lt hsmall, hbs]
      exact h.large_sorted
  · refine ⟨hlists, ?_, ?_, ?_⟩
    · rw [smallBlocks_addToFreeList_of_not_lt hsmall, hbs]
      exact h.small_size
    · rw [largeBlocks_addToFreeList_of_not_lt hsmall, hbs]
      intro b hb
      rcases List.mem_cons.mp ((List.perm_orderedInsert _ a s.largeBlocks).subset hb) with rfl | hb
      · exact Nat.le_of_not_lt hsmall
      · exact h.large_size b hb
    · rw [largeBlocks_addToFreeList_of_not_lt hsmall, hbs]
      exact pairwise_orderedInsert_lt s.blockSize a h.large_sorted

@[simp] theorem free_start : (s.free a n).start = s.start := by simp [free]
@[simp] theorem free_size : (s.free a n).size = s.size := by simp [free]
@[simp] theorem free_memory :
    (s.free a n).memory = Function.update s.memory a (freeHeader n) := by simp [free]
@[simp] theorem free_state : (s.free a n).state = s.state := by simp [free]

theorem blockSize_free_self (h : dataAlignment ∣ n) : (s.free a n).blockSize a = n := by
  rw [free, blockSize_congr addToFreeList_memory]
  exact blockSize_makeFree_self h

theorem freeBlocks_free (hok : s.ListsOk) (hpos : 0 < n) (hfresh : Fresh (a, n) s.freeBlocks)
    (halign : dataAlignment ∣ n) : (s.free a n).freeBlocks.Perm ((a, n) :: s.freeBlocks) := by
  have ha := not_mem_listed_of_fresh hok hfresh (Nat.le_refl a) (Nat.lt_add_of_pos_right hpos)
  have h := freeBlocks_addToFreeList (s := s.makeFree a n) (a := a)
  rwa [blockSize_makeFree_self halign, freeBlocks_makeFree ha] at h

@[simp] theorem free_freeSpace (h : dataAlignment ∣ n) : (s.free a n).freeSpace = s.freeSpace + n := by
  rw [free, addToFreeList_freeSpace, blockSize_makeFree_self h, makeFree_freeSpace]

theorem Inv.free (h : s.Inv) (hpos : 0 < n) (halign : dataAlignment ∣ n)
    (hin : Within (a, n) (s.start, s.size)) (hfresh : Fresh (a, n) s.freeBlocks) :
    (s.free a n).Inv := by
  have ha := not_mem_listed_of_fresh h.toListsOk hfresh (Nat.le_refl a) (Nat.lt_add_of_pos_right hpos)
  have hsize := blockSize_makeFree_self (s := s) (a := a) halign
  apply (h.makeFree ha).addToFreeList (freeP_makeFree_self halign)
  · rw [hsize]
    exact hpos
  · rw [hsize]
    exact halign
  · rw [hsize]
    exact hin
  · rw [hsize, freeBlocks_makeFree ha]
    exact hfresh

end Add

section Initial

@[simp] theorem clearFreeList_memory : s.clearFreeList.memory = s.memory := rfl
@[simp] theorem clearFreeList_start : s.clearFreeList.start = s.start := rfl
@[simp] theorem clearFreeList_size : s.clearFreeList.size = s.size := rfl
@[simp] theorem clearFreeList_state : s.clearFreeList.state = s.state := rfl

theorem listed_clearFreeList (s : FreeListAllocator) : s.clearFreeList.listed = [] := by
  simp [listed, clearFreeList]

theorem freeBlocks_clearFreeList (s : FreeListAllocator) : s.clearFreeList.freeBlocks = [] := by
  rw [freeBlocks, listed_clearFreeList, List.map_nil]

theorem inv_clearFreeList (s : FreeListAllocator) : s.clearFreeList.Inv := by
  refine ⟨⟨?_, ?_, ?_, ?_, ?_, ?_⟩, ?_, ?_, ?_⟩
  · simp [listed_clearFreeList]
  · simp [listed_clearFreeList]
  · simp [freeBlocks_clearFreeList]
  · simp [freeBlocks_clearFreeList]
  · rw [listed_clearFreeList]
    rfl
  · rw [freeBlocks_clearFreeList]
    rfl
  · simp [clearFreeList]
  · simp [clearFreeList]
  · simp [clearFreeList]

theorem freeBlocks_initialFreeList {occupied : Nat} (hocc : occupied ≤ s.size)
    (halign : dataAlignment ∣ s.size - occupied) :
    (s.initialFreeList occupied).freeBlocks =
      if occupied ≠ s.size then [(s.start + occupied, s.size - occupied)] else [] := by
  have hend : s.clearFreeList.endAddr - s.clearFreeList.start = s.size := by
    simp [endAddr]
  have hlast : s.clearFreeList.endAddr - (s.clearFreeList.start + occupied) = s.size - occupied := by
    simp only [endAddr, clearFreeList_start, clearFreeList_size]
    omega
  unfold initialFreeList
  dsimp only
  rw [hend, hlast]
  split
  · rename_i hne
    have hperm := freeBlocks_free (a := s.start + occupied) (inv_clearFreeList s).toListsOk
      (by omega) (by rw [freeBlocks_clearFreeList]; intro c hc; cases hc) halign
    rw [freeBlocks_clearFreeList] at hperm
    exact List.perm_singleton.mp hperm
  · exact freeBlocks_clearFreeList s

@[simp] theorem initialFreeList_start (occupied : Nat) : (s.initialFreeList occupied).start = s.start := by
  unfold initialFreeList
  dsimp only
  split <;> simp

@[simp] theorem initialFreeList_size (occupied : Nat) : (s.initialFreeList occupied).size = s.size := by
  unfold initialFreeList
  dsimp only
  split <;> simp

theorem inv_initialFreeList {occupied : Nat} (hocc : occupied ≤ s.size)
    (halign : dataAlignment ∣ s.size - occupied) : (s.initialFreeList occupied).Inv := by
  have hend : s.clearFreeList.endAddr - s.clearFreeList.start = s.size := by
    simp [endAddr]
  have hlast : s.clearFreeList.endAddr - (s.clearFreeList.start + occupied) = s.size - occupied := by
    simp only [endAddr, clearFreeList_start, clearFreeList_size]
    omega
  unfold initialFreeList
  dsimp only
  rw [hend, hlast]
  split
  · rename_i hne
    apply (inv_clearFreeList s).free (by omega) halign
    · simp only [Within, clearFreeList_start, clearFreeList_size]
      omega
    · rw [freeBlocks_clearFreeList]
      intro c hc
      cases hc
  · exact inv_clearFreeList s

end Initial

section Split

variable {block size : Nat}

theorem Inv.splitFreeBlock (h : s.Inv) (hpos : 0 < size) (hle : size ≤ s.blockSize block)
    (halign : dataAlignment ∣ size) (hbalign : dataAlignment ∣ s.blockSize block)
    (hin : Within (block, s.blockSize block) (s.start, s.size))
    (hfresh : Fresh (block, s.blockSize block) s.freeBlocks) :
    (s.splitFreeBlock block size).Inv ∧ (s.splitFreeBlock block size).blockSize block = size ∧
      Fresh (block, size) (s.splitFreeBlock block size).freeBlocks ∧
      (s.splitFreeBlock block size).freeSpace = s.freeSpace + (s.blockSize block - size) ∧
      (s.splitFreeBlock block size).start = s.start ∧ (s.splitFreeBlock block size).size = s.size := by
  unfold FreeListAllocator.splitFreeBlock
  dsimp only
  split
  · rename_i hne
    have hlt : size < s.blockSize block := Nat.lt_of_le_of_ne hle (Ne.symm hne)
    have hrest : dataAlignment ∣ s.blockSize block - size := Nat.dvd_sub hbalign halign
    have hsplit : block + size ∉ s.listed :=
      not_mem_listed_of_fresh h.toListsOk hfresh (by simp) (by simp; omega)
    have hblock : block ∉ s.listed :=
      not_mem_listed_of_fresh h.toListsOk hfresh (by simp) (by simp; omega)
    have hne' : block + size ≠ block := by omega
    have h₂ : ((s.makeFree (block + size) (s.blockSize block - size)).makeFree block size).Inv :=
      (h.makeFree hsplit).makeFree hblock
    have hfb₂ : ((s.makeFree (block + size) (s.blockSize block - size)).makeFree block size).freeBlocks =
        s.freeBlocks := by
      rw [freeBlocks_makeFree (s := s.makeFree (block + size) (s.blockSize block - size)) hblock,
        freeBlocks_makeFree hsplit]
    have hsize₂ : ((s.makeFree (block + size) (s.blockSize block - size)).makeFree block size).blockSize
        (block + size) = s.blockSize block - size := by
      rw [blockSize_makeFree_of_ne hne', blockSize_makeFree_self hrest]
    have hwithin : Within (block + size, s.blockSize block - size) (block, s.blockSize block) := by
      have := within_split_right block size (s.blockSize block - size)
      rwa [Nat.add_sub_cancel' hle] at this
    have hwithin' : Within (block, size) (block, s.blockSize block) := by
      have := within_split_left block size (s.blockSize block - size)
      rwa [Nat.add_sub_cancel' hle] at this
    have hfb₃ := freeBlocks_addToFreeList
      (s := (s.makeFree (block + size) (s.blockSize block - size)).makeFree block size) (a := block + size)
    rw [hsize₂, hfb₂] at hfb₃
    refine ⟨?_, ?_, ?_, ?_, by simp, by simp⟩
    · apply h₂.addToFreeList
      · rw [freeP_makeFree_of_ne hne', freeP_makeFree_self hrest]
      · rw [hsize₂]
        omega
      · rw [hsize₂]
        exact hrest
      · rw [hsize₂]
        exact hwithin.trans hin
      · rw [hsize₂, hfb₂]
        exact hfresh.of_within hwithin
    · rw [blockSize_congr addToFreeList_memory]
      exact blockSize_makeFree_self halign
    · apply Fresh.of_perm hfb₃.symm
      apply Fresh.cons (disjoint_split block size _)
      exact hfresh.of_within hwithin'
    · rw [addToFreeList_freeSpace, hsize₂]
      rfl
  · rename_i heq
    have heq' : s.blockSize block = size := not_not.mp heq
    refine ⟨h, heq', ?_, by rw [heq', Nat.sub_self, Nat.add_zero], rfl, rfl⟩
    rw [← heq']
    exact hfresh

end Split

section Remove

variable {size block : Nat} {s' : FreeListAllocator}

theorem findLargeBlock_eq_none (h : s.findLargeBlock size = (none, s')) : s' = s := by
  unfold findLargeBlock at h
  split at h
  · cases h
  · exact (Prod.mk.inj h).2.symm

theorem Inv.findLargeBlock (h : s.Inv) (hf : s.findLargeBlock size = (some block, s')) :
    s'.Inv ∧ size ≤ s.blockSize block ∧ s'.memory = s.memory ∧ s'.start = s.start ∧
      s'.size = s.size ∧ dataAlignment ∣ s.blockSize block ∧
      Within (block, s.blockSize block) (s.start, s.size) ∧
      Fresh (block, s.blockSize block) s'.freeBlocks ∧ s'.freeSpace + s.blockSize block = s.freeSpace := by
  unfold FreeListAllocator.findLargeBlock at hf
  split at hf
  · rename_i found hb
    simp only [Prod.mk.injEq, Option.some.injEq] at hf
    obtain ⟨rfl, rfl⟩ := hf
    have hmem : found ∈ s.largeBlocks := List.mem_of_find?_eq_some hb
    have hle : size ≤ s.blockSize found := by simpa using List.find?_some hb
    have hp : s.listed.Perm (found :: (List.finRange freeListCount).flatMap s.smallBlocks ++
        s.largeBlocks.erase found) :=
      ((List.perm_cons_erase hmem).append_left _).trans List.perm_middle
    obtain ⟨hok, hfresh, hspace⟩ := h.toListsOk.remove
      { s with
        largeBlocks := s.largeBlocks.erase found
        freeBlockCount := s.freeBlockCount - 1
        freeSpace := s.freeSpace - s.blockSize found } rfl rfl rfl hp rfl rfl
    refine ⟨⟨hok, h.small_size, fun c hc => h.large_size c (List.mem_of_mem_erase hc),
      h.large_sorted.sublist (List.erase_sublist)⟩, hle, rfl, rfl, rfl,
      (h.aligned found (mem_listed_of_large hmem)).2,
      h.inside _ (mem_freeBlocks (mem_listed_of_large hmem)), hfresh, hspace⟩
  · cases hf

theorem Inv.popSmallBlock (h : s.Inv) {i : Fin freeListCount}
    (hf : s.popSmallBlock i = (some block, s')) :
    s'.Inv ∧ s.blockSize block = dataAlignment * i ∧ s'.memory = s.memory ∧ s'.start = s.start ∧
      s'.size = s.size ∧ Within (block, s.blockSize block) (s.start, s.size) ∧
      Fresh (block, s.blockSize block) s'.freeBlocks ∧ s'.freeSpace + s.blockSize block = s.freeSpace := by
  unfold FreeListAllocator.popSmallBlock at hf
  split at hf
  · rename_i found blocks hb
    simp only [Prod.mk.injEq, Option.some.injEq] at hf
    obtain ⟨rfl, rfl⟩ := hf
    have hmem : found ∈ s.smallBlocks i := by
      rw [hb]
      exact List.mem_cons_self
    have hp : s.listed.Perm (found :: ((List.finRange freeListCount).flatMap
        (Function.update s.smallBlocks i blocks) ++ s.largeBlocks)) :=
      (flatMap_perm_cons_of_eq_cons s.smallBlocks (List.nodup_finRange _) (List.mem_finRange i)
        hb).append_right _
    obtain ⟨hok, hfresh, hspace⟩ := h.toListsOk.remove
      { s with
        smallBlocks := Function.update s.smallBlocks i blocks
        freeBlockCount := s.freeBlockCount - 1
        freeSpace := s.freeSpace - s.blockSize found } rfl rfl rfl hp rfl rfl
    refine ⟨⟨hok, ?_, h.large_size, h.large_sorted⟩, h.small_size i found hmem, rfl, rfl, rfl,
      h.inside _ (mem_freeBlocks (mem_listed_of_small hmem)), hfresh, hspace⟩
    intro j c hc
    dsimp only at hc
    by_cases hji : j = i
    · subst hji
      rw [Function.update_self] at hc
      exact h.small_size j c (by rw [hb]; exact List.mem_cons_of_mem _ hc)
    · rw [Function.update_of_ne hji] at hc
      exact h.small_size j c hc
  · cases hf

theorem popSmallBlock_isSome {i : Fin freeListCount} (h : s.smallBlocks i ≠ []) :
    ∃ block s', s.popSmallBlock i = (some block, s') := by
  unfold popSmallBlock
  split
  · exact ⟨_, _, rfl⟩
  · contradiction

end Remove

section Carve

variable {a size : Nat}

theorem smallBlocks_addToFreeList_ne_nil {i : Fin freeListCount} (h : s.smallBlocks i ≠ []) :
    (s.addToFreeList a).smallBlocks i ≠ [] := by
  by_cases hsmall : s.blockSize a < freeListCount * dataAlignment
  · rw [smallBlocks_addToFreeList_of_lt hsmall]
    by_cases hik : i = ⟨s.blockSize a / dataAlignment, bucket_lt hsmall⟩
    · subst hik
      rw [Function.update_self]
      exact List.cons_ne_nil _ _
    · rw [Function.update_of_ne hik]
      exact h
  · rw [smallBlocks_addToFreeList_of_not_lt hsmall]
    exact h

theorem smallBlocks_carve_ne_nil_of_ne_nil (count : Nat) {i : Fin freeListCount}
    (h : s.smallBlocks i ≠ []) : (carve s a size count).smallBlocks i ≠ [] := by
  induction count generalizing s a with
  | zero => exact h
  | succ count ih => exact ih (smallBlocks_addToFreeList_ne_nil h)

theorem smallBlocks_carve_ne_nil (hsmall : size / dataAlignment < freeListCount)
    (halign : dataAlignment ∣ size) {count : Nat} (hcount : 0 < count) :
    (carve s a size count).smallBlocks ⟨size / dataAlignment, hsmall⟩ ≠ [] := by
  obtain ⟨count, rfl⟩ : ∃ c, count = c + 1 := ⟨count - 1, by omega⟩
  rw [show carve s a size (count + 1) = carve ((s.makeFree a size).addToFreeList a) (a + size) size count
    from rfl]
  apply smallBlocks_carve_ne_nil_of_ne_nil
  have hsize := blockSize_makeFree_self (s := s) (a := a) halign
  have hlt : (s.makeFree a size).blockSize a < freeListCount * dataAlignment := by
    rw [hsize]
    simp only [freeListCount, dataAlignment] at hsmall ⊢
    omega
  have := smallBlocks_addToFreeList_of_lt hlt
  simp only [hsize] at this
  rw [this, Function.update_self]
  exact List.cons_ne_nil _ _

theorem Inv.carve (h : s.Inv) (count : Nat) (hpos : 0 < size) (halign : dataAlignment ∣ size)
    (hin : Within (a, count * size) (s.start, s.size))
    (hfresh : Fresh (a, count * size) s.freeBlocks) :
    (carve s a size count).Inv ∧ (carve s a size count).freeSpace = s.freeSpace + count * size ∧
      (carve s a size count).start = s.start ∧ (carve s a size count).size = s.size := by
  induction count generalizing s a with
  | zero => exact ⟨h, by rw [Nat.zero_mul, Nat.add_zero]; rfl, rfl, rfl⟩
  | succ count ih =>
    have hw : Within (a, size) (a, (count + 1) * size) := by
      unfold Within
      simp only [Nat.succ_mul]
      omega
    have hw' : Within (a + size, count * size) (a, (count + 1) * size) := by
      unfold Within
      simp only [Nat.succ_mul]
      omega
    have hfb := freeBlocks_free h.toListsOk hpos (hfresh.of_within hw) halign
    have hfresh' : Fresh (a + size, count * size) (s.free a size).freeBlocks :=
      ((hfresh.of_within hw').cons (disjoint_split a size _).symm).of_perm hfb.symm
    obtain ⟨hinv, hspace, hstart, hsize⟩ :=
      ih (h.free hpos halign (hw.trans hin) (hfresh.of_within hw))
        (by rw [free_start, free_size]; exact hw'.trans hin) hfresh'
    refine ⟨hinv, ?_, hstart.trans free_start, hsize.trans free_size⟩
    rw [show carve s a size (count + 1) = carve (s.free a size) (a + size) size count from rfl,
      hspace, free_freeSpace halign, Nat.succ_mul]
    omega

end Carve

section Find

variable {size block : Nat} {s' : FreeListAllocator}

theorem allocationPageSize_le_largeBlockSize (hpos : 0 < size) :
    allocationPageSize ≤ (allocationPageSize + size - 1) / size * size := by
  have h1 := Nat.div_add_mod (allocationPageSize + size - 1) size
  have h2 := Nat.mod_lt (allocationPageSize + size - 1) hpos
  rw [Nat.mul_comm] at h1
  omega

theorem findFreeBlock_largeBlockSize (hpos : 0 < size) :
    s.findFreeBlock ((allocationPageSize + size - 1) / size * size) =
      s.findLargeBlock ((allocationPageSize + size - 1) / size * size) := by
  have hle := allocationPageSize_le_largeBlockSize hpos
  have hbig : ¬(allocationPageSize + size - 1) / size * size / dataAlignment < freeListCount := by
    simp only [allocationPageSize, freeListCount, dataAlignment] at hle ⊢
    omega
  unfold findFreeBlock
  rw [dif_neg hbig]

theorem Inv.refillSmallBucket (h : s.Inv) (hpos : 0 < size) (halign : dataAlignment ∣ size)
    (hsmall : size / dataAlignment < freeListCount) (hr : s.refillSmallBucket size = some s') :
    s'.Inv ∧ s'.smallBlocks ⟨size / dataAlignment, hsmall⟩ ≠ [] ∧ s'.freeSpace = s.freeSpace ∧
      s'.start = s.start ∧ s'.size = s.size := by
  have hle := allocationPageSize_le_largeBlockSize hpos
  unfold FreeListAllocator.refillSmallBucket at hr
  dsimp only at hr
  split at hr
  · rename_i largeBlock s₁ hlarge
    cases hr
    obtain ⟨h₁, hfit, hm₁, hstart₁, hsize₁, hbalign, hin, hfresh, hspace₁⟩ := h.findLargeBlock hlarge
    rw [← blockSize_congr hm₁] at hfit hbalign hin hfresh hspace₁
    rw [← hstart₁, ← hsize₁] at hin
    obtain ⟨h₂, -, hfresh₂, hspace₂, hstart₂, hsize₂⟩ := h₁.splitFreeBlock
      (Nat.lt_of_lt_of_le (by decide) hle) hfit
      (Nat.dvd_trans halign (Nat.dvd_mul_left _ _)) hbalign hin hfresh
    have hcount : (allocationPageSize + size - 1) / size * size / size * size =
        (allocationPageSize + size - 1) / size * size := by
      rw [Nat.mul_div_cancel _ hpos]
    have hwithin : Within (largeBlock, (allocationPageSize + size - 1) / size * size)
        (s₁.start, s₁.size) := by
      have := within_split_left largeBlock ((allocationPageSize + size - 1) / size * size)
        (s₁.blockSize largeBlock - (allocationPageSize + size - 1) / size * size)
      rw [Nat.add_sub_cancel' hfit] at this
      exact this.trans hin
    obtain ⟨h₃, hspace₃, hstart₃, hsize₃⟩ := h₂.carve _ hpos halign
      (by rw [hcount, hstart₂, hsize₂]; exact hwithin) (by rw [hcount]; exact hfresh₂)
    refine ⟨h₃, smallBlocks_carve_ne_nil hsmall halign ?_, ?_, ?_, ?_⟩
    · rw [Nat.mul_div_cancel _ hpos]
      apply Nat.pos_of_ne_zero
      intro h0
      rw [h0, Nat.zero_mul] at hle
      simp [allocationPageSize] at hle
    · rw [hspace₃, hcount, hspace₂, ← hspace₁]
      omega
    · rw [hstart₃, hstart₂, hstart₁]
    · rw [hsize₃, hsize₂, hsize₁]
  · cases hr

theorem Inv.findFreeBlock (h : s.Inv) (hpos : 0 < size) (halign : dataAlignment ∣ size)
    (hf : s.findFreeBlock size = (some block, s')) :
    s'.Inv ∧ size ≤ s'.blockSize block ∧ dataAlignment ∣ s'.blockSize block ∧
      Within (block, s'.blockSize block) (s.start, s.size) ∧
      Fresh (block, s'.blockSize block) s'.freeBlocks ∧
      s'.freeSpace + s'.blockSize block = s.freeSpace ∧ s'.start = s.start ∧ s'.size = s.size := by
  have hpop : ∀ {s₁ : FreeListAllocator} (hsmall : size / dataAlignment < freeListCount),
      s₁.Inv → s₁.popSmallBlock ⟨size / dataAlignment, hsmall⟩ = (some block, s') →
      s'.Inv ∧ size ≤ s'.blockSize block ∧ dataAlignment ∣ s'.blockSize block ∧
        Within (block, s'.blockSize block) (s₁.start, s₁.size) ∧
        Fresh (block, s'.blockSize block) s'.freeBlocks ∧
        s'.freeSpace + s'.blockSize block = s₁.freeSpace ∧ s'.start = s₁.start ∧ s'.size = s₁.size := by
    intro s₁ hsmall h₁ hp
    obtain ⟨h', hbsize, hm, hstart, hsize, hin, hfresh, hspace⟩ := h₁.popSmallBlock hp
    rw [← blockSize_congr hm] at hbsize hin hfresh hspace
    have hexact : s'.blockSize block = size := by
      rw [hbsize]
      exact Nat.mul_div_cancel' halign
    rw [hexact] at hin hfresh hspace ⊢
    exact ⟨h', Nat.le_refl _, halign, hin, hfresh, hspace, hstart, hsize⟩
  unfold FreeListAllocator.findFreeBlock at hf
  dsimp only at hf
  split at hf
  · rename_i hsmall
    split at hf
    · split at hf
      · rename_i s₁ hr
        obtain ⟨h₁, -, hspace₁, hstart₁, hsize₁⟩ := h.refillSmallBucket hpos halign hsmall hr
        rw [← hspace₁, ← hstart₁, ← hsize₁]
        exact hpop hsmall h₁ hf
      · cases hf
    · exact hpop hsmall h hf
  · obtain ⟨h', hfit, hm, hstart, hsize, hbalign, hin, hfresh, hspace⟩ := h.findLargeBlock hf
    rw [← blockSize_congr hm] at hfit hbalign hin hfresh hspace
    exact ⟨h', hfit, hbalign, hin, hfresh, hspace, hstart, hsize⟩

theorem findFreeBlock_eq_none (h : s.Inv) (hpos : 0 < size) (halign : dataAlignment ∣ size)
    (hf : s.findFreeBlock size = (none, s')) : s' = s := by
  unfold findFreeBlock at hf
  dsimp only at hf
  split at hf
  · rename_i hsmall
    split at hf
    · split at hf
      · rename_i s₁ hr
        obtain ⟨-, hne, -⟩ := h.refillSmallBucket hpos halign hsmall hr
        obtain ⟨b, s₂, hp⟩ := popSmallBlock_isSome hne
        rw [hp] at hf
        cases hf
      · exact (Prod.mk.inj hf).2.symm
    · rename_i hne
      obtain ⟨b, s₂, hp⟩ := popSmallBlock_isSome hne
      rw [hp] at hf
      cases hf
  · exact findLargeBlock_eq_none hf

theorem Inv.allot (h : s.Inv) (hpos : 0 < size) (ha : s.allot size = (some block, s')) :
    s'.Inv ∧ s'.blockSize block = align size dataAlignment ∧
      Within (block, align size dataAlignment) (s.start, s.size) ∧
      Fresh (block, align size dataAlignment) s'.freeBlocks ∧
      s'.freeSpace + align size dataAlignment = s.freeSpace ∧ s'.start = s.start ∧ s'.size = s.size := by
  have hapos : 0 < align size dataAlignment := Nat.lt_of_lt_of_le hpos (le_align size (by decide))
  unfold FreeListAllocator.allot at ha
  dsimp only at ha
  split at ha
  · rename_i found s₁ hf
    simp only [Prod.mk.injEq, Option.some.injEq] at ha
    obtain ⟨rfl, rfl⟩ := ha
    obtain ⟨h₁, hfit, hbalign, hin, hfresh, hspace₁, hstart₁, hsize₁⟩ :=
      h.findFreeBlock hapos (dvd_align size) hf
    rw [← hstart₁, ← hsize₁] at hin
    obtain ⟨h₂, hbsize, hfresh₂, hspace₂, hstart₂, hsize₂⟩ :=
      h₁.splitFreeBlock hapos hfit (dvd_align size) hbalign hin hfresh
    have hwithin : Within (found, align size dataAlignment) (s₁.start, s₁.size) := by
      have := within_split_left found (align size dataAlignment)
        (s₁.blockSize found - align size dataAlignment)
      rw [Nat.add_sub_cancel' hfit] at this
      exact this.trans hin
    refine ⟨h₂, hbsize, ?_, hfresh₂, ?_, hstart₂.trans hstart₁, hsize₂.trans hsize₁⟩
    · rw [← hstart₁, ← hsize₁]
      exact hwithin
    · rw [hspace₂, ← hspace₁]
      omega
  · cases ha

theorem allot_eq_none (h : s.Inv) (hpos : 0 < size) (ha : s.allot size = (none, s')) : s' = s := by
  unfold allot at ha
  dsimp only at ha
  split at ha
  · cases ha
  · rename_i s₁ hf
    rw [← (Prod.mk.inj ha).2]
    exact findFreeBlock_eq_none h (Nat.lt_of_lt_of_le hpos (le_align size (by decide)))
      (dvd_align size) hf

end Find

section Sweep

/-- The positions of the sweep loop: a line of the bitmap, or the end. -/
def SweepPos (s : FreeListAllocator) (p : Nat) : Prop :=
  (∃ l ≤ s.state.bitsSize * 64, p = s.state.lineBlock l) ∨ p = s.endAddr

variable {p : Nat}

@[simp] theorem sweepPos_free {a n : Nat} : (s.free a n).SweepPos p ↔ s.SweepPos p := by
  simp [SweepPos, endAddr]

theorem sweep_run (h16 : dataAlignment ∣ s.size) (hp : s.SweepPos p) (hpe : p ≠ s.endAddr)
    (hr : s.state.nextUnmarkedBlockAfter p ≠ s.endAddr) :
    p ≤ s.state.nextUnmarkedBlockAfter p ∧
      0 < s.state.unmarkedBlockSize (s.state.nextUnmarkedBlockAfter p) ∧
      dataAlignment ∣ s.state.unmarkedBlockSize (s.state.nextUnmarkedBlockAfter p) ∧
      s.SweepPos (s.state.nextUnmarkedBlockAfter p + s.state.unmarkedBlockSize (s.state.nextUnmarkedBlockAfter p)) ∧
      s.start ≤ s.state.nextUnmarkedBlockAfter p ∧
      s.state.nextUnmarkedBlockAfter p + s.state.unmarkedBlockSize (s.state.nextUnmarkedBlockAfter p) ≤
        s.endAddr := by
  have hend : s.state.start + s.state.size = s.endAddr := by rw [s.state_start, s.state_size]; rfl
  rcases hp with ⟨l, hl, rfl⟩ | rfl
  · rcases s.state.nextUnmarkedBlockAfter_lineBlock hl with ⟨L, hlL, hL, hLu, hnext⟩ | hnext
    · rw [hnext]
      obtain ⟨hpos, halign, hrun⟩ := s.state.unmarkedBlockSize_lineBlock (by rw [s.state_size]; exact h16) hL hLu
      have hle : s.state.lineBlock l ≤ s.state.lineBlock L := by
        simp only [MarkBits.lineBlock]
        have : l * dataAlignment ≤ L * dataAlignment := Nat.mul_le_mul_right _ hlL
        omega
      refine ⟨hle, hpos, halign, ?_, ?_, ?_⟩
      · rcases hrun with ⟨L', -, hL', heq⟩ | heq
        · exact .inl ⟨L', Nat.le_of_lt hL', heq⟩
        · exact .inr (heq.trans hend)
      · rw [MarkBits.lineBlock, s.state_start]
        omega
      · rcases hrun with ⟨L', -, hL', heq⟩ | heq
        · rw [heq, ← hend]
          exact Nat.le_of_lt (s.state.lineBlock_lt_end hL')
        · rw [heq, hend]
    · exact absurd (hnext.trans hend) hr
  · exact absurd rfl hpe

theorem Inv.sweep_turn {a n : Nat} (h : s.Inv) (h16 : dataAlignment ∣ s.size) (hp : s.SweepPos p)
    (hbelow : ∀ c ∈ s.freeBlocks, c.1 + c.2 ≤ p) (hpe : p ≠ s.endAddr) (hr : a ≠ s.endAddr)
    (ha : s.state.nextUnmarkedBlockAfter p = a) (hn : s.state.unmarkedBlockSize a = n) :
    (s.free a n).Inv ∧ (s.free a n).SweepPos (a + n) ∧
      (∀ c ∈ (s.free a n).freeBlocks, c.1 + c.2 ≤ a + n) ∧
      (s.free a n).freeBlocks.Perm ((a, n) :: s.freeBlocks) := by
  subst ha hn
  obtain ⟨hle, hpos, halign, hp', hstart, hend⟩ := s.sweep_run h16 hp hpe hr
  have hfresh : Fresh (s.state.nextUnmarkedBlockAfter p,
      s.state.unmarkedBlockSize (s.state.nextUnmarkedBlockAfter p)) s.freeBlocks :=
    fun c hc => Or.inr (Nat.le_trans (hbelow c hc) hle)
  have hfb := freeBlocks_free h.toListsOk hpos hfresh halign
  refine ⟨h.free hpos halign ⟨hstart, hend⟩ hfresh, sweepPos_free.mpr hp', ?_, hfb⟩
  intro c hc
  rcases List.mem_cons.mp (hfb.subset hc) with rfl | hc
  · exact Nat.le_refl _
  · exact Nat.le_trans (hbelow c hc) (Nat.le_trans hle (Nat.le_add_right _ _))

theorem Inv.sweepFrom (fuel : Nat) (h : s.Inv) (h16 : dataAlignment ∣ s.size) (hp : s.SweepPos p)
    (hbelow : ∀ c ∈ s.freeBlocks, c.1 + c.2 ≤ p) : (sweepFrom s p fuel).Inv := by
  induction fuel generalizing s p with
  | zero => exact h
  | succ fuel ih =>
    unfold FreeListAllocator.sweepFrom
    dsimp only
    split
    · rename_i hpe
      split
      · rename_i hr
        obtain ⟨h', hp', hbelow', -⟩ := h.sweep_turn h16 hp hbelow hpe hr rfl rfl
        exact ih h' (by simpa using h16) hp' hbelow'
      · exact h
    · exact h

theorem sweepFrom_start_size (p fuel : Nat) :
    (sweepFrom s p fuel).start = s.start ∧ (sweepFrom s p fuel).size = s.size := by
  induction fuel generalizing s p with
  | zero => exact ⟨rfl, rfl⟩
  | succ fuel ih =>
    unfold FreeListAllocator.sweepFrom
    dsimp only
    split
    · split
      · obtain ⟨hstart, hsize⟩ := ih (s := (s.makeFree _ _).addToFreeList _) (p := _)
        exact ⟨hstart.trans (by simp), hsize.trans (by simp)⟩
      · exact ⟨rfl, rfl⟩
    · exact ⟨rfl, rfl⟩

@[simp] theorem sweep_start : s.sweep.start = s.start := (sweepFrom_start_size _ _).1
@[simp] theorem sweep_size : s.sweep.size = s.size := (sweepFrom_start_size _ _).2

theorem inv_sweep (h16 : dataAlignment ∣ s.size) : s.sweep.Inv := by
  apply (inv_clearFreeList s).sweepFrom _ h16
  · refine .inl ⟨0, Nat.zero_le _, ?_⟩
    rw [MarkBits.lineBlock, Nat.zero_mul, Nat.zero_add, clearFreeList_state, s.state_start]
  · rw [freeBlocks_clearFreeList]
    intro c hc
    cases hc

end Sweep

end FreeListAllocator

end FactorProofs.Vm
