import FactorProofs.Vm.Compaction
import FactorProofs.Library.Transition

namespace FactorProofs.Vm

open FactorProofs.Intervals FactorProofs.Transition

namespace FreeListAllocator

/-- What can happen to a free-list allocator between two observations: one of
its operations, each under what its callers guarantee, or the collector and
the mutator working around it. `free` is given an allocated block (inside the
region, of positive aligned size, off the free list); `compact` runs on a
heap tiled by blocks, after the mark phase and `compute_forwarding`; the mark
phase may set any mark bits over the region; the mutator writes only outside
the free blocks. -/
inductive Step : FreeListAllocator → FreeListAllocator → Prop
  | allot (s : FreeListAllocator) (size : Nat) (hpos : 0 < size) : Step s (s.allot size).2
  | free (s : FreeListAllocator) (block size : Nat) (hpos : 0 < size) (halign : dataAlignment ∣ size)
      (hin : Within (block, size) (s.start, s.size)) (hfresh : Fresh (block, size) s.freeBlocks) :
      Step s (s.free block size)
  | sweep (s : FreeListAllocator) : Step s s.sweep
  | initialFreeList (s : FreeListAllocator) (occupied : Nat) (hocc : occupied ≤ s.size)
      (halign : dataAlignment ∣ s.size - occupied) : Step s (s.initialFreeList occupied)
  | compact (s : FreeListAllocator) (blocks : List HeapBlock) (marks : List (Nat × Nat)) (m₀ : MarkBits)
      (objectSize : Nat → Nat) (ht : Tiles s blocks) (hm : MarkedLive s blocks marks m₀ objectSize) :
      Step s (s.compact objectSize).2
  | mark (s : FreeListAllocator) (m : MarkBits) (hstart : m.start = s.start) (hsize : m.size = s.size) :
      Step s { s with state := m, state_start := hstart, state_size := hsize }
  | write (s : FreeListAllocator) (a v : Nat) (ha : ∀ c ∈ s.freeBlocks, ¬(c.1 ≤ a ∧ a < c.1 + c.2)) :
      Step s { s with memory := Function.update s.memory a v }

variable {s s' : FreeListAllocator}

theorem inv_new {size : Nat} (start : Nat) (memory : Nat → Nat) (h16 : dataAlignment ∣ size) :
    (new size start memory).Inv :=
  inv_initialFreeList (Nat.zero_le _) (by simpa using h16)

theorem Step.preserves (hstep : Step s s') (h : s.Inv) (h16 : dataAlignment ∣ s.size) :
    s'.Inv ∧ s'.start = s.start ∧ s'.size = s.size := by
  cases hstep with
  | allot size hpos =>
    rcases ha : s.allot size with ⟨_ | block, s₁⟩
    · -- a failed request changes nothing
      rw [allot_eq_none h hpos ha]
      exact ⟨h, rfl, rfl⟩
    · obtain ⟨h₁, -, -, -, -, hstart, hsize⟩ := h.allot hpos ha
      exact ⟨h₁, hstart, hsize⟩
  | free block size hpos halign hin hfresh => exact ⟨h.free hpos halign hin hfresh, free_start, free_size⟩
  | sweep => exact ⟨inv_sweep h16, sweep_start, sweep_size⟩
  | initialFreeList occupied hocc halign =>
    exact ⟨inv_initialFreeList hocc halign, initialFreeList_start _, initialFreeList_size _⟩
  | compact blocks marks m₀ objectSize ht hm => exact ⟨hm.inv_compact ht, compact_start _ _, compact_size _ _⟩
  | mark m hstart hsize => exact ⟨h.frame rfl rfl rfl rfl rfl rfl fun _ _ => rfl, rfl, rfl⟩
  | write a v ha =>
    refine ⟨h.frame rfl rfl rfl rfl rfl rfl fun b hb => Function.update_of_ne ?_ _ _, rfl, rfl⟩
    rintro rfl
    exact ha _ (mem_freeBlocks hb) ⟨Nat.le_refl _, Nat.lt_add_of_pos_right (h.aligned _ hb).1⟩

theorem Reachable.inv {size start : Nat} {memory : Nat → Nat} (h16 : dataAlignment ∣ size)
    (hs : Reachable (· = new size start memory) Step s) : s.Inv ∧ s.start = start ∧ s.size = size := by
  refine hs.invariant (P := fun s => s.Inv ∧ s.start = start ∧ s.size = size) ?_ ?_
  · rintro _ rfl
    exact ⟨inv_new start memory h16, initialFreeList_start _, initialFreeList_size _⟩
  · rintro s s' ⟨h, hstart, hsize⟩ hstep
    obtain ⟨h', hstart', hsize'⟩ := hstep.preserves h (hsize ▸ h16)
    exact ⟨h', hstart'.trans hstart, hsize'.trans hsize⟩

/-- Along any run of the allocator from its constructor, the small buckets,
the large blocks and the counters describe exactly the free blocks, each
listed once; and in every such state a request either fails and changes
nothing, or returns a block of the aligned size off the free list, lowering
the free space by that size. -/
theorem freeList_bookkeeping {size start : Nat} {memory : Nat → Nat} (h16 : dataAlignment ∣ size)
    (hs : Reachable (· = new size start memory) Step s) :
    s.Inv ∧ s.listed.Nodup ∧ s.occupiedSpace = s.size - (s.freeBlocks.map Prod.snd).sum ∧
      ∀ req, 0 < req →
        s.allot req = (none, s) ∨
        ∃ block s', s.allot req = (some block, s') ∧ s'.blockSize block = align req dataAlignment ∧
          Within (block, align req dataAlignment) (s.start, s.size) ∧
          Fresh (block, align req dataAlignment) s'.freeBlocks ∧
          s'.freeSpace + align req dataAlignment = s.freeSpace := by
  have h := (Reachable.inv h16 hs).1
  refine ⟨h, h.nodup, by rw [occupiedSpace, h.space], fun req hreq => ?_⟩
  rcases ha : s.allot req with ⟨_ | block, s'⟩
  · left
    rw [allot_eq_none h hreq ha]
  · obtain ⟨-, hsize, hin, hfresh, hspace, -, -⟩ := h.allot hreq ha
    exact .inr ⟨block, s', rfl, hsize, hin, hfresh, hspace⟩

theorem freeList_bookkeeping_run :
    let s := ((((new 1024 0 fun _ => 0).allot 16).2.free 1008 16).compact fun _ => 16).2
    Reachable (· = new 1024 0 fun _ => 0) Step s ∧ s.Inv ∧ s.listed.Nodup ∧
      s.occupiedSpace = s.size - (s.freeBlocks.map Prod.snd).sum ∧
      ∀ req, 0 < req →
        s.allot req = (none, s) ∨
        ∃ block s', s.allot req = (some block, s') ∧ s'.blockSize block = align req dataAlignment ∧
          Within (block, align req dataAlignment) (s.start, s.size) ∧
          Fresh (block, align req dataAlignment) s'.freeBlocks ∧
          s'.freeSpace + align req dataAlignment = s.freeSpace := by
  intro s
  have h16 : dataAlignment ∣ 1024 := by decide
  have h₀ := freeList_bookkeeping h16 (.init rfl : Reachable (· = new 1024 0 fun _ => 0) Step (new 1024 0 fun _ => 0))
  have hfirst : ((new 1024 0 fun _ => 0).allot 16).1 = some 1008 := by decide
  have hallot : (new 1024 0 fun _ => 0).allot 16 = (some 1008, ((new 1024 0 fun _ => 0).allot 16).2) := by
    rw [← hfirst]
  obtain ⟨block, s₁, ha, -, hin, hfresh, -⟩ :=
    (h₀.2.2.2 16 (by decide)).resolve_left (by rw [hallot]; simp)
  rw [hallot, Prod.mk.injEq, Option.some.injEq] at ha
  obtain ⟨rfl, rfl⟩ := ha
  have hs₁ : Reachable (· = new 1024 0 fun _ => 0) Step ((new 1024 0 fun _ => 0).allot 16).2 :=
    .step (.init rfl) (.allot _ 16 (by decide))
  have hs₂ := Reachable.step hs₁ (.free _ 1008 16 (by decide) (by decide) hin hfresh)
  obtain ⟨-, hstart, hsize⟩ := Reachable.inv h16 hs₂
  have ht : Tiles (((new 1024 0 fun _ => 0).allot 16).2.free 1008 16) [⟨1024, false⟩] :=
    ⟨by rw [hstart]; decide, by rw [hsize]; decide, by rw [hsize]; decide, by rw [hsize]; rfl, by decide⟩
  have hm : MarkedLive (((new 1024 0 fun _ => 0).allot 16).2.free 1008 16) [⟨1024, false⟩] []
      (MarkBits.new 1024 0) fun _ => 16 := by
    refine ⟨fun y => by simp [layout], rfl, fun a b h hb => ?_, fun a b h hb => ?_⟩ <;>
    · simp only [layout, List.mem_singleton, Prod.mk.injEq] at h
      rw [h.2] at hb
      cases hb
  exact ⟨.step hs₂ (.compact _ _ _ _ _ ht hm), freeList_bookkeeping h16 (.step hs₂ (.compact _ _ _ _ _ ht hm))⟩

end FreeListAllocator

end FactorProofs.Vm
