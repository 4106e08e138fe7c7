import FactorProofs.Compiler.ParallelCopyRuns

namespace FactorProofs.Compiler.ParallelCopy

open FactorProofs.Moves FactorProofs.FunctionalGraph FactorProofs.Containers

/-! How many moves `parallel-mapping` makes when no destination is its own
source: one into each destination, and one into a temporary for each cycle
of the mapping that no edge leaves. -/

variable {V : Type} [DecidableEq V] (mapping : List (V × V))

/-- The destinations whose value went to a temporary. -/
def tempSources (moves : List (V × V)) : List V :=
  (moves.filter fun m => m.1 ∉ mapping.map Prod.fst).map Prod.snd

variable {mapping}

theorem tempSources_snoc_dest (ms : List (V × V)) {d : V} (hd : d ∈ mapping.map Prod.fst) (c : V) :
    tempSources mapping (ms ++ [(d, c)]) = tempSources mapping ms := by
  simp [tempSources, List.filter_append, hd]

theorem tempSources_snoc_temp (ms : List (V × V)) {d : V} (hd : d ∉ mapping.map Prod.fst) (c : V) :
    tempSources mapping (ms ++ [(d, c)]) = tempSources mapping ms ++ [c] := by
  simp [tempSources, List.filter_append, hd]

theorem mem_tempSources {ms : List (V × V)} {b : V} :
    b ∈ tempSources mapping ms ↔ ∃ m ∈ ms, m.1 ∉ mapping.map Prod.fst ∧ m.2 = b := by
  simp [tempSources]

variable (mapping) (temp : V → V)

/-- What `parallel-mapping` keeps about the moves into destinations and into
temporaries. -/
structure CycleInv (s : State V) : Prop where
  count_le : ∀ d ∈ mapping.map Prod.fst, (s.moves.map Prod.fst).count d ≤ 1
  temp_move : ∀ m ∈ s.moves, m.1 ∉ mapping.map Prod.fst → m.1 = temp m.2 ∧ settled s m.2
  temps_nodup : (tempSources mapping s.moves).Nodup
  temps_on_cycle : ∀ b ∈ tempSources mapping s.moves, ∃ C, IsClosedCycle (preds mapping) C ∧ b ∈ C
  -- a closed cycle none of whose destinations went to a temporary has not been touched
  untouched : ∀ C, IsClosedCycle (preds mapping) C → (∀ b ∈ tempSources mapping s.moves, b ∉ C) →
    ∀ c ∈ C, ¬ settled s c ∧ s.locs c = some c
  one_per_cycle : ∀ C, IsClosedCycle (preds mapping) C →
    ((tempSources mapping s.moves).filter (· ∈ C)).length ≤ 1

variable {mapping temp}

theorem mem_dests_of_isClosedCycle {C : Finset V} (hC : IsClosedCycle (preds mapping) C) {c : V} (hc : c ∈ C) :
    c ∈ mapping.map Prod.fst :=
  mem_dests_of_preds (hC.step_mem hc).2

theorem mem_srcs_of_isClosedCycle {C : Finset V} (hC : IsClosedCycle (preds mapping) C) {c : V} (hc : c ∈ C) :
    c ∈ mapping.map Prod.snd := by
  obtain ⟨d, -, hdc⟩ := hC.exists_succ hc
  exact mem_srcs_of_preds hdc

theorem cycleInv_init : CycleInv mapping temp (init mapping) := by
  constructor
  case untouched =>
    intro C hC _ c hc
    have hcs := mem_srcs_of_isClosedCycle hC hc
    refine ⟨?_, by simp [init, hcs]⟩
    rintro (hw | hr)
    · simp [written, init] at hw
    · simp [init, hcs] at hr
  all_goals simp [init, tempSources]

theorem Inv.exists_isClosedCycle (hnodup : (mapping.map Prod.fst).Nodup) {s : State V}
    (hs : Inv mapping temp s) (hready : s.ready = [])
    {b : V} (hb : b ∈ mapping.map Prod.fst) (hbw : ¬ written s b) :
    ∃ C, IsClosedCycle (preds mapping) C ∧ b ∈ C := by
  classical
  let U := (mapping.map Prod.fst).toFinset.filter fun x => ¬ written s x
  have hU : ∀ x, x ∈ U ↔ x ∈ mapping.map Prod.fst ∧ ¬ written s x := fun x => by simp [U]
  refine FunctionalGraph.exists_isClosedCycle (U := U) (fun u hu => (isSome_preds_iff u).mpr ((hU u).mp hu).1)
    (fun u hu => ?_) (fun d a hda ha => ?_) ((hU b).mpr ⟨hb, hbw⟩)
  · obtain ⟨c, hcu, hcw⟩ := hs.exists_unwritten_child hnodup hready ((hU u).mp hu).1 ((hU u).mp hu).2
    exact ⟨c, (hU c).mpr ⟨mem_dests_of_preds hcu, hcw⟩, hcu⟩
  · refine (hU d).mpr ⟨mem_dests_of_preds hda, fun hw => ((hU a).mp ha).2 ?_⟩
    simpa [settled, hready] using hs.settled_of_written d a hw hda ((hU a).mp ha).1

section NoSelfMoves

variable (hself : ∀ d, preds mapping d ≠ some d)
include hself

theorem CycleInv.processReady {s : State V} (hs : Inv mapping temp s) (hci : CycleInv mapping temp s)
    {b : V} {rest : List V} (hready : s.ready = b :: rest) {a c : V} (ha : preds mapping b = some a)
    (hc : s.locs a = some c) :
    CycleInv mapping temp ⟨Function.update s.locs a (some b),
      if a = c ∧ (preds mapping a).isSome then rest ++ [a] else rest, s.moves ++ [(b, c)]⟩ := by
  have hb : b ∈ s.ready := hready ▸ List.mem_cons_self
  have hbd := hs.ready_dest b hb
  have hbw : ¬ written s b := (hs.ready_unwritten b hb).resolve_right (hself b)
  have hrest : ∀ x ∈ rest, x ∈ (if a = c ∧ (preds mapping a).isSome then rest ++ [a] else rest) :=
    fun x hx => by split_ifs <;> simp [hx]
  have hmono := fun x => settled_processReady (s := s) hready (Function.update s.locs a (some b)) hrest c (x := x)
  constructor <;> dsimp only <;> try rw [tempSources_snoc_dest _ hbd]
  case count_le =>
    intro d hd
    rw [List.map_append, List.count_append, List.map_singleton, List.count_singleton]
    by_cases hdb : d = b
    · subst hdb
      rw [List.count_eq_zero.mpr hbw]
      simp
    · simpa [Ne.symm hdb] using hci.count_le d hd
  case temp_move =>
    intro m hm hmd
    rcases List.mem_append.mp hm with hm | hm
    · exact (hci.temp_move m hm hmd).imp id (hmono _)
    · rw [List.mem_singleton] at hm
      exact absurd (hm ▸ hbd) hmd
  case temps_nodup => exact hci.temps_nodup
  case temps_on_cycle => exact hci.temps_on_cycle
  case untouched =>
    intro C hC hnone x hx
    obtain ⟨hxs, hxl⟩ := hci.untouched C hC hnone x hx
    have hxb : x ≠ b := fun h => hxs (Or.inr (h ▸ hb))
    have hxa : x ≠ a := by
      rintro rfl
      exact (hci.untouched C hC hnone b (hC.mem_of_pred b x ha hx)).1 (Or.inr hb)
    refine ⟨fun hset => hxs ?_, by rw [Function.update_of_ne hxa, hxl]⟩
    rcases hset with hw | hr
    · exact Or.inl (((written_snoc _ _ _ _ _).mp hw).resolve_right hxb)
    · split_ifs at hr
      · rcases List.mem_append.mp hr with hr | hr
        · exact Or.inr (hready ▸ List.mem_cons_of_mem _ hr)
        · exact absurd (List.mem_singleton.mp hr) hxa
      · exact Or.inr (hready ▸ List.mem_cons_of_mem _ hr)
  case one_per_cycle => exact hci.one_per_cycle

variable (hnodup : (mapping.map Prod.fst).Nodup)
  (htemp : ∀ b, temp b ∉ mapping.map Prod.fst ∧ temp b ∉ mapping.map Prod.snd)
include hnodup htemp

theorem CycleInv.processToDo {s : State V} (hs : Inv mapping temp s) (hci : CycleInv mapping temp s)
    (hready : s.ready = []) {b : V} (hb : b ∈ mapping.map Prod.fst) :
    CycleInv mapping temp (processToDo temp b s) := by
  unfold ParallelCopy.processToDo
  split_ifs with hhome
  swap
  · exact hci
  have hbs : ¬ settled s b := fun h => hs.moved_of_settled b (hself b) h hhome
  have hbw : ¬ written s b := fun h => hbs (Or.inl h)
  have htd : temp b ∉ mapping.map Prod.fst := (htemp b).1
  have hmono : ∀ x, settled s x →
      settled ⟨Function.update s.locs b (some (temp b)), s.ready ++ [b], s.moves ++ [(temp b, b)]⟩ x :=
    fun x hx => by
      have : settled (ParallelCopy.processToDo temp b s) x := settled_processToDo b hx
      unfold ParallelCopy.processToDo at this
      rwa [if_pos hhome] at this
  constructor <;> dsimp only <;> try rw [tempSources_snoc_temp _ htd]
  case count_le =>
    intro d hd
    have hdt : temp b ≠ d := fun h => htd (h ▸ hd)
    rw [List.map_append, List.count_append, List.map_singleton, List.count_singleton]
    simpa [hdt] using hci.count_le d hd
  case temp_move =>
    intro m hm hmd
    rcases List.mem_append.mp hm with hm | hm
    · exact (hci.temp_move m hm hmd).imp id (hmono _)
    · rw [List.mem_singleton] at hm
      subst hm
      exact ⟨rfl, Or.inr (by simp)⟩
  case temps_nodup =>
    refine List.nodup_append.mpr ⟨hci.temps_nodup, List.nodup_singleton b, fun x hx y hy hxy => ?_⟩
    rw [List.mem_singleton] at hy
    obtain ⟨m, hm, hmd, hmx⟩ := mem_tempSources.mp hx
    have hms := (hci.temp_move m hm hmd).2
    rw [hmx, hxy, hy] at hms
    exact hbs hms
  case temps_on_cycle =>
    intro x hx
    rcases List.mem_append.mp hx with hx | hx
    · exact hci.temps_on_cycle x hx
    · rw [List.mem_singleton] at hx
      exact hx ▸ hs.exists_isClosedCycle hnodup hready hb hbw
  case untouched =>
    intro C hC hnone x hx
    have hbC : b ∉ C := hnone b (List.mem_append_right _ (List.mem_singleton_self b))
    obtain ⟨hxs, hxl⟩ := hci.untouched C hC (fun y hy => hnone y (List.mem_append_left _ hy)) x hx
    have hxb : x ≠ b := fun h => hbC (h ▸ hx)
    refine ⟨fun hset => hxs ?_, by rw [Function.update_of_ne hxb, hxl]⟩
    rcases hset with hw | hr
    · rcases (written_snoc _ _ _ _ _).mp hw with hw | hw
      · exact Or.inl hw
      · exact absurd (hw ▸ mem_dests_of_isClosedCycle hC hx) htd
    · rw [hready, List.nil_append, List.mem_singleton] at hr
      exact absurd hr hxb
  case one_per_cycle =>
    intro C hC
    rw [List.filter_append]
    by_cases hbC : b ∈ C
    · -- an earlier temporary on the cycle of `b` would have been written, and so would `b`
      have hnone : (tempSources mapping s.moves).filter (· ∈ C) = [] := by
        refine List.filter_eq_nil_iff.mpr fun x hx hxC => ?_
        obtain ⟨m, hm, hmd, hmx⟩ := mem_tempSources.mp hx
        have hxw : written s x := by
          simpa [settled, hready, hmx] using (hci.temp_move m hm hmd).2
        obtain ⟨k, hk⟩ := hC.connected b hbC x (of_decide_eq_true hxC)
        exact (hs.unwritten_iterate hnodup hready hb hbw k).2 (hk ▸ hxw)
      simp [hnone, hbC]
    · simpa [hbC] using hci.one_per_cycle C hC

omit hnodup htemp in
theorem readyStable_cycleInv : ReadyStable mapping temp (CycleInv mapping temp) :=
  fun _ _ _ _ _ hs hci hready ha hc => hci.processReady hself hs hready ha hc

theorem toDoStable_cycleInv : ToDoStable mapping temp (CycleInv mapping temp) :=
  fun _ _ hs hci hready hb => hci.processToDo hself hnodup htemp hs hready hb

end NoSelfMoves

/-- Executing the moves of `parallel-mapping` in order copies every source into
its destinations and leaves every other place but the temporaries alone; and
when no destination is its own source there is one move into each
destination and, for each cycle of the mapping that no edge leaves, one move
into a temporary. -/
theorem parallelMapping_sequentialises (hnodup : (mapping.map Prod.fst).Nodup)
    (htemp : ∀ b, temp b ∉ mapping.map Prod.fst ∧ temp b ∉ mapping.map Prod.snd)
    {fuel : ℕ} (hfuel : 3 * mapping.length ≤ fuel) :
    ∃ moves, parallelMapping mapping fuel temp = some moves ∧
      (∀ {β : Type} (σ : V → β),
        (∀ d a, (d, a) ∈ mapping → exec moves σ d = σ a) ∧
        ∀ x, x ∉ mapping.map Prod.fst → (∀ b, x ≠ temp b) → exec moves σ x = σ x) ∧
      ((∀ d a, (d, a) ∈ mapping → d ≠ a) →
        (∀ d ∈ mapping.map Prod.fst, (moves.map Prod.fst).count d = 1) ∧
        (∀ m ∈ moves, m.1 ∉ mapping.map Prod.fst → m.1 = temp m.2) ∧
        (tempSources mapping moves).Nodup ∧
        (∀ b ∈ tempSources mapping moves, ∃ C, IsClosedCycle (preds mapping) C ∧ b ∈ C) ∧
        ∀ C, IsClosedCycle (preds mapping) C → ((tempSources mapping moves).filter (· ∈ C)).length = 1) := by
  obtain ⟨moves, hresult, hvalues⟩ := parallelMapping_spec htemp hnodup hfuel
  refine ⟨moves, hresult, hvalues, fun hne => ?_⟩
  have hself : ∀ d, preds mapping d ≠ some d :=
    fun d h => hne d d ((lookup_eq_some_iff_mem hnodup d d).mp h) rfl
  obtain ⟨s, hresult', -, hci, hcomplete⟩ :=
    parallelMapping_final htemp hnodup (CycleInv mapping temp) (readyStable_cycleInv hself)
      (toDoStable_cycleInv hself hnodup htemp) cycleInv_init hfuel
  obtain rfl : s.moves = moves := Option.some.inj (hresult'.symm.trans hresult)
  have hwritten : ∀ d ∈ mapping.map Prod.fst, written s d :=
    fun d hd => (hcomplete d hd).resolve_right (hself d)
  refine ⟨fun d hd => ?_, fun m hm hmd => (hci.temp_move m hm hmd).1, hci.temps_nodup,
    hci.temps_on_cycle, fun C hC => ?_⟩
  · have hle := hci.count_le d hd
    have hpos := List.count_pos_iff.mpr (hwritten d hd)
    omega
  · -- a cycle no temporary was taken from would still be untouched, its destinations unwritten
    have hpos : ((tempSources mapping s.moves).filter (· ∈ C)).length ≠ 0 := by
      intro h0
      obtain ⟨c, hc⟩ := hC.nonempty
      have hnone : ∀ b ∈ tempSources mapping s.moves, b ∉ C := fun b hb hbC =>
        List.filter_eq_nil_iff.mp (List.eq_nil_of_length_eq_zero h0) b hb (decide_eq_true hbC)
      exact (hci.untouched C hC hnone c hc).1 (Or.inl (hwritten c (mem_dests_of_isClosedCycle hC hc)))
    have hle := hci.one_per_cycle C hC
    omega

theorem parallelMapping_sequentialises_swap :
    ([(1, 2), (2, 1)].map Prod.fst).Nodup ∧
      (3 ∉ [(1, 2), (2, 1)].map Prod.fst ∧ 3 ∉ [(1, 2), (2, 1)].map Prod.snd) ∧
      ∃ moves, parallelMapping [(1, 2), (2, 1)] 6 (fun _ => 3) = some moves ∧
        ∀ σ : ℕ → ℕ, exec moves σ 1 = σ 2 ∧ exec moves σ 2 = σ 1 := by
  have hnodup : ([(1, 2), (2, 1)].map Prod.fst).Nodup := by decide
  have htemp : 3 ∉ [(1, 2), (2, 1)].map Prod.fst ∧ 3 ∉ [(1, 2), (2, 1)].map Prod.snd := by decide
  obtain ⟨moves, hresult, hvalues, -⟩ :=
    parallelMapping_sequentialises hnodup (fun _ => htemp) (by decide : 3 * [(1, 2), (2, 1)].length ≤ 6)
  exact ⟨hnodup, htemp, moves, hresult, fun σ => ⟨(hvalues σ).1 1 2 (by simp), (hvalues σ).1 2 1 (by simp)⟩⟩

end FactorProofs.Compiler.ParallelCopy
