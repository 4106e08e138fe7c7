import FactorProofs.Compiler.ParallelCopy

namespace FactorProofs.Compiler.ParallelCopy

open FactorProofs.Moves FactorProofs.Containers

/-! Whole runs of `parallel-mapping`: each `slurp-deque` of `ready` ends, and
after the loop over `to-do` every destination holds its source's value. -/

variable {V : Type} [DecidableEq V] (mapping : List (V × V))

/-- What bounds the rounds of a drain: each `process-ready` either pushes
nothing, or pushes a source whose value leaves home for good. -/
def potential (s : State V) : ℕ :=
  2 * s.ready.length + ((mapping.map Prod.fst).toFinset.filter fun a => s.locs a = some a).card

variable {mapping} {temp : V → V}

theorem potential_le {s : State V} (hs : Inv mapping temp s) :
    potential mapping s ≤ 3 * mapping.length := by
  have hready : s.ready.length ≤ mapping.length := by
    have := (hs.ready_nodup.subperm hs.ready_dest).length_le
    rwa [List.length_map] at this
  have hhome : ((mapping.map Prod.fst).toFinset.filter fun a => s.locs a = some a).card ≤ mapping.length :=
    calc _ ≤ (mapping.map Prod.fst).toFinset.card := Finset.card_filter_le _ _
      _ ≤ (mapping.map Prod.fst).length := List.toFinset_card_le _
      _ = mapping.length := List.length_map _
  rw [potential]
  omega

theorem potential_processReady {s : State V} (hs : Inv mapping temp s) {b : V} {rest : List V}
    (hready : s.ready = b :: rest) {a c : V} (hc : s.locs a = some c) :
    potential mapping ⟨Function.update s.locs a (some b),
      if a = c ∧ (preds mapping a).isSome then rest ++ [a] else rest, s.moves ++ [(b, c)]⟩ <
      potential mapping s := by
  have hb : b ∈ s.ready := hready ▸ List.mem_cons_self
  set H := (mapping.map Prod.fst).toFinset.filter fun x => s.locs x = some x
  set H' := (mapping.map Prod.fst).toFinset.filter fun x => Function.update s.locs a (some b) x = some x
  have hsub : H' ⊆ insert a H := by
    intro x hx
    rw [Finset.mem_filter] at hx
    by_cases hxa : x = a
    · exact hxa ▸ Finset.mem_insert_self _ _
    · rw [Function.update_of_ne hxa] at hx
      exact Finset.mem_insert_of_mem (Finset.mem_filter.mpr hx)
  show 2 * (if a = c ∧ (preds mapping a).isSome then rest ++ [a] else rest).length + H'.card <
    2 * s.ready.length + H.card
  rw [hready, List.length_cons]
  split_ifs with hP
  · -- `a` is pushed, and its value leaves home
    have hba : b ≠ a := fun h => hs.ready_moved b hb (by rw [h, hc, ← hP.1])
    have haH : a ∈ H := Finset.mem_filter.mpr
      ⟨List.mem_toFinset.mpr ((isSome_preds_iff a).mp hP.2), by rw [hc, ← hP.1]⟩
    have hsub' : H' ⊆ H.erase a := by
      intro x hx
      have hxa : x ≠ a := by
        rintro rfl
        rw [Finset.mem_filter, Function.update_self] at hx
        exact hba (Option.some.inj hx.2)
      refine Finset.mem_erase.mpr ⟨hxa, ?_⟩
      rw [Finset.mem_filter, Function.update_of_ne hxa] at hx
      exact Finset.mem_filter.mpr hx
    have hcard := Finset.card_le_card hsub'
    rw [Finset.card_erase_of_mem haH] at hcard
    have hpos : 0 < H.card := Finset.card_pos.mpr ⟨a, haH⟩
    rw [List.length_append, List.length_singleton]
    omega
  · have hcard := (Finset.card_le_card hsub).trans (Finset.card_insert_le a H)
    omega

omit [DecidableEq V] in
theorem settled_processToDo [DecidableEq V] {s : State V} (b : V) {x : V} (hx : settled s x) :
    settled (processToDo temp b s) x := by
  unfold processToDo
  split_ifs
  · rcases hx with hw | hx
    · exact Or.inl ((written_snoc _ _ _ _ _).mpr (Or.inl hw))
    · exact Or.inr (List.mem_append_left _ hx)
  · exact hx

omit [DecidableEq V] in
theorem written_processToDo [DecidableEq V] {s : State V} (b : V) {x : V} (hx : written s x) :
    written (processToDo temp b s) x := by
  unfold processToDo
  split_ifs
  · exact (written_snoc _ _ _ _ _).mpr (Or.inl hx)
  · exact hx

theorem settled_processToDo_self {s : State V} (hs : Inv mapping temp s) {b : V}
    (hb : b ∈ mapping.map Prod.fst) : settled (processToDo temp b s) b := by
  unfold processToDo
  split_ifs with hhome
  · exact Or.inr (by simp)
  · exact (hs.settled_or_home b hb).resolve_right hhome

theorem exec_processToDo {β : Type} (σ : V → β) (s : State V) (b : V) {x : V} (hx : ∀ b', x ≠ temp b') :
    exec (processToDo temp b s).moves σ x = exec s.moves σ x := by
  unfold processToDo
  split_ifs
  · rw [exec_append_singleton, Function.update_of_ne (hx b)]
  · rfl

theorem run_append_singleton (fuel : ℕ) (L : List V) (b : V) (s : State V) :
    run mapping fuel temp (L ++ [b]) s =
      (run mapping fuel temp L s).bind fun s => (drain mapping fuel s).map (processToDo temp b) := by
  induction L generalizing s with
  | nil => simp [run, Option.map_eq_bind]
  | cons a L ih => simp only [List.cons_append, run, ih, Option.bind_assoc]

variable (htemp : ∀ b, temp b ∉ mapping.map Prod.fst ∧ temp b ∉ mapping.map Prod.snd)
include htemp

variable (mapping temp) in
/-- A property of states that `process-ready` keeps. -/
def ReadyStable (P : State V → Prop) : Prop :=
  ∀ s b rest a c, Inv mapping temp s → P s → s.ready = b :: rest → preds mapping b = some a →
    s.locs a = some c → P ⟨Function.update s.locs a (some b),
      if a = c ∧ (preds mapping a).isSome then rest ++ [a] else rest, s.moves ++ [(b, c)]⟩

variable (mapping temp) in
/-- A property of states that `process-to-do` keeps once nothing is ready. -/
def ToDoStable (P : State V → Prop) : Prop :=
  ∀ s b, Inv mapping temp s → P s → s.ready = [] → b ∈ mapping.map Prod.fst → P (processToDo temp b s)

variable (mapping) in
/-- The moves so far agree with every initial store. -/
def AgreesAll (s : State V) : Prop := ∀ {β : Type} (σ : V → β), Agrees mapping σ s

theorem drain_spec (P : State V → Prop) (hP : ReadyStable mapping temp P) :
    ∀ (fuel : ℕ) (s : State V), Inv mapping temp s → P s → potential mapping s ≤ fuel →
      ∃ s', drain mapping fuel s = some s' ∧ Inv mapping temp s' ∧ P s' ∧ s'.ready = [] ∧
        ∀ x, settled s x → settled s' x
  | 0, s, hs, hPs, hpot => by
    have hready : s.ready = [] := List.eq_nil_of_length_eq_zero (by rw [potential] at hpot; omega)
    exact ⟨s, by simp [drain, hready], hs, hPs, hready, fun _ => id⟩
  | fuel + 1, s, hs, hPs, hpot => by
    cases hready : s.ready with
    | nil => exact ⟨s, by simp [drain, hready], hs, hPs, hready, fun _ => id⟩
    | cons b rest =>
      have hb : b ∈ s.ready := hready ▸ List.mem_cons_self
      obtain ⟨a, ha⟩ := Option.isSome_iff_exists.mp ((isSome_preds_iff b).mpr (hs.ready_dest b hb))
      obtain ⟨c, hc⟩ := Option.isSome_iff_exists.mp ((hs.locs_isSome a).mpr (mem_srcs_of_preds ha))
      have hstep : drain mapping (fuel + 1) s = drain mapping fuel ⟨Function.update s.locs a (some b),
          if a = c ∧ (preds mapping a).isSome then rest ++ [a] else rest, s.moves ++ [(b, c)]⟩ := by
        simp only [drain, hready]
        rw [processReady_eq mapping (s := { s with ready := rest }) ha hc]
        rfl
      obtain ⟨s', hdrain, hs', hPs', hready', hmono⟩ :=
        drain_spec P hP fuel _ (hs.processReady (fun b => (htemp b).1) hready ha hc)
          (hP s b rest a c hs hPs hready ha hc) (by have := potential_processReady hs hready hc; omega)
      refine ⟨s', hstep ▸ hdrain, hs', hPs', hready', fun x hx => hmono x ?_⟩
      exact settled_processReady hready _ (fun y hy => by split_ifs <;> simp [hy]) c hx

omit htemp in
theorem readyStable_agreesAll (htemp : ∀ b, temp b ∉ mapping.map Prod.fst) :
    ReadyStable mapping temp (AgreesAll mapping) :=
  fun _ _ _ _ _ hs hag hready ha hc _ σ => (hag σ).processReady hs htemp hready ha hc

theorem run_spec (P : State V → Prop) (hP : ReadyStable mapping temp P) (hQ : ToDoStable mapping temp P)
    {fuel : ℕ} (hfuel : 3 * mapping.length ≤ fuel) :
    ∀ (toDo : List V) (s : State V), Inv mapping temp s → P s → (∀ b ∈ toDo, b ∈ mapping.map Prod.fst) →
      ∃ s', run mapping fuel temp toDo s = some s' ∧ Inv mapping temp s' ∧ P s' ∧
        (∀ b ∈ toDo, settled s' b) ∧ ∀ x, settled s x → settled s' x
  | [], s, hs, hPs, _ => ⟨s, rfl, hs, hPs, by simp, fun _ => id⟩
  | b :: toDo, s, hs, hPs, htoDo => by
    have hb := htoDo b List.mem_cons_self
    obtain ⟨s₁, hdrain, hs₁, hPs₁, hready₁, hmono₁⟩ :=
      drain_spec htemp P hP fuel s hs hPs ((potential_le hs).trans hfuel)
    obtain ⟨s', hrun, hs', hPs', hsettled', hmono'⟩ :=
      run_spec P hP hQ hfuel toDo (processToDo temp b s₁) (hs₁.processToDo htemp hready₁ hb)
        (hQ s₁ b hs₁ hPs₁ hready₁ hb) fun x hx => htoDo x (List.mem_cons_of_mem b hx)
    refine ⟨s', by simp only [run, hdrain, Option.bind_some, hrun], hs', hPs', ?_,
      fun x hx => hmono' x (settled_processToDo b (hmono₁ x hx))⟩
    intro x hx
    rcases List.mem_cons.mp hx with rfl | hx
    · exact hmono' x (settled_processToDo_self hs₁ hb)
    · exact hsettled' x hx

variable (hnodup : (mapping.map Prod.fst).Nodup)
include hnodup

theorem toDoStable_agreesAll : ToDoStable mapping temp (AgreesAll mapping) :=
  fun _ _ hs hag hready hb _ σ => (hag σ).processToDo hnodup htemp hs hready hb

theorem parallelMapping_final (P : State V → Prop) (hP : ReadyStable mapping temp P)
    (hQ : ToDoStable mapping temp P) (hP₀ : P (init mapping)) {fuel : ℕ} (hfuel : 3 * mapping.length ≤ fuel) :
    ∃ s, parallelMapping mapping fuel temp = some s.moves ∧ Inv mapping temp s ∧ P s ∧
      ∀ d ∈ mapping.map Prod.fst, written s d ∨ preds mapping d = some d := by
  have hs₀ := inv_init mapping temp hnodup
  rcases List.eq_nil_or_concat (mapping.map Prod.fst).reverse with hnil | ⟨L, bn, hL⟩
  · -- no destinations, no moves
    refine ⟨init mapping, ?_, hs₀, hP₀, fun d hd => absurd (List.mem_reverse.mpr hd) (by simp [hnil])⟩
    rw [parallelMapping, hnil]
    rfl
  rw [List.concat_eq_append] at hL
  have hkeys : ∀ x, x ∈ mapping.map Prod.fst ↔ x ∈ L ∨ x = bn := by
    intro x
    rw [← List.mem_reverse, hL, List.mem_append, List.mem_singleton]
  obtain ⟨s₁, hrun, hs₁, hPs₁, hsettled₁, -⟩ :=
    run_spec htemp P hP hQ hfuel L (init mapping) hs₀ hP₀ fun x hx => (hkeys x).mpr (Or.inl hx)
  obtain ⟨s₂, hdrain, hs₂, hPs₂, hready₂, hmono₂⟩ :=
    drain_spec htemp P hP fuel s₁ hs₁ hPs₁ ((potential_le hs₁).trans hfuel)
  have hbn := (hkeys bn).mpr (Or.inr rfl)
  have hwritten : ∀ x, settled s₂ x → written s₂ x := fun x hx => by simpa [settled, hready₂] using hx
  refine ⟨processToDo temp bn s₂, ?_, hs₂.processToDo htemp hready₂ hbn, hQ s₂ bn hs₂ hPs₂ hready₂ hbn, ?_⟩
  · rw [parallelMapping, ← List.reverse_reverse (mapping.map Prod.fst), hL, List.reverse_reverse,
      run_append_singleton, hrun, Option.bind_some, hdrain]
    rfl
  intro d hd
  have hcomplete : written s₂ d ∨ preds mapping d = some d := by
    rcases (hkeys d).mp hd with hdL | rfl
    · exact Or.inl (hwritten d (hmono₂ d (hsettled₁ d hdL)))
    · by_cases hw : written s₂ d
      · exact Or.inl hw
      · right
        have hhome := (hs₂.settled_or_home d hd).resolve_left fun h => hw (hwritten d h)
        obtain ⟨c, hcd⟩ := exists_preds_of_mem_srcs hnodup ((hs₂.locs_isSome d).mp (by rw [hhome]; rfl))
        rcases (hkeys c).mp (mem_dests_of_preds hcd) with hcL | rfl
        · exact absurd (hwritten d (hs₂.settled_of_written c d
            (hwritten c (hmono₂ c (hsettled₁ c hcL))) hcd hd)) hw
        · exact hcd
  exact hcomplete.imp (written_processToDo bn) id

theorem parallelMapping_spec {fuel : ℕ} (hfuel : 3 * mapping.length ≤ fuel) :
    ∃ moves, parallelMapping mapping fuel temp = some moves ∧ ∀ {β : Type} (σ : V → β),
      (∀ d a, (d, a) ∈ mapping → exec moves σ d = σ a) ∧
      ∀ x, x ∉ mapping.map Prod.fst → (∀ b, x ≠ temp b) → exec moves σ x = σ x := by
  obtain ⟨s, hresult, hs, hag, hcomplete⟩ :=
    parallelMapping_final htemp hnodup (AgreesAll mapping) (readyStable_agreesAll fun b => (htemp b).1)
      (toDoStable_agreesAll htemp hnodup) (fun σ => agrees_init mapping σ) hfuel
  refine ⟨s.moves, hresult, fun σ => ⟨fun d a hda => ?_, fun x hx hxt => ?_⟩⟩
  · have hpd : preds mapping d = some a := (lookup_eq_some_iff_mem hnodup d a).mpr hda
    by_cases hw : written s d
    · exact (hag σ).done d a hw hpd
    · -- a destination left unwritten is its own source
      have hself := (hcomplete d (mem_dests_of_preds hpd)).resolve_left hw
      rw [hpd] at hself
      cases hself
      exact exec_of_not_mem _ _ hw
  · refine exec_of_not_mem _ _ fun hmem => ?_
    rcases hs.moves_dest x hmem with hx' | ⟨b, hb⟩
    · exact hx hx'
    · exact hxt b hb

end FactorProofs.Compiler.ParallelCopy

