import FactorProofs.Library.Containers
import FactorProofs.Library.Moves
import FactorProofs.Library.FunctionalGraph

namespace FactorProofs.Compiler.ParallelCopy

open FactorProofs.Moves FactorProofs.FunctionalGraph FactorProofs.Containers

/-! `parallel-mapping` of `compiler.cfg.parallel-copy`: a parallel copy, given
as a mapping from destinations to sources, as a sequence of moves in which
every destination is written only once no move still has to read its old
value, each cycle being broken through a temporary. -/

variable {V : Type} [DecidableEq V]

/-- The variables of `parallel-mapping`. `ready` is pushed at the front and
popped at the back; here the back is the head. `moves` are the calls of
`quot ( dst src -- )`, in order. `preds` is the mapping itself, and `to-do`
the list the loop walks. -/
structure State (V : Type) where
  locs : V → Option V
  ready : List V
  moves : List (V × V)

variable (mapping : List (V × V))

/-- `preds get at` -/
def preds (b : V) : Option V := mapping.lookup b

/-- `init`: each source is where its value is, and the destinations that are
no source are ready. -/
def init : State V where
  locs a := if a ∈ mapping.map Prod.snd then some a else none
  ready := (mapping.map Prod.fst).filter fun b => b ∉ mapping.map Prod.snd
  moves := []

/-- `process-ready`: `b` receives its source's value from where that value
now is; the source is ready in turn when this was the first copy of its value
and it is a destination itself. `none` where `preds` or `locs` has no entry. -/
def processReady (b : V) (s : State V) : Option (State V) := do
  let a ← preds mapping b
  let c ← s.locs a
  pure { locs := Function.update s.locs a (some b)
         ready := if a = c ∧ (preds mapping a).isSome then s.ready ++ [a] else s.ready
         moves := s.moves ++ [(b, c)] }

/-- `process-to-do`: a destination whose value is still in place when nothing
is ready lies on a cycle; its value goes to `temp b`, and it is ready. -/
def processToDo (temp : V → V) (b : V) (s : State V) : State V :=
  if s.locs b = some b then
    { locs := Function.update s.locs b (some (temp b))
      ready := s.ready ++ [b]
      moves := s.moves ++ [(temp b, b)] }
  else s

/-- `ready get [ quot process-ready ] slurp-deque`, in at most `fuel` rounds. -/
def drain : ℕ → State V → Option (State V)
  | 0, s => if s.ready = [] then some s else none
  | fuel + 1, s =>
    match s.ready with
    | [] => some s
    | b :: rest => (processReady mapping b { s with ready := rest }).bind (drain fuel)

/-- The loop over `to-do`: empty `ready`, then `process-to-do`. -/
def run (fuel : ℕ) (temp : V → V) : List V → State V → Option (State V)
  | [], s => some s
  | b :: toDo, s => (drain mapping fuel s).bind fun s => run fuel temp toDo (processToDo temp b s)

/-- `parallel-mapping`: the calls of `quot`. `to-do` is filled at the back and
popped at the back, so the destinations are visited last first. -/
def parallelMapping (fuel : ℕ) (temp : V → V) : Option (List (V × V)) :=
  (run mapping fuel temp (mapping.map Prod.fst).reverse (init mapping)).map State.moves

/-- `parallel-copy`: one fresh register is the temporary of every cycle. -/
def parallelCopy (fuel : ℕ) (fresh : V) : Option (List (V × V)) :=
  parallelMapping mapping fuel fun _ => fresh

/-- A location some move has written. -/
def written (s : State V) (x : V) : Prop := x ∈ s.moves.map Prod.fst

/-- Written, or about to be. -/
def settled (s : State V) (x : V) : Prop := written s x ∨ x ∈ s.ready

section Mapping

variable {mapping}

theorem isSome_preds_iff (b : V) : (preds mapping b).isSome ↔ b ∈ mapping.map Prod.fst :=
  isSome_lookup_iff mapping b

theorem mem_dests_of_preds {b a : V} (h : preds mapping b = some a) : b ∈ mapping.map Prod.fst :=
  (isSome_preds_iff b).mp (by rw [h]; rfl)

theorem mem_srcs_of_preds {b a : V} (h : preds mapping b = some a) : a ∈ mapping.map Prod.snd := by
  obtain ⟨l₁, l₂, hl, -⟩ := List.lookup_eq_some_iff.mp h
  exact List.mem_map.mpr ⟨(b, a), by rw [hl]; simp, rfl⟩

theorem exists_preds_of_mem_srcs (hnodup : (mapping.map Prod.fst).Nodup) {a : V}
    (ha : a ∈ mapping.map Prod.snd) : ∃ d, preds mapping d = some a := by
  obtain ⟨⟨d, a'⟩, hmem, rfl⟩ := List.mem_map.mp ha
  exact ⟨d, (lookup_eq_some_iff_mem hnodup d a').mpr hmem⟩

end Mapping

theorem processReady_eq {b a c : V} {s : State V} (ha : preds mapping b = some a) (hc : s.locs a = some c) :
    processReady mapping b s = some ⟨Function.update s.locs a (some b),
      if a = c ∧ (preds mapping a).isSome then s.ready ++ [a] else s.ready, s.moves ++ [(b, c)]⟩ := by
  simp [processReady, ha, hc]

omit [DecidableEq V] in
theorem written_snoc {s : State V} (locs : V → Option V) (ready : List V) (d c x : V) :
    written ⟨locs, ready, s.moves ++ [(d, c)]⟩ x ↔ written s x ∨ x = d := by
  simp [written]

section Invariant

variable (temp : V → V)

/-- What holds between two calls of `process-ready` or `process-to-do`. -/
structure Inv (s : State V) : Prop where
  locs_isSome : ∀ a, (s.locs a).isSome ↔ a ∈ mapping.map Prod.snd
  ready_dest : ∀ b ∈ s.ready, b ∈ mapping.map Prod.fst
  ready_nodup : s.ready.Nodup
  ready_moved : ∀ b ∈ s.ready, s.locs b ≠ some b
  -- a source's value is at home, in a written destination it was copied to, or in a temporary
  locs_shape : ∀ a c, s.locs a = some c → c = a ∨ (preds mapping c = some a ∧ written s c) ∨ ∃ b, c = temp b
  moved_of_settled : ∀ a, preds mapping a ≠ some a → settled s a → s.locs a ≠ some a
  settled_or_home : ∀ d ∈ mapping.map Prod.fst, settled s d ∨ s.locs d = some d
  settled_of_moved : ∀ a ∈ mapping.map Prod.fst, a ∈ mapping.map Prod.snd → s.locs a ≠ some a → settled s a
  settled_of_written : ∀ c a, written s c → preds mapping c = some a → a ∈ mapping.map Prod.fst → settled s a
  ready_unwritten : ∀ b ∈ s.ready, ¬ written s b ∨ preds mapping b = some b
  moves_dest : ∀ d ∈ s.moves.map Prod.fst, d ∈ mapping.map Prod.fst ∨ ∃ b, d = temp b

theorem inv_init (hnodup : (mapping.map Prod.fst).Nodup) : Inv mapping temp (init mapping) := by
  have hlocs : ∀ a, (init mapping).locs a = if a ∈ mapping.map Prod.snd then some a else none := fun _ => rfl
  have hready : ∀ b, b ∈ (init mapping).ready ↔ b ∈ mapping.map Prod.fst ∧ b ∉ mapping.map Prod.snd := by
    intro b
    simp [init]
  have hunwritten : ∀ x, ¬ written (init mapping) x := fun x => by simp [written, init]
  constructor
  case locs_isSome =>
    intro a
    rw [hlocs]
    split_ifs with h <;> simp [h]
  case ready_dest => exact fun b hb => ((hready b).mp hb).1
  case ready_nodup => exact hnodup.filter _
  case ready_moved =>
    intro b hb
    rw [hlocs, if_neg ((hready b).mp hb).2]
    simp
  case locs_shape =>
    intro a c h
    rw [hlocs] at h
    split_ifs at h
    exact Or.inl (Option.some.inj h).symm
  case moved_of_settled =>
    rintro a - (hw | ha)
    · exact absurd hw (hunwritten a)
    · rw [hlocs, if_neg ((hready a).mp ha).2]
      simp
  case settled_or_home =>
    intro d hd
    by_cases hs : d ∈ mapping.map Prod.snd
    · exact Or.inr (by rw [hlocs, if_pos hs])
    · exact Or.inl (Or.inr ((hready d).mpr ⟨hd, hs⟩))
  case settled_of_moved =>
    intro a _ ha hmoved
    exact absurd (by rw [hlocs, if_pos ha]) hmoved
  case settled_of_written => exact fun c _ hw => absurd hw (hunwritten c)
  case ready_unwritten => exact fun b _ => Or.inl (hunwritten b)
  case moves_dest => simp [init]

variable {mapping temp}

omit [DecidableEq V] in
theorem settled_processReady {s : State V} {b : V} {rest : List V} (hready : s.ready = b :: rest)
    (locs : V → Option V) {ready : List V} (hrest : ∀ x ∈ rest, x ∈ ready) (c : V) {x : V}
    (hx : settled s x) : settled ⟨locs, ready, s.moves ++ [(b, c)]⟩ x := by
  rcases hx with hw | hx
  · exact Or.inl ((written_snoc _ _ _ _ _).mpr (Or.inl hw))
  · rw [hready] at hx
    rcases List.mem_cons.mp hx with rfl | hx
    · exact Or.inl ((written_snoc _ _ _ _ _).mpr (Or.inr rfl))
    · exact Or.inr (hrest x hx)

theorem Inv.processReady {s : State V} (hs : Inv mapping temp s)
    (htemp : ∀ b, temp b ∉ mapping.map Prod.fst) {b : V} {rest : List V} (hready : s.ready = b :: rest)
    {a c : V} (ha : preds mapping b = some a) (hc : s.locs a = some c) :
    Inv mapping temp ⟨Function.update s.locs a (some b),
      if a = c ∧ (preds mapping a).isSome then rest ++ [a] else rest, s.moves ++ [(b, c)]⟩ := by
  have hb : b ∈ s.ready := hready ▸ List.mem_cons_self
  have hrest : ∀ x ∈ rest, x ∈ s.ready := fun x hx => hready ▸ List.mem_cons_of_mem _ hx
  have hnodup := hready ▸ hs.ready_nodup
  have hbrest : b ∉ rest := (List.nodup_cons.mp hnodup).1
  have hbd := hs.ready_dest b hb
  have has := mem_srcs_of_preds ha
  have hmem : ∀ x, x ∈ (if a = c ∧ (preds mapping a).isSome then rest ++ [a] else rest) ↔
      x ∈ rest ∨ ((a = c ∧ (preds mapping a).isSome) ∧ x = a) := by
    intro x
    split_ifs with h
    · rw [List.mem_append, List.mem_singleton]
      exact ⟨fun hx => hx.imp id fun hx => ⟨h, hx⟩, fun hx => hx.imp id And.right⟩
    · exact ⟨Or.inl, fun hx => hx.elim id fun hx => absurd hx.1 h⟩
  have hpushed : a = c → a ∉ s.ready := fun hac ha' => hs.ready_moved a ha' (hac ▸ hc)
  have hne_b : ∀ x, x ∈ (if a = c ∧ (preds mapping a).isSome then rest ++ [a] else rest) → x ≠ b := by
    intro x hx
    rcases (hmem x).mp hx with hx | ⟨hP, rfl⟩
    · exact fun h => hbrest (h ▸ hx)
    · exact fun h => hpushed hP.1 (h ▸ hb)
  have hsettled : ∀ x, settled s x →
      settled ⟨Function.update s.locs a (some b),
        if a = c ∧ (preds mapping a).isSome then rest ++ [a] else rest, s.moves ++ [(b, c)]⟩ x :=
    fun x => settled_processReady hready _ (fun y hy => (hmem y).mpr (Or.inl hy)) c
  have hsettled_a : a ∈ mapping.map Prod.fst →
      settled ⟨Function.update s.locs a (some b),
        if a = c ∧ (preds mapping a).isSome then rest ++ [a] else rest, s.moves ++ [(b, c)]⟩ a := by
    intro had
    by_cases hP : a = c ∧ (preds mapping a).isSome
    · exact Or.inr ((hmem a).mpr (Or.inr ⟨hP, rfl⟩))
    · have hac : a ≠ c := fun h => hP ⟨h, (isSome_preds_iff a).mpr had⟩
      exact hsettled a (hs.settled_of_moved a had has (by rw [hc]; exact fun h => hac (Option.some.inj h).symm))
  constructor <;> try dsimp only
  case locs_isSome =>
    intro x
    by_cases hx : x = a
    · subst hx
      simp [has]
    · rw [Function.update_of_ne hx]
      exact hs.locs_isSome x
  case ready_dest =>
    intro x hx
    rcases (hmem x).mp hx with hx | ⟨hP, rfl⟩
    · exact hs.ready_dest x (hrest x hx)
    · exact (isSome_preds_iff x).mp hP.2
  case ready_nodup =>
    have hrest_nodup := (List.nodup_cons.mp hnodup).2
    split_ifs with hP
    · exact List.nodup_append.mpr ⟨hrest_nodup, List.nodup_singleton a,
        fun x hx y hy => by
          rw [List.mem_singleton] at hy
          exact fun hxy => hpushed hP.1 (hrest a (by rw [← hy, ← hxy]; exact hx))⟩
    · exact hrest_nodup
  case ready_moved =>
    intro x hx
    by_cases hxa : x = a
    · subst hxa
      rw [Function.update_self]
      exact fun h => hne_b x hx (Option.some.inj h).symm
    · rw [Function.update_of_ne hxa]
      rcases (hmem x).mp hx with hx | ⟨-, rfl⟩
      · exact hs.ready_moved x (hrest x hx)
      · exact absurd rfl hxa
  case locs_shape =>
    intro x y hxy
    by_cases hxa : x = a
    · subst hxa
      rw [Function.update_self] at hxy
      cases hxy
      exact Or.inr (Or.inl ⟨ha, (written_snoc _ _ _ _ _).mpr (Or.inr rfl)⟩)
    · rw [Function.update_of_ne hxa] at hxy
      rcases hs.locs_shape x y hxy with h | ⟨hp, hw⟩ | h
      · exact Or.inl h
      · exact Or.inr (Or.inl ⟨hp, (written_snoc _ _ _ _ _).mpr (Or.inl hw)⟩)
      · exact Or.inr (Or.inr h)
  case moved_of_settled =>
    intro x hxp hx
    by_cases hxa : x = a
    · subst hxa
      rw [Function.update_self]
      exact fun h => hxp (Option.some.inj h ▸ ha)
    · rw [Function.update_of_ne hxa]
      rcases hx with hw | hx
      · rcases (written_snoc _ _ _ _ _).mp hw with hw | rfl
        · exact hs.moved_of_settled x hxp (Or.inl hw)
        · exact hs.ready_moved x hb
      · rcases (hmem x).mp hx with hx | ⟨-, rfl⟩
        · exact hs.moved_of_settled x hxp (Or.inr (hrest x hx))
        · exact absurd rfl hxa
  case settled_or_home =>
    intro d hd
    by_cases hda : d = a
    · subst hda
      exact Or.inl (hsettled_a hd)
    · rw [Function.update_of_ne hda]
      exact (hs.settled_or_home d hd).imp (hsettled d) id
  case settled_of_moved =>
    intro x hxd hxs hmoved
    by_cases hxa : x = a
    · subst hxa
      exact hsettled_a hxd
    · rw [Function.update_of_ne hxa] at hmoved
      exact hsettled x (hs.settled_of_moved x hxd hxs hmoved)
  case settled_of_written =>
    intro x y hw hxy hyd
    rcases (written_snoc _ _ _ _ _).mp hw with hw | rfl
    · exact hsettled y (hs.settled_of_written x y hw hxy hyd)
    · rw [ha] at hxy
      cases hxy
      exact hsettled_a hyd
  case ready_unwritten =>
    intro x hx
    have hxb := hne_b x hx
    rcases (hmem x).mp hx with hx | ⟨hP, rfl⟩
    · refine (hs.ready_unwritten x (hrest x hx)).imp (fun hw hw' => ?_) id
      rcases (written_snoc _ _ _ _ _).mp hw' with hw' | hw'
      · exact hw hw'
      · exact hxb hw'
    · by_cases hself : preds mapping x = some x
      · exact Or.inr hself
      · -- the value of `x` was at home, so nothing was ever copied into `x`
        have hnot := mt (hs.moved_of_settled x hself) (not_not.mpr (hP.1 ▸ hc))
        refine Or.inl fun hw' => ?_
        rcases (written_snoc _ _ _ _ _).mp hw' with hw' | hw'
        · exact hnot (Or.inl hw')
        · exact hxb hw'
  case moves_dest =>
    intro d hd
    rw [List.map_append, List.mem_append] at hd
    rcases hd with hd | hd
    · exact hs.moves_dest d hd
    · rw [List.map_singleton, List.mem_singleton] at hd
      exact Or.inl (hd ▸ hbd)

theorem Inv.exists_unwritten_child (hnodup : (mapping.map Prod.fst).Nodup) {s : State V}
    (hs : Inv mapping temp s) (hready : s.ready = []) {u : V} (hud : u ∈ mapping.map Prod.fst)
    (huw : ¬ written s u) : ∃ c, preds mapping c = some u ∧ ¬ written s c := by
  have hsettled : ∀ x, settled s x ↔ written s x := fun x => by simp [settled, hready]
  have hhome : s.locs u = some u :=
    (hs.settled_or_home u hud).resolve_left fun h => huw ((hsettled u).mp h)
  obtain ⟨c, hcu⟩ := exists_preds_of_mem_srcs hnodup ((hs.locs_isSome u).mp (by rw [hhome]; rfl))
  exact ⟨c, hcu, fun hw => huw ((hsettled u).mp (hs.settled_of_written c u hw hcu hud))⟩

theorem Inv.closure (hnodup : (mapping.map Prod.fst).Nodup) {s : State V} (hs : Inv mapping temp s)
    (hready : s.ready = []) {d a : V} (hda : preds mapping d = some a) (hd : ¬ written s d) :
    a ∈ mapping.map Prod.fst ∧ ¬ written s a := by
  classical
  let U := (mapping.map Prod.fst).toFinset.filter fun x => ¬ written s x
  have hU : ∀ x, x ∈ U ↔ x ∈ mapping.map Prod.fst ∧ ¬ written s x := fun x => by simp [U]
  have himage : U ⊆ U.image (step (preds mapping)) := by
    intro u hu
    obtain ⟨hud, huw⟩ := (hU u).mp hu
    obtain ⟨c, hcu, hcw⟩ := hs.exists_unwritten_child hnodup hready hud huw
    refine Finset.mem_image.mpr ⟨c, (hU c).mpr ⟨mem_dests_of_preds hcu, hcw⟩, ?_⟩
    rw [step, hcu, Option.getD_some]
  have hmaps := (mapsTo_injOn_of_subset_image himage).1 d ((hU d).mpr ⟨mem_dests_of_preds hda, hd⟩)
  rw [step, hda, Option.getD_some] at hmaps
  exact (hU a).mp hmaps

theorem Inv.unwritten_iterate (hnodup : (mapping.map Prod.fst).Nodup) {s : State V} (hs : Inv mapping temp s)
    (hready : s.ready = []) {b : V} (hb : b ∈ mapping.map Prod.fst) (hbw : ¬ written s b) (k : ℕ) :
    (step (preds mapping))^[k] b ∈ mapping.map Prod.fst ∧ ¬ written s ((step (preds mapping))^[k] b) := by
  induction k with
  | zero => exact ⟨hb, hbw⟩
  | succ k ih =>
    obtain ⟨a, ha⟩ := Option.isSome_iff_exists.mp ((isSome_preds_iff _).mpr ih.1)
    rw [Function.iterate_succ_apply', step, ha, Option.getD_some]
    exact hs.closure hnodup hready ha ih.2

theorem Inv.processToDo (htemp : ∀ b, temp b ∉ mapping.map Prod.fst ∧ temp b ∉ mapping.map Prod.snd)
    {s : State V} (hs : Inv mapping temp s) (hready : s.ready = []) {b : V} (hb : b ∈ mapping.map Prod.fst) :
    Inv mapping temp (processToDo temp b s) := by
  unfold ParallelCopy.processToDo
  split_ifs with hhome
  swap
  · exact hs
  have hbs : b ∈ mapping.map Prod.snd := (hs.locs_isSome b).mp (by rw [hhome]; rfl)
  have htb : temp b ≠ b := fun h => (htemp b).1 (by rw [h]; exact hb)
  have hsettled : ∀ x, settled s x ↔ written s x := fun x => by simp [settled, hready]
  have hunwritten : preds mapping b ≠ some b → ¬ written s b := fun hself hw =>
    hs.moved_of_settled b hself (Or.inl hw) hhome
  have hmono : ∀ x, settled s x →
      settled ⟨Function.update s.locs b (some (temp b)), s.ready ++ [b], s.moves ++ [(temp b, b)]⟩ x :=
    fun x hx => Or.inl ((written_snoc _ _ _ _ _).mpr (Or.inl ((hsettled x).mp hx)))
  have hb_settled : settled ⟨Function.update s.locs b (some (temp b)), s.ready ++ [b],
      s.moves ++ [(temp b, b)]⟩ b := Or.inr (by simp)
  constructor <;> try dsimp only
  case locs_isSome =>
    intro x
    by_cases hxb : x = b
    · subst hxb
      simp [hbs]
    · rw [Function.update_of_ne hxb]
      exact hs.locs_isSome x
  case ready_dest =>
    intro x hx
    rw [hready, List.nil_append, List.mem_singleton] at hx
    exact hx ▸ hb
  case ready_nodup =>
    rw [hready]
    exact List.nodup_singleton b
  case ready_moved =>
    intro x hx
    rw [hready, List.nil_append, List.mem_singleton] at hx
    subst hx
    rw [Function.update_self]
    exact fun h => htb (Option.some.inj h)
  case locs_shape =>
    intro x y hxy
    by_cases hxb : x = b
    · subst hxb
      rw [Function.update_self] at hxy
      exact Or.inr (Or.inr ⟨x, (Option.some.inj hxy).symm⟩)
    · rw [Function.update_of_ne hxb] at hxy
      rcases hs.locs_shape x y hxy with h | ⟨hp, hw⟩ | h
      · exact Or.inl h
      · exact Or.inr (Or.inl ⟨hp, (written_snoc _ _ _ _ _).mpr (Or.inl hw)⟩)
      · exact Or.inr (Or.inr h)
  case moved_of_settled =>
    intro x hxp hx
    by_cases hxb : x = b
    · subst hxb
      rw [Function.update_self]
      exact fun h => htb (Option.some.inj h)
    · rw [Function.update_of_ne hxb]
      rcases hx with hw | hx
      · rcases (written_snoc _ _ _ _ _).mp hw with hw | rfl
        · exact hs.moved_of_settled x hxp (Or.inl hw)
        · -- a temporary is no source, so `locs` has no entry for it
          have hnone : s.locs (temp b) = none :=
            Option.not_isSome_iff_eq_none.mp fun h => (htemp b).2 ((hs.locs_isSome _).mp h)
          rw [hnone]
          exact (Option.some_ne_none _).symm
      · rw [hready, List.nil_append, List.mem_singleton] at hx
        exact absurd hx hxb
  case settled_or_home =>
    intro d hd
    by_cases hdb : d = b
    · exact Or.inl (hdb ▸ hb_settled)
    · rw [Function.update_of_ne hdb]
      exact (hs.settled_or_home d hd).imp (hmono d) id
  case settled_of_moved =>
    intro x hxd hxs hmoved
    by_cases hxb : x = b
    · exact hxb ▸ hb_settled
    · rw [Function.update_of_ne hxb] at hmoved
      exact hmono x (hs.settled_of_moved x hxd hxs hmoved)
  case settled_of_written =>
    intro x y hw hxy hyd
    rcases (written_snoc _ _ _ _ _).mp hw with hw | rfl
    · exact hmono y (hs.settled_of_written x y hw hxy hyd)
    · exact absurd (mem_dests_of_preds hxy) (htemp b).1
  case ready_unwritten =>
    intro x hx
    rw [hready, List.nil_append, List.mem_singleton] at hx
    subst hx
    by_cases hself : preds mapping x = some x
    · exact Or.inr hself
    · refine Or.inl fun hw => ?_
      rcases (written_snoc _ _ _ _ _).mp hw with hw | hw
      · exact hunwritten hself hw
      · exact htb hw.symm
  case moves_dest =>
    intro d hd
    rw [List.map_append, List.mem_append] at hd
    rcases hd with hd | hd
    · exact hs.moves_dest d hd
    · rw [List.map_singleton, List.mem_singleton] at hd
      exact Or.inr ⟨b, hd⟩

end Invariant

section Values

variable {β : Type} (σ : V → β)

/-- A source whose value some destination has yet to receive. -/
def Needed (s : State V) (a : V) : Prop := ∃ d, preds mapping d = some a ∧ (¬ written s d ∨ d ∈ s.ready)

/-- What the moves so far have done to a store `σ`: each written destination
holds its source's first value, and `locs` knows where the first value of
each source still needed is. -/
structure Agrees (s : State V) : Prop where
  done : ∀ d a, written s d → preds mapping d = some a → exec s.moves σ d = σ a
  needed : ∀ a c, s.locs a = some c → Needed mapping s a → exec s.moves σ c = σ a

theorem agrees_init : Agrees mapping σ (init mapping) := by
  constructor
  · intro d a hw
    simp [written, init] at hw
  · intro a c hac _
    have hca : c = a := by
      simp only [init] at hac
      split_ifs at hac
      exact (Option.some.inj hac).symm
    rw [hca]
    rfl

variable {mapping σ} {temp : V → V}

theorem Agrees.processReady {s : State V} (hs : Inv mapping temp s) (hag : Agrees mapping σ s)
    (htemp : ∀ b, temp b ∉ mapping.map Prod.fst) {b : V} {rest : List V} (hready : s.ready = b :: rest)
    {a c : V} (ha : preds mapping b = some a) (hc : s.locs a = some c) :
    Agrees mapping σ ⟨Function.update s.locs a (some b),
      if a = c ∧ (preds mapping a).isSome then rest ++ [a] else rest, s.moves ++ [(b, c)]⟩ := by
  have hb : b ∈ s.ready := hready ▸ List.mem_cons_self
  have hvalue : exec s.moves σ c = σ a := hag.needed a c hc ⟨b, ha, Or.inr hb⟩
  constructor <;> dsimp only <;> rw [exec_append_singleton]
  · intro d x hw hdx
    by_cases hdb : d = b
    · subst hdb
      rw [ha] at hdx
      cases hdx
      rw [Function.update_self, hvalue]
    · rcases (written_snoc _ _ _ _ _).mp hw with hw | hw
      · rw [Function.update_of_ne hdb, hag.done d x hw hdx]
      · exact absurd hw hdb
  · intro x y hxy hneed
    by_cases hxa : x = a
    · subst hxa
      rw [Function.update_self] at hxy
      cases hxy
      rw [Function.update_self, hvalue]
    · rw [Function.update_of_ne hxa] at hxy
      have hneed' : Needed mapping s x := by
        obtain ⟨d, hdx, hd⟩ := hneed
        rcases hd with hnw | hd
        · exact ⟨d, hdx, Or.inl fun hw => hnw ((written_snoc _ _ _ _ _).mpr (Or.inl hw))⟩
        · split_ifs at hd with hP
          · rcases List.mem_append.mp hd with hd | hd
            · exact ⟨d, hdx, Or.inr (hready ▸ List.mem_cons_of_mem _ hd)⟩
            · rw [List.mem_singleton] at hd
              subst hd
              have hnot := mt (hs.moved_of_settled d (fun h => hxa (by rw [hdx] at h; exact Option.some.inj h)))
                (not_not.mpr (hP.1 ▸ hc))
              exact ⟨d, hdx, Or.inl fun hw => hnot (Or.inl hw)⟩
          · exact ⟨d, hdx, Or.inr (hready ▸ List.mem_cons_of_mem _ hd)⟩
      have hyb : y ≠ b := by
        rintro rfl
        rcases hs.locs_shape x y hxy with h | ⟨hp, -⟩ | ⟨t, ht⟩
        · exact hs.ready_moved y hb (h ▸ hxy)
        · rw [ha] at hp
          exact hxa (Option.some.inj hp).symm
        · exact htemp t (ht ▸ hs.ready_dest y hb)
      rw [Function.update_of_ne hyb, hag.needed x y hxy hneed']

theorem Agrees.processToDo (hnodup : (mapping.map Prod.fst).Nodup)
    (htemp : ∀ b, temp b ∉ mapping.map Prod.fst ∧ temp b ∉ mapping.map Prod.snd) {s : State V}
    (hs : Inv mapping temp s) (hag : Agrees mapping σ s) (hready : s.ready = []) {b : V}
    (hb : b ∈ mapping.map Prod.fst) : Agrees mapping σ (processToDo temp b s) := by
  unfold ParallelCopy.processToDo
  split_ifs with hhome
  swap
  · exact hag
  have hunwritten : preds mapping b ≠ some b → ¬ written s b := fun hself hw =>
    hs.moved_of_settled b hself (Or.inl hw) hhome
  have hne_temp : ∀ x ∈ mapping.map Prod.fst, x ≠ temp b := fun x hx h => (htemp b).1 (h ▸ hx)
  constructor <;> dsimp only <;> rw [exec_append_singleton]
  · intro d x hw hdx
    have hdt := hne_temp d (mem_dests_of_preds hdx)
    rcases (written_snoc _ _ _ _ _).mp hw with hw | hw
    · rw [Function.update_of_ne hdt, hag.done d x hw hdx]
    · exact absurd hw hdt
  · intro x y hxy hneed
    by_cases hxb : x = b
    · subst hxb
      rw [Function.update_self] at hxy
      cases hxy
      rw [Function.update_self]
      by_cases hw : written s x
      · have hself : preds mapping x = some x := by
          by_contra h
          exact hunwritten h hw
        exact hag.done x x hw hself
      · exact exec_of_not_mem _ _ hw
    · rw [Function.update_of_ne hxb] at hxy
      obtain ⟨d, hdx, hd⟩ := hneed
      have hdw : ¬ written s d := by
        rcases hd with hnw | hd
        · exact fun hw => hnw ((written_snoc _ _ _ _ _).mpr (Or.inl hw))
        · rw [hready, List.nil_append, List.mem_singleton] at hd
          rw [hd] at hdx ⊢
          exact hunwritten fun h => hxb (by rw [hdx] at h; exact Option.some.inj h)
      obtain ⟨hxd, hxw⟩ := hs.closure hnodup hready hdx hdw
      have hhome' : s.locs x = some x :=
        (hs.settled_or_home x hxd).resolve_left fun h => hxw (by simpa [settled, hready] using h)
      rw [hhome'] at hxy
      cases hxy
      rw [Function.update_of_ne (hne_temp _ hxd), hag.needed _ _ hhome' ⟨d, hdx, Or.inl hdw⟩]

end Values

end FactorProofs.Compiler.ParallelCopy
