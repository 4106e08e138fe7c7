import FactorProofs.Compiler.Dominance
import FactorProofs.Library.RankedTree

namespace FactorProofs.Compiler.Dominance

open FactorProofs.Dominators FactorProofs.RankedTree FactorProofs.Containers

/-! The iteration of `compute-dom-parents`. Over the reverse post-order the
entries of `dom-parents` form a tree ranked by the position in that order, and
`intersect` of two blocks of the tree is their nearest common ancestor. Pass
`k` leaves each chain of the tree inside the blocks that dominate it over the
walks with at most `k` retreating edges (`DomWithin`), while every dominator
stays on the chain. On a finite graph `DomWithin` reaches dominance, so after
enough passes the tree is the dominator tree, and the next pass changes
nothing and ends the loop. -/

variable {V : Type} [DecidableEq V]

section Intersect

variable {cfg : Cfg V} {rpo : List V} {number : V → Option ℕ} {domParents : V → Option V}

/-- The tree of `dom-parents` as the iteration keeps it: ranked by the
position in the reverse post-order, with the entry as root, over blocks of
the order. -/
structure TreeOver (cfg : Cfg V) (rpo : List V) (domParents : V → Option V) : Prop where
  ranked : Ranked domParents rpo.idxOf cfg.entry
  mem : ∀ x, (domParents x).isSome → x ∈ rpo

variable (hN : Numbered cfg rpo number) (hT : TreeOver cfg rpo domParents)
include hN hT

omit hN in
theorem anc_parent_iff {f1 f2 w z : V} (hw : domParents f2 = some w)
    (hlt : rpo.idxOf f1 < rpo.idxOf f2) :
    (Anc domParents f1 z ∧ Anc domParents w z) ↔ (Anc domParents f1 z ∧ Anc domParents f2 z) := by
  constructor
  · rintro ⟨h1, h2⟩
    exact ⟨h1, .up hw h2⟩
  · rintro ⟨h1, h2⟩
    have hne : f2 ≠ z := by
      rintro rfl
      have := h1.rank_le hT.ranked
      omega
    obtain ⟨w', hw', hz⟩ := h2.exists_parent hne
    rw [hw] at hw'
    cases hw'
    exact ⟨h1, hz⟩

theorem intersect_spec : ∀ fuel f1 f2, (domParents f1).isSome → (domParents f2).isSome →
    rpo.idxOf f1 + rpo.idxOf f2 < fuel →
    ∃ m, intersect number domParents fuel f1 f2 = some m ∧ (domParents m).isSome ∧
      ∀ z, Anc domParents m z ↔ Anc domParents f1 z ∧ Anc domParents f2 z := by
  intro fuel
  induction fuel with
  | zero => intro _ _ _ _ h; omega
  | succ fuel ih =>
    intro f1 f2 h1 h2 hfuel
    have hm1 := hT.mem f1 h1
    have hm2 := hT.mem f2 h2
    rw [intersect, hN.number_of_mem hm1, hN.number_of_mem hm2]
    simp only [Option.bind_eq_bind, Option.bind_some]
    rcases lt_trichotomy (rpo.idxOf f1) (rpo.idxOf f2) with hlt | heq | hgt
    · -- the second finger climbs
      rw [Nat.compare_eq_lt.mpr hlt]
      obtain ⟨w, hw⟩ := Option.isSome_iff_exists.mp h2
      have hf2 : f2 ≠ cfg.entry := by
        rintro rfl
        rw [hN.idxOf_entry] at hlt
        omega
      have hrank := hT.ranked.rank_lt f2 w hw hf2
      obtain ⟨m, hm, hms, hanc⟩ := ih f1 w h1 (hT.ranked.closed f2 w hw) (by omega)
      refine ⟨m, by rw [hw, Option.bind_some]; exact hm, hms, fun z => ?_⟩
      rw [hanc z]
      exact anc_parent_iff hT hw hlt
    · -- the fingers meet
      rw [Nat.compare_eq_eq.mpr heq]
      have hf : f1 = f2 := (List.idxOf_inj hm1).mp heq
      subst hf
      exact ⟨f1, rfl, h1, fun z => (and_self_iff).symm⟩
    · -- the first finger climbs
      rw [Nat.compare_eq_gt.mpr hgt]
      obtain ⟨w, hw⟩ := Option.isSome_iff_exists.mp h1
      have hf1 : f1 ≠ cfg.entry := by
        rintro rfl
        rw [hN.idxOf_entry] at hgt
        omega
      have hrank := hT.ranked.rank_lt f1 w hw hf1
      obtain ⟨m, hm, hms, hanc⟩ := ih w f2 (hT.ranked.closed f1 w hw) h2 (by omega)
      refine ⟨m, by rw [hw, Option.bind_some]; exact hm, hms, fun z => ?_⟩
      rw [hanc z, and_comm, anc_parent_iff hT hw hgt, and_comm]

theorem foldlM_intersect_spec {fuel : ℕ} (hfuel : 2 * rpo.length ≤ fuel) :
    ∀ (ps : List V) (m : V), (∀ p ∈ ps, (domParents p).isSome) → (domParents m).isSome →
    ∃ m', ps.foldlM (intersect number domParents fuel) m = some m' ∧ (domParents m').isSome ∧
      ∀ z, Anc domParents m' z ↔ Anc domParents m z ∧ ∀ p ∈ ps, Anc domParents p z
  | [], m, _, hm => ⟨m, rfl, hm, fun z => by simp⟩
  | p :: ps, m, hps, hm => by
    have hp := hps p List.mem_cons_self
    have hlen : rpo.idxOf m + rpo.idxOf p < fuel := by
      have := List.idxOf_lt_length_of_mem (hT.mem m hm)
      have := List.idxOf_lt_length_of_mem (hT.mem p hp)
      omega
    obtain ⟨m1, hm1, hs1, hanc1⟩ := intersect_spec hN hT fuel m p hm hp hlen
    obtain ⟨m', hm', hs', hanc'⟩ :=
      foldlM_intersect_spec hfuel ps m1 (fun q hq => hps q (List.mem_cons_of_mem p hq)) hs1
    refine ⟨m', by simp only [List.foldlM_cons, hm1, Option.bind_eq_bind, Option.bind_some]; exact hm',
      hs', fun z => ?_⟩
    rw [hanc', hanc1, List.forall_mem_cons, and_assoc]

theorem computeIdom_spec (hpreds : cfg.PredsInverse) {fuel : ℕ} (hfuel : 2 * rpo.length ≤ fuel) {bb : V}
    (hset : ∃ p, cfg.Edge p bb ∧ (domParents p).isSome) :
    ∃ i, computeIdom cfg number domParents fuel bb = some i ∧ (domParents i).isSome ∧
      ∀ z, Anc domParents i z ↔ ∀ p, cfg.Edge p bb → (domParents p).isSome → Anc domParents p z := by
  have hmem : ∀ p, p ∈ (cfg.predecessors bb).filter (fun p => (domParents p).isSome) ↔
      cfg.Edge p bb ∧ (domParents p).isSome := by
    intro p
    rw [List.mem_filter, hpreds]
    exact Iff.rfl
  unfold computeIdom
  split
  next hf =>
    obtain ⟨p, hp⟩ := hset
    have hp' := (hmem p).mpr hp
    rw [hf] at hp'
    exact absurd hp' List.not_mem_nil
  next p ps hf =>
    have hall : ∀ q, q ∈ p :: ps ↔ cfg.Edge q bb ∧ (domParents q).isSome := fun q => by rw [← hf, hmem]
    obtain ⟨i, hi, his, hanc⟩ := foldlM_intersect_spec hN hT hfuel ps p
      (fun q hq => ((hall q).mp (List.mem_cons_of_mem p hq)).2) ((hall p).mp List.mem_cons_self).2
    refine ⟨i, hi, his, fun z => ?_⟩
    have hcons : (∀ q ∈ p :: ps, Anc domParents q z) ↔ (Anc domParents p z ∧ ∀ q ∈ ps, Anc domParents q z) :=
      List.forall_mem_cons
    rw [hanc, ← hcons]
    constructor
    · intro h q hq hqs
      exact h q ((hall q).mpr ⟨hq, hqs⟩)
    · intro h q hq
      exact h q ((hall q).mp hq).1 ((hall q).mp hq).2

theorem TreeOver.idom_lt {b i : V} (hb : b ∈ rpo) (hbe : b ≠ cfg.entry)
    (hanc : ∀ z, Anc domParents i z ↔ ∀ p, cfg.Edge p b → (domParents p).isSome → Anc domParents p z)
    (hfwd : ∀ p, cfg.Edge p b → p ∈ rpo → rpo.idxOf p < rpo.idxOf b → (domParents p).isSome) :
    rpo.idxOf i < rpo.idxOf b := by
  obtain ⟨p, hp, hpr, hpb⟩ := hN.forward b hb hbe
  have hpi : Anc domParents p i := (hanc i).mp (.refl i) p hp (hfwd p hp hpr hpb)
  have := hpi.rank_le hT.ranked
  omega

omit hN in
theorem TreeOver.not_anc_of_lt {b i : V} (hlt : rpo.idxOf i < rpo.idxOf b) : ¬ Anc domParents i b :=
  fun h => by
    have := h.rank_le hT.ranked
    omega

end Intersect

/-- What holds of `dom-parents` between two steps of the iteration, with
`lvl x` the pass that last set the parent of `x`: the tree, every dominator of
a block of the tree on its chain, and the chain inside the blocks that
dominate it over the walks with `lvl x` retreating edges. -/
structure Inv (cfg : Cfg V) (rpo : List V) (lvl : V → ℕ) (domParents : V → Option V) : Prop where
  tree : TreeOver cfg rpo domParents
  sound : ∀ x d, (domParents x).isSome → Dominates cfg.Edge cfg.entry d x → Anc domParents x d
  upper : ∀ x d, (domParents x).isSome → Anc domParents x d →
    DomWithin cfg.Edge cfg.entry (Retreating rpo) (lvl x) d x

section Step

variable {cfg : Cfg V} {rpo : List V} {number : V → Option ℕ} {lvl : V → ℕ} {domParents : V → Option V}
  {b i : V} (hN : Numbered cfg rpo number) (hI : Inv cfg rpo lvl domParents) (hbe : b ≠ cfg.entry)
  (hlt : rpo.idxOf i < rpo.idxOf b)
  (hanc : ∀ z, Anc domParents i z ↔ ∀ p, cfg.Edge p b → (domParents p).isSome → Anc domParents p z)
include hI hlt

include hanc

theorem Inv.sound_self {d : V} (hd : Dominates cfg.Edge cfg.entry d b) :
    Anc (Function.update domParents b (some i)) b d := by
  rw [anc_update_self_iff (hI.tree.not_anc_of_lt hlt)]
  by_cases hdb : d = b
  · exact .inl hdb
  · right
    rw [hanc]
    intro p hp hps
    exact hI.sound p d hps (hd.pred hdb hp)

include hN hbe

theorem Inv.sound_update {x d : V} (hx : (Function.update domParents b (some i) x).isSome)
    (hd : Dominates cfg.Edge cfg.entry d x) : Anc (Function.update domParents b (some i)) x d := by
  by_cases hxb : x = b
  · subst hxb
    exact hI.sound_self hlt hanc hd
  have hxs : (domParents x).isSome := by rwa [Function.update_of_ne hxb] at hx
  have hR := hI.tree.ranked
  have hxd := hI.sound x d hxs hd
  by_cases hxb' : Anc domParents x b
  · -- `d` and `b` are both on the chain of `x`
    rcases hxd.total hxb' with hdb | hbd
    · exact anc_update_of_anc hR hxd hdb
    · by_cases hdb : d = b
      · subst hdb
        exact anc_update_of_anc hR hxb' (.refl d)
      have hdom : Dominates cfg.Edge cfg.entry d b :=
        dominates_of_forward rpo.idxOf (fun _ _ => Iff.rfl) (hN.forward_avoids (hI.tree.mem x hxs)) hd
          ((hI.upper x b hxs hxb').anti (Nat.zero_le _)) (hbd.rank_lt hR (Ne.symm hdb))
      exact (anc_update_of_anc hR hxb' (.refl b)).trans (hI.sound_self hlt hanc hdom)
  · exact (anc_update_iff_of_not_anc hxb').mpr hxd

variable {k : ℕ}
  (hfwd : ∀ p, cfg.Edge p b → p ∈ rpo → rpo.idxOf p < rpo.idxOf b → (domParents p).isSome ∧ k ≤ lvl p)
  (hbwd : ∀ p, cfg.Edge p b → p ∈ rpo → Retreating rpo p b → 0 < k → (domParents p).isSome ∧ k ≤ lvl p + 1)
include hfwd hbwd

theorem Inv.upper_self {d : V} (h : Anc (Function.update domParents b (some i)) b d) :
    DomWithin cfg.Edge cfg.entry (Retreating rpo) k d b := by
  rcases (anc_update_self_iff (hI.tree.not_anc_of_lt hlt)).mp h with rfl | hid
  · exact domWithin_self k d
  have hpd : ∀ p, cfg.Edge p b → (domParents p).isSome →
      DomWithin cfg.Edge cfg.entry (Retreating rpo) (lvl p) d p :=
    fun p hp hps => hI.upper p d hps ((hanc d).mp hid p hp hps)
  refine domWithin_of_preds hbe (fun p hp hback => ?_) (fun p j hp hback hkj => ?_)
  · by_cases hpr : p ∈ rpo
    · obtain ⟨hps, hk⟩ := hfwd p hp hpr (by unfold Retreating at hback; omega)
      exact (hpd p hp hps).anti hk
    · exact domWithin_of_not_reachable (mt (hN.mem_iff p).mpr hpr)
  · by_cases hpr : p ∈ rpo
    · obtain ⟨hps, hk⟩ := hbwd p hp hpr hback (by omega)
      exact (hpd p hp hps).anti (by omega)
    · exact domWithin_of_not_reachable (mt (hN.mem_iff p).mpr hpr)

theorem Inv.upper_update (hle : ∀ x, (domParents x).isSome → lvl x ≤ k) {x d : V}
    (hx : (Function.update domParents b (some i) x).isSome) (h : Anc (Function.update domParents b (some i)) x d) :
    DomWithin cfg.Edge cfg.entry (Retreating rpo) (Function.update lvl b k x) d x := by
  by_cases hxb : x = b
  · subst hxb
    rw [Function.update_self]
    exact hI.upper_self hN hbe hlt hanc hfwd hbwd h
  have hxs : (domParents x).isSome := by rwa [Function.update_of_ne hxb] at hx
  rw [Function.update_of_ne hxb]
  rcases anc_update_cases h with hold | ⟨hxb', hbd⟩
  · exact hI.upper x d hxs hold
  · -- the chain of `x` reaches `b` and then follows the new chain of `b`
    exact (hI.upper x b hxs hxb').trans ((hI.upper_self hN hbe hlt hanc hfwd hbwd hbd).anti (hle x hxs))

end Step

theorem Inv.step {cfg : Cfg V} {rpo : List V} {number : V → Option ℕ} {lvl : V → ℕ}
    {domParents : V → Option V} {b i : V} {k : ℕ} (hN : Numbered cfg rpo number)
    (hI : Inv cfg rpo lvl domParents) (hb : b ∈ rpo) (hbe : b ≠ cfg.entry)
    (hle : ∀ x, (domParents x).isSome → lvl x ≤ k)
    (hfwd : ∀ p, cfg.Edge p b → p ∈ rpo → rpo.idxOf p < rpo.idxOf b → (domParents p).isSome ∧ k ≤ lvl p)
    (hbwd : ∀ p, cfg.Edge p b → p ∈ rpo → Retreating rpo p b → 0 < k → (domParents p).isSome ∧ k ≤ lvl p + 1)
    (hi : (domParents i).isSome)
    (hanc : ∀ z, Anc domParents i z ↔ ∀ p, cfg.Edge p b → (domParents p).isSome → Anc domParents p z) :
    Inv cfg rpo (Function.update lvl b k) (Function.update domParents b (some i)) := by
  have hlt := hI.tree.idom_lt hN hb hbe hanc fun p hp hpr hpb => (hfwd p hp hpr hpb).1
  refine ⟨⟨hI.tree.ranked.update hbe hi hlt, fun x hx => ?_⟩,
    fun x d hx hd => hI.sound_update hN hbe hlt hanc hx hd,
    fun x d hx h => hI.upper_update hN hbe hlt hanc hfwd hbwd hle hx h⟩
  by_cases hxb : x = b
  · exact hxb ▸ hb
  · rw [Function.update_of_ne hxb] at hx
    exact hI.tree.mem x hx

section Iterate

variable {cfg : Cfg V} {number : V → Option ℕ} {fuel : ℕ}

theorem iterateStep_eq (acc : Bool × (V → Option V)) (bb : V) :
    iterateStep cfg number fuel acc bb = (computeIdom cfg number acc.2 fuel bb).bind fun idom =>
      some (acc.1 || (setIdom idom bb acc.2).1, (setIdom idom bb acc.2).2) := rfl

theorem foldlM_iterateStep : ∀ (todo : List V) (c : Bool) (dp : V → Option V),
    todo.foldlM (iterateStep cfg number fuel) (c, dp) =
      (iterate cfg number fuel todo dp).map fun q => (c || q.1, q.2)
  | [], c, dp => by simp [iterate]
  | bb :: todo, c, dp => by
    unfold iterate
    rw [List.foldlM_cons, List.foldlM_cons, iterateStep_eq, iterateStep_eq]
    cases computeIdom cfg number dp fuel bb with
    | none => rfl
    | some idom =>
      simp only [Option.bind_eq_bind, Option.bind_some, Bool.false_or]
      rw [foldlM_iterateStep todo, foldlM_iterateStep todo, Option.map_map]
      congr 1
      funext q
      simp [Bool.or_assoc]

theorem iterate_cons (bb : V) (todo : List V) (dp : V → Option V) :
    iterate cfg number fuel (bb :: todo) dp =
      (computeIdom cfg number dp fuel bb).bind fun idom =>
        (iterate cfg number fuel todo (setIdom idom bb dp).2).map fun q => ((setIdom idom bb dp).1 || q.1, q.2) := by
  unfold iterate
  rw [List.foldlM_cons, iterateStep_eq]
  cases computeIdom cfg number dp fuel bb with
  | none => rfl
  | some idom =>
    simp only [Option.bind_eq_bind, Option.bind_some, Bool.false_or]
    exact foldlM_iterateStep todo _ _

theorem iterate_false : ∀ (todo : List V) (dp dp' : V → Option V),
    iterate cfg number fuel todo dp = some (false, dp') →
      dp' = dp ∧ ∀ b ∈ todo, computeIdom cfg number dp fuel b = dp b
  | [], dp, dp', h => by
    rw [iterate, List.foldlM_nil, Option.pure_def, Option.some.injEq, Prod.mk.injEq] at h
    exact ⟨h.2.symm, fun _ hb => absurd hb List.not_mem_nil⟩
  | b :: todo, dp, dp', h => by
    rw [iterate_cons] at h
    cases hc : computeIdom cfg number dp fuel b with
    | none => rw [hc, Option.bind_none] at h; cases h
    | some idom =>
      rw [hc, Option.bind_some] at h
      obtain ⟨q, hq, hqe⟩ := Option.map_eq_some_iff.mp h
      simp only [Prod.mk.injEq, Bool.or_eq_false_iff] at hqe
      obtain ⟨⟨hr, hq1⟩, hq2⟩ := hqe
      have hb : dp b = some idom := by simpa [setIdom] using hr
      have hdp : (setIdom idom b dp).2 = dp := by rw [setIdom, ← hb, Function.update_eq_self]
      rw [hdp] at hq
      obtain ⟨rfl, hfix⟩ := iterate_false todo dp q.2 (by rw [hq, ← hq1])
      refine ⟨hq2.symm, fun b' hb' => ?_⟩
      rcases List.mem_cons.mp hb' with rfl | hb'
      · rw [hc, hb]
      · exact hfix b' hb'

end Iterate

/-- What `compute-dom-parents` leaves: a tree over the blocks of the order
whose chains are exactly the dominators. -/
structure DominatorTree (cfg : Cfg V) (rpo : List V) (domParents : V → Option V) : Prop where
  tree : TreeOver cfg rpo domParents
  isSome_iff : ∀ x, (domParents x).isSome ↔ x ∈ rpo
  anc_iff : ∀ x ∈ rpo, ∀ d, Anc domParents x d ↔ Dominates cfg.Edge cfg.entry d x

theorem DominatorTree.isIdom {cfg : Cfg V} {rpo : List V} {dp : V → Option V} (hD : DominatorTree cfg rpo dp)
    {b : V} (hb : b ∈ rpo) (hbe : b ≠ cfg.entry) : ∃ i, dp b = some i ∧ IsIdom cfg.Edge cfg.entry i b := by
  obtain ⟨i, hi⟩ := Option.isSome_iff_exists.mp ((hD.isSome_iff b).mpr hb)
  have hR := hD.tree.ranked
  have hib : i ≠ b := fun h => by
    have := hR.rank_lt b i hi hbe
    rw [h] at this
    omega
  have himem : i ∈ rpo := hD.tree.mem i (hR.closed b i hi)
  refine ⟨i, hi, hib, (hD.anc_iff b hb i).mp (.of_parent hi), fun d hdb hd => ?_⟩
  obtain ⟨w, hw, hwd⟩ := ((hD.anc_iff b hb d).mpr hd).exists_parent (Ne.symm hdb)
  rw [hi, Option.some.injEq] at hw
  subst hw
  exact (hD.anc_iff i himem d).mp hwd

theorem Inv.of_level {cfg : Cfg V} {rpo : List V} {lvl lvl' : V → ℕ} {dp : V → Option V}
    (hI : Inv cfg rpo lvl dp) (h : ∀ x, (dp x).isSome → x ≠ cfg.entry → lvl' x ≤ lvl x) :
    Inv cfg rpo lvl' dp := by
  refine ⟨hI.tree, hI.sound, fun x d hx hxd => ?_⟩
  by_cases hxe : x = cfg.entry
  · -- the chain of the entry is the entry alone
    rw [hxd.eq_root hI.tree.ranked hxe, hxe]
    exact domWithin_self _ _
  · exact (hI.upper x d hx hxd).anti (h x hx hxe)

section Passes

variable {cfg : Cfg V} {rpo : List V} {number : V → Option ℕ} {fuel : ℕ}

/-- The levels in pass `k` once the blocks `done` are processed: `k` on the
entry and on `done`, `k - 1` on the rest. -/
def passLevel (cfg : Cfg V) (k : ℕ) (done : List V) (x : V) : ℕ :=
  if x = cfg.entry ∨ x ∈ done then k else k - 1

theorem passLevel_le (cfg : Cfg V) (k : ℕ) (done : List V) (x : V) : passLevel cfg k done x ≤ k := by
  unfold passLevel
  split <;> omega

theorem passLevel_ge (cfg : Cfg V) (k : ℕ) (done : List V) (x : V) : k - 1 ≤ passLevel cfg k done x := by
  unfold passLevel
  split <;> omega

theorem passLevel_of_mem {k : ℕ} {done : List V} {x : V} (hx : x = cfg.entry ∨ x ∈ done) :
    passLevel cfg k done x = k :=
  if_pos hx

theorem update_passLevel (k : ℕ) (done : List V) (b : V) :
    Function.update (passLevel cfg k done) b k = passLevel cfg k (done ++ [b]) := by
  funext x
  by_cases hxb : x = b
  · subst hxb
    rw [Function.update_self, passLevel_of_mem (.inr (List.mem_append_right _ (List.mem_singleton_self x)))]
  · rw [Function.update_of_ne hxb]
    unfold passLevel
    simp [hxb]

/-- The state of pass `k` once the blocks `done` are processed: the first
pass has put the entry and `done` in the tree, a later one finds every block
of the order there. -/
structure PassInv (cfg : Cfg V) (rpo : List V) (k : ℕ) (done : List V) (domParents : V → Option V) : Prop where
  inv : Inv cfg rpo (passLevel cfg k done) domParents
  isSome_iff : ∀ x, (domParents x).isSome ↔ x = cfg.entry ∨ x ∈ done ∨ (0 < k ∧ x ∈ rpo)

variable (hN : Numbered cfg rpo number) (hpreds : cfg.PredsInverse) (hfuel : 2 * rpo.length ≤ fuel)
include hN hpreds hfuel

theorem PassInv.step {k : ℕ} {done todo : List V} {b : V} {dp : V → Option V}
    (hrpo : cfg.entry :: (done ++ b :: todo) = rpo) (hP : PassInv cfg rpo k done dp) :
    ∃ i, computeIdom cfg number dp fuel b = some i ∧
      PassInv cfg rpo k (done ++ [b]) (Function.update dp b (some i)) := by
  have hnd : ((cfg.entry :: done) ++ b :: todo).Nodup := by
    rw [List.cons_append, hrpo]
    exact hN.nodup
  have hbA : b ∉ cfg.entry :: done := fun h => List.disjoint_of_nodup_append hnd h List.mem_cons_self
  have hb : b ∈ rpo := by
    rw [← hrpo]
    simp
  have hbe : b ≠ cfg.entry := fun h => hbA (h ▸ List.mem_cons_self)
  have hbefore : ∀ p, rpo.idxOf p < rpo.idxOf b → p = cfg.entry ∨ p ∈ done := by
    intro p hp
    rw [← hrpo, ← List.cons_append] at hp
    exact List.mem_cons.mp (mem_of_idxOf_lt_idxOf hbA hp)
  have hfwd : ∀ p, cfg.Edge p b → p ∈ rpo → rpo.idxOf p < rpo.idxOf b →
      (dp p).isSome ∧ k ≤ passLevel cfg k done p := by
    intro p _ _ hpb
    have h := hbefore p hpb
    exact ⟨(hP.isSome_iff p).mpr (h.imp_right .inl), (passLevel_of_mem h).ge⟩
  have hbwd : ∀ p, cfg.Edge p b → p ∈ rpo → Retreating rpo p b → 0 < k →
      (dp p).isSome ∧ k ≤ passLevel cfg k done p + 1 := by
    intro p _ hpr _ hk
    have := passLevel_ge cfg k done p
    exact ⟨(hP.isSome_iff p).mpr (.inr (.inr ⟨hk, hpr⟩)), by omega⟩
  obtain ⟨p, hp, hpr, hpb⟩ := hN.forward b hb hbe
  obtain ⟨i, hi, his, hanc⟩ := computeIdom_spec hN hP.inv.tree hpreds hfuel ⟨p, hp, (hfwd p hp hpr hpb).1⟩
  have hI := hP.inv.step hN hb hbe (fun x _ => passLevel_le cfg k done x) hfwd hbwd his hanc
  rw [update_passLevel] at hI
  refine ⟨i, hi, hI, fun x => ?_⟩
  by_cases hxb : x = b
  · subst hxb
    simp [hb]
  · rw [Function.update_of_ne hxb, hP.isSome_iff, List.mem_append, List.mem_singleton]
    simp [hxb]

theorem PassInv.iterate_pass {k : ℕ} : ∀ (todo done : List V) (dp : V → Option V),
    cfg.entry :: (done ++ todo) = rpo → PassInv cfg rpo k done dp →
    ∃ c dp', iterate cfg number fuel todo dp = some (c, dp') ∧ PassInv cfg rpo k (done ++ todo) dp'
  | [], done, dp, _, hP => ⟨false, dp, rfl, by rw [List.append_nil]; exact hP⟩
  | b :: todo, done, dp, hrpo, hP => by
    obtain ⟨i, hi, hP'⟩ := hP.step hN hpreds hfuel hrpo
    obtain ⟨c, dp', hit, hP''⟩ := PassInv.iterate_pass todo (done ++ [b]) _
      (by rw [← hrpo, List.append_assoc, List.singleton_append]) hP'
    have hit' : iterate cfg number fuel todo (setIdom i b dp).2 = some (c, dp') := hit
    refine ⟨(setIdom i b dp).1 || c, dp', ?_, by rwa [List.append_assoc, List.singleton_append] at hP''⟩
    rw [iterate_cons, hi, Option.bind_some, hit']
    rfl

omit hpreds hfuel in
theorem passInv_start : PassInv cfg rpo 0 [] (setIdom cfg.entry cfg.entry fun _ => none).2 := by
  have hdp : (setIdom cfg.entry cfg.entry fun _ => none).2 =
      Function.update (fun _ => none) cfg.entry (some cfg.entry) := rfl
  rw [hdp]
  have hset : ∀ x, (Function.update (fun _ => none) cfg.entry (some cfg.entry) x).isSome ↔ x = cfg.entry := by
    intro x
    by_cases hx : x = cfg.entry
    · subst hx
      simp
    · simp [hx]
  have hR : Ranked (Function.update (fun _ => none) cfg.entry (some cfg.entry)) rpo.idxOf cfg.entry := by
    refine ⟨Function.update_self _ _ _, fun x y hxy hx => ?_, fun x y hxy => ?_⟩
    · rw [Function.update_of_ne hx] at hxy
      cases hxy
    · have hx : x = cfg.entry := (hset x).mp (by rw [hxy]; rfl)
      subst hx
      rw [Function.update_self, Option.some.injEq] at hxy
      rw [← hxy]
      exact (hset _).mpr rfl
  refine ⟨⟨⟨hR, fun x hx => ?_⟩, fun x d hx hd => ?_, fun x d hx h => ?_⟩, fun x => ?_⟩
  · rw [(hset x).mp hx]
    exact hN.entry_mem
  · rw [(hset x).mp hx] at hd ⊢
    rw [dominates_root_iff.mp hd]
    exact .refl _
  · have hx' := (hset x).mp hx
    subst hx'
    rw [h.eq_root hR rfl]
    exact domWithin_self _ _
  · rw [hset]
    simp

omit hN hpreds hfuel in
theorem PassInv.isSome_iff_rest {k : ℕ} {rest : List V} {dp : V → Option V} (hrpo : cfg.entry :: rest = rpo)
    (hP : PassInv cfg rpo k rest dp) (x : V) : (dp x).isSome ↔ x ∈ rpo := by
  rw [hP.isSome_iff, ← hrpo, List.mem_cons]
  constructor
  · rintro (h | h | ⟨-, h⟩)
    exacts [.inl h, .inr h, h]
  · rintro (h | h)
    exacts [.inl h, .inr (.inl h)]

omit hpreds hfuel in
theorem PassInv.isSome_iff_late {k : ℕ} {dp : V → Option V} (hP : PassInv cfg rpo k [] dp) (hk : 0 < k)
    (x : V) : (dp x).isSome ↔ x ∈ rpo := by
  rw [hP.isSome_iff]
  constructor
  · rintro (rfl | h | ⟨-, h⟩)
    · exact hN.entry_mem
    · exact absurd h List.not_mem_nil
    · exact h
  · intro h
    exact .inr (.inr ⟨hk, h⟩)

omit hN hpreds hfuel in
theorem PassInv.next {k : ℕ} {rest : List V} {dp : V → Option V} (hrpo : cfg.entry :: rest = rpo)
    (hP : PassInv cfg rpo k rest dp) : PassInv cfg rpo (k + 1) [] dp := by
  refine ⟨hP.inv.of_level fun x hx hxe => ?_, fun x => ?_⟩
  · have hxr : x ∈ rest := by
      have := (hP.isSome_iff_rest hrpo x).mp hx
      rw [← hrpo] at this
      exact (List.mem_cons.mp this).resolve_left hxe
    rw [passLevel_of_mem (.inr hxr), passLevel, if_neg (by simp [hxe])]
    omega
  · rw [hP.isSome_iff_rest hrpo]
    constructor
    · intro h
      exact .inr (.inr ⟨Nat.succ_pos k, h⟩)
    · rintro (rfl | h | ⟨-, h⟩)
      · rw [← hrpo]
        exact List.mem_cons_self
      · exact absurd h List.not_mem_nil
      · exact h

omit hN hpreds hfuel in
theorem PassInv.anc_iff [Fintype V] {k : ℕ} {dp : V → Option V} (hP : PassInv cfg rpo k [] dp)
    (hk : Fintype.card V + 1 ≤ k) {x : V} (hx : (dp x).isSome) (d : V) :
    Anc dp x d ↔ Dominates cfg.Edge cfg.entry d x := by
  refine ⟨fun h => ?_, hP.inv.sound x d hx⟩
  by_cases hxe : x = cfg.entry
  · rw [h.eq_root hP.inv.tree.ranked hxe, hxe]
    exact dominates_self _
  · have hw := hP.inv.upper x d hx h
    rw [passLevel, if_neg (by simp [hxe])] at hw
    exact hw.dominates (by omega)

theorem iterate_of_dominators {dp : V → Option V} (hT : TreeOver cfg rpo dp)
    (hset : ∀ x, (dp x).isSome ↔ x ∈ rpo)
    (hdom : ∀ x ∈ rpo, ∀ d, Anc dp x d ↔ Dominates cfg.Edge cfg.entry d x) :
    ∀ todo : List V, (∀ b ∈ todo, b ∈ rpo ∧ b ≠ cfg.entry) → iterate cfg number fuel todo dp = some (false, dp)
  | [], _ => rfl
  | b :: todo, hall => by
    obtain ⟨hb, hbe⟩ := hall b List.mem_cons_self
    have hreach : ∀ q, (dp q).isSome ↔ Reachable cfg.Edge cfg.entry q := fun q => (hset q).trans (hN.mem_iff q)
    obtain ⟨p, hp, hpr, -⟩ := hN.forward b hb hbe
    obtain ⟨i, hi, -, hanc⟩ := computeIdom_spec hN hT hpreds hfuel ⟨p, hp, (hset p).mpr hpr⟩
    obtain ⟨o, ho⟩ := Option.isSome_iff_exists.mp ((hset b).mpr hb)
    have hchain : ∀ z, Anc dp b z ↔ z = b ∨ Anc dp i z := by
      intro z
      rw [hdom b hb, dominates_iff_preds hbe, hanc]
      constructor
      · rintro (rfl | h)
        · exact .inl rfl
        · exact .inr fun q hq hqs => (hdom q ((hset q).mp hqs) z).mpr (h q hq ((hreach q).mp hqs))
      · rintro (rfl | h)
        · exact .inl rfl
        · exact .inr fun q hq hqr =>
            (hdom q ((hN.mem_iff q).mpr hqr) z).mp (h q hq ((hreach q).mpr hqr))
    have hib : ¬ Anc dp i b :=
      hT.not_anc_of_lt (hT.idom_lt hN hb hbe hanc fun q _ hqr _ => (hset q).mpr hqr)
    have hoi : o = i := parent_eq_of_anc_iff hT.ranked hbe ho hchain hib
    have hsame : setIdom i b dp = (false, dp) := by
      rw [setIdom, ← hoi, ← ho, bne_self_eq_false, Function.update_eq_self]
    rw [iterate_cons, hi, Option.bind_some, hsame]
    dsimp only
    rw [iterate_of_dominators hT hset hdom todo fun b' hb' => hall b' (List.mem_cons_of_mem b hb')]
    rfl

theorem dominatorTree_of_fixed {lvl : V → ℕ} {dp : V → Option V} (hI : Inv cfg rpo lvl dp)
    (hset : ∀ x, (dp x).isSome ↔ x ∈ rpo)
    (hfix : ∀ b ∈ rpo, b ≠ cfg.entry → computeIdom cfg number dp fuel b = dp b) : DominatorTree cfg rpo dp := by
  have hR := hI.tree.ranked
  refine ⟨hI.tree, hset, fun x hx d => ⟨fun h => ?_, hI.sound x d ((hset x).mpr hx)⟩⟩
  refine dominates_of_closed (fun x d => (dp x).isSome ∧ Anc dp x d) (fun d hd => hd.2.eq_root hR rfl)
    (fun p y d he hp hyd => ?_) ((hN.mem_iff x).mp hx) ⟨(hset x).mpr hx, h⟩
  obtain ⟨hys, hyd⟩ := hyd
  by_cases hdy : d = y
  · exact .inl hdy
  by_cases hye : y = cfg.entry
  · exact .inl ((hyd.eq_root hR hye).trans hye.symm)
  right
  have hps : (dp p).isSome := (hset p).mpr ((hN.mem_iff p).mpr hp)
  obtain ⟨i, hi, -, hanc⟩ := computeIdom_spec hN hI.tree hpreds hfuel ⟨p, he, hps⟩
  have hyi : dp y = some i := (hfix y ((hset y).mp hys) hye).symm.trans hi
  obtain ⟨w, hw, hwd⟩ := hyd.exists_parent (Ne.symm hdy)
  rw [hyi, Option.some.injEq] at hw
  subst hw
  exact ⟨hps, (hanc d).mp hwd p he hps⟩

theorem domLoop_spec [Fintype V] {rest : List V} (hrpo : cfg.entry :: rest = rpo) :
    ∀ passes k (dp : V → Option V), PassInv cfg rpo k [] dp → Fintype.card V + 1 ≤ k + passes →
      ∃ dp', domLoop cfg number fuel rest (passes + 1) dp = some dp' ∧ DominatorTree cfg rpo dp' := by
  have hnd : (cfg.entry :: rest).Nodup := hrpo ▸ hN.nodup
  have hrest : ∀ b ∈ rest, b ∈ rpo ∧ b ≠ cfg.entry := fun b hb =>
    ⟨hrpo ▸ List.mem_cons_of_mem _ hb, fun h => (List.nodup_cons.mp hnd).1 (h ▸ hb)⟩
  have hlate : ∀ k (dp : V → Option V), PassInv cfg rpo k [] dp → Fintype.card V + 1 ≤ k →
      DominatorTree cfg rpo dp ∧ iterate cfg number fuel rest dp = some (false, dp) := by
    intro k dp hP hk
    have hset := hP.isSome_iff_late hN (by omega)
    have hdom : ∀ x ∈ rpo, ∀ d, Anc dp x d ↔ Dominates cfg.Edge cfg.entry d x :=
      fun x hx d => hP.anc_iff hk ((hset x).mpr hx) d
    exact ⟨⟨hP.inv.tree, hset, hdom⟩, iterate_of_dominators hN hpreds hfuel hP.inv.tree hset hdom rest hrest⟩
  intro passes
  induction passes with
  | zero =>
    intro k dp hP hk
    obtain ⟨hD, hit⟩ := hlate k dp hP (by omega)
    rw [domLoop, hit]
    exact ⟨dp, rfl, hD⟩
  | succ passes ih =>
    intro k dp hP hk
    obtain ⟨c, dp1, hit, hP1⟩ :=
      PassInv.iterate_pass hN hpreds hfuel rest [] dp (by rw [List.nil_append, hrpo]) hP
    rw [List.nil_append] at hP1
    rw [domLoop, hit]
    simp only [Option.bind_eq_bind, Option.bind_some]
    cases c with
    | false =>
      obtain ⟨rfl, hfix⟩ := iterate_false rest dp dp1 hit
      refine ⟨dp1, rfl, dominatorTree_of_fixed hN hpreds hfuel hP1.inv (hP1.isSome_iff_rest hrpo)
        fun b hb hbe => hfix b ?_⟩
      rw [← hrpo] at hb
      exact (List.mem_cons.mp hb).resolve_left hbe
    | true =>
      by_cases hk' : Fintype.card V + 1 ≤ k
      · rw [(hlate k dp hP hk').2] at hit
        cases hit
      · exact ih (k + 1) dp1 (hP1.next hrpo) (by omega)

end Passes

theorem computeDomParents_spec [Fintype V] {cfg : Cfg V} (hpreds : cfg.PredsInverse) {fuel : ℕ}
    (hfuel : 2 * Fintype.card V + 2 ≤ fuel) :
    ∃ po dp, postOrder cfg fuel = some po ∧ computeDomParents cfg fuel = some dp ∧
      Numbered cfg po.reverse (numberBlocks po) ∧ DominatorTree cfg po.reverse dp := by
  obtain ⟨po, hpo, hN⟩ := postOrder_numbered cfg (show Fintype.card V < fuel by omega)
  obtain ⟨rest, hrev⟩ : ∃ rest, po.reverse = cfg.entry :: rest := List.head?_eq_some_iff.mp hN.head
  have hlen : 2 * po.reverse.length ≤ fuel := by
    have := hN.nodup.length_le_card
    omega
  obtain ⟨passes, hpasses⟩ : ∃ passes, fuel = passes + 1 := ⟨fuel - 1, by omega⟩
  obtain ⟨dp, hloop, hD⟩ := domLoop_spec hN hpreds hlen hrev.symm passes 0 _ (passInv_start hN) (by omega)
  refine ⟨po, dp, hpo, ?_, hN, hD⟩
  rw [computeDomParents, hpo]
  simp only [Option.bind_eq_bind, Option.bind_some, hrev]
  rw [hpasses] at hloop ⊢
  exact hloop

end FactorProofs.Compiler.Dominance
