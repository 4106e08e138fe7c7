import FactorProofs.Compiler.DominanceIterate

namespace FactorProofs.Compiler.Dominance

open FactorProofs.Dominators FactorProofs.RankedTree FactorProofs.Core.Sorting

/-! The tables built on `dom-parents`. The children lists are the inverse of
the parent map. `(compute-dfs)` gives each block of the tree an interval of
preorder numbers, from its own number to the last number of its subtree, and
the numbers in the interval are those of the subtree; `dominates?` therefore
reads dominance off two comparisons. -/

variable {V : Type} [DecidableEq V]

section Children

variable (domParents : V → Option V)

theorem pushChild_apply (childrens : V → List V) (bb p : V) :
    pushChild domParents childrens bb p =
      childrens p ++ if domParents bb = some p ∧ bb ≠ p then [bb] else [] := by
  unfold pushChild
  cases hbb : domParents bb with
  | none => simp
  | some q =>
    by_cases hq : bb = q
    · subst hq
      simp
    · by_cases hp : p = q
      · subst hp
        simp [hq]
      · simp [hq, Function.update_of_ne hp, Ne.symm hp]

theorem foldl_pushChild : ∀ (blocks : List V) (childrens : V → List V) (p : V),
    blocks.foldl (pushChild domParents) childrens p =
      childrens p ++ blocks.filter fun c => domParents c = some p ∧ c ≠ p
  | [], childrens, p => by simp
  | bb :: blocks, childrens, p => by
    rw [List.foldl_cons, foldl_pushChild blocks, pushChild_apply, List.filter_cons, List.append_assoc]
    by_cases h : domParents bb = some p ∧ bb ≠ p
    · simp [h]
    · simp [h]

theorem pushChildren_eq (blocks : List V) (p : V) :
    pushChildren blocks domParents p = blocks.filter fun c => domParents c = some p ∧ c ≠ p := by
  rw [pushChildren, foldl_pushChild, List.nil_append]

theorem mem_computeDomChildren {number : V → Option ℕ} {blocks : List V} {p c : V} :
    c ∈ computeDomChildren number blocks domParents p ↔ c ∈ blocks ∧ domParents c = some p ∧ c ≠ p := by
  rw [computeDomChildren, (stablySorts_sortBy _ _).perm.mem_iff, pushChildren_eq, List.mem_filter,
    decide_eq_true_iff]

theorem nodup_computeDomChildren (number : V → Option ℕ) {blocks : List V} (hblocks : blocks.Nodup) (p : V) :
    (computeDomChildren number blocks domParents p).Nodup := by
  rw [computeDomChildren, (stablySorts_sortBy _ _).perm.nodup_iff, pushChildren_eq]
  exact hblocks.filter _

end Children

section Dfs

variable {dp : V → Option V}

/-- What `(compute-dfs)` leaves of the blocks `S` it numbered, starting after
`n` and answering `n'`: each block of `S` has a preorder number above `n` and
a `maxpreorder` at most `n'`, and the numbers between them are those of its
subtree; outside `S` nothing changed. -/
structure Numbers (dp : V → Option V) (S : V → Prop) (n : ℕ) (t : Numbering V) (n' : ℕ) (t' : Numbering V) :
    Prop where
  le : n ≤ n'
  frame : ∀ y, ¬ S y → t'.preorder y = t.preorder y ∧ t'.maxpreorder y = t.maxpreorder y
  bounds : ∀ y, S y → ∃ p m, t'.preorder y = some p ∧ t'.maxpreorder y = some m ∧ n < p ∧ p ≤ m ∧ m ≤ n'
  interval : ∀ y z, S y → S z → ∀ p m q, t'.preorder y = some p → t'.maxpreorder y = some m →
    t'.preorder z = some q → (p ≤ q ∧ q ≤ m ↔ Anc dp z y)

omit [DecidableEq V] in
theorem Numbers.nil {S : V → Prop} (hS : ∀ y, ¬ S y) (n : ℕ) (t : Numbering V) : Numbers dp S n t n t :=
  ⟨le_refl n, fun _ _ => ⟨rfl, rfl⟩, fun y hy => absurd hy (hS y), fun y _ hy => absurd hy (hS y)⟩

omit [DecidableEq V] in
theorem Numbers.append {S T U : V → Prop} {n n1 n2 : ℕ} {t t1 t2 : Numbering V}
    (h1 : Numbers dp S n t n1 t1) (h2 : Numbers dp T n1 t1 n2 t2)
    (hST : ∀ y z, S y → T z → ¬ Anc dp z y ∧ ¬ Anc dp y z) (hU : ∀ y, U y ↔ S y ∨ T y) :
    Numbers dp U n t n2 t2 := by
  have hSnT : ∀ y, S y → ¬ T y := fun y hy hty => (hST y y hy hty).1 (.refl y)
  have hkeep : ∀ y, S y → t2.preorder y = t1.preorder y ∧ t2.maxpreorder y = t1.maxpreorder y :=
    fun y hy => h2.frame y (hSnT y hy)
  refine ⟨h1.le.trans h2.le, fun y hy => ?_, fun y hy => ?_, fun y z hy hz p m q hp hm hq => ?_⟩
  · rw [hU, not_or] at hy
    rw [(h2.frame y hy.2).1, (h2.frame y hy.2).2]
    exact h1.frame y hy.1
  · rcases (hU y).mp hy with hy | hy
    · obtain ⟨p, m, hp, hm, h⟩ := h1.bounds y hy
      exact ⟨p, m, (hkeep y hy).1.trans hp, (hkeep y hy).2.trans hm, by have := h2.le; omega⟩
    · obtain ⟨p, m, hp, hm, h⟩ := h2.bounds y hy
      exact ⟨p, m, hp, hm, by have := h1.le; omega⟩
  rcases (hU y).mp hy with hy | hy <;> rcases (hU z).mp hz with hz | hz
  · rw [(hkeep y hy).1] at hp
    rw [(hkeep y hy).2] at hm
    rw [(hkeep z hz).1] at hq
    exact h1.interval y z hy hz p m q hp hm hq
  · -- `z` is numbered after the whole of `S`
    obtain ⟨p', m', hp', hm', hb⟩ := h1.bounds y hy
    obtain ⟨q', m'', hq', -, hb'⟩ := h2.bounds z hz
    rw [(hkeep y hy).1, hp', Option.some.injEq] at hp
    rw [(hkeep y hy).2, hm', Option.some.injEq] at hm
    rw [hq', Option.some.injEq] at hq
    subst hp hm hq
    exact iff_of_false (by omega) (hST y z hy hz).1
  · -- `z` was numbered before `y`
    obtain ⟨p', m', hp', -, hb⟩ := h2.bounds y hy
    obtain ⟨q', m'', hq', -, hb'⟩ := h1.bounds z hz
    rw [hp', Option.some.injEq] at hp
    rw [(hkeep z hz).1, hq', Option.some.injEq] at hq
    subst hp hq
    exact iff_of_false (by omega) (hST z y hz hy).2
  · exact h2.interval y z hy hz p m q hp hm hq

theorem Numbers.node {S : V → Prop} {bb : V} {n n' : ℕ} {t t' : Numbering V}
    (hsub : ∀ y, Anc dp y bb ↔ y = bb ∨ S y) (hbelow : ∀ y, S y → ¬ Anc dp bb y)
    (h : Numbers dp S (n + 1) { t with preorder := Function.update t.preorder bb (some (n + 1)) } n' t') :
    Numbers dp (fun y => Anc dp y bb) n t n' { t' with maxpreorder := Function.update t'.maxpreorder bb (some n') } := by
  have hbS : ¬ S bb := fun hb => hbelow bb hb (.refl bb)
  have hpre : t'.preorder bb = some (n + 1) := by
    rw [(h.frame bb hbS).1]
    exact Function.update_self _ _ _
  have hne : ∀ y, S y → y ≠ bb := fun y hy hyb => hbS (hyb ▸ hy)
  refine ⟨by have := h.le; omega, fun y hy => ?_, fun y hy => ?_, fun y z hy hz p m q hp hm hq => ?_⟩
  · have hyb : y ≠ bb := fun hyb => hy (by rw [hyb]; exact .refl bb)
    have hyS : ¬ S y := fun hyS => hy ((hsub y).mpr (.inr hyS))
    dsimp only
    rw [Function.update_of_ne hyb, (h.frame y hyS).1, (h.frame y hyS).2]
    exact ⟨Function.update_of_ne hyb _ _, rfl⟩
  · dsimp only
    rcases (hsub y).mp hy with rfl | hyS
    · exact ⟨n + 1, n', hpre, Function.update_self _ _ _, by have := h.le; omega⟩
    · obtain ⟨p, m, hp, hm, hb⟩ := h.bounds y hyS
      exact ⟨p, m, hp, by rw [Function.update_of_ne (hne y hyS)]; exact hm, by omega⟩
  dsimp only at hp hm hq
  rcases (hsub y).mp hy with rfl | hyS
  · -- the interval of `bb` holds the numbers of its whole subtree
    rw [hpre, Option.some.injEq] at hp
    rw [Function.update_self, Option.some.injEq] at hm
    subst hp hm
    refine iff_of_true ?_ hz
    rcases (hsub z).mp hz with rfl | hzS
    · rw [hpre, Option.some.injEq] at hq
      have := h.le
      omega
    · obtain ⟨q', m', hq', -, hb⟩ := h.bounds z hzS
      rw [hq', Option.some.injEq] at hq
      omega
  · rw [Function.update_of_ne (hne y hyS)] at hm
    rcases (hsub z).mp hz with rfl | hzS
    · -- `bb` is numbered before the blocks below it
      obtain ⟨p', m', hp', -, hb⟩ := h.bounds y hyS
      rw [hp', Option.some.injEq] at hp
      rw [hpre, Option.some.injEq] at hq
      subst hp hq
      exact iff_of_false (by omega) (hbelow y hyS)
    · exact h.interval y z hyS hzS p m q hp hm hq

variable {C : V → List V}

theorem foldlM_computeDfsAux {fuel : ℕ} {bb root : V} {rank : V → ℕ} (hR : Ranked dp rank root)
    (hchild : ∀ c ∈ C bb, dp c = some bb ∧ c ≠ bb)
    (ih : ∀ c ∈ C bb, ∀ n t, ∃ n' t', computeDfsAux C fuel n c t = some (n', t') ∧
      Numbers dp (fun y => Anc dp y c) n t n' t') :
    ∀ L : List V, L.Nodup → (∀ c ∈ L, c ∈ C bb) → ∀ n t, ∃ n' t',
      L.foldlM (fun r c => computeDfsAux C fuel r.1 c r.2) (n, t) = some (n', t') ∧
        Numbers dp (fun y => ∃ c ∈ L, Anc dp y c) n t n' t'
  | [], _, _, n, t => ⟨n, t, rfl, Numbers.nil (fun _ ⟨_, hc, _⟩ => absurd hc List.not_mem_nil) n t⟩
  | c :: L, hnd, hL, n, t => by
    obtain ⟨hcL, hnd'⟩ := List.nodup_cons.mp hnd
    have hc := hL c List.mem_cons_self
    obtain ⟨n1, t1, h1, hs1⟩ := ih c hc n t
    obtain ⟨n2, t2, h2, hs2⟩ :=
      foldlM_computeDfsAux hR hchild ih L hnd' (fun c' hc' => hL c' (List.mem_cons_of_mem c hc')) n1 t1
    refine ⟨n2, t2, ?_, hs1.append hs2 (fun y z hy hz => ?_) fun y => (List.exists_mem_cons_iff _ c L).trans Iff.rfl⟩
    · simp only [List.foldlM_cons, h1, Option.bind_eq_bind, Option.bind_some]
      exact h2
    · -- the subtree of `c` is apart from those of the later children
      obtain ⟨c', hc', hz⟩ := hz
      have hcc' : c ≠ c' := fun h => hcL (h ▸ hc')
      obtain ⟨hpc, hcb⟩ := hchild c hc
      obtain ⟨hpc', hc'b⟩ := hchild c' (hL c' (List.mem_cons_of_mem c hc'))
      exact ⟨not_anc_of_sibling_subtrees hR hpc hpc' hcb hc'b hcc' hy hz,
        not_anc_of_sibling_subtrees hR hpc' hpc hc'b hcb (Ne.symm hcc') hz hy⟩

theorem computeDfsAux_spec {cfg : Cfg V} {rpo : List V} (hT : TreeOver cfg rpo dp)
    (hC : ∀ p c, c ∈ C p ↔ dp c = some p ∧ c ≠ p) (hnd : ∀ p, (C p).Nodup) :
    ∀ fuel bb n t, (dp bb).isSome → rpo.length ≤ fuel + rpo.idxOf bb →
      ∃ n' t', computeDfsAux C fuel n bb t = some (n', t') ∧ Numbers dp (fun y => Anc dp y bb) n t n' t' := by
  intro fuel
  induction fuel with
  | zero =>
    intro bb n t hbb hfuel
    have := List.idxOf_lt_length_of_mem (hT.mem bb hbb)
    omega
  | succ fuel ih =>
    intro bb n t hbb hfuel
    have hR := hT.ranked
    have hchild : ∀ c ∈ C bb, dp c = some bb ∧ c ≠ bb := fun c hc => (hC bb c).mp hc
    have hrank : ∀ c ∈ C bb, rpo.idxOf bb < rpo.idxOf c := by
      intro c hc
      obtain ⟨hpc, hcb⟩ := hchild c hc
      have hce : c ≠ cfg.entry := by
        intro hce
        rw [hce, hR.root_parent] at hpc
        exact hcb (hce.trans (Option.some.inj hpc))
      exact hR.rank_lt c bb hpc hce
    obtain ⟨n', t', hfold, hnum⟩ := foldlM_computeDfsAux hR hchild
      (fun c hc n t => ih c n t (by rw [(hchild c hc).1]; rfl) (by have := hrank c hc; omega))
      (C bb) (hnd bb) (fun _ h => h) (n + 1) { t with preorder := Function.update t.preorder bb (some (n + 1)) }
    refine ⟨n', { t' with maxpreorder := Function.update t'.maxpreorder bb (some n') }, ?_,
      hnum.node (fun y => ?_) fun y hy hby => ?_⟩
    · rw [computeDfsAux]
      simp only [Option.bind_eq_bind, hfold, Option.bind_some]
      rfl
    · -- the subtree of `bb` is `bb` and the subtrees of its children
      constructor
      · intro h
        by_cases hyb : y = bb
        · exact .inl hyb
        · obtain ⟨c, hcb, hc, hyc⟩ := h.exists_child hyb
          exact .inr ⟨c, (hC bb c).mpr ⟨hc, hcb⟩, hyc⟩
      · rintro (rfl | ⟨c, hc, hyc⟩)
        · exact .refl _
        · exact hyc.trans (.of_parent (hchild c hc).1)
    · obtain ⟨c, hc, hyc⟩ := hy
      obtain ⟨hpc, hcb⟩ := hchild c hc
      exact hcb ((hby.trans hyc).antisymm hR (.of_parent hpc)).symm

theorem computeDfs_spec {cfg : Cfg V} {rpo : List V} (hT : TreeOver cfg rpo dp)
    (hC : ∀ p c, c ∈ C p ↔ dp c = some p ∧ c ≠ p) (hnd : ∀ p, (C p).Nodup) {fuel : ℕ}
    (hfuel : rpo.length ≤ fuel) (hentry : (dp cfg.entry).isSome) :
    ∃ n' t', computeDfs cfg.entry C fuel = some t' ∧
      Numbers dp (fun y => Anc dp y cfg.entry) 0 ⟨fun _ => none, fun _ => none⟩ n' t' := by
  obtain ⟨n', t', hrun, hnum⟩ := computeDfsAux_spec hT hC hnd fuel cfg.entry 0 ⟨fun _ => none, fun _ => none⟩
    hentry (by omega)
  exact ⟨n', t', by rw [computeDfs, hrun]; rfl, hnum⟩

end Dfs

/-- `compute-dominance` is exact. With enough fuel it answers, and the loop
of `compute-dom-parents` has ended. Every block reachable from the entry,
other than the entry, has its immediate dominator as `dom-parent`; the entry
is its own. `dom-children` is the inverse of `dom-parent`. `dominates?` of
two reachable blocks holds exactly when every walk from the entry to the
second passes through the first. -/
theorem computeDominance_exact [Fintype V] (cfg : Cfg V) (hpreds : cfg.PredsInverse) :
    ∃ N, ∀ fuel, N ≤ fuel → ∃ d, computeDominance cfg fuel = some d ∧
      computeDomParents cfg fuel = some d.domParents ∧
      d.domParent cfg.entry = some cfg.entry ∧
      (∀ b, Reachable cfg.Edge cfg.entry b → b ≠ cfg.entry →
        ∃ i, d.domParent b = some i ∧ IsIdom cfg.Edge cfg.entry i b) ∧
      (∀ p c, c ∈ d.domChildren p ↔ d.domParent c = some p ∧ c ≠ p) ∧
      (∀ a b, Reachable cfg.Edge cfg.entry a → Reachable cfg.Edge cfg.entry b →
        ∃ v, d.dominatesP a b = some v ∧ (v = true ↔ Dominates cfg.Edge cfg.entry a b)) := by
  refine ⟨2 * Fintype.card V + 2, fun fuel hfuel => ?_⟩
  obtain ⟨po, dp, hpo, hdp, hN, hD⟩ := computeDomParents_spec hpreds hfuel
  have hC : ∀ p c, c ∈ computeDomChildren (numberBlocks po) po.reverse dp p ↔ dp c = some p ∧ c ≠ p := by
    intro p c
    rw [mem_computeDomChildren]
    exact ⟨fun h => h.2, fun h => ⟨hD.tree.mem c (by rw [h.1]; rfl), h⟩⟩
  have hlen : po.reverse.length ≤ fuel := by
    have := hN.nodup.length_le_card
    omega
  obtain ⟨n', t', hdfs, hnum⟩ := computeDfs_spec hD.tree hC (nodup_computeDomChildren dp _ hN.nodup) hlen
    ((hD.isSome_iff _).mpr hN.entry_mem)
  have hsub : ∀ x, Reachable cfg.Edge cfg.entry x → Anc dp x cfg.entry := fun x hx =>
    anc_root hD.tree.ranked ((hD.isSome_iff x).mpr ((hN.mem_iff x).mpr hx))
  refine ⟨⟨dp, computeDomChildren (numberBlocks po) po.reverse dp, t'⟩, ?_, hdp, hD.tree.ranked.root_parent,
    fun b hb hbe => hD.isIdom ((hN.mem_iff b).mpr hb) hbe, hC, fun a b ha hb => ?_⟩
  · rw [computeDominance, hdp, hpo]
    simp only [Option.bind_eq_bind, Option.bind_some, hdfs]
    rfl
  · obtain ⟨p, m, hp, hm, -⟩ := hnum.bounds a (hsub a ha)
    obtain ⟨q, m', hq, -, -⟩ := hnum.bounds b (hsub b hb)
    refine ⟨decide (p ≤ q ∧ q ≤ m), ?_, ?_⟩
    · simp only [Tables.dominatesP, Tables.preOf, Tables.maxpreOf, hq, hp, hm, Option.bind_eq_bind,
        Option.bind_some]
      rfl
    · rw [decide_eq_true_iff, hnum.interval a b (hsub a ha) (hsub b hb) p m q hp hm hq]
      exact hD.anc_iff b ((hN.mem_iff b).mpr hb) a

/-- The first example of the paper, as `dominance-tests` builds it. -/
def paperCfg : Cfg (Fin 5) where
  entry := 0
  successors b := [[1, 2], [3], [4], [4], [3]].getD b.val []
  predecessors b := [[], [0], [0], [1, 4], [2, 3]].getD b.val []

theorem computeDominance_exact_paper : paperCfg.PredsInverse ∧ ∃ N, ∀ fuel, N ≤ fuel →
    ∃ d, computeDominance paperCfg fuel = some d ∧ d.domParent 0 = some 0 ∧ d.dominatesP 0 3 = some true := by
  have hpreds : paperCfg.PredsInverse := by
    unfold Cfg.PredsInverse
    decide
  obtain ⟨N, hN⟩ := computeDominance_exact paperCfg hpreds
  refine ⟨hpreds, N, fun fuel hfuel => ?_⟩
  obtain ⟨d, hd, -, hentry, -, -, hdom⟩ := hN fuel hfuel
  have h3 : Reachable paperCfg.Edge paperCfg.entry 3 :=
    ⟨[3, 1, 0], .step (.step .root (by unfold Cfg.Edge; decide)) (by unfold Cfg.Edge; decide)⟩
  obtain ⟨v, hv, hiff⟩ := hdom 0 3 ⟨[0], .root⟩ h3
  refine ⟨d, hd, hentry, ?_⟩
  rw [hv, hiff.mpr fun l hl => hl.root_mem]

end FactorProofs.Compiler.Dominance
