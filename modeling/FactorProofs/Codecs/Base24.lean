import Mathlib.Tactic.Ring
import FactorProofs.Library.Groups

namespace FactorProofs.Codecs

open FactorProofs.Groups

/-! `base24`: four bytes, read big-endian, are seven base-24 digits. -/

/-- `alphabet` -/
def alphabet : List ℕ := "ZAC2B3EF4GH5TK67P8RS9WXY".toList.map Char.toNat

/-- `alphabet-inverse` (of `base64.private`): a table indexed by character,
`f` (here `none`) where the character is no digit. -/
def alphabetInverse (alphabet : List ℕ) : List (Option ℕ) :=
  (List.range alphabet.length).foldl (fun table i => table.set (alphabet.getD i 0) (some i))
    (List.replicate (alphabet.foldl max 0 + 1) none)

/-- `ch>base24` -/
def chToBase24 (ch : ℕ) : ℕ := alphabet.getD ch 0

/-- `base24>ch`: `none` is `malformed-base24`. -/
def base24ToCh (ch : ℕ) : Option ℕ := (alphabetInverse alphabet).getD ch none

/-- `be>` on four bytes. -/
def beValue (seq : List ℕ) : ℕ := seq.foldl (fun x b => x * 256 + b) 0

/-- `4 >be`: the low 32 bits, most significant byte first. -/
def toBe4 (x : ℕ) : List ℕ := [x / 2 ^ 24 % 256, x / 2 ^ 16 % 256, x / 2 ^ 8 % 256, x % 256]

/-- `ch>upper` of `ascii` -/
def chToUpper (ch : ℕ) : ℕ := if 97 ≤ ch ∧ ch ≤ 122 then ch - 0x20 else ch

/-- The body of `>base24`'s `7 [ 24 /mod ch>base24 accum push ] times`: the
digits go onto the accumulator least significant first. -/
def pushDigits : ℕ → ℕ → List ℕ → List ℕ
  | 0, _, accum => accum
  | k + 1, n, accum => pushDigits k (n / 24) (accum ++ [chToBase24 (n % 24)])

/-- `>base24`; `none` is the failed `assert=` on a length that is no multiple of four. -/
def toBase24 (seq : List ℕ) : Option (List ℕ) :=
  if seq.length % 4 = 0 then
    some ((groups 4 seq).foldl (fun accum g => pushDigits 7 (beValue g) accum) []).reverse
  else none

/-- `base24>ch swap 24 * +` -/
def decodeStep (n c : ℕ) : Option ℕ := do pure ((← base24ToCh c) + n * 24)

/-- `0 [ base24>ch swap 24 * + ] reduce` -/
def decodeGroup (g : List ℕ) : Option ℕ := g.foldlM decodeStep 0

/-- The body of `base24>`'s loop over the groups: `4 >be accum push-all`. -/
def pushGroup (accum g : List ℕ) : Option (List ℕ) := do pure (accum ++ toBe4 (← decodeGroup g))

/-- `base24>`; `none` is a failed `assert=` or `malformed-base24`. -/
def base24To (base24 : List ℕ) : Option (List ℕ) :=
  let s := (base24.filter (fun c => decide (c ∉ "- ".toList.map Char.toNat))).map chToUpper
  if s.length % 7 = 0 then (groups 7 s).foldlM pushGroup [] else none

theorem base24ToCh_chToBase24 : ∀ d < 24, base24ToCh (chToBase24 d) = some d := by
  decide

theorem chToBase24_kept : ∀ d < 24, chToBase24 d ∉ "- ".toList.map Char.toNat ∧
    chToUpper (chToBase24 d) = chToBase24 d := by
  decide

/-- The seven digits of one group, least significant first. -/
def lsDigits : ℕ → ℕ → List ℕ
  | 0, _ => []
  | k + 1, n => chToBase24 (n % 24) :: lsDigits k (n / 24)

theorem pushDigits_eq (k n : ℕ) (accum : List ℕ) : pushDigits k n accum = accum ++ lsDigits k n := by
  induction k generalizing n accum with
  | zero => simp [pushDigits, lsDigits]
  | succ k ih => rw [pushDigits, ih, lsDigits, List.append_assoc, List.singleton_append]

theorem length_lsDigits (k n : ℕ) : (lsDigits k n).length = k := by
  induction k generalizing n with
  | zero => rfl
  | succ k ih => rw [lsDigits, List.length_cons, ih]

theorem digit_of_mem_lsDigits {k n c : ℕ} (hc : c ∈ lsDigits k n) : ∃ d < 24, c = chToBase24 d := by
  induction k generalizing n with
  | zero => simp [lsDigits] at hc
  | succ k ih =>
    rcases List.mem_cons.mp hc with rfl | hc
    · exact ⟨n % 24, Nat.mod_lt _ (by norm_num), rfl⟩
    · exact ih hc

theorem foldlM_decodeStep_lsDigits (k n a : ℕ) :
    (lsDigits k n).reverse.foldlM decodeStep a = some (a * 24 ^ k + n % 24 ^ k) := by
  induction k generalizing n a with
  | zero => simp [lsDigits, Nat.mod_one]
  | succ k ih =>
    rw [lsDigits, List.reverse_cons, List.foldlM_append, ih]
    simp only [Option.bind_eq_bind, Option.bind_some, List.foldlM_cons, List.foldlM_nil, decodeStep,
      base24ToCh_chToBase24 _ (Nat.mod_lt _ (by decide)), Option.pure_def]
    congr 1
    rw [pow_succ', Nat.mod_mul]
    ring

theorem beValue_toBe4 {g : List ℕ} (hg : g.length = 4) (hb : ∀ b ∈ g, b < 256) :
    beValue g < 2 ^ 32 ∧ toBe4 (beValue g) = g := by
  match g, hg with
  | [a, b, c, d], _ =>
    have ha := hb a (by simp)
    have hb' := hb b (by simp)
    have hc := hb c (by simp)
    have hd := hb d (by simp)
    simp only [beValue, toBe4, List.foldl_cons, List.foldl_nil, List.cons.injEq, and_true]
    omega

theorem decodeGroup_lsDigits {g : List ℕ} (hg : g.length = 4) (hb : ∀ b ∈ g, b < 256) :
    decodeGroup (lsDigits 7 (beValue g)).reverse = some (beValue g) := by
  rw [decodeGroup, foldlM_decodeStep_lsDigits, Nat.zero_mul, Nat.zero_add,
    Nat.mod_eq_of_lt (lt_of_lt_of_le (beValue_toBe4 hg hb).1 (by decide))]

theorem foldl_pushDigits (L : List (List ℕ)) (accum : List ℕ) :
    L.foldl (fun accum g => pushDigits 7 (beValue g) accum) accum =
      accum ++ (L.map fun g => lsDigits 7 (beValue g)).flatten := by
  induction L generalizing accum with
  | nil => simp
  | cons g L ih => rw [List.foldl_cons, ih, pushDigits_eq, List.map_cons, List.flatten_cons, List.append_assoc]

theorem foldlM_pushGroup (L : List (List ℕ)) (hL : ∀ g ∈ L, g.length = 4 ∧ ∀ b ∈ g, b < 256)
    (accum : List ℕ) :
    (L.map fun g => (lsDigits 7 (beValue g)).reverse).foldlM pushGroup accum = some (accum ++ L.flatten) := by
  induction L generalizing accum with
  | nil => simp
  | cons g L ih =>
    have hg := hL g List.mem_cons_self
    rw [List.map_cons, List.foldlM_cons, pushGroup, decodeGroup_lsDigits hg.1 hg.2]
    simp only [Option.pure_def, Option.bind_eq_bind, Option.bind_some]
    rw [(beValue_toBe4 hg.1 hg.2).2, ih fun h hh => hL h (List.mem_cons_of_mem g hh), List.flatten_cons,
      List.append_assoc]

theorem base24To_toBase24 (s : List ℕ) (hs : ∀ b ∈ s, b < 256) (hlen : s.length % 4 = 0) :
    (toBase24 s).bind base24To = some (groups 4 s).reverse.flatten := by
  have hG : ∀ g ∈ (groups 4 s).reverse, g.length = 4 ∧ ∀ b ∈ g, b < 256 := by
    intro g hg
    rw [List.mem_reverse] at hg
    refine ⟨length_of_mem_groups s (Nat.dvd_of_mod_eq_zero hlen) g hg, fun b hb => hs b ?_⟩
    rw [← flatten_groups (n := 4) (by decide) s]
    exact List.mem_flatten.mpr ⟨g, hg, hb⟩
  set D := (groups 4 s).reverse.map fun g => (lsDigits 7 (beValue g)).reverse with hD
  have htext : toBase24 s = some D.flatten := by
    rw [toBase24, if_pos hlen, foldl_pushDigits, List.nil_append, List.reverse_flatten, List.map_map,
      ← List.map_reverse]
    rfl
  have hD7 : ∀ d ∈ D, d.length = 7 := by
    intro d hd
    obtain ⟨g, -, rfl⟩ := List.mem_map.mp hd
    rw [List.length_reverse, length_lsDigits]
  have hdigit : ∀ c ∈ D.flatten, ∃ d < 24, c = chToBase24 d := by
    intro c hc
    obtain ⟨l, hl, hcl⟩ := List.mem_flatten.mp hc
    obtain ⟨g, -, rfl⟩ := List.mem_map.mp hl
    exact digit_of_mem_lsDigits (List.mem_reverse.mp hcl)
  have hkept : (D.flatten.filter fun c => decide (c ∉ "- ".toList.map Char.toNat)).map chToUpper =
      D.flatten := by
    rw [List.filter_eq_self.mpr, List.map_congr_left, List.map_id]
    · intro c hc
      obtain ⟨d, hd, rfl⟩ := hdigit c hc
      exact (chToBase24_kept d hd).2
    · intro c hc
      obtain ⟨d, hd, rfl⟩ := hdigit c hc
      exact decide_eq_true (chToBase24_kept d hd).1
  have hlen7 : D.flatten.length % 7 = 0 := by
    rw [List.length_flatten, List.map_congr_left (g := fun _ => 7) hD7, List.map_const',
      List.sum_replicate_nat]
    exact Nat.mul_mod_left _ _
  rw [htext, Option.bind_some, base24To, hkept, if_pos hlen7, groups_flatten (by norm_num) D hD7, hD, foldlM_pushGroup _ hG, List.nil_append]

/-- Two groups, the second one holding 1: `base24>` after `>base24` gives the
groups back in the other order. -/
theorem base24_round_trip_swaps_groups :
    (toBase24 [0, 0, 0, 0, 0, 0, 0, 1]).bind base24To = some [0, 0, 0, 1, 0, 0, 0, 0] := by
  have hgroups : groups 4 [0, 0, 0, 0, 0, 0, 0, 1] = [[0, 0, 0, 0], [0, 0, 0, 1]] :=
    groups_flatten (n := 4) (by decide) [[0, 0, 0, 0], [0, 0, 0, 1]] (by decide)
  rw [base24To_toBase24 _ (by decide) (by decide), hgroups]
  rfl

end FactorProofs.Codecs
