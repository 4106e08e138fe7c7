import FactorProofs.Vm.Layouts
import FactorProofs.Math.Floats
import Mathlib.Data.Int.Bitwise

namespace FactorProofs.Kernel

open FactorProofs.Vm FactorProofs.Math

/-- The integers of the numeric tower: an immediate fixnum or a boxed bignum,
which `>bignum` may build for any value. -/
inductive Integer where
  | fixnum (n : Fixnum)
  | bignum (n : Int)
  deriving DecidableEq

/-- The numeric objects the kernel's `=` and `hashcode*` methods are written
for. A ratio tuple holds two integers. -/
inductive Obj where
  | int (n : Integer)
  | float (x : Double)
  | ratio (numerator denominator : Integer)
  deriving DecidableEq

/-- `eq?` compares cells: a fixnum is its own tagged value, and any other cell
is a pointer, which a value model cannot see. So identity is a parameter with
what the kernel relies on: it is symmetric, fixnums are identical when their
values are, and an object is only identical to itself. -/
structure Identity where
  same : Obj → Obj → Bool
  symm : ∀ x y, same x y = same y x
  same_fixnum : ∀ a b, same (.int (.fixnum a)) (.int (.fixnum b)) = decide (a = b)
  eq_of_same : ∀ {x y}, same x y = true → x = y

def bothFixnums : Obj → Obj → Bool
  | .int (.fixnum _), .int (.fixnum _) => true
  | _, _ => false

def Integer.value : Integer → Int
  | .fixnum n => n.val
  | .bignum n => n

/-- How deep the methods below recurse: a ratio calls them on its components. -/
def Obj.rank : Obj → Nat
  | .ratio _ _ => 1
  | _ => 0

mutual

/-- `=`: `eq?` objects are equal, two fixnums that are not `eq?` are not, and
otherwise `equal?` decides. -/
def factorEq (I : Identity) (x y : Obj) : Bool :=
  if I.same x y then true else if bothFixnums x y then false else equalP I x y
termination_by (y.rank, 1)

/-- `equal?` dispatches on its second object, `y`. The fixnum method accepts
only a bignum of the same value, the bignum method a bignum or a fixnum, the
float method a float under `float=`, and the ratio method compares the
denominators and then the numerators with `=`. -/
def equalP (I : Identity) (x : Obj) : Obj → Bool
  | .int (.fixnum b) => match x with
    | .int (.bignum a) => a == b.val
    | _ => false
  | .int (.bignum b) => match x with
    | .int (.bignum a) => a == b
    | .int (.fixnum a) => a.val == b
    | _ => false
  | .float b => match x with
    | .float a => floatEq a b
    | _ => false
  | .ratio c d => match x with
    | .ratio a b => factorEq I (.int b) (.int d) && factorEq I (.int a) (.int c)
    | _ => false
termination_by y => (y.rank, 0)
decreasing_by all_goals exact .left _ _ (by simp [Obj.rank])

end

/-- `bignum>fixnum`: the low bits of the value, retagged as a fixnum. -/
def bignumToFixnum (n : Int) : Int := retagFixnum n

/-- `hashcode*`. The depth is only read by the methods of compound objects,
and a ratio hashes its components with `hashcode`, that is at depth 3. -/
def hashcodeStar (_depth : Int) : Obj → Int
  | .int (.fixnum n) => n.val
  | .int (.bignum n) => bignumToFixnum n
  | .float x => floatBits x
  | .ratio a b => Int.xor (hashcodeStar 3 (.int a)) (hashcodeStar 3 (.int b))
termination_by x => x.rank
decreasing_by all_goals simp [Obj.rank]

def hashcode (x : Obj) : Int := hashcodeStar 3 x

variable (I : Identity)

theorem same_of_ne {x y : Obj} (h : x ≠ y) : I.same x y = false := by
  cases hs : I.same x y
  · rfl
  · exact absurd (I.eq_of_same hs) h

theorem factorEq_int (a b : Integer) :
    factorEq I (.int a) (.int b) = decide (a.value = b.value) := by
  rw [factorEq]
  by_cases h : a.value = b.value
  · cases a <;> cases b
    case fixnum.fixnum a b =>
      have hab : a = b := by cases a; cases b; simp_all [Integer.value]
      simp [hab, I.same_fixnum]
    all_goals simp_all [same_of_ne, bothFixnums, equalP, Integer.value]
  · have hne : Obj.int a ≠ .int b := fun he => h (by cases he; rfl)
    rw [same_of_ne I hne, decide_eq_false h]
    cases a <;> cases b <;> simp_all [bothFixnums, equalP, Integer.value]

/-- Integers, floats and ratios: `equal?` never relates two different kinds. -/
def Obj.kind : Obj → Nat
  | .int _ => 0
  | .float _ => 1
  | .ratio _ _ => 2

theorem equalP_of_kind_ne {x y : Obj} (h : x.kind ≠ y.kind) : equalP I x y = false := by
  rcases x with (a | a) | a | ⟨a, b⟩ <;> rcases y with (c | c) | c | ⟨c, e⟩ <;>
    simp_all [Obj.kind, equalP]

theorem factorEq_symm (x y : Obj) : factorEq I x y = factorEq I y x := by
  cases x <;> cases y
  case int.int a b => simp only [factorEq_int, eq_comm]
  case float.float a b =>
    rw [factorEq, factorEq, I.symm, equalP, equalP, floatEq_symm]
    rfl
  case ratio.ratio a b c d =>
    rw [factorEq, factorEq, I.symm, equalP, equalP]
    simp only [factorEq_int, eq_comm, Bool.and_comm]
    rfl
  all_goals
    rw [factorEq, factorEq, I.symm, same_of_ne I (by simp),
      equalP_of_kind_ne I (by simp [Obj.kind]), equalP_of_kind_ne I (by simp [Obj.kind])]
    simp [bothFixnums]

theorem hashcodeStar_int (d : Int) (a : Integer) :
    hashcodeStar d (.int a) = retagFixnum a.value := by
  cases a with
  | fixnum n => rw [hashcodeStar, Integer.value, retagFixnum_of_range n.min_le n.le_max]
  | bignum n => rw [hashcodeStar, bignumToFixnum, Integer.value]

/-- Equal numbers hash alike, with one exception: `float=` identifies the two
zeros, whose single-precision patterns differ in the sign bit. -/
theorem hashcodeStar_of_factorEq {x y : Obj} (d : Int) (h : factorEq I x y = true) :
    hashcodeStar d x = hashcodeStar d y ∨
      (x = .float 0 ∧ y = .float 0x8000000000000000) ∨
      (x = .float 0x8000000000000000 ∧ y = .float 0) := by
  by_cases hs : I.same x y
  · exact .inl (by rw [I.eq_of_same hs])
  rw [factorEq, if_neg hs] at h
  cases x <;> cases y
  case int.int a b =>
    left
    have hv := factorEq_int I a b
    rw [factorEq, if_neg hs, h] at hv
    rw [hashcodeStar_int, hashcodeStar_int, of_decide_eq_true hv.symm]
  case float.float a b =>
    rw [if_neg (by simp [bothFixnums]), equalP] at h
    rcases eq_of_floatEq h with rfl | ⟨ha, hb⟩
    · exact .inl rfl
    · rcases (fpZero_iff a).mp ha with rfl | rfl <;>
        rcases (fpZero_iff b).mp hb with rfl | rfl <;> simp
  case ratio.ratio a b c e =>
    left
    rw [if_neg (by simp [bothFixnums]), equalP, Bool.and_eq_true, factorEq_int, factorEq_int,
      decide_eq_true_iff, decide_eq_true_iff] at h
    rw [hashcodeStar, hashcodeStar, hashcodeStar_int, hashcodeStar_int, hashcodeStar_int,
      hashcodeStar_int, h.1, h.2]
  all_goals
    rw [equalP_of_kind_ne I (by simp [Obj.kind])] at h
    simp at h

theorem hashcodeStar_of_factorEq_mixed :
    let I : Identity := ⟨fun x y => decide (x = y), fun x y => by simp only [eq_comm], fun a b => by simp,
      of_decide_eq_true⟩
    let five : Obj := .int (.fixnum ⟨5, by decide, by decide⟩)
    let half : Obj := .ratio (.fixnum ⟨1, by decide, by decide⟩) (.fixnum ⟨2, by decide, by decide⟩)
    let half' : Obj := .ratio (.bignum 1) (.bignum 2)
    (factorEq I five (.int (.bignum 5)) = true ∧
      (hashcodeStar 3 five = hashcodeStar 3 (.int (.bignum 5)) ∨
        (five = .float 0 ∧ Obj.int (.bignum 5) = .float 0x8000000000000000) ∨
        (five = .float 0x8000000000000000 ∧ Obj.int (.bignum 5) = .float 0))) ∧
    (factorEq I half half' = true ∧
      (hashcodeStar 3 half = hashcodeStar 3 half' ∨
        (half = .float 0 ∧ half' = .float 0x8000000000000000) ∨
        (half = .float 0x8000000000000000 ∧ half' = .float 0))) ∧
    (factorEq I (.float 0) (.float 0x8000000000000000) = true ∧
      (hashcodeStar 3 (.float 0) = hashcodeStar 3 (.float 0x8000000000000000) ∨
        (Obj.float 0 = .float 0 ∧ Obj.float 0x8000000000000000 = .float 0x8000000000000000) ∨
        (Obj.float 0 = .float 0x8000000000000000 ∧ Obj.float 0x8000000000000000 = .float 0))) := by
  intro I five half half'
  have h₁ : factorEq I five (.int (.bignum 5)) = true := by
    rw [factorEq, same_of_ne I (by decide), if_neg (by decide), equalP]
    decide
  have h₂ : factorEq I half half' = true := by
    rw [factorEq, same_of_ne I (by decide), if_neg (by decide), equalP, factorEq, factorEq,
      same_of_ne I (by decide), same_of_ne I (by decide), if_neg (by decide), if_neg (by decide), equalP, equalP]
    decide
  have h₃ : factorEq I (.float 0) (.float 0x8000000000000000) = true := by
    rw [factorEq, same_of_ne I (by decide), if_neg (by decide), equalP]
    decide
  exact ⟨⟨h₁, hashcodeStar_of_factorEq I 3 h₁⟩, ⟨h₂, hashcodeStar_of_factorEq I 3 h₂⟩,
    ⟨h₃, hashcodeStar_of_factorEq I 3 h₃⟩⟩

theorem zero_eq_negZero_hashcode_ne :
    factorEq I (.float 0) (.float 0x8000000000000000) = true ∧
      hashcode (.float 0) = 0 ∧ hashcode (.float 0x8000000000000000) = 2147483648 := by
  refine ⟨?_, ?_, ?_⟩
  · rw [factorEq, same_of_ne I (by decide), if_neg (by decide), if_neg (by decide), equalP]
    decide
  · rw [hashcode, hashcodeStar]
    decide
  · rw [hashcode, hashcodeStar]
    decide

end FactorProofs.Kernel
