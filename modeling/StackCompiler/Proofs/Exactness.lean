import Mathlib.Algebra.Order.GroupWithZero.Basic
import Mathlib.Algebra.Ring.Commute
import Mathlib.Data.Int.Bitwise
import Mathlib.Tactic.NormNum
import Mathlib.Tactic.Positivity
import StackCompiler.Proofs.NormalForm

/-!
# Exact integers

Integers are computed in 128 bits before a program runs, and what is computed is exact.
`BinaryOp.exactResult?` is the result of an operator over all integers and `Expr.exactValue?` the
value of a tree of integers. An integer that such a tree folds to is its value
(`Expr.Integral.computes_of_fold`), and `BinaryOp.IsOpen` lists the operands that an operator leaves
as they are (`Number.integerResult?_eq_none_iff`).
-/

namespace StackCompiler

namespace BinaryOp

/-- The result of an operator over all integers, if it has one. Quotients are cut off toward zero
and remainders have the sign of the dividend; shifts multiply with a power of two, or divide by it
and round down; bits are those of two's complements without end; truth is one and falsehood zero. -/
def exactResult? (op : BinaryOp) (l r : Int) : Option Int :=
  match op with
  | add => some (l + r)
  | subtract => some (l - r)
  | multiply => some (l * r)
  | divide => if r = 0 then none else some (l.tdiv r)
  | modulo => if r = 0 then none else some (l.tmod r)
  | power => if 0 ≤ r then some (l ^ r.toNat) else none
  | shiftLeft => if 0 ≤ r then some (l * 2 ^ r.toNat) else none
  | shiftRight => if 0 ≤ r then some (l.fdiv (2 ^ r.toNat)) else none
  | bitAnd => some (l.land r)
  | bitOr => some (l.lor r)
  | bitXor => some (l.xor r)
  | equal => some (if l = r then 1 else 0)
  | notEqual => some (if l ≠ r then 1 else 0)
  | less => some (if l < r then 1 else 0)
  | greater => some (if l > r then 1 else 0)
  | lessEqual => some (if l ≤ r then 1 else 0)
  | greaterEqual => some (if l ≥ r then 1 else 0)
  | and => some (if l ≠ 0 ∧ r ≠ 0 then 1 else 0)
  | or => some (if l ≠ 0 ∨ r ≠ 0 then 1 else 0)

/-- The operator has no result on the two integers before the program runs: 128 bits do not hold it,
it does not exist, or the exponent or the distance of a shift is out of bounds. -/
def IsOpen (op : BinaryOp) (l r : Int) : Prop :=
  match op with
  | add => ¬ Number.FitsSigned 128 (l + r)
  | subtract => ¬ Number.FitsSigned 128 (l - r)
  | multiply => ¬ Number.FitsSigned 128 (l * r)
  | divide | modulo => r = 0 ∨ l = -2 ^ 127 ∧ r = -1
  | power => r < 0 ∨ 2 ^ 32 ≤ r ∨ ¬ Number.FitsSigned 128 (l ^ r.toNat)
  | shiftLeft => r < 0 ∨ 128 ≤ r ∨ ¬ Number.FitsSigned 128 (l * 2 ^ r.toNat)
  | shiftRight => r < 0 ∨ 128 ≤ r
  | bitAnd | bitOr | bitXor | equal | notEqual | less | greater | lessEqual | greaterEqual | and
  | or => False

end BinaryOp

namespace Number

variable {l r n v : Int}

theorem fitsSigned_iff : FitsSigned 128 n ↔ -2 ^ 127 ≤ n ∧ n < 2 ^ 127 :=
  Iff.rfl

theorem fitsUnsigned_iff : FitsUnsigned 32 n ↔ 0 ≤ n ∧ n < 2 ^ 32 :=
  Iff.rfl

theorem checked?_eq_none : checked? n = none ↔ ¬ FitsSigned 128 n :=
  ite_eq_right_iff.trans (by simp)

theorem checked?_eq_some : checked? n = some v ↔ FitsSigned 128 n ∧ n = v :=
  Option.ite_none_right_eq_some.trans (by rw [Option.some.injEq])

theorem ofTruth_decide (p : Prop) [Decidable p] : ofTruth (decide p) = if p then 1 else 0 := by
  simp only [ofTruth, decide_eq_true_eq]

theorem fitsSigned_ofTruth (b : Bool) : FitsSigned 128 (ofTruth b) := by
  cases b <;> decide

/-! ## Quotients and powers -/

/-- A quotient is held by as many bits as the dividend, but for one. -/
theorem fitsSigned_tdiv (hl : FitsSigned 128 l) (hr : r ≠ 0) :
    FitsSigned 128 (l.tdiv r) ↔ ¬ (l = -2 ^ 127 ∧ r = -1) := by
  rw [fitsSigned_iff] at hl ⊢
  by_cases hone : r.natAbs = 1
  · rcases Int.natAbs_eq_iff.1 hone with rfl | rfl
    · rw [Nat.cast_one, Int.tdiv_one]
      omega
    · rw [Nat.cast_one, Int.tdiv_neg, Int.tdiv_one]
      omega
  · have hhalf : (l.tdiv r).natAbs ≤ l.natAbs / 2 := by
      rw [Int.natAbs_tdiv]
      exact Nat.div_le_div_left (by omega) (by decide)
    omega

theorem fitsSigned_tmod (hl : FitsSigned 128 l) : FitsSigned 128 (l.tmod r) := by
  rw [fitsSigned_iff] at hl ⊢
  have hle : (l.tmod r).natAbs ≤ l.natAbs := by
    rw [Int.natAbs_tmod]
    exact Nat.mod_le _ _
  -- A remainder that is not negative has a dividend that is not negative.
  have hsign : l < 0 → l.tmod r ≤ 0 := by
    intro hneg
    have := Int.tmod_nonneg r (Int.neg_nonneg_of_nonpos hneg.le)
    rw [Int.neg_tmod] at this
    omega
  omega

/-- The powers of `-1`, `0` and `1` repeat after two steps. -/
theorem pow_of_natAbs_le_one (h : l.natAbs ≤ 1) (k : Nat) :
    l ^ (if k = 0 then 0 else 2 - k % 2) = l ^ k := by
  by_cases hk : k = 0
  · rw [if_pos hk, hk]
  · have hl : l = -1 ∨ l = 0 ∨ l = 1 := by omega
    rw [if_neg hk]
    rcases hl with rfl | rfl | rfl
    · rw [neg_one_pow_eq_pow_mod_two k]
      rcases Nat.mod_two_eq_zero_or_one k with hmod | hmod <;> norm_num [hmod]
    · rw [zero_pow hk, zero_pow (by omega)]
    · rw [one_pow, one_pow]

theorem fitsSigned_pow_of_natAbs_le_one (h : l.natAbs ≤ 1) (k : Nat) :
    FitsSigned 128 (l ^ k) := by
  have hle : (l ^ k).natAbs ≤ 1 := by
    rw [Int.natAbs_pow]
    exact pow_le_one₀ (Nat.zero_le _) h
  rw [fitsSigned_iff]
  omega

/-- From the exponent 128 on no other power fits. -/
theorem not_fitsSigned_pow (h : 1 < l.natAbs) {k : Nat} (hk : 128 ≤ k) :
    ¬ FitsSigned 128 (l ^ k) := by
  have hle : 2 ^ 128 ≤ (l ^ k).natAbs := by
    rw [Int.natAbs_pow]
    exact (Nat.pow_le_pow_right (by decide) hk).trans (Nat.pow_le_pow_left h k)
  rw [fitsSigned_iff]
  omega

/-- Powers are exact, however they are computed. -/
theorem power?_eq (l r : Int) :
    power? l r = if FitsUnsigned 32 r then checked? (l ^ r.toNat) else none := by
  by_cases hr : FitsUnsigned 32 r
  · have hzero : r = 0 ↔ r.toNat = 0 := by
      have := fitsUnsigned_iff.1 hr
      omega
    rw [power?, if_neg (not_not_intro hr), if_pos hr]
    simp only [hzero]
    by_cases hone : l.natAbs ≤ 1
    · rw [if_pos hone, eq_comm, checked?_eq_some]
      exact ⟨fitsSigned_pow_of_natAbs_le_one hone _, (pow_of_natAbs_le_one hone _).symm⟩
    · rw [if_neg hone]
      split_ifs with hlarge
      · rw [eq_comm, checked?_eq_none]
        exact not_fitsSigned_pow (by omega) (by omega)
      · rfl
  · rw [power?, if_pos hr, if_neg hr]

/-! ## Bits -/

theorem fitsSigned_natBitwise (f : Bool → Bool → Bool) {m k : Nat} (hm : m < 2 ^ 127)
    (hk : k < 2 ^ 127) : FitsSigned 128 (Int.natBitwise f m k) := by
  have hlt := fun g : Bool → Bool → Bool => Nat.bitwise_lt_two_pow (f := g) hm hk
  rw [Int.natBitwise, fitsSigned_iff]
  cases f false false with
  | false =>
    have := hlt f
    rw [cond_false]
    omega
  | true =>
    have := hlt fun x y => !f x y
    rw [cond_true]
    omega

theorem lt_of_fitsSigned_ofNat {m : Nat} (h : FitsSigned 128 (.ofNat m)) : m < 2 ^ 127 := by
  rw [fitsSigned_iff, Int.ofNat_eq_natCast] at h
  omega

theorem lt_of_fitsSigned_negSucc {m : Nat} (h : FitsSigned 128 (.negSucc m)) : m < 2 ^ 127 := by
  rw [fitsSigned_iff] at h
  omega

theorem fitsSigned_bitwise (f : Bool → Bool → Bool) (hl : FitsSigned 128 l)
    (hr : FitsSigned 128 r) : FitsSigned 128 (Int.bitwise f l r) := by
  cases l with
  | ofNat m =>
    have hm := lt_of_fitsSigned_ofNat hl
    cases r with
    | ofNat k => exact fitsSigned_natBitwise f hm (lt_of_fitsSigned_ofNat hr)
    | negSucc k =>
      exact fitsSigned_natBitwise (fun x y => f x !y) hm (lt_of_fitsSigned_negSucc hr)
  | negSucc m =>
    have hm := lt_of_fitsSigned_negSucc hl
    cases r with
    | ofNat k =>
      exact fitsSigned_natBitwise (fun x y => f (!x) y) hm (lt_of_fitsSigned_ofNat hr)
    | negSucc k =>
      exact fitsSigned_natBitwise (fun x y => f (!x) !y) hm (lt_of_fitsSigned_negSucc hr)

theorem getLsbD_ofInt {w i : Nat} (hi : i < w) (n : Int) :
    (BitVec.ofInt w n).getLsbD i = n.testBit i := by
  cases n with
  | ofNat m =>
    rw [Int.ofNat_eq_natCast, BitVec.ofInt_natCast, BitVec.getLsbD_ofNat, decide_eq_true hi,
      Bool.true_and]
    rfl
  | negSucc m =>
    rw [BitVec.ofInt_negSucc_eq_not_ofNat, BitVec.getLsbD_not, BitVec.getLsbD_ofNat,
      decide_eq_true hi, Bool.true_and, Bool.true_and]
    rfl

theorem toInt_ofInt_of_fits {n : Int} (h : FitsSigned 128 n) : (BitVec.ofInt 128 n).toInt = n := by
  obtain ⟨hle, hlt⟩ := fitsSigned_iff.1 h
  exact BitVec.toInt_ofInt_eq_self (by decide) hle hlt

/-- What is done with each bit of 128 is done with each bit of two's complements without end. -/
theorem bitwise_eq {g : BitVec 128 → BitVec 128 → BitVec 128} {f : Bool → Bool → Bool}
    (hg : ∀ x y i, (g x y).getLsbD i = f (x.getLsbD i) (y.getLsbD i)) (hl : FitsSigned 128 l)
    (hr : FitsSigned 128 r) : bitwise g l r = Int.bitwise f l r := by
  have hbits : g (BitVec.ofInt 128 l) (BitVec.ofInt 128 r) =
      BitVec.ofInt 128 (Int.bitwise f l r) := by
    refine BitVec.eq_of_getLsbD_eq fun i hi => ?_
    rw [hg, getLsbD_ofInt hi, getLsbD_ofInt hi, getLsbD_ofInt hi, Int.testBit_bitwise]
  rw [bitwise, hbits, toInt_ofInt_of_fits (fitsSigned_bitwise f hl hr)]

theorem bitwise_and_eq (hl : FitsSigned 128 l) (hr : FitsSigned 128 r) :
    bitwise (· &&& ·) l r = l.land r := by
  rw [bitwise_eq (fun _ _ _ => BitVec.getLsbD_and) hl hr, Int.bitwise_and]

theorem bitwise_or_eq (hl : FitsSigned 128 l) (hr : FitsSigned 128 r) :
    bitwise (· ||| ·) l r = l.lor r := by
  rw [bitwise_eq (fun _ _ _ => BitVec.getLsbD_or) hl hr, Int.bitwise_or]

theorem bitwise_xor_eq (hl : FitsSigned 128 l) (hr : FitsSigned 128 r) :
    bitwise (· ^^^ ·) l r = l.xor r := by
  rw [bitwise_eq (fun _ _ _ => BitVec.getLsbD_xor) hl hr, Int.bitwise_xor]

/-! ## Shifts -/

theorem fitsSigned_toInt (x : BitVec 128) : FitsSigned 128 x.toInt :=
  fitsSigned_iff.2 ⟨x.le_toInt, x.toInt_lt⟩

theorem shiftLeft_ofInt (n : Int) (k : Nat) :
    BitVec.ofInt 128 n <<< k = BitVec.ofInt 128 (n * 2 ^ k) := by
  have hpow : BitVec.twoPow 128 k = BitVec.ofInt 128 (2 ^ k) := by
    have hcast : (2 ^ k : Int) = ((2 ^ k : Nat) : Int) := by push_cast; rfl
    rw [hcast, BitVec.ofInt_natCast]
    exact BitVec.eq_of_toNat_eq (by rw [BitVec.toNat_twoPow, BitVec.toNat_ofNat])
  rw [BitVec.shiftLeft_eq_mul_twoPow, BitVec.ofInt_mul, hpow]

/-- The multiple that is left of an integer in 128 bits is a multiple itself. -/
theorem two_pow_dvd_toInt_ofInt (n : Int) {k : Nat} (hk : k < 128) :
    (2 ^ k : Int) ∣ (BitVec.ofInt 128 (n * 2 ^ k)).toInt := by
  have hword : (2 ^ k : Int) ∣ ((2 ^ 128 : Nat) : Int) := by
    rw [Nat.cast_pow, Nat.cast_ofNat]
    exact pow_dvd_pow 2 hk.le
  rw [BitVec.toInt_ofInt]
  exact (Int.dvd_iff_dvd_of_dvd_sub (hword.trans Int.dvd_bmod_sub_self)).2 (Dvd.intro_left n rfl)

/-- Shifting back gives the integer exactly if no bit of its multiple was lost. -/
theorem sshiftRight_shiftLeft_eq_iff {n : Int} (h : FitsSigned 128 n) {k : Nat} (hk : k < 128) :
    (BitVec.ofInt 128 n <<< k).sshiftRight k = BitVec.ofInt 128 n ↔
      FitsSigned 128 (n * 2 ^ k) := by
  rw [← BitVec.toInt_inj, BitVec.toInt_sshiftRight, toInt_ofInt_of_fits h, shiftLeft_ofInt,
    Int.shiftRight_eq_div_pow, Nat.cast_pow, Nat.cast_ofNat]
  constructor
  · intro hback
    have hexact : (BitVec.ofInt 128 (n * 2 ^ k)).toInt = n * 2 ^ k := by
      conv_rhs => rw [← hback]
      exact (Int.ediv_mul_cancel (two_pow_dvd_toInt_ofInt n hk)).symm
    exact hexact ▸ fitsSigned_toInt _
  · intro hfits
    rw [toInt_ofInt_of_fits hfits]
    exact Int.mul_ediv_cancel n (by positivity)

/-- A shift to the left in 128 bits, checked by shifting back, is the exact multiple where it
fits. -/
theorem shiftLeft?_eq (hl : FitsSigned 128 l) (r : Int) :
    shiftLeft? l r = if 0 ≤ r ∧ r < 128 then checked? (l * 2 ^ r.toNat) else none := by
  rw [shiftLeft?]
  refine ite_congr rfl (fun hr => ?_) fun _ => rfl
  have hiff := sshiftRight_shiftLeft_eq_iff hl (k := r.toNat) (by omega)
  dsimp only
  by_cases hfits : FitsSigned 128 (l * 2 ^ r.toNat)
  · rw [if_pos (hiff.2 hfits), checked?, if_pos hfits, shiftLeft_ofInt, toInt_ofInt_of_fits hfits]
  · rw [if_neg (mt hiff.1 hfits), checked?, if_neg hfits]

/-- A shift to the right in 128 bits is a quotient, rounded down. -/
theorem shiftRight?_eq (hl : FitsSigned 128 l) (r : Int) :
    shiftRight? l r = if 0 ≤ r ∧ r < 128 then some (l.fdiv (2 ^ r.toNat)) else none := by
  rw [shiftRight?, BitVec.toInt_sshiftRight, toInt_ofInt_of_fits hl, Int.shiftRight_eq_div_pow,
    Nat.cast_pow, Nat.cast_ofNat, Int.fdiv_eq_ediv_of_nonneg l (by positivity)]

theorem fitsSigned_shiftRight? (h : shiftRight? l r = some v) : FitsSigned 128 v := by
  rw [shiftRight?, Option.ite_none_right_eq_some] at h
  obtain ⟨-, h⟩ := h
  cases h
  exact fitsSigned_toInt _

/-! ## Operators -/

/-- An operator is left open on exactly the operands listed. -/
theorem integerResult?_eq_none_iff {op : BinaryOp} (hl : FitsSigned 128 l) :
    integerResult? op l r = none ↔ op.IsOpen l r := by
  cases op with
  | add | subtract | multiply => exact checked?_eq_none
  | divide =>
    rw [integerResult?, BinaryOp.IsOpen]
    split_ifs with hr
    · simp [hr]
    · rw [checked?_eq_none, fitsSigned_tdiv hl hr, not_not, or_iff_right hr]
  | modulo =>
    rw [integerResult?, BinaryOp.IsOpen]
    split_ifs with hr
    · simp [hr]
    · rw [Option.map_eq_none_iff, checked?_eq_none, fitsSigned_tdiv hl hr, not_not,
        or_iff_right hr]
  | power =>
    rw [integerResult?, BinaryOp.IsOpen, power?_eq]
    split_ifs with hr
    · rw [fitsUnsigned_iff] at hr
      rw [checked?_eq_none, or_iff_right (not_lt.2 hr.1), or_iff_right (not_le.2 hr.2)]
    · rw [fitsUnsigned_iff, not_and_or, not_le, not_lt] at hr
      exact iff_of_true rfl (hr.imp_right .inl)
  | shiftLeft =>
    rw [integerResult?, BinaryOp.IsOpen, shiftLeft?_eq hl]
    split_ifs with hr
    · rw [checked?_eq_none, or_iff_right (not_lt.2 hr.1), or_iff_right (not_le.2 hr.2)]
    · rw [not_and_or, not_le, not_lt] at hr
      exact iff_of_true rfl (hr.imp_right .inl)
  | shiftRight =>
    rw [integerResult?, BinaryOp.IsOpen, shiftRight?_eq hl]
    split_ifs with hr
    · exact iff_of_false not_false (by omega)
    · exact iff_of_true rfl (by omega)
  | bitAnd | bitOr | bitXor | equal | notEqual | less | greater | lessEqual | greaterEqual | and
  | or => exact iff_of_false (Option.some_ne_none _) not_false

/-- A result in 128 bits is the result over all integers. -/
theorem exactResult?_of_integerResult? {op : BinaryOp} (hl : FitsSigned 128 l)
    (hr : FitsSigned 128 r) (h : integerResult? op l r = some v) :
    op.exactResult? l r = some v ∧ FitsSigned 128 v := by
  cases op with
  | add | subtract | multiply =>
    obtain ⟨hfits, rfl⟩ := checked?_eq_some.1 h
    exact ⟨rfl, hfits⟩
  | divide =>
    rw [integerResult?, Option.ite_none_left_eq_some] at h
    obtain ⟨hzero, h⟩ := h
    obtain ⟨hfits, rfl⟩ := checked?_eq_some.1 h
    exact ⟨if_neg hzero, hfits⟩
  | modulo =>
    rw [integerResult?, Option.ite_none_left_eq_some] at h
    obtain ⟨hzero, h⟩ := h
    obtain ⟨_, _, rfl⟩ := Option.map_eq_some_iff.1 h
    exact ⟨if_neg hzero, fitsSigned_tmod hl⟩
  | power =>
    rw [integerResult?, power?_eq, Option.ite_none_right_eq_some] at h
    obtain ⟨hbounds, h⟩ := h
    obtain ⟨hfits, rfl⟩ := checked?_eq_some.1 h
    exact ⟨if_pos hbounds.1, hfits⟩
  | shiftLeft =>
    rw [integerResult?, shiftLeft?_eq hl, Option.ite_none_right_eq_some] at h
    obtain ⟨hbounds, h⟩ := h
    obtain ⟨hfits, rfl⟩ := checked?_eq_some.1 h
    exact ⟨if_pos hbounds.1, hfits⟩
  | shiftRight =>
    have hfits := fitsSigned_shiftRight? h
    rw [integerResult?, shiftRight?_eq hl, Option.ite_none_right_eq_some] at h
    obtain ⟨hbounds, h⟩ := h
    cases h
    exact ⟨if_pos hbounds.1, hfits⟩
  | bitAnd =>
    cases h
    rw [bitwise_and_eq hl hr]
    exact ⟨rfl, Int.bitwise_and ▸ fitsSigned_bitwise _ hl hr⟩
  | bitOr =>
    cases h
    rw [bitwise_or_eq hl hr]
    exact ⟨rfl, Int.bitwise_or ▸ fitsSigned_bitwise _ hl hr⟩
  | bitXor =>
    cases h
    rw [bitwise_xor_eq hl hr]
    exact ⟨rfl, Int.bitwise_xor ▸ fitsSigned_bitwise _ hl hr⟩
  | equal | notEqual | less | greater | lessEqual | greaterEqual | and | or =>
    cases h
    exact ⟨congrArg some (ofTruth_decide _).symm, fitsSigned_ofTruth _⟩

end Number

/-! ## Trees -/

namespace Expr

/-- The value of a tree of integers over all integers, if it has one. -/
def exactValue? : Expr → Option Int
  | literal (.integer n) _ => some n
  | binary op l r _ => l.exactValue?.bind fun a => r.exactValue?.bind fun b => op.exactResult? a b
  | _ => none

/-- A tree of integers of 128 bits and binary operators. -/
inductive Integral : Expr → Prop where
  | literal {n : Int} (h : Number.FitsSigned 128 n) (range : Range) :
    Integral (.literal (.integer n) range)
  | binary (op : BinaryOp) {l r : Expr} (hl : Integral l) (hr : Integral r) (range : Range) :
    Integral (.binary op l r range)

/-- The value of the tree is `v`, and no value in it takes more than 128 bits. -/
structure Computes (e : Expr) (v : Int) : Prop where
  value : e.exactValue? = some v
  fits : ∀ n ∈ e.nodes, ∃ k, n.exactValue? = some k ∧ Number.FitsSigned 128 k

theorem Computes.fitsSigned {e : Expr} {v : Int} (h : e.Computes v) : Number.FitsSigned 128 v := by
  obtain ⟨k, hk, hfits⟩ := h.fits e e.mem_nodes_self
  rw [h.value, Option.some.injEq] at hk
  exact hk ▸ hfits

/-- A result of two values in 128 bits is the value of the node over them. -/
theorem Computes.binary {op : BinaryOp} {a b : Expr} {l r v : Int} {range : Range}
    (ha : a.Computes l) (hb : b.Computes r) (h : Number.integerResult? op l r = some v) :
    (Expr.binary op a b range).Computes v := by
  obtain ⟨hv, hfits⟩ := Number.exactResult?_of_integerResult? ha.fitsSigned hb.fitsSigned h
  have hvalue : (Expr.binary op a b range).exactValue? = some v := by
    rw [exactValue?, ha.value, hb.value]
    exact hv
  exact ⟨hvalue, forall_mem_nodes_binary.2 ⟨⟨v, hvalue, hfits⟩, ha.fits, hb.fits⟩⟩

/-- What a tree of integers folds to, if it is a constant, is its value. -/
theorem Integral.computes_of_fold {e : Expr} (he : e.Integral) {value : Literal} {range : Range}
    (h : e.fold = .literal value range) : ∃ v, value = .integer v ∧ e.Computes v := by
  induction he generalizing value range with
  | @literal n hn place =>
    cases h
    exact ⟨n, rfl, rfl, List.forall_mem_singleton.2 ⟨n, rfl, hn⟩⟩
  | binary op _ _ place ihl ihr =>
    rcases fold_binary op _ _ place with ⟨vl, vr, v, _, _, hl, hr, hv, hf⟩ | ⟨_, hf⟩
    · obtain ⟨l, rfl, hcl⟩ := ihl hl
      obtain ⟨r, rfl, hcr⟩ := ihr hr
      obtain ⟨v, hresult, rfl⟩ := Option.map_eq_some_iff.1 hv
      rw [hf] at h
      cases h
      exact ⟨v, rfl, hcl.binary hcr hresult⟩
    · rw [hf] at h
      cases h

/-- A binary node whose operands fold to integers is left open, or folds to their result. -/
theorem fold_binary_of_integers (op : BinaryOp) {a b : Expr} {l r : Int} {pl pr : Range}
    (range : Range) (ha : a.fold = literal (.integer l) pl)
    (hb : b.fold = literal (.integer r) pr) :
    Number.integerResult? op l r = none ∧
        (binary op a b range).fold = binary op a.fold b.fold range ∨
      ∃ v, Number.integerResult? op l r = some v ∧
        (binary op a b range).fold = literal (.integer v) range := by
  rw [Expr.fold, ha, hb]
  dsimp only [constant?, Literal.combine?]
  cases Number.integerResult? op l r with
  | none => exact .inl ⟨rfl, rfl⟩
  | some v => exact .inr ⟨v, rfl, rfl⟩

end Expr

/-- Integer folding is exact. If a tree of integers of 128 bits folds to an integer, that integer is
the value of the tree over all integers, and every part of the tree has a value that 128 bits hold.
A binary node whose operands fold to integers of 128 bits stays a binary node exactly where `IsOpen`
says so; otherwise it folds to the result over all integers. -/
theorem Expr.fold_integers_exact :
    (∀ (e : Expr) v range, e.Integral → e.fold = .literal (.integer v) range →
      e.exactValue? = some v ∧
        ∀ n ∈ e.nodes, ∃ k, n.exactValue? = some k ∧ Number.FitsSigned 128 k) ∧
    ∀ (op : BinaryOp) (a b : Expr) l r pl pr range, a.fold = .literal (.integer l) pl →
      b.fold = .literal (.integer r) pr → Number.FitsSigned 128 l → Number.FitsSigned 128 r →
      ((Expr.binary op a b range).fold = .binary op a.fold b.fold range ↔ op.IsOpen l r) ∧
        (¬ op.IsOpen l r → ∃ v, op.exactResult? l r = some v ∧
          (Expr.binary op a b range).fold = .literal (.integer v) range) := by
  constructor
  · intro e v range he h
    obtain ⟨_, hv, hc⟩ := he.computes_of_fold h
    cases hv
    exact ⟨hc.value, hc.fits⟩
  · intro op a b l r pl pr range ha hb hl hr
    rw [← Number.integerResult?_eq_none_iff hl]
    rcases fold_binary_of_integers op range ha hb with ⟨hnone, hf⟩ | ⟨v, hv, hf⟩
    · exact ⟨iff_of_true hf hnone, fun h => absurd hnone h⟩
    · rw [hv, hf]
      have hvalue := (Number.exactResult?_of_integerResult? hl hr hv).1
      exact ⟨iff_of_false nofun (Option.some_ne_none v), fun _ => ⟨v, hvalue, rfl⟩⟩

/-- The least integer of 128 bits is folded from a shift, and its quotient by `-1` is left open. -/
theorem Expr.fold_integers_exact_least :
    let least : Expr :=
      .binary .shiftLeft (.literal (.integer (-1)) ⟨1, 0, 2⟩) (.literal (.integer 127) ⟨1, 6, 9⟩)
        ⟨1, 0, 9⟩
    let divisor : Expr := .literal (.integer (-1)) ⟨1, 12, 14⟩
    least.Integral ∧ least.fold = .literal (.integer (-2 ^ 127)) ⟨1, 0, 9⟩ ∧
      least.exactValue? = some (-2 ^ 127) ∧
      (Expr.binary .divide least divisor ⟨1, 0, 14⟩).fold =
        .binary .divide least.fold divisor ⟨1, 0, 14⟩ := by
  intro least divisor
  have hleast : least.Integral := .binary _ (.literal (by decide) _) (.literal (by decide) _) _
  have hfold : least.fold = .literal (.integer (-2 ^ 127)) ⟨1, 0, 9⟩ := by decide
  have hdivide := Expr.fold_integers_exact.2 .divide least divisor (-2 ^ 127) (-1) ⟨1, 0, 9⟩
    ⟨1, 12, 14⟩ ⟨1, 0, 14⟩ hfold rfl (by decide) (by decide)
  exact ⟨hleast, hfold, (Expr.fold_integers_exact.1 least _ _ hleast hfold).1,
    hdivide.1.2 (.inr ⟨rfl, rfl⟩)⟩

end StackCompiler
