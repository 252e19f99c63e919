import Mathlib.Data.Int.ConditionallyCompleteOrder
import Mathlib.Data.Int.ModEq
import Mathlib.Data.Nat.Digits.Defs
import StackCompiler.Proofs.Decoding
import StackCompiler.Proofs.Execution

/-!
# Integers in instructions

An integer stands in the code itself in one, two, four or eight bytes. `Opcode.integer?` reads such
an operand back by what its bytes mean, without regard to how they were written: little-endian
digits in base 256, in two's complement. `Instruction.immediate_roundTrips` says that this gives
the integer again, reduced to 64 bits, and that no smaller operand would hold it.
-/

namespace StackCompiler

/-- The integers that so many bytes hold in two's complement. -/
def signedRange (width : Nat) : Set Int :=
  Set.Ico (-2 ^ (8 * width - 1)) (2 ^ (8 * width - 1))

instance (width : Nat) (v : Int) : Decidable (v ∈ signedRange width) :=
  inferInstanceAs (Decidable (_ ∧ _))

namespace Bytes

/-- The integer of little-endian bytes in two's complement. -/
def signed (bytes : List UInt8) : Int :=
  (BitVec.ofNat (8 * bytes.length) (Nat.ofDigits 256 (bytes.map UInt8.toNat))).toInt

theorem toNat_eq_ofDigits (bytes : List UInt8) :
    toNat bytes = Nat.ofDigits 256 (bytes.map UInt8.toNat) := by
  induction bytes with
  | nil => rfl
  | cons b bytes ih => rw [toNat, ih, List.map_cons, Nat.ofDigits_cons]

theorem signed_eq_toInt (bytes : List UInt8) : signed bytes = toInt bytes := by
  rw [signed, BitVec.toInt_ofNat', ← toNat_eq_ofDigits, toInt, Nat.one_shiftLeft]

end Bytes

section Ranges

variable {u v : Int} {width : Nat}

theorem mem_signedRange : v ∈ signedRange width ↔ Number.FitsSigned (8 * width) v := by
  rw [signedRange, Set.mem_Ico, Number.FitsSigned, Nat.one_shiftLeft, Nat.cast_pow]
  rfl

theorem signedRange_subset {n m : Nat} (h : n ≤ m) : signedRange n ⊆ signedRange m := by
  have hpow : (2 : Int) ^ (8 * n - 1) ≤ 2 ^ (8 * m - 1) :=
    pow_le_pow_right₀ (by decide) (by omega)
  exact Set.Ico_subset_Ico (neg_le_neg hpow) hpow

/-- In each class of integers modulo `2 ^ 64` eight bytes hold one, the balanced remainder. -/
theorem mem_signedRange_and_modEq_iff :
    u ∈ signedRange 8 ∧ u ≡ v [ZMOD 2 ^ 64] ↔ u = v.bmod (1 <<< 64) := by
  have hiff := Int.bmod_eq_iff (a := v) (b := 1 <<< 64) (c := u) (by decide)
  rw [eq_comm, hiff, Int.modEq_comm, Int.modEq_iff_dvd, ← and_assoc]
  -- What is left is how the bounds are written.
  rfl

end Ranges

/-- The instructions for integers that stand in the code itself. -/
def Opcode.immediates : List Opcode :=
  [loadImmediate8, loadImmediate16, loadImmediate32, loadImmediate64]

/-- The integer in the operand of such an instruction, if the operand is as long as it has to be. -/
def Opcode.integer? (op : Opcode) (operand : List UInt8) : Option Int :=
  if op ∈ immediates ∧ op.width? = some operand.length then some (Bytes.signed operand) else none

namespace Instruction

/-- How the integer is written, with the width of the operand: it holds the integer if any operand
does, and no smaller operand holds it. -/
theorem exists_immediate_eq (v : Int) :
    ∃ op width, immediate v = (op, Bytes.ofInt width v) ∧ op ∈ Opcode.immediates ∧
      width ∈ [1, 2, 4, 8] ∧ (v ∈ signedRange width ∨ width = 8) ∧
      ∀ n ∈ [1, 2, 4, 8], v ∈ signedRange n → width ≤ n := by
  simp only [mem_signedRange]
  rw [immediate]
  split_ifs with h8 h16 h32
  · exact ⟨_, 1, rfl, by decide, by decide, .inl h8, by simp⟩
  · exact ⟨_, 2, rfl, by decide, by decide, .inl h16, by simp [h8]⟩
  · exact ⟨_, 4, rfl, by decide, by decide, .inl h32, by simp [h8, h16]⟩
  · -- Whether eight bytes hold the integer is not asked.
    exact ⟨_, 8, rfl, by decide, by decide, .inr rfl, by simp [h8, h16, h32]⟩

/-- The operand is as long as its instruction says. -/
theorem width?_immediate (v : Int) : (immediate v).1.width? = some (immediate v).2.length :=
  width?_ofInteger v none

/-- Integers are read back reduced to 64 bits. -/
theorem integer?_immediate (v : Int) :
    (immediate v).1.integer? (immediate v).2 = some (v.bmod (1 <<< 64)) := by
  obtain ⟨op, width, himmediate, hop, -⟩ := exists_immediate_eq v
  have hmem : (immediate v).1 ∈ Opcode.immediates := by
    rw [himmediate]
    exact hop
  rw [Opcode.integer?, if_pos ⟨hmem, width?_immediate v⟩, Bytes.signed_eq_toInt, toInt_immediate]

/-- Integers of 64 bits that are written alike are equal. -/
theorem immediate_injOn : Set.InjOn immediate (signedRange 8) := by
  intro v hv v' hv' h
  have hread := integer?_immediate v
  rw [h, integer?_immediate v', Option.some.injEq] at hread
  calc
    v = v.bmod (1 <<< 64) := mem_signedRange_and_modEq_iff.1 ⟨hv, .rfl⟩
    _ = v'.bmod (1 <<< 64) := hread.symm
    _ = v' := (mem_signedRange_and_modEq_iff.1 ⟨hv', .rfl⟩).symm

/-- An integer in an instruction is read back as the one integer of 64 bits that it differs from by
a multiple of `2 ^ 64`. The operand is as long as its instruction says: for an integer of 64 bits it
has the least of the four widths that holds the integer, and for any other one eight bytes. Integers
of 64 bits are written differently. -/
theorem immediate_roundTrips (v : Int) :
    (∃ width w, (immediate v).1.width? = some width ∧ (immediate v).2.length = width ∧
      (immediate v).1.integer? (immediate v).2 = some w ∧
      (∀ u, u ∈ signedRange 8 ∧ u ≡ v [ZMOD 2 ^ 64] ↔ u = w) ∧
      (v ∈ signedRange 8 → IsLeast {n | n ∈ [1, 2, 4, 8] ∧ v ∈ signedRange n} width) ∧
      (v ∉ signedRange 8 → width = 8)) ∧
    Set.InjOn immediate (signedRange 8) := by
  obtain ⟨op, width, himmediate, -, hmem, hholds, hleast⟩ := exists_immediate_eq v
  have hlength : (immediate v).2.length = width := by
    rw [himmediate, Bytes.length_ofInt]
  have hwidth := width?_immediate v
  rw [hlength] at hwidth
  refine ⟨⟨width, v.bmod (1 <<< 64), hwidth, hlength, integer?_immediate v,
    fun u => mem_signedRange_and_modEq_iff, fun hv => ?_, fun hv => ?_⟩, immediate_injOn⟩
  · refine ⟨⟨hmem, ?_⟩, fun n hn => hleast n hn.1 hn.2⟩
    rcases hholds with hholds | rfl
    · exact hholds
    · exact hv
  · have hle : ∀ n ∈ [1, 2, 4, 8], n ≤ 8 := by decide
    exact hholds.resolve_left fun hholds => hv (signedRange_subset (hle width hmem) hholds)

/-- The first integer that one byte does not hold, and an integer beyond 64 bits. -/
theorem immediate_roundTrips_limits :
    immediate (-129) = (.loadImmediate16, [0x7F, 0xFF]) ∧
    IsLeast {n | n ∈ [1, 2, 4, 8] ∧ -129 ∈ signedRange n} 2 ∧
    immediate (2 ^ 64 - 2) = (.loadImmediate64, 0xFE :: List.replicate 7 0xFF) ∧
    Opcode.loadImmediate64.integer? (0xFE :: List.replicate 7 0xFF) = some (-2) := by
  have hsmall : immediate (-129) = (.loadImmediate16, [0x7F, 0xFF]) := by decide
  have hlarge : immediate (2 ^ 64 - 2) = (.loadImmediate64, 0xFE :: List.replicate 7 0xFF) := by
    decide
  obtain ⟨⟨width, _, _, hlength, _, _, hleast, _⟩, _⟩ := immediate_roundTrips (-129)
  obtain ⟨⟨_, w, _, _, hread, hw, _⟩, _⟩ := immediate_roundTrips (2 ^ 64 - 2)
  rw [hsmall] at hlength
  rw [hlarge, ← (hw (-2)).1 ⟨by decide, by decide⟩] at hread
  refine ⟨hsmall, ?_, hlarge, hread⟩
  subst hlength
  exact hleast ⟨by decide, by decide⟩

end Instruction

end StackCompiler
