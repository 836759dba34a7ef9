import Mathlib.Logic.Function.Iterate
import ConcurrentKV.ByteCodec

/-! Reflected cyclic redundancy checks over a register of any width: absorbing a byte is linear
and one to one in exclusive or, so a register tells apart any two messages that differ only
inside one window no wider than itself. -/
namespace Crc
open ByteCodec

variable {w : ℕ} (poly : BitVec w)

/-- One shift of the register: the bit that falls out decides whether the polynomial is added. -/
def shift (r : BitVec w) : BitVec w := (r >>> 1) ^^^ (if r.getLsbD 0 then poly else 0#w)

def byteWord (w : ℕ) (byte : UInt8) : BitVec w := BitVec.ofNat w byte.toNat

/-- A byte, bit by bit. -/
def absorb (r : BitVec w) (byte : UInt8) : BitVec w := (shift poly)^[8] (r ^^^ byteWord w byte)

def absorbAll (r : BitVec w) (bytes : Bytes) : BitVec w := bytes.foldl (absorb poly) r

/-! ### One shift -/

theorem shift_xor (r s : BitVec w) : shift poly (r ^^^ s) = shift poly r ^^^ shift poly s := by
  unfold shift
  rw [BitVec.ushiftRight_xor_distrib, BitVec.getLsbD_xor]
  cases r.getLsbD 0 <;> cases s.getLsbD 0
  · simp
  · simp only [Bool.false_bne, if_true, Bool.false_eq_true, if_false, BitVec.xor_zero]
    exact BitVec.xor_assoc _ _ _
  · simp only [Bool.bne_false, if_true, Bool.false_eq_true, if_false, BitVec.xor_zero]
    rw [BitVec.xor_assoc, BitVec.xor_assoc, BitVec.xor_comm poly]
  · -- both add the polynomial, which cancels
    simp only [bne_self_eq_false, Bool.false_eq_true, if_false, if_true, BitVec.xor_zero]
    rw [BitVec.xor_assoc, BitVec.xor_comm poly, BitVec.xor_assoc, BitVec.xor_self, BitVec.xor_zero]

theorem shift_of_even {r : BitVec w} (h : r.getLsbD 0 = false) : shift poly r = r >>> 1 := by
  rw [shift, h]
  simp

variable {poly} in
/-- A polynomial with its top bit set loses no register: the bit that fell out shows at the top. -/
theorem eq_zero_of_shift (hpoly : poly.msb = true) {r : BitVec w} (h : shift poly r = 0#w) :
    r = 0#w := by
  have hlow : r.getLsbD 0 = false := by
    by_contra hr
    rw [Bool.not_eq_false] at hr
    have hmsb := congrArg BitVec.msb h
    rw [shift, hr, if_pos rfl, BitVec.msb_xor, hpoly] at hmsb
    simp [BitVec.msb_ushiftRight] at hmsb
  rw [shift_of_even poly hlow] at h
  apply BitVec.eq_of_getLsbD_eq
  intro i hi
  cases i with
  | zero => simpa using hlow
  | succ i =>
    have hb := congrArg (fun x : BitVec w => x.getLsbD i) h
    simpa [Nat.add_comm] using hb

variable {poly} in
theorem shift_injective (hpoly : poly.msb = true) : Function.Injective (shift poly) := by
  intro r s h
  have hdiff : shift poly (r ^^^ s) = 0#w := by rw [shift_xor, h, BitVec.xor_self]
  exact BitVec.xor_eq_zero_iff.mp (eq_zero_of_shift hpoly hdiff)

/-! ### Several shifts -/

theorem iterate_shift_xor (n : ℕ) (r s : BitVec w) :
    (shift poly)^[n] (r ^^^ s) = (shift poly)^[n] r ^^^ (shift poly)^[n] s := by
  induction n generalizing r s with
  | zero => rfl
  | succ n ih => rw [Function.iterate_succ_apply, shift_xor, ih]; rfl

/-- Bits that stand above the shifts only move down. -/
theorem iterate_shift_shiftLeft (n : ℕ) {v : ℕ} (hv : v*2^n < 2^w) :
    (shift poly)^[n] (BitVec.ofNat w (v*2^n)) = BitVec.ofNat w v := by
  induction n with
  | zero => simp
  | succ n ih =>
    have hdouble : v*2^(n+1) = v*2^n*2 := by rw [pow_succ, Nat.mul_assoc]
    have hlt : v*2^n < 2^w := by omega
    have heven : (BitVec.ofNat w (v*2^(n+1))).getLsbD 0 = false := by
      rw [BitVec.getLsbD_ofNat, hdouble]
      simp [Nat.testBit_zero]
    have hhalf : (BitVec.ofNat w (v*2^(n+1))) >>> 1 = BitVec.ofNat w (v*2^n) := by
      apply BitVec.eq_of_toNat_eq
      rw [BitVec.toNat_ushiftRight, BitVec.toNat_ofNat, BitVec.toNat_ofNat, Nat.mod_eq_of_lt hv,
        Nat.mod_eq_of_lt hlt, Nat.shiftRight_eq_div_pow, hdouble, pow_one,
        Nat.mul_div_cancel _ (by norm_num)]
    rw [Function.iterate_succ_apply, shift_of_even poly heven, hhalf, ih hlt]

/-- The low bits are shifted out, the others move down. -/
theorem iterate_shift_split (n : ℕ) (r : BitVec w) :
    (shift poly)^[n] r = (shift poly)^[n] (BitVec.ofNat w (r.toNat%2^n)) ^^^ (r >>> n) := by
  have hhigh : r.toNat/2^n*2^n < 2^w := (Nat.div_mul_le_self _ _).trans_lt r.isLt
  have hsplit : r = BitVec.ofNat w (r.toNat%2^n) ^^^ BitVec.ofNat w (r.toNat/2^n*2^n) := by
    apply BitVec.eq_of_getLsbD_eq
    intro i hi
    rw [BitVec.getLsbD_xor, BitVec.getLsbD_ofNat, BitVec.getLsbD_ofNat, Nat.testBit_mod_two_pow,
      Nat.mul_comm, Nat.testBit_two_pow_mul, Nat.testBit_div_two_pow]
    by_cases h : i < n
    · simp [h, hi, Nat.not_le.mpr h, BitVec.getLsbD]
    · simp [h, hi, Nat.not_lt.mp h, BitVec.getLsbD]
  have hdown : r >>> n = BitVec.ofNat w (r.toNat/2^n) := by
    apply BitVec.eq_of_toNat_eq
    have hlt : r.toNat/2^n < 2^w := (Nat.div_le_self _ _).trans_lt r.isLt
    rw [BitVec.toNat_ushiftRight, BitVec.toNat_ofNat, Nat.mod_eq_of_lt hlt,
      Nat.shiftRight_eq_div_pow]
  conv_lhs => rw [hsplit]
  rw [iterate_shift_xor, iterate_shift_shiftLeft poly n hhigh, hdown]

/-! ### Messages -/

theorem absorbAll_append (r : BitVec w) (xs ys : Bytes) :
    absorbAll poly r (xs ++ ys) = absorbAll poly (absorbAll poly r xs) ys := List.foldl_append

/-- The first byte is at the bottom of the value, the others stand eight bits above it. -/
theorem ofNat_leValue_cons (w : ℕ) (b : UInt8) (bytes : Bytes) :
    BitVec.ofNat w (leValue (b :: bytes)) =
      byteWord w b ^^^ BitVec.ofNat w (leValue bytes*2^8) := by
  have hb : b.toNat < 2^8 := b.toNat_lt
  have hv : leValue (b :: bytes) = 2^8*leValue bytes+b.toNat := by
    rw [leValue]
    omega
  apply BitVec.eq_of_getLsbD_eq
  intro i hi
  rw [byteWord, BitVec.getLsbD_xor, BitVec.getLsbD_ofNat, BitVec.getLsbD_ofNat,
    BitVec.getLsbD_ofNat, hv, Nat.mul_comm (leValue bytes), Nat.testBit_two_pow_mul_add _ hb,
    Nat.testBit_two_pow_mul]
  by_cases h8 : i < 8
  · simp [hi, h8, Nat.not_le.mpr h8]
  · have hclear : b.toNat.testBit i = false :=
      Nat.testBit_lt_two_pow (hb.trans_le (Nat.pow_le_pow_right (by norm_num) (by omega)))
    simp [hi, h8, hclear, Nat.not_lt.mp h8]

/-- A message that fits the register is its value, shifted through. -/
theorem absorbAll_eq (r : BitVec w) (bytes : Bytes) (h : 8*bytes.length ≤ w) :
    absorbAll poly r bytes =
      (shift poly)^[8*bytes.length] (r ^^^ BitVec.ofNat w (leValue bytes)) := by
  induction bytes generalizing r with
  | nil => simp [absorbAll, leValue]
  | cons b bytes ih =>
    rw [List.length_cons] at h
    have hlt : leValue bytes*2^8 < 2^w := by
      have hv := leValue_lt bytes
      have hpow : 256^bytes.length*2^8 = 2^(8*bytes.length+8) := by
        rw [pow_add, pow_mul]
        norm_num
      have hle : 2^(8*bytes.length+8) ≤ 2^w := Nat.pow_le_pow_right (by norm_num) (by omega)
      omega
    have hi := ih (absorb poly r b) (by omega)
    rw [absorbAll, List.foldl_cons, ← absorbAll, hi, List.length_cons, Nat.mul_succ,
      Function.iterate_add_apply, ofNat_leValue_cons, ← BitVec.xor_assoc, iterate_shift_xor poly 8,
      iterate_shift_shiftLeft poly 8 hlt]
    rfl

variable {poly} in
theorem absorbAll_injective (hpoly : poly.msb = true) (bytes : Bytes) :
    Function.Injective (fun r => absorbAll poly r bytes) := by
  induction bytes with
  | nil => exact fun r s h => h
  | cons b bytes ih =>
    intro r s h
    have hb := (shift_injective hpoly).iterate 8 (ih h)
    simpa using congrArg (· ^^^ byteWord w b) hb

variable {poly} in
/-- A register tells apart any two messages that differ only in one window that fits it. -/
theorem eq_of_absorbAll_window (hpoly : poly.msb = true) {r : BitVec w} {pre x y post : Bytes}
    (hlen : x.length = y.length) (hfit : 8*x.length ≤ w)
    (h : absorbAll poly r (pre ++ (x ++ post)) = absorbAll poly r (pre ++ (y ++ post))) :
    x = y := by
  simp only [absorbAll_append] at h
  have hwin := absorbAll_injective hpoly post h
  rw [absorbAll_eq poly _ x hfit, absorbAll_eq poly _ y (hlen ▸ hfit), hlen] at hwin
  have hval := (shift_injective hpoly).iterate _ hwin
  have heq : BitVec.ofNat w (leValue x) = BitVec.ofNat w (leValue y) := by
    have hx := congrArg (absorbAll poly r pre ^^^ ·) hval
    simpa only [← BitVec.xor_assoc, BitVec.xor_self, BitVec.zero_xor] using hx
  have hlt (z : Bytes) (hz : 8*z.length ≤ w) : leValue z < 2^w := by
    have hz' : 256^z.length ≤ 2^w := by
      rw [show (256 : ℕ) = 2^8 by norm_num, ← pow_mul]
      exact Nat.pow_le_pow_right (by norm_num) hz
    exact (leValue_lt z).trans_le hz'
  have hnat := congrArg BitVec.toNat heq
  rw [BitVec.toNat_ofNat, BitVec.toNat_ofNat, Nat.mod_eq_of_lt (hlt x hfit),
    Nat.mod_eq_of_lt (hlt y (hlen ▸ hfit))] at hnat
  rw [← leBytes_leValue x, ← leBytes_leValue y, hlen, hnat]

/-- A message followed by the complement of its register always leaves the same register. -/
theorem absorbAll_residue (r : BitVec w) (bytes check : Bytes) (hfit : 8*check.length = w)
    (hcheck : BitVec.ofNat w (leValue check) = ~~~absorbAll poly r bytes) :
    absorbAll poly r (bytes ++ check) = (shift poly)^[w] (BitVec.allOnes w) := by
  have hones (a : BitVec w) : a ^^^ ~~~a = BitVec.allOnes w := by
    rw [← BitVec.xor_allOnes, ← BitVec.xor_assoc, BitVec.xor_self, BitVec.zero_xor]
  rw [absorbAll_append, absorbAll_eq poly _ check hfit.le, hcheck, hfit, hones]

end Crc
