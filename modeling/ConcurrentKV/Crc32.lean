import ConcurrentKV.Crc

/-! The checksum of `wal.cpp`: CRC-32 with the reflected polynomial 0xEDB88320. -/
namespace ConcurrentKV
open ByteCodec

/-- One shift of the register, as in the inner loop of `make_crc32_table`. -/
def crc32Shift (entry : BitVec 32) : BitVec 32 :=
  let mask := 0#32-(entry &&& 1#32)
  (entry >>> 1) ^^^ (0xEDB88320#32 &&& mask)

def crc32Entry (i : BitVec 32) : BitVec 32 := crc32Shift^[8] i

def makeCrc32Table : Vector (BitVec 32) 256 := Vector.ofFn (fun i => crc32Entry (BitVec.ofNat 32 i))

def kCrc32Table : Vector (BitVec 32) 256 := makeCrc32Table

def crc32Step (crc : BitVec 32) (byte : UInt8) : BitVec 32 :=
  let index := ((crc ^^^ BitVec.ofNat 32 byte.toNat) &&& 0xFF#32).toNat
  (crc >>> 8) ^^^ kCrc32Table.get (Fin.ofNat 256 index)

def crc32 (bytes : Bytes) : BitVec 32 := ~~~(bytes.foldl crc32Step 0xFFFFFFFF#32)

theorem crc32_toNat_lt (bytes : Bytes) : (crc32 bytes).toNat < 256^4 := (crc32 bytes).isLt

example : crc32 [0x31,0x32,0x33,0x34,0x35,0x36,0x37,0x38,0x39] = 0xCBF43926#32 := by decide +kernel

/-! ### The table as a cyclic redundancy check -/

def kCrc32Polynomial : BitVec 32 := 0xEDB88320#32

theorem kCrc32Polynomial_msb : kCrc32Polynomial.msb = true := by decide

/-- The mask is all ones or zero, as the bit that falls out. -/
theorem crc32Shift_eq (r : BitVec 32) : crc32Shift r = Crc.shift kCrc32Polynomial r := by
  have hmask : 0#32-(r &&& 1#32) = if r.getLsbD 0 then BitVec.allOnes 32 else 0#32 := by
    rw [BitVec.and_one_eq_setWidth_ofBool_getLsbD]
    cases r.getLsbD 0 <;> decide
  rw [crc32Shift, hmask, Crc.shift, kCrc32Polynomial]
  cases r.getLsbD 0 <;> simp

theorem crc32Entry_eq (i : BitVec 32) : crc32Entry i = (Crc.shift kCrc32Polynomial)^[8] i := by
  rw [crc32Entry, funext crc32Shift_eq]

/-- One table step is eight shifts. -/
theorem crc32Step_eq (r : BitVec 32) (byte : UInt8) :
    crc32Step r byte = Crc.absorb kCrc32Polynomial r byte := by
  have hindex : ((r ^^^ BitVec.ofNat 32 byte.toNat) &&& 0xFF#32).toNat =
      (r ^^^ BitVec.ofNat 32 byte.toNat).toNat%2^8 := by
    rw [BitVec.toNat_and]
    exact Nat.and_two_pow_sub_one_eq_mod _ 8
  have hentry (i : ℕ) (hi : i < 2^8) :
      kCrc32Table.get (Fin.ofNat 256 i) = crc32Entry (BitVec.ofNat 32 i) := by
    have hmod : i%256 = i := by omega
    change (makeCrc32Table)[(Fin.ofNat 256 i).val] = _
    rw [makeCrc32Table, Vector.getElem_ofFn]
    simp only [Fin.val_ofNat, hmod]
  -- the byte reaches only the low octet
  have hhigh : (r ^^^ BitVec.ofNat 32 byte.toNat) >>> 8 = r >>> 8 := by
    have hbyte : BitVec.ofNat 32 byte.toNat >>> 8 = 0#32 := by
      apply BitVec.eq_of_toNat_eq
      have hlt : byte.toNat < 256 := byte.toNat_lt
      rw [BitVec.toNat_ushiftRight, BitVec.toNat_ofNat, Nat.shiftRight_eq_div_pow,
        BitVec.toNat_ofNat]
      omega
    rw [BitVec.ushiftRight_xor_distrib, hbyte, BitVec.xor_zero]
  rw [crc32Step, Crc.absorb, Crc.byteWord, Crc.iterate_shift_split, hhigh, ← crc32Entry_eq,
    BitVec.xor_comm, hindex, hentry _ (Nat.mod_lt _ (by norm_num))]

theorem crc32_eq (bytes : Bytes) :
    crc32 bytes = ~~~Crc.absorbAll kCrc32Polynomial (BitVec.allOnes 32) bytes := by
  rw [crc32, Crc.absorbAll, funext₂ crc32Step_eq]
  rfl

/-- The checksum tells apart messages that differ only in four consecutive bytes. -/
theorem eq_of_crc32_window {pre x y post : Bytes} (hlen : x.length = y.length) (hx : x.length ≤ 4)
    (h : crc32 (pre ++ (x ++ post)) = crc32 (pre ++ (y ++ post))) : x = y := by
  rw [crc32_eq, crc32_eq] at h
  exact Crc.eq_of_absorbAll_window kCrc32Polynomial_msb hlen (by omega) (BitVec.not_inj.mp h)

/-- A message followed by its checksum leaves a register that depends on neither. -/
theorem crc32_residue {bytes check : Bytes} (hlen : check.length = 4)
    (hcheck : leValue check = (crc32 bytes).toNat) :
    Crc.absorbAll kCrc32Polynomial (BitVec.allOnes 32) (bytes ++ check) =
      (Crc.shift kCrc32Polynomial)^[32] (BitVec.allOnes 32) := by
  apply Crc.absorbAll_residue _ _ _ _ (by rw [hlen])
  rw [hcheck, BitVec.ofNat_toNat, BitVec.setWidth_eq, crc32_eq]

end ConcurrentKV
