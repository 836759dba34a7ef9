import Mathlib.Data.List.Basic
import Mathlib.Tactic.Ring

/-! Fixed-width unsigned integers as byte strings, in either byte order. -/
namespace ByteCodec

abbrev Bytes := List UInt8

inductive ByteOrder where
  | little
  | big
  deriving DecidableEq, Repr

/-- The low `w` bytes of `v`, least significant first. -/
def leBytes : ℕ → ℕ → Bytes
  | 0, _ => []
  | w+1, v => UInt8.ofNat v :: leBytes w (v/256)

def leValue : Bytes → ℕ
  | [] => 0
  | b :: bs => b.toNat + 256*leValue bs

def encode (o : ByteOrder) (w v : ℕ) : Bytes :=
  match o with
  | .little => leBytes w v
  | .big => (leBytes w v).reverse

def decode (o : ByteOrder) (bs : Bytes) : ℕ :=
  match o with
  | .little => leValue bs
  | .big => leValue bs.reverse

@[simp] theorem length_leBytes (w v : ℕ) : (leBytes w v).length = w := by
  induction w generalizing v with
  | zero => rfl
  | succ w ih => simp only [leBytes, List.length_cons, ih]

theorem leValue_leBytes (w v : ℕ) : leValue (leBytes w v) = v%256^w := by
  induction w generalizing v with
  | zero => simp only [leBytes, leValue, pow_zero, Nat.mod_one]
  | succ w ih =>
    have hb : (UInt8.ofNat v).toNat = v%256 := by simp
    rw [leBytes, leValue, ih, hb, pow_succ, Nat.mul_comm (256^w) 256, Nat.mod_mul]

theorem leBytes_leValue (bs : Bytes) : leBytes bs.length (leValue bs) = bs := by
  induction bs with
  | nil => rfl
  | cons b bs ih =>
    have hb : b.toNat < 256 := b.toNat_lt
    have hd : (b.toNat+256*leValue bs)/256 = leValue bs := by omega
    have hm : UInt8.ofNat (b.toNat+256*leValue bs) = b := by
      apply UInt8.toNat_inj.mp
      rw [UInt8.toNat_ofNat']
      omega
    rw [List.length_cons, leValue, leBytes, hd, hm, ih]

theorem leValue_lt (bs : Bytes) : leValue bs < 256^bs.length := by
  induction bs with
  | nil => simp only [leValue, List.length_nil, pow_zero, Nat.lt_one_iff]
  | cons b bs ih =>
    have hb : b.toNat < 256 := b.toNat_lt
    rw [List.length_cons, pow_succ, leValue]
    omega

@[simp] theorem length_encode (o : ByteOrder) (w v : ℕ) : (encode o w v).length = w := by
  cases o <;> simp [encode]

theorem decode_encode (o : ByteOrder) (w v : ℕ) : decode o (encode o w v) = v%256^w := by
  cases o <;> simp only [decode, encode, List.reverse_reverse, leValue_leBytes]

theorem decode_encode_of_lt (o : ByteOrder) {w v : ℕ} (hv : v < 256^w) :
    decode o (encode o w v) = v := by
  rw [decode_encode, Nat.mod_eq_of_lt hv]

theorem encode_decode (o : ByteOrder) (bs : Bytes) : encode o bs.length (decode o bs) = bs := by
  cases o
  · exact leBytes_leValue bs
  · have h := leBytes_leValue bs.reverse
    rw [List.length_reverse] at h
    simp only [encode, decode, h, List.reverse_reverse]

theorem decode_lt (o : ByteOrder) (bs : Bytes) : decode o bs < 256^bs.length := by
  cases o
  · exact leValue_lt bs
  · simpa only [decode, List.length_reverse] using leValue_lt bs.reverse

/-- A field of width `w` holds `v` exactly when its bytes are the encoding of `v`. -/
theorem decode_eq_iff (o : ByteOrder) {bs : Bytes} {w v : ℕ} (hl : bs.length = w)
    (hv : v < 256^w) : decode o bs = v ↔ bs = encode o w v := by
  constructor
  · intro h
    rw [← h, ← hl, encode_decode]
  · intro h
    rw [h, decode_encode_of_lt o hv]

/-- A field at the front can be read in one way only. -/
theorem encode_append_inj (o : ByteOrder) {w v v' : ℕ} {rest rest' : Bytes} (hv : v < 256^w)
    (hv' : v' < 256^w) (h : encode o w v ++ rest = encode o w v' ++ rest') :
    v = v' ∧ rest = rest' := by
  obtain ⟨he,hr⟩ := List.append_inj h (by rw [length_encode, length_encode])
  refine ⟨?_, hr⟩
  rw [← decode_encode_of_lt o hv, he, decode_encode_of_lt o hv']

end ByteCodec
