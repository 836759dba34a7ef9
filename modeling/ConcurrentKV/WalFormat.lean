import ConcurrentKV.Crc32
import ConcurrentKV.OpLog

/-! Bytes of the write-ahead log: primitives, header and records of `wal.cpp` and
`binary_io.h`. `host` is the byte order of the machine, which v2 logs depend on. -/
namespace ConcurrentKV
open ByteCodec OpLog

abbrev Store := Map Bytes Bytes

/-- A parsed record; `WalOp::Set` carries a value and `WalOp::Delete` does not. -/
abbrev WalRecord := Op Bytes Bytes

def kMaxRecordLength : ℕ := 64*1024*1024
def kMaxBatchBytes : ℕ := kMaxRecordLength+8
def kWalMagic : Bytes := [0x4B, 0x56, 0x57, 0x33]
def kWalVersion : ℕ := 3
def kEndianMarker : ℕ := 0x01020304
def kHeaderLength : ℕ := 24
def kWalOpSet : ℕ := 1
def kWalOpDelete : ℕ := 2

inductive WalReplayStatus where
  | cleanEof
  | invalidHeader
  | partialRecord
  | invalidLength
  | invalidSequence
  | invalidOpcode
  | checksumMismatch
  | partialPayload
  | invalidPayload
  deriving DecidableEq, Repr

def appendPrimitive (host : ByteOrder) (width : ℕ) (bytes : Bytes) (value : ℕ) : Bytes :=
  bytes ++ encode host width value

def appendLe32 (bytes : Bytes) (value : ℕ) : Bytes := bytes ++ encode .little 4 value

def appendLe64 (bytes : Bytes) (value : ℕ) : Bytes := bytes ++ encode .little 8 value

/-- Reads an unsigned field at `offset`, giving its value and the offset after it. -/
def consumeUint (order : ByteOrder) (width : ℕ) (bytes : Bytes) (offset : ℕ) : Option (ℕ × ℕ) :=
  if offset > bytes.length ∨ bytes.length-offset < width then none
  else some (decode order ((bytes.drop offset).take width), offset+width)

def consumeLe (width : ℕ) (bytes : Bytes) (offset : ℕ) : Option (ℕ × ℕ) :=
  consumeUint .little width bytes offset

def consumePrimitive (host : ByteOrder) (width : ℕ) (buffer : Bytes) (offset : ℕ) :
    Option (ℕ × ℕ) :=
  consumeUint host width buffer offset

def consumeBytes (buffer : Bytes) (offset size : ℕ) : Option (Bytes × ℕ) :=
  if offset > buffer.length ∨ buffer.length-offset < size then none
  else some ((buffer.drop offset).take size, offset+size)

def makeHeader (generation : ℕ) : Bytes :=
  let header := appendLe64 (appendLe32 (appendLe32 kWalMagic kWalVersion) kEndianMarker) generation
  appendLe32 header (crc32 header).toNat

/-- `parse_header`: whether the header is valid, and the generation it leaves behind.
The out-parameter is written before the checks, so it may come from a bad header. -/
def parseHeader (file : Bytes) (generation : ℕ) : Bool × ℕ :=
  let header := file.take kHeaderLength
  if header.length ≠ kHeaderLength ∨ header.take kWalMagic.length ≠ kWalMagic then
    (false, generation)
  else match consumeLe 4 header kWalMagic.length with
  | none => (false, generation)
  | some (version,offset) => match consumeLe 4 header offset with
    | none => (false, generation)
    | some (marker,offset) => match consumeLe 8 header offset with
      | none => (false, generation)
      | some (generation,offset) => match consumeLe 4 header offset with
        | none => (false, generation)
        | some (checksum,_) =>
          (version == kWalVersion && marker == kEndianMarker && generation != 0 &&
            checksum == (crc32 (header.take (kHeaderLength-4))).toNat, generation)

/-- The byte order of length and size fields: v3 is portable, v2 is native. -/
def fieldOrder (host : ByteOrder) (portable : Bool) : ByteOrder :=
  if portable then .little else host

/-- `parse_record`. A status other than `CleanEof` is an error here; the sequence
stays zero in a v2 record. -/
def parseRecord (host : ByteOrder) (record : Bytes) (portable : Bool) :
    Except WalReplayStatus (WalRecord × ℕ) :=
  match (if portable then consumeLe 8 record 0 else some (0,0)) with
  | none => .error .partialPayload
  | some (sequence,offset) => match consumePrimitive host 1 record offset with
    | none => .error .partialPayload
    | some (op,offset) =>
      if op ≠ kWalOpSet ∧ op ≠ kWalOpDelete then .error .invalidOpcode
      else match consumeUint (fieldOrder host portable) 4 record offset with
      | none => .error .partialPayload
      | some (keySize,offset) => match consumeBytes record offset keySize with
        | none => .error .partialPayload
        | some (key,offset) =>
          if op = kWalOpSet then
            match consumeUint (fieldOrder host portable) 4 record offset with
            | none => .error .partialPayload
            | some (valueSize,offset) => match consumeBytes record offset valueSize with
              | none => .error .partialPayload
              | some (value,offset) =>
                if offset ≠ record.length then .error .invalidPayload
                else .ok (.set key value, sequence)
          else if offset ≠ record.length then .error .invalidPayload
          else .ok (.delete key, sequence)

def applyRecord (record : WalRecord) (store : Store) : Store := applyOp record store

/-- A consumed field is exactly its encoding, and parsing goes on right behind it. -/
theorem consumeUint_eq_some_iff (order : ByteOrder) (w : ℕ) (bs : Bytes) (i v j : ℕ) :
    consumeUint order w bs i = some (v,j) ↔
      v < 256^w ∧ i ≤ bs.length ∧ j = i+w ∧ bs.drop i = encode order w v ++ bs.drop j := by
  unfold consumeUint
  constructor
  · intro h
    split at h
    · cases h
    · rename_i hb
      push Not at hb
      obtain ⟨rfl,rfl⟩ := Prod.mk.inj (Option.some.inj h)
      have hl : ((bs.drop i).take w).length = w := by
        rw [List.length_take, List.length_drop]; omega
      have hd := decode_lt order ((bs.drop i).take w)
      rw [hl] at hd
      refine ⟨hd, hb.1, rfl, ?_⟩
      have he := encode_decode order ((bs.drop i).take w)
      rw [hl] at he
      rw [he, ← List.drop_drop, List.take_append_drop]
  · rintro ⟨hv,hi,rfl,hd⟩
    have hlen := congrArg List.length hd
    rw [List.length_append, length_encode, List.length_drop, List.length_drop] at hlen
    have ht : (bs.drop i).take w = encode order w v := by
      rw [hd, List.take_left' (length_encode order w v)]
    rw [if_neg (by omega), ht, decode_encode_of_lt order hv]

theorem consumeBytes_eq_some_iff (bs : Bytes) (i n : ℕ) (xs : Bytes) (j : ℕ) :
    consumeBytes bs i n = some (xs,j) ↔
      xs.length = n ∧ i ≤ bs.length ∧ j = i+n ∧ bs.drop i = xs ++ bs.drop j := by
  unfold consumeBytes
  constructor
  · intro h
    split at h
    · cases h
    · rename_i hb
      push Not at hb
      obtain ⟨rfl,rfl⟩ := Prod.mk.inj (Option.some.inj h)
      refine ⟨?_, hb.1, rfl, ?_⟩
      · rw [List.length_take, List.length_drop]; omega
      · rw [← List.drop_drop, List.take_append_drop]
  · rintro ⟨hl,hi,rfl,hd⟩
    have hlen := congrArg List.length hd
    rw [List.length_append, List.length_drop, List.length_drop] at hlen
    rw [if_neg (by omega), hd, List.take_left' hl]

/-! ### The header -/

/-- The header bytes that its own checksum covers. -/
def headerBody (generation : ℕ) : Bytes :=
  kWalMagic ++ encode .little 4 kWalVersion ++ encode .little 4 kEndianMarker ++
    encode .little 8 generation

theorem makeHeader_eq (g : ℕ) :
    makeHeader g = headerBody g ++ encode .little 4 (crc32 (headerBody g)).toNat := rfl

@[simp] theorem length_headerBody (g : ℕ) : (headerBody g).length = 20 := by
  simp [headerBody, kWalMagic]

@[simp] theorem length_makeHeader (g : ℕ) : (makeHeader g).length = kHeaderLength := by
  simp [makeHeader_eq, kHeaderLength]

theorem parseHeader_makeHeader (g g0 : ℕ) (hg : 0 < g) (hg64 : g < 2^64) (rest : Bytes) :
    parseHeader (makeHeader g ++ rest) g0 = (true, g) := by
  have ht : (makeHeader g ++ rest).take kHeaderLength = makeHeader g :=
    List.take_left' (length_makeHeader g)
  have hm : (makeHeader g).take kWalMagic.length = kWalMagic := by
    simp [makeHeader_eq, headerBody, List.append_assoc]
  have hbody : (makeHeader g).take (kHeaderLength-4) = headerBody g :=
    List.take_left' (length_headerBody g)
  -- the four fields behind the magic, each followed by the rest of the header
  have hv : consumeLe 4 (makeHeader g) kWalMagic.length = some (kWalVersion,8) := by
    rw [consumeLe, consumeUint_eq_some_iff]
    refine ⟨by decide, by simp [kWalMagic, kHeaderLength], rfl, ?_⟩
    simp [makeHeader_eq, headerBody, List.append_assoc, kWalMagic, List.drop_append]
  have hk : consumeLe 4 (makeHeader g) 8 = some (kEndianMarker,12) := by
    rw [consumeLe, consumeUint_eq_some_iff]
    refine ⟨by decide, by simp [kHeaderLength], rfl, ?_⟩
    simp [makeHeader_eq, headerBody, List.append_assoc, kWalMagic, List.drop_append,
      List.drop_eq_nil_of_le]
  have hgen : consumeLe 8 (makeHeader g) 12 = some (g,20) := by
    rw [consumeLe, consumeUint_eq_some_iff]
    refine ⟨by norm_num at hg64 ⊢; omega, by simp [kHeaderLength], rfl, ?_⟩
    simp [makeHeader_eq, headerBody, List.append_assoc, kWalMagic, List.drop_append,
      List.drop_eq_nil_of_le]
  have hc : consumeLe 4 (makeHeader g) 20 = some ((crc32 (headerBody g)).toNat,24) := by
    rw [consumeLe, consumeUint_eq_some_iff]
    refine ⟨crc32_toNat_lt _, by simp [kHeaderLength], rfl, ?_⟩
    rw [makeHeader_eq, List.drop_left' (length_headerBody g), List.drop_eq_nil_of_le (by simp),
      List.append_nil]
  simp only [parseHeader, ht, length_makeHeader, hm, hv, hk, hgen, hc, hbody]
  simp [Nat.pos_iff_ne_zero.mp hg]

/-- Only a complete header with a nonzero generation and its own checksum is accepted. -/
theorem makeHeader_prefix_of_parseHeader {file : Bytes} {g0 g : ℕ}
    (h : parseHeader file g0 = (true, g)) : 0 < g ∧ g < 2^64 ∧ makeHeader g <+: file := by
  unfold parseHeader at h
  dsimp only at h
  split at h
  · cases h
  rename_i hlm
  push Not at hlm
  split at h
  · cases h
  rename_i version o1 hv
  split at h
  · cases h
  rename_i marker o2 hk
  split at h
  · cases h
  rename_i gen o3 hgen
  split at h
  · cases h
  rename_i checksum o4 hc
  obtain ⟨hcond,rfl⟩ := Prod.mk.inj h
  simp only [Bool.and_eq_true, beq_iff_eq, bne_iff_ne] at hcond
  obtain ⟨⟨⟨rfl,rfl⟩,hg⟩,rfl⟩ := hcond
  rw [consumeLe, consumeUint_eq_some_iff] at hv hk hgen hc
  obtain ⟨_,_,rfl,hv⟩ := hv
  obtain ⟨_,_,rfl,hk⟩ := hk
  obtain ⟨hg64,_,rfl,hgen⟩ := hgen
  obtain ⟨_,_,rfl,hc⟩ := hc
  have hlen := hlm.1
  have hend : (file.take kHeaderLength).drop (kWalMagic.length+4+4+8+4) = [] :=
    List.drop_eq_nil_of_le (by rw [hlen]; rfl)
  rw [hend, List.append_nil] at hc
  have hsplit : file.take kHeaderLength = headerBody gen ++
      (file.take kHeaderLength).drop (kWalMagic.length+4+4+8) := by
    conv_lhs => rw [← List.take_append_drop kWalMagic.length (file.take kHeaderLength)]
    rw [hlm.2, hv, hk, hgen]
    simp only [headerBody, List.append_assoc]
  have hbody : (file.take kHeaderLength).take (kHeaderLength-4) = headerBody gen := by
    rw [hsplit]
    exact List.take_left' (length_headerBody gen)
  rw [hbody] at hc
  refine ⟨Nat.pos_of_ne_zero hg, by norm_num at hg64 ⊢; omega, ?_⟩
  have heq : makeHeader gen = file.take kHeaderLength := by rw [makeHeader_eq, ← hc, ← hsplit]
  rw [heq]
  exact List.take_prefix _ _

end ConcurrentKV
