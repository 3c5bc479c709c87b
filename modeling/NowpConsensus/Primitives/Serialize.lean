import NowpConsensus.Primitives.Block
import NowpConsensus.Lib.Bytes

/-!
# Serialisation of transactions and blocks

The byte format of `primitives/transaction.h` and `primitives/block.h`, written with the
encodings of `Lib/Bytes.lean`: integers little-endian in their width (`int32_t` and `int64_t`
in two's complement), a `uint256` as its 32 bytes, scripts and vectors prefixed by their
`CompactSize` length.

The fork writes a transaction's timestamp `nTime` right after `nVersion`, but only when
`nVersion < 3`; `UnserializeTransaction` then sets it to `0`. So a transaction of version 3 or
more keeps in memory a field no serialisation carries: a locally built one carries the time it
was made, one read from the network or the disk carries `0`.

* `SerializeTransaction_dropHiddenTime`, `SerializeBlock_dropHiddenTime`: clearing that field
  changes no byte of the serialisation.
-/

namespace NowpConsensus

open Bytes

/-- A `uint32_t`. -/
def ser_uint32 (x : UInt32) : List UInt8 := leBytes 4 x.toNat

/-- A `uint64_t`. -/
def ser_uint64 (x : UInt64) : List UInt8 := leBytes 8 x.toNat

/-- An `int32_t`, in two's complement. -/
def ser_int32 (x : Int32) : List UInt8 := leBytes 4 x.toUInt32.toNat

/-- An `int64_t` (a `CAmount`), in two's complement. -/
def ser_int64 (x : Int) : List UInt8 := leBytes 8 (x % 2 ^ 64).toNat

/-- A `uint256`: its 32 bytes. -/
def ser_uint256 (h : uint256) : List UInt8 := leBytes 32 h.toNat

/-- A script, or any byte vector: its length, then its bytes. -/
def ser_bytes (s : List UInt8) : List UInt8 := vector (fun b => [b]) s

/-- `COutPoint`. -/
def COutPoint.serialize (o : COutPoint) : List UInt8 := ser_uint256 o.hash ++ ser_uint32 o.n

/-- `CTxIn`: the outpoint, the script and the sequence number (the witness is written apart). -/
def CTxIn.serialize (txin : CTxIn) : List UInt8 :=
  txin.prevout.serialize ++ ser_bytes txin.scriptSig ++ ser_uint32 txin.nSequence

/-- `CTxOut`. -/
def CTxOut.serialize (o : CTxOut) : List UInt8 := ser_int64 o.nValue ++ ser_bytes o.scriptPubKey

/-- `CTransaction::HasWitness`. -/
def CTransaction.HasWitness (tx : CTransaction) : Bool :=
  tx.vin.any fun txin => !txin.scriptWitness.isEmpty

/-- `SerializeTransaction(tx, s)`, for a stream that writes witnesses exactly when
`fAllowWitness`. -/
def SerializeTransaction (tx : CTransaction) (fAllowWitness : Bool) : List UInt8 :=
  let flags := fAllowWitness && tx.HasWitness
  ser_int32 tx.nVersion ++
  -- nowp: the timestamp, for old versions only
  (if tx.nVersion < 3 then ser_uint32 tx.nTime else []) ++
  (if flags then vector CTxIn.serialize [] ++ [1] else []) ++
  vector CTxIn.serialize tx.vin ++ vector CTxOut.serialize tx.vout ++
  (if flags then tx.vin.flatMap (fun txin => vector ser_bytes txin.scriptWitness) else []) ++
  ser_uint32 tx.nLockTime

/-- `CBlockHeader`'s serialisation: the 80 bytes every stream writes, then `nFlags` in a
stream of type `SER_POSMARKER` that is not `SER_GETHASH`. -/
def CBlockHeader.serialize (h : CBlockHeader) (fPosMarker : Bool) : List UInt8 :=
  ser_int32 h.nVersion ++ ser_uint256 h.hashPrevBlock ++ ser_uint256 h.hashMerkleRoot ++
    ser_uint32 h.nTime ++ ser_uint32 h.nBits ++ ser_uint32 h.nNonce ++
    (if fPosMarker then ser_uint32 h.nFlags else [])

/-- `CBlockHeader::GetHash` with the hash function `Hash`: the hash of the header's 80 bytes. -/
def CBlockHeader.GetHash (Hash : List UInt8 → uint256) (h : CBlockHeader) : uint256 :=
  Hash (h.serialize false)

/-- `CBlock`'s serialisation: the header, the transactions and the block signature. -/
def SerializeBlock (b : CBlock) (fAllowWitness fPosMarker : Bool) : List UInt8 :=
  b.header.serialize fPosMarker ++ vector (SerializeTransaction · fAllowWitness) b.vtx ++
    ser_bytes b.vchBlockSig

/-- The transaction as `UnserializeTransaction` reads it back: the same, with `nTime` cleared
when its version does not carry it. -/
def CTransaction.dropHiddenTime (tx : CTransaction) : CTransaction :=
  if tx.nVersion < 3 then tx else { tx with nTime := 0 }

/-- The block with each transaction as it is read back. -/
def CBlock.dropHiddenTime (b : CBlock) : CBlock :=
  { b with vtx := b.vtx.map CTransaction.dropHiddenTime }

@[simp]
theorem CTransaction.dropHiddenTime_vin (tx : CTransaction) : tx.dropHiddenTime.vin = tx.vin := by
  unfold dropHiddenTime; split <;> rfl

@[simp]
theorem CTransaction.dropHiddenTime_vout (tx : CTransaction) :
    tx.dropHiddenTime.vout = tx.vout := by
  unfold dropHiddenTime; split <;> rfl

@[simp]
theorem CTransaction.dropHiddenTime_nVersion (tx : CTransaction) :
    tx.dropHiddenTime.nVersion = tx.nVersion := by
  unfold dropHiddenTime; split <;> rfl

@[simp]
theorem CTransaction.dropHiddenTime_nLockTime (tx : CTransaction) :
    tx.dropHiddenTime.nLockTime = tx.nLockTime := by
  unfold dropHiddenTime; split <;> rfl

/-- **The serialisation does not carry the hidden timestamp**: a transaction and its copy with
the timestamp cleared (where its version does not carry it) have the same bytes. -/
theorem SerializeTransaction_dropHiddenTime (tx : CTransaction) (fAllowWitness : Bool) :
    SerializeTransaction tx.dropHiddenTime fAllowWitness =
      SerializeTransaction tx fAllowWitness := by
  by_cases hv : tx.nVersion < 3
  · simp [CTransaction.dropHiddenTime, hv]
  · simp only [SerializeTransaction, CTransaction.HasWitness, CTransaction.dropHiddenTime_vin,
      CTransaction.dropHiddenTime_vout, CTransaction.dropHiddenTime_nVersion,
      CTransaction.dropHiddenTime_nLockTime, hv, if_false]
    rfl

theorem SerializeBlock_dropHiddenTime (b : CBlock) (fAllowWitness fPosMarker : Bool) :
    SerializeBlock b.dropHiddenTime fAllowWitness fPosMarker =
      SerializeBlock b fAllowWitness fPosMarker := by
  simp only [SerializeBlock, CBlock.dropHiddenTime, vector, List.length_map, List.flatMap_map,
    SerializeTransaction_dropHiddenTime]

/-! ## Reading a file

A stream read from a file (`CAutoFile`) is the list of its bytes; each reader returns what it
read and the bytes after it, or throws at the end of the file. -/

/-- `CAutoFile::read` of `n` bytes. -/
def readBytes (n : Nat) (s : List UInt8) : Except Abort (List UInt8 × List UInt8) :=
  if n ≤ s.length then .ok (s.take n, s.drop n)
  else .error (.exception "CAutoFile::read: end of file")

/-- A word of `w` bytes, least significant first: `ser_readdata8` to `ser_readdata64`. -/
def ser_readdata (w : Nat) (s : List UInt8) : Except Abort (Nat × List UInt8) := do
  let (b, s) ← readBytes w s
  pure (readLE b, s)

/-- `ser_readdata8`. -/
def ser_readdata8 : List UInt8 → Except Abort (Nat × List UInt8) := ser_readdata 1

/-- `ser_readdata16`. -/
def ser_readdata16 : List UInt8 → Except Abort (Nat × List UInt8) := ser_readdata 2

/-- `ser_readdata32`. -/
def ser_readdata32 : List UInt8 → Except Abort (Nat × List UInt8) := ser_readdata 4

/-- `ser_readdata64`. -/
def ser_readdata64 : List UInt8 → Except Abort (Nat × List UInt8) := ser_readdata 8

/-- `base_blob::Unserialize`: a `uint256` read as its 32 bytes. -/
def unser_uint256 (s : List UInt8) : Except Abort (uint256 × List UInt8) := do
  let (n, s) ← ser_readdata 32 s
  pure (BitVec.ofNat 256 n, s)

/-- `Unserialize` of a `uint32_t`. -/
def unser_uint32 (s : List UInt8) : Except Abort (UInt32 × List UInt8) := do
  let (n, s) ← ser_readdata32 s
  pure (UInt32.ofNat n, s)

/-- `Unserialize` of a `uint64_t`. -/
def unser_uint64 (s : List UInt8) : Except Abort (UInt64 × List UInt8) := do
  let (n, s) ← ser_readdata64 s
  pure (UInt64.ofNat n, s)

/-- `Unserialize` of an `int32_t`: the word, in two's complement. -/
def unser_int32 (s : List UInt8) : Except Abort (Int32 × List UInt8) := do
  let (n, s) ← ser_readdata32 s
  pure (Int32.ofNat n, s)

/-- `Unserialize` of an `int64_t`: the word, in two's complement. -/
def unser_int64 (s : List UInt8) : Except Abort (Int64 × List UInt8) := do
  let (n, s) ← ser_readdata64 s
  pure (Int64.ofNat n, s)

/-- `COutPoint`'s `Unserialize`. -/
def COutPoint.unserialize (s : List UInt8) : Except Abort (COutPoint × List UInt8) := do
  let (hash, s) ← unser_uint256 s
  let (n, s) ← unser_uint32 s
  pure (⟨hash, n⟩, s)

/-! ## What the readers accept

Each reader that returns has read a value written by the matching writer: the bytes it consumed
are the value's bytes. -/

theorem readBytes_eq_ok {n : Nat} {s b rest : List UInt8} (h : readBytes n s = .ok (b, rest)) :
    b.length = n ∧ s = b ++ rest := by
  unfold readBytes at h
  split_ifs at h with hn
  cases h
  exact ⟨List.length_take_of_le hn, (List.take_append_drop n s).symm⟩

theorem ser_readdata_eq_ok {w n : Nat} {s rest : List UInt8}
    (h : ser_readdata w s = .ok (n, rest)) : n < 256 ^ w ∧ s = leBytes w n ++ rest := by
  obtain ⟨⟨b, s'⟩, hb, hr⟩ := Except.bind_eq_ok.mp h
  obtain ⟨hlen, rfl⟩ := readBytes_eq_ok hb
  cases hr
  subst hlen
  exact ⟨readLE_lt b, by rw [leBytes_readLE]⟩

theorem unser_uint256_eq_ok {x : uint256} {s rest : List UInt8}
    (h : unser_uint256 s = .ok (x, rest)) : s = ser_uint256 x ++ rest := by
  obtain ⟨⟨n, s'⟩, hn, hr⟩ := Except.bind_eq_ok.mp h
  obtain ⟨hlt, rfl⟩ := ser_readdata_eq_ok hn
  cases hr
  rw [ser_uint256, BitVec.toNat_ofNat, Nat.mod_eq_of_lt (by simpa using hlt)]

theorem unser_uint32_eq_ok {x : UInt32} {s rest : List UInt8}
    (h : unser_uint32 s = .ok (x, rest)) : s = ser_uint32 x ++ rest := by
  obtain ⟨⟨n, s'⟩, hn, hr⟩ := Except.bind_eq_ok.mp h
  obtain ⟨hlt, rfl⟩ := ser_readdata_eq_ok hn
  cases hr
  rw [ser_uint32, UInt32.toNat_ofNat_of_lt' (by simpa using hlt)]

theorem unser_uint64_eq_ok {x : UInt64} {s rest : List UInt8}
    (h : unser_uint64 s = .ok (x, rest)) : s = ser_uint64 x ++ rest := by
  obtain ⟨⟨n, s'⟩, hn, hr⟩ := Except.bind_eq_ok.mp h
  obtain ⟨hlt, rfl⟩ := ser_readdata_eq_ok hn
  cases hr
  rw [ser_uint64, UInt64.toNat_ofNat_of_lt' (by simpa using hlt)]

theorem unser_int32_eq_ok {x : Int32} {s rest : List UInt8}
    (h : unser_int32 s = .ok (x, rest)) : s = ser_int32 x ++ rest := by
  obtain ⟨⟨n, s'⟩, hn, hr⟩ := Except.bind_eq_ok.mp h
  obtain ⟨hlt, rfl⟩ := ser_readdata_eq_ok hn
  cases hr
  rw [ser_int32, Int32.toUInt32_ofNat', UInt32.toNat_ofNat_of_lt' (by simpa using hlt)]

/-- An `int64_t` is read as its two's complement bytes. -/
theorem unser_int64_eq_ok {x : Int64} {s rest : List UInt8}
    (h : unser_int64 s = .ok (x, rest)) : s = ser_int64 x.toInt ++ rest := by
  obtain ⟨⟨n, s'⟩, hn, hr⟩ := Except.bind_eq_ok.mp h
  obtain ⟨hlt, rfl⟩ := ser_readdata_eq_ok hn
  cases hr
  have hbytes : ((Int64.ofNat n).toInt % 2 ^ 64).toNat = n := by
    rw [← Int64.toInt_toBitVec, BitVec.toInt_eq_toNat_cond]
    have ht : (Int64.ofNat n).toBitVec.toNat = n := by
      rw [Int64.toBitVec_ofNat', BitVec.toNat_ofNat]
      exact Nat.mod_eq_of_lt (by simpa using hlt)
    rw [ht]
    split_ifs <;> omega
  rw [ser_int64, hbytes]

theorem COutPoint.unserialize_eq_ok {o : COutPoint} {s rest : List UInt8}
    (h : COutPoint.unserialize s = .ok (o, rest)) : s = o.serialize ++ rest := by
  obtain ⟨⟨hash, s₁⟩, hh, h₁⟩ := Except.bind_eq_ok.mp h
  obtain ⟨⟨n, s₂⟩, hn, h₂⟩ := Except.bind_eq_ok.mp h₁
  cases h₂
  rw [unser_uint256_eq_ok hh, unser_uint32_eq_ok hn, COutPoint.serialize, List.append_assoc]

/-- `MAX_SIZE`, the largest size `ReadCompactSize` accepts. -/
def MAX_SIZE : Nat := 0x02000000

/-- A size after its marker byte, read by `read` and refused below `lo`, the least size the
marker is for. -/
def readCanonical (read : List UInt8 → Except Abort (Nat × List UInt8)) (lo : Nat)
    (s : List UInt8) : Except Abort (Nat × List UInt8) := do
  let (n, s) ← read s
  if n < lo then .error (.exception "non-canonical ReadCompactSize()") else pure (n, s)

/-- `ReadCompactSize(is)`: a size written by `WriteCompactSize`, refused when it is not written in
its shortest form or exceeds `MAX_SIZE`. -/
def ReadCompactSize (s : List UInt8) : Except Abort (Nat × List UInt8) := do
  let (chSize, s) ← ser_readdata8 s
  let (nSizeRet, s) ←
    if chSize < 253 then pure (chSize, s)
    else if chSize = 253 then readCanonical ser_readdata16 253 s
    else if chSize = 254 then readCanonical ser_readdata32 0x10000 s
    else readCanonical ser_readdata64 0x100000000 s
  if nSizeRet > MAX_SIZE then .error (.exception "ReadCompactSize(): size too large")
  else pure (nSizeRet, s)

theorem readBytes_append (a rest : List UInt8) : readBytes a.length (a ++ rest) = .ok (a, rest) := by
  simp [readBytes]

theorem ser_readdata_leBytes (w n : Nat) (rest : List UInt8) :
    ser_readdata w (leBytes w n ++ rest) = .ok (n % 256 ^ w, rest) := by
  have h := readBytes_append (leBytes w n) rest
  rw [leBytes_length] at h
  simp only [ser_readdata, h, Except.bind_ok_left, readLE_leBytes]
  rfl

theorem unser_uint256_ser (x : uint256) (rest : List UInt8) :
    unser_uint256 (ser_uint256 x ++ rest) = .ok (x, rest) := by
  simp only [unser_uint256, ser_uint256, ser_readdata_leBytes, Except.bind_ok_left]
  have hlt : x.toNat < 256 ^ 32 := x.isLt
  rw [Nat.mod_eq_of_lt hlt, BitVec.ofNat_toNat, BitVec.setWidth_eq]
  rfl

theorem unser_uint32_ser (x : UInt32) (rest : List UInt8) :
    unser_uint32 (ser_uint32 x ++ rest) = .ok (x, rest) := by
  simp only [unser_uint32, ser_uint32, ser_readdata32, ser_readdata_leBytes, Except.bind_ok_left,
    Nat.mod_eq_of_lt (show x.toNat < 256 ^ 4 from x.toNat_lt), UInt32.ofNat_toNat]
  rfl

theorem unser_uint64_ser (x : UInt64) (rest : List UInt8) :
    unser_uint64 (ser_uint64 x ++ rest) = .ok (x, rest) := by
  simp only [unser_uint64, ser_uint64, ser_readdata64, ser_readdata_leBytes, Except.bind_ok_left,
    Nat.mod_eq_of_lt (show x.toNat < 256 ^ 8 from x.toNat_lt), UInt64.ofNat_toNat]
  rfl

theorem unser_int32_ser (x : Int32) (rest : List UInt8) :
    unser_int32 (ser_int32 x ++ rest) = .ok (x, rest) := by
  have hx : Int32.ofNat x.toUInt32.toNat = x := Int32.toBitVec.inj (by simp)
  simp only [unser_int32, ser_int32, ser_readdata32, ser_readdata_leBytes, Except.bind_ok_left,
    Nat.mod_eq_of_lt (show x.toUInt32.toNat < 256 ^ 4 from x.toUInt32.toNat_lt), hx]
  rfl

/-- An `int64_t` reads back from its two's complement bytes. -/
theorem unser_int64_ser (x : Int64) (rest : List UInt8) :
    unser_int64 (ser_int64 x.toInt ++ rest) = .ok (x, rest) := by
  have ht := x.toBitVec.isLt
  have hbytes : (x.toInt % 2 ^ 64).toNat = x.toBitVec.toNat := by
    rw [← Int64.toInt_toBitVec, BitVec.toInt_eq_toNat_cond]
    split_ifs <;> omega
  have hx : Int64.ofNat x.toBitVec.toNat = x := Int64.toBitVec.inj (by simp)
  simp only [unser_int64, ser_int64, ser_readdata64, ser_readdata_leBytes, Except.bind_ok_left,
    hbytes, Nat.mod_eq_of_lt (show x.toBitVec.toNat < 256 ^ 8 from ht), hx]
  rfl

theorem COutPoint.unserialize_serialize (o : COutPoint) (rest : List UInt8) :
    COutPoint.unserialize (o.serialize ++ rest) = .ok (o, rest) := by
  simp only [COutPoint.unserialize, COutPoint.serialize, List.append_assoc, unser_uint256_ser,
    unser_uint32_ser, Except.bind_ok_left]
  rfl

theorem readCanonical_leBytes {w lo n : Nat} (hlo : lo ≤ n) (hn : n < 256 ^ w) (rest : List UInt8) :
    readCanonical (ser_readdata w) lo (leBytes w n ++ rest) = .ok (n, rest) := by
  simp only [readCanonical, ser_readdata_leBytes, Except.bind_ok_left, Nat.mod_eq_of_lt hn]
  rw [if_neg (by omega)]
  rfl

/-- **A size up to `MAX_SIZE` reads back.** -/
theorem ReadCompactSize_compactSize {n : Nat} (hn : n ≤ MAX_SIZE) (rest : List UInt8) :
    ReadCompactSize (compactSize n ++ rest) = .ok (n, rest) := by
  have hmax : MAX_SIZE < 0xffffffff := by decide
  have hrange : (do
      let x ← (pure (n, rest) : Except Abort (Nat × List UInt8))
      if x.1 > MAX_SIZE then .error (.exception "ReadCompactSize(): size too large")
      else pure (x.1, x.2)) = .ok (n, rest) := by
    rw [pure_bind, if_neg (by omega)]
    rfl
  unfold compactSize
  split_ifs with h₁ h₂ h₃
  · rw [List.singleton_append, show UInt8.ofNat n :: rest = leBytes 1 n ++ rest from rfl]
    simp only [ReadCompactSize, ser_readdata8, ser_readdata_leBytes, Except.bind_ok_left,
      Nat.mod_eq_of_lt (show n < 256 ^ 1 by norm_num; omega), if_pos h₁]
    exact hrange
  · rw [List.cons_append, show (253 : UInt8) :: (leBytes 2 n ++ rest) =
      leBytes 1 253 ++ (leBytes 2 n ++ rest) from rfl]
    simp only [ReadCompactSize, ser_readdata8, ser_readdata16, ser_readdata_leBytes,
      Except.bind_ok_left]
    rw [if_neg (show ¬ 253 % 256 ^ 1 < 253 by decide), if_pos (show 253 % 256 ^ 1 = 253 from rfl),
      readCanonical_leBytes (by omega) (by norm_num; omega)]
    exact hrange
  · rw [List.cons_append, show (254 : UInt8) :: (leBytes 4 n ++ rest) =
      leBytes 1 254 ++ (leBytes 4 n ++ rest) from rfl]
    simp only [ReadCompactSize, ser_readdata8, ser_readdata32, ser_readdata_leBytes,
      Except.bind_ok_left]
    rw [if_neg (show ¬ 254 % 256 ^ 1 < 253 by decide), if_neg (show ¬ 254 % 256 ^ 1 = 253 by decide),
      if_pos (show 254 % 256 ^ 1 = 254 from rfl), readCanonical_leBytes (by omega) (by norm_num; omega)]
    exact hrange
  · omega

theorem readCanonical_eq_ok {w lo n : Nat} {s rest : List UInt8}
    (h : readCanonical (ser_readdata w) lo s = .ok (n, rest)) :
    lo ≤ n ∧ n < 256 ^ w ∧ s = leBytes w n ++ rest := by
  obtain ⟨⟨m, s'⟩, hm, hr⟩ := Except.bind_eq_ok.mp h
  obtain ⟨hlt, rfl⟩ := ser_readdata_eq_ok hm
  obtain ⟨hlo, hr⟩ := Except.ite_error_eq_ok.mp hr
  cases hr
  exact ⟨Nat.le_of_not_lt hlo, hlt, rfl⟩

/-- **`ReadCompactSize` accepts only what `WriteCompactSize` writes**: a size up to `MAX_SIZE`,
in its shortest form. -/
theorem ReadCompactSize_eq_ok {n : Nat} {s rest : List UInt8}
    (h : ReadCompactSize s = .ok (n, rest)) : n ≤ MAX_SIZE ∧ s = compactSize n ++ rest := by
  have hcheck : ∀ {r : Except Abort (Nat × List UInt8)}, (do
      let x ← r
      if x.1 > MAX_SIZE then .error (.exception "ReadCompactSize(): size too large")
      else pure (x.1, x.2)) = .ok (n, rest) → n ≤ MAX_SIZE ∧ r = .ok (n, rest) := by
    intro r hr
    obtain ⟨⟨m, s'⟩, hm, hr⟩ := Except.bind_eq_ok.mp hr
    obtain ⟨hmax, hr⟩ := Except.ite_error_eq_ok.mp hr
    cases hr
    exact ⟨Nat.le_of_not_lt hmax, hm⟩
  have hmax : MAX_SIZE < 0x100000000 := by decide
  obtain ⟨⟨chSize, s₁⟩, h₁, h₂⟩ := Except.bind_eq_ok.mp h
  obtain ⟨hch, rfl⟩ := ser_readdata_eq_ok h₁
  dsimp only at h₂
  split_ifs at h₂ with hc₁ hc₂ hc₃
  · obtain ⟨hn, hr⟩ := hcheck h₂
    cases hr
    exact ⟨hn, by rw [compactSize, if_pos hc₁]; rfl⟩
  · obtain ⟨hn, hr⟩ := hcheck h₂
    obtain ⟨hlo, hlt, rfl⟩ := readCanonical_eq_ok hr
    subst hc₂
    refine ⟨hn, ?_⟩
    rw [compactSize, if_neg (by omega), if_pos (by norm_num at hlt; omega)]
    rfl
  · obtain ⟨hn, hr⟩ := hcheck h₂
    obtain ⟨hlo, hlt, rfl⟩ := readCanonical_eq_ok hr
    subst hc₃
    refine ⟨hn, ?_⟩
    rw [compactSize, if_neg (by omega), if_neg (by omega), if_pos (by norm_num at hlt; omega)]
    rfl
  · obtain ⟨hn, hr⟩ := hcheck h₂
    obtain ⟨hlo, -, -⟩ := readCanonical_eq_ok hr
    omega

/-- A size above `MAX_SIZE` that fits in four bytes is refused. -/
theorem ReadCompactSize_compactSize_of_lt {n : Nat} (hn : MAX_SIZE < n) (h32 : n ≤ 0xffffffff)
    (rest : List UInt8) :
    ReadCompactSize (compactSize n ++ rest) =
      .error (.exception "ReadCompactSize(): size too large") := by
  have hmax : MAX_SIZE = 0x02000000 := rfl
  rw [compactSize, if_neg (by omega), if_neg (by omega), if_pos h32, List.cons_append,
    show (254 : UInt8) :: (leBytes 4 n ++ rest) = leBytes 1 254 ++ (leBytes 4 n ++ rest) from rfl]
  simp only [ReadCompactSize, ser_readdata8, ser_readdata32, ser_readdata_leBytes,
    Except.bind_ok_left]
  rw [if_neg (show ¬ 254 % 256 ^ 1 < 253 by decide), if_neg (show ¬ 254 % 256 ^ 1 = 253 by decide),
    if_pos (show 254 % 256 ^ 1 = 254 from rfl), readCanonical_leBytes (by omega) (by norm_num; omega),
    Except.bind_ok_left, if_pos hn]

theorem readCanonical_leBytes_rest {w lo n k : Nat} {rest rest' : List UInt8}
    (h : readCanonical (ser_readdata w) lo (leBytes w n ++ rest) = .ok (k, rest')) :
    rest' = rest := by
  simp only [readCanonical, ser_readdata_leBytes, Except.bind_ok_left] at h
  split at h
  · cases h
  · cases h
    rfl

/-- **Whatever size it reads, `ReadCompactSize` stops where `WriteCompactSize` stopped**: the
marker announces as many bytes as were written, also for a size it then refuses. -/
theorem ReadCompactSize_compactSize_rest {n k : Nat} {rest rest' : List UInt8}
    (h : ReadCompactSize (compactSize n ++ rest) = .ok (k, rest')) : rest' = rest := by
  have hcheck : ∀ {r : Except Abort (Nat × List UInt8)}, (do
      let x ← r
      if x.1 > MAX_SIZE then .error (.exception "ReadCompactSize(): size too large")
      else pure (x.1, x.2)) = .ok (k, rest') → ∃ m, r = .ok (m, rest') := by
    intro r hr
    rcases r with _ | ⟨m, s⟩
    · cases hr
    · simp only [Except.bind_ok_left] at hr
      split at hr
      · cases hr
      · cases hr
        exact ⟨_, rfl⟩
  unfold compactSize at h
  split_ifs at h with h₁ h₂ h₃
  · rw [List.singleton_append, show UInt8.ofNat n :: rest = leBytes 1 n ++ rest from rfl] at h
    simp only [ReadCompactSize, ser_readdata8, ser_readdata_leBytes, Except.bind_ok_left,
      Nat.mod_eq_of_lt (show n < 256 ^ 1 by norm_num; omega), if_pos h₁] at h
    obtain ⟨m, hm⟩ := hcheck h
    cases hm
    rfl
  · rw [List.cons_append, show (253 : UInt8) :: (leBytes 2 n ++ rest) =
      leBytes 1 253 ++ (leBytes 2 n ++ rest) from rfl] at h
    simp only [ReadCompactSize, ser_readdata8, ser_readdata16, ser_readdata_leBytes,
      Except.bind_ok_left] at h
    rw [if_neg (show ¬ 253 % 256 ^ 1 < 253 by decide),
      if_pos (show 253 % 256 ^ 1 = 253 from rfl)] at h
    obtain ⟨m, hm⟩ := hcheck h
    exact readCanonical_leBytes_rest hm
  · rw [List.cons_append, show (254 : UInt8) :: (leBytes 4 n ++ rest) =
      leBytes 1 254 ++ (leBytes 4 n ++ rest) from rfl] at h
    simp only [ReadCompactSize, ser_readdata8, ser_readdata32, ser_readdata_leBytes,
      Except.bind_ok_left] at h
    rw [if_neg (show ¬ 254 % 256 ^ 1 < 253 by decide),
      if_neg (show ¬ 254 % 256 ^ 1 = 253 by decide),
      if_pos (show 254 % 256 ^ 1 = 254 from rfl)] at h
    obtain ⟨m, hm⟩ := hcheck h
    exact readCanonical_leBytes_rest hm
  · rw [List.cons_append, show (255 : UInt8) :: (leBytes 8 n ++ rest) =
      leBytes 1 255 ++ (leBytes 8 n ++ rest) from rfl] at h
    simp only [ReadCompactSize, ser_readdata8, ser_readdata64, ser_readdata_leBytes,
      Except.bind_ok_left] at h
    rw [if_neg (show ¬ 255 % 256 ^ 1 < 253 by decide),
      if_neg (show ¬ 255 % 256 ^ 1 = 253 by decide),
      if_neg (show ¬ 255 % 256 ^ 1 = 254 by decide)] at h
    obtain ⟨m, hm⟩ := hcheck h
    exact readCanonical_leBytes_rest hm

end NowpConsensus
