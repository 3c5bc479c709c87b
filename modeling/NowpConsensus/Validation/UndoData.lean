import NowpConsensus.Coins.Compressor
import NowpConsensus.Primitives.TransactionCodec
import NowpConsensus.Validation.ConnectBlock

/-!
# Stored coins and undo data

The two places a coin is written to disk: the coins database, by `Coin::Serialize` (`coins.h`),
and the undo files, by `TxInUndoFormatter` (`undo.h`) inside `CTxUndo` and `CBlockUndo`, which
`UndoWriteToDisk` appends to an undo file with a checksum and `UndoReadFromDisk` reads back
(`node/blockstorage.cpp`).

Both pack the height and the flags into one `VARINT`: the coins database as `nHeight * 2 +
fCoinBase`, with the fork's coinstake flag and timestamp as two more `VARINT`s after the output;
the undo files as `nHeight * 4 + fCoinBase + 2 * fCoinStake` in an `unsigned int`, then the
timestamp, then, for a height above zero, the dummy byte older versions read as a transaction
version, then the output. The output goes through `TxOutCompression` (`Coins/Compressor.lean`).

The reader of a coin writes into an existing object; the output's script is read into the
object's script, which matters only for a script longer than `MAX_SCRIPT_SIZE`. `nHeight` is a
31-bit field: `Coin.nHeightField` is the value the writers read from it.

* `Coin.Serialize_readsBack`: a coin whose output `TxOutCompression` stores exactly, at a height
  below `2^31`, reads back from what `Coin::Serialize` writes for it;
* `TxInUndoFormatter.readsBack`: the same for the undo format, at a height below `2^30`;
* `UndoReadFromDisk_UndoWriteToDisk`: undo data of such coins, appended to an undo file by
  `UndoWriteToDisk`, is what `UndoReadFromDisk` reads back, checksum verified.
-/

namespace NowpConsensus

open Bytes Codec

/-- An output that `TxOutCompression` stores exactly: a value in `[0, MAX_MONEY]` and a script
of at most `MAX_SCRIPT_SIZE` bytes. -/
structure CTxOut.Compressible (out : CTxOut) : Prop where
  nValue_nonneg : 0 ≤ out.nValue
  nValue_le : out.nValue ≤ MAX_MONEY
  script_length : out.scriptPubKey.length ≤ MAX_SCRIPT_SIZE

/-! ## The coins database -/

/-- The value of the 31-bit field `nHeight`: the height modulo `2^31`. -/
def Coin.nHeightField (c : Coin) : Nat := (c.nHeight % 2 ^ 31).toNat

/-- `Coin::Serialize`: `VARINT(nHeight * 2 + fCoinBase)` in a `uint32_t`, the output, then the
fork's `VARINT(nFlag)` (the coinstake flag) and `VARINT(nTime)`. -/
def Coin.Serialize (IsFullyValid : List UInt8 → Bool) (c : Coin) : Except Abort (List UInt8) :=
  if c.isSpent then .error .assertion
  else do
    let code := (c.nHeightField * 2 + (if c.fCoinBase then 1 else 0)) % 2 ^ 32
    let a ← WriteVarInt IntType.uint32 code
    let b ← TxOutCompression.Ser IsFullyValid c.out
    let nFlag := if c.fCoinStake then 1 else 0
    let f ← WriteVarInt IntType.uint32 nFlag
    let t ← WriteVarInt IntType.uint32 c.nTime.toNat
    pure (a ++ b ++ f ++ t)

/-- `Coin::Unserialize`, reading into `coin`. -/
def Coin.Unserialize (Decompress : List UInt8 → Option (List UInt8)) (coin : Coin)
    (s : List UInt8) : Except Abort (Coin × List UInt8) := do
  let (code, s) ← ReadVarInt IntType.uint32 s
  let (out, s) ← TxOutCompression.Unser Decompress coin.out s
  let (nFlag, s) ← ReadVarInt IntType.uint32 s
  let (nTime, s) ← ReadVarInt IntType.uint32 s
  pure (
    { out := out, fCoinBase := code &&& 1 != 0, nHeight := ((code >>> 1 : Nat) : Int),
      fCoinStake := nFlag &&& 1 != 0, nTime := UInt32.ofNat nTime },
    s)

/-! ## The undo files -/

/-- `TxInUndoFormatter::Ser`. -/
def TxInUndoFormatter.Ser (IsFullyValid : List UInt8 → Bool) (txout : Coin) :
    Except Abort (List UInt8) := do
  let nCode := (txout.nHeightField * 4 + (if txout.fCoinBase then 1 else 0) +
    (if txout.fCoinStake then 2 else 0)) % 2 ^ 32
  let a ← WriteVarInt IntType.uint32 nCode
  let t ← WriteVarInt IntType.uint32 txout.nTime.toNat
  -- the byte older versions read as the version of the transaction's last spend
  let dummy : List UInt8 := if txout.nHeightField > 0 then [0] else []
  let o ← TxOutCompression.Ser IsFullyValid txout.out
  pure (a ++ t ++ dummy ++ o)

/-- `TxInUndoFormatter::Unser`, reading into `txout`. -/
def TxInUndoFormatter.Unser (Decompress : List UInt8 → Option (List UInt8)) (txout : Coin)
    (s : List UInt8) : Except Abort (Coin × List UInt8) := do
  let (nCode, s) ← ReadVarInt IntType.uint32 s
  let nHeight := nCode >>> 2
  let (nTime, s) ← ReadVarInt IntType.uint32 s
  let (_, s) ← (if nHeight > 0 then ReadVarInt IntType.uint32 s else pure (0, s))
  let (out, s) ← TxOutCompression.Unser Decompress txout.out s
  pure (
    { out := out, fCoinBase := nCode &&& 1 != 0, nHeight := (nHeight : Int),
      fCoinStake := nCode &&& 2 != 0, nTime := UInt32.ofNat nTime },
    s)

/-- `CTxUndo`'s serialisation: `VectorFormatter<TxInUndoFormatter>` over `vprevout`. -/
def CTxUndo.Serialize (IsFullyValid : List UInt8 → Bool) (txundo : CTxUndo) :
    Except Abort (List UInt8) :=
  VectorFormatter.Ser (TxInUndoFormatter.Ser IsFullyValid) txundo.vprevout

/-- `CTxUndo`'s unserialisation: each coin read into a new `Coin()`. -/
def CTxUndo.Unserialize (Decompress : List UInt8 → Option (List UInt8)) (s : List UInt8) :
    Except Abort (CTxUndo × List UInt8) := do
  let (vprevout, s) ← VectorFormatter.Unser (TxInUndoFormatter.Unser Decompress coinEmpty) s
  pure (⟨vprevout⟩, s)

/-- `CBlockUndo`'s serialisation: the vector `vtxundo`. -/
def CBlockUndo.Serialize (IsFullyValid : List UInt8 → Bool) (blockundo : CBlockUndo) :
    Except Abort (List UInt8) :=
  VectorFormatter.Ser (CTxUndo.Serialize IsFullyValid) blockundo.vtxundo

/-- `CBlockUndo`'s unserialisation. -/
def CBlockUndo.Unserialize (Decompress : List UInt8 → Option (List UInt8)) (s : List UInt8) :
    Except Abort (CBlockUndo × List UInt8) := do
  let (vtxundo, s) ← VectorFormatter.Unser (CTxUndo.Unserialize Decompress) s
  pure (⟨vtxundo⟩, s)

/-- `UndoWriteToDisk`, appending to the undo file `file`: the message start, the size of the
undo data as an `unsigned int`, the undo data, and its checksum, the hash `Hash` of the previous
block's hash `hashBlock` followed by the undo data. The file after the write, and the position
of the undo data in it (`pos.nPos`). -/
def UndoWriteToDisk (Hash : List UInt8 → uint256) (IsFullyValid : List UInt8 → Bool)
    (blockundo : CBlockUndo) (hashBlock : uint256) (messageStart file : List UInt8) :
    Except Abort (List UInt8 × Nat) := do
  let data ← blockundo.Serialize IsFullyValid
  let header := messageStart ++ ser_uint32 (UInt32.ofNat data.length)
  pure (file ++ header ++ data ++ ser_uint256 (Hash (ser_uint256 hashBlock ++ data)),
    file.length + header.length)

/-- The log line `UndoReadFromDisk` writes for an exception of the reader. -/
def UndoReadFromDisk.ioError (what : String) : String :=
  "UndoReadFromDisk: Deserialize or I/O error - " ++ what

/-- `UndoReadFromDisk`, on the bytes of the undo file from the position of the undo data on,
with `hashBlock` the previous block's hash: the undo data, or the line it logs when it returns
`false`. The checksum is checked against the bytes the reader consumed, as `CHashVerifier`
hashes them; an exception of the reader is caught, a failed assertion is not. -/
def UndoReadFromDisk (Hash : List UInt8 → uint256) (Decompress : List UInt8 → Option (List UInt8))
    (hashBlock : uint256) (file : List UInt8) : Except Abort (Except String CBlockUndo) :=
  match CBlockUndo.Unserialize Decompress file with
  | .error (.exception what) => .ok (.error (UndoReadFromDisk.ioError what))
  | .error e => .error e
  | .ok (blockundo, s) =>
    match unser_uint256 s with
    | .error (.exception what) => .ok (.error (UndoReadFromDisk.ioError what))
    | .error e => .error e
    | .ok (hashChecksum, _) =>
      if hashChecksum ≠ Hash (ser_uint256 hashBlock ++ file.take (file.length - s.length)) then
        .ok (.error "UndoReadFromDisk: Checksum mismatch")
      else .ok (.ok blockundo)

/-! ## Reading back -/

/-- A coin the undo files store exactly: its output `TxOutCompression` stores exactly, at a
height in `[0, 2^30)`. -/
structure Coin.UndoStorable (c : Coin) : Prop where
  out : c.out.Compressible
  nHeight_nonneg : 0 ≤ c.nHeight
  nHeight_lt : c.nHeight < 2 ^ 30

/-- Undo data the undo files store exactly: vectors within `MAX_SIZE`, of such coins. -/
structure CBlockUndo.Storable (blockundo : CBlockUndo) : Prop where
  vtxundo_length : blockundo.vtxundo.length ≤ MAX_SIZE
  vprevout_length : ∀ txundo ∈ blockundo.vtxundo, txundo.vprevout.length ≤ MAX_SIZE
  coin : ∀ txundo ∈ blockundo.vtxundo, ∀ c ∈ txundo.vprevout, c.UndoStorable

theorem Coin.nHeightField_of_lt {c : Coin} (h0 : 0 ≤ c.nHeight) (h : c.nHeight < 2 ^ 31) :
    c.nHeightField = c.nHeight.toNat := by
  rw [Coin.nHeightField, Int.emod_eq_of_lt h0 h]

/-- An output of non-negative value is not the null output, so a coin of it is not spent. -/
theorem Coin.isSpent_eq_false {c : Coin} (h : 0 ≤ c.out.nValue) : c.isSpent = false := by
  simp only [Coin.isSpent, CTxOut.isNull, beq_eq_false_iff_ne]
  exact (lt_of_lt_of_le (by decide : (-1 : CAmount) < 0) h).ne'

/-- The coins database's code gives back the coinbase flag and the height. -/
theorem coinCode_spec (n : Nat) (b : Bool) :
    ((n * 2 + (if b then 1 else 0)) &&& 1 != 0) = b ∧ (n * 2 + (if b then 1 else 0)) >>> 1 = n := by
  rw [Nat.and_one_is_mod, Nat.shiftRight_eq_div_pow]
  cases b
  · simp
  · simp
    omega

theorem and_two_eq_mod_four (x : Nat) : x &&& 2 = x % 4 &&& 2 := by
  rw [← Nat.and_two_pow_sub_one_eq_mod x 2, Nat.and_assoc]
  rfl

/-- The undo files' code gives back both flags and the height. -/
theorem undoCode_spec (n : Nat) (b c : Bool) :
    ((n * 4 + (if b then 1 else 0) + (if c then 2 else 0)) &&& 1 != 0) = b ∧
    ((n * 4 + (if b then 1 else 0) + (if c then 2 else 0)) &&& 2 != 0) = c ∧
    (n * 4 + (if b then 1 else 0) + (if c then 2 else 0)) >>> 2 = n := by
  have hmod : (n * 4 + (if b then 1 else 0) + (if c then 2 else 0)) % 4 =
      (if b then 1 else 0) + (if c then 2 else 0) := by
    split_ifs <;> omega
  rw [Nat.and_one_is_mod, and_two_eq_mod_four, hmod, Nat.shiftRight_eq_div_pow]
  cases b <;> cases c <;> (simp; omega)

/-- A number below `2^32` as a `VARINT` of an `unsigned int`. -/
theorem readsBack_uint32 {n : Nat} (h : n < 2 ^ 32) :
    ReadsBack (WriteVarInt IntType.uint32) (ReadVarInt IntType.uint32) n n :=
  readsBack_WriteVarInt IntType.uint32 (by rw [IntType.max_uint32]; omega)

/-- A node whose curve accepts no uncompressed key meets the assumption of the round trips. -/
theorem decompressInverts_of_none :
    DecompressInvertsCompression (fun _ => false) (fun _ => none) :=
  fun _ _ _ _ h => absurd h Bool.false_ne_true

/-- The staked coin of `ConnectBlock.lean` is one the undo files store exactly. -/
theorem stakeCoin_undoStorable : stakeCoin.UndoStorable :=
  ⟨⟨by decide, by decide, by decide⟩, by decide, by decide⟩

section Curve

variable {IsFullyValid : List UInt8 → Bool} {Decompress : List UInt8 → Option (List UInt8)}

/-- **A coin reads back from what `Coin::Serialize` writes for it** when `TxOutCompression`
stores its output exactly and its height is below `2^31`, whatever coin it is read into. -/
theorem Coin.Serialize_readsBack (hdec : DecompressInvertsCompression IsFullyValid Decompress)
    {c : Coin} (hout : c.out.Compressible) (h0 : 0 ≤ c.nHeight) (h31 : c.nHeight < 2 ^ 31)
    (prior : Coin) :
    ReadsBack (Coin.Serialize IsFullyValid) (Coin.Unserialize Decompress prior) c c := by
  have hfield := Coin.nHeightField_of_lt h0 h31
  have hcode : c.nHeightField * 2 + (if c.fCoinBase then 1 else 0) < 2 ^ 32 := by
    split <;> omega
  obtain ⟨a, hwa, hra⟩ := readsBack_uint32 hcode
  obtain ⟨b, hwb, hrb⟩ :=
    TxOutCompression.readsBack hdec hout.nValue_nonneg hout.nValue_le hout.script_length prior.out
  obtain ⟨f, hwf, hrf⟩ := readsBack_uint32 (n := if c.fCoinStake then 1 else 0) (by split <;> omega)
  obtain ⟨t, hwt, hrt⟩ := readsBack_uint32 c.nTime.toNat_lt
  refine ⟨a ++ b ++ f ++ t, ?_, fun rest => ?_⟩
  · rw [Coin.Serialize, if_neg (by rw [Coin.isSpent_eq_false hout.nValue_nonneg]; decide)]
    simp only [Nat.mod_eq_of_lt hcode, hwa, hwb, hwf, hwt, Except.bind_ok_left]
    rfl
  · simp only [Coin.Unserialize, List.append_assoc, hra, hrb, hrf, hrt, Except.bind_ok_left]
    obtain ⟨hcb, hh⟩ := coinCode_spec c.nHeightField c.fCoinBase
    obtain ⟨hcs, -⟩ := coinCode_spec 0 c.fCoinStake
    rw [Nat.zero_mul, Nat.zero_add] at hcs
    rw [hcb, hh, hcs, hfield, Int.toNat_of_nonneg h0, UInt32.ofNat_toNat]
    rfl

/-- The staked coin, in the coins database of a node whose curve accepts no uncompressed key. -/
theorem Coin.Serialize_readsBack_stakeCoin :
    ReadsBack (Coin.Serialize fun _ => false) (Coin.Unserialize (fun _ => none) coinEmpty)
      stakeCoin stakeCoin :=
  Coin.Serialize_readsBack decompressInverts_of_none stakeCoin_undoStorable.out (by decide)
    (by decide) coinEmpty

/-- **A coin reads back from what `TxInUndoFormatter` writes for it** when `TxOutCompression`
stores its output exactly and its height is below `2^30`, whatever coin it is read into. -/
theorem TxInUndoFormatter.readsBack (hdec : DecompressInvertsCompression IsFullyValid Decompress)
    {c : Coin} (hout : c.out.Compressible) (h0 : 0 ≤ c.nHeight) (h30 : c.nHeight < 2 ^ 30)
    (prior : Coin) :
    ReadsBack (TxInUndoFormatter.Ser IsFullyValid) (TxInUndoFormatter.Unser Decompress prior)
      c c := by
  have hfield := Coin.nHeightField_of_lt h0 (lt_trans h30 (by norm_num))
  have hcode : c.nHeightField * 4 + (if c.fCoinBase then 1 else 0) +
      (if c.fCoinStake then 2 else 0) < 2 ^ 32 := by
    split_ifs <;> omega
  obtain ⟨a, hwa, hra⟩ := readsBack_uint32 hcode
  obtain ⟨t, hwt, hrt⟩ := readsBack_uint32 c.nTime.toNat_lt
  obtain ⟨o, hwo, hro⟩ :=
    TxOutCompression.readsBack hdec hout.nValue_nonneg hout.nValue_le hout.script_length prior.out
  obtain ⟨hcb, hcs, hh⟩ := undoCode_spec c.nHeightField c.fCoinBase c.fCoinStake
  refine ⟨a ++ t ++ (if c.nHeightField > 0 then [0] else []) ++ o, ?_, fun rest => ?_⟩
  · simp only [TxInUndoFormatter.Ser, Nat.mod_eq_of_lt hcode, hwa, hwt, hwo, Except.bind_ok_left]
    rfl
  · have hdummy : (if c.nHeightField > 0 then
        ReadVarInt IntType.uint32 ((if c.nHeightField > 0 then [0] else []) ++ (o ++ rest))
      else pure (0, (if c.nHeightField > 0 then [0] else []) ++ (o ++ rest))) =
        .ok (0, o ++ rest) := by
      split_ifs
      · exact ReadVarInt_of_lt IntType.uint32 (x := 0) (by decide) (o ++ rest)
      · rfl
    simp only [TxInUndoFormatter.Unser, List.append_assoc, hra, Except.bind_ok_left, hh, hrt,
      hdummy, hro]
    rw [hcb, hcs, hfield, Int.toNat_of_nonneg h0, UInt32.ofNat_toNat]
    rfl

theorem CTxUndo.readsBack (hdec : DecompressInvertsCompression IsFullyValid Decompress)
    {txundo : CTxUndo} (hlen : txundo.vprevout.length ≤ MAX_SIZE)
    (h : ∀ c ∈ txundo.vprevout, c.UndoStorable) :
    ReadsBack (CTxUndo.Serialize IsFullyValid) (CTxUndo.Unserialize Decompress) txundo txundo := by
  obtain ⟨a, hw, hr⟩ := VectorFormatter.readsBack hlen fun c hc =>
    TxInUndoFormatter.readsBack hdec (h c hc).out (h c hc).nHeight_nonneg (h c hc).nHeight_lt
      coinEmpty
  refine ⟨a, hw, fun rest => ?_⟩
  rw [CTxUndo.Unserialize, hr, Except.bind_ok_left]
  rfl

theorem CBlockUndo.readsBack (hdec : DecompressInvertsCompression IsFullyValid Decompress)
    {blockundo : CBlockUndo} (h : blockundo.Storable) :
    ReadsBack (CBlockUndo.Serialize IsFullyValid) (CBlockUndo.Unserialize Decompress) blockundo
      blockundo := by
  obtain ⟨a, hw, hr⟩ := VectorFormatter.readsBack h.vtxundo_length fun txundo htx =>
    CTxUndo.readsBack hdec (h.vprevout_length txundo htx) (h.coin txundo htx)
  refine ⟨a, hw, fun rest => ?_⟩
  rw [CBlockUndo.Unserialize, hr, Except.bind_ok_left]
  rfl

/-- **Undo data appended to an undo file by `UndoWriteToDisk` is what `UndoReadFromDisk` reads
back** from the position the write reports, whatever the file held before and whatever is
appended after, with the checksum verified: for any hash function, when the undo data's coins are
stored exactly and `Decompress` recovers the uncompressed keys. -/
theorem UndoReadFromDisk_UndoWriteToDisk
    (hdec : DecompressInvertsCompression IsFullyValid Decompress) (Hash : List UInt8 → uint256)
    {blockundo : CBlockUndo} (h : blockundo.Storable) (hashBlock : uint256)
    (messageStart file : List UInt8) :
    ∃ file' pos, UndoWriteToDisk Hash IsFullyValid blockundo hashBlock messageStart file =
        .ok (file', pos) ∧
      ∀ rest, UndoReadFromDisk Hash Decompress hashBlock ((file' ++ rest).drop pos) =
        .ok (.ok blockundo) := by
  obtain ⟨data, hw, hr⟩ := CBlockUndo.readsBack hdec h
  refine ⟨_, _, by rw [UndoWriteToDisk, hw, Except.bind_ok_left]; rfl, fun rest => ?_⟩
  have hdrop : (file ++ (messageStart ++ ser_uint32 (UInt32.ofNat data.length)) ++ data ++
      ser_uint256 (Hash (ser_uint256 hashBlock ++ data)) ++ rest).drop
        (file.length + (messageStart ++ ser_uint32 (UInt32.ofNat data.length)).length) =
      data ++ (ser_uint256 (Hash (ser_uint256 hashBlock ++ data)) ++ rest) := by
    rw [List.append_assoc, List.append_assoc, List.append_assoc, ← List.append_assoc file,
      List.drop_left' List.length_append]
  have hconsumed : (data ++ (ser_uint256 (Hash (ser_uint256 hashBlock ++ data)) ++ rest)).take
      ((data ++ (ser_uint256 (Hash (ser_uint256 hashBlock ++ data)) ++ rest)).length -
        (ser_uint256 (Hash (ser_uint256 hashBlock ++ data)) ++ rest).length) = data := by
    rw [List.length_append, Nat.add_sub_cancel, List.take_left' rfl]
  rw [hdrop, UndoReadFromDisk, hr]
  dsimp only
  rw [unser_uint256_ser]
  dsimp only
  rw [hconsumed, if_neg (not_not.mpr rfl)]

/-- The undo data of one transaction that spent the staked coin, in an empty undo file, under a
constant hash. -/
theorem UndoReadFromDisk_UndoWriteToDisk_stakeCoin :
    ∃ file' pos, UndoWriteToDisk (fun _ => 0) (fun _ => false) ⟨[⟨[stakeCoin]⟩]⟩ 0
        [0xf9, 0xbe, 0xb4, 0xd9] [] = .ok (file', pos) ∧
      ∀ rest, UndoReadFromDisk (fun _ => 0) (fun _ => none) 0 ((file' ++ rest).drop pos) =
        .ok (.ok ⟨[⟨[stakeCoin]⟩]⟩) := by
  have h : CBlockUndo.Storable ⟨[⟨[stakeCoin]⟩]⟩ := by
    refine ⟨by decide, by decide, fun txundo ht c hc => ?_⟩
    rw [List.mem_singleton] at ht
    subst ht
    rw [List.mem_singleton] at hc
    subst hc
    exact stakeCoin_undoStorable
  exact UndoReadFromDisk_UndoWriteToDisk decompressInverts_of_none (fun _ => 0) h 0 _ []

end Curve

end NowpConsensus
