import NowpConsensus.Primitives.VarInt

/-!
# The block index database

`CDiskBlockIndex` (`chain.h`) is the record the block tree database keeps for a `CBlockIndex`
entry: the entry's fields, and the hash of its predecessor in place of `pprev`. Its
`SERIALIZE_METHODS` write the stream's version, the height, status and transaction count as
`VARINT`s, the file positions only under the status bits that say the block's data and undo
data are stored, the fork's money and stake fields with the three proof-of-stake fields only for
a proof-of-stake block, and the header. `CBlockTreeDB::LoadBlockIndexGuts` (`txdb.cpp`) reads the
records back in key order and copies each into the entry of `m_block_index` under the record's
recomputed hash, with `pprev` the entry of `hashPrev`; `BlockManager::InsertBlockIndex`
(`node/blockstorage.cpp`) creates an entry that is not there yet, and gives `nullptr` for the
null hash.

* `CDiskBlockIndex.readsBack_Serialize`: for every record, the reader reads back what
  `CDiskBlockIndex.readBack` says: the record, except that a negative `nHeight` or `nFile` comes
  back as its low seven bits, and that the fields the record leaves out keep the values of the
  object read into.
* `CBlockTreeDB.LoadBlockIndexGuts.step_eq`: one record loaded into a block index.
* `CBlockTreeDB.LoadBlockIndexGuts_restores`: loading the records of entries with distinct,
  non-null hashes, non-negative heights and file numbers, and null stake fields on the
  proof-of-work ones, restores every entry under its hash, with every field and the `pprev`
  pointer it had.
-/

namespace NowpConsensus

open Codec

/-! ## The record -/

/-- `BLOCK_HAVE_DATA`: the full block is stored in a `blk*.dat` file. -/
def BLOCK_HAVE_DATA : UInt32 := 8

/-- `BLOCK_HAVE_UNDO`: the block's undo data is stored in a `rev*.dat` file. -/
def BLOCK_HAVE_UNDO : UInt32 := 16

/-- `CLIENT_VERSION`, the version of the database's streams: `10000 * CLIENT_VERSION_MAJOR +
100 * CLIENT_VERSION_MINOR + 1 * CLIENT_VERSION_BUILD`. -/
def CLIENT_VERSION : Int32 := 10000 * 23 + 100 * 0 + 1 * 0

/-- The fields of a `CBlockIndex` entry that `CDiskBlockIndex` stores, with the defaults of
`CBlockIndex()`; a default `COutPoint` has the null hash and `NULL_INDEX`. -/
structure StoredBlockIndex where
  nHeight : Int32 := 0
  nFile : Int32 := 0
  nDataPos : UInt32 := 0
  nUndoPos : UInt32 := 0
  nTx : UInt32 := 0
  nStatus : UInt32 := 0
  nVersion : Int32 := 0
  hashMerkleRoot : uint256 := 0
  nTime : UInt32 := 0
  nBits : UInt32 := 0
  nNonce : UInt32 := 0
  nMint : Int64 := 0
  nMoneySupply : Int64 := 0
  nFlags : UInt32 := 0
  nStakeModifier : UInt64 := 0
  prevoutStake : COutPoint := ⟨0, COutPoint.NULL_INDEX⟩
  nStakeTime : UInt32 := 0
  hashProofOfStake : uint256 := 0
  deriving DecidableEq, Repr

/-- `CDiskBlockIndex`: the stored fields, and the hash of the predecessor. -/
structure CDiskBlockIndex extends StoredBlockIndex where
  hashPrev : uint256 := 0
  deriving DecidableEq, Repr

namespace CDiskBlockIndex

/-- `CDiskBlockIndex::GetBlockHash`: the hash of the header the record's fields make up. -/
def GetBlockHash (Hash : List UInt8 → uint256) (d : CDiskBlockIndex) : uint256 :=
  CBlockHeader.GetHash Hash
    { nVersion := d.nVersion, hashPrevBlock := d.hashPrev, hashMerkleRoot := d.hashMerkleRoot,
      nTime := d.nTime, nBits := d.nBits, nNonce := d.nNonce, nFlags := 0 }

/-- `obj.nStatus & (BLOCK_HAVE_DATA | BLOCK_HAVE_UNDO)`: the record has `nFile`. -/
def HasFile (nStatus : UInt32) : Prop := nStatus &&& (BLOCK_HAVE_DATA ||| BLOCK_HAVE_UNDO) ≠ 0

/-- `obj.nStatus & BLOCK_HAVE_DATA`: the record has `nDataPos`. -/
def HasData (nStatus : UInt32) : Prop := nStatus &&& BLOCK_HAVE_DATA ≠ 0

/-- `obj.nStatus & BLOCK_HAVE_UNDO`: the record has `nUndoPos`. -/
def HasUndo (nStatus : UInt32) : Prop := nStatus &&& BLOCK_HAVE_UNDO ≠ 0

/-- `obj.nFlags & BLOCK_PROOF_OF_STAKE`: the record has the proof-of-stake fields. -/
def HasStake (nFlags : UInt32) : Prop := nFlags &&& BLOCK_PROOF_OF_STAKE ≠ 0

instance (nStatus : UInt32) : Decidable (HasFile nStatus) := inferInstanceAs (Decidable (_ ≠ _))

instance (nStatus : UInt32) : Decidable (HasData nStatus) := inferInstanceAs (Decidable (_ ≠ _))

instance (nStatus : UInt32) : Decidable (HasUndo nStatus) := inferInstanceAs (Decidable (_ ≠ _))

instance (nFlags : UInt32) : Decidable (HasStake nFlags) := inferInstanceAs (Decidable (_ ≠ _))

end CDiskBlockIndex

/-! ## `VARINT` fields -/

namespace VarIntFormatter

/-- `VARINT_MODE(n, VarIntMode::NONNEGATIVE_SIGNED)` on an `int`, writing. -/
def SerInt (n : Int32) : Except Abort (List UInt8) := WriteVarIntSigned IntType.int32 n.toInt

/-- `VARINT_MODE(n, VarIntMode::NONNEGATIVE_SIGNED)` on an `int`, reading. -/
def UnserInt (s : List UInt8) : Except Abort (Int32 × List UInt8) :=
  (fun p => (Int32.ofNat p.1, p.2)) <$> ReadVarInt IntType.int32 s

/-- `VARINT(n)` on an `unsigned int` or a `uint32_t`, writing. -/
def SerUInt (n : UInt32) : Except Abort (List UInt8) := WriteVarInt IntType.uint32 n.toNat

/-- `VARINT(n)` on an `unsigned int` or a `uint32_t`, reading. -/
def UnserUInt (s : List UInt8) : Except Abort (UInt32 × List UInt8) :=
  (fun p => (UInt32.ofNat p.1, p.2)) <$> ReadVarInt IntType.uint32 s

/-- What `UnserInt` reads back from what `SerInt` writes for `n`: `n`, or for a negative `n` the
low seven bits, which is all `WriteVarInt` writes for it. -/
def readBackInt (n : Int32) : Int32 :=
  if n < 0 then Int32.ofNat (Int.land n.toInt 0x7F).toNat else n

/-- The low seven bits of an integer, in two's complement. -/
theorem land_0x7f_lt (n : Int) : (Int.land n 0x7F).toNat < 128 := by
  cases n with
  | ofNat a =>
    show a &&& 127 < 128
    exact Nat.lt_of_le_of_lt Nat.and_le_right (by decide)
  | negSucc m =>
    -- `-(m + 1) & 127` clears the bits of `m` in `127`, and keeps none above bit six
    show Nat.ldiff 127 m < 2 ^ 7
    refine Nat.lt_pow_two_of_testBit _ fun i hi => ?_
    have h127 : 127 < 2 ^ i := Nat.lt_of_lt_of_le (by decide) (Nat.pow_le_pow_right (by decide) hi)
    rw [Nat.testBit_ldiff, Nat.testBit_eq_false_of_lt h127, Bool.false_and]

theorem readsBack_SerUInt (n : UInt32) : ReadsBack SerUInt UnserUInt n n := by
  have hmax : n.toNat ≤ IntType.uint32.max := by
    have := n.toNat_lt
    rw [IntType.max_uint32]
    omega
  have h := ReadsBack.map (g := UInt32.toNat) (f := UInt32.ofNat)
    (readsBack_WriteVarInt IntType.uint32 hmax)
  rwa [UInt32.ofNat_toNat] at h

theorem readsBack_SerInt (n : Int32) : ReadsBack SerInt UnserInt n (readBackInt n) := by
  by_cases hn : n < 0
  · have hlt := land_0x7f_lt n.toInt
    have hneg : n.toInt < 0 := by
      have := Int32.lt_iff_toInt_lt.mp hn
      rwa [Int32.toInt_zero] at this
    have hw : SerInt n = .ok [UInt8.ofNat (Int.land n.toInt 0x7F).toNat] := by
      rw [SerInt, WriteVarIntSigned, if_pos hneg]
    refine ⟨_, hw, fun rest => ?_⟩
    rw [UnserInt, ReadVarInt, List.singleton_append, loop_last (Nat.zero_le _) hlt, readBackInt,
      if_pos hn, Nat.zero_mul, Nat.zero_add]
    rfl
  · have h0 : 0 ≤ n := Int32.not_lt.mp hn
    have h0' : 0 ≤ n.toInt := by
      have := Int32.le_iff_toInt_le.mp h0
      rwa [Int32.toInt_zero] at this
    have hmax : n.toInt.toNat ≤ IntType.int32.max := by
      have := n.toInt_lt
      rw [IntType.max_int32]
      omega
    obtain ⟨a, hw, hr⟩ := readsBack_WriteVarInt IntType.int32 hmax
    refine ⟨a, by rw [SerInt, WriteVarIntSigned_of_nonneg _ h0', hw], fun rest => ?_⟩
    rw [UnserInt, hr, readBackInt, if_neg hn]
    show Except.ok (Int32.ofNat n.toNatClampNeg, rest) = _
    rw [Int32.ofNat_toNatClampNeg n h0]

theorem readBackInt_of_nonneg {n : Int32} (h : 0 ≤ n) : readBackInt n = n := by
  rw [readBackInt, if_neg (Int32.not_lt.mpr h)]

end VarIntFormatter

/-! ## Writing and reading the record -/

namespace CDiskBlockIndex

/-- The proof-of-stake fields, `prevoutStake`, `nStakeTime` and `hashProofOfStake`, written. -/
def serStake (stake : COutPoint × UInt32 × uint256) : List UInt8 :=
  stake.1.serialize ++ ser_uint32 stake.2.1 ++ ser_uint256 stake.2.2

/-- The proof-of-stake fields, read. -/
def unserStake (s : List UInt8) : Except Abort ((COutPoint × UInt32 × uint256) × List UInt8) := do
  let (prevoutStake, s) ← COutPoint.unserialize s
  let (nStakeTime, s) ← unser_uint32 s
  let (hashProofOfStake, s) ← unser_uint256 s
  pure ((prevoutStake, nStakeTime, hashProofOfStake), s)

/-- `SERIALIZE_METHODS` writing `obj`, in a stream of version `nStreamVersion` whose type has
`SER_GETHASH` exactly when `fGetHash`. -/
def Serialize (fGetHash : Bool) (nStreamVersion : Int32) (obj : CDiskBlockIndex) :
    Except Abort (List UInt8) := do
  let version ← (if !fGetHash then VarIntFormatter.SerInt nStreamVersion else pure [])
  let nHeight ← VarIntFormatter.SerInt obj.nHeight
  let nStatus ← VarIntFormatter.SerUInt obj.nStatus
  let nTx ← VarIntFormatter.SerUInt obj.nTx
  let nFile ← (if HasFile obj.nStatus then VarIntFormatter.SerInt obj.nFile else pure [])
  let nDataPos ← (if HasData obj.nStatus then VarIntFormatter.SerUInt obj.nDataPos else pure [])
  let nUndoPos ← (if HasUndo obj.nStatus then VarIntFormatter.SerUInt obj.nUndoPos else pure [])
  let stake ← (if HasStake obj.nFlags then
      pure (serStake (obj.prevoutStake, obj.nStakeTime, obj.hashProofOfStake))
    else pure [])
  pure (version ++ nHeight ++ nStatus ++ nTx ++ nFile ++ nDataPos ++ nUndoPos ++
    ser_int64 obj.nMint.toInt ++ ser_int64 obj.nMoneySupply.toInt ++ ser_uint32 obj.nFlags ++
    ser_uint64 obj.nStakeModifier ++ stake ++
    ser_int32 obj.nVersion ++ ser_uint256 obj.hashPrev ++ ser_uint256 obj.hashMerkleRoot ++
    ser_uint32 obj.nTime ++ ser_uint32 obj.nBits ++ ser_uint32 obj.nNonce)

/-- `SERIALIZE_METHODS` reading into `obj`: a field the record does not have keeps `obj`'s value,
and the version read goes to the local `_nVersion`, which starts as the stream's. -/
def Unserialize (fGetHash : Bool) (nStreamVersion : Int32) (obj : CDiskBlockIndex)
    (s : List UInt8) : Except Abort (CDiskBlockIndex × List UInt8) := do
  let (_nVersion, s) ←
    (if !fGetHash then VarIntFormatter.UnserInt s else pure (nStreamVersion, s))
  let (nHeight, s) ← VarIntFormatter.UnserInt s
  let (nStatus, s) ← VarIntFormatter.UnserUInt s
  let (nTx, s) ← VarIntFormatter.UnserUInt s
  let (nFile, s) ← (if HasFile nStatus then VarIntFormatter.UnserInt s else pure (obj.nFile, s))
  let (nDataPos, s) ←
    (if HasData nStatus then VarIntFormatter.UnserUInt s else pure (obj.nDataPos, s))
  let (nUndoPos, s) ←
    (if HasUndo nStatus then VarIntFormatter.UnserUInt s else pure (obj.nUndoPos, s))
  let (nMint, s) ← unser_int64 s
  let (nMoneySupply, s) ← unser_int64 s
  let (nFlags, s) ← unser_uint32 s
  let (nStakeModifier, s) ← unser_uint64 s
  let ((prevoutStake, nStakeTime, hashProofOfStake), s) ←
    (if HasStake nFlags then unserStake s
      else pure ((obj.prevoutStake, obj.nStakeTime, obj.hashProofOfStake), s))
  let (nVersion, s) ← unser_int32 s
  let (hashPrev, s) ← unser_uint256 s
  let (hashMerkleRoot, s) ← unser_uint256 s
  let (nTime, s) ← unser_uint32 s
  let (nBits, s) ← unser_uint32 s
  let (nNonce, s) ← unser_uint32 s
  pure (
    { nHeight := nHeight, nFile := nFile, nDataPos := nDataPos, nUndoPos := nUndoPos,
      nTx := nTx, nStatus := nStatus, nVersion := nVersion, hashMerkleRoot := hashMerkleRoot,
      nTime := nTime, nBits := nBits, nNonce := nNonce, nMint := nMint,
      nMoneySupply := nMoneySupply, nFlags := nFlags, nStakeModifier := nStakeModifier,
      prevoutStake := prevoutStake, nStakeTime := nStakeTime,
      hashProofOfStake := hashProofOfStake, hashPrev := hashPrev }, s)

/-- What is read into `obj` from what was written for `d`: the fields of `d`, with a negative
`nHeight` or `nFile` read as its low seven bits, and the fields that `d`'s status bits or stake
flag leave out kept from `obj`. -/
def readBack (d obj : CDiskBlockIndex) : CDiskBlockIndex :=
  { d with
    nHeight := VarIntFormatter.readBackInt d.nHeight
    nFile := if HasFile d.nStatus then VarIntFormatter.readBackInt d.nFile else obj.nFile
    nDataPos := if HasData d.nStatus then d.nDataPos else obj.nDataPos
    nUndoPos := if HasUndo d.nStatus then d.nUndoPos else obj.nUndoPos
    prevoutStake := if HasStake d.nFlags then d.prevoutStake else obj.prevoutStake
    nStakeTime := if HasStake d.nFlags then d.nStakeTime else obj.nStakeTime
    hashProofOfStake := if HasStake d.nFlags then d.hashProofOfStake else obj.hashProofOfStake }

theorem unserStake_serStake (stake : COutPoint × UInt32 × uint256) (rest : List UInt8) :
    unserStake (serStake stake ++ rest) = .ok (stake, rest) := by
  simp only [unserStake, serStake, List.append_assoc, COutPoint.unserialize_serialize,
    unser_uint32_ser, unser_uint256_ser, Except.bind_ok_left]
  rfl

theorem readsBack_serStake (stake : COutPoint × UInt32 × uint256) :
    ReadsBack (fun x => (pure (serStake x) : Except Abort (List UInt8))) unserStake stake stake :=
  ⟨_, rfl, unserStake_serStake stake⟩

theorem readsBack_Serialize (fGetHash : Bool) (nStreamVersion : Int32) (obj d : CDiskBlockIndex) :
    ReadsBack (Serialize fGetHash nStreamVersion) (Unserialize fGetHash nStreamVersion obj) d
      (d.readBack obj) := by
  obtain ⟨aVersion, hwVersion, hrVersion⟩ := ReadsBack.ite ((!fGetHash) = true) nStreamVersion
    fun _ => VarIntFormatter.readsBack_SerInt nStreamVersion
  obtain ⟨aHeight, hwHeight, hrHeight⟩ := VarIntFormatter.readsBack_SerInt d.nHeight
  obtain ⟨aStatus, hwStatus, hrStatus⟩ := VarIntFormatter.readsBack_SerUInt d.nStatus
  obtain ⟨aTx, hwTx, hrTx⟩ := VarIntFormatter.readsBack_SerUInt d.nTx
  obtain ⟨aFile, hwFile, hrFile⟩ := ReadsBack.ite (HasFile d.nStatus) obj.nFile
    fun _ => VarIntFormatter.readsBack_SerInt d.nFile
  obtain ⟨aDataPos, hwDataPos, hrDataPos⟩ := ReadsBack.ite (HasData d.nStatus) obj.nDataPos
    fun _ => VarIntFormatter.readsBack_SerUInt d.nDataPos
  obtain ⟨aUndoPos, hwUndoPos, hrUndoPos⟩ := ReadsBack.ite (HasUndo d.nStatus) obj.nUndoPos
    fun _ => VarIntFormatter.readsBack_SerUInt d.nUndoPos
  obtain ⟨aStake, hwStake, hrStake⟩ := ReadsBack.ite (HasStake d.nFlags)
    (obj.prevoutStake, obj.nStakeTime, obj.hashProofOfStake)
    fun _ => readsBack_serStake (d.prevoutStake, d.nStakeTime, d.hashProofOfStake)
  dsimp only at hrVersion hrFile hrDataPos hrUndoPos hrStake
  refine ⟨aVersion ++ aHeight ++ aStatus ++ aTx ++ aFile ++ aDataPos ++ aUndoPos ++
    ser_int64 d.nMint.toInt ++ ser_int64 d.nMoneySupply.toInt ++ ser_uint32 d.nFlags ++
    ser_uint64 d.nStakeModifier ++ aStake ++ ser_int32 d.nVersion ++ ser_uint256 d.hashPrev ++
    ser_uint256 d.hashMerkleRoot ++ ser_uint32 d.nTime ++ ser_uint32 d.nBits ++
    ser_uint32 d.nNonce, ?_, fun rest => ?_⟩
  · simp only [Serialize, hwVersion, hwHeight, hwStatus, hwTx, hwFile, hwDataPos, hwUndoPos,
      hwStake, Except.bind_ok_left]
    rfl
  · simp only [Unserialize, List.append_assoc, hrVersion, hrHeight, hrStatus, hrTx, hrFile,
      hrDataPos, hrUndoPos, hrStake, unser_int64_ser, unser_uint32_ser, unser_uint64_ser,
      unser_int32_ser, unser_uint256_ser, Except.bind_ok_left]
    by_cases hstake : HasStake d.nFlags
    · simp only [readBack, if_pos hstake]
      rfl
    · simp only [readBack, if_neg hstake]
      rfl

/-- A record the database gives back as it was: a non-null block hash (`InsertBlockIndex` gives
`nullptr` for the null one), a non-negative height and, where it is written, file number (the
values `VARINT_MODE(n, VarIntMode::NONNEGATIVE_SIGNED)` writes in full; `AddToBlockIndex` sets
heights from `0` up, and `FindBlockPos` numbers files from `0` up), and on a proof-of-work record
the null stake fields a default record is read with. -/
structure Restorable (Hash : List UInt8 → uint256) (d : CDiskBlockIndex) : Prop where
  hash_ne : d.GetBlockHash Hash ≠ 0
  nHeight_nonneg : 0 ≤ d.nHeight
  nFile_nonneg : HasFile d.nStatus → 0 ≤ d.nFile
  stake_null : ¬HasStake d.nFlags →
    d.prevoutStake.isNull = true ∧ d.nStakeTime = 0 ∧ d.hashProofOfStake = 0

/-- What a restorable record reads back into a default record: the record, with the file
positions it does not have at their defaults. -/
theorem Restorable.readBack_default {Hash : List UInt8 → uint256} {d : CDiskBlockIndex}
    (hd : d.Restorable Hash) :
    (d.readBack {}).toStoredBlockIndex = { d.toStoredBlockIndex with
      nFile := if HasFile d.nStatus then d.nFile else 0
      nDataPos := if HasData d.nStatus then d.nDataPos else 0
      nUndoPos := if HasUndo d.nStatus then d.nUndoPos else 0 } := by
  have hfile : (if HasFile d.nStatus then VarIntFormatter.readBackInt d.nFile else 0) =
      if HasFile d.nStatus then d.nFile else 0 := by
    split_ifs with hf
    · exact VarIntFormatter.readBackInt_of_nonneg (hd.nFile_nonneg hf)
    · rfl
  have hnull : ¬HasStake d.nFlags → ⟨0, COutPoint.NULL_INDEX⟩ = d.prevoutStake ∧
      0 = d.nStakeTime ∧ 0 = d.hashProofOfStake := by
    intro hs
    obtain ⟨hp, ht, hh⟩ := hd.stake_null hs
    exact ⟨(COutPoint.eq_null_of_isNull hp).symm, ht.symm, hh.symm⟩
  simp only [readBack, VarIntFormatter.readBackInt_of_nonneg hd.nHeight_nonneg, hfile,
    ite_eq_left_iff.mpr fun hs => (hnull hs).1, ite_eq_left_iff.mpr fun hs => (hnull hs).2.1,
    ite_eq_left_iff.mpr fun hs => (hnull hs).2.2]

/-- The header fields, and so the block hash, are read back as they were written. -/
theorem GetBlockHash_readBack (Hash : List UInt8 → uint256) (d obj : CDiskBlockIndex) :
    (d.readBack obj).GetBlockHash Hash = d.GetBlockHash Hash := rfl

end CDiskBlockIndex

/-! ## Loading the block index -/

/-- A `CBlockIndex` entry of `m_block_index`: the stored fields, and `pprev` as the hash of the
entry it points to (`none` for `nullptr`). -/
structure BlockIndexEntry extends StoredBlockIndex where
  pprev : Option uint256 := none
  deriving DecidableEq, Repr

/-- The entry the record written for `d` loads as: its fields read back into a default record,
and `pprev` on the entry of `hashPrev`. -/
def CDiskBlockIndex.loadedEntry (d : CDiskBlockIndex) : BlockIndexEntry :=
  { (d.readBack {}).toStoredBlockIndex with
    pprev := if d.hashPrev = 0 then none else some d.hashPrev }

/-- `BlockManager::m_block_index`: the entry of each block hash. -/
abbrev BlockMap := uint256 → Option BlockIndexEntry

namespace BlockManager

/-- `BlockManager::InsertBlockIndex(hash)`: `nullptr` for the null hash; else the entry of `hash`,
created with the defaults of `CBlockIndex()` when there is none. -/
def InsertBlockIndex (m : BlockMap) (hash : uint256) : BlockMap × Option uint256 :=
  if hash = 0 then (m, none)
  else
    match m hash with
    | some _ => (m, some hash)
    | none => (Function.update m hash (some {}), some hash)

theorem InsertBlockIndex_zero (m : BlockMap) : InsertBlockIndex m 0 = (m, none) := rfl

/-- A non-null hash gets an entry, the one it had or a default one, and the pointer to it. -/
theorem InsertBlockIndex_of_ne {hash : uint256} (h : hash ≠ 0) (m : BlockMap) :
    InsertBlockIndex m hash = (Function.update m hash (some ((m hash).getD {})), some hash) := by
  rw [InsertBlockIndex, if_neg h]
  split
  · next e he => rw [he, Option.getD_some, ← he, Function.update_eq_self]
  · next he => rw [he]; rfl

/-- An entry that is there is kept. -/
theorem InsertBlockIndex_fst_of_eq_some {m : BlockMap} {k : uint256} {e : BlockIndexEntry}
    (hk : m k = some e) (hash : uint256) : (InsertBlockIndex m hash).1 k = some e := by
  by_cases h : hash = 0
  · rw [h, InsertBlockIndex_zero]
    exact hk
  · rw [InsertBlockIndex_of_ne h]
    dsimp only
    by_cases hkh : k = hash
    · subst hkh
      rw [Function.update_self, hk, Option.getD_some]
    · rw [Function.update_of_ne hkh, hk]

theorem InsertBlockIndex_snd (m : BlockMap) (hash : uint256) :
    (InsertBlockIndex m hash).2 = if hash = 0 then none else some hash := by
  by_cases h : hash = 0
  · rw [h, InsertBlockIndex_zero, if_pos rfl]
  · rw [InsertBlockIndex_of_ne h, if_neg h]

theorem InsertBlockIndex_fst_self {hash : uint256} (h : hash ≠ 0) (m : BlockMap) :
    (InsertBlockIndex m hash).1 hash ≠ none := by
  rw [InsertBlockIndex_of_ne h]
  dsimp only
  rw [Function.update_self]
  exact Option.some_ne_none _

end BlockManager

namespace CBlockTreeDB

open BlockManager

/-- One record of `CBlockTreeDB::LoadBlockIndexGuts`: `false` when its value does not read
(`GetValue` into a default `CDiskBlockIndex`); else the entries of the record's hash and of
`hashPrev` are inserted, and the record's fields and `pprev` are copied into the first, through a
null pointer when the record's hash is null. -/
def LoadBlockIndexGuts.step (Hash : List UInt8 → uint256) (m : BlockMap) (value : List UInt8) :
    Except Abort (Bool × BlockMap) :=
  match CDiskBlockIndex.Unserialize false CLIENT_VERSION {} value with
  | .error _ => .ok (false, m)
  | .ok (diskindex, _) =>
    let (m, pindexNew) := InsertBlockIndex m (diskindex.GetBlockHash Hash)
    let (m, pprev) := InsertBlockIndex m diskindex.hashPrev
    match pindexNew with
    | none => .error .nullDeref
    | some hash =>
      .ok (true, Function.update m hash (some { diskindex.toStoredBlockIndex with pprev := pprev }))

/-- A record written with a non-null hash loads as its fields read back into a default record,
with `pprev` on the entry of `hashPrev`, under its hash, once the entries of its hash and of
`hashPrev` are inserted. -/
theorem LoadBlockIndexGuts.step_eq (Hash : List UInt8 → uint256) {d : CDiskBlockIndex}
    {value : List UInt8} (hw : d.Serialize false CLIENT_VERSION = .ok value)
    (hh : d.GetBlockHash Hash ≠ 0) (m : BlockMap) :
    step Hash m value = .ok (true,
      Function.update (InsertBlockIndex (InsertBlockIndex m (d.GetBlockHash Hash)).1 d.hashPrev).1
        (d.GetBlockHash Hash) (some d.loadedEntry)) := by
  obtain ⟨a, ha, hr⟩ := CDiskBlockIndex.readsBack_Serialize false CLIENT_VERSION {} d
  rw [hw, Except.ok.injEq] at ha
  subst ha
  have hread := hr []
  rw [List.append_nil] at hread
  rw [step, hread]
  dsimp only
  rw [CDiskBlockIndex.GetBlockHash_readBack, InsertBlockIndex_of_ne hh]
  dsimp only
  rw [CDiskBlockIndex.loadedEntry, ← InsertBlockIndex_snd]
  rfl

/-- `CBlockTreeDB::LoadBlockIndexGuts`, over the values of the block index records in the order
of their keys: `false` at the first that does not read. -/
def LoadBlockIndexGuts (Hash : List UInt8 → uint256) (m : BlockMap) :
    List (List UInt8) → Except Abort (Bool × BlockMap)
  | [] => .ok (true, m)
  | value :: values => do
    let (fOk, m) ← LoadBlockIndexGuts.step Hash m value
    if fOk then LoadBlockIndexGuts Hash m values else pure (false, m)

/-- The block index after a record written for `d` with a non-null hash is loaded: `d`'s entry
under its hash, the entry of `hashPrev` there, and every other entry kept. -/
theorem LoadBlockIndexGuts.step_spec (Hash : List UInt8 → uint256) {d : CDiskBlockIndex}
    {value : List UInt8} (hw : d.Serialize false CLIENT_VERSION = .ok value)
    (hh : d.GetBlockHash Hash ≠ 0) (m : BlockMap) :
    ∃ m', step Hash m value = .ok (true, m') ∧ m' (d.GetBlockHash Hash) = some d.loadedEntry ∧
      (d.hashPrev ≠ 0 → m' d.hashPrev ≠ none) ∧
      ∀ k e, k ≠ d.GetBlockHash Hash → m k = some e → m' k = some e := by
  refine ⟨_, step_eq Hash hw hh m, Function.update_self .., fun hne => ?_, fun k e hk hke => ?_⟩
  · by_cases heq : d.hashPrev = d.GetBlockHash Hash
    · rw [heq, Function.update_self]
      exact Option.some_ne_none _
    · rw [Function.update_of_ne heq]
      exact InsertBlockIndex_fst_self hne _
  · rw [Function.update_of_ne hk]
    exact InsertBlockIndex_fst_of_eq_some (InsertBlockIndex_fst_of_eq_some hke _) _

/-- Loading the records written for a list of records with distinct, non-null hashes: every
record's entry under its hash, the entry of every non-null `hashPrev` there, and every entry
under another hash kept. -/
theorem LoadBlockIndexGuts_run (Hash : List UInt8 → uint256) {ds : List CDiskBlockIndex}
    {values : List (List UInt8)}
    (hwrite : List.Forall₂ (fun d value => d.Serialize false CLIENT_VERSION = .ok value) ds values)
    (hkeys : (ds.map (CDiskBlockIndex.GetBlockHash Hash)).Nodup)
    (hhash : ∀ d ∈ ds, d.GetBlockHash Hash ≠ 0) (m : BlockMap) :
    ∃ m', LoadBlockIndexGuts Hash m values = .ok (true, m') ∧
      (∀ d ∈ ds, m' (d.GetBlockHash Hash) = some d.loadedEntry) ∧
      (∀ d ∈ ds, d.hashPrev ≠ 0 → m' d.hashPrev ≠ none) ∧
      ∀ k e, k ∉ ds.map (CDiskBlockIndex.GetBlockHash Hash) → m k = some e → m' k = some e := by
  induction hwrite generalizing m with
  | nil => exact ⟨m, rfl, by simp, by simp, fun _ _ _ hke => hke⟩
  | @cons d value ds values hw _ ih =>
    obtain ⟨hd, hkeys'⟩ := List.nodup_cons.mp hkeys
    obtain ⟨m₁, hstep, hentry, hprev₁, hframe₁⟩ :=
      LoadBlockIndexGuts.step_spec Hash hw (hhash d List.mem_cons_self) m
    obtain ⟨m', hrun, hentries, hprev, hframe⟩ :=
      ih hkeys' (fun d' hd' => hhash d' (List.mem_cons_of_mem _ hd')) m₁
    have hkept : ∀ k, m₁ k ≠ none → m' k ≠ none := by
      intro k hk
      by_cases hin : k ∈ ds.map (CDiskBlockIndex.GetBlockHash Hash)
      · obtain ⟨d', hd', rfl⟩ := List.mem_map.mp hin
        rw [hentries d' hd']
        exact Option.some_ne_none _
      · obtain ⟨e, he⟩ := Option.ne_none_iff_exists'.mp hk
        rw [hframe k e hin he]
        exact Option.some_ne_none _
    refine ⟨m', ?_, fun d' hd' => ?_, fun d' hd' hne => ?_, fun k e hk hke => ?_⟩
    · rw [LoadBlockIndexGuts, hstep]
      exact hrun
    · rcases List.mem_cons.mp hd' with rfl | hd'
      · exact hframe _ _ hd hentry
      · exact hentries d' hd'
    · rcases List.mem_cons.mp hd' with rfl | hd'
      · exact hkept _ (hprev₁ hne)
      · exact hprev d' hd' hne
    · rw [List.map_cons, List.mem_cons, not_or] at hk
      exact hframe k e hk.2 (hframe₁ k e hk.1 hke)

/-- **The block index database restores what it stores.** Every record reads back as one with the
same block hash. Loading the records written for restorable records with distinct hashes (the
database's keys) gives, under each record's hash, an entry with every field of the record, the
file positions it does not have at their defaults, and `pprev` on the entry of `hashPrev`, which
the load creates when it is not there. -/
theorem LoadBlockIndexGuts_restores (Hash : List UInt8 → uint256) :
    (∀ d : CDiskBlockIndex, ∃ value decoded, d.Serialize false CLIENT_VERSION = .ok value ∧
      CDiskBlockIndex.Unserialize false CLIENT_VERSION {} value = .ok (decoded, []) ∧
      decoded.GetBlockHash Hash = d.GetBlockHash Hash) ∧
    ∀ (ds : List CDiskBlockIndex) (values : List (List UInt8)),
      List.Forall₂ (fun d value => d.Serialize false CLIENT_VERSION = .ok value) ds values →
      (ds.map (CDiskBlockIndex.GetBlockHash Hash)).Nodup → (∀ d ∈ ds, d.Restorable Hash) →
      ∀ m : BlockMap, ∃ m', LoadBlockIndexGuts Hash m values = .ok (true, m') ∧
        ∀ d ∈ ds, ∃ e, m' (d.GetBlockHash Hash) = some e ∧
          e.toStoredBlockIndex = { d.toStoredBlockIndex with
            nFile := if CDiskBlockIndex.HasFile d.nStatus then d.nFile else 0
            nDataPos := if CDiskBlockIndex.HasData d.nStatus then d.nDataPos else 0
            nUndoPos := if CDiskBlockIndex.HasUndo d.nStatus then d.nUndoPos else 0 } ∧
          e.pprev = (if d.hashPrev = 0 then none else some d.hashPrev) ∧
          (d.hashPrev ≠ 0 → m' d.hashPrev ≠ none) := by
  refine ⟨fun d => ?_, fun ds values hwrite hkeys hds m => ?_⟩
  · obtain ⟨value, hw, hr⟩ := CDiskBlockIndex.readsBack_Serialize false CLIENT_VERSION {} d
    refine ⟨value, d.readBack {}, hw, ?_, CDiskBlockIndex.GetBlockHash_readBack Hash d {}⟩
    simpa using hr []
  · obtain ⟨m', hrun, hentries, hprev, -⟩ :=
      LoadBlockIndexGuts_run Hash hwrite hkeys (fun d hd => (hds d hd).hash_ne) m
    refine ⟨m', hrun, fun d hd => ⟨d.loadedEntry, hentries d hd, ?_, rfl, hprev d hd⟩⟩
    exact (hds d hd).readBack_default

/-- A proof-of-stake block at height 5 whose data is in file 2, loaded into an empty index. -/
theorem LoadBlockIndexGuts_restores_stake_block :
    ∃ value m', CDiskBlockIndex.Serialize false CLIENT_VERSION
        { nHeight := 5, nStatus := BLOCK_HAVE_DATA, nFile := 2, nDataPos := 100, nFlags := 1,
          nStakeTime := 7, hashPrev := 3 } = .ok value ∧
      LoadBlockIndexGuts (fun _ => 1) (fun _ => none) [value] = .ok (true, m') ∧
      ∃ e, m' 1 = some e ∧ e.nHeight = 5 ∧ e.nFile = 2 ∧ e.nDataPos = 100 ∧
        e.nStakeTime = 7 ∧ e.pprev = some 3 := by
  obtain ⟨value, hw, -⟩ := CDiskBlockIndex.readsBack_Serialize false CLIENT_VERSION {}
    { nHeight := 5, nStatus := BLOCK_HAVE_DATA, nFile := 2, nDataPos := 100, nFlags := 1,
      nStakeTime := 7, hashPrev := 3 }
  obtain ⟨m', hrun, hentries⟩ := (LoadBlockIndexGuts_restores (fun _ => 1)).2 _ [value]
    (.cons hw .nil) (by decide)
    (fun d hd => by
      rw [List.mem_singleton] at hd
      subst hd
      exact ⟨by decide, by decide, fun _ => by decide, fun h => absurd (by decide) h⟩)
    (fun _ => none)
  obtain ⟨⟨stored, pprev⟩, he, hfields, hpprev, -⟩ := hentries _ List.mem_cons_self
  dsimp only at hfields hpprev
  subst hfields hpprev
  exact ⟨value, m', hw, hrun, _, he, by decide, by decide, by decide, by decide, by decide⟩

end CBlockTreeDB

end NowpConsensus
