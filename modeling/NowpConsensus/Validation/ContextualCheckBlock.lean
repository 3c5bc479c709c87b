import NowpConsensus.Script.SigOps
import NowpConsensus.Consensus.Merkle
import NowpConsensus.Node.BlockAssembler
import NowpConsensus.Index.TxIndex

/-!
# The contextual checks of a block, and the witness commitment

`ContextualCheckBlock(block, state, pindexPrev)` of `validation.cpp`, the checks of a block that
need its predecessor: every transaction final at the block's height and at the lock-time
cutoff (the median time past once the fork's Bitcoin 0.16 BIPs are on, BIP113); the height
pushed first by the coinbase's script (BIP34); the witness commitment in the coinbase's last
tagged output, when the BIPs are on; no witness where nothing commits to one; and the block's
weight. With it, the miner's side of the commitment, `GenerateCoinbaseCommitment` and
`UpdateUncommittedBlockStructures`, and what they read: `GetWitnessCommitmentIndex`,
`BlockWitnessMerkleRoot`, `GetBlockWeight` (`consensus/validation.h`, `consensus/merkle.cpp`).

All hashes are double SHA-256: `CHash256`, `SerializeHash` and `SHA256D64` are one function
`Hash` of a byte string.

* `ContextualCheckBlock_assemble`: on a tip where the BIPs are on, the block `CreateNewBlock`
  assembles, once `GenerateCoinbaseCommitment` has added its commitment, passes every contextual
  check but the weight, given mempool transactions final at the tip's median time past;
* `ContextualCheckBlock_witnessCommitment`: on any block with a coinbase input and no witness or
  commitment yet, the commitment `GenerateCoinbaseCommitment` writes is the one the validation
  recomputes;
* `ContextualCheckBlock_coinbase_height`: the height of a block that passes the checks can be read
  back from its coinbase's script, as the interpreter reads the number pushed first;
* `ContextualCheckBlock_ok_of_CheckBlock`: on a block that passes `CheckBlock`, the unchecked
  reads of `block.vtx[0]->vin[0]` and of the commitment output are all in range;
* `ContextualCheckBlock_witness`: a block that passes the checks and carries a witness has the
  BIPs on and a commitment;
* `GetBlockWeight_gt_of_HasWitness`: the fork's `GetSerializeSize` takes its second argument as
  the stream type, so both sizes `GetBlockWeight` adds count the witnesses, and a block with a
  witness weighs more than the formula its comment states.
-/

namespace NowpConsensus

open Bytes

/-! ## Weight -/

/-- `PROTOCOL_VERSION`. -/
def PROTOCOL_VERSION : Nat := 70041

/-- `SERIALIZE_TRANSACTION_NO_WITNESS`: the version bit that asks for transactions without their
witnesses. -/
def SERIALIZE_TRANSACTION_NO_WITNESS : Nat := 0x40000000

/-- `SER_GETHASH`. -/
def SER_GETHASH : Nat := 1 <<< 2

/-- `SER_POSMARKER`: the stream type in which a header carries its flags. -/
def SER_POSMARKER : Nat := 1 <<< 18

/-- `GetSerializeSize(block, nType, nVersion)`: the size of the block in a stream of type `nType`
and version `nVersion`. This fork's signature takes the stream type second and lets the version
default to 0. -/
def CBlock.GetSerializeSize (block : CBlock) (nType nVersion : Nat) : Nat :=
  (SerializeBlock block (nVersion &&& SERIALIZE_TRANSACTION_NO_WITNESS == 0)
    (nType &&& SER_GETHASH == 0 && nType &&& SER_POSMARKER != 0)).length

/-- `GetBlockWeight(block)`: both calls of `GetSerializeSize` pass one argument after the block,
which lands in the stream type, with the version left at 0. -/
def GetBlockWeight (block : CBlock) : Nat :=
  block.GetSerializeSize (PROTOCOL_VERSION ||| SERIALIZE_TRANSACTION_NO_WITNESS) 0 *
      (WITNESS_SCALE_FACTOR - 1) +
    block.GetSerializeSize PROTOCOL_VERSION 0

/-- Both sizes `GetBlockWeight` adds are of the serialisation with witnesses: the weight is four
times the full size. -/
theorem GetBlockWeight_eq (block : CBlock) :
    GetBlockWeight block = WITNESS_SCALE_FACTOR * (SerializeBlock block true false).length := by
  have hversion : (0 &&& SERIALIZE_TRANSACTION_NO_WITNESS == 0) = true := by decide
  have hstripped : ((PROTOCOL_VERSION ||| SERIALIZE_TRANSACTION_NO_WITNESS) &&& SER_GETHASH == 0 &&
      (PROTOCOL_VERSION ||| SERIALIZE_TRANSACTION_NO_WITNESS) &&& SER_POSMARKER != 0) = false := by
    decide
  have htotal : (PROTOCOL_VERSION &&& SER_GETHASH == 0 &&
      PROTOCOL_VERSION &&& SER_POSMARKER != 0) = false := by
    decide
  simp only [GetBlockWeight, CBlock.GetSerializeSize, hversion, hstripped, htotal,
    WITNESS_SCALE_FACTOR]
  omega

/-- A transaction's serialisation without witnesses is no longer than the one with them. -/
theorem length_SerializeTransaction_le (tx : CTransaction) :
    (SerializeTransaction tx false).length ≤ (SerializeTransaction tx true).length := by
  simp only [SerializeTransaction, Bool.true_and, Bool.false_and, Bool.false_eq_true, if_false]
  split <;> simp <;> omega

/-- On a transaction with a witness, the serialisation with witnesses is longer: it adds the
marker, the flags and the stacks. -/
theorem length_SerializeTransaction_lt {tx : CTransaction} (h : tx.HasWitness = true) :
    (SerializeTransaction tx false).length < (SerializeTransaction tx true).length := by
  simp only [SerializeTransaction, h, Bool.true_and, Bool.false_and, Bool.false_eq_true, if_false,
    if_true]
  simp
  omega

/-- A block with a transaction that has a witness is longer with witnesses than without. -/
theorem length_SerializeBlock_lt {block : CBlock} (fPosMarker : Bool)
    (h : ∃ tx ∈ block.vtx, tx.HasWitness = true) :
    (SerializeBlock block false fPosMarker).length <
      (SerializeBlock block true fPosMarker).length := by
  have hsum : (block.vtx.map fun tx => (SerializeTransaction tx false).length).sum <
      (block.vtx.map fun tx => (SerializeTransaction tx true).length).sum := by
    obtain ⟨tx, htx, hw⟩ := h
    exact List.sum_lt_sum _ _ (fun tx _ => length_SerializeTransaction_le tx)
      ⟨tx, htx, length_SerializeTransaction_lt hw⟩
  simp only [SerializeBlock, vector, List.length_append, List.length_flatMap]
  omega

/-- **The weight counts the witnesses four times.** The comment above `GetBlockWeight` states
BIP141's weight, three times the size without witnesses plus the size with them; in this fork a
block with a witness weighs more than that. -/
theorem GetBlockWeight_gt_of_HasWitness {block : CBlock}
    (h : ∃ tx ∈ block.vtx, tx.HasWitness = true) :
    (SerializeBlock block false false).length * (WITNESS_SCALE_FACTOR - 1) +
      (SerializeBlock block true false).length < GetBlockWeight block := by
  have hlt := length_SerializeBlock_lt false h
  rw [GetBlockWeight_eq]
  simp only [WITNESS_SCALE_FACTOR]
  omega

/-- A transaction with one input whose witness is a single byte. -/
def witnessTx : CTransaction := ⟨[⟨⟨0, 0⟩, [], 0, [[1]]⟩], [], 2, 0, 0⟩

/-- A block made of `witnessTx` weighs more than BIP141 says. -/
theorem GetBlockWeight_gt_of_HasWitness_witnessTx :
    let block : CBlock := ⟨⟨4, 0, 0, 0, 0, 0, 0⟩, [witnessTx], []⟩
    (∃ tx ∈ block.vtx, tx.HasWitness = true) ∧
      (SerializeBlock block false false).length * (WITNESS_SCALE_FACTOR - 1) +
        (SerializeBlock block true false).length < GetBlockWeight block :=
  ⟨⟨witnessTx, List.mem_singleton_self _, rfl⟩,
    GetBlockWeight_gt_of_HasWitness ⟨witnessTx, List.mem_singleton_self _, rfl⟩⟩

/-! ## The height in the coinbase -/

/-- `OP_1NEGATE`. -/
def OP_1NEGATE : UInt8 := 0x4f

/-- The number a byte vector stands for in the script number format: the magnitude least
significant byte first, with the sign in the top bit of the last byte. `CScriptNum::set_vch`
computes it on vectors of up to eight bytes. -/
def CScriptNum.decode (vch : List UInt8) : Int :=
  match vch.getLast? with
  | none => 0
  | some last =>
    if last &&& 0x80 != 0 then -((readLE vch : Int) - 128 * 256 ^ (vch.length - 1))
    else readLE vch

/-- The number the first operation of a script pushes, read as the interpreter reads it:
`OP_1NEGATE` and `OP_1` to `OP_16` as the numbers they stand for, any other push as the script
number its operand encodes. -/
def CScript.firstNum (s : CScript) : Int :=
  let opcode := (GetScriptOp s).2.1
  if opcode = OP_1NEGATE ∨ (OP_1 ≤ opcode ∧ opcode ≤ OP_16) then
    (opcode.toNat : Int) - (OP_1.toNat - 1)
  else CScriptNum.decode (GetScriptOp.vchRet s)

/-- Below `256 ^ k`, the loop of `CScriptNum::serialize` writes the minimal bytes. -/
theorem CScriptNum.bytes_eq_minBytes {k a : Nat} (h : a < 256 ^ k) :
    CScriptNum.bytes k a = minBytes a := by
  induction k generalizing a with
  | zero =>
    obtain rfl : a = 0 := by simpa using h
    rfl
  | succ k ih =>
    unfold CScriptNum.bytes
    split_ifs with ha
    · rw [ha]
      exact (minBytes_eq_nil_iff.2 rfl).symm
    · have hdiv : a / 256 < 256 ^ k := by
        rw [Nat.div_lt_iff_lt_mul (by decide), ← pow_succ]
        exact h
      rw [minBytes_of_ne_zero ha, ih hdiv]
      congr 1
      exact UInt8.toNat_inj.mp (by simp [UInt8.toNat_ofNat'])

/-- The value of a vector by its last byte. -/
theorem CScriptNum.decode_concat (l : List UInt8) (b : UInt8) :
    CScriptNum.decode (l ++ [b]) =
      if b &&& 0x80 != 0 then -((readLE l : Int) + 256 ^ l.length * ((b.toNat : Int) - 128))
      else (readLE l : Int) + 256 ^ l.length * b.toNat := by
  simp only [CScriptNum.decode, List.getLast?_concat, readLE_concat, List.length_append,
    List.length_singleton, Nat.add_sub_cancel]
  split <;> push_cast <;> ring

/-- **`CScriptNum::serialize` reads back**: on every number of at most 64 bits of magnitude,
the script number the bytes encode is the number written. -/
theorem CScriptNum.decode_serialize {n : Int} (hn : n.natAbs < 2 ^ 64) :
    CScriptNum.decode (CScriptNum.serialize n) = n := by
  by_cases h0 : n = 0
  · subst h0
    rfl
  have hm : n.natAbs ≠ 0 := Int.natAbs_ne_zero.2 h0
  have hbytes : CScriptNum.bytes 8 n.natAbs = minBytes n.natAbs :=
    CScriptNum.bytes_eq_minBytes (by simpa using hn)
  obtain ⟨init, last, hsplit⟩ : ∃ init last, minBytes n.natAbs = init ++ [last] := by
    rcases List.eq_nil_or_concat (minBytes n.natAbs) with h | ⟨init, last, h⟩
    · exact absurd (minBytes_eq_nil_iff.1 h) hm
    · exact ⟨init, last, by rw [h, List.concat_eq_append]⟩
  have hread : (readLE init : Int) + 256 ^ init.length * last.toNat = n.natAbs := by
    rw [← readLE_minBytes n.natAbs, hsplit, readLE_concat]
    push_cast
    ring
  unfold CScriptNum.serialize
  simp only [if_neg h0, hbytes, hsplit, List.getLast?_concat]
  by_cases htop : last &&& 0x80 = 0
  · have hlt : last.toNat < 128 := (and_0x80_eq_zero_iff last).1 htop
    simp only [htop, bne_self_eq_false, Bool.false_eq_true, if_false]
    by_cases hneg : n < 0
    · have hor : ((last ||| 0x80) &&& 0x80 != 0) = true := by
        rw [bne_iff_ne, Ne, and_0x80_eq_zero_iff, toNat_or_0x80 hlt]
        omega
      rw [if_pos (decide_eq_true hneg), List.dropLast_concat, CScriptNum.decode_concat, if_pos hor,
        toNat_or_0x80 hlt]
      push_cast
      linarith [Int.ofNat_natAbs_of_nonpos (le_of_lt hneg)]
    · rw [if_neg (by simpa using hneg), CScriptNum.decode_concat,
        if_neg (by simpa using htop)]
      linarith [Int.natAbs_of_nonneg (not_lt.1 hneg)]
  · have htop' : (last &&& 0x80 != 0) = true := by simpa using htop
    rw [if_pos htop']
    by_cases hneg : n < 0
    · rw [if_pos (decide_eq_true hneg), CScriptNum.decode_concat, if_pos (by decide), readLE_concat]
      push_cast
      linarith [Int.ofNat_natAbs_of_nonpos (le_of_lt hneg)]
    · rw [if_neg (by simpa using hneg), CScriptNum.decode_concat, if_neg (by decide), readLE_concat]
      push_cast
      linarith [Int.natAbs_of_nonneg (not_lt.1 hneg)]

/-- **The height pushed reads back**: a script that starts with `CScript() << n`, for `n` of at
most 64 bits of magnitude, pushes `n` first, whatever follows. -/
theorem CScript.firstNum_pushInt64 {n : Int} (hn : n.natAbs < 2 ^ 64) (rest : CScript) :
    (CScript.pushInt64 n ++ rest).firstNum = n := by
  unfold CScript.pushInt64
  split_ifs with hsmall hzero
  · generalize hx : UInt8.ofInt (n + ((OP_1.toNat : Int) - 1)) = x
    have hv : x.toNat = (n + 80).toNat := by
      rw [← hx]
      simp [UInt8.ofInt, UInt8.toNat_ofNat', OP_1]
      omega
    have hgt : OP_PUSHDATA4 < x := UInt8.lt_iff_toNat_lt.2 (by simp [OP_PUSHDATA4]; omega)
    have hop : x = OP_1NEGATE ∨ (OP_1 ≤ x ∧ x ≤ OP_16) := by
      rcases hsmall with rfl | ⟨h1, h16⟩
      · exact .inl (UInt8.toNat_inj.mp (by simp [hv, OP_1NEGATE]))
      · exact .inr ⟨UInt8.le_iff_toNat_le.2 (by simp [OP_1]; omega),
          UInt8.le_iff_toNat_le.2 (by simp [OP_16]; omega)⟩
    have h81 : OP_1.toNat = 81 := rfl
    simp only [List.singleton_append, CScript.firstNum, GetScriptOp_of_gt hgt]
    rw [if_pos hop, hv, h81]
    omega
  · subst hzero
    have h : GetScriptOp (OP_0 :: rest) = (true, OP_0, rest) ∧
        GetScriptOp.vchRet (OP_0 :: rest) = [] :=
      GetScriptOp_of_operandSize (b := []) (by decide)
        (GetScriptOp.operandSize_of_lt (by decide) rest)
    simp only [List.singleton_append, CScript.firstNum, h.1, h.2]
    rfl
  · obtain ⟨opcode, hop, hget, hvch⟩ := GetScriptOp_pushData
      (lt_of_le_of_lt (CScriptNum.length_serialize n) (by decide)) rest
    have hnot : ¬(opcode = OP_1NEGATE ∨ (OP_1 ≤ opcode ∧ opcode ≤ OP_16)) := by
      have h78 := UInt8.le_iff_toNat_le.1 hop
      rintro (rfl | ⟨h1, -⟩)
      · exact absurd h78 (by decide)
      · exact absurd (UInt8.le_iff_toNat_le.1 h1) (by simp [OP_1, OP_PUSHDATA4] at h78 ⊢; omega)
    rw [CScript.firstNum, hget, hvch]
    simp only [if_neg hnot]
    exact CScriptNum.decode_serialize hn

/-! ## The witness commitment -/

/-- `MINIMUM_WITNESS_COMMITMENT`: the size of a commitment's script. -/
def MINIMUM_WITNESS_COMMITMENT : Nat := 38

/-- The first six bytes of a commitment's script: `OP_RETURN`, a push of 36 bytes, and the tag
`0xaa21a9ed`. -/
def witnessCommitmentHeader : List UInt8 := [OP_RETURN, 0x24, 0xaa, 0x21, 0xa9, 0xed]

/-- The test `GetWitnessCommitmentIndex` makes of an output: a script of at least
`MINIMUM_WITNESS_COMMITMENT` bytes that starts with the header. -/
def CTxOut.isWitnessCommitment (out : CTxOut) : Bool :=
  decide (MINIMUM_WITNESS_COMMITMENT ≤ out.scriptPubKey.length) &&
    witnessCommitmentHeader.isPrefixOf out.scriptPubKey

/-- The loop of `GetWitnessCommitmentIndex` over the coinbase's outputs from position `o`, with
the last commitment found so far. -/
def GetWitnessCommitmentIndex.loop (o : Nat) (commitpos : Option Nat) : List CTxOut → Option Nat
  | [] => commitpos
  | vout :: rest =>
    GetWitnessCommitmentIndex.loop (o + 1) (if vout.isWitnessCommitment then some o else commitpos)
      rest

/-- `GetWitnessCommitmentIndex(block)`: the position of the coinbase's last commitment output,
`none` for `NO_WITNESS_COMMITMENT`. -/
def GetWitnessCommitmentIndex (block : CBlock) : Option Nat :=
  match block.vtx with
  | [] => none
  | coinbase :: _ => GetWitnessCommitmentIndex.loop 0 none coinbase.vout

/-- The loop returns the commitment it started with, or the position of one it passed. -/
theorem GetWitnessCommitmentIndex.loop_lt {o : Nat} {commitpos : Option Nat} {l : List CTxOut}
    {i : Nat} (h : GetWitnessCommitmentIndex.loop o commitpos l = some i) :
    commitpos = some i ∨ (o ≤ i ∧ i < o + l.length) := by
  induction l generalizing o commitpos with
  | nil => exact .inl h
  | cons vout rest ih =>
    rcases ih h with hc | ⟨hle, hlt⟩
    · split_ifs at hc
      · cases hc
        exact .inr ⟨Nat.le_refl _, by simp⟩
      · exact .inl hc
    · refine .inr ⟨by omega, ?_⟩
      simp only [List.length_cons]
      omega

/-- A commitment appended last is the one the loop returns. -/
theorem GetWitnessCommitmentIndex.loop_concat {o : Nat} {commitpos : Option Nat} {l : List CTxOut}
    {out : CTxOut} (h : out.isWitnessCommitment = true) :
    GetWitnessCommitmentIndex.loop o commitpos (l ++ [out]) = some (o + l.length) := by
  induction l generalizing o commitpos with
  | nil => simp [GetWitnessCommitmentIndex.loop, h]
  | cons vout rest ih =>
    rw [List.cons_append, GetWitnessCommitmentIndex.loop, ih, List.length_cons]
    congr 1
    omega

/-- The position `GetWitnessCommitmentIndex` returns is one of the coinbase's outputs. -/
theorem GetWitnessCommitmentIndex_lt {block : CBlock} {commitpos : Nat}
    (h : GetWitnessCommitmentIndex block = some commitpos) :
    ∃ coinbase rest, block.vtx = coinbase :: rest ∧ commitpos < coinbase.vout.length := by
  unfold GetWitnessCommitmentIndex at h
  split at h
  · cases h
  · rename_i coinbase rest hvtx
    rcases GetWitnessCommitmentIndex.loop_lt h with h | ⟨-, hlt⟩
    · cases h
    · exact ⟨coinbase, rest, hvtx, by simpa using hlt⟩

/-- `CTransaction::GetWitnessHash`: the hash of the serialisation with witnesses, or the
transaction's hash where it has none. -/
def CTransaction.GetWitnessHash (Hash : List UInt8 → uint256) (tx : CTransaction) : uint256 :=
  if !tx.HasWitness then tx.GetHash Hash else Hash (SerializeTransaction tx true)

/-- `SHA256D64`: the double SHA-256 of two hashes side by side, the pair hash of Merkle trees. -/
def SHA256D64 (Hash : List UInt8 → uint256) (a b : uint256) : uint256 :=
  Hash (ser_uint256 a ++ ser_uint256 b)

/-- `BlockWitnessMerkleRoot(block, &mutated)`: the tree over the witness hashes, the coinbase's
being 0. -/
def BlockWitnessMerkleRoot (Hash : uint256 → uint256 → uint256)
    (GetWitnessHash : CTransaction → uint256) (block : CBlock) : Except Abort (uint256 × Bool) :=
  match block.vtx with
  -- `leaves[0].SetNull()` on an empty vector
  | [] => .error .outOfRange
  | _ :: rest => .ok (ComputeMerkleRoot Hash (0 :: rest.map GetWitnessHash))

/-- The witness reserved value `UpdateUncommittedBlockStructures` writes: 32 zero bytes. -/
def UpdateUncommittedBlockStructures.nonce : List UInt8 := List.replicate 32 0

/-- `UpdateUncommittedBlockStructures(block, pindexPrev, consensusParams)`: a block with a
commitment, once the BIPs are on, gets the reserved value as its coinbase's witness where the
coinbase has none. -/
def UpdateUncommittedBlockStructures (cp : CChainParams) (block : CBlock) (pindexPrev : BlockPtr) :
    Except Abort CBlock :=
  match GetWitnessCommitmentIndex block with
  | none => .ok block
  | some _ =>
    match pindexPrev with
    | [] => .error .nullDeref
    | prev :: _ =>
      if !IsBTC16BIPsEnabled cp prev.nTime then .ok block
      else match block.vtx with
        | [] => .error .outOfRange
        | coinbase :: rest =>
          if coinbase.HasWitness then .ok block
          else match coinbase.vin with
            | [] => .error .outOfRange
            -- `stack.resize(1); stack[0] = nonce` on an empty stack
            | txin :: vin =>
              .ok { block with
                vtx := { coinbase with
                  vin := { txin with scriptWitness := [UpdateUncommittedBlockStructures.nonce] } ::
                    vin } :: rest }

/-- `ret`: the 32 zero bytes hashed after the witness root. -/
def GenerateCoinbaseCommitment.ret : List UInt8 := List.replicate 32 0

/-- The output `GenerateCoinbaseCommitment` appends for the witness root `witnessroot`: value 0,
and the header followed by the hash of the root and `ret`. -/
def GenerateCoinbaseCommitment.out (Hash : List UInt8 → uint256) (witnessroot : uint256) :
    CTxOut :=
  ⟨0, witnessCommitmentHeader ++
    ser_uint256 (Hash (ser_uint256 witnessroot ++ GenerateCoinbaseCommitment.ret))⟩

/-- `GenerateCoinbaseCommitment(block, pindexPrev, consensusParams)`: the commitment's script,
empty where the block has one already, and the block with the commitment appended to the
coinbase's outputs and the reserved value in its witness. -/
def GenerateCoinbaseCommitment (cp : CChainParams) (Hash : List UInt8 → uint256) (block : CBlock)
    (pindexPrev : BlockPtr) : Except Abort (List UInt8 × CBlock) :=
  (match GetWitnessCommitmentIndex block with
  | some _ => .ok ([], block)
  | none =>
    BlockWitnessMerkleRoot (SHA256D64 Hash) (CTransaction.GetWitnessHash Hash) block >>=
      fun (witnessroot, _) =>
    let out := GenerateCoinbaseCommitment.out Hash witnessroot
    Abort.vectorGet block.vtx 0 >>= fun coinbase =>
    .ok (out.scriptPubKey,
      { block with vtx := block.vtx.set 0 { coinbase with vout := coinbase.vout ++ [out] } }))
  >>= fun (commitment, block) =>
  UpdateUncommittedBlockStructures cp block pindexPrev >>= fun block => .ok (commitment, block)

/-- The commitment output is one `GetWitnessCommitmentIndex` finds. -/
theorem GenerateCoinbaseCommitment.isWitnessCommitment_out (Hash : List UInt8 → uint256)
    (witnessroot : uint256) :
    (GenerateCoinbaseCommitment.out Hash witnessroot).isWitnessCommitment = true := by
  simp only [CTxOut.isWitnessCommitment, GenerateCoinbaseCommitment.out, Bool.and_eq_true,
    List.isPrefixOf_iff_prefix]
  refine ⟨?_, List.prefix_append _ _⟩
  simp [ser_uint256, witnessCommitmentHeader, MINIMUM_WITNESS_COMMITMENT]

section Commitment

variable {cp : CChainParams} {Hash : List UInt8 → uint256} {block : CBlock} {prev : CBlockIndex}
  {pprev : BlockPtr} {coinbase : CTransaction} {rest : List CTransaction} {txin : CTxIn}
  {vin : List CTxIn} {witnessroot : uint256} {mutated : Bool}

/-- The witness tree reads the transactions after the coinbase only. -/
theorem BlockWitnessMerkleRoot_of_cons (H : uint256 → uint256 → uint256)
    (GetWitnessHash : CTransaction → uint256) (hvtx : block.vtx = coinbase :: rest) :
    BlockWitnessMerkleRoot H GetWitnessHash block =
      .ok (ComputeMerkleRoot H (0 :: rest.map GetWitnessHash)) := by
  simp only [BlockWitnessMerkleRoot, hvtx]

/-- On a block with a commitment, once the BIPs are on, `UpdateUncommittedBlockStructures` gives a
coinbase without witness the reserved value. -/
theorem UpdateUncommittedBlockStructures_of_some {commitpos : Nat}
    (hpos : GetWitnessCommitmentIndex block = some commitpos) (hvtx : block.vtx = coinbase :: rest)
    (hvin : coinbase.vin = txin :: vin) (hwit : coinbase.HasWitness = false)
    (hbips : IsBTC16BIPsEnabled cp prev.nTime = true) :
    UpdateUncommittedBlockStructures cp block (prev :: pprev) =
      .ok { block with
        vtx := { coinbase with
          vin := { txin with scriptWitness := [UpdateUncommittedBlockStructures.nonce] } :: vin } ::
            rest } := by
  simp only [UpdateUncommittedBlockStructures, hpos, hbips, Bool.not_true, Bool.false_eq_true,
    if_false, hvtx, hwit, hvin]

/-- **What `GenerateCoinbaseCommitment` does to a block without a commitment**: once the BIPs
are on, on a coinbase with an input and no witness, it appends the commitment to the witness
root and gives the first input the reserved value as its witness. -/
theorem GenerateCoinbaseCommitment_of_none (hvtx : block.vtx = coinbase :: rest)
    (hvin : coinbase.vin = txin :: vin) (hwit : coinbase.HasWitness = false)
    (hnone : GetWitnessCommitmentIndex block = none)
    (hbips : IsBTC16BIPsEnabled cp prev.nTime = true)
    (hroot : ComputeMerkleRoot (SHA256D64 Hash) (0 :: rest.map (CTransaction.GetWitnessHash Hash)) =
      (witnessroot, mutated)) :
    GenerateCoinbaseCommitment cp Hash block (prev :: pprev) =
      .ok ((GenerateCoinbaseCommitment.out Hash witnessroot).scriptPubKey,
        { block with
          vtx := { coinbase with
            vin := { txin with scriptWitness := [UpdateUncommittedBlockStructures.nonce] } :: vin
            vout := coinbase.vout ++ [GenerateCoinbaseCommitment.out Hash witnessroot] } ::
              rest }) := by
  let appended : CBlock := { block with
    vtx := { coinbase with
      vout := coinbase.vout ++ [GenerateCoinbaseCommitment.out Hash witnessroot] } :: rest }
  have hpos : GetWitnessCommitmentIndex appended = some coinbase.vout.length := by
    simp only [GetWitnessCommitmentIndex, appended,
      GetWitnessCommitmentIndex.loop_concat (GenerateCoinbaseCommitment.isWitnessCommitment_out _ _),
      Nat.zero_add]
  have hwit' : ({ coinbase with vout := coinbase.vout ++
      [GenerateCoinbaseCommitment.out Hash witnessroot] } : CTransaction).HasWitness = false := hwit
  have hupdate : UpdateUncommittedBlockStructures cp appended (prev :: pprev) = _ :=
    UpdateUncommittedBlockStructures_of_some hpos rfl hvin hwit' hbips
  simp only [GenerateCoinbaseCommitment, hnone, BlockWitnessMerkleRoot_of_cons _ _ hvtx, hroot,
    Except.bind_ok_left, hvtx, Abort.vectorGet, List.getElem?_cons_zero, List.set_cons_zero]
  rw [show ({ block with vtx := { coinbase with vout := coinbase.vout ++
      [GenerateCoinbaseCommitment.out Hash witnessroot] } :: rest } : CBlock) = appended from rfl,
    hupdate]
  rfl

end Commitment

/-! ## `ContextualCheckBlock` -/

namespace ContextualCheckBlock

/-- `nHeight`: one above the predecessor, 0 without one. -/
def height : BlockPtr → Int
  | [] => 0
  | prev :: _ => prev.nHeight + 1

/-- `pindexPrev && IsBTC16BIPsEnabled(pindexPrev->nTime)`. -/
def bipsEnabled (cp : CChainParams) : BlockPtr → Bool
  | [] => false
  | prev :: _ => IsBTC16BIPsEnabled cp prev.nTime

/-- `nLockTimeCutoff`: the median time past once the BIPs are on (BIP113), the block's time
before. -/
def lockTimeCutoff (cp : CChainParams) (block : CBlock) (pindexPrev : BlockPtr) : Int :=
  if bipsEnabled cp pindexPrev then GetMedianTimePast pindexPrev else block.header.getBlockTime

/-- `block.vtx[0]->vin[0]`. -/
def coinbaseIn (block : CBlock) : Except Abort CTxIn :=
  Abort.vectorGet block.vtx 0 >>= fun coinbase => Abort.vectorGet coinbase.vin 0

/-- The rule that the coinbase starts with the serialized block height (BIP34), for blocks of
version 2 on with a predecessor: `CScript() << nHeight` a prefix of the coinbase's script. -/
def coinbaseHeight (block : CBlock) (pindexPrev : BlockPtr) : Except Abort Validity :=
  if !pindexPrev.isEmpty && decide (2 ≤ block.header.nVersion) then
    coinbaseIn block >>= fun txin =>
    .ok (if (CScript.pushInt64 (height pindexPrev)).isPrefixOf txin.scriptSig then .valid
      else .invalid "bad-cb-height")
  else .ok .valid

/-- The validation of the witness commitment, once the BIPs are on: the verdict, and
`fHaveWitness`. The malleation flag of the witness tree is ignored, as the source does. -/
def witnessCommitment (Hash : List UInt8 → uint256) (block : CBlock) :
    Except Abort (Validity × Bool) :=
  match GetWitnessCommitmentIndex block with
  | none => .ok (.valid, false)
  | some commitpos =>
    BlockWitnessMerkleRoot (SHA256D64 Hash) (CTransaction.GetWitnessHash Hash) block >>=
      fun (hashWitness, _) =>
    coinbaseIn block >>= fun txin =>
    match txin.scriptWitness with
    | [nonce] =>
      if nonce.length != 32 then .ok (.invalid "bad-witness-nonce-size", false)
      else
        Abort.vectorGet block.vtx 0 >>= fun coinbase =>
        Abort.vectorGet coinbase.vout commitpos >>= fun out =>
        if ser_uint256 (Hash (ser_uint256 hashWitness ++ nonce)) != (out.scriptPubKey.drop 6).take 32
        then .ok (.invalid "bad-witness-merkle-match", false)
        else .ok (.valid, true)
    | _ => .ok (.invalid "bad-witness-nonce-size", false)

/-- The last two rules: no witness data where nothing commits to it, and the weight limit. -/
def witnessAndWeight (block : CBlock) (fHaveWitness : Bool) : Validity :=
  if !fHaveWitness && block.vtx.any CTransaction.HasWitness then .invalid "unexpected-witness"
  else if GetBlockWeight block > MAX_BLOCK_WEIGHT then .invalid "bad-blk-weight"
  else .valid

end ContextualCheckBlock

open ContextualCheckBlock in
/-- `ContextualCheckBlock(block, state, pindexPrev)`. -/
def ContextualCheckBlock (cp : CChainParams) (Hash : List UInt8 → uint256) (block : CBlock)
    (pindexPrev : BlockPtr) : Except Abort Validity :=
  if !block.vtx.all (IsFinalTx · (height pindexPrev) (lockTimeCutoff cp block pindexPrev)) then
    .ok (.invalid "bad-txns-nonfinal")
  else
    coinbaseHeight block pindexPrev >>= fun
    | .invalid reason => .ok (.invalid reason)
    | .valid =>
      (if bipsEnabled cp pindexPrev then witnessCommitment Hash block else .ok (.valid, false)) >>=
        fun
        | (.invalid reason, _) => .ok (.invalid reason)
        | (.valid, fHaveWitness) => .ok (witnessAndWeight block fHaveWitness)

namespace ContextualCheckBlock

variable {Hash : List UInt8 → uint256} {block : CBlock} {pindexPrev : BlockPtr}
  {coinbase : CTransaction} {rest : List CTransaction} {txin : CTxIn} {vin : List CTxIn}

/-- Once the BIPs are on, the lock-time cutoff is the median time past, whatever the block. -/
theorem lockTimeCutoff_of_bipsEnabled {cp : CChainParams} {prev : CBlockIndex} {pprev : BlockPtr}
    (h : IsBTC16BIPsEnabled cp prev.nTime = true) :
    lockTimeCutoff cp block (prev :: pprev) = GetMedianTimePast (prev :: pprev) := by
  rw [lockTimeCutoff, bipsEnabled, if_pos h]

theorem coinbaseIn_of_cons (hvtx : block.vtx = coinbase :: rest)
    (hvin : coinbase.vin = txin :: vin) : coinbaseIn block = .ok txin := by
  simp [coinbaseIn, hvtx, hvin, Abort.vectorGet]

theorem coinbaseIn_eq_ok (h : coinbaseIn block = .ok txin) :
    ∃ coinbase, block.vtx.head? = some coinbase ∧ coinbase.vin.head? = some txin := by
  obtain ⟨coinbase, hcb, hin⟩ := Except.bind_eq_ok.1 h
  rw [Abort.vectorGet_eq_ok, ← List.head?_eq_getElem?] at hcb hin
  exact ⟨coinbase, hcb, hin⟩

/-- The height rule, where it applies and holds: the coinbase's script starts with the push of
the height. -/
theorem coinbaseHeight_eq_valid {prev : CBlockIndex} {pprev : BlockPtr}
    (h : coinbaseHeight block (prev :: pprev) = .ok .valid) (hversion : 2 ≤ block.header.nVersion) :
    ∃ txin, coinbaseIn block = .ok txin ∧ CScript.pushInt64 (prev.nHeight + 1) <+: txin.scriptSig := by
  rw [coinbaseHeight, if_pos (by simp [hversion])] at h
  obtain ⟨txin, hin, hprefix⟩ := Except.bind_eq_ok.1 h
  refine ⟨txin, hin, List.isPrefixOf_iff_prefix.1 ?_⟩
  by_contra hnot
  simp [height, hnot] at hprefix

/-- The height rule reads nothing out of range on a coinbase with an input. -/
theorem coinbaseHeight_ok (hvtx : block.vtx = coinbase :: rest) (hvin : coinbase.vin = txin :: vin) :
    ∃ v, coinbaseHeight block pindexPrev = .ok v := by
  unfold coinbaseHeight
  split_ifs
  · rw [coinbaseIn_of_cons hvtx hvin]
    exact ⟨_, rfl⟩
  · exact ⟨_, rfl⟩

/-- The validation of the commitment reads nothing out of range on a coinbase with an input: the
position `GetWitnessCommitmentIndex` returns is one of its outputs. -/
theorem witnessCommitment_ok (hvtx : block.vtx = coinbase :: rest)
    (hvin : coinbase.vin = txin :: vin) : ∃ r, witnessCommitment Hash block = .ok r := by
  unfold witnessCommitment
  cases hpos : GetWitnessCommitmentIndex block with
  | none => exact ⟨_, rfl⟩
  | some commitpos =>
    obtain ⟨coinbase', rest', hvtx', hlt⟩ := GetWitnessCommitmentIndex_lt hpos
    obtain ⟨rfl, rfl⟩ : coinbase = coinbase' ∧ rest = rest' := by simpa [hvtx] using hvtx'
    simp only [BlockWitnessMerkleRoot_of_cons _ _ hvtx, Except.bind_ok_left,
      coinbaseIn_of_cons hvtx hvin]
    split
    · split_ifs
      · exact ⟨_, rfl⟩
      · simp only [Abort.vectorGet, hvtx, List.getElem?_cons_zero, List.getElem?_eq_getElem hlt,
          Except.bind_ok_left]
        split_ifs <;> exact ⟨_, rfl⟩
    · exact ⟨_, rfl⟩

/-- **The commitment `GenerateCoinbaseCommitment` writes verifies**: a block whose coinbase ends
with the commitment to the witness root of the transactions after it, with the reserved value as
its first input's witness, passes the validation of the commitment, with `fHaveWitness`. -/
theorem witnessCommitment_committed {vout : List CTxOut} {witnessroot : uint256} {mutated : Bool}
    (hvtx : block.vtx = coinbase :: rest) (hvin : coinbase.vin = txin :: vin)
    (hnonce : txin.scriptWitness = [UpdateUncommittedBlockStructures.nonce])
    (hvout : coinbase.vout = vout ++ [GenerateCoinbaseCommitment.out Hash witnessroot])
    (hroot : ComputeMerkleRoot (SHA256D64 Hash) (0 :: rest.map (CTransaction.GetWitnessHash Hash)) =
      (witnessroot, mutated)) :
    witnessCommitment Hash block = .ok (.valid, true) := by
  have hpos : GetWitnessCommitmentIndex block = some vout.length := by
    simp only [GetWitnessCommitmentIndex, hvtx, hvout,
      GetWitnessCommitmentIndex.loop_concat (GenerateCoinbaseCommitment.isWitnessCommitment_out _ _),
      Nat.zero_add]
  have hout : Abort.vectorGet coinbase.vout vout.length =
      .ok (GenerateCoinbaseCommitment.out Hash witnessroot) := by
    simp [Abort.vectorGet, hvout]
  have hslot : ((GenerateCoinbaseCommitment.out Hash witnessroot).scriptPubKey.drop 6).take 32 =
      ser_uint256 (Hash (ser_uint256 witnessroot ++ UpdateUncommittedBlockStructures.nonce)) := by
    simp [GenerateCoinbaseCommitment.out, witnessCommitmentHeader, ser_uint256,
      GenerateCoinbaseCommitment.ret, UpdateUncommittedBlockStructures.nonce]
  have hlen : UpdateUncommittedBlockStructures.nonce.length = 32 := rfl
  have hcb : Abort.vectorGet block.vtx 0 = .ok coinbase := by simp [Abort.vectorGet, hvtx]
  simp only [witnessCommitment, hpos, BlockWitnessMerkleRoot_of_cons _ _ hvtx, hroot,
    Except.bind_ok_left, coinbaseIn_of_cons hvtx hvin, hnonce, hlen, bne_self_eq_false,
    Bool.false_eq_true, if_false, hcb, hout, hslot]

end ContextualCheckBlock

/-! ## Blocks on a tip at height 99 -/

/-- A tip at height 99, stamped after the BIPs' switch time. -/
def heightTip : CBlockIndex := ⟨0, 99, 1680357192, 0, 0⟩

/-- A block at height 100 made of the coinbase `CreateNewBlock` writes. -/
def heightBlock : CBlock := ⟨⟨4, 0, 0, 1680357312, 0, 0, 0⟩, [CreateNewBlock.coinbase 100 0], []⟩

section Checks

variable {cp : CChainParams} {Hash : List UInt8 → uint256} {block : CBlock}
  {pindexPrev : BlockPtr}

open ContextualCheckBlock

/-- A block whose transactions are final, whose coinbase has its height, and whose commitment
passes where the BIPs ask for one, is judged by the last two rules. -/
theorem ContextualCheckBlock_of_checks {fHaveWitness : Bool}
    (hfinal : block.vtx.all (IsFinalTx · (height pindexPrev) (lockTimeCutoff cp block pindexPrev)))
    (hheight : coinbaseHeight block pindexPrev = .ok .valid)
    (hwitness : (if bipsEnabled cp pindexPrev then witnessCommitment Hash block
      else .ok (.valid, false)) = .ok (.valid, fHaveWitness)) :
    ContextualCheckBlock cp Hash block pindexPrev = .ok (witnessAndWeight block fHaveWitness) := by
  rw [ContextualCheckBlock, if_neg (by simpa using hfinal), hheight, Except.bind_ok_left]
  dsimp only
  rw [hwitness, Except.bind_ok_left]

/-- **The verdict of `ContextualCheckBlock`, rule by rule**: a block passes exactly when every
transaction is final, the coinbase's height holds, and the witness commitment, when the BIPs
ask for one, and the last two rules pass. -/
theorem ContextualCheckBlock_eq_valid :
    ContextualCheckBlock cp Hash block pindexPrev = .ok .valid ↔
      block.vtx.all (IsFinalTx · (height pindexPrev) (lockTimeCutoff cp block pindexPrev)) ∧
      coinbaseHeight block pindexPrev = .ok .valid ∧
      ∃ fHaveWitness,
        (if bipsEnabled cp pindexPrev then witnessCommitment Hash block else .ok (.valid, false)) =
          .ok (.valid, fHaveWitness) ∧ witnessAndWeight block fHaveWitness = .valid := by
  unfold ContextualCheckBlock
  by_cases hfinal : block.vtx.all (IsFinalTx · (height pindexPrev)
      (lockTimeCutoff cp block pindexPrev)) = true
  · rw [if_neg (by simpa using hfinal)]
    simp only [hfinal, true_and]
    rcases coinbaseHeight block pindexPrev with e | (_ | reason)
    · simp
    · rcases (if bipsEnabled cp pindexPrev then witnessCommitment Hash block
        else .ok (.valid, false)) with e | ⟨_ | reason, fHaveWitness⟩ <;> simp
    · simp
  · rw [if_pos (by simpa using hfinal)]
    simp [hfinal]

/-- **On a block that passes `CheckBlock`, `ContextualCheckBlock` returns**: the reads of
`block.vtx[0]->vin[0]`, which the source makes without a check, and of the commitment output
are in range, whatever the predecessor. -/
theorem ContextualCheckBlock_ok_of_CheckBlock {codec : BlockCodec}
    {fCheckPOW fCheckMerkleRoot fCheckSignature : Bool}
    (hcheck : CheckBlock cp codec block fCheckPOW fCheckMerkleRoot fCheckSignature = .valid) :
    ∃ v, ContextualCheckBlock cp Hash block pindexPrev = .ok v := by
  obtain ⟨coinbase, rest, hvtx, hcb, -, -⟩ := (CheckBlock.shape_of_valid hcheck).coinbase_first
  obtain ⟨txin, hvin⟩ : ∃ txin, coinbase.vin = [txin] := by
    unfold CTransaction.isCoinBase at hcb
    split at hcb
    · exact ⟨_, ‹_›⟩
    · cases hcb
  obtain ⟨v, hv⟩ : ∃ v, coinbaseHeight block pindexPrev = .ok v := coinbaseHeight_ok hvtx hvin
  obtain ⟨r, hr⟩ : ∃ r, witnessCommitment Hash block = .ok r := witnessCommitment_ok hvtx hvin
  obtain ⟨r', hr'⟩ : ∃ r, (if bipsEnabled cp pindexPrev then witnessCommitment Hash block
      else .ok (.valid, false)) = .ok r := by
    split
    · exact ⟨r, hr⟩
    · exact ⟨_, rfl⟩
  unfold ContextualCheckBlock
  split
  · exact ⟨_, rfl⟩
  · rw [hv, Except.bind_ok_left]
    rcases v with _ | reason
    · dsimp only
      rw [hr', Except.bind_ok_left]
      obtain ⟨_ | reason, fHaveWitness⟩ := r' <;> exact ⟨_, rfl⟩
    · exact ⟨_, rfl⟩

theorem ContextualCheckBlock_ok_of_CheckBlock_futureTxBlock :
    CheckBlock mainParams stubCodec futureTxBlock true true true = .valid ∧
      ∃ v, ContextualCheckBlock mainParams toyHash futureTxBlock [heightTip] = .ok v :=
  have h : CheckBlock mainParams stubCodec futureTxBlock true true true = .valid := by
    decide +kernel
  ⟨h, ContextualCheckBlock_ok_of_CheckBlock h⟩

/-- **BIP34: the height of a block that passes the checks reads back from its coinbase.** For a
block of version 2 on, the number its coinbase's script pushes first, read as the interpreter
reads it, is the block's height; so two such blocks at different heights have different
coinbases. -/
theorem ContextualCheckBlock_coinbase_height {prev : CBlockIndex} {pprev : BlockPtr}
    (h : ContextualCheckBlock cp Hash block (prev :: pprev) = .ok .valid)
    (hversion : 2 ≤ block.header.nVersion) (hheight : (prev.nHeight + 1).natAbs < 2 ^ 64) :
    ∃ coinbase txin, block.vtx.head? = some coinbase ∧ coinbase.vin.head? = some txin ∧
      txin.scriptSig.firstNum = prev.nHeight + 1 := by
  obtain ⟨-, hcb, -⟩ := ContextualCheckBlock_eq_valid.1 h
  obtain ⟨txin, hin, rest, hscript⟩ := coinbaseHeight_eq_valid hcb hversion
  obtain ⟨coinbase, hhead, htxin⟩ := coinbaseIn_eq_ok hin
  refine ⟨coinbase, txin, hhead, htxin, ?_⟩
  rw [← hscript]
  exact CScript.firstNum_pushInt64 hheight rest

theorem ContextualCheckBlock_coinbase_height_heightBlock :
    ContextualCheckBlock mainParams toyHash heightBlock [heightTip] = .ok .valid ∧
      2 ≤ heightBlock.header.nVersion ∧ (heightTip.nHeight + 1).natAbs < 2 ^ 64 ∧
      ∃ coinbase txin, heightBlock.vtx.head? = some coinbase ∧ coinbase.vin.head? = some txin ∧
        txin.scriptSig.firstNum = heightTip.nHeight + 1 :=
  have h : ContextualCheckBlock mainParams toyHash heightBlock [heightTip] = .ok .valid := by
    decide +kernel
  ⟨h, by decide, by decide, ContextualCheckBlock_coinbase_height h (by decide) (by decide)⟩

/-- **Witness data needs a commitment**: a block that passes the checks and carries a witness has
the BIPs on and a commitment that verifies. -/
theorem ContextualCheckBlock_witness
    (h : ContextualCheckBlock cp Hash block pindexPrev = .ok .valid)
    (hw : ∃ tx ∈ block.vtx, tx.HasWitness = true) :
    bipsEnabled cp pindexPrev = true ∧ witnessCommitment Hash block = .ok (.valid, true) := by
  obtain ⟨-, -, fHaveWitness, hcommit, hlast⟩ := ContextualCheckBlock_eq_valid.1 h
  obtain rfl : fHaveWitness = true := by
    by_contra hf
    rw [Bool.not_eq_true] at hf
    subst hf
    have hany : block.vtx.any CTransaction.HasWitness = true := List.any_eq_true.2 hw
    simp [witnessAndWeight, hany] at hlast
  by_cases hb : bipsEnabled cp pindexPrev = true
  · rw [if_pos hb] at hcommit
    exact ⟨hb, hcommit⟩
  · rw [if_neg hb] at hcommit
    simp at hcommit

/-- **The commitment `GenerateCoinbaseCommitment` writes is the one `ContextualCheckBlock`
recomputes**: on a block whose coinbase has an input and neither a witness nor a commitment, once
the BIPs are on, `GenerateCoinbaseCommitment` returns, and the validation of the commitment passes
the block it returns, with `fHaveWitness`. -/
theorem ContextualCheckBlock_witnessCommitment {prev : CBlockIndex} {pprev : BlockPtr}
    {coinbase : CTransaction} {rest : List CTransaction} {txin : CTxIn} {vin : List CTxIn}
    (hvtx : block.vtx = coinbase :: rest) (hvin : coinbase.vin = txin :: vin)
    (hwit : coinbase.HasWitness = false) (hnone : GetWitnessCommitmentIndex block = none)
    (hbips : IsBTC16BIPsEnabled cp prev.nTime = true) :
    ∃ commitment block', GenerateCoinbaseCommitment cp Hash block (prev :: pprev) =
        .ok (commitment, block') ∧ witnessCommitment Hash block' = .ok (.valid, true) := by
  obtain ⟨witnessroot, mutated, hroot⟩ : ∃ witnessroot mutated, ComputeMerkleRoot (SHA256D64 Hash)
      (0 :: rest.map (CTransaction.GetWitnessHash Hash)) = (witnessroot, mutated) := ⟨_, _, rfl⟩
  exact ⟨_, _, GenerateCoinbaseCommitment_of_none hvtx hvin hwit hnone hbips hroot,
    witnessCommitment_committed rfl rfl rfl rfl hroot⟩

theorem ContextualCheckBlock_witnessCommitment_heightBlock :
    heightBlock.vtx = CreateNewBlock.coinbase 100 0 :: [] ∧
      (CreateNewBlock.coinbase 100 0).vin =
        ⟨⟨0, COutPoint.NULL_INDEX⟩, CScript.pushInt64 100 ++ [OP_0], 0xffffffff, []⟩ :: [] ∧
      (CreateNewBlock.coinbase 100 0).HasWitness = false ∧
      GetWitnessCommitmentIndex heightBlock = none ∧
      IsBTC16BIPsEnabled mainParams heightTip.nTime = true ∧
      ∃ commitment block', GenerateCoinbaseCommitment mainParams toyHash heightBlock [heightTip] =
        .ok (commitment, block') ∧
        ContextualCheckBlock.witnessCommitment toyHash block' = .ok (.valid, true) :=
  ⟨rfl, rfl, rfl, rfl, by decide,
    ContextualCheckBlock_witnessCommitment rfl rfl rfl rfl (by decide)⟩

/-- **The block `CreateNewBlock` assembles passes the contextual checks, its weight apart**: on a
tip where the BIPs are on, once `GenerateCoinbaseCommitment` has added the witness commitment (as
`CreateNewBlock` does, before it fills in the header, which the commitment does not read), the
block's transactions are final, its coinbase pushes its height, and its commitment verifies, given
a coinstake and mempool transactions final at the tip's median time past. -/
theorem ContextualCheckBlock_assemble {tip : CBlockIndex} {pprev : BlockPtr} {nBits : UInt32}
    {txCoinStake : CTransaction} {vtxPackages : List CTransaction}
    (hbips : IsBTC16BIPsEnabled cp tip.nTime = true)
    (hfinal : ∀ tx ∈ txCoinStake :: vtxPackages,
      IsFinalTx tx (tip.nHeight + 1) (GetMedianTimePast (tip :: pprev)) = true) :
    ∃ commitment block, GenerateCoinbaseCommitment cp Hash
        (CreateNewBlock.assemble tip pprev nBits txCoinStake vtxPackages) (tip :: pprev) =
        .ok (commitment, block) ∧
      ContextualCheckBlock cp Hash block (tip :: pprev) =
        .ok (if GetBlockWeight block > MAX_BLOCK_WEIGHT then .invalid "bad-blk-weight"
          else .valid) := by
  set assembled := CreateNewBlock.assemble tip pprev nBits txCoinStake vtxPackages
  set coinbase := CreateNewBlock.coinbase (tip.nHeight + 1) txCoinStake.nTime
  have hvtx : assembled.vtx = coinbase :: txCoinStake :: vtxPackages := rfl
  have hnone : GetWitnessCommitmentIndex assembled = none := rfl
  have hwit : coinbase.HasWitness = false := rfl
  obtain ⟨witnessroot, mutated, hroot⟩ : ∃ witnessroot mutated, ComputeMerkleRoot (SHA256D64 Hash)
      (0 :: (txCoinStake :: vtxPackages).map (CTransaction.GetWitnessHash Hash)) =
      (witnessroot, mutated) := ⟨_, _, rfl⟩
  refine ⟨_, _, GenerateCoinbaseCommitment_of_none hvtx rfl hwit hnone hbips hroot, ?_⟩
  rw [@ContextualCheckBlock_of_checks _ _ _ _ true]
  · simp [witnessAndWeight]
  · rw [lockTimeCutoff_of_bipsEnabled hbips, List.all_cons, Bool.and_eq_true, List.all_eq_true]
    exact ⟨rfl, hfinal⟩
  · have hversion : assembled.header.nVersion = 4 := rfl
    rw [coinbaseHeight, if_pos (by simp [hversion]), coinbaseIn_of_cons rfl rfl,
      Except.bind_ok_left]
    simp [height, List.isPrefixOf_iff_prefix]
  · rw [bipsEnabled, if_pos hbips]
    exact witnessCommitment_committed rfl rfl rfl rfl hroot

theorem ContextualCheckBlock_assemble_heightTip :
    IsBTC16BIPsEnabled mainParams heightTip.nTime = true ∧
      (∀ tx ∈ [(⟨[], [], 3, 1680357312, 0⟩ : CTransaction)],
        IsFinalTx tx (heightTip.nHeight + 1) (GetMedianTimePast [heightTip]) = true) ∧
      ∃ commitment block, GenerateCoinbaseCommitment mainParams toyHash
          (CreateNewBlock.assemble heightTip [] 0 ⟨[], [], 3, 1680357312, 0⟩ []) [heightTip] =
          .ok (commitment, block) ∧
        ContextualCheckBlock mainParams toyHash block [heightTip] =
          .ok (if GetBlockWeight block > MAX_BLOCK_WEIGHT then .invalid "bad-blk-weight"
            else .valid) :=
  have hbips : IsBTC16BIPsEnabled mainParams heightTip.nTime = true := by decide
  have hfinal : ∀ tx ∈ [(⟨[], [], 3, 1680357312, 0⟩ : CTransaction)],
      IsFinalTx tx (heightTip.nHeight + 1) (GetMedianTimePast [heightTip]) = true := by
    decide
  ⟨hbips, hfinal, ContextualCheckBlock_assemble hbips hfinal⟩

end Checks

end NowpConsensus
