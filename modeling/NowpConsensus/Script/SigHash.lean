import NowpConsensus.Primitives.Serialize

/-!
# Signature hashes

The messages a transaction's signatures sign, from `script/interpreter.cpp`: `SignatureHash`,
for legacy (`BASE`) and segregated-witness version 0 (`WITNESS_V0`) signatures, and
`SignatureHashSchnorr`, for Taproot key-path (`TAPROOT`) and script-path (`TAPSCRIPT`)
signatures, with the data `PrecomputedTransactionData::Init` shares between them.

Each is modelled by its preimage: the bytes the hasher is fed. The hash functions are
parameters (`SHA256`, a single SHA-256). A signature commits to what changes the preimage,
because the signature check hashes it.

The fork adds the transaction's timestamp to two preimages, when `nVersion < 3`: to the legacy
serialisation (`CTransactionSignatureSerializer`) and to the BIP143 message. The Taproot message
is assembled from transaction-level fields and cached single hashes, and `nTime` is not among
them.

* `SignatureHash_preimage_commits_nTime`: for `BASE` and `WITNESS_V0`, two transactions of a
  version below 3 that differ only in `nTime` have different preimages;
* `SignatureHashSchnorr_ignores_nTime`: for `TAPROOT` and `TAPSCRIPT`, they have the same one.
-/

namespace NowpConsensus

open Bytes

/-! ## Constants and the data of a signature check -/

def SIGHASH_ALL : UInt8 := 1
def SIGHASH_NONE : UInt8 := 2
def SIGHASH_SINGLE : UInt8 := 3
def SIGHASH_ANYONECANPAY : UInt8 := 0x80
/-- Taproot only: the hash type of a signature without a hash-type byte, as `SIGHASH_ALL`. -/
def SIGHASH_DEFAULT : UInt8 := 0
def SIGHASH_OUTPUT_MASK : UInt8 := 3
def SIGHASH_INPUT_MASK : UInt8 := 0x80

/-- `WITNESS_V1_TAPROOT_SIZE`. -/
def WITNESS_V1_TAPROOT_SIZE : Nat := 32

def OP_1 : UInt8 := 0x51
def OP_PUSHDATA1 : UInt8 := 0x4c
def OP_PUSHDATA2 : UInt8 := 0x4d
def OP_PUSHDATA4 : UInt8 := 0x4e
def OP_CODESEPARATOR : UInt8 := 0xab
def OP_INVALIDOPCODE : UInt8 := 0xff

/-- `SigVersion`. -/
inductive SigVersion
  | BASE
  | WITNESS_V0
  | TAPROOT
  | TAPSCRIPT
  deriving DecidableEq, Repr

/-- `MissingDataBehavior`: what a Taproot signature hash does without the spent outputs. -/
inductive MissingDataBehavior
  | ASSERT_FAIL
  | FAIL
  deriving DecidableEq, Repr

/-- `ScriptExecutionData`, the fields the signature hash reads. -/
structure ScriptExecutionData where
  m_tapleaf_hash_init : Bool
  m_tapleaf_hash : uint256
  m_codeseparator_pos_init : Bool
  m_codeseparator_pos : UInt32
  m_annex_init : Bool
  m_annex_present : Bool
  m_annex_hash : uint256
  /-- The hash of the output at the input's position, once computed. -/
  m_output_hash : Option uint256
  deriving DecidableEq, Repr

/-- `PrecomputedTransactionData`. -/
structure PrecomputedTransactionData where
  m_prevouts_single_hash : uint256
  m_sequences_single_hash : uint256
  m_outputs_single_hash : uint256
  m_spent_amounts_single_hash : uint256
  m_spent_scripts_single_hash : uint256
  hashPrevouts : uint256
  hashSequence : uint256
  hashOutputs : uint256
  m_bip143_segwit_ready : Bool
  m_bip341_taproot_ready : Bool
  m_spent_outputs_ready : Bool
  m_spent_outputs : List CTxOut
  deriving DecidableEq, Repr

section Hashes

variable (SHA256 : List UInt8 → uint256)

/-- `GetPrevoutsSHA256`. -/
def GetPrevoutsSHA256 (txTo : CTransaction) : uint256 :=
  SHA256 (txTo.vin.flatMap fun txin => txin.prevout.serialize)

/-- `GetSequencesSHA256`. -/
def GetSequencesSHA256 (txTo : CTransaction) : uint256 :=
  SHA256 (txTo.vin.flatMap fun txin => ser_uint32 txin.nSequence)

/-- `GetOutputsSHA256`. -/
def GetOutputsSHA256 (txTo : CTransaction) : uint256 :=
  SHA256 (txTo.vout.flatMap CTxOut.serialize)

/-- `GetSpentAmountsSHA256`. -/
def GetSpentAmountsSHA256 (outputs_spent : List CTxOut) : uint256 :=
  SHA256 (outputs_spent.flatMap fun txout => ser_int64 txout.nValue)

/-- `GetSpentScriptsSHA256`. -/
def GetSpentScriptsSHA256 (outputs_spent : List CTxOut) : uint256 :=
  SHA256 (outputs_spent.flatMap fun txout => ser_bytes txout.scriptPubKey)

/-- `SHA256Uint256`: the hash of a hash's 32 bytes. -/
def SHA256Uint256 (h : uint256) : uint256 := SHA256 (ser_uint256 h)

/-- Whether the spends of `txTo` need the BIP143 and the BIP341 data: a witness-bearing input
whose spent output is a 34-byte script starting with `OP_1` is taken for a Taproot spend, any
other witness-bearing input for a version 0 spend. -/
def PrecomputedTransactionData.uses (txTo : CTransaction) (spent_outputs : List CTxOut)
    (ready force : Bool) : Bool × Bool :=
  (txTo.vin.zipIdx).foldl (fun (segwit, taproot) (txin, inpos) =>
    if txin.scriptWitness.isEmpty then (segwit, taproot)
    else match spent_outputs[inpos]? with
      | some out =>
        if ready && out.scriptPubKey.length == 2 + WITNESS_V1_TAPROOT_SIZE &&
            out.scriptPubKey.head? == some OP_1 then (segwit, true)
        else (true, taproot)
      | none => (true, taproot)) (force, force)

/-- `PrecomputedTransactionData::Init(txTo, spent_outputs, force)` on fresh data. -/
def PrecomputedTransactionData.Init (txTo : CTransaction) (spent_outputs : List CTxOut)
    (force : Bool) : Except Abort PrecomputedTransactionData :=
  let ready := !spent_outputs.isEmpty
  if ready && spent_outputs.length != txTo.vin.length then .error .assertion
  else
    let (uses_bip143_segwit, uses_bip341_taproot) := uses txTo spent_outputs ready force
    let shared := uses_bip143_segwit || uses_bip341_taproot
    let m_prevouts_single_hash := if shared then GetPrevoutsSHA256 SHA256 txTo else 0
    let m_sequences_single_hash := if shared then GetSequencesSHA256 SHA256 txTo else 0
    let m_outputs_single_hash := if shared then GetOutputsSHA256 SHA256 txTo else 0
    .ok {
      m_prevouts_single_hash, m_sequences_single_hash, m_outputs_single_hash
      m_spent_amounts_single_hash :=
        if uses_bip341_taproot then GetSpentAmountsSHA256 SHA256 spent_outputs else 0
      m_spent_scripts_single_hash :=
        if uses_bip341_taproot then GetSpentScriptsSHA256 SHA256 spent_outputs else 0
      hashPrevouts := if uses_bip143_segwit then SHA256Uint256 SHA256 m_prevouts_single_hash else 0
      hashSequence := if uses_bip143_segwit then SHA256Uint256 SHA256 m_sequences_single_hash else 0
      hashOutputs := if uses_bip143_segwit then SHA256Uint256 SHA256 m_outputs_single_hash else 0
      m_bip143_segwit_ready := uses_bip143_segwit
      m_bip341_taproot_ready := uses_bip341_taproot
      m_spent_outputs_ready := ready
      m_spent_outputs := spent_outputs }

end Hashes

/-! ## Script code -/

/-- `GetScriptOp(pc, end, opcode, nullptr)` on the bytes from `pc` on: whether an operation
was read, its opcode (`OP_INVALIDOPCODE` after a failure), and the bytes after the position `pc`
was left at (after a failure, past what was read of the operation). -/
def GetScriptOp : List UInt8 → Bool × UInt8 × List UInt8
  | [] => (false, OP_INVALIDOPCODE, [])
  | opcode :: s =>
    if opcode ≤ OP_PUSHDATA4 then
      let size? : Option (Nat × List UInt8) :=
        if opcode < OP_PUSHDATA1 then some (opcode.toNat, s)
        else if opcode == OP_PUSHDATA1 then
          if s.length < 1 then none else some (readLE (s.take 1), s.drop 1)
        else if opcode == OP_PUSHDATA2 then
          if s.length < 2 then none else some (readLE (s.take 2), s.drop 2)
        else if s.length < 4 then none else some (readLE (s.take 4), s.drop 4)
      match size? with
      | none => (false, OP_INVALIDOPCODE, s)
      | some (nSize, s) =>
        if s.length < nSize then (false, OP_INVALIDOPCODE, s) else (true, opcode, s.drop nSize)
    else (true, opcode, s)

/-- The two loops of `SerializeScriptCode` over the script: the number of `OP_CODESEPARATOR`s
read and the bytes written, with `seg` the bytes read since the last separator. The loops stop
where `GetScriptOp` fails; the bytes of the current segment up to that point are written. -/
def scanScriptCode : Nat → List UInt8 → List UInt8 → Nat × List UInt8
  | 0, _, seg => (0, seg)
  | fuel + 1, s, seg =>
    let (ok, opcode, rest) := GetScriptOp s
    let read := s.take (s.length - rest.length)
    if !ok then (0, seg ++ read)
    else if opcode == OP_CODESEPARATOR then
      let (n, written) := scanScriptCode fuel rest []
      (n + 1, seg ++ written)
    else scanScriptCode fuel rest (seg ++ read)

/-- `CTransactionSignatureSerializer::SerializeScriptCode`: the script without its
`OP_CODESEPARATOR`s, prefixed by the length of the script less their number. Each operation read
takes at least one byte, so the script's length bounds the loop. -/
def SerializeScriptCode (scriptCode : CScript) : List UInt8 :=
  let (nCodeSeparators, written) := scanScriptCode scriptCode.length scriptCode []
  compactSize (scriptCode.length - nCodeSeparators) ++ written

/-! ## The legacy and version 0 signature hashes -/

/-- `CTransactionSignatureSerializer(txTo, scriptCode, nIn, nHashType)::Serialize`. -/
def CTransactionSignatureSerializer (txTo : CTransaction) (scriptCode : CScript) (nIn : Nat)
    (nHashType : Int32) : List UInt8 :=
  let fAnyoneCanPay := nHashType &&& 0x80 != 0
  let fHashSingle := nHashType &&& 0x1f == 3
  let fHashNone := nHashType &&& 0x1f == 2
  let SerializeInput (nInput : Nat) : List UInt8 :=
    let nInput := if fAnyoneCanPay then nIn else nInput
    match txTo.vin[nInput]? with
    | none => []
    | some txin =>
      txin.prevout.serialize ++
      (if nInput != nIn then ser_bytes [] else SerializeScriptCode scriptCode) ++
      (if nInput != nIn && (fHashSingle || fHashNone) then ser_int32 0
        else ser_uint32 txin.nSequence)
  let SerializeOutput (nOutput : Nat) : List UInt8 :=
    if fHashSingle && nOutput != nIn then CTxOut.null.serialize
    else match txTo.vout[nOutput]? with
      | none => []
      | some out => out.serialize
  let nInputs := if fAnyoneCanPay then 1 else txTo.vin.length
  let nOutputs := if fHashNone then 0 else if fHashSingle then nIn + 1 else txTo.vout.length
  ser_int32 txTo.nVersion ++
  -- nowp: the timestamp, for old versions only
  (if txTo.nVersion < 3 then ser_uint32 txTo.nTime else []) ++
  compactSize nInputs ++ (List.range nInputs).flatMap SerializeInput ++
  compactSize nOutputs ++ (List.range nOutputs).flatMap SerializeOutput ++
  ser_uint32 txTo.nLockTime

section Legacy

variable (SHA256 : List UInt8 → uint256)

/-- The bytes `SignatureHash(scriptCode, txTo, nIn, nHashType, amount, sigversion, cache)` hashes
(twice): `none` where it returns `uint256::ONE` without hashing, for `SIGHASH_SINGLE` on an input
without a matching output. -/
def SignatureHash.preimage (scriptCode : CScript) (txTo : CTransaction) (nIn : Nat)
    (nHashType : Int32) (amount : CAmount) (sigversion : SigVersion)
    (cache : Option PrecomputedTransactionData) : Except Abort (Option (List UInt8)) :=
  match txTo.vin[nIn]? with
  | none => .error .assertion
  | some txin =>
    if sigversion == .WITNESS_V0 then
      let cacheready := (cache.map (·.m_bip143_segwit_ready)).getD false
      let fromCache (f : PrecomputedTransactionData → uint256) (h : uint256) : uint256 :=
        match cache with
        | some c => if cacheready then f c else h
        | none => h
      let hashPrevouts :=
        if nHashType &&& 0x80 == 0 then
          fromCache (·.hashPrevouts) (SHA256Uint256 SHA256 (GetPrevoutsSHA256 SHA256 txTo))
        else 0
      let hashSequence :=
        if nHashType &&& 0x80 == 0 && nHashType &&& 0x1f != 3 && nHashType &&& 0x1f != 2 then
          fromCache (·.hashSequence) (SHA256Uint256 SHA256 (GetSequencesSHA256 SHA256 txTo))
        else 0
      let hashOutputs :=
        if nHashType &&& 0x1f != 3 && nHashType &&& 0x1f != 2 then
          fromCache (·.hashOutputs) (SHA256Uint256 SHA256 (GetOutputsSHA256 SHA256 txTo))
        else match txTo.vout[nIn]? with
          | some out =>
            if nHashType &&& 0x1f == 3 then SHA256Uint256 SHA256 (SHA256 out.serialize) else 0
          | none => 0
      .ok (some (ser_int32 txTo.nVersion ++
        -- nowp: the timestamp, for old versions only
        (if txTo.nVersion < 3 then ser_uint32 txTo.nTime else []) ++
        ser_uint256 hashPrevouts ++ ser_uint256 hashSequence ++ txin.prevout.serialize ++
        ser_bytes scriptCode ++ ser_int64 amount ++ ser_uint32 txin.nSequence ++
        ser_uint256 hashOutputs ++ ser_uint32 txTo.nLockTime ++ ser_int32 nHashType))
    else if nHashType &&& 0x1f == 3 && txTo.vout.length ≤ nIn then .ok none
    else .ok (some (CTransactionSignatureSerializer txTo scriptCode nIn nHashType ++
      ser_int32 nHashType))

/-- `SignatureHash(scriptCode, txTo, nIn, nHashType, amount, sigversion, cache)`: the double
SHA-256 of the preimage, or `uint256::ONE`. -/
def SignatureHash (scriptCode : CScript) (txTo : CTransaction) (nIn : Nat) (nHashType : Int32)
    (amount : CAmount) (sigversion : SigVersion) (cache : Option PrecomputedTransactionData) :
    Except Abort uint256 :=
  (SignatureHash.preimage SHA256 scriptCode txTo nIn nHashType amount sigversion cache).map
    fun preimage? => (preimage?.map fun p => SHA256Uint256 SHA256 (SHA256 p)).getD 1

end Legacy

/-! ## The Taproot signature hash -/

/-- `HandleMissingData(mdb)`: a failed assertion, or `false`. -/
def HandleMissingData {α : Type} : MissingDataBehavior → Except Abort (Option α)
  | .ASSERT_FAIL => .error .assertion
  | .FAIL => .ok none

/-- The bytes `SignatureHashSchnorr(hash_out, execdata, tx_to, in_pos, hash_type, sigversion,
cache, mdb)` feeds its tagged hasher: `none` where it returns `false`. The output hash of
`SIGHASH_SINGLE` is `execdata`'s if it has one, else the one it computes (and caches there). -/
def SignatureHashSchnorr.preimage (SHA256 : List UInt8 → uint256)
    (execdata : ScriptExecutionData) (tx_to : CTransaction) (in_pos : Nat) (hash_type : UInt8)
    (sigversion : SigVersion) (cache : PrecomputedTransactionData) (mdb : MissingDataBehavior) :
    Except Abort (Option (List UInt8)) :=
  if sigversion != .TAPROOT && sigversion != .TAPSCRIPT then .error .assertion
  else
    let ext_flag : UInt8 := if sigversion == .TAPSCRIPT then 1 else 0
    match tx_to.vin[in_pos]? with
    | none => .error .assertion
    | some txin =>
      if !(cache.m_bip341_taproot_ready && cache.m_spent_outputs_ready) then HandleMissingData mdb
      else
        let output_type := if hash_type == SIGHASH_DEFAULT then SIGHASH_ALL
          else hash_type &&& SIGHASH_OUTPUT_MASK
        let input_type := hash_type &&& SIGHASH_INPUT_MASK
        if !(hash_type ≤ 0x03 || (0x81 ≤ hash_type && hash_type ≤ 0x83)) then .ok none
        else if !execdata.m_annex_init then .error .assertion
        else
          let have_annex := execdata.m_annex_present
          let spend_type : UInt8 := (ext_flag <<< 1) + (if have_annex then 1 else 0)
          let single? : Option (List UInt8) :=
            if output_type == SIGHASH_SINGLE then
              match tx_to.vout[in_pos]? with
              | none => none
              | some out => some (ser_uint256 (execdata.m_output_hash.getD (SHA256 out.serialize)))
            else some []
          match single? with
          | none => .ok none
          | some single =>
            if sigversion == .TAPSCRIPT &&
                !(execdata.m_tapleaf_hash_init && execdata.m_codeseparator_pos_init) then
              .error .assertion
            else .ok (some (
              [0, hash_type] ++
              ser_int32 tx_to.nVersion ++ ser_uint32 tx_to.nLockTime ++
              (if input_type != SIGHASH_ANYONECANPAY then
                ser_uint256 cache.m_prevouts_single_hash ++
                ser_uint256 cache.m_spent_amounts_single_hash ++
                ser_uint256 cache.m_spent_scripts_single_hash ++
                ser_uint256 cache.m_sequences_single_hash else []) ++
              (if output_type == SIGHASH_ALL then ser_uint256 cache.m_outputs_single_hash
                else []) ++
              [spend_type] ++
              (if input_type == SIGHASH_ANYONECANPAY then
                txin.prevout.serialize ++
                (cache.m_spent_outputs[in_pos]?.getD CTxOut.null).serialize ++
                ser_uint32 txin.nSequence
              else ser_uint32 (UInt32.ofNat in_pos)) ++
              (if have_annex then ser_uint256 execdata.m_annex_hash else []) ++
              single ++
              (if sigversion == .TAPSCRIPT then
                ser_uint256 execdata.m_tapleaf_hash ++ [0] ++
                ser_uint32 execdata.m_codeseparator_pos else [])))

/-- `TaggedHash("TapSighash")`'s prefix: the tag's hash, twice. -/
def HASHER_TAPSIGHASH (SHA256 : List UInt8 → uint256) : List UInt8 :=
  let tag := SHA256 "TapSighash".toUTF8.toList
  ser_uint256 tag ++ ser_uint256 tag

/-- `SignatureHashSchnorr(...)`: the tagged hash of the preimage, or `none` for `false`. -/
def SignatureHashSchnorr (SHA256 : List UInt8 → uint256) (execdata : ScriptExecutionData)
    (tx_to : CTransaction) (in_pos : Nat) (hash_type : UInt8) (sigversion : SigVersion)
    (cache : PrecomputedTransactionData) (mdb : MissingDataBehavior) :
    Except Abort (Option uint256) :=
  (SignatureHashSchnorr.preimage SHA256 execdata tx_to in_pos hash_type sigversion cache mdb).map
    fun preimage? => preimage?.map fun p => SHA256 (HASHER_TAPSIGHASH SHA256 ++ p)


/-! ## What the messages commit to -/

section Commitment

variable {SHA256 : List UInt8 → uint256}

theorem ser_uint32_inj {x y : UInt32} (h : ser_uint32 x = ser_uint32 y) : x = y := by
  have hx : x.toNat < 256 ^ 4 := x.toNat_lt
  have hy : y.toNat < 256 ^ 4 := y.toNat_lt
  exact UInt32.toNat_inj.1 (leBytes_inj hx hy h)

/-- The four bytes after the version, in a message that starts with the version and the
timestamp. -/
theorem drop_take_of_version_time (v : Int32) (t : UInt32) (rest : List UInt8) :
    ((ser_int32 v ++ ser_uint32 t ++ rest).drop 4).take 4 = ser_uint32 t := by
  have hv : (ser_int32 v).length = 4 := leBytes_length 4 _
  have ht : (ser_uint32 t).length = 4 := leBytes_length 4 _
  rw [List.append_assoc, List.drop_append_of_le_length (by omega),
    List.drop_eq_nil_of_le (by omega), List.nil_append,
    List.take_append_of_le_length (by omega), List.take_of_length_le (by omega)]

/-- **A legacy or version 0 message carries the timestamp**, in its bytes 4 to 8, when the
transaction's version is below 3. -/
theorem SignatureHash.preimage_nTime_bytes {scriptCode : CScript} {tx : CTransaction}
    {nIn : Nat} {nHashType : Int32} {amount : CAmount} {sigversion : SigVersion}
    {cache : Option PrecomputedTransactionData} {p : List UInt8} (hv : tx.nVersion < 3)
    (h : SignatureHash.preimage SHA256 scriptCode tx nIn nHashType amount sigversion cache =
      .ok (some p)) :
    (p.drop 4).take 4 = ser_uint32 tx.nTime := by
  unfold SignatureHash.preimage at h
  split at h
  · cases h
  split at h
  · simp only [Except.ok.injEq, Option.some.injEq] at h
    subst h
    simp only [List.append_assoc]
    exact drop_take_of_version_time _ _ _
  split at h
  · cases h
  · simp only [Except.ok.injEq, Option.some.injEq] at h
    subst h
    simp only [CTransactionSignatureSerializer]
    rw [if_pos hv]
    simp only [List.append_assoc]
    exact drop_take_of_version_time _ _ _

/-- **Legacy and version 0 signatures commit to the timestamp**: two transactions of a version
below 3 that differ only in `nTime` have different `BASE` and `WITNESS_V0` messages, for every
input, hash type, amount and cache. -/
theorem SignatureHash_preimage_commits_nTime {scriptCode : CScript} {tx : CTransaction}
    {t : UInt32} {nIn : Nat} {nHashType : Int32} {amount : CAmount} {sigversion : SigVersion}
    {cache : Option PrecomputedTransactionData} {p p' : List UInt8} (hv : tx.nVersion < 3)
    (ht : t ≠ tx.nTime)
    (h : SignatureHash.preimage SHA256 scriptCode tx nIn nHashType amount sigversion cache =
      .ok (some p))
    (h' : SignatureHash.preimage SHA256 scriptCode { tx with nTime := t } nIn nHashType amount
      sigversion cache = .ok (some p')) :
    p ≠ p' := by
  intro hp
  have hbytes := SignatureHash.preimage_nTime_bytes hv h
  have hbytes' := @SignatureHash.preimage_nTime_bytes SHA256 scriptCode { tx with nTime := t } nIn
    nHashType amount sigversion cache p' hv h'
  rw [← hp, hbytes] at hbytes'
  exact ht (ser_uint32_inj hbytes').symm

/-- `PrecomputedTransactionData::Init` reads nothing of the timestamp. -/
theorem PrecomputedTransactionData.Init_nTime (tx : CTransaction) (t : UInt32)
    (spent_outputs : List CTxOut) (force : Bool) :
    PrecomputedTransactionData.Init SHA256 { tx with nTime := t } spent_outputs force =
      PrecomputedTransactionData.Init SHA256 tx spent_outputs force := rfl

/-- The Taproot message reads nothing of the timestamp. -/
theorem SignatureHashSchnorr.preimage_nTime (execdata : ScriptExecutionData) (tx : CTransaction)
    (t : UInt32) (in_pos : Nat) (hash_type : UInt8) (sigversion : SigVersion)
    (cache : PrecomputedTransactionData) (mdb : MissingDataBehavior) :
    SignatureHashSchnorr.preimage SHA256 execdata { tx with nTime := t } in_pos hash_type
      sigversion cache mdb =
    SignatureHashSchnorr.preimage SHA256 execdata tx in_pos hash_type sigversion cache mdb := rfl

/-- **Taproot signatures do not commit to the timestamp**: for every transaction (of any
version), timestamp, input, hash type, signature version, spent outputs and execution data,
changing `nTime` leaves the message `SignatureHashSchnorr` hashes, with the data
`PrecomputedTransactionData::Init` computes for the transaction, as it is. -/
theorem SignatureHashSchnorr_ignores_nTime (execdata : ScriptExecutionData) (tx : CTransaction)
    (t : UInt32) (in_pos : Nat) (hash_type : UInt8) (sigversion : SigVersion)
    (spent_outputs : List CTxOut) (force : Bool) (mdb : MissingDataBehavior) :
    (PrecomputedTransactionData.Init SHA256 { tx with nTime := t } spent_outputs force >>=
      fun cache => SignatureHashSchnorr.preimage SHA256 execdata { tx with nTime := t } in_pos
        hash_type sigversion cache mdb) =
    (PrecomputedTransactionData.Init SHA256 tx spent_outputs force >>=
      fun cache => SignatureHashSchnorr.preimage SHA256 execdata tx in_pos hash_type sigversion
        cache mdb) := by
  rw [PrecomputedTransactionData.Init_nTime]
  simp only [SignatureHashSchnorr.preimage_nTime]

end Commitment

end NowpConsensus
