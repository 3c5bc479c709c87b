import NowpConsensus.Lib.Abort

/-!
# Transactions

The data model of `primitives/transaction.h` and `consensus/amount.h`: outpoints, inputs,
outputs and transactions, with the classification predicates the fork adds (`isCoinStake`,
the coinstake being marked by an empty first output) and the amount range checks.

A `uint256` is a 256-bit value (`BitVec 256`), a script a list of bytes, an amount (`CAmount`,
`int64_t`) an integer: every sum of amounts the modelled code forms is of values it has checked
to lie in `[0, MAX_MONEY]`, over at most a block's worth of transactions, and stays far below
`2^63`. The transaction hash (`GetHash`, a double SHA-256 of the serialisation) is not computed
here: models that need it take it as a function of the transaction.
-/

namespace NowpConsensus

/-- `uint256`: a 256-bit blob, used for hashes. -/
abbrev uint256 := BitVec 256

/-- `CAmount`: an amount in satoshis. -/
abbrev CAmount := Int

/-- `COIN`: one coin is `10^6` satoshis in this fork. -/
def COIN : CAmount := 1000000

/-- `MAX_MONEY`. -/
def MAX_MONEY : CAmount := 210000000 * COIN

/-- `MoneyRange`. -/
def MoneyRange (nValue : CAmount) : Bool := 0 ≤ nValue && nValue ≤ MAX_MONEY

/-! ## Scripts -/

/-- `CScript`: the bytes of a script. -/
abbrev CScript := List UInt8

/-- `OP_RETURN`. -/
def OP_RETURN : UInt8 := 0x6a

/-- `MAX_SCRIPT_SIZE`. -/
def MAX_SCRIPT_SIZE : Nat := 10000

/-- `CScript::IsUnspendable`: a script that starts with `OP_RETURN`, or is larger than
`MAX_SCRIPT_SIZE`, can never be spent. -/
def CScript.isUnspendable (s : CScript) : Bool :=
  (0 < s.length && s.head? == some OP_RETURN) || MAX_SCRIPT_SIZE < s.length

/-! ## Outpoints, inputs and outputs -/

/-- `COutPoint`: an output of a transaction, by the transaction's hash and the output's index. -/
structure COutPoint where
  hash : uint256
  n : UInt32
  deriving DecidableEq, Repr

/-- `COutPoint::NULL_INDEX`. -/
def COutPoint.NULL_INDEX : UInt32 := 0xffffffff

/-- `COutPoint::IsNull`: the outpoint a coinbase input names. -/
def COutPoint.isNull (o : COutPoint) : Bool := o.hash == 0 && o.n == COutPoint.NULL_INDEX

/-- The null outpoint is the one `COutPoint()` builds. -/
theorem COutPoint.eq_null_of_isNull {o : COutPoint} (h : o.isNull = true) :
    o = ⟨0, COutPoint.NULL_INDEX⟩ := by
  obtain ⟨hash, n⟩ := o
  simp only [COutPoint.isNull, Bool.and_eq_true, beq_iff_eq] at h
  rw [h.1, h.2]

/-- `CTxOut`. -/
structure CTxOut where
  nValue : CAmount
  scriptPubKey : CScript
  deriving DecidableEq, Repr

/-- `CTxOut::SetNull`: the null output, of value `-1`, that stands for a spent coin. -/
def CTxOut.null : CTxOut := ⟨-1, []⟩

/-- `CTxOut::IsNull`. -/
def CTxOut.isNull (o : CTxOut) : Bool := o.nValue == -1

/-- `CTxOut::IsEmpty`: value zero and an empty script, the mark of a coinstake's first output
and of a proof-of-stake block's coinbase. -/
def CTxOut.isEmpty (o : CTxOut) : Bool := o.nValue == 0 && o.scriptPubKey.isEmpty

/-- `CTxIn`. -/
structure CTxIn where
  prevout : COutPoint
  scriptSig : CScript
  nSequence : UInt32
  scriptWitness : List (List UInt8)
  deriving DecidableEq, Repr

/-! ## Transactions -/

/-- `CTransaction` (and `CMutableTransaction`, which has the same fields). The fork adds the
timestamp `nTime`, which is serialised only when `nVersion < 3`. -/
structure CTransaction where
  vin : List CTxIn
  vout : List CTxOut
  nVersion : Int32
  nTime : UInt32
  nLockTime : UInt32
  deriving DecidableEq, Repr

namespace CTransaction

/-- `CTransaction::IsCoinBase`. -/
def isCoinBase (tx : CTransaction) : Bool :=
  match tx.vin with
  | [txin] => txin.prevout.isNull && 1 ≤ tx.vout.length
  | _ => false

/-- `CTransaction::IsCoinStake`: the first input spends an output and the first of at least two
outputs is empty. -/
def isCoinStake (tx : CTransaction) : Bool :=
  match tx.vin, tx.vout with
  | txin :: _, txout :: _ :: _ => !txin.prevout.isNull && txout.isEmpty
  | _, _ => false

/-- `CTransaction::GetValueOut`: the sum of the outputs, throwing when an output or a partial
sum leaves the money range. -/
def getValueOut (tx : CTransaction) : Except Abort CAmount :=
  go 0 tx.vout
where
  /-- The loop over the outputs, with the running sum. -/
  go (nValueOut : CAmount) : List CTxOut → Except Abort CAmount
    | [] => .ok nValueOut
    | txout :: rest =>
      if !MoneyRange txout.nValue || !MoneyRange (nValueOut + txout.nValue) then
        .error (.exception "GetValueOut: value out of range")
      else go (nValueOut + txout.nValue) rest

/-- The plain sum of the output values. -/
def valueOut (tx : CTransaction) : CAmount := (tx.vout.map CTxOut.nValue).sum

/-- A coinbase has no prevout to spend; a coinstake has one. -/
theorem not_isCoinStake_of_isCoinBase {tx : CTransaction} (h : tx.isCoinBase = true) :
    tx.isCoinStake = false := by
  unfold isCoinBase at h
  unfold isCoinStake
  split at h
  · rename_i txin hvin
    simp only [Bool.and_eq_true] at h
    rw [hvin]
    split <;> simp_all
  · cases h

theorem getValueOut_go_eq_ok {v : CAmount} {l : List CTxOut} {r : CAmount}
    (h : getValueOut.go v l = .ok r) : r = v + (l.map CTxOut.nValue).sum := by
  induction l generalizing v with
  | nil => simpa [getValueOut.go] using h.symm
  | cons o l ih =>
    simp only [getValueOut.go] at h
    split at h
    · cases h
    · rw [ih h, List.map_cons, List.sum_cons]
      ring

/-- When `GetValueOut` returns, it returns the sum of the output values. -/
theorem getValueOut_eq_ok {tx : CTransaction} {r : CAmount} (h : tx.getValueOut = .ok r) :
    r = tx.valueOut := by
  simpa [valueOut] using getValueOut_go_eq_ok h

end CTransaction

end NowpConsensus
