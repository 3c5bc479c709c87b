import NowpConsensus.Primitives.Serialize
import NowpConsensus.Lib.Codec

/-!
# Reading transactions

`UnserializeTransaction` (`primitives/transaction.h`) reads what `SerializeTransaction` writes:
the version, the fork's timestamp for a version below 3, and then either the basic format (the
inputs, the outputs and the lock time) or, in a stream that carries witnesses, the extended
one, which starts with an empty input vector (the dummy) and a flags byte and puts the inputs'
witness stacks before the lock time. The reader tells the two apart by the input vector it reads
first: an empty one, in a stream with witnesses, is the dummy. It refuses a witness record whose
stacks are all empty and a flag it does not know, and `ReadCompactSize` refuses every size above
`MAX_SIZE`, so a transaction with a larger vector or script does not read back.

* `UnserializeTransaction_SerializeTransaction`: a transaction with inputs, the timestamp zero
  from version 3 on, and every vector and script within `MAX_SIZE`, reads back from what
  `SerializeTransaction` writes for it, without its witnesses in a stream that drops them.
* `SerializeTransaction_of_UnserializeTransaction`: whatever `UnserializeTransaction` reads, the
  bytes it consumed are those `SerializeTransaction` writes for it.
* `UnserializeTransaction_SerializeTransaction_of_lt`: a transaction whose first input has a
  script longer than `MAX_SIZE` is written, but does not read back.
-/

namespace NowpConsensus

open Bytes Codec

/-! ## Vectors and scripts -/

/-- `Unserialize` of a `std::vector<unsigned char>` or a byte `prevector` (a `CScript`): the
size, then as many bytes. -/
def unser_bytes (s : List UInt8) : Except Abort (List UInt8 × List UInt8) := do
  let (nSize, s) ← ReadCompactSize s
  readBytes nSize s

/-- `VectorFormatter::Unser`: the size, then as many elements read by `Unser`. -/
def VectorFormatter.Unser {α : Type} (Unser : List UInt8 → Except Abort (α × List UInt8))
    (s : List UInt8) : Except Abort (List α × List UInt8) := do
  let (size, s) ← ReadCompactSize s
  readN Unser size s

/-- `VectorFormatter::Ser` with an element writer that may fail: the size, then each element. -/
def VectorFormatter.Ser {α : Type} (Ser : α → Except Abort (List UInt8)) (v : List α) :
    Except Abort (List UInt8) := do
  let elems ← v.mapM Ser
  pure (compactSize v.length ++ elems.flatten)

theorem unser_bytes_ser {b : List UInt8} (h : b.length ≤ MAX_SIZE) (rest : List UInt8) :
    unser_bytes (ser_bytes b ++ rest) = .ok (b, rest) := by
  rw [unser_bytes, ser_bytes, vector, List.flatMap_singleton', List.append_assoc,
    ReadCompactSize_compactSize h, Except.bind_ok_left]
  exact readBytes_append b rest

/-- A byte vector longer than `MAX_SIZE` is written, and its size refused when it is read. -/
theorem unser_bytes_ser_of_lt {b : List UInt8} (h : MAX_SIZE < b.length)
    (h32 : b.length ≤ 0xffffffff) (rest : List UInt8) :
    unser_bytes (ser_bytes b ++ rest) = .error (.exception "ReadCompactSize(): size too large") := by
  rw [unser_bytes, ser_bytes, vector, List.flatMap_singleton', List.append_assoc,
    ReadCompactSize_compactSize_of_lt h h32, Except.bind_error_left]

theorem unser_bytes_eq_ok {b s rest : List UInt8} (h : unser_bytes s = .ok (b, rest)) :
    b.length ≤ MAX_SIZE ∧ s = ser_bytes b ++ rest := by
  obtain ⟨⟨nSize, s₁⟩, hsize, hb⟩ := Except.bind_eq_ok.mp h
  obtain ⟨hmax, rfl⟩ := ReadCompactSize_eq_ok hsize
  obtain ⟨rfl, rfl⟩ := readBytes_eq_ok hb
  exact ⟨hmax, by rw [ser_bytes, vector, List.flatMap_singleton', List.append_assoc]⟩

namespace VectorFormatter

variable {α γ : Type} {Unser : List UInt8 → Except Abort (α × List UInt8)}

/-- A vector of at most `MAX_SIZE` elements reads back element by element. -/
theorem Unser_vector {w : γ → List UInt8} {f : γ → α} {l : List γ} (hlen : l.length ≤ MAX_SIZE)
    (h : ∀ x ∈ l, ∀ rest, Unser (w x ++ rest) = .ok (f x, rest)) (rest : List UInt8) :
    VectorFormatter.Unser Unser (vector w l ++ rest) = .ok (l.map f, rest) := by
  rw [VectorFormatter.Unser, vector, List.append_assoc, ReadCompactSize_compactSize hlen,
    Except.bind_ok_left]
  exact readN_flatMap h rest

/-- What `Unser` reads is a vector of at most `MAX_SIZE` elements, when the element reader reads
only what is written for its value. -/
theorem Unser_eq_ok {w : α → List UInt8} {P : α → Prop}
    (h : ∀ {s x rest}, Unser s = .ok (x, rest) → P x ∧ s = w x ++ rest) {s rest : List UInt8}
    {xs : List α} (hr : VectorFormatter.Unser Unser s = .ok (xs, rest)) :
    (∀ x ∈ xs, P x) ∧ s = vector w xs ++ rest := by
  obtain ⟨⟨size, s₁⟩, hsize, hxs⟩ := Except.bind_eq_ok.mp hr
  obtain ⟨-, rfl⟩ := ReadCompactSize_eq_ok hsize
  obtain ⟨hP, hlen, rfl⟩ := readN_eq_ok h hxs
  exact ⟨hP, by rw [vector, hlen, List.append_assoc]⟩

/-- At most `MAX_SIZE` values, each of which reads back as itself, read back as a vector. -/
theorem readsBack {Ser : α → Except Abort (List UInt8)} {l : List α} (hlen : l.length ≤ MAX_SIZE)
    (h : ∀ x ∈ l, ReadsBack Ser Unser x x) :
    ReadsBack (VectorFormatter.Ser Ser) (VectorFormatter.Unser Unser) l l := by
  obtain ⟨bs, hbs, hr⟩ := readN_mapM h
  refine ⟨compactSize l.length ++ bs.flatten, by rw [VectorFormatter.Ser, hbs]; rfl,
    fun rest => ?_⟩
  rw [VectorFormatter.Unser, List.append_assoc, ReadCompactSize_compactSize hlen,
    Except.bind_ok_left]
  exact hr rest

/-- A vector whose first element is refused is refused. -/
theorem Unser_vector_of_error {w : γ → List UInt8} {x : γ} {l : List γ} {e : Abort}
    (hlen : (x :: l).length ≤ MAX_SIZE) (h : ∀ rest, Unser (w x ++ rest) = .error e)
    (rest : List UInt8) :
    VectorFormatter.Unser Unser (vector w (x :: l) ++ rest) = .error e := by
  rw [VectorFormatter.Unser, vector, List.append_assoc, ReadCompactSize_compactSize hlen,
    Except.bind_ok_left, List.length_cons, List.flatMap_cons, List.append_assoc]
  dsimp only
  rw [readN, h, Except.bind_error_left]

end VectorFormatter

/-! ## Inputs and outputs -/

/-- An input without its witness: what `CTxIn`'s own serialisation carries. -/
def CTxIn.dropWitness (txin : CTxIn) : CTxIn := { txin with scriptWitness := [] }

/-- A transaction without its witnesses: what a stream without witnesses carries. -/
def CTransaction.dropWitness (tx : CTransaction) : CTransaction :=
  { tx with vin := tx.vin.map CTxIn.dropWitness }

/-- `CTxIn`'s `SERIALIZE_METHODS`, reading into a new input: the witness stays empty. -/
def CTxIn.unserialize (s : List UInt8) : Except Abort (CTxIn × List UInt8) := do
  let (prevout, s) ← COutPoint.unserialize s
  let (scriptSig, s) ← unser_bytes s
  let (nSequence, s) ← unser_uint32 s
  pure (
    { prevout := prevout, scriptSig := scriptSig, nSequence := nSequence, scriptWitness := [] },
    s)

/-- `CTxOut`'s `SERIALIZE_METHODS`, reading. -/
def CTxOut.unserialize (s : List UInt8) : Except Abort (CTxOut × List UInt8) := do
  let (nValue, s) ← unser_int64 s
  let (scriptPubKey, s) ← unser_bytes s
  pure ({ nValue := nValue.toInt, scriptPubKey := scriptPubKey }, s)

@[simp]
theorem CTxIn.serialize_dropWitness (txin : CTxIn) : txin.dropWitness.serialize = txin.serialize :=
  rfl

theorem CTxIn.unserialize_serialize {txin : CTxIn} (h : txin.scriptSig.length ≤ MAX_SIZE)
    (rest : List UInt8) :
    CTxIn.unserialize (txin.serialize ++ rest) = .ok (txin.dropWitness, rest) := by
  simp only [CTxIn.unserialize, CTxIn.serialize, List.append_assoc,
    COutPoint.unserialize_serialize, unser_bytes_ser h, unser_uint32_ser, Except.bind_ok_left]
  rfl

theorem CTxIn.unserialize_eq_ok {txin : CTxIn} {s rest : List UInt8}
    (h : CTxIn.unserialize s = .ok (txin, rest)) :
    txin.scriptWitness = [] ∧ s = txin.serialize ++ rest := by
  obtain ⟨⟨prevout, s₁⟩, hp, h₁⟩ := Except.bind_eq_ok.mp h
  obtain ⟨⟨scriptSig, s₂⟩, hs, h₂⟩ := Except.bind_eq_ok.mp h₁
  obtain ⟨⟨nSequence, s₃⟩, hn, h₃⟩ := Except.bind_eq_ok.mp h₂
  cases h₃
  refine ⟨rfl, ?_⟩
  rw [COutPoint.unserialize_eq_ok hp, (unser_bytes_eq_ok hs).2, unser_uint32_eq_ok hn]
  simp only [CTxIn.serialize, List.append_assoc]

/-- An input whose script is longer than `MAX_SIZE` is refused when it is read. -/
theorem CTxIn.unserialize_serialize_of_lt {txin : CTxIn} (h : MAX_SIZE < txin.scriptSig.length)
    (h32 : txin.scriptSig.length ≤ 0xffffffff) (rest : List UInt8) :
    CTxIn.unserialize (txin.serialize ++ rest) =
      .error (.exception "ReadCompactSize(): size too large") := by
  simp only [CTxIn.unserialize, CTxIn.serialize, List.append_assoc,
    COutPoint.unserialize_serialize, unser_bytes_ser_of_lt h h32, Except.bind_ok_left,
    Except.bind_error_left]

/-- An output whose value is one of `int64_t` reads back. -/
theorem CTxOut.unserialize_serialize {o : CTxOut} (h : o.scriptPubKey.length ≤ MAX_SIZE)
    (hlo : -2 ^ 63 ≤ o.nValue) (hhi : o.nValue < 2 ^ 63) (rest : List UInt8) :
    CTxOut.unserialize (o.serialize ++ rest) = .ok (o, rest) := by
  have hv := Int64.toInt_ofInt_of_le hlo hhi
  have hread := unser_int64_ser (Int64.ofInt o.nValue) (ser_bytes o.scriptPubKey ++ rest)
  rw [hv] at hread
  simp only [CTxOut.unserialize, CTxOut.serialize, List.append_assoc, hread, unser_bytes_ser h,
    Except.bind_ok_left, hv]
  rfl

theorem CTxOut.unserialize_eq_ok {o : CTxOut} {s rest : List UInt8}
    (h : CTxOut.unserialize s = .ok (o, rest)) : s = o.serialize ++ rest := by
  obtain ⟨⟨nValue, s₁⟩, hv, h₁⟩ := Except.bind_eq_ok.mp h
  obtain ⟨⟨scriptPubKey, s₂⟩, hs, h₂⟩ := Except.bind_eq_ok.mp h₁
  cases h₂
  rw [unser_int64_eq_ok hv, (unser_bytes_eq_ok hs).2, CTxOut.serialize, List.append_assoc]

/-! ## Witnesses -/

/-- `s >> tx.vin[i].scriptWitness.stack` for each input in turn. -/
def unserWitnesses : List CTxIn → List UInt8 → Except Abort (List CTxIn × List UInt8)
  | [], s => .ok ([], s)
  | txin :: vin, s => do
    let (stack, s) ← VectorFormatter.Unser unser_bytes s
    let (vin, s) ← unserWitnesses vin s
    pure ({ txin with scriptWitness := stack } :: vin, s)

/-- Witness stacks with at most `MAX_SIZE` items of at most `MAX_SIZE` bytes each read back into
the inputs they belong to. -/
theorem unserWitnesses_flatMap {vin : List CTxIn}
    (h : ∀ txin ∈ vin, txin.scriptWitness.length ≤ MAX_SIZE ∧
      ∀ item ∈ txin.scriptWitness, item.length ≤ MAX_SIZE) (rest : List UInt8) :
    unserWitnesses (vin.map CTxIn.dropWitness)
      (vin.flatMap (fun txin => vector ser_bytes txin.scriptWitness) ++ rest) = .ok (vin, rest) := by
  induction vin with
  | nil => rfl
  | cons txin vin ih =>
    obtain ⟨hlen, hitems⟩ := h txin List.mem_cons_self
    rw [List.map_cons, List.flatMap_cons, List.append_assoc, unserWitnesses,
      VectorFormatter.Unser_vector hlen fun item hi rest => unser_bytes_ser (hitems item hi) rest,
      Except.bind_ok_left]
    dsimp only
    rw [ih fun t ht => h t (List.mem_cons_of_mem txin ht), Except.bind_ok_left, List.map_id']
    rfl

theorem unserWitnesses_eq_ok {vin vin' : List CTxIn} {s rest : List UInt8}
    (h : unserWitnesses vin s = .ok (vin', rest)) :
    vin'.map CTxIn.dropWitness = vin.map CTxIn.dropWitness ∧
      s = vin'.flatMap (fun txin => vector ser_bytes txin.scriptWitness) ++ rest := by
  induction vin generalizing s vin' with
  | nil =>
    cases h
    exact ⟨rfl, rfl⟩
  | cons txin vin ih =>
    obtain ⟨⟨stack, s₁⟩, hstack, h₁⟩ := Except.bind_eq_ok.mp h
    obtain ⟨⟨vin'', s₂⟩, hvin, h₂⟩ := Except.bind_eq_ok.mp h₁
    cases h₂
    obtain ⟨hmap, rfl⟩ := ih hvin
    obtain ⟨-, rfl⟩ := VectorFormatter.Unser_eq_ok (P := fun _ => True)
      (fun hb => ⟨trivial, (unser_bytes_eq_ok hb).2⟩) hstack
    refine ⟨?_, by rw [List.flatMap_cons, List.append_assoc]⟩
    rw [List.map_cons, List.map_cons, hmap]
    rfl

/-! ## Transactions -/

/-- A transaction every vector and script of which `ReadCompactSize` accepts, in a stream that
writes witnesses exactly when `fAllowWitness`, and whose amounts are values of `int64_t`. -/
@[mk_iff]
structure CTransaction.FitsMaxSize (tx : CTransaction) (fAllowWitness : Bool) : Prop where
  vin_length : tx.vin.length ≤ MAX_SIZE
  vout_length : tx.vout.length ≤ MAX_SIZE
  scriptSig_length : ∀ txin ∈ tx.vin, txin.scriptSig.length ≤ MAX_SIZE
  scriptPubKey_length : ∀ txout ∈ tx.vout, txout.scriptPubKey.length ≤ MAX_SIZE
  nValue_mem : ∀ txout ∈ tx.vout, -2 ^ 63 ≤ txout.nValue ∧ txout.nValue < 2 ^ 63
  scriptWitness_length : fAllowWitness = true → ∀ txin ∈ tx.vin,
    txin.scriptWitness.length ≤ MAX_SIZE ∧ ∀ item ∈ txin.scriptWitness, item.length ≤ MAX_SIZE

theorem ser_readdata8_cons (b : UInt8) (rest : List UInt8) :
    ser_readdata8 (b :: rest) = .ok (b.toNat, rest) := by
  have h := ser_readdata_leBytes 1 b.toNat rest
  rwa [show leBytes 1 b.toNat ++ rest = b :: rest by simp [leBytes],
    Nat.mod_eq_of_lt (show b.toNat < 256 ^ 1 from b.toNat_lt)] at h

/-- The timestamp, written and read for a version below 3, and zero from version 3 on. -/
theorem unser_nTime {nVersion : Int32} {nTime : UInt32} (h : 3 ≤ nVersion → nTime = 0)
    (rest : List UInt8) :
    (if nVersion < 3 then unser_uint32 ((if nVersion < 3 then ser_uint32 nTime else []) ++ rest)
      else pure (0, (if nVersion < 3 then ser_uint32 nTime else []) ++ rest)) =
      .ok (nTime, rest) := by
  by_cases hv : nVersion < 3
  · rw [if_pos hv, if_pos hv, unser_uint32_ser]
  · rw [if_neg hv, if_neg hv, h (Int32.not_lt.mp hv)]
    rfl

/-- Inputs without witnesses are what their own serialisation carries. -/
theorem map_dropWitness_of_HasWitness_eq_false {tx : CTransaction} (h : tx.HasWitness = false) :
    tx.vin.map CTxIn.dropWitness = tx.vin := by
  rw [CTransaction.HasWitness, List.any_eq_false] at h
  conv_rhs => rw [← List.map_id tx.vin]
  refine List.map_congr_left fun txin htxin => ?_
  have hw : txin.scriptWitness = [] := by simpa using h txin htxin
  rw [CTxIn.dropWitness, ← hw]
  rfl

namespace UnserializeTransaction

/-- What follows the first input vector `vin`: in a stream with witnesses an empty one is the
dummy, and the flags byte comes next, then, when it is not zero, the inputs and the outputs;
otherwise the outputs come next. The flags, the inputs and the outputs. -/
def readBody (fAllowWitness : Bool) (vin : List CTxIn) (s : List UInt8) :
    Except Abort (UInt8 × List CTxIn × List CTxOut × List UInt8) :=
  if vin.length = 0 ∧ fAllowWitness = true then do
    let (flags, s) ← ser_readdata8 s
    let flags : UInt8 := UInt8.ofNat flags
    if flags ≠ 0 then do
      let (vin, s) ← VectorFormatter.Unser CTxIn.unserialize s
      let (vout, s) ← VectorFormatter.Unser CTxOut.unserialize s
      pure (flags, vin, vout, s)
    else pure (flags, vin, [], s)
  else do
    let (vout, s) ← VectorFormatter.Unser CTxOut.unserialize s
    pure (0, vin, vout, s)

/-- The witness record, read into the inputs of `tx` when the flags ask for it in a stream with
witnesses; a record whose stacks are all empty is refused. The flags left, and `tx`. -/
def readWitness (fAllowWitness : Bool) (flags : UInt8) (tx : CTransaction) (s : List UInt8) :
    Except Abort (UInt8 × CTransaction × List UInt8) :=
  if flags &&& 1 ≠ 0 ∧ fAllowWitness = true then do
    let (vin, s) ← unserWitnesses tx.vin s
    let tx := { tx with vin := vin }
    if !tx.HasWitness then .error (.exception "Superfluous witness record")
    else pure (flags ^^^ 1, tx, s)
  else pure (flags, tx, s)

end UnserializeTransaction

/-- `UnserializeTransaction(tx, s)`, in a stream that reads witnesses exactly when
`fAllowWitness`. -/
def UnserializeTransaction (fAllowWitness : Bool) (s : List UInt8) :
    Except Abort (CTransaction × List UInt8) := do
  let (nVersion, s) ← unser_int32 s
  let (nTime, s) ← (if nVersion < 3 then unser_uint32 s else pure (0, s))
  let (vin, s) ← VectorFormatter.Unser CTxIn.unserialize s
  let (flags, vin, vout, s) ← UnserializeTransaction.readBody fAllowWitness vin s
  let (flags, tx, s) ← UnserializeTransaction.readWitness fAllowWitness flags
    { vin := vin, vout := vout, nVersion := nVersion, nTime := nTime, nLockTime := 0 } s
  if flags ≠ 0 then .error (.exception "Unknown transaction optional data")
  else do
    let (nLockTime, s) ← unser_uint32 s
    pure ({ tx with nLockTime := nLockTime }, s)

section RoundTrip

variable {tx : CTransaction} {fAllowWitness : Bool}

theorem CTransaction.FitsMaxSize.unser_vin (h : tx.FitsMaxSize fAllowWitness)
    (rest : List UInt8) :
    VectorFormatter.Unser CTxIn.unserialize (vector CTxIn.serialize tx.vin ++ rest) =
      .ok (tx.vin.map CTxIn.dropWitness, rest) :=
  VectorFormatter.Unser_vector h.vin_length
    (fun txin htxin rest => CTxIn.unserialize_serialize (h.scriptSig_length txin htxin) rest) rest

theorem CTransaction.FitsMaxSize.unser_vout (h : tx.FitsMaxSize fAllowWitness)
    (rest : List UInt8) :
    VectorFormatter.Unser CTxOut.unserialize (vector CTxOut.serialize tx.vout ++ rest) =
      .ok (tx.vout, rest) := by
  have hvout := VectorFormatter.Unser_vector h.vout_length (fun o ho rest =>
    CTxOut.unserialize_serialize (h.scriptPubKey_length o ho) (h.nValue_mem o ho).1
      (h.nValue_mem o ho).2 rest) rest
  rwa [List.map_id'] at hvout

/-- The dummy: an empty input vector. -/
theorem unser_vin_nil (rest : List UInt8) :
    VectorFormatter.Unser CTxIn.unserialize (vector CTxIn.serialize [] ++ rest) = .ok ([], rest) :=
  VectorFormatter.Unser_vector (f := CTxIn.dropWitness) (by decide)
    (fun _ h => absurd h List.not_mem_nil) rest

namespace UnserializeTransaction

/-- After the dummy, the flags byte `1`, the inputs and the outputs. -/
theorem readBody_extended (h : tx.FitsMaxSize fAllowWitness) (rest : List UInt8) :
    readBody true [] ([1] ++ (vector CTxIn.serialize tx.vin ++
      (vector CTxOut.serialize tx.vout ++ rest))) =
      .ok (1, tx.vin.map CTxIn.dropWitness, tx.vout, rest) := by
  simp only [readBody, List.length_nil, and_self, ↓reduceIte, List.singleton_append,
    ser_readdata8_cons, Except.bind_ok_left, UInt8.ofNat_toNat, h.unser_vin, h.unser_vout]
  rfl

/-- After inputs that are not the dummy, the outputs. -/
theorem readBody_basic {vin : List CTxIn} (hvin : ¬(vin.length = 0 ∧ fAllowWitness = true))
    (h : tx.FitsMaxSize fAllowWitness) (rest : List UInt8) :
    readBody fAllowWitness vin (vector CTxOut.serialize tx.vout ++ rest) =
      .ok (0, vin, tx.vout, rest) := by
  simp only [readBody, if_neg hvin, h.unser_vout, Except.bind_ok_left]
  rfl

/-- No witness flag: nothing is read. -/
theorem readWitness_zero (fAllowWitness : Bool) (tx : CTransaction) (s : List UInt8) :
    readWitness fAllowWitness 0 tx s = .ok (0, tx, s) := by
  have hflag : ¬((0 : UInt8) &&& 1 ≠ 0 ∧ fAllowWitness = true) := fun h => h.1 (by decide)
  rw [readWitness, if_neg hflag]
  rfl

/-- The witness record of inputs with witnesses, read into the same inputs without them. -/
theorem readWitness_extended {vin : List CTxIn}
    (hlen : ∀ txin ∈ vin, txin.scriptWitness.length ≤ MAX_SIZE ∧
      ∀ item ∈ txin.scriptWitness, item.length ≤ MAX_SIZE)
    (hw : (vin.any fun txin => !txin.scriptWitness.isEmpty) = true) (vout : List CTxOut)
    (nVersion : Int32) (nTime nLockTime : UInt32) (rest : List UInt8) :
    readWitness true 1
        { vin := vin.map CTxIn.dropWitness, vout := vout, nVersion := nVersion, nTime := nTime,
          nLockTime := nLockTime }
        (vin.flatMap (fun txin => vector ser_bytes txin.scriptWitness) ++ rest) =
      .ok (0,
        { vin := vin, vout := vout, nVersion := nVersion, nTime := nTime, nLockTime := nLockTime },
        rest) := by
  have hflag : (1 : UInt8) &&& 1 ≠ 0 ∧ true = true := ⟨by decide, rfl⟩
  rw [readWitness, if_pos hflag]
  simp only [unserWitnesses_flatMap hlen, Except.bind_ok_left, CTransaction.HasWitness, hw,
    Bool.not_true, Bool.false_eq_true, ↓reduceIte]
  rfl

end UnserializeTransaction

/-- **A transaction reads back from what `SerializeTransaction` writes for it**, without its
witnesses in a stream that drops them, when it has inputs, its timestamp is zero from version 3
on, and every vector and script fits `MAX_SIZE`. -/
theorem UnserializeTransaction_SerializeTransaction (hvin : tx.vin ≠ [])
    (htime : 3 ≤ tx.nVersion → tx.nTime = 0) (h : tx.FitsMaxSize fAllowWitness)
    (rest : List UInt8) :
    UnserializeTransaction fAllowWitness (SerializeTransaction tx fAllowWitness ++ rest) =
      .ok (if fAllowWitness then tx else tx.dropWitness, rest) := by
  cases hw : (fAllowWitness && tx.HasWitness) with
  | true =>
    obtain ⟨rfl, hw⟩ := Bool.and_eq_true_iff.mp hw
    simp only [SerializeTransaction, hw, ↓reduceIte, List.append_assoc,
      UnserializeTransaction, unser_int32_ser, Except.bind_ok_left, unser_nTime htime,
      unser_vin_nil, UnserializeTransaction.readBody_extended h,
      UnserializeTransaction.readWitness_extended (h.scriptWitness_length rfl) hw, unser_uint32_ser]
    rfl
  | false =>
    have hbasic : ¬((tx.vin.map CTxIn.dropWitness).length = 0 ∧ fAllowWitness = true) := by
      rw [List.length_map, List.length_eq_zero_iff]
      exact fun h' => hvin h'.1
    simp only [SerializeTransaction, hw, Bool.false_eq_true, ↓reduceIte, List.nil_append,
      List.append_assoc, UnserializeTransaction, unser_int32_ser, Except.bind_ok_left,
      unser_nTime htime, h.unser_vin, UnserializeTransaction.readBody_basic hbasic h,
      UnserializeTransaction.readWitness_zero, unser_uint32_ser]
    cases fAllowWitness with
    | false => rfl
    | true =>
      rw [map_dropWitness_of_HasWitness_eq_false (by simpa using hw)]
      rfl

/-- A transaction written in the basic format whose first input has a script longer than
`MAX_SIZE` does not read back: `ReadCompactSize` refuses the script's size. -/
theorem UnserializeTransaction_SerializeTransaction_of_lt {txin : CTxIn} {vin : List CTxIn}
    (hvin : tx.vin = txin :: vin) (hlen : tx.vin.length ≤ MAX_SIZE) (hw : tx.HasWitness = false)
    (htime : 3 ≤ tx.nVersion → tx.nTime = 0) (h : MAX_SIZE < txin.scriptSig.length)
    (h32 : txin.scriptSig.length ≤ 0xffffffff) (rest : List UInt8) :
    UnserializeTransaction fAllowWitness (SerializeTransaction tx fAllowWitness ++ rest) =
      .error (.exception "ReadCompactSize(): size too large") := by
  rw [hvin] at hlen
  simp only [SerializeTransaction, hw, Bool.and_false, Bool.false_eq_true, ↓reduceIte,
    List.nil_append, List.append_assoc, UnserializeTransaction, unser_int32_ser,
    Except.bind_ok_left, unser_nTime htime, hvin,
    VectorFormatter.Unser_vector_of_error hlen (CTxIn.unserialize_serialize_of_lt h h32),
    Except.bind_error_left]

/-! ## What the reader accepts -/

theorem unser_nTime_eq_ok {nVersion : Int32} {nTime : UInt32} {s rest : List UInt8}
    (h : (if nVersion < 3 then unser_uint32 s else pure (0, s)) = .ok (nTime, rest)) :
    s = (if nVersion < 3 then ser_uint32 nTime else []) ++ rest := by
  split_ifs at h ⊢
  · exact unser_uint32_eq_ok h
  · cases h
    rfl

/-- Inputs read by their own serialisation, whatever witnesses they carry. -/
theorem vector_serialize_congr {vin vin' : List CTxIn}
    (h : vin'.map CTxIn.dropWitness = vin.map CTxIn.dropWitness) :
    vector CTxIn.serialize vin' = vector CTxIn.serialize vin := by
  have hw : ∀ l : List CTxIn,
      vector CTxIn.serialize l = vector CTxIn.serialize (l.map CTxIn.dropWitness) := by
    intro l
    rw [vector, vector, List.length_map, List.flatMap_map]
    rfl
  rw [hw vin', h, ← hw vin]

namespace UnserializeTransaction

/-- What follows the first input vector: in a stream with witnesses, after the dummy, the flags
byte and, when it is not zero, inputs without witnesses and outputs, and when it is, neither;
otherwise the outputs. -/
theorem readBody_eq_ok {vin₀ vin : List CTxIn} {vout : List CTxOut} {flags : UInt8}
    {s rest : List UInt8} (h : readBody fAllowWitness vin₀ s = .ok (flags, vin, vout, rest)) :
    (vin₀.length = 0 ∧ fAllowWitness = true ∧
      (flags ≠ 0 → (∀ txin ∈ vin, txin.scriptWitness = []) ∧
        s = [flags] ++ (vector CTxIn.serialize vin ++ (vector CTxOut.serialize vout ++ rest))) ∧
      (flags = 0 → vin = vin₀ ∧ vout = [] ∧ s = [flags] ++ rest)) ∨
    (¬(vin₀.length = 0 ∧ fAllowWitness = true) ∧ flags = 0 ∧ vin = vin₀ ∧
      s = vector CTxOut.serialize vout ++ rest) := by
  unfold readBody at h
  split_ifs at h with hdummy
  · obtain ⟨⟨n, s₁⟩, hn, h₁⟩ := Except.bind_eq_ok.mp h
    obtain ⟨hlt, rfl⟩ := ser_readdata_eq_ok hn
    have hbyte : leBytes 1 n = [UInt8.ofNat n] := rfl
    dsimp only at h₁
    split_ifs at h₁ with hflags
    · obtain ⟨⟨vin', s₂⟩, hvin, h₂⟩ := Except.bind_eq_ok.mp h₁
      obtain ⟨⟨vout', s₃⟩, hvout, h₃⟩ := Except.bind_eq_ok.mp h₂
      cases h₃
      obtain ⟨hw, rfl⟩ := VectorFormatter.Unser_eq_ok (fun h => CTxIn.unserialize_eq_ok h) hvin
      obtain ⟨-, rfl⟩ := VectorFormatter.Unser_eq_ok (P := fun _ => True)
        (fun h => ⟨trivial, CTxOut.unserialize_eq_ok h⟩) hvout
      refine .inl ⟨hdummy.1, hdummy.2, fun _ => ⟨hw, ?_⟩, fun h0 => absurd h0 hflags⟩
      rw [hbyte]
    · cases h₁
      exact .inl ⟨hdummy.1, hdummy.2, fun h0 => absurd (not_not.mp hflags) h0,
        fun _ => ⟨rfl, rfl, by rw [hbyte]⟩⟩
  · obtain ⟨⟨vout', s₁⟩, hvout, h₁⟩ := Except.bind_eq_ok.mp h
    cases h₁
    obtain ⟨-, rfl⟩ := VectorFormatter.Unser_eq_ok (P := fun _ => True)
      (fun h => ⟨trivial, CTxOut.unserialize_eq_ok h⟩) hvout
    exact .inr ⟨hdummy, rfl, rfl, rfl⟩

/-- The witness record, when the flags ask for it: stacks read into the inputs, which then have
a witness; otherwise nothing is read. -/
theorem readWitness_eq_ok {flags flags' : UInt8} {tx tx' : CTransaction} {s rest : List UInt8}
    (h : readWitness fAllowWitness flags tx s = .ok (flags', tx', rest)) :
    (flags &&& 1 ≠ 0 ∧ fAllowWitness = true ∧ flags' = flags ^^^ 1 ∧ tx'.HasWitness = true ∧
      tx'.vin.map CTxIn.dropWitness = tx.vin.map CTxIn.dropWitness ∧
      tx' = { tx with vin := tx'.vin } ∧
      s = tx'.vin.flatMap (fun txin => vector ser_bytes txin.scriptWitness) ++ rest) ∨
    (¬(flags &&& 1 ≠ 0 ∧ fAllowWitness = true) ∧ flags' = flags ∧ tx' = tx ∧ rest = s) := by
  unfold readWitness at h
  split_ifs at h with hflags
  · obtain ⟨⟨vin, s₁⟩, hvin, h₁⟩ := Except.bind_eq_ok.mp h
    obtain ⟨hw, h₁⟩ := Except.ite_error_eq_ok.mp h₁
    cases h₁
    obtain ⟨hmap, rfl⟩ := unserWitnesses_eq_ok hvin
    exact .inl ⟨hflags.1, hflags.2, rfl, by simpa using hw, hmap, rfl, rfl⟩
  · cases h
    exact .inr ⟨hflags, rfl, rfl, rfl⟩

end UnserializeTransaction

/-- **Whatever `UnserializeTransaction` reads, it read from the bytes `SerializeTransaction` writes
for it.** -/
theorem SerializeTransaction_of_UnserializeTransaction {s rest : List UInt8} {tx : CTransaction}
    (h : UnserializeTransaction fAllowWitness s = .ok (tx, rest)) :
    SerializeTransaction tx fAllowWitness ++ rest = s := by
  obtain ⟨⟨nVersion, s₁⟩, hv, h₁⟩ := Except.bind_eq_ok.mp h
  obtain ⟨⟨nTime, s₂⟩, ht, h₂⟩ := Except.bind_eq_ok.mp h₁
  obtain ⟨⟨vin₀, s₃⟩, hvin₀, h₃⟩ := Except.bind_eq_ok.mp h₂
  obtain ⟨⟨flags, vin, vout, s₄⟩, hbody, h₄⟩ := Except.bind_eq_ok.mp h₃
  obtain ⟨⟨flags', tx', s₅⟩, hwit, h₅⟩ := Except.bind_eq_ok.mp h₄
  obtain ⟨hflags', h₅⟩ := Except.ite_error_eq_ok.mp h₅
  obtain ⟨⟨nLockTime, s₆⟩, hlt, h₆⟩ := Except.bind_eq_ok.mp h₅
  cases h₆
  obtain ⟨hw₀, rfl⟩ := VectorFormatter.Unser_eq_ok (fun h => CTxIn.unserialize_eq_ok h) hvin₀
  obtain rfl := unser_uint32_eq_ok hlt
  rw [unser_int32_eq_ok hv, unser_nTime_eq_ok ht]
  obtain rfl : flags' = 0 := not_not.mp hflags'
  rcases UnserializeTransaction.readBody_eq_ok hbody with ⟨hnil, rfl, hne, hzero⟩ | ⟨hnot, rfl, rfl, rfl⟩
  · rw [List.length_eq_zero_iff] at hnil
    subst hnil
    by_cases hflags : flags = 0
    · obtain ⟨rfl, rfl, rfl⟩ := hzero hflags
      subst hflags
      rcases UnserializeTransaction.readWitness_eq_ok hwit with ⟨hbit, -⟩ | ⟨-, -, rfl, rfl⟩
      · exact (hbit (by decide)).elim
      · simp only [SerializeTransaction, CTransaction.HasWitness, List.any_nil, Bool.and_false,
          Bool.false_eq_true, ↓reduceIte, List.nil_append, List.append_assoc]
        rfl
    · obtain ⟨hw, rfl⟩ := hne hflags
      rcases UnserializeTransaction.readWitness_eq_ok hwit with
        ⟨-, -, hx, hHas, hmap, htx', rfl⟩ | ⟨-, rfl, -, -⟩
      · have h1 : flags = 1 := by
          have : flags = flags ^^^ 1 ^^^ 1 := by
            rw [UInt8.xor_assoc, UInt8.xor_self, UInt8.xor_zero]
          rw [this, ← hx]
          rfl
        subst h1
        have hvout : tx'.vout = vout := congrArg CTransaction.vout htx'
        have hver : tx'.nVersion = nVersion := congrArg CTransaction.nVersion htx'
        have htime : tx'.nTime = nTime := congrArg CTransaction.nTime htx'
        dsimp only at hmap
        rw [CTransaction.HasWitness] at hHas
        simp only [SerializeTransaction, CTransaction.HasWitness, hHas, hvout, hver, htime,
          Bool.and_true, ↓reduceIte, vector_serialize_congr hmap, List.append_assoc,
          List.cons_append]
      · exact absurd rfl hflags
  · rcases UnserializeTransaction.readWitness_eq_ok hwit with ⟨hbit, -⟩ | ⟨-, -, rfl, rfl⟩
    · exact (hbit (by decide)).elim
    · have hHas : (vin.any fun txin => !txin.scriptWitness.isEmpty) = false :=
        List.any_eq_false.mpr fun txin htxin => by simp [hw₀ txin htxin]
      simp only [SerializeTransaction, CTransaction.HasWitness, hHas, Bool.and_false,
        Bool.false_eq_true, ↓reduceIte, List.nil_append, List.append_assoc]

end RoundTrip

instance (tx : CTransaction) (fAllowWitness : Bool) : Decidable (tx.FitsMaxSize fAllowWitness) :=
  decidable_of_iff _ (CTransaction.fitsMaxSize_iff tx fAllowWitness).symm

/-- **The transaction codec round-trips**: a transaction with inputs, its timestamp zero from
version 3 on and every vector and script within `MAX_SIZE`, reads back from what
`SerializeTransaction` writes for it, without its witnesses in a stream that drops them; and
whatever `UnserializeTransaction` reads, it read from the bytes `SerializeTransaction` writes. -/
theorem UnserializeTransaction_round_trip :
    (∀ (tx : CTransaction) (fAllowWitness : Bool), tx.vin ≠ [] →
      (3 ≤ tx.nVersion → tx.nTime = 0) → tx.FitsMaxSize fAllowWitness → ∀ rest : List UInt8,
        UnserializeTransaction fAllowWitness (SerializeTransaction tx fAllowWitness ++ rest) =
          .ok (if fAllowWitness then tx else tx.dropWitness, rest)) ∧
    ∀ (fAllowWitness : Bool) (s rest : List UInt8) (tx : CTransaction),
      UnserializeTransaction fAllowWitness s = .ok (tx, rest) →
        SerializeTransaction tx fAllowWitness ++ rest = s :=
  ⟨fun _ _ hvin htime h rest => UnserializeTransaction_SerializeTransaction hvin htime h rest,
    fun _ _ _ _ h => SerializeTransaction_of_UnserializeTransaction h⟩

/-- A version-2 transaction whose one input carries a two-item witness stack reads back, stack
and timestamp included, in a stream with witnesses. -/
theorem UnserializeTransaction_round_trip_witness_stack :
    ∃ tx : CTransaction, tx.HasWitness = true ∧
      UnserializeTransaction true (SerializeTransaction tx true) = .ok (tx, []) := by
  have h := UnserializeTransaction_round_trip.1
    { vin := [{ prevout := ⟨1, 0⟩, scriptSig := [], nSequence := 0xffffffff,
                scriptWitness := [[0x30, 0x44], [0x02]] }],
      vout := [{ nValue := 5000, scriptPubKey := [0x51] }], nVersion := 2, nTime := 1700000000,
      nLockTime := 0 }
    true (by decide) (by decide) (by decide) []
  rw [List.append_nil, if_pos rfl] at h
  exact ⟨_, by decide, h⟩

/-- An input script of `MAX_SIZE + 1` bytes is written, but `ReadCompactSize` refuses its size
when it is read back (here in a stream with witnesses; the one without fails the same way). -/
theorem UnserializeTransaction_oversized_scriptSig :
    UnserializeTransaction true (SerializeTransaction
      { vin := [{ prevout := ⟨0, COutPoint.NULL_INDEX⟩,
                  scriptSig := List.replicate (MAX_SIZE + 1) 0, nSequence := 0xffffffff,
                  scriptWitness := [] }],
        vout := [], nVersion := 3, nTime := 0, nLockTime := 0 } true) =
      .error (.exception "ReadCompactSize(): size too large") := by
  rw [← List.append_nil (SerializeTransaction _ true)]
  exact UnserializeTransaction_SerializeTransaction_of_lt rfl (by decide) (by decide) (by decide)
    (by rw [List.length_replicate]; omega) (by rw [List.length_replicate]; decide) []

end NowpConsensus
