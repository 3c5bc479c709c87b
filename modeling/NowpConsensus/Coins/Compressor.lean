import NowpConsensus.Primitives.VarInt
import Mathlib.Data.List.GetD

/-!
# The compressors of the UTXO set

`compressor.cpp` and `compressor.h`: the compact forms in which the coins database and the undo
files store an output.

* An amount goes through `CompressAmount`, which strips up to nine trailing decimal zeros and
  folds the exponent and the last digit into one number, written as a `VARINT`.
* A script goes through `ScriptCompression`: the six special scripts (pay to a key hash, to a
  script hash, to a compressed key, and to an uncompressed key that is a valid point, stored by
  its `x` and the parity of its `y`) are written as a tag byte and 20 or 32 bytes; any other
  script as its size plus 6 (a `VARINT`) and its bytes.

The elliptic-curve operations are parameters: `IsFullyValid` stands for `CPubKey::IsFullyValid`
on a 65-byte key and `Decompress` for `CPubKey::Decompress` on a 33-byte one.

* `CompressAmount_ok`: `CompressAmount` never fails its assertion;
* `DecompressAmount_CompressAmount`: every amount below `2^60` comes back from its compressed
  form;
* `ScriptCompression.readsBack_long`: a script longer than `MAX_SCRIPT_SIZE` reads back as
  `OP_RETURN` appended to the script it is read into.
* `TxOutCompression.readsBack`: an output whose value is in `[0, MAX_MONEY]` and whose script has
  at most `MAX_SCRIPT_SIZE` bytes reads back from what `TxOutCompression` writes for it, when
  `Decompress` recovers every valid uncompressed key from its `x` and the parity of its `y`.
-/

namespace NowpConsensus

open Bytes Codec

/-! ## Amounts -/

/-- The loop of `CompressAmount`: `while (((n % 10) == 0) && e < 9) { n /= 10; e++; }`. -/
def CompressAmount.loop (n : UInt64) (e : Nat) : UInt64 × Nat :=
  if n % 10 = 0 ∧ e < 9 then loop (n / 10) (e + 1) else (n, e)
termination_by 9 - e

/-- `CompressAmount`: `0` for `0`; otherwise, with `e` zeros stripped off, `d` the last digit
left and `n` the digits before it, `1 + (n*9 + d - 1)*10 + e`, or `1 + (n - 1)*10 + 9` when
nine zeros were stripped. -/
def CompressAmount (n : UInt64) : Except Abort UInt64 :=
  if n = 0 then pure 0
  else
    let (n, e) := CompressAmount.loop n 0
    if e < 9 then
      let d := n % 10
      if ¬(1 ≤ d ∧ d ≤ 9) then .error .assertion
      else pure (1 + (n / 10 * 9 + d - 1) * 10 + UInt64.ofNat e)
    else pure (1 + (n - 1) * 10 + 9)

/-- The loop of `DecompressAmount`: `while (e) { n *= 10; e--; }`. -/
def DecompressAmount.loop : UInt64 → Nat → UInt64
  | n, 0 => n
  | n, e + 1 => loop (n * 10) e

/-- `DecompressAmount`. -/
def DecompressAmount (x : UInt64) : UInt64 :=
  if x = 0 then 0
  else
    let x := x - 1
    let e := x % 10
    let x := x / 10
    let n := if e < 9 then x / 9 * 10 + (x % 9 + 1) else x + 1
    DecompressAmount.loop n e.toNat

theorem CompressAmount.loop_spec {n m : UInt64} {e e' : Nat} (he : e ≤ 9)
    (h : CompressAmount.loop n e = (m, e')) :
    e ≤ e' ∧ e' ≤ 9 ∧ m.toNat * 10 ^ (e' - e) = n.toNat ∧ (e' < 9 → m % 10 ≠ 0) := by
  induction n, e using CompressAmount.loop.induct with
  | case1 n e hc ih =>
    rw [CompressAmount.loop, if_pos hc] at h
    obtain ⟨h₁, h₂, hm, hlast⟩ := ih (by omega) h
    have hn : n.toNat = n.toNat / 10 * 10 := by
      have := congrArg UInt64.toNat hc.1
      simp only [UInt64.toNat_mod, UInt64.toNat_ofNat, Nat.reducePow, Nat.reduceMod] at this
      omega
    refine ⟨by omega, h₂, ?_, hlast⟩
    rw [show e' - e = (e' - (e + 1)) + 1 by omega, Nat.pow_succ, ← Nat.mul_assoc, hm,
      UInt64.toNat_div]
    exact hn.symm
  | case2 n e hc =>
    rw [CompressAmount.loop, if_neg hc] at h
    cases h
    refine ⟨le_refl _, he, by simp, fun he' hm => hc ⟨?_, he'⟩⟩
    exact hm

theorem DecompressAmount.loop_toNat (n : UInt64) (e : Nat) (h : n.toNat * 10 ^ e < 2 ^ 64) :
    (DecompressAmount.loop n e).toNat = n.toNat * 10 ^ e := by
  induction e generalizing n with
  | zero => simp [DecompressAmount.loop]
  | succ e ih =>
    have h10 : n.toNat * 10 < 2 ^ 64 := by
      have : 10 ≤ 10 ^ (e + 1) := Nat.le_self_pow (by omega) 10
      calc n.toNat * 10 ≤ n.toNat * 10 ^ (e + 1) := Nat.mul_le_mul_left _ this
        _ < 2 ^ 64 := h
    have hmul : (n * 10).toNat = n.toNat * 10 := by
      simp only [UInt64.toNat_mul, UInt64.toNat_ofNat, Nat.reducePow, Nat.reduceMod]
      omega
    rw [DecompressAmount.loop, ih (n * 10) (by rw [hmul, Nat.mul_assoc, ← Nat.pow_succ']; exact h),
      hmul, Nat.mul_assoc, ← Nat.pow_succ']

/-- `(2^64 - 1 + x) % 2^64`, the value of `x - 1` in `uint64_t`. -/
theorem toNat_wrap_sub_one {x : Nat} (h1 : 1 ≤ x) (h2 : x < 18446744073709551616) :
    (18446744073709551616 - 1 + x) % 18446744073709551616 = x - 1 := by
  omega

/-- The arithmetic of `DecompressAmount` undoes that of `CompressAmount` when fewer than nine
zeros were stripped: the code is not zero, and the exponent, the last digit and the digits
before it come back. -/
theorem amountCode_lt_nine {m e : UInt64} (he : e < 9) (hm : m % 10 ≠ 0)
    (hb : m.toNat < 2 ^ 60) :
    1 + (m / 10 * 9 + m % 10 - 1) * 10 + e ≠ 0 ∧
    (1 + (m / 10 * 9 + m % 10 - 1) * 10 + e - 1) % 10 = e ∧
    (1 + (m / 10 * 9 + m % 10 - 1) * 10 + e - 1) / 10 / 9 * 10 +
      ((1 + (m / 10 * 9 + m % 10 - 1) * 10 + e - 1) / 10 % 9 + 1) = m := by
  have he' : e.toNat < 9 := he
  have hm' : m.toNat % 10 ≠ 0 := fun h => hm (UInt64.toNat_inj.mp (by simp [UInt64.toNat_mod, h]))
  simp only [← UInt64.toNat_inj, ne_eq, UInt64.toNat_add, UInt64.toNat_mul, UInt64.toNat_sub,
    UInt64.toNat_div, UInt64.toNat_mod, UInt64.toNat_ofNat, Nat.reducePow, Nat.reduceMod]
  simp (disch := omega) only [Nat.mod_eq_of_lt, toNat_wrap_sub_one]
  omega

/-- The same when nine zeros were stripped. -/
theorem amountCode_nine {m : UInt64} (hm : m ≠ 0) (hb : m.toNat < 2 ^ 60) :
    1 + (m - 1) * 10 + 9 ≠ 0 ∧ (1 + (m - 1) * 10 + 9 - 1) % 10 = 9 ∧
    (1 + (m - 1) * 10 + 9 - 1) / 10 + 1 = m := by
  have hm' : m.toNat ≠ 0 := fun h => hm (UInt64.toNat_inj.mp (by simp [h]))
  simp only [← UInt64.toNat_inj, ne_eq, UInt64.toNat_add, UInt64.toNat_mul, UInt64.toNat_sub,
    UInt64.toNat_div, UInt64.toNat_mod, UInt64.toNat_ofNat, Nat.reducePow, Nat.reduceMod]
  simp (disch := omega) only [Nat.mod_eq_of_lt, toNat_wrap_sub_one]
  omega

/-- The last digit left after the loop of `CompressAmount` passes its assertion when it is not
zero. -/
theorem CompressAmount.digit_bounds {m : UInt64} (hd : m % 10 ≠ 0) : 1 ≤ m % 10 ∧ m % 10 ≤ 9 := by
  have hd' : (m % 10).toNat ≠ 0 := fun h => hd (UInt64.toNat_inj.mp (by rw [h]; rfl))
  simp only [UInt64.le_iff_toNat_le, UInt64.toNat_mod] at hd' ⊢
  constructor <;> simp only [UInt64.toNat_ofNat, Nat.reducePow, Nat.reduceMod] at hd' ⊢ <;> omega

/-- **`CompressAmount` never fails its assertion**, on any `uint64_t`: when fewer than nine zeros
were stripped, the loop stopped at a digit that is not zero. -/
theorem CompressAmount_ok (n : UInt64) : ∃ x, CompressAmount n = .ok x := by
  by_cases h0 : n = 0
  · subst h0
    exact ⟨0, rfl⟩
  rcases hl : CompressAmount.loop n 0 with ⟨m, e⟩
  obtain ⟨-, -, -, hlast⟩ := CompressAmount.loop_spec (Nat.zero_le 9) hl
  by_cases he : e < 9
  · have hdb := CompressAmount.digit_bounds (hlast he)
    refine ⟨1 + (m / 10 * 9 + m % 10 - 1) * 10 + UInt64.ofNat e, ?_⟩
    simp only [CompressAmount, if_neg h0, hl, if_pos he, hdb, not_true_eq_false, and_self,
      ↓reduceIte]
    rfl
  · refine ⟨1 + (m - 1) * 10 + 9, ?_⟩
    simp only [CompressAmount, if_neg h0, hl, he, ↓reduceIte]
    rfl

/-- **Every amount below `2^60` comes back from its compressed form.** -/
theorem DecompressAmount_CompressAmount {n : UInt64} (hn : n.toNat < 2 ^ 60) :
    ∃ x, CompressAmount n = .ok x ∧ DecompressAmount x = n := by
  by_cases h0 : n = 0
  · subst h0
    exact ⟨0, rfl, rfl⟩
  rcases hl : CompressAmount.loop n 0 with ⟨m, e⟩
  obtain ⟨-, he9, hm, hlast⟩ := CompressAmount.loop_spec (Nat.zero_le 9) hl
  rw [Nat.sub_zero] at hm
  have hn0 : n.toNat ≠ 0 := fun h => h0 (UInt64.toNat_inj.mp (by rw [h]; rfl))
  have hm0 : m ≠ 0 := fun h => hn0 (by rw [← hm, h]; simp)
  have hmb : m.toNat < 2 ^ 60 := by
    have : m.toNat ≤ m.toNat * 10 ^ e := Nat.le_mul_of_pos_right _ (by positivity)
    omega
  have hloop : DecompressAmount.loop m e = n := by
    apply UInt64.toNat_inj.mp
    rw [DecompressAmount.loop_toNat m e (by omega), hm]
  by_cases he : e < 9
  · have hd := hlast he
    have hdb := CompressAmount.digit_bounds hd
    have he' : UInt64.ofNat e < 9 := by
      rw [UInt64.lt_iff_toNat_lt, UInt64.toNat_ofNat_of_lt' (lt_of_lt_of_le he (by decide))]
      exact he
    obtain ⟨hx0, hex, hmx⟩ := amountCode_lt_nine he' hd hmb
    refine ⟨1 + (m / 10 * 9 + m % 10 - 1) * 10 + UInt64.ofNat e, ?_, ?_⟩
    · simp only [CompressAmount, if_neg h0, hl, if_pos he, hdb, not_true_eq_false, and_self,
        ↓reduceIte]
      rfl
    · rw [DecompressAmount, if_neg hx0]
      dsimp only
      rw [hex, if_pos he', hmx, UInt64.toNat_ofNat_of_lt' (lt_of_lt_of_le he (by decide)), hloop]
  · have he9' : e = 9 := by omega
    subst he9'
    obtain ⟨hx0, hex, hmx⟩ := amountCode_nine hm0 hmb
    refine ⟨1 + (m - 1) * 10 + 9, ?_, ?_⟩
    · simp only [CompressAmount, if_neg h0, hl, he, ↓reduceIte]
      rfl
    · rw [DecompressAmount, if_neg hx0]
      dsimp only
      rw [hex, if_neg (by decide), hmx]
      exact hloop

/-! ## Scripts -/

/-- `OP_DUP`. -/
def OP_DUP : UInt8 := 0x76

/-- `OP_HASH160`. -/
def OP_HASH160 : UInt8 := 0xa9

/-- `OP_EQUAL`. -/
def OP_EQUAL : UInt8 := 0x87

/-- `OP_EQUALVERIFY`. -/
def OP_EQUALVERIFY : UInt8 := 0x88

/-- `OP_CHECKSIG`. -/
def OP_CHECKSIG : UInt8 := 0xac

/-- `IsToKeyID`: `OP_DUP OP_HASH160 20 <20 bytes> OP_EQUALVERIFY OP_CHECKSIG`, and the key hash
it pays to. `script[23]` and `script[24]` are the two bytes after the hash. -/
def IsToKeyID : CScript → Option (List UInt8)
  | a :: b :: c :: rest =>
    if rest.length = 22 ∧ a = OP_DUP ∧ b = OP_HASH160 ∧ c = 20 ∧
        rest.drop 20 = [OP_EQUALVERIFY, OP_CHECKSIG] then some (rest.take 20)
    else none
  | _ => none

/-- `IsToScriptID`: `OP_HASH160 20 <20 bytes> OP_EQUAL`, and the script hash it pays to. -/
def IsToScriptID : CScript → Option (List UInt8)
  | a :: b :: rest =>
    if rest.length = 21 ∧ a = OP_HASH160 ∧ b = 20 ∧ rest.drop 20 = [OP_EQUAL] then
      some (rest.take 20)
    else none
  | _ => none

/-- `IsToPubKey`: `33 <a key 0x02 or 0x03 ‖ x> OP_CHECKSIG`, or `65 <a key 0x04 ‖ x ‖ y>
OP_CHECKSIG` whose key `IsFullyValid` accepts, and the key. -/
def IsToPubKey (IsFullyValid : List UInt8 → Bool) : CScript → Option (List UInt8)
  | a :: rest =>
    if rest.length = 34 ∧ a = 33 ∧ rest.drop 33 = [OP_CHECKSIG] ∧
        (rest.head? = some 0x02 ∨ rest.head? = some 0x03) then some (rest.take 33)
    else if rest.length = 66 ∧ a = 65 ∧ rest.drop 65 = [OP_CHECKSIG] ∧
        rest.head? = some 0x04 then
      if IsFullyValid (rest.take 65) then some (rest.take 65) else none
    else none
  | [] => none

/-- `CompressScript`: the compressed form of a special script, a tag and 20 or 32 bytes. An
uncompressed key is stored as its `x` under the tag `0x04 | (y & 1)`. -/
def CompressScript (IsFullyValid : List UInt8 → Bool) (script : CScript) : Option (List UInt8) :=
  match IsToKeyID script with
  | some keyID => some (0x00 :: keyID)
  | none =>
    match IsToScriptID script with
    | some scriptID => some (0x01 :: scriptID)
    | none =>
      match IsToPubKey IsFullyValid script with
      | some (p :: pubkey) =>
        if p = 0x02 ∨ p = 0x03 then some (p :: pubkey.take 32)
        else if p = 0x04 then some ((0x04 ||| (pubkey.getD 63 0 &&& 0x01)) :: pubkey.take 32)
        else none
      | _ => none

/-- `GetSpecialScriptSize`. -/
def GetSpecialScriptSize (nSize : Nat) : Nat :=
  if nSize = 0 ∨ nSize = 1 then 20
  else if nSize = 2 ∨ nSize = 3 ∨ nSize = 4 ∨ nSize = 5 then 32
  else 0

/-- `DecompressScript`: the script of a special form, or `none` where the source returns `false`
and leaves the script as it was. For an uncompressed key the 33-byte key `(nSize - 2) ‖ x` is
decompressed. -/
def DecompressScript (Decompress : List UInt8 → Option (List UInt8)) (nSize : Nat)
    (data : List UInt8) : Except Abort (Option CScript) :=
  match nSize with
  | 0x00 => pure (some ([OP_DUP, OP_HASH160, 20] ++ data.take 20 ++ [OP_EQUALVERIFY, OP_CHECKSIG]))
  | 0x01 => pure (some ([OP_HASH160, 20] ++ data.take 20 ++ [OP_EQUAL]))
  | 0x02 | 0x03 => pure (some ([33, UInt8.ofNat nSize] ++ data.take 32 ++ [OP_CHECKSIG]))
  | 0x04 | 0x05 =>
    match Decompress (UInt8.ofNat (nSize - 2) :: data.take 32) with
    | none => pure none
    | some pubkey =>
      if pubkey.length ≠ 65 then .error .assertion
      else pure (some ([65] ++ pubkey ++ [OP_CHECKSIG]))
  | _ => pure none

/-- `ScriptCompression::nSpecialScripts`. -/
def nSpecialScripts : Nat := 6

/-- `CAutoFile::ignore` of `n` bytes: the bytes after them. -/
def ignoreBytes (n : Nat) (s : List UInt8) : Except Abort (List UInt8) :=
  if n ≤ s.length then .ok (s.drop n) else .error (.exception "CAutoFile::ignore: end of file")

/-- `ScriptCompression::Ser`: the compressed form of a special script, otherwise
`VARINT(size + nSpecialScripts)` (an `unsigned int`) and the script. -/
def ScriptCompression.Ser (IsFullyValid : List UInt8 → Bool) (script : CScript) :
    Except Abort (List UInt8) :=
  match CompressScript IsFullyValid script with
  | some compr => pure compr
  | none => do
    let b ← WriteVarInt IntType.uint32 ((script.length + nSpecialScripts) % 2 ^ 32)
    pure (b ++ script)

/-- `ScriptCompression::Unser`, reading into `script`. -/
def ScriptCompression.Unser (Decompress : List UInt8 → Option (List UInt8)) (script : CScript)
    (s : List UInt8) : Except Abort (CScript × List UInt8) := do
  let (nSize, s) ← ReadVarInt IntType.uint32 s
  if nSize < nSpecialScripts then
    let (vch, s) ← readBytes (GetSpecialScriptSize nSize) s
    let script' ← DecompressScript Decompress nSize vch
    pure (script'.getD script, s)
  else
    let nSize := nSize - nSpecialScripts
    if nSize > MAX_SCRIPT_SIZE then do
      let s ← ignoreBytes nSize s
      pure (script ++ [OP_RETURN], s)
    else readBytes nSize s

/-! ## Outputs -/

/-- `AmountCompression::Ser` of a `CAmount`, which `CompressAmount` takes as a `uint64_t`. -/
def AmountCompression.Ser (val : CAmount) : Except Abort (List UInt8) := do
  let x ← CompressAmount (UInt64.ofInt val)
  WriteVarInt IntType.uint64 x.toNat

/-- `AmountCompression::Unser` into a `CAmount`, which takes `DecompressAmount`'s `uint64_t`. -/
def AmountCompression.Unser (s : List UInt8) : Except Abort (CAmount × List UInt8) := do
  let (v, s) ← ReadVarInt IntType.uint64 s
  pure ((DecompressAmount (UInt64.ofNat v)).toInt64.toInt, s)

/-- `TxOutCompression`, writing: the amount, then the script. -/
def TxOutCompression.Ser (IsFullyValid : List UInt8 → Bool) (out : CTxOut) :
    Except Abort (List UInt8) := do
  let a ← AmountCompression.Ser out.nValue
  let b ← ScriptCompression.Ser IsFullyValid out.scriptPubKey
  pure (a ++ b)

/-- `TxOutCompression`, reading into `out`. -/
def TxOutCompression.Unser (Decompress : List UInt8 → Option (List UInt8)) (out : CTxOut)
    (s : List UInt8) : Except Abort (CTxOut × List UInt8) := do
  let (nValue, s) ← AmountCompression.Unser s
  let (scriptPubKey, s) ← ScriptCompression.Unser Decompress out.scriptPubKey s
  pure ({ nValue := nValue, scriptPubKey := scriptPubKey }, s)

/-- A `uint64_t` below `2^63` keeps its value as an `int64_t`. -/
theorem toInt_toInt64_of_lt {x : UInt64} (h : x.toNat < 2 ^ 63) : x.toInt64.toInt = x.toNat := by
  rw [Int64.toInt, UInt64.toBitVec_toInt64, BitVec.toInt_eq_toNat_of_lt (by simp; omega)]
  rfl

/-- A non-negative `int64_t` keeps its value as a `uint64_t`. -/
theorem toNat_ofInt_of_lt {v : Int} (h0 : 0 ≤ v) (h : v < 2 ^ 64) :
    (UInt64.ofInt v).toNat = v.toNat := by
  rw [UInt64.ofInt, Int.emod_eq_of_lt h0 h, UInt64.toNat_ofNat_of_lt' (by rw [UInt64.size]; omega)]

/-- An amount in `[0, 2^60)` reads back from what `AmountCompression` writes for it. -/
theorem AmountCompression.readsBack {v : Int} (h0 : 0 ≤ v) (h : v < 2 ^ 60) :
    ReadsBack AmountCompression.Ser AmountCompression.Unser v v := by
  have hv : (UInt64.ofInt v).toNat = v.toNat := toNat_ofInt_of_lt h0 (by omega)
  obtain ⟨x, hc, hd⟩ := DecompressAmount_CompressAmount (n := UInt64.ofInt v) (by omega)
  have hx : x.toNat ≤ IntType.uint64.max := by
    have := x.toNat_lt
    rw [IntType.max_uint64]
    omega
  obtain ⟨a, hw, hr⟩ := readsBack_WriteVarInt IntType.uint64 hx
  refine ⟨a, by simp only [AmountCompression.Ser, hc, Except.bind_ok_left, hw], fun rest => ?_⟩
  rw [AmountCompression.Unser, hr, Except.bind_ok_left]
  dsimp only
  rw [UInt64.ofNat_toNat, hd, toInt_toInt64_of_lt (by omega), hv, Int.toNat_of_nonneg h0]
  rfl

/-! ## What the special forms stand for -/

theorem IsToKeyID_eq_some {script hash : List UInt8} (h : IsToKeyID script = some hash) :
    hash.length = 20 ∧ script = [OP_DUP, OP_HASH160, 20] ++ hash ++ [OP_EQUALVERIFY, OP_CHECKSIG] := by
  rcases script with _ | ⟨a, _ | ⟨b, _ | ⟨c, rest⟩⟩⟩
  all_goals try (simp only [IsToKeyID, reduceCtorEq] at h)
  split_ifs at h with hc
  cases h
  obtain ⟨hlen, rfl, rfl, rfl, hdrop⟩ := hc
  refine ⟨by rw [List.length_take]; omega, ?_⟩
  conv_lhs => rw [← List.take_append_drop 20 rest, hdrop]
  rfl

theorem IsToScriptID_eq_some {script hash : List UInt8} (h : IsToScriptID script = some hash) :
    hash.length = 20 ∧ script = [OP_HASH160, 20] ++ hash ++ [OP_EQUAL] := by
  rcases script with _ | ⟨a, _ | ⟨b, rest⟩⟩
  all_goals try (simp only [IsToScriptID, reduceCtorEq] at h)
  split_ifs at h with hc
  cases h
  obtain ⟨hlen, rfl, rfl, hdrop⟩ := hc
  refine ⟨by rw [List.length_take]; omega, ?_⟩
  conv_lhs => rw [← List.take_append_drop 20 rest, hdrop]
  rfl

/-- What the round trip assumes of the curve: `CPubKey::Decompress` recovers every key
`0x04 ‖ x ‖ y` that `CPubKey::IsFullyValid` accepts from its compressed form, the byte
`0x02 | (y & 1)` followed by `x`. -/
def DecompressInvertsCompression (IsFullyValid : List UInt8 → Bool)
    (Decompress : List UInt8 → Option (List UInt8)) : Prop :=
  ∀ x y : List UInt8, x.length = 32 → y.length = 32 → IsFullyValid (0x04 :: (x ++ y)) = true →
    Decompress ((0x02 ||| (y.getD 31 0 &&& 0x01)) :: x) = some (0x04 :: (x ++ y))

theorem and_one_eq_zero_or_one (b : UInt8) : b &&& 0x01 = 0 ∨ b &&& 0x01 = 1 := by
  have h : (b &&& 0x01).toNat = b.toNat % 2 := by
    rw [UInt8.toNat_and]
    exact Nat.and_one_is_mod b.toNat
  rcases Nat.mod_two_eq_zero_or_one b.toNat with h2 | h2
  · exact .inl (UInt8.toNat_inj.mp (by rw [h, h2]; rfl))
  · exact .inr (UInt8.toNat_inj.mp (by rw [h, h2]; rfl))

section Curve

variable {IsFullyValid : List UInt8 → Bool} {Decompress : List UInt8 → Option (List UInt8)}

theorem IsToPubKey_eq_some {script pubkey : List UInt8}
    (h : IsToPubKey IsFullyValid script = some pubkey) :
    (∃ p x, (p = 0x02 ∨ p = 0x03) ∧ x.length = 32 ∧ pubkey = p :: x ∧
      script = [33] ++ pubkey ++ [OP_CHECKSIG]) ∨
    (∃ x y, x.length = 32 ∧ y.length = 32 ∧ pubkey = 0x04 :: (x ++ y) ∧
      IsFullyValid pubkey = true ∧ script = [65] ++ pubkey ++ [OP_CHECKSIG]) := by
  rcases script with _ | ⟨a, rest⟩
  · simp only [IsToPubKey, reduceCtorEq] at h
  rw [IsToPubKey] at h
  split_ifs at h with h33 h65 hvalid
  · cases h
    obtain ⟨hlen, rfl, hdrop, hhead⟩ := h33
    rcases rest with _ | ⟨p, rest⟩
    · simp at hlen
    refine .inl ⟨p, rest.take 32, by simpa using hhead, ?_, rfl, ?_⟩
    · rw [List.length_take]
      simp only [List.length_cons] at hlen
      omega
    · conv_lhs => rw [← List.take_append_drop 33 (p :: rest), hdrop]
      rfl
  · cases h
    obtain ⟨hlen, rfl, hdrop, hhead⟩ := h65
    rcases rest with _ | ⟨p, rest⟩
    · simp at hlen
    obtain rfl : p = 0x04 := by simpa using hhead
    simp only [List.length_cons] at hlen
    have hxy : rest.take 32 ++ (rest.drop 32).take 32 = rest.take 64 := (List.take_add ..).symm
    refine .inr ⟨rest.take 32, (rest.drop 32).take 32, ?_, ?_, ?_, hvalid, ?_⟩
    · rw [List.length_take]
      omega
    · rw [List.length_take, List.length_drop]
      omega
    · rw [hxy]
      rfl
    · conv_lhs => rw [← List.take_append_drop 65 (0x04 :: rest), hdrop]
      rfl

/-- **A special script comes back from its compressed form**: a tag below `nSpecialScripts` and
as many bytes as `GetSpecialScriptSize` asks for, which `DecompressScript` turns back into the
script, when `Decompress` recovers the uncompressed keys. -/
theorem DecompressScript_CompressScript
    (hdec : DecompressInvertsCompression IsFullyValid Decompress) {script compr : List UInt8}
    (h : CompressScript IsFullyValid script = some compr) :
    ∃ tag data, compr = tag :: data ∧ tag.toNat < nSpecialScripts ∧
      data.length = GetSpecialScriptSize tag.toNat ∧
      DecompressScript Decompress tag.toNat data = .ok (some script) := by
  unfold CompressScript at h
  rcases hk : IsToKeyID script with _ | keyID
  · rw [hk] at h
    dsimp only at h
    rcases hs : IsToScriptID script with _ | scriptID
    · rw [hs] at h
      dsimp only at h
      rcases hp : IsToPubKey IsFullyValid script with _ | _ | ⟨p, pubkey⟩
      · rw [hp] at h
        cases h
      · rw [hp] at h
        cases h
      rw [hp] at h
      dsimp only at h
      rcases IsToPubKey_eq_some hp with ⟨p', x, hp23, hx, heq, rfl⟩ |
        ⟨x, y, hx, hy, heq, hvalid, rfl⟩
      · obtain ⟨rfl, rfl⟩ := List.cons.inj heq
        rw [if_pos hp23] at h
        cases h
        rw [List.take_of_length_le (le_of_eq hx)]
        refine ⟨p, pubkey, rfl, ?_⟩
        rcases hp23 with rfl | rfl
        · refine ⟨by decide, hx, ?_⟩
          show DecompressScript Decompress 2 pubkey = _
          simp only [DecompressScript, List.take_of_length_le (le_of_eq hx)]
          rfl
        · refine ⟨by decide, hx, ?_⟩
          show DecompressScript Decompress 3 pubkey = _
          simp only [DecompressScript, List.take_of_length_le (le_of_eq hx)]
          rfl
      · obtain ⟨rfl, rfl⟩ := List.cons.inj heq
        rw [if_neg (by decide), if_pos rfl] at h
        cases h
        have hd := hdec x y hx hy hvalid
        rw [List.getD_append_right x y 0 63 (by omega), hx, List.take_left' hx]
        refine ⟨_, x, rfl, ?_⟩
        rcases and_one_eq_zero_or_one (y.getD (63 - 32) 0) with hb | hb
        · rw [hb] at hd ⊢
          refine ⟨by decide, hx, ?_⟩
          show DecompressScript Decompress 4 x = _
          rw [DecompressScript, List.take_of_length_le (le_of_eq hx)]
          rw [show UInt8.ofNat (4 - 2) = 0x02 ||| 0 from rfl, hd]
          simp only [List.length_cons, List.length_append, hx, hy, Nat.reduceAdd, ne_eq,
            not_true_eq_false, ↓reduceIte]
          rfl
        · rw [hb] at hd ⊢
          refine ⟨by decide, hx, ?_⟩
          show DecompressScript Decompress 5 x = _
          rw [DecompressScript, List.take_of_length_le (le_of_eq hx)]
          rw [show UInt8.ofNat (5 - 2) = 0x02 ||| 1 from rfl, hd]
          simp only [List.length_cons, List.length_append, hx, hy, Nat.reduceAdd, ne_eq,
            not_true_eq_false, ↓reduceIte]
          rfl
    · rw [hs] at h
      cases h
      obtain ⟨hlen, rfl⟩ := IsToScriptID_eq_some hs
      refine ⟨0x01, scriptID, rfl, by decide, hlen, ?_⟩
      simp only [DecompressScript, List.take_of_length_le (le_of_eq hlen)]
      rfl
  · rw [hk] at h
    cases h
    obtain ⟨hlen, rfl⟩ := IsToKeyID_eq_some hk
    refine ⟨0x00, keyID, rfl, by decide, hlen, ?_⟩
    simp only [DecompressScript, List.take_of_length_le (le_of_eq hlen)]
    rfl

/-- **A script of at most `MAX_SCRIPT_SIZE` bytes reads back from what `ScriptCompression`
writes for it**, whatever script it is read into. -/
theorem ScriptCompression.readsBack
    (hdec : DecompressInvertsCompression IsFullyValid Decompress) {script : CScript}
    (h : script.length ≤ MAX_SCRIPT_SIZE) (prior : CScript) :
    ReadsBack (ScriptCompression.Ser IsFullyValid) (ScriptCompression.Unser Decompress prior)
      script script := by
  have hsize : MAX_SCRIPT_SIZE = 10000 := rfl
  rcases hc : CompressScript IsFullyValid script with _ | compr
  · have hlt : script.length + nSpecialScripts < 2 ^ 32 := by
      rw [nSpecialScripts]
      omega
    have hmax : (script.length + nSpecialScripts) % 2 ^ 32 ≤ IntType.uint32.max := by
      rw [IntType.max_uint32]
      omega
    obtain ⟨a, hw, hr⟩ := readsBack_WriteVarInt IntType.uint32 hmax
    refine ⟨a ++ script, ?_, fun rest => ?_⟩
    · simp only [ScriptCompression.Ser, hc, hw, Except.bind_ok_left]
      rfl
    · rw [ScriptCompression.Unser, List.append_assoc, hr, Except.bind_ok_left]
      dsimp only
      rw [Nat.mod_eq_of_lt hlt, if_neg (Nat.not_lt.mpr (Nat.le_add_left _ _)), Nat.add_sub_cancel,
        if_neg (Nat.not_lt.mpr h)]
      exact readBytes_append script rest
  · obtain ⟨tag, data, rfl, htag, hlen, hdecomp⟩ := DecompressScript_CompressScript hdec hc
    refine ⟨tag :: data, by rw [ScriptCompression.Ser, hc]; rfl, fun rest => ?_⟩
    have htag' : tag.toNat < 128 := by
      rw [nSpecialScripts] at htag
      omega
    rw [ScriptCompression.Unser, List.cons_append, ReadVarInt_of_lt IntType.uint32 htag',
      Except.bind_ok_left]
    dsimp only
    rw [if_pos htag, ← hlen, readBytes_append, Except.bind_ok_left]
    dsimp only
    rw [hdecomp, Except.bind_ok_left]
    rfl

/-- A script `CompressScript` compresses is one of the special forms, of at most 67 bytes. -/
theorem CompressScript_length_le {script compr : List UInt8}
    (h : CompressScript IsFullyValid script = some compr) : script.length ≤ 67 := by
  unfold CompressScript at h
  rcases hk : IsToKeyID script with _ | keyID
  · rcases hs : IsToScriptID script with _ | scriptID
    · rcases hp : IsToPubKey IsFullyValid script with _ | pubkey
      · rw [hk, hs, hp] at h
        cases h
      · rcases IsToPubKey_eq_some hp with ⟨p, x, -, hx, rfl, rfl⟩ | ⟨x, y, hx, hy, rfl, -, rfl⟩
        · simp [hx]
        · simp [hx, hy]
    · obtain ⟨hlen, rfl⟩ := IsToScriptID_eq_some hs
      simp [hlen]
  · obtain ⟨hlen, rfl⟩ := IsToKeyID_eq_some hk
    simp [hlen]

/-- **A script longer than `MAX_SCRIPT_SIZE` reads back as the script it is read into with
`OP_RETURN` appended**: `ScriptCompression` writes it whole after its size, and the reader skips
its bytes. Such a script is unspendable, so `AddCoin` never stores an output that pays to it. -/
theorem ScriptCompression.readsBack_long {script : CScript} (h : MAX_SCRIPT_SIZE < script.length)
    (hlt : script.length + nSpecialScripts < 2 ^ 32) (prior : CScript) :
    ReadsBack (ScriptCompression.Ser IsFullyValid) (ScriptCompression.Unser Decompress prior)
      script (prior ++ [OP_RETURN]) := by
  have hc : CompressScript IsFullyValid script = none := by
    cases hc : CompressScript IsFullyValid script with
    | none => rfl
    | some compr =>
      have := CompressScript_length_le hc
      rw [MAX_SCRIPT_SIZE] at h
      omega
  have hmax : (script.length + nSpecialScripts) % 2 ^ 32 ≤ IntType.uint32.max := by
    rw [IntType.max_uint32]
    omega
  obtain ⟨a, hw, hr⟩ := readsBack_WriteVarInt IntType.uint32 hmax
  refine ⟨a ++ script, ?_, fun rest => ?_⟩
  · simp only [ScriptCompression.Ser, hc, hw, Except.bind_ok_left]
    rfl
  · rw [ScriptCompression.Unser, List.append_assoc, hr, Except.bind_ok_left]
    dsimp only
    rw [Nat.mod_eq_of_lt hlt, if_neg (Nat.not_lt.mpr (Nat.le_add_left _ _)), Nat.add_sub_cancel,
      if_pos h]
    simp [ignoreBytes]

/-- A script of `MAX_SCRIPT_SIZE + 1` zero bytes, read into an empty script. -/
theorem ScriptCompression.readsBack_long_replicate :
    ReadsBack (ScriptCompression.Ser fun _ => false) (ScriptCompression.Unser (fun _ => none) [])
      (List.replicate 10001 0) ([] ++ [OP_RETURN]) :=
  ScriptCompression.readsBack_long (by rw [List.length_replicate]; decide)
    (by rw [List.length_replicate]; decide) []

/-- **An output whose value is in `[0, MAX_MONEY]` and whose script has at most
`MAX_SCRIPT_SIZE` bytes reads back from what `TxOutCompression` writes for it**, whatever output
it is read into. -/
theorem TxOutCompression.readsBack
    (hdec : DecompressInvertsCompression IsFullyValid Decompress) {out : CTxOut}
    (h0 : 0 ≤ out.nValue) (hmax : out.nValue ≤ MAX_MONEY)
    (hscript : out.scriptPubKey.length ≤ MAX_SCRIPT_SIZE) (prior : CTxOut) :
    ReadsBack (TxOutCompression.Ser IsFullyValid) (TxOutCompression.Unser Decompress prior)
      out out := by
  have hmoney : MAX_MONEY < 2 ^ 60 := by decide
  obtain ⟨a, hwa, hra⟩ := AmountCompression.readsBack h0 (lt_of_le_of_lt hmax hmoney)
  obtain ⟨b, hwb, hrb⟩ := ScriptCompression.readsBack hdec hscript prior.scriptPubKey
  refine ⟨a ++ b, ?_, fun rest => ?_⟩
  · simp only [TxOutCompression.Ser, hwa, hwb, Except.bind_ok_left]
    rfl
  · simp only [TxOutCompression.Unser, List.append_assoc, hra, hrb, Except.bind_ok_left]
    rfl

end Curve

end NowpConsensus
