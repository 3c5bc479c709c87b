import NowpConsensus.Arith.Uint256
import NowpConsensus.Lib.Bytes

/-!
# `CBigNum`

`bignum.h` wraps an OpenSSL `BIGNUM`, a signed integer of unbounded size; `GetNextTargetRequired`
uses it for the exponential retarget. The model is `Int`. The OpenSSL calls the wrapper makes
behave as documented: `BN_mul` multiplies exactly, `BN_div` divides rounding towards zero and
fails on a zero divisor (then `operator/` throws), `BN_lshift` shifts the magnitude, and
`BN_set_negative` leaves zero non-negative.

`SetCompact` and `GetCompact` are the signed versions of the compact format: the sign bit of
the compact value is the sign of the number, and the mantissa is read from the magnitude.

The conversions from `int64_t`, `uint64_t` and `uint256` build OpenSSL's MPI bytes by hand, and
`getuint64` and `getuint256` pick bytes out of them; here `BN_bn2mpi` and `BN_mpi2bn` are the
documented format, and the hand-built bytes are what `BN_bn2mpi` would write
(`setint64.body_eq`, `setuint256.mpi_eq`).

* `CBigNum_conversions_exact`: each conversion denotes the number it converts, and `getuint64`
  returns a non-negative number below `2 ^ 64`; `getuint256` undoes the conversion from
  `uint256`. The conversion from `int64_t` excludes `INT64_MIN`, whose negation `m = -n`
  overflows (`setint64_int64_min_overflows`).
-/

namespace NowpConsensus

/-- `CBigNum`. -/
abbrev CBigNum := Int

namespace CBigNum

/-- `CBigNum::SetCompact`. -/
def SetCompact (nCompact : UInt32) : CBigNum :=
  let nSize := (nCompact >>> 24).toNat
  let fNegative := nCompact &&& 0x00800000 != 0
  let nWord := (nCompact &&& 0x007fffff).toNat
  let magnitude :=
    if nSize ≤ 3 then nWord >>> (8 * (3 - nSize)) else nWord <<< (8 * (nSize - 3))
  if fNegative then -(magnitude : Int) else magnitude

/-- `BN_num_bytes`: the number of bytes of the magnitude. -/
def numBytes (x : CBigNum) : Nat := (numBits x.natAbs + 7) / 8

/-- `CBigNum::GetCompact`. `BN_get_word` and `BN_rshift` read the magnitude, and the sign goes
to bit 23. -/
def GetCompact (x : CBigNum) : UInt32 :=
  let nSize := numBytes x
  let nCompact : UInt32 :=
    if nSize ≤ 3 then UInt32.ofNat (x.natAbs <<< (8 * (3 - nSize)))
    else UInt32.ofNat (x.natAbs >>> (8 * (nSize - 3)))
  let (nCompact, nSize) :=
    if nCompact &&& 0x00800000 != 0 then (nCompact >>> 8, nSize + 1) else (nCompact, nSize)
  let nCompact := nCompact ||| (UInt32.ofNat nSize <<< 24)
  nCompact ||| (if x < 0 then 0x00800000 else 0)

/-- `CBigNum(uint256)`: the non-negative number of a 256-bit blob. -/
def ofUint256 (n : uint256) : CBigNum := n.toNat

/-- `operator/`: `BN_div` rounds towards zero; on a zero divisor it fails and the operator
throws. -/
def div (a b : CBigNum) : Except Abort CBigNum :=
  if b = 0 then .error (.exception "CBigNum::operator/ : BN_div failed") else .ok (a.tdiv b)

theorem div_eq_ok {a b : CBigNum} (hb : b ≠ 0) : div a b = .ok (a.tdiv b) := by
  simp [div, hb]

/-! ## The MPI converters

The constructors from `int64_t`, `uint64_t` and `uint256` build OpenSSL's MPI byte string by
hand and hand it to `BN_mpi2bn`; `getuint64` and `getuint256` read the one `BN_bn2mpi` writes.
The two OpenSSL functions are modelled as their documentation describes the format. -/

open Bytes

/-- The magnitude as the MPI format writes it: its bytes, most significant first, with a zero
byte in front when the top bit of the first one is set. -/
def BN_bn2mpi.magnitude (m : Nat) : List UInt8 :=
  let mag := (minBytes m).reverse
  if mag.headD 0 &&& 0x80 ≠ 0 then 0 :: mag else mag

/-- The magnitude with the top bit of its first byte set for a negative number. -/
def BN_bn2mpi.body (x : CBigNum) : List UInt8 :=
  let body := BN_bn2mpi.magnitude x.natAbs
  if x < 0 then body.modifyHead (· ||| 0x80) else body

/-- `BN_bn2mpi`, as OpenSSL documents it: the length of the rest in four bytes, most significant
first, then the magnitude, with the top bit of its first byte set for a negative number. -/
def BN_bn2mpi (x : CBigNum) : List UInt8 :=
  (leBytes 4 (BN_bn2mpi.body x).length).reverse ++ BN_bn2mpi.body x

/-- `BN_mpi2bn`, as documented: `none` where the length does not match the bytes. -/
def BN_mpi2bn (s : List UInt8) : Option CBigNum :=
  if s.length < 4 then none
  else if readLE (s.take 4).reverse + 4 ≠ s.length then none
  else
    match s.drop 4 with
    | [] => some 0
    | b :: bs =>
      let mag := readLE ((b &&& 0x7f) :: bs).reverse
      some (if b &&& 0x80 ≠ 0 then -(mag : Int) else mag)

theorem toNat_shiftRight_eight (m : UInt64) : (m >>> 8).toNat = m.toNat / 256 := by
  simp [UInt64.toNat_shiftRight, Nat.shiftRight_eq_div_pow]

/-- The loop `while (m) { *--p = m; m >>= 8; }` of `setint64` and `setuint64`: the bytes of `m`
go in front of those written so far, the low byte last. -/
def pushBytes (m : UInt64) (acc : List UInt8) : List UInt8 :=
  if m = 0 then acc else pushBytes (m >>> 8) (m.toUInt8 :: acc)
termination_by m.toNat
decreasing_by
  have hm : m.toNat ≠ 0 := fun h => by simp_all [← UInt64.toNat_inj]
  have := toNat_shiftRight_eight m
  omega

/-- `uint64_t m = n; if (n < 0) m = -n`: the magnitude of `n`, where `-n` negates in `int64_t`,
which overflows on `INT64_MIN`. -/
def setint64.magnitude (n : Int64) : Except Abort UInt64 :=
  if n < 0 then Int64.toUInt64 <$> Abort.negInt64 n else .ok n.toUInt64

/-- The bytes `setint64` builds in `pcx` after the length: the magnitude `m`, a byte `neg` in
front when its top bit is set (`(signed char)*p < 0`, where `*p` is the zero below the bytes
when there are none), and `neg` or-ed into the first byte. -/
def setint64.body (n : Int64) : Except Abort (List UInt8) := do
  let neg : UInt8 := if n < 0 then 0x80 else 0
  let m ← setint64.magnitude n
  let body := pushBytes m []
  let body := if (body.headD 0).toInt8 < 0 then neg :: body else body
  pure (body.modifyHead (· ||| neg))

/-- The bytes `setint64` hands to `BN_mpi2bn`: the length in four bytes, then the body. -/
def setint64.mpi (n : Int64) : Except Abort (List UInt8) := do
  let body ← setint64.body n
  pure ([0, 0, 0, UInt8.ofNat body.length] ++ body)

/-- `CBigNum::setint64(n)`. The result of `BN_mpi2bn` is not checked; where it failed, the number
would keep its value. -/
def setint64 (self : CBigNum) (n : Int64) : Except Abort CBigNum := do
  let mpi ← setint64.mpi n
  pure ((BN_mpi2bn mpi).getD self)

/-- The bytes `setuint64` builds after the length: as `setint64`'s, with a zero byte in front
and no sign. -/
def setuint64.body (n : UInt64) : List UInt8 :=
  let body := pushBytes n []
  if (body.headD 0).toInt8 < 0 then 0 :: body else body

/-- The bytes `setuint64` hands to `BN_mpi2bn`. -/
def setuint64.mpi (n : UInt64) : List UInt8 :=
  [0, 0, 0, UInt8.ofNat (setuint64.body n).length] ++ setuint64.body n

/-- `CBigNum::setuint64(n)`. -/
def setuint64 (self : CBigNum) (n : UInt64) : CBigNum := (BN_mpi2bn (setuint64.mpi n)).getD self

/-- The loop of `setuint256` over the bytes of the blob from the most significant: while
`fLeadingZeroes`, zero bytes are skipped, and a zero byte goes in front of the first other byte
when its top bit is set. -/
def setuint256.loop : Bool → List UInt8 → List UInt8
  | _, [] => []
  | true, c :: cs =>
    if c = 0 then setuint256.loop true cs
    else (if c &&& 0x80 ≠ 0 then [0] else []) ++ c :: setuint256.loop false cs
  | false, c :: cs => c :: setuint256.loop false cs

/-- The bytes `setuint256` builds in `pch`: the length `nSize` in four bytes, then the body. The
blob's bytes are least significant first. -/
def setuint256.mpi (n : uint256) : List UInt8 :=
  let body := setuint256.loop true (leBytes 32 n.toNat).reverse
  let nSize := body.length
  [UInt8.ofNat (nSize >>> 24 &&& 0xff), UInt8.ofNat (nSize >>> 16 &&& 0xff),
    UInt8.ofNat (nSize >>> 8 &&& 0xff), UInt8.ofNat (nSize &&& 0xff)] ++ body

/-- `CBigNum::setuint256(n)`. -/
def setuint256 (self : CBigNum) (n : uint256) : CBigNum :=
  (BN_mpi2bn (setuint256.mpi n)).getD self

/-- What `getuint64` and `getuint256` copy out of the MPI bytes of the number: with the sign bit
of byte `4` cleared, the bytes from the last towards byte `4`, at most `w` of them, go into the
result from its least significant byte (a little-endian host). -/
def getLowBytes (w : Nat) (x : CBigNum) : Nat :=
  let vch := BN_bn2mpi x
  if vch.length < 4 then 0
  else
    let body := (vch.drop 4).modifyHead (· &&& 0x7f)
    readLE (body.reverse.take w)

/-- `CBigNum::getuint64()`. -/
def getuint64 (x : CBigNum) : UInt64 := UInt64.ofNat (getLowBytes 8 x)

/-- `CBigNum::getuint256()`. -/
def getuint256 (x : CBigNum) : uint256 := BitVec.ofNat 256 (getLowBytes 32 x)

/-! ### The format -/

namespace BN_bn2mpi

theorem readLE_reverse_magnitude (m : Nat) : readLE (magnitude m).reverse = m := by
  dsimp only [magnitude]
  split_ifs
  · rw [List.reverse_cons, List.reverse_reverse, readLE_append, readLE_minBytes]
    simp [readLE]
  · rw [List.reverse_reverse, readLE_minBytes]

theorem magnitude_eq_nil_iff {m : Nat} : magnitude m = [] ↔ m = 0 := by
  dsimp only [magnitude]
  split_ifs with h
  · simp only [false_iff]
    rintro rfl
    simp [minBytes] at h
  · simp [minBytes_eq_nil_iff]

/-- The first byte of the magnitude has its top bit clear, which leaves the bit for the sign. -/
theorem headD_magnitude (m : Nat) : ((magnitude m).headD 0).toNat < 128 := by
  rw [← and_0x80_eq_zero_iff]
  dsimp only [magnitude]
  split_ifs with h
  · simp
  · exact not_not.mp h

theorem length_body (x : CBigNum) : (body x).length = (magnitude x.natAbs).length := by
  dsimp only [body]
  split_ifs <;> simp

theorem length_magnitude_le {m k : Nat} (h : m < 256 ^ k) : (magnitude m).length ≤ k + 1 := by
  have := length_minBytes_le_iff.mpr h
  dsimp only [magnitude]
  split_ifs <;> simp <;> omega

/-- Clearing the sign bit of the body gives the magnitude back. -/
theorem modifyHead_body (x : CBigNum) : (body x).modifyHead (· &&& 0x7f) = magnitude x.natAbs := by
  have hhead := headD_magnitude x.natAbs
  dsimp only [body]
  cases hm : magnitude x.natAbs with
  | nil => split_ifs <;> rfl
  | cons b bs =>
    rw [hm, List.headD_cons] at hhead
    split_ifs
    · simp [(or_0x80_of_lt hhead).2]
    · simp [and_0x7f_of_lt hhead]

/-- The top bit of the body's first byte is the sign. -/
theorem headD_body {x : CBigNum} (hx : x ≠ 0) : (body x).headD 0 &&& 0x80 ≠ 0 ↔ x < 0 := by
  have hhead := headD_magnitude x.natAbs
  dsimp only [body]
  cases hm : magnitude x.natAbs with
  | nil => exact absurd (Int.natAbs_eq_zero.mp (magnitude_eq_nil_iff.mp hm)) hx
  | cons b bs =>
    rw [hm, List.headD_cons] at hhead
    by_cases hneg : x < 0
    · simp [hneg, (or_0x80_of_lt hhead).1]
    · simp [hneg, (and_0x80_eq_zero_iff b).mpr hhead]

end BN_bn2mpi

/-- `BN_mpi2bn` reads back what `BN_bn2mpi` writes, where the length fits in its four bytes. -/
theorem BN_mpi2bn_BN_bn2mpi {x : CBigNum}
    (hx : (BN_bn2mpi.magnitude x.natAbs).length < 2 ^ 32) : BN_mpi2bn (BN_bn2mpi x) = some x := by
  have hlen := BN_bn2mpi.length_body x
  have htake : ((leBytes 4 (BN_bn2mpi.body x).length).reverse ++ BN_bn2mpi.body x).take 4 =
      (leBytes 4 (BN_bn2mpi.body x).length).reverse := List.take_left' (by simp)
  rw [BN_mpi2bn, BN_bn2mpi, if_neg (by simp), htake, List.reverse_reverse, readLE_leBytes,
    Nat.mod_eq_of_lt (by rw [hlen]; exact hx), if_neg (by simp; omega), List.drop_left' (by simp)]
  have hmod := BN_bn2mpi.modifyHead_body x
  have hmag := BN_bn2mpi.readLE_reverse_magnitude x.natAbs
  cases hb : BN_bn2mpi.body x with
  | nil =>
    rw [hb, List.length_nil, eq_comm, List.length_eq_zero_iff,
      BN_bn2mpi.magnitude_eq_nil_iff, Int.natAbs_eq_zero] at hlen
    rw [hlen]
  | cons b bs =>
    have hx0 : x ≠ 0 := fun h0 => by
      rw [hb, h0, List.length_cons, Int.natAbs_zero,
        BN_bn2mpi.magnitude_eq_nil_iff.mpr rfl, List.length_nil] at hlen
      cases hlen
    have hsign := BN_bn2mpi.headD_body hx0
    rw [hb, List.headD_cons] at hsign
    rw [hb, List.modifyHead_cons] at hmod
    dsimp only
    rw [hmod, hmag]
    by_cases hneg : x < 0
    · rw [if_pos (hsign.mpr hneg), Int.ofNat_natAbs_of_nonpos hneg.le, Int.neg_neg]
    · rw [if_neg (mt hsign.mp hneg), Int.natAbs_of_nonneg (Int.not_lt.mp hneg)]

/-! ### The converters -/

theorem pushBytes_eq (m : UInt64) (acc : List UInt8) :
    pushBytes m acc = (minBytes m.toNat).reverse ++ acc := by
  fun_induction pushBytes m acc with
  | case1 acc => rfl
  | case2 m acc hm ih =>
    have hm' : m.toNat ≠ 0 := fun h => hm (UInt64.toNat_inj.mp h)
    have hbyte : m.toUInt8 = UInt8.ofNat m.toNat := UInt8.toNat_inj.mp (by simp)
    rw [ih, toNat_shiftRight_eight, hbyte, minBytes_of_ne_zero hm', List.reverse_cons,
      List.append_assoc, List.singleton_append]

/-- Four bytes of a length below `256`, most significant first. -/
theorem leBytes_four_of_lt {L : Nat} (h : L < 256) :
    (leBytes 4 L).reverse = [0, 0, 0, UInt8.ofNat L] := by
  simp [leBytes, Nat.div_eq_of_lt h]

/-- The magnitude of an `int64_t`, through `Int64`'s negation. -/
theorem toNat_magnitude_int64 (n : Int64) :
    (if n < 0 then (-n).toUInt64 else n.toUInt64).toNat = n.toInt.natAbs := by
  have ht := n.toBitVec.isLt
  have hs : UInt64.size = 2 ^ 64 := rfl
  have hint : n.toInt = if 2 * n.toBitVec.toNat < 2 ^ 64 then (n.toBitVec.toNat : Int)
      else n.toBitVec.toNat - 2 ^ 64 := by
    rw [← Int64.toInt_toBitVec, BitVec.toInt_eq_toNat_cond]
    simp
  have hneg : n < 0 ↔ n.toInt < 0 := by simp [Int64.lt_iff_toInt_lt]
  by_cases hn : n < 0
  · rw [if_pos hn, Int64.toUInt64_neg, UInt64.toNat_neg, hs, ← Int64.toNat_toBitVec]
    rw [hneg, hint] at hn
    rw [hint]
    split_ifs at hn ⊢ <;> omega
  · rw [if_neg hn, ← Int64.toNat_toBitVec]
    rw [hneg, hint] at hn
    rw [hint]
    split_ifs at hn ⊢ <;> omega

theorem setint64.body_eq {n : Int64} (h : n ≠ Int64.minValue) :
    setint64.body n = .ok (BN_bn2mpi.body n.toInt) := by
  have hneg : n < 0 ↔ n.toInt < 0 := by simp [Int64.lt_iff_toInt_lt]
  have hm : setint64.magnitude n = .ok (if n < 0 then (-n).toUInt64 else n.toUInt64) := by
    unfold setint64.magnitude
    split_ifs
    · rw [Abort.negInt64_of_ne h]
      rfl
    · rfl
  rw [setint64.body, hm, Except.bind_ok_left]
  refine congrArg Except.ok ?_
  dsimp only [BN_bn2mpi.body, BN_bn2mpi.magnitude]
  rw [pushBytes_eq, List.append_nil, toNat_magnitude_int64]
  simp only [toInt8_lt_zero_iff, ← hneg]
  generalize (minBytes n.toInt.natAbs).reverse = mag
  by_cases hn : n < 0
  · simp only [if_pos hn]
    split_ifs <;> simp
  · simp only [if_neg hn, UInt8.or_zero]
    split_ifs <;> cases mag <;> rfl

theorem setuint64.body_eq (n : UInt64) : setuint64.body n = BN_bn2mpi.body n.toNat := by
  dsimp only [setuint64.body, BN_bn2mpi.body, BN_bn2mpi.magnitude]
  rw [pushBytes_eq, List.append_nil, Int.natAbs_natCast,
    if_neg (Int.not_lt.mpr (Int.natCast_nonneg _))]
  simp only [toInt8_lt_zero_iff]

theorem setuint256.loop_false (l : List UInt8) : setuint256.loop false l = l := by
  induction l with
  | nil => rfl
  | cons c cs ih => rw [setuint256.loop, ih]

/-- The loop of `setuint256` writes the magnitude of the number whose bytes it reads. -/
theorem setuint256.loop_true (l : List UInt8) :
    setuint256.loop true l = BN_bn2mpi.magnitude (readLE l.reverse) := by
  induction l with
  | nil => exact (BN_bn2mpi.magnitude_eq_nil_iff.mpr rfl).symm
  | cons c cs ih =>
    have hrev : readLE (c :: cs).reverse = readLE cs.reverse + 256 ^ cs.length * c.toNat := by
      rw [List.reverse_cons, readLE_append, List.length_reverse]
      simp [readLE]
    by_cases hc : c = 0
    · rw [setuint256.loop, if_pos hc, ih, hrev, hc]
      simp
    · have hmin : minBytes (readLE (c :: cs).reverse) = (c :: cs).reverse :=
        minBytes_readLE (by simpa using hc)
      rw [setuint256.loop, if_neg hc, loop_false]
      dsimp only [BN_bn2mpi.magnitude]
      rw [hmin, List.reverse_reverse, List.headD_cons]
      split_ifs <;> rfl

/-- Four bytes of a length below `256`, as `setuint256` writes them. -/
theorem lengthBytes_of_lt {L : Nat} (h : L < 256) :
    [UInt8.ofNat (L >>> 24 &&& 0xff), UInt8.ofNat (L >>> 16 &&& 0xff),
      UInt8.ofNat (L >>> 8 &&& 0xff), UInt8.ofNat (L &&& 0xff)] = [0, 0, 0, UInt8.ofNat L] := by
  have hshift : ∀ k, 0 < k → L >>> (8 * k) = 0 := fun k hk => by
    have : 2 ^ 8 ≤ 2 ^ (8 * k) := Nat.pow_le_pow_right (by decide) (by omega)
    rw [Nat.shiftRight_eq_div_pow]
    exact Nat.div_eq_of_lt (by omega)
  have hff : L &&& 0xff = L := by
    rw [show (0xff : Nat) = 2 ^ 8 - 1 from rfl, Nat.and_two_pow_sub_one_eq_mod, Nat.mod_eq_of_lt h]
  simp [hshift 3 (by decide), hshift 2 (by decide), hshift 1 (by decide), hff]

theorem setuint256.mpi_eq (n : uint256) : setuint256.mpi n = BN_bn2mpi n.toNat := by
  have hn : n.toNat < 256 ^ 32 := n.isLt
  have hbody : setuint256.loop true (leBytes 32 n.toNat).reverse = BN_bn2mpi.body n.toNat := by
    rw [setuint256.loop_true, List.reverse_reverse, readLE_leBytes, Nat.mod_eq_of_lt hn]
    dsimp only [BN_bn2mpi.body]
    rw [Int.natAbs_natCast, if_neg (Int.not_lt.mpr (Int.natCast_nonneg _))]
  have hlen : (BN_bn2mpi.body n.toNat).length < 256 := by
    have := BN_bn2mpi.length_magnitude_le hn
    rw [BN_bn2mpi.length_body, Int.natAbs_natCast]
    omega
  dsimp only [setuint256.mpi, BN_bn2mpi]
  rw [hbody, lengthBytes_of_lt hlen, leBytes_four_of_lt hlen]

/-! ### What the converters denote -/

/-- `BN_mpi2bn` of a body and its length, below `256`, in four bytes. -/
theorem BN_mpi2bn_body {x : CBigNum} (hx : x.natAbs < 256 ^ 32) :
    BN_mpi2bn ([0, 0, 0, UInt8.ofNat (BN_bn2mpi.body x).length] ++ BN_bn2mpi.body x) = some x := by
  have hlen := BN_bn2mpi.length_magnitude_le hx
  have hl : (BN_bn2mpi.body x).length < 256 := by
    rw [BN_bn2mpi.length_body]
    omega
  rw [← leBytes_four_of_lt hl]
  exact BN_mpi2bn_BN_bn2mpi (by omega)

theorem setint64_eq (self : CBigNum) {n : Int64} (hn : n ≠ Int64.minValue) :
    setint64 self n = .ok n.toInt := by
  have h₁ := n.le_toInt
  have h₂ := n.toInt_lt
  simp only [setint64, setint64.mpi, setint64.body_eq hn, Except.bind_ok_left, pure_bind]
  rw [BN_mpi2bn_body (by omega)]
  rfl

theorem setuint64_eq (self : CBigNum) (n : UInt64) : setuint64 self n = n.toNat := by
  have := n.toNat_lt
  rw [setuint64, setuint64.mpi, setuint64.body_eq,
    BN_mpi2bn_body (by rw [Int.natAbs_natCast]; omega)]
  rfl

theorem setuint256_eq (self : CBigNum) (n : uint256) : setuint256 self n = ofUint256 n := by
  have hlen := BN_bn2mpi.length_magnitude_le (show n.toNat < 256 ^ 32 from n.isLt)
  rw [setuint256, setuint256.mpi_eq, BN_mpi2bn_BN_bn2mpi (by rw [Int.natAbs_natCast]; omega)]
  rfl

/-- The converters to `uint64_t` and `uint256` keep the low bytes of the magnitude. -/
theorem getLowBytes_eq (w : Nat) (x : CBigNum) : getLowBytes w x = x.natAbs % 256 ^ w := by
  have hdrop : (BN_bn2mpi x).drop 4 = BN_bn2mpi.body x := List.drop_left' (by simp)
  dsimp only [getLowBytes]
  rw [if_neg (by simp [BN_bn2mpi]), hdrop, BN_bn2mpi.modifyHead_body, readLE_take,
    BN_bn2mpi.readLE_reverse_magnitude]

theorem toNat_getuint64 (x : CBigNum) : (getuint64 x).toNat = x.natAbs % 2 ^ 64 := by
  rw [getuint64, getLowBytes_eq, UInt64.toNat_ofNat', show (256 : Nat) ^ 8 = 2 ^ 64 from rfl,
    Nat.mod_mod]

theorem getuint256_eq (x : CBigNum) : getuint256 x = BitVec.ofNat 256 x.natAbs := by
  apply BitVec.eq_of_toNat_eq
  rw [getuint256, getLowBytes_eq, BitVec.toNat_ofNat, BitVec.toNat_ofNat,
    show (256 : Nat) ^ 32 = 2 ^ 256 from rfl, Nat.mod_mod]

theorem CBigNum_conversions_exact :
    (∀ (self : CBigNum) (n : Int64), n ≠ Int64.minValue → setint64 self n = .ok n.toInt) ∧
    (∀ (self : CBigNum) (n : UInt64), setuint64 self n = n.toNat) ∧
    (∀ (self : CBigNum) (x : uint256),
      setuint256 self x = ofUint256 x ∧ getuint256 (setuint256 self x) = x) ∧
    ∀ x : CBigNum, 0 ≤ x → x < 2 ^ 64 → ((getuint64 x).toNat : CBigNum) = x := by
  refine ⟨fun self _ hn => setint64_eq self hn, setuint64_eq,
    fun self x => ⟨setuint256_eq self x, ?_⟩, fun x h₀ h₁ => ?_⟩
  · rw [setuint256_eq, getuint256_eq, ofUint256, Int.natAbs_natCast, BitVec.ofNat_toNat,
      BitVec.setWidth_eq]
  · have hx : x.natAbs < 2 ^ 64 := Int.natAbs_lt_natAbs_of_nonneg_of_lt h₀ h₁
    rw [toNat_getuint64, Nat.mod_eq_of_lt hx, Int.natAbs_of_nonneg h₀]

/-- `-128`, whose magnitude `0x80` needs a byte in front for the sign, and `getuint64` of
`2 ^ 63`. -/
theorem CBigNum_conversions_exact_top_bit :
    (-128 : Int64) ≠ Int64.minValue ∧ setint64 0 (-128) = .ok (-128) ∧
      ((getuint64 9223372036854775808).toNat : CBigNum) = 9223372036854775808 :=
  ⟨by decide, CBigNum_conversions_exact.1 0 _ (by decide),
    CBigNum_conversions_exact.2.2.2 _ (by decide) (by decide)⟩

/-- On `INT64_MIN` the conversion has no value: `m = -n` overflows `int64_t`. -/
theorem setint64_int64_min_overflows : setint64 0 (-9223372036854775808) = .error .overflow := rfl

end CBigNum

end NowpConsensus
