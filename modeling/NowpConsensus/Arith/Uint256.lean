import NowpConsensus.Primitives.Transaction

/-!
# Fixed-width unsigned integers and the compact target format

`base_uint<BITS>` of `arith_uint256.h` is unsigned arithmetic modulo `2^BITS`; the model is
`BitVec BITS`, whose `+`, `*`, `<<<` and `>>>` are the same operations (the limb loops of
`arith_uint256.cpp` are an implementation of them). Division is the one operation that can
stop: `operator/=` throws on a zero divisor.

`arith_uint256::SetCompact` and `GetCompact` convert between a 256-bit target and the 32-bit
"compact" form of block headers: an exponent byte, a sign bit and a 23-bit mantissa. Both are
written here as the source computes them, on the numbers the limbs denote.

`arith_uint512` is the fork's 512-bit instance, used by `DarkGravityWave` to average targets
without overflow; `trim256` keeps its low 256 bits.
-/

namespace NowpConsensus

/-- `base_uint<BITS>`. -/
abbrev base_uint (BITS : Nat) := BitVec BITS

/-- `arith_uint256`. -/
abbrev arith_uint256 := base_uint 256

/-- `arith_uint512`. -/
abbrev arith_uint512 := base_uint 512

/-- The position of the highest set bit of a number plus one, zero for zero: `base_uint::bits`
on the value of the limbs, and `BN_num_bits` on a magnitude. -/
def numBits (n : Nat) : Nat := if n = 0 then 0 else Nat.log2 n + 1

namespace base_uint

variable {BITS : Nat}

/-- `base_uint::bits`. -/
def bits (x : base_uint BITS) : Nat := numBits x.toNat

/-- `base_uint::GetLow64`. -/
def GetLow64 (x : base_uint BITS) : Nat := x.toNat % 2 ^ 64

/-- `base_uint::operator/=`: the quotient, rounded down; a zero divisor throws. -/
def div (a b : base_uint BITS) : Except Abort (base_uint BITS) :=
  if bits b = 0 then .error (.exception "Division by zero") else .ok (a / b)

/-- `base_uint(uint64_t)`: the value of a 64-bit integer. -/
def ofUInt64 (n : Nat) : base_uint BITS := BitVec.ofNat BITS (n % 2 ^ 64)

theorem bits_eq_zero_iff {x : base_uint BITS} : bits x = 0 ↔ x = 0 := by
  unfold bits numBits
  constructor
  · intro h
    split at h
    · exact BitVec.eq_of_toNat_eq (by simpa)
    · omega
  · rintro rfl
    simp

theorem div_eq_ok {a b : base_uint BITS} (hb : b ≠ 0) : div a b = .ok (a / b) := by
  have : bits b ≠ 0 := fun h => hb (bits_eq_zero_iff.1 h)
  simp [div, this]

end base_uint

/-- `UintToArith256`: a `uint256` blob read as a number (its 32-bit words little-endian). The
blob is kept as that number, so the conversion is the identity. -/
def UintToArith256 (h : uint256) : arith_uint256 := h

namespace arith_uint256

/-- `arith_uint256::SetCompact`: the target a compact value denotes, with the `fNegative` and
`fOverflow` flags it reports. A mantissa shifted past bit 255 is lost, as in `operator<<=`. -/
def SetCompact (nCompact : UInt32) : arith_uint256 × Bool × Bool :=
  let nSize := (nCompact >>> 24).toNat
  let nWord0 := (nCompact &&& 0x007fffff).toNat
  -- `nWord >>= 8 * (3 - nSize)` in the first branch also changes what the flags read
  let nWord := if nSize ≤ 3 then nWord0 >>> (8 * (3 - nSize)) else nWord0
  let value : arith_uint256 :=
    if nSize ≤ 3 then BitVec.ofNat 256 nWord
    else BitVec.ofNat 256 nWord <<< (8 * (nSize - 3))
  let fNegative := nWord != 0 && (nCompact &&& 0x00800000) != 0
  let fOverflow := nWord != 0 &&
    (34 < nSize || (0xff < nWord && 33 < nSize) || (0xffff < nWord && 32 < nSize))
  (value, fNegative, fOverflow)

/-- `arith_uint256::GetCompact(fNegative)`. -/
def GetCompact (x : arith_uint256) (fNegative : Bool := false) : UInt32 :=
  let nSize := (base_uint.bits x + 7) / 8
  let nCompact : UInt32 :=
    if nSize ≤ 3 then UInt32.ofNat (base_uint.GetLow64 x <<< (8 * (3 - nSize)))
    else UInt32.ofNat (base_uint.GetLow64 (x >>> (8 * (nSize - 3))))
  let (nCompact, nSize) :=
    if nCompact &&& 0x00800000 != 0 then (nCompact >>> 8, nSize + 1) else (nCompact, nSize)
  let nCompact := nCompact ||| (UInt32.ofNat nSize <<< 24)
  nCompact ||| (if fNegative && nCompact &&& 0x007fffff != 0 then 0x00800000 else 0)

end arith_uint256

namespace arith_uint512

/-- `arith_uint512(const arith_uint256&)`: the same number, in the wider type. -/
def ofArith256 (x : arith_uint256) : arith_uint512 := x.setWidth 512

/-- `arith_uint512::trim256`: the low 256 bits. -/
def trim256 (x : arith_uint512) : arith_uint256 := x.setWidth 256

end arith_uint512

end NowpConsensus
