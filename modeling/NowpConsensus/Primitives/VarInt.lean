import NowpConsensus.Primitives.Serialize
import NowpConsensus.Lib.OffsetNumeral
import NowpConsensus.Lib.Codec
import Mathlib.Data.Int.Bitwise

/-!
# `VARINT`

The variable-length integers of `serialize.h`: a number is written as its offset numeral in
base 128 (`Lib/OffsetNumeral.lean`), most significant digit first, one digit a byte, with bit
128 set on every byte but the last. `WriteVarInt` builds the digits least significant first in
a buffer `tmp` and writes it backwards; `ReadVarInt` accumulates them most significant first
and refuses a number above the largest value of its type, with two checks: one before the
shift and one before the increment that a continuation byte costs.

The integer type is `IntType`: its size in bytes and its sign, which also fixes the mode
(`DEFAULT` for an unsigned type, `NONNEGATIVE_SIGNED` for a signed one). A value of the type is
a number up to `IntType.max`; for a signed type these are its non-negative values, the only
ones `NONNEGATIVE_SIGNED` writes correctly.

* `VarInt_roundtrip`: for every value `n` of the type, `WriteVarInt` writes
  `GetSizeOfVarInt n` bytes, a `VARINT` sequence that stands for `n` by the formula of
  `serialize.h`, and `ReadVarInt` reads `n` back from them and nothing after them. Every read
  that returns consumes `WriteVarInt` of what it returns. A `VARINT` sequence that stands for a
  value of the type is what `WriteVarInt` writes for it, and one that stands for a larger number
  makes `ReadVarInt` throw.
-/

namespace NowpConsensus

open Bytes OffsetNumeral

/-- An integer type `I` used with `VARINT`: `sizeof(I)` bytes, signed or not. -/
structure IntType where
  size : Nat
  signed : Bool
  size_pos : 0 < size

/-- `std::numeric_limits<I>::max()`. -/
def IntType.max (I : IntType) : Nat :=
  if I.signed then 2 ^ (8 * I.size - 1) - 1 else 2 ^ (8 * I.size) - 1

/-- `int`. -/
def IntType.int32 : IntType := ⟨4, true, by decide⟩

/-- `unsigned int` and `uint32_t`. -/
def IntType.uint32 : IntType := ⟨4, false, by decide⟩

/-- `uint64_t`. -/
def IntType.uint64 : IntType := ⟨8, false, by decide⟩

@[simp]
theorem IntType.max_int32 : IntType.int32.max = 2 ^ 31 - 1 := rfl

@[simp]
theorem IntType.max_uint32 : IntType.uint32.max = 2 ^ 32 - 1 := rfl

@[simp]
theorem IntType.max_uint64 : IntType.uint64.max = 2 ^ 64 - 1 := rfl

/-- `GetSizeOfVarInt<Mode, I>(n)`, with `nRet` bytes counted so far. -/
def GetSizeOfVarInt.loop (nRet n : Nat) : Nat :=
  let nRet := nRet + 1
  if n ≤ 0x7F then nRet else loop nRet ((n >>> 7) - 1)
termination_by n
decreasing_by
  rw [Nat.shiftRight_eq_div_pow]
  have : n / 2 ^ 7 ≤ n := Nat.div_le_self n _
  omega

/-- `GetSizeOfVarInt<Mode, I>(n)`. -/
def GetSizeOfVarInt (n : Nat) : Nat := GetSizeOfVarInt.loop 0 n

/-- The first loop of `WriteVarInt`, from position `len` of `tmp`, a buffer of `size` bytes:
`tmp[len] = (n & 0x7F) | (len ? 0x80 : 0x00)`, until `n <= 0x7F`, else `n = (n >> 7) - 1`.
The bytes it writes from `tmp[len]` on; a write past the end of `tmp` is out of range. -/
def WriteVarInt.fill (size n len : Nat) : Except Abort (List UInt8) :=
  if size ≤ len then .error .outOfRange
  else
    let b : UInt8 := UInt8.ofNat (n &&& 0x7F) ||| (if len ≠ 0 then 0x80 else 0x00)
    if n ≤ 0x7F then .ok [b]
    else (b :: ·) <$> fill size ((n >>> 7) - 1) (len + 1)
termination_by n
decreasing_by
  rw [Nat.shiftRight_eq_div_pow]
  have : n / 2 ^ 7 ≤ n := Nat.div_le_self n _
  omega

/-- `WriteVarInt<Stream, Mode, I>(os, n)`: the bytes it writes, `tmp[len]` down to `tmp[0]`,
with `tmp` of `(sizeof(n)*8+6)/7` bytes. -/
def WriteVarInt (I : IntType) (n : Nat) : Except Abort (List UInt8) :=
  List.reverse <$> WriteVarInt.fill ((I.size * 8 + 6) / 7) n 0

/-- `WriteVarInt<Stream, VarIntMode::NONNEGATIVE_SIGNED, I>(os, n)` on a signed `n`: a
non-negative `n` is written as above; a negative `n` is `<= 0x7F` at the first turn, so the one
byte written is `tmp[0] = n & 0x7F`. -/
def WriteVarIntSigned (I : IntType) (n : Int) : Except Abort (List UInt8) :=
  if n < 0 then .ok [UInt8.ofNat (Int.land n 0x7F).toNat] else WriteVarInt I n.toNat

/-- The loop of `ReadVarInt<Stream, Mode, I>(is)`, with `n` read so far and `max` the largest
value of `I`; `ser_readdata8` throws at the end of the stream. -/
def ReadVarInt.loop (max n : Nat) : List UInt8 → Except Abort (Nat × List UInt8)
  | [] => .error (.exception "CAutoFile::read: end of file")
  | chData :: s =>
    if n > max >>> 7 then .error (.exception "ReadVarInt(): size too large")
    else
      let n := n <<< 7 ||| (chData &&& 0x7F).toNat
      if chData &&& 0x80 ≠ 0 then
        if n = max then .error (.exception "ReadVarInt(): size too large")
        else loop max (n + 1) s
      else .ok (n, s)

/-- `ReadVarInt<Stream, Mode, I>(is)`: the number read and the bytes after it. -/
def ReadVarInt (I : IntType) (s : List UInt8) : Except Abort (Nat × List UInt8) :=
  ReadVarInt.loop I.max 0 s

/-! ## `VARINT` sequences -/

/-- A `VARINT` byte sequence: bit 128 set on every byte but the last, clear on the last. -/
def IsVarInt (a : List UInt8) : Prop :=
  (∀ x ∈ a.dropLast, x &&& 0x80 ≠ 0) ∧ a.getLast?.map (· &&& 0x80) = some 0

instance (a : List UInt8) : Decidable (IsVarInt a) :=
  inferInstanceAs (Decidable ((∀ x ∈ a.dropLast, x &&& 0x80 ≠ 0) ∧
    a.getLast?.map (· &&& 0x80) = some 0))

/-- The number a `VARINT` sequence stands for, by the formula of `serialize.h`:
`(a[len-1] & 0x7F) + sum(i=1..len-1, 128^i*((a[len-i-1] & 0x7F)+1))`, the offset numeral of its
low seven bits. -/
def VarIntValue (a : List UInt8) : Nat :=
  value 128 (a.reverse.map fun x => (x &&& 0x7F).toNat)

/-- A digit with bit 128 set. -/
def contByte (d : Nat) : UInt8 := UInt8.ofNat d ||| 0x80

/-- The bytes of the numeral `d :: l`, least significant digit first: the digits of `l`, most
significant first, with bit 128 set, then `d`. -/
def varIntBytes : List Nat → List UInt8
  | [] => []
  | d :: l => (l.map contByte).reverse ++ [UInt8.ofNat d]

/-! ## Bytes and digits -/

theorem toNat_contByte {d : Nat} (hd : d < 128) : (contByte d).toNat = d + 128 := by
  have h : (UInt8.ofNat d).toNat = d := by
    rw [UInt8.toNat_ofNat']
    omega
  rw [contByte, toNat_or_0x80 (by omega), h]

theorem contByte_and_0x7f {d : Nat} (hd : d < 128) : (contByte d &&& 0x7F).toNat = d := by
  rw [toNat_and_0x7f, toNat_contByte hd]
  omega

theorem contByte_and_0x80 {d : Nat} (hd : d < 128) : contByte d &&& 0x80 ≠ 0 := by
  rw [ne_eq, and_0x80_eq_zero_iff, toNat_contByte hd]
  omega

theorem ofNat_and_0x80 {d : Nat} (hd : d < 128) : UInt8.ofNat d &&& 0x80 = 0 := by
  rw [and_0x80_eq_zero_iff, UInt8.toNat_ofNat']
  omega

theorem ofNat_and_0x7f {d : Nat} (hd : d < 128) : (UInt8.ofNat d &&& 0x7F).toNat = d := by
  rw [toNat_and_0x7f, UInt8.toNat_ofNat']
  omega

/-- A byte with bit 128 set is the continuation byte of its low seven bits. -/
theorem contByte_low {x : UInt8} (hx : x &&& 0x80 ≠ 0) : contByte (x &&& 0x7F).toNat = x := by
  have hge : 128 ≤ x.toNat := Nat.not_lt.mp (mt (and_0x80_eq_zero_iff x).mpr hx)
  have hlt := x.toNat_lt
  rw [← UInt8.toNat_inj, toNat_contByte (by rw [toNat_and_0x7f]; omega), toNat_and_0x7f]
  omega

/-- A byte with bit 128 clear is its low seven bits. -/
theorem ofNat_low {x : UInt8} (hx : x &&& 0x80 = 0) : UInt8.ofNat (x &&& 0x7F).toNat = x := by
  have hlt : x.toNat < 128 := (and_0x80_eq_zero_iff x).mp hx
  rw [← UInt8.toNat_inj, UInt8.toNat_ofNat', toNat_and_0x7f]
  omega

/-- Shifting in seven bits is multiplying by 128 and adding them. -/
theorem shiftLeft_seven_or {n d : Nat} (hd : d < 128) : n <<< 7 ||| d = n * 128 + d := by
  rw [Nat.shiftLeft_eq, Nat.mul_comm, ← Nat.two_pow_add_eq_or_of_lt (i := 7) hd]

theorem shiftRight_seven (n : Nat) : n >>> 7 = n / 128 := Nat.shiftRight_eq_div_pow n 7

theorem digits_of_lt {n : Nat} (hn : n < 128) : digits 128 n = [n] := by
  rw [digits, if_pos hn]

theorem digits_of_ge {n : Nat} (hn : ¬ n < 128) :
    digits 128 n = n % 128 :: digits 128 (n / 128 - 1) := by
  rw [digits, if_neg hn]

theorem lt_of_mem_cons_digits {n d : Nat} {l : List Nat} (h : digits 128 n = d :: l) :
    ∀ x ∈ d :: l, x < 128 := fun _ hx => digits_lt 128 (h ▸ hx)

/-! ## The size and the writer -/

theorem GetSizeOfVarInt.loop_eq (nRet n : Nat) :
    GetSizeOfVarInt.loop nRet n = nRet + (digits 128 n).length := by
  induction n using Nat.strong_induction_on generalizing nRet with
  | _ n ih =>
    rw [GetSizeOfVarInt.loop]
    by_cases hn : n ≤ 0x7F
    · rw [if_pos hn, digits_of_lt (n := n) (by omega)]
      rfl
    · have hq : n / 128 - 1 < n := by omega
      rw [if_neg hn, shiftRight_seven, ih _ hq, digits_of_ge (n := n) (by omega),
        List.length_cons]
      omega

theorem GetSizeOfVarInt_eq (n : Nat) : GetSizeOfVarInt n = (digits 128 n).length := by
  rw [GetSizeOfVarInt, GetSizeOfVarInt.loop_eq, Nat.zero_add]

theorem and_0x7f_eq (n : Nat) : n &&& 0x7F = n % 128 := Nat.and_two_pow_sub_one_eq_mod n 7

/-- Past the first position, the writer puts each digit with bit 128 set, while `tmp` has room
for them. -/
theorem fill_succ {size n len : Nat} (h : len + 1 + (digits 128 n).length ≤ size) :
    WriteVarInt.fill size n (len + 1) = .ok ((digits 128 n).map contByte) := by
  induction n using Nat.strong_induction_on generalizing len with
  | _ n ih =>
    have hroom : ¬ size ≤ len + 1 := by
      have := List.length_pos_of_ne_nil (digits_ne_nil 128 n)
      omega
    rw [WriteVarInt.fill, if_neg hroom, if_pos (Nat.succ_ne_zero len), and_0x7f_eq]
    by_cases hn : n ≤ 0x7F
    · rw [if_pos hn, digits_of_lt (n := n) (by omega), Nat.mod_eq_of_lt (by omega)]
      rfl
    · have hq : n / 128 - 1 < n := by omega
      rw [digits_of_ge (n := n) (by omega), List.length_cons] at h
      rw [if_neg hn, shiftRight_seven, ih _ hq (by omega), digits_of_ge (n := n) (by omega)]
      rfl

theorem WriteVarInt_eq {I : IntType} {n : Nat}
    (h : (digits 128 n).length ≤ (I.size * 8 + 6) / 7) :
    WriteVarInt I n = .ok (varIntBytes (digits 128 n)) := by
  have hroom : ¬ (I.size * 8 + 6) / 7 ≤ 0 := by
    have := List.length_pos_of_ne_nil (digits_ne_nil 128 n)
    omega
  rw [WriteVarInt, WriteVarInt.fill, if_neg hroom, if_neg (not_not.mpr rfl : ¬ (0 : Nat) ≠ 0),
    and_0x7f_eq]
  by_cases hn : n ≤ 0x7F
  · rw [if_pos hn, digits_of_lt (n := n) (by omega), Nat.mod_eq_of_lt (by omega)]
    simp [varIntBytes]
  · rw [digits_of_ge (n := n) (by omega), List.length_cons] at h
    rw [if_neg hn, shiftRight_seven, fill_succ (by omega), digits_of_ge (n := n) (by omega)]
    simp [varIntBytes]

theorem IntType.max_lt (I : IntType) : I.max < 2 ^ (8 * I.size) := by
  have hpos := I.size_pos
  have h1 := Nat.two_pow_pos (8 * I.size - 1)
  have hpow : 2 ^ (8 * I.size) = 2 * 2 ^ (8 * I.size - 1) := by
    rw [← Nat.pow_succ']
    congr 1
    omega
  unfold IntType.max
  split <;> omega

/-- The largest value of a type of at least seven bits ends in seven one bits. -/
theorem IntType.max_mod (I : IntType) : I.max % 128 = 127 := by
  have hpos := I.size_pos
  have hmod : ∀ m, 7 ≤ m → (2 ^ m - 1) % 128 = 127 := by
    intro m hm
    have : 2 ^ m = 128 * 2 ^ (m - 7) := by
      rw [show (128 : Nat) = 2 ^ 7 by rfl, ← Nat.pow_add]
      congr 1
      omega
    have hp : 0 < 2 ^ (m - 7) := Nat.two_pow_pos _
    omega
  unfold IntType.max
  split
  · exact hmod _ (by omega)
  · exact hmod _ (by omega)

/-- `tmp` has room for the digits of every value of the type. -/
theorem length_digits_le_tmp {I : IntType} {n : Nat} (hn : n ≤ I.max) :
    (digits 128 n).length ≤ (I.size * 8 + 6) / 7 := by
  have hpos := I.size_pos
  apply length_digits_le 128 _ (by omega)
  calc n ≤ I.max := hn
    _ < 2 ^ (8 * I.size) := I.max_lt
    _ ≤ 2 ^ (7 * ((I.size * 8 + 6) / 7)) := Nat.pow_le_pow_right (by decide) (by omega)
    _ = 128 ^ ((I.size * 8 + 6) / 7) := by rw [Nat.pow_mul]

/-! ## The reader, byte by byte -/

section Read

variable {max n d : Nat} {s : List UInt8}

theorem loop_overflow (h : max >>> 7 < n) (x : UInt8) :
    ReadVarInt.loop max n (x :: s) = .error (.exception "ReadVarInt(): size too large") := by
  rw [ReadVarInt.loop, if_pos h]

theorem loop_last (h : n ≤ max >>> 7) (hd : d < 128) :
    ReadVarInt.loop max n (UInt8.ofNat d :: s) = .ok (n * 128 + d, s) := by
  rw [ReadVarInt.loop, if_neg (Nat.not_lt.mpr h), ofNat_and_0x7f hd, shiftLeft_seven_or hd,
    if_neg (not_not.mpr (ofNat_and_0x80 hd))]

theorem loop_cont (h : n ≤ max >>> 7) (hd : d < 128) (hne : n * 128 + d ≠ max) :
    ReadVarInt.loop max n (contByte d :: s) = ReadVarInt.loop max (n * 128 + d + 1) s := by
  rw [ReadVarInt.loop, if_neg (Nat.not_lt.mpr h), contByte_and_0x7f hd, shiftLeft_seven_or hd,
    if_pos (contByte_and_0x80 hd), if_neg hne]

theorem loop_cont_max (h : n ≤ max >>> 7) (hd : d < 128) (he : n * 128 + d = max) :
    ReadVarInt.loop max n (contByte d :: s) = .error (.exception "ReadVarInt(): size too large") := by
  rw [ReadVarInt.loop, if_neg (Nat.not_lt.mpr h), contByte_and_0x7f hd, shiftLeft_seven_or hd,
    if_pos (contByte_and_0x80 hd), if_pos he]

/-- Continuation bytes whose digits stand for at most `max >>> 7` pass both checks, and leave
what they stand for in the accumulator. -/
theorem loop_contBytes {l : List Nat} (hl : ∀ x ∈ l, x < 128) (hc : carry 128 l ≤ max >>> 7)
    (s : List UInt8) :
    ReadVarInt.loop max 0 ((l.map contByte).reverse ++ s) = ReadVarInt.loop max (carry 128 l) s := by
  induction l generalizing s with
  | nil => rfl
  | cons d l ih =>
    have hd : d < 128 := hl d List.mem_cons_self
    have hc' : carry 128 l ≤ max >>> 7 := by
      have : carry 128 (d :: l) = carry 128 l * 128 + d + 1 := rfl
      omega
    have hmax : max >>> 7 ≤ max := by
      rw [Nat.shiftRight_eq_div_pow]
      exact Nat.div_le_self _ _
    rw [List.map_cons, List.reverse_cons, List.append_assoc, List.singleton_append,
      ih (fun x hx => hl x (List.mem_cons_of_mem d hx)) hc']
    exact loop_cont hc' hd (by have : carry 128 (d :: l) = carry 128 l * 128 + d + 1 := rfl; omega)

/-- Continuation bytes whose digits stand for more than `max >>> 7` make the reader throw before
it reads the byte after them. -/
theorem loop_contBytes_overflow {l : List Nat} (hl : ∀ x ∈ l, x < 128)
    (hc : max >>> 7 < carry 128 l) {s : List UInt8} (hs : s ≠ []) :
    ReadVarInt.loop max 0 ((l.map contByte).reverse ++ s) =
      .error (.exception "ReadVarInt(): size too large") := by
  induction l generalizing s with
  | nil => exact absurd hc (Nat.not_lt_zero _)
  | cons d l ih =>
    have hd : d < 128 := hl d List.mem_cons_self
    have hl' : ∀ x ∈ l, x < 128 := fun x hx => hl x (List.mem_cons_of_mem d hx)
    rw [List.map_cons, List.reverse_cons, List.append_assoc, List.singleton_append]
    by_cases hprev : max >>> 7 < carry 128 l
    · exact ih hl' hprev (List.cons_ne_nil _ _)
    · rw [loop_contBytes hl' (Nat.not_lt.mp hprev)]
      by_cases he : carry 128 l * 128 + d = max
      · exact loop_cont_max (Nat.not_lt.mp hprev) hd he
      · obtain ⟨x, s', rfl⟩ := List.exists_cons_of_ne_nil hs
        rw [loop_cont (Nat.not_lt.mp hprev) hd he]
        exact loop_overflow hc x

end Read

/-! ## `VARINT` sequences and numerals -/

theorem isVarInt_varIntBytes {d : Nat} {l : List Nat} (hd : ∀ x ∈ d :: l, x < 128) :
    IsVarInt (varIntBytes (d :: l)) := by
  refine ⟨?_, ?_⟩
  · intro x hx
    rw [varIntBytes, List.dropLast_concat, List.mem_reverse, List.mem_map] at hx
    obtain ⟨y, hy, rfl⟩ := hx
    exact contByte_and_0x80 (hd y (List.mem_cons_of_mem d hy))
  · rw [varIntBytes, List.getLast?_concat, Option.map_some,
      ofNat_and_0x80 (hd d List.mem_cons_self)]

theorem VarIntValue_varIntBytes {d : Nat} {l : List Nat} (hd : ∀ x ∈ d :: l, x < 128) :
    VarIntValue (varIntBytes (d :: l)) = value 128 (d :: l) := by
  have hl : (l.map contByte).map (fun x => (x &&& 0x7F).toNat) = l := by
    rw [List.map_map]
    conv_rhs => rw [← List.map_id l]
    exact List.map_congr_left fun y hy =>
      contByte_and_0x7f (hd y (List.mem_cons_of_mem d hy))
  rw [VarIntValue, varIntBytes, List.reverse_append, List.reverse_reverse, List.reverse_singleton,
    List.singleton_append, List.map_cons, hl, ofNat_and_0x7f (hd d List.mem_cons_self)]

/-- Every `VARINT` sequence is the numeral of its low seven bits. -/
theorem exists_varIntBytes {a : List UInt8} (ha : IsVarInt a) :
    ∃ d l, (∀ x ∈ d :: l, x < 128) ∧ a = varIntBytes (d :: l) := by
  obtain ⟨hinit, hlast⟩ := ha
  have hne : a ≠ [] := by
    rintro rfl
    cases hlast
  have hlast' : a.getLast hne &&& 0x80 = 0 := by
    rw [List.getLast?_eq_some_getLast hne, Option.map_some, Option.some.injEq] at hlast
    exact hlast
  refine ⟨(a.getLast hne &&& 0x7F).toNat, (a.dropLast.map fun x => (x &&& 0x7F).toNat).reverse,
    ?_, ?_⟩
  · intro x hx
    rcases List.mem_cons.mp hx with rfl | hx
    · rw [toNat_and_0x7f]
      exact Nat.mod_lt _ (by decide)
    · rw [List.mem_reverse, List.mem_map] at hx
      obtain ⟨y, -, rfl⟩ := hx
      rw [toNat_and_0x7f]
      exact Nat.mod_lt _ (by decide)
  · have hinit' : (a.dropLast.map fun x => (x &&& 0x7F).toNat).map contByte = a.dropLast := by
      rw [List.map_map]
      conv_rhs => rw [← List.map_id a.dropLast]
      exact List.map_congr_left fun y hy => contByte_low (hinit y hy)
    rw [varIntBytes, List.map_reverse, List.reverse_reverse, hinit', ofNat_low hlast',
      List.dropLast_append_getLast]

theorem isVarInt_cons {x : UInt8} {a : List UInt8} (hx : x &&& 0x80 ≠ 0) (ha : IsVarInt a) :
    IsVarInt (x :: a) := by
  obtain ⟨hinit, hlast⟩ := ha
  cases a with
  | nil => cases hlast
  | cons y a =>
    refine ⟨?_, ?_⟩
    · intro z hz
      rw [List.dropLast_cons_cons, List.mem_cons] at hz
      rcases hz with rfl | hz
      · exact hx
      · exact hinit z hz
    · rwa [List.getLast?_cons_cons]

theorem isVarInt_singleton {x : UInt8} (hx : x &&& 0x80 = 0) : IsVarInt [x] :=
  ⟨by simp, by simp [hx]⟩

/-- What an accepted read consumes is a `VARINT` sequence. -/
theorem loop_eq_ok_isVarInt {max n v : Nat} {s rest : List UInt8}
    (h : ReadVarInt.loop max n s = .ok (v, rest)) : ∃ a, IsVarInt a ∧ s = a ++ rest := by
  induction s generalizing n with
  | nil => cases h
  | cons x s ih =>
    rw [ReadVarInt.loop] at h
    dsimp only at h
    split_ifs at h with hover hcont
    · obtain ⟨a, ha, rfl⟩ := ih h
      exact ⟨x :: a, isVarInt_cons hcont ha, rfl⟩
    · obtain ⟨-, rfl⟩ := Prod.mk.inj (Except.ok.inj h)
      exact ⟨[x], isVarInt_singleton (not_not.mp hcont), rfl⟩

/-! ## The round trip -/

section RoundTrip

variable (I : IntType)

/-- The reader returns the number a numeral of the type's values stands for, and the bytes after
it. -/
theorem ReadVarInt_varIntBytes {d : Nat} {l : List Nat} (hd : ∀ x ∈ d :: l, x < 128)
    (hv : value 128 (d :: l) ≤ I.max) (rest : List UInt8) :
    ReadVarInt I (varIntBytes (d :: l) ++ rest) = .ok (value 128 (d :: l), rest) := by
  have hc : carry 128 l ≤ I.max >>> 7 := by
    rw [shiftRight_seven, Nat.le_div_iff_mul_le (by decide)]
    have : value 128 (d :: l) = carry 128 l * 128 + d := rfl
    omega
  rw [ReadVarInt, varIntBytes, List.append_assoc, loop_contBytes
    (fun x hx => hd x (List.mem_cons_of_mem d hx)) hc, List.singleton_append,
    loop_last hc (hd d List.mem_cons_self)]
  rfl

/-- The reader throws on a numeral that stands for more than the type's largest value. -/
theorem ReadVarInt_varIntBytes_overflow {d : Nat} {l : List Nat} (hd : ∀ x ∈ d :: l, x < 128)
    (hv : I.max < value 128 (d :: l)) (rest : List UInt8) :
    ReadVarInt I (varIntBytes (d :: l) ++ rest) =
      .error (.exception "ReadVarInt(): size too large") := by
  have hc : I.max >>> 7 < carry 128 l := by
    have hmod := I.max_mod
    have hd' := hd d List.mem_cons_self
    have : value 128 (d :: l) = carry 128 l * 128 + d := rfl
    rw [shiftRight_seven]
    omega
  rw [ReadVarInt, varIntBytes, List.append_assoc]
  exact loop_contBytes_overflow (fun x hx => hd x (List.mem_cons_of_mem d hx)) hc
    (List.cons_ne_nil _ _)

/-- Every value of the type is written as its numeral. -/
theorem WriteVarInt_of_le {n : Nat} (hn : n ≤ I.max) :
    WriteVarInt I n = .ok (varIntBytes (digits 128 n)) :=
  WriteVarInt_eq (length_digits_le_tmp hn)

theorem length_varIntBytes (d : Nat) (l : List Nat) :
    (varIntBytes (d :: l)).length = (d :: l).length := by
  simp [varIntBytes]

/-- What the writer writes for a value: `GetSizeOfVarInt` bytes of a `VARINT` sequence that
stands for it, which the reader reads back. -/
theorem WriteVarInt_spec {n : Nat} (hn : n ≤ I.max) :
    ∃ a, WriteVarInt I n = .ok a ∧ a.length = GetSizeOfVarInt n ∧ IsVarInt a ∧
      VarIntValue a = n ∧ ∀ rest, ReadVarInt I (a ++ rest) = .ok (n, rest) := by
  obtain ⟨d, l, hdl⟩ := List.exists_cons_of_ne_nil (digits_ne_nil 128 n)
  have hd := lt_of_mem_cons_digits hdl
  have hv : value 128 (d :: l) = n := hdl ▸ value_digits 128 n
  refine ⟨varIntBytes (d :: l), hdl ▸ WriteVarInt_of_le I hn, ?_, isVarInt_varIntBytes hd,
    (VarIntValue_varIntBytes hd).trans hv, fun rest => ?_⟩
  · rw [length_varIntBytes, GetSizeOfVarInt_eq, hdl]
  · rw [ReadVarInt_varIntBytes I hd (hv ▸ hn) rest, hv]

/-- A `VARINT` sequence that stands for a value of the type is what the writer writes for it;
one that stands for more makes the reader throw. -/
theorem IsVarInt.spec {a : List UInt8} (ha : IsVarInt a) :
    (VarIntValue a ≤ I.max → WriteVarInt I (VarIntValue a) = .ok a) ∧
      ∀ rest, I.max < VarIntValue a →
        ReadVarInt I (a ++ rest) = .error (.exception "ReadVarInt(): size too large") := by
  obtain ⟨d, l, hd, rfl⟩ := exists_varIntBytes ha
  rw [VarIntValue_varIntBytes hd]
  refine ⟨fun hv => ?_, fun rest hv => ReadVarInt_varIntBytes_overflow I hd hv rest⟩
  rw [WriteVarInt_of_le I hv, digits_value 128 (List.cons_ne_nil d l) hd]

/-- A read that returns has read a value of the type, and consumed what the writer writes for
it. -/
theorem ReadVarInt_eq_ok {s rest : List UInt8} {n : Nat} (h : ReadVarInt I s = .ok (n, rest)) :
    n ≤ I.max ∧ ∃ a, WriteVarInt I n = .ok a ∧ s = a ++ rest := by
  obtain ⟨a, ha, rfl⟩ := loop_eq_ok_isVarInt h
  obtain ⟨d, l, hd, rfl⟩ := exists_varIntBytes ha
  by_cases hv : value 128 (d :: l) ≤ I.max
  · rw [ReadVarInt_varIntBytes I hd hv rest, Except.ok.injEq, Prod.mk.injEq] at h
    obtain ⟨rfl, -⟩ := h
    refine ⟨hv, varIntBytes (d :: l), ?_, rfl⟩
    rw [WriteVarInt_of_le I hv, digits_value 128 (List.cons_ne_nil d l) hd]
  · rw [ReadVarInt_varIntBytes_overflow I hd (Nat.lt_of_not_le hv) rest] at h
    cases h

theorem readsBack_WriteVarInt {n : Nat} (hn : n ≤ I.max) :
    Codec.ReadsBack (WriteVarInt I) (ReadVarInt I) n n :=
  let ⟨a, hw, _, _, _, hr⟩ := WriteVarInt_spec I hn
  ⟨a, hw, hr⟩

/-- A byte below `128` is a `VARINT` of its own. -/
theorem ReadVarInt_of_lt {x : UInt8} (hx : x.toNat < 128) (s : List UInt8) :
    ReadVarInt I (x :: s) = .ok (x.toNat, s) := by
  have h : ReadVarInt.loop I.max 0 (UInt8.ofNat x.toNat :: s) = .ok (0 * 128 + x.toNat, s) :=
    loop_last (Nat.zero_le _) hx
  rwa [UInt8.ofNat_toNat, Nat.zero_mul, Nat.zero_add] at h

theorem WriteVarIntSigned_of_nonneg {n : Int} (hn : 0 ≤ n) :
    WriteVarIntSigned I n = WriteVarInt I n.toNat := by
  rw [WriteVarIntSigned, if_neg (Int.not_lt.mpr hn)]

end RoundTrip

/-- **`VARINT` is a bijection between the values of a type and the `VARINT` sequences that stand
for them.** Every value is written in `GetSizeOfVarInt` bytes, as a `VARINT` sequence that stands
for it and that the reader reads back, consuming exactly those bytes. Every read that returns
has consumed what the writer writes for the value it returns, so it never returns a wrapped
value. A `VARINT` sequence that stands for a value is what the writer writes for that value,
and one that stands for a number above the type's largest value makes the reader throw. -/
theorem VarInt_roundtrip (I : IntType) :
    (∀ n, n ≤ I.max → ∃ a, WriteVarInt I n = .ok a ∧ a.length = GetSizeOfVarInt n ∧
      IsVarInt a ∧ VarIntValue a = n ∧ ∀ rest, ReadVarInt I (a ++ rest) = .ok (n, rest)) ∧
    (∀ s n rest, ReadVarInt I s = .ok (n, rest) →
      n ≤ I.max ∧ ∃ a, WriteVarInt I n = .ok a ∧ s = a ++ rest) ∧
    (∀ a, IsVarInt a →
      (VarIntValue a ≤ I.max → WriteVarInt I (VarIntValue a) = .ok a) ∧
      ∀ rest, I.max < VarIntValue a →
        ReadVarInt I (a ++ rest) = .error (.exception "ReadVarInt(): size too large")) :=
  ⟨fun _ hn => WriteVarInt_spec I hn, fun _ _ _ h => ReadVarInt_eq_ok I h,
    fun _ ha => ha.spec I⟩

/-- `VARINT` of a `uint64_t` 300: two bytes, read back. -/
theorem VarInt_roundtrip_uint64_300 :
    ∃ a, WriteVarInt ⟨8, false, by decide⟩ 300 = .ok a ∧ a.length = GetSizeOfVarInt 300 ∧
      IsVarInt a ∧ VarIntValue a = 300 ∧
        ∀ rest, ReadVarInt ⟨8, false, by decide⟩ (a ++ rest) = .ok (300, rest) :=
  (VarInt_roundtrip ⟨8, false, by decide⟩).1 300 (by decide)

end NowpConsensus
