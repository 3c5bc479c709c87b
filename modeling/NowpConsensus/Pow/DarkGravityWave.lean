import NowpConsensus.Pow.TargetSpec
import NowpConsensus.Arith.Compact
import Mathlib.Data.List.MinMax

/-!
# The arithmetic of `DarkGravityWave`

`DarkGravityWave` averages the targets of the blocks it walks back over in a 512-bit running
value, scales it by the clamped timespan (through `operator*=(uint32_t)`), divides by the target
timespan and keeps the low 256 bits. Here that computation is described on numbers:

* `dgwBlocks` are the blocks read, `dgwTarget` the target each `nBits` sets, and `pastTargetAvg`
  the running value, `avg_1 = t_1` and `avg_n = (avg_{n-1} * n + t_n) / (n + 1)`;
* `DGWLoop_eq_ok`: the loop computes exactly that running value in 512 bits, by induction on its
  turns, one turn at a time (`DGWLoop_succ_cons_eq`), and `pastTargetAvg_le` bounds it by any
  bound of the targets;
* `DarkGravityWave_eq_ok`: past its guard, on a chain with enough blocks of the type,
  `DarkGravityWave` returns the compact form of `dgwQuotient` cut to 256 bits, or of `powLimit`;
* `DarkGravityWave_retarget`: when `3 * powLimit` and three target timespans fit, nothing is cut:
  the timespan reaches the multiplication whole, the quotient fits 256 bits, and the result
  decodes into `(0, powLimit]`; `DarkGravityWave_retarget_unbounded` shows the bounds the other
  way, on the main network.
-/

namespace NowpConsensus

/-! ## The loop of `DarkGravityWave` on numbers -/

/-- The target the `nBits` of a block sets, as `DarkGravityWave` reads it. -/
def dgwTarget (b : CBlockIndex) : Nat := (arith_uint256.SetCompact b.nBits).1.toNat

/-- The blocks `DarkGravityWave` reads from `pindexLast = last`, newest first: `last` and the
`N - 1` nearest earlier blocks of the type. -/
def dgwBlocks (f : Bool) (N : Nat) (last : CBlockIndex) (rest : BlockPtr) : List CBlockIndex :=
  last :: (rest.filter (fun b => b.isProofOfStake == f)).take (N - 1)

/-- The running value `bnPastTargetAvg` from count `n` on, over the targets still to read: the
first count takes its target, and count `n` then weighs the value by `n` against the new
target, `(avg * n + t) / (n + 1)`. -/
def pastTargetAvg : Nat → Nat → List Nat → Nat
  | _, avg, [] => avg
  | n, avg, t :: ts => pastTargetAvg (n + 1) (if n = 1 then t else (avg * n + t) / (n + 1)) ts

/-- A skip to the type `f` that lands on a block lands on the first block of the type. -/
theorem filter_of_dropWhile_eq_cons {f : Bool} {l rest : BlockPtr} {b : CBlockIndex}
    (h : l.dropWhile (fun b => b.isProofOfStake != f) = b :: rest) :
    l.filter (fun b => b.isProofOfStake == f) = b :: rest.filter (fun b => b.isProofOfStake == f) := by
  induction l with
  | nil => cases h
  | cons a l ih =>
    by_cases ha : a.isProofOfStake = f
    · have hd : (a :: l).dropWhile (fun b => b.isProofOfStake != f) = a :: l := by
        simp [ha]
      rw [hd] at h
      obtain ⟨rfl, rfl⟩ := List.cons.inj h
      simp [ha]
    · have hd : (a :: l).dropWhile (fun b => b.isProofOfStake != f) =
          l.dropWhile (fun b => b.isProofOfStake != f) := by
        simp [ha]
      rw [hd] at h
      simp [ha, ih h]

/-- The 512-bit step of the running value is the step on numbers, while the value and the target
are below `2 ^ 256`. -/
theorem avgStep_toNat {c : Nat} (hc : c < 2 ^ 31) {avg : arith_uint512} {t : arith_uint256}
    (ha : avg.toNat < 2 ^ 256) :
    (if c = 1 then arith_uint512.ofArith256 t
      else (avg * BitVec.ofNat 512 c + arith_uint512.ofArith256 t) / BitVec.ofNat 512 (c + 1)).toNat =
      if c = 1 then t.toNat else (avg.toNat * c + t.toNat) / (c + 1) := by
  have ht : (arith_uint512.ofArith256 t).toNat = t.toNat := by
    rw [arith_uint512.ofArith256, BitVec.toNat_setWidth, Nat.mod_eq_of_lt (by omega)]
  split_ifs
  · exact ht
  · have hprod : avg.toNat * c + t.toNat < 2 ^ 512 := by
      have : avg.toNat * c ≤ (2 ^ 256 - 1) * 2 ^ 31 := Nat.mul_le_mul (by omega) hc.le
      omega
    rw [BitVec.toNat_udiv, BitVec.toNat_add, BitVec.toNat_mul, ht, BitVec.toNat_ofNat,
      BitVec.toNat_ofNat, Nat.mod_eq_of_lt (by omega : c < 2 ^ 512),
      Nat.mod_eq_of_lt (by omega : c + 1 < 2 ^ 512),
      Nat.mod_eq_of_lt (by omega : avg.toNat * c < 2 ^ 512), Nat.mod_eq_of_lt hprod]

theorem avgStep_le {c avg t B : Nat} (ha : avg ≤ B) (ht : t ≤ B) :
    (if c = 1 then t else (avg * c + t) / (c + 1)) ≤ B := by
  split_ifs
  · exact ht
  · apply Nat.div_le_of_le_mul
    calc avg * c + t ≤ B * c + B := Nat.add_le_add (Nat.mul_le_mul_right c ha) ht
      _ = (c + 1) * B := by ring

/-- **The running value never exceeds a bound of the targets.** -/
theorem pastTargetAvg_le {B : Nat} {ts : List Nat} (hts : ∀ t ∈ ts, t ≤ B) :
    ∀ {n avg : Nat}, avg ≤ B → pastTargetAvg n avg ts ≤ B := by
  induction ts with
  | nil => exact fun ha => ha
  | cons t ts ih =>
    intro n avg ha
    exact ih (fun t' ht' => hts t' (List.mem_cons_of_mem _ ht'))
      (avgStep_le ha (hts t List.mem_cons_self))

/-- **The walk of `DarkGravityWave` on a chain with enough blocks of the type**: the last `t`
turns of the loop from count `c` on a block `b` read `b` and the `t - 1` nearest earlier blocks
of the type, return the suffix of the chain at the oldest of them, and compute the running value
`pastTargetAvg` of their targets, exactly in 512 bits. -/
theorem DGWLoop_eq_ok {f : Bool} {N : Nat} (hN : N < 2 ^ 31) :
    ∀ {t c : Nat} {b : CBlockIndex} {rest : BlockPtr} {avg : arith_uint512},
      1 ≤ c → c + t = N + 1 → 1 ≤ t → t ≤ countType f rest + 1 → avg.toNat < 2 ^ 256 →
      ∃ q, DGWLoop f N t c (b :: rest) avg =
        .ok (((rest.filter (fun b => b.isProofOfStake == f)).take (t - 1)).getLastD b :: q,
          BitVec.ofNat 512 (pastTargetAvg c avg.toNat
            ((b :: (rest.filter (fun b => b.isProofOfStake == f)).take (t - 1)).map dgwTarget))) := by
  intro t
  induction t with
  | zero => intro c b rest avg _ _ ht; omega
  | succ t ih =>
    intro c b rest avg hc hct _ hcount havg
    set v := if c = 1 then (arith_uint256.SetCompact b.nBits).1.toNat
      else (avg.toNat * c + (arith_uint256.SetCompact b.nBits).1.toNat) / (c + 1) with hv
    have hlt : v < 2 ^ 256 :=
      lt_of_le_of_lt (avgStep_le (B := 2 ^ 256 - 1) (by omega) (by omega)) (by norm_num)
    have hval : (if c = 1 then arith_uint512.ofArith256 (arith_uint256.SetCompact b.nBits).1
        else (avg * BitVec.ofNat 512 c + arith_uint512.ofArith256
          (arith_uint256.SetCompact b.nBits).1) / BitVec.ofNat 512 (c + 1)) = BitVec.ofNat 512 v := by
      apply BitVec.eq_of_toNat_eq
      rw [avgStep_toNat (by omega) havg, BitVec.toNat_ofNat, Nat.mod_eq_of_lt (by omega)]
    have hvNat : (BitVec.ofNat 512 v).toNat = v := by
      rw [BitVec.toNat_ofNat, Nat.mod_eq_of_lt (by omega)]
    rw [DGWLoop_succ_cons_eq (by omega), hval]
    by_cases hcN : c = N
    · obtain rfl : t = 0 := by omega
      refine ⟨rest, ?_⟩
      simp [hcN, DGWLoop, pastTargetAvg, dgwTarget, hv]
    · have hne : rest.dropWhile (fun b => b.isProofOfStake != f) ≠ [] := fun h => by
        have := dropWhile_eq_nil_iff.1 h
        omega
      obtain ⟨b', rest', hd⟩ := List.exists_cons_of_ne_nil hne
      have hcount' := countType_of_dropWhile_eq_cons hd
      have hstep : DGWStep f (b :: rest) = .ok (b' :: rest') :=
        DGWStep_eq_ok_iff.2 ⟨hd.symm, List.cons_ne_nil _ _⟩
      simp only [ne_eq, hcN, not_false_eq_true, if_true, hstep, Except.bind_ok_left]
      obtain ⟨q, hq⟩ := @ih (c + 1) b' rest' _ (by omega) (by omega) (by omega) (by omega)
        (hvNat ▸ hlt)
      refine ⟨q, ?_⟩
      obtain ⟨t', rfl⟩ : ∃ t', t = t' + 1 := ⟨t - 1, by omega⟩
      rw [hq, filter_of_dropWhile_eq_cons hd, hvNat]
      simp only [Nat.add_sub_cancel, List.take_succ_cons, List.getLastD_cons]
      simp [pastTargetAvg, dgwTarget, hv]

/-! ## `DarkGravityWave` on numbers -/

/-- `nTargetTimespan`: `DGWBlocksAvg` spacings of the type, doubled past the proof-of-stake
activation height. -/
def dgwTargetTimespan (params : Params) (last : CBlockIndex) (f : Bool) : Int :=
  let T := params.DGWBlocksAvg *
    (if f then params.nStakeTargetSpacing else params.nPowTargetSpacing)
  if last.nHeight > params.nPoSActivationHeight then T * 2 else T

/-- `nActualTimespan` after the clamp: the time from the oldest block read to `last`, raised to
`T / 3` and cut to `3 T`. -/
def dgwActualTimespan (params : Params) (last : CBlockIndex) (rest : BlockPtr) (f : Bool) : Int :=
  let T := dgwTargetTimespan params last f
  let first := ((rest.filter (fun b => b.isProofOfStake == f)).take
    (params.DGWBlocksAvg.toNat - 1)).getLastD last
  let a := last.getBlockTime - first.getBlockTime
  let a := if a < T.tdiv 3 then T.tdiv 3 else a
  if a > T * 3 then T * 3 else a

/-- `bnPastTargetAvg` at the end of the loop. -/
def dgwAverage (params : Params) (last : CBlockIndex) (rest : BlockPtr) (f : Bool) : Nat :=
  pastTargetAvg 1 0 ((dgwBlocks f params.DGWBlocksAvg.toNat last rest).map dgwTarget)

/-- `bnNew` after `*= nActualTimespan` (a 32-bit operand) and `/= nTargetTimespan`. -/
def dgwQuotient (params : Params) (last : CBlockIndex) (rest : BlockPtr) (f : Bool) : Nat :=
  dgwAverage params last rest f * (dgwActualTimespan params last rest f % 2 ^ 32).toNat /
    (dgwTargetTimespan params last f).toNat

theorem dgwTarget_lt (b : CBlockIndex) : dgwTarget b < 2 ^ 256 :=
  (arith_uint256.SetCompact b.nBits).1.isLt

theorem dgwAverage_lt (params : Params) (last : CBlockIndex) (rest : BlockPtr) (f : Bool) :
    dgwAverage params last rest f < 2 ^ 256 := by
  have h : dgwAverage params last rest f ≤ 2 ^ 256 - 1 := by
    refine pastTargetAvg_le (fun t ht => ?_) (Nat.zero_le _)
    obtain ⟨b, -, rfl⟩ := List.mem_map.1 ht
    have := dgwTarget_lt b
    omega
  omega

theorem dgwTargetTimespan_pos (params : Params) (last : CBlockIndex) (f : Bool) :
    0 < dgwTargetTimespan params last f ∧ dgwTargetTimespan params last f < 2 ^ 63 := by
  have hN := params.DGWBlocksAvg_pos
  have hN' := params.DGWBlocksAvg_lt
  obtain ⟨hs, hs'⟩ : 0 < (if f then params.nStakeTargetSpacing else params.nPowTargetSpacing) ∧
      (if f then params.nStakeTargetSpacing else params.nPowTargetSpacing) < 2 ^ 31 := by
    split
    · exact ⟨params.nStakeTargetSpacing_pos, params.nStakeTargetSpacing_lt⟩
    · exact ⟨params.nPowTargetSpacing_pos, params.nPowTargetSpacing_lt⟩
  have hT : params.DGWBlocksAvg *
      (if f then params.nStakeTargetSpacing else params.nPowTargetSpacing) < 2 ^ 62 :=
    calc _ < (2 : Int) ^ 31 * 2 ^ 31 := mul_lt_mul'' hN' hs' hN.le hs.le
      _ = 2 ^ 62 := by norm_num
  have hT0 := mul_pos hN hs
  unfold dgwTargetTimespan
  dsimp only
  generalize params.DGWBlocksAvg *
    (if f then params.nStakeTargetSpacing else params.nPowTargetSpacing) = P at hT hT0 ⊢
  split <;> omega

/-- The retarget's `*=`, `/=` and `trim256` on a running value below `2 ^ 256`: the 32-bit
operand times the value does not wrap in 512 bits, and the divisor is the timespan itself. -/
theorem retarget_trim {avg : Nat} {s T : Int} (havg : avg < 2 ^ 256) (hT : 0 < T)
    (hT' : T < 2 ^ 64) :
    arith_uint512.trim256 (BitVec.ofNat 512 avg * BitVec.ofNat 512 (s % 2 ^ 32).toNat /
      base_uint.ofUInt64 (T % 2 ^ 64).toNat) =
      BitVec.ofNat 256 (avg * (s % 2 ^ 32).toNat / T.toNat) := by
  have hs : (s % 2 ^ 32).toNat < 2 ^ 32 := by omega
  have hprod : avg * (s % 2 ^ 32).toNat < 2 ^ 512 :=
    calc avg * (s % 2 ^ 32).toNat < 2 ^ 256 * 2 ^ 32 :=
          Nat.mul_lt_mul_of_lt_of_lt havg hs
      _ < 2 ^ 512 := by rw [← pow_add]; exact Nat.pow_lt_pow_right (by norm_num) (by norm_num)
  have hTmod : T % 2 ^ 64 = T := Int.emod_eq_of_lt hT.le hT'
  have h1 : avg % 2 ^ 512 = avg := Nat.mod_eq_of_lt (by omega)
  have h2 : (s % 2 ^ 32).toNat % 2 ^ 512 = (s % 2 ^ 32).toNat := Nat.mod_eq_of_lt (by omega)
  have h3 : T.toNat % 2 ^ 64 % 2 ^ 512 = T.toNat := by
    rw [Nat.mod_eq_of_lt (by omega : T.toNat < 2 ^ 64), Nat.mod_eq_of_lt (by omega)]
  apply BitVec.eq_of_toNat_eq
  simp only [arith_uint512.trim256, BitVec.toNat_setWidth, BitVec.toNat_udiv, BitVec.toNat_mul,
    BitVec.toNat_ofNat, base_uint.ofUInt64, hTmod, h1, h2, h3, Nat.mod_eq_of_lt hprod]

/-- The loop of `DarkGravityWave`, from `pindexLast` on a chain with enough blocks of the type,
ends on the oldest block read with the running value `dgwAverage`. -/
theorem DGWLoop_eq_dgwAverage {params : Params} {last : CBlockIndex} {rest : BlockPtr} {f : Bool}
    (hcount : params.DGWBlocksAvg ≤ countType f rest + 1) :
    ∃ q, DGWLoop f params.DGWBlocksAvg.toNat params.DGWBlocksAvg.toNat 1 (last :: rest) 0 =
      .ok (((rest.filter (fun b => b.isProofOfStake == f)).take
          (params.DGWBlocksAvg.toNat - 1)).getLastD last :: q,
        BitVec.ofNat 512 (dgwAverage params last rest f)) := by
  have hN := params.DGWBlocksAvg_pos
  have hN' := params.DGWBlocksAvg_lt
  have h := @DGWLoop_eq_ok f params.DGWBlocksAvg.toNat (by omega)
    params.DGWBlocksAvg.toNat 1 last rest 0 le_rfl (by omega) (by omega) (by omega) (by simp)
  rwa [show BitVec.toNat (0 : arith_uint512) = 0 from BitVec.toNat_zero] at h

/-- **What `DarkGravityWave` returns past its guard**, on a chain with enough blocks of the type:
the compact form of the quotient `dgwQuotient`, cut to 256 bits and replaced by `powLimit` when
zero or above it. -/
theorem DarkGravityWave_eq_ok {params : Params} {last : CBlockIndex} {rest : BlockPtr} {f : Bool}
    (hheight : params.DGWBlocksAvg ≤ last.nHeight)
    (hcount : params.DGWBlocksAvg ≤ countType f rest + 1) :
    DarkGravityWave params (last :: rest) f =
      .ok (arith_uint256.GetCompact
        (let bnFinal : arith_uint256 := BitVec.ofNat 256 (dgwQuotient params last rest f)
        if bnFinal = 0 || UintToArith256 params.powLimit < bnFinal then
          UintToArith256 params.powLimit else bnFinal)) := by
  obtain ⟨q, hloop⟩ := DGWLoop_eq_dgwAverage hcount
  simp only [DarkGravityWave]
  rw [if_neg (by omega), hloop, Except.bind_ok_left]
  dsimp only
  rw [base_uint.div_eq_ok (DGW_divisor_ne_zero params f _), Except.bind_ok_left,
    retarget_trim ?avg ?pos ?lt]
  · simp only [dgwQuotient, dgwAverage, dgwActualTimespan, dgwTargetTimespan, dgwBlocks]
    congr 1
  · exact dgwAverage_lt params last rest f
  · exact (dgwTargetTimespan_pos params last f).1
  · exact lt_trans (dgwTargetTimespan_pos params last f).2 (by norm_num)

/-- The clamp keeps the timespan within `[T / 3, 3 T]`. -/
theorem dgwActualTimespan_mem (params : Params) (last : CBlockIndex) (rest : BlockPtr)
    (f : Bool) :
    dgwTargetTimespan params last f / 3 ≤ dgwActualTimespan params last rest f ∧
      dgwActualTimespan params last rest f ≤ 3 * dgwTargetTimespan params last f := by
  have hT := (dgwTargetTimespan_pos params last f).1
  have htdiv : (dgwTargetTimespan params last f).tdiv 3 = dgwTargetTimespan params last f / 3 :=
    Int.tdiv_eq_ediv_of_nonneg hT.le
  have hle : dgwTargetTimespan params last f / 3 ≤ 3 * dgwTargetTimespan params last f := by
    omega
  unfold dgwActualTimespan
  dsimp only
  rw [htdiv]
  split_ifs <;> omega

/-- The value `DarkGravityWave` falls back on: `powLimit` for a zero quotient, the quotient cut
to `powLimit` otherwise. -/
theorem dgwFinal_eq {q : Nat} (hq : q < 2 ^ 256) (L : arith_uint256) :
    (let bnFinal : arith_uint256 := BitVec.ofNat 256 q
    if bnFinal = 0 || L < bnFinal then L else bnFinal) =
      BitVec.ofNat 256 (if q = 0 then L.toNat else min L.toNat q) := by
  have hq' : (BitVec.ofNat 256 q).toNat = q := by
    rw [BitVec.toNat_ofNat, Nat.mod_eq_of_lt hq]
  apply BitVec.eq_of_toNat_eq
  by_cases hq0 : q = 0
  · subst hq0
    simp
  · have hne : BitVec.ofNat 256 q ≠ 0#256 := fun h => hq0 (by rw [← hq', h]; rfl)
    have hL := L.isLt
    by_cases hlt : L.toNat < q
    · have : L < BitVec.ofNat 256 q := by rw [BitVec.lt_def, hq']; exact hlt
      simp [hne, this, hq0, Nat.min_eq_left hlt.le]
    · have : ¬ L < BitVec.ofNat 256 q := by rw [BitVec.lt_def, hq']; exact hlt
      simp [hne, this, hq0, Nat.min_eq_right (Nat.not_lt.1 hlt)]

/-- **The arithmetic of `DarkGravityWave` is exact.** On a chain with enough blocks of the type,
whose targets are at most `powLimit`, with `3 * powLimit` below `2 ^ 256` and `3 T` below
`2 ^ 32`: the loop's running value is `pastTargetAvg` of the targets and never exceeds the
largest target read so far; the clamped timespan is passed whole to `operator*=(uint32_t)`;
the 512-bit product and the quotient are exact and `trim256` keeps the quotient; and the
compact returned is that of the quotient cut to `powLimit`, or of `powLimit` for a zero
quotient, so it decodes to a value in `(0, powLimit]`. -/
theorem DarkGravityWave_retarget {params : Params} {last : CBlockIndex} {rest : BlockPtr}
    {f : Bool}
    (hheight : params.DGWBlocksAvg ≤ last.nHeight)
    (hcount : params.DGWBlocksAvg ≤ countType f rest + 1)
    (htargets : ∀ b ∈ dgwBlocks f params.DGWBlocksAvg.toNat last rest,
      dgwTarget b ≤ (UintToArith256 params.powLimit).toNat)
    (hlimit : 0 < (UintToArith256 params.powLimit).toNat)
    (hlimit3 : 3 * (UintToArith256 params.powLimit).toNat < 2 ^ 256)
    (hspan : 3 * dgwTargetTimespan params last f < 2 ^ 32) :
    let targets := (dgwBlocks f params.DGWBlocksAvg.toNat last rest).map dgwTarget
    let avg := dgwAverage params last rest f
    let T := dgwTargetTimespan params last f
    let span := dgwActualTimespan params last rest f
    let q := avg * span.toNat / T.toNat
    let limit := (UintToArith256 params.powLimit).toNat
    let v := if q = 0 then limit else min limit q
    (∃ pindex, DGWLoop f params.DGWBlocksAvg.toNat params.DGWBlocksAvg.toNat 1 (last :: rest) 0 =
      .ok (pindex, BitVec.ofNat 512 avg)) ∧
    (∀ n, pastTargetAvg 1 0 (targets.take n) ≤ (targets.take n).foldr max 0) ∧
    T / 3 ≤ span ∧ span ≤ 3 * T ∧ span % 2 ^ 32 = span ∧
    (BitVec.ofNat 512 avg * BitVec.ofNat 512 (span % 2 ^ 32).toNat).toNat = avg * span.toNat ∧
    (arith_uint512.trim256 (BitVec.ofNat 512 q)).toNat = q ∧
    DarkGravityWave params (last :: rest) f = .ok (arith_uint256.GetCompact (BitVec.ofNat 256 v)) ∧
    (arith_uint256.SetCompact (arith_uint256.GetCompact (BitVec.ofNat 256 v))).1.toNat =
      Compact.round v ∧
    0 < Compact.round v ∧ Compact.round v ≤ limit := by
  intro targets avg T span q limit v
  have hT := dgwTargetTimespan_pos params last f
  obtain ⟨hlo, hhi⟩ := dgwActualTimespan_mem params last rest f
  have hspan0 : 0 ≤ span := le_trans (Int.ediv_nonneg hT.1.le (by norm_num)) hlo
  have hmod : span % 2 ^ 32 = span := Int.emod_eq_of_lt hspan0 (by omega)
  have havg : avg ≤ limit := pastTargetAvg_le (fun t ht => by
    obtain ⟨b, hb, rfl⟩ := List.mem_map.1 ht
    exact htargets b hb) (Nat.zero_le _)
  have hq3 : q ≤ 3 * avg := by
    apply Nat.div_le_of_le_mul
    have hs : span.toNat ≤ 3 * T.toNat := by omega
    calc avg * span.toNat ≤ avg * (3 * T.toNat) := Nat.mul_le_mul_left _ hs
      _ = T.toNat * (3 * avg) := by ring
  have hq : q < 2 ^ 256 := by omega
  have hv : 0 < v ∧ v ≤ limit := by
    simp only [v]
    split_ifs with hq0
    · exact ⟨hlimit, le_rfl⟩
    · exact ⟨lt_min hlimit (Nat.pos_of_ne_zero hq0), min_le_left _ _⟩
  have hprod : avg * span.toNat < 2 ^ 512 :=
    calc avg * span.toNat < 2 ^ 256 * 2 ^ 32 :=
          Nat.mul_lt_mul_of_lt_of_lt (by omega) (by omega)
      _ < 2 ^ 512 := by rw [← pow_add]; exact Nat.pow_lt_pow_right (by norm_num) (by norm_num)
  obtain ⟨pindex, hloop⟩ := @DGWLoop_eq_dgwAverage params last rest f hcount
  refine ⟨⟨_, hloop⟩, fun n => pastTargetAvg_le (fun t ht => List.le_max_of_le ht le_rfl)
    (Nat.zero_le _), hlo, hhi, hmod, ?_, ?_, ?_, ?_, Compact.round_pos hv.1,
    (Compact.round_le v).trans hv.2⟩
  · rw [hmod, BitVec.toNat_mul, BitVec.toNat_ofNat, BitVec.toNat_ofNat,
      Nat.mod_eq_of_lt (by omega : avg < 2 ^ 512),
      Nat.mod_eq_of_lt (by omega : span.toNat < 2 ^ 512), Nat.mod_eq_of_lt hprod]
  · rw [arith_uint512.trim256, BitVec.toNat_setWidth, BitVec.toNat_ofNat,
      Nat.mod_eq_of_lt (by omega : q < 2 ^ 512), Nat.mod_eq_of_lt hq]
  · rw [DarkGravityWave_eq_ok hheight hcount, dgwQuotient, hmod]
    exact congrArg (fun x => Except.ok (arith_uint256.GetCompact x)) (dgwFinal_eq hq _)
  · have hvlt : v < 2 ^ 256 := by omega
    rw [arith_uint256.SetCompact_GetCompact, BitVec.toNat_ofNat, BitVec.toNat_ofNat,
      Nat.mod_eq_of_lt hvlt, Nat.mod_eq_of_lt (lt_of_le_of_lt (Compact.round_le v) hvlt)]

theorem DarkGravityWave_retarget_main :
    let entry : Nat → CBlockIndex := fun i =>
      ⟨0, i, UInt32.ofNat (1680357192 + 120 * i), 0x1e00ffff, 0⟩
    let rest := (List.range 60).reverse.map entry
    let limit := (UintToArith256 mainConsensus.powLimit).toNat
    mainConsensus.DGWBlocksAvg ≤ (entry 60).nHeight ∧
      mainConsensus.DGWBlocksAvg ≤ countType false rest + 1 ∧
      (∀ b ∈ dgwBlocks false mainConsensus.DGWBlocksAvg.toNat (entry 60) rest,
        dgwTarget b ≤ limit) ∧
      0 < limit ∧ 3 * limit < 2 ^ 256 ∧
      3 * dgwTargetTimespan mainConsensus (entry 60) false < 2 ^ 32 ∧
      ∃ c, DarkGravityWave mainConsensus (entry 60 :: rest) false = .ok c ∧
        0 < (arith_uint256.SetCompact c).1.toNat ∧ (arith_uint256.SetCompact c).1.toNat ≤ limit := by
  intro entry rest limit
  have h1 : mainConsensus.DGWBlocksAvg ≤ (entry 60).nHeight := by decide +kernel
  have h2 : mainConsensus.DGWBlocksAvg ≤ countType false rest + 1 := by decide +kernel
  have h3 : ∀ b ∈ dgwBlocks false mainConsensus.DGWBlocksAvg.toNat (entry 60) rest,
      dgwTarget b ≤ limit := by decide +kernel
  have h4 : 0 < limit := by decide +kernel
  have h5 : 3 * limit < 2 ^ 256 := by decide +kernel
  have h6 : 3 * dgwTargetTimespan mainConsensus (entry 60) false < 2 ^ 32 := by decide +kernel
  obtain ⟨-, -, -, -, -, -, -, hres, hdec, hpos, hle⟩ := DarkGravityWave_retarget h1 h2 h3 h4 h5 h6
  exact ⟨h1, h2, h3, h4, h5, h6, _, hres, hdec ▸ hpos, hdec ▸ hle⟩

/-- **Without the bounds of `DarkGravityWave_retarget`, its result is not the rounded quotient on
the main network.** Sixty proof-of-work blocks two minutes apart at `powLimit`'s compact
`0x2000ffff` make the 512-bit product of the running value and the clamped timespan reach
`2 ^ 256`; and at the compact `0x01010000` (target 1) the quotient is zero, so `DarkGravityWave`
returns `powLimit`'s compact, which decodes to `powLimit` rounded, not to the rounding of
`min powLimit 0 = 0`. -/
theorem DarkGravityWave_retarget_unbounded :
    let entry : UInt32 → Nat → CBlockIndex := fun nBits i =>
      ⟨0, i, UInt32.ofNat (1680357192 + 120 * i), nBits, 0⟩
    let rest : UInt32 → BlockPtr := fun nBits => (List.range 60).reverse.map (entry nBits)
    let limit := (UintToArith256 mainConsensus.powLimit).toNat
    ((∀ b ∈ dgwBlocks false 60 (entry 0x2000ffff 60) (rest 0x2000ffff), dgwTarget b ≤ limit) ∧
      (∃ pindex, DGWLoop false 60 60 1 (entry 0x2000ffff 60 :: rest 0x2000ffff) 0 =
        .ok (pindex, BitVec.ofNat 512 (dgwAverage mainConsensus (entry 0x2000ffff 60)
          (rest 0x2000ffff) false))) ∧
      2 ^ 256 ≤ dgwAverage mainConsensus (entry 0x2000ffff 60) (rest 0x2000ffff) false *
        (dgwActualTimespan mainConsensus (entry 0x2000ffff 60) (rest 0x2000ffff) false).toNat) ∧
    ((∀ b ∈ dgwBlocks false 60 (entry 0x01010000 60) (rest 0x01010000), dgwTarget b ≤ limit) ∧
      dgwAverage mainConsensus (entry 0x01010000 60) (rest 0x01010000) false *
        (dgwActualTimespan mainConsensus (entry 0x01010000 60) (rest 0x01010000) false).toNat /
        (dgwTargetTimespan mainConsensus (entry 0x01010000 60) false).toNat = 0 ∧
      DarkGravityWave mainConsensus (entry 0x01010000 60 :: rest 0x01010000) false =
        .ok (arith_uint256.GetCompact (UintToArith256 mainConsensus.powLimit)) ∧
      (arith_uint256.SetCompact (arith_uint256.GetCompact
        (UintToArith256 mainConsensus.powLimit))).1.toNat ≠ Compact.round (min limit 0)) := by
  intro entry rest limit
  refine ⟨⟨by decide +kernel, ?_, by decide +kernel⟩,
    by decide +kernel, by decide +kernel, by decide +kernel, by decide +kernel⟩
  obtain ⟨q, h⟩ := @DGWLoop_eq_dgwAverage mainConsensus (entry 0x2000ffff 60) (rest 0x2000ffff)
    false (by decide +kernel)
  exact ⟨_, h⟩

end NowpConsensus
