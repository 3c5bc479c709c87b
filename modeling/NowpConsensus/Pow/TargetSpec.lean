import NowpConsensus.Pow.Target

/-!
# What the target computation does

`DarkGravityWave` reads `DGWBlocksAvg` blocks of the requested type, walking back from its
argument, and asserts on the way that the chain has not run out. Its own guard only compares the
height of its argument with `DGWBlocksAvg`, so whether the walk stays on the chain depends on how
blocks of the two types are interleaved.

* `DGWLoop_eq_error_iff`: the walk fails, and then by a failed assertion, exactly when fewer than
  `DGWBlocksAvg - 1` blocks of the type precede its start;
* `DarkGravityWave_eq_error_iff`: so `DarkGravityWave` fails exactly when its argument is high
  enough for the guard and yet that count is short;
* `IsPosDGWenabled_eq`: the proof-of-stake switch answers `true` exactly when its static is set or
  more than `nPowDGWHeight + 1` proof-of-stake blocks precede the block, and sets the static to
  its answer;
* `GetNextTargetRequired_eq_error_iff`: `GetNextTargetRequired` stops only in `DarkGravityWave`,
  on the main networks, past the two first-blocks cases and the height switch;
* `GetNextTargetRequired_fst_congr`: the target reads the static only through the switch's
  answer, so it is the same for every static on proof-of-work calls and on chains with enough
  proof-of-stake blocks, and may differ otherwise.

`Validation/HeaderTree.lean` builds on these a run of header acceptance that reaches a failing
call.
-/

namespace NowpConsensus

/-- A non-empty skip to the type `f` consumes exactly one block of the type. -/
theorem countType_of_dropWhile_eq_cons {f : Bool} {l rest : BlockPtr} {b : CBlockIndex}
    (h : l.dropWhile (fun b => b.isProofOfStake != f) = b :: rest) :
    countType f l = countType f rest + 1 := by
  rw [← countType_dropWhile f l, h, countType_cons, if_pos (head_dropWhile h)]

/-! ## The walk of `DarkGravityWave` -/

/-- A step back from a block succeeds exactly when a block of the type precedes it, and then
lands on the nearest one. -/
theorem DGWStep_eq_ok_iff {f : Bool} {b : CBlockIndex} {pprev q : BlockPtr} :
    DGWStep f (b :: pprev) = .ok q ↔
      q = pprev.dropWhile (fun b => b.isProofOfStake != f) ∧ q ≠ [] := by
  cases pprev with
  | nil => simp [DGWStep]
  | cons c rest =>
    simp only [DGWStep]
    split
    · rename_i h
      simp [h]
    · rename_i q' h
      simp only [Except.ok.injEq]
      constructor
      · rintro rfl
        exact ⟨rfl, h⟩
      · rintro ⟨rfl, -⟩
        rfl

/-- A step back fails, on an assertion, exactly when no block of the type precedes. -/
theorem DGWStep_eq_error_iff {f : Bool} {b : CBlockIndex} {pprev : BlockPtr} {e : Abort} :
    DGWStep f (b :: pprev) = .error e ↔ e = .assertion ∧ countType f pprev = 0 := by
  cases pprev with
  | nil => simp [DGWStep, eq_comm]
  | cons c rest =>
    simp only [DGWStep]
    split
    · rename_i h
      simp [eq_comm, dropWhile_eq_nil_iff.1 h]
    · rename_i q h
      simp only [reduceCtorEq, false_iff, not_and]
      intro _ hcount
      exact h (dropWhile_eq_nil_iff.2 hcount)

/-- The divisions of the averaging loop never stop it: the divisor `nCountBlocks + 1` is not
zero. -/
theorem DGWLoop_div_ok {c : Nat} (hc : c < 2 ^ 31) (x : arith_uint512) :
    base_uint.div x (BitVec.ofNat 512 (c + 1)) = .ok (x / BitVec.ofNat 512 (c + 1)) := by
  apply base_uint.div_eq_ok
  intro h
  have := congrArg BitVec.toNat h
  simp only [BitVec.toNat_ofNat] at this
  simp at this
  omega

/-- One turn of the loop on a block: the running value is computed without stopping, the first
count taking the block's target and each later one weighing the value by the count, and the turn
then steps back, except on the last count. -/
theorem DGWLoop_succ_cons_eq {f : Bool} {N t c : Nat} {b : CBlockIndex} {rest : BlockPtr}
    {avg : arith_uint512} (hc : c < 2 ^ 31) :
    DGWLoop f N (t + 1) c (b :: rest) avg =
      (if c ≠ N then DGWStep f (b :: rest) else pure (b :: rest)) >>=
        fun p => DGWLoop f N t (c + 1) p
          (if c = 1 then arith_uint512.ofArith256 (arith_uint256.SetCompact b.nBits).1
          else (avg * BitVec.ofNat 512 c + arith_uint512.ofArith256
            (arith_uint256.SetCompact b.nBits).1) / BitVec.ofNat 512 (c + 1)) := by
  rw [DGWLoop]
  by_cases h1 : c = 1
  · simp only [h1, if_true]
    split <;> rfl
  · simp only [h1, if_false, DGWLoop_div_ok hc, Except.bind_ok_left]
    split <;> rfl

theorem DGWLoop_succ_cons {f : Bool} {N t c : Nat} {b : CBlockIndex} {rest : BlockPtr}
    {avg : arith_uint512} (hc : c < 2 ^ 31) :
    ∃ avg', DGWLoop f N (t + 1) c (b :: rest) avg =
      (if c ≠ N then DGWStep f (b :: rest) else pure (b :: rest)) >>=
        fun p => DGWLoop f N t (c + 1) p avg' :=
  ⟨_, DGWLoop_succ_cons_eq hc⟩

/-- **The walk of `DarkGravityWave` fails exactly when the chain is short of blocks of the
type**: from a block with `rest` before it, the loop's last `t` turns, which step back `t - 1`
times, stop, and then on an assertion, exactly when fewer than `t - 1` blocks of the type are in
`rest`. -/
theorem DGWLoop_eq_error_iff {f : Bool} {N : Nat} (hN : N < 2 ^ 31) :
    ∀ {t c : Nat} {b : CBlockIndex} {rest : BlockPtr} {avg : arith_uint512} {e : Abort},
      1 ≤ c → c + t = N + 1 →
      (DGWLoop f N t c (b :: rest) avg = .error e ↔ e = .assertion ∧ countType f rest + 1 < t) := by
  intro t
  induction t with
  | zero => intro c b rest avg e _ _; simp [DGWLoop]
  | succ t ih =>
    intro c b rest avg e hc hct
    obtain ⟨avg', hturn⟩ := @DGWLoop_succ_cons f N t c b rest avg (by omega)
    rw [hturn]
    by_cases hcN : c = N
    · have ht : t = 0 := by omega
      subst ht
      simp [hcN, DGWLoop]
    · simp only [ne_eq, hcN, not_false_eq_true, if_true]
      cases hstep : DGWStep f (b :: rest) with
      | error e' =>
        obtain ⟨rfl, hcount⟩ := DGWStep_eq_error_iff.1 hstep
        simp only [Except.bind_error_left, Except.error.injEq]
        constructor
        · rintro rfl
          exact ⟨rfl, by omega⟩
        · rintro ⟨rfl, -⟩
          rfl
      | ok q =>
        obtain ⟨hq, hne⟩ := DGWStep_eq_ok_iff.1 hstep
        obtain ⟨b', rest', rfl⟩ := List.exists_cons_of_ne_nil hne
        rw [Except.bind_ok_left, ih (by omega) (by omega), countType_of_dropWhile_eq_cons hq.symm]
        exact and_congr_right fun _ => by omega

/-- When the walk returns, it returns a block. -/
theorem DGWLoop_ok_ne_nil {f : Bool} {N : Nat} (hN : N < 2 ^ 31) :
    ∀ {t c : Nat} {p : BlockPtr} {avg : arith_uint512} {q : BlockPtr} {a : arith_uint512},
      c + t ≤ N + 1 → p ≠ [] → DGWLoop f N t c p avg = .ok (q, a) → q ≠ [] := by
  intro t
  induction t with
  | zero =>
    intro c p avg q a _ hp h
    simp only [DGWLoop, Except.ok.injEq, Prod.mk.injEq] at h
    exact h.1 ▸ hp
  | succ t ih =>
    intro c p avg q a hct hp h
    obtain ⟨b, rest, rfl⟩ := List.exists_cons_of_ne_nil hp
    obtain ⟨avg', hturn⟩ := @DGWLoop_succ_cons f N t c b rest avg (by omega)
    rw [hturn] at h
    obtain ⟨p', hp', h⟩ := Except.bind_eq_ok.1 h
    refine ih (by omega) ?_ h
    split at hp'
    · exact (DGWStep_eq_ok_iff.1 hp').2
    · cases hp'
      exact List.cons_ne_nil _ _

/-- The timespan `DarkGravityWave` divides by is not zero as a 64-bit value: it is positive and,
by the bounds `Params` carries, below `2^62`. -/
theorem DGW_divisor_ne_zero (params : Params) (fProofOfStake : Bool) (c : Prop) [Decidable c] :
    let T := params.DGWBlocksAvg *
      (if fProofOfStake then params.nStakeTargetSpacing else params.nPowTargetSpacing)
    (base_uint.ofUInt64 ((if c then T * 2 else T) % 2 ^ 64).toNat : arith_uint512) ≠ 0 := by
  intro T
  have hN := params.DGWBlocksAvg_pos
  have hN' := params.DGWBlocksAvg_lt
  obtain ⟨hs, hs'⟩ : 0 < (if fProofOfStake then params.nStakeTargetSpacing
      else params.nPowTargetSpacing) ∧ (if fProofOfStake then params.nStakeTargetSpacing
      else params.nPowTargetSpacing) < 2 ^ 31 := by
    split
    · exact ⟨params.nStakeTargetSpacing_pos, params.nStakeTargetSpacing_lt⟩
    · exact ⟨params.nPowTargetSpacing_pos, params.nPowTargetSpacing_lt⟩
  have hT : 0 < T ∧ T < 2 ^ 62 := by
    refine ⟨mul_pos hN hs, ?_⟩
    calc T < (2 : Int) ^ 31 * 2 ^ 31 := mul_lt_mul'' hN' hs' hN.le hs.le
      _ = 2 ^ 62 := by norm_num
  have hT' : 0 < (if c then T * 2 else T) ∧ (if c then T * 2 else T) < 2 ^ 64 := by
    split <;> omega
  intro h
  have h0 := congrArg BitVec.toNat h
  rw [Int.emod_eq_of_lt hT'.1.le hT'.2] at h0
  simp only [base_uint.ofUInt64, BitVec.toNat_ofNat] at h0
  simp at h0
  omega

/-- **`DarkGravityWave` fails exactly when its argument passes the height guard with too few
blocks of the type before it**, and then on a failed assertion. -/
theorem DarkGravityWave_eq_error_iff {params : Params} {last : CBlockIndex} {rest : BlockPtr}
    {f : Bool} {e : Abort} :
    DarkGravityWave params (last :: rest) f = .error e ↔
      e = .assertion ∧ params.DGWBlocksAvg ≤ last.nHeight ∧
        (countType f rest : Int) + 1 < params.DGWBlocksAvg := by
  have hN := params.DGWBlocksAvg_pos
  have hN' := params.DGWBlocksAvg_lt
  have hloop := fun avg e => @DGWLoop_eq_error_iff f params.DGWBlocksAvg.toNat (by omega)
    params.DGWBlocksAvg.toNat 1 last rest avg e le_rfl (by omega)
  simp only [DarkGravityWave]
  split
  · rename_i hlow
    simp only [reduceCtorEq, false_iff, not_and]
    intro _ h
    omega
  · rename_i hhigh
    cases hl : DGWLoop f params.DGWBlocksAvg.toNat params.DGWBlocksAvg.toNat 1 (last :: rest) 0 with
    | error e' =>
      obtain ⟨rfl, hcount⟩ := (hloop _ _).1 hl
      simp only [Except.bind_error_left, Except.error.injEq]
      constructor
      · rintro rfl
        exact ⟨rfl, by omega, by omega⟩
      · rintro ⟨rfl, -⟩
        rfl
    | ok r =>
      obtain ⟨q, a⟩ := r
      have hq := DGWLoop_ok_ne_nil (by omega : params.DGWBlocksAvg.toNat < 2 ^ 31)
        (by omega) (List.cons_ne_nil _ _) hl
      have hshort : ¬ (countType f rest + 1 < params.DGWBlocksAvg.toNat) := fun h => by
        have h' := hl.symm.trans ((hloop _ _).2 ⟨rfl, h⟩)
        cases h'
      obtain ⟨first, qrest, rfl⟩ := List.exists_cons_of_ne_nil hq
      rw [Except.bind_ok_left]
      dsimp only
      rw [base_uint.div_eq_ok (DGW_divisor_ne_zero params f _), Except.bind_ok_left]
      simp only [reduceCtorEq, false_iff, not_and]
      intro _ _ h
      omega

/-! ## The proof-of-stake switch -/

/-- **The count behind the proof-of-stake switch**: the walk from a block, having counted
`count` proof-of-stake blocks, answers `true` exactly when a proof-of-stake block precedes the
block and the count, with all the proof-of-stake blocks that precede, exceeds
`nPowDGWHeight + 1`. -/
theorem IsPosDGWenabled.loop_eq_true_iff {params : Params} :
    ∀ {fuel : Nat} {count : Int} {p : BlockPtr}, p.length ≤ fuel →
      (IsPosDGWenabled.loop params fuel count p = true ↔
        0 < countType true p.tail ∧ params.nPowDGWHeight + 2 ≤ count + countType true p.tail) := by
  intro fuel
  induction fuel with
  | zero =>
    intro count p hp
    obtain rfl : p = [] := List.eq_nil_of_length_eq_zero (by omega)
    simp [IsPosDGWenabled.loop]
  | succ fuel ih =>
    intro count p hp
    cases p with
    | nil => simp [IsPosDGWenabled.loop]
    | cons b pprev =>
      simp only [IsPosDGWenabled.loop, List.tail_cons]
      split
      · rename_i hnil
        simp [dropWhile_eq_nil_iff.1 hnil]
      · rename_i q hq
        obtain ⟨c, rest, hc⟩ := List.exists_cons_of_ne_nil hq
        have hcount := countType_of_dropWhile_eq_cons hc
        have hlen : (c :: rest).length ≤ fuel := by
          have := (@List.dropWhile_sublist _ pprev fun b => b.isProofOfStake != true).length_le
          simp only [List.length_cons] at hp
          rw [hc] at this
          omega
        split
        · simp only [true_iff, hcount]
          omega
        · rw [hc, ih hlen, List.tail_cons, hcount]
          omega

/-- **What `IsPosDGWenabled` answers**: `true` when its static is set, and otherwise exactly when
more than `nPowDGWHeight + 1` proof-of-stake blocks precede the block; the static is left at
the answer. -/
theorem IsPosDGWenabled_eq (params : Params) (DGWenabled : Bool) (p : BlockPtr) :
    IsPosDGWenabled params DGWenabled p =
      (DGWenabled || decide (0 < countType true p.tail ∧
          params.nPowDGWHeight + 2 ≤ countType true p.tail),
        DGWenabled || decide (0 < countType true p.tail ∧
          params.nPowDGWHeight + 2 ≤ countType true p.tail)) := by
  cases DGWenabled with
  | true => rfl
  | false =>
    have h := @IsPosDGWenabled.loop_eq_true_iff params p.length 0 p le_rfl
    rw [zero_add] at h
    simp only [IsPosDGWenabled, Bool.false_eq_true, if_false, Bool.false_or, Prod.mk.injEq, and_self]
    exact Bool.eq_iff_iff.2 (h.trans decide_eq_true_iff.symm)

/-! ## `GetNextTargetRequired` -/

/-- The exponential retarget divides by `(nInterval + 1) * nTargetSpacing`, which is positive:
it never stops. -/
theorem GetNextTargetRequired_div_ok (params : Params) (fProofOfStake : Bool) (x : CBigNum) :
    let nTargetSpacing :=
      if fProofOfStake then params.nStakeTargetSpacing * 2 else params.nPowTargetSpacing
    CBigNum.div x ((params.nTargetTimespan.tdiv nTargetSpacing + 1) * nTargetSpacing) =
      .ok (x.tdiv ((params.nTargetTimespan.tdiv nTargetSpacing + 1) * nTargetSpacing)) := by
  intro nTargetSpacing
  have hS : 0 < nTargetSpacing := by
    have := params.nStakeTargetSpacing_pos
    have := params.nPowTargetSpacing_pos
    simp only [nTargetSpacing]
    split <;> omega
  have hI : 0 ≤ params.nTargetTimespan.tdiv nTargetSpacing :=
    Int.tdiv_nonneg params.nTargetTimespan_pos.le hS.le
  exact CBigNum.div_eq_ok (mul_pos (by omega) hS).ne'

section Retarget

variable {cp : CChainParams} {DGWenabled : Bool} {last prev pp pp2 : CBlockIndex}
  {rest pprev ppr : BlockPtr} {f : Bool}

/-- Past the two first-blocks cases, on a main network, past the height switch and, for proof of
stake, with the switch on, `GetNextTargetRequired` returns what `DarkGravityWave` returns on the
last block of the type. -/
theorem GetNextTargetRequired_eq_DarkGravityWave
    (h1 : GetLastBlockIndex (last :: rest) f = prev :: pprev)
    (h2 : GetLastBlockIndex pprev f = pp :: pp2 :: ppr) (hreg : cp.strNetworkID ≠ REGTEST)
    (hh : cp.consensus.nPowDGWHeight ≤ last.nHeight + 1)
    (hen : f = true → (IsPosDGWenabled cp.consensus DGWenabled (prev :: pprev)).1 = true) :
    ∃ DGWenabled', GetNextTargetRequired cp DGWenabled (last :: rest) f =
      (DarkGravityWave cp.consensus (prev :: pprev) f).map (·, DGWenabled') := by
  obtain ⟨p2, r2, rfl⟩ : ∃ p2 r2, pprev = p2 :: r2 := by
    cases pprev with
    | nil => simp [GetLastBlockIndex] at h2
    | cons p2 r2 => exact ⟨p2, r2, rfl⟩
  refine ⟨(if f then IsPosDGWenabled cp.consensus DGWenabled (prev :: p2 :: r2)
    else (false, DGWenabled)).2, ?_⟩
  have hh' : ¬ last.nHeight + 1 < cp.consensus.nPowDGWHeight := not_lt.2 hh
  cases f with
  | false =>
    simp only [GetNextTargetRequired, h1, h2, hreg, bne_iff_ne, ne_eq, not_false_eq_true, if_true,
      Bool.false_and, Bool.false_or, hh', decide_false, Bool.false_eq_true, if_false]
    cases DarkGravityWave cp.consensus (prev :: p2 :: r2) false <;> rfl
  | true =>
    simp only [GetNextTargetRequired, h1, h2, hreg, bne_iff_ne, ne_eq, not_false_eq_true, if_true,
      hen rfl, Bool.not_true, Bool.and_false, Bool.false_or, hh', decide_false, Bool.false_eq_true,
      if_false]
    cases DarkGravityWave cp.consensus (prev :: p2 :: r2) true <;> rfl

/-- Otherwise, past the two first-blocks cases, `GetNextTargetRequired` returns: the exponential
retarget and the regtest branch cannot stop. -/
theorem GetNextTargetRequired_ok_of_not_DGW
    (h1 : GetLastBlockIndex (last :: rest) f = prev :: pprev)
    (h2 : GetLastBlockIndex pprev f = pp :: pp2 :: ppr)
    (hnot : ¬ (cp.strNetworkID ≠ REGTEST ∧ cp.consensus.nPowDGWHeight ≤ last.nHeight + 1 ∧
      (f = true → (IsPosDGWenabled cp.consensus DGWenabled (prev :: pprev)).1 = true))) :
    ∃ r, GetNextTargetRequired cp DGWenabled (last :: rest) f = .ok r := by
  obtain ⟨p2, r2, rfl⟩ : ∃ p2 r2, pprev = p2 :: r2 := by
    cases pprev with
    | nil => simp [GetLastBlockIndex] at h2
    | cons p2 r2 => exact ⟨p2, r2, rfl⟩
  by_cases hreg : cp.strNetworkID = REGTEST
  · simp [GetNextTargetRequired, h1, h2, hreg]
  · have hexp : last.nHeight + 1 < cp.consensus.nPowDGWHeight ∨
        (f = true ∧ (IsPosDGWenabled cp.consensus DGWenabled (prev :: p2 :: r2)).1 = false) := by
      refine (em _).elim .inl fun hh => .inr ?_
      have hon : ¬ (f = true → (IsPosDGWenabled cp.consensus DGWenabled (prev :: p2 :: r2)).1 = true) :=
        fun hon => hnot ⟨hreg, not_lt.1 hh, hon⟩
      simpa only [Classical.not_imp, Bool.not_eq_true] using hon
    simp only [GetNextTargetRequired, h1, h2, hreg, bne_iff_ne, ne_eq, not_false_eq_true, if_true]
    rw [GetNextTargetRequired_div_ok, Except.bind_ok_left, if_pos]
    · exact ⟨_, rfl⟩
    · rcases hexp with hexp | ⟨rfl, hoff⟩
      · simp [hexp]
      · simp [hoff]

/-- **`GetNextTargetRequired` stops only in `DarkGravityWave`**, on a failed assertion, and exactly
when: the network is not regtest; the next height has reached `nPowDGWHeight`; the last block
`prev` of the type has, before it, a block of the type that is not genesis (so neither
first-blocks case applies); for proof of stake, the switch is on; and `prev` is high enough for
`DarkGravityWave`'s guard while fewer than `DGWBlocksAvg - 1` blocks of the type precede it. -/
theorem GetNextTargetRequired_eq_error_iff {e : Abort} :
    GetNextTargetRequired cp DGWenabled (last :: rest) f = .error e ↔
      e = .assertion ∧ cp.strNetworkID ≠ REGTEST ∧ cp.consensus.nPowDGWHeight ≤ last.nHeight + 1 ∧
      ∃ prev pprev, GetLastBlockIndex (last :: rest) f = prev :: pprev ∧
        2 ≤ (GetLastBlockIndex pprev f).length ∧
        (f = true → (IsPosDGWenabled cp.consensus DGWenabled (prev :: pprev)).1 = true) ∧
        cp.consensus.DGWBlocksAvg ≤ prev.nHeight ∧
        (countType f pprev : Int) + 1 < cp.consensus.DGWBlocksAvg := by
  obtain ⟨prev, pprev, h1⟩ :=
    List.exists_cons_of_ne_nil (GetLastBlockIndex_ne_nil (List.cons_ne_nil last rest) f)
  -- the `∃` of the right side can only be `prev` and `pprev`
  have hex : ∀ P : CBlockIndex → BlockPtr → Prop,
      (∃ prev' pprev', GetLastBlockIndex (last :: rest) f = prev' :: pprev' ∧ P prev' pprev') ↔
        P prev pprev := by
    intro P
    simp [h1]
  rw [hex]
  cases pprev with
  | nil =>
    simp [GetNextTargetRequired, h1, GetLastBlockIndex]
  | cons p2 r2 =>
    obtain ⟨pp, ppr, h2⟩ :=
      List.exists_cons_of_ne_nil (GetLastBlockIndex_ne_nil (List.cons_ne_nil p2 r2) f)
    cases ppr with
    | nil =>
      simp [GetNextTargetRequired, h1, h2]
    | cons pp2 ppr =>
      rw [h2, List.length_cons, List.length_cons]
      by_cases hdgw : cp.strNetworkID ≠ REGTEST ∧ cp.consensus.nPowDGWHeight ≤ last.nHeight + 1 ∧
          (f = true → (IsPosDGWenabled cp.consensus DGWenabled (prev :: p2 :: r2)).1 = true)
      · obtain ⟨hreg, hh, hen⟩ := hdgw
        obtain ⟨DGWenabled', heq⟩ := GetNextTargetRequired_eq_DarkGravityWave h1 h2 hreg hh hen
        rw [heq]
        cases hd : DarkGravityWave cp.consensus (prev :: p2 :: r2) f with
        | error e' =>
          obtain ⟨rfl, hh', hc⟩ := DarkGravityWave_eq_error_iff.1 hd
          simp only [Except.map, Except.error.injEq]
          constructor
          · rintro rfl
            exact ⟨rfl, hreg, hh, by omega, hen, hh', hc⟩
          · rintro ⟨rfl, -⟩
            rfl
        | ok nBits =>
          simp only [Except.map, reduceCtorEq, false_iff, not_and]
          intro _ _ _ _ _ hh' hc
          have := DarkGravityWave_eq_error_iff.2 ⟨rfl, hh', hc⟩
          rw [hd] at this
          cases this
      · obtain ⟨r, hr⟩ := GetNextTargetRequired_ok_of_not_DGW h1 h2 hdgw
        simp only [hr, reduceCtorEq, false_iff, not_and]
        intro _ hreg hh _ hen
        exact absurd ⟨hreg, hh, hen⟩ hdgw

end Retarget

/-- The target reads the static only through the switch's answer: two statics under which
`IsPosDGWenabled` answers alike on the last block of the type give the same target. -/
theorem GetNextTargetRequired_fst_congr {cp : CChainParams} {DGWenabled₁ DGWenabled₂ : Bool}
    {p : BlockPtr} {f : Bool}
    (h : ∀ prev pprev, GetLastBlockIndex p f = prev :: pprev → f = true →
      (IsPosDGWenabled cp.consensus DGWenabled₁ (prev :: pprev)).1 =
        (IsPosDGWenabled cp.consensus DGWenabled₂ (prev :: pprev)).1) :
    (GetNextTargetRequired cp DGWenabled₁ p f).map Prod.fst =
      (GetNextTargetRequired cp DGWenabled₂ p f).map Prod.fst := by
  cases p with
  | nil => rfl
  | cons last rest =>
    obtain ⟨prev, pprev, h1⟩ :=
      List.exists_cons_of_ne_nil (GetLastBlockIndex_ne_nil (List.cons_ne_nil last rest) f)
    have hsw := h prev pprev h1
    cases pprev with
    | nil =>
      simp only [GetNextTargetRequired, h1]
      rfl
    | cons p2 r2 =>
      obtain ⟨pp, ppr, h2⟩ :=
        List.exists_cons_of_ne_nil (GetLastBlockIndex_ne_nil (List.cons_ne_nil p2 r2) f)
      cases ppr with
      | nil =>
        simp only [GetNextTargetRequired, h1, h2]
        rfl
      | cons pp2 ppr =>
        cases f with
        | false =>
          simp only [GetNextTargetRequired, h1, h2, Bool.false_eq_true, if_false, Bool.false_and,
            Bool.false_or]
          split_ifs <;> first | rfl | exact Except.map_fst_bind_pair _ _ _
        | true =>
          simp only [GetNextTargetRequired, h1, h2, if_true, hsw rfl]
          split_ifs <;> first | rfl | exact Except.map_fst_bind_pair _ _ _

/-- **The static changes the target only for proof of stake, on a chain with few proof-of-stake
blocks.** `IsPosDGWenabled` answers `true` when its static is set or more than
`nPowDGWHeight + 1` proof-of-stake blocks precede the block, and leaves the static at its answer;
so for proof of work, or where more than `nPowDGWHeight + 1` proof-of-stake blocks precede the
last proof-of-stake block, `GetNextTargetRequired` returns the same target whatever earlier
calls left in the static. -/
theorem GetNextTargetRequired_target_of_enough_stake (cp : CChainParams)
    (DGWenabled₁ DGWenabled₂ : Bool) (p : BlockPtr) (f : Bool)
    (h : f = false ∨ ∀ prev pprev, GetLastBlockIndex p true = prev :: pprev →
      0 < countType true pprev ∧ cp.consensus.nPowDGWHeight + 2 ≤ countType true pprev) :
    (∀ DGWenabled q, (IsPosDGWenabled cp.consensus DGWenabled q).1 =
        (DGWenabled || decide (0 < countType true q.tail ∧
          cp.consensus.nPowDGWHeight + 2 ≤ countType true q.tail)) ∧
      (IsPosDGWenabled cp.consensus DGWenabled q).2 = (IsPosDGWenabled cp.consensus DGWenabled q).1) ∧
    (GetNextTargetRequired cp DGWenabled₁ p f).map Prod.fst =
      (GetNextTargetRequired cp DGWenabled₂ p f).map Prod.fst := by
  refine ⟨fun DGWenabled q => by simp [IsPosDGWenabled_eq], ?_⟩
  apply GetNextTargetRequired_fst_congr
  intro prev pprev h1 hf
  subst hf
  have hc := (h.resolve_left Bool.true_eq_false.mp) prev pprev h1
  simp only [IsPosDGWenabled_eq, List.tail_cons, hc, and_self, decide_true, Bool.or_true]

/-- A main-network chain: genesis, one proof-of-work block, then proof-of-stake blocks two
minutes apart. Block `i` of it. -/
def stakeChain.entry (i : Nat) : CBlockIndex :=
  ⟨0, i, UInt32.ofNat (1680357192 + 120 * i), 0x1e00ffff, if 2 ≤ i then 1 else 0⟩

/-- The first `n` blocks of that chain, the tip first. -/
def stakeChain (n : Nat) : BlockPtr := (List.range n).reverse.map stakeChain.entry

theorem stakeChain_succ (n : Nat) : stakeChain (n + 1) = stakeChain.entry n :: stakeChain n := by
  simp [stakeChain, List.range_succ]

/-- On 65 blocks, a proof-of-stake tip with 62 proof-of-stake blocks before it. -/
theorem GetNextTargetRequired_target_of_enough_stake_chain :
    (true = false ∨ ∀ prev pprev, GetLastBlockIndex (stakeChain 65) true = prev :: pprev →
      0 < countType true pprev ∧ mainParams.consensus.nPowDGWHeight + 2 ≤ countType true pprev) ∧
    (GetNextTargetRequired mainParams false (stakeChain 65) true).map Prod.fst =
      (GetNextTargetRequired mainParams true (stakeChain 65) true).map Prod.fst := by
  have hstake : ∀ prev pprev, GetLastBlockIndex (stakeChain 65) true = prev :: pprev →
      0 < countType true pprev ∧ mainParams.consensus.nPowDGWHeight + 2 ≤ countType true pprev := by
    intro prev pprev h
    have hlast : GetLastBlockIndex (stakeChain 65) true = stakeChain 65 := by decide +kernel
    rw [hlast, stakeChain_succ] at h
    obtain ⟨-, rfl⟩ := List.cons.inj h
    decide +kernel
  exact ⟨.inr hstake,
    (GetNextTargetRequired_target_of_enough_stake mainParams false true _ true (.inr hstake)).2⟩

/-- **An earlier call changes the target**: on the main network, a proof-of-stake call on a chain
`q` with 62 proof-of-stake blocks before its tip sets the static, and a proof-of-stake call on
the chain `p` that `q` extends by two blocks (61 proof-of-stake blocks, 60 before the tip) then
returns another target than on a node that has not made the first call: `DarkGravityWave`'s
instead of the exponential retarget's. -/
theorem GetNextTargetRequired_depends_on_history :
    ∃ p q : BlockPtr, q.drop 2 = p ∧
      (GetNextTargetRequired mainParams false q true).map Prod.snd = .ok true ∧
      (GetNextTargetRequired mainParams true p true).map Prod.fst ≠
        (GetNextTargetRequired mainParams false p true).map Prod.fst := by
  refine ⟨stakeChain 63, stakeChain 65, ?_, ?_, ?_⟩
  · decide +kernel
  · decide +kernel
  · decide +kernel

end NowpConsensus
