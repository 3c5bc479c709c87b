import NowpConsensus.Node.Miner
import NowpConsensus.Coins.Compressor

/-!
# Parsing scripts and counting signature operations

The parser of `script/script.cpp`, `GetScriptOp`, with the operand it hands back, and what is
built on it: `CScript::IsPushOnly`, `CScript::GetSigOpCount` in its two forms (the count of a
script, loose or accurate about `CHECKMULTISIG`, and the count of the script a scriptSig pushes
last, for pay-to-script-hash), and the signature operation cost of a transaction of
`consensus/tx_verify.cpp` (`GetLegacySigOpCount`, `GetP2SHSigOpCount`,
`GetTransactionSigOpCost`, with `CountWitnessSigOps` of `script/interpreter.cpp`).

* `GetScriptOp_pushData`: a push written by `CScript::operator<<` reads back whole, its operand
  included, whatever follows it; so a script of such pushes is push-only
  (`CScript.IsPushOnly_pushes`);
* `CScript.GetSigOpCount_of_isPushOnly`: a push-only script counts no signature operation;
* `CScript.GetSigOpCount_le`: a script counts at most `MAX_PUBKEYS_PER_MULTISIG` operations a
  byte, and `CScript.GetSigOpCount_accurate_le`: its accurate count is at most its loose one;
* `GetSigOpCountScriptSig_pushes`: for a pay-to-script-hash output, a scriptSig of pushes counts
  the accurate operations of the script it pushes last;
* `GetTransactionSigOpCost_coinbase`: the coinbase `CreateNewBlock` writes costs nothing;
* `GetTransactionSigOpCost_ok`: on a transaction whose inputs the view has, the asserts of
  `GetTransactionSigOpCost` fire only where the witness flag comes without the
  pay-to-script-hash one.
-/

namespace NowpConsensus

open Bytes

/-! ## Opcodes and limits -/

def OP_16 : UInt8 := 0x60
def OP_CHECKSIGVERIFY : UInt8 := 0xad
def OP_CHECKMULTISIG : UInt8 := 0xae
def OP_CHECKMULTISIGVERIFY : UInt8 := 0xaf

/-- `MAX_PUBKEYS_PER_MULTISIG`. -/
def MAX_PUBKEYS_PER_MULTISIG : Nat := 20

/-- `WITNESS_V0_KEYHASH_SIZE`. -/
def WITNESS_V0_KEYHASH_SIZE : Nat := 20

/-- `WITNESS_V0_SCRIPTHASH_SIZE`. -/
def WITNESS_V0_SCRIPTHASH_SIZE : Nat := 32

/-! ## `GetScriptOp` and its operand -/

/-- The size of a push opcode's immediate operand and the bytes after its size field, as
`GetScriptOp` reads them: `none` where the size field runs past the end. -/
def GetScriptOp.operandSize (opcode : UInt8) (s : List UInt8) : Option (Nat × List UInt8) :=
  if opcode < OP_PUSHDATA1 then some (opcode.toNat, s)
  else if opcode == OP_PUSHDATA1 then
    if s.length < 1 then none else some (readLE (s.take 1), s.drop 1)
  else if opcode == OP_PUSHDATA2 then
    if s.length < 2 then none else some (readLE (s.take 2), s.drop 2)
  else if s.length < 4 then none else some (readLE (s.take 4), s.drop 4)

theorem GetScriptOp_cons (opcode : UInt8) (s : List UInt8) :
    GetScriptOp (opcode :: s) =
      if opcode ≤ OP_PUSHDATA4 then
        match GetScriptOp.operandSize opcode s with
        | none => (false, OP_INVALIDOPCODE, s)
        | some (nSize, s) =>
          if s.length < nSize then (false, OP_INVALIDOPCODE, s) else (true, opcode, s.drop nSize)
      else (true, opcode, s) := rfl

/-- What `GetScriptOp(pc, end, opcodeRet, &vchRet)` leaves in `vchRet`: cleared first, then the
operand of a push read whole. -/
def GetScriptOp.vchRet : List UInt8 → List UInt8
  | [] => []
  | opcode :: s =>
    if opcode ≤ OP_PUSHDATA4 then
      match GetScriptOp.operandSize opcode s with
      | none => []
      | some (nSize, s) => if s.length < nSize then [] else s.take nSize
    else []

theorem GetScriptOp.operandSize_suffix {opcode : UInt8} {s s' : List UInt8} {nSize : Nat}
    (h : GetScriptOp.operandSize opcode s = some (nSize, s')) : s'.length ≤ s.length := by
  unfold GetScriptOp.operandSize at h
  split_ifs at h <;> cases h <;> simp

/-- Every operation read, or failed, takes a byte at least. -/
theorem GetScriptOp.length_lt {s : List UInt8} (hs : s ≠ []) :
    (GetScriptOp s).2.2.length < s.length := by
  obtain ⟨opcode, s, rfl⟩ := List.exists_cons_of_ne_nil hs
  rw [GetScriptOp_cons]
  split_ifs
  · cases hsize : GetScriptOp.operandSize opcode s with
    | none => simp
    | some p =>
      obtain ⟨nSize, s'⟩ := p
      have := GetScriptOp.operandSize_suffix hsize
      dsimp only
      split_ifs <;> simp <;> omega
  · simp

/-! ## Scripts -/

/-- `CScript::DecodeOP_N` on the opcodes its assert admits, `OP_0` and `OP_1` to `OP_16`. -/
def DecodeOP_N (opcode : UInt8) : Nat :=
  if opcode == OP_0 then 0 else opcode.toNat - (OP_1.toNat - 1)

/-- The signature operations `CScript::GetSigOpCount(fAccurate)` counts for `opcode`, read
after `lastOpcode`. -/
def CScript.GetSigOpCount.count (fAccurate : Bool) (lastOpcode opcode : UInt8) : Nat :=
  if opcode == OP_CHECKSIG || opcode == OP_CHECKSIGVERIFY then 1
  else if opcode == OP_CHECKMULTISIG || opcode == OP_CHECKMULTISIGVERIFY then
    if fAccurate && OP_1 ≤ lastOpcode && lastOpcode ≤ OP_16 then DecodeOP_N lastOpcode
    else MAX_PUBKEYS_PER_MULTISIG
  else 0

/-- The loop of `CScript::GetSigOpCount(fAccurate)` over the bytes `s` left, after `lastOpcode`:
it stops at the end, or where an operation fails to parse. -/
def CScript.GetSigOpCount.loop (fAccurate : Bool) (s : List UInt8) (lastOpcode : UInt8) : Nat :=
  if s = [] then 0
  else if !(GetScriptOp s).1 then 0
  else
    CScript.GetSigOpCount.count fAccurate lastOpcode (GetScriptOp s).2.1 +
      loop fAccurate (GetScriptOp s).2.2 (GetScriptOp s).2.1
termination_by s.length
decreasing_by exact GetScriptOp.length_lt ‹¬s = []›

/-- `CScript::GetSigOpCount(fAccurate)`. -/
def CScript.GetSigOpCount (script : CScript) (fAccurate : Bool) : Nat :=
  CScript.GetSigOpCount.loop fAccurate script OP_INVALIDOPCODE

/-- `CScript::IsPushOnly()`: every operation parses and is at most `OP_16`. -/
def CScript.IsPushOnly (s : CScript) : Bool :=
  if s = [] then true
  else if !(GetScriptOp s).1 then false
  else if (GetScriptOp s).2.1 > OP_16 then false
  else CScript.IsPushOnly (GetScriptOp s).2.2
termination_by s.length
decreasing_by exact GetScriptOp.length_lt ‹¬s = []›

/-- `CScript::IsPayToScriptHash`: `OP_HASH160 <20 bytes> OP_EQUAL`. -/
def CScript.IsPayToScriptHash (script : CScript) : Bool :=
  script.length == 23 && script[0]? == some OP_HASH160 && script[1]? == some 0x14 &&
    script[22]? == some OP_EQUAL

/-- The loop of `CScript::GetSigOpCount(scriptSig)` over the scriptSig: the operand of the last
operation read (`vData`), or `none` where an operation fails to parse or is not a push
(`return 0`). -/
def CScript.lastPushData (s : List UInt8) (vData : List UInt8) : Option (List UInt8) :=
  if s = [] then some vData
  else if !(GetScriptOp s).1 then none
  else if (GetScriptOp s).2.1 > OP_16 then none
  else CScript.lastPushData (GetScriptOp s).2.2 (GetScriptOp.vchRet s)
termination_by s.length
decreasing_by exact GetScriptOp.length_lt ‹¬s = []›

/-- `CScript::GetSigOpCount(scriptSig)`: for a pay-to-script-hash script, the accurate count of
the script the scriptSig pushes last; for any other script, its own accurate count. -/
def CScript.GetSigOpCountScriptSig (scriptPubKey scriptSig : CScript) : Nat :=
  if !scriptPubKey.IsPayToScriptHash then scriptPubKey.GetSigOpCount true
  else
    match CScript.lastPushData scriptSig [] with
    | none => 0
    | some vData => CScript.GetSigOpCount vData true

/-! ## One operation at a time -/

section Step

variable {s : List UInt8}

theorem ne_nil_of_GetScriptOp (hok : (GetScriptOp s).1 = true) : s ≠ [] := by
  rintro rfl
  exact Bool.false_ne_true hok

theorem CScript.GetSigOpCount.loop_of_ok (hok : (GetScriptOp s).1 = true) (fAccurate : Bool)
    (lastOpcode : UInt8) :
    CScript.GetSigOpCount.loop fAccurate s lastOpcode =
      CScript.GetSigOpCount.count fAccurate lastOpcode (GetScriptOp s).2.1 +
        CScript.GetSigOpCount.loop fAccurate (GetScriptOp s).2.2 (GetScriptOp s).2.1 := by
  rw [CScript.GetSigOpCount.loop, if_neg (ne_nil_of_GetScriptOp hok), hok, Bool.not_true,
    if_neg Bool.false_ne_true]

@[simp]
theorem CScript.IsPushOnly_nil : CScript.IsPushOnly [] = true := by
  rw [CScript.IsPushOnly, if_pos rfl]

theorem CScript.IsPushOnly_of_ok (hok : (GetScriptOp s).1 = true) :
    CScript.IsPushOnly s =
      (decide ((GetScriptOp s).2.1 ≤ OP_16) && CScript.IsPushOnly (GetScriptOp s).2.2) := by
  rw [CScript.IsPushOnly, if_neg (ne_nil_of_GetScriptOp hok), hok, Bool.not_true,
    if_neg Bool.false_ne_true]
  by_cases h : (GetScriptOp s).2.1 ≤ OP_16
  · rw [if_neg (UInt8.not_lt.2 h)]
    simp [h]
  · rw [if_pos (UInt8.not_le.1 h)]
    simp [h]

theorem CScript.lastPushData_of_push (hok : (GetScriptOp s).1 = true)
    (hpush : (GetScriptOp s).2.1 ≤ OP_16) (vData : List UInt8) :
    CScript.lastPushData s vData =
      CScript.lastPushData (GetScriptOp s).2.2 (GetScriptOp.vchRet s) := by
  rw [CScript.lastPushData, if_neg (ne_nil_of_GetScriptOp hok), hok, Bool.not_true,
    if_neg Bool.false_ne_true, if_neg (UInt8.not_lt.2 hpush)]

end Step

/-- No operation counts more than `MAX_PUBKEYS_PER_MULTISIG`. -/
theorem CScript.GetSigOpCount.count_le (fAccurate : Bool) (lastOpcode opcode : UInt8) :
    CScript.GetSigOpCount.count fAccurate lastOpcode opcode ≤ MAX_PUBKEYS_PER_MULTISIG := by
  unfold CScript.GetSigOpCount.count
  split_ifs with _ _ hn
  · decide
  · simp only [Bool.and_eq_true, decide_eq_true_eq] at hn
    have h16 := UInt8.le_iff_toNat_le.1 hn.2
    unfold DecodeOP_N
    split_ifs
    · exact Nat.zero_le _
    · simp [OP_1, OP_16, MAX_PUBKEYS_PER_MULTISIG] at h16 ⊢
      omega
  · exact le_rfl
  · exact Nat.zero_le _

/-- The accurate count of an operation is at most its loose count. -/
theorem CScript.GetSigOpCount.count_accurate_le (lastOpcode opcode : UInt8) :
    CScript.GetSigOpCount.count true lastOpcode opcode ≤
      CScript.GetSigOpCount.count false lastOpcode opcode := by
  have h := CScript.GetSigOpCount.count_le true lastOpcode opcode
  unfold CScript.GetSigOpCount.count at h ⊢
  split_ifs at h ⊢ <;> simp_all

/-- The opcodes up to `OP_16`, the pushes among them, count nothing. -/
theorem CScript.GetSigOpCount.count_of_le (fAccurate : Bool) (lastOpcode : UInt8)
    {opcode : UInt8} (h : opcode ≤ OP_16) :
    CScript.GetSigOpCount.count fAccurate lastOpcode opcode = 0 := by
  have hne : ∀ c : UInt8, OP_16 < c → (opcode == c) = false := fun c hc => by
    have h₁ := UInt8.le_iff_toNat_le.1 h
    have h₂ := UInt8.lt_iff_toNat_lt.1 hc
    rw [beq_eq_false_iff_ne]
    rintro rfl
    omega
  unfold CScript.GetSigOpCount.count
  rw [hne OP_CHECKSIG (by decide), hne OP_CHECKSIGVERIFY (by decide),
    hne OP_CHECKMULTISIG (by decide), hne OP_CHECKMULTISIGVERIFY (by decide)]
  rfl

/-! ## Pushes read back -/

/-- A push whose operand size field reads back as the operand's length parses as one operation,
the operand its `vchRet`. -/
theorem GetScriptOp_of_operandSize {opcode : UInt8} {s b rest : List UInt8}
    (hop : opcode ≤ OP_PUSHDATA4)
    (h : GetScriptOp.operandSize opcode s = some (b.length, b ++ rest)) :
    GetScriptOp (opcode :: s) = (true, opcode, rest) ∧ GetScriptOp.vchRet (opcode :: s) = b := by
  rw [GetScriptOp_cons, GetScriptOp.vchRet, if_pos hop, if_pos hop, h]
  simp

theorem GetScriptOp.operandSize_of_lt {opcode : UInt8} (h : opcode < OP_PUSHDATA1)
    (s : List UInt8) : GetScriptOp.operandSize opcode s = some (opcode.toNat, s) :=
  if_pos h

/-- An opcode above `OP_PUSHDATA4` is read alone. -/
theorem GetScriptOp_of_gt {opcode : UInt8} (h : OP_PUSHDATA4 < opcode) (s : List UInt8) :
    GetScriptOp (opcode :: s) = (true, opcode, s) := by
  rw [GetScriptOp_cons, if_neg (UInt8.not_le.2 h)]

/-- The size fields of `OP_PUSHDATA1`, `OP_PUSHDATA2` and `OP_PUSHDATA4` read back modulo
their widths. -/
theorem GetScriptOp.operandSize_leBytes {opcode : UInt8} {w : Nat}
    (hw : opcode = OP_PUSHDATA1 ∧ w = 1 ∨ opcode = OP_PUSHDATA2 ∧ w = 2 ∨
      opcode = OP_PUSHDATA4 ∧ w = 4) (n : Nat) (s : List UInt8) :
    GetScriptOp.operandSize opcode (leBytes w n ++ s) = some (n % 256 ^ w, s) := by
  have htake : (leBytes w n ++ s).take w = leBytes w n := List.take_left' (leBytes_length w n)
  have hdrop : (leBytes w n ++ s).drop w = s := List.drop_left' (leBytes_length w n)
  rcases hw with ⟨rfl, rfl⟩ | ⟨rfl, rfl⟩ | ⟨rfl, rfl⟩ <;>
    simp [GetScriptOp.operandSize, htake, hdrop, readLE_leBytes, OP_PUSHDATA1, OP_PUSHDATA2,
      OP_PUSHDATA4]
  all_goals omega

/-- A push written by `CScript::operator<<` reads back as one operation whatever follows it, its
operand whole. -/
theorem GetScriptOp_pushData {b : List UInt8} (hb : b.length < 2 ^ 32) (rest : List UInt8) :
    ∃ opcode, opcode ≤ OP_PUSHDATA4 ∧
      GetScriptOp (CScript.pushData b ++ rest) = (true, opcode, rest) ∧
      GetScriptOp.vchRet (CScript.pushData b ++ rest) = b := by
  unfold CScript.pushData
  simp only [List.append_assoc]
  split_ifs with h₁ h₂ h₃
  · have hn : (UInt8.ofNat b.length).toNat = b.length := by
      simp only [OP_PUSHDATA1] at h₁
      rw [UInt8.toNat_ofNat']
      exact Nat.mod_eq_of_lt (lt_trans h₁ (by decide))
    have hop : UInt8.ofNat b.length < OP_PUSHDATA1 :=
      UInt8.lt_iff_toNat_lt.2 (by rw [hn]; exact h₁)
    have hle : UInt8.ofNat b.length ≤ OP_PUSHDATA4 := UInt8.le_trans (UInt8.le_of_lt hop) (by decide)
    refine ⟨_, hle, GetScriptOp_of_operandSize hle ?_⟩
    rw [GetScriptOp.operandSize_of_lt hop, hn]
    rfl
  · have h := GetScriptOp.operandSize_leBytes (Or.inl ⟨rfl, rfl⟩) b.length (b ++ rest)
    rw [Nat.mod_eq_of_lt (by omega)] at h
    exact ⟨OP_PUSHDATA1, by decide, GetScriptOp_of_operandSize (by decide) h⟩
  · have h := GetScriptOp.operandSize_leBytes (Or.inr (Or.inl ⟨rfl, rfl⟩)) b.length (b ++ rest)
    rw [Nat.mod_eq_of_lt (by omega)] at h
    exact ⟨OP_PUSHDATA2, by decide, GetScriptOp_of_operandSize (by decide) h⟩
  · have h := GetScriptOp.operandSize_leBytes (Or.inr (Or.inr ⟨rfl, rfl⟩)) b.length (b ++ rest)
    rw [Nat.mod_eq_of_lt (by omega)] at h
    exact ⟨OP_PUSHDATA4, by decide, GetScriptOp_of_operandSize (by decide) h⟩

section Pushes

variable {b : List UInt8}

theorem CScript.IsPushOnly_pushData (hb : b.length < 2 ^ 32) (rest : List UInt8) :
    CScript.IsPushOnly (CScript.pushData b ++ rest) = CScript.IsPushOnly rest := by
  obtain ⟨opcode, hop, h, -⟩ := GetScriptOp_pushData hb rest
  rw [CScript.IsPushOnly_of_ok (by rw [h]), h]
  simp [UInt8.le_trans hop (by decide : OP_PUSHDATA4 ≤ OP_16)]

theorem CScript.lastPushData_pushData (hb : b.length < 2 ^ 32) (rest vData : List UInt8) :
    CScript.lastPushData (CScript.pushData b ++ rest) vData = CScript.lastPushData rest b := by
  obtain ⟨opcode, hop, h, hv⟩ := GetScriptOp_pushData hb rest
  rw [CScript.lastPushData_of_push (by rw [h]) (by rw [h]; exact UInt8.le_trans hop (by decide)), h,
    hv]

variable {bs : List (List UInt8)}

/-- A script of pushes written by `CScript::operator<<` is push-only. -/
theorem CScript.IsPushOnly_pushes (hbs : ∀ b ∈ bs, b.length < 2 ^ 32) :
    CScript.IsPushOnly (bs.flatMap CScript.pushData) = true := by
  induction bs with
  | nil => rw [List.flatMap_nil, CScript.IsPushOnly_nil]
  | cons b bs ih =>
    rw [List.flatMap_cons, CScript.IsPushOnly_pushData (hbs b List.mem_cons_self)]
    exact ih fun b' hb' => hbs b' (List.mem_cons_of_mem _ hb')

theorem CScript.IsPushOnly_pushes_sigRedeem :
    CScript.IsPushOnly ([[0x30], [OP_CHECKSIG]].flatMap CScript.pushData) = true :=
  CScript.IsPushOnly_pushes (by decide)

/-- The scriptSig loop of `CScript::GetSigOpCount` over pushes ends on the last operand. -/
theorem CScript.lastPushData_pushes (hbs : ∀ b ∈ bs, b.length < 2 ^ 32) (vData : List UInt8) :
    CScript.lastPushData (bs.flatMap CScript.pushData) vData = some (bs.getLast?.getD vData) := by
  induction bs generalizing vData with
  | nil => rw [List.flatMap_nil, CScript.lastPushData, if_pos rfl, List.getLast?_nil]; rfl
  | cons b bs ih =>
    rw [List.flatMap_cons, CScript.lastPushData_pushData (hbs b List.mem_cons_self),
      ih (fun b' hb' => hbs b' (List.mem_cons_of_mem _ hb')), List.getLast?_cons, Option.getD_some]

end Pushes

/-! ## Counting -/

section Count

variable (fAccurate : Bool)

/-- A push-only script counts no signature operation. -/
theorem CScript.GetSigOpCount.loop_of_isPushOnly (s : List UInt8) (lastOpcode : UInt8)
    (h : CScript.IsPushOnly s = true) : CScript.GetSigOpCount.loop fAccurate s lastOpcode = 0 := by
  fun_induction CScript.GetSigOpCount.loop fAccurate s lastOpcode with
  | case1 => rfl
  | case2 => rfl
  | case3 s lastOpcode hs hok ih =>
    rw [CScript.IsPushOnly_of_ok (by simpa using hok), Bool.and_eq_true, decide_eq_true_eq] at h
    rw [CScript.GetSigOpCount.count_of_le _ _ h.1, ih h.2]

theorem CScript.GetSigOpCount.loop_le (s : List UInt8) (lastOpcode : UInt8) :
    CScript.GetSigOpCount.loop fAccurate s lastOpcode ≤ MAX_PUBKEYS_PER_MULTISIG * s.length := by
  fun_induction CScript.GetSigOpCount.loop fAccurate s lastOpcode with
  | case1 => exact Nat.zero_le _
  | case2 => exact Nat.zero_le _
  | case3 s lastOpcode hs hok ih =>
    have hlt := GetScriptOp.length_lt hs
    calc _ ≤ MAX_PUBKEYS_PER_MULTISIG +
            MAX_PUBKEYS_PER_MULTISIG * (GetScriptOp s).2.2.length :=
          Nat.add_le_add (CScript.GetSigOpCount.count_le _ _ _) ih
      _ = MAX_PUBKEYS_PER_MULTISIG * ((GetScriptOp s).2.2.length + 1) := by
          rw [Nat.mul_add_one, Nat.add_comm]
      _ ≤ MAX_PUBKEYS_PER_MULTISIG * s.length := Nat.mul_le_mul_left _ hlt

end Count

theorem CScript.GetSigOpCount.loop_accurate_le (s : List UInt8) (lastOpcode : UInt8) :
    CScript.GetSigOpCount.loop true s lastOpcode ≤ CScript.GetSigOpCount.loop false s lastOpcode := by
  fun_induction CScript.GetSigOpCount.loop true s lastOpcode with
  | case1 => exact Nat.zero_le _
  | case2 => exact Nat.zero_le _
  | case3 s lastOpcode hs hok ih =>
    rw [CScript.GetSigOpCount.loop_of_ok (by simpa using hok) false]
    exact Nat.add_le_add (CScript.GetSigOpCount.count_accurate_le _ _) ih

/-- A script of pushes only counts no signature operation. -/
theorem CScript.GetSigOpCount_of_isPushOnly {script : CScript} (h : script.IsPushOnly = true)
    (fAccurate : Bool) : script.GetSigOpCount fAccurate = 0 :=
  CScript.GetSigOpCount.loop_of_isPushOnly fAccurate script OP_INVALIDOPCODE h

/-- The height push of a coinbase scriptSig, `CScript() << 2000`. -/
theorem CScript.GetSigOpCount_of_isPushOnly_height :
    CScript.GetSigOpCount [0x02, 0xd0, 0x07] false = 0 :=
  CScript.GetSigOpCount_of_isPushOnly
    (by
      rw [show ([0x02, 0xd0, 0x07] : List UInt8) = CScript.pushData [0xd0, 0x07] ++ [] from rfl,
        CScript.IsPushOnly_pushData (by decide), CScript.IsPushOnly_nil])
    false

/-- A script counts at most `MAX_PUBKEYS_PER_MULTISIG` signature operations a byte. -/
theorem CScript.GetSigOpCount_le (script : CScript) (fAccurate : Bool) :
    script.GetSigOpCount fAccurate ≤ MAX_PUBKEYS_PER_MULTISIG * script.length :=
  CScript.GetSigOpCount.loop_le fAccurate script OP_INVALIDOPCODE

/-- The accurate count of a script, the one pay-to-script-hash spends are charged, is at most its
loose count. -/
theorem CScript.GetSigOpCount_accurate_le (script : CScript) :
    script.GetSigOpCount true ≤ script.GetSigOpCount false :=
  CScript.GetSigOpCount.loop_accurate_le script OP_INVALIDOPCODE

/-- For a pay-to-script-hash output, a scriptSig of pushes is charged the accurate count of the
script it pushes last, the redeem script. -/
theorem GetSigOpCountScriptSig_pushes {scriptPubKey : CScript}
    (hp2sh : scriptPubKey.IsPayToScriptHash = true) (bs : List (List UInt8))
    (redeemScript : List UInt8) (hbs : ∀ b ∈ bs ++ [redeemScript], b.length < 2 ^ 32) :
    scriptPubKey.GetSigOpCountScriptSig ((bs ++ [redeemScript]).flatMap CScript.pushData) =
      CScript.GetSigOpCount redeemScript true := by
  rw [CScript.GetSigOpCountScriptSig, hp2sh, Bool.not_true, if_neg Bool.false_ne_true,
    CScript.lastPushData_pushes hbs, List.getLast?_concat, Option.getD_some]

/-- A pay-to-script-hash output script, `OP_HASH160 <20 bytes> OP_EQUAL`. -/
def p2shScript : CScript := OP_HASH160 :: 0x14 :: (List.replicate 20 0 ++ [OP_EQUAL])

theorem GetSigOpCountScriptSig_pushes_sigRedeem :
    p2shScript.GetSigOpCountScriptSig (([[0x30]] ++ [[OP_CHECKSIG]]).flatMap CScript.pushData) =
      CScript.GetSigOpCount [OP_CHECKSIG] true :=
  GetSigOpCountScriptSig_pushes (by decide) [[0x30]] [OP_CHECKSIG] (by decide)

/-! ## The signature operation cost of a transaction -/

/-- `CScript::IsWitnessProgram`: a version opcode, then a push of the rest of the script, 4 to
42 bytes in all; the version and the program. -/
def CScript.IsWitnessProgram (script : CScript) : Option (Nat × List UInt8) :=
  if script.length < 4 || script.length > 42 then none
  else
    match script with
    | v :: len :: program =>
      if v != OP_0 && (v < OP_1 || v > OP_16) then none
      else if len.toNat + 2 == script.length then some (DecodeOP_N v, program) else none
    | _ => none

/-- `WitnessSigOps(witversion, witprogram, witness)`. -/
def WitnessSigOps (witversion : Nat) (witprogram : List UInt8) (witness : List (List UInt8)) :
    Nat :=
  if witversion == 0 then
    if witprogram.length == WITNESS_V0_KEYHASH_SIZE then 1
    else if witprogram.length == WITNESS_V0_SCRIPTHASH_SIZE then
      match witness.getLast? with
      | some subscript => CScript.GetSigOpCount subscript true
      | none => 0
    else 0
  else 0

/-- The loop of `CountWitnessSigOps` over a scriptSig: the operand of its last operation. -/
def CountWitnessSigOps.lastData (s : List UInt8) (data : List UInt8) : List UInt8 :=
  if s = [] then data else CountWitnessSigOps.lastData (GetScriptOp s).2.2 (GetScriptOp.vchRet s)
termination_by s.length
decreasing_by exact GetScriptOp.length_lt ‹¬s = []›

/-- The script verification flags the counts read. -/
structure ScriptFlags where
  SCRIPT_VERIFY_P2SH : Bool
  SCRIPT_VERIFY_WITNESS : Bool
  deriving DecidableEq, Repr

/-- `CountWitnessSigOps(scriptSig, scriptPubKey, witness, flags)`, past its assert that the
witness flag comes with the pay-to-script-hash one. -/
def CountWitnessSigOps (scriptSig scriptPubKey : CScript) (witness : List (List UInt8))
    (flags : ScriptFlags) : Except Abort Nat :=
  if !flags.SCRIPT_VERIFY_WITNESS then .ok 0
  else if !flags.SCRIPT_VERIFY_P2SH then .error .assertion
  else
    match scriptPubKey.IsWitnessProgram with
    | some (witnessversion, witnessprogram) =>
      .ok (WitnessSigOps witnessversion witnessprogram witness)
    | none =>
      if scriptPubKey.IsPayToScriptHash && scriptSig.IsPushOnly then
        match CScript.IsWitnessProgram (CountWitnessSigOps.lastData scriptSig []) with
        | some (witnessversion, witnessprogram) =>
          .ok (WitnessSigOps witnessversion witnessprogram witness)
        | none => .ok 0
      else .ok 0

/-- `GetLegacySigOpCount(tx)`: the loose counts of the inputs' and the outputs' scripts. -/
def GetLegacySigOpCount (tx : CTransaction) : Nat :=
  (tx.vin.map fun txin => txin.scriptSig.GetSigOpCount false).sum +
    (tx.vout.map fun txout => txout.scriptPubKey.GetSigOpCount false).sum

/-- The loop of `GetP2SHSigOpCount` over the inputs, past `assert(!coin.IsSpent())`. -/
def GetP2SHSigOpCount.loop (inputs : CCoinsViewCache) : List CTxIn → Except Abort Nat
  | [] => .ok 0
  | txin :: vin =>
    let coin := inputs.AccessCoin txin.prevout
    if coin.isSpent then .error .assertion
    else
      let n := if coin.out.scriptPubKey.IsPayToScriptHash then
        coin.out.scriptPubKey.GetSigOpCountScriptSig txin.scriptSig else 0
      (n + ·) <$> GetP2SHSigOpCount.loop inputs vin

/-- `GetP2SHSigOpCount(tx, inputs)`. -/
def GetP2SHSigOpCount (tx : CTransaction) (inputs : CCoinsViewCache) : Except Abort Nat :=
  if tx.isCoinBase then .ok 0 else GetP2SHSigOpCount.loop inputs tx.vin

/-- The witness loop of `GetTransactionSigOpCost`, past `assert(!coin.IsSpent())`. -/
def GetTransactionSigOpCost.witness (inputs : CCoinsViewCache) (flags : ScriptFlags) :
    List CTxIn → Except Abort Nat
  | [] => .ok 0
  | txin :: vin =>
    let coin := inputs.AccessCoin txin.prevout
    if coin.isSpent then .error .assertion
    else
      CountWitnessSigOps txin.scriptSig coin.out.scriptPubKey txin.scriptWitness flags >>= fun n =>
      (n + ·) <$> GetTransactionSigOpCost.witness inputs flags vin

/-- `GetTransactionSigOpCost(tx, inputs, flags)`. -/
def GetTransactionSigOpCost (tx : CTransaction) (inputs : CCoinsViewCache)
    (flags : ScriptFlags) : Except Abort Nat :=
  let nSigOps := GetLegacySigOpCount tx * WITNESS_SCALE_FACTOR
  if tx.isCoinBase then .ok nSigOps
  else
    (if flags.SCRIPT_VERIFY_P2SH then GetP2SHSigOpCount tx inputs else .ok 0) >>= fun p2sh =>
    GetTransactionSigOpCost.witness inputs flags tx.vin >>= fun witness =>
    .ok (nSigOps + p2sh * WITNESS_SCALE_FACTOR + witness)

/-! ## The coinbase, and where the asserts cannot fire -/

/-- The loop of `CScriptNum::serialize` writes a byte a step. -/
theorem CScriptNum.length_bytes (n absvalue : Nat) : (CScriptNum.bytes n absvalue).length ≤ n := by
  induction n generalizing absvalue with
  | zero => exact Nat.le_refl 0
  | succ n ih =>
    unfold CScriptNum.bytes
    split_ifs
    · exact Nat.zero_le _
    · exact Nat.succ_le_succ (ih _)

/-- `CScriptNum::serialize` writes at most nine bytes: the eight of an `int64_t` and a sign
byte. -/
theorem CScriptNum.length_serialize (value : Int) : (CScriptNum.serialize value).length ≤ 9 := by
  have h := CScriptNum.length_bytes 8 value.natAbs
  unfold CScriptNum.serialize
  split_ifs
  · exact Nat.zero_le _
  · dsimp only
    split
    · omega
    · split_ifs <;> simp <;> omega

/-- `CScript::push_int64` writes a push, whatever the number. -/
theorem CScript.IsPushOnly_pushInt64 (n : Int) (rest : List UInt8) :
    CScript.IsPushOnly (CScript.pushInt64 n ++ rest) = CScript.IsPushOnly rest := by
  unfold CScript.pushInt64
  split_ifs with hsmall hzero
  · generalize hx : UInt8.ofInt (n + ((OP_1.toNat : Int) - 1)) = x
    have hv : x.toNat = (n + 80).toNat := by
      rw [← hx]
      simp [UInt8.ofInt, UInt8.toNat_ofNat', OP_1]
      omega
    have h78 : OP_PUSHDATA4.toNat = 78 := rfl
    have h96 : OP_16.toNat = 96 := rfl
    have hgt : OP_PUSHDATA4 < x := UInt8.lt_iff_toNat_lt.2 (by omega)
    have hle : x ≤ OP_16 := UInt8.le_iff_toNat_le.2 (by omega)
    rw [List.singleton_append, CScript.IsPushOnly_of_ok (by rw [GetScriptOp_of_gt hgt]),
      GetScriptOp_of_gt hgt]
    simp [hle]
  · have h : GetScriptOp (OP_0 :: rest) = (true, OP_0, rest) :=
      (GetScriptOp_of_operandSize (b := []) (by decide)
        (GetScriptOp.operandSize_of_lt (by decide) rest)).1
    rw [List.singleton_append, CScript.IsPushOnly_of_ok (by rw [h]), h]
    simp [(by decide : OP_0 ≤ OP_16)]
  · exact CScript.IsPushOnly_pushData
      (lt_of_le_of_lt (CScriptNum.length_serialize n) (by decide)) rest

/-- The coinbase `CreateNewBlock` writes counts no signature operation: its scriptSig pushes the
height and `OP_0`, and its one output is empty. -/
theorem GetLegacySigOpCount_coinbase (nHeight : Int) (nTime : UInt32) :
    GetLegacySigOpCount (CreateNewBlock.coinbase nHeight nTime) = 0 := by
  have hOP_0 : CScript.IsPushOnly [OP_0] = true := by
    have h := CScript.IsPushOnly_pushInt64 0 []
    rwa [show CScript.pushInt64 0 = [OP_0] from rfl, List.append_nil, CScript.IsPushOnly_nil] at h
  have hscriptSig : (CScript.pushInt64 nHeight ++ [OP_0]).IsPushOnly = true := by
    rw [CScript.IsPushOnly_pushInt64, hOP_0]
  simp only [GetLegacySigOpCount, CreateNewBlock.coinbase, List.map_cons, List.map_nil,
    List.sum_cons, List.sum_nil, CScript.GetSigOpCount,
    CScript.GetSigOpCount.loop_of_isPushOnly _ _ _ hscriptSig,
    CScript.GetSigOpCount.loop_of_isPushOnly _ [] _ CScript.IsPushOnly_nil, Nat.add_zero]

/-- The coinbase `CreateNewBlock` writes costs no signature operation, the template's
`vTxSigOpsCost[0]`. -/
theorem GetTransactionSigOpCost_coinbase (nHeight : Int) (nTime : UInt32)
    (inputs : CCoinsViewCache) (flags : ScriptFlags) :
    GetTransactionSigOpCost (CreateNewBlock.coinbase nHeight nTime) inputs flags = .ok 0 := by
  have hcb : (CreateNewBlock.coinbase nHeight nTime).isCoinBase = true := rfl
  simp only [GetTransactionSigOpCost, if_pos hcb, GetLegacySigOpCount_coinbase, Nat.zero_mul]

section Asserts

variable {inputs : CCoinsViewCache} {flags : ScriptFlags}

/-- A coin the view has is unspent. -/
theorem CCoinsViewCache.AccessCoin_isSpent_of_HaveCoin {o : COutPoint}
    (h : inputs.HaveCoin o = true) : (inputs.AccessCoin o).isSpent = false := by
  obtain ⟨c, hc⟩ := CCoinsViewCache.HaveCoin_iff.1 h
  rw [CCoinsViewCache.AccessCoin, hc, Option.getD_some]
  exact inputs.unspent o c hc

/-- `CountWitnessSigOps` asserts only where the witness flag comes without the
pay-to-script-hash one. -/
theorem CountWitnessSigOps_ok
    (hflags : flags.SCRIPT_VERIFY_WITNESS = true → flags.SCRIPT_VERIFY_P2SH = true)
    (scriptSig scriptPubKey : CScript) (witness : List (List UInt8)) :
    ∃ n, CountWitnessSigOps scriptSig scriptPubKey witness flags = .ok n := by
  unfold CountWitnessSigOps
  by_cases hw : flags.SCRIPT_VERIFY_WITNESS = true
  · simp only [hw, hflags hw, Bool.not_true, Bool.false_eq_true, if_false]
    split
    · exact ⟨_, rfl⟩
    · split_ifs
      · split <;> exact ⟨_, rfl⟩
      · exact ⟨_, rfl⟩
  · simp [hw]

variable {vin : List CTxIn}

theorem GetP2SHSigOpCount.loop_ok (hvin : ∀ txin ∈ vin, inputs.HaveCoin txin.prevout = true) :
    ∃ n, GetP2SHSigOpCount.loop inputs vin = .ok n := by
  induction vin with
  | nil => exact ⟨0, rfl⟩
  | cons txin vin ih =>
    have hspent := CCoinsViewCache.AccessCoin_isSpent_of_HaveCoin (hvin txin List.mem_cons_self)
    obtain ⟨n, hn⟩ := ih fun t ht => hvin t (List.mem_cons_of_mem _ ht)
    simp only [GetP2SHSigOpCount.loop, hspent, hn, Bool.false_eq_true, if_false]
    exact ⟨_, rfl⟩

theorem GetTransactionSigOpCost.witness_ok
    (hflags : flags.SCRIPT_VERIFY_WITNESS = true → flags.SCRIPT_VERIFY_P2SH = true)
    (hvin : ∀ txin ∈ vin, inputs.HaveCoin txin.prevout = true) :
    ∃ n, GetTransactionSigOpCost.witness inputs flags vin = .ok n := by
  induction vin with
  | nil => exact ⟨0, rfl⟩
  | cons txin vin ih =>
    have hspent := CCoinsViewCache.AccessCoin_isSpent_of_HaveCoin (hvin txin List.mem_cons_self)
    obtain ⟨n, hn⟩ := ih fun t ht => hvin t (List.mem_cons_of_mem _ ht)
    obtain ⟨w, hw⟩ := CountWitnessSigOps_ok hflags txin.scriptSig
      (inputs.AccessCoin txin.prevout).out.scriptPubKey txin.scriptWitness
    simp only [GetTransactionSigOpCost.witness, hspent, hn, hw, Bool.false_eq_true, if_false,
      Except.bind_ok_left]
    exact ⟨_, rfl⟩

/-- On a transaction whose inputs the view has, `GetTransactionSigOpCost`'s asserts never fire,
unless the witness flag comes without the pay-to-script-hash one. -/
theorem GetTransactionSigOpCost_ok {tx : CTransaction} (hinputs : inputs.HaveInputs tx = true)
    (hflags : flags.SCRIPT_VERIFY_WITNESS = true → flags.SCRIPT_VERIFY_P2SH = true) :
    ∃ n, GetTransactionSigOpCost tx inputs flags = .ok n := by
  by_cases hcb : tx.isCoinBase = true
  · simp only [GetTransactionSigOpCost, if_pos hcb]
    exact ⟨_, rfl⟩
  · have hvin : ∀ txin ∈ tx.vin, inputs.HaveCoin txin.prevout = true := by
      simpa [CCoinsViewCache.HaveInputs, hcb] using hinputs
    obtain ⟨p2sh, hp2sh⟩ : ∃ p2sh,
        (if flags.SCRIPT_VERIFY_P2SH then GetP2SHSigOpCount tx inputs else .ok 0) = .ok p2sh := by
      split_ifs
      · rw [GetP2SHSigOpCount, if_neg hcb]
        exact GetP2SHSigOpCount.loop_ok hvin
      · exact ⟨0, rfl⟩
    obtain ⟨w, hw⟩ := GetTransactionSigOpCost.witness_ok hflags hvin
    simp only [GetTransactionSigOpCost, if_neg hcb, hp2sh, hw, Except.bind_ok_left]
    exact ⟨_, rfl⟩

end Asserts

end NowpConsensus
