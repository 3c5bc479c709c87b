import NowpConsensus.Validation.DisconnectBlock
import NowpConsensus.Validation.UndoData

/-!
# Disconnecting a connected block

A reorganisation walks the chain back with `CChainState::DisconnectBlock` (`validation.cpp`),
which undoes a block with the undo data `ConnectBlock` recorded for it. This module proves that
it does: on the view `ConnectBlock` left, with the undo data it returned, `DisconnectBlock`
reports a clean undo and gives back the view the block was connected to, coin for coin and with
its best block.

The argument follows `DisconnectBlock`, one transaction at a time, last first. A transaction's
outputs were added at outpoints that held no coin (`AddCoins.Fresh`, what `AddCoin` checks when
it may not overwrite); spending them again gives back the view its inputs left
(`DisconnectBlock.outputs_AddCoins`). Its inputs' coins were moved to the undo data in order;
putting them back, last first, gives back the view before it (`DisconnectBlock.inputs_spend`).
`ApplyTxInUndo` puts a coin back as it was when the coin is spendable and above height zero
(`CCoinsViewCache.Restorable`), which the block's own coins are at a height above zero. Every
result compares views by their coins, since the disconnected view is at another best block
until `DisconnectBlock` moves it back.

The block is connected with `skipZeroValue` read as `true`, so that `AddCoin` and
`DisconnectBlock` skip the same outputs; read as `false`, a zero-valued output is added and
never spent again.

The same walk through the loop of `ConnectBlock` says what a connected block leaves behind: the
coins of the view and of the undo data are the view's and the block's own outputs, so that any
property of both carries over (`CCoinsViewCache.All`).

* `DisconnectBlock.tx_UpdateCoins`: one transaction, undone;
* `ConnectBlock.loop_disconnect`: the transactions after the coinbase, undone last first;
* `DisconnectBlock_ConnectBlock`: disconnecting a block right after connecting it restores the
  view, with `DISCONNECT_OK`;
* `ConnectBlock_coins_all`: every coin of the view and of the undo data a connected block returns
  satisfies what the view's coins and the block's stored outputs satisfy;
* `ConnectBlock_blockundo_storable`: so the undo data of a block is what the undo files store
  exactly (`UndoReadFromDisk_UndoWriteToDisk`).
-/

namespace NowpConsensus

/-- A coin `ApplyTxInUndo` puts back as it was: spendable, so that `AddCoin` stores it, and
above height zero, where the older undo format would have left its metadata out. -/
structure Coin.Restorable (c : Coin) : Prop where
  spendable : c.out.scriptPubKey.isUnspendable = false
  nHeight_pos : 0 < c.nHeight

namespace CCoinsViewCache

variable {view view' : CCoinsViewCache} {o o' : COutPoint} {coin : Coin}

/-- Two views that show the same coins at the same best block are the same view. -/
@[ext]
theorem ext {v w : CCoinsViewCache} (hc : v.coins = w.coins) (hb : v.hashBlock = w.hashBlock) :
    v = w := by
  cases v
  cases w
  cases hc
  cases hb
  rfl

@[simp]
theorem SetBestBlock_hashBlock {h : uint256} : (view.SetBestBlock h).hashBlock = h := rfl

theorem HaveCoin_erase_of_ne (h : o ≠ o') : (view.erase o).HaveCoin o' = view.HaveCoin o' := by
  simp [HaveCoin, Function.update_of_ne h.symm]

/-- A coin `AddCoin` accepts is unspent. -/
theorem AddCoin_isSpent {possible_overwrite skipZeroValue : Bool}
    (h : view.AddCoin o coin possible_overwrite skipZeroValue = .ok view') : coin.isSpent = false := by
  cases hs : coin.isSpent
  · rfl
  · have herr : view.AddCoin o coin possible_overwrite skipZeroValue = .error .assertion :=
      AddCoin_eq_error.2 (Or.inl ⟨hs, rfl⟩)
    rw [h] at herr
    cases herr

/-- A coin `AddCoin` stores without leave to overwrite went to an outpoint that held none. -/
theorem AddCoin_coins_none {skipZeroValue : Bool}
    (h : view.AddCoin o coin false skipZeroValue = .ok view') (hs : stores coin skipZeroValue = true) :
    view.coins o = none := by
  cases hh : view.HaveCoin o
  · exact HaveCoin_eq_false.1 hh
  · have herr : view.AddCoin o coin false skipZeroValue = .error (.exception
        "Attempted to overwrite an unspent coin (when possible_overwrite is false)") :=
      AddCoin_eq_error.2 (Or.inr ⟨AddCoin_isSpent h, hs, rfl, hh, rfl⟩)
    rw [h] at herr
    cases herr

/-- `AddCoin` does the same on a view without a coin at another outpoint than the one it
stores at. -/
theorem AddCoin_erase {possible_overwrite skipZeroValue : Bool}
    (hne : stores coin skipZeroValue = true → o' ≠ o)
    (h : view.AddCoin o coin possible_overwrite skipZeroValue = .ok view') :
    (view.erase o').AddCoin o coin possible_overwrite skipZeroValue = .ok (view'.erase o') := by
  by_cases hs : stores coin skipZeroValue = true
  · have hne := hne hs
    cases hr : (view.erase o').AddCoin o coin possible_overwrite skipZeroValue with
    | error e =>
      have herr : view.AddCoin o coin possible_overwrite skipZeroValue = .error e := by
        rw [AddCoin_eq_error, ← HaveCoin_erase_of_ne hne]
        exact AddCoin_eq_error.1 hr
      rw [h] at herr
      cases herr
    | ok v =>
      obtain ⟨hc, hb⟩ := AddCoin_eq_ok h
      obtain ⟨hc', hb'⟩ := AddCoin_eq_ok hr
      rw [if_pos hs] at hc hc'
      refine congrArg Except.ok (ext ?_ (by rw [hb', erase_hashBlock, erase_hashBlock, hb]))
      rw [hc', erase_coins, erase_coins, hc]
      exact Function.update_comm hne _ _ _
  · obtain ⟨hc, hb⟩ := AddCoin_eq_ok h
    rw [if_neg hs] at hc
    have hview : view' = view := ext hc hb
    subst hview
    exact AddCoin_of_not_stores (AddCoin_isSpent h) (by simpa using hs)

/-- Every coin the view shows satisfies `P`. -/
def All (P : Coin → Prop) (view : CCoinsViewCache) : Prop := ∀ o c, view.coins o = some c → P c

section All

variable {P : Coin → Prop}

theorem All.update_coins {v : Option Coin} (h : view.All P) (hv : ∀ c, v = some c → P c) :
    ∀ o' c, Function.update view.coins o v o' = some c → P c := by
  intro o' c hc
  by_cases ho : o' = o
  · subst ho
    rw [Function.update_self] at hc
    exact hv c hc
  · rw [Function.update_of_ne ho] at hc
    exact h o' c hc

theorem All.of_coins_eq (h : view.All P) (hc : view'.coins = view.coins) : view'.All P :=
  fun o c hoc => h o c (hc ▸ hoc)

theorem All.erase (h : view.All P) : (view.erase o).All P :=
  h.update_coins fun _ hc => by cases hc

/-- `AddCoin` keeps every coin satisfying `P` when the coin it is given does, if it stores it. -/
theorem All.AddCoin {possible_overwrite skipZeroValue : Bool} (h : view.All P)
    (hP : stores coin skipZeroValue = true → P coin)
    (hadd : view.AddCoin o coin possible_overwrite skipZeroValue = .ok view') : view'.All P := by
  obtain ⟨hc, -⟩ := AddCoin_eq_ok hadd
  split at hc
  · rename_i hs
    rw [All, hc]
    exact h.update_coins fun c hc' => by
      cases hc'
      exact hP hs
  · exact h.of_coins_eq hc

end All

/-- A view whose coins `ApplyTxInUndo` puts back as they were. -/
def Restorable (view : CCoinsViewCache) : Prop := view.All Coin.Restorable

/-- A coin `AddCoin` stores is spendable. -/
theorem stores_spendable {skipZeroValue : Bool} (hs : stores coin skipZeroValue = true) :
    coin.out.scriptPubKey.isUnspendable = false := by
  simp only [stores, Bool.and_eq_true, Bool.not_eq_true'] at hs
  exact hs.1

end CCoinsViewCache

/-! ## Putting a transaction's inputs back -/

section Inputs

variable {view : CCoinsViewCache} {out : COutPoint} {undo : Coin}

/-- **`ApplyTxInUndo` puts a coin back as it was** at an outpoint that holds none, when the coin
is unspent, spendable and above height zero: a clean undo. -/
theorem ApplyTxInUndo_of_none (hnone : view.coins out = none) (hs : undo.isSpent = false)
    (hr : undo.Restorable) :
    ∃ view', ApplyTxInUndo undo view out = .ok (.DISCONNECT_OK, view') ∧
      view'.coins = Function.update view.coins out (some undo) ∧
      view'.hashBlock = view.hashBlock := by
  have hhave : view.HaveCoin out = false := CCoinsViewCache.HaveCoin_eq_false.2 hnone
  have hadd : view.AddCoin out undo false false = .ok (view.set out undo hs) := by
    simp [CCoinsViewCache.AddCoin, hs, hr.spendable, hhave]
  refine ⟨view.set out undo hs, ?_, rfl, rfl⟩
  simp [ApplyTxInUndo, hhave, hr.nHeight_pos.ne', hadd, Except.map]

/-- A run of the restoring loop that returns is followed by the run of what comes after it. -/
theorem DisconnectBlock.inputs_append {l₁ l₂ : List (CTxIn × Coin)} {fClean fClean' : Bool}
    {view view' : CCoinsViewCache}
    (h : DisconnectBlock.inputs l₁ fClean view = .ok (some (fClean', view'))) :
    DisconnectBlock.inputs (l₁ ++ l₂) fClean view = DisconnectBlock.inputs l₂ fClean' view' := by
  induction l₁ generalizing fClean view with
  | nil =>
    simp only [DisconnectBlock.inputs, Except.ok.injEq, Option.some.injEq, Prod.mk.injEq] at h
    obtain ⟨rfl, rfl⟩ := h
    rfl
  | cons p rest ih =>
    obtain ⟨txin, u⟩ := p
    simp only [DisconnectBlock.inputs, List.cons_append] at h ⊢
    obtain ⟨⟨res, view₁⟩, happ, h⟩ := Except.bind_eq_ok.1 h
    rw [happ, Except.bind_ok_left]
    split at h
    · cases h
    · rw [if_neg ‹_›]
      exact ih h

/-- **The inputs `UpdateCoins` spends are put back.** The loop that moves a transaction's coins
to its undo data appends one coin per input; from any view that shows what the loop left,
putting those coins back, last first, is a clean undo and shows the coins before the loop. -/
theorem DisconnectBlock.inputs_spend {inputs inputs' : CCoinsViewCache} {txundo txundo' : CTxUndo}
    {vin : List CTxIn} (h : UpdateCoins.spend inputs txundo vin = .ok (inputs', txundo'))
    (hr : inputs.Restorable) :
    ∃ coins : List Coin, txundo'.vprevout = txundo.vprevout ++ coins ∧
      coins.length = vin.length ∧
      ∀ (w : CCoinsViewCache) (fClean : Bool), w.coins = inputs'.coins →
        ∃ w', DisconnectBlock.inputs (vin.zip coins).reverse fClean w = .ok (some (fClean, w')) ∧
          w'.coins = inputs.coins ∧ w'.hashBlock = w.hashBlock := by
  -- induction on the inputs, from any view and undo data so far
  induction vin generalizing inputs txundo with
  | nil =>
    simp only [UpdateCoins.spend, Except.ok.injEq, Prod.mk.injEq] at h
    obtain ⟨rfl, rfl⟩ := h
    refine ⟨[], by simp, rfl, fun w fClean hw => ⟨w, rfl, hw, rfl⟩⟩
  | cons txin rest ih =>
    simp only [UpdateCoins.spend, CCoinsViewCache.SpendCoin] at h
    cases hc : inputs.coins txin.prevout with
    | none =>
      rw [hc] at h
      cases h
    | some coin =>
      rw [hc] at h
      obtain ⟨coins, hv, hlen, hrun⟩ := ih h (CCoinsViewCache.All.erase hr)
      refine ⟨coin :: coins, by simp [hv], by simp [hlen], fun w fClean hw => ?_⟩
      obtain ⟨w₁, hrun₁, hw₁, hb₁⟩ := hrun w fClean hw
      have hnone : w₁.coins txin.prevout = none := by simp [hw₁]
      obtain ⟨w₂, happ, hw₂, hb₂⟩ := ApplyTxInUndo_of_none hnone (inputs.unspent _ _ hc) (hr _ _ hc)
      refine ⟨w₂, ?_, ?_, by rw [hb₂, hb₁]⟩
      · rw [List.zip_cons_cons, List.reverse_cons, DisconnectBlock.inputs_append hrun₁]
        simp [DisconnectBlock.inputs, happ]
      · rw [hw₂, hw₁, CCoinsViewCache.erase_coins, Function.update_idem,
          Function.update_eq_self_iff, hc]

end Inputs

/-! ## Spending a transaction's outputs again -/

section Outputs

variable {GetHash : CTransaction → uint256} {tx : CTransaction} {nHeight : Int}

/-- The outputs of `tx` from index `i` that `AddCoins` stores (with zero values skipped) go to
outpoints that hold no coin when each is added: what `AddCoin` checks when it may not
overwrite. -/
def AddCoins.Fresh (GetHash : CTransaction → uint256) (tx : CTransaction) (nHeight : Int) :
    (COutPoint → Option Coin) → Nat → List CTxOut → Prop
  | _, _, [] => True
  | coins, i, out :: rest =>
    if CCoinsViewCache.stores (Coin.ofTx tx out nHeight) true then
      coins ⟨GetHash tx, UInt32.ofNat i⟩ = none ∧
        Fresh GetHash tx nHeight
          (Function.update coins ⟨GetHash tx, UInt32.ofNat i⟩ (some (Coin.ofTx tx out nHeight)))
          (i + 1) rest
    else Fresh GetHash tx nHeight coins (i + 1) rest

/-- Outputs fresh over some coins are fresh over fewer. -/
theorem AddCoins.Fresh.mono {coins coins' : COutPoint → Option Coin} {i : Nat} {l : List CTxOut}
    (h : AddCoins.Fresh GetHash tx nHeight coins i l) (hle : ∀ o, coins o = none → coins' o = none) :
    AddCoins.Fresh GetHash tx nHeight coins' i l := by
  induction l generalizing coins coins' i with
  | nil => trivial
  | cons out rest ih =>
    unfold AddCoins.Fresh at h ⊢
    split
    · rename_i hs
      rw [if_pos hs] at h
      refine ⟨hle _ h.1, ih h.2 fun o ho => ?_⟩
      by_cases ho' : o = ⟨GetHash tx, UInt32.ofNat i⟩
      · subst ho'
        simp at ho
      · rw [Function.update_of_ne ho'] at ho ⊢
        exact hle o ho
    · rw [if_neg ‹_›] at h
      exact ih h hle

/-- **The outputs of a transaction that is not a coinbase are fresh** when `AddCoins` adds them
without checking for overwrites: `AddCoin` may then not overwrite, and throws at an outpoint that
holds a coin. -/
theorem AddCoins.go_fresh (hcb : tx.isCoinBase = false) {cache cache' : CCoinsViewCache}
    {i : Nat} {l : List CTxOut}
    (h : AddCoins.go GetHash tx nHeight false true cache i l = .ok cache') :
    AddCoins.Fresh GetHash tx nHeight cache.coins i l := by
  induction l generalizing cache i with
  | nil => trivial
  | cons out rest ih =>
    simp only [AddCoins.go, if_neg Bool.false_ne_true, hcb] at h
    obtain ⟨cache₁, hadd, h⟩ := Except.bind_eq_ok.1 h
    obtain ⟨hc, -⟩ := CCoinsViewCache.AddCoin_eq_ok hadd
    have hfresh := ih h
    unfold AddCoins.Fresh
    split
    · rename_i hs
      rw [if_pos hs] at hc
      exact ⟨CCoinsViewCache.AddCoin_coins_none hadd hs, hc ▸ hfresh⟩
    · rw [if_neg ‹_›] at hc
      exact hc ▸ hfresh

/-- **Outputs of a coinbase are fresh** when none of its outpoints holds a coin, and it has
fewer than `2^32` outputs, so that no two share an index. -/
theorem AddCoins.fresh_of_none {coins : COutPoint → Option Coin} {i : Nat} {l : List CTxOut}
    (hlen : i + l.length ≤ 2 ^ 32)
    (h : ∀ k < l.length, coins ⟨GetHash tx, UInt32.ofNat (i + k)⟩ = none) :
    AddCoins.Fresh GetHash tx nHeight coins i l := by
  induction l generalizing coins i with
  | nil => trivial
  | cons out rest ih =>
    simp only [List.length_cons] at hlen h
    have hlater : ∀ k < rest.length, coins ⟨GetHash tx, UInt32.ofNat (i + 1 + k)⟩ = none := by
      intro k hk
      rw [show i + 1 + k = i + (k + 1) by omega]
      exact h (k + 1) (by omega)
    unfold AddCoins.Fresh
    split
    · refine ⟨h 0 (by omega), ih (by omega) fun k hk => ?_⟩
      have hne : UInt32.ofNat (i + 1 + k) ≠ UInt32.ofNat i := by
        intro heq
        have := congrArg UInt32.toNat heq
        rw [UInt32.toNat_ofNat_of_lt' (by rw [UInt32.size]; omega),
          UInt32.toNat_ofNat_of_lt' (by rw [UInt32.size]; omega)] at this
        omega
      rw [Function.update_of_ne fun heq => hne (COutPoint.mk.inj heq).2]
      exact hlater k hk
    · exact ih (by omega) hlater

section Untouched

variable {cache cache' : CCoinsViewCache} {i : Nat} {l : List CTxOut} {o : COutPoint} {c : Coin}

/-- `AddCoins` keeps a coin that stands where none of the fresh outputs goes. -/
theorem AddCoins.go_coins_of_some (h : AddCoins.go GetHash tx nHeight false true cache i l = .ok cache')
    (hfresh : AddCoins.Fresh GetHash tx nHeight cache.coins i l) (hc : cache.coins o = some c) :
    cache'.coins o = some c := by
  induction l generalizing cache i with
  | nil =>
    cases h
    exact hc
  | cons out rest ih =>
    simp only [AddCoins.go] at h
    obtain ⟨cache₁, hadd, h⟩ := Except.bind_eq_ok.1 h
    obtain ⟨hc₁, -⟩ := CCoinsViewCache.AddCoin_eq_ok hadd
    unfold AddCoins.Fresh at hfresh
    split at hfresh
    · rename_i hs
      rw [if_pos hs] at hc₁
      have hne : o ≠ ⟨GetHash tx, UInt32.ofNat i⟩ := by
        rintro rfl
        rw [hfresh.1] at hc
        cases hc
      exact ih h (hc₁ ▸ hfresh.2) (by rw [hc₁, Function.update_of_ne hne, hc])
    · rw [if_neg ‹_›] at hc₁
      exact ih h (hc₁ ▸ hfresh) (hc₁ ▸ hc)

/-- `AddCoins` does the same on a view without a coin that stands where none of the fresh outputs
goes. -/
theorem AddCoins.go_erase (h : AddCoins.go GetHash tx nHeight false true cache i l = .ok cache')
    (hfresh : AddCoins.Fresh GetHash tx nHeight cache.coins i l) (hc : cache.coins o = some c) :
    AddCoins.go GetHash tx nHeight false true (cache.erase o) i l = .ok (cache'.erase o) := by
  induction l generalizing cache i with
  | nil =>
    cases h
    rfl
  | cons out rest ih =>
    simp only [AddCoins.go, Bool.false_eq_true, ↓reduceIte] at h ⊢
    obtain ⟨cache₁, hadd, h⟩ := Except.bind_eq_ok.1 h
    obtain ⟨hc₁, -⟩ := CCoinsViewCache.AddCoin_eq_ok hadd
    unfold AddCoins.Fresh at hfresh
    split at hfresh
    · rename_i hs
      rw [if_pos hs] at hc₁
      have hne : o ≠ ⟨GetHash tx, UInt32.ofNat i⟩ := by
        rintro rfl
        rw [hfresh.1] at hc
        cases hc
      rw [CCoinsViewCache.AddCoin_erase (fun _ => hne) hadd, Except.bind_ok_left]
      exact ih h (hc₁ ▸ hfresh.2) (by rw [hc₁, Function.update_of_ne hne, hc])
    · rename_i hs
      rw [if_neg hs] at hc₁
      rw [CCoinsViewCache.AddCoin_erase (fun h => absurd h hs) hadd, Except.bind_ok_left]
      exact ih h (hc₁ ▸ hfresh) (hc₁ ▸ hc)

end Untouched

/-- **The outputs `AddCoins` adds are spent again.** From any view that shows what `AddCoins`
left, the check of `DisconnectBlock` finds each fresh output it stored, as it stored it, and
spends it: a clean undo that shows the coins before `AddCoins`. -/
theorem DisconnectBlock.outputs_AddCoins {cache cache' : CCoinsViewCache} {i : Nat}
    {l : List CTxOut} (h : AddCoins.go GetHash tx nHeight false true cache i l = .ok cache')
    (hfresh : AddCoins.Fresh GetHash tx nHeight cache.coins i l) :
    ∀ (w : CCoinsViewCache) (fClean : Bool), w.coins = cache'.coins →
      ∃ w', DisconnectBlock.outputs GetHash tx nHeight i l fClean w = (fClean, w') ∧
        w'.coins = cache.coins ∧ w'.hashBlock = w.hashBlock := by
  -- induction on the outputs, from any views before and after them
  induction l generalizing cache cache' i with
  | nil =>
    cases h
    exact fun w fClean hw => ⟨w, rfl, hw, rfl⟩
  | cons out rest ih =>
    intro w fClean hw
    simp only [AddCoins.go] at h
    obtain ⟨cache₁, hadd, h⟩ := Except.bind_eq_ok.1 h
    obtain ⟨hc₁, hb₁⟩ := CCoinsViewCache.AddCoin_eq_ok hadd
    unfold AddCoins.Fresh at hfresh
    split at hfresh
    · rename_i hs
      rw [if_pos hs] at hc₁
      have hkept : cache₁.coins ⟨GetHash tx, UInt32.ofNat i⟩ = some (Coin.ofTx tx out nHeight) := by
        simp [hc₁]
      have hprev : (cache₁.erase ⟨GetHash tx, UInt32.ofNat i⟩).coins = cache.coins := by
        rw [CCoinsViewCache.erase_coins, hc₁, Function.update_idem, Function.update_eq_self_iff,
          hfresh.1]
      have hrest := AddCoins.go_erase h (hc₁ ▸ hfresh.2) hkept
      have hfresh' : AddCoins.Fresh GetHash tx nHeight
          (cache₁.erase ⟨GetHash tx, UInt32.ofNat i⟩).coins (i + 1) rest := by
        rw [hprev]
        refine hfresh.2.mono fun o ho => ?_
        by_cases ho' : o = ⟨GetHash tx, UInt32.ofNat i⟩
        · subst ho'
          simp at ho
        · rwa [Function.update_of_ne ho'] at ho
      obtain ⟨w', hout, hw', hb'⟩ := ih hrest hfresh' (w.erase ⟨GetHash tx, UInt32.ofNat i⟩) fClean
        (by simp [hw])
      simp only [CCoinsViewCache.stores, Coin.ofTx, Bool.and_eq_true, Bool.not_eq_true',
        Bool.and_true, beq_eq_false_iff_ne, ne_eq] at hs
      have hw₀ : w.coins ⟨GetHash tx, UInt32.ofNat i⟩ = some (Coin.ofTx tx out nHeight) := by
        rw [hw, AddCoins.go_coins_of_some h (hc₁ ▸ hfresh.2) hkept]
      refine ⟨w', ?_, hw'.trans hprev, hb'⟩
      simp [DisconnectBlock.outputs, hs.1, hs.2, CCoinsViewCache.SpendCoin, hw₀, Coin.ofTx, hout]
    · rename_i hs
      rw [if_neg hs] at hc₁
      rw [CCoinsViewCache.ext hc₁ hb₁] at h
      obtain ⟨w', hout, hw', hb'⟩ := ih h hfresh w fClean hw
      simp only [CCoinsViewCache.stores, Coin.ofTx, Bool.and_eq_true, Bool.not_eq_true',
        Bool.and_true, not_and, Bool.not_eq_false, beq_iff_eq] at hs
      refine ⟨w', ?_, hw', hb'⟩
      by_cases hu : out.scriptPubKey.isUnspendable = true
      · simp [DisconnectBlock.outputs, hu, hout]
      · simp [DisconnectBlock.outputs, hu, hs (by simpa using hu), hout]

end Outputs

/-! ## One transaction -/

section Transaction

variable {GetHash : CTransaction → uint256} {tx : CTransaction} {nHeight : Int}
  {view view' : CCoinsViewCache} {txundo : CTxUndo} {skipZeroValue : Bool}

/-- What `UpdateCoins` does when it returns: the inputs' loop, unless the transaction is a
coinbase, then `AddCoins` on the view it left. -/
theorem UpdateCoins_eq_ok {txundo₀ : CTxUndo}
    (h : UpdateCoins GetHash tx view txundo₀ nHeight skipZeroValue = .ok (view', txundo)) :
    ∃ view₁, (if !tx.isCoinBase then UpdateCoins.spend view txundo₀ tx.vin
        else .ok (view, txundo₀)) = .ok (view₁, txundo) ∧
      AddCoins.go GetHash tx nHeight false skipZeroValue view₁ 0 tx.vout = .ok view' := by
  unfold UpdateCoins at h
  obtain ⟨⟨view₁, txundo₁⟩, hspend, h⟩ := Except.bind_eq_ok.1 h
  obtain ⟨view₂, hadd, heq⟩ := Except.map_eq_ok.1 h
  simp only [Prod.mk.injEq] at heq
  obtain ⟨rfl, rfl⟩ := heq
  exact ⟨view₁, hspend, hadd⟩

/-- `UpdateCoins`' loop over the inputs moves coins of the view to the undo data, one per input:
the coins of both satisfy what the coins of both did. -/
theorem UpdateCoins.spend_all {P : Coin → Prop} {inputs inputs' : CCoinsViewCache}
    {txundo₀ : CTxUndo} {vin : List CTxIn}
    (h : UpdateCoins.spend inputs txundo₀ vin = .ok (inputs', txundo))
    (hall : inputs.All P) (hu : ∀ c ∈ txundo₀.vprevout, P c) :
    inputs'.All P ∧ (∀ c ∈ txundo.vprevout, P c) ∧
      txundo.vprevout.length = txundo₀.vprevout.length + vin.length := by
  induction vin generalizing inputs txundo₀ with
  | nil =>
    cases h
    exact ⟨hall, hu, rfl⟩
  | cons txin rest ih =>
    simp only [UpdateCoins.spend, CCoinsViewCache.SpendCoin] at h
    cases hc : inputs.coins txin.prevout with
    | none =>
      rw [hc] at h
      cases h
    | some coin =>
      rw [hc] at h
      obtain ⟨hall', hu', hlen⟩ := ih h hall.erase fun c hc' => by
        rcases List.mem_append.1 hc' with hc' | hc'
        · exact hu c hc'
        · rw [List.mem_singleton.1 hc']
          exact hall _ _ hc
      refine ⟨hall', hu', ?_⟩
      rw [hlen, List.length_append, List.length_singleton, List.length_cons]
      omega

theorem AddCoins.go_all {P : Coin → Prop} {cache cache' : CCoinsViewCache} {i : Nat}
    {l : List CTxOut} (h : AddCoins.go GetHash tx nHeight false skipZeroValue cache i l = .ok cache')
    (hall : cache.All P)
    (hP : ∀ out ∈ l, CCoinsViewCache.stores (Coin.ofTx tx out nHeight) skipZeroValue = true →
      P (Coin.ofTx tx out nHeight)) :
    cache'.All P := by
  induction l generalizing cache i with
  | nil =>
    cases h
    exact hall
  | cons out rest ih =>
    simp only [AddCoins.go] at h
    obtain ⟨cache₁, hadd, h⟩ := Except.bind_eq_ok.1 h
    exact ih h (hall.AddCoin (hP out (List.mem_cons_self ..)) hadd)
      fun out' hout' => hP out' (List.mem_cons_of_mem _ hout')

/-- **`UpdateCoins` keeps every coin satisfying `P`**, in the view and in the undo data, when
every output it may store does; and it records at most one coin per input. -/
theorem UpdateCoins_all {P : Coin → Prop} {txundo₀ : CTxUndo} (hall : view.All P)
    (hu : ∀ c ∈ txundo₀.vprevout, P c)
    (hP : ∀ out ∈ tx.vout, CCoinsViewCache.stores (Coin.ofTx tx out nHeight) skipZeroValue = true →
      P (Coin.ofTx tx out nHeight))
    (h : UpdateCoins GetHash tx view txundo₀ nHeight skipZeroValue = .ok (view', txundo)) :
    view'.All P ∧ (∀ c ∈ txundo.vprevout, P c) ∧
      txundo.vprevout.length ≤ txundo₀.vprevout.length + tx.vin.length := by
  obtain ⟨view₁, hspend, hadd⟩ := UpdateCoins_eq_ok h
  have h₁ : view₁.All P ∧ (∀ c ∈ txundo.vprevout, P c) ∧
      txundo.vprevout.length ≤ txundo₀.vprevout.length + tx.vin.length := by
    split at hspend
    · obtain ⟨h₁, h₂, h₃⟩ := UpdateCoins.spend_all hspend hall hu
      exact ⟨h₁, h₂, h₃.le⟩
    · cases hspend
      exact ⟨hall, hu, by omega⟩
  exact ⟨AddCoins.go_all hadd h₁.1 hP, h₁.2⟩

/-- The coins a block adds at a height above zero are ones `ApplyTxInUndo` puts back. -/
theorem Coin.restorable_ofTx (hh : 0 < nHeight) :
    ∀ out ∈ tx.vout, CCoinsViewCache.stores (Coin.ofTx tx out nHeight) skipZeroValue = true →
      (Coin.ofTx tx out nHeight).Restorable :=
  fun _ _ hs => ⟨CCoinsViewCache.stores_spendable hs, hh⟩

/-- **`UpdateCoins` keeps a view restorable** at a height above zero. -/
theorem UpdateCoins_restorable (hr : view.Restorable) (hh : 0 < nHeight)
    (h : UpdateCoins GetHash tx view ⟨[]⟩ nHeight skipZeroValue = .ok (view', txundo)) :
    view'.Restorable :=
  (UpdateCoins_all hr (by simp) (Coin.restorable_ofTx hh) h).1

/-- **`DisconnectBlock` undoes a transaction that is not a coinbase**, with the undo data
`UpdateCoins` recorded for it: from any view that shows what `UpdateCoins` left, a clean undo
that shows the coins before it. -/
theorem DisconnectBlock.tx_UpdateCoins (hcb : tx.isCoinBase = false) (hr : view.Restorable)
    (h : UpdateCoins GetHash tx view ⟨[]⟩ nHeight true = .ok (view', txundo)) :
    ∀ (w : CCoinsViewCache) (fClean : Bool), w.coins = view'.coins →
      ∃ w', DisconnectBlock.tx GetHash nHeight tx (some txundo) fClean w =
          .ok (some (fClean, w')) ∧ w'.coins = view.coins ∧ w'.hashBlock = w.hashBlock := by
  intro w fClean hw
  obtain ⟨view₁, hspend, hadd⟩ := UpdateCoins_eq_ok h
  rw [hcb, Bool.not_false, if_pos rfl] at hspend
  obtain ⟨coins, hv, hlen, hrun⟩ := DisconnectBlock.inputs_spend hspend hr
  obtain ⟨w₁, hout, hw₁, hb₁⟩ :=
    DisconnectBlock.outputs_AddCoins hadd (AddCoins.go_fresh hcb hadd) w fClean hw
  obtain ⟨w₂, hin, hw₂, hb₂⟩ := hrun w₁ fClean hw₁
  refine ⟨w₂, ?_, hw₂, hb₂.trans hb₁⟩
  simp only [List.nil_append] at hv
  simp [DisconnectBlock.tx, hout, hv, hlen, hin]

/-- **`DisconnectBlock` undoes a coinbase** whose outpoints held no coin before it, when it has
fewer than `2^32` outputs. -/
theorem DisconnectBlock.tx_UpdateCoins_coinbase (hcb : tx.isCoinBase = true)
    (hlen : tx.vout.length ≤ 2 ^ 32)
    (hnone : ∀ k < tx.vout.length, view.coins ⟨GetHash tx, UInt32.ofNat k⟩ = none)
    (h : UpdateCoins GetHash tx view ⟨[]⟩ nHeight true = .ok (view', txundo)) :
    ∀ (w : CCoinsViewCache) (fClean : Bool), w.coins = view'.coins →
      ∃ w', DisconnectBlock.tx GetHash nHeight tx none fClean w = .ok (some (fClean, w')) ∧
        w'.coins = view.coins ∧ w'.hashBlock = w.hashBlock := by
  intro w fClean hw
  obtain ⟨view₁, hspend, hadd⟩ := UpdateCoins_eq_ok h
  rw [hcb, Bool.not_true, if_neg Bool.false_ne_true] at hspend
  simp only [Except.ok.injEq, Prod.mk.injEq] at hspend
  obtain ⟨rfl, -⟩ := hspend
  have hfresh : AddCoins.Fresh GetHash tx nHeight view.coins 0 tx.vout :=
    AddCoins.fresh_of_none (by omega) fun k hk => by simpa using hnone k hk
  obtain ⟨w₁, hout, hw₁, hb₁⟩ := DisconnectBlock.outputs_AddCoins hadd hfresh w fClean hw
  exact ⟨w₁, by simp [DisconnectBlock.tx, hout], hw₁, hb₁⟩

end Transaction

/-! ## The block -/

section Block

variable {cp : CChainParams} {codec : BlockCodec} {rules : ConnectRules} {block : CBlock}
  {pindex : BlockPtr} {nLockTimeFlags skipZeroValue : Bool} {tx : CTransaction}
  {s s' : ConnectState} {i : Nat}

/-- The accounts of a transaction leave the view and the undo data as they are. -/
theorem ConnectBlock.txValues_view
    (h : ConnectBlock.txValues cp rules block pindex nLockTimeFlags tx s = .ok s') :
    s'.view = s.view ∧ s'.vtxundo = s.vtxundo := by
  unfold ConnectBlock.txValues at h
  split at h
  · obtain ⟨v, -, h⟩ := Except.bind_eq_ok.1 h
    cases h
    exact ⟨rfl, rfl⟩
  · obtain ⟨txfee, -, h⟩ := Except.bind_eq_ok.1 h
    obtain ⟨v, -, h⟩ := Except.bind_eq_ok.1 h
    dsimp only at h
    simp only [Except.ite_error_eq_ok] at h
    obtain ⟨-, -, h⟩ := h
    cases h
    exact ⟨rfl, rfl⟩

/-- What the rest of a transaction's step does to the view and the undo data: `UpdateCoins`, with
its undo data kept after the coinbase. -/
theorem ConnectBlock.txApply_eq_ok
    (h : ConnectBlock.txApply codec rules pindex skipZeroValue i tx s = .ok s') :
    ∃ txundo, UpdateCoins codec.txHash tx s.view ⟨[]⟩
        ((pindex.head?.map CBlockIndex.nHeight).getD 0) skipZeroValue = .ok (s'.view, txundo) ∧
      s'.vtxundo = if i = 0 then s.vtxundo else s.vtxundo ++ [txundo] := by
  unfold ConnectBlock.txApply at h
  dsimp only at h
  simp only [Except.ite_error_eq_ok] at h
  obtain ⟨-, h⟩ := h
  split at h
  · cases h
  obtain ⟨⟨view, txundo⟩, hupd, h⟩ := Except.bind_eq_ok.1 h
  rw [ConnectError.lift_ok] at hupd
  cases h
  exact ⟨txundo, hupd, rfl⟩

/-- Past the coinbase, the loop of `ConnectBlock` appends one transaction's undo data per
transaction. -/
theorem ConnectBlock.loop_vtxundo {l : List CTransaction} (hi : 0 < i)
    (h : ConnectBlock.loop cp codec rules block pindex nLockTimeFlags skipZeroValue i l s = .ok s') :
    ∃ more, s'.vtxundo = s.vtxundo ++ more ∧ more.length = l.length := by
  induction l generalizing i s with
  | nil =>
    cases h
    exact ⟨[], by simp, rfl⟩
  | cons tx rest ih =>
    obtain ⟨s₁, s₂, h₁, h₂, h⟩ := ConnectBlock.loop_cons_eq_ok h
    obtain ⟨-, hu₁⟩ := ConnectBlock.txValues_view h₁
    obtain ⟨txundo, -, hu₂⟩ := ConnectBlock.txApply_eq_ok h₂
    obtain ⟨more, hmore, hlen⟩ := ih (Nat.succ_pos i) h
    rw [if_neg hi.ne', hu₁] at hu₂
    exact ⟨txundo :: more, by simp [hmore, hu₂], by simp [hlen]⟩

/-- A run of the loop of `DisconnectBlock` that returns is followed by the run of what comes
after it. -/
theorem DisconnectBlock.loop_append {GetHash : CTransaction → uint256} {nHeight : Int}
    {blockUndo : CBlockUndo} {l₁ l₂ : List (CTransaction × Nat)} {fClean fClean' : Bool}
    {view view' : CCoinsViewCache}
    (h : DisconnectBlock.loop GetHash nHeight blockUndo l₁ fClean view = .ok (some (fClean', view'))) :
    DisconnectBlock.loop GetHash nHeight blockUndo (l₁ ++ l₂) fClean view =
      DisconnectBlock.loop GetHash nHeight blockUndo l₂ fClean' view' := by
  induction l₁ generalizing fClean view with
  | nil =>
    simp only [DisconnectBlock.loop, Except.ok.injEq, Option.some.injEq, Prod.mk.injEq] at h
    obtain ⟨rfl, rfl⟩ := h
    rfl
  | cons p rest ih =>
    simp only [DisconnectBlock.loop, List.cons_append] at h ⊢
    obtain ⟨r, htx, h⟩ := Except.bind_eq_ok.1 h
    rw [htx, Except.bind_ok_left]
    split at h
    · cases h
    · exact ih h

/-- **`DisconnectBlock` undoes the transactions after the coinbase**, last first, with the undo
data the loop of `ConnectBlock` recorded, from any view that shows what the loop left: the
transactions from position `i`, whose undo data stands at `i - 1` in the block's undo data. The
induction is on the transactions, from any state of the loop; the view stays restorable. -/
theorem ConnectBlock.loop_disconnect {entry : CBlockIndex} {pprev : BlockPtr}
    {l : List CTransaction}
    (h : ConnectBlock.loop cp codec rules block (entry :: pprev) nLockTimeFlags true i l s = .ok s')
    (hlen : s.vtxundo.length + 1 = i) (hcb : ∀ tx ∈ l, tx.isCoinBase = false)
    (hr : s.view.Restorable) (hh : 0 < entry.nHeight) (blockUndo : CBlockUndo)
    (hU : s'.vtxundo <+: blockUndo.vtxundo) :
    ∀ (w : CCoinsViewCache) (fClean : Bool), w.coins = s'.view.coins →
      ∃ w', DisconnectBlock.loop codec.txHash entry.nHeight blockUndo (l.zipIdx i).reverse fClean w =
          .ok (some (fClean, w')) ∧ w'.coins = s.view.coins ∧ w'.hashBlock = w.hashBlock := by
  induction l generalizing i s with
  | nil =>
    cases h
    exact fun w fClean hw => ⟨w, rfl, hw, rfl⟩
  | cons tx rest ih =>
    intro w fClean hw
    obtain ⟨s₁, s₂, h₁, h₂, h⟩ := ConnectBlock.loop_cons_eq_ok h
    obtain ⟨hv₁, hu₁⟩ := ConnectBlock.txValues_view h₁
    obtain ⟨txundo, hupd, hu₂⟩ := ConnectBlock.txApply_eq_ok h₂
    rw [if_neg (by omega), hu₁] at hu₂
    rw [hv₁] at hupd
    simp only [List.head?_cons, Option.map_some, Option.getD_some] at hupd
    have htx : tx.isCoinBase = false := hcb tx (List.mem_cons_self ..)
    obtain ⟨w₁, hrest, hw₁, hb₁⟩ := ih h (by simp [hu₂, hlen])
      (fun t ht => hcb t (List.mem_cons_of_mem _ ht)) (UpdateCoins_restorable hr hh hupd) w
      fClean hw
    have hundo : blockUndo.vtxundo[i - 1]? = some txundo := by
      obtain ⟨more, hmore, -⟩ := ConnectBlock.loop_vtxundo (Nat.succ_pos i) h
      obtain ⟨t, ht⟩ := hU
      rw [← ht, hmore, hu₂, List.append_assoc, List.append_assoc,
        List.getElem?_append_right (by omega)]
      simp [show i - 1 - s.vtxundo.length = 0 by omega]
    obtain ⟨w₂, htxu, hw₂, hb₂⟩ := DisconnectBlock.tx_UpdateCoins htx hr hupd w₁ fClean hw₁
    refine ⟨w₂, ?_, hw₂, hb₂.trans hb₁⟩
    rw [List.zipIdx_cons, List.reverse_cons, DisconnectBlock.loop_append hrest]
    simp [DisconnectBlock.loop, show i ≠ 0 by omega, hundo, htxu]

/-- What `ConnectBlock` did when it connected a block other than the genesis block (not only
checking it): the block passed `CheckBlock`, the view was at the predecessor, and the view and
undo data it returns are those of its loop over the transactions. -/
theorem ConnectBlock_eq_ok_connected {entry : CBlockIndex} {pprev : BlockPtr}
    {view : CCoinsViewCache} {nMoneySupplyPrev : CAmount} {r : ConnectResult}
    (hgen : codec.GetHash block.header ≠ cp.consensus.hashGenesisBlock)
    (h : ConnectBlock cp codec rules block (entry :: pprev) view false skipZeroValue
      nMoneySupplyPrev = .ok r) :
    ∃ prev pprev' s, pprev = prev :: pprev' ∧ prev.hashBlock = view.hashBlock ∧
      CheckBlock cp codec block true true true = .valid ∧
      ConnectBlock.loop cp codec rules block (entry :: pprev) (IsBTC16BIPsEnabled cp prev.nTime)
        skipZeroValue 0 block.vtx (ConnectState.init view) = .ok s ∧
      r.view = s.view.SetBestBlock entry.hashBlock ∧ r.blockundo = ⟨s.vtxundo⟩ := by
  unfold ConnectBlock at h
  dsimp only at h
  simp only [Except.ite_error_eq_ok] at h
  obtain ⟨-, -, h⟩ := h
  split at h
  · cases h
  rename_i hcheck
  simp only [Except.ite_error_eq_ok] at h
  obtain ⟨hprev, h⟩ := h
  split at h
  · rename_i hg
    exact absurd (by simpa using hg) hgen
  split at h
  · cases h
  rename_i prev pprev'
  simp only [Except.ite_error_eq_ok] at h
  obtain ⟨-, h⟩ := h
  obtain ⟨s, hloop, h⟩ := Except.bind_eq_ok.1 h
  simp only [Except.ite_error_eq_ok] at h
  obtain ⟨-, h⟩ := h
  split at h
  · cases h
  obtain ⟨coinbaseOut, -, h⟩ := Except.bind_eq_ok.1 h
  simp only [Except.ite_error_eq_ok, Bool.false_eq_true, if_false] at h
  obtain ⟨-, h⟩ := h
  cases h
  exact ⟨prev, pprev', s, rfl, by simpa using hprev, hcheck, hloop, rfl, rfl⟩

/-- **Disconnecting a block right after connecting it restores the view.** When `ConnectBlock`
connects a block other than the genesis block, with `skipZeroValue` read as `true`, to a view
whose coins are spendable and above height zero, at a height above zero, and the coinbase's
outpoints hold no coin (what BIP30 asks), `DisconnectBlock`, given the undo data `ConnectBlock`
returned, undoes it cleanly and gives back the view the block was connected to. -/
theorem DisconnectBlock_ConnectBlock {entry : CBlockIndex} {pprev : BlockPtr}
    {view : CCoinsViewCache} {nMoneySupplyPrev : CAmount} {r : ConnectResult}
    (hview : view.Restorable) (hheight : 0 < entry.nHeight)
    (hgen : codec.GetHash block.header ≠ cp.consensus.hashGenesisBlock)
    (hcoinbase : ∀ tx ∈ block.vtx, tx.isCoinBase = true → tx.vout.length ≤ 2 ^ 32 ∧
      ∀ o < tx.vout.length, view.HaveCoin ⟨codec.txHash tx, UInt32.ofNat o⟩ = false)
    (h : ConnectBlock cp codec rules block (entry :: pprev) view false true nMoneySupplyPrev =
      .ok r) :
    DisconnectBlock codec block r.blockundo (entry :: pprev) r.view = .ok (.DISCONNECT_OK, view) := by
  obtain ⟨prev, pprev', s, rfl, hprev, hcheck, hloop, hview', hundo⟩ :=
    ConnectBlock_eq_ok_connected hgen h
  obtain ⟨coinbase, rest, hvtx, hcb, hrest, -⟩ := (CheckBlock.shape_of_valid hcheck).coinbase_first
  rw [hvtx] at hloop
  obtain ⟨s₁, s₂, h₁, h₂, hloop⟩ := ConnectBlock.loop_cons_eq_ok hloop
  obtain ⟨hv₁, hu₁⟩ := ConnectBlock.txValues_view h₁
  obtain ⟨txundo, hupd, hu₂⟩ := ConnectBlock.txApply_eq_ok h₂
  rw [if_pos rfl, hu₁] at hu₂
  rw [hv₁] at hupd
  simp only [ConnectState.init, List.head?_cons, Option.map_some, Option.getD_some] at hupd hu₂
  have hr₂ : s₂.view.Restorable := UpdateCoins_restorable hview hheight hupd
  obtain ⟨w₁, hrun, hw₁, hb₁⟩ := ConnectBlock.loop_disconnect hloop (by simp [hu₂]) hrest hr₂
    hheight ⟨s.vtxundo⟩ List.prefix_rfl r.view true (by rw [hview', CCoinsViewCache.SetBestBlock_coins])
  obtain ⟨hlen, hnone⟩ := hcoinbase coinbase (by simp [hvtx]) hcb
  obtain ⟨w₂, htx, hw₂, hb₂⟩ := DisconnectBlock.tx_UpdateCoins_coinbase hcb hlen
    (fun k hk => CCoinsViewCache.HaveCoin_eq_false.1 (hnone k hk)) hupd w₁ true hw₁
  obtain ⟨more, hmore, hmlen⟩ := ConnectBlock.loop_vtxundo Nat.one_pos hloop
  have hfinal : w₂.SetBestBlock prev.hashBlock = view :=
    CCoinsViewCache.ext hw₂ (by rw [CCoinsViewCache.SetBestBlock_hashBlock, hprev])
  have hulen : s.vtxundo.length = rest.length := by rw [hmore, hu₂, List.nil_append, hmlen]
  rw [Nat.zero_add] at hrun
  rw [hundo, DisconnectBlock, hvtx]
  simp only [hulen, List.length_cons, bne_self_eq_false, Bool.false_eq_true, if_false,
    List.zipIdx_cons, List.reverse_cons, Nat.zero_add]
  rw [DisconnectBlock.loop_append hrun]
  simp [DisconnectBlock.loop, htx, hfinal]

/-- The proof-of-stake block of `ConnectBlock.lean` connects with `skipZeroValue` read as
`true`. -/
theorem stakeBlock_connects : ∃ r, ConnectBlock mainParams stakeCodec passAllRules
    (stakeBlock 1680357192) [stakeEntry, stakePrev] stakeView false true 0 = .ok r := by
  have hrun : (ConnectBlock mainParams stakeCodec passAllRules (stakeBlock 1680357192)
      [stakeEntry, stakePrev] stakeView false true 0).map (fun _ => ()) = .ok () := by
    decide +kernel
  obtain ⟨r, hr, -⟩ := Except.map_eq_ok.1 hrun
  exact ⟨r, hr⟩

theorem stakeBlock_ne_genesis :
    stakeCodec.GetHash (stakeBlock 1680357192).header ≠ mainParams.consensus.hashGenesisBlock := by
  decide +kernel

/-- The staked coin is the one coin of `stakeView`. -/
theorem stakeView_all {P : Coin → Prop} (h : P stakeCoin) : stakeView.All P := by
  intro o c hc
  simp only [stakeView] at hc
  split at hc
  · cases hc
    exact h
  · cases hc

/-- The proof-of-stake block, connected with `skipZeroValue` read as `true` and disconnected
again. -/
theorem DisconnectBlock_ConnectBlock_stakeBlock :
    ∃ r, ConnectBlock mainParams stakeCodec passAllRules (stakeBlock 1680357192)
        [stakeEntry, stakePrev] stakeView false true 0 = .ok r ∧
      DisconnectBlock stakeCodec (stakeBlock 1680357192) r.blockundo [stakeEntry, stakePrev]
        r.view = .ok (.DISCONNECT_OK, stakeView) := by
  obtain ⟨r, hr⟩ := stakeBlock_connects
  have hcoinbase : ∀ tx ∈ (stakeBlock 1680357192).vtx, tx.isCoinBase = true →
      tx.vout.length ≤ 2 ^ 32 ∧ ∀ o < tx.vout.length,
        stakeView.HaveCoin ⟨stakeCodec.txHash tx, UInt32.ofNat o⟩ = false := by
    decide +kernel
  exact ⟨r, hr, DisconnectBlock_ConnectBlock (stakeView_all ⟨by decide, by decide⟩) (by decide)
    stakeBlock_ne_genesis hcoinbase hr⟩

/-! ## What connecting a block keeps -/

/-- The loop of `ConnectBlock` keeps every coin satisfying `P`, when every output of its
transactions that `AddCoin` may store does: in the view, and in each undo data it records, which
holds at most one coin per input of its transaction. The induction is on the transactions, from
any state of the loop. -/
theorem ConnectBlock.loop_all {P : Coin → Prop} {entry : CBlockIndex} {pprev : BlockPtr}
    {l : List CTransaction}
    (h : ConnectBlock.loop cp codec rules block (entry :: pprev) nLockTimeFlags skipZeroValue i l s =
      .ok s')
    (hall : s.view.All P)
    (hP : ∀ tx ∈ l, ∀ out ∈ tx.vout,
      CCoinsViewCache.stores (Coin.ofTx tx out entry.nHeight) skipZeroValue = true →
        P (Coin.ofTx tx out entry.nHeight)) :
    s'.view.All P ∧ ∀ u ∈ s'.vtxundo, u ∈ s.vtxundo ∨
      ((∀ c ∈ u.vprevout, P c) ∧ ∃ tx ∈ l, u.vprevout.length ≤ tx.vin.length) := by
  induction l generalizing i s with
  | nil =>
    cases h
    exact ⟨hall, fun u hu => .inl hu⟩
  | cons tx rest ih =>
    obtain ⟨s₁, s₂, h₁, h₂, h⟩ := ConnectBlock.loop_cons_eq_ok h
    obtain ⟨hv₁, hu₁⟩ := ConnectBlock.txValues_view h₁
    obtain ⟨txundo, hupd, hu₂⟩ := ConnectBlock.txApply_eq_ok h₂
    rw [hv₁] at hupd
    simp only [List.head?_cons, Option.map_some, Option.getD_some] at hupd
    obtain ⟨hall₂, hundo, hlen⟩ :=
      UpdateCoins_all hall (by simp) (hP tx (List.mem_cons_self ..)) hupd
    obtain ⟨hall', hrest⟩ := ih h hall₂ fun t ht => hP t (List.mem_cons_of_mem _ ht)
    refine ⟨hall', fun u hu => ?_⟩
    rcases hrest u hu with hu | ⟨hc, t, ht, hle⟩
    · rw [hu₂, hu₁] at hu
      split at hu
      · exact .inl hu
      · rcases List.mem_append.1 hu with hu | hu
        · exact .inl hu
        · rw [List.mem_singleton.1 hu]
          exact .inr ⟨hundo, tx, List.mem_cons_self .., by simpa using hlen⟩
    · exact .inr ⟨hc, t, List.mem_cons_of_mem _ ht, hle⟩

/-- **What a connected block leaves in the view and the undo data.** When `ConnectBlock`
connects a block other than the genesis block, every coin of the view it returns, and every coin
of the undo data it returns, satisfies any property that every coin of the view before it, and
every output of the block that `AddCoin` may store, satisfy. -/
theorem ConnectBlock_coins_all {P : Coin → Prop} {entry : CBlockIndex} {pprev : BlockPtr}
    {view : CCoinsViewCache} {nMoneySupplyPrev : CAmount} {r : ConnectResult}
    (hgen : codec.GetHash block.header ≠ cp.consensus.hashGenesisBlock)
    (h : ConnectBlock cp codec rules block (entry :: pprev) view false skipZeroValue
      nMoneySupplyPrev = .ok r)
    (hall : view.All P)
    (hP : ∀ tx ∈ block.vtx, ∀ out ∈ tx.vout,
      CCoinsViewCache.stores (Coin.ofTx tx out entry.nHeight) skipZeroValue = true →
        P (Coin.ofTx tx out entry.nHeight)) :
    r.view.All P ∧ ∀ u ∈ r.blockundo.vtxundo, ∀ c ∈ u.vprevout, P c := by
  obtain ⟨prev, pprev', s, rfl, -, -, hloop, hview', hundo⟩ := ConnectBlock_eq_ok_connected hgen h
  obtain ⟨hall', hu⟩ := ConnectBlock.loop_all hloop hall hP
  refine ⟨hall'.of_coins_eq (by rw [hview', CCoinsViewCache.SetBestBlock_coins]), fun u hmem => ?_⟩
  rw [hundo] at hmem
  rcases hu u hmem with hu | ⟨hc, -⟩
  · cases hu
  · exact hc

/-- The proof-of-stake block keeps the view restorable, and its undo data too. -/
theorem ConnectBlock_coins_all_stakeBlock :
    ∃ r, ConnectBlock mainParams stakeCodec passAllRules (stakeBlock 1680357192)
        [stakeEntry, stakePrev] stakeView false true 0 = .ok r ∧
      r.view.All Coin.Restorable ∧ ∀ u ∈ r.blockundo.vtxundo, ∀ c ∈ u.vprevout, c.Restorable := by
  obtain ⟨r, hr⟩ := stakeBlock_connects
  exact ⟨r, hr, ConnectBlock_coins_all stakeBlock_ne_genesis hr
    (stakeView_all ⟨by decide, by decide⟩) fun tx _ =>
      Coin.restorable_ofTx (by decide : (0 : Int) < stakeEntry.nHeight)⟩

/-- The loop of `ConnectBlock` records at most one undo data per transaction. -/
theorem ConnectBlock.loop_vtxundo_length_le {l : List CTransaction}
    (h : ConnectBlock.loop cp codec rules block pindex nLockTimeFlags skipZeroValue i l s = .ok s') :
    s'.vtxundo.length ≤ s.vtxundo.length + l.length := by
  induction l generalizing i s with
  | nil =>
    cases h
    simp
  | cons tx rest ih =>
    obtain ⟨s₁, s₂, h₁, h₂, h⟩ := ConnectBlock.loop_cons_eq_ok h
    obtain ⟨-, hu₁⟩ := ConnectBlock.txValues_view h₁
    obtain ⟨txundo, -, hu₂⟩ := ConnectBlock.txApply_eq_ok h₂
    have hle : s₂.vtxundo.length ≤ s.vtxundo.length + 1 := by
      rw [hu₂, hu₁]
      split <;> simp
    have := ih h
    simp only [List.length_cons]
    omega

/-- A script that is not unspendable is at most `MAX_SCRIPT_SIZE` bytes long. -/
theorem CScript.length_le_of_isUnspendable {script : CScript} (h : script.isUnspendable = false) :
    script.length ≤ MAX_SCRIPT_SIZE := by
  simp only [CScript.isUnspendable, Bool.or_eq_false_iff, decide_eq_false_iff_not, not_lt] at h
  exact h.2

/-- **The undo data a connected block returns can be stored exactly.** When `ConnectBlock`
connects a block other than the genesis block to a view whose coins the undo files store
exactly, at a height in `[0, 2^30)`, and no transaction has more than `MAX_SIZE` inputs, every
coin of the undo data is one the undo files store exactly: the view's coins, and the block's own
outputs, which `CheckTransaction` keeps in the money range and `AddCoin` stores only when
spendable. -/
theorem ConnectBlock_blockundo_storable {entry : CBlockIndex} {pprev : BlockPtr}
    {view : CCoinsViewCache} {nMoneySupplyPrev : CAmount} {r : ConnectResult}
    (hgen : codec.GetHash block.header ≠ cp.consensus.hashGenesisBlock)
    (h : ConnectBlock cp codec rules block (entry :: pprev) view false skipZeroValue
      nMoneySupplyPrev = .ok r)
    (hview : view.All Coin.UndoStorable) (hh0 : 0 ≤ entry.nHeight) (hh : entry.nHeight < 2 ^ 30)
    (hvin : ∀ tx ∈ block.vtx, tx.vin.length ≤ MAX_SIZE) :
    r.blockundo.Storable := by
  obtain ⟨prev, pprev', s, rfl, -, hcheck, hloop, -, hundo⟩ := ConnectBlock_eq_ok_connected hgen h
  have hP : ∀ tx ∈ block.vtx, ∀ out ∈ tx.vout,
      CCoinsViewCache.stores (Coin.ofTx tx out entry.nHeight) skipZeroValue = true →
        (Coin.ofTx tx out entry.nHeight).UndoStorable := by
    intro tx htx out hout hs
    obtain ⟨h0, hmax⟩ :=
      CheckTransaction_nValue ((CheckBlock.shape_of_valid hcheck).checked tx htx) out hout
    exact ⟨⟨h0, hmax, CScript.length_le_of_isUnspendable (CCoinsViewCache.stores_spendable hs)⟩,
      hh0, hh⟩
  obtain ⟨-, hu⟩ := ConnectBlock.loop_all hloop hview hP
  have hlen := ConnectBlock.loop_vtxundo_length_le hloop
  have hvtx := CheckBlock.vtx_length_le hcheck
  rw [hundo]
  refine ⟨?_, fun u hmem => ?_, fun u hmem => ?_⟩
  · simp only [ConnectState.init, List.length_nil, Nat.zero_add] at hlen
    simp only [WITNESS_SCALE_FACTOR, MAX_BLOCK_WEIGHT] at hvtx
    simp only [MAX_SIZE]
    omega
  · obtain ⟨-, tx, htx, hle⟩ := (hu u hmem).resolve_left (by simp [ConnectState.init])
    exact hle.trans (hvin tx htx)
  · exact ((hu u hmem).resolve_left (by simp [ConnectState.init])).1

/-- The undo data of the proof-of-stake block can be stored exactly. -/
theorem ConnectBlock_blockundo_storable_stakeBlock :
    ∃ r, ConnectBlock mainParams stakeCodec passAllRules (stakeBlock 1680357192)
        [stakeEntry, stakePrev] stakeView false true 0 = .ok r ∧ r.blockundo.Storable := by
  obtain ⟨r, hr⟩ := stakeBlock_connects
  have hvin : ∀ tx ∈ (stakeBlock 1680357192).vtx, tx.vin.length ≤ MAX_SIZE := by
    decide +kernel
  exact ⟨r, hr, ConnectBlock_blockundo_storable stakeBlock_ne_genesis hr
    (stakeView_all stakeCoin_undoStorable) (by decide)
    (by decide) hvin⟩

end Block

end NowpConsensus
