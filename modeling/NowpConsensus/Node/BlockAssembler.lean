import NowpConsensus.Validation.CheckBlock
import NowpConsensus.Primitives.Serialize
import NowpConsensus.Lib.Worklist

/-!
# Package selection: `BlockAssembler::addPackageTxs`

`addPackageTxs` (`node/miner.cpp`) fills a block template from the mempool, a package at a
time: it walks `mapTx` in ancestor-fee-rate order and, beside it, the set `mapModifiedTx` of
entries whose ancestors are partly in the block already, takes the better of the two, and, when
the package (the entry with its ancestors not yet in the block) fits and passes
`TestPackageTransactions`, adds the package sorted by ancestor count.

The mempool is given by its entries with the ancestor totals the mempool keeps; `mapTx`'s
`ancestor_score` index is the list of its entries in that order. A `txiter` is an entry's number.
The transaction hash is a function of the transaction. Sets are lists without duplicates.
The `while` loop runs on fuel.

`TestPackageTransactions` is written as the source has it: the fork's timestamp limit sits
inside the `if (!fIncludeWitness && HasWitness())` block after its `return false`, so it is never
evaluated, and no path of the function reads `GetAdjustedTime()` or `nTime`.
-/

namespace NowpConsensus

/-! ## Finality -/

/-- `LOCKTIME_THRESHOLD`: lock times below it are heights, above it times. -/
def LOCKTIME_THRESHOLD : Nat := 500000000

/-- `CTxIn::SEQUENCE_FINAL`. -/
def SEQUENCE_FINAL : UInt32 := 0xffffffff

/-- `IsFinalTx(tx, nBlockHeight, nBlockTime)`. -/
def IsFinalTx (tx : CTransaction) (nBlockHeight nBlockTime : Int) : Bool :=
  if tx.nLockTime = 0 then true
  else if (tx.nLockTime.toNat : Int) <
      (if tx.nLockTime.toNat < LOCKTIME_THRESHOLD then nBlockHeight else nBlockTime) then true
  else tx.vin.all fun txin => txin.nSequence == SEQUENCE_FINAL

/-! ## The mempool -/

/-- `CTxMemPool::txiter`: a mempool entry, by number. -/
abbrev txiter := Nat

/-- `CTxMemPoolEntry`: the transaction with its fee (`GetFee`, and `GetModifiedFee` after
prioritisation), virtual size, weight and signature-operation cost, its parents and children in
the mempool, and the totals over it and its ancestors the mempool keeps. -/
structure CTxMemPoolEntry where
  tx : CTransaction
  nFee : CAmount
  nModifiedFee : CAmount
  nTxSize : Nat
  nTxWeight : Nat
  sigOpCost : Int
  parents : List txiter
  children : List txiter
  nCountWithAncestors : Nat
  nSizeWithAncestors : Nat
  nModFeesWithAncestors : CAmount
  nSigOpCostWithAncestors : Int

/-- `CTxMemPool`: the entries, and `mapTx`'s `ancestor_score` index as the list of its entries
from `begin()` on. -/
structure CTxMemPool where
  mapTx : List txiter
  entry : txiter → CTxMemPoolEntry

namespace CTxMemPool

/-- `CalculateMemPoolAncestors(entry, setAncestors, nNoLimit, ..., false)`: the search from the
entry's cached parents along parents. Without limits it cannot fail, and `addPackageTxs` ignores
its result. The loop finds a new entry each turn, so `mapTx.length + 1` turns are enough
(`ancestors_finished`). -/
def CalculateMemPoolAncestors (mp : CTxMemPool) (it : txiter) : List txiter :=
  (Worklist.run (fun a => (mp.entry a).parents) (mp.mapTx.length + 1)
    (Worklist.start (mp.entry it).parents)).found

/-- `CalculateDescendants(it, setDescendants)` into an empty set: the search from `it` along
children, `it` included. -/
def CalculateDescendants (mp : CTxMemPool) (it : txiter) : List txiter :=
  (Worklist.run (fun a => (mp.entry a).children) (mp.mapTx.length + 1)
    (Worklist.start [it])).found

end CTxMemPool

/-- `CTxMemPoolModifiedEntry`: an entry with its ancestor totals reduced by the ancestors already
in the block. -/
structure CTxMemPoolModifiedEntry where
  iter : txiter
  nSizeWithAncestors : Nat
  nModFeesWithAncestors : CAmount
  nSigOpCostWithAncestors : Int

/-- `CTxMemPoolModifiedEntry(entry)`: the mempool's totals. -/
def CTxMemPoolModifiedEntry.ofIter (mp : CTxMemPool) (it : txiter) : CTxMemPoolModifiedEntry :=
  ⟨it, (mp.entry it).nSizeWithAncestors, (mp.entry it).nModFeesWithAncestors,
    (mp.entry it).nSigOpCostWithAncestors⟩

/-- `update_for_parent_inclusion(it)`: the parent `it` is taken out of the totals. -/
def update_for_parent_inclusion (mp : CTxMemPool) (it : txiter) (e : CTxMemPoolModifiedEntry) :
    CTxMemPoolModifiedEntry :=
  { e with
    nModFeesWithAncestors := e.nModFeesWithAncestors - (mp.entry it).nFee
    nSizeWithAncestors := e.nSizeWithAncestors - (mp.entry it).nTxSize
    nSigOpCostWithAncestors := e.nSigOpCostWithAncestors - (mp.entry it).sigOpCost }

section Compare

variable (GetHash : CTransaction → uint256)

/-- `CompareTxMemPoolEntryByAncestorFee::GetModFeeAndSize`: the fee and size of the lower of
the entry's own fee rate and its package's. The source forms the products in `double`; they
are exact here. -/
def GetModFeeAndSize (mp : CTxMemPool) (a : CTxMemPoolModifiedEntry) : CAmount × Int :=
  let f1 := (mp.entry a.iter).nModifiedFee * a.nSizeWithAncestors
  let f2 := a.nModFeesWithAncestors * (mp.entry a.iter).nTxSize
  if f1 > f2 then (a.nModFeesWithAncestors, a.nSizeWithAncestors)
  else ((mp.entry a.iter).nModifiedFee, (mp.entry a.iter).nTxSize)

/-- `CompareTxMemPoolEntryByAncestorFee`: `a` sorts first when its fee rate is higher, ties
broken by hash. -/
def CompareTxMemPoolEntryByAncestorFee (mp : CTxMemPool) (a b : CTxMemPoolModifiedEntry) :
    Bool :=
  let fa := GetModFeeAndSize mp a
  let fb := GetModFeeAndSize mp b
  let f1 := fa.1 * fb.2
  let f2 := fa.2 * fb.1
  if f1 = f2 then GetHash (mp.entry a.iter).tx < GetHash (mp.entry b.iter).tx else f1 > f2

/-- `CompareTxIterByAncestorCount`: fewer ancestors first, ties broken by hash. -/
def CompareTxIterByAncestorCount (mp : CTxMemPool) (a b : txiter) : Bool :=
  if (mp.entry a).nCountWithAncestors ≠ (mp.entry b).nCountWithAncestors then
    (mp.entry a).nCountWithAncestors < (mp.entry b).nCountWithAncestors
  else GetHash (mp.entry a).tx < GetHash (mp.entry b).tx

/-- `SortForBlock`: `std::sort` by `CompareTxIterByAncestorCount`, a strict weak order, so the
result is the package in that order. -/
def SortForBlock (mp : CTxMemPool) (package : List txiter) : List txiter :=
  package.mergeSort fun a b => !CompareTxIterByAncestorCount GetHash mp b a

/-- One step of the search for the best modified entry: `m` replaces `best` if it sorts before. -/
def bestStep (mp : CTxMemPool) (best : Option CTxMemPoolModifiedEntry)
    (m : CTxMemPoolModifiedEntry) : Option CTxMemPoolModifiedEntry :=
  match best with
  | none => some m
  | some b => if CompareTxMemPoolEntryByAncestorFee GetHash mp m b then some m else some b

/-- `mapModifiedTx.get<ancestor_score>().begin()`: the first entry no other sorts before. -/
def bestModified (mp : CTxMemPool) (mapModifiedTx : List CTxMemPoolModifiedEntry) :
    Option CTxMemPoolModifiedEntry :=
  mapModifiedTx.foldl (bestStep GetHash mp) none

end Compare

/-! ## The assembler -/

/-- The fields of `BlockAssembler` that `addPackageTxs` reads or writes. `vtx` lists the entries
`AddToBlock` appended to the template's block, after the coinbase and coinstake placeholders. -/
structure BlockAssembler where
  fIncludeWitness : Bool
  nBlockMaxWeight : Nat
  nHeight : Int
  m_lock_time_cutoff : Int
  vtx : List txiter
  vTxFees : List CAmount
  vTxSigOpsCost : List Int
  nBlockWeight : Nat
  nBlockTx : Nat
  nBlockSigOpsCost : Int
  nFees : CAmount
  inBlock : List txiter

namespace BlockAssembler

/-- `resetBlock`. -/
def resetBlock (a : BlockAssembler) : BlockAssembler :=
  { a with
    inBlock := []
    nBlockWeight := 4000
    nBlockSigOpsCost := 400
    fIncludeWitness := false
    nBlockTx := 0
    nFees := 0 }

/-- `AddToBlock(iter)`. -/
def AddToBlock (mp : CTxMemPool) (a : BlockAssembler) (iter : txiter) : BlockAssembler :=
  { a with
    vtx := a.vtx ++ [iter]
    vTxFees := a.vTxFees ++ [(mp.entry iter).nFee]
    vTxSigOpsCost := a.vTxSigOpsCost ++ [(mp.entry iter).sigOpCost]
    nBlockWeight := a.nBlockWeight + (mp.entry iter).nTxWeight
    nBlockTx := a.nBlockTx + 1
    nBlockSigOpsCost := a.nBlockSigOpsCost + (mp.entry iter).sigOpCost
    nFees := a.nFees + (mp.entry iter).nFee
    inBlock := a.inBlock.insert iter }

/-- `TestPackage(packageSize, packageSigOpsCost)`: the package fits the weight and the
signature-operation budget. -/
def TestPackage (a : BlockAssembler) (packageSize : Nat) (packageSigOpsCost : Int) : Bool :=
  if a.nBlockWeight + WITNESS_SCALE_FACTOR * packageSize ≥ a.nBlockMaxWeight then false
  else if a.nBlockSigOpsCost + packageSigOpsCost ≥ MAX_BLOCK_SIGOPS_COST then false
  else true

set_option linter.unusedVariables false in
/-- `TestPackageTransactions(package, nTime)`, the loop over the package. `nTime` is read only by
the statement that follows a `return`. -/
def TestPackageTransactions (mp : CTxMemPool) (a : BlockAssembler) (nTime : UInt32) :
    List txiter → Bool
  | [] => true
  | it :: package =>
    if !IsFinalTx (mp.entry it).tx a.nHeight a.m_lock_time_cutoff then false
    else if !a.fIncludeWitness && (mp.entry it).tx.HasWitness then
      -- `return false;`, and after it, unreachable, the fork's timestamp limit
      -- `if (tx.nTime > GetAdjustedTime() || (nTime && tx.nTime > nTime)) return false;`
      false
    else TestPackageTransactions mp a nTime package

/-- `onlyUnconfirmed(testSet)`: the entries not in the block. -/
def onlyUnconfirmed (a : BlockAssembler) (testSet : List txiter) : List txiter :=
  testSet.filter (· ∉ a.inBlock)

/-- `SkipMapTxEntry(it, mapModifiedTx, failedTx)`. -/
def SkipMapTxEntry (a : BlockAssembler) (it : txiter)
    (mapModifiedTx : List CTxMemPoolModifiedEntry) (failedTx : List txiter) : Bool :=
  mapModifiedTx.any (·.iter == it) || it ∈ a.inBlock || it ∈ failedTx

end BlockAssembler

/-- The inner loop of `UpdatePackagesForAdded` at the descendant `desc` of the added `it`: an
entry not added itself gets its totals reduced by `it`, as a new modified entry or in place. The
count is `nDescendantsUpdated`. -/
def updateDescendant (mp : CTxMemPool) (alreadyAdded : List txiter) (it : txiter)
    (acc : List CTxMemPoolModifiedEntry × Nat) (desc : txiter) :
    List CTxMemPoolModifiedEntry × Nat :=
  if desc ∈ alreadyAdded then acc
  else if acc.1.any (·.iter == desc) then
    (acc.1.map fun e => if e.iter = desc then update_for_parent_inclusion mp it e else e,
      acc.2 + 1)
  else
    let modEntry := CTxMemPoolModifiedEntry.ofIter mp desc
    (acc.1 ++ [{ modEntry with
      nSizeWithAncestors := modEntry.nSizeWithAncestors - (mp.entry it).nTxSize
      nModFeesWithAncestors := modEntry.nModFeesWithAncestors - (mp.entry it).nModifiedFee
      nSigOpCostWithAncestors := modEntry.nSigOpCostWithAncestors - (mp.entry it).sigOpCost }],
      acc.2 + 1)

/-- `UpdatePackagesForAdded(alreadyAdded, mapModifiedTx)`: the modified set and the number of
descendants updated. -/
def UpdatePackagesForAdded (mp : CTxMemPool) (alreadyAdded : List txiter)
    (mapModifiedTx : List CTxMemPoolModifiedEntry) : List CTxMemPoolModifiedEntry × Nat :=
  alreadyAdded.foldl (fun acc it =>
    (mp.CalculateDescendants it).foldl (updateDescendant mp alreadyAdded it) acc) (mapModifiedTx, 0)

/-- The loop `for (i < sortedEntries.size()) { AddToBlock(sortedEntries[i]);
mapModifiedTx.erase(sortedEntries[i]); }`. -/
def addSorted (mp : CTxMemPool) (acc : BlockAssembler × List CTxMemPoolModifiedEntry)
    (L : List txiter) : BlockAssembler × List CTxMemPoolModifiedEntry :=
  L.foldl (fun (acc : BlockAssembler × List CTxMemPoolModifiedEntry) it =>
    (acc.1.AddToBlock mp it, acc.2.filter (·.iter != it))) acc

/-! ## The selection loop -/

/-- `MAX_CONSECUTIVE_FAILURES`. -/
def MAX_CONSECUTIVE_FAILURES : Nat := 1000

/-- The state of `addPackageTxs`'s loop: the assembler, the position `mi` in `mapTx` (the entries
from it on), `mapModifiedTx`, `failedTx` and the counters. -/
structure PackageState where
  asm : BlockAssembler
  mi : List txiter
  mapModifiedTx : List CTxMemPoolModifiedEntry
  failedTx : List txiter
  nConsecutiveFailed : Nat
  nPackagesSelected : Nat
  nDescendantsUpdated : Nat

section Loop

variable (GetHash : CTransaction → uint256) (mp : CTxMemPool)

/-- Which transaction to evaluate: the next `mapTx` entry, or the best modified entry when that
sorts before it; with the modified entry, and the `mapTx` position after the choice. `none` is
`modit->iter` on an empty set, which the loop's guard excludes. -/
def selectPackage (s : PackageState) :
    Option (txiter × Option CTxMemPoolModifiedEntry × List txiter) :=
  match s.mi, bestModified GetHash mp s.mapModifiedTx with
  | [], none => none
  | [], some m => some (m.iter, some m, [])
  | it :: rest, some m =>
    if CompareTxMemPoolEntryByAncestorFee GetHash mp m (.ofIter mp it) then
      some (m.iter, some m, it :: rest)
    else some (it, none, rest)
  | it :: rest, none => some (it, none, rest)

/-- A failed package: a modified entry is erased and its transaction recorded as failed. -/
def dropFailed (s : PackageState) (iter : txiter) : Option CTxMemPoolModifiedEntry → PackageState
  | none => s
  | some m =>
    { s with
      mapModifiedTx := s.mapModifiedTx.filter (·.iter != m.iter)
      failedTx := s.failedTx.insert iter }

/-- The package of `iter` added: its entries sorted for the block, each added and erased from
the modified set, then the descendants updated. -/
def addPackage (s : PackageState) (ancestors : List txiter) : PackageState :=
  let added := addSorted mp (s.asm, s.mapModifiedTx) (SortForBlock GetHash mp ancestors)
  let updated := UpdatePackagesForAdded mp ancestors added.2
  { s with
    asm := added.1
    mapModifiedTx := updated.1
    nConsecutiveFailed := 0
    nPackagesSelected := s.nPackagesSelected + 1
    nDescendantsUpdated := s.nDescendantsUpdated + updated.2 }

/-- The evaluation of the chosen `iter`, from `assert(!inBlock.count(iter))` on: the next state
and whether the loop breaks. -/
def considerPackage (nTime : UInt32) (s : PackageState) (iter : txiter)
    (modit : Option CTxMemPoolModifiedEntry) (mi : List txiter) :
    Except Abort (PackageState × Bool) :=
  if iter ∈ s.asm.inBlock then .error .assertion
  else
    let s := { s with mi }
    let packageSize := match modit with
      | some m => m.nSizeWithAncestors
      | none => (mp.entry iter).nSizeWithAncestors
    let packageSigOpsCost := match modit with
      | some m => m.nSigOpCostWithAncestors
      | none => (mp.entry iter).nSigOpCostWithAncestors
    if !s.asm.TestPackage packageSize packageSigOpsCost then
      let s := dropFailed s iter modit
      let s := { s with nConsecutiveFailed := s.nConsecutiveFailed + 1 }
      .ok (s, s.nConsecutiveFailed > MAX_CONSECUTIVE_FAILURES ∧
        s.asm.nBlockWeight > s.asm.nBlockMaxWeight - 4000)
    else
      let ancestors := (s.asm.onlyUnconfirmed (mp.CalculateMemPoolAncestors iter)).insert iter
      if !s.asm.TestPackageTransactions mp nTime ancestors then .ok (dropFailed s iter modit, false)
      else .ok (addPackage GetHash mp s ancestors, false)

/-- One turn of the `while` loop: a `mapTx` entry to skip, or a package to consider. -/
def addPackageTurn (nTime : UInt32) (s : PackageState) : Except Abort (PackageState × Bool) :=
  match s.mi with
  | it :: rest =>
    if s.asm.SkipMapTxEntry it s.mapModifiedTx s.failedTx then .ok ({ s with mi := rest }, false)
    else match selectPackage GetHash mp s with
      | none => .error .nullDeref
      | some (iter, modit, mi) => considerPackage GetHash mp nTime s iter modit mi
  | [] =>
    match selectPackage GetHash mp s with
    | none => .error .nullDeref
    | some (iter, modit, mi) => considerPackage GetHash mp nTime s iter modit mi

/-- The `while (mi != end || !mapModifiedTx.empty())` loop, for at most `fuel` turns. -/
def addPackageTxsLoop (nTime : UInt32) : Nat → PackageState → Except Abort PackageState
  | 0, s => .ok s
  | fuel + 1, s =>
    if s.mi.isEmpty ∧ s.mapModifiedTx.isEmpty then .ok s
    else
      match addPackageTurn GetHash mp nTime s with
      | .error e => .error e
      | .ok (s', brk) => if brk then .ok s' else addPackageTxsLoop nTime fuel s'

/-- `addPackageTxs(nPackagesSelected, nDescendantsUpdated, nTime)`, for at most `fuel` turns of
its loop: the assembler afterwards, with the loop's final state. -/
def addPackageTxs (fuel : Nat) (a : BlockAssembler) (nPackagesSelected nDescendantsUpdated : Nat)
    (nTime : UInt32) : Except Abort PackageState :=
  let mapModifiedTx := (UpdatePackagesForAdded mp a.inBlock []).1
  addPackageTxsLoop GetHash mp nTime fuel
    ⟨a, mp.mapTx, mapModifiedTx, [], 0, nPackagesSelected, nDescendantsUpdated⟩

end Loop

/-! ## Order in a list -/

section Before

variable {α : Type*}

/-- `b` stands before `x` in `l`. -/
def Before (l : List α) (b x : α) : Prop :=
  ∃ j i : Nat, j < i ∧ l[j]? = some b ∧ l[i]? = some x

theorem Before.mem_left {l : List α} {b x : α} (h : Before l b x) : b ∈ l := by
  obtain ⟨j, _, -, hj, -⟩ := h
  exact List.mem_of_getElem? hj

theorem Before.mem_right {l : List α} {b x : α} (h : Before l b x) : x ∈ l := by
  obtain ⟨_, i, -, -, hi⟩ := h
  exact List.mem_of_getElem? hi

theorem Before.append_right {l : List α} {b x : α} (h : Before l b x) (L : List α) :
    Before (l ++ L) b x := by
  obtain ⟨j, i, hji, hj, hi⟩ := h
  have hil : i < l.length := (List.getElem?_eq_some_iff.mp hi).1
  exact ⟨j, i, hji, by rw [List.getElem?_append_left (by omega), hj],
    by rw [List.getElem?_append_left hil, hi]⟩

theorem Before.append_left {L : List α} {b x : α} (h : Before L b x) (l : List α) :
    Before (l ++ L) b x := by
  obtain ⟨j, i, hji, hj, hi⟩ := h
  refine ⟨l.length + j, l.length + i, by omega, ?_, ?_⟩
  · rw [List.getElem?_append_right (by omega), Nat.add_sub_cancel_left, hj]
  · rw [List.getElem?_append_right (by omega), Nat.add_sub_cancel_left, hi]

theorem before_append_of_mem {l L : List α} {b x : α} (hb : b ∈ l) (hx : x ∈ L) :
    Before (l ++ L) b x := by
  obtain ⟨j, hj⟩ := List.getElem?_of_mem hb
  obtain ⟨i, hi⟩ := List.getElem?_of_mem hx
  have hjl : j < l.length := (List.getElem?_eq_some_iff.mp hj).1
  refine ⟨j, l.length + i, by omega, by rw [List.getElem?_append_left hjl, hj], ?_⟩
  rw [List.getElem?_append_right (by omega), Nat.add_sub_cancel_left, hi]

theorem Before.trans {l : List α} (hl : l.Nodup) {a b c : α} (hab : Before l a b)
    (hbc : Before l b c) : Before l a c := by
  obtain ⟨j₁, i₁, h₁, ha, hb⟩ := hab
  obtain ⟨j₂, i₂, h₂, hb', hc⟩ := hbc
  have hlen : i₁ < l.length := (List.getElem?_eq_some_iff.mp hb).1
  have heq : i₁ = j₂ := (List.getElem?_inj hlen hl).mp (hb.trans hb'.symm)
  exact ⟨j₁, i₂, by omega, ha, hc⟩

/-- In a list sorted by `le`, a member that `le` does not put after another stands before it. -/
theorem before_of_pairwise {le : α → α → Bool} {L : List α} (hL : L.Pairwise fun a b => le a b)
    {b x : α} (hb : b ∈ L) (hx : x ∈ L) (hne : b ≠ x) (hle : le x b = false) : Before L b x := by
  obtain ⟨j, hj, rfl⟩ := List.getElem_of_mem hb
  obtain ⟨i, hi, rfl⟩ := List.getElem_of_mem hx
  rcases Nat.lt_trichotomy j i with hji | rfl | hij
  · exact ⟨j, i, hji, List.getElem?_eq_getElem hj, List.getElem?_eq_getElem hi⟩
  · exact absurd rfl hne
  · have := List.pairwise_iff_getElem.mp hL i j hi hj hij
    rw [hle] at this
    exact absurd this (by simp)

end Before

/-! ## The mempool's graph -/

/-- `b` is an ancestor of `x`: a parent, or an ancestor of a parent. -/
def IsAncestor (mp : CTxMemPool) (b x : txiter) : Prop :=
  Relation.TransGen (fun b a => b ∈ (mp.entry a).parents) b x

/-- What a consistent mempool keeps and the selection relies on: the parents and children of
an entry are entries, a child lists its parent, and a parent has fewer ancestors than its child. -/
structure CTxMemPool.Consistent (mp : CTxMemPool) : Prop where
  parents_mem : ∀ it ∈ mp.mapTx, ∀ p ∈ (mp.entry it).parents, p ∈ mp.mapTx
  children_mem : ∀ it ∈ mp.mapTx, ∀ c ∈ (mp.entry it).children, c ∈ mp.mapTx
  parent_of_child : ∀ it ∈ mp.mapTx, ∀ c ∈ (mp.entry it).children, it ∈ (mp.entry c).parents
  count_lt : ∀ it ∈ mp.mapTx, ∀ p ∈ (mp.entry it).parents,
    (mp.entry p).nCountWithAncestors < (mp.entry it).nCountWithAncestors

theorem CTxMemPool.nodup_CalculateMemPoolAncestors (mp : CTxMemPool) (it : txiter) :
    (mp.CalculateMemPoolAncestors it).Nodup := by
  have hinv : Worklist.Inv (fun a => (mp.entry a).parents) (mp.entry it).parents
      (Worklist.run (fun a => (mp.entry a).parents) (mp.mapTx.length + 1)
        (Worklist.start (mp.entry it).parents)) :=
    Worklist.run_inv _ (Worklist.start_inv _)
  exact hinv.nodup_found

/-- The ancestors search is reachability from the parents along parents. -/
theorem CTxMemPool.reach_parents_iff (mp : CTxMemPool) {it b : txiter} :
    Worklist.Reach (fun a => (mp.entry a).parents) (mp.entry it).parents b ↔ IsAncestor mp b it := by
  rw [IsAncestor, Relation.TransGen.tail'_iff]
  constructor
  · rintro ⟨r, hr, hrb⟩
    exact ⟨r, Relation.reflTransGen_swap.mpr hrb, hr⟩
  · rintro ⟨r, hbr, hr⟩
    exact ⟨r, hr, Relation.reflTransGen_swap.mp hbr⟩

namespace CTxMemPool.Consistent

variable {mp : CTxMemPool} (hmp : mp.Consistent)
include hmp

theorem mem_of_isAncestor {b x : txiter} (h : IsAncestor mp b x) (hx : x ∈ mp.mapTx) :
    b ∈ mp.mapTx ∧ (mp.entry b).nCountWithAncestors < (mp.entry x).nCountWithAncestors := by
  induction h using Relation.TransGen.head_induction_on with
  | single hbx => exact ⟨hmp.parents_mem _ hx _ hbx, hmp.count_lt _ hx _ hbx⟩
  | head hbc _ ih =>
    obtain ⟨hc, hlt⟩ := ih
    exact ⟨hmp.parents_mem _ hc _ hbc, (hmp.count_lt _ hc _ hbc).trans hlt⟩

theorem not_isAncestor_self {x : txiter} (hx : x ∈ mp.mapTx) : ¬IsAncestor mp x x :=
  fun h => (hmp.mem_of_isAncestor h hx).2.false

theorem ancestors_finished {it : txiter} (hit : it ∈ mp.mapTx) :
    (Worklist.run (fun a => (mp.entry a).parents) (mp.mapTx.length + 1)
      (Worklist.start (mp.entry it).parents)).stage = [] :=
  Worklist.run_finished (fun _ hb => (hmp.mem_of_isAncestor ((mp.reach_parents_iff).mp hb) hit).1)
    (Nat.lt_succ_self _)

theorem mem_CalculateMemPoolAncestors {it b : txiter} (hit : it ∈ mp.mapTx) :
    b ∈ mp.CalculateMemPoolAncestors it ↔ IsAncestor mp b it := by
  rw [CTxMemPool.CalculateMemPoolAncestors, Worklist.mem_run_iff (hmp.ancestors_finished hit),
    mp.reach_parents_iff]

/-- A descendant is the entry itself or has it as an ancestor. -/
theorem of_mem_CalculateDescendants {it d : txiter} (hit : it ∈ mp.mapTx)
    (hd : d ∈ mp.CalculateDescendants it) :
    d ∈ mp.mapTx ∧ (d = it ∨ IsAncestor mp it d) := by
  have hinv : Worklist.Inv (fun a => (mp.entry a).children) [it]
      (Worklist.run (fun a => (mp.entry a).children) (mp.mapTx.length + 1)
        (Worklist.start [it])) :=
    Worklist.run_inv _ (Worklist.start_inv [it])
  obtain ⟨r, hr, hrd⟩ := hinv.sound d (.inr hd)
  clear hd hinv
  rw [List.mem_singleton] at hr
  subst hr
  induction hrd with
  | refl => exact ⟨hit, .inl rfl⟩
  | tail _ hcd ih =>
    obtain ⟨hc, hrc⟩ := ih
    refine ⟨hmp.children_mem _ hc _ hcd, .inr ?_⟩
    have hpar := hmp.parent_of_child _ hc _ hcd
    rcases hrc with rfl | hrc
    · exact .single hpar
    · exact hrc.tail hpar

end CTxMemPool.Consistent

/-! ## The package and its order -/

theorem TestPackageTransactions_iff (mp : CTxMemPool) (a : BlockAssembler) (nTime : UInt32) :
    ∀ l : List txiter, a.TestPackageTransactions mp nTime l = true ↔
      ∀ it ∈ l, IsFinalTx (mp.entry it).tx a.nHeight a.m_lock_time_cutoff = true ∧
        (a.fIncludeWitness = true ∨ (mp.entry it).tx.HasWitness = false)
  | [] => by simp [BlockAssembler.TestPackageTransactions]
  | it :: l => by
    rw [BlockAssembler.TestPackageTransactions, List.forall_mem_cons,
      ← TestPackageTransactions_iff mp a nTime l]
    cases IsFinalTx (mp.entry it).tx a.nHeight a.m_lock_time_cutoff <;>
      cases a.fIncludeWitness <;> cases (mp.entry it).tx.HasWitness <;> simp

section Sorting

variable (GetHash : CTransaction → uint256) (mp : CTxMemPool)

theorem CompareTxIterByAncestorCount_eq (a b : txiter) :
    CompareTxIterByAncestorCount GetHash mp a b =
      decide ((mp.entry a).nCountWithAncestors < (mp.entry b).nCountWithAncestors ∨
        ((mp.entry a).nCountWithAncestors = (mp.entry b).nCountWithAncestors ∧
          (GetHash (mp.entry a).tx).toNat < (GetHash (mp.entry b).tx).toNat)) := by
  unfold CompareTxIterByAncestorCount
  split_ifs with h
  · simp only [decide_eq_decide]
    omega
  · simp only [decide_eq_decide, BitVec.lt_def]
    omega

theorem SortForBlock_perm (l : List txiter) : (SortForBlock GetHash mp l).Perm l :=
  List.mergeSort_perm _ _

/-- `SortForBlock`'s result is sorted: no entry sorts before one placed ahead of it. -/
theorem pairwise_SortForBlock (l : List txiter) :
    (SortForBlock GetHash mp l).Pairwise fun a b => !CompareTxIterByAncestorCount GetHash mp b a := by
  apply List.pairwise_mergeSort
  · intro a b c hab hbc
    simp only [CompareTxIterByAncestorCount_eq, Bool.not_eq_true', decide_eq_false_iff_not] at *
    omega
  · intro a b
    simp only [CompareTxIterByAncestorCount_eq, Bool.or_eq_true, Bool.not_eq_true',
      decide_eq_false_iff_not]
    omega

/-- In the sorted package a parent stands before its child. -/
theorem before_of_parent (hmp : mp.Consistent) {l : List txiter} {x p : txiter}
    (hx : x ∈ SortForBlock GetHash mp l) (hp : p ∈ SortForBlock GetHash mp l)
    (hxm : x ∈ mp.mapTx) (hpx : p ∈ (mp.entry x).parents) :
    Before (SortForBlock GetHash mp l) p x := by
  have hlt := hmp.count_lt x hxm p hpx
  refine before_of_pairwise (pairwise_SortForBlock GetHash mp l) hp hx (by rintro rfl; omega) ?_
  simp only [CompareTxIterByAncestorCount_eq, Bool.not_eq_false', decide_eq_true_eq]
  exact .inl hlt

end Sorting

section Package

variable {mp : CTxMemPool} (hmp : mp.Consistent) {a : BlockAssembler} {iter : txiter}
include hmp

/-- The package of `iter` is the entry with its ancestors not in the block. -/
theorem mem_package (hit : iter ∈ mp.mapTx) {y : txiter} :
    y ∈ (a.onlyUnconfirmed (mp.CalculateMemPoolAncestors iter)).insert iter ↔
      y = iter ∨ (IsAncestor mp y iter ∧ y ∉ a.inBlock) := by
  simp [List.mem_insert_iff, BlockAssembler.onlyUnconfirmed, List.mem_filter,
    hmp.mem_CalculateMemPoolAncestors hit]

/-- Every parent of a package member is in the package or in the block. -/
theorem package_closed (hit : iter ∈ mp.mapTx) {x p : txiter}
    (hx : x ∈ (a.onlyUnconfirmed (mp.CalculateMemPoolAncestors iter)).insert iter)
    (hp : p ∈ (mp.entry x).parents) :
    p ∈ (a.onlyUnconfirmed (mp.CalculateMemPoolAncestors iter)).insert iter ∨ p ∈ a.inBlock := by
  have hanc : IsAncestor mp p iter := by
    rcases (mem_package hmp hit).mp hx with rfl | ⟨hxi, -⟩
    · exact .single hp
    · exact .head hp hxi
  by_cases hpb : p ∈ a.inBlock
  · exact .inr hpb
  · exact .inl ((mem_package hmp hit).mpr (.inr ⟨hanc, hpb⟩))

end Package

theorem nodup_package (mp : CTxMemPool) (a : BlockAssembler) (iter : txiter) :
    ((a.onlyUnconfirmed (mp.CalculateMemPoolAncestors iter)).insert iter).Nodup :=
  ((mp.nodup_CalculateMemPoolAncestors iter).filter _).insert

/-! ## Adding a package -/

/-- Adding `L` appends it to the block and erases it from the modified set, and leaves the
configuration alone. -/
theorem addSorted_spec (mp : CTxMemPool) :
    ∀ (L : List txiter) (acc : BlockAssembler × List CTxMemPoolModifiedEntry),
      (addSorted mp acc L).1.vtx = acc.1.vtx ++ L ∧
      (∀ x, x ∈ (addSorted mp acc L).1.inBlock ↔ x ∈ acc.1.inBlock ∨ x ∈ L) ∧
      (∀ m, m ∈ (addSorted mp acc L).2 ↔ m ∈ acc.2 ∧ m.iter ∉ L) ∧
      (addSorted mp acc L).1.fIncludeWitness = acc.1.fIncludeWitness ∧
      (addSorted mp acc L).1.nHeight = acc.1.nHeight ∧
      (addSorted mp acc L).1.m_lock_time_cutoff = acc.1.m_lock_time_cutoff
  | [], acc => by simp [addSorted]
  | it :: L, acc => by
    obtain ⟨hvtx, hin, hmod, hw, hh, hc⟩ := addSorted_spec mp L
      (acc.1.AddToBlock mp it, acc.2.filter (·.iter != it))
    simp only [addSorted, List.foldl_cons] at hvtx hin hmod hw hh hc ⊢
    refine ⟨by rw [hvtx]; simp [BlockAssembler.AddToBlock], fun x => ?_, fun m => ?_, hw, hh, hc⟩
    · rw [hin]
      simp only [BlockAssembler.AddToBlock, List.mem_insert_iff, List.mem_cons]
      tauto
    · rw [hmod]
      simp only [List.mem_filter, bne_iff_ne, ne_eq, List.mem_cons, not_or]
      tauto

/-! ## Updating the descendants -/

/-- What an entry of the modified set after `UpdatePackagesForAdded` is: one of the set before,
or a descendant of an added entry that was not added itself. -/
def ModifiedOrigin (mp : CTxMemPool) (added : List txiter) (M : List CTxMemPoolModifiedEntry)
    (m : CTxMemPoolModifiedEntry) : Prop :=
  (∃ m' ∈ M, m'.iter = m.iter) ∨
    (∃ it ∈ added, m.iter ∈ mp.CalculateDescendants it ∧ m.iter ∉ added)

theorem updateDescendant_origin {mp : CTxMemPool} {added : List txiter}
    {M : List CTxMemPoolModifiedEntry} {it desc : txiter} (hit : it ∈ added)
    (hdesc : desc ∈ mp.CalculateDescendants it) {acc : List CTxMemPoolModifiedEntry × Nat}
    (hacc : ∀ m ∈ acc.1, ModifiedOrigin mp added M m) :
    ∀ m ∈ (updateDescendant mp added it acc desc).1, ModifiedOrigin mp added M m := by
  intro m hm
  unfold updateDescendant at hm
  split_ifs at hm with hadded hany
  · exact hacc m hm
  · obtain ⟨e, he, rfl⟩ := List.mem_map.mp hm
    split_ifs
    · exact hacc e he
    · exact hacc e he
  · rcases List.mem_append.mp hm with hm | hm
    · exact hacc m hm
    · rw [List.mem_singleton] at hm
      subst hm
      exact .inr ⟨it, hit, hdesc, hadded⟩

theorem UpdatePackagesForAdded_origin (mp : CTxMemPool) (added : List txiter)
    (M : List CTxMemPoolModifiedEntry) :
    ∀ m ∈ (UpdatePackagesForAdded mp added M).1, ModifiedOrigin mp added M m := by
  have hinner : ∀ it ∈ added, ∀ (ds : List txiter), (∀ d ∈ ds, d ∈ mp.CalculateDescendants it) →
      ∀ acc : List CTxMemPoolModifiedEntry × Nat, (∀ m ∈ acc.1, ModifiedOrigin mp added M m) →
        ∀ m ∈ (ds.foldl (updateDescendant mp added it) acc).1, ModifiedOrigin mp added M m := by
    intro it hit ds
    induction ds with
    | nil => exact fun _ acc hacc => hacc
    | cons d ds ih =>
      intro hds acc hacc
      exact ih (fun d' hd' => hds d' (List.mem_cons_of_mem _ hd')) _
        (updateDescendant_origin hit (hds d List.mem_cons_self) hacc)
  have houter : ∀ (l : List txiter), (∀ it ∈ l, it ∈ added) →
      ∀ acc : List CTxMemPoolModifiedEntry × Nat, (∀ m ∈ acc.1, ModifiedOrigin mp added M m) →
        ∀ m ∈ (l.foldl (fun acc it =>
          (mp.CalculateDescendants it).foldl (updateDescendant mp added it) acc) acc).1,
            ModifiedOrigin mp added M m := by
    intro l
    induction l with
    | nil => exact fun _ acc hacc => hacc
    | cons it l ih =>
      intro hl acc hacc
      exact ih (fun it' h => hl it' (List.mem_cons_of_mem _ h)) _
        (hinner it (hl it List.mem_cons_self) _ (fun _ h => h) acc hacc)
  exact houter added (fun _ h => h) (M, 0) (fun m hm => .inl ⟨m, hm, rfl⟩)

/-! ## What the loop keeps -/

/-- What the selection loop keeps, for an assembler that started as `a₀`: the block holds each
entry once, each final and without a witness unless witnesses are included, each after its
parents; `inBlock` is the set of the block's entries; the loop's entries are the mempool's, and
no modified entry is in the block. -/
structure PackageInv (mp : CTxMemPool) (a₀ : BlockAssembler) (s : PackageState) : Prop where
  fIncludeWitness : s.asm.fIncludeWitness = a₀.fIncludeWitness
  nHeight : s.asm.nHeight = a₀.nHeight
  m_lock_time_cutoff : s.asm.m_lock_time_cutoff = a₀.m_lock_time_cutoff
  vtx_nodup : s.asm.vtx.Nodup
  mem_inBlock : ∀ x, x ∈ s.asm.inBlock ↔ x ∈ s.asm.vtx
  vtx_mem : ∀ x ∈ s.asm.vtx, x ∈ mp.mapTx
  vtx_final : ∀ x ∈ s.asm.vtx, IsFinalTx (mp.entry x).tx a₀.nHeight a₀.m_lock_time_cutoff = true
  vtx_witness : ∀ x ∈ s.asm.vtx, a₀.fIncludeWitness = true ∨ (mp.entry x).tx.HasWitness = false
  parents_before : ∀ x ∈ s.asm.vtx, ∀ p ∈ (mp.entry x).parents, Before s.asm.vtx p x
  mi_mem : ∀ x ∈ s.mi, x ∈ mp.mapTx
  modified_mem : ∀ m ∈ s.mapModifiedTx, m.iter ∈ mp.mapTx
  modified_fresh : ∀ m ∈ s.mapModifiedTx, m.iter ∉ s.asm.inBlock

namespace PackageInv

variable {mp : CTxMemPool} {a₀ : BlockAssembler} {s : PackageState}

/-- Every ancestor of an entry in the block stands before it. -/
theorem before_of_isAncestor (h : PackageInv mp a₀ s) {b x : txiter} (hx : x ∈ s.asm.vtx)
    (hbx : IsAncestor mp b x) : Before s.asm.vtx b x := by
  induction hbx using Relation.TransGen.head_induction_on with
  | single hbx => exact h.parents_before x hx _ hbx
  | head hbc _ ih => exact (h.parents_before _ ih.mem_left _ hbc).trans h.vtx_nodup ih

theorem dropFailed (h : PackageInv mp a₀ s) (iter : txiter)
    (modit : Option CTxMemPoolModifiedEntry) : PackageInv mp a₀ (NowpConsensus.dropFailed s iter modit) := by
  cases modit with
  | none => exact h
  | some m =>
    exact { h with
      modified_mem := fun m' hm' => h.modified_mem m' (List.mem_filter.mp hm').1
      modified_fresh := fun m' hm' => h.modified_fresh m' (List.mem_filter.mp hm').1 }

end PackageInv

/-- Adding the package of a fresh `iter` that passed `TestPackageTransactions` keeps the
invariant. -/
theorem PackageInv.addPackage (GetHash : CTransaction → uint256) {mp : CTxMemPool}
    (hmp : mp.Consistent) {a₀ : BlockAssembler} {s : PackageState} (h : PackageInv mp a₀ s)
    {iter : txiter} (hit : iter ∈ mp.mapTx) (hfresh : iter ∉ s.asm.inBlock) {nTime : UInt32}
    (htest : s.asm.TestPackageTransactions mp nTime
      ((s.asm.onlyUnconfirmed (mp.CalculateMemPoolAncestors iter)).insert iter) = true) :
    PackageInv mp a₀
      (NowpConsensus.addPackage GetHash mp s
        ((s.asm.onlyUnconfirmed (mp.CalculateMemPoolAncestors iter)).insert iter)) := by
  set P := (s.asm.onlyUnconfirmed (mp.CalculateMemPoolAncestors iter)).insert iter with hP
  set L := SortForBlock GetHash mp P
  have hperm : L.Perm P := SortForBlock_perm GetHash mp P
  have hmemP : ∀ y, y ∈ P ↔ y = iter ∨ (IsAncestor mp y iter ∧ y ∉ s.asm.inBlock) :=
    fun y => mem_package hmp hit
  have hPfresh : ∀ y ∈ P, y ∉ s.asm.inBlock := by
    intro y hy
    rcases (hmemP y).mp hy with rfl | ⟨-, hy⟩
    · exact hfresh
    · exact hy
  have hPmem : ∀ y ∈ P, y ∈ mp.mapTx := by
    intro y hy
    rcases (hmemP y).mp hy with rfl | ⟨hy, -⟩
    · exact hit
    · exact (hmp.mem_of_isAncestor hy hit).1
  obtain ⟨hvtx, hin, hmod, hw, hh, hc⟩ := addSorted_spec mp L (s.asm, s.mapModifiedTx)
  have htest' := (TestPackageTransactions_iff mp s.asm nTime P).mp htest
  have horigin := UpdatePackagesForAdded_origin mp P (addSorted mp (s.asm, s.mapModifiedTx) L).2
  simp only at hvtx hin hmod hw hh hc
  refine ⟨?_, ?_, ?_, ?_, ?_, ?_, ?_, ?_, ?_, h.mi_mem, ?_, ?_⟩
  · exact hw.trans h.fIncludeWitness
  · exact hh.trans h.nHeight
  · exact hc.trans h.m_lock_time_cutoff
  · show (addSorted mp (s.asm, s.mapModifiedTx) L).1.vtx.Nodup
    rw [hvtx, List.nodup_append]
    refine ⟨h.vtx_nodup, hperm.nodup_iff.mpr (nodup_package mp s.asm iter), ?_⟩
    intro x hx y hy hxy
    subst hxy
    exact hPfresh x (hperm.mem_iff.mp hy) ((h.mem_inBlock x).mpr hx)
  · intro x
    show x ∈ (addSorted mp (s.asm, s.mapModifiedTx) L).1.inBlock ↔
      x ∈ (addSorted mp (s.asm, s.mapModifiedTx) L).1.vtx
    rw [hin, hvtx, List.mem_append, h.mem_inBlock]
  · intro x hx
    change x ∈ (addSorted mp (s.asm, s.mapModifiedTx) L).1.vtx at hx
    rw [hvtx, List.mem_append] at hx
    rcases hx with hx | hx
    · exact h.vtx_mem x hx
    · exact hPmem x (hperm.mem_iff.mp hx)
  · intro x hx
    change x ∈ (addSorted mp (s.asm, s.mapModifiedTx) L).1.vtx at hx
    rw [hvtx, List.mem_append] at hx
    rcases hx with hx | hx
    · exact h.vtx_final x hx
    · have := (htest' x (hperm.mem_iff.mp hx)).1
      rwa [h.nHeight, h.m_lock_time_cutoff] at this
  · intro x hx
    change x ∈ (addSorted mp (s.asm, s.mapModifiedTx) L).1.vtx at hx
    rw [hvtx, List.mem_append] at hx
    rcases hx with hx | hx
    · exact h.vtx_witness x hx
    · have := (htest' x (hperm.mem_iff.mp hx)).2
      rwa [h.fIncludeWitness] at this
  · intro x hx p hp
    change x ∈ (addSorted mp (s.asm, s.mapModifiedTx) L).1.vtx at hx
    change Before (addSorted mp (s.asm, s.mapModifiedTx) L).1.vtx p x
    rw [hvtx] at hx ⊢
    rcases List.mem_append.mp hx with hx | hx
    · exact (h.parents_before x hx p hp).append_right L
    · rcases package_closed hmp hit (hperm.mem_iff.mp hx) hp with hpP | hpb
      · exact (before_of_parent GetHash mp hmp hx (hperm.mem_iff.mpr hpP)
          (hPmem x (hperm.mem_iff.mp hx)) hp).append_left _
      · exact before_append_of_mem ((h.mem_inBlock p).mp hpb) hx
  · intro m hm
    rcases horigin m hm with ⟨m', hm', heq⟩ | ⟨it, hitP, hd, -⟩
    · rw [← heq]
      exact h.modified_mem m' ((hmod m').mp hm').1
    · exact (hmp.of_mem_CalculateDescendants (hPmem it hitP) hd).1
  · intro m hm
    change m.iter ∉ (addSorted mp (s.asm, s.mapModifiedTx) L).1.inBlock
    rw [hin, not_or]
    rcases horigin m hm with ⟨m', hm', heq⟩ | ⟨it, hitP, hd, hnotP⟩
    · obtain ⟨hm's, hm'L⟩ := (hmod m').mp hm'
      rw [← heq]
      exact ⟨h.modified_fresh m' hm's, hm'L⟩
    · refine ⟨fun hdb => ?_, fun hdL => hnotP (hperm.mem_iff.mp hdL)⟩
      rcases (hmp.of_mem_CalculateDescendants (hPmem it hitP) hd).2 with hdi | hanc
      · exact hnotP (hdi ▸ hitP)
      · have hitv := (h.before_of_isAncestor ((h.mem_inBlock _).mp hdb) hanc).mem_left
        exact hPfresh it hitP ((h.mem_inBlock it).mpr hitv)

/-! ## The turns of the loop -/

section Turns

variable (GetHash : CTransaction → uint256) (mp : CTxMemPool)

variable {GetHash mp} {a₀ : BlockAssembler} {s : PackageState}

variable (hmp : mp.Consistent)
include hmp

end Turns

/-! ## What `addPackageTxs` appends -/

/-- A final transaction without witness stamped `1700000600`. -/
def futureTx : CTransaction :=
  ⟨[⟨⟨1, 0⟩, [], 0xffffffff, []⟩], [⟨1000, [0x51]⟩], 1, 1700000600, 0⟩

/-- A mempool holding `futureTx` alone. -/
def futureMempool : CTxMemPool :=
  ⟨[0], fun _ =>
    { tx := futureTx, nFee := 10000, nModifiedFee := 10000, nTxSize := 100, nTxWeight := 400,
      sigOpCost := 0, parents := [], children := [], nCountWithAncestors := 1,
      nSizeWithAncestors := 100, nModFeesWithAncestors := 10000, nSigOpCostWithAncestors := 0 }⟩

/-- The assembler after `resetBlock` with the default maximum weight, at height 100. -/
def freshAssembler : BlockAssembler :=
  { fIncludeWitness := false, nBlockMaxWeight := MAX_BLOCK_WEIGHT - 4000, nHeight := 100,
    m_lock_time_cutoff := 1699999000, vtx := [], vTxFees := [], vTxSigOpsCost := [],
    nBlockWeight := 4000, nBlockTx := 0, nBlockSigOpsCost := 400, nFees := 0, inBlock := [] }

/-- The loop's first state, from an assembler with nothing in its block. -/
theorem PackageInv.init (mp : CTxMemPool) {a : BlockAssembler} (hin : a.inBlock = [])
    (hvtx : a.vtx = []) (nPackagesSelected nDescendantsUpdated : Nat) :
    PackageInv mp a ⟨a, mp.mapTx, (UpdatePackagesForAdded mp a.inBlock []).1, [], 0,
      nPackagesSelected, nDescendantsUpdated⟩ := by
  have hmod : (UpdatePackagesForAdded mp [] []).1 = [] := rfl
  refine ⟨rfl, rfl, rfl, ?_, ?_, ?_, ?_, ?_, ?_, fun _ h => h, ?_, ?_⟩ <;>
    simp [hvtx, hin, hmod]

/-- With `nTime = 1700000000`, the adjusted time `CreateNewBlock` passes, `addPackageTxs` runs
to the end of its loop and appends `futureTx`, stamped ten minutes later. -/
theorem addPackageTxs_appends_future_tx :
    (addPackageTxs (fun _ => 0) futureMempool 2 freshAssembler 0 0 1700000000).toOption.map
        (fun s => (s.asm.vtx.map fun it => (futureMempool.entry it).tx.nTime, s.mi,
          s.mapModifiedTx.length)) = some ([1700000600], [], 0) ∧
      (1700000000 : UInt32) < 1700000600 := by
  decide +kernel

end NowpConsensus
