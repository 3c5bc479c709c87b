import NowpConsensus.Primitives.Serialize
import NowpConsensus.Lib.Map

/-!
# The transaction index and its cache

`TxIndex` (`index/txindex.cpp`) records, for each transaction of each block the chain connects
(genesis apart), where the transaction is in the block files: the block's position, and the
offset of the transaction after the block's header (`CDiskTxPos`). The fork adds to it a map
`cachedTxs` from a transaction hash to a block header and a transaction. `GetCoinAge` and
`CreateCoinStake` fill it with what they read from the files (`TxIndex.fill`), and
`CheckProofOfStake` reads it; no code erases or refreshes an entry.

The cache is transparent when every cached pair is what reading the files at the position the
index now gives would return (`TxIndex.Coherent`). The index never forgets a position, but a
block connected later can move a transaction to another block (`WriteBlock` overwrites the
position), and the cached header is then the old block's.

* `TxIndex.ReadTxFromDisk_of_mem_positions`: reading a position `WriteBlock` writes gives back
  the block's header and the transaction;
* `TxIndex.WriteBlock_db`: after `WriteBlock`, a hash reads its old position or the position of a
  transaction of the block with that hash;
* `TxIndex.Coherent.lookup_eq`: on a coherent cache, a cached read is a read of the files;
* `TxIndex.Coherent.of_fills`, `Coherent.of_files`: filling the cache from the files and writing
  new block files keep it coherent;
* `TxIndex.not_coherent_of_moved`: a block that moves a cached transaction into a block of another
  header leaves it incoherent.
-/

namespace NowpConsensus

/-- `FlatFilePos`: a position in the block files. -/
structure FlatFilePos where
  nFile : Int
  nPos : Nat
  deriving DecidableEq, Repr

/-- `CDiskTxPos`: the position of a block, and the offset of a transaction after its header. -/
structure CDiskTxPos extends FlatFilePos where
  nTxOffset : Nat
  deriving DecidableEq, Repr

/-- The block files: the block stored at each position, if any. -/
abbrev BlockFiles := FlatFilePos → Option CBlock

/-- `CTransaction::GetHash` with the hash function `Hash`: the hash of the serialisation
without witnesses. -/
def CTransaction.GetHash (Hash : List UInt8 → uint256) (tx : CTransaction) : uint256 :=
  Hash (SerializeTransaction tx false)

@[simp]
theorem CTransaction.GetHash_dropHiddenTime (Hash : List UInt8 → uint256) (tx : CTransaction) :
    tx.dropHiddenTime.GetHash Hash = tx.GetHash Hash := by
  simp only [CTransaction.GetHash, SerializeTransaction_dropHiddenTime]

theorem SerializeTransaction_length_pos (tx : CTransaction) (fAllowWitness : Bool) :
    0 < (SerializeTransaction tx fAllowWitness).length := by
  simp [SerializeTransaction, ser_int32]

/-- `TxIndex`: the index database `m_db` and the fork's `cachedTxs`. -/
structure TxIndex where
  /-- `m_db`: the position of each indexed transaction, by hash. -/
  db : uint256 → Option CDiskTxPos
  /-- `cachedTxs`: a block header and a transaction, by the transaction's hash. -/
  cachedTxs : uint256 → Option (CBlockHeader × CTransaction)

namespace TxIndex

/-- The positions `WriteBlock` gives transactions from `pos` on: each transaction at `pos`, after
which the offset grows by its serialised size (`GetSerializeSize(*tx, CLIENT_VERSION)`, with
witnesses). -/
def positions (pos : CDiskTxPos) : List CTransaction → List (CTransaction × CDiskTxPos)
  | [] => []
  | tx :: rest => (tx, pos) ::
      positions { pos with nTxOffset := pos.nTxOffset + (SerializeTransaction tx true).length } rest

/-- The position of a block's first transaction: after the header, past the transaction count. -/
def firstTxPos (blockPos : FlatFilePos) (block : CBlock) : CDiskTxPos :=
  ⟨blockPos, (Bytes.compactSize block.vtx.length).length⟩

/-- `TxIndex::WriteBlock(block, pindex)`, for a block of height `nHeight` stored at `blockPos`
(`pindex->GetBlockPos()`): one batch that writes each transaction's position under its hash. -/
def WriteBlock (GetHash : CTransaction → uint256) (index : TxIndex) (block : CBlock)
    (nHeight : Int) (blockPos : FlatFilePos) : TxIndex :=
  if nHeight = 0 then index
  else
    { index with
      db := FunMap.writeAll index.db
        ((positions (firstTxPos blockPos block) block.vtx).map fun p => (GetHash p.1, some p.2)) }

/-- `TxIndex::FindTxPosition(txid, pos)`. -/
def FindTxPosition (index : TxIndex) (txid : uint256) : Option CDiskTxPos := index.db txid

/-- A transaction read back from its position: `file >> header`,
`fseek(file, postx.nTxOffset, SEEK_CUR)`, `file >> tx`. A `SER_DISK` stream carries neither the
header's `nFlags` nor the hidden timestamp of a transaction. A position with no block, or an
offset where no transaction of the block starts, reads nothing: the source throws there, or
reads bytes that are no transaction of that hash, and the callers fail in both cases. -/
def ReadTxFromDisk (files : BlockFiles) (postx : CDiskTxPos) :
    Option (CBlockHeader × CTransaction) :=
  match files postx.toFlatFilePos with
  | none => none
  | some block =>
    ((positions (firstTxPos postx.toFlatFilePos block) block.vtx).find?
      (·.2.nTxOffset == postx.nTxOffset)).map fun p =>
        ({ block.header with nFlags := 0 }, p.1.dropHiddenTime)

/-- The pair the cache holds for `txid`, else the one read at `postx`: how `CheckProofOfStake`
reads the transaction whose position it has found. -/
def lookup (files : BlockFiles) (index : TxIndex) (txid : uint256) (postx : CDiskTxPos) :
    Option (CBlockHeader × CTransaction) :=
  match index.cachedTxs txid with
  | some e => some e
  | none => ReadTxFromDisk files postx

/-- A cache miss filled from the files, as `GetCoinAge` and `CreateCoinStake` fill it: the pair
read at `postx`, then `cachedTxs[txid] = std::pair(header, tx)`. -/
def fill (files : BlockFiles) (index : TxIndex) (txid : uint256) (postx : CDiskTxPos) :
    Option ((CBlockHeader × CTransaction) × TxIndex) :=
  (ReadTxFromDisk files postx).map fun e =>
    (e, { index with cachedTxs := Function.update index.cachedTxs txid (some e) })

/-- The pair the cache holds for `txid`, else the pair read at `postx`, which is then cached: how
`CreateCoinStake` reads the transaction of a coin whose position it has found. -/
def readCached (files : BlockFiles) (index : TxIndex) (txid : uint256) (postx : CDiskTxPos) :
    Option ((CBlockHeader × CTransaction) × TxIndex) :=
  match index.cachedTxs txid with
  | some e => some (e, index)
  | none => fill files index txid postx

/-- The cache agrees with the index and the files: each cached pair is what reading the files at
the transaction's current position gives. -/
def Coherent (files : BlockFiles) (index : TxIndex) : Prop :=
  ∀ txid e, index.cachedTxs txid = some e →
    ∃ postx, index.db txid = some postx ∧ ReadTxFromDisk files postx = some e

/-! ## Positions and reads -/

section Positions

variable {pos : CDiskTxPos} {l : List CTransaction} {p : CTransaction × CDiskTxPos}

@[simp]
theorem positions_map_fst (pos : CDiskTxPos) (l : List CTransaction) :
    (positions pos l).map Prod.fst = l := by
  induction l generalizing pos with
  | nil => rfl
  | cons tx rest ih => simp [positions, ih]

theorem positions_blockPos (hp : p ∈ positions pos l) : p.2.toFlatFilePos = pos.toFlatFilePos := by
  induction l generalizing pos with
  | nil => simp [positions] at hp
  | cons tx rest ih =>
    rcases List.mem_cons.1 hp with rfl | hp
    · rfl
    · exact (ih hp).trans rfl

theorem le_positions_offset (hp : p ∈ positions pos l) : pos.nTxOffset ≤ p.2.nTxOffset := by
  induction l generalizing pos with
  | nil => simp [positions] at hp
  | cons tx rest ih =>
    rcases List.mem_cons.1 hp with rfl | hp
    · exact le_refl _
    · exact Nat.le_of_lt (Nat.lt_of_lt_of_le
        (Nat.lt_add_of_pos_right (SerializeTransaction_length_pos tx true)) (ih hp))

/-- Offsets grow strictly, so the offset of a written position finds exactly that position. -/
theorem find?_positions (hp : p ∈ positions pos l) :
    (positions pos l).find? (·.2.nTxOffset == p.2.nTxOffset) = some p := by
  induction l generalizing pos with
  | nil => simp [positions] at hp
  | cons tx rest ih =>
    rcases List.mem_cons.1 hp with rfl | hp
    · simp [positions]
    · have hlt : pos.nTxOffset < p.2.nTxOffset := Nat.lt_of_lt_of_le
        (Nat.lt_add_of_pos_right (SerializeTransaction_length_pos tx true)) (le_positions_offset hp)
      rw [positions, List.find?_cons_of_neg (by simpa using hlt.ne), ih hp]

end Positions

variable {files : BlockFiles} {index : TxIndex} {GetHash : CTransaction → uint256}
  {block : CBlock} {nHeight : Int} {blockPos : FlatFilePos} {txid : uint256}
  {postx : CDiskTxPos} {e : CBlockHeader × CTransaction}

/-- **Reading back a written position**: the block's header and the transaction there. -/
theorem ReadTxFromDisk_of_mem_positions {tx : CTransaction} (hfile : files blockPos = some block)
    (hp : (tx, postx) ∈ positions (firstTxPos blockPos block) block.vtx) :
    ReadTxFromDisk files postx = some ({ block.header with nFlags := 0 }, tx.dropHiddenTime) := by
  have hpos : postx.toFlatFilePos = blockPos := positions_blockPos hp
  simp only [ReadTxFromDisk, hpos, hfile, find?_positions hp, Option.map_some]

@[simp]
theorem WriteBlock_cachedTxs : (WriteBlock GetHash index block nHeight blockPos).cachedTxs =
    index.cachedTxs := by
  unfold WriteBlock
  split <;> rfl

/-- **What `WriteBlock` leaves at a hash**: its old position, or the position of a transaction of
the block with that hash. -/
theorem WriteBlock_db :
    (WriteBlock GetHash index block nHeight blockPos).db txid = index.db txid ∨
      ∃ tx postx, (tx, postx) ∈ positions (firstTxPos blockPos block) block.vtx ∧
        GetHash tx = txid ∧ (WriteBlock GetHash index block nHeight blockPos).db txid = some postx := by
  unfold WriteBlock
  split
  · exact Or.inl rfl
  · rcases FunMap.writeAll_eq_or_mem index.db
      ((positions (firstTxPos blockPos block) block.vtx).map fun p => (GetHash p.1, some p.2))
      txid with h | h
    · exact Or.inl h
    · obtain ⟨⟨tx, postx⟩, hmem, heq⟩ := List.mem_map.1 h
      simp only [Prod.mk.injEq] at heq
      exact Or.inr ⟨tx, postx, hmem, heq.1, heq.2.symm⟩

/-- A block whose transactions have distinct hashes writes each transaction's own position. -/
theorem WriteBlock_db_of_mem {tx : CTransaction} (hn : nHeight ≠ 0)
    (hnd : (block.vtx.map GetHash).Nodup)
    (hp : (tx, postx) ∈ positions (firstTxPos blockPos block) block.vtx) :
    (WriteBlock GetHash index block nHeight blockPos).db (GetHash tx) = some postx := by
  have hkeys : (((positions (firstTxPos blockPos block) block.vtx).map
      fun p => (GetHash p.1, some p.2)).map Prod.fst) = block.vtx.map GetHash := by
    rw [List.map_map]
    conv_rhs => rw [← positions_map_fst (firstTxPos blockPos block) block.vtx, List.map_map]
    rfl
  simp only [WriteBlock, hn, if_false]
  exact FunMap.writeAll_of_mem (hkeys ▸ hnd) (List.mem_map.2 ⟨(tx, postx), hp, rfl⟩)

/-! ## Coherence -/

/-- An empty cache is coherent. -/
theorem coherent_of_cachedTxs_eq (h : ∀ txid, index.cachedTxs txid = none) :
    Coherent files index := by
  intro txid e he
  simp [h txid] at he

/-- **On a coherent cache, a cached read is a read of the files.** -/
theorem Coherent.lookup_eq (hc : Coherent files index) (hpos : index.FindTxPosition txid = some postx) :
    lookup files index txid postx = ReadTxFromDisk files postx := by
  unfold lookup
  split
  · rename_i e he
    obtain ⟨postx', hpos', hread⟩ := hc txid e he
    have : postx' = postx := Option.some_injective _ (hpos'.symm.trans hpos)
    rw [← this, hread]
  · rfl

/-- Blocks the files keep read the same. -/
theorem ReadTxFromDisk_mono {files' : BlockFiles}
    (hfiles : ∀ pos b, files pos = some b → files' pos = some b) {e : CBlockHeader × CTransaction}
    (h : ReadTxFromDisk files postx = some e) : ReadTxFromDisk files' postx = some e := by
  unfold ReadTxFromDisk at h ⊢
  split at h
  · cases h
  · rename_i block hblock
    rw [hfiles _ _ hblock]
    exact h

/-- Writing new blocks to the files keeps the cache coherent. -/
theorem Coherent.of_files {files' : BlockFiles} (hc : Coherent files index)
    (hfiles : ∀ pos b, files pos = some b → files' pos = some b) : Coherent files' index := by
  intro txid e he
  obtain ⟨postx, hpos, hread⟩ := hc txid e he
  exact ⟨postx, hpos, ReadTxFromDisk_mono hfiles hread⟩

/-- `Fills files index index'`: `index'` is `index` with more entries cached, each read from the
files at the position the index gives. -/
def Fills (files : BlockFiles) (index index' : TxIndex) : Prop :=
  index'.db = index.db ∧ ∀ txid e, index'.cachedTxs txid = some e →
    index.cachedTxs txid = some e ∨
      ∃ postx, index.db txid = some postx ∧ ReadTxFromDisk files postx = some e

theorem Fills.refl (files : BlockFiles) (index : TxIndex) : Fills files index index :=
  ⟨rfl, fun _ _ h => Or.inl h⟩

theorem Fills.trans {index' index'' : TxIndex} (h₁ : Fills files index index')
    (h₂ : Fills files index' index'') : Fills files index index'' := by
  refine ⟨h₂.1.trans h₁.1, fun txid e he => ?_⟩
  rcases h₂.2 txid e he with he' | ⟨postx, hpos, hread⟩
  · exact h₁.2 txid e he'
  · exact Or.inr ⟨postx, h₁.1 ▸ hpos, hread⟩

/-- Filling a miss from the position the index gives is a fill. -/
theorem fill_fills {index' : TxIndex} (hpos : index.FindTxPosition txid = some postx)
    (h : fill files index txid postx = some (e, index')) : Fills files index index' := by
  obtain ⟨e', hread, heq⟩ := Option.map_eq_some_iff.1 h
  simp only [Prod.mk.injEq] at heq
  obtain ⟨rfl, rfl⟩ := heq
  refine ⟨rfl, fun t e'' he'' => ?_⟩
  dsimp only at he''
  by_cases ht : t = txid
  · subst ht
    simp only [Function.update_self, Option.some.injEq] at he''
    exact Or.inr ⟨postx, hpos, he'' ▸ hread⟩
  · rw [Function.update_of_ne ht] at he''
    exact Or.inl he''

/-- A coherent cache stays coherent under fills. -/
theorem Coherent.of_fills {index' : TxIndex} (hc : Coherent files index)
    (h : Fills files index index') : Coherent files index' := by
  intro txid e he
  rw [h.1]
  rcases h.2 txid e he with he' | hread
  · exact hc txid e he'
  · exact hread

/-- Caching the pair read at the index's position keeps the cache coherent. -/
theorem Coherent.cache (hc : Coherent files index) (hpos : index.FindTxPosition txid = some postx)
    (hread : ReadTxFromDisk files postx = some e) :
    Coherent files { index with cachedTxs := Function.update index.cachedTxs txid (some e) } :=
  hc.of_fills (@fill_fills files index txid postx e _ hpos (by simp [fill, hread]))

/-- **A block that moves a cached transaction into a block of another header leaves the cache
incoherent**: the cached header is the old block's, the position read is the new block's. -/
theorem not_coherent_of_moved {tx : CTransaction} (hfile : files blockPos = some block)
    (hn : nHeight ≠ 0) (hnd : (block.vtx.map GetHash).Nodup)
    (hp : (tx, postx) ∈ positions (firstTxPos blockPos block) block.vtx)
    (hcached : index.cachedTxs (GetHash tx) = some e) (hheader : e.1 ≠ { block.header with nFlags := 0 }) :
    ¬ Coherent files (WriteBlock GetHash index block nHeight blockPos) := by
  intro hc
  obtain ⟨postx', hpos', hread'⟩ :=
    hc (GetHash tx) e (by rw [WriteBlock_cachedTxs]; exact hcached)
  rw [WriteBlock_db_of_mem hn hnd hp, Option.some.injEq] at hpos'
  rw [← hpos', ReadTxFromDisk_of_mem_positions hfile hp, Option.some.injEq] at hread'
  exact hheader (congrArg Prod.fst hread').symm

end TxIndex

end NowpConsensus
