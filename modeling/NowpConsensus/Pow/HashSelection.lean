import NowpConsensus.Lib.Abort
import NowpConsensus.Primitives.Serialize

/-!
# The GhostRider algorithm selection

`HashGR` of `hash.h` chains eighteen rounds: fifteen of the sixteen core hash functions of
`coreHash` and three of the six CryptoNight variants of `cnHash`, in an order drawn from the
previous block's hash. `HashSelection::getRandomIndexes` (`hash_selection.cpp`) draws that
order: it reads the 64 nibbles of the hash from the top down, reduces each modulo the number of
slots, takes the slot it names unless it is marked `-1`, stops once every slot is taken, and
appends the slots still untaken in order when the nibbles run out.

The hash functions themselves are given: `sph k` is the `k`-th core function of the `switch` of
`coreHash`, `cryptonight k` the `k`-th variant of `cnHash`.

* `getRandomIndexes_perm`: on any non-empty vector of non-negative indexes, and for every
  hash, the drawn order is a permutation of the vector (the draw loop keeps "drawn indexes and
  untaken slots are the vector again", `DrawState.Inv`);
* `HashGR.hashSelection_perm`: so `HashGR`'s selection is a permutation of the fifteen core
  indexes and of the six variants;
* `HashGR.selection_eq`, `HashGR.roundPlan_writes_one`: round `i` selects
  `coreHashIndexes[i - i / 6]`, or `randomCNs[i / 6]` at the rounds `i % 6 = 5`, and exactly one
  of `coreHash` and `cnHash` writes its digest;
* `HashGR_eq_chain`: `HashGR` is the chain of the scheduled functions (`GRAlgo.chain`), the
  fifteen core functions in the drawn order, in three groups of five each followed by one
  variant; `HashGR_selection_permutes` gathers the selection's properties.
-/

namespace NowpConsensus

open Bytes

/-- `uint256::GetNibble`: the half byte at position `index` counted from the blob's last half
byte; the high half of `m_data[index' / 2]` at odd `index' = 63 - index`, the low half at even
ones. -/
def uint256.GetNibble (h : uint256) (index : Nat) : Nat :=
  let index := 63 - index
  let b := (ser_uint256 h).getD (index / 2) 0
  if index % 2 = 1 then (b >>> 4).toNat else (b &&& 0x0F).toNat

/-- The variables of `getRandomIndexes`'s draw loop: the slots, `-1` where one was taken; the
indexes drawn so far, in order; their count. -/
structure DrawState where
  indexes : List Int
  groupIndexes : List Int
  indexCount : Nat
  deriving DecidableEq, Repr

/-- The slot a nibble names: reduced modulo the number of slots when it is past the last. With no
slot the source divides by zero; the model's `% 0` leaves the nibble, whose read past the end of
the empty vector then stops the run. -/
def reduceSelection (hashSelection totalIndexes : Nat) : Nat :=
  if hashSelection ≥ totalIndexes then hashSelection % totalIndexes else hashSelection

/-- The body of the draw loop at the slot `hashSelection`, which holds `index`: a slot not yet
taken is drawn and marked. -/
def DrawState.draw (s : DrawState) (hashSelection : Nat) (index : Int) : DrawState :=
  if index ≥ 0 then
    { indexes := s.indexes.set hashSelection (-1), groupIndexes := s.groupIndexes ++ [index],
      indexCount := s.indexCount + 1 }
  else s

/-- The draw loop of `getRandomIndexes`, run on the nibbles `i - 1` down to `0` (the source's
`for (i = 63; i >= 0; i--)` is `loop 64`). It returns the variables and the loop index at exit:
the nibble of the `break`, or `-1` when the nibbles ran out. -/
def getRandomIndexes.loop (PrevBlockHash : uint256) (totalIndexes : Nat) :
    Nat → DrawState → Except Abort (DrawState × Int)
  | 0, s => .ok (s, -1)
  | i + 1, s => do
    let hashSelection := reduceSelection (uint256.GetNibble PrevBlockHash i) totalIndexes
    let index ← Abort.vectorGet s.indexes hashSelection
    let s := s.draw hashSelection index
    if s.indexCount = s.indexes.length then .ok (s, i)
    else getRandomIndexes.loop PrevBlockHash totalIndexes i s

/-- `HashSelection::getRandomIndexes`: the drawn indexes, followed, when the nibbles ran out
before every slot was taken, by the untaken ones in order. -/
def getRandomIndexes (PrevBlockHash : uint256) (indexes : List Int) : Except Abort (List Int) := do
  let totalIndexes := indexes.length
  let (s, i) ← getRandomIndexes.loop PrevBlockHash totalIndexes 64 ⟨indexes, [], 0⟩
  if i < 0 ∧ s.indexCount < totalIndexes then
    pure (s.groupIndexes ++ s.indexes.filter fun index => index ≥ 0)
  else pure s.groupIndexes

/-! ## The drawn order is a permutation -/

/-- Marking a slot whose entry passes `p` with a value that fails it moves the entry out of the
filtered list. -/
theorem filter_perm_set {α : Type} {p : α → Bool} {l : List α} {j : Nat} (hj : j < l.length)
    {y : α} (hpj : p l[j] = true) (hy : p y = false) :
    (l.filter p).Perm (l[j] :: (l.set j y).filter p) := by
  have hl : l = l.take j ++ l[j] :: l.drop (j + 1) := by
    rw [List.getElem_cons_drop, List.take_append_drop]
  rw [List.set_eq_take_append_cons_drop, if_pos hj]
  conv_lhs => rw [hl]
  simp only [List.filter_append, List.filter_cons, hpj, hy, if_true, Bool.false_eq_true, if_false]
  exact List.perm_middle

/-- The invariant of the draw loop, over the vector `v` it started from: the slots keep their
number, the count is that of the drawn indexes, and the drawn indexes with the untaken slots are
`v` again. -/
structure DrawState.Inv (v : List Int) (s : DrawState) : Prop where
  length_eq : s.indexes.length = v.length
  count_eq : s.indexCount = s.groupIndexes.length
  perm : (s.groupIndexes ++ s.indexes.filter fun index => index ≥ 0).Perm v

namespace DrawState.Inv

variable {v : List Int} {s : DrawState}

theorem init (hv : ∀ x ∈ v, 0 ≤ x) : Inv v ⟨v, [], 0⟩ where
  length_eq := rfl
  count_eq := rfl
  perm := by
    rw [List.nil_append, List.filter_eq_self.2 (by simpa using hv)]

/-- Drawing the slot `j` keeps the invariant. -/
theorem draw (hs : Inv v s) {j : Nat} (hj : j < s.indexes.length) :
    Inv v (s.draw j s.indexes[j]) := by
  unfold DrawState.draw
  split_ifs with hx
  · refine ⟨by simp [hs.length_eq], by simp [hs.count_eq], ?_⟩
    have hmark := filter_perm_set (p := fun index : Int => decide (index ≥ 0)) hj
      (y := -1) (by simpa using hx) (by decide)
    refine List.Perm.trans ?_ hs.perm
    rw [List.append_assoc, List.singleton_append]
    exact (List.Perm.append_left _ hmark).symm
  · exact hs

/-- The count never passes the number of slots. -/
theorem count_le (hs : Inv v s) : s.indexCount ≤ v.length := by
  have := hs.perm.length_eq
  rw [List.length_append, ← hs.count_eq] at this
  omega

/-- Once every slot is drawn, no slot is left untaken. -/
theorem filter_eq_nil (hs : Inv v s) (hc : s.indexCount = v.length) :
    (s.indexes.filter fun index => index ≥ 0) = [] := by
  have := hs.perm.length_eq
  rw [List.length_append, ← hs.count_eq, hc] at this
  exact List.eq_nil_of_length_eq_zero (by omega)

end DrawState.Inv

theorem reduceSelection_lt {hashSelection totalIndexes : Nat} (h : 0 < totalIndexes) :
    reduceSelection hashSelection totalIndexes < totalIndexes := by
  unfold reduceSelection
  split_ifs with hge
  · exact Nat.mod_lt _ h
  · omega

/-- **The draw loop runs to its end and keeps the invariant**, on any non-empty vector and any
nibbles: it stops at a nibble `i ≥ 0` only once every slot is drawn. -/
theorem getRandomIndexes.loop_spec (PrevBlockHash : uint256) {v : List Int} (hv : 0 < v.length) :
    ∀ (n : Nat) (s : DrawState), s.Inv v → ∃ s' i,
      getRandomIndexes.loop PrevBlockHash v.length n s = .ok (s', i) ∧ s'.Inv v ∧
        (0 ≤ i → s'.indexCount = v.length)
  | 0, s, hs => ⟨s, -1, rfl, hs, by omega⟩
  | n + 1, s, hs => by
    have hj : reduceSelection (uint256.GetNibble PrevBlockHash n) v.length < s.indexes.length := by
      rw [hs.length_eq]
      exact reduceSelection_lt hv
    have hs' := hs.draw hj
    simp only [getRandomIndexes.loop, Abort.vectorGet_of_lt hj, Except.bind_ok_left]
    split_ifs with hc
    · exact ⟨_, n, rfl, hs', fun _ => hc.trans hs'.length_eq⟩
    · exact getRandomIndexes.loop_spec PrevBlockHash hv n _ hs'

/-- **`getRandomIndexes` returns a permutation of its vector**: for every hash, on every non-empty
vector of non-negative indexes, each index comes out exactly as often as it went in. -/
theorem getRandomIndexes_perm (PrevBlockHash : uint256) {v : List Int} (hv : v ≠ [])
    (hnn : ∀ x ∈ v, 0 ≤ x) :
    ∃ r, getRandomIndexes PrevBlockHash v = .ok r ∧ r.Perm v := by
  obtain ⟨s, i, hloop, hs, hbreak⟩ := getRandomIndexes.loop_spec PrevBlockHash
    (List.length_pos_of_ne_nil hv) 64 _ (DrawState.Inv.init hnn)
  simp only [getRandomIndexes, hloop, Except.bind_ok_left]
  split_ifs with hsweep
  · exact ⟨_, rfl, hs.perm⟩
  · have hc : s.indexCount = v.length := by
      by_cases hi : 0 ≤ i
      · exact hbreak hi
      · have := hs.count_le
        omega
    refine ⟨_, rfl, ?_⟩
    have := hs.perm
    rwa [hs.filter_eq_nil hc, List.append_nil] at this

-- the lowest nibbles `2, 1, 0` draw the three slots in that order
example : getRandomIndexes 0x012 [0, 1, 2] = .ok [2, 1, 0] := by decide

-- all nibbles name slot `0`; the sweep appends the others in order
example : getRandomIndexes 0 [0, 1, 2] = .ok [0, 1, 2] := by decide

/-- `HashSelection`: the previous block's hash and the two drawn orders. The names of the
algorithms (`algoMap`, `cnVariantMap`) serve only `getHashSelectionString` and are left out. -/
structure HashSelection where
  PrevBlockHash : uint256
  algoIndexes : List Int
  cnIndexes : List Int
  deriving DecidableEq, Repr

namespace HashSelection

/-- The constructor `HashSelection::HashSelection`: the variants are drawn first, then the core
algorithms, both from the same nibbles. -/
def ofPrevBlockHash (prevBlockHash : uint256) (algoIndexes cnIndexes : List Int) :
    Except Abort HashSelection := do
  let cnIndexes ← getRandomIndexes prevBlockHash cnIndexes
  let algoIndexes ← getRandomIndexes prevBlockHash algoIndexes
  pure { PrevBlockHash := prevBlockHash, algoIndexes, cnIndexes }

/-- `HashSelection::getCnIndexes`. -/
def getCnIndexes (s : HashSelection) : List Int := s.cnIndexes

/-- `HashSelection::getAlgoIndexes`. -/
def getAlgoIndexes (s : HashSelection) : List Int := s.algoIndexes

/-- **Both drawn orders are permutations** of the vectors the constructor is given, for every
hash. -/
theorem ofPrevBlockHash_perm (prevBlockHash : uint256) {algoIndexes cnIndexes : List Int}
    (ha : algoIndexes ≠ []) (hann : ∀ x ∈ algoIndexes, 0 ≤ x) (hc : cnIndexes ≠ [])
    (hcnn : ∀ x ∈ cnIndexes, 0 ≤ x) :
    ∃ s, ofPrevBlockHash prevBlockHash algoIndexes cnIndexes = .ok s ∧
      s.getAlgoIndexes.Perm algoIndexes ∧ s.getCnIndexes.Perm cnIndexes := by
  obtain ⟨cn, hcn, hcnp⟩ := getRandomIndexes_perm prevBlockHash hc hcnn
  obtain ⟨algo, halgo, halgop⟩ := getRandomIndexes_perm prevBlockHash ha hann
  refine ⟨⟨prevBlockHash, algo, cn⟩, ?_, halgop, hcnp⟩
  simp only [ofPrevBlockHash, hcn, halgo, Except.bind_ok_left]
  rfl

end HashSelection

/-- `uint512`: a 512-bit blob, the digest of a GhostRider round. -/
abbrev uint512 := BitVec 512

/-- `uint512::trim256`: the blob's first 32 bytes, its low 256 bits. -/
def uint512.trim256 (h : uint512) : uint256 := h.setWidth 256

/-- The 64 bytes of a `uint512`, as a round hashes them. -/
def uint512.bytes (h : uint512) : List UInt8 := leBytes 64 h.toNat

/-- `coreHash`: the digest of the core function the selection names among the sixteen cases of
its `switch`, or no write for any other selection. -/
def coreHash (sph : Fin 16 → List UInt8 → uint512) (toHash : List UInt8) (hashSelection : Int) :
    Option uint512 :=
  if h : 0 ≤ hashSelection ∧ hashSelection < 16 then
    some (sph ⟨hashSelection.toNat, by omega⟩ toHash)
  else none

/-- `cnHash`: the digest of the CryptoNight variant the selection names, over the first
`lenToHash` bytes of `toHash`, or no write for any other selection. -/
def cnHash (cryptonight : Fin 6 → List UInt8 → uint512) (toHash : uint512) (lenToHash : Nat)
    (hashSelection : Int) : Option uint512 :=
  if h : 0 ≤ hashSelection ∧ hashSelection < 6 then
    some (cryptonight ⟨hashSelection.toNat, by omega⟩ (toHash.bytes.take lenToHash))
  else none

namespace HashGR

/-- The selections of round `i` of `HashGR`: the core function and the CryptoNight variant, `-1`
for none. -/
def selection (randomCNs coreHashIndexes : List Int) (i : Nat) : Except Abort (Int × Int) :=
  if i < 5 then do
    let c ← Abort.vectorGet coreHashIndexes i
    pure (c, -1)
  else if i = 5 then do
    let n ← Abort.vectorGet randomCNs 0
    pure (-1, n)
  else if i < 11 then do
    let c ← Abort.vectorGet coreHashIndexes (i - 1)
    pure (c, -1)
  else if i = 11 then do
    let n ← Abort.vectorGet randomCNs 1
    pure (-1, n)
  else if i < 17 then do
    let c ← Abort.vectorGet coreHashIndexes (i - 2)
    pure (c, -1)
  else if i = 17 then do
    let n ← Abort.vectorGet randomCNs 2
    pure (-1, n)
  else pure (-1, -1)

/-- What round `i` hashes and how many bytes: the input at round 0, the previous round's digest
after it. -/
def toHash (input : List UInt8) (hash : Nat → uint512) (i : Nat) : List UInt8 × Nat :=
  if i = 0 then (input, input.length) else ((hash (i - 1)).bytes, 64)

/-- Round `i` of `HashGR`'s loop on the digests `hash`: `coreHash` then `cnHash` write their
digest into `hash[i]` when their selection names a function. -/
def round (sph : Fin 16 → List UInt8 → uint512) (cryptonight : Fin 6 → List UInt8 → uint512)
    (input : List UInt8) (randomCNs coreHashIndexes : List Int) (hash : Nat → uint512) (i : Nat) :
    Except Abort (Nat → uint512) := do
  let (toHash, lenToHash) := HashGR.toHash input hash i
  let (coreSelection, cnSelection) ← selection randomCNs coreHashIndexes i
  let hash := match coreHash sph toHash coreSelection with
    | some d => Function.update hash i d
    | none => hash
  -- `cnHash` is handed `&hash[i - 1]`; round 0, where the model reads `hash[0]` there, selects
  -- no variant
  match cnHash cryptonight (hash (i - 1)) lenToHash cnSelection with
  | some d => pure (Function.update hash i d)
  | none => pure hash

end HashGR

/-- `HashGR`: the selection drawn from `PrevBlockHash`, the eighteen rounds over the zeroed
digests `uint512 hash[18]`, and the low half of the last digest. -/
def HashGR (sph : Fin 16 → List UInt8 → uint512) (cryptonight : Fin 6 → List UInt8 → uint512)
    (input : List UInt8) (PrevBlockHash : uint256) : Except Abort uint256 := do
  let hashSelection ← HashSelection.ofPrevBlockHash PrevBlockHash
    [0, 1, 2, 3, 4, 5, 6, 7, 8, 9, 10, 11, 12, 13, 14] [0, 1, 2, 3, 4, 5]
  let randomCNs := hashSelection.getCnIndexes
  let coreHashIndexes := hashSelection.getAlgoIndexes
  let hash ← (List.range 18).foldlM
    (HashGR.round sph cryptonight input randomCNs coreHashIndexes) fun _ => 0
  pure (hash 17).trim256

/-! ## The plan of the rounds -/

namespace HashGR

/-- The selections the rounds are meant to make: the core functions in the drawn order at the
rounds `i % 6 ≠ 5` (five of them before each variant), and the first three drawn variants at the
rounds `5`, `11` and `17`. -/
def roundPlan (randomCNs coreHashIndexes : List Int) (i : Nat) : Int × Int :=
  if i % 6 = 5 then (-1, randomCNs.getD (i / 6) 0) else (coreHashIndexes.getD (i - i / 6) 0, -1)

/-- **Every round selects as planned**: the core rounds read `coreHashIndexes` at `i`, `i - 1`
and `i - 2`, the others `randomCNs` at `0`, `1` and `2`, all within the vectors. -/
theorem selection_eq {randomCNs coreHashIndexes : List Int} (hcn : 3 ≤ randomCNs.length)
    (hcore : 15 ≤ coreHashIndexes.length) {i : Nat} (hi : i < 18) :
    selection randomCNs coreHashIndexes i = .ok (roundPlan randomCNs coreHashIndexes i) := by
  interval_cases i <;>
    simp (disch := omega) only [selection, roundPlan, Abort.vectorGet_of_lt,
      List.getD_eq_getElem?_getD, List.getElem?_eq_getElem, Option.getD_some, Except.bind_ok_left] <;>
    rfl

theorem coreHash_isSome (sph : Fin 16 → List UInt8 → uint512) (toHash : List UInt8)
    (hashSelection : Int) :
    (coreHash sph toHash hashSelection).isSome = decide (0 ≤ hashSelection ∧ hashSelection < 16) := by
  unfold coreHash
  split_ifs with h <;> simp [h]

theorem cnHash_isSome (cryptonight : Fin 6 → List UInt8 → uint512) (toHash : uint512)
    (lenToHash : Nat) (hashSelection : Int) :
    (cnHash cryptonight toHash lenToHash hashSelection).isSome =
      decide (0 ≤ hashSelection ∧ hashSelection < 6) := by
  unfold cnHash
  split_ifs with h <;> simp [h]

/-- An entry of a list of numbers in `[0, n)`, read with the default `0`, is in `[0, n)`. -/
theorem getD_mem_range {l : List Int} {n : Int} (hn : 0 < n) (h : ∀ x ∈ l, 0 ≤ x ∧ x < n)
    (k : Nat) : 0 ≤ l.getD k 0 ∧ l.getD k 0 < n := by
  rw [List.getD_eq_getElem?_getD]
  cases hk : l[k]? with
  | none => exact ⟨le_refl 0, hn⟩
  | some x => exact h x (List.mem_of_getElem? hk)

/-- **Exactly one of `coreHash` and `cnHash` writes** at every round of the plan, when the drawn
core indexes are below `16` and the variants below `6`, whatever the bytes hashed. -/
theorem roundPlan_writes_one {randomCNs coreHashIndexes : List Int}
    (hcn : ∀ x ∈ randomCNs, 0 ≤ x ∧ x < 6) (hcore : ∀ x ∈ coreHashIndexes, 0 ≤ x ∧ x < 16)
    (i : Nat) (sph : Fin 16 → List UInt8 → uint512) (cryptonight : Fin 6 → List UInt8 → uint512)
    (toHash : List UInt8) (prev : uint512) (lenToHash : Nat) :
    (coreHash sph toHash (roundPlan randomCNs coreHashIndexes i).1).isSome =
      !(cnHash cryptonight prev lenToHash (roundPlan randomCNs coreHashIndexes i).2).isSome := by
  rw [coreHash_isSome, cnHash_isSome]
  unfold roundPlan
  split_ifs with h
  · simpa using getD_mem_range (by norm_num) hcn (i / 6)
  · simpa using getD_mem_range (by norm_num) hcore (i - i / 6)

/-- Reading the first `n` entries one by one gives the first `n` entries. -/
theorem map_getD_range {l : List Int} {n : Nat} (hn : n ≤ l.length) :
    (List.range n).map (fun k => l.getD k 0) = l.take n := by
  apply List.ext_getElem
  · simp only [List.length_map, List.length_range, List.length_take]
    omega
  · intro k h₁ h₂
    simp only [List.getElem_map, List.getElem_range, List.getElem_take]
    rw [List.getD_eq_getElem?_getD, List.getElem?_eq_getElem (by simp at h₁; omega),
      Option.getD_some]

/-- Rounds whose selections read `l` at the indexes `0, …, n - 1`, in order, select the first `n`
entries of `l`. -/
theorem map_eq_take_of_indexes {rounds : List Nat} {index : Nat → Nat} {f : Nat → Int}
    {l : List Int} {n : Nat} (hindex : rounds.map index = List.range n)
    (hf : ∀ i ∈ rounds, f i = l.getD (index i) 0) (hn : n ≤ l.length) :
    rounds.map f = l.take n :=
  calc rounds.map f = (rounds.map index).map (fun k => l.getD k 0) := by
        rw [List.map_congr_left hf, List.map_map]
        rfl
    _ = l.take n := by rw [hindex, map_getD_range hn]

/-- **The core rounds read the drawn order once through**: in round order, the core selections
are the fifteen drawn core indexes. -/
theorem roundPlan_core {randomCNs coreHashIndexes : List Int}
    (hcore : coreHashIndexes.length = 15) :
    ((List.range 18).filter (fun i => i % 6 ≠ 5)).map
      (fun i => (roundPlan randomCNs coreHashIndexes i).1) = coreHashIndexes := by
  have hrounds : ((List.range 18).filter (fun i => i % 6 ≠ 5)).map (fun i => i - i / 6) =
      List.range 15 := by decide
  have hplan : ∀ i ∈ (List.range 18).filter (fun i => i % 6 ≠ 5),
      (roundPlan randomCNs coreHashIndexes i).1 = coreHashIndexes.getD (i - i / 6) 0 := by
    intro i hi
    simp only [List.mem_filter, decide_eq_true_eq] at hi
    simp [roundPlan, hi.2]
  rw [map_eq_take_of_indexes hrounds hplan hcore.ge, List.take_of_length_le hcore.le]

/-- **The variant rounds read the first three drawn variants**, in order. -/
theorem roundPlan_cn {randomCNs coreHashIndexes : List Int} (hcn : 3 ≤ randomCNs.length) :
    ((List.range 18).filter (fun i => i % 6 = 5)).map
      (fun i => (roundPlan randomCNs coreHashIndexes i).2) = randomCNs.take 3 := by
  have hrounds : ((List.range 18).filter (fun i => i % 6 = 5)).map (fun i => i / 6) =
      List.range 3 := by decide
  have hplan : ∀ i ∈ (List.range 18).filter (fun i => i % 6 = 5),
      (roundPlan randomCNs coreHashIndexes i).2 = randomCNs.getD (i / 6) 0 := by
    intro i hi
    simp only [List.mem_filter, decide_eq_true_eq] at hi
    simp [roundPlan, hi.2]
  exact map_eq_take_of_indexes hrounds hplan hcn

end HashGR

/-! ## The hash chain GhostRider computes -/

/-- A GhostRider round's function: one of the sixteen core hashes or one of the six CryptoNight
variants. -/
inductive GRAlgo
  | core (k : Fin 16)
  | cn (k : Fin 6)
  deriving DecidableEq, Repr

namespace GRAlgo

variable (sph : Fin 16 → List UInt8 → uint512) (cryptonight : Fin 6 → List UInt8 → uint512)

/-- The digest the function computes on some bytes. -/
def apply : GRAlgo → List UInt8 → uint512
  | core k, bytes => sph k bytes
  | cn k, bytes => cryptonight k bytes

/-- The selections of a round of `HashGR` that applies the function. -/
def selection : GRAlgo → Int × Int
  | core k => (k.val, -1)
  | cn k => (-1, k.val)

/-- One link of a hash chain: the function hashes the bytes, and the link after it hashes the 64
bytes of its digest. -/
def link (st : List UInt8 × uint512) (a : GRAlgo) : List UInt8 × uint512 :=
  let d := a.apply sph cryptonight st.1
  (d.bytes, d)

/-- The digest of a chain of functions on an input: the first hashes the input, each next one the
digest before it; no function leaves the zero digest. -/
def chain (algos : List GRAlgo) (input : List UInt8) : uint512 :=
  (algos.foldl (link sph cryptonight) (input, 0)).2

/-- The GhostRider schedule: the core functions in groups of five, each group followed by one
variant. -/
def schedule : List (Fin 16) → List (Fin 6) → List GRAlgo
  | cores, n :: cns => (cores.take 5).map GRAlgo.core ++ GRAlgo.cn n :: schedule (cores.drop 5) cns
  | _, [] => []

theorem length_schedule :
    ∀ {cores : List (Fin 16)} {cns : List (Fin 6)}, 5 * cns.length ≤ cores.length →
      (schedule cores cns).length = 6 * cns.length
  | _, [], _ => rfl
  | cores, n :: cns, hlen => by
    simp only [List.length_cons] at hlen
    simp only [schedule, List.length_append, List.length_map, List.length_take, List.length_cons,
      @length_schedule (cores.drop 5) cns (by simp only [List.length_drop]; omega)]
    omega

/-- Round `i` of the schedule: variant `i / 6` at the rounds `i % 6 = 5`, core function
`i - i / 6` at the others. -/
theorem getElem?_schedule :
    ∀ {cores : List (Fin 16)} {cns : List (Fin 6)}, 5 * cns.length ≤ cores.length →
      ∀ {i : Nat}, i < 6 * cns.length → (schedule cores cns)[i]? =
        some (if i % 6 = 5 then cn (cns.getD (i / 6) 0) else GRAlgo.core (cores.getD (i - i / 6) 0))
  | _, [], _, _, hi => by simp at hi
  | cores, n :: cns, hlen, i, hi => by
    simp only [List.length_cons] at hlen hi
    have htake : ((cores.take 5).map GRAlgo.core).length = 5 := by simp; omega
    simp only [schedule]
    rcases Nat.lt_or_ge i 5 with h5 | h5
    · have hidx : i - i / 6 = i := by omega
      rw [List.getElem?_append_left (by omega), List.getElem?_map, List.getElem?_take, if_pos h5,
        if_neg (show i % 6 ≠ 5 by omega), hidx, List.getD_eq_getElem?_getD,
        List.getElem?_eq_getElem (by omega)]
      rfl
    rcases Nat.lt_or_ge i 6 with h6 | h6
    · obtain rfl : i = 5 := by omega
      rw [List.getElem?_append_right (by omega), htake]
      simp
    rw [List.getElem?_append_right (by omega), htake,
      show i - 5 = (i - 6) + 1 by omega, List.getElem?_cons_succ,
      getElem?_schedule (by simp only [List.length_drop]; omega) (by omega)]
    have hdiv : i / 6 = (i - 6) / 6 + 1 := by omega
    have hmod : (i - 6) % 6 = i % 6 := by omega
    rw [hmod, hdiv, List.getD_cons_succ]
    split_ifs
    · rfl
    · have hidx : 5 + (i - 6 - (i - 6) / 6) = i - ((i - 6) / 6 + 1) := by omega
      rw [List.getD_eq_getElem?_getD, List.getD_eq_getElem?_getD, List.getElem?_drop, hidx]

end GRAlgo

theorem uint512.bytes_length (h : uint512) : h.bytes.length = 64 := leBytes_length 64 _

@[simp]
theorem coreHash_neg_one (sph : Fin 16 → List UInt8 → uint512) (toHash : List UInt8) :
    coreHash sph toHash (-1) = none := by
  simp [coreHash]

@[simp]
theorem cnHash_neg_one (cryptonight : Fin 6 → List UInt8 → uint512) (toHash : uint512)
    (lenToHash : Nat) : cnHash cryptonight toHash lenToHash (-1) = none := by
  simp [cnHash]

namespace HashGR

variable {sph : Fin 16 → List UInt8 → uint512} {cryptonight : Fin 6 → List UInt8 → uint512}
  {input : List UInt8} {randomCNs coreHashIndexes : List Int}

/-- **A round applies the function it selects**: it writes into `hash[i]` that function's digest
of what the round hashes, and leaves the other digests. -/
theorem round_eq {hash : Nat → uint512} {i : Nat} {a : GRAlgo}
    (hsel : selection randomCNs coreHashIndexes i = .ok a.selection)
    (h0 : i = 0 → ∃ k, a = .core k) :
    round sph cryptonight input randomCNs coreHashIndexes hash i =
      .ok (Function.update hash i (a.apply sph cryptonight (toHash input hash i).1)) := by
  rcases ht : toHash input hash i with ⟨bytes, lenToHash⟩
  cases a with
  | core k =>
    have hcore : coreHash sph bytes (k.val : Int) = some (sph k bytes) := by
      simp [coreHash]
    simp only [round, ht, hsel, GRAlgo.selection, Except.bind_ok_left, hcore, cnHash_neg_one,
      GRAlgo.apply]
    rfl
  | cn k =>
    have hi : i ≠ 0 := fun h => by
      obtain ⟨_, h⟩ := h0 h
      cases h
    have hbytes : bytes = (hash (i - 1)).bytes ∧ lenToHash = 64 := by
      simp only [toHash, if_neg hi, Prod.mk.injEq] at ht
      exact ⟨ht.1.symm, ht.2.symm⟩
    have hcn : cnHash cryptonight (hash (i - 1)) lenToHash (k.val : Int) = some (cryptonight k bytes) := by
      simp [cnHash, hbytes.1, hbytes.2, List.take_of_length_le, uint512.bytes_length]
    simp only [round, ht, hsel, GRAlgo.selection, Except.bind_ok_left, coreHash_neg_one, hcn,
      GRAlgo.apply]
    rfl

/-- **The rounds compute the chain of their functions**: when every round selects the function of
a schedule, the first a core function, then after the rounds `0, …, k - 1` the digest of round
`k - 1` is the chain of the schedule's first `k` functions, and its bytes are what round `k`
hashes. -/
theorem foldlM_round {sched : List GRAlgo}
    (hsched : ∀ i a, sched[i]? = some a →
      selection randomCNs coreHashIndexes i = .ok a.selection ∧ (i = 0 → ∃ k, a = .core k)) :
    ∀ k ≤ sched.length, ∃ hash,
      (List.range k).foldlM (round sph cryptonight input randomCNs coreHashIndexes)
        (fun _ => 0) = .ok hash ∧
      (sched.take k).foldl (GRAlgo.link sph cryptonight) (input, 0) =
        ((toHash input hash k).1, hash (k - 1))
  | 0, _ => ⟨fun _ => 0, rfl, by simp [toHash]⟩
  | k + 1, hk => by
    obtain ⟨hash, hrun, hfold⟩ := foldlM_round hsched k (by omega)
    have ha : sched[k]? = some sched[k] := List.getElem?_eq_getElem (by omega)
    obtain ⟨hsel, h0⟩ := hsched k _ ha
    refine ⟨Function.update hash k (sched[k].apply sph cryptonight (toHash input hash k).1), ?_, ?_⟩
    · rw [List.range_succ, List.foldlM_append, hrun, Except.bind_ok_left, List.foldlM_cons,
        round_eq hsel h0, Except.bind_ok_left, List.foldlM_nil]
      rfl
    · rw [List.take_add_one, ha, Option.toList_some, List.foldl_append, hfold, List.foldl_cons,
        List.foldl_nil]
      simp [GRAlgo.link, toHash]

end HashGR

/-- A list of numbers in `[0, n)` is the list of the values of some elements of `Fin n`. -/
theorem exists_fin_list {n : Nat} :
    ∀ {l : List Int}, (∀ x ∈ l, 0 ≤ x ∧ x < n) → ∃ f : List (Fin n), f.map (fun k => (k.val : Int)) = l
  | [], _ => ⟨[], rfl⟩
  | x :: l, h => by
    obtain ⟨f, hf⟩ := exists_fin_list fun y hy => h y (List.mem_cons_of_mem x hy)
    have hx := h x List.mem_cons_self
    exact ⟨⟨x.toNat, by omega⟩ :: f, by simp [hf]; omega⟩

/-- Reading a list of `Fin n` as numbers commutes with reading an entry, the default `0`
included. -/
theorem getD_map_val {n : Nat} [NeZero n] (l : List (Fin n)) (k : Nat) :
    (l.map fun x => (x.val : Int)).getD k 0 = ((l.getD k 0 : Fin n).val : Int) := by
  rw [List.getD_eq_getElem?_getD, List.getD_eq_getElem?_getD, List.getElem?_map]
  cases l[k]? <;> simp

/-- The rounds of `HashGR` on a drawn order read as numbers select the functions of the schedule
of that order and of its first three variants. -/
theorem HashGR.selection_schedule {cores : List (Fin 16)} {cns : List (Fin 6)}
    (hcores : cores.length = 15) (hcns : 3 ≤ cns.length) {i : Nat} {a : GRAlgo}
    (ha : (GRAlgo.schedule cores (cns.take 3))[i]? = some a) :
    selection (cns.map fun k => (k.val : Int)) (cores.map fun k => (k.val : Int)) i =
        .ok a.selection ∧ (i = 0 → ∃ k, a = .core k) := by
  have hlen3 : (cns.take 3).length = 3 := by simp; omega
  have hi : i < 18 := by
    have := (List.getElem?_eq_some_iff.1 ha).1
    rwa [GRAlgo.length_schedule (by omega), hlen3] at this
  rw [GRAlgo.getElem?_schedule (by omega) (by omega), Option.some.injEq] at ha
  subst ha
  rw [selection_eq (by simp; omega) (by simp; omega) hi]
  unfold roundPlan
  split_ifs with h
  · have htake : (cns.take 3).getD (i / 6) 0 = cns.getD (i / 6) 0 := by
      rw [List.getD_eq_getElem?_getD, List.getD_eq_getElem?_getD, List.getElem?_take,
        if_pos (by omega)]
    refine ⟨by rw [getD_map_val, htake]; rfl, fun h0 => by omega⟩
  · exact ⟨by rw [getD_map_val]; rfl, fun _ => ⟨_, rfl⟩⟩

/-- The entries of a permutation of `0, …, n - 1` lie in `[0, m)` for every `m ≥ n`. -/
theorem mem_range_of_perm {l : List Int} {n m : Nat} (h : l.Perm ((List.range n).map Nat.cast))
    (hnm : n ≤ m) : ∀ x ∈ l, 0 ≤ x ∧ x < m := by
  intro x hx
  obtain ⟨k, hk, rfl⟩ := List.mem_map.1 (h.mem_iff.1 hx)
  rw [List.mem_range] at hk
  omega

/-- The orders `HashGR` draws: for every hash, a permutation of the fifteen core indexes and one
of the six variants. -/
theorem HashGR.hashSelection_perm (PrevBlockHash : uint256) :
    ∃ s, HashSelection.ofPrevBlockHash PrevBlockHash
        [0, 1, 2, 3, 4, 5, 6, 7, 8, 9, 10, 11, 12, 13, 14] [0, 1, 2, 3, 4, 5] = .ok s ∧
      s.getAlgoIndexes.Perm ((List.range 15).map Nat.cast) ∧
      s.getCnIndexes.Perm ((List.range 6).map Nat.cast) := by
  obtain ⟨s, hs, halgo, hcn⟩ := @HashSelection.ofPrevBlockHash_perm PrevBlockHash
    [0, 1, 2, 3, 4, 5, 6, 7, 8, 9, 10, 11, 12, 13, 14] [0, 1, 2, 3, 4, 5]
    (by decide) (by decide) (by decide) (by decide)
  exact ⟨s, hs, halgo, hcn⟩

/-- **`HashGR` is the GhostRider chain**: for every previous block hash there is an order of the
fifteen core functions and three distinct variants such that, whatever the hash functions and
the input, `HashGR` returns the low half of the chain of the schedule, the fifteen core functions
in that order in three groups of five, each group followed by one variant. -/
theorem HashGR_eq_chain (PrevBlockHash : uint256) :
    ∃ (cores : List (Fin 16)) (cns : List (Fin 6)),
      (cores.map Fin.val).Perm (List.range 15) ∧ cns.length = 3 ∧ cns.Nodup ∧
      ∀ sph cryptonight input, HashGR sph cryptonight input PrevBlockHash =
        .ok (GRAlgo.chain sph cryptonight (GRAlgo.schedule cores cns) input).trim256 := by
  obtain ⟨s, hs, halgo, hcn⟩ := HashGR.hashSelection_perm PrevBlockHash
  obtain ⟨cores, hcores⟩ := @exists_fin_list 16 s.getAlgoIndexes (mem_range_of_perm halgo (by omega))
  obtain ⟨cns, hcns⟩ := @exists_fin_list 6 s.getCnIndexes (mem_range_of_perm hcn le_rfl)
  have hcoresLen : cores.length = 15 := by
    rw [← List.length_map (fun k => (k.val : Int)), hcores, halgo.length_eq, List.length_map,
      List.length_range]
  have hcnsLen : cns.length = 6 := by
    rw [← List.length_map (fun k => (k.val : Int)), hcns, hcn.length_eq, List.length_map,
      List.length_range]
  have hcnsNodup : cns.Nodup := by
    apply List.Nodup.of_map (fun k => (k.val : Int))
    rw [hcns]
    exact hcn.nodup_iff.2 (List.nodup_range.map Nat.cast_injective)
  refine ⟨cores, cns.take 3, ?_, by simp [hcnsLen], hcnsNodup.sublist (List.take_sublist _ _), ?_⟩
  · rw [← List.map_perm_map_iff (Nat.cast_injective : Function.Injective (Nat.cast : Nat → Int)),
      List.map_map]
    exact hcores ▸ halgo
  intro sph cryptonight input
  have hlen : (GRAlgo.schedule cores (cns.take 3)).length = 18 := by
    rw [GRAlgo.length_schedule (by simp; omega)]
    simp [hcnsLen]
  obtain ⟨hash, hrun, hfold⟩ := @HashGR.foldlM_round sph cryptonight input s.getCnIndexes
    s.getAlgoIndexes _ (fun i a ha => hcns ▸ hcores ▸ HashGR.selection_schedule hcoresLen
      (by omega) ha) 18 hlen.ge
  simp only [HashGR, hs, Except.bind_ok_left, hrun]
  rw [GRAlgo.chain, ← List.take_of_length_le hlen.le, hfold]
  rfl

/-- **The GhostRider selection**: `getRandomIndexes` returns a permutation of every non-empty
vector of non-negative indexes, for every hash; so for every previous block hash the selection
`HashGR` builds draws a permutation of the fifteen core indexes and of the six variants, its
rounds select `coreHashIndexes[i - i / 6]`, or `randomCNs[i / 6]` at the rounds `5`, `11`
and `17`, with exactly one of `coreHash` and `cnHash` writing, the core rounds run through the
drawn order once, the variant rounds take three distinct variants, and `HashGR` is the chain of
that schedule. -/
theorem HashGR_selection_permutes :
    (∀ (PrevBlockHash : uint256) (v : List Int), v ≠ [] → (∀ x ∈ v, 0 ≤ x) →
      ∃ r, getRandomIndexes PrevBlockHash v = .ok r ∧ r.Perm v) ∧
    ∀ PrevBlockHash : uint256, (∃ s, HashSelection.ofPrevBlockHash PrevBlockHash
        [0, 1, 2, 3, 4, 5, 6, 7, 8, 9, 10, 11, 12, 13, 14] [0, 1, 2, 3, 4, 5] = .ok s ∧
      s.getAlgoIndexes.Perm ((List.range 15).map Nat.cast) ∧
      s.getCnIndexes.Perm ((List.range 6).map Nat.cast) ∧
      (∀ i < 18, HashGR.selection s.getCnIndexes s.getAlgoIndexes i =
          .ok (HashGR.roundPlan s.getCnIndexes s.getAlgoIndexes i) ∧
        ∀ sph cryptonight toHash prev lenToHash,
          (coreHash sph toHash (HashGR.roundPlan s.getCnIndexes s.getAlgoIndexes i).1).isSome =
            !(cnHash cryptonight prev lenToHash
              (HashGR.roundPlan s.getCnIndexes s.getAlgoIndexes i).2).isSome) ∧
      ((List.range 18).filter (fun i => i % 6 ≠ 5)).map
        (fun i => (HashGR.roundPlan s.getCnIndexes s.getAlgoIndexes i).1) = s.getAlgoIndexes ∧
      (((List.range 18).filter (fun i => i % 6 = 5)).map
        (fun i => (HashGR.roundPlan s.getCnIndexes s.getAlgoIndexes i).2)).Nodup) ∧
      ∃ (cores : List (Fin 16)) (cns : List (Fin 6)),
        (cores.map Fin.val).Perm (List.range 15) ∧ cns.length = 3 ∧ cns.Nodup ∧
        ∀ sph cryptonight input, HashGR sph cryptonight input PrevBlockHash =
          .ok (GRAlgo.chain sph cryptonight (GRAlgo.schedule cores cns) input).trim256 := by
  refine ⟨fun PrevBlockHash v hv hnn => getRandomIndexes_perm PrevBlockHash hv hnn,
    fun PrevBlockHash => ⟨?_, HashGR_eq_chain PrevBlockHash⟩⟩
  obtain ⟨s, hs, halgo, hcn⟩ := HashGR.hashSelection_perm PrevBlockHash
  have halgoLen : s.getAlgoIndexes.length = 15 := by simp [halgo.length_eq]
  have hcnLen : s.getCnIndexes.length = 6 := by simp [hcn.length_eq]
  refine ⟨s, hs, halgo, hcn, fun i hi => ⟨HashGR.selection_eq (by omega) (by omega) hi, ?_⟩,
    HashGR.roundPlan_core halgoLen, ?_⟩
  · exact HashGR.roundPlan_writes_one (mem_range_of_perm (m := 6) hcn le_rfl)
      (mem_range_of_perm (m := 16) halgo (by omega)) i
  · rw [HashGR.roundPlan_cn (by omega)]
    exact (hcn.nodup_iff.2 (List.nodup_range.map Nat.cast_injective)).sublist
      (List.take_sublist _ _)

end NowpConsensus
