import NowpConsensus.Lib.Abort
import NowpConsensus.Lib.Forest
import Mathlib.Data.Int.Bitwise

/-!
# Skip pointers and ancestors

Each `CBlockIndex` entry of `chain.h` has, besides `pprev`, a pointer `pskip` to an ancestor
further back, which `BuildSkip` sets when the entry is made: the ancestor at height
`GetSkipHeight(nHeight)`, found by `GetAncestor` from `pprev`. `GetAncestor(height)` walks back
from an entry to the ancestor at `height`, along `pskip` where that does not overshoot, along
`pprev` elsewhere; `LastCommonAncestor` brings two entries to one height with `GetAncestor`
and then walks both back in step until they meet.

A skip pointer is compared and followed as a pointer, so where `Chain/BlockIndex.lean` writes a
pointer as the list of its ancestors, here pointers are positions in the arena of the index's
entries (`BlockIndexArena`), in the order they were made, and `nullptr` is `none`. The block
tree the entries form is a forest of `Lib/Forest.lean`, with `pprev` the parent and the height
the depth. `WellFormed` says what `AddToBlockIndex` keeps (`WellFormed.AddToBlockIndex`): every
`pprev` is an older entry one lower, a root is at height `0`, and every `pskip` is what
`BuildSkip` sets; so every arena `AddToBlockIndex` builds is well-formed (`Reachable.wellFormed`),
and on it `AddToBlockIndex` on an existing entry always returns
(`Reachable.AddToBlockIndex_progress`).

* `WellFormed.GetAncestor_eq`: the walk of `GetAncestor(height)` ends at the ancestor
  `nHeight - height` parents up, by induction on the position of the entry, since `pskip` was
  set by the same walk from an older entry;
* `GetAncestor_LastCommonAncestor_correct`: on a well-formed tree `GetAncestor(height)` returns
  the one ancestor of the entry at `height`, or `nullptr` outside `[0, nHeight]`, and never
  fails its assertion; `LastCommonAncestor` returns the highest common ancestor of two entries,
  or `nullptr` exactly when they are in different trees.
-/

namespace NowpConsensus

/-! ## Skip heights -/

/-- `InvertLowestOne(n)`: `n & (n - 1)`, the lowest set bit cleared. -/
def InvertLowestOne (n : Int) : Int := Int.land n (n - 1)

/-- `GetSkipHeight(height)`. -/
def GetSkipHeight (height : Int) : Int :=
  if height < 2 then 0
  else if Int.land height 1 ≠ 0 then InvertLowestOne (InvertLowestOne (height - 1)) + 1
  else InvertLowestOne height

theorem InvertLowestOne_zero : InvertLowestOne 0 = 0 := by
  show ((Nat.ldiff 0 0 : Nat) : Int) = 0
  simp [Nat.ldiff]

/-- Clearing the lowest set bit of a positive number lowers it and leaves it non-negative. -/
theorem InvertLowestOne_pos_bounds {n : Int} (hn : 1 ≤ n) :
    0 ≤ InvertLowestOne n ∧ InvertLowestOne n ≤ n - 1 := by
  obtain ⟨m, rfl⟩ := Int.eq_ofNat_of_zero_le (by omega : 0 ≤ n)
  have hsub : (m : Int) - 1 = ((m - 1 : Nat) : Int) := by omega
  have heq : InvertLowestOne m = ((m &&& (m - 1) : Nat) : Int) := by
    rw [InvertLowestOne, hsub]
    rfl
  have hle : m &&& (m - 1) ≤ m - 1 := Nat.and_le_right
  rw [heq]
  omega

theorem InvertLowestOne_bounds {n : Int} (hn : 0 ≤ n) :
    0 ≤ InvertLowestOne n ∧ InvertLowestOne n ≤ n := by
  rcases hn.eq_or_lt with rfl | hpos
  · rw [InvertLowestOne_zero]
    omega
  · have := InvertLowestOne_pos_bounds (show 1 ≤ n by omega)
    omega

/-- The skip height of a positive height is a lower height, not below `0`. -/
theorem GetSkipHeight_bounds {height : Int} (h : 1 ≤ height) :
    0 ≤ GetSkipHeight height ∧ GetSkipHeight height < height := by
  unfold GetSkipHeight
  split_ifs with h2 hodd
  · omega
  · have h1 := InvertLowestOne_pos_bounds (show 1 ≤ height - 1 by omega)
    have h2 := InvertLowestOne_bounds h1.1
    omega
  · have := InvertLowestOne_pos_bounds h
    omega

/-! ## The arena and the walks -/

/-- The fields of a `CBlockIndex` the skip pointers work with: its height and its two pointers,
as positions in the arena. -/
structure IndexNode where
  nHeight : Int
  pprev : Option Nat
  pskip : Option Nat
  deriving DecidableEq, Repr

/-- The entries of the block index in the order they were made; a `CBlockIndex*` is a
position. -/
abbrev BlockIndexArena := List IndexNode

namespace BlockIndexArena

/-- One turn of the walk of `GetAncestor(height)` from `walk`, at height `heightWalk`: to `pskip`,
at `GetSkipHeight(heightWalk)`, when it is there and `pprev->pskip` is no better than
`pskip->pprev`, else to `pprev`, one lower, which `assert(pindexWalk->pprev)` requires. -/
def GetAncestor.next (walk : IndexNode) (height heightWalk : Int) : Except Abort (Nat × Int) :=
  let heightSkip := GetSkipHeight heightWalk
  let heightSkipPrev := GetSkipHeight (heightWalk - 1)
  if h : walk.pskip.isSome ∧ (heightSkip = height ∨ (heightSkip > height ∧
      ¬(heightSkipPrev < heightSkip - 2 ∧ heightSkipPrev ≥ height))) then
    .ok (walk.pskip.get h.1, heightSkip)
  else
    match walk.pprev with
    | none => .error .assertion
    | some pprev => .ok (pprev, heightWalk - 1)

/-- What a turn can do: follow `pskip` to a height not below `height`, or follow `pprev` one
lower. -/
theorem GetAncestor.next_eq_ok {walk : IndexNode} {height heightWalk heightWalk' : Int} {p : Nat}
    (hn : GetAncestor.next walk height heightWalk = .ok (p, heightWalk')) :
    (walk.pskip = some p ∧ heightWalk' = GetSkipHeight heightWalk ∧
        height ≤ GetSkipHeight heightWalk) ∨
      (walk.pprev = some p ∧ heightWalk' = heightWalk - 1) := by
  unfold GetAncestor.next at hn
  dsimp only at hn
  split_ifs at hn with h
  · obtain ⟨rfl, rfl⟩ := Prod.mk.inj (Except.ok.inj hn)
    refine .inl ⟨(Option.some_get h.1).symm, rfl, ?_⟩
    rcases h.2 with h2 | h2 <;> omega
  · split at hn
    · cases hn
    · rename_i q hq
      obtain ⟨rfl, rfl⟩ := Prod.mk.inj (Except.ok.inj hn)
      exact .inr ⟨hq, rfl⟩

/-- A turn from an entry with a `pprev` does not fail its assertion. -/
theorem GetAncestor.next_ne_error {walk : IndexNode} {q : Nat} (hq : walk.pprev = some q)
    (height heightWalk : Int) :
    ∃ p heightWalk', GetAncestor.next walk height heightWalk = .ok (p, heightWalk') := by
  unfold GetAncestor.next
  dsimp only
  split_ifs with h
  · exact ⟨_, _, rfl⟩
  · rw [hq]
    exact ⟨_, _, rfl⟩

/-- A turn from a positive height goes lower. -/
theorem GetAncestor.next_lt {walk : IndexNode} {height heightWalk heightWalk' : Int} {p : Nat}
    (hn : GetAncestor.next walk height heightWalk = .ok (p, heightWalk')) (hw : 1 ≤ heightWalk) :
    heightWalk' < heightWalk := by
  rcases GetAncestor.next_eq_ok hn with ⟨-, rfl, -⟩ | ⟨-, rfl⟩
  · exact (GetSkipHeight_bounds hw).2
  · omega

/-- The loop of `CBlockIndex::GetAncestor(height)`, at `pindexWalk` of height `heightWalk`; the
check before it makes `height` non-negative. -/
def GetAncestor.loop (tree : BlockIndexArena) (height : Int) (hh : 0 ≤ height)
    (pindexWalk : Nat) (heightWalk : Int) : Except Abort Nat :=
  if heightWalk > height then
    match tree[pindexWalk]? with
    | none => .error .nullDeref
    | some walk =>
      match _hn : GetAncestor.next walk height heightWalk with
      | .error e => .error e
      | .ok (p, heightWalk') => GetAncestor.loop tree height hh p heightWalk'
  else .ok pindexWalk
termination_by heightWalk.toNat
decreasing_by
  have := GetAncestor.next_lt _hn (by omega)
  omega

theorem GetAncestor.loop_stop {tree : BlockIndexArena} {height : Int} {hh : 0 ≤ height}
    {w : Nat} {heightWalk : Int} (hle : heightWalk ≤ height) :
    GetAncestor.loop tree height hh w heightWalk = .ok w := by
  rw [GetAncestor.loop, if_neg (Int.not_lt.mpr hle)]

theorem GetAncestor.loop_step {tree : BlockIndexArena} {height : Int} {hh : 0 ≤ height}
    {w : Nat} {heightWalk : Int} {walk : IndexNode} {p : Nat} {heightWalk' : Int}
    (hgt : height < heightWalk) (hw : tree[w]? = some walk)
    (hn : GetAncestor.next walk height heightWalk = .ok (p, heightWalk')) :
    GetAncestor.loop tree height hh w heightWalk =
      GetAncestor.loop tree height hh p heightWalk' := by
  rw [GetAncestor.loop, if_pos hgt]
  simp only [hw]
  split
  · rename_i e he
    rw [hn] at he
    cases he
  · rename_i p'' h'' he
    rw [hn] at he
    obtain ⟨rfl, rfl⟩ := Prod.mk.inj (Except.ok.inj he)
    rfl

theorem GetAncestor.loop_error {tree : BlockIndexArena} {height : Int} {hh : 0 ≤ height}
    {w : Nat} {heightWalk : Int} {walk : IndexNode} {e : Abort}
    (hgt : height < heightWalk) (hw : tree[w]? = some walk)
    (hn : GetAncestor.next walk height heightWalk = .error e) :
    GetAncestor.loop tree height hh w heightWalk = .error e := by
  rw [GetAncestor.loop, if_pos hgt]
  simp only [hw]
  split
  · rename_i e' he
    rw [hn] at he
    cases he
    rfl
  · rename_i p'' h'' he
    rw [hn] at he
    cases he

/-- `CBlockIndex::GetAncestor(height)` of the entry at `this`: the position of the ancestor, or
`none` for `nullptr`. -/
def GetAncestor (tree : BlockIndexArena) (this : Nat) (height : Int) :
    Except Abort (Option Nat) :=
  match tree[this]? with
  | none => .error .nullDeref
  | some e =>
    if h : height > e.nHeight ∨ height < 0 then .ok none
    else some <$> GetAncestor.loop tree height (by omega) this e.nHeight

/-- `CBlockIndex::BuildSkip()` of an entry `e` about to join the arena `tree`. -/
def BuildSkip (tree : BlockIndexArena) (e : IndexNode) : Except Abort IndexNode :=
  match e.pprev with
  | none => .ok e
  | some pprev =>
    (fun pskip => { e with pskip := pskip }) <$> GetAncestor tree pprev (GetSkipHeight e.nHeight)

/-- The part of `BlockManager::AddToBlockIndex` that places a new entry: its `pprev` is the entry
of `hashPrevBlock` when the index has one, its height is one more than that entry's (else `0`),
and `BuildSkip` sets its `pskip`. -/
def AddToBlockIndex (tree : BlockIndexArena) (pprev : Option Nat) :
    Except Abort BlockIndexArena :=
  match pprev with
  | none => .ok (tree ++ [⟨0, none, none⟩])
  | some p =>
    match tree[p]? with
    | none => .error .nullDeref
    | some prev => (fun e => tree ++ [e]) <$> BuildSkip tree ⟨prev.nHeight + 1, some p, none⟩

/-- The loop of `LastCommonAncestor`, `while (pa != pb && pa && pb)` stepping both to `pprev`,
for at most `fuel` turns. -/
def LastCommonAncestor.loop (tree : BlockIndexArena) :
    Nat → Option Nat → Option Nat → Except Abort (Option Nat × Option Nat)
  | fuel + 1, some a, some b =>
    if a = b then .ok (some a, some b)
    else
      match tree[a]?, tree[b]? with
      | some ea, some eb => LastCommonAncestor.loop tree fuel ea.pprev eb.pprev
      | _, _ => .error .nullDeref
  | _, pa, pb => .ok (pa, pb)

/-- `LastCommonAncestor(pa, pb)`. Its loop runs at most once per entry of the arena, and is
given that many turns. -/
def LastCommonAncestor (tree : BlockIndexArena) (pa pb : Nat) : Except Abort (Option Nat) :=
  match tree[pa]?, tree[pb]? with
  | some ea, some eb => do
    let (pa, pb) ←
      if ea.nHeight > eb.nHeight then (·, some pb) <$> GetAncestor tree pa eb.nHeight
      else if eb.nHeight > ea.nHeight then (some pa, ·) <$> GetAncestor tree pb ea.nHeight
      else pure (some pa, some pb)
    let (pa, pb) ← LastCommonAncestor.loop tree tree.length pa pb
    if pa = pb then pure pa else .error .assertion
  | _, _ => .error .nullDeref

/-! ## Block trees -/

/-- The parent of the entry at `i`, its `pprev`. -/
def parent (tree : BlockIndexArena) (i : Nat) : Option Nat := tree[i]?.bind IndexNode.pprev

/-- The height of the entry at `i`, as a depth; `0` off the arena. -/
def depth (tree : BlockIndexArena) (i : Nat) : Nat := (tree[i]?.map fun e => e.nHeight.toNat).getD 0

/-- A block tree as `AddToBlockIndex` builds it: each `pprev` is an older entry, one lower; a
root is at height `0` and has no `pskip`; and each other entry's `pskip` is what `BuildSkip`
sets, `pprev->GetAncestor(GetSkipHeight(nHeight))`. -/
structure WellFormed (tree : BlockIndexArena) : Prop where
  pprev_lt : ∀ (i : Nat) (e : IndexNode) (p : Nat), tree[i]? = some e → e.pprev = some p → p < i
  nHeight_pprev : ∀ (i : Nat) (e : IndexNode) (p : Nat) (ep : IndexNode), tree[i]? = some e → e.pprev = some p →
    tree[p]? = some ep → e.nHeight = ep.nHeight + 1
  nHeight_root : ∀ (i : Nat) (e : IndexNode), tree[i]? = some e → e.pprev = none → e.nHeight = 0
  pskip_root : ∀ (i : Nat) (e : IndexNode), tree[i]? = some e → e.pprev = none → e.pskip = none
  pskip_eq : ∀ (i : Nat) (e : IndexNode) (p : Nat), tree[i]? = some e → e.pprev = some p →
    GetAncestor tree p (GetSkipHeight e.nHeight) = .ok e.pskip

variable {tree : BlockIndexArena}

theorem getElem?_of_lt {i : Nat} (hi : i < tree.length) : ∃ e, tree[i]? = some e :=
  ⟨tree[i], List.getElem?_eq_getElem hi⟩

theorem lt_length_of_getElem? {i : Nat} {e : IndexNode} (h : tree[i]? = some e) :
    i < tree.length := by
  by_contra hi
  rw [List.getElem?_eq_none (Nat.le_of_not_lt hi)] at h
  cases h

theorem parent_eq {i : Nat} {e : IndexNode} (he : tree[i]? = some e) :
    parent tree i = e.pprev := by
  rw [parent, he, Option.bind_some]

theorem depth_eq {i : Nat} {e : IndexNode} (he : tree[i]? = some e) :
    depth tree i = e.nHeight.toNat := by
  rw [depth, he]
  rfl

namespace WellFormed

variable (hwf : WellFormed tree)
include hwf

theorem pprev_getElem? {i p : Nat} {e : IndexNode} (he : tree[i]? = some e)
    (hp : e.pprev = some p) : ∃ ep, tree[p]? = some ep :=
  getElem?_of_lt (Nat.lt_trans (hwf.pprev_lt i e p he hp) (lt_length_of_getElem? he))

theorem nHeight_nonneg : ∀ (i : Nat) (e : IndexNode), tree[i]? = some e → 0 ≤ e.nHeight := by
  intro i
  induction i using Nat.strong_induction_on with
  | _ i ih =>
    intro e he
    cases hp : e.pprev with
    | none => rw [hwf.nHeight_root i e he hp]
    | some p =>
      obtain ⟨ep, hep⟩ := hwf.pprev_getElem? he hp
      have := ih p (hwf.pprev_lt i e p he hp) ep hep
      rw [hwf.nHeight_pprev i e p ep he hp hep]
      omega

theorem depth_eq' {i : Nat} {e : IndexNode} (he : tree[i]? = some e) :
    (depth tree i : Int) = e.nHeight := by
  rw [depth_eq he, Int.toNat_of_nonneg (hwf.nHeight_nonneg i e he)]

/-- The heights are a depth of the forest of `pprev` pointers. -/
theorem isDepth : Forest.IsDepth (parent tree) (depth tree) where
  root i hi := by
    cases he : tree[i]? with
    | none => rw [depth, he]; rfl
    | some e =>
      rw [parent_eq he] at hi
      rw [depth_eq he, hwf.nHeight_root i e he hi]
      rfl
  parent_eq i p hp := by
    cases he : tree[i]? with
    | none => rw [parent, he] at hp; cases hp
    | some e =>
      rw [parent_eq he] at hp
      obtain ⟨ep, hep⟩ := hwf.pprev_getElem? he hp
      have h1 := hwf.depth_eq' he
      have h2 := hwf.depth_eq' hep
      have := hwf.nHeight_pprev i e p ep he hp hep
      omega

/-- Going up leads to older entries. -/
theorem up_le {k i a : Nat} (h : Forest.up (parent tree) k i = some a) : a ≤ i := by
  induction k generalizing i with
  | zero =>
    cases h
    exact Nat.le_refl _
  | succ k ih =>
    rw [Forest.up_succ] at h
    cases he : tree[i]? with
    | none => rw [parent, he] at h; cases h
    | some e =>
      rw [parent_eq he] at h
      cases hp : e.pprev with
      | none => rw [hp] at h; cases h
      | some p =>
        rw [hp, Option.bind_some] at h
        exact Nat.le_trans (ih h) (Nat.le_of_lt (hwf.pprev_lt i e p he hp))

theorem up_getElem? {k i a : Nat} (hi : i < tree.length) (h : Forest.up (parent tree) k i = some a) :
    ∃ ea, tree[a]? = some ea :=
  getElem?_of_lt (Nat.lt_of_le_of_lt (hwf.up_le h) hi)

/-- An entry is no higher than its position. -/
theorem depth_le (i : Nat) : depth tree i ≤ i := by
  induction i using Nat.strong_induction_on with
  | _ i ih =>
    cases hp : parent tree i with
    | none => rw [hwf.isDepth.root i hp]; exact Nat.zero_le _
    | some p =>
      cases he : tree[i]? with
      | none => rw [parent, he] at hp; cases hp
      | some e =>
        rw [parent_eq he] at hp
        have hlt := hwf.pprev_lt i e p he hp
        rw [hwf.isDepth.parent_eq i p (by rw [parent_eq he, hp])]
        have := ih p hlt
        omega

/-! ## `GetAncestor` -/

/-- The walk of `GetAncestor` from the entry at `p`, where `GetAncestor` answers rightly from every
older entry: the walk stays at the ancestor of `p` at `heightWalk`, not below `height`, and stops
at the ancestor at `height`. -/
theorem loop_eq {p : Nat} {ep : IndexNode} (hep : tree[p]? = some ep)
    (ih : ∀ q < p, ∀ (eq : IndexNode) (h : Int), tree[q]? = some eq → 0 ≤ h → h ≤ eq.nHeight →
      GetAncestor tree q h = .ok (Forest.up (parent tree) (eq.nHeight - h).toNat q))
    {height : Int} (hh : 0 ≤ height) :
    ∀ (n w : Nat) (ew : IndexNode) (heightWalk : Int), heightWalk.toNat = n →
      tree[w]? = some ew → ew.nHeight = heightWalk → w ≤ p →
      Forest.up (parent tree) (ep.nHeight - heightWalk).toNat p = some w → height ≤ heightWalk →
      ∃ a, GetAncestor.loop tree height hh w heightWalk = .ok a ∧
        Forest.up (parent tree) (ep.nHeight - height).toNat p = some a := by
  intro n
  induction n using Nat.strong_induction_on with
  | _ n ihn =>
    intro w ew heightWalk hn hew hhw hwp hup hle
    by_cases hgt : height < heightWalk
    · have hdepth := Forest.depth_up hwf.isDepth hup
      have hdw := hwf.depth_eq' hew
      have hdp := hwf.depth_eq' hep
      obtain ⟨q, hq⟩ : ∃ q, ew.pprev = some q := by
        cases hq : ew.pprev with
        | none => have := hwf.nHeight_root w ew hew hq; omega
        | some q => exact ⟨q, rfl⟩
      obtain ⟨eq, heq⟩ := hwf.pprev_getElem? hew hq
      have hqw := hwf.pprev_lt w ew q hew hq
      have hheq := hwf.nHeight_pprev w ew q eq hew hq heq
      have hupq : Forest.up (parent tree) ((ep.nHeight - heightWalk).toNat + 1) p = some q := by
        rw [Forest.up_succ', hup, Option.bind_some, parent_eq hew, hq]
      obtain ⟨p', h', hnext⟩ := GetAncestor.next_ne_error hq height heightWalk
      rw [GetAncestor.loop_step hgt hew hnext]
      rcases GetAncestor.next_eq_ok hnext with ⟨hs, rfl, hskip⟩ | ⟨hp', rfl⟩
      · have hb := GetSkipHeight_bounds (show 1 ≤ heightWalk by omega)
        have hget := hwf.pskip_eq w ew q hew hq
        rw [hhw, ih q (by omega) eq _ heq hb.1 (by omega), hs] at hget
        have hup' := Forest.up_add_succ_of_parent hup (by rw [parent_eq hew, hq])
          (Except.ok.inj hget)
        obtain ⟨ep', hep'⟩ := hwf.up_getElem? (lt_length_of_getElem? hep) hup'
        have hd' := Forest.depth_up hwf.isDepth (Except.ok.inj hget)
        have hdp' := hwf.depth_eq' hep'
        have hdq := hwf.depth_eq' heq
        exact ihn _ (by omega) p' ep' _ rfl hep' (by omega) (hwf.up_le hup')
          (by rw [← hup']; congr 1; omega) hskip
      · rw [hq] at hp'
        cases hp'
        exact ihn _ (by omega) q eq _ rfl heq (by omega) (by omega)
          (by rw [← hupq]; congr 1; omega) (by omega)
    · have hw : heightWalk = height := by omega
      subst hw
      exact ⟨w, GetAncestor.loop_stop le_rfl, hup⟩

/-- **`GetAncestor(height)` returns the ancestor at `height`**, `height` parents up from the
entry's height, on a well-formed tree and for every height in `[0, nHeight]`. -/
theorem GetAncestor_eq : ∀ (p : Nat) (ep : IndexNode) (h : Int), tree[p]? = some ep → 0 ≤ h →
    h ≤ ep.nHeight → GetAncestor tree p h = .ok (Forest.up (parent tree) (ep.nHeight - h).toNat p) := by
  intro p
  induction p using Nat.strong_induction_on with
  | _ p ih =>
    intro ep h hep h0 hle
    obtain ⟨a, hloop, ha⟩ := hwf.loop_eq hep ih h0 _ p ep ep.nHeight rfl hep rfl (Nat.le_refl p)
      (by rw [Int.sub_self, Int.toNat_zero, Forest.up_zero]) hle
    rw [GetAncestor, hep]
    simp only
    rw [dif_neg (by omega), hloop, ha]
    rfl

/-- A `pskip` points to an older entry. -/
theorem pskip_lt {i s : Nat} {e : IndexNode} (he : tree[i]? = some e) (hs : e.pskip = some s) :
    s < i := by
  cases hq : e.pprev with
  | none =>
    rw [hwf.pskip_root i e he hq] at hs
    cases hs
  | some q =>
    obtain ⟨eq, heq⟩ := hwf.pprev_getElem? he hq
    have hh := hwf.nHeight_pprev i e q eq he hq heq
    have hb := GetSkipHeight_bounds (show 1 ≤ e.nHeight by have := hwf.nHeight_nonneg q eq heq; omega)
    have hget := hwf.pskip_eq i e q he hq
    rw [hwf.GetAncestor_eq q eq _ heq hb.1 (by omega), hs] at hget
    exact Nat.lt_of_le_of_lt (hwf.up_le (Except.ok.inj hget)) (hwf.pprev_lt i e q he hq)

end WellFormed

/-- An arena whose pointers all point to older entries. -/
def Closed (tree : BlockIndexArena) : Prop :=
  ∀ (i : Nat) (e : IndexNode), tree[i]? = some e →
    (∀ q, e.pprev = some q → q < i) ∧ ∀ q, e.pskip = some q → q < i

theorem WellFormed.closed (hwf : WellFormed tree) : Closed tree := fun i e he =>
  ⟨fun q hq => hwf.pprev_lt i e q he hq, fun _ hs => hwf.pskip_lt he hs⟩

/-- The walk of `GetAncestor` from an entry reads only that entry and older ones, so entries
added after it change nothing. -/
theorem GetAncestor.loop_append {extra : BlockIndexArena} (hclosed : Closed tree) {height : Int}
    (hh : 0 ≤ height) : ∀ (n w : Nat) (heightWalk : Int), heightWalk.toNat = n →
      w < tree.length → GetAncestor.loop (tree ++ extra) height hh w heightWalk =
        GetAncestor.loop tree height hh w heightWalk := by
  intro n
  induction n using Nat.strong_induction_on with
  | _ n ih =>
    intro w heightWalk hn hw
    obtain ⟨walk, hwalk⟩ := getElem?_of_lt hw
    have hwalk' : (tree ++ extra)[w]? = some walk := by rw [List.getElem?_append_left hw, hwalk]
    by_cases hgt : height < heightWalk
    · cases hnext : GetAncestor.next walk height heightWalk with
      | error e =>
        rw [GetAncestor.loop_error hgt hwalk' hnext, GetAncestor.loop_error hgt hwalk hnext]
      | ok r =>
        obtain ⟨p, h'⟩ := r
        rw [GetAncestor.loop_step hgt hwalk' hnext, GetAncestor.loop_step hgt hwalk hnext]
        have hlt := GetAncestor.next_lt hnext (by omega)
        have hp : p < w := by
          rcases GetAncestor.next_eq_ok hnext with ⟨hs, -, -⟩ | ⟨hp, -⟩
          · exact (hclosed w walk hwalk).2 p hs
          · exact (hclosed w walk hwalk).1 p hp
        exact ih _ (by omega) p h' rfl (by omega)
    · rw [GetAncestor.loop_stop (Int.not_lt.mp hgt), GetAncestor.loop_stop (Int.not_lt.mp hgt)]

theorem GetAncestor_append {extra : BlockIndexArena} (hclosed : Closed tree) {p : Nat}
    (hp : p < tree.length) (h : Int) : GetAncestor (tree ++ extra) p h = GetAncestor tree p h := by
  obtain ⟨ep, hep⟩ := getElem?_of_lt hp
  unfold GetAncestor
  rw [List.getElem?_append_left hp, hep]
  simp only
  split_ifs
  · rfl
  · rw [GetAncestor.loop_append hclosed _ _ p ep.nHeight rfl hp]

theorem getElem?_append_singleton {l : BlockIndexArena} {a x : IndexNode} {i : Nat}
    (h : (l ++ [a])[i]? = some x) : l[i]? = some x ∨ (i = l.length ∧ x = a) := by
  by_cases hi : i < l.length
  · rw [List.getElem?_append_left hi] at h
    exact .inl h
  · rw [List.getElem?_append_right (Nat.le_of_not_lt hi)] at h
    cases hk : i - l.length with
    | zero =>
      rw [hk] at h
      exact .inr ⟨by omega, (Option.some.inj h).symm⟩
    | succ k =>
      rw [hk] at h
      cases h

/-- An entry whose `pprev` is an existing entry one lower (or that is a root at height `0`
without `pskip`), and whose `pskip` is what `BuildSkip` sets, keeps the tree well-formed. -/
theorem WellFormed.append (hwf : WellFormed tree) {e : IndexNode}
    (hpprev : ∀ p, e.pprev = some p → ∃ ep, tree[p]? = some ep ∧ e.nHeight = ep.nHeight + 1)
    (hroot : e.pprev = none → e.nHeight = 0 ∧ e.pskip = none)
    (hskip : ∀ p, e.pprev = some p → GetAncestor tree p (GetSkipHeight e.nHeight) = .ok e.pskip) :
    WellFormed (tree ++ [e]) := by
  have hold : ∀ {p : Nat} {ep : IndexNode}, tree[p]? = some ep → (tree ++ [e])[p]? = some ep :=
    fun hep => by rw [List.getElem?_append_left (lt_length_of_getElem? hep), hep]
  refine ⟨?_, ?_, ?_, ?_, ?_⟩
  · intro i e' p he' hp
    rcases getElem?_append_singleton he' with he' | ⟨rfl, rfl⟩
    · exact hwf.pprev_lt i e' p he' hp
    · obtain ⟨ep, hep, -⟩ := hpprev p hp
      exact lt_length_of_getElem? hep
  · intro i e' p ep he' hp hep'
    rcases getElem?_append_singleton he' with he' | ⟨rfl, rfl⟩
    · obtain ⟨ep₀, hep₀⟩ := hwf.pprev_getElem? he' hp
      have hh := hwf.nHeight_pprev i e' p ep₀ he' hp hep₀
      rw [hold hep₀] at hep'
      cases hep'
      exact hh
    · obtain ⟨ep₀, hep₀, hh⟩ := hpprev p hp
      rw [hold hep₀] at hep'
      cases hep'
      exact hh
  · intro i e' he' hp
    rcases getElem?_append_singleton he' with he' | ⟨rfl, rfl⟩
    · exact hwf.nHeight_root i e' he' hp
    · exact (hroot hp).1
  · intro i e' he' hp
    rcases getElem?_append_singleton he' with he' | ⟨rfl, rfl⟩
    · exact hwf.pskip_root i e' he' hp
    · exact (hroot hp).2
  · intro i e' p he' hp
    have hp' : p < tree.length := by
      rcases getElem?_append_singleton he' with he' | ⟨rfl, rfl⟩
      · exact Nat.lt_trans (hwf.pprev_lt i e' p he' hp) (lt_length_of_getElem? he')
      · obtain ⟨ep, hep, -⟩ := hpprev p hp
        exact lt_length_of_getElem? hep
    rw [GetAncestor_append hwf.closed hp']
    rcases getElem?_append_singleton he' with he' | ⟨rfl, rfl⟩
    · exact hwf.pskip_eq i e' p he' hp
    · exact hskip p hp

theorem wellFormed_nil : WellFormed [] where
  pprev_lt _ _ _ h := by simp at h
  nHeight_pprev _ _ _ _ h := by simp at h
  nHeight_root _ _ h := by simp at h
  pskip_root _ _ h := by simp at h
  pskip_eq _ _ _ h := by simp at h

/-- `AddToBlockIndex` keeps a tree well-formed. -/
theorem WellFormed.AddToBlockIndex (hwf : WellFormed tree) {pprev : Option Nat}
    {tree' : BlockIndexArena} (h : AddToBlockIndex tree pprev = .ok tree') : WellFormed tree' := by
  cases pprev with
  | none =>
    cases h
    exact hwf.append (fun _ h => by cases h) (fun _ => ⟨rfl, rfl⟩) (fun _ h => by cases h)
  | some p =>
    simp only [BlockIndexArena.AddToBlockIndex] at h
    cases hp : tree[p]? with
    | none => rw [hp] at h; cases h
    | some prev =>
      rw [hp] at h
      simp only [BuildSkip] at h
      cases hr : GetAncestor tree p (GetSkipHeight (prev.nHeight + 1)) with
      | error err => rw [hr] at h; cases h
      | ok r =>
        rw [hr] at h
        cases h
        refine hwf.append (fun q hq => ?_) (fun h => by cases h) (fun q hq => ?_)
        · cases hq
          exact ⟨prev, hp, rfl⟩
        · cases hq
          exact hr

/-- The arenas `AddToBlockIndex` builds, one entry after another, from an empty index. -/
inductive Reachable : BlockIndexArena → Prop
  | nil : Reachable []
  | add {tree tree' : BlockIndexArena} {pprev : Option Nat} :
    Reachable tree → BlockIndexArena.AddToBlockIndex tree pprev = .ok tree' → Reachable tree'

theorem Reachable.wellFormed (h : Reachable tree) : WellFormed tree := by
  induction h with
  | nil => exact wellFormed_nil
  | add _ hadd ih => exact ih.AddToBlockIndex hadd

theorem GetAncestor_eq_none {p : Nat} {ep : IndexNode} (hep : tree[p]? = some ep) {h : Int}
    (hout : h < 0 ∨ ep.nHeight < h) : GetAncestor tree p h = .ok none := by
  rw [GetAncestor, hep]
  simp only
  rw [dif_pos (by omega)]

namespace WellFormed

variable (hwf : WellFormed tree)
include hwf

/-- `GetAncestor(h)` of an entry returns its one ancestor-or-self at height `h`, and `nullptr`
outside `[0, nHeight]`; it never fails. -/
theorem GetAncestor_spec {p : Nat} {ep : IndexNode} (hep : tree[p]? = some ep) (h : Int) :
    ∃ r, GetAncestor tree p h = .ok r ∧ (r = none ↔ h < 0 ∨ ep.nHeight < h) ∧
      ∀ a, r = some a → Forest.AncestorOrSelf (parent tree) a p ∧
        (∃ ea, tree[a]? = some ea ∧ ea.nHeight = h) ∧
        ∀ a' ea', Forest.AncestorOrSelf (parent tree) a' p → tree[a']? = some ea' →
          ea'.nHeight = h → a' = a := by
  by_cases hout : h < 0 ∨ ep.nHeight < h
  · exact ⟨none, GetAncestor_eq_none hep hout, iff_of_true rfl hout, fun a ha => by cases ha⟩
  have hdp := hwf.depth_eq' hep
  obtain ⟨a, ha⟩ := (Forest.up_eq_some_iff hwf.isDepth).mpr
    (show (ep.nHeight - h).toNat ≤ depth tree p by omega)
  refine ⟨some a, by rw [hwf.GetAncestor_eq p ep h hep (by omega) (by omega), ha],
    iff_of_false (Option.some_ne_none a) hout, ?_⟩
  rintro a' ha'
  cases ha'
  obtain ⟨ea, hea⟩ := hwf.up_getElem? (lt_length_of_getElem? hep) ha
  have hd := Forest.depth_up hwf.isDepth ha
  have hda := hwf.depth_eq' hea
  refine ⟨⟨_, ha⟩, ⟨ea, hea, by omega⟩, fun a' ea' ha' hea' hh => ?_⟩
  have := hwf.depth_eq' hea'
  exact ha'.eq_of_depth_eq hwf.isDepth ⟨_, ha⟩ (by omega)

/-- `LastCommonAncestor`'s loop, from two entries of one height walked up in step `k` times
without meeting, stops at the first place where the walks meet, when its fuel reaches past the
entries' height. -/
theorem LastCommonAncestor_loop_up {x y : Nat} (hx : x < tree.length) (hy : y < tree.length)
    (hxy : depth tree x = depth tree y) : ∀ (fuel k : Nat), depth tree x < k + fuel →
      (∀ j < k, Forest.up (parent tree) j x ≠ Forest.up (parent tree) j y) →
      ∃ k', LastCommonAncestor.loop tree fuel (Forest.up (parent tree) k x)
          (Forest.up (parent tree) k y) =
          .ok (Forest.up (parent tree) k' x, Forest.up (parent tree) k' y) ∧
        Forest.up (parent tree) k' x = Forest.up (parent tree) k' y ∧
        ∀ j < k', Forest.up (parent tree) j x ≠ Forest.up (parent tree) j y := by
  intro fuel
  induction fuel with
  | zero =>
    intro k hk hmin
    -- out of fuel only past the entries' height, where both walks have run off the tree
    have hnx := Forest.up_eq_none hwf.isDepth (show depth tree x < k by omega)
    have hny := Forest.up_eq_none hwf.isDepth (show depth tree y < k by omega)
    exact ⟨k, rfl, by rw [hnx, hny], hmin⟩
  | succ fuel ih =>
    intro k hk hmin
    by_cases hkx : k ≤ depth tree x
    · obtain ⟨a, hux⟩ := (Forest.up_eq_some_iff hwf.isDepth).mpr hkx
      obtain ⟨b, huy⟩ := (Forest.up_eq_some_iff hwf.isDepth).mpr (hxy ▸ hkx)
      by_cases hab : a = b
      · refine ⟨k, ?_, by rw [hux, huy, hab], hmin⟩
        rw [hux, huy, hab]
        simp [LastCommonAncestor.loop]
      · obtain ⟨ea, hea⟩ := hwf.up_getElem? hx hux
        obtain ⟨eb, heb⟩ := hwf.up_getElem? hy huy
        have hstep : LastCommonAncestor.loop tree (fuel + 1) (some a) (some b) =
            LastCommonAncestor.loop tree fuel (Forest.up (parent tree) (k + 1) x)
              (Forest.up (parent tree) (k + 1) y) := by
          rw [Forest.up_succ', Forest.up_succ', hux, huy, Option.bind_some, Option.bind_some,
            parent_eq hea, parent_eq heb]
          simp [LastCommonAncestor.loop, hab, hea, heb]
        rw [hux, huy, hstep]
        refine ih (k + 1) (by omega) fun j hj => ?_
        rcases Nat.lt_succ_iff_lt_or_eq.mp hj with hj | rfl
        · exact hmin j hj
        · rw [hux, huy]
          exact fun h => hab (Option.some.inj h)
    · have hnx := Forest.up_eq_none hwf.isDepth (Nat.lt_of_not_le hkx)
      have hny := Forest.up_eq_none hwf.isDepth (show depth tree y < k by omega)
      refine ⟨k, ?_, by rw [hnx, hny], hmin⟩
      rw [hnx, hny]
      rfl

/-- From two entries of one height, `LastCommonAncestor`'s loop stops where the walks meet, with
both pointers equal: at the highest common ancestor, or at `nullptr` when there is no common
ancestor. -/
theorem LastCommonAncestor_loop_eq {x y : Nat} (hx : x < tree.length) (hy : y < tree.length)
    (hxy : depth tree x = depth tree y) :
    ∃ r, LastCommonAncestor.loop tree tree.length (some x) (some y) = .ok (r, r) ∧
      (∀ c, r = some c ↔ Forest.IsMeet (parent tree) c x y) ∧
      (r = none ↔ ∀ c, ¬(Forest.AncestorOrSelf (parent tree) c x ∧
        Forest.AncestorOrSelf (parent tree) c y)) := by
  -- an entry is no higher than its position, so the arena's length is fuel enough
  obtain ⟨k, hloop, hk, hmin⟩ := hwf.LastCommonAncestor_loop_up hx hy hxy tree.length 0
    (by have := hwf.depth_le x; omega) fun j hj => absurd hj (Nat.not_lt_zero j)
  have hmeet := Forest.isMeet_up_of_first hwf.isDepth hxy hk hmin
  refine ⟨Forest.up (parent tree) k x, hloop.trans (by rw [hk]), hmeet, ⟨?_, ?_⟩⟩
  · rintro hnone c ⟨hcx, hcy⟩
    obtain ⟨c', hc', -⟩ := Forest.exists_up_of_first hwf.isDepth hxy hmin hcx hcy
    rw [hnone] at hc'
    cases hc'
  · intro hnone
    cases hc : Forest.up (parent tree) k x with
    | none => rfl
    | some c =>
      obtain ⟨hcx, hcy, -⟩ := (hmeet c).mp hc
      exact absurd ⟨hcx, hcy⟩ (hnone c)

/-- **`LastCommonAncestor(pa, pb)` returns the highest common ancestor** of two entries, and
`nullptr` exactly when they are in different trees; it never fails its assertion. -/
theorem LastCommonAncestor_eq {pa pb : Nat} (ha : pa < tree.length) (hb : pb < tree.length) :
    ∃ r, LastCommonAncestor tree pa pb = .ok r ∧
      (∀ c, r = some c ↔ Forest.IsMeet (parent tree) c pa pb) ∧
      (r = none ↔ ∀ c, ¬(Forest.AncestorOrSelf (parent tree) c pa ∧
        Forest.AncestorOrSelf (parent tree) c pb)) := by
  have hloop : ∀ x y, x < tree.length → y < tree.length → depth tree x = depth tree y →
      (∀ c, Forest.AncestorOrSelf (parent tree) c x ∧ Forest.AncestorOrSelf (parent tree) c y ↔
        Forest.AncestorOrSelf (parent tree) c pa ∧ Forest.AncestorOrSelf (parent tree) c pb) →
      ∃ r, LastCommonAncestor.loop tree tree.length (some x) (some y) = .ok (r, r) ∧
        (∀ c, r = some c ↔ Forest.IsMeet (parent tree) c pa pb) ∧
        (r = none ↔ ∀ c, ¬(Forest.AncestorOrSelf (parent tree) c pa ∧
          Forest.AncestorOrSelf (parent tree) c pb)) := by
    intro x y hx hy hxy hcommon
    obtain ⟨r, hr, hmeet, hnone⟩ := hwf.LastCommonAncestor_loop_eq hx hy hxy
    exact ⟨r, hr, fun c => (hmeet c).trans (Forest.isMeet_congr hcommon c),
      hnone.trans (forall_congr' fun c => not_congr (hcommon c))⟩
  obtain ⟨ea, hea⟩ := getElem?_of_lt ha
  obtain ⟨eb, heb⟩ := getElem?_of_lt hb
  have hda := hwf.depth_eq' hea
  have hdb := hwf.depth_eq' heb
  unfold LastCommonAncestor
  rw [hea, heb]
  simp only
  split_ifs with h₁ h₂
  · obtain ⟨x, hx⟩ := (Forest.up_eq_some_iff hwf.isDepth).mpr
      (show (ea.nHeight - eb.nHeight).toNat ≤ depth tree pa by omega)
    have hdx := Forest.depth_up hwf.isDepth hx
    obtain ⟨r, hr, hspec⟩ := hloop x pb (Nat.lt_of_le_of_lt (hwf.up_le hx) ha) hb (by omega)
      fun c => Forest.common_iff_of_ancestor hwf.isDepth ⟨_, hx⟩ (by omega)
    refine ⟨r, ?_, hspec⟩
    rw [hwf.GetAncestor_eq pa ea _ hea (hdb ▸ Int.natCast_nonneg _) (by omega), hx]
    simp [hr]
    rfl
  · obtain ⟨y, hy⟩ := (Forest.up_eq_some_iff hwf.isDepth).mpr
      (show (eb.nHeight - ea.nHeight).toNat ≤ depth tree pb by omega)
    have hdy := Forest.depth_up hwf.isDepth hy
    obtain ⟨r, hr, hspec⟩ := hloop pa y ha (Nat.lt_of_le_of_lt (hwf.up_le hy) hb) (by omega)
      fun c => and_comm.trans ((Forest.common_iff_of_ancestor hwf.isDepth ⟨_, hy⟩
        (by omega)).trans and_comm)
    refine ⟨r, ?_, hspec⟩
    rw [hwf.GetAncestor_eq pb eb _ heb (hda ▸ Int.natCast_nonneg _) (by omega), hy]
    simp [hr]
    rfl
  · obtain ⟨r, hr, hspec⟩ := hloop pa pb ha hb (by omega) fun c => Iff.rfl
    refine ⟨r, ?_, hspec⟩
    simp [hr]
    rfl

end WellFormed

theorem GetAncestor_LastCommonAncestor_correct (tree : BlockIndexArena) (hwf : WellFormed tree) :
    (∀ (p : Nat) (ep : IndexNode) (h : Int), tree[p]? = some ep →
      ∃ r, GetAncestor tree p h = .ok r ∧ (r = none ↔ h < 0 ∨ ep.nHeight < h) ∧
        ∀ a, r = some a → Forest.AncestorOrSelf (parent tree) a p ∧
          (∃ ea, tree[a]? = some ea ∧ ea.nHeight = h) ∧
          ∀ a' ea', Forest.AncestorOrSelf (parent tree) a' p → tree[a']? = some ea' →
            ea'.nHeight = h → a' = a) ∧
    ∀ pa pb, pa < tree.length → pb < tree.length →
      ∃ r, LastCommonAncestor tree pa pb = .ok r ∧
        (∀ c, r = some c ↔ Forest.IsMeet (parent tree) c pa pb) ∧
        (r = none ↔ ∀ c, ¬(Forest.AncestorOrSelf (parent tree) c pa ∧
          Forest.AncestorOrSelf (parent tree) c pb)) :=
  ⟨fun _ _ h hep => hwf.GetAncestor_spec hep h, fun _ _ ha hb => hwf.LastCommonAncestor_eq ha hb⟩

/-- A genesis block with two blocks on top of it: their highest common ancestor is the genesis
block. -/
theorem GetAncestor_LastCommonAncestor_correct_fork :
    Forest.IsMeet (parent [⟨0, none, none⟩, ⟨1, some 0, some 0⟩, ⟨1, some 0, some 0⟩]) 0 1 2 := by
  have h₀ : BlockIndexArena.AddToBlockIndex [] none = .ok [⟨0, none, none⟩] := rfl
  have hadd : ∀ t : BlockIndexArena, t[0]? = some ⟨0, none, none⟩ →
      BlockIndexArena.AddToBlockIndex t (some 0) = .ok (t ++ [⟨1, some 0, some 0⟩]) := by
    intro t ht
    simp [BlockIndexArena.AddToBlockIndex, BuildSkip, GetAncestor, ht, GetSkipHeight,
      GetAncestor.loop_stop]
  have hwf : WellFormed [⟨0, none, none⟩, ⟨1, some 0, some 0⟩, ⟨1, some 0, some 0⟩] :=
    (Reachable.add (Reachable.add (Reachable.add .nil h₀) (hadd _ rfl)) (hadd _ rfl)).wellFormed
  obtain ⟨r, hr, hmeet, -⟩ :=
    (GetAncestor_LastCommonAncestor_correct _ hwf).2 1 2 (by decide) (by decide)
  have hr₀ : LastCommonAncestor [⟨0, none, none⟩, ⟨1, some 0, some 0⟩, ⟨1, some 0, some 0⟩] 1 2 =
      .ok (some 0) := rfl
  rw [hr₀] at hr
  exact (hmeet 0).mp (Except.ok.inj hr).symm

end BlockIndexArena

end NowpConsensus
