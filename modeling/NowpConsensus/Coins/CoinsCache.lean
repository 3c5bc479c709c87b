import NowpConsensus.Coins.CoinsView
import NowpConsensus.Lib.Map

/-!
# The layered coins cache

`CCoinsViewCache` of `coins.cpp` as the code keeps it: a map `cacheCoins` from outpoints to
entries, each a coin with a `DIRTY` and a `FRESH` flag, over a parent view, itself a cache or the
coins database. `CoinsView.lean` models a view by the coins it shows; this module models a stack
of caches over the database, every operation of the simulation of `coins_tests.cpp` on it, and
proves that the stack shows, at its top, exactly the coins of that one view.

A cache entry is `DIRTY` when it may differ from what the parent shows, and `FRESH` when the
parent shows no unspent coin there, so that spending it may drop it instead of recording the
spend. The invariant of a layer (`EntryInv`) relates each entry to what the layers below show:
a clean entry shows what they show, a `FRESH` one stands over no unspent coin, and a spent one
holds the cleared coin. The layers below a `FRESH` entry may still hold an unspent coin under a
spent `DIRTY` entry; what they show is what matters, and it is enough for `BatchWrite` never to
find a `FRESH` entry over an unspent one.

* `CoinsStack.FetchCoin_spec`, `CoinsStack.GetCoin_spec`: reads pull entries into the layers and
  change no layer's view;
* `CoinsStack.BatchWrite_spec`: a flush into a parent cache never throws and leaves the parent
  showing what the child showed;
* `CoinsStack.Refines.apply`: every operation the single view allows succeeds on the stack and
  keeps the stack refining the view;
* `CoinsStack.Reachable.refines`: so every stack reached from the database does, and its top
  answers `AccessCoin` and `HaveCoin` as the view does.
-/

namespace NowpConsensus

/-- `CCoinsCacheEntry`: a cached coin and its flags. -/
structure CCoinsCacheEntry where
  coin : Coin
  /-- `DIRTY`: the entry may differ from what the parent shows. -/
  dirty : Bool
  /-- `FRESH`: the parent shows no unspent coin at the outpoint. -/
  fresh : Bool
  deriving DecidableEq, Repr

namespace CCoinsCacheEntry

/-- The coin the entry shows: its coin, unless it is spent. -/
def shown (e : CCoinsCacheEntry) : Option Coin := if e.coin.isSpent then none else some e.coin

end CCoinsCacheEntry

/-- `CCoinsMap`: a cache's entries by outpoint, iterated in the order of the list. -/
abbrev CCoinsMap := AList fun _ : COutPoint => CCoinsCacheEntry

namespace CoinsCache

/-- `CCoinsViewCache::FetchCoin` of a cache holding `cacheCoins` over a parent `base`, which
`GetCoinBase` reads: the cache's entry, else the parent's coin brought into the cache. -/
def FetchCoin {β : Type} (cacheCoins : CCoinsMap) (GetCoinBase : COutPoint → Option Coin × β)
    (base : β) (outpoint : COutPoint) : Option CCoinsCacheEntry × CCoinsMap × β :=
  match cacheCoins.lookup outpoint with
  | some e => (some e, cacheCoins, base)
  | none =>
    match GetCoinBase outpoint with
    | (none, base) => (none, cacheCoins, base)
    | (some tmp, base) =>
      let e : CCoinsCacheEntry := ⟨tmp, false, tmp.isSpent⟩
      (some e, cacheCoins.insert outpoint e, base)

/-- `CCoinsViewCache::AddCoin(outpoint, coin, possible_overwrite, skipZeroValue)` on the cache's
entries. -/
def AddCoin (cacheCoins : CCoinsMap) (outpoint : COutPoint) (coin : Coin)
    (possible_overwrite skipZeroValue : Bool) : Except Abort CCoinsMap :=
  if coin.isSpent then .error .assertion
  else if coin.out.scriptPubKey.isUnspendable then .ok cacheCoins
  -- nowp: an output of value zero is not added when asked
  else if coin.out.nValue == 0 && skipZeroValue then .ok cacheCoins
  else
    let it := (cacheCoins.lookup outpoint).getD ⟨coinEmpty, false, false⟩
    if !possible_overwrite && !it.coin.isSpent then
      .error (.exception "Attempted to overwrite an unspent coin (when possible_overwrite is false)")
    else
      -- a coin re-added over a spent entry whose spend is not yet flushed cannot be fresh
      let fresh := !possible_overwrite && !it.dirty
      .ok (cacheCoins.insert outpoint ⟨coin, true, it.fresh || fresh⟩)

/-- `CCoinsViewCache::Uncache`: an entry with no flag is dropped. -/
def Uncache (cacheCoins : CCoinsMap) (hash : COutPoint) : CCoinsMap :=
  match cacheCoins.lookup hash with
  | some e => if !e.dirty && !e.fresh then cacheCoins.erase hash else cacheCoins
  | none => cacheCoins

/-- The body of `CCoinsViewCache::BatchWrite` for the child's entry `it` at an outpoint where the
parent holds `itUs`: the parent's entry there afterwards, or the logic error. -/
def BatchWrite.entry (itUs : Option CCoinsCacheEntry) (it : CCoinsCacheEntry) :
    Except Abort (Option CCoinsCacheEntry) :=
  if !it.dirty then .ok itUs
  else match itUs with
  | none =>
    if it.fresh && it.coin.isSpent then .ok none
    else .ok (some ⟨it.coin, true, it.fresh⟩)
  | some us =>
    if it.fresh && !us.coin.isSpent then
      .error (.exception "FRESH flag misapplied to coin that exists in parent cache")
    else if us.fresh && it.coin.isSpent then .ok none
    else .ok (some ⟨it.coin, true, us.fresh⟩)

/-- `CCoinsViewCache::BatchWrite(mapCoins)` of a parent holding `cacheCoins`: the loop over the
child's entries, each setting the parent's entry at its outpoint. -/
def BatchWrite (cacheCoins mapCoins : CCoinsMap) : Except Abort CCoinsMap :=
  mapCoins.entries.foldlM
    (fun cacheCoins it => (BatchWrite.entry (cacheCoins.lookup it.1) it.2).map
      (cacheCoins.setOpt it.1))
    cacheCoins

end CoinsCache

namespace CCoinsViewDB

/-- `CCoinsViewDB::BatchWrite(mapCoins)`: one database batch erasing the spent dirty entries and
writing the unspent ones. -/
def BatchWrite (db : COutPoint → Option Coin) (mapCoins : CCoinsMap) : COutPoint → Option Coin :=
  FunMap.writeAll db ((mapCoins.entries.filter (·.2.dirty)).map fun it => (it.1, it.2.shown))

end CCoinsViewDB

/-- A stack of caches over the coins database: the caches' entries, the top cache first, and the
coins the database holds. The memory accounting and the best block are left out. -/
structure CoinsStack where
  caches : List CCoinsMap
  db : COutPoint → Option Coin

namespace CoinsStack

/-- `GetCoin` of the view made of the caches `caches` over the database: `CCoinsViewDB::GetCoin`
with no cache, else `CCoinsViewCache::GetCoin` of the top cache, whose `FetchCoin` reads the rest
of the stack. It returns the unspent coin found, if any, and the caches. -/
def GetCoin (db : COutPoint → Option Coin) :
    List CCoinsMap → COutPoint → Option Coin × List CCoinsMap
  | [], outpoint => (db outpoint, [])
  | cacheCoins :: below, outpoint =>
    match CoinsCache.FetchCoin cacheCoins (GetCoin db below) below outpoint with
    | (some e, cacheCoins, below) => (if e.coin.isSpent then none else some e.coin, cacheCoins :: below)
    | (none, cacheCoins, below) => (none, cacheCoins :: below)

/-- `CCoinsViewCache::AccessCoin` of the top cache: the coin of its entry, or `coinEmpty`. -/
def AccessCoin (db : COutPoint → Option Coin) (cacheCoins : CCoinsMap) (below : List CCoinsMap)
    (outpoint : COutPoint) : Coin × List CCoinsMap :=
  match CoinsCache.FetchCoin cacheCoins (GetCoin db below) below outpoint with
  | (some e, cacheCoins, below) => (e.coin, cacheCoins :: below)
  | (none, cacheCoins, below) => (coinEmpty, cacheCoins :: below)

/-- `CCoinsViewCache::HaveCoin` of the top cache. -/
def HaveCoin (db : COutPoint → Option Coin) (cacheCoins : CCoinsMap) (below : List CCoinsMap)
    (outpoint : COutPoint) : Bool × List CCoinsMap :=
  match CoinsCache.FetchCoin cacheCoins (GetCoin db below) below outpoint with
  | (some e, cacheCoins, below) => (!e.coin.isSpent, cacheCoins :: below)
  | (none, cacheCoins, below) => (false, cacheCoins :: below)

/-- `CCoinsViewCache::SpendCoin(outpoint, &moveout)` of the top cache: the coin moved out (`none`
where the source returns `false`), and the caches. A fresh entry is dropped; any other is
cleared and marked dirty. -/
def SpendCoin (db : COutPoint → Option Coin) (cacheCoins : CCoinsMap) (below : List CCoinsMap)
    (outpoint : COutPoint) : Option Coin × List CCoinsMap :=
  match CoinsCache.FetchCoin cacheCoins (GetCoin db below) below outpoint with
  | (none, cacheCoins, below) => (none, cacheCoins :: below)
  | (some e, cacheCoins, below) =>
    if e.fresh then (some e.coin, cacheCoins.erase outpoint :: below)
    else (some e.coin, cacheCoins.insert outpoint { e with coin := coinEmpty, dirty := true } :: below)

/-- `CCoinsViewCache::Flush` of the cache `k` from the top: its entries written into its parent,
the next cache or the database, and the cache emptied. -/
def Flush (db : COutPoint → Option Coin) :
    Nat → List CCoinsMap → Except Abort (List CCoinsMap × (COutPoint → Option Coin))
  | 0, [cacheCoins] => .ok ([∅], CCoinsViewDB.BatchWrite db cacheCoins)
  | 0, cacheCoins :: parent :: rest => do
    let parent ← CoinsCache.BatchWrite parent cacheCoins
    pure (∅ :: parent :: rest, db)
  | k + 1, cacheCoins :: rest => do
    let (rest, db) ← Flush db k rest
    pure (cacheCoins :: rest, db)
  | _, [] => .error .outOfRange

/-- The operations of the simulation: on the top cache, on the cache `layer` from the top, or on
the stack itself. -/
inductive CoinsOp
  | AddCoin (outpoint : COutPoint) (coin : Coin) (possible_overwrite skipZeroValue : Bool)
  | SpendCoin (outpoint : COutPoint)
  | AccessCoin (outpoint : COutPoint)
  | HaveCoin (outpoint : COutPoint)
  | Uncache (layer : Nat) (outpoint : COutPoint)
  | Flush (layer : Nat)
  /-- A new empty cache over the top. -/
  | Push
  /-- The top cache flushed and removed. -/
  | Pop

/-- One operation on the stack; `stack.back()` or `stack[k]` past the end stops the run. -/
def apply (s : CoinsStack) : CoinsOp → Except Abort CoinsStack
  | .AddCoin outpoint coin possible_overwrite skipZeroValue =>
    match s.caches with
    | [] => .error .outOfRange
    | cacheCoins :: below => do
      let cacheCoins ←
        CoinsCache.AddCoin cacheCoins outpoint coin possible_overwrite skipZeroValue
      pure { s with caches := cacheCoins :: below }
  | .SpendCoin outpoint =>
    match s.caches with
    | [] => .error .outOfRange
    | cacheCoins :: below => pure { s with caches := (SpendCoin s.db cacheCoins below outpoint).2 }
  | .AccessCoin outpoint =>
    match s.caches with
    | [] => .error .outOfRange
    | cacheCoins :: below => pure { s with caches := (AccessCoin s.db cacheCoins below outpoint).2 }
  | .HaveCoin outpoint =>
    match s.caches with
    | [] => .error .outOfRange
    | cacheCoins :: below => pure { s with caches := (HaveCoin s.db cacheCoins below outpoint).2 }
  | .Uncache layer outpoint =>
    match s.caches[layer]? with
    | none => .error .outOfRange
    | some cacheCoins => pure { s with caches := s.caches.set layer (CoinsCache.Uncache cacheCoins outpoint) }
  | .Flush layer => do
    let (caches, db) ← Flush s.db layer s.caches
    pure ⟨caches, db⟩
  | .Push => pure { s with caches := ∅ :: s.caches }
  | .Pop => do
    let (caches, db) ← Flush s.db 0 s.caches
    pure ⟨caches.tail, db⟩

end CoinsStack

namespace CCoinsViewCache

/-- The operations of the simulation on the single view: `AddCoin` and `SpendCoin` change its
coins, the others leave it. -/
def applyOp (view : CCoinsViewCache) : CoinsStack.CoinsOp → Except Abort CCoinsViewCache
  | .AddCoin outpoint coin possible_overwrite skipZeroValue =>
    view.AddCoin outpoint coin possible_overwrite skipZeroValue
  | .SpendCoin outpoint => .ok (view.SpendCoin outpoint).2
  | _ => .ok view

end CCoinsViewCache

/-! ## What a stack shows, and the invariant of its layers -/

namespace CoinsStack

/-- What a layer shows at an outpoint over the coin `below` the layers under it show: its entry's
coin, unless spent, or with no entry, `below`. -/
def shownOver (below : Option Coin) : Option CCoinsCacheEntry → Option Coin
  | some e => e.shown
  | none => below

/-- The coin the caches `caches` over the database show at an outpoint. -/
def coins (db : COutPoint → Option Coin) : List CCoinsMap → COutPoint → Option Coin
  | [], outpoint => db outpoint
  | cacheCoins :: below, outpoint => shownOver (coins db below outpoint) (cacheCoins.lookup outpoint)

/-- The invariant of a cache entry over the coin `below` that the layers under it show: a clean
entry shows that coin, a fresh one stands over no unspent coin, and a spent one holds the
cleared coin. -/
structure EntryInv (below : Option Coin) (e : CCoinsCacheEntry) : Prop where
  clean : e.dirty = false → e.shown = below
  fresh : e.fresh = true → below = none
  cleared : e.coin.isSpent = true → e.coin = coinEmpty

/-- The invariant of a stack: the database holds only unspent coins, and every entry of every
cache keeps `EntryInv` over what the layers under its cache show. -/
def LayersInv (db : COutPoint → Option Coin) : List CCoinsMap → Prop
  | [] => ∀ o c, db o = some c → c.isSpent = false
  | cacheCoins :: below =>
    LayersInv db below ∧ ∀ o e, cacheCoins.lookup o = some e → EntryInv (coins db below o) e

variable {db db' : COutPoint → Option Coin}

theorem coinEmpty_isSpent : coinEmpty.isSpent = true := rfl

@[simp]
theorem shown_of_isSpent {e : CCoinsCacheEntry} (h : e.coin.isSpent = true) : e.shown = none := by
  simp [CCoinsCacheEntry.shown, h]

@[simp]
theorem shown_of_not_isSpent {e : CCoinsCacheEntry} (h : e.coin.isSpent = false) :
    e.shown = some e.coin := by
  simp [CCoinsCacheEntry.shown, h]

theorem coins_cons (c : CCoinsMap) (below : List CCoinsMap) (o : COutPoint) :
    coins db (c :: below) o = shownOver (coins db below o) (c.lookup o) := rfl

/-- A stack shows only unspent coins. -/
theorem LayersInv.coins_unspent :
    ∀ {l : List CCoinsMap}, LayersInv db l → ∀ {o c}, coins db l o = some c → c.isSpent = false
  | [], h, _, _, hc => h _ _ hc
  | c :: below, h, o, coin, hc => by
    rw [coins_cons] at hc
    cases hl : c.lookup o with
    | none =>
      rw [hl] at hc
      exact h.1.coins_unspent hc
    | some e =>
      rw [hl] at hc
      simp only [shownOver, CCoinsCacheEntry.shown] at hc
      split at hc
      · cases hc
      · rename_i hs
        cases hc
        simpa using hs

/-- Replacing the layers under a cache by layers that keep the invariant and show the same coins
keeps the invariant and what the cache shows. -/
theorem LayersInv.cons_congr {c : CCoinsMap} {below below' : List CCoinsMap}
    (h : LayersInv db (c :: below)) (hinv : LayersInv db' below')
    (hcoins : ∀ o, coins db' below' o = coins db below o) :
    LayersInv db' (c :: below') ∧ ∀ o, coins db' (c :: below') o = coins db (c :: below) o :=
  ⟨⟨hinv, fun o e he => hcoins o ▸ h.2 o e he⟩, fun o => by rw [coins_cons, coins_cons, hcoins]⟩

/-- An entry written at `o` is what the cache then shows there. -/
theorem coins_insert_self (c : CCoinsMap) (below : List CCoinsMap) (o : COutPoint)
    (e : CCoinsCacheEntry) : coins db (c.insert o e :: below) o = e.shown := by
  rw [coins_cons, AList.lookup_insert, shownOver]

/-- With its entry at `o` dropped, a cache shows there what the caches under it show. -/
theorem coins_erase_self (c : CCoinsMap) (below : List CCoinsMap) (o : COutPoint) :
    coins db (c.erase o :: below) o = coins db below o := by
  rw [coins_cons, AList.lookup_erase, shownOver]

/-- Writing at `o` an entry that keeps `EntryInv` keeps the invariant, and what the cache shows
at every other outpoint. -/
theorem LayersInv.insert {c : CCoinsMap} {below : List CCoinsMap} {o : COutPoint}
    {e : CCoinsCacheEntry} (h : LayersInv db (c :: below)) (he : EntryInv (coins db below o) e) :
    LayersInv db (c.insert o e :: below) ∧
      ∀ o', o' ≠ o → coins db (c.insert o e :: below) o' = coins db (c :: below) o' := by
  refine ⟨⟨h.1, fun o' e' he' => ?_⟩, fun o' ho => by
    rw [coins_cons, coins_cons, AList.lookup_insert_ne ho]⟩
  by_cases ho : o' = o
  · subst ho
    simp only [AList.lookup_insert, Option.some.injEq] at he'
    exact he' ▸ he
  · rw [AList.lookup_insert_ne ho] at he'
    exact h.2 o' e' he'

/-- Dropping the entry at `o` keeps the invariant, and what the cache shows at every other
outpoint. -/
theorem LayersInv.erase {c : CCoinsMap} {below : List CCoinsMap} (h : LayersInv db (c :: below))
    (o : COutPoint) :
    LayersInv db (c.erase o :: below) ∧
      ∀ o', o' ≠ o → coins db (c.erase o :: below) o' = coins db (c :: below) o' := by
  refine ⟨⟨h.1, fun o' e' he' => ?_⟩, fun o' ho => by
    rw [coins_cons, coins_cons, AList.lookup_erase_ne ho]⟩
  by_cases ho : o' = o
  · subst ho
    simp at he'
  · rw [AList.lookup_erase_ne ho] at he'
    exact h.2 o' e' he'

/-! ## Reads -/

/-- What a read of the stack does: it returns the coin the stack shows and leaves caches that keep
the invariant and show the same coins. -/
def GetCoinSpec (db : COutPoint → Option Coin) (l : List CCoinsMap) : Prop :=
  ∀ o, ∃ l', GetCoin db l o = (coins db l o, l') ∧ LayersInv db l' ∧
    ∀ o', coins db l' o' = coins db l o'

/-- **`FetchCoin` keeps the invariant and what every layer shows**: it returns the cache's entry
after the fetch, and with none, the layers under it show no coin. -/
theorem FetchCoin_spec {c : CCoinsMap} {below : List CCoinsMap} (h : LayersInv db (c :: below))
    (hget : GetCoinSpec db below) (o : COutPoint) :
    ∃ c' below', CoinsCache.FetchCoin c (GetCoin db below) below o = (c'.lookup o, c', below') ∧
      LayersInv db (c' :: below') ∧ (∀ o', coins db (c' :: below') o' = coins db (c :: below) o') ∧
      (c'.lookup o = none → coins db below' o = none) := by
  unfold CoinsCache.FetchCoin
  cases hl : c.lookup o with
  | some e => exact ⟨c, below, by simp [hl], h, fun _ => rfl, by simp [hl]⟩
  | none =>
    obtain ⟨below', hg, hinv', hcoins⟩ := hget o
    have hcongr := h.cons_congr hinv' hcoins
    simp only [hg]
    cases hv : coins db below o with
    | none =>
      exact ⟨c, below', by simp [hl], hcongr.1, hcongr.2, fun _ => by rw [hcoins, hv]⟩
    | some tmp =>
      have htmp : tmp.isSpent = false := h.1.coins_unspent hv
      have hentry : EntryInv (coins db below' o) ⟨tmp, false, tmp.isSpent⟩ :=
        ⟨fun _ => by rw [shown_of_not_isSpent htmp, hcoins, hv], fun hf => by simp [htmp] at hf,
          fun hs => by simp [htmp] at hs⟩
      obtain ⟨hinv'', hother⟩ := hcongr.1.insert hentry
      refine ⟨c.insert o ⟨tmp, false, tmp.isSpent⟩, below', by simp, hinv'', fun o' => ?_, by simp⟩
      by_cases ho : o' = o
      · subst ho
        rw [coins_insert_self, coins_cons, hl, shown_of_not_isSpent htmp, shownOver, hv]
      · rw [hother o' ho]
        exact hcongr.2 o'

/-- **A read returns what the stack shows**, and keeps the invariant and what every layer shows. -/
theorem GetCoin_spec : ∀ {l : List CCoinsMap}, LayersInv db l → GetCoinSpec db l
  | [], h => fun _ => ⟨[], rfl, h, fun _ => rfl⟩
  | c :: below, h => fun o => by
    obtain ⟨c', below', hf, hinv, hcoins, hnone⟩ := FetchCoin_spec h (GetCoin_spec h.1) o
    refine ⟨c' :: below', ?_, hinv, hcoins⟩
    rw [GetCoin, hf, ← hcoins o, coins_cons]
    cases hl : c'.lookup o with
    | some e => simp [shownOver, CCoinsCacheEntry.shown]
    | none => simp [shownOver, hnone hl]

/-- **`AccessCoin` answers what the stack shows**, `coinEmpty` for no coin, and keeps the
invariant and what every layer shows. -/
theorem AccessCoin_spec {c : CCoinsMap} {below : List CCoinsMap} (h : LayersInv db (c :: below))
    (o : COutPoint) :
    ∃ l', AccessCoin db c below o = ((coins db (c :: below) o).getD coinEmpty, l') ∧
      LayersInv db l' ∧ ∀ o', coins db l' o' = coins db (c :: below) o' := by
  obtain ⟨c', below', hf, hinv, hcoins, hnone⟩ := FetchCoin_spec h (GetCoin_spec h.1) o
  refine ⟨c' :: below', ?_, hinv, hcoins⟩
  rw [AccessCoin, hf, ← hcoins o, coins_cons]
  cases hl : c'.lookup o with
  | some e =>
    have he := hinv.2 o e hl
    cases hs : e.coin.isSpent
    · simp [shownOver, hs]
    · rw [shownOver, shown_of_isSpent hs, Option.getD_none]
      simp only [he.cleared hs]
  | none => simp [shownOver, hnone hl]

/-- **`HaveCoin` answers whether the stack shows a coin**, and keeps the invariant and what
every layer shows. -/
theorem HaveCoin_spec {c : CCoinsMap} {below : List CCoinsMap} (h : LayersInv db (c :: below))
    (o : COutPoint) :
    ∃ l', HaveCoin db c below o = ((coins db (c :: below) o).isSome, l') ∧
      LayersInv db l' ∧ ∀ o', coins db l' o' = coins db (c :: below) o' := by
  obtain ⟨c', below', hf, hinv, hcoins, hnone⟩ := FetchCoin_spec h (GetCoin_spec h.1) o
  refine ⟨c' :: below', ?_, hinv, hcoins⟩
  rw [HaveCoin, hf, ← hcoins o, coins_cons]
  cases hl : c'.lookup o with
  | some e =>
    cases hs : e.coin.isSpent
    · simp [shownOver, hs]
    · simp [shownOver, hs]
  | none => simp [shownOver, hnone hl]

/-- **`SpendCoin` removes the coin the stack shows**, and keeps the invariant and what the other
outpoints show. -/
theorem SpendCoin_spec {c : CCoinsMap} {below : List CCoinsMap} (h : LayersInv db (c :: below))
    (o : COutPoint) :
    ∃ l', (SpendCoin db c below o).2 = l' ∧ LayersInv db l' ∧
      ∀ o', coins db l' o' = Function.update (coins db (c :: below)) o none o' := by
  obtain ⟨c', below', hf, hinv, hcoins, hnone⟩ := FetchCoin_spec h (GetCoin_spec h.1) o
  unfold SpendCoin
  rw [hf]
  cases hl : c'.lookup o with
  | none =>
    refine ⟨_, rfl, hinv, fun o' => ?_⟩
    by_cases ho : o' = o
    · subst ho
      rw [Function.update_self, coins_cons, hl, shownOver, hnone hl]
    · rw [Function.update_of_ne ho, hcoins]
  | some e =>
    have he := hinv.2 o e hl
    dsimp only
    split_ifs with hfresh
    · obtain ⟨hinv', hother⟩ := hinv.erase o
      refine ⟨_, rfl, hinv', fun o' => ?_⟩
      by_cases ho : o' = o
      · subst ho
        rw [Function.update_self, coins_erase_self, he.fresh hfresh]
      · rw [Function.update_of_ne ho, hother o' ho, hcoins]
    · have hentry : EntryInv (coins db below' o) { e with coin := coinEmpty, dirty := true } :=
        ⟨fun hd => (by cases hd), fun hf => absurd hf hfresh, fun _ => rfl⟩
      obtain ⟨hinv', hother⟩ := hinv.insert hentry
      refine ⟨_, rfl, hinv', fun o' => ?_⟩
      by_cases ho : o' = o
      · subst ho
        rw [Function.update_self, coins_insert_self, shown_of_isSpent coinEmpty_isSpent]
      · rw [Function.update_of_ne ho, hother o' ho, hcoins]

/-! ## Writes to the top cache -/

section AddCoin

variable {outpoint : COutPoint} {coin : Coin} {possible_overwrite skipZeroValue : Bool}
  {a a' : CCoinsViewCache}

/-- A coin the view's `AddCoin` accepts is unspent. -/
theorem isSpent_of_AddCoin (ha : a.AddCoin outpoint coin possible_overwrite skipZeroValue = .ok a') :
    coin.isSpent = false := by
  by_contra hs
  rw [CCoinsViewCache.AddCoin, dif_pos (by simpa using hs)] at ha
  cases ha

/-- Where the view's `AddCoin` stores a coin it may not overwrite, the view shows no coin. -/
theorem coins_eq_none_of_AddCoin (ha : a.AddCoin outpoint coin false skipZeroValue = .ok a')
    (hst : CCoinsViewCache.stores coin skipZeroValue = true) : a.coins outpoint = none := by
  by_contra hne
  obtain ⟨c, hc⟩ := Option.ne_none_iff_exists'.1 hne
  have herr := CCoinsViewCache.AddCoin_eq_error.2 (Or.inr
    ⟨isSpent_of_AddCoin ha, hst, rfl, CCoinsViewCache.HaveCoin_iff.2 ⟨c, hc⟩, rfl⟩)
  rw [ha] at herr
  cases herr

/-- **`AddCoin` on the top cache does what it does on the view**: when the view's `AddCoin`
returns, the cache's does too (it finds no unspent coin it may not overwrite), and the stack then
shows the view's coins and keeps the invariant. -/
theorem AddCoin_spec {c : CCoinsMap} {below : List CCoinsMap} (h : LayersInv db (c :: below))
    (hcoins : ∀ o, coins db (c :: below) o = a.coins o)
    (ha : a.AddCoin outpoint coin possible_overwrite skipZeroValue = .ok a') :
    ∃ c', CoinsCache.AddCoin c outpoint coin possible_overwrite skipZeroValue = .ok c' ∧
      LayersInv db (c' :: below) ∧ ∀ o, coins db (c' :: below) o = a'.coins o := by
  obtain ⟨ha', -⟩ := CCoinsViewCache.AddCoin_eq_ok ha
  have hspent := isSpent_of_AddCoin ha
  unfold CoinsCache.AddCoin
  rw [if_neg (by simp [hspent])]
  by_cases hu : coin.out.scriptPubKey.isUnspendable = true
  · have hst : CCoinsViewCache.stores coin skipZeroValue = false := by
      simp [CCoinsViewCache.stores, hu]
    exact ⟨c, by rw [if_pos hu], h, fun o => by rw [ha', if_neg (by simp [hst]), hcoins]⟩
  rw [if_neg hu]
  by_cases hz : (coin.out.nValue == 0 && skipZeroValue) = true
  · have hst : CCoinsViewCache.stores coin skipZeroValue = false := by
      simp [CCoinsViewCache.stores, hz]
    exact ⟨c, by rw [if_pos hz], h, fun o => by rw [ha', if_neg (by simp [hst]), hcoins]⟩
  rw [if_neg hz]
  have hst : CCoinsViewCache.stores coin skipZeroValue = true := by
    simp [CCoinsViewCache.stores, hu, hz]
  set it := (c.lookup outpoint).getD ⟨coinEmpty, false, false⟩ with hit
  have hnone : possible_overwrite = false → coins db (c :: below) outpoint = none := fun hpo =>
    (hcoins outpoint).trans (coins_eq_none_of_AddCoin (hpo ▸ ha) hst)
  have hitSpent : possible_overwrite = false → it.coin.isSpent = true := by
    intro hpo
    have hv := hnone hpo
    rw [coins_cons] at hv
    cases hl : c.lookup outpoint with
    | none => rw [hit, hl]; rfl
    | some e =>
      rw [hl, shownOver] at hv
      rw [hit, hl, Option.getD_some]
      by_contra hs
      rw [shown_of_not_isSpent (by simpa using hs)] at hv
      cases hv
  have hthrow : ¬(!possible_overwrite && !it.coin.isSpent) = true := by
    cases hpo : possible_overwrite
    · simp [hitSpent hpo]
    · simp
  rw [if_neg hthrow]
  have hfresh : (it.fresh || (!possible_overwrite && !it.dirty)) = true →
      coins db below outpoint = none := by
    intro hf
    cases hl : c.lookup outpoint with
    | none =>
      have hpo : possible_overwrite = false := by simpa [hit, hl] using hf
      have hv := hnone hpo
      rwa [coins_cons, hl, shownOver] at hv
    | some e =>
      have he := h.2 outpoint e hl
      simp only [hit, hl, Option.getD_some, Bool.or_eq_true, Bool.and_eq_true,
        Bool.not_eq_eq_eq_not, Bool.not_true] at hf
      rcases hf with hf | ⟨hpo, hd⟩
      · exact he.fresh hf
      · have hv := hnone hpo
        rw [coins_cons, hl, shownOver] at hv
        rw [← he.clean hd, hv]
  obtain ⟨hinv', hother⟩ := h.insert
    (⟨fun hd => (by cases hd), hfresh, fun hs => by simp [hspent] at hs⟩ :
      EntryInv (coins db below outpoint) ⟨coin, true, it.fresh || (!possible_overwrite && !it.dirty)⟩)
  refine ⟨_, rfl, hinv', fun o => ?_⟩
  rw [ha', if_pos hst]
  by_cases ho : o = outpoint
  · subst ho
    rw [coins_insert_self, Function.update_self, shown_of_not_isSpent hspent]
  · rw [hother o ho, Function.update_of_ne ho, hcoins]

end AddCoin

/-! ## Uncaching and flushing -/

/-- **`Uncache` drops only what the layers below show anyway**: a cache keeps the invariant and
what it shows. -/
theorem Uncache_spec {c : CCoinsMap} {below : List CCoinsMap} (h : LayersInv db (c :: below))
    (o : COutPoint) :
    LayersInv db (CoinsCache.Uncache c o :: below) ∧
      ∀ o', coins db (CoinsCache.Uncache c o :: below) o' = coins db (c :: below) o' := by
  unfold CoinsCache.Uncache
  cases hl : c.lookup o with
  | none => exact ⟨h, fun _ => rfl⟩
  | some e =>
    dsimp only
    split_ifs with hflags
    · have hclean : e.dirty = false := by simp_all
      obtain ⟨hinv', hother⟩ := h.erase o
      refine ⟨hinv', fun o' => ?_⟩
      by_cases ho : o' = o
      · subst ho
        rw [coins_erase_self, coins_cons, hl, shownOver, (h.2 o' e hl).clean hclean]
      · exact hother o' ho
    · exact ⟨h, fun _ => rfl⟩

/-- `Uncache` of the cache `k` from the top keeps the invariant and what the stack shows. -/
theorem Uncache_set_spec (o : COutPoint) :
    ∀ {k : Nat} {l : List CCoinsMap} {c : CCoinsMap}, LayersInv db l → l[k]? = some c →
      LayersInv db (l.set k (CoinsCache.Uncache c o)) ∧
        ∀ o', coins db (l.set k (CoinsCache.Uncache c o)) o' = coins db l o'
  | _, [], _, _, hc => by simp at hc
  | 0, c₀ :: below, c, h, hc => by
    simp only [List.getElem?_cons_zero, Option.some.injEq] at hc
    subst hc
    exact Uncache_spec h o
  | k + 1, c₀ :: below, c, h, hc => by
    rw [List.getElem?_cons_succ] at hc
    obtain ⟨hinv, hcoins⟩ := Uncache_set_spec o h.1 hc
    exact h.cons_congr hinv hcoins

/-- **One step of `BatchWrite` keeps what the child showed**: over the coin `below` the parent's
layers below show, with the parent's entry `itUs` and the child's `it` keeping the invariant, the
step does not throw, the parent's new entry keeps the invariant, and the parent then shows what
the child showed. -/
theorem BatchWrite.entry_spec {below : Option Coin} {itUs : Option CCoinsCacheEntry}
    {it : CCoinsCacheEntry} (hus : ∀ us, itUs = some us → EntryInv below us)
    (hit : EntryInv (shownOver below itUs) it) :
    ∃ r, CoinsCache.BatchWrite.entry itUs it = .ok r ∧ (∀ e, r = some e → EntryInv below e) ∧
      shownOver below r = it.shown := by
  unfold CoinsCache.BatchWrite.entry
  by_cases hd : it.dirty = true
  case neg =>
    rw [if_pos (by simpa using hd)]
    exact ⟨itUs, rfl, hus, (hit.clean (by simpa using hd)).symm⟩
  rw [if_neg (by simp [hd])]
  cases itUs with
  | none =>
    dsimp only
    split_ifs with hfs
    · have ⟨hf, hs⟩ : it.fresh = true ∧ it.coin.isSpent = true := by simpa using hfs
      exact ⟨none, rfl, fun _ h => (by cases h), by rw [shown_of_isSpent hs]; exact hit.fresh hf⟩
    · refine ⟨_, rfl, fun e he => ?_, rfl⟩
      cases he
      exact ⟨fun hd' => (by cases hd'), hit.fresh, hit.cleared⟩
  | some us =>
    have hu := hus us rfl
    dsimp only
    -- a fresh child entry stands over no unspent coin: the parent's entry is spent
    have hthrow : ¬(it.fresh && !us.coin.isSpent) = true := by
      intro hfs
      have ⟨hf, hs⟩ : it.fresh = true ∧ us.coin.isSpent = false := by simpa using hfs
      have hnone := hit.fresh hf
      rw [shownOver, shown_of_not_isSpent hs] at hnone
      cases hnone
    rw [if_neg hthrow]
    split_ifs with hfs
    · have ⟨hf, hs⟩ : us.fresh = true ∧ it.coin.isSpent = true := by simpa using hfs
      exact ⟨none, rfl, fun _ h => (by cases h), by rw [shown_of_isSpent hs]; exact hu.fresh hf⟩
    · refine ⟨_, rfl, fun e he => ?_, rfl⟩
      cases he
      exact ⟨fun hd' => (by cases hd'), hu.fresh, hit.cleared⟩

theorem lookup_of_mem_entries {c : CCoinsMap} {s : Σ _ : COutPoint, CCoinsCacheEntry}
    (hs : s ∈ c.entries) : c.lookup s.1 = some s.2 :=
  AList.mem_lookup_iff.2 hs

/-- **`BatchWrite` into a parent cache never throws**, and the parent then shows what the child
showed over it, keeping the invariant. -/
theorem BatchWrite_spec {c p : CCoinsMap} {rest : List CCoinsMap}
    (h : LayersInv db (c :: p :: rest)) :
    ∃ p', CoinsCache.BatchWrite p c = .ok p' ∧ LayersInv db (p' :: rest) ∧
      ∀ o, coins db (p' :: rest) o = coins db (c :: p :: rest) o := by
  have hstep : ∀ o it, c.lookup o = some it → ∃ r,
      CoinsCache.BatchWrite.entry (p.lookup o) it = .ok r ∧
        (∀ e, r = some e → EntryInv (coins db rest o) e) ∧ shownOver (coins db rest o) r = it.shown :=
    fun o it hit => BatchWrite.entry_spec (fun us hus => h.1.2 o us hus) (h.2 o it hit)
  obtain ⟨p', hrun, hkeys⟩ := AList.foldlM_setOpt CoinsCache.BatchWrite.entry c.nodupKeys
    fun s hs => (hstep s.1 s.2 (lookup_of_mem_entries hs)).imp fun _ h => h.1
  have hnew : ∀ o x, c.lookup o = some x →
      CoinsCache.BatchWrite.entry (p.lookup o) x = .ok (p'.lookup o) → ∃ r, p'.lookup o = r ∧
        (∀ e, r = some e → EntryInv (coins db rest o) e) ∧ shownOver (coins db rest o) r = x.shown := by
    intro o x hx hr
    obtain ⟨r, hr', hinv, hshown⟩ := hstep o x hx
    rw [hr'] at hr
    cases hr
    exact ⟨_, rfl, hinv, hshown⟩
  refine ⟨p', hrun, ⟨h.1.1, fun o e he => ?_⟩, fun o => ?_⟩
  · rcases hkeys o with ⟨-, hp⟩ | ⟨x, hx, hr⟩
    · exact h.1.2 o e (hp ▸ he)
    · obtain ⟨r, rfl, hinv, -⟩ := hnew o x hx hr
      exact hinv e he
  · rw [coins_cons, coins_cons]
    rcases hkeys o with ⟨hn, hp⟩ | ⟨x, hx, hr⟩
    · have hc : c.lookup o = none := hn
      rw [hp, hc, shownOver, coins_cons]
    · obtain ⟨r, hr', -, hshown⟩ := hnew o x hx hr
      have hc : c.lookup o = some x := hx
      rw [hr', hshown, hc, shownOver]

/-- An outpoint the database batch of a cache writes holds a dirty entry of the cache. -/
theorem mem_BatchWrite_keys {c : CCoinsMap} {o : COutPoint}
    (hmem : o ∈ ((c.entries.filter (·.2.dirty)).map fun it => (it.1, it.2.shown)).map Prod.fst) :
    ∃ e, c.lookup o = some e ∧ e.dirty = true := by
  simp only [List.map_map, List.mem_map, List.mem_filter, Function.comp_apply] at hmem
  obtain ⟨s, ⟨hs, hsd⟩, rfl⟩ := hmem
  exact ⟨s.2, lookup_of_mem_entries hs, hsd⟩

/-- **Flushing the bottom cache into the database** writes what the cache showed: the database then
holds what the cache showed over it, all unspent. -/
theorem CCoinsViewDB.BatchWrite_spec {c : CCoinsMap} (h : LayersInv db [c]) :
    LayersInv (CCoinsViewDB.BatchWrite db c) [] ∧
      ∀ o, CCoinsViewDB.BatchWrite db c o = coins db [c] o := by
  have hnd : (((c.entries.filter (·.2.dirty)).map fun it => (it.1, it.2.shown)).map Prod.fst).Nodup := by
    rw [List.map_map]
    exact List.NodupKeys.sublist List.filter_sublist c.nodupKeys
  have hwrites : ∀ o, CCoinsViewDB.BatchWrite db c o = coins db [c] o := by
    intro o
    rw [coins_cons]
    cases hl : c.lookup o with
    | some e =>
      by_cases hd : e.dirty = true
      · exact FunMap.writeAll_of_mem hnd
          (List.mem_map.2 ⟨⟨o, e⟩, List.mem_filter.2 ⟨AList.mem_lookup_iff.1 hl, hd⟩, rfl⟩)
      · rw [CCoinsViewDB.BatchWrite, FunMap.writeAll_of_not_mem, shownOver,
          (h.2 o e hl).clean (by simpa using hd)]
        · rfl
        intro hmem
        obtain ⟨e', he', hd'⟩ := mem_BatchWrite_keys hmem
        rw [hl, Option.some.injEq] at he'
        exact hd (he' ▸ hd')
    | none =>
      rw [CCoinsViewDB.BatchWrite, FunMap.writeAll_of_not_mem, shownOver]
      · rfl
      intro hmem
      obtain ⟨e', he', -⟩ := mem_BatchWrite_keys hmem
      rw [hl] at he'
      cases he'
  exact ⟨fun o coin ho => h.coins_unspent (hwrites o ▸ ho), hwrites⟩

/-- **`Flush` of any cache never throws**, and the stack keeps the invariant and what it shows;
the flushed cache is left empty. -/
theorem Flush_spec :
    ∀ {k : Nat} {l : List CCoinsMap} {db : COutPoint → Option Coin}, LayersInv db l →
      k < l.length → ∃ l' db', Flush db k l = .ok (l', db') ∧ LayersInv db' l' ∧
        (∀ o, coins db' l' o = coins db l o) ∧ (l'.drop k).head? = some ∅
  | _, [], _, _, hk => absurd hk (Nat.not_lt_zero _)
  | 0, [c], db, h, _ => by
    obtain ⟨hinv, hwrites⟩ := CCoinsViewDB.BatchWrite_spec h
    exact ⟨[∅], _, rfl, ⟨hinv, fun o e he => by simp at he⟩, fun o => hwrites o, rfl⟩
  | 0, c :: p :: rest, db, h, _ => by
    obtain ⟨p', hrun, hinv, hcoins⟩ := BatchWrite_spec h
    refine ⟨∅ :: p' :: rest, db, by simp [Flush, hrun], ⟨hinv, fun o e he => by simp at he⟩,
      fun o => ?_, rfl⟩
    rw [coins_cons, AList.lookup_empty, shownOver, hcoins]
  | k + 1, c :: rest, db, h, hk => by
    obtain ⟨rest', db', hrun, hinv, hcoins, hhead⟩ :=
      @Flush_spec k rest db h.1 (by simp only [List.length_cons] at hk; omega)
    obtain ⟨hinv', hcoins'⟩ := h.cons_congr hinv hcoins
    exact ⟨c :: rest', db', by simp [Flush, hrun], hinv', hcoins', hhead⟩

/-! ## The stack refines the view -/

/-- **The stack refines the view**: it keeps the invariant and shows the view's coins. -/
structure Refines (s : CoinsStack) (a : CCoinsViewCache) : Prop where
  inv : LayersInv s.db s.caches
  coins_eq : ∀ o, coins s.db s.caches o = a.coins o

/-- A stack that keeps the invariant and shows what a refining stack shows refines the same
view. -/
theorem Refines.of_coins {s : CoinsStack} {a : CCoinsViewCache} {l : List CCoinsMap}
    (h : Refines s a) (hinv : LayersInv db' l) (hcoins : ∀ o, coins db' l o = coins s.db s.caches o) :
    Refines ⟨l, db'⟩ a :=
  ⟨hinv, fun o => (hcoins o).trans (h.coins_eq o)⟩

/-- Whether an operation finds its cache on a stack of `depth` caches. -/
def CoinsOp.Fits (depth : Nat) : CoinsOp → Prop
  | .Uncache layer _ => layer < depth
  | .Flush layer => layer < depth
  | .Push => True
  | _ => 0 < depth

/-- A flush that runs finds its cache. -/
theorem lt_of_Flush :
    ∀ {k : Nat} {l : List CCoinsMap} {db : COutPoint → Option Coin}
      {r : List CCoinsMap × (COutPoint → Option Coin)}, Flush db k l = .ok r → k < l.length
  | 0, [], _, _, h => by simp [Flush] at h
  | k + 1, [], _, _, h => by simp [Flush] at h
  | 0, _ :: _, _, _, _ => Nat.succ_pos _
  | k + 1, _ :: _, _, _, h => by
    obtain ⟨_, hr, -⟩ := Except.bind_eq_ok.1 h
    exact Nat.succ_lt_succ (lt_of_Flush hr)

/-- An operation that runs on a stack finds its cache there. -/
theorem fits_of_apply_ok {s s' : CoinsStack} {op : CoinsOp} (h : s.apply op = .ok s') :
    op.Fits s.caches.length := by
  obtain ⟨caches, db⟩ := s
  cases op with
  | Uncache layer o =>
    simp only [apply] at h
    cases hl : caches[layer]? with
    | none =>
      rw [hl] at h
      cases h
    | some c => exact (List.getElem?_eq_some_iff.1 hl).1
  | Flush layer =>
    obtain ⟨_, hr, -⟩ := Except.bind_eq_ok.1 h
    exact lt_of_Flush hr
  | Push => trivial
  | Pop =>
    obtain ⟨_, hr, -⟩ := Except.bind_eq_ok.1 h
    exact lt_of_Flush hr
  | AddCoin | SpendCoin | AccessCoin | HaveCoin =>
    cases caches with
    | nil => simp [apply] at h
    | cons c below => exact Nat.succ_pos _

/-- An empty cache over the top keeps the invariant and what the stack shows. -/
theorem LayersInv.push {l : List CCoinsMap} (h : LayersInv db l) :
    LayersInv db (∅ :: l) ∧ ∀ o, coins db (∅ :: l) o = coins db l o :=
  ⟨⟨h, fun o e he => by simp at he⟩, fun o => by rw [coins_cons, AList.lookup_empty, shownOver]⟩

/-- **Every operation the view allows runs on the stack and keeps the refinement**: on a stack
refining the view, an operation that finds its cache and that the view accepts (an `AddCoin` of
an unspent coin, with `possible_overwrite` wherever the view shows a coin) does not throw, the
`BatchWrite` of a flush included, and the stack after it refines the view after it. -/
theorem Refines.apply {s : CoinsStack} {a a' : CCoinsViewCache} {op : CoinsOp} (h : Refines s a)
    (hfit : op.Fits s.caches.length) (ha : a.applyOp op = .ok a') :
    ∃ s', s.apply op = .ok s' ∧ Refines s' a' := by
  obtain ⟨caches, db⟩ := s
  cases op with
  | AddCoin outpoint coin possible_overwrite skipZeroValue =>
    obtain ⟨c, below, rfl⟩ := List.exists_cons_of_length_pos hfit
    obtain ⟨c', hadd, hinv', hcoins'⟩ := AddCoin_spec h.inv h.coins_eq ha
    exact ⟨⟨c' :: below, db⟩, by simp [CoinsStack.apply, hadd], hinv', hcoins'⟩
  | SpendCoin o =>
    obtain ⟨c, below, rfl⟩ := List.exists_cons_of_length_pos hfit
    cases ha
    obtain ⟨l', hl', hinv', hcoins'⟩ := SpendCoin_spec h.inv o
    refine ⟨⟨l', db⟩, by simp [CoinsStack.apply, hl', pure, Except.pure], hinv', fun o' => ?_⟩
    rw [hcoins', CCoinsViewCache.SpendCoin_coins]
    by_cases ho : o' = o
    · subst ho
      rw [Function.update_self, Function.update_self]
    · rw [Function.update_of_ne ho, Function.update_of_ne ho, h.coins_eq]
  | AccessCoin o =>
    obtain ⟨c, below, rfl⟩ := List.exists_cons_of_length_pos hfit
    cases ha
    obtain ⟨l', hl', hinv', hcoins'⟩ := AccessCoin_spec h.inv o
    exact ⟨⟨l', db⟩, by simp [CoinsStack.apply, hl', pure, Except.pure], h.of_coins hinv' hcoins'⟩
  | HaveCoin o =>
    obtain ⟨c, below, rfl⟩ := List.exists_cons_of_length_pos hfit
    cases ha
    obtain ⟨l', hl', hinv', hcoins'⟩ := HaveCoin_spec h.inv o
    exact ⟨⟨l', db⟩, by simp [CoinsStack.apply, hl', pure, Except.pure], h.of_coins hinv' hcoins'⟩
  | Uncache layer o =>
    cases ha
    have hc : caches[layer]? = some caches[layer] := List.getElem?_eq_getElem hfit
    obtain ⟨hinv', hcoins'⟩ := Uncache_set_spec o h.inv hc
    exact ⟨⟨caches.set layer (CoinsCache.Uncache caches[layer] o), db⟩,
      by simp [CoinsStack.apply, hc, pure, Except.pure], h.of_coins hinv' hcoins'⟩
  | Flush layer =>
    cases ha
    obtain ⟨l', db', hrun, hinv', hcoins', -⟩ := Flush_spec h.inv hfit
    exact ⟨⟨l', db'⟩, by simp [CoinsStack.apply, hrun], h.of_coins hinv' hcoins'⟩
  | Push =>
    cases ha
    obtain ⟨hinv', hcoins'⟩ := h.inv.push
    exact ⟨⟨∅ :: caches, db⟩, rfl, h.of_coins hinv' hcoins'⟩
  | Pop =>
    cases ha
    obtain ⟨l', db', hrun, hinv', hcoins', hhead⟩ := Flush_spec h.inv hfit
    obtain ⟨rest, rfl⟩ : ∃ rest, l' = ∅ :: rest := by
      cases l' with
      | nil => cases hhead
      | cons c rest =>
        simp only [List.drop_zero, List.head?_cons, Option.some.injEq] at hhead
        exact ⟨rest, by rw [hhead]⟩
    refine ⟨⟨rest, db'⟩, by simp [CoinsStack.apply, hrun], h.of_coins hinv'.1 fun o' => ?_⟩
    rw [← hcoins', coins_cons, AList.lookup_empty, shownOver]

/-- The stacks reached from the database by operations the view accepts, each with the view
reached by the same operations. -/
inductive Reachable : CoinsStack → CCoinsViewCache → Prop
  | init (db : COutPoint → Option Coin) (hashBlock : uint256)
      (unspent : ∀ o c, db o = some c → c.isSpent = false) :
      Reachable ⟨[], db⟩ ⟨db, hashBlock, unspent⟩
  | step {s s' : CoinsStack} {a a' : CCoinsViewCache} {op : CoinsOp} :
      Reachable s a → s.apply op = .ok s' → a.applyOp op = .ok a' → Reachable s' a'

/-- **Every reachable stack refines its view.** -/
theorem Reachable.refines {s : CoinsStack} {a : CCoinsViewCache} (h : Reachable s a) :
    Refines s a := by
  induction h with
  | init db hashBlock unspent => exact ⟨unspent, fun _ => rfl⟩
  | step _ hs ha ih =>
    obtain ⟨s'', hs'', hrefines⟩ := ih.apply (fits_of_apply_ok hs) ha
    rw [hs] at hs''
    cases hs''
    exact hrefines

/-- The caches from the `k`-th down keep the invariant over the database. -/
theorem LayersInv.drop : ∀ (k : Nat) {l : List CCoinsMap}, LayersInv db l → LayersInv db (l.drop k)
  | 0, _, h => h
  | _ + 1, [], h => h
  | k + 1, _ :: _, h => LayersInv.drop k h.1

/-- An entry of the `k`-th cache keeps `EntryInv` over what the caches under it show. -/
theorem LayersInv.entry {l : List CCoinsMap} (h : LayersInv db l) {k : Nat} {c : CCoinsMap}
    (hc : l[k]? = some c) {o : COutPoint} {e : CCoinsCacheEntry} (he : c.lookup o = some e) :
    EntryInv (coins db (l.drop (k + 1)) o) e := by
  obtain ⟨hk, rfl⟩ := List.getElem?_eq_some_iff.1 hc
  have hd := h.drop k
  rw [List.drop_eq_getElem_cons hk] at hd
  exact hd.2 o e he

/-- The `k`-th cache and its parent, with the caches under the parent, keep the invariant. -/
theorem LayersInv.drop_pair {l : List CCoinsMap} (h : LayersInv db l) {k : Nat} {c p : CCoinsMap}
    (hc : l[k]? = some c) (hp : l[k + 1]? = some p) : LayersInv db (c :: p :: l.drop (k + 2)) := by
  obtain ⟨hk, rfl⟩ := List.getElem?_eq_some_iff.1 hc
  obtain ⟨hk', rfl⟩ := List.getElem?_eq_some_iff.1 hp
  have hd := h.drop k
  rwa [List.drop_eq_getElem_cons hk, List.drop_eq_getElem_cons hk'] at hd

/-- **A reachable stack of caches behaves as the single view.** After any run of the operations
from the database, the top cache answers `AccessCoin` and `HaveCoin` as the view reached by the
same `AddCoin` and `SpendCoin` operations; a `FRESH` entry of any cache stands over caches that
show no coin there; the `BatchWrite` of any cache into its parent does not throw; and every
operation the view accepts runs on the stack, which then stays reachable. -/
theorem Reachable.coins_refinement {s : CoinsStack} {a : CCoinsViewCache} (h : Reachable s a) :
    (∀ c below, s.caches = c :: below → ∀ o,
      (AccessCoin s.db c below o).1 = a.AccessCoin o ∧ (HaveCoin s.db c below o).1 = a.HaveCoin o) ∧
    (∀ k c o e, s.caches[k]? = some c → c.lookup o = some e → e.fresh = true →
      coins s.db (s.caches.drop (k + 1)) o = none) ∧
    (∀ k c p, s.caches[k]? = some c → s.caches[k + 1]? = some p →
      ∃ p', CoinsCache.BatchWrite p c = .ok p') ∧
    (∀ op a', op.Fits s.caches.length → a.applyOp op = .ok a' →
      ∃ s', s.apply op = .ok s' ∧ Reachable s' a') := by
  have hr := h.refines
  refine ⟨fun c below hs o => ?_, fun k c o e hc he hf => (hr.inv.entry hc he).fresh hf,
    fun k c p hc hp => ?_, fun op a' hfit ha => ?_⟩
  · have hinv : LayersInv s.db (c :: below) := hs ▸ hr.inv
    obtain ⟨l, hl, -⟩ := AccessCoin_spec hinv o
    obtain ⟨l', hl', -⟩ := HaveCoin_spec hinv o
    rw [hl, hl', ← hs, hr.coins_eq]
    exact ⟨rfl, rfl⟩
  · obtain ⟨p', hp', -⟩ := BatchWrite_spec (hr.inv.drop_pair hc hp)
    exact ⟨p', hp'⟩
  · obtain ⟨s', hs', -⟩ := hr.apply hfit ha
    exact ⟨s', hs', h.step hs' ha⟩

/-- Over the empty database, a coin added in one cache and spent in a cache over it: the view
accepts the pop of the top cache, so the stack runs it, and the cache left reads the outpoint as
the view does, with no coin. -/
theorem Reachable.coins_refinement_spend_pop :
    ∃ s a, Reachable s a ∧ s.caches.length = 1 ∧ a.AccessCoin ⟨0, 0⟩ = coinEmpty ∧
      ∀ c below, s.caches = c :: below → (AccessCoin s.db c below ⟨0, 0⟩).1 = coinEmpty := by
  have h₀ : Reachable ⟨[], fun _ => none⟩ ⟨fun _ => none, 0, fun _ _ h => by cases h⟩ :=
    .init _ _ _
  let o : COutPoint := ⟨0, 0⟩
  let coin : Coin := ⟨⟨1, []⟩, false, 1, false, 0⟩
  have h₁ := @Reachable.step _ _ _ _ CoinsOp.Push h₀ rfl rfl
  have h₂ := @Reachable.step _ _ _ _ (CoinsOp.AddCoin o coin false false) h₁ rfl rfl
  have h₃ := @Reachable.step _ _ _ _ CoinsOp.Push h₂ rfl rfl
  have h₄ := @Reachable.step _ _ _ _ (CoinsOp.SpendCoin o) h₃ rfl rfl
  obtain ⟨s, hs, h₅⟩ := (Reachable.coins_refinement h₄).2.2.2 CoinsOp.Pop _ (Nat.succ_pos 1) rfl
  injection hs with hs
  subst hs
  exact ⟨_, _, h₅, rfl, rfl, fun c below hc => ((Reachable.coins_refinement h₅).1 c below hc o).1⟩

/-- A `FRESH` entry may stand over a cache that holds an unspent coin, under a spent `DIRTY`
entry of a cache between them: over the empty database, a coin added in one cache, spent in a
cache over it and added again in a third is `FRESH` on top while the first still holds it. -/
theorem Reachable.fresh_over_unspent_entry :
    ¬∀ s a, Reachable s a → ∀ (k j : Nat) (c p : CCoinsMap) (o : COutPoint)
      (e e' : CCoinsCacheEntry), k < j → s.caches[k]? = some c →
      c.lookup o = some e → e.fresh = true → s.caches[j]? = some p → p.lookup o = some e' →
        e'.coin.isSpent = true := by
  intro hall
  have h₀ : Reachable ⟨[], fun _ => none⟩ ⟨fun _ => none, 0, fun _ _ h => by cases h⟩ :=
    .init _ _ _
  let o : COutPoint := ⟨0, 0⟩
  let coin : Coin := ⟨⟨1, []⟩, false, 1, false, 0⟩
  have h₁ := @Reachable.step _ _ _ _ CoinsOp.Push h₀ rfl rfl
  have h₂ := @Reachable.step _ _ _ _ (CoinsOp.AddCoin o coin true false) h₁ rfl rfl
  have h₃ := @Reachable.step _ _ _ _ CoinsOp.Push h₂ rfl rfl
  have h₄ := @Reachable.step _ _ _ _ (CoinsOp.SpendCoin o) h₃ rfl rfl
  have h₅ := @Reachable.step _ _ _ _ CoinsOp.Push h₄ rfl rfl
  have h₆ := @Reachable.step _ _ _ _ (CoinsOp.AddCoin o coin false false) h₅ rfl rfl
  have hspent := hall _ _ h₆ 0 2 _ _ o _ _ (by decide) rfl rfl rfl rfl rfl
  exact absurd hspent (by decide)

end CoinsStack

end NowpConsensus
