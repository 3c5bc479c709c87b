import NowpConsensus.Util.LruCache
import NowpConsensus.Primitives.Serialize

/-!
# The proof-of-work hash cache

`CBlockHeader::GetPOWHash(readCache)` (`primitives/block.cpp`) looks the header's hash `GetHash`
up in the process-wide `CPowCache` (`primitives/powcache.h`), an LRU cache from header hash to
proof-of-work hash, and computes the GhostRider hash `ComputeHash` only on a miss or when
`bValidate` is set; it then stores what it computed. The cache is saved to `powcache.dat` at
shutdown (`CPowCache::Serialize`) and loaded at startup (`CPowCache::Unserialize`), which inserts
every pair of the file into the cache.

The hash functions are given: `Hash` is the double SHA-256 of a byte string, `HashGR` the
GhostRider hash of a byte string under the algorithm order the previous block's hash selects.
A run of the cache is `CPowCache.Reachable`: from the constructor, any sequence of
`GetPOWHash` calls, of `SetMaxElements` and `SetValidate`, and of loads of a file that
`Serialize` wrote from a cache reached the same way, in this process or an earlier one. It
records the headers whose proof-of-work hash was computed.

* `ComputeHash_eq_of_serialize_eq`: `ComputeHash` reads only the 80 bytes `GetHash` hashes;
* `Unserialize_Serialize`: a saved cache of at most `MAX_SIZE` entries loads back as the
  insertion of its pairs, in the order it wrote them;
* `CPowCache.Reachable.coherent`: every cached pair `(k, v)` is `(GetHash h, ComputeHash h)`
  for a header `h` of the run;
* `GetPOWHash_eq_ComputeHash`: so where `Hash` has no collision between the header asked for
  and the headers of the run, `GetPOWHash` returns `ComputeHash`, whichever `readCache` is.
-/

namespace NowpConsensus

open Bytes

/-- `CBlockHeader::ComputeHash`: `HashGR` over the header's bytes from `nVersion` to the end of
`nNonce`, the algorithms chosen by `hashPrevBlock`. In memory these fields are laid out
little-endian and without padding, so the bytes are the 80 the header serialises to, `nFlags`
excluded. -/
def CBlockHeader.ComputeHash (HashGR : List UInt8 → uint256 → uint256) (h : CBlockHeader) :
    uint256 :=
  HashGR (h.serialize false) h.hashPrevBlock

/-- The previous block's hash is bytes 4 to 35 of the header. -/
theorem CBlockHeader.serialize_false_hashPrevBlock (h : CBlockHeader) :
    ((h.serialize false).drop 4).take 32 = ser_uint256 h.hashPrevBlock := by
  have h4 : (ser_int32 h.nVersion).length = 4 := leBytes_length _ _
  have h32 : (ser_uint256 h.hashPrevBlock).length = 32 := leBytes_length _ _
  simp only [CBlockHeader.serialize, List.append_assoc]
  rw [List.drop_left' h4, List.take_left' h32]

/-- **`ComputeHash` reads only the bytes `GetHash` hashes**: headers with the same 80 bytes, as
headers with the same `GetHash` have where `Hash` has no collision, have the same
proof-of-work hash. -/
theorem ComputeHash_eq_of_serialize_eq (HashGR : List UInt8 → uint256 → uint256)
    {h₁ h₂ : CBlockHeader} (h : h₁.serialize false = h₂.serialize false) :
    h₁.ComputeHash HashGR = h₂.ComputeHash HashGR := by
  have hprev : ser_uint256 h₁.hashPrevBlock = ser_uint256 h₂.hashPrevBlock := by
    rw [← CBlockHeader.serialize_false_hashPrevBlock, ← CBlockHeader.serialize_false_hashPrevBlock,
      h]
  have hlt : ∀ x : uint256, x.toNat < 256 ^ 32 := fun x => x.isLt
  have heq : h₁.hashPrevBlock = h₂.hashPrevBlock :=
    BitVec.eq_of_toNat_eq (leBytes_inj (hlt _) (hlt _) hprev)
  simp only [CBlockHeader.ComputeHash, h, heq]

/-! ## The cache -/

/-- `DEFAULT_POWCACHE_MAX_ELEMENTS`. -/
def DEFAULT_POWCACHE_MAX_ELEMENTS : Nat := 1000000

/-- `DEFAULT_POWCACHE_VALIDATE`. -/
def DEFAULT_POWCACHE_VALIDATE : Bool := false

/-- `CPowCache`: the LRU cache from header hash to proof-of-work hash, the version it writes,
and whether every hit is checked against a fresh computation. -/
structure CPowCache extends LruCache uint256 uint256 where
  nVersion : Int32
  bValidate : Bool

namespace CPowCache

/-- `CPowCache::CURRENT_VERSION`. -/
def CURRENT_VERSION : Int32 := 1

/-- `CPowCache()`: an empty cache of `DEFAULT_POWCACHE_MAX_ELEMENTS` entries, with the default
threshold of twice that. -/
def init : Except Abort CPowCache := do
  let c ← LruCache.init DEFAULT_POWCACHE_MAX_ELEMENTS 0
  pure { c with nVersion := CURRENT_VERSION, bValidate := DEFAULT_POWCACHE_VALIDATE }

/-- `SetMaxElements(maxElements)`: a positive value becomes `maxSize`; the threshold stays. -/
def SetMaxElements (cache : CPowCache) (maxElements : Int) : CPowCache :=
  if maxElements > 0 then { cache with maxSize := maxElements.toNat } else cache

/-- `SetValidate(validate)`. -/
def SetValidate (cache : CPowCache) (validate : Int) : CPowCache :=
  { cache with bValidate := validate ≠ 0 }

/-- A cached pair as `SerializationOp` writes it: the header hash, then the proof-of-work hash. -/
def serializeEntry (e : LruCache.Entry uint256 uint256) : List UInt8 :=
  ser_uint256 e.key ++ ser_uint256 e.value

/-- `Serialize(s)`: the version, the number of pairs, then the pairs in the map's order. -/
def Serialize (cache : CPowCache) : List UInt8 :=
  ser_int32 cache.nVersion ++ compactSize cache.size ++ cache.cacheMap.flatMap serializeEntry

/-- The loop of `SerializationOp` when reading: `cacheSize` pairs, each inserted as it is read. -/
def readEntries : Nat → List UInt8 → LruCache uint256 uint256 →
    Except Abort (LruCache uint256 uint256 × List UInt8)
  | 0, s, c => .ok (c, s)
  | n + 1, s, c => do
    let (headerHash, s) ← unser_uint256 s
    let (powHash, s) ← unser_uint256 s
    readEntries n s (c.insert headerHash powHash)

/-- `Unserialize(s)`: the version, which is then set to `CURRENT_VERSION`, the number of pairs,
and the pairs, inserted into the cache as it is. -/
def Unserialize (cache : CPowCache) (s : List UInt8) : Except Abort CPowCache := do
  let (_, s) ← ser_readdata32 s
  let (cacheSize, s) ← ReadCompactSize s
  let (c, _) ← readEntries cacheSize s cache.toLruCache
  pure { cache with toLruCache := c, nVersion := CURRENT_VERSION }

/-- The cache after inserting the pairs of `l` in order. -/
def insertAll (l : List (LruCache.Entry uint256 uint256)) (c : LruCache uint256 uint256) :
    LruCache uint256 uint256 :=
  l.foldl (fun c e => c.insert e.key e.value) c

theorem readEntries_flatMap (l : List (LruCache.Entry uint256 uint256)) (rest : List UInt8)
    (c : LruCache uint256 uint256) :
    readEntries l.length (l.flatMap serializeEntry ++ rest) c = .ok (insertAll l c, rest) := by
  induction l generalizing c with
  | nil => rfl
  | cons e l ih =>
    simp only [List.length_cons, List.flatMap_cons, serializeEntry, List.append_assoc,
      readEntries, unser_uint256_ser, Except.bind_ok_left]
    exact ih _

/-- Reading any number of pairs from the pairs a cache wrote inserts the first of them, or
fails. -/
theorem readEntries_flatMap_take {n : Nat} {l : List (LruCache.Entry uint256 uint256)}
    {c c' : LruCache uint256 uint256} {rest : List UInt8}
    (h : readEntries n (l.flatMap serializeEntry) c = .ok (c', rest)) :
    ∃ k, c' = insertAll (l.take k) c := by
  induction n generalizing l c with
  | zero =>
    cases h
    exact ⟨0, rfl⟩
  | succ n ih =>
    cases l with
    | nil =>
      simp only [List.flatMap_nil, readEntries, unser_uint256, ser_readdata, readBytes,
        List.length_nil] at h
      cases h
    | cons e l =>
      simp only [List.flatMap_cons, serializeEntry, List.append_assoc, readEntries,
        unser_uint256_ser, Except.bind_ok_left] at h
      obtain ⟨k, hk⟩ := ih h
      exact ⟨k + 1, hk⟩

/-- **A saved cache loads back**: where it holds at most `MAX_SIZE` pairs, loading its file
inserts them, in the order they were written, and sets the version. -/
theorem Unserialize_Serialize (cache cache' : CPowCache) (h : cache'.size ≤ MAX_SIZE) :
    cache.Unserialize cache'.Serialize =
      .ok { cache with
        toLruCache := insertAll cache'.cacheMap cache.toLruCache
        nVersion := CURRENT_VERSION } := by
  have hver : (ser_int32 cache'.nVersion).length = 4 := leBytes_length _ _
  have hread := ser_readdata_leBytes 4 cache'.nVersion.toUInt32.toNat
    (compactSize cache'.size ++ cache'.cacheMap.flatMap serializeEntry)
  simp only [Unserialize, Serialize, List.append_assoc]
  rw [show ser_int32 cache'.nVersion = leBytes 4 cache'.nVersion.toUInt32.toNat from rfl,
    ser_readdata32, hread, Except.bind_ok_left, ReadCompactSize_compactSize h,
    Except.bind_ok_left]
  have hentries := readEntries_flatMap cache'.cacheMap [] cache.toLruCache
  rw [List.append_nil] at hentries
  rw [show cache'.size = cache'.cacheMap.length from rfl, hentries]
  rfl

/-- Whatever a load of a saved cache returns holds the cache it was loaded into with some of
the saved pairs inserted. -/
theorem Unserialize_Serialize_take {cache cache' cache'' : CPowCache}
    (h : cache.Unserialize cache'.Serialize = .ok cache'') :
    ∃ k, cache''.toLruCache = insertAll (cache'.cacheMap.take k) cache.toLruCache := by
  have hread := ser_readdata_leBytes 4 cache'.nVersion.toUInt32.toNat
    (compactSize cache'.size ++ cache'.cacheMap.flatMap serializeEntry)
  simp only [Unserialize, Serialize, List.append_assoc] at h
  rw [show ser_int32 cache'.nVersion = leBytes 4 cache'.nVersion.toUInt32.toNat from rfl,
    ser_readdata32, hread, Except.bind_ok_left] at h
  obtain ⟨⟨cacheSize, s⟩, hsize, h⟩ := Except.bind_eq_ok.1 h
  have hs := ReadCompactSize_compactSize_rest hsize
  subst hs
  obtain ⟨⟨c, rest⟩, hc, h⟩ := Except.bind_eq_ok.1 h
  cases h
  exact readEntries_flatMap_take hc

end CPowCache

/-- The read `GetPOWHash` starts with: `cache.get(headerHash, powHash)`, which marks a hit as
read, where `readCache` asks for it. -/
def CPowCache.lookup (cache : CPowCache) (headerHash : uint256) (readCache : Bool) :
    Option uint256 × LruCache uint256 uint256 :=
  if readCache then cache.get headerHash else (none, cache.toLruCache)

/-- `CBlockHeader::GetPOWHash(readCache)` on the cache `cache`: the proof-of-work hash and the
cache after the call. A hit is returned as it is unless `bValidate` is set; a miss, or a
checked hit, is computed, and replaces what the cache had under the header's hash. -/
def CBlockHeader.GetPOWHash (Hash : List UInt8 → uint256) (HashGR : List UInt8 → uint256 → uint256)
    (cache : CPowCache) (h : CBlockHeader) (readCache : Bool) : uint256 × CPowCache :=
  let headerHash := h.GetHash Hash
  let (found, c) := cache.lookup headerHash readCache
  let powHash2 := h.ComputeHash HashGR
  let computed := (powHash2,
    { cache with toLruCache := (c.erase headerHash).insert headerHash powHash2 })
  match found with
  | some powHash => if cache.bValidate then computed else (powHash, { cache with toLruCache := c })
  | none => computed

namespace CPowCache

theorem AllEntries_lookup {P : uint256 → uint256 → Prop} {cache : CPowCache}
    (hc : cache.AllEntries P) (headerHash : uint256) (readCache : Bool) :
    (cache.lookup headerHash readCache).2.AllEntries P := by
  unfold lookup
  cases readCache with
  | false => exact hc
  | true => exact hc.get headerHash

theorem lookup_eq_some {cache : CPowCache} {headerHash v : uint256} {readCache : Bool}
    {c : LruCache uint256 uint256} (h : cache.lookup headerHash readCache = (some v, c)) :
    ∃ e ∈ cache.cacheMap, e.key = headerHash ∧ e.value = v := by
  unfold lookup at h
  cases readCache with
  | false => cases h
  | true => exact LruCache.get_eq_some (congrArg Prod.fst h)

end CPowCache

namespace CPowCache

variable (Hash : List UInt8 → uint256) (HashGR : List UInt8 → uint256 → uint256)

/-- The states a run of the cache reaches, with the headers whose proof-of-work hash it
computed. A load reads the file another reachable cache saved, whose headers it adds. -/
inductive Reachable : CPowCache → List CBlockHeader → Prop
  | init {c : CPowCache} : CPowCache.init = .ok c → Reachable c []
  | getPOWHash {c : CPowCache} {seen : List CBlockHeader} (h : CBlockHeader) (readCache : Bool) :
      Reachable c seen → Reachable (h.GetPOWHash Hash HashGR c readCache).2 (h :: seen)
  | setMaxElements {c : CPowCache} {seen : List CBlockHeader} (maxElements : Int) :
      Reachable c seen → Reachable (c.SetMaxElements maxElements) seen
  | setValidate {c : CPowCache} {seen : List CBlockHeader} (validate : Int) :
      Reachable c seen → Reachable (c.SetValidate validate) seen
  | load {c c' c'' : CPowCache} {seen seen' : List CBlockHeader} :
      Reachable c' seen' → Reachable c seen → c.Unserialize c'.Serialize = .ok c'' →
      Reachable c'' (seen ++ seen')

/-- Every cached pair is the header hash and the proof-of-work hash of a header of `seen`. -/
def Coherent (seen : List CBlockHeader) (c : LruCache uint256 uint256) : Prop :=
  c.AllEntries fun k v => ∃ h ∈ seen, h.GetHash Hash = k ∧ v = h.ComputeHash HashGR

variable {Hash HashGR}

theorem Coherent.mono {seen seen' : List CBlockHeader} {c : LruCache uint256 uint256}
    (hc : Coherent Hash HashGR seen c) (hsub : ∀ h ∈ seen, h ∈ seen') :
    Coherent Hash HashGR seen' c :=
  LruCache.AllEntries.mono hc fun _ _ ⟨h, hh, hk, hv⟩ => ⟨h, hsub h hh, hk, hv⟩

theorem Coherent.insertAll {seen : List CBlockHeader} {c : LruCache uint256 uint256}
    {l : List (LruCache.Entry uint256 uint256)} (hc : Coherent Hash HashGR seen c)
    (hl : ∀ e ∈ l, ∃ h ∈ seen, h.GetHash Hash = e.key ∧ e.value = h.ComputeHash HashGR) :
    Coherent Hash HashGR seen (CPowCache.insertAll l c) := by
  induction l generalizing c with
  | nil => exact hc
  | cons e l ih =>
    exact ih (LruCache.AllEntries.insert hc (hl e (List.mem_cons_self ..)))
      fun e' he' => hl e' (List.mem_cons_of_mem _ he')

/-- A call of `GetPOWHash` keeps the cache coherent, with its header added. -/
theorem Coherent.getPOWHash {seen : List CBlockHeader} {c : CPowCache}
    (hc : Coherent Hash HashGR seen c.toLruCache) (h : CBlockHeader) (readCache : Bool) :
    Coherent Hash HashGR (h :: seen) (h.GetPOWHash Hash HashGR c readCache).2.toLruCache := by
  have hc' := hc.mono fun _ hh => List.mem_cons_of_mem h hh
  have hnew : ∃ h' ∈ h :: seen, h'.GetHash Hash = h.GetHash Hash ∧
      h.ComputeHash HashGR = h'.ComputeHash HashGR := ⟨h, List.mem_cons_self .., rfl, rfl⟩
  have hlook := AllEntries_lookup hc' (h.GetHash Hash) readCache
  rcases hl : c.lookup (h.GetHash Hash) readCache with ⟨_ | v, c'⟩ <;>
    rw [hl] at hlook <;> dsimp only at hlook <;> simp only [CBlockHeader.GetPOWHash, hl]
  · exact (hlook.erase _).insert hnew
  · split
    · exact (hlook.erase _).insert hnew
    · exact hlook

/-- **Every reachable cache is coherent.** -/
theorem Reachable.coherent {c : CPowCache} {seen : List CBlockHeader}
    (hr : Reachable Hash HashGR c seen) : Coherent Hash HashGR seen c.toLruCache := by
  induction hr with
  | init h =>
    unfold CPowCache.init LruCache.init at h
    cases h
    exact fun _ he => absurd he List.not_mem_nil
  | getPOWHash h readCache _ ih => exact ih.getPOWHash h readCache
  | setMaxElements maxElements _ ih =>
    unfold SetMaxElements
    split <;> exact ih
  | setValidate _ _ ih => exact ih
  | @load c c' c'' seen seen' _ _ hload ih' ih =>
    obtain ⟨k, hk⟩ := Unserialize_Serialize_take hload
    rw [hk]
    refine (ih.mono fun h hh => List.mem_append_left _ hh).insertAll fun e he => ?_
    obtain ⟨h, hh, hkey, hval⟩ := ih' e (List.mem_of_mem_take he)
    exact ⟨h, List.mem_append_right _ hh, hkey, hval⟩

end CPowCache

/-- **The cached proof-of-work hash is the computed one**: on every cache a run reaches, where no
header of the run collides with `h` under `Hash` without having its bytes, `GetPOWHash` returns
`ComputeHash`, with the cache read or not. -/
theorem GetPOWHash_eq_ComputeHash {Hash : List UInt8 → uint256}
    {HashGR : List UInt8 → uint256 → uint256} {cache : CPowCache} {seen : List CBlockHeader}
    (hr : CPowCache.Reachable Hash HashGR cache seen) (h : CBlockHeader) (readCache : Bool)
    (hcr : ∀ h' ∈ seen, h'.GetHash Hash = h.GetHash Hash → h'.serialize false = h.serialize false) :
    (h.GetPOWHash Hash HashGR cache readCache).1 = h.ComputeHash HashGR := by
  rcases hl : cache.lookup (h.GetHash Hash) readCache with ⟨_ | v, c⟩ <;>
    simp only [CBlockHeader.GetPOWHash, hl]
  · split
    · rfl
    · obtain ⟨e, he, hkey, hval⟩ := CPowCache.lookup_eq_some hl
      obtain ⟨h', hh', hk', hv'⟩ := hr.coherent e he
      rw [← hval, hv']
      exact ComputeHash_eq_of_serialize_eq HashGR (hcr h' hh' (hk'.trans hkey))

/-- A header asked for twice, the second time from the cache its first call filled. -/
theorem GetPOWHash_eq_ComputeHash_cached :
    ∃ c : CPowCache, CPowCache.init = .ok c ∧
      let hdr : CBlockHeader := ⟨4, 0, 0, 1700000000, 0x1e0ffff0, 7, 0⟩
      (hdr.GetPOWHash (fun _ => 0) (fun b prev => prev + BitVec.ofNat 256 b.length)
          (hdr.GetPOWHash (fun _ => 0) (fun b prev => prev + BitVec.ofNat 256 b.length) c
            true).2 true).1 =
        hdr.ComputeHash fun b prev => prev + BitVec.ofNat 256 b.length :=
  ⟨_, rfl, GetPOWHash_eq_ComputeHash (.getPOWHash _ true (.init rfl)) _ true
    fun _ hh _ => by rw [List.mem_singleton.1 hh]⟩

end NowpConsensus
