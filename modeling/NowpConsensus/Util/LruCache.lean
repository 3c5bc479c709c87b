import NowpConsensus.Lib.Abort

/-!
# The LRU cache

`unordered_lru_cache<Key, Value, Hasher, MaxSize, TruncateThreshold>` (`util/unordered_lru_cache.h`):
a hash map from a key to its value and the access counter of its last insert or read. Before
each insert, once the map holds more than `truncateThreshold` entries, it keeps the `maxSize`
entries read or written last (`truncate_if_needed`).

The map is a list of entries with distinct keys, in iteration order; the order an
`std::unordered_map` iterates in is unspecified, and nothing below depends on it. The access
counter is a natural number: the `int64_t` of the source would need `2 ^ 63` operations to wrap.

Over every run of operations from a freshly constructed cache (`LruCache.run_spec`):

* what `get` returns is the value last inserted under the key, not erased or cleared since;
* the entries' counters are distinct and below `accessCounter`;
* the map holds at most `max truncateThreshold maxSize + 1` entries, so at most
  `truncateThreshold + 1` when the threshold is at least `maxSize` (as the default, twice
  `maxSize`, is); with a smaller threshold it can hold more (`LruCache.size_exceeds_threshold`);
* a truncation keeps exactly the `maxSize` entries with the largest counters.
-/

namespace NowpConsensus

/-- An entry of the map: the key, the value and the access counter of its last use. -/
structure LruCache.Entry (K V : Type) where
  key : K
  value : V
  counter : Nat
  deriving DecidableEq, Repr

/-- `unordered_lru_cache`: the map `cacheMap`, whose keys are distinct, the sizes and the
counter. -/
structure LruCache (K V : Type) where
  cacheMap : List (LruCache.Entry K V)
  maxSize : Nat
  truncateThreshold : Nat
  accessCounter : Nat
  keys_nodup : (cacheMap.map LruCache.Entry.key).Nodup

namespace LruCache

variable {K V : Type}

/-- The order of `truncate_if_needed`'s sort: the latest access first. -/
def byLastAccess (e₁ e₂ : Entry K V) : Prop := e₂.counter ≤ e₁.counter

instance : DecidableRel (@byLastAccess K V) := fun e₁ e₂ => Nat.decLe e₂.counter e₁.counter

instance : Std.Total (@byLastAccess K V) := ⟨fun e₁ e₂ => le_total e₂.counter e₁.counter⟩

instance : IsTrans (Entry K V) byLastAccess := ⟨fun _ _ _ h₁ h₂ => le_trans h₂ h₁⟩

/-- The sorted and cut list keeps distinct keys. -/
theorem keys_nodup_take_insertionSort {l : List (Entry K V)} (h : (l.map Entry.key).Nodup)
    (n : Nat) : (((l.insertionSort byLastAccess).take n).map Entry.key).Nodup :=
  (((List.perm_insertionSort byLastAccess l).map Entry.key).nodup_iff.2 h).sublist
    ((List.take_sublist n _).map _)

/-- `truncate_if_needed`: past the threshold, the entries sorted by last access, latest first,
and cut to `maxSize`. (`std::sort` is modelled by an insertion sort under the same order; the
counters being distinct, both give the one sorted order.) -/
def truncate_if_needed (c : LruCache K V) : LruCache K V :=
  if c.cacheMap.length ≤ c.truncateThreshold then c
  else
    { c with
      cacheMap := (c.cacheMap.insertionSort byLastAccess).take c.maxSize
      keys_nodup := keys_nodup_take_insertionSort c.keys_nodup _ }

/-- What `truncate_if_needed` keeps it had, and its sizes and counter stay. -/
theorem mem_of_mem_truncate {c : LruCache K V} {e : Entry K V}
    (h : e ∈ c.truncate_if_needed.cacheMap) : e ∈ c.cacheMap := by
  unfold truncate_if_needed at h
  split at h
  · exact h
  · exact (List.perm_insertionSort byLastAccess _).mem_iff.1 (List.mem_of_mem_take h)

@[simp]
theorem truncate_accessCounter (c : LruCache K V) :
    c.truncate_if_needed.accessCounter = c.accessCounter := by
  unfold truncate_if_needed
  split <;> rfl

@[simp]
theorem truncate_maxSize (c : LruCache K V) : c.truncate_if_needed.maxSize = c.maxSize := by
  unfold truncate_if_needed
  split <;> rfl

@[simp]
theorem truncate_truncateThreshold (c : LruCache K V) :
    c.truncate_if_needed.truncateThreshold = c.truncateThreshold := by
  unfold truncate_if_needed
  split <;> rfl

theorem truncate_length_le (c : LruCache K V) :
    c.truncate_if_needed.cacheMap.length ≤ max c.truncateThreshold c.maxSize := by
  unfold truncate_if_needed
  split
  · omega
  · rw [List.length_take]
    omega

theorem counters_nodup_truncate {c : LruCache K V} (h : (c.cacheMap.map Entry.counter).Nodup) :
    (c.truncate_if_needed.cacheMap.map Entry.counter).Nodup := by
  unfold truncate_if_needed
  split
  · exact h
  · exact (((List.perm_insertionSort byLastAccess _).map _).nodup_iff.2 h).sublist
      ((List.take_sublist _ _).map _)

/-- **A truncation keeps exactly the `maxSize` entries with the largest counters**: as many as
`maxSize` allows, each an entry of the map, each with a counter above every dropped entry's. -/
theorem truncate_keeps_latest {c : LruCache K V} (h : (c.cacheMap.map Entry.counter).Nodup)
    (hfire : c.truncateThreshold < c.cacheMap.length) :
    c.truncate_if_needed.cacheMap.length = min c.maxSize c.cacheMap.length ∧
      (∀ e ∈ c.truncate_if_needed.cacheMap, e ∈ c.cacheMap) ∧
      ∀ e ∈ c.truncate_if_needed.cacheMap, ∀ e' ∈ c.cacheMap,
        e' ∉ c.truncate_if_needed.cacheMap → e'.counter < e.counter := by
  have hperm := List.perm_insertionSort byLastAccess c.cacheMap
  have hsorted := List.pairwise_insertionSort byLastAccess c.cacheMap
  rw [← List.take_append_drop c.maxSize (c.cacheMap.insertionSort byLastAccess),
    List.pairwise_append] at hsorted
  unfold truncate_if_needed
  rw [if_neg (by omega)]
  refine ⟨by rw [List.length_take, hperm.length_eq], fun e he => mem_of_mem_truncate ?_,
    fun e he e' he' hout => ?_⟩
  · unfold truncate_if_needed
    rwa [if_neg (by omega)]
  · have hdrop : e' ∈ (c.cacheMap.insertionSort byLastAccess).drop c.maxSize := by
      have := hperm.mem_iff.2 he'
      rw [← List.take_append_drop c.maxSize (c.cacheMap.insertionSort byLastAccess),
        List.mem_append] at this
      exact this.resolve_left hout
    have hle : e'.counter ≤ e.counter := hsorted.2.2 e he e' hdrop
    have hne : e' ≠ e := fun heq => hout (heq ▸ he)
    have hmem : e ∈ c.cacheMap := hperm.mem_iff.1 (List.mem_of_mem_take he)
    exact lt_of_le_of_ne hle fun hc => hne (List.inj_on_of_nodup_map h he' hmem hc)

variable [DecidableEq K]

/-! ## The map's operations -/

/-- The entry of `key`, where the map has one (`cacheMap.find(key)`). -/
def find (c : LruCache K V) (key : K) : Option (Entry K V) := c.cacheMap.find? (·.key = key)

/-- The entries with the one of `key` given the value `v` and the counter `n`. -/
def setEntry (l : List (Entry K V)) (key : K) (v : V) (n : Nat) : List (Entry K V) :=
  l.map fun e => if e.key = key then ⟨key, v, n⟩ else e

@[simp]
theorem setEntry_keys (l : List (Entry K V)) (key : K) (v : V) (n : Nat) :
    (setEntry l key v n).map Entry.key = l.map Entry.key := by
  simp only [setEntry, List.map_map]
  congr 1
  funext e
  by_cases h : e.key = key <;> simp [h]

theorem find_eq_none {c : LruCache K V} {key : K} :
    c.find key = none ↔ key ∉ c.cacheMap.map Entry.key := by
  simp [find, List.find?_eq_none]

/-- `_emplace(key, v)`, behind `insert` and `emplace`: truncate if needed, then write the value
with the next counter. -/
def _emplace (key : K) (v : V) (c : LruCache K V) : LruCache K V :=
  let c := c.truncate_if_needed
  match h : c.find key with
  | none =>
    { c with
      cacheMap := c.cacheMap ++ [⟨key, v, c.accessCounter⟩]
      accessCounter := c.accessCounter + 1
      keys_nodup := by
        rw [List.map_append, List.nodup_append]
        refine ⟨c.keys_nodup, List.nodup_singleton _, fun a ha b hb hab => ?_⟩
        rw [List.map_singleton, List.mem_singleton] at hb
        subst hab hb
        exact find_eq_none.1 h ha }
  | some _ =>
    { c with
      cacheMap := setEntry c.cacheMap key v c.accessCounter
      accessCounter := c.accessCounter + 1
      keys_nodup := by rw [setEntry_keys]; exact c.keys_nodup }

/-- `emplace(key, v)`. -/
def emplace (key : K) (v : V) (c : LruCache K V) : LruCache K V := c._emplace key v

/-- `insert(key, v)`. -/
def insert (key : K) (v : V) (c : LruCache K V) : LruCache K V := c._emplace key v

/-- The entry of `key` read: its counter moved to the next one. -/
def touch (c : LruCache K V) (e : Entry K V) : LruCache K V :=
  { c with
    cacheMap := setEntry c.cacheMap e.key e.value c.accessCounter
    accessCounter := c.accessCounter + 1
    keys_nodup := by rw [setEntry_keys]; exact c.keys_nodup }

/-- `get(key, value)`: the value, where the map has the key, which it marks as read. -/
def get (key : K) (c : LruCache K V) : Option V × LruCache K V :=
  match c.find key with
  | some e => (some e.value, c.touch e)
  | none => (none, c)

/-- `exists(key)`: whether the map has the key, which it marks as read. -/
def «exists» (key : K) (c : LruCache K V) : Bool × LruCache K V :=
  match c.find key with
  | some e => (true, c.touch e)
  | none => (false, c)

/-- `erase(key)`. -/
def erase (key : K) (c : LruCache K V) : LruCache K V :=
  { c with
    cacheMap := c.cacheMap.filter (·.key ≠ key)
    keys_nodup := c.keys_nodup.sublist (List.filter_sublist.map _) }

/-- `clear()`. -/
def clear (c : LruCache K V) : LruCache K V :=
  { c with cacheMap := [], keys_nodup := List.nodup_nil }

/-- `size()`. -/
def size (c : LruCache K V) : Nat := c.cacheMap.length

/-- `unordered_lru_cache(_maxSize, _truncateThreshold)`: empty, with the threshold twice the
size when it is given as zero; it asserts that the size is not zero. -/
def init (maxSize truncateThreshold : Nat) : Except Abort (LruCache K V) :=
  if maxSize = 0 then .error .assertion
  else .ok ⟨[], maxSize, if truncateThreshold = 0 then maxSize * 2 else truncateThreshold, 0,
    List.nodup_nil⟩

/-! ## Runs -/

/-- The operations of the cache. -/
inductive Op (K V : Type)
  | insert (key : K) (v : V)
  | emplace (key : K) (v : V)
  | get (key : K)
  | «exists» (key : K)
  | erase (key : K)
  | clear

/-- The cache after an operation. -/
def Op.apply : Op K V → LruCache K V → LruCache K V
  | .insert key v, c => c.insert key v
  | .emplace key v, c => c.emplace key v
  | .get key, c => (c.get key).2
  | .exists key, c => (c.exists key).2
  | .erase key, c => c.erase key
  | .clear, c => c.clear

/-- The map the operations stand for: under each key, the value last inserted, until the key
is erased or the map cleared. -/
def Op.ref : Op K V → (K → Option V) → (K → Option V)
  | .insert key v, m | .emplace key v, m => Function.update m key (some v)
  | .get _, m | .exists _, m => m
  | .erase key, m => Function.update m key none
  | .clear, _ => fun _ => none

/-- A run of operations, on the cache and on the map it stands for. -/
def run : List (Op K V) → LruCache K V × (K → Option V) → LruCache K V × (K → Option V)
  | [], s => s
  | op :: ops, (c, m) => run ops (op.apply c, op.ref m)

/-! ## The entries -/

theorem mem_of_find {c : LruCache K V} {key : K} {e : Entry K V} (h : c.find key = some e) :
    e ∈ c.cacheMap ∧ e.key = key := by
  have h' : c.cacheMap.find? (·.key = key) = some e := h
  have hp := List.find?_some h'
  exact ⟨List.mem_of_find?_eq_some h', of_decide_eq_true hp⟩

theorem mem_setEntry {l : List (Entry K V)} {key : K} {v : V} {n : Nat} {e : Entry K V}
    (h : e ∈ setEntry l key v n) : e = ⟨key, v, n⟩ ∨ (e ∈ l ∧ e.key ≠ key) := by
  obtain ⟨e', he', rfl⟩ := List.mem_map.1 h
  by_cases hk : e'.key = key
  · exact .inl (if_pos hk)
  · rw [if_neg hk]
    exact .inr ⟨he', hk⟩

/-- Giving one entry a counter above all others keeps the counters distinct. -/
theorem counters_nodup_setEntry {l : List (Entry K V)} {key : K} {v : V} {n : Nat}
    (hkeys : (l.map Entry.key).Nodup) (hcounters : (l.map Entry.counter).Nodup)
    (hlt : ∀ e ∈ l, e.counter < n) : ((setEntry l key v n).map Entry.counter).Nodup := by
  rw [setEntry, List.map_map]
  refine hkeys.of_map Entry.key |>.map_on fun x hx y hy hxy => ?_
  by_cases hxk : x.key = key <;> by_cases hyk : y.key = key <;>
    simp only [Function.comp, hxk, hyk, if_true, if_false] at hxy
  · exact List.inj_on_of_nodup_map hkeys hx hy (hxk.trans hyk.symm)
  · exact absurd hxy (hlt y hy).ne'
  · exact absurd hxy (hlt x hx).ne
  · exact List.inj_on_of_nodup_map hcounters hx hy hxy

/-! ## Properties of the stored pairs -/

/-- Every entry of the map satisfies `P` on its key and value. -/
def AllEntries (P : K → V → Prop) (c : LruCache K V) : Prop := ∀ e ∈ c.cacheMap, P e.key e.value

variable {P Q : K → V → Prop} {c : LruCache K V}

omit [DecidableEq K] in
theorem AllEntries.mono (hc : c.AllEntries P) (hPQ : ∀ k v, P k v → Q k v) : c.AllEntries Q :=
  fun e he => hPQ _ _ (hc e he)

omit [DecidableEq K] in
theorem AllEntries.truncate (hc : c.AllEntries P) : c.truncate_if_needed.AllEntries P :=
  fun e he => hc e (mem_of_mem_truncate he)

theorem AllEntries.setEntry {l : List (Entry K V)} {key : K} {v : V} {n : Nat}
    (hl : ∀ e ∈ l, P e.key e.value) (hkv : P key v) :
    ∀ e ∈ LruCache.setEntry l key v n, P e.key e.value := by
  intro e he
  rcases mem_setEntry he with rfl | ⟨he, -⟩
  · exact hkv
  · exact hl e he

/-- A write keeps a property of the pairs when the written pair has it. -/
theorem AllEntries.insert (hc : c.AllEntries P) {key : K} {v : V} (hkv : P key v) :
    (c.insert key v).AllEntries P := by
  have ht := hc.truncate
  unfold LruCache.insert LruCache._emplace
  dsimp only
  split
  · intro e he
    rcases List.mem_append.1 he with he | he
    · exact ht e he
    · rw [List.mem_singleton] at he
      subst he
      exact hkv
  · exact AllEntries.setEntry ht hkv

/-- A read moves a counter and keeps every pair. -/
theorem AllEntries.get (hc : c.AllEntries P) (key : K) : (c.get key).2.AllEntries P := by
  unfold LruCache.get
  split
  · rename_i e he
    have hmem := (mem_of_find he).1
    exact AllEntries.setEntry hc (hc e hmem)
  · exact hc

theorem AllEntries.erase (hc : c.AllEntries P) (key : K) : (c.erase key).AllEntries P :=
  fun e he => hc e (List.mem_filter.1 he).1

/-- What `get` returns is the value of an entry under the key. -/
theorem get_eq_some {key : K} {v : V} (h : (c.get key).1 = some v) :
    ∃ e ∈ c.cacheMap, e.key = key ∧ e.value = v := by
  unfold LruCache.get at h
  split at h
  · rename_i e he
    cases h
    obtain ⟨hmem, hkey⟩ := mem_of_find he
    exact ⟨e, hmem, hkey, rfl⟩
  · cases h

/-! ## What every state satisfies -/

/-- What every state of the cache satisfies, for the map `m` it stands for: its entries are
values of `m`, its counters distinct and below `accessCounter`, and it holds at most
`max truncateThreshold maxSize + 1` entries. -/
structure Inv (c : LruCache K V) (m : K → Option V) : Prop where
  sound : ∀ e ∈ c.cacheMap, m e.key = some e.value
  counters_nodup : (c.cacheMap.map Entry.counter).Nodup
  counters_lt : ∀ e ∈ c.cacheMap, e.counter < c.accessCounter
  size_le : c.cacheMap.length ≤ max c.truncateThreshold c.maxSize + 1

variable {m : K → Option V}

omit [DecidableEq K] in
theorem Inv.truncate (hc : Inv c m) : Inv c.truncate_if_needed m where
  sound e he := hc.sound e (mem_of_mem_truncate he)
  counters_nodup := counters_nodup_truncate hc.counters_nodup
  counters_lt e he := by
    rw [truncate_accessCounter]
    exact hc.counters_lt e (mem_of_mem_truncate he)
  size_le := by
    have := truncate_length_le c
    simp only [truncate_truncateThreshold, truncate_maxSize]
    omega

theorem Inv._emplace (hc : Inv c m) (key : K) (v : V) :
    Inv (c._emplace key v) (Function.update m key (some v)) := by
  have ht := hc.truncate
  have hlen := truncate_length_le c
  unfold LruCache._emplace
  dsimp only
  split
  · rename_i hnone
    refine ⟨fun e he => ?_, ?_, fun e he => ?_, ?_⟩
    · rcases List.mem_append.1 he with he | he
      · have hne : e.key ≠ key := fun hk =>
          find_eq_none.1 hnone (hk ▸ List.mem_map_of_mem he)
        rw [Function.update_of_ne hne]
        exact ht.sound e he
      · rw [List.mem_singleton] at he
        subst he
        exact Function.update_self _ _ _
    · rw [List.map_append, List.nodup_append]
      refine ⟨ht.counters_nodup, List.nodup_singleton _, fun a ha b hb hab => ?_⟩
      obtain ⟨e, he, rfl⟩ := List.mem_map.1 ha
      rw [List.map_singleton, List.mem_singleton] at hb
      exact absurd (hab.trans hb) (ht.counters_lt e he).ne
    · rcases List.mem_append.1 he with he | he
      · exact Nat.lt_succ_of_lt (ht.counters_lt e he)
      · rw [List.mem_singleton] at he
        subst he
        exact Nat.lt_succ_self _
    · simp only [List.length_append, List.length_singleton, truncate_truncateThreshold,
        truncate_maxSize]
      omega
  · refine ⟨fun e he => ?_, counters_nodup_setEntry c.truncate_if_needed.keys_nodup
      ht.counters_nodup ht.counters_lt, fun e he => ?_, ?_⟩
    · rcases mem_setEntry he with rfl | ⟨he, hne⟩
      · exact Function.update_self _ _ _
      · rw [Function.update_of_ne hne]
        exact ht.sound e he
    · rcases mem_setEntry he with rfl | ⟨he, -⟩
      · exact Nat.lt_succ_self _
      · exact Nat.lt_succ_of_lt (ht.counters_lt e he)
    · simp only [setEntry, List.length_map, truncate_truncateThreshold, truncate_maxSize]
      omega

theorem Inv.touch (hc : Inv c m) {e : Entry K V} (he : e ∈ c.cacheMap) : Inv (c.touch e) m where
  sound e' he' := by
    rcases mem_setEntry he' with rfl | ⟨he', -⟩
    · exact hc.sound e he
    · exact hc.sound e' he'
  counters_nodup := counters_nodup_setEntry c.keys_nodup hc.counters_nodup hc.counters_lt
  counters_lt e' he' := by
    rcases mem_setEntry he' with rfl | ⟨he', -⟩
    · exact Nat.lt_succ_self _
    · exact Nat.lt_succ_of_lt (hc.counters_lt e' he')
  size_le := by
    simp only [LruCache.touch, setEntry, List.length_map]
    exact hc.size_le

theorem Inv.erase (hc : Inv c m) (key : K) : Inv (c.erase key) (Function.update m key none) where
  sound e he := by
    obtain ⟨he, hne⟩ := List.mem_filter.1 he
    rw [Function.update_of_ne (of_decide_eq_true hne)]
    exact hc.sound e he
  counters_nodup := hc.counters_nodup.sublist (List.filter_sublist.map _)
  counters_lt e he := hc.counters_lt e (List.mem_filter.1 he).1
  size_le := le_trans (List.length_filter_le _ _) hc.size_le

omit [DecidableEq K] in
theorem inv_clear (c : LruCache K V) : Inv c.clear fun _ => none where
  sound _ he := absurd he List.not_mem_nil
  counters_nodup := List.nodup_nil
  counters_lt _ he := absurd he List.not_mem_nil
  size_le := Nat.zero_le _

/-- `get` returns a value of the map the cache stands for. -/
theorem Inv.get_sound (hc : Inv c m) {key : K} {v : V} (h : (c.get key).1 = some v) :
    m key = some v := by
  unfold get at h
  split at h
  · rename_i e he
    obtain ⟨hmem, rfl⟩ := mem_of_find he
    cases h
    exact hc.sound e hmem
  · cases h

/-- **Each operation keeps the invariant.** -/
theorem Inv.apply (hc : Inv c m) (op : Op K V) : Inv (op.apply c) (op.ref m) := by
  cases op with
  | insert key v => exact hc._emplace key v
  | emplace key v => exact hc._emplace key v
  | get key =>
    show Inv (c.get key).2 m
    unfold get
    split
    · exact hc.touch (mem_of_find ‹_›).1
    · exact hc
  | «exists» key =>
    show Inv (c.exists key).2 m
    unfold LruCache.exists
    split
    · exact hc.touch (mem_of_find ‹_›).1
    · exact hc
  | erase key => exact hc.erase key
  | clear => exact inv_clear c

/-- **Every run keeps the invariant.** -/
theorem Inv.run (hc : Inv c m) (ops : List (Op K V)) :
    Inv (LruCache.run ops (c, m)).1 (LruCache.run ops (c, m)).2 := by
  induction ops generalizing c m with
  | nil => exact hc
  | cons op ops ih => exact ih (hc.apply op)

omit [DecidableEq K] in
theorem Inv.init {maxSize truncateThreshold : Nat} {c₀ : LruCache K V}
    (h : LruCache.init maxSize truncateThreshold = .ok c₀) : Inv c₀ fun _ => none := by
  unfold LruCache.init at h
  split at h
  · cases h
  · cases h
    exact ⟨fun _ he => absurd he List.not_mem_nil, List.nodup_nil,
      fun _ he => absurd he List.not_mem_nil, Nat.zero_le _⟩

/-- **The cache over every run from its construction**: `get` returns the value last
inserted under the key and not erased or cleared since; the counters are distinct and below
`accessCounter`; the map holds at most `max truncateThreshold maxSize + 1` entries; and a
truncation would keep exactly the `maxSize` entries with the largest counters. -/
theorem run_spec {maxSize truncateThreshold : Nat} {c₀ : LruCache K V}
    (hinit : LruCache.init maxSize truncateThreshold = .ok c₀) (ops : List (Op K V)) :
    let s := LruCache.run ops (c₀, fun _ => none)
    (∀ key v, (s.1.get key).1 = some v → s.2 key = some v) ∧
      (s.1.cacheMap.map Entry.counter).Nodup ∧
      (∀ e ∈ s.1.cacheMap, e.counter < s.1.accessCounter) ∧
      s.1.size ≤ max s.1.truncateThreshold s.1.maxSize + 1 ∧
      (s.1.truncateThreshold < s.1.size →
        s.1.truncate_if_needed.cacheMap.length = min s.1.maxSize s.1.size ∧
        (∀ e ∈ s.1.truncate_if_needed.cacheMap, e ∈ s.1.cacheMap) ∧
        ∀ e ∈ s.1.truncate_if_needed.cacheMap, ∀ e' ∈ s.1.cacheMap,
          e' ∉ s.1.truncate_if_needed.cacheMap → e'.counter < e.counter) := by
  have hinv := (Inv.init hinit).run ops
  exact ⟨fun _ _ h => hinv.get_sound h, hinv.counters_nodup, hinv.counters_lt, hinv.size_le,
    truncate_keeps_latest hinv.counters_nodup⟩

theorem run_spec_three :
    ∃ c₀ : LruCache Nat Nat, init 3 0 = .ok c₀ ∧
      let s := run [.insert 1 10, .insert 2 20, .erase 1, .get 2] (c₀, fun _ => none)
      (s.1.get 2).1 = some 20 ∧ s.2 2 = some 20 ∧
        s.1.size ≤ max s.1.truncateThreshold s.1.maxSize + 1 := by
  have hinit : init 3 0 = .ok (⟨[], 3, 6, 0, List.nodup_nil⟩ : LruCache Nat Nat) := rfl
  have h := run_spec hinit [.insert 1 10, .insert 2 20, .erase 1, .get 2]
  have hget : ((run [.insert 1 10, .insert 2 20, .erase 1, .get 2]
      (⟨[], 3, 6, 0, List.nodup_nil⟩, fun _ => none)).1.get 2).1 = some 20 := by decide
  exact ⟨_, hinit, hget, h.1 2 20 hget, h.2.2.2.1⟩

/-- With a threshold below `maxSize`, which the constructor accepts, the map outgrows
`truncateThreshold + 1`: after four inserts into `unordered_lru_cache(3, 1)` it holds four
entries, the truncations before the last two inserts keeping up to three. -/
theorem size_exceeds_threshold :
    ∃ c₀ : LruCache Nat Nat, init 3 1 = .ok c₀ ∧
      let c := (run [.insert 0 0, .insert 1 1, .insert 2 2, .insert 3 3] (c₀, fun _ => none)).1
      c.truncateThreshold + 1 < c.size :=
  ⟨⟨[], 3, 1, 0, List.nodup_nil⟩, rfl, by decide⟩

end LruCache

end NowpConsensus
