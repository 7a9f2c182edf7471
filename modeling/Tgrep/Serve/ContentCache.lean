import Tgrep.Data.Counter
import Tgrep.Data.Lru
import Tgrep.Data.Run
import Tgrep.Data.Tally

/-!
# The cache of file contents

Searches keep the files that they have read and decoded in a cache, which bounds the number of its
entries and the bytes that they take. A mutation of the index removes the paths that it is about
and advances a generation. A search reads its files outside every lock; it inserts them only if
the generation is the one that it found before.

## Main definitions

* `DecodedFile`, `Cached`: a file, and a file with the step in which it was read.
* `ContentCache`, `ContentCache.put`, `ContentCache.evictToFit`, … — the cache and its operations.
* `ContentCache.Accounted`: the byte total is that of the entries, and within the limits.
* `CacheRun.State`, `CacheRun.step`: the searches and the mutations of a server.

## Main results

* `ContentCache.Accounted.apply`: every operation keeps the accounts.
* `CacheRun.step_inv`: every step keeps the entries fresh.
* `CacheRun.cache_fresh`: both, for every sequence of operations and every run of a server.

## Implementation notes

The map with the entries is a parameter: what it returns for an entry that it replaces or drops is
one of its laws. A search with another encoding neither reads nor writes the cache and is left
out. The generation is a number, which no run of a server counts beyond 64 bits; the step in which
a file was read, and that of the last invalidation of a path, are history.
-/

namespace Tgrep

open FinMap Option List

/-- The most entries of the cache. -/
def CACHE_CAPACITY : ℕ := 50000

/-- The bytes that the entries may take. -/
def CACHE_MAX_BYTES : ℕ := 1024 * 1024 * 1024

/-- The bytes that one entry may take. -/
def CACHE_MAX_ENTRY_BYTES : ℕ := 64 * 1024 * 1024

/-- A file as it was decoded. -/
structure DecodedFile where
  /-- Its text. -/
  text : String
  /-- The memory of the text. -/
  capacity : ℕ
  /-- The memory of the map to the offsets of the file. -/
  fixupsBytes : ℕ
  /-- The bytes of the file. -/
  sourceBytes : ℕ
  deriving DecidableEq

/-- What an entry takes. -/
def DecodedFile.heapBytes (f : DecodedFile) : ℕ := f.capacity + f.fixupsBytes

/-- A file, and the step in which it was read. -/
structure Cached where
  /-- The file. -/
  file : DecodedFile
  /-- The step. -/
  readAt : ℕ
  deriving DecidableEq

/-- A bounded cache of files. -/
structure ContentCache (library : LruCache String Cached) where
  /-- The entries. -/
  lru : library.State
  /-- The bytes that they take. -/
  bytes : ℕ
  /-- The bytes that they may take. -/
  maxBytes : ℕ
  /-- The bytes that one of them may take. -/
  maxEntryBytes : ℕ

/-- The operations on a cache. -/
inductive CacheOp
  | put (key : String) (value : Cached)
  | touch (key : String)
  | pop (key : String)
  | clear
  | evictToFit

namespace ContentCache

variable {library : LruCache String Cached}

/-- A cache without entries. -/
def new (library : LruCache String Cached) (capacity maxBytes maxEntryBytes : ℕ) :
    ContentCache library :=
  ⟨library.new capacity, 0, maxBytes, maxEntryBytes⟩

/-- The entry of a path. -/
def peek (c : ContentCache library) (key : String) : Option Cached :=
  (library.contents c.lru).get? key

/-- An entry is used. -/
def touch (c : ContentCache library) (key : String) : ContentCache library :=
  { c with lru := library.promote c.lru key }

/-- Drop the least recently used entries until the rest fits. -/
def evictLoop : ℕ → ContentCache library → ContentCache library
  | 0, c => c
  | fuel + 1, c =>
    if c.bytes > c.maxBytes then
      match library.popLru c.lru with
      | (lru, some (_, evicted)) =>
        evictLoop fuel { c with lru := lru, bytes := c.bytes - evicted.file.heapBytes }
      | (lru, none) => { c with lru := lru, bytes := 0 }
    else c

/-- Every round drops an entry, or finds none and is the last. -/
def evictToFit (c : ContentCache library) : ContentCache library :=
  evictLoop ((library.contents c.lru).keys.card + 1) c

/-- Set an entry, unless it is too large. -/
def put (c : ContentCache library) (key : String) (value : Cached) : ContentCache library :=
  let size := value.file.heapBytes
  if size > c.maxEntryBytes then c
  else
    let (lru, old) := library.push c.lru key value
    let bytes := match old with
      | some (_, old) => c.bytes - old.file.heapBytes
      | none => c.bytes
    evictToFit { c with lru := lru, bytes := Counter.saturatingAdd bytes size }

/-- Remove an entry. -/
def pop (c : ContentCache library) (key : String) : ContentCache library :=
  match library.pop c.lru key with
  | (lru, some old) => { c with lru := lru, bytes := c.bytes - old.file.heapBytes }
  | (lru, none) => { c with lru := lru }

/-- Remove all entries. -/
def clear (c : ContentCache library) : ContentCache library :=
  { c with lru := library.clear c.lru, bytes := 0 }

/-- One operation. -/
def apply (c : ContentCache library) : CacheOp → ContentCache library
  | .put key value => c.put key value
  | .touch key => c.touch key
  | .pop key => c.pop key
  | .clear => c.clear
  | .evictToFit => c.evictToFit

/-! ## The accounts -/

/-- What an entry takes, whatever its path. -/
def entryBytes (_ : String) (value : Cached) : ℤ := value.file.heapBytes

/-- The bytes that all entries take. -/
def totalBytes (c : ContentCache library) : ℤ := (library.contents c.lru).tally entryBytes

/-- The byte total is that of the entries, it is within the limit, and so is every entry. -/
structure Accounted (c : ContentCache library) : Prop where
  /-- The total. -/
  bytes : (c.bytes : ℤ) = c.totalBytes
  /-- The limit of the total. -/
  le_max : c.bytes ≤ c.maxBytes
  /-- The limit of an entry. -/
  entry_le : ∀ key value, c.peek key = some value → value.file.heapBytes ≤ c.maxEntryBytes

section Accounts

variable {c : ContentCache library} {key : String} {value : Cached}

/-- The total after an entry is set that was not there. -/
lemma tally_insert {m : FinMap String Cached} (h : m.get? key = none) :
    (m.insert key value).tally entryBytes = m.tally entryBytes + value.file.heapBytes := by
  have hput := m.tally_put entryBytes key (some value)
  rw [h] at hput
  have hsame : (m.insert key value).tally entryBytes = (m.put key (some value)).tally entryBytes :=
    rfl
  rw [hsame, hput]
  simp [entryBytes]

/-- The total after an entry is removed. -/
lemma tally_erase {m : FinMap String Cached} (h : m.get? key = some value) :
    (m.erase key).tally entryBytes + value.file.heapBytes = m.tally entryBytes := by
  have hput := m.tally_put entryBytes key none
  rw [h] at hput
  have hsame : (m.erase key).tally entryBytes = (m.put key none).tally entryBytes := rfl
  rw [hsame, hput]
  simp [entryBytes]

/-- An entry takes no more than the total. -/
lemma heapBytes_le {bytes : ℕ} {m : FinMap String Cached}
    (hbytes : (bytes : ℤ) = m.tally entryBytes) (h : m.get? key = some value) :
    value.file.heapBytes ≤ bytes := by
  have hle := le_tally (f := entryBytes) (fun _ v => Int.natCast_nonneg v.file.heapBytes) h
  rw [← hbytes] at hle
  exact Int.ofNat_le.mp hle

/-- **Eviction**: the total stays that of the entries and comes within its limit; no entry is new
or changes. -/
lemma evictLoop_spec {fuel : ℕ} (hbytes : (c.bytes : ℤ) = c.totalBytes)
    (hfuel : (library.contents c.lru).keys.card < fuel) :
    ((evictLoop fuel c).bytes : ℤ) = (evictLoop fuel c).totalBytes ∧
      (evictLoop fuel c).bytes ≤ c.maxBytes ∧ (evictLoop fuel c).maxBytes = c.maxBytes ∧
      (evictLoop fuel c).maxEntryBytes = c.maxEntryBytes ∧
      ∀ key value, (evictLoop fuel c).peek key = some value → c.peek key = some value := by
  induction fuel generalizing c with
  | zero => exact absurd hfuel (Nat.not_lt_zero _)
  | succ fuel ih =>
    by_cases hlarge : c.bytes > c.maxBytes
    · cases hpop : (library.popLru c.lru).2 with
      | none =>
        -- the total of no entries is within every limit
        have hempty := library.popLru_none c.lru hpop
        rw [totalBytes, hempty, tally_empty] at hbytes
        omega
      | some entry =>
        obtain ⟨key, old⟩ := entry
        obtain ⟨hget, hcontents⟩ := library.popLru_some c.lru key old hpop
        have hround : evictLoop (fuel + 1) c = evictLoop fuel
            { c with
              lru := (library.popLru c.lru).1
              bytes := c.bytes - old.file.heapBytes } := by
          have hpair : library.popLru c.lru = ((library.popLru c.lru).1, some (key, old)) :=
            Prod.ext rfl hpop
          rw [evictLoop, if_pos hlarge, hpair]
        have hle := heapBytes_le hbytes hget
        have herase := tally_erase hget
        have hcard : (library.contents (library.popLru c.lru).1).keys.card < fuel := by
          rw [hcontents, keys_erase, Finset.card_erase_of_mem (mem_keys_of_get? hget)]
          have hpos := Finset.card_pos.mpr ⟨key, mem_keys_of_get? hget⟩
          omega
        have hrest : ((c.bytes - old.file.heapBytes : ℕ) : ℤ) =
            (library.contents (library.popLru c.lru).1).tally entryBytes := by
          rw [hcontents, Int.ofNat_sub hle, hbytes, totalBytes]
          omega
        obtain ⟨htotal, hmax, hmaxBytes, hmaxEntry, hentries⟩ := @ih { c with
          lru := (library.popLru c.lru).1
          bytes := c.bytes - old.file.heapBytes } hrest hcard
        rw [hround]
        refine ⟨htotal, hmax, hmaxBytes, hmaxEntry, fun key' value' hpeek => ?_⟩
        have hbefore := hentries key' value' hpeek
        rw [peek, hcontents, get?_erase] at hbefore
        split_ifs at hbefore
        exact hbefore
    · have hdone : evictLoop (fuel + 1) c = c := by
        rw [evictLoop, if_neg hlarge]
      rw [hdone]
      exact ⟨hbytes, Nat.le_of_not_lt hlarge, rfl, rfl, fun _ _ h => h⟩

/-- Eviction of a cache whose total is that of its entries. -/
lemma evictToFit_spec (hbytes : (c.bytes : ℤ) = c.totalBytes)
    (hentry : ∀ key value, c.peek key = some value → value.file.heapBytes ≤ c.maxEntryBytes) :
    c.evictToFit.Accounted ∧ c.evictToFit.maxBytes = c.maxBytes ∧
      c.evictToFit.maxEntryBytes = c.maxEntryBytes ∧
      ∀ key value, c.evictToFit.peek key = some value → c.peek key = some value := by
  obtain ⟨htotal, hmax, hmaxBytes, hmaxEntry, hentries⟩ :=
    evictLoop_spec hbytes (Nat.lt_succ_self (library.contents c.lru).keys.card)
  refine ⟨⟨htotal, hmaxBytes.symm ▸ hmax, fun key value hpeek => ?_⟩, hmaxBytes, hmaxEntry,
    hentries⟩
  exact hmaxEntry.symm ▸ hentry key value (hentries key value hpeek)

/-- **Setting an entry** replaces, drops and evicts entries, and changes no other. -/
lemma put_spec (h : c.Accounted) (hlimits : c.maxBytes + c.maxEntryBytes < Counter.size) :
    (c.put key value).Accounted ∧ (c.put key value).maxBytes = c.maxBytes ∧
      (c.put key value).maxEntryBytes = c.maxEntryBytes ∧
      ∀ key' value', (c.put key value).peek key' = some value' →
        (key' = key ∧ value' = value) ∨ c.peek key' = some value' := by
  unfold put
  dsimp only
  split_ifs with hsize
  · exact ⟨h, rfl, rfl, fun _ _ hpeek => .inr hpeek⟩
  · -- the total before eviction, and the entries
    obtain ⟨bytes, hbytes, htotal, hle⟩ : ∃ bytes,
        bytes = (match (library.push c.lru key value).2 with
          | some (_, old) => c.bytes - old.file.heapBytes
          | none => c.bytes) ∧
        ((bytes + value.file.heapBytes : ℕ) : ℤ) =
          (library.contents (library.push c.lru key value).1).tally entryBytes ∧
        bytes ≤ c.bytes := by
      refine ⟨_, rfl, ?_⟩
      have hsum := h.bytes
      cases hpush : (library.push c.lru key value).2 with
      | none =>
        obtain ⟨hnone, hcontents⟩ := library.push_none c.lru key value hpush
        refine ⟨?_, le_rfl⟩
        rw [hcontents, tally_insert hnone, Nat.cast_add, hsum, totalBytes]
      | some entry =>
        obtain ⟨key', old⟩ := entry
        obtain ⟨hget, hkey, hcontents⟩ := library.push_some c.lru key value key' old hpush
        have hnone : ((library.contents c.lru).erase key').get? key = none := by
          rw [get?_erase]
          split_ifs with heq
          · rfl
          · exact hkey.resolve_left fun heq' => heq heq'.symm
        have herase := tally_erase hget
        have hold := heapBytes_le hsum hget
        refine ⟨?_, Nat.sub_le _ _⟩
        dsimp only
        rw [hcontents, tally_insert hnone, Nat.cast_add, Int.ofNat_sub hold, hsum, totalBytes]
        omega
    have hadd : Counter.saturatingAdd bytes value.file.heapBytes =
        bytes + value.file.heapBytes := by
      have hmax := h.le_max
      unfold Counter.saturatingAdd
      omega
    have hentries : ∀ key' value', (library.contents (library.push c.lru key value).1).get? key' =
        some value' → (key' = key ∧ value' = value) ∨ c.peek key' = some value' := by
      intro key' value' hget
      cases hpush : (library.push c.lru key value).2 with
      | none =>
        rw [(library.push_none c.lru key value hpush).2, get?_insert] at hget
        split_ifs at hget with heq
        · exact .inl ⟨heq, (some.inj hget).symm⟩
        · exact .inr hget
      | some entry =>
        rw [(library.push_some c.lru key value entry.1 entry.2 hpush).2.2, get?_insert,
          get?_erase] at hget
        split_ifs at hget with heq
        · exact .inl ⟨heq, (some.inj hget).symm⟩
        · exact .inr hget
    obtain ⟨haccounted, hmaxBytes, hmaxEntry, hkept⟩ := @evictToFit_spec library { c with
        lru := (library.push c.lru key value).1
        bytes := Counter.saturatingAdd bytes value.file.heapBytes }
      (by rw [hadd]; exact htotal) (by
        intro key' value' hget
        rcases hentries key' value' hget with ⟨rfl, rfl⟩ | hbefore
        · exact Nat.le_of_not_lt hsize
        · exact h.entry_le key' value' hbefore)
    rw [← hbytes]
    exact ⟨haccounted, hmaxBytes, hmaxEntry, fun key' value' hpeek =>
      hentries key' value' (hkept key' value' hpeek)⟩

/-- **Removing an entry** changes no other. -/
lemma pop_spec (h : c.Accounted) :
    (c.pop key).Accounted ∧ (c.pop key).maxBytes = c.maxBytes ∧
      (c.pop key).maxEntryBytes = c.maxEntryBytes ∧
      ∀ key' value', (c.pop key).peek key' = some value' →
        key' ≠ key ∧ c.peek key' = some value' := by
  obtain ⟨hold, hcontents⟩ := library.pop_eq c.lru key
  have hentries : ∀ key' value', (library.contents (library.pop c.lru key).1).get? key' =
      some value' → key' ≠ key ∧ c.peek key' = some value' := by
    intro key' value' hget
    rw [hcontents, get?_erase] at hget
    split_ifs at hget with heq
    exact ⟨heq, hget⟩
  cases hget : (library.contents c.lru).get? key with
  | none =>
    have hpair : library.pop c.lru key = ((library.pop c.lru key).1, none) :=
      Prod.ext rfl (hold.trans hget)
    have hpop : c.pop key = { c with lru := (library.pop c.lru key).1 } := by
      rw [pop, hpair]
    have hsame : (library.contents (library.pop c.lru key).1) = library.contents c.lru := by
      rw [hcontents]
      apply ext_get?
      intro j
      rw [get?_erase]
      split_ifs with heq
      · rw [heq, hget]
      · rfl
    rw [hpop]
    refine ⟨⟨?_, h.le_max, ?_⟩, rfl, rfl, hentries⟩
    · rw [totalBytes, hsame]
      exact h.bytes
    · exact fun key' value' hpeek => h.entry_le key' value' (hentries key' value' hpeek).2
  | some old =>
    have hpair : library.pop c.lru key = ((library.pop c.lru key).1, some old) :=
      Prod.ext rfl (hold.trans hget)
    have hpop : c.pop key =
        { c with
          lru := (library.pop c.lru key).1
          bytes := c.bytes - old.file.heapBytes } := by
      rw [pop, hpair]
    have hle := heapBytes_le h.bytes hget
    have herase := tally_erase hget
    have hsum := h.bytes
    rw [hpop]
    refine ⟨⟨?_, (Nat.sub_le _ _).trans h.le_max, ?_⟩, rfl, rfl, hentries⟩
    · rw [totalBytes, hcontents, Int.ofNat_sub hle, hsum, totalBytes]
      omega
    · exact fun key' value' hpeek => h.entry_le key' value' (hentries key' value' hpeek).2

/-- Using an entry changes none. -/
lemma touch_spec (h : c.Accounted) :
    (c.touch key).Accounted ∧ ∀ key', (c.touch key).peek key' = c.peek key' := by
  have hcontents := library.contents_promote c.lru key
  have hpeek : ∀ key', (c.touch key).peek key' = c.peek key' := fun key' => by
    rw [peek, touch, hcontents, peek]
  refine ⟨⟨?_, h.le_max, fun key' value' hvalue => ?_⟩, hpeek⟩
  · rw [totalBytes, touch, hcontents]
    exact h.bytes
  · exact h.entry_le key' value' (hpeek key' ▸ hvalue)

/-- No entry is left. -/
lemma clear_spec : c.clear.Accounted ∧ ∀ key, c.clear.peek key = none := by
  have hcontents := library.contents_clear c.lru
  have hpeek : ∀ key, c.clear.peek key = none := fun key => by
    rw [peek, clear, hcontents, get?_empty]
  refine ⟨⟨?_, Nat.zero_le _, fun key value hvalue => ?_⟩, hpeek⟩
  · rw [totalBytes, clear, hcontents, tally_empty]
    rfl
  · rw [hpeek key] at hvalue
    cases hvalue

/-- A new cache. -/
lemma accounted_new (capacity maxBytes maxEntryBytes : ℕ) :
    (new library capacity maxBytes maxEntryBytes).Accounted := by
  have hcontents := library.contents_new capacity
  refine ⟨?_, Nat.zero_le _, fun key value hvalue => ?_⟩
  · rw [totalBytes, new, hcontents, tally_empty]
    rfl
  · rw [peek, new, hcontents, get?_empty] at hvalue
    cases hvalue

/-- **Every operation keeps the accounts**, and the limits. -/
theorem Accounted.apply (h : c.Accounted) (hlimits : c.maxBytes + c.maxEntryBytes < Counter.size)
    (op : CacheOp) : (c.apply op).Accounted ∧ (c.apply op).maxBytes = c.maxBytes ∧
      (c.apply op).maxEntryBytes = c.maxEntryBytes := by
  cases op with
  | put key value =>
    obtain ⟨haccounted, hmax, hentry, -⟩ := @put_spec _ c key value h hlimits
    exact ⟨haccounted, hmax, hentry⟩
  | touch key => exact ⟨(touch_spec h).1, rfl, rfl⟩
  | pop key =>
    obtain ⟨haccounted, hmax, hentry, -⟩ := @pop_spec _ c key h
    exact ⟨haccounted, hmax, hentry⟩
  | clear => exact ⟨clear_spec.1, rfl, rfl⟩
  | evictToFit =>
    obtain ⟨haccounted, hmax, hentry, -⟩ := evictToFit_spec h.bytes h.entry_le
    exact ⟨haccounted, hmax, hentry⟩

end Accounts

/-- Every sequence of operations keeps the accounts. -/
lemma Accounted.run {c : ContentCache library} (h : c.Accounted)
    (hlimits : c.maxBytes + c.maxEntryBytes < Counter.size) (ops : List CacheOp) :
    (ops.foldl ContentCache.apply c).Accounted := by
  induction ops generalizing c with
  | nil => exact h
  | cons op ops ih =>
    obtain ⟨haccounted, hmax, hentry⟩ := h.apply hlimits op
    exact ih haccounted (hmax.symm ▸ hentry.symm ▸ hlimits)

end ContentCache

/-! ## The server -/

namespace CacheRun

/-- Where a search is with a chunk of its candidates. -/
inductive Search
  /-- Outside. -/
  | idle
  /-- It has found the generation. -/
  | loaded (generation : ℕ) (chunk : List String) (maxFilesize : Option ℕ)
  /-- It knows which of them the cache has, and reads the others. -/
  | reading (generation : ℕ) (hitKeys misses : List String) (results : List (String × Cached))

/-- The cache and what happens around it. -/
structure State (library : LruCache String Cached) where
  /-- The cache. -/
  cache : ContentCache library
  /-- The generation. -/
  generation : ℕ := 0
  /-- The searches. -/
  searches : ℕ → Search := fun _ => .idle
  /-- The number of the next step. -/
  now : ℕ := 1
  /-- The step of the last invalidation of a path, and zero if there was none. -/
  invalidated : String → ℕ := fun _ => 0

/-- What may happen. -/
inductive Event
  /-- A search finds the generation, before it looks at a chunk. -/
  | load (i : ℕ) (chunk : List String) (maxFilesize : Option ℕ)
  /-- It looks for the chunk in the cache, under the read lock. -/
  | peek (i : ℕ)
  /-- It reads the next file that the cache does not have, which may fail. -/
  | read (i : ℕ) (file : Option DecodedFile)
  /-- It updates the cache, under the write lock. -/
  | update (i : ℕ)
  /-- It ends. -/
  | stop (i : ℕ)
  /-- A mutation of the index invalidates paths, under the write lock. -/
  | invalidate (paths : List String)
  /-- The index is replaced, and with it the cache. -/
  | clear

variable {library : LruCache String Cached}

/-- The cache has the file, and the search takes files of its size. -/
def hit (cache : ContentCache library) (maxFilesize : Option ℕ) (path : String) : Bool :=
  (cache.peek path).any fun cached => maxFilesize.all fun limit => cached.file.sourceBytes ≤ limit

/-- Insert what was read, unless it is there by now. -/
def insertResult (cache : ContentCache library) (result : String × Cached) :
    ContentCache library :=
  if (cache.peek result.1).isNone then cache.put result.1 result.2 else cache

/-- Promote the hits of a search and insert what it read, unless the index has changed since. -/
def updateContentCache (cache : ContentCache library) (generation expected : ℕ)
    (hitKeys : List String) (results : List (String × Cached)) : ContentCache library :=
  if generation ≠ expected then cache
  else results.foldl insertResult (hitKeys.foldl ContentCache.touch cache)

/-- Remove paths from the cache, and advance the generation if there is one. -/
def State.invalidatePaths (s : State library) (paths : List String) : State library :=
  { s with
    cache := paths.foldl ContentCache.pop s.cache
    generation := if paths ≠ [] then s.generation + 1 else s.generation
    invalidated := fun path => if path ∈ paths then s.now else s.invalidated path }

/-- A search goes on. -/
def State.setSearch (s : State library) (i : ℕ) (search : Search) : State library :=
  { s with searches := Function.update s.searches i search }

/-- What happens in a step, besides the step being over. -/
def act (s : State library) : Event → Option (State library)
  | .load i chunk maxFilesize =>
    match s.searches i with
    | .idle => some (s.setSearch i (.loaded s.generation chunk maxFilesize))
    | _ => none
  | .peek i =>
    match s.searches i with
    | .loaded generation chunk maxFilesize =>
      some (s.setSearch i (.reading generation (chunk.filter (hit s.cache maxFilesize))
        (chunk.filter fun path => !hit s.cache maxFilesize path) []))
    | _ => none
  | .read i file =>
    match s.searches i with
    | .reading generation hitKeys (path :: misses) results =>
      let read := file.toList.map fun file => (path, ⟨file, s.now⟩)
      some (s.setSearch i (.reading generation hitKeys misses (results ++ read)))
    | _ => none
  | .update i =>
    match s.searches i with
    | .reading generation hitKeys [] results =>
      let cache := if hitKeys ≠ [] ∨ results ≠ [] then
          updateContentCache s.cache s.generation generation hitKeys results
        else s.cache
      some ({ s with cache := cache }.setSearch i .idle)
    | _ => none
  | .stop i => some (s.setSearch i .idle)
  | .invalidate paths => some (s.invalidatePaths paths)
  | .clear =>
    some { s with
      cache := s.cache.clear
      generation := s.generation + 1
      invalidated := fun _ => s.now }

/-- One step. -/
def step (s : State library) (event : Event) : Option (State library) :=
  (act s event).map fun s' => { s' with now := s.now + 1 }

/-- A server that starts. -/
def start (library : LruCache String Cached) : State library :=
  { cache := .new library CACHE_CAPACITY CACHE_MAX_BYTES CACHE_MAX_ENTRY_BYTES }

/-! ### Freshness -/

/-- Every invalidation was before a step. -/
def Before (s : State library) (time : ℕ) : Prop := ∀ path, s.invalidated path < time

/-- A search that has found the current generation has read its files after every invalidation. -/
def Search.Fresh (s : State library) : Search → Prop
  | .idle => True
  | .loaded generation _ _ => generation ≤ s.generation
  | .reading generation _ _ results => generation ≤ s.generation ∧
      (generation = s.generation → ∀ result ∈ results, Before s result.2.readAt)

/-- What holds in every state. -/
structure Inv (s : State library) : Prop where
  /-- The accounts of the cache. -/
  accounted : s.cache.Accounted
  /-- The limits of the cache. -/
  limits : s.cache.maxBytes = CACHE_MAX_BYTES ∧ s.cache.maxEntryBytes = CACHE_MAX_ENTRY_BYTES
  /-- Invalidations are past. -/
  past : Before s s.now
  /-- No entry was read before the last invalidation of its path. -/
  fresh : ∀ path cached, s.cache.peek path = some cached → s.invalidated path < cached.readAt
  /-- The searches. -/
  searches : ∀ i, (s.searches i).Fresh s

/-- The accounts and the limits of the cache of a server. -/
def Kept (c : ContentCache library) : Prop :=
  c.Accounted ∧ c.maxBytes = CACHE_MAX_BYTES ∧ c.maxEntryBytes = CACHE_MAX_ENTRY_BYTES

variable {c : ContentCache library}

/-- The limits of the server are far from the size of a word. -/
lemma Kept.lt_size (h : Kept c) : c.maxBytes + c.maxEntryBytes < Counter.size := by
  rw [h.2.1, h.2.2]
  decide

/-- Promoting hits changes no entry. -/
lemma touch_foldl (h : Kept c) (keys : List String) :
    Kept (keys.foldl ContentCache.touch c) ∧
      ∀ path, (keys.foldl ContentCache.touch c).peek path = c.peek path := by
  induction keys generalizing c with
  | nil => exact ⟨h, fun _ => rfl⟩
  | cons key keys ih =>
    obtain ⟨haccounted, hpeek⟩ := @ContentCache.touch_spec _ c key h.1
    obtain ⟨hkept, hrest⟩ := ih (c := c.touch key) ⟨haccounted, h.2⟩
    exact ⟨hkept, fun path => (hrest path).trans (hpeek path)⟩

/-- Inserting results adds no other entry. -/
lemma insert_foldl (h : Kept c) (results : List (String × Cached)) :
    Kept (results.foldl insertResult c) ∧
      ∀ path cached, (results.foldl insertResult c).peek path = some cached →
        c.peek path = some cached ∨ (path, cached) ∈ results := by
  induction results generalizing c with
  | nil => exact ⟨h, fun _ _ hpeek => .inl hpeek⟩
  | cons result results ih =>
    have hone : Kept (insertResult c result) ∧ ∀ path cached,
        (insertResult c result).peek path = some cached →
          c.peek path = some cached ∨ (path, cached) = result := by
      unfold insertResult
      split_ifs
      · obtain ⟨haccounted, hmax, hentry, hentries⟩ :=
          @ContentCache.put_spec _ c result.1 result.2 h.1 h.lt_size
        refine ⟨⟨haccounted, hmax.trans h.2.1, hentry.trans h.2.2⟩, fun path cached hpeek => ?_⟩
        rcases hentries path cached hpeek with ⟨rfl, rfl⟩ | hbefore
        · exact .inr rfl
        · exact .inl hbefore
      · exact ⟨h, fun _ _ hpeek => .inl hpeek⟩
    obtain ⟨hkept, hrest⟩ := ih hone.1
    refine ⟨hkept, fun path cached hpeek => ?_⟩
    rcases hrest path cached hpeek with hbefore | hmem
    · rcases hone.2 path cached hbefore with hold | rfl
      · exact .inl hold
      · exact .inr mem_cons_self
    · exact .inr (mem_cons_of_mem _ hmem)

/-- **An update** adds what the search has read, if the generation is still the one it found. -/
lemma updateContentCache_spec (h : Kept c) (generation expected : ℕ) (hitKeys : List String)
    (results : List (String × Cached)) :
    Kept (updateContentCache c generation expected hitKeys results) ∧
      ∀ path cached,
        (updateContentCache c generation expected hitKeys results).peek path = some cached →
          c.peek path = some cached ∨ (generation = expected ∧ (path, cached) ∈ results) := by
  unfold updateContentCache
  split_ifs with hsame
  · exact ⟨h, fun _ _ hpeek => .inl hpeek⟩
  · obtain ⟨htouched, hpeek⟩ := touch_foldl h hitKeys
    obtain ⟨hkept, hentries⟩ := insert_foldl htouched results
    refine ⟨hkept, fun path cached hvalue => ?_⟩
    rcases hentries path cached hvalue with hbefore | hmem
    · exact .inl (hpeek path ▸ hbefore)
    · exact .inr ⟨not_not.mp hsame, hmem⟩

/-- **An invalidation** leaves none of its paths. -/
lemma pop_foldl (h : Kept c) (paths : List String) :
    Kept (paths.foldl ContentCache.pop c) ∧
      ∀ path cached, (paths.foldl ContentCache.pop c).peek path = some cached →
        path ∉ paths ∧ c.peek path = some cached := by
  induction paths generalizing c with
  | nil => exact ⟨h, fun _ _ hpeek => ⟨not_mem_nil, hpeek⟩⟩
  | cons key paths ih =>
    obtain ⟨haccounted, hmax, hentry, hentries⟩ := @ContentCache.pop_spec _ c key h.1
    obtain ⟨hkept, hrest⟩ := ih (c := c.pop key) ⟨haccounted, hmax.trans h.2.1, hentry.trans h.2.2⟩
    refine ⟨hkept, fun path cached hpeek => ?_⟩
    obtain ⟨hnotMem, hmid⟩ := hrest path cached hpeek
    obtain ⟨hne, hold⟩ := hentries path cached hmid
    exact ⟨fun hmem => (mem_cons.mp hmem).elim hne hnotMem, hold⟩

section Steps

variable {s s' : State library} {event : Event} {search : Search} {i : ℕ}

/-- A search stays fresh as long as an invalidation advances the generation. -/
lemma Search.Fresh.mono (h : search.Fresh s) (hle : s.generation ≤ s'.generation)
    (hsame : s'.generation = s.generation → s'.invalidated = s.invalidated) : search.Fresh s' := by
  cases search with
  | idle => trivial
  | loaded generation chunk maxFilesize => exact Nat.le_trans h hle
  | reading generation hitKeys misses results =>
    refine ⟨h.1.trans hle, fun heq result hmem path => ?_⟩
    have hboth : s'.generation = s.generation := le_antisymm (heq ▸ h.1) hle
    rw [hsame hboth]
    exact h.2 (heq.trans hboth) result hmem path

/-- A search goes on; the others stay where they are. -/
lemma fresh_setSearch (hall : ∀ j, (s.searches j).Fresh s) (hone : search.Fresh s) (j : ℕ) :
    ((s.setSearch i search).searches j).Fresh s := by
  unfold State.setSearch
  dsimp only
  by_cases hj : j = i
  · subst hj
    rw [Function.update_self]
    exact hone
  · rw [Function.update_of_ne hj]
    exact hall j

/-- The parts of the invariant that the searches do not change. -/
lemma Inv.withSearch (h : Inv s) (hone : search.Fresh s) : Inv (s.setSearch i search) where
  accounted := h.accounted
  limits := h.limits
  past := h.past
  fresh := h.fresh
  searches j := (fresh_setSearch h.searches hone j).mono le_rfl fun _ => rfl

/-- What happens in a step keeps the invariant, as the next step sees it. -/
lemma act_inv (h : Inv s) (hact : act s event = some s') : Inv { s' with now := s.now + 1 } := by
  -- what is past stays past
  have hlater : ∀ {s'' : State library}, Inv s'' → s''.now = s.now →
      Inv { s'' with now := s.now + 1 } := fun {s''} hs hnow =>
    ⟨hs.accounted, hs.limits, fun path => Nat.lt_succ_of_lt (hnow ▸ hs.past path), hs.fresh,
      fun j => (hs.searches j).mono le_rfl fun _ => rfl⟩
  have hkept : Kept s.cache := ⟨h.accounted, h.limits⟩
  cases event with
  | load i chunk maxFilesize =>
    cases hsearch : s.searches i with
    | idle =>
      simp only [act, hsearch, some.injEq] at hact
      subst hact
      exact hlater (h.withSearch le_rfl) rfl
    | loaded _ _ _ | reading _ _ _ _ => simp [act, hsearch] at hact
  | peek i =>
    cases hsearch : s.searches i with
    | loaded generation chunk maxFilesize =>
      simp only [act, hsearch, some.injEq] at hact
      subst hact
      have hfresh := h.searches i
      rw [hsearch] at hfresh
      exact hlater (h.withSearch ⟨hfresh, fun _ => nofun⟩) rfl
    | idle | reading _ _ _ _ => simp [act, hsearch] at hact
  | read i file =>
    cases hsearch : s.searches i with
    | reading generation hitKeys misses results =>
      cases misses with
      | nil => simp [act, hsearch] at hact
      | cons path misses =>
        simp only [act, hsearch, some.injEq] at hact
        subst hact
        have hfresh := h.searches i
        rw [hsearch] at hfresh
        refine hlater (h.withSearch ⟨hfresh.1, fun heq result hmem => ?_⟩) rfl
        rcases mem_append.mp hmem with hbefore | hnow
        · exact hfresh.2 heq result hbefore
        · -- what is read now is read after every invalidation
          obtain ⟨file, -, rfl⟩ := mem_map.mp hnow
          exact h.past
    | idle | loaded _ _ _ => simp [act, hsearch] at hact
  | update i =>
    cases hsearch : s.searches i with
    | reading generation hitKeys misses results =>
      cases misses with
      | cons path misses => simp [act, hsearch] at hact
      | nil =>
        simp only [act, hsearch, some.injEq] at hact
        subst hact
        have hfresh := h.searches i
        rw [hsearch] at hfresh
        obtain ⟨cache, hcache⟩ : ∃ cache, cache = (if hitKeys ≠ [] ∨ results ≠ [] then
            updateContentCache s.cache s.generation generation hitKeys results else s.cache) :=
          ⟨_, rfl⟩
        have hspec : Kept cache ∧ ∀ path cached, cache.peek path = some cached →
            s.cache.peek path = some cached ∨
              (s.generation = generation ∧ (path, cached) ∈ results) := by
          rw [hcache]
          split_ifs
          · exact updateContentCache_spec hkept _ _ _ _
          · exact ⟨hkept, fun _ _ hpeek => .inl hpeek⟩
        have hmid : Inv { s with cache := cache } := by
          refine ⟨hspec.1.1, hspec.1.2, h.past, fun path cached hpeek => ?_, fun j =>
            (h.searches j).mono le_rfl fun _ => rfl⟩
          rcases hspec.2 path cached hpeek with hbefore | ⟨hsame, hmem⟩
          · exact h.fresh path cached hbefore
          · exact hfresh.2 hsame.symm _ hmem path
        rw [← hcache]
        exact hlater (hmid.withSearch trivial) rfl
    | idle | loaded _ _ _ => simp [act, hsearch] at hact
  | stop i =>
    cases hact
    exact hlater (h.withSearch trivial) rfl
  | invalidate paths =>
    cases hact
    obtain ⟨hpopped, hentries⟩ := pop_foldl hkept paths
    refine ⟨hpopped.1, hpopped.2, fun path => ?_, fun path cached hpeek => ?_, fun j => ?_⟩
    · change (if path ∈ paths then s.now else s.invalidated path) < s.now + 1
      split_ifs
      · exact Nat.lt_succ_self _
      · exact Nat.lt_succ_of_lt (h.past path)
    · obtain ⟨hnotMem, hbefore⟩ := hentries path cached hpeek
      change (if path ∈ paths then s.now else s.invalidated path) < cached.readAt
      rw [if_neg hnotMem]
      exact h.fresh path cached hbefore
    · refine (h.searches j).mono ?_ fun hsame => ?_
      · change s.generation ≤ if paths ≠ [] then s.generation + 1 else s.generation
        split_ifs
        · exact Nat.le_succ _
        · exact le_rfl
      · change (if paths ≠ [] then s.generation + 1 else s.generation) = s.generation at hsame
        split_ifs at hsame with hempty
        · exact absurd hsame (Nat.succ_ne_self _)
        · obtain rfl := not_not.mp hempty
          funext path
          change (if path ∈ [] then s.now else s.invalidated path) = s.invalidated path
          exact if_neg not_mem_nil
  | clear =>
    cases hact
    obtain ⟨haccounted, hpeek⟩ := @ContentCache.clear_spec _ s.cache
    refine ⟨haccounted, h.limits, fun _ => Nat.lt_succ_self _, fun path cached hvalue => ?_,
      fun j => (h.searches j).mono (Nat.le_succ _) fun hsame => ?_⟩
    · rw [hpeek path] at hvalue
      cases hvalue
    · exact absurd hsame (Nat.succ_ne_self _)

/-- **Every step keeps the invariant.** -/
theorem step_inv (h : Inv s) (hstep : step s event = some s') : Inv s' := by
  obtain ⟨s₁, hact, rfl⟩ := Option.map_eq_some_iff.mp hstep
  exact act_inv h hact

end Steps

/-- The invariant of a server that starts. -/
lemma start_inv : Inv (start library) where
  accounted := ContentCache.accounted_new _ _ _
  limits := ⟨rfl, rfl⟩
  past _ := Nat.zero_lt_one
  fresh path cached hpeek := by
    have hcontents := library.contents_new CACHE_CAPACITY
    rw [ContentCache.peek, start, ContentCache.new, hcontents, get?_empty] at hpeek
    cases hpeek
  searches _ := trivial

/-- **The cache is exact and fresh.** Every sequence of operations on a new cache, whose limits
together fit a word, leaves a byte total that is the sum of its entries and within its limit, and
no entry beyond its own. In every run of a server, with any number of searches and mutations, the
same holds of its cache, and no entry was read before the last invalidation of its path.

**Proof sketch.** The law of the map says which entry a push replaces or drops, so the total is
adjusted by just that one. A search inserts only if the generation is the one it found before it
read; then no path was invalidated in between, and each of its files was read after the last
invalidation of any path. -/
theorem cache_fresh (library : LruCache String Cached) :
    (∀ capacity maxBytes maxEntryBytes : ℕ, maxBytes + maxEntryBytes < Counter.size →
      ∀ ops : List CacheOp,
        (ops.foldl ContentCache.apply
          (.new library capacity maxBytes maxEntryBytes)).Accounted) ∧
    ∀ s : State library, Run.Reaches step (fun _ _ => True) (start library) s →
      s.cache.Accounted ∧
      ∀ path cached, s.cache.peek path = some cached → s.invalidated path < cached.readAt := by
  refine ⟨fun capacity maxBytes maxEntryBytes hlimits ops =>
    (ContentCache.accounted_new capacity maxBytes maxEntryBytes).run hlimits ops,
    fun s hreach => ?_⟩
  have hinv : Inv s :=
    hreach.invariant (fun _ _ _ hinv _ hstep => step_inv hinv hstep) start_inv
  exact ⟨hinv.accounted, hinv.fresh⟩

/-- A file that takes so many bytes. -/
def sized (bytes : ℕ) : Cached := ⟨⟨"", bytes, 0, bytes⟩, 1⟩

/-- `cache_fresh` for a cache of two entries: the third drops the first, and a larger file replaces
it. -/
theorem cache_fresh_twoEntries :
    ([.put "a" (sized 100), .put "b" (sized 100), .put "c" (sized 100),
      .put "c" (sized 300)].foldl ContentCache.apply
        (.new (ListLru.lruCache String Cached) 2 1000 1000)).bytes = 400 ∧
    ([.put "a" (sized 100), .put "b" (sized 100), .put "c" (sized 100),
      .put "c" (sized 300)].foldl ContentCache.apply
        (.new (ListLru.lruCache String Cached) 2 1000 1000)).Accounted :=
  ⟨by decide +kernel, (cache_fresh _).1 2 1000 1000 (by decide) _⟩

end CacheRun

end Tgrep
