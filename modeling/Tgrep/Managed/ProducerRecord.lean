import Tgrep.Managed.ProducerSeal
import Tgrep.Managed.VerificationPages

/-!
# What a producer records

The rows of a producer and its seal are those of the bytes it accepted, however these were cut
into writes and whatever the flushes in between reported.

## Main definitions

* `blockAt`, `firstBlocks`, `sealOf`: the blocks and the seal of a content.
* `RowsAre`: the rows are those of the first blocks of a content.
* `ProducerSeal.Holds`, `Producer.Inv`: what a producer knows of the bytes it accepted.

## Main results

* `ProducerSeal.acceptLoop_spec`: accepted bytes are hashed block by block.
* `recordLoop_spec`: a batch that repeats rows adds the rest.
* `Producer.step_inv`: every step keeps the invariant.
* `Producer.chunking_independent`: the rows and the seal depend on the bytes only.
-/

namespace Tgrep.Managed.Authentication

open List Option

open Collection (BLOCK_BYTES divCeil)

variable {η : Type} (blake3 : IncrementalHash UInt8 η Digest)

/-! ## The blocks of a content -/

/-- The bytes of a block. -/
def blockBytes (bytes : List UInt8) (i : ℕ) : List UInt8 :=
  (bytes.drop (i * BLOCK_BYTES)).take BLOCK_BYTES

/-- A block of a content. -/
def blockAt (bytes : List UInt8) (i : ℕ) : Block :=
  ⟨i, .ofNat (blockBytes bytes i).length, blake3.hash (blockBytes bytes i)⟩

/-- The first blocks of a content. -/
def firstBlocks (bytes : List UInt8) (n : ℕ) : List Block :=
  (List.range n).map (blockAt blake3 bytes)

/-- The seal of a content. -/
def sealOf (bytes : List UInt8) : MemberSeal :=
  ⟨FORMAT, .ofNat bytes.length, .ofNat (divCeil bytes.length BLOCK_BYTES),
    blake3.hash (manifestDomain ++
      rowBytes (firstBlocks blake3 bytes (divCeil bytes.length BLOCK_BYTES)))⟩

/-- The rows are those of the first blocks of a content. -/
def RowsAre (rows : ProofRows) (bytes : List UInt8) (n : ℕ) : Prop :=
  ∀ i, rows.get? i = if i < n then some (blockAt blake3 bytes i).row else none

section Blocks

variable {blake3} {bytes more : List UInt8} {rows : ProofRows} {i n : ℕ}

/-- A complete block does not change when more bytes follow. -/
lemma blockBytes_append (h : (i + 1) * BLOCK_BYTES ≤ bytes.length) :
    blockBytes (bytes ++ more) i = blockBytes bytes i := by
  have hmul : (i + 1) * BLOCK_BYTES = i * BLOCK_BYTES + BLOCK_BYTES := Nat.succ_mul i BLOCK_BYTES
  unfold blockBytes
  rw [drop_append_of_le_length (by omega), take_append_of_le_length]
  rw [length_drop]
  omega

/-- Nor do the first blocks, as long as they are complete. -/
lemma firstBlocks_append (h : n * BLOCK_BYTES ≤ bytes.length) :
    firstBlocks blake3 (bytes ++ more) n = firstBlocks blake3 bytes n := by
  unfold firstBlocks
  refine map_congr_left fun i hi => ?_
  have hle : (i + 1) * BLOCK_BYTES ≤ bytes.length :=
    (Nat.mul_le_mul_right _ (List.mem_range.mp hi)).trans h
  unfold blockAt
  rw [blockBytes_append hle]

/-- Nor do their rows. -/
lemma RowsAre.append (hrows : RowsAre blake3 rows bytes n) (h : n * BLOCK_BYTES ≤ bytes.length) :
    RowsAre blake3 rows (bytes ++ more) n := by
  intro i
  rw [hrows i]
  split_ifs with hi
  · have hle : (i + 1) * BLOCK_BYTES ≤ bytes.length := (Nat.mul_le_mul_right _ hi).trans h
    unfold blockAt
    rw [blockBytes_append hle]
  · rfl

lemma length_firstBlocks : (firstBlocks blake3 bytes n).length = n := by
  rw [firstBlocks, length_map, length_range]

/-- The bytes of a block that has begun. -/
lemma length_blockBytes (h : i * BLOCK_BYTES < bytes.length) :
    0 < (blockBytes bytes i).length ∧ (blockBytes bytes i).length ≤ BLOCK_BYTES := by
  have hpos : 0 < BLOCK_BYTES := by decide
  rw [blockBytes, length_take, length_drop]
  omega

/-- The length of such a block, as it is recorded. -/
lemma length_blockAt (h : i * BLOCK_BYTES < bytes.length) :
    0 < (blockAt blake3 bytes i).length.toNat ∧
      (blockAt blake3 bytes i).length.toNat ≤ BLOCK_BYTES := by
  obtain ⟨hpos, hle⟩ := length_blockBytes h
  have hword : (blockBytes bytes i).length < UInt32.size :=
    hle.trans_lt (by decide)
  rw [blockAt, UInt32.toNat_ofNat_of_lt' hword]
  exact ⟨hpos, hle⟩

/-- The index after the last row. -/
lemma RowsAre.nextIndex (h : RowsAre blake3 rows bytes n) : nextIndex rows = n := by
  have hmem : ∀ i, i ∈ rows.keys ↔ i < n := by
    intro i
    rw [FinMap.mem_keys, h i]
    split_ifs with hi
    · exact iff_of_true ⟨_, rfl⟩ hi
    · exact iff_of_false nofun hi
  refine le_antisymm (Finset.sup_le fun i hi => (hmem i).mp hi) ?_
  cases n with
  | zero => exact Nat.zero_le _
  | succ n => exact Finset.le_sup (f := (· + 1)) ((hmem n).mpr (Nat.lt_succ_self n))

/-- One more row. -/
lemma RowsAre.insert (h : RowsAre blake3 rows bytes n) :
    RowsAre blake3 (rows.insert n (blockAt blake3 bytes n).row) bytes (n + 1) := by
  intro i
  rw [FinMap.get?_insert, h i]
  rcases Nat.lt_trichotomy i n with hlt | rfl | hgt
  · rw [if_neg hlt.ne, if_pos hlt, if_pos (Nat.lt_succ_of_lt hlt)]
  · rw [if_pos rfl, if_pos (Nat.lt_succ_self i)]
  · rw [if_neg hgt.ne', if_neg (Nat.not_lt_of_gt hgt), if_neg (by omega)]

end Blocks

/-! ## Recording a batch -/

section Record

variable {blake3} {bytes : List UInt8} {rows rows' : ProofRows} {member : MemberRecord}

/-- The length of a block that a batch may have. -/
def Block.Valid (b : Block) : Prop := 0 < b.length.toNat ∧ b.length.toNat ≤ BLOCK_BYTES

/-- A valid block passes its check. -/
lemma Block.Valid.check {b : Block} (h : b.Valid) :
    require (¬ (b.length = 0 ∨ b.length.toNat > BLOCK_BYTES))
      (.corrupt "invalid producer authentication block") = .ok () := by
  refine if_pos ?_
  rintro (heq | hgt)
  · have hpos := h.1
    rw [heq] at hpos
    exact absurd hpos (by decide)
  · exact absurd h.2 (Nat.not_le_of_lt hgt)

variable {b : Block} {blocks : List Block} {next : ℕ}

/-- A block that the catalog has is skipped. -/
lemma recordLoop_known (hvalid : b.Valid) (hindex : b.index ≤ i64Max)
    (hget : rows.get? b.index = some b.row) :
    recordLoop rows next (b :: blocks) = recordLoop rows next blocks := by
  have hinteger : sqlInteger b.index = .ok () := if_pos hindex
  have hsame : require (b.row = b.row)
      (.corrupt "a retried producer proof differs from its immutable row") = .ok () := if_pos rfl
  rw [recordLoop, hvalid.check, hinteger, hget]
  exact congrArg (· >>= fun _ => recordLoop rows next blocks) hsame

/-- The next block is added. -/
lemma recordLoop_new (hvalid : b.Valid) (hindex : b.index ≤ i64Max)
    (hget : rows.get? b.index = none) (hnext : b.index = next) :
    recordLoop rows next (b :: blocks) =
      recordLoop (rows.insert b.index b.row) (next + 1) blocks := by
  have hinteger : sqlInteger b.index = .ok () := if_pos hindex
  have hprefix : require (b.index = next)
      (.corrupt "producer proof is not a contiguous prefix") = .ok () := if_pos hnext
  rw [recordLoop, hvalid.check, hinteger, hget]
  exact congrArg (· >>= fun _ => recordLoop (rows.insert b.index b.row) (next + 1) blocks) hprefix

/-- A block whose index leaves its column is refused. -/
lemma recordLoop_large (hvalid : b.Valid) (hindex : i64Max < b.index) :
    ∃ e, recordLoop rows next (b :: blocks) = .error e := by
  have hinteger : sqlInteger b.index = .error (.invalid "integer exceeds catalog range") :=
    if_neg (Nat.not_le_of_lt hindex)
  refine ⟨.invalid "integer exceeds catalog range", ?_⟩
  rw [recordLoop, hvalid.check, hinteger]
  rfl

/-- **A batch** of the blocks from `f` to `m` on top of rows up to `n`: those that the catalog has
are the same, the others are added, unless an index leaves its column.

**Proof sketch.** Induction on the number of blocks of the batch. A block below `n` is found and
skipped; the block `n` is the next one. -/
lemma recordLoop_spec {f n m count : ℕ} (hrows : RowsAre blake3 rows bytes n) (hfn : f ≤ n)
    (hnm : n ≤ m) (hcount : f + count = m)
    (hlength : ∀ i < m, i * BLOCK_BYTES < bytes.length) :
    (∃ rows', recordLoop rows n ((List.range' f count).map (blockAt blake3 bytes)) = .ok rows' ∧
      RowsAre blake3 rows' bytes m) ∨
    (i64Max + 1 < m ∧
      ∃ e, recordLoop rows n ((List.range' f count).map (blockAt blake3 bytes)) = .error e) := by
  induction count generalizing f n rows with
  | zero =>
    obtain rfl : n = m := by omega
    exact .inl ⟨rows, rfl, hrows⟩
  | succ count ih =>
    rw [range'_succ, map_cons]
    have hvalid : (blockAt blake3 bytes f).Valid := length_blockAt (hlength f (by omega))
    rcases Nat.lt_or_ge i64Max f with hlarge | hsmall
    · exact .inr ⟨by omega, recordLoop_large hvalid hlarge⟩
    · rcases Nat.lt_or_eq_of_le hfn with hlt | rfl
      · have hget : rows.get? f = some (blockAt blake3 bytes f).row := by rw [hrows f, if_pos hlt]
        rw [recordLoop_known hvalid hsmall hget]
        exact ih hrows hlt hnm (by omega)
      · have hget : rows.get? f = none := by rw [hrows f, if_neg (Nat.lt_irrefl f)]
        have hnext : (blockAt blake3 bytes f).index = f := rfl
        rw [recordLoop_new hvalid hsmall hget hnext]
        exact ih hrows.insert le_rfl (by omega) (by omega)

/-- **Recording what is pending** adds the rows of all complete blocks, unless an index leaves its
column. -/
lemma recordSealBlocks_spec {f n m : ℕ} (hopen : member.producerOpen = true)
    (hseal : member.memberSeal = none) (hrows : RowsAre blake3 rows bytes n) (hfn : f ≤ n)
    (hnm : n ≤ m) (hfm : f < m) (hbatch : m ≤ f + PROOF_BATCH)
    (hlength : ∀ i < m, i * BLOCK_BYTES < bytes.length) :
    (∃ rows', recordSealBlocks member rows ((firstBlocks blake3 bytes m).drop f) = .ok rows' ∧
      RowsAre blake3 rows' bytes m) ∨
    (i64Max + 1 < m ∧
      ∃ e, recordSealBlocks member rows ((firstBlocks blake3 bytes m).drop f) = .error e) := by
  have hblocks : (firstBlocks blake3 bytes m).drop f =
      (List.range' f (m - f)).map (blockAt blake3 bytes) := by
    rw [firstBlocks, ← map_drop, range_eq_range', drop_range', zero_add, Nat.mul_one]
  have hlen : ((firstBlocks blake3 bytes m).drop f).length = m - f := by
    rw [length_drop, length_firstBlocks]
  have hbound : ¬ ((firstBlocks blake3 bytes m).drop f = [] ∨
      ((firstBlocks blake3 bytes m).drop f).length > PROOF_BATCH) := by
    rintro (heq | hgt)
    · rw [heq, length_nil] at hlen
      omega
    · omega
  have hwritable : ¬ (member.producerOpen = false ∨ member.memberSeal.isSome = true) := by
    simp [hopen, hseal]
  have heq : recordSealBlocks member rows ((firstBlocks blake3 bytes m).drop f) =
      recordLoop rows n ((List.range' f (m - f)).map (blockAt blake3 bytes)) := by
    rw [recordSealBlocks, require, if_pos hbound, require, if_pos hwritable, hrows.nextIndex,
      hblocks]
    rfl
  rw [heq]
  exact recordLoop_spec hrows hfn hnm (by omega) hlength

end Record

/-! ## Hashing what is accepted -/

namespace ProducerSeal

/-- The digests of the first blocks are in the manifest, and those from the block `flushed` on are
pending. -/
structure Recorded (flushed : ℕ) (bytes : List UInt8) (s : ProducerSeal η) : Prop where
  /-- The hash over all digests. -/
  manifest : blake3.Absorbed s.manifest
    (manifestDomain ++ rowBytes (firstBlocks blake3 bytes s.blocks))
  /-- The batch. -/
  pending : s.pending = (firstBlocks blake3 bytes s.blocks).drop flushed
  /-- A batch is of complete blocks. -/
  flushed_le : flushed ≤ s.blocks

/-- The most bytes that a batch from a block on leaves room for. -/
def batchEnd (flushed : ℕ) : ℕ := (flushed + PROOF_BATCH) * BLOCK_BYTES

/-- What a producer knows of the bytes it accepted. -/
structure Holds (flushed : ℕ) (bytes : List UInt8) (s : ProducerSeal η) : Prop where
  /-- The complete blocks. -/
  recorded : Recorded blake3 flushed bytes s
  /-- The bytes are complete blocks and one that is not. -/
  split : s.blocks * BLOCK_BYTES + s.partialLength = bytes.length
  /-- The hash of the block that is not complete. -/
  block : blake3.Absorbed s.block (bytes.drop (s.blocks * BLOCK_BYTES))
  /-- The batch is bounded, together with that block. -/
  bound : bytes.length ≤ batchEnd flushed

/-- What a flush leaves: a batch that begins at `flushed`, and the rows of `n` blocks. -/
structure Flushed (before : ℕ) (bytes : List UInt8) (s : ProducerSeal η) (flushed n : ℕ)
    (s' : ProducerSeal η) (rows : ProofRows) : Prop where
  /-- The batch begins no earlier. -/
  le_flushed : before ≤ flushed
  /-- What the batch leaves out is recorded. -/
  flushed_le : flushed ≤ n
  /-- Only complete blocks are recorded. -/
  le_blocks : n ≤ s.blocks
  /-- Only the batch changes. -/
  same : s' = { s with pending := s'.pending }
  /-- The batch. -/
  recorded : Recorded blake3 flushed bytes s'
  /-- The rows. -/
  rows : RowsAre blake3 rows bytes n

variable {blake3} {flushed : ℕ} {bytes more : List UInt8} {s : ProducerSeal η}

/-- Nothing is accepted, and nothing recorded. -/
lemma holds_new : Holds blake3 0 [] (ProducerSeal.new blake3) where
  recorded := by
    refine ⟨?_, rfl, Nat.le_refl _⟩
    have habsorbed := blake3.absorbed_new.update manifestDomain
    simpa [new, manifestHasher, rowBytes, firstBlocks] using habsorbed
  split := by simp only [new, Nat.zero_mul, Nat.add_zero, length_nil]
  block := by
    rw [drop_nil]
    exact blake3.absorbed_new
  bound := Nat.zero_le _

/-- The size of the batch. -/
lemma Recorded.length_pending (h : Recorded blake3 flushed bytes s) :
    s.pending.length = s.blocks - flushed := by
  rw [h.pending, length_drop, length_firstBlocks]

variable (h : Holds blake3 flushed bytes s)

include h

/-- **There is no underflow**: what is available is the rest of the batch, up to a bound. -/
lemma Holds.available : s.available = some (min (batchEnd flushed - bytes.length) IO_BYTES) := by
  have hpending := h.recorded.length_pending
  have hsplit := h.split
  have hbound := h.bound
  have hle := h.recorded.flushed_le
  have hbatch : s.pending.length ≤ PROOF_BATCH := by
    by_contra hgt
    have hnext : flushed + PROOF_BATCH + 1 ≤ s.blocks := by omega
    have hmul := Nat.mul_le_mul_right BLOCK_BYTES hnext
    have hpos : 0 < BLOCK_BYTES := by decide
    rw [Nat.succ_mul] at hmul
    unfold batchEnd at hbound
    omega
  have hfree : Counter.checkedSub PROOF_BATCH s.pending.length =
      some (PROOF_BATCH - s.pending.length) := if_pos hbatch
  have hmul : (PROOF_BATCH - s.pending.length) * BLOCK_BYTES + s.blocks * BLOCK_BYTES =
      batchEnd flushed := by
    rw [← Nat.add_mul, batchEnd]
    congr 1
    omega
  have hroom : Counter.checkedSub ((PROOF_BATCH - s.pending.length) * BLOCK_BYTES)
      s.partialLength = some (batchEnd flushed - bytes.length) := by
    rw [Counter.checkedSub_eq_some]
    omega
  simp only [ProducerSeal.available, hfree, bind_eq_bind, bind_some, hroom]

/-- **A finished block** goes into the manifest and into the batch. -/
lemma Holds.finishBlock (hpos : 0 < s.partialLength) (hle : s.partialLength ≤ BLOCK_BYTES) :
    Recorded blake3 flushed bytes (s.finishBlock blake3) := by
  have hlength : (bytes.drop (s.blocks * BLOCK_BYTES)).length = s.partialLength := by
    rw [length_drop]
    have hsplit := h.split
    omega
  have hbytes : blockBytes bytes s.blocks = bytes.drop (s.blocks * BLOCK_BYTES) :=
    take_of_length_le (hlength.trans_le hle)
  have hblock : (⟨s.blocks, .ofNat s.partialLength, blake3.finalize s.block⟩ : Block) =
      blockAt blake3 bytes s.blocks := by
    rw [blockAt, hbytes, hlength, h.block.finalize]
  have hnext : firstBlocks blake3 bytes (s.blocks + 1) =
      firstBlocks blake3 bytes s.blocks ++ [blockAt blake3 bytes s.blocks] := by
    rw [firstBlocks, range_succ, map_append, map_singleton, ← firstBlocks]
  refine ⟨?_, ?_, Nat.le_succ_of_le h.recorded.flushed_le⟩
  · have habsorbed := h.recorded.manifest.foldl (blockAt blake3 bytes s.blocks).encode
    simp only [ProducerSeal.finishBlock, hblock, hnext, hashBlock]
    simpa [rowBytes] using habsorbed
  · simp only [ProducerSeal.finishBlock, hblock, hnext, h.recorded.pending]
    rw [drop_append_of_le_length]
    rw [length_firstBlocks]
    exact h.recorded.flushed_le

/-- Counting bytes does not touch the hashes. -/
lemma Holds.withLength (length : UInt64) : Holds blake3 flushed bytes { s with length := length } :=
  ⟨⟨h.recorded.manifest, h.recorded.pending, h.recorded.flushed_le⟩, h.split, h.block, h.bound⟩

/-- **Some more bytes** of the block that is not complete. -/
lemma Holds.update (hbound : (bytes ++ more).length ≤ batchEnd flushed) :
    Holds blake3 flushed (bytes ++ more) { s with
      block := blake3.update s.block more
      partialLength := s.partialLength + more.length } := by
  have hsplit := h.split
  have hblocks : firstBlocks blake3 (bytes ++ more) s.blocks = firstBlocks blake3 bytes s.blocks :=
    firstBlocks_append (by omega)
  refine ⟨⟨?_, ?_, h.recorded.flushed_le⟩, ?_, ?_, hbound⟩
  · dsimp only
    rw [hblocks]
    exact h.recorded.manifest
  · dsimp only
    rw [hblocks]
    exact h.recorded.pending
  · dsimp only
    rw [length_append]
    omega
  · dsimp only
    rw [drop_append_of_le_length (by omega)]
    exact h.block.update more

/-- A complete block begins a new one. -/
lemma Holds.complete (hfull : s.partialLength = BLOCK_BYTES) :
    Holds blake3 flushed bytes (s.finishBlock blake3) := by
  have hsplit := h.split
  have hnext : (s.finishBlock blake3).blocks * BLOCK_BYTES = bytes.length := by
    rw [← hsplit, hfull]
    exact Nat.succ_mul _ _
  refine ⟨h.finishBlock (hfull ▸ by decide) hfull.le, ?_, ?_, h.bound⟩
  · rw [hnext]
    rfl
  · rw [hnext, drop_length]
    exact blake3.absorbed_new

/-- **Accepted bytes are hashed block by block**, and the loop comes to an end.

**Proof sketch.** Induction on the fuel. A round hashes at least one byte, since the block that is
not complete has room. -/
lemma acceptLoop_spec {fuel : ℕ}
    (hfill : s.partialLength < BLOCK_BYTES) (hfuel : more.length ≤ fuel)
    (hbound : (bytes ++ more).length ≤ batchEnd flushed) :
    ∃ s', acceptLoop blake3 fuel s more = some s' ∧ Holds blake3 flushed (bytes ++ more) s' ∧
      s'.partialLength < BLOCK_BYTES ∧ s'.length = s.length := by
  induction fuel generalizing s bytes more with
  | zero =>
    obtain rfl := eq_nil_of_length_eq_zero (Nat.le_zero.mp hfuel)
    rw [append_nil]
    exact ⟨s, rfl, h, hfill, rfl⟩
  | succ fuel ih =>
    cases more with
    | nil =>
      rw [append_nil]
      exact ⟨s, rfl, h, hfill, rfl⟩
    | cons byte rest =>
      have hroom : Counter.checkedSub BLOCK_BYTES s.partialLength =
          some (BLOCK_BYTES - s.partialLength) := if_pos hfill.le
      set more := byte :: rest with hmore
      set count := min more.length (BLOCK_BYTES - s.partialLength) with hcount
      have hlength : more.length = rest.length + 1 := by rw [hmore, length_cons]
      have htake : (more.take count).length = count :=
        length_take_of_le (Nat.min_le_left _ _)
      have happend : bytes ++ more.take count ++ more.drop count = bytes ++ more := by
        rw [append_assoc, take_append_drop]
      have hmid : Holds blake3 flushed (bytes ++ more.take count) { s with
          block := blake3.update s.block (more.take count)
          partialLength := s.partialLength + (more.take count).length } := by
        refine h.update ?_
        rw [length_append, htake]
        rw [length_append] at hbound
        omega
      rw [htake] at hmid
      have hloop : acceptLoop blake3 (fuel + 1) s more = acceptLoop blake3 fuel
          (if s.partialLength + count = BLOCK_BYTES then
            ({ s with
              block := blake3.update s.block (more.take count)
              partialLength := s.partialLength + count } : ProducerSeal η).finishBlock blake3
          else { s with
              block := blake3.update s.block (more.take count)
              partialLength := s.partialLength + count }) (more.drop count) := by
        rw [hmore, acceptLoop, hroom]
        rfl
      rw [hloop]
      have hdrop : (more.drop count).length ≤ fuel := by
        rw [length_drop]
        omega
      split_ifs with hfull
      · have hnext := @ih _ (more.drop count) _ (hmid.complete hfull)
          (by exact Nat.succ_pos _) hdrop (happend ▸ hbound)
        rw [happend] at hnext
        exact hnext
      · have hnext := @ih _ (more.drop count) _ hmid (by dsimp only; omega) hdrop (happend ▸ hbound)
        rw [happend] at hnext
        exact hnext

omit h

/-! ### Flushes -/

variable {n : ℕ} {rows rows' : ProofRows} {member : MemberRecord} {s' : ProducerSeal η}
  {r : Except Error Unit} {outcome : Outcome}

/-- **A flush** records the complete blocks or leaves them in the batch, or both; if it succeeds
all of them are recorded. Its own checks fail only when an index leaves its column. -/
lemma Recorded.flush (h : Recorded blake3 flushed bytes s) (hopen : member.producerOpen = true)
    (hseal : member.memberSeal = none) (hrows : RowsAre blake3 rows bytes n) (hfn : flushed ≤ n)
    (hnb : n ≤ s.blocks) (hlength : ∀ i < s.blocks, i * BLOCK_BYTES < bytes.length)
    (hbatch : s.blocks ≤ flushed + PROOF_BATCH)
    (heq : s.flush member rows outcome = (r, s', rows')) :
    ∃ f n', Flushed blake3 flushed bytes s f n' s' rows' ∧ (r = .ok () → n' = s.blocks) ∧
      (s.blocks ≤ i64Max + 1 → outcome = .committed → r = .ok ()) := by
  have hpending := h.length_pending
  unfold ProducerSeal.flush at heq
  split_ifs at heq with hempty
  · cases heq
    rw [hempty, length_nil] at hpending
    exact ⟨flushed, n, ⟨le_rfl, hfn, hnb, rfl, h, hrows⟩, fun _ => by omega, fun _ _ => rfl⟩
  · have hlt : flushed < s.blocks := by
      by_contra hge
      exact hempty (eq_nil_of_length_eq_zero (by omega))
    have hkept : ∀ {n' rows'}, n ≤ n' → n' ≤ s.blocks → RowsAre blake3 rows' bytes n' →
        Flushed blake3 flushed bytes s flushed n' s rows' := fun hn hn' hrows' =>
      ⟨le_rfl, hfn.trans hn, hn', rfl, h, hrows'⟩
    rw [h.pending] at heq
    rcases recordSealBlocks_spec hopen hseal hrows hfn hnb hlt hbatch hlength with
      ⟨stored, hok, hstored⟩ | ⟨hlarge, e, herror⟩
    · rw [hok] at heq
      cases outcome with
      | committed =>
        cases heq
        refine ⟨s.blocks, s.blocks, ⟨hlt.le, le_rfl, le_rfl, rfl, ?_, hstored⟩,
          fun _ => rfl, fun _ _ => rfl⟩
        refine ⟨h.manifest, ?_, le_rfl⟩
        rw [drop_of_length_le (length_firstBlocks.le)]
      | uncertain e =>
        cases heq
        exact ⟨flushed, s.blocks, hkept hnb le_rfl hstored, nofun, fun _ => nofun⟩
      | failed e =>
        cases heq
        exact ⟨flushed, n, hkept le_rfl hnb hrows, nofun, fun _ => nofun⟩
    · rw [herror] at heq
      cases heq
      exact ⟨flushed, n, hkept le_rfl hnb hrows, nofun,
        fun hsmall => absurd hlarge (Nat.not_lt_of_le hsmall)⟩

end ProducerSeal

/-! ## The producer -/

namespace Producer

/-- What a producer and the rows of its member have to do with the bytes it accepted. -/
structure Inv (s : Producer η) (flushed n : ℕ) : Prop where
  /-- The hashes and the batch. -/
  holds : ProducerSeal.Holds blake3 flushed s.bytes s.producer
  /-- A block that is not complete has room. -/
  room : s.producer.partialLength < BLOCK_BYTES
  /-- The count of the bytes. -/
  length : s.producer.length = .ofNat s.bytes.length
  /-- The rows are those of complete blocks. -/
  rows : RowsAre blake3 s.rows s.bytes n
  /-- What the batch leaves out is recorded. -/
  flushed_le : flushed ≤ n
  /-- Only complete blocks are recorded. -/
  le_blocks : n ≤ s.producer.blocks

section Steps

variable {blake3} {s s' : Producer η} {flushed n : ℕ} {member : MemberRecord}
  {event : ProducerEvent}

/-- Before anything is written. -/
lemma inv_start : Inv blake3 (start blake3) 0 0 :=
  ⟨ProducerSeal.holds_new, Nat.zero_lt_succ _, rfl, fun _ => rfl, le_rfl, le_rfl⟩

/-- The blocks that are complete. -/
lemma Inv.blocks_eq (h : Inv blake3 s flushed n) :
    s.producer.blocks = s.bytes.length / BLOCK_BYTES := by
  have hsplit := h.holds.split
  have hroom := h.room
  refine (Nat.div_eq_of_lt_le ?_ ?_).symm
  · omega
  · rw [Nat.succ_mul]
    omega

/-- Complete blocks have bytes, and they fit a batch. -/
lemma Inv.blocks_bound (h : Inv blake3 s flushed n) :
    (∀ i < s.producer.blocks, i * BLOCK_BYTES < s.bytes.length) ∧
      s.producer.blocks ≤ flushed + PROOF_BATCH := by
  have hsplit := h.holds.split
  have hbound := h.holds.bound
  have hpos : 0 < BLOCK_BYTES := by decide
  constructor
  · intro i hi
    have hmul := Nat.mul_lt_mul_of_pos_right hi hpos
    omega
  · refine Nat.le_of_mul_le_mul_right ?_ hpos
    unfold ProducerSeal.batchEnd at hbound
    omega

/-- **Every step keeps the invariant**, and there is one whenever the write is not larger than
what is available. -/
lemma step_inv (hopen : member.producerOpen = true) (hseal : member.memberSeal = none)
    (h : Inv blake3 s flushed n) (hallowed : s.Allowed event) :
    ∃ s' f n', step blake3 member s event = some s' ∧ Inv blake3 s' f n' := by
  cases event with
  | accepted bytes =>
    obtain ⟨available, havailable, hle⟩ := hallowed
    have hroom : bytes.length ≤ ProducerSeal.batchEnd flushed - s.bytes.length := by
      rw [h.holds.available] at havailable
      exact hle.trans (some.inj havailable ▸ Nat.min_le_left _ _)
    have hbound : (s.bytes ++ bytes).length ≤ ProducerSeal.batchEnd flushed := by
      have hbefore := h.holds.bound
      rw [length_append]
      omega
    obtain ⟨p, hloop, hholds, hfill, hlength⟩ := ProducerSeal.acceptLoop_spec
      (h.holds.withLength (s.producer.length + .ofNat bytes.length)) h.room le_rfl hbound
    have hstep : step blake3 member s (.accepted bytes) = some ⟨p, s.rows, s.bytes ++ bytes⟩ := by
      simp only [step, ProducerSeal.accepted, havailable, bind_eq_bind, bind_some,
        if_pos hle, hloop, map_some]
    have hgrows : s.producer.blocks ≤ p.blocks := by
      have hbefore := h.holds.split
      have hafter := hholds.split
      have hpos : 0 < BLOCK_BYTES := by decide
      rw [length_append] at hafter
      by_contra hlt
      have hmul := Nat.mul_le_mul_right BLOCK_BYTES (Nat.lt_of_not_le hlt)
      rw [Nat.succ_mul] at hmul
      omega
    refine ⟨_, flushed, n, hstep, hholds, hfill, ?_, h.rows.append ?_, h.flushed_le,
      h.le_blocks.trans hgrows⟩
    · rw [hlength, h.length, length_append, UInt64.ofNat_add]
    · have hsplit := h.holds.split
      have hmul := Nat.mul_le_mul_right BLOCK_BYTES h.le_blocks
      omega
  | flush outcome =>
    obtain ⟨hlength, hbatch⟩ := h.blocks_bound
    obtain ⟨r, p, rows, heq⟩ : ∃ r p rows,
        s.producer.flush member s.rows outcome = (r, p, rows) := ⟨_, _, _, rfl⟩
    obtain ⟨f, n', hflushed, -, -⟩ := h.holds.recorded.flush hopen hseal h.rows h.flushed_le
      h.le_blocks hlength hbatch heq
    have hstep : step blake3 member s (.flush outcome) = some ⟨p, rows, s.bytes⟩ := by
      simp only [step, heq]
    have hmono : ProducerSeal.batchEnd flushed ≤ ProducerSeal.batchEnd f :=
      Nat.mul_le_mul_right _ (Nat.add_le_add_right hflushed.le_flushed _)
    refine ⟨_, f, n', hstep, ?_, ?_, ?_, hflushed.rows, hflushed.flushed_le, ?_⟩
    · have hrecorded := hflushed.recorded
      rw [hflushed.same] at hrecorded ⊢
      exact ⟨hrecorded, h.holds.split, h.holds.block, h.holds.bound.trans hmono⟩
    · rw [hflushed.same]
      exact h.room
    · rw [hflushed.same]
      exact h.length
    · rw [hflushed.same]
      exact hflushed.le_blocks

/-- **The end of a producer**: the rows of all blocks, and the seal of the bytes. -/
lemma Inv.finish (hopen : member.producerOpen = true) (hseal : member.memberSeal = none)
    (h : Inv blake3 s flushed n) {outcome : Outcome} {r : Except Error MemberSeal}
    {rows' : ProofRows} (heq : s.producer.finish blake3 member s.rows outcome = (r, rows')) :
    (∃ n' ≤ divCeil s.bytes.length BLOCK_BYTES, RowsAre blake3 rows' s.bytes n') ∧
    (∀ memberSeal, r = .ok memberSeal → memberSeal = sealOf blake3 s.bytes ∧
      RowsAre blake3 rows' s.bytes (divCeil s.bytes.length BLOCK_BYTES)) ∧
    (divCeil s.bytes.length BLOCK_BYTES ≤ i64Max + 1 → outcome = .committed →
      ∃ memberSeal, r = .ok memberSeal) := by
  have hsplit := h.holds.split
  have hroom := h.room
  have hbound := h.holds.bound
  have hpos : 0 < BLOCK_BYTES := by decide
  unfold ProducerSeal.batchEnd at hbound
  -- the last block, if there is one
  obtain ⟨p, hp, hrecorded, hblocks, hlength⟩ : ∃ p,
      p = (if s.producer.partialLength ≠ 0 then s.producer.finishBlock blake3 else s.producer) ∧
      ProducerSeal.Recorded blake3 flushed s.bytes p ∧
      p.blocks = divCeil s.bytes.length BLOCK_BYTES ∧ p.length = s.producer.length := by
    refine ⟨_, rfl, ?_⟩
    split_ifs with hzero
    · refine ⟨h.holds.finishBlock (Nat.pos_of_ne_zero hzero) hroom.le, ?_, rfl⟩
      refine (Nat.div_eq_of_lt_le ?_ ?_).symm
      · have hmul : (s.producer.blocks + 1) * BLOCK_BYTES = s.producer.blocks * BLOCK_BYTES +
            BLOCK_BYTES := Nat.succ_mul _ _
        have hgoal : (s.producer.finishBlock blake3).blocks = s.producer.blocks + 1 := rfl
        rw [hgoal]
        omega
      · have hmul : (s.producer.blocks + 1 + 1) * BLOCK_BYTES = s.producer.blocks * BLOCK_BYTES +
            BLOCK_BYTES + BLOCK_BYTES := by rw [Nat.succ_mul, Nat.succ_mul]
        have hgoal : (s.producer.finishBlock blake3).blocks = s.producer.blocks + 1 := rfl
        rw [hgoal]
        omega
    · refine ⟨h.holds.recorded, (Nat.div_eq_of_lt_le ?_ ?_).symm, rfl⟩
      · omega
      · rw [Nat.succ_mul]
        omega
  have hceil : ∀ i, i < divCeil s.bytes.length BLOCK_BYTES ↔ i * BLOCK_BYTES < s.bytes.length := by
    intro i
    rw [divCeil, Nat.lt_iff_add_one_le, Nat.le_div_iff_mul_le hpos, Nat.succ_mul]
    omega
  have hbatch : p.blocks ≤ flushed + PROOF_BATCH := by
    by_contra hgt
    have hlt := (hceil (flushed + PROOF_BATCH)).mp (hblocks ▸ Nat.lt_of_not_le hgt)
    omega
  have hnb : n ≤ p.blocks := by
    refine h.le_blocks.trans ?_
    by_contra hlt
    have hge := mt (hceil p.blocks).mpr (by rw [hblocks]; exact Nat.lt_irrefl _)
    have hmul := Nat.mul_le_mul_right BLOCK_BYTES (Nat.lt_of_not_le hlt)
    rw [Nat.succ_mul] at hmul
    omega
  obtain ⟨q, p', rows'', hflush⟩ : ∃ q p' rows'',
      p.flush member s.rows outcome = (q, p', rows'') := ⟨_, _, _, rfl⟩
  obtain ⟨f, n', hflushed, hall, hok⟩ := hrecorded.flush hopen hseal h.rows h.flushed_le hnb
    (fun i hi => (hceil i).mp (hblocks ▸ hi)) hbatch hflush
  rw [ProducerSeal.finish, ← hp] at heq
  rw [hflush] at heq
  cases q with
  | error e =>
    cases heq
    refine ⟨⟨n', hblocks ▸ hflushed.le_blocks, hflushed.rows⟩, by rintro _ ⟨⟩, fun hsmall hcommit => ?_⟩
    cases hok (hblocks ▸ hsmall) hcommit
  | ok u =>
    cases heq
    have hn' : n' = divCeil s.bytes.length BLOCK_BYTES := (hall rfl).trans hblocks
    have hrows := hflushed.rows
    rw [hn'] at hrows
    refine ⟨⟨_, le_rfl, hrows⟩, fun memberSeal hr => ⟨?_, hrows⟩, fun _ _ => ⟨_, rfl⟩⟩
    cases hr
    have hmanifest := hflushed.recorded.manifest
    rw [hflushed.same] at hmanifest ⊢
    dsimp only at hmanifest ⊢
    rw [hmanifest.finalize, hblocks, hlength, h.length]
    rfl

end Steps

/-! ### The seal of a content -/

variable {blake3} {bytes : List UInt8} {rows : ProofRows} {member : MemberRecord}

/-- The hash over no digests. -/
lemma finalize_manifestHasher :
    blake3.finalize (manifestHasher blake3) = blake3.hash manifestDomain := by
  have habsorbed := blake3.absorbed_new.update manifestDomain
  exact habsorbed.finalize

/-- The seal of a content of at most one block. -/
lemma bounded_eq (h : bytes.length ≤ BLOCK_BYTES) :
    MemberSeal.bounded blake3 bytes = .ok (sealOf blake3 bytes) := by
  rw [MemberSeal.bounded, require, if_pos h]
  cases bytes with
  | nil =>
    have hceil : divCeil ([] : List UInt8).length BLOCK_BYTES = 0 := by decide
    have hrows : rowBytes (firstBlocks blake3 [] 0) = [] := rfl
    rw [sealOf, hceil, hrows, append_nil, ← finalize_manifestHasher]
    rfl
  | cons byte rest =>
    have hceil : divCeil (byte :: rest).length BLOCK_BYTES = 1 := by
      have hpos : 0 < (byte :: rest).length := Nat.succ_pos _
      refine Nat.div_eq_of_lt_le ?_ ?_ <;> omega
    have hblock : blockAt blake3 (byte :: rest) 0 =
        ⟨0, .ofNat (byte :: rest).length, blake3.hash (byte :: rest)⟩ := by
      rw [blockAt, blockBytes, Nat.zero_mul, drop_zero, take_of_length_le h]
    have hrows : rowBytes (firstBlocks blake3 (byte :: rest) 1) =
        (blockAt blake3 (byte :: rest) 0).encode.flatten := by
      simp [rowBytes, firstBlocks]
    have habsorbed := (blake3.absorbed_new.update manifestDomain).foldl
      (blockAt blake3 (byte :: rest) 0).encode
    rw [nil_append] at habsorbed
    rw [sealOf, hceil, hrows, ← habsorbed.finalize, hblock]
    rfl

/-- A member whose rows are all there is sealed. -/
lemma completeMemberSeal_eq (hopen : member.producerOpen = true)
    (hseal : member.memberSeal = none) (hsize : bytes.length < 2 ^ 64)
    (hrows : RowsAre blake3 rows bytes (divCeil bytes.length BLOCK_BYTES)) :
    completeMemberSeal blake3 member rows (sealOf blake3 bytes) =
      .ok { member with memberSeal := some (sealOf blake3 bytes) } := by
  have hle : divCeil bytes.length BLOCK_BYTES ≤ bytes.length := by
    change (bytes.length + 4096 - 1) / 4096 ≤ bytes.length
    omega
  have hblocks : (sealOf blake3 bytes).blocks.toNat = divCeil bytes.length BLOCK_BYTES :=
    UInt64.toNat_ofNat_of_lt' (hle.trans_lt hsize)
  have hlength : (sealOf blake3 bytes).length.toNat = bytes.length :=
    UInt64.toNat_ofNat_of_lt' hsize
  have hvalid : (sealOf blake3 bytes).validate blake3 = .ok () := by
    refine if_neg ?_
    rintro (hformat | hcount | ⟨hzero, hmanifest⟩)
    · exact hformat rfl
    · exact hcount (by rw [hblocks, hlength])
    · -- a content without blocks is empty
      have hnone : divCeil bytes.length BLOCK_BYTES = 0 := by
        rw [← hblocks, hzero]
        rfl
      refine hmanifest ?_
      rw [sealOf, hnone, finalize_manifestHasher]
      simp [rowBytes, firstBlocks]
  have hwritable : ¬ (member.producerOpen = false ∨ member.memberSeal.isSome = true) := by
    simp [hopen, hseal]
  have hcount : nextIndex rows = (sealOf blake3 bytes).blocks.toNat := by
    rw [hblocks]
    exact hrows.nextIndex
  rw [completeMemberSeal, hvalid]
  change (if member.memberSeal = some (sealOf blake3 bytes) then _ else _) = _
  rw [if_neg (by rw [hseal]; rintro ⟨⟩), require, if_pos hwritable, require, if_pos hcount]
  rfl

/-- **Chunking independence.** In every run of a producer, whatever its writes were and whatever
its flushes reported, the rows are those of the first complete blocks of the bytes; what is
available never underflows, the batch is bounded, and every write within what is available is
accepted. However the producer ends, the rows are those of the first blocks; if it makes a seal,
they are those of all blocks, and the seal is that of the bytes, which a content of at most one
block has by itself and which seals the member. It does make one if its transaction succeeds,
unless there are more blocks than the column of their index can hold.

**Proof sketch.** A block is hashed as it fills, so the manifest and the batch are of the complete
blocks, and the hash of the rest is of the bytes beyond. A flush records the batch on top of rows
that may contain a part of it: those are skipped, since a complete block never changes. -/
theorem chunking_independent (member : MemberRecord) (hopen : member.producerOpen = true)
    (hseal : member.memberSeal = none) {s : Producer η}
    (hreach : Run.Reaches (step blake3 member) Allowed (start blake3) s) :
    (∃ n ≤ s.bytes.length / BLOCK_BYTES, RowsAre blake3 s.rows s.bytes n) ∧
    (∃ available, s.producer.available = some available) ∧
    s.producer.pending.length ≤ PROOF_BATCH ∧
    (∀ event, s.Allowed event → ∃ s', step blake3 member s event = some s') ∧
    ∀ outcome r rows', s.producer.finish blake3 member s.rows outcome = (r, rows') →
      (∃ n ≤ divCeil s.bytes.length BLOCK_BYTES, RowsAre blake3 rows' s.bytes n) ∧
      (∀ memberSeal, r = .ok memberSeal → memberSeal = sealOf blake3 s.bytes ∧
        RowsAre blake3 rows' s.bytes (divCeil s.bytes.length BLOCK_BYTES) ∧
        (s.bytes.length ≤ BLOCK_BYTES → MemberSeal.bounded blake3 s.bytes = .ok memberSeal) ∧
        (s.bytes.length < 2 ^ 64 → completeMemberSeal blake3 member rows' memberSeal =
          .ok { member with memberSeal := some memberSeal })) ∧
      (divCeil s.bytes.length BLOCK_BYTES ≤ i64Max + 1 → outcome = .committed →
        ∃ memberSeal, r = .ok memberSeal) := by
  obtain ⟨flushed, n, hinv⟩ : ∃ flushed n, Inv blake3 s flushed n := by
    refine hreach.invariant (P := fun s => ∃ flushed n, Inv blake3 s flushed n) ?_
      ⟨0, 0, inv_start⟩
    rintro s event s' ⟨flushed, n, hinv⟩ hallowed hstep
    obtain ⟨s'', f, n', hnext, hinv'⟩ := step_inv hopen hseal hinv hallowed
    obtain rfl := some.inj (hnext.symm.trans hstep)
    exact ⟨f, n', hinv'⟩
  refine ⟨⟨n, hinv.blocks_eq ▸ hinv.le_blocks, hinv.rows⟩, ⟨_, hinv.holds.available⟩, ?_, ?_, ?_⟩
  · rw [hinv.holds.recorded.length_pending]
    have hbatch := hinv.blocks_bound.2
    omega
  · intro event hallowed
    obtain ⟨s', -, -, hstep, -⟩ := step_inv hopen hseal hinv hallowed
    exact ⟨s', hstep⟩
  · intro outcome r rows' heq
    obtain ⟨hsome, hdone, hok⟩ := hinv.finish hopen hseal heq
    refine ⟨hsome, fun memberSeal hr => ?_, hok⟩
    obtain ⟨rfl, hrows⟩ := hdone memberSeal hr
    exact ⟨rfl, hrows, bounded_eq, fun hsize => completeMemberSeal_eq hopen hseal hsize hrows⟩

/-- A member that is being written. -/
def openMember : MemberRecord :=
  { Session.sampleMember with producerOpen := true, memberSeal := none }

/-- A producer that has accepted two bytes. -/
def twoBytes : Producer (List UInt8) :=
  ⟨⟨2, 0, 2, [104, 105], manifestDomain, []⟩, .empty, [104, 105]⟩

/-- `chunking_independent` for two bytes in two writes, with a flush in between. -/
theorem chunking_independent_twoBytes :
    (twoBytes.producer.finish Session.sampleBlake3 openMember twoBytes.rows .committed).1 =
      .ok ⟨1, 2, 1, Session.sampleManifest⟩ ∧
    sealOf Session.sampleBlake3 [104, 105] = ⟨1, 2, 1, Session.sampleManifest⟩ := by
  have hwrite : Allowed (start Session.sampleBlake3) (.accepted [104]) :=
    ⟨IO_BYTES, by decide +kernel, by decide⟩
  have hreach : Run.Reaches (step Session.sampleBlake3 openMember) Allowed
      (start Session.sampleBlake3) twoBytes := by
    refine ((Run.Reaches.refl _).next (a := .accepted [104]) hwrite rfl).next
      (a := .flush (.uncertain noRows)) trivial rfl |>.next (a := .accepted [105]) ?_ rfl
    exact ⟨IO_BYTES, by decide +kernel, by decide⟩
  have hfinish : (twoBytes.producer.finish Session.sampleBlake3 openMember twoBytes.rows
      .committed).1 = .ok ⟨1, 2, 1, Session.sampleManifest⟩ := by
    decide +kernel
  have hall := chunking_independent openMember rfl rfl hreach
  exact ⟨hfinish, ((hall.2.2.2.2 .committed _ _ rfl).2.1 _ hfinish).1.symm⟩

end Producer

end Tgrep.Managed.Authentication
