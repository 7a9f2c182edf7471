import Mathlib.Order.Lattice.Nat
import Tgrep.Managed.Verification

/-!
# The seal of a producer

What a producer writes is hashed while it is accepted, in blocks. The digest of a block is kept
until a flush records a batch of them in the catalog; the hash over all digests makes the seal of
the finished member. A flush whose outcome is unknown keeps its batch, so the next one may repeat
rows that the catalog has.

## Main definitions

* `ProducerSeal`: the hashes and the digests that are not recorded yet.
* `ProducerSeal.available`, `ProducerSeal.accepted`, `ProducerSeal.finishBlock`: how much may be
  written, and what was.
* `recordSealBlocks`, `ProducerSeal.flush`, `ProducerSeal.finish`: recording a batch.
* `MemberSeal.bounded`, `completeMemberSeal`: the seal of a small content, and sealing a member.
* `Producer`, `Producer.step`: a producer with the rows of its member.

## Implementation notes

A transaction that records a batch may succeed, fail, or succeed with a report of failure; which
of them is part of a flush. Where the program would stop with a failed assertion or an underflow,
there is no result. The length of a member is counted in 64 bits; the number of its blocks cannot
leave them, since the recorded index is checked and only a bounded batch is not recorded.
-/

namespace Tgrep.Managed.Authentication

open Collection (BLOCK_BYTES divCeil)

/-- The most blocks that are recorded at once. -/
def PROOF_BATCH : ℕ := 1024

/-- The blocks of a producer: what of its bytes is hashed, and what of the digests is recorded. -/
structure ProducerSeal (η : Type) where
  /-- The bytes that were accepted. -/
  length : UInt64
  /-- The blocks that are complete. -/
  blocks : ℕ
  /-- The bytes of the block that is not. -/
  partialLength : ℕ
  /-- The hash of these bytes. -/
  block : η
  /-- The hash over the complete blocks. -/
  manifest : η
  /-- The complete blocks that a flush has to record. -/
  pending : List Block

/-- What is known about a transaction after it. -/
inductive Outcome
  /-- It succeeded. -/
  | committed
  /-- It succeeded, but an error was reported. -/
  | uncertain (e : Error)
  /-- It failed. -/
  | failed (e : Error)

section Model

variable {η : Type} (blake3 : IncrementalHash UInt8 η Digest)

namespace ProducerSeal

/-- A producer that has accepted nothing. -/
def new : ProducerSeal η := ⟨0, 0, 0, blake3.new, manifestHasher blake3, []⟩

/-- The bytes that may be written before the next flush. -/
def available (s : ProducerSeal η) : Option ℕ := do
  let free ← Counter.checkedSub PROOF_BATCH s.pending.length
  let room ← Counter.checkedSub (free * BLOCK_BYTES) s.partialLength
  some (min room IO_BYTES)

/-- A block is complete. -/
def finishBlock (s : ProducerSeal η) : ProducerSeal η :=
  let block : Block := ⟨s.blocks, .ofNat s.partialLength, blake3.finalize s.block⟩
  { s with
    manifest := hashBlock blake3 s.manifest block
    pending := s.pending ++ [block]
    blocks := s.blocks + 1
    partialLength := 0
    block := blake3.new }

/-- Hash bytes, block by block. -/
def acceptLoop : ℕ → ProducerSeal η → List UInt8 → Option (ProducerSeal η)
  | _, s, [] => some s
  | 0, _, _ :: _ => none
  | fuel + 1, s, byte :: bytes => do
    let room ← Counter.checkedSub BLOCK_BYTES s.partialLength
    let count := min (byte :: bytes).length room
    let s := { s with
      block := blake3.update s.block ((byte :: bytes).take count)
      partialLength := s.partialLength + count }
    acceptLoop fuel (if s.partialLength = BLOCK_BYTES then s.finishBlock blake3 else s)
      ((byte :: bytes).drop count)

/-- Bytes were written. Every round of the loop hashes some of them. -/
def accepted (s : ProducerSeal η) (bytes : List UInt8) : Option (ProducerSeal η) := do
  let available ← s.available
  if bytes.length ≤ available then
    acceptLoop blake3 bytes.length { s with length := s.length + .ofNat bytes.length } bytes
  else none

end ProducerSeal

/-- The row of a block. -/
def Block.row (b : Block) : ProofRow := ⟨b.length, b.digest.toList⟩

/-- The index after that of the last row. -/
def nextIndex (rows : ProofRows) : ℕ := rows.keys.sup (· + 1)

/-- Record one block after the other. A block that the catalog has must be the same. -/
def recordLoop : ProofRows → ℕ → List Block → Except Error ProofRows
  | rows, _, [] => .ok rows
  | rows, next, block :: blocks => do
    require (¬ (block.length = 0 ∨ block.length.toNat > BLOCK_BYTES))
      (.corrupt "invalid producer authentication block")
    sqlInteger block.index
    match rows.get? block.index with
    | some previous =>
      require (previous = block.row)
        (.corrupt "a retried producer proof differs from its immutable row")
      recordLoop rows next blocks
    | none =>
      require (block.index = next) (.corrupt "producer proof is not a contiguous prefix")
      recordLoop (rows.insert block.index block.row) (next + 1) blocks

/-- Record a batch, in one transaction. -/
def recordSealBlocks (member : MemberRecord) (rows : ProofRows) (blocks : List Block) :
    Except Error ProofRows := do
  require (¬ (blocks = [] ∨ blocks.length > PROOF_BATCH))
    (.invalid "member proof batch exceeds its fixed bound")
  require (¬ (member.producerOpen = false ∨ member.memberSeal.isSome))
    (.corrupt "cannot change a finalized producer seal")
  recordLoop rows (nextIndex rows) blocks

namespace ProducerSeal

/-- Record what is pending. The batch is kept unless the transaction is known to have
succeeded. -/
def flush (s : ProducerSeal η) (member : MemberRecord) (rows : ProofRows) (outcome : Outcome) :
    Except Error Unit × ProducerSeal η × ProofRows :=
  if s.pending = [] then (.ok (), s, rows)
  else
    match recordSealBlocks member rows s.pending, outcome with
    | .error e, _ => (.error e, s, rows)
    | .ok _, .failed e => (.error e, s, rows)
    | .ok rows', .uncertain e => (.error e, s, rows')
    | .ok rows', .committed => (.ok (), { s with pending := [] }, rows')

/-- Finish the last block, record what is pending, and make the seal. -/
def finish (s : ProducerSeal η) (member : MemberRecord) (rows : ProofRows) (outcome : Outcome) :
    Except Error MemberSeal × ProofRows :=
  let s := if s.partialLength ≠ 0 then s.finishBlock blake3 else s
  match s.flush member rows outcome with
  | (.error e, _, rows) => (.error e, rows)
  | (.ok _, s, rows) =>
    (.ok ⟨FORMAT, s.length, .ofNat s.blocks, blake3.finalize s.manifest⟩, rows)

end ProducerSeal

/-- The seal of a content of at most one block. -/
def MemberSeal.bounded (bytes : List UInt8) : Except Error MemberSeal := do
  require (bytes.length ≤ BLOCK_BYTES)
    (.invalid "control content exceeds its fixed authentication bound")
  let manifest := manifestHasher blake3
  let manifest := if bytes ≠ [] then
      hashBlock blake3 manifest ⟨0, .ofNat bytes.length, blake3.hash bytes⟩
    else manifest
  .ok ⟨FORMAT, .ofNat bytes.length, if bytes ≠ [] then 1 else 0, blake3.finalize manifest⟩

/-- Seal a member, whose proof rows must be all there. -/
def completeMemberSeal (member : MemberRecord) (rows : ProofRows) (memberSeal : MemberSeal) :
    Except Error MemberRecord := do
  memberSeal.validate blake3
  if member.memberSeal = some memberSeal then .ok member
  else do
    require (¬ (member.producerOpen = false ∨ member.memberSeal.isSome))
      (.corrupt "producer seal was already finalized")
    require (nextIndex rows = memberSeal.blocks.toNat)
      (.corrupt "producer manifest has missing proof rows")
    .ok { member with memberSeal := some memberSeal }

/-- A producer that writes, with the proof rows of its member. -/
structure Producer (η : Type) where
  /-- The producer. -/
  producer : ProducerSeal η
  /-- The rows. -/
  rows : ProofRows
  /-- What was accepted. -/
  bytes : List UInt8

/-- What may happen to it. -/
inductive ProducerEvent
  /-- Some bytes are written. -/
  | accepted (bytes : List UInt8)
  /-- A flush, with the outcome of its transaction. -/
  | flush (outcome : Outcome)

namespace Producer

/-- Before anything is written. -/
def start : Producer η := ⟨.new blake3, .empty, []⟩

/-- One step. There is none where the program would stop. -/
def step (member : MemberRecord) (s : Producer η) : ProducerEvent → Option (Producer η)
  | .accepted bytes =>
    (s.producer.accepted blake3 bytes).map fun p => ⟨p, s.rows, s.bytes ++ bytes⟩
  | .flush outcome =>
    let (_, p, rows) := s.producer.flush member s.rows outcome
    some ⟨p, rows, s.bytes⟩

/-- A write is not larger than what is available. -/
def Allowed (s : Producer η) : ProducerEvent → Prop
  | .accepted bytes => ∃ available, s.producer.available = some available ∧
      bytes.length ≤ available
  | .flush _ => True

end Producer

end Model

end Tgrep.Managed.Authentication
