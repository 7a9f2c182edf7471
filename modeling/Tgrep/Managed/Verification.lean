import Tgrep.Data.FixedCodec
import Tgrep.Data.IncrementalHash
import Tgrep.Managed.Collection

/-!
# Authenticating a member in pages

Before the bytes of a member are deleted, what is left of it is read and compared with the digests
that its producer recorded block by block. The work is cut into pages, each with an allowance of
bytes and a deadline. Between pages a verification remembers the next block, how much of it was
read, and the states of the hash of that block and of the hash over all rows.

## Main definitions

* `MemberSeal`, `Block`, `ProofRow`: what the producer recorded.
* `proofPage`: the next rows of the proof.
* `Verification`, `Verification.new`, `Verification.resetProof`: the state between pages.
* `Verification.turn`, `Verification.loop`, `Verification.page`: one block, the blocks of a page,
  and a page.
* `Session`, `Session.step`: pages one after the other, until one fails.

## Implementation notes

The hash function is a parameter. The outcome of the checks of the file and of the catalog, of a
query, and of a read is part of a pass; a read that succeeds returns the bytes of the content. A
page also returns where it read, which the program does not keep.
-/

namespace Tgrep.Managed.Authentication

open Collection (BLOCK_BYTES divCeil)

/-! ## What the producer recorded -/

/-- The version of the format. -/
def FORMAT : ℕ := 1

/-- The most bytes that a page reads. -/
def IO_BYTES : ℕ := 64 * 1024

/-- The most blocks of a page. -/
def PAGE_BLOCKS : ℕ := IO_BYTES / BLOCK_BYTES

/-- A digest. -/
abbrev Digest := Vector UInt8 32

/-- What the producer of a member intended to write. -/
structure MemberSeal where
  format : ℕ
  length : UInt64
  blocks : UInt64
  manifest : Digest
  deriving DecidableEq

/-- A row of the proof. -/
structure ProofRow where
  length : UInt32
  digest : List UInt8
  deriving DecidableEq

/-- A block of the proof. -/
structure Block where
  index : ℕ
  length : UInt32
  digest : Digest
  deriving DecidableEq

/-- The rows of the proof of a member, by the index of the block. -/
abbrev ProofRows := FinMap ℕ ProofRow

/-- A proof that contradicts itself. -/
def proofError (detail : String) : Error :=
  ⟨.corruptMetadata, "member-content-proof-invalid", detail, none⟩

/-- A member that is not what its producer wrote. -/
def modified (detail : String) : Error := ⟨.staleIdentity, "member-modified", detail, none⟩

/-- The text that every manifest begins with. -/
def manifestDomain : List UInt8 := "tgrep/managed/member-seals/v1\x00".toUTF8.toList

/-- The fields of a block, as they go into the manifest. -/
def Block.encode (b : Block) : List (List UInt8) :=
  [LittleEndian.toLE 8 b.index, LittleEndian.toLE 4 b.length.toNat, b.digest.toList]

section Hashing

variable {η : Type} (blake3 : IncrementalHash UInt8 η Digest)

/-- The hash over the rows, before the first row. -/
def manifestHasher : η := blake3.update blake3.new manifestDomain

/-- Hash a row. -/
def hashBlock (hash : η) (b : Block) : η := b.encode.foldl blake3.update hash

/-- Refuse a seal that contradicts itself. -/
def MemberSeal.validate (s : MemberSeal) : Except Error Unit :=
  if s.format ≠ FORMAT ∨ s.blocks.toNat ≠ divCeil s.length.toNat BLOCK_BYTES ∨
      (s.blocks = 0 ∧ s.manifest ≠ blake3.finalize (manifestHasher blake3)) then
    .error (.corrupt "invalid complete producer seal")
  else .ok ()

end Hashing

/-- A row with a digest of the right length. -/
def toBlock (row : ℕ × ProofRow) : Except Error Block :=
  if h : row.2.digest.length = 32 then
    .ok ⟨row.1, row.2.length, ⟨row.2.digest.toArray, h⟩⟩
  else .error (proofError "digest length differs from the authentication format")

/-- All rows, if their digests have the right length. -/
def toBlocks : List (ℕ × ProofRow) → Except Error (List Block)
  | [] => .ok []
  | row :: rows => do
    let block ← toBlock row
    let blocks ← toBlocks rows
    .ok (block :: blocks)

/-- The rows from a block on, in order. -/
def rowsFrom (rows : ProofRows) (nextBlock : ℕ) : List (ℕ × ProofRow) :=
  rows.toList.filter fun row => nextBlock ≤ row.1

/-- The rows of the next page. -/
def proofPage (rows : ProofRows) (nextBlock : ℕ) : Except Error (List Block) := do
  let pending ← toBlocks ((rowsFrom rows nextBlock).take PAGE_BLOCKS)
  if pending = [] then .error (proofError "a required producer proof row is missing")
  else .ok pending

/-! ## A pass -/

/-- What can fail in a page besides the verification itself. -/
inductive Stage
  /-- The checks before the first block. -/
  | begins
  /-- The query for rows before the given turn. -/
  | query (turn : ℕ)
  /-- The read in the given turn. -/
  | read (turn : ℕ)
  /-- The checks after the last block. -/
  | ends
  /-- The query for rows beyond the last block. -/
  | extra
  /-- The checks after the whole proof. -/
  | verified

/-- What a pass counts. -/
structure Progress where
  verificationBytes : ℕ := 0
  verificationPages : ℕ := 0
  proofRowsVerified : ℕ := 0
  deriving DecidableEq

/-- A pass that verifies a page: its bound, what it has counted, when its deadline passes, and the
outcome of everything that can fail. -/
structure Pass where
  maxDeleteBytes : ℕ
  progress : Progress := {}
  expired : ℕ → Bool := fun _ => false
  outcome : Stage → Except Error Unit := fun _ => .ok ()

/-- The bytes that a page may read. -/
def Pass.allowance (pass : Pass) : ℕ :=
  min (pass.maxDeleteBytes - pass.progress.verificationBytes) IO_BYTES

/-! ## The state between pages -/

/-- An open member that is being verified. -/
structure Verification (η : Type) where
  memberSeal : MemberSeal
  currentLength : ℕ
  nextBlock : ℕ
  partialLength : ℕ
  partialHash : η
  manifest : η
  pending : List Block
  complete : Bool

/-- The record of a member, as far as a verification reads it. -/
structure MemberRecord where
  producerOpen : Bool
  removed : Bool
  memberSeal : Option MemberSeal
  logicalBytes : ℕ
  creditedLogicalBytes : ℕ
  pendingLength : Option ℕ
  pendingManifest : Option Digest

namespace Verification

variable {η : Type} (blake3 : IncrementalHash UInt8 η Digest)

/-- The length that the member may have besides the recorded one. -/
def authorizedPending (member : MemberRecord) (memberSeal : MemberSeal) : Option ℕ :=
  member.pendingLength.filter fun _ => member.pendingManifest = some memberSeal.manifest

/-- Begin to verify a file of the given length. That the file can be opened and is what the record
says are outcomes. -/
def new (member : MemberRecord) (currentLength : ℕ) (opened checked : Except Error Unit) :
    Except Error (Verification η) :=
  match member.memberSeal with
  | none => .error (proofError "complete producer proof is absent")
  | some memberSeal => do
    memberSeal.validate blake3
    if member.producerOpen ∨ member.removed ∨
        Counter.checkedAdd member.logicalBytes member.creditedLogicalBytes ≠
          some memberSeal.length.toNat then
      .error (proofError "member inventory is not a sealed retained prefix")
    opened
    if currentLength ≠ member.logicalBytes ∧
        ¬ (authorizedPending member memberSeal).any fun t => t ≠ 0 ∧ t = currentLength then
      .error (modified ("member length differs from its sealed inventory and authenticated " ++
        "pending target"))
    if currentLength > memberSeal.length.toNat ∨
        (currentLength ≠ memberSeal.length.toNat ∧ currentLength % BLOCK_BYTES ≠ 0) then
      .error (proofError "retained length is not an original authentication block boundary")
    checked
    .ok ⟨memberSeal, currentLength, 0, 0, blake3.new, manifestHasher blake3, [], false⟩

/-- Forget what was verified. -/
def resetProof (v : Verification η) : Verification η where
  memberSeal := v.memberSeal
  currentLength := v.currentLength
  nextBlock := 0
  partialLength := 0
  partialHash := blake3.new
  manifest := manifestHasher blake3
  pending := []
  complete := false

/-- Query for rows if there are none left. -/
def refill (rows : ProofRows) (query : Except Error Unit) (v : Verification η) :
    Except Error (Verification η) :=
  if v.pending ≠ [] then .ok v
  else do
    query
    let pending ← proofPage rows v.nextBlock
    .ok { v with pending := pending }

/-- A page under way: the verification, the bytes read in this page, the counts of the pass, and
the offsets and lengths of the reads. -/
structure Page (η : Type) where
  verification : Verification η
  read : ℕ
  progress : Progress
  reads : List (ℕ × ℕ)

/-- How a turn of the loop ends. -/
inductive Turn
  | next
  | leave
  | fail (e : Error)

/-- Hash the bytes that were read at an offset. -/
def Page.hashed (p : Page η) (offset : ℕ) (bytes : List UInt8) : Page η where
  verification := { p.verification with
    partialHash := blake3.update p.verification.partialHash bytes
    partialLength := p.verification.partialLength + bytes.length }
  read := p.read + bytes.length
  progress := { p.progress with
    verificationBytes := p.progress.verificationBytes + bytes.length }
  reads := p.reads ++ [(offset, bytes.length)]

/-- Go on to the next block. -/
def Page.advance (p : Page η) (block : Block) (rest : List Block) : Page η where
  verification := { p.verification with
    manifest := hashBlock blake3 p.verification.manifest block
    partialHash := blake3.new
    partialLength := 0
    pending := rest
    nextBlock := p.verification.nextBlock + 1 }
  read := p.read
  progress := { p.progress with proofRowsVerified := p.progress.proofRowsVerified + 1 }
  reads := p.reads

/-- Read `count` bytes at an offset. -/
def readExact (content : List UInt8) (offset count : ℕ) : Except Error (List UInt8) :=
  if offset + count ≤ content.length then .ok ((content.drop offset).take count)
  else .error ⟨.io, "io", "failed to fill whole buffer", none⟩

variable (content : List UInt8) (rows : ProofRows) (pass : Pass)

/-- The part of a turn that reads a block of the content, or what is left of it. -/
def turnContent (turn : ℕ) (p : Page η) (block : Block) (rest : List Block) (start : ℕ) :
    Turn × Page η :=
  if pass.allowance = p.read then (.leave, p)
  else
    let count := min (block.length.toNat - p.verification.partialLength) (pass.allowance - p.read)
    let offset := start + p.verification.partialLength
    match pass.outcome (.read turn) >>= fun _ => readExact content offset count with
    | .error e => (.fail e, p)
    | .ok bytes =>
      let p := p.hashed blake3 offset bytes
      if p.verification.partialLength ≠ block.length.toNat then (.leave, p)
      else if blake3.finalize p.verification.partialHash ≠ block.digest then
        (.fail (modified "current payload differs from producer-intended content"), p)
      else (.next, p.advance blake3 block rest)

/-- One turn: the block that is next. -/
def turn (k : ℕ) (p : Page η) : Turn × Page η :=
  if pass.expired k then (.leave, p)
  else
    match p.verification.refill rows (pass.outcome (.query k)) with
    | .error e => (.fail e, p)
    | .ok v =>
      let p := { p with verification := v }
      match v.pending with
      | [] => (.fail (proofError "proof page is empty"), p)
      | block :: rest =>
        match Counter.checkedMul v.nextBlock BLOCK_BYTES with
        | none => (.fail (proofError "proof block offset overflow"), p)
        | some start =>
          let expected := min (v.memberSeal.length.toNat - start) BLOCK_BYTES
          if block.index ≠ v.nextBlock ∨ block.length.toNat ≠ expected ∨ expected = 0 then
            (.fail (proofError
              "producer proof is missing, reordered or has a different block length"), p)
          else if start < v.currentLength then turnContent blake3 content pass k p block rest start
          else (.next, p.advance blake3 block rest)

/-- The turns of a page. -/
def loop : ℕ → ℕ → Page η → Except Error Unit × Page η
  | 0, _, p => (.ok (), p)
  | fuel + 1, k, p =>
    if p.verification.nextBlock < p.verification.memberSeal.blocks.toNat then
      match turn blake3 content rows pass k p with
      | (.next, p) => loop fuel (k + 1) p
      | (.leave, p) => (.ok (), p)
      | (.fail e, p) => (.error e, p)
    else (.ok (), p)

/-- The end of a page: whether the proof is complete. -/
def finish (p : Page η) : Except Error Bool × Page η :=
  match pass.outcome .ends with
  | .error e => (.error e, p)
  | .ok () =>
    let v := p.verification
    if v.nextBlock = v.memberSeal.blocks.toNat then
      match pass.outcome .extra with
      | .error e => (.error e, p)
      | .ok () =>
        if rowsFrom rows v.memberSeal.blocks.toNat ≠ [] ∨
            blake3.finalize v.manifest ≠ v.memberSeal.manifest then
          (.error (proofError
            "complete producer manifest differs from the immutable proof rows"), p)
        else
          let p := { p with verification := { v with complete := true } }
          match pass.outcome .verified with
          | .error e => (.error e, p)
          | .ok () => (.ok true, p)
    else (.ok false, p)

/-- A page: whether the proof is complete, and what it leaves. -/
def page (v : Verification η) : Except Error Bool × Page η :=
  let p : Page η := ⟨v, 0, pass.progress, []⟩
  match pass.outcome .begins with
  | .error e => (.error e, p)
  | .ok () =>
    if v.complete then (.ok true, p)
    else
      let pages := pass.progress.verificationPages + 1
      let p := { p with progress := { pass.progress with verificationPages := pages } }
      match loop blake3 content rows pass PAGE_BLOCKS 0 p with
      | (.error e, p) => (.error e, p)
      | (.ok (), p) => finish blake3 rows pass p

end Verification

/-! ## Pages one after the other -/

/-- A verification with the outcome of its last page, and the reads since it began. -/
structure Session (η : Type) where
  verification : Verification η
  outcome : Except Error Bool := .ok false
  reads : List (ℕ × ℕ) := []

/-- What happens to a verification. -/
inductive Session.Event
  | page (pass : Pass)
  /-- Another policy or allocation: the proof begins again. -/
  | rebind

/-- One event. A verification is dropped when a page of it fails. -/
def Session.step {η : Type} (blake3 : IncrementalHash UInt8 η Digest) (content : List UInt8)
    (rows : ProofRows) (s : Session η) (event : Session.Event) : Session η :=
  match s.outcome with
  | .error _ => s
  | .ok _ =>
    match event with
    | .page pass =>
      let (outcome, p) := s.verification.page blake3 content rows pass
      ⟨p.verification, outcome, s.reads ++ p.reads⟩
    | .rebind => ⟨s.verification.resetProof blake3, .ok false, []⟩

end Tgrep.Managed.Authentication
