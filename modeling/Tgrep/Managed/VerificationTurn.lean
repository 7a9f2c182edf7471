import Tgrep.Managed.Verification

/-!
# One turn of a verification

What a pass over everything compares, what a verification in pages knows of it, and what one turn
of its loop does.

## Main definitions

* `BlockOk`, `WholePass`: what a pass over everything compares.
* `Tiles`: reads that follow each other without a gap.
* `Verification.Invariant`: what a verification knows between turns.
* `Verification.Advanced`: what some turns have done.

## Main results

* `Verification.turn_spec`: a turn accepts the next block, stops within it, or fails for a reason.
-/

namespace Tgrep.Managed.Authentication

open List

open Collection (BLOCK_BYTES divCeil)

/-! ## The whole pass -/

section Whole

variable {η : Type} (blake3 : IncrementalHash UInt8 η Digest) (rows : ProofRows)
  (memberSeal : MemberSeal) (content : List UInt8)

/-- The length of a block of the sealed content. -/
def expectedLength (i : ℕ) : ℕ := min (memberSeal.length.toNat - i * BLOCK_BYTES) BLOCK_BYTES

/-- The bytes of the rows of the first `n` blocks, as they go into the manifest. -/
def rowBytes (blocks : List Block) : List UInt8 := blocks.flatMap fun b => b.encode.flatten

/-- A row that says of block `i` what the seal says, and the digest of its bytes if the content
still has them. -/
structure BlockOk (i : ℕ) (b : Block) : Prop where
  row : ∃ row, rows.get? i = some row ∧ toBlock (i, row) = .ok b
  length : b.length.toNat = expectedLength memberSeal i
  digest : i * BLOCK_BYTES < content.length →
    blake3.hash ((content.drop (i * BLOCK_BYTES)).take b.length.toNat) = b.digest

/-- One pass over everything accepts the content: there is a row for every block and no other, the
blocks have the digests of their rows, and the rows have the digest of the seal. -/
def WholePass : Prop :=
  ∃ blocks : List Block, blocks.length = memberSeal.blocks.toNat ∧
    (∀ i b, blocks[i]? = some b → BlockOk blake3 rows memberSeal content i b) ∧
    (∀ i ∈ rows.keys, i < memberSeal.blocks.toNat) ∧
    blake3.hash (manifestDomain ++ rowBytes blocks) = memberSeal.manifest

end Whole

/-! ## Reads that follow each other -/

/-- The reads follow each other from `a` to `b`. -/
def Tiles : ℕ → List (ℕ × ℕ) → ℕ → Prop
  | a, [], b => a = b
  | a, (offset, count) :: reads, b => offset = a ∧ Tiles (a + count) reads b

/-- Reads followed by reads. -/
lemma Tiles.append {a b c : ℕ} {reads more : List (ℕ × ℕ)} (h : Tiles a reads b)
    (h' : Tiles b more c) : Tiles a (reads ++ more) c := by
  induction reads generalizing a with
  | nil =>
    obtain rfl : a = b := h
    exact h'
  | cons r reads ih => exact ⟨h.1, ih h.2⟩

/-! ## Rows in order -/

section Rows

variable {rows : ProofRows} {n : ℕ}

variable {row : ℕ × ProofRow}

/-- The rows from a block on are rows, and in order. -/
lemma mem_rowsFrom : row ∈ rowsFrom rows n ↔ rows.get? row.1 = some row.2 ∧ n ≤ row.1 := by
  rw [rowsFrom, mem_filter, FinMap.mem_toList, decide_eq_true_iff]

/-- After the row of a block come the rows from the next block on. -/
lemma rowsFrom_succ {rest : List (ℕ × ProofRow)} (h : rowsFrom rows n = row :: rest)
    (hrow : row.1 = n) : rowsFrom rows (n + 1) = rest := by
  have hsorted : (row :: rest).Pairwise fun a b => a.1 < b.1 := by
    rw [← h]
    exact (FinMap.pairwise_toList rows).filter _
  have hfilter : rowsFrom rows (n + 1) = (rowsFrom rows n).filter fun r => n + 1 ≤ r.1 := by
    rw [rowsFrom, rowsFrom, filter_filter]
    refine filter_congr fun r _ => ?_
    rw [← Bool.decide_and]
    refine decide_eq_decide.mpr ⟨fun hle => ⟨hle, by omega⟩, And.left⟩
  rw [hfilter, h, filter_cons_of_neg (by simp [hrow])]
  refine List.filter_eq_self.mpr fun r hr => ?_
  have hlt := (List.pairwise_cons.mp hsorted).1 r hr
  exact decide_eq_true (by omega)

/-- If there is a row for a block, the rows from it on begin with that row. -/
lemma rowsFrom_of_get? {r : ProofRow} (h : rows.get? n = some r) :
    ∃ rest, rowsFrom rows n = (n, r) :: rest := by
  have hmem : (n, r) ∈ rowsFrom rows n := mem_rowsFrom.mpr ⟨h, le_rfl⟩
  have hsorted : (rowsFrom rows n).Pairwise fun a b => a.1 < b.1 :=
    (FinMap.pairwise_toList rows).filter _
  cases hrows : rowsFrom rows n with
  | nil => rw [hrows] at hmem; exact absurd hmem not_mem_nil
  | cons first rest =>
    rw [hrows] at hmem hsorted
    rcases List.mem_cons.mp hmem with heq | hin
    · exact ⟨rest, by rw [heq]⟩
    · have hlt := (List.pairwise_cons.mp hsorted).1 _ hin
      have hle := (mem_rowsFrom.mp (hrows ▸ mem_cons_self : first ∈ rowsFrom rows n)).2
      omega

/-- Converting a list of rows that begins with some row. -/
lemma toBlocks_cons {rest : List (ℕ × ProofRow)} {blocks : List Block} :
    toBlocks (row :: rest) = .ok blocks ↔
      ∃ b bs, toBlock row = .ok b ∧ toBlocks rest = .ok bs ∧ blocks = b :: bs := by
  rw [toBlocks]
  cases hrow : toBlock row with
  | error e => simp [bind, Except.bind]
  | ok b =>
    cases hrest : toBlocks rest with
    | error e => simp [bind, Except.bind]
    | ok bs => simp [bind, Except.bind, eq_comm]

/-- The index of a row is that of its block. -/
lemma index_of_toBlock {b : Block} (h : toBlock row = .ok b) : b.index = row.1 := by
  unfold toBlock at h
  split_ifs at h
  cases h
  rfl

/-- Rows that all convert. -/
lemma toBlocks_of_forall {l : List (ℕ × ProofRow)} (h : ∀ row ∈ l, ∃ b, toBlock row = .ok b) :
    ∃ blocks, toBlocks l = .ok blocks ∧ (blocks = [] ↔ l = []) := by
  induction l with
  | nil => exact ⟨[], rfl, fun _ => rfl, fun _ => rfl⟩
  | cons row l ih =>
    obtain ⟨b, hb⟩ := h row mem_cons_self
    obtain ⟨bs, hbs, -⟩ := ih fun r hr => h r (mem_cons_of_mem _ hr)
    exact ⟨b :: bs, toBlocks_cons.mpr ⟨b, bs, hb, hbs, rfl⟩, by simp⟩

end Rows

/-! ## What the whole pass says of one block -/

section Whole

variable {η : Type} {blake3 : IncrementalHash UInt8 η Digest} {rows : ProofRows}
  {memberSeal : MemberSeal} {content : List UInt8} {n : ℕ}

/-- If the whole pass accepts, there is a row for every block. -/
lemma WholePass.blockOk (h : WholePass blake3 rows memberSeal content)
    (hn : n < memberSeal.blocks.toNat) : ∃ b, BlockOk blake3 rows memberSeal content n b := by
  obtain ⟨blocks, hlength, hblocks, -, -⟩ := h
  exact ⟨_, hblocks n _ (getElem?_eq_getElem (hlength ▸ hn))⟩

/-- If the whole pass accepts, every row converts. -/
lemma WholePass.toBlock (h : WholePass blake3 rows memberSeal content) {row : ℕ × ProofRow}
    (hrow : row ∈ rowsFrom rows n) : ∃ b, toBlock row = .ok b := by
  obtain ⟨hget, -⟩ := mem_rowsFrom.mp hrow
  have hlt := h.choose_spec.2.2.1 row.1 (FinMap.mem_keys_of_get? hget)
  obtain ⟨b, hb⟩ := h.blockOk hlt
  obtain ⟨r, hr, hok⟩ := hb.row
  rw [hget] at hr
  cases hr
  exact ⟨b, hok⟩

/-- If the whole pass accepts, the rows from a block on convert to a list that begins with it. -/
lemma WholePass.proofPage (h : WholePass blake3 rows memberSeal content)
    (hn : n < memberSeal.blocks.toNat) : ∃ pending, proofPage rows n = .ok pending := by
  obtain ⟨b, hb⟩ := h.blockOk hn
  obtain ⟨r, hr, -⟩ := hb.row
  obtain ⟨rest, hrest⟩ := rowsFrom_of_get? hr
  obtain ⟨pending, hpending, hempty⟩ := @toBlocks_of_forall
    ((rowsFrom rows n).take PAGE_BLOCKS) fun row hrow => h.toBlock (mem_of_mem_take hrow)
  have hne : pending ≠ [] := by
    intro hnil
    have htake := hempty.mp hnil
    rw [hrest] at htake
    exact absurd htake (by simp [PAGE_BLOCKS, IO_BYTES, BLOCK_BYTES])
  refine ⟨pending, ?_⟩
  rw [Authentication.proofPage, hpending]
  exact if_neg hne

end Whole

/-! ## What a verification knows -/

namespace Verification

variable {η : Type} {blake3 : IncrementalHash UInt8 η Digest} {content : List UInt8}
  {rows : ProofRows}

/-- How much of the content was processed. -/
def position (v : Verification η) : ℕ :=
  min (v.nextBlock * BLOCK_BYTES) v.currentLength + v.partialLength

/-- What a verification knows between pages. -/
structure Invariant (blake3 : IncrementalHash UInt8 η Digest) (content : List UInt8)
    (rows : ProofRows) (v : Verification η) : Prop where
  blocks : v.memberSeal.blocks.toNat = divCeil v.memberSeal.length.toNat BLOCK_BYTES
  current : v.currentLength = content.length
  boundary : content.length ≤ v.memberSeal.length.toNat ∧
    (content.length = v.memberSeal.length.toNat ∨ content.length % BLOCK_BYTES = 0)
  next_le : v.nextBlock ≤ v.memberSeal.blocks.toNat
  inBlock : v.partialLength = 0 ∨ (v.nextBlock < v.memberSeal.blocks.toNat ∧
    v.nextBlock * BLOCK_BYTES < content.length ∧
    v.partialLength ≤ expectedLength v.memberSeal v.nextBlock)
  hashed : blake3.Absorbed v.partialHash
    ((content.drop (v.nextBlock * BLOCK_BYTES)).take v.partialLength)
  accepted : ∃ blocks : List Block, blocks.length = v.nextBlock ∧
    (∀ i b, blocks[i]? = some b → BlockOk blake3 rows v.memberSeal content i b) ∧
    blake3.Absorbed v.manifest (manifestDomain ++ rowBytes blocks)
  pending : ∃ k, toBlocks ((rowsFrom rows v.nextBlock).take k) = .ok v.pending
  complete : v.complete = true → v.nextBlock = v.memberSeal.blocks.toNat ∧
    WholePass blake3 rows v.memberSeal content

/-- The next block was not read to its end. -/
def Unfinished (v : Verification η) : Prop :=
  v.partialLength = 0 ∨ v.partialLength < expectedLength v.memberSeal v.nextBlock

variable {k : ℕ} {b : Block} {p : Page η} {rest : List Block} {v : Verification η}

variable (h : v.Invariant blake3 content rows)

include h

/-- A block that is still in the content is in it as a whole. -/
lemma Invariant.block_le {i : ℕ} (hi : i * BLOCK_BYTES < content.length) :
    i * BLOCK_BYTES + expectedLength v.memberSeal i ≤ content.length := by
  have hboundary := h.boundary
  unfold expectedLength
  simp only [BLOCK_BYTES] at hi hboundary ⊢
  omega

/-- Every block of the seal has bytes. -/
lemma Invariant.expected_pos {i : ℕ}
    (hi : i < v.memberSeal.blocks.toNat) : 0 < expectedLength v.memberSeal i := by
  rw [h.blocks, divCeil] at hi
  unfold expectedLength
  simp only [BLOCK_BYTES] at hi ⊢
  omega

/-- The position after a block that is still in the content. -/
lemma Invariant.position_succ (hlt : v.nextBlock < v.memberSeal.blocks.toNat)
    (hstart : v.nextBlock * BLOCK_BYTES < content.length) :
    min ((v.nextBlock + 1) * BLOCK_BYTES) v.currentLength =
      v.nextBlock * BLOCK_BYTES + expectedLength v.memberSeal v.nextBlock := by
  have hboundary := h.boundary
  have hpos := h.expected_pos hlt
  rw [h.current]
  unfold expectedLength at hpos ⊢
  simp only [BLOCK_BYTES] at hboundary hpos hstart ⊢
  omega

/-- The first row that is left. -/
lemma Invariant.front (hpending : v.pending = b :: rest) :
    ∃ row more, rowsFrom rows v.nextBlock = row :: more ∧ toBlock row = .ok b ∧
      ∃ k, toBlocks (more.take k) = .ok rest := by
  obtain ⟨k, hk⟩ := h.pending
  rw [hpending] at hk
  cases hrows : rowsFrom rows v.nextBlock with
  | nil =>
    rw [hrows, take_nil] at hk
    cases hk
  | cons row more =>
    rw [hrows] at hk
    cases k with
    | zero => cases hk
    | succ k =>
      rw [take_succ_cons, toBlocks_cons] at hk
      obtain ⟨b', rest', hb, hrest, heq⟩ := hk
      cases heq
      exact ⟨row, more, rfl, hb, k, hrest⟩

/-- The next block is accepted. -/
lemma Invariant.advance (hlt : v.nextBlock < v.memberSeal.blocks.toNat)
    (hpending : v.pending = b :: rest) (hindex : b.index = v.nextBlock)
    (hok : BlockOk blake3 rows v.memberSeal content v.nextBlock b) :
    Invariant blake3 content rows { v with
      manifest := hashBlock blake3 v.manifest b
      partialHash := blake3.new
      partialLength := 0
      pending := rest
      nextBlock := v.nextBlock + 1 } where
  blocks := h.blocks
  current := h.current
  boundary := h.boundary
  next_le := hlt
  inBlock := .inl rfl
  hashed := by
    rw [take_zero]
    exact blake3.absorbed_new
  accepted := by
    obtain ⟨blocks, hlength, hblocks, hmanifest⟩ := h.accepted
    refine ⟨blocks ++ [b], ?_, fun i b' hb' => ?_, ?_⟩
    · rw [length_append, hlength, length_singleton]
    · rw [getElem?_append] at hb'
      split_ifs at hb' with hi
      · exact hblocks i b' hb'
      · rw [getElem?_singleton] at hb'
        split_ifs at hb' with hzero
        cases hb'
        have hi' : i = v.nextBlock := by omega
        rw [hi']
        exact hok
    · have hmore := hmanifest.foldl b.encode
      rw [append_assoc] at hmore
      have hbytes : rowBytes (blocks ++ [b]) = rowBytes blocks ++ b.encode.flatten := by
        rw [rowBytes, rowBytes, flatMap_append, flatMap_singleton]
      rw [hbytes]
      exact hmore
  pending := by
    obtain ⟨row, more, hrows, hb, k, hk⟩ := h.front hpending
    have hrow : row.1 = v.nextBlock := by rw [← index_of_toBlock hb, hindex]
    refine ⟨k, ?_⟩
    dsimp only
    rw [rowsFrom_succ hrows hrow]
    exact hk
  complete hcomplete := by
    have := (h.complete hcomplete).1
    omega

omit h

/-! ## A turn -/

variable {pass : Pass}

/-- What the turns of a page have done. -/
structure Advanced (blake3 : IncrementalHash UInt8 η Digest) (content : List UInt8)
    (rows : ProofRows) (pass : Pass) (p p' : Page η) : Prop where
  invariant : p'.verification.Invariant blake3 content rows
  memberSeal : p'.verification.memberSeal = p.verification.memberSeal
  next_le : p.verification.nextBlock ≤ p'.verification.nextBlock
  position_le : p.verification.position ≤ p'.verification.position
  reads : ∃ more, p'.reads = p.reads ++ more ∧
    Tiles p.verification.position more p'.verification.position
  read : p'.read + p.verification.position = p.read + p'.verification.position
  read_le : p'.read ≤ pass.allowance
  bytes : p'.progress.verificationBytes + p.verification.position =
    p.progress.verificationBytes + p'.verification.position
  proofRows : p'.progress.proofRowsVerified + p.verification.nextBlock =
    p.progress.proofRowsVerified + p'.verification.nextBlock

/-- Nothing was done. -/
lemma Advanced.refl (h : p.verification.Invariant blake3 content rows)
    (hread : p.read ≤ pass.allowance) : Advanced blake3 content rows pass p p :=
  ⟨h, rfl, le_rfl, le_rfl, ⟨[], (append_nil _).symm, rfl⟩, rfl, hread, rfl, rfl⟩

/-- One thing after the other. -/
lemma Advanced.trans {q r : Page η} (h : Advanced blake3 content rows pass p q)
    (h' : Advanced blake3 content rows pass q r) : Advanced blake3 content rows pass p r where
  invariant := h'.invariant
  memberSeal := h'.memberSeal.trans h.memberSeal
  next_le := h.next_le.trans h'.next_le
  position_le := h.position_le.trans h'.position_le
  reads := by
    obtain ⟨first, hfirst, htiles⟩ := h.reads
    obtain ⟨second, hsecond, htiles'⟩ := h'.reads
    refine ⟨first ++ second, ?_, htiles.append htiles'⟩
    rw [hsecond, hfirst, append_assoc]
  read := by
    have hone := h.read
    have htwo := h'.read
    omega
  read_le := h'.read_le
  bytes := by
    have hone := h.bytes
    have htwo := h'.bytes
    omega
  proofRows := by
    have hone := h.proofRows
    have htwo := h'.proofRows
    omega

/-- Something failed: the whole pass does not accept, or something besides the verification. -/
def Failed (blake3 : IncrementalHash UInt8 η Digest) (content : List UInt8) (rows : ProofRows)
    (pass : Pass) (memberSeal : MemberSeal) (e : Error) : Prop :=
  ¬ WholePass blake3 rows memberSeal content ∨ ∃ stage, pass.outcome stage = .error e

/-- What a turn does. -/
def TurnSpec (blake3 : IncrementalHash UInt8 η Digest) (content : List UInt8) (rows : ProofRows)
    (pass : Pass) (k : ℕ) (p : Page η) : Turn × Page η → Prop
  | (.next, p') => Advanced blake3 content rows pass p p' ∧ p'.verification.Unfinished ∧
      p'.verification.nextBlock = p.verification.nextBlock + 1
  | (.leave, p') => Advanced blake3 content rows pass p p' ∧ p'.verification.Unfinished ∧
      (pass.expired k = false → p.read < pass.allowance →
        p.verification.position < p'.verification.position)
  | (.fail e, _) => Failed blake3 content rows pass p.verification.memberSeal e

/-- A query for rows that succeeds leaves the verification with the row of the next block, if the
whole pass accepts. -/
lemma Invariant.refill {v' : Verification η} (h : v.Invariant blake3 content rows)
    {query : Except Error Unit} (hv : v.refill rows query = .ok v') :
    v'.Invariant blake3 content rows ∧ v' = { v with pending := v'.pending } ∧
      v'.pending ≠ [] := by
  unfold Verification.refill at hv
  split_ifs at hv with hpending
  · cases hv
    exact ⟨h, rfl, hpending⟩
  · cases hquery : query with
    | error e => simp [hquery, bind, Except.bind] at hv
    | ok u =>
      cases hpage : proofPage rows v.nextBlock with
      | error e => simp [hquery, hpage, bind, Except.bind] at hv
      | ok pending =>
        simp only [hquery, hpage, bind, Except.bind, Except.ok.injEq] at hv
        subst hv
        unfold proofPage at hpage
        cases hblocks : toBlocks ((rowsFrom rows v.nextBlock).take PAGE_BLOCKS) with
        | error e => simp [hblocks, bind, Except.bind] at hpage
        | ok blocks =>
          simp only [hblocks, bind, Except.bind] at hpage
          split_ifs at hpage with hnil
          cases hpage
          exact ⟨{ h with pending := ⟨PAGE_BLOCKS, hblocks⟩ }, rfl, hnil⟩

/-- A query for rows that fails. -/
lemma Invariant.refill_failed {e : Error} {stage : Stage}
    (hlt : v.nextBlock < v.memberSeal.blocks.toNat)
    (hv : v.refill rows (pass.outcome stage) = .error e) :
    Failed blake3 content rows pass v.memberSeal e := by
  unfold Verification.refill at hv
  split_ifs at hv with hpending
  cases hquery : pass.outcome stage with
  | error e' =>
    simp only [hquery, bind, Except.bind, Except.error.injEq] at hv
    exact .inr ⟨stage, hv ▸ hquery⟩
  | ok u =>
    refine .inl fun hwhole => ?_
    obtain ⟨pending, hpage⟩ := hwhole.proofPage hlt
    simp [hquery, hpage, bind, Except.bind] at hv

/-- The front row that is left is that of the next block, if the whole pass accepts. -/
lemma Invariant.blockOk_of_whole (h : v.Invariant blake3 content rows)
    (hlt : v.nextBlock < v.memberSeal.blocks.toNat) (hpending : v.pending = b :: rest)
    (hwhole : WholePass blake3 rows v.memberSeal content) :
    BlockOk blake3 rows v.memberSeal content v.nextBlock b := by
  obtain ⟨b', hb'⟩ := hwhole.blockOk hlt
  obtain ⟨r, hr, hblock⟩ := hb'.row
  obtain ⟨rest', hrest'⟩ := rowsFrom_of_get? hr
  obtain ⟨row, more, hrows, hb, -⟩ := h.front hpending
  rw [hrest'] at hrows
  cases hrows
  rw [hblock] at hb
  cases hb
  exact hb'

/-- A read within the content. -/
lemma readExact_of_le {offset count : ℕ} (h : offset + count ≤ content.length) :
    readExact content offset count = .ok ((content.drop offset).take count) ∧
      ((content.drop offset).take count).length = count := by
  refine ⟨if_pos h, ?_⟩
  rw [length_take, length_drop]
  omega

/-- Within a block that is still in the content, the position is its start and what was read. -/
lemma Invariant.position_eq (h : v.Invariant blake3 content rows)
    (hstart : v.nextBlock * BLOCK_BYTES < content.length) :
    v.position = v.nextBlock * BLOCK_BYTES + v.partialLength := by
  rw [position, h.current, Nat.min_eq_left (Nat.le_of_lt hstart)]

/-- More of the next block was read. -/
lemma Advanced.hashed (h : p.verification.Invariant blake3 content rows)
    (hlt : p.verification.nextBlock < p.verification.memberSeal.blocks.toNat)
    (hstart : p.verification.nextBlock * BLOCK_BYTES < content.length) {bytes : List UInt8}
    (hbytes : bytes = (content.drop (p.verification.nextBlock * BLOCK_BYTES +
      p.verification.partialLength)).take bytes.length)
    (hle : p.verification.partialLength + bytes.length ≤
      expectedLength p.verification.memberSeal p.verification.nextBlock)
    (hread : p.read + bytes.length ≤ pass.allowance) :
    Advanced blake3 content rows pass p (p.hashed blake3
      (p.verification.nextBlock * BLOCK_BYTES + p.verification.partialLength) bytes) := by
  have hinv : (p.hashed blake3 (p.verification.nextBlock * BLOCK_BYTES +
      p.verification.partialLength) bytes).verification.Invariant blake3 content rows :=
    { h with
      inBlock := .inr ⟨hlt, hstart, hle⟩
      hashed := by
        have hmore := h.hashed.update bytes
        have hinput : (content.drop (p.verification.nextBlock * BLOCK_BYTES)).take
            (p.verification.partialLength + bytes.length) =
            (content.drop (p.verification.nextBlock * BLOCK_BYTES)).take
              p.verification.partialLength ++ bytes := by
          rw [take_add, drop_drop, ← hbytes]
        rw [← hinput] at hmore
        exact hmore }
  have hbefore := h.position_eq hstart
  have hafter := hinv.position_eq hstart
  have hposition : (p.hashed blake3 (p.verification.nextBlock * BLOCK_BYTES +
      p.verification.partialLength) bytes).verification.position =
      p.verification.position + bytes.length := by
    rw [hafter, hbefore, add_assoc]
    rfl
  refine ⟨hinv, rfl, le_rfl, ?_, ⟨[_], rfl, hbefore.symm, hposition.symm⟩, ?_, hread, ?_, rfl⟩
  · rw [hposition]
    exact Nat.le_add_right _ _
  · rw [hposition]
    show p.read + bytes.length + _ = _
    omega
  · rw [hposition]
    show p.progress.verificationBytes + bytes.length + _ = _
    omega

/-- The next block is accepted when all of it was processed. -/
lemma Advanced.advance (h : p.verification.Invariant blake3 content rows)
    (hlt : p.verification.nextBlock < p.verification.memberSeal.blocks.toNat)
    (hpending : p.verification.pending = b :: rest) (hindex : b.index = p.verification.nextBlock)
    (hok : BlockOk blake3 rows p.verification.memberSeal content p.verification.nextBlock b)
    (hread : p.read ≤ pass.allowance) (hposition : p.verification.position =
      min ((p.verification.nextBlock + 1) * BLOCK_BYTES) p.verification.currentLength) :
    Advanced blake3 content rows pass p (p.advance blake3 b rest) := by
  have hsame : (p.advance blake3 b rest).verification.position = p.verification.position :=
    hposition.symm
  refine ⟨h.advance hlt hpending hindex hok, rfl, Nat.le_succ _, hsame.symm.le,
    ⟨[], (append_nil _).symm, hsame.symm⟩, ?_, hread, ?_, ?_⟩
  · rw [hsame]
    rfl
  · rw [hsame]
    rfl
  · show p.progress.proofRowsVerified + 1 + p.verification.nextBlock =
      p.progress.proofRowsVerified + (p.verification.nextBlock + 1)
    omega

/-- The row at the front is that of the next block. -/
lemma Invariant.row (h : v.Invariant blake3 content rows) (hpending : v.pending = b :: rest)
    (hindex : b.index = v.nextBlock) :
    ∃ row, rows.get? v.nextBlock = some row ∧ toBlock (v.nextBlock, row) = .ok b := by
  obtain ⟨row, more, hrows, hb, -⟩ := h.front hpending
  have hrow : row.1 = v.nextBlock := by rw [← index_of_toBlock hb, hindex]
  have hmem : row ∈ rowsFrom rows v.nextBlock := hrows ▸ mem_cons_self
  obtain ⟨i, r⟩ := row
  obtain rfl : i = v.nextBlock := hrow
  exact ⟨r, (mem_rowsFrom.mp hmem).1, hb⟩

/-- **A turn that reads**: it stops within the block, or hashes its last byte. -/
lemma turnContent_spec (h : p.verification.Invariant blake3 content rows)
    (hopen : p.verification.Unfinished)
    (hlt : p.verification.nextBlock < p.verification.memberSeal.blocks.toNat)
    (hread : p.read ≤ pass.allowance) (hpending : p.verification.pending = b :: rest)
    (hindex : b.index = p.verification.nextBlock)
    (hlength : b.length.toNat = expectedLength p.verification.memberSeal p.verification.nextBlock)
    (hstart : p.verification.nextBlock * BLOCK_BYTES < content.length) :
    TurnSpec blake3 content rows pass k p (turnContent blake3 content pass k p b rest
      (p.verification.nextBlock * BLOCK_BYTES)) := by
  have hblock := h.block_le hstart
  have hpos := h.expected_pos hlt
  have hpartial : p.verification.partialLength <
      expectedLength p.verification.memberSeal p.verification.nextBlock := by
    rcases hopen with hzero | hless
    · omega
    · exact hless
  unfold turnContent
  by_cases hall : pass.allowance = p.read
  · rw [if_pos hall]
    exact ⟨Advanced.refl h hread, hopen, fun _ hless => by omega⟩
  rw [if_neg hall]
  dsimp only
  set count := min (b.length.toNat - p.verification.partialLength) (pass.allowance - p.read)
    with hcount
  obtain ⟨hexact, hcounted⟩ := readExact_of_le
    (show p.verification.nextBlock * BLOCK_BYTES + p.verification.partialLength + count ≤
      content.length by omega)
  cases houtcome : pass.outcome (.read k) with
  | error e => exact .inr ⟨_, houtcome⟩
  | ok u =>
    simp only [bind, Except.bind, hexact]
    set bytes := (content.drop (p.verification.nextBlock * BLOCK_BYTES +
      p.verification.partialLength)).take count with hbytes
    have hhashed : Advanced blake3 content rows pass p (p.hashed blake3
        (p.verification.nextBlock * BLOCK_BYTES + p.verification.partialLength) bytes) := by
      refine Advanced.hashed h hlt hstart ?_ ?_ ?_
      · rw [hcounted]
      · rw [hcounted]
        omega
      · rw [hcounted]
        omega
    set q := p.hashed blake3
      (p.verification.nextBlock * BLOCK_BYTES + p.verification.partialLength) bytes with hq
    have hlengths : q.verification.partialLength = p.verification.partialLength + count :=
      congrArg (p.verification.partialLength + ·) hcounted
    have hinv := hhashed.invariant
    by_cases hdone : q.verification.partialLength = b.length.toNat
    · rw [if_neg (not_not.mpr hdone)]
      have hdigest : blake3.finalize q.verification.partialHash =
          blake3.hash ((content.drop (p.verification.nextBlock * BLOCK_BYTES)).take
            b.length.toNat) := hdone ▸ hinv.hashed.finalize
      by_cases heq : blake3.finalize q.verification.partialHash = b.digest
      · -- the block is complete and has the digest of its row
        rw [if_neg (not_not.mpr heq)]
        have hok : BlockOk blake3 rows q.verification.memberSeal content
            q.verification.nextBlock b :=
          ⟨hinv.row hpending hindex, hlength, fun _ => hdigest ▸ heq⟩
        have hposition : q.verification.position =
            min ((q.verification.nextBlock + 1) * BLOCK_BYTES) q.verification.currentLength := by
          rw [hinv.position_succ hlt hstart, hinv.position_eq hstart, hdone, hlength]
          rfl
        exact ⟨hhashed.trans (Advanced.advance hinv hlt hpending hindex hok hhashed.read_le
          hposition), .inl rfl, rfl⟩
      · rw [if_pos heq]
        refine .inl fun hwhole => heq ?_
        rw [hdigest]
        exact (h.blockOk_of_whole hlt hpending hwhole).digest hstart
    · rw [if_pos hdone]
      refine ⟨hhashed, .inr ?_, fun _ hless => ?_⟩
      · show q.verification.partialLength <
          expectedLength p.verification.memberSeal p.verification.nextBlock
        omega
      · have hone := h.position_eq hstart
        have htwo : q.verification.position =
            p.verification.nextBlock * BLOCK_BYTES + q.verification.partialLength :=
          hinv.position_eq hstart
        omega

/-- A turn after a query that changed nothing but the rows that are left. -/
lemma TurnSpec.of_query {q : Page η} (h : Advanced blake3 content rows pass p q)
    (hnext : q.verification.nextBlock = p.verification.nextBlock)
    (hposition : q.verification.position = p.verification.position) {t : Turn × Page η}
    (ht : TurnSpec blake3 content rows pass k q t) : TurnSpec blake3 content rows pass k p t := by
  have hread : q.read = p.read := by
    have := h.read
    omega
  obtain ⟨t, r⟩ := t
  cases t with
  | next => exact ⟨h.trans ht.1, ht.2.1, hnext ▸ ht.2.2⟩
  | leave =>
    refine ⟨h.trans ht.1, ht.2.1, fun hexpired hless => ?_⟩
    have hprogress := ht.2.2 hexpired (by omega)
    omega
  | fail e =>
    have hfail : Failed blake3 content rows pass q.verification.memberSeal e := ht
    rw [h.memberSeal] at hfail
    exact hfail

/-- **A turn.** -/
lemma turn_spec (h : p.verification.Invariant blake3 content rows)
    (hopen : p.verification.Unfinished)
    (hlt : p.verification.nextBlock < p.verification.memberSeal.blocks.toNat)
    (hread : p.read ≤ pass.allowance) :
    TurnSpec blake3 content rows pass k p (turn blake3 content rows pass k p) := by
  unfold turn
  by_cases hexpired : pass.expired k = true
  · rw [if_pos hexpired]
    exact ⟨Advanced.refl h hread, hopen, fun hnot => by rw [hexpired] at hnot; cases hnot⟩
  rw [if_neg hexpired]
  cases hrefill : p.verification.refill rows (pass.outcome (.query k)) with
  | error e => exact Invariant.refill_failed hlt hrefill
  | ok v =>
    obtain ⟨hinv, hv, hne⟩ := h.refill hrefill
    dsimp only
    cases hpending : v.pending with
    | nil => exact absurd hpending hne
    | cons b rest =>
      -- the query changed nothing but the rows that are left
      have hseal : v.memberSeal = p.verification.memberSeal := by rw [hv]
      have hnext : v.nextBlock = p.verification.nextBlock := by rw [hv]
      have hposition : v.position = p.verification.position := by rw [hv]; rfl
      have hopen' : v.Unfinished := by rw [hv]; exact hopen
      have hlt' : v.nextBlock < v.memberSeal.blocks.toNat := by rw [hseal, hnext]; exact hlt
      have hrefilled : Advanced blake3 content rows pass p { p with verification := v } :=
        ⟨hinv, hseal, hnext.symm.le, hposition.symm.le,
          ⟨[], (append_nil _).symm, hposition.symm⟩, by rw [hposition], hread,
          by rw [hposition], by rw [hnext]⟩
      refine TurnSpec.of_query hrefilled hnext hposition ?_
      have hpos := hinv.expected_pos hlt'
      have hbound := v.memberSeal.length.toNat_lt
      have hmul : Counter.checkedMul v.nextBlock BLOCK_BYTES = some (v.nextBlock * BLOCK_BYTES) := by
        rw [expectedLength] at hpos
        have hless : v.nextBlock * BLOCK_BYTES < Counter.size := by
          rw [Counter.size]
          omega
        rw [Counter.checkedMul, if_pos hless]
      rw [hmul]
      dsimp only
      by_cases hmismatch : b.index ≠ v.nextBlock ∨
          b.length.toNat ≠ expectedLength v.memberSeal v.nextBlock ∨
          expectedLength v.memberSeal v.nextBlock = 0
      · rw [expectedLength] at hmismatch
        rw [if_pos hmismatch]
        refine .inl fun hwhole => ?_
        have hok := hinv.blockOk_of_whole hlt' hpending hwhole
        obtain ⟨r, -, hr⟩ := hok.row
        rw [← expectedLength] at hmismatch
        rcases hmismatch with hindex | hlength | hzero
        · exact hindex (index_of_toBlock hr)
        · exact hlength hok.length
        · omega
      · have hmatch := hmismatch
        rw [expectedLength] at hmismatch
        rw [if_neg hmismatch]
        push Not at hmatch
        obtain ⟨hindex, hlength, -⟩ := hmatch
        by_cases hstart : v.nextBlock * BLOCK_BYTES < v.currentLength
        · rw [if_pos hstart]
          rw [hinv.current] at hstart
          exact turnContent_spec hinv hopen' hlt' hread hpending hindex hlength hstart
        · -- the bytes of the block were deleted before, and only its row counts
          rw [if_neg hstart]
          have hcurrent := hinv.current
          have hzero : v.partialLength = 0 := by
            rcases hinv.inBlock with hzero | ⟨-, hless, -⟩
            · exact hzero
            · omega
          have hok : BlockOk blake3 rows v.memberSeal content v.nextBlock b :=
            ⟨hinv.row hpending hindex, hlength, fun hless => absurd hless (by omega)⟩
          have hend : v.position = min ((v.nextBlock + 1) * BLOCK_BYTES) v.currentLength := by
            rw [position, hzero, Nat.add_mul]
            omega
          exact ⟨Advanced.advance hinv hlt' hpending hindex hok hread hend, .inl rfl, rfl⟩

end Verification

end Tgrep.Managed.Authentication
