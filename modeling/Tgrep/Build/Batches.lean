import Tgrep.Data.Counter
import Mathlib.Data.List.Range
import Mathlib.Data.List.Flatten
import Mathlib.Algebra.Order.BigOperators.Group.List
import Mathlib.Algebra.Order.Ring.Nat
import Mathlib.Tactic.Common

/-!
# Batches of files to index

A build reads its files in batches. A small file is charged its size against a heap budget. A file
that is large enough to be mapped is charged a bounded amount there, and its size against a second
budget. One scan over the charges closes a batch as soon as the next file would exceed the number
of files, or one of the budgets.

## Main definitions

* `batchCharge`, `fileCharge`: what a file costs a batch.
* `BatchScan.step`, `batchRanges`: one step of the scan, and the scan.
* `BatchRange.items`, `BatchRange.heap`, `BatchRange.mapped`: the files of a range, and what they
  cost together.

## Main results

* `BatchScan.Invariant.step`: the closed ranges tile what is before the open one, and all of them
  are within the limits.
* `batchRanges_fileCharge`: the ranges tile the files and are within the limits.

## Implementation notes

A size is `none` if it could not be read. The sums of the source are of 64-bit words and saturate.
-/

namespace Tgrep

open List Counter

/-! ## Charges -/

/-- The number of files that one batch may have. -/
def INDEX_BUILD_BATCH_SIZE : ℕ := 1024

/-- The heap bytes that one batch may have. -/
def INDEX_BUILD_BATCH_BYTES : ℕ := 64 * 1024 * 1024

/-- The heap charge of a file that is mapped. -/
def MAPPED_BATCH_CHARGE : ℕ := 2 * 1024 * 1024

/-- The mapped bytes that one batch may have. -/
def MAPPED_BATCH_BYTES : ℕ := 256 * 1024 * 1024

/-- The size from which a file is mapped. -/
def MMAP_MIN_BYTES : ℕ := 1024 * 1024

/-- What one file costs a batch. -/
structure BatchCharge where
  /-- The charge against the heap budget. -/
  heap : ℕ
  /-- The charge against the mapped budget. -/
  mapped : ℕ
  deriving DecidableEq

/-- The charge of a file of the given size. -/
def batchCharge (size : ℕ) : BatchCharge :=
  if MMAP_MIN_BYTES ≤ size then ⟨min size MAPPED_BATCH_CHARGE, size⟩ else ⟨size, 0⟩

/-- The charge of a file whose size could not be read. -/
def UNKNOWN_SIZE_CHARGE : BatchCharge := ⟨INDEX_BUILD_BATCH_BYTES, MAPPED_BATCH_BYTES⟩

/-- The charge of a file in `batch_sizes_and_charges`. -/
def fileCharge : Option UInt64 → BatchCharge
  | some size => batchCharge size.toNat
  | none => UNKNOWN_SIZE_CHARGE

/-- The bytes of a file that are read into the heap. -/
def heapRead (size : ℕ) : ℕ := if MMAP_MIN_BYTES ≤ size then 0 else size

/-- No file is charged more heap than a whole batch. -/
lemma fileCharge_heap_le (size : Option UInt64) :
    (fileCharge size).heap ≤ INDEX_BUILD_BATCH_BYTES := by
  cases size with
  | none => exact le_rfl
  | some size =>
    show (batchCharge size.toNat).heap ≤ _
    unfold batchCharge
    by_cases h : MMAP_MIN_BYTES ≤ size.toNat
    · rw [if_pos h]
      exact (min_le_right _ _).trans (by decide)
    · rw [if_neg h]
      exact (Nat.not_le.mp h).le.trans (by decide)

/-- The heap charge of a file covers the bytes of it that are read into the heap. -/
lemma heapRead_le (size : ℕ) : heapRead size ≤ (batchCharge size).heap := by
  unfold heapRead batchCharge
  split_ifs with h
  · exact Nat.zero_le _
  · exact le_rfl

/-! ## The scan -/

/-- A range of file positions, without its end. -/
structure BatchRange where
  /-- The first position. -/
  start : ℕ
  /-- The position after the last one. -/
  stop : ℕ
  deriving DecidableEq

namespace BatchRange

/-- The positions of a range. -/
def items (r : BatchRange) : List ℕ := List.range' r.start (r.stop - r.start)

/-- The elements of a list at the positions of a range. -/
def slice {α : Type*} (r : BatchRange) (l : List α) : List α := (l.take r.stop).drop r.start

/-- What the files of a range cost the heap budget. -/
def heap (r : BatchRange) (charges : List BatchCharge) : ℕ :=
  ((r.slice charges).map BatchCharge.heap).sum

/-- What the files of a range cost the mapped budget. -/
def mapped (r : BatchRange) (charges : List BatchCharge) : ℕ :=
  ((r.slice charges).map BatchCharge.mapped).sum

end BatchRange

/-- The variables of the scan. -/
structure BatchScan where
  /-- The ranges that are closed. -/
  ranges : List BatchRange := []
  /-- The first position of the open range. -/
  start : ℕ := 0
  /-- The heap charge of the open range. -/
  heap : ℕ := 0
  /-- The mapped charge of the open range. -/
  mapped : ℕ := 0

namespace BatchScan

/-- Whether the open range cannot take the file at `i`. -/
def full (s : BatchScan) (budget i : ℕ) (charge : BatchCharge) : Prop :=
  INDEX_BUILD_BATCH_SIZE ≤ i - s.start ∨
    budget < Counter.saturatingAdd s.heap charge.heap ∨
    MAPPED_BATCH_BYTES < Counter.saturatingAdd s.mapped charge.mapped

instance (s : BatchScan) (budget i : ℕ) (charge : BatchCharge) :
    Decidable (s.full budget i charge) :=
  inferInstanceAs (Decidable (_ ∨ _ ∨ _))

/-- Close the open range before `i`. -/
def close (s : BatchScan) (i : ℕ) : BatchScan := ⟨s.ranges ++ [⟨s.start, i⟩], i, 0, 0⟩

/-- Charge a file to the open range. -/
def charge (s : BatchScan) (c : BatchCharge) : BatchScan :=
  { s with
    heap := Counter.saturatingAdd s.heap c.heap
    mapped := Counter.saturatingAdd s.mapped c.mapped }

/-- Take the file at `i`. -/
def step (budget : ℕ) (s : BatchScan) (file : BatchCharge × ℕ) : BatchScan :=
  if s.start < file.2 ∧ s.full budget file.2 file.1 then (s.close file.2).charge file.1
  else s.charge file.1

end BatchScan

/-- Split a list of files into batches, given the charge of each file. -/
def batchRanges (charges : List BatchCharge) (budget : ℕ) : List BatchRange :=
  let s := charges.zipIdx.foldl (BatchScan.step budget) {}
  if s.start < charges.length then s.ranges ++ [⟨s.start, charges.length⟩] else s.ranges

/-! ## What a range costs -/

namespace BatchRange

variable {charges : List BatchCharge}

variable {α : Type*} {c : BatchCharge} {i a : ℕ}

/-- An empty range has no elements. -/
lemma slice_self (l : List α) (i : ℕ) : (⟨i, i⟩ : BatchRange).slice l = [] := by
  unfold slice
  rw [drop_eq_nil_of_le]
  exact length_take_le _ _

/-- A range that is extended by a position has one more element. -/
lemma slice_succ {l : List α} {x : α} (ha : a ≤ i) (hx : l[i]? = some x) :
    (⟨a, i + 1⟩ : BatchRange).slice l = (⟨a, i⟩ : BatchRange).slice l ++ [x] := by
  obtain ⟨hi, rfl⟩ := List.getElem?_eq_some_iff.mp hx
  have htake : l.take (i + 1) = l.take i ++ [l[i]] := (take_append_getElem hi).symm
  have hlen : a ≤ (l.take i).length := by
    rw [length_take]
    omega
  unfold slice
  rw [htake, drop_append_of_le_length hlen]

/-- What a range is charged, when it is extended by a position. -/
lemma sum_slice_succ (f : BatchCharge → ℕ) (ha : a ≤ i) (hc : charges[i]? = some c) :
    (((⟨a, i + 1⟩ : BatchRange).slice charges).map f).sum =
      (((⟨a, i⟩ : BatchRange).slice charges).map f).sum + f c := by
  rw [slice_succ ha hc, map_append, sum_append]
  simp

/-- The positions of two ranges that follow one another. -/
lemma range_append_items {b : ℕ} (h : a ≤ b) :
    List.range a ++ (⟨a, b⟩ : BatchRange).items = List.range b := by
  rw [items, range_eq_range', range_eq_range']
  have := range'_append_1 (s := 0) (m := a) (n := b - a)
  rw [zero_add] at this
  rw [this]
  congr 1
  omega

/-- The limits on a range: it has a file, at most the maximum number of them, and if there is more
than one, their charges are within the budgets as the scan adds them. -/
structure Limited (r : BatchRange) (charges : List BatchCharge) (budget : ℕ) : Prop where
  /-- A range is not empty. -/
  lt : r.start < r.stop
  /-- It has at most the maximum number of files. -/
  count : r.stop - r.start ≤ INDEX_BUILD_BATCH_SIZE
  /-- More than one file is within the heap budget. -/
  heap_le : 1 < r.stop - r.start → min (r.heap charges) (Counter.size - 1) ≤ budget
  /-- More than one file is within the mapped budget. -/
  mapped_le : 1 < r.stop - r.start → r.mapped charges ≤ MAPPED_BATCH_BYTES

end BatchRange

/-! ## The invariant of the scan -/

namespace BatchScan

open BatchRange

/-- What holds when the files before `i` are taken. -/
structure Invariant (charges : List BatchCharge) (budget i : ℕ) (s : BatchScan) : Prop where
  /-- The closed ranges have the positions before the open one, in order. -/
  tiles : s.ranges.flatMap items = List.range s.start
  /-- The closed ranges are within the limits. -/
  closed : ∀ r ∈ s.ranges, r.Limited charges budget
  /-- The open range starts before `i`, unless nothing is taken yet. -/
  start_le : s.start ≤ i
  /-- The heap charge is that of the open range. -/
  heap_eq : s.heap = min ((⟨s.start, i⟩ : BatchRange).heap charges) (Counter.size - 1)
  /-- The mapped charge is that of the open range. -/
  mapped_eq : s.mapped = min ((⟨s.start, i⟩ : BatchRange).mapped charges) (Counter.size - 1)
  /-- The open range is within the limits, if it has a file. -/
  opened : s.start < i → (⟨s.start, i⟩ : BatchRange).Limited charges budget

variable {charges : List BatchCharge} {budget i : ℕ} {s : BatchScan} {c : BatchCharge}

/-- The scan starts with an empty range. -/
lemma Invariant.initial (charges : List BatchCharge) (budget : ℕ) :
    Invariant charges budget 0 {} where
  tiles := rfl
  closed := by simp
  start_le := le_rfl
  heap_eq := by simp [BatchRange.heap, slice_self]
  mapped_eq := by simp [BatchRange.mapped, slice_self]
  opened h := absurd h (Nat.lt_irrefl _)

/-- Closing the open range leaves an empty one. -/
lemma Invariant.close (h : Invariant charges budget i s) (hi : s.start < i) :
    Invariant charges budget i (s.close i) where
  tiles := by
    show (s.ranges ++ [(⟨s.start, i⟩ : BatchRange)]).flatMap items = range i
    rw [flatMap_append, h.tiles, flatMap_singleton, range_append_items hi.le]
  closed r hr := by
    rcases mem_append.mp hr with hr | hr
    · exact h.closed r hr
    · rw [mem_singleton.mp hr]
      exact h.opened hi
  start_le := le_rfl
  heap_eq := by simp [BatchScan.close, BatchRange.heap, slice_self]
  mapped_eq := by simp [BatchScan.close, BatchRange.mapped, slice_self]
  opened h := absurd h (Nat.lt_irrefl _)

/-- A file is charged to an open range that is empty or can take it. -/
lemma Invariant.charge (h : Invariant charges budget i s) (hc : charges[i]? = some c)
    (hfull : s.start < i → ¬ s.full budget i c) :
    Invariant charges budget (i + 1) (s.charge c) := by
  have hheap : (s.charge c).heap =
      min ((⟨s.start, i + 1⟩ : BatchRange).heap charges) (size - 1) := by
    rw [BatchRange.heap, sum_slice_succ _ h.start_le hc, ← BatchRange.heap, ← saturatingAdd_min,
      ← h.heap_eq]
    rfl
  have hmapped : (s.charge c).mapped =
      min ((⟨s.start, i + 1⟩ : BatchRange).mapped charges) (size - 1) := by
    rw [BatchRange.mapped, sum_slice_succ _ h.start_le hc, ← BatchRange.mapped, ← saturatingAdd_min,
      ← h.mapped_eq]
    rfl
  refine ⟨h.tiles, h.closed, Nat.le_succ_of_le h.start_le, hheap, hmapped, fun hlt => ?_⟩
  rcases Nat.lt_or_ge s.start i with hi | hi
  · -- the open range had a file, so what is charged was checked
    have hnot := hfull hi
    simp only [full, not_or, Nat.not_le, Nat.not_lt] at hnot
    obtain ⟨hcount, hbudget, hlimit⟩ := hnot
    refine ⟨hlt, ?_, fun _ => hheap ▸ hbudget, fun _ => ?_⟩
    · show i + 1 - s.start ≤ _
      omega
    · have hle : min ((⟨s.start, i + 1⟩ : BatchRange).mapped charges) (size - 1) ≤
          MAPPED_BATCH_BYTES := hmapped ▸ hlimit
      have hsize : MAPPED_BATCH_BYTES < size - 1 := by decide
      exact (min_le_iff.mp hle).resolve_right (Nat.not_le.mpr hsize)
  · -- the file is the first one of the range
    have hone : i + 1 - s.start = 1 := by
      have := h.start_le
      omega
    refine ⟨hlt, ?_, fun hmany => ?_, fun hmany => ?_⟩
    · show i + 1 - s.start ≤ _
      rw [hone]
      decide
    · exact absurd hone (Nat.ne_of_gt hmany)
    · exact absurd hone (Nat.ne_of_gt hmany)

/-- **One step of the scan.** -/
lemma Invariant.step (h : Invariant charges budget i s) (hc : charges[i]? = some c) :
    Invariant charges budget (i + 1) (s.step budget (c, i)) := by
  unfold BatchScan.step
  split_ifs with hfull
  · have hempty : ¬ (s.close i).start < i := Nat.lt_irrefl i
    exact (h.close hfull.1).charge hc fun hlt => absurd hlt hempty
  · exact h.charge hc fun hlt hf => hfull ⟨hlt, hf⟩

/-- **The whole scan.** By induction on the files that are left. -/
lemma Invariant.foldl (rest : List BatchCharge) (h : Invariant charges budget i s)
    (hrest : charges.drop i = rest) :
    Invariant charges budget (i + rest.length)
      ((rest.zipIdx i).foldl (BatchScan.step budget) s) := by
  induction rest generalizing i s with
  | nil => exact h
  | cons c rest ih =>
    have hc : charges[i]? = some c := by
      rw [← head?_drop, hrest, head?_cons]
    have htail : charges.drop (i + 1) = rest := by
      rw [← tail_drop, hrest, tail_cons]
    have := ih (h.step hc) htail
    rw [zipIdx_cons, foldl_cons, length_cons]
    rwa [Nat.add_right_comm, add_assoc] at this

end BatchScan

/-! ## Main results -/

/-- The ranges of any charges tile the files, and each is within the limits. -/
lemma batchRanges_limited (charges : List BatchCharge) (budget : ℕ) :
    (batchRanges charges budget).flatMap BatchRange.items = List.range charges.length ∧
      ∀ r ∈ batchRanges charges budget, r.Limited charges budget := by
  have h := (BatchScan.Invariant.initial charges budget).foldl charges rfl
  rw [zero_add] at h
  unfold batchRanges
  dsimp only
  split_ifs with hlt
  · -- the open range is closed at the end of the files
    have hc := h.close hlt
    exact ⟨hc.tiles, hc.closed⟩
  · have hend := Nat.le_antisymm h.start_le (Nat.not_lt.mp hlt)
    exact ⟨h.tiles.trans (congrArg range hend), h.closed⟩

/-- The files of a range within the limits cost the heap less than the largest word. -/
lemma BatchRange.Limited.heap_lt {sizes : List (Option UInt64)} {r : BatchRange} {budget : ℕ}
    (h : r.Limited (sizes.map fileCharge) budget) :
    r.heap (sizes.map fileCharge) < Counter.size - 1 := by
  have hsum : r.heap (sizes.map fileCharge) ≤
      (r.slice (sizes.map fileCharge)).length • INDEX_BUILD_BATCH_BYTES := by
    rw [← length_map (f := BatchCharge.heap)]
    refine sum_le_card_nsmul _ _ fun x hx => ?_
    obtain ⟨c, hc, rfl⟩ := mem_map.mp hx
    obtain ⟨size, -, rfl⟩ := mem_map.mp (mem_of_mem_take (mem_of_mem_drop hc))
    exact fileCharge_heap_le size
  have hlen : (r.slice (sizes.map fileCharge)).length ≤ INDEX_BUILD_BATCH_SIZE := by
    refine le_trans ?_ h.count
    rw [BatchRange.slice, length_drop, length_take]
    omega
  calc r.heap (sizes.map fileCharge)
      ≤ (r.slice (sizes.map fileCharge)).length * INDEX_BUILD_BATCH_BYTES := hsum
    _ ≤ INDEX_BUILD_BATCH_SIZE * INDEX_BUILD_BATCH_BYTES := Nat.mul_le_mul_right _ hlen
    _ < size - 1 := by decide

/-- **Batches tile the files within the budgets.** The positions of the ranges, one range after the
other, are all positions of the files in order. No range is empty or has more than the maximum
number of files. The files of a range with more than one of them cost the heap no more than the
budget, and what they map together is no more than the limit. -/
theorem batchRanges_fileCharge (sizes : List (Option UInt64)) (budget : UInt64) :
    (let charges := sizes.map fileCharge
    let ranges := batchRanges charges budget.toNat
    ranges.flatMap BatchRange.items = List.range sizes.length ∧
      ∀ r ∈ ranges, r.start < r.stop ∧ r.stop ≤ sizes.length ∧
        r.stop - r.start ≤ INDEX_BUILD_BATCH_SIZE ∧
        (1 < r.stop - r.start →
          r.heap charges ≤ budget.toNat ∧ r.mapped charges ≤ MAPPED_BATCH_BYTES ∧
            ((r.slice sizes).map (fun size => size.elim 0 (heapRead ·.toNat))).sum ≤
              budget.toNat)) := by
  intro charges ranges
  obtain ⟨htiles, hlimited⟩ := batchRanges_limited charges budget.toNat
  rw [length_map] at htiles
  refine ⟨htiles, fun r hr => ?_⟩
  have h := hlimited r hr
  refine ⟨h.lt, ?_, h.count, fun hmany => ?_⟩
  · -- the last position of the range is one of the files
    have hmem : r.stop - 1 ∈ List.range sizes.length := by
      rw [← htiles, mem_flatMap]
      refine ⟨r, hr, ?_⟩
      have := h.lt
      rw [BatchRange.items, mem_range'_1]
      omega
    have := List.mem_range.mp hmem
    omega
  · have hheap : r.heap charges ≤ budget.toNat := by
      have hle := h.heap_le hmany
      rwa [min_eq_left h.heap_lt.le] at hle
    refine ⟨hheap, h.mapped_le hmany, le_trans ?_ hheap⟩
    have hslice : r.slice charges = (r.slice sizes).map fileCharge := by
      simp only [BatchRange.slice, charges, map_take, map_drop]
    rw [BatchRange.heap, hslice, map_map]
    refine sum_le_sum fun size _ => ?_
    cases size with
    | none => exact Nat.zero_le _
    | some size => exact heapRead_le _

end Tgrep
