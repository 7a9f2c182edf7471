import Mathlib.Algebra.GroupWithZero.Nat
import Mathlib.Algebra.BigOperators.Group.Finset.Basic
import Mathlib.Algebra.Order.BigOperators.Group.Finset
import Mathlib.Algebra.BigOperators.Group.Finset.Piecewise
import Mathlib.Algebra.Order.BigOperators.Group.List

/-!
# Ledgers

The entries of a ledger are a list of values; what is recorded about them elsewhere is a total of
the amounts of some of them. This file says how such totals change when an entry is entered,
changed or struck out, and how the totals by account compare with the overall one.

## Main definitions

* `Ledger.total`: the sum of an amount over the entries.
* `Ledger.inAccount`: the amount of an entry that is in a given account, and zero otherwise.

## Main results

* `Ledger.total_append`, `Ledger.total_set`, `Ledger.total_eraseIdx`: the totals after a change.
* `Ledger.add_le_total`: two entries together do not exceed the total.
* `Ledger.sum_total_inAccount_le`: the totals of distinct accounts are at most the overall total.
-/

namespace Ledger

open List

variable {α κ : Type*}

/-- The sum of an amount over the entries. -/
def total (amount : α → ℕ) (entries : List α) : ℕ := (entries.map amount).sum

variable {e : α} {i : ℕ} {entries : List α} (amount : α → ℕ)

@[simp] lemma total_nil : total amount [] = 0 := rfl

@[simp] lemma total_cons (e : α) (entries : List α) :
    total amount (e :: entries) = amount e + total amount entries := by
  simp [total]

/-- The total of two ledgers. -/
@[simp] lemma total_append (entries more : List α) :
    total amount (entries ++ more) = total amount entries + total amount more := by
  simp [total]

/-- The total after an entry is replaced. -/
lemma total_set (h : entries[i]? = some e) (e' : α) :
    total amount (entries.set i e') + amount e = total amount entries + amount e' := by
  induction entries generalizing i with
  | nil => simp at h
  | cons a entries ih =>
    cases i with
    | zero =>
      rw [getElem?_cons_zero, Option.some.injEq] at h
      rw [set_cons_zero, total_cons, total_cons, h]
      omega
    | succ i =>
      rw [getElem?_cons_succ] at h
      rw [set_cons_succ, total_cons, total_cons]
      have := ih h
      omega

/-- The total after an entry is struck out. -/
lemma total_eraseIdx (h : entries[i]? = some e) :
    total amount (entries.eraseIdx i) + amount e = total amount entries := by
  induction entries generalizing i with
  | nil => simp at h
  | cons a entries ih =>
    cases i with
    | zero =>
      rw [getElem?_cons_zero, Option.some.injEq] at h
      rw [eraseIdx_cons_zero, total_cons, h]
      omega
    | succ i =>
      rw [getElem?_cons_succ] at h
      rw [eraseIdx_cons_succ, total_cons, total_cons]
      have := ih h
      omega

/-- No entry exceeds the total. -/
lemma le_total (h : e ∈ entries) : amount e ≤ total amount entries := by
  obtain ⟨i, hi⟩ := getElem?_of_mem h
  have := total_eraseIdx amount hi
  omega

/-- Two entries together do not exceed the total. -/
lemma add_le_total {j : ℕ} {a b : α} (hij : i ≠ j) (ha : entries[i]? = some a)
    (hb : entries[j]? = some b) : amount a + amount b ≤ total amount entries := by
  induction entries generalizing i j with
  | nil => simp at ha
  | cons e entries ih =>
    rw [total_cons]
    cases i with
    | zero =>
      obtain ⟨j, rfl⟩ := Nat.exists_eq_succ_of_ne_zero hij.symm
      rw [getElem?_cons_zero, Option.some.injEq] at ha
      rw [getElem?_cons_succ] at hb
      have := le_total amount (mem_of_getElem? hb)
      rw [ha]
      omega
    | succ i =>
      rw [getElem?_cons_succ] at ha
      cases j with
      | zero =>
        rw [getElem?_cons_zero, Option.some.injEq] at hb
        have := le_total amount (mem_of_getElem? ha)
        rw [hb]
        omega
      | succ j =>
        rw [getElem?_cons_succ] at hb
        have := ih (fun heq => hij (congrArg Nat.succ heq)) ha hb
        omega

/-- A change of the entries that keeps their amounts keeps the total. -/
lemma total_map {amount : α → ℕ} {f : α → α} (h : ∀ e, amount (f e) = amount e)
    (entries : List α) : total amount (entries.map f) = total amount entries := by
  rw [total, total, map_map]
  exact congrArg List.sum (map_congr_left fun e _ => h e)

/-- A total is zero iff every amount is. -/
lemma total_eq_zero {amount : α → ℕ} : total amount entries = 0 ↔ ∀ e ∈ entries, amount e = 0 := by
  simp [total, sum_eq_zero_iff]

/-- A total of amounts that all vanish. -/
lemma total_of_forall_eq_zero {amount : α → ℕ} (h : ∀ e ∈ entries, amount e = 0) :
    total amount entries = 0 :=
  total_eq_zero.mpr h

/-! ## Accounts -/

section Account

variable [DecidableEq κ]

/-- The amount of an entry in the account `k`: zero for the entries of other accounts. -/
def inAccount (account : α → Option κ) (amount : α → ℕ) (k : κ) (e : α) : ℕ :=
  if account e = some k then amount e else 0

variable {amount : α → ℕ} (account : α → Option κ)

/-- The total of an account is at most the overall total. -/
lemma total_inAccount_le (amount : α → ℕ) (k : κ) (entries : List α) :
    total (inAccount account amount k) entries ≤ total amount entries := by
  induction entries with
  | nil => exact le_rfl
  | cons e entries ih =>
    rw [total_cons, total_cons]
    have : inAccount account amount k e ≤ amount e := by
      unfold inAccount
      split_ifs <;> omega
    omega

/-- The totals of distinct accounts are together at most the overall total: every entry is in at
most one of them. -/
lemma sum_total_inAccount_le (amount : α → ℕ) (ks : Finset κ) (entries : List α) :
    ∑ k ∈ ks, total (inAccount account amount k) entries ≤ total amount entries := by
  induction entries with
  | nil => simp
  | cons e entries ih =>
    simp only [total_cons, Finset.sum_add_distrib]
    refine Nat.add_le_add ?_ ih
    unfold inAccount
    cases h : account e with
    | none => simp
    | some k =>
      simp only [Option.some.injEq, Finset.sum_ite_eq]
      split_ifs <;> omega

/-- Amounts recorded for distinct accounts, each at most the total of its account, are together at
most the overall total. -/
lemma sum_recorded_le {recorded : List (κ × ℕ)} {entries : List α}
    (hkeys : (recorded.map Prod.fst).Nodup)
    (hle : ∀ r ∈ recorded, r.2 ≤ total (inAccount account amount r.1) entries) :
    (recorded.map Prod.snd).sum ≤ total amount entries := by
  calc (recorded.map Prod.snd).sum
      ≤ (recorded.map fun r => total (inAccount account amount r.1) entries).sum :=
        sum_le_sum hle
    _ = ((recorded.map Prod.fst).map fun k => total (inAccount account amount k) entries).sum := by
        rw [map_map]
        rfl
    _ = ∑ k ∈ (recorded.map Prod.fst).toFinset, total (inAccount account amount k) entries :=
        (sum_toFinset _ hkeys).symm
    _ ≤ total amount entries := sum_total_inAccount_le account amount _ entries

/-- An entry that belongs to no account in sight adds nothing to them. -/
lemma inAccount_of_ne {account : α → Option κ} {k : κ} {e : α} (h : account e ≠ some k) :
    inAccount account amount k e = 0 :=
  if_neg h

/-- An entry adds its amount to its own account. -/
lemma inAccount_of_eq {account : α → Option κ} {k : κ} {e : α} (h : account e = some k) :
    inAccount account amount k e = amount e :=
  if_pos h

end Account

end Ledger
