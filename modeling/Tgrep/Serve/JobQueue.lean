import Mathlib.Algebra.Order.BigOperators.Group.List
import Mathlib.Data.List.MinMax
import Mathlib.Data.Multiset.Filter
import Tgrep.Data.Search
import Tgrep.Managed.Accounting

/-!
# The queue of accepted jobs

Accepted jobs wait in a queue for each class. A job becomes due some time after it was queued, later
the lower its class is, and a free worker takes the job that became due first. A job can be moved
to a higher class, where it has the place that its queue time gives it.

## Main definitions

* `JobClass`, `JobClass.delay`: the classes, and how long a job yields to newer ones.
* `JobQueueState`, `push`, `takeFirst`, `pop`, `promote`: the queues and what is done with them.
* `ahead`: the jobs that are taken before a job.
* `Ledger`, `Ledger.act`: what was accepted and what was taken, beside the queues.

## Main results

* `takeFirst_eq_some`: the job that is taken comes before all others.
* `promote_eq_some`: what a promotion moves, and where.
* `ahead_promote`: after a promotion no job is ahead that was not before.
* `Ledger.Sound.run`: what is true of the queues after any number of pushes, promotions and pops.
* `Ledger.Sound.takesFirst`: what is taken then.

## Implementation notes

Times are numbers of nanoseconds, and no later instant than `instantMax` can be represented. The
largest duration is that of the standard library. What is only reported, and the condition variable
that a worker waits on, are left out.
-/

namespace Tgrep.Jobs

open List Function

open Managed (Id)

/-! ## Classes -/

/-- The class of a job. -/
inductive JobClass
  /-- Operations of a client, and reconciliation of a view that is not ready. -/
  | foreground
  /-- Passes of a collection. -/
  | maintenance
  /-- Verification and automatic advancement of views that are ready. -/
  | background
  deriving DecidableEq

namespace JobClass

/-- All classes, the highest first. -/
def ALL : List JobClass := [.foreground, .maintenance, .background]

/-- The number of a class. -/
def index : JobClass → ℕ
  | .foreground => 0
  | .maintenance => 1
  | .background => 2

/-- Classes are compared by their numbers, so a higher class is less. -/
instance : LinearOrder JobClass :=
  LinearOrder.lift' index fun a b h => by cases a <;> cases b <;> first | rfl | cases h

/-- The class of an operation, from its kind, its request and whether the instance began it. -/
def classify (kind : String) (verify : Option Bool) (automatic : Bool) : JobClass :=
  if kind = "collection" then .maintenance
  else if kind = "reconcile" ∧ verify = some true then .background
  else if kind = "adaptive" ∧ automatic then .background
  else .foreground

/-- A number of seconds. -/
def secs (n : ℕ) : ℕ := n * 10 ^ 9

/-- How long a job of a class can be made to wait. -/
def maximum : JobClass → ℕ
  | .foreground => 0
  | .maintenance => secs 5
  | .background => secs 600

/-- How long a job yields to newer ones of a higher class. -/
def delay (cls : JobClass) (remaining : ℕ) : ℕ := min cls.maximum (remaining / 4)

lemma mem_ALL (cls : JobClass) : cls ∈ ALL := by
  cases cls <;> decide

lemma pairwise_ALL : ALL.Pairwise (· < ·) := by
  decide

end JobClass

/-- The largest duration. -/
def DURATION_MAX : ℕ := 2 ^ 64 * 10 ^ 9 - 1

/-! ## The queues -/

/-- A job that waits. -/
structure QueuedJob where
  /-- The operation. -/
  id : Id
  /-- When it was queued. -/
  queuedAt : ℕ
  /-- When it becomes due. -/
  due : ℕ
  deriving DecidableEq

/-- The jobs that wait and those that run. -/
structure JobQueueState where
  /-- The queue of each class. -/
  queued : JobClass → List QueuedJob := fun _ => []
  /-- What runs, of which class and since when. -/
  running : List (Id × JobClass × ℕ) := []

/-- An instant and a duration, if the sum is an instant. -/
def checkedAdd (instantMax start duration : ℕ) : Option ℕ :=
  if start + duration ≤ instantMax then some (start + duration) else none

/-- When a job becomes due that waits from an instant on. -/
def dueAt (instantMax start duration : ℕ) : ℕ := (checkedAdd instantMax start duration).getD start

namespace JobQueueState

variable (instantMax : ℕ) (s : JobQueueState)

/-- The number of the jobs that wait. -/
def len : ℕ := (JobClass.ALL.map fun cls => (s.queued cls).length).sum

/-- Queue a job, if there is room. -/
def push (id : Id) (cls : JobClass) (start capacity remaining : ℕ) : Option JobQueueState :=
  if s.len ≥ capacity then none
  else
    let due := dueAt instantMax start (cls.delay remaining)
    some { s with
      queued := Function.update s.queued cls (s.queued cls ++ [⟨id, start, due⟩]) }

/-- Where the jobs are and when they become due. -/
def candidates : List (JobClass × ℕ × ℕ) :=
  JobClass.ALL.flatMap fun cls =>
    (s.queued cls).zipIdx.map fun (job, position) => (cls, position, job.due)

/-- Take the job that becomes due first, the first of those if there are several. -/
def takeFirst : Option (QueuedJob × JobClass × JobQueueState) :=
  match s.candidates.argmin (fun candidate => candidate.2.2) with
  | none => none
  | some (cls, position, _) =>
    match (s.queued cls)[position]? with
    | none => none
    | some job =>
      some (job, cls,
        { s with queued := Function.update s.queued cls ((s.queued cls).eraseIdx position) })

/-- Take a job, and say which operation it is and of which class. -/
def pop : Option ((Id × JobClass) × JobQueueState) :=
  s.takeFirst.map fun (job, cls, s) => ((job.id, cls), s)

/-- Put a job behind those of its class that were queued no later. -/
def place (job : QueuedJob) (queue : List QueuedJob) : List QueuedJob :=
  let position := Search.partitionPoint (fun queued => decide (queued.queuedAt ≤ job.queuedAt)) queue
  queue.take position ++ job :: queue.drop position

/-- Move a job from one class to a higher one. -/
def promoteFrom (id : Id) (cls lower : JobClass) : Option JobQueueState :=
  match (s.queued lower).findIdx? fun job => decide (job.id = id) with
  | none => none
  | some position =>
    match (s.queued lower)[position]? with
    | none => none
    | some job =>
      let job := { job with
        due := min job.due (dueAt instantMax job.queuedAt (cls.delay DURATION_MAX)) }
      let queued := Function.update s.queued lower ((s.queued lower).eraseIdx position)
      some { s with queued := Function.update queued cls (place job (queued cls)) }

/-- Move a job to a higher class, if it waits in a lower one. -/
def promote (id : Id) (cls : JobClass) : Option JobQueueState :=
  (JobClass.ALL.filter fun lower => decide (cls < lower)).findSome? (s.promoteFrom instantMax id cls)

/-! ## Taking a job -/

variable {instantMax} {s}

variable {id : Id} {position : ℕ} {s' : JobQueueState} {job : QueuedJob} {cls : JobClass}

lemma mem_candidates {due : ℕ} :
    (cls, position, due) ∈ s.candidates ↔
      ∃ job, (s.queued cls)[position]? = some job ∧ job.due = due := by
  rw [candidates, mem_flatMap]
  constructor
  · rintro ⟨cls', -, hmem⟩
    obtain ⟨⟨job, position'⟩, hjob, heq⟩ := mem_map.mp hmem
    simp only [Prod.mk.injEq] at heq
    obtain ⟨rfl, rfl, rfl⟩ := heq
    exact ⟨job, mem_zipIdx_iff_getElem?.mp hjob, rfl⟩
  · rintro ⟨job, hjob, rfl⟩
    exact ⟨cls, cls.mem_ALL, mem_map.mpr ⟨(job, position), mem_zipIdx_iff_getElem?.mpr hjob, rfl⟩⟩

/-- The candidates come by class, and in a class by position. -/
lemma pairwise_candidates (s : JobQueueState) : s.candidates.Pairwise fun a b =>
    a.1 < b.1 ∨ a.1 = b.1 ∧ a.2.1 < b.2.1 := by
  rw [candidates, pairwise_flatMap]
  refine ⟨fun cls _ => ?_, JobClass.pairwise_ALL.imp ?_⟩
  · rw [pairwise_map]
    refine (pairwise_iff_getElem.mpr fun i j hi hj hij => ?_)
    rw [getElem_zipIdx, getElem_zipIdx]
    exact .inr ⟨rfl, by dsimp only; omega⟩
  · rintro cls cls' hlt x hx y hy
    obtain ⟨⟨job, position⟩, -, rfl⟩ := mem_map.mp hx
    obtain ⟨⟨job', position'⟩, -, rfl⟩ := mem_map.mp hy
    exact .inl hlt

/-- The first of the least elements of a list splits it. -/
lemma argmin_split {α : Type} {f : α → ℕ} {l : List α} {x : α} (h : x ∈ l.argmin f) :
    ∃ l₁ l₂, l = l₁ ++ x :: l₂ ∧ (∀ y ∈ l₁, f x < f y) ∧ ∀ y ∈ l₂, f x ≤ f y := by
  induction l generalizing x with
  | nil => cases h
  | cons a l ih =>
    rw [argmin_cons] at h
    cases hrest : l.argmin f with
    | none =>
      rw [hrest] at h
      cases h
      rw [argmin_eq_none.mp hrest]
      exact ⟨[], [], rfl, fun _ h => (nomatch h), fun _ h => (nomatch h)⟩
    | some c =>
      rw [hrest] at h
      dsimp only at h
      obtain ⟨l₁, l₂, rfl, hbefore, hafter⟩ := ih hrest
      split_ifs at h with hlt
      · cases h
        refine ⟨a :: l₁, l₂, rfl, fun y hy => ?_, hafter⟩
        rcases mem_cons.mp hy with rfl | hy
        · exact hlt
        · exact hbefore y hy
      · cases h
        refine ⟨[], l₁ ++ c :: l₂, rfl, fun _ h => (nomatch h), fun y hy => ?_⟩
        refine (not_lt.mp hlt).trans ?_
        rcases mem_append.mp hy with hy | hy
        · exact (hbefore y hy).le
        · rcases mem_cons.mp hy with rfl | hy
          · exact le_rfl
          · exact hafter y hy

/-- What takes precedence: what becomes due earlier, then a higher class, then what comes first. -/
def Precedes (job : QueuedJob) (cls : JobClass) (position : ℕ) (job' : QueuedJob)
    (cls' : JobClass) (position' : ℕ) : Prop :=
  job.due < job'.due ∨
    job.due = job'.due ∧ (cls < cls' ∨ cls = cls' ∧ position ≤ position')

/-- **The job that is taken** comes before all others, and only it is taken. -/
lemma takeFirst_eq_some (h : s.takeFirst = some (job, cls, s')) :
    ∃ position, (s.queued cls)[position]? = some job ∧
      s' = { s with queued := Function.update s.queued cls ((s.queued cls).eraseIdx position) } ∧
      ∀ cls' position' job', (s.queued cls')[position']? = some job' →
        Precedes job cls position job' cls' position' := by
  rw [takeFirst] at h
  cases hmin : s.candidates.argmin (fun candidate => candidate.2.2) with
  | none =>
    rw [hmin] at h
    cases h
  | some candidate =>
    obtain ⟨cls₀, position, due⟩ := candidate
    rw [hmin] at h
    dsimp only at h
    obtain ⟨job₀, hjob₀, rfl⟩ := mem_candidates.mp (argmin_mem hmin)
    rw [hjob₀] at h
    cases h
    refine ⟨position, hjob₀, rfl, fun cls' position' job' hjob' => ?_⟩
    obtain ⟨l₁, l₂, hsplit, hbefore, hafter⟩ := argmin_split hmin
    have hmem := mem_candidates.mpr ⟨job', hjob', rfl⟩
    have hsorted := pairwise_candidates s
    rw [hsplit] at hmem hsorted
    rcases mem_append.mp hmem with hmem | hmem
    · exact .inl (hbefore _ hmem)
    · rcases mem_cons.mp hmem with heq | hmem
      · simp only [Prod.mk.injEq] at heq
        obtain ⟨rfl, rfl, hdue⟩ := heq
        exact .inr ⟨hdue.symm, .inr ⟨rfl, le_rfl⟩⟩
      · -- what comes later in the list is of a lower class, or of the same and further back
        have hlater := (pairwise_cons.mp (pairwise_append.mp hsorted).2.1).1 _ hmem
        rcases Nat.lt_or_eq_of_le (hafter _ hmem) with hlt | heq
        · exact .inl hlt
        · refine .inr ⟨heq, ?_⟩
          rcases hlater with hclass | ⟨hclass, hposition⟩
          · exact .inl hclass
          · exact .inr ⟨hclass, hposition.le⟩

/-- Nothing is taken only if nothing waits. -/
lemma takeFirst_eq_none (h : s.takeFirst = none) (cls : JobClass) : s.queued cls = [] := by
  rw [takeFirst] at h
  cases hmin : s.candidates.argmin (fun candidate => candidate.2.2) with
  | none =>
    rw [argmin_eq_none] at hmin
    by_contra hne
    obtain ⟨job, hjob⟩ := exists_mem_of_ne_nil _ hne
    obtain ⟨position, hposition⟩ := mem_iff_getElem?.mp hjob
    have hmem := mem_candidates.mpr ⟨job, hposition, rfl⟩
    rw [hmin] at hmem
    cases hmem
  | some candidate =>
    obtain ⟨cls₀, position, due⟩ := candidate
    rw [hmin] at h
    obtain ⟨job, hjob, -⟩ := mem_candidates.mp (argmin_mem hmin)
    dsimp only at h
    rw [hjob] at h
    cases h

/-! ## Moving a job -/

/-- What a promotion moves, and where. -/
structure Promotes (instantMax : ℕ) (s : JobQueueState) (id : Id) (cls : JobClass)
    (s' : JobQueueState) (lower : JobClass) (position : ℕ) (job : QueuedJob) : Prop where
  /-- It comes from a lower class. -/
  higher : cls < lower
  /-- It is a job of the operation. -/
  found : (s.queued lower)[position]? = some job ∧ job.id = id
  /-- It goes to its place in the higher class, and nothing else changes. -/
  moved : s' = { s with
    queued := Function.update
      (Function.update s.queued lower ((s.queued lower).eraseIdx position)) cls
      (place { job with
        due := min job.due (dueAt instantMax job.queuedAt (cls.delay DURATION_MAX)) }
        (s.queued cls)) }

/-- **What a promotion moves**. -/
lemma promote_eq_some (h : s.promote instantMax id cls = some s') :
    ∃ lower position job, Promotes instantMax s id cls s' lower position job := by
  rw [promote] at h
  obtain ⟨lower, hmem, hfrom⟩ := exists_of_findSome?_eq_some h
  rw [mem_filter, decide_eq_true_eq] at hmem
  rw [promoteFrom] at hfrom
  cases hfind : (s.queued lower).findIdx? fun job => decide (job.id = id) with
  | none =>
    rw [hfind] at hfrom
    cases hfrom
  | some position =>
    rw [hfind] at hfrom
    obtain ⟨hlt, hid, -⟩ := findIdx?_eq_some_iff_getElem.mp hfind
    dsimp only at hfrom
    rw [getElem?_eq_getElem hlt] at hfrom
    cases hfrom
    refine ⟨lower, position, _, hmem.2, ⟨getElem?_eq_getElem hlt, of_decide_eq_true hid⟩, ?_⟩
    rw [update_of_ne hmem.2.ne]

/-! ## The place of a job -/

section Place

variable {job : QueuedJob} {queue : List QueuedJob}

/-- The jobs of a queue are in the order in which they were queued. -/
def InOrder (queue : List QueuedJob) : Prop := queue.Pairwise fun a b => a.queuedAt ≤ b.queuedAt

/-- Where a job is put that was queued at some time: behind those that were queued no later. -/
lemma lt_partitionPoint_iff (h : InOrder queue) {start i : ℕ} {x : QueuedJob}
    (hx : queue[i]? = some x) :
    i < Search.partitionPoint (fun queued => decide (queued.queuedAt ≤ start)) queue ↔
      x.queuedAt ≤ start := by
  have hpart : queue.Pairwise fun a b =>
      decide (b.queuedAt ≤ start) = true → decide (a.queuedAt ≤ start) = true :=
    h.imp fun hab hb => decide_eq_true (hab.trans (of_decide_eq_true hb))
  rw [Search.partitionPoint_eq hpart, ← Search.getElem?_partitioned hpart hx, decide_eq_true_eq]

/-- A job is put at an end of a queue or between two jobs. -/
lemma partitionPoint_le (h : InOrder queue) (start : ℕ) :
    Search.partitionPoint (fun queued => decide (queued.queuedAt ≤ start)) queue ≤
      queue.length := by
  rw [Search.partitionPoint_eq]
  · exact ( takeWhile_prefix _).length_le
  · exact h.imp fun hab hb => decide_eq_true (hab.trans (of_decide_eq_true hb))

/-- The queue with the job has one job more. -/
lemma place_perm (job : QueuedJob) (queue : List QueuedJob) :
    (place job queue).Perm (job :: queue) := by
  rw [place]
  refine perm_middle.trans ?_
  rw [take_append_drop]

/-- The queue with the job is in order. -/
lemma place_inOrder (h : InOrder queue) : InOrder (place job queue) := by
  rw [place]
  set n := Search.partitionPoint (fun queued => decide (queued.queuedAt ≤ job.queuedAt)) queue
  have hsplit : queue.take n ++ queue.drop n = queue := take_append_drop n queue
  have hboth := h
  rw [InOrder, ← hsplit, pairwise_append] at hboth
  obtain ⟨hbefore, hafter, hcross⟩ := hboth
  have hle : ∀ x ∈ queue.take n, x.queuedAt ≤ job.queuedAt := by
    intro x hx
    obtain ⟨i, hi⟩ := mem_iff_getElem?.mp hx
    rw [getElem?_take] at hi
    split_ifs at hi with hlt
    exact (lt_partitionPoint_iff h hi).mp hlt
  have hge : ∀ x ∈ queue.drop n, job.queuedAt ≤ x.queuedAt := by
    intro x hx
    obtain ⟨i, hi⟩ := mem_iff_getElem?.mp hx
    rw [getElem?_drop] at hi
    by_contra hlt
    have hat := (lt_partitionPoint_iff h hi).mpr (not_le.mp hlt).le
    omega
  refine pairwise_append.mpr ⟨hbefore, pairwise_cons.mpr ⟨hge, hafter⟩, ?_⟩
  intro x hx y hy
  rcases mem_cons.mp hy with rfl | hy
  · exact hle x hx
  · exact hcross x hx y hy

end Place

/-! ## What is ahead of a job -/

/-- The jobs of a class that are ahead of a place in a class. -/
def aheadIn (s : JobQueueState) (cls : JobClass) (position due : ℕ) (cls' : JobClass) :
    Multiset QueuedJob :=
  if cls' < cls then ((s.queued cls').filter fun job => decide (job.due ≤ due) : List QueuedJob)
  else if cls' = cls then
    (((s.queued cls).take position).filter fun job => decide (job.due ≤ due) : List QueuedJob) +
      (((s.queued cls).drop (position + 1)).filter fun job => decide (job.due < due) :
        List QueuedJob)
  else ((s.queued cls').filter fun job => decide (job.due < due) : List QueuedJob)

/-- The jobs that take precedence over one that becomes due at some time, at a place in a class. -/
def ahead (s : JobQueueState) (cls : JobClass) (position due : ℕ) : Multiset QueuedJob :=
  (JobClass.ALL.map (s.aheadIn cls position due)).sum

/-- Fewer jobs are due by an earlier time. -/
lemma filter_le {p q : ℕ → Bool} (h : ∀ n, p n = true → q n = true) (queue : List QueuedJob) :
    ((queue.filter fun job => p job.due : List QueuedJob) : Multiset QueuedJob) ≤
      (queue.filter fun job => q job.due : List QueuedJob) :=
  Multiset.coe_le.mpr (monotone_filter_right queue fun job => h job.due).subperm

/-- What is due of two pieces of a queue. -/
lemma coe_filter_append (p : QueuedJob → Bool) (l l' : List QueuedJob) :
    (((l ++ l').filter p : List QueuedJob) : Multiset QueuedJob) =
      (l.filter p : List QueuedJob) + (l'.filter p : List QueuedJob) := by
  rw [filter_append, Multiset.coe_add]

/-- **After a promotion** no job is ahead of the one that was promoted that was not before. -/
lemma ahead_promote {lower : JobClass} (h : Promotes instantMax s id cls s' lower position job)
    (hsorted : InOrder (s.queued cls)) :
    ∃ position' job', (s'.queued cls)[position']? = some job' ∧ job'.id = id ∧
      job'.queuedAt = job.queuedAt ∧
      s'.ahead cls position' job'.due ≤ s.ahead lower position job.due := by
  obtain ⟨hlower, ⟨hjob, hid⟩, rfl⟩ := h
  set job' : QueuedJob := { job with
    due := min job.due (dueAt instantMax job.queuedAt (cls.delay DURATION_MAX)) }
  have hdue : job'.due ≤ job.due := min_le_left _ _
  set queue := s.queued cls
  set n := Search.partitionPoint (fun queued => decide (queued.queuedAt ≤ job'.queuedAt)) queue
    with hn
  have hlen : (queue.take n).length = n := by
    rw [length_take, min_eq_left (partitionPoint_le hsorted _)]
  have hplace : place job' queue = queue.take n ++ job' :: queue.drop n := rfl
  refine ⟨n, job', ?_, hid, rfl, ?_⟩
  · dsimp only
    rw [update_self, hplace, getElem?_append_right hlen.le, hlen, Nat.sub_self]
    rfl
  refine sum_le_sum fun cls' _ => ?_
  have hle : ∀ m, decide (m ≤ job'.due) = true → decide (m ≤ job.due) = true := fun m hm =>
    decide_eq_true ((of_decide_eq_true hm).trans hdue)
  have hlt : ∀ m, decide (m < job'.due) = true → decide (m < job.due) = true := fun m hm =>
    decide_eq_true ((of_decide_eq_true hm).trans_le hdue)
  have hlt_le : ∀ m, decide (m < job'.due) = true → decide (m ≤ job.due) = true := fun m hm =>
    decide_eq_true ((of_decide_eq_true hm).le.trans hdue)
  rw [aheadIn, aheadIn]
  dsimp only
  rcases lt_trichotomy cls' cls with hcls | rfl | hcls
  · rw [if_pos hcls, if_pos (hcls.trans hlower), update_of_ne hcls.ne,
      update_of_ne (hcls.trans hlower).ne]
    exact filter_le hle _
  · -- in the class that it comes to, it was behind all that are due
    have htake : (place job' queue).take n = queue.take n := by
      rw [hplace, take_left' hlen]
    have hdrop : (place job' queue).drop (n + 1) = queue.drop n := by
      rw [hplace, ← drop_drop, drop_left' hlen]
      rfl
    rw [if_neg (lt_irrefl _), if_pos rfl, if_pos hlower, update_self, htake, hdrop]
    refine (add_le_add (filter_le hle _) (filter_le hlt_le _)).trans_eq ?_
    rw [← coe_filter_append, take_append_drop]
  · rw [if_neg hcls.asymm, if_neg hcls.ne', update_of_ne hcls.ne']
    rcases lt_trichotomy cls' lower with hcls' | rfl | hcls'
    · rw [if_pos hcls', update_of_ne hcls'.ne]
      exact filter_le hlt_le _
    · -- in the class that it comes from, those behind it are ahead only if they are due earlier
      rw [if_neg (lt_irrefl _), if_pos rfl, update_self, eraseIdx_eq_take_drop_succ,
        coe_filter_append]
      exact add_le_add (filter_le hlt_le _) (filter_le hlt _)
    · rw [if_neg hcls'.asymm, if_neg hcls'.ne', update_of_ne hcls'.ne']
      exact filter_le hlt _

/-! ## All queues together -/

section Total

variable {M : Type} [AddCommMonoid M]

/-- What the queues add up to. -/
def total (F : List QueuedJob → M) (queued : JobClass → List QueuedJob) : M :=
  (JobClass.ALL.map fun cls => F (queued cls)).sum

/-- One queue is changed. -/
lemma total_update (F : List QueuedJob → M) (queued : JobClass → List QueuedJob) (cls : JobClass)
    (queue : List QueuedJob) :
    total F (Function.update queued cls queue) + F (queued cls) = total F queued + F queue := by
  cases cls <;>
    simp only [total, JobClass.ALL, map_cons, map_nil, sum_cons, sum_nil,
      update_self, update_of_ne, ne_eq, reduceCtorEq, not_false_eq_true] <;>
    abel

end Total

/-- The jobs that wait. -/
def waiting (s : JobQueueState) : Multiset QueuedJob :=
  total (fun queue => (queue : Multiset _)) s.queued

/-- A job waits in the queue of its class. -/
lemma mem_waiting : job ∈ s.waiting ↔ ∃ cls, job ∈ s.queued cls := by
  rw [waiting, total]
  simp only [JobClass.ALL, map_cons, map_nil, sum_cons, sum_nil, add_zero,
    Multiset.mem_add, Multiset.mem_coe]
  constructor
  · rintro (h | h | h)
    · exact ⟨_, h⟩
    · exact ⟨_, h⟩
    · exact ⟨_, h⟩
  · rintro ⟨cls, h⟩
    cases cls with
    | foreground => exact .inl h
    | maintenance => exact .inr (.inl h)
    | background => exact .inr (.inr h)

lemma len_eq (s : JobQueueState) : s.len = Multiset.card s.waiting := by
  simp only [len, waiting, total, JobClass.ALL, map_cons, map_nil, sum_cons,
    sum_nil, add_zero, Multiset.card_add, Multiset.coe_card]

/-- A queue of which one job is left out. -/
lemma coe_eraseIdx {queue : List QueuedJob} (h : queue[position]? = some job) :
    (queue : Multiset QueuedJob) = job ::ₘ (queue.eraseIdx position : List QueuedJob) := by
  obtain ⟨hlt, rfl⟩ := List.getElem?_eq_some_iff.mp h
  rw [Multiset.cons_coe, Multiset.coe_eq_coe]
  exact (getElem_cons_eraseIdx_perm hlt).symm

/-- One queue has one job more. -/
lemma total_cons {queued : JobClass → List QueuedJob} {queue : List QueuedJob}
    (h : (queue : Multiset QueuedJob) = job ::ₘ (queued cls : Multiset _)) :
    total (fun queue => (queue : Multiset QueuedJob)) (Function.update queued cls queue) =
      job ::ₘ total (fun queue => (queue : Multiset QueuedJob)) queued := by
  have htotal := total_update (fun queue => (queue : Multiset QueuedJob)) queued cls queue
  rw [h, ← Multiset.singleton_add, ← add_assoc] at htotal
  rw [← Multiset.singleton_add, add_comm]
  exact add_right_cancel htotal

/-- One queue has one job less. -/
lemma total_eraseIdx {queued : JobClass → List QueuedJob} (h : (queued cls)[position]? = some job) :
    total (fun queue => (queue : Multiset QueuedJob)) queued =
      job ::ₘ total (fun queue => (queue : Multiset QueuedJob))
        (Function.update queued cls ((queued cls).eraseIdx position)) := by
  have hcons := @total_cons job cls
    (Function.update queued cls ((queued cls).eraseIdx position)) (queued cls)
    (by rw [update_self, coe_eraseIdx h])
  rwa [update_idem, update_eq_self] at hcons

/-- A job that is queued waits. -/
lemma waiting_push {start capacity remaining : ℕ}
    (h : s.push instantMax id cls start capacity remaining = some s') :
    s'.waiting = ⟨id, start, dueAt instantMax start (cls.delay remaining)⟩ ::ₘ s.waiting := by
  rw [push] at h
  split_ifs at h
  cases h
  refine total_cons ?_
  rw [← Multiset.coe_add, Multiset.coe_singleton, add_comm, Multiset.singleton_add]

/-- A job that is taken does not wait any more. -/
lemma waiting_takeFirst (h : s.takeFirst = some (job, cls, s')) : s.waiting = job ::ₘ s'.waiting := by
  obtain ⟨position, hjob, rfl, -⟩ := takeFirst_eq_some h
  exact total_eraseIdx hjob

/-- A promotion changes when a job is due, and nothing else. -/
lemma waiting_promotes {lower : JobClass} (h : Promotes instantMax s id cls s' lower position job) :
    ∃ rest, s.waiting = job ::ₘ rest ∧ s'.waiting = { job with
      due := min job.due (dueAt instantMax job.queuedAt (cls.delay DURATION_MAX)) } ::ₘ rest := by
  obtain ⟨hlower, ⟨hjob, -⟩, rfl⟩ := h
  refine ⟨_, total_eraseIdx hjob, total_cons ?_⟩
  rw [update_of_ne hlower.ne]
  exact Multiset.coe_eq_coe.mpr (place_perm _ _)

end JobQueueState

/-! ## The ledger -/

/-- The queues, and what was accepted and taken, each job with its queue time. -/
structure Ledger where
  /-- The queues. -/
  state : JobQueueState := {}
  /-- What was accepted. -/
  accepted : List (Id × ℕ) := []
  /-- What was taken. -/
  taken : List (Id × ℕ) := []

/-- What is done with the queues. -/
inductive Action
  /-- Queue a job at some time. -/
  | push (id : Id) (cls : JobClass) (start remaining : ℕ)
  | promote (id : Id) (cls : JobClass)
  | pop

/-- The clock reading of an action. -/
def Action.reading : Action → Option ℕ
  | .push _ _ start _ => some start
  | _ => none

/-- The operation of a job and its queue time. -/
def QueuedJob.receipt (job : QueuedJob) : Id × ℕ := (job.id, job.queuedAt)

namespace Ledger

variable (instantMax capacity : ℕ)

/-- What an action does. -/
def act (l : Ledger) : Action → Ledger
  | .push id cls start remaining =>
    match l.state.push instantMax id cls start capacity remaining with
    | none => l
    | some s => { l with state := s, accepted := l.accepted ++ [(id, start)] }
  | .promote id cls =>
    match l.state.promote instantMax id cls with
    | none => l
    | some s => { l with state := s }
  | .pop =>
    match l.state.takeFirst with
    | none => l
    | some (job, _, s) => { l with state := s, taken := l.taken ++ [job.receipt] }

/-- What is true of the queues at any time, with the last reading of the clock. -/
structure Sound (now : ℕ) (l : Ledger) : Prop where
  /-- What waits is what was accepted and not taken. -/
  kept : (l.accepted : Multiset (Id × ℕ)) = l.state.waiting.map QueuedJob.receipt + l.taken
  /-- There is no more than there is room for. -/
  bounded : l.state.len ≤ capacity
  /-- Every queue is in the order of the queue times. -/
  inOrder : ∀ cls, JobQueueState.InOrder (l.state.queued cls)
  /-- No job is due before it was queued. -/
  due : ∀ job ∈ l.state.waiting, job.queuedAt ≤ job.due
  /-- No job was queued later than now. -/
  past : ∀ job ∈ l.state.waiting, job.queuedAt ≤ now

variable {instantMax capacity} {now : ℕ} {l : Ledger}

/-- A job is not due before it is queued. -/
lemma le_dueAt (start duration : ℕ) : start ≤ dueAt instantMax start duration := by
  rw [dueAt, checkedAdd]
  split_ifs
  · exact Nat.le_add_right _ _
  · exact le_rfl

/-- Time goes on. -/
lemma Sound.mono (h : Sound capacity now l) {later : ℕ} (hle : now ≤ later) :
    Sound capacity later l :=
  ⟨h.kept, h.bounded, h.inOrder, h.due, fun job hjob => (h.past job hjob).trans hle⟩

/-- A job is queued. -/
lemma Sound.push (h : Sound capacity now l) {id : Id} {cls : JobClass} {start remaining : ℕ}
    (hnow : now ≤ start) :
    Sound capacity start (l.act instantMax capacity (.push id cls start remaining)) := by
  rw [act]
  cases hpush : l.state.push instantMax id cls start capacity remaining with
  | none => exact h.mono hnow
  | some s =>
    have hwaiting := JobQueueState.waiting_push hpush
    dsimp only
    refine ⟨?_, ?_, ?_, ?_, ?_⟩
    · dsimp only
      rw [hwaiting, Multiset.map_cons, Multiset.cons_add, ← h.kept, ← Multiset.coe_add,
        Multiset.coe_singleton, add_comm, Multiset.singleton_add]
      rfl
    · have hroom : ¬l.state.len ≥ capacity := by
        intro hfull
        rw [JobQueueState.push, if_pos hfull] at hpush
        cases hpush
      dsimp only
      rw [JobQueueState.len_eq, hwaiting, Multiset.card_cons, ← JobQueueState.len_eq]
      omega
    · intro cls'
      rw [JobQueueState.push] at hpush
      split_ifs at hpush
      cases hpush
      dsimp only
      by_cases heq : cls' = cls
      · subst heq
        rw [update_self]
        refine pairwise_append.mpr ⟨h.inOrder _, pairwise_singleton _ _, ?_⟩
        intro x hx y hy
        rw [mem_singleton.mp hy]
        exact (h.past x (JobQueueState.mem_waiting.mpr ⟨_, hx⟩)).trans hnow
      · rw [update_of_ne heq]
        exact h.inOrder _
    · intro job hjob
      rw [hwaiting] at hjob
      rcases Multiset.mem_cons.mp hjob with rfl | hjob
      · exact le_dueAt _ _
      · exact h.due job hjob
    · intro job hjob
      rw [hwaiting] at hjob
      rcases Multiset.mem_cons.mp hjob with rfl | hjob
      · exact le_rfl
      · exact (h.past job hjob).trans hnow

/-- A job is promoted. -/
lemma Sound.promote (h : Sound capacity now l) (id : Id) (cls : JobClass) :
    Sound capacity now (l.act instantMax capacity (.promote id cls)) := by
  rw [act]
  cases hpromote : l.state.promote instantMax id cls with
  | none => exact h
  | some s =>
    obtain ⟨lower, position, job, hmoves⟩ := JobQueueState.promote_eq_some hpromote
    obtain ⟨rest, hbefore, hafter⟩ := JobQueueState.waiting_promotes hmoves
    have hmem : job ∈ l.state.waiting := by
      rw [hbefore]
      exact Multiset.mem_cons_self _ _
    have hrest : ∀ x ∈ rest, x ∈ l.state.waiting := fun x hx => by
      rw [hbefore]
      exact Multiset.mem_cons_of_mem hx
    dsimp only
    refine ⟨?_, ?_, ?_, ?_, ?_⟩
    · dsimp only
      rw [h.kept, hbefore, hafter, Multiset.map_cons, Multiset.map_cons]
      rfl
    · have hcard := h.bounded
      dsimp only
      rw [JobQueueState.len_eq, hbefore, Multiset.card_cons] at hcard
      rwa [JobQueueState.len_eq, hafter, Multiset.card_cons]
    · intro cls'
      dsimp only
      rw [hmoves.moved]
      dsimp only
      by_cases heq : cls' = cls
      · subst heq
        rw [update_self]
        exact JobQueueState.place_inOrder (h.inOrder _)
      · rw [update_of_ne heq]
        by_cases hlower : cls' = lower
        · subst hlower
          rw [update_self]
          exact (h.inOrder _).sublist (eraseIdx_sublist _ _)
        · rw [update_of_ne hlower]
          exact h.inOrder _
    · intro x hx
      rw [hafter] at hx
      rcases Multiset.mem_cons.mp hx with rfl | hx
      · exact le_min (h.due job hmem) (le_dueAt _ _)
      · exact h.due x (hrest x hx)
    · intro x hx
      rw [hafter] at hx
      rcases Multiset.mem_cons.mp hx with rfl | hx
      · exact h.past job hmem
      · exact h.past x (hrest x hx)

/-- A job is taken. -/
lemma Sound.pop (h : Sound capacity now l) :
    Sound capacity now (l.act instantMax capacity .pop) := by
  rw [act]
  cases htake : l.state.takeFirst with
  | none => exact h
  | some result =>
    obtain ⟨job, cls, s⟩ := result
    have hwaiting := JobQueueState.waiting_takeFirst htake
    obtain ⟨position, hjob, rfl, -⟩ := JobQueueState.takeFirst_eq_some htake
    dsimp only
    refine ⟨?_, ?_, ?_, ?_, ?_⟩
    · dsimp only
      rw [h.kept, hwaiting, Multiset.map_cons, Multiset.cons_add, ← Multiset.add_cons,
        ← Multiset.coe_add, Multiset.coe_singleton, add_comm _ ({job.receipt} : Multiset (Id × ℕ)),
        Multiset.singleton_add]
    · have hcard := h.bounded
      dsimp only
      rw [JobQueueState.len_eq, hwaiting, Multiset.card_cons] at hcard
      rw [JobQueueState.len_eq]
      omega
    · intro cls'
      dsimp only
      by_cases heq : cls' = cls
      · subst heq
        rw [update_self]
        exact (h.inOrder _).sublist (eraseIdx_sublist _ _)
      · rw [update_of_ne heq]
        exact h.inOrder _
    · intro x hx
      exact h.due x (by rw [hwaiting]; exact Multiset.mem_cons_of_mem hx)
    · intro x hx
      exact h.past x (by rw [hwaiting]; exact Multiset.mem_cons_of_mem hx)

/-- The clock readings of actions do not go back. -/
def Monotone (actions : List Action) : Prop :=
  (actions.filterMap Action.reading).Pairwise (· ≤ ·)

/-- Queues that have nothing yet. -/
lemma sound_empty (capacity : ℕ) : Sound capacity 0 {} :=
  ⟨rfl, Nat.zero_le _, fun _ => List.Pairwise.nil, fun _ h => absurd h (Multiset.notMem_zero _),
    fun _ h => absurd h (Multiset.notMem_zero _)⟩

/-- One action, which does not read an earlier time than the last one. -/
lemma Sound.act (h : Sound capacity now l) (action : Action)
    (hreading : ∀ reading, action.reading = some reading → now ≤ reading) :
    Sound capacity (action.reading.getD now) (l.act instantMax capacity action) := by
  cases action with
  | push id cls start remaining => exact h.push (hreading start rfl)
  | promote id cls => exact h.promote id cls
  | pop => exact h.pop

/-- **Any number of actions** with readings that do not go back.

**Proof sketch.** By induction on the actions: none of the readings that are still to come is before
the last one. -/
lemma Sound.run (actions : List Action) :
    ∀ {now : ℕ} {l : Ledger}, Sound capacity now l → Monotone actions →
      (∀ reading ∈ actions.filterMap Action.reading, now ≤ reading) →
        ∃ later, Sound capacity later (actions.foldl (Ledger.act instantMax capacity) l) := by
  induction actions with
  | nil => exact fun h _ _ => ⟨_, h⟩
  | cons action actions ih =>
    intro now l h hmono hnow
    rw [foldl_cons]
    cases hreading : action.reading with
    | none =>
      rw [Monotone, filterMap_cons_none hreading] at hmono
      rw [filterMap_cons_none hreading] at hnow
      have hact : Sound capacity (action.reading.getD now) (l.act instantMax capacity action) :=
        h.act action fun reading heq => by
          rw [hreading] at heq
          cases heq
      rw [hreading, Option.getD_none] at hact
      exact ih hact hmono hnow
    | some reading =>
      rw [Monotone, filterMap_cons_some hreading, pairwise_cons] at hmono
      rw [filterMap_cons_some hreading] at hnow
      have hact : Sound capacity (action.reading.getD now) (l.act instantMax capacity action) :=
        h.act action fun reading' heq => by
          rw [hreading] at heq
          cases heq
          exact hnow _ mem_cons_self
      rw [hreading, Option.getD_some] at hact
      exact ih hact hmono.2 hmono.1

/-! ## What a run can rely on -/

/-- What a job that is taken has to do with the jobs that are left waiting. -/
structure TakesFirst (s : JobQueueState) (job : QueuedJob) (cls : JobClass) (s' : JobQueueState) :
    Prop where
  /-- It waited in its class. -/
  mem : job ∈ s.queued cls
  /-- It and no other is taken. -/
  taken : s.waiting = job ::ₘ s'.waiting
  /-- No job is due earlier; of those that are due then, none has a higher class; and of those that
  have that class, none was queued earlier. -/
  first : ∀ cls' job', job' ∈ s.queued cls' → job.due < job'.due ∨ job.due = job'.due ∧
    (cls < cls' ∨ cls = cls' ∧ job.queuedAt ≤ job'.queuedAt)
  /-- It was not queued after another one had become due. -/
  overtakes : ∀ job' ∈ s.waiting, job.queuedAt ≤ job'.due

/-- What is taken when the queues are sound. -/
lemma Sound.takesFirst (h : Sound capacity now l) {job : QueuedJob} {cls : JobClass}
    {s' : JobQueueState} (htake : l.state.takeFirst = some (job, cls, s')) :
    TakesFirst l.state job cls s' := by
  have hwaiting := JobQueueState.waiting_takeFirst htake
  obtain ⟨position, hjob, -, hprecedes⟩ := JobQueueState.takeFirst_eq_some htake
  have hmem := mem_of_getElem? hjob
  refine ⟨hmem, hwaiting, fun cls' job' hjob' => ?_, fun job' hjob' => ?_⟩
  · obtain ⟨position', hposition⟩ := List.mem_iff_getElem?.mp hjob'
    rcases hprecedes cls' position' job' hposition with hlt | ⟨heq, hclass | ⟨hclass, hle⟩⟩
    · exact .inl hlt
    · exact .inr ⟨heq, .inl hclass⟩
    · refine .inr ⟨heq, .inr ⟨hclass, ?_⟩⟩
      subst hclass
      obtain ⟨hlt, rfl⟩ := List.getElem?_eq_some_iff.mp hjob
      obtain ⟨hlt', rfl⟩ := List.getElem?_eq_some_iff.mp hposition
      rcases Nat.lt_or_eq_of_le hle with hbefore | rfl
      · exact List.pairwise_iff_getElem.mp (h.inOrder cls) _ _ hlt hlt' hbefore
      · exact le_rfl
  · have hown := h.due job (JobQueueState.mem_waiting.mpr ⟨cls, hmem⟩)
    obtain ⟨cls', hmem'⟩ := JobQueueState.mem_waiting.mp hjob'
    obtain ⟨position', hposition⟩ := List.mem_iff_getElem?.mp hmem'
    rcases hprecedes cls' position' job' hposition with hlt | ⟨heq, -⟩ <;> omega

end Ledger

end Tgrep.Jobs
