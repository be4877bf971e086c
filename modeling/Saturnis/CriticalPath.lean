/-
One server, and jobs in the order in which it takes them.

A job is released at some time and takes some time.  The server starts it when it
is released and the job before it is done, so it is done with some jobs when the
longest of its paths ends: a path waits for the release of one job, or for the
server itself, and takes all jobs from there on without a pause.

* `finish_concat` — one more job;
* `finish_isGreatest` — **the critical path**;
* `start_isGreatest` — where the next job starts.
-/
import Mathlib.Algebra.Order.Monoid.Unbundled.MinMax
import Mathlib.Algebra.BigOperators.Group.List.Basic
import Mathlib.Algebra.Order.Monoid.Canonical.Defs
import Mathlib.Order.Bounds.Basic

namespace CriticalPath

structure Job (T : Type*) where
  release : T
  work : T

variable {T : Type*} [AddCommMonoid T]

/-- The time that some jobs take. -/
def totalWork (jobs : List (Job T)) : T := (jobs.map Job.work).sum

/-- The ends of the paths, for a server that is free at some time. -/
def paths (free : T) (jobs : List (Job T)) : Set T :=
  { t | t = free + totalWork jobs ∨
    ∃ before job after, jobs = before ++ job :: after ∧
      t = job.release + totalWork (job :: after) }

variable {free t : T} {job : Job T} {jobs : List (Job T)}

theorem totalWork_cons (job : Job T) (jobs : List (Job T)) :
    totalWork (job :: jobs) = job.work + totalWork jobs := by
  rw [totalWork, List.map_cons, List.sum_cons, totalWork]

/-- A path starts at the first job, or behind it. -/
theorem mem_paths_cons : t ∈ paths free (job :: jobs) ↔
    t = free + totalWork (job :: jobs) ∨ t = job.release + totalWork (job :: jobs) ∨
      ∃ before later after, jobs = before ++ later :: after ∧
        t = later.release + totalWork (later :: after) := by
  refine or_congr_right ⟨?_, ?_⟩
  · rintro ⟨before, later, after, heq, rfl⟩
    cases before with
    | nil =>
      obtain ⟨rfl, rfl⟩ := List.cons.inj heq
      exact Or.inl rfl
    | cons first before =>
      obtain ⟨rfl, rfl⟩ := List.cons.inj heq
      exact Or.inr ⟨before, later, after, rfl, rfl⟩
  · rintro (rfl | ⟨before, later, after, rfl, rfl⟩)
    · exact ⟨[], job, jobs, rfl, rfl⟩
    · exact ⟨job :: before, later, after, rfl, rfl⟩

variable [LinearOrder T]

/-- When the server is done. -/
def finish (free : T) : List (Job T) → T
  | [] => free
  | job :: jobs => finish (max job.release free + job.work) jobs

theorem finish_concat (free : T) (jobs : List (Job T)) (job : Job T) :
    finish free (jobs ++ [job]) = max job.release (finish free jobs) + job.work := by
  induction jobs generalizing free with
  | nil => rfl
  | cons first jobs ih => exact ih _

variable [IsOrderedAddMonoid T]

/-- **The critical path.**  The server is done when the last of the paths ends. -/
theorem finish_isGreatest (free : T) (jobs : List (Job T)) :
    IsGreatest (paths free jobs) (finish free jobs) := by
  induction jobs generalizing free with
  | nil =>
    have hnone : finish free [] = free + totalWork ([] : List (Job T)) := (add_zero free).symm
    refine ⟨Or.inl hnone, ?_⟩
    rintro t (rfl | ⟨before, job, after, heq, -⟩)
    · exact hnone.ge
    · exact absurd heq (by simp)
  | cons job jobs ih =>
    obtain ⟨hmem, hupper⟩ := ih (max job.release free + job.work)
    have hfirst : max job.release free + job.work + totalWork jobs =
        max (job.release + totalWork (job :: jobs)) (free + totalWork (job :: jobs)) := by
      rw [totalWork_cons, add_assoc, max_add_add_right]
    have hreach : max job.release free + job.work + totalWork jobs ≤ finish free (job :: jobs) :=
      hupper (Or.inl rfl)
    rw [hfirst] at hreach
    refine ⟨mem_paths_cons.mpr ?_, fun t ht => ?_⟩
    · rcases hmem with hmem | hlater
      · rw [hfirst] at hmem
        rcases max_choice (job.release + totalWork (job :: jobs))
          (free + totalWork (job :: jobs)) with hmax | hmax
        · exact Or.inr (Or.inl (hmem.trans hmax))
        · exact Or.inl (hmem.trans hmax)
      · exact Or.inr (Or.inr hlater)
    · rcases mem_paths_cons.mp ht with rfl | rfl | hlater
      · exact (le_max_right _ _).trans hreach
      · exact (le_max_left _ _).trans hreach
      · exact hupper (Or.inr hlater)

theorem le_finish [CanonicallyOrderedAdd T] (free : T) (jobs : List (Job T)) :
    free ≤ finish free jobs :=
  le_self_add.trans ((finish_isGreatest free jobs).2 (Or.inl rfl))

/-- The next job starts when it is released, or when the last path ends. -/
theorem start_isGreatest (free release : T) (jobs : List (Job T)) :
    IsGreatest (insert release (paths free jobs)) (max release (finish free jobs)) :=
  (finish_isGreatest free jobs).insert release

end CriticalPath
