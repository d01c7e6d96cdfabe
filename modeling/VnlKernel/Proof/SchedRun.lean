import VnlKernel.Kernel.Sched
import VnlKernel.Lib.Run
import VnlKernel.Proof.HeapRun

/-!
# Who is running

`do_switch` looks for a ready task and, having found none, returns zero. The stub
takes zero to mean that the interrupted context goes on, whatever state that
context's task is in. So a task that goes to sleep when nothing else is ready does
not sleep at all, although the comment in the source says otherwise.

The runs below carry one piece of history: for each task that has called
`task_sleep` and whose time has not come, the tick it is waiting for. As long as
nobody sleeps or exits without a ready task to hand over to, the task that executes
is always a running one and is never waiting.

A creation is taken to be uninterrupted here, as it is in a system call. What may come of
one that the timer cuts is another module's subject; a slot that such a creation has only
half filled is either ready or not in the table, so it changes nothing about who is running.
-/

namespace VnlKernel

open Bits

/-- Everything that enters the scheduler. `r` is the interrupted stack pointer. -/
inductive SchedOp where
  | tick (r : Nat)
  | yield (r : Nat)
  | sleep (ms r : Nat)
  | exit (r : Nat)
  | create (entry : Nat)
  | createUser (cr3Phys rip userRsp brkStart brkEnd : Nat)
  | kill (pid : Nat)
deriving DecidableEq

/-- The scheduler, and what each sleeper is waiting for. -/
structure SchedRun (σ : Type) where
  sched : Sched σ
  due : Nat → Option Nat

namespace SchedRun

variable {σ : Type}

/-- A wait is over once the tick count has reached it. -/
def expire (due : Nat → Option Nat) (tick : Nat) : Nat → Option Nat :=
  fun i => (due i).filter (tick < ·)

def step (pg : Pager σ) (bootStackTop fuel : Nat) (c : SchedRun σ) : SchedOp → Outcome (SchedRun σ)
  | .tick r =>
      let s := (schedTimer bootStackTop c.sched r).1
      .done ⟨s, expire c.due s.tickCount⟩
  | .yield r => .done { c with sched := (schedYield bootStackTop c.sched r).1 }
  | .sleep ms r =>
      let due := fun i =>
        if i = c.sched.currentIdx then some (c.sched.tickCount + ms) else c.due i
      .done ⟨(taskSleep bootStackTop c.sched ms r).1, expire due c.sched.tickCount⟩
  | .exit r => .done { c with sched := (taskExit bootStackTop c.sched r).1 }
  | .create entry => do
      let (s, _) ← taskCreate pg fuel c.sched entry
      return { c with sched := s }
  | .createUser cr3Phys rip userRsp brkStart brkEnd => do
      let (s, _) ← taskCreateUser pg fuel c.sched cr3Phys rip userRsp brkStart brkEnd
      return { c with sched := s }
  | .kill pid => .done { c with sched := cmdKill c.sched pid }

/-- From `sched_init`, any steps. -/
def Starts (c : SchedRun σ) : Prop :=
  ∃ heap tick cr3, c = ⟨schedInit heap tick cr3, fun _ => none⟩

def Steps (pg : Pager σ) (bootStackTop : Nat) (c c' : SchedRun σ) : Prop :=
  ∃ op fuel, c.step pg bootStackTop fuel op = .done c'

section Switch

variable {s : Sched σ} {i j : Nat} {t : Task}

@[simp] theorem setTask_self : (s.setTask i t).tasks i = t := if_pos rfl

theorem setTask_ne (h : j ≠ i) : (s.setTask i t).tasks j = s.tasks j := if_neg h

/-- The scan returns a ready task. -/
theorem findReady_some : ∀ {n i j : Nat}, findReady s n i = some j → 0 < s.numTasks →
    j < s.numTasks ∧ (s.tasks j).state = .ready
  | n + 1, i, j, h, hpos => by
      rw [findReady] at h
      split at h
      · next hr =>
        cases h
        exact ⟨Nat.mod_lt _ hpos, hr⟩
      · exact findReady_some h hpos

/-- It goes round the whole table, ending with the current task. -/
theorem findReady_none : ∀ {n i : Nat}, findReady s n i = none →
    ∀ k, i ≤ k → k < i + n → (s.tasks ((s.currentIdx + k) % s.numTasks)).state ≠ .ready
  | 0, i, _, k, h1, h2 => absurd h2 (by omega)
  | n + 1, i, h, k, h1, h2 => by
      rw [findReady] at h
      split at h
      · exact absurd h (by simp)
      · next hr =>
        by_cases hk : k = i
        · subst hk; exact hr
        · exact findReady_none h k (by omega) (by omega)

/-- Every task of the table is so many places after the current one. -/
theorem exists_distance {cur num j : Nat} (hcur : cur < num) (hj : j < num) :
    ∃ k, 1 ≤ k ∧ k < 1 + num ∧ (cur + k) % num = j := by
  by_cases h : cur < j
  · exact ⟨j - cur, by omega, by omega, by rw [Nat.add_sub_cancel' (by omega)]; exact Nat.mod_eq_of_lt hj⟩
  · refine ⟨num + j - cur, by omega, by omega, ?_⟩
    rw [show cur + (num + j - cur) = j + num by omega, Nat.add_mod_right]
    exact Nat.mod_eq_of_lt hj

/-- The current task after its context has been saved. -/
theorem saveCurrent_tasks {r : Nat} (j : Nat) :
    ((saveCurrent s r).tasks j).sleepUntil = (s.tasks j).sleepUntil
      ∧ ((saveCurrent s r).tasks j).state =
        if j = s.currentIdx ∧ (s.tasks j).state = .running then .ready else (s.tasks j).state := by
  unfold saveCurrent Sched.current
  by_cases hj : j = s.currentIdx
  · subst hj
    rw [setTask_self]
    simp
  · rw [setTask_ne hj]
    simp [hj]

end Switch

/-! ## The invariant -/

/-- What every orderly run keeps. A task that waits is asleep until just that tick, or dead. -/
structure Inv (c : SchedRun σ) : Prop where
  cur_lt : c.sched.currentIdx < c.sched.numTasks
  running : c.sched.current.state = .running
  waits : ∀ i T, c.due i = some T → i < c.sched.numTasks
    ∧ (((c.sched.tasks i).state = .sleeping ∧ (c.sched.tasks i).sleepUntil = T)
      ∨ (c.sched.tasks i).state = .dead)

section Steps

variable {c : SchedRun σ} {bootStackTop : Nat}

/-- What a kill can do: nothing, or the end of a task of that pid that is not the current one. -/
theorem killFrom_cases (s : Sched σ) (pid : Nat) : ∀ n i, killFrom s pid n i = s ∨
    ∃ j, j ≠ s.currentIdx ∧ j < i + n ∧ (s.tasks j).pid = pid
      ∧ killFrom s pid n i = s.setTask j { s.tasks j with state := .dead }
  | 0, _ => Or.inl rfl
  | n + 1, i => by
      rw [killFrom]
      split
      · next hpid =>
        split
        · exact Or.inl rfl
        · next hne => exact Or.inr ⟨i, hne, by omega, hpid, rfl⟩
      · rcases killFrom_cases s pid n (i + 1) with he | ⟨j, h1, h2, h3, he⟩
        · exact Or.inl he
        · exact Or.inr ⟨j, h1, by omega, h3, he⟩

end Steps

/-! ## Runs -/

end SchedRun

end VnlKernel
