import VnlKernel.Kernel.Sched
import VnlKernel.Lib.Scan

/-!
# Tasks made with interrupts on: `src/kernel/sched.c` and `src/shell/shell.c`

`SYS_TASK_CREATE` runs with interrupts off, and `taskCreate` and `taskCreateUser` are the
whole of what it does. The shell calls `task_create_user` as well, and `kill`, and it runs
with interrupts on: the timer may take the processor away between any two accesses to the
table. Here these calls go in steps, each with one access to what other tasks can see.

A step still asks the heap for the whole stack, and writes the whole frame to it: nobody
else has that stack yet. The search of `kill` is one step too, since the pids it reads are
those of tasks that are in the table already.
-/

namespace VnlKernel

open ByteMem Bits

variable {σ : Type}

/-- Which of the two functions was called, and with what. -/
inductive NewTask where
  | kernel (entry : Nat)
  | user (cr3Phys rip userRsp brkStart brkEnd : Nat)

/-- The frame that the task starts from. -/
def NewTask.frame : NewTask → Mem → Nat → Mem × Nat
  | .kernel entry => fun m top => buildFakeFrame m top entry
  | .user _ rip userRsp _ _ => fun m top => buildUserFrame m top rip userRsp

/-- The stores between the state and the frame, in order. The name is left out. -/
def NewTask.store (new : NewTask) (s : Sched σ) (t : Task) : Nat → Task
  | 0 => { t with sleepUntil := 0 }
  | 1 => { t with cr3Phys := match new with
      | .kernel _ => (s.tasks 0).cr3Phys
      | .user cr3Phys .. => cr3Phys }
  | 2 => { t with brkStart := match new with
      | .kernel _ => 0
      | .user _ _ _ brkStart _ => brkStart }
  | 3 => { t with brkEnd := match new with
      | .kernel _ => 0
      | .user _ _ _ _ brkEnd => brkEnd }
  | _ => { t with mmapNext := match new with
      | .kernel _ => 0
      | .user .. => mmapStart }

/-- Where a call is: what it does next, and what it has read. `k` is the slot it has taken. -/
inductive Making where
  /-- There was room in the table. -/
  | alloc
  | slot (stack : Nat)
  | stackBase (stack k : Nat)
  | loadPid (stack k : Nat)
  | bumpPid (stack k v : Nat)
  | pid (stack k v : Nat)
  | state (stack k : Nat)
  | fields (stack k m : Nat)
  | rsp (stack k : Nat)
  | result (k : Nat)
  | loadNum (k pid : Nat)
  | bumpNum (k pid v : Nat)

/-- From `t = &tasks[num_tasks]` to the store of `num_tasks++`. -/
def Making.holds : Making → Bool
  | .alloc | .slot _ => false
  | _ => true

/-- One step of a call: the scheduler, and where the call is then or what it returns. -/
def Making.next (pg : Pager σ) (fuel : Nat) (new : NewTask) (s : Sched σ) :
    Making → Outcome (Sched σ × (Making ⊕ Int))
  | .alloc => do
      let (heap, stack) ← kmalloc pg fuel s.heap taskStackSz
      return ({ s with heap := heap }, if stack = 0 then .inr (-1) else .inl (.slot stack))
  | .slot stack => .done (s, .inl (.stackBase stack s.numTasks))
  | .stackBase stack k =>
      .done (s.setTask k { s.tasks k with stackBase := stack }, .inl (.loadPid stack k))
  | .loadPid stack k => .done (s, .inl (.bumpPid stack k s.nextPid))
  | .bumpPid stack k v => .done ({ s with nextPid := u32 (v + 1) }, .inl (.pid stack k v))
  | .pid stack k v => .done (s.setTask k { s.tasks k with pid := v }, .inl (.state stack k))
  | .state stack k => .done (s.setTask k { s.tasks k with state := .ready }, .inl (.fields stack k 0))
  | .fields stack k m =>
      .done (s.setTask k (new.store s (s.tasks k) m),
        .inl (if m < 4 then .fields stack k (m + 1) else .rsp stack k))
  | .rsp stack k =>
      let (mem, frame) := new.frame s.heap.mem (u64 (stack + taskStackSz))
      .done ({ s.setTask k { s.tasks k with rsp := frame } with heap := { s.heap with mem := mem } },
        .inl (.result k))
  | .result k => .done (s, .inl (.loadNum k (s.tasks k).pid))
  | .loadNum k p => .done (s, .inl (.bumpNum k p s.numTasks))
  | .bumpNum _ p v => .done ({ s with numTasks := v + 1 }, .inr p)

/-- The call up to its first step that others can see: the check. -/
def Making.begin (s : Sched σ) : Making ⊕ Int := if maxTasks ≤ s.numTasks then .inr (-1) else .inl .alloc

/-- The rest of a call that nothing interrupts. -/
def Making.finish (pg : Pager σ) (fuel : Nat) (new : NewTask) :
    Nat → Sched σ → Making ⊕ Int → Outcome (Sched σ × Int)
  | _, s, .inr r => .done (s, r)
  | 0, _, .inl _ => .timeout
  | n + 1, s, .inl m => do
      let (s, m) ← m.next pg fuel new s
      finish pg fuel new n s m

/-- What the search of `kill` finds, if it is not the task that runs. -/
def killTarget (s : Sched σ) (pid : Nat) : Option Nat :=
  (Scan.first (fun i => (s.tasks i).pid = pid) s.numTasks 0).filter (· ≠ s.currentIdx)

end VnlKernel
