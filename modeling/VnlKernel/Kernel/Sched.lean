import VnlKernel.Mm.Heap

/-!
# The scheduler: `src/kernel/sched.c`

A table of at most sixteen tasks, filled from the front and never compacted, and
the index of the one that is running. Every way of giving up the processor ends in
`do_switch`, which saves the current context, looks for a ready task round-robin
and makes it current. It returns the stack pointer to continue on, or zero for "do
not switch", in which case the interrupted context goes on.

A task's kernel stack comes from the heap. The fake register frame that starts a
task is written to its top, which is why the scheduler carries the heap along.
-/

namespace VnlKernel

open ByteMem Bits

/-- `MAX_TASKS`. -/
def maxTasks : Nat := 16

/-- `TASK_STACK_SZ`. -/
def taskStackSz : Nat := 8 * 4096

/-- The first address `SYS_MMAP` gives out in a new address space. -/
def mmapStart : Nat := 0x40000000

inductive TaskState where
  | running
  | ready
  | sleeping
  | dead
deriving DecidableEq

/-- A task, without its name. -/
structure Task where
  rsp : Nat
  /-- Zero for task 0, which runs on the boot stack. -/
  stackBase : Nat
  cr3Phys : Nat
  state : TaskState
  pid : Nat
  sleepUntil : Nat
  brkStart : Nat
  brkEnd : Nat
  mmapNext : Nat

/-- What `memset` leaves of a task. -/
def Task.zero : Task := ⟨0, 0, 0, .running, 0, 0, 0, 0, 0⟩

/-- The scheduler's variables, the tick counter, and the heap that stacks come from. -/
structure Sched (σ : Type) where
  tasks : Nat → Task
  numTasks : Nat
  currentIdx : Nat
  nextPid : Nat
  tickCount : Nat
  /-- `sched_pending_cr3`, loaded by the stub when it switches. -/
  pendingCr3 : Nat
  /-- The stack pointer in the TSS. -/
  rsp0 : Nat
  heap : Heap σ

variable {σ : Type}

def Sched.setTask (s : Sched σ) (i : Nat) (t : Task) : Sched σ :=
  { s with tasks := fun j => if j = i then t else s.tasks j }

def Sched.current (s : Sched σ) : Task := s.tasks s.currentIdx

/-- `FRAME_WORDS`. -/
def frameWords : Nat := 26

/-- The words of a frame that starts at `entry` in the given segments. -/
def frameWord (data code entry rsp : Nat) (i : Nat) : Nat :=
  if i < 4 then data
  else if i = 21 then entry
  else if i = 22 then code
  else if i = 23 then 0x202
  else if i = 24 then rsp
  else if i = 25 then data
  else 0

/-- Store `n` words of a frame from address `a` on, starting with word `i`. -/
def storeFrame (w : Nat → Nat) (m : Mem) (a : Nat) : Nat → Nat → Mem
  | 0, _ => m
  | n + 1, i => storeFrame w (write64 m (a + 8 * i) (w i)) a n (i + 1)

/-- `build_fake_frame`: the memory, and the frame's address. -/
def buildFakeFrame (m : Mem) (stackTop entry : Nat) : Mem × Nat :=
  let frame := sub64 stackTop (8 * frameWords)
  (storeFrame (frameWord 0x10 0x08 entry stackTop) m frame frameWords 0, frame)

def buildUserFrame (m : Mem) (stackTop rip rsp3 : Nat) : Mem × Nat :=
  let frame := sub64 stackTop (8 * frameWords)
  (storeFrame (frameWord 0x23 0x1B rip rsp3) m frame frameWords 0, frame)

/-- The scan of `do_switch`: the `n` tasks after the current one, from the `i`-th on. -/
def findReady (s : Sched σ) : Nat → Nat → Option Nat
  | 0, _ => none
  | n + 1, i =>
      let idx := (s.currentIdx + i) % s.numTasks
      if (s.tasks idx).state = .ready then some idx else findReady s n (i + 1)

/-- The first half of `do_switch`: the current context is saved and may be picked again. -/
def saveCurrent (s : Sched σ) (curRsp : Nat) : Sched σ :=
  s.setTask s.currentIdx
    { s.current with
      rsp := curRsp
      state := if s.current.state = .running then .ready else s.current.state }

/-- `do_switch`: the scheduler afterwards, and the stack to continue on or zero. -/
def doSwitch (bootStackTop : Nat) (s : Sched σ) (curRsp : Nat) : Sched σ × Nat :=
  let s := saveCurrent s curRsp
  match findReady s s.numTasks 1 with
  | none =>
      -- no one else ready: keep running the current task
      if s.current.state = .ready then
        (s.setTask s.currentIdx { s.current with state := .running }, 0)
      else (s, 0)
  | some next =>
      let s := s.setTask next { s.tasks next with state := .running }
      let t := s.tasks next
      let ktop := if t.stackBase ≠ 0 then u64 (t.stackBase + taskStackSz) else bootStackTop
      ({ s with currentIdx := next, pendingCr3 := t.cr3Phys, rsp0 := ktop }, t.rsp)

/-- The wake-up loop of the timer, over the first `n` tasks. -/
def wakeSleepers (s : Sched σ) : Sched σ :=
  { s with tasks := fun i =>
      let t := s.tasks i
      if i < s.numTasks ∧ t.state = .sleeping ∧ t.sleepUntil ≤ s.tickCount then
        { t with state := .ready }
      else t }

def schedTimer (bootStackTop : Nat) (s : Sched σ) (r : Nat) : Sched σ × Nat :=
  let s := { s with tickCount := u64 (s.tickCount + 1) }
  doSwitch bootStackTop (wakeSleepers s) r

def schedYield (bootStackTop : Nat) (s : Sched σ) (r : Nat) : Sched σ × Nat :=
  doSwitch bootStackTop s r

/-- `sched_init`, on the heap and tick count the machine has by then. -/
def schedInit (heap : Heap σ) (tickCount cr3 : Nat) : Sched σ where
  tasks := fun i =>
    if i = 0 then { Task.zero with pid := 1, cr3Phys := cr3, mmapNext := mmapStart } else Task.zero
  numTasks := 1
  currentIdx := 0
  nextPid := 2
  tickCount := tickCount
  pendingCr3 := 0
  rsp0 := 0
  heap := heap

/-- What `task_create` and `task_create_user` share: a stack, a frame on it, and a table entry. -/
def addTask (pg : Pager σ) (fuel : Nat) (s : Sched σ) (t : Task)
    (build : Mem → Nat → Mem × Nat) : Outcome (Sched σ × Int) := do
  if maxTasks ≤ s.numTasks then return (s, -1)
  let (heap, stack) ← kmalloc pg fuel s.heap taskStackSz
  if stack = 0 then return ({ s with heap := heap }, -1)
  let (mem, frame) := build heap.mem (u64 (stack + taskStackSz))
  let t := { t with stackBase := stack, pid := s.nextPid, state := .ready, sleepUntil := 0, rsp := frame }
  let s := s.setTask s.numTasks t
  return ({ s with
    heap := { heap with mem := mem }
    nextPid := u32 (s.nextPid + 1)
    numTasks := s.numTasks + 1 }, (t.pid : Int))

def taskCreate (pg : Pager σ) (fuel : Nat) (s : Sched σ) (entry : Nat) : Outcome (Sched σ × Int) :=
  addTask pg fuel s { Task.zero with cr3Phys := (s.tasks 0).cr3Phys }
    fun m top => buildFakeFrame m top entry

def taskCreateUser (pg : Pager σ) (fuel : Nat) (s : Sched σ)
    (cr3Phys rip userRsp brkStart brkEnd : Nat) : Outcome (Sched σ × Int) :=
  addTask pg fuel s
    { Task.zero with
      cr3Phys := cr3Phys, brkStart := brkStart, brkEnd := brkEnd, mmapNext := mmapStart }
    fun m top => buildUserFrame m top rip userRsp

/-- `task_exit`, up to the point where another context continues. -/
def taskExit (bootStackTop : Nat) (s : Sched σ) (r : Nat) : Sched σ × Nat :=
  schedYield bootStackTop (s.setTask s.currentIdx { s.current with state := .dead }) r

def taskSleep (bootStackTop : Nat) (s : Sched σ) (ms r : Nat) : Sched σ × Nat :=
  schedYield bootStackTop
    (s.setTask s.currentIdx
      { s.current with state := .sleeping, sleepUntil := u64 (s.tickCount + ms) }) r

/-- The search of the shell's `kill`, over the tasks from `i` on. -/
def killFrom (s : Sched σ) (pid : Nat) : Nat → Nat → Sched σ
  | 0, _ => s
  | n + 1, i =>
      if (s.tasks i).pid = pid then
        -- cannot kill self
        if i = s.currentIdx then s else s.setTask i { s.tasks i with state := .dead }
      else killFrom s pid n (i + 1)

/-- `kill` in `src/shell/shell.c`. -/
def cmdKill (s : Sched σ) (pid : Nat) : Sched σ := killFrom s pid s.numTasks 0

/-- The search of `sched_pid_alive`, over the tasks from `i` on. -/
def pidAliveFrom (s : Sched σ) (pid : Nat) : Nat → Nat → Bool
  | 0, _ => false
  | n + 1, i => if (s.tasks i).pid = pid then (s.tasks i).state ≠ .dead else pidAliveFrom s pid n (i + 1)

def schedPidAlive (s : Sched σ) (pid : Nat) : Bool := pidAliveFrom s pid s.numTasks 0

end VnlKernel
