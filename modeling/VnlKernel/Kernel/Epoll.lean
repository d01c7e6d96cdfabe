import VnlKernel.Net.UnSocket

/-!
# Interest lists: the `epoll` calls of `src/kernel/syscall.c`

Sixteen instances, each a list of at most 32 descriptors with the events asked for. An
entry holds the bare number it was added with. `sys_epoll_wait` looks every number up
again at each turn: a socket is asked for its events, and whatever is not a socket is
always readable and writable.

A wait that finds nothing sleeps for a tick and looks again, with other tasks running in
between. `epollTurn` is one such look.
-/

namespace VnlKernel

open Bits

def epollFdBase : Int := 200
def maxEpolls : Nat := 16
def maxEpollFds : Nat := 32

structure EpollEvent where
  events : Nat
  data : Nat
deriving DecidableEq

structure EpollEventEntry where
  fd : Int
  event : EpollEvent

structure EpollInstance where
  used : Bool
  fds : Nat → EpollEventEntry
  count : Nat

/-- `epolls`, all zeros at first. -/
abbrev Epolls := Nat → EpollInstance

def EpollInstance.zero : EpollInstance := ⟨false, fun _ => ⟨0, ⟨0, 0⟩⟩, 0⟩

def Epolls.set (eps : Epolls) (idx : Nat) (ep : EpollInstance) : Epolls :=
  fun k => if k = idx then ep else eps k

def epollAlloc (eps : Epolls) : Option (Epolls × Nat) :=
  match Scan.first (fun i => !(eps i).used) maxEpolls 0 with
  | none => none
  | some i =>
      some (eps.set i ⟨true, fun j => if j < maxEpollFds then { (eps i).fds j with fd := -1 } else (eps i).fds j,
        0⟩, i)

def sysEpollCreate1 (eps : Epolls) : Epolls × Int :=
  match epollAlloc eps with
  | none => (eps, -enomem)
  | some (eps, idx) => (eps, epollFdBase + idx)

/-- The instance of a descriptor. -/
def epollOf (eps : Epolls) (epfd : Int) : Option Nat :=
  let idx := epfd - epollFdBase
  if idx < 0 ∨ idx ≥ maxEpolls ∨ !(eps idx.toNat).used then none else some idx.toNat

/-- The entry that holds `fd`. -/
def EpollInstance.find (ep : EpollInstance) (fd : Int) : Option Nat :=
  Scan.first (fun i => (ep.fds i).fd = fd) ep.count 0

/-- Entry `i` taken out, those behind it moved up. -/
def EpollInstance.remove (ep : EpollInstance) (i : Nat) : EpollInstance :=
  { ep with fds := fun j => if i ≤ j ∧ j < ep.count - 1 then ep.fds (j + 1) else ep.fds j
            count := ep.count - 1 }

def EpollInstance.setEntry (ep : EpollInstance) (i : Nat) (e : EpollEventEntry) : EpollInstance :=
  { ep with fds := fun j => if j = i then e else ep.fds j }

/-- `ev` is what `event_ptr` points to. -/
def sysEpollCtl (eps : Epolls) (epfd op fd : Int) (ev : EpollEvent) : Epolls × Int :=
  match epollOf eps epfd with
  | none => (eps, -ebadf)
  | some idx =>
      let ep := eps idx
      if op = 2 then
        match ep.find fd with
        | some i => (eps.set idx (ep.remove i), 0)
        | none => (eps, -enoent)
      else if op = 1 then
        if ep.count ≥ maxEpollFds then (eps, -enomem)
        else
          match ep.find fd with
          | some _ => (eps, -eexist)
          | none => (eps.set idx { ep.setEntry ep.count ⟨fd, ev⟩ with count := ep.count + 1 }, 0)
      else if op = 3 then
        match ep.find fd with
        | some i => (eps.set idx (ep.setEntry i { ep.fds i with event := ev }), 0)
        | none => (eps, -enoent)
      else (eps, -einval)

variable {σ : Type}

/-- What an entry has to report. -/
def epollRevents (n : Net σ) (e : EpollEventEntry) : Nat :=
  if unixIsSockfd n e.fd then unixSockPoll n e.fd e.event.events
  else e.event.events &&& (0x001 ||| 0x004)

/-- The loop over the entries, `k` of them from `i` on; `out` is what is ready so far, each event
with the entry it is for. -/
def epollScan (n : Net σ) (ep : EpollInstance) (maxevents : Int) :
    Nat → Nat → List (EpollEventEntry × EpollEvent) → List (EpollEventEntry × EpollEvent)
  | 0, _, out => out
  | k + 1, i, out =>
      let e := ep.fds i
      let revents := epollRevents n e
      if revents ≠ 0 then
        let out := out ++ [(e, ⟨revents, e.event.data⟩)]
        if (out.length : Int) ≥ maxevents then out else epollScan n ep maxevents k (i + 1) out
      else epollScan n ep maxevents k (i + 1) out

/-- A wait that is asleep. -/
structure EpollWait where
  idx : Nat
  maxevents : Int
  timeout : Int
  loops : Nat

inductive EpollReply where
  | ret (r : Int) (events : List (EpollEventEntry × EpollEvent))
  | sleep (w : EpollWait)

/-- One turn of the loop of `sys_epoll_wait`. -/
def epollTurn (n : Net σ) (eps : Epolls) (w : EpollWait) : EpollReply :=
  let out := epollScan n (eps w.idx) w.maxevents (eps w.idx).count 0 []
  if out.length > 0 ∨ w.timeout = 0 then .ret out.length out
  else if w.timeout ≥ 0 ∧ (w.loops : Int) ≥ w.timeout then .ret out.length out
  else .sleep { w with loops := w.loops + 1 }

def sysEpollWait (n : Net σ) (eps : Epolls) (epfd maxevents timeout : Int) : EpollReply :=
  match epollOf eps epfd with
  | none => .ret (-ebadf) []
  | some idx => epollTurn n eps ⟨idx, maxevents, timeout, 0⟩

end VnlKernel
