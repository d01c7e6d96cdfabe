import VnlKernel.Net.Woken
import VnlKernel.Proof.SockAccept
import Mathlib.Data.List.Perm.Basic

/-!
# Runs in which woken calls are interrupted

A system is the table, what is left of the calls that have slept, and everything that
has been logged. What may happen next is that some program makes a call, which goes as
far as its end or its first sleep, or that a call which has slept makes one access.
`Sys` is the same system for those who may take a woken call to run to its end.

Whatever a woken call does to the table, it changes only rings and queues. So peers
name each other here too.
-/

namespace VnlKernel

open Run

variable {σ : Type}

structure Tasks (σ : Type) where
  net : Net σ
  calls : List Woken
  hist : List Ev

/-- What may happen next. -/
inductive Tasks.Act where
  | call (op : SockOp)
  /-- The `k`-th call that has slept goes on by one access. -/
  | go (k : Nat)

/-- The system afterwards, and what a caller is told, if it is told anything. -/
def Tasks.step (fs : FrameService σ) (input : DevInput) (fuel : Nat) (s : Tasks σ) :
    Tasks.Act → Outcome (Tasks σ × Option Ans)
  | .call op => do
      let (n, log, rep) ← s.net.call fs input fuel op
      match rep with
      | .ret a => return (⟨n, s.calls, s.hist ++ log⟩, some a)
      | .sleep w => return (⟨n, s.calls ++ [.ofWait w], s.hist ++ log⟩, none)
  | .go k =>
      match s.calls[k]? with
      | none => .done (s, none)
      | some c => do
          let (n, log, next) ← c.go s.net
          match next with
          | .inl c => return (⟨n, s.calls.set k c, s.hist ++ log⟩, none)
          | .inr a => return (⟨n, s.calls.eraseIdx k, s.hist ++ log⟩, some a)

/-- After `unix_socket_init`, above any file system. -/
def Tasks.Boots (s : Tasks σ) : Prop := ∃ v, s = ⟨unixSocketInit v, [], []⟩

/-- Steps that meet a condition. -/
def Tasks.StepsIf (fs : FrameService σ) (cond : Tasks σ → Tasks.Act → Prop) (s s' : Tasks σ) :
    Prop :=
  ∃ input fuel act ans, cond s act ∧ s.step fs input fuel act = .done (s', ans)

def Tasks.Steps (fs : FrameService σ) : Tasks σ → Tasks σ → Prop :=
  Tasks.StepsIf fs fun _ _ => True

/-- Several acts in a row, each of which must meet the condition, and what the callers are told. -/
def Tasks.run (fs : FrameService σ) (cond : Tasks σ → Tasks.Act → Prop)
    [∀ s act, Decidable (cond s act)] (input : DevInput) (fuel : Nat) :
    Tasks σ → List Tasks.Act → Outcome (Tasks σ × List (Option Ans))
  | s, [] => .done (s, [])
  | s, act :: acts =>
      if cond s act then do
        let (s, ans) ← s.step fs input fuel act
        let (s, rest) ← s.run fs cond input fuel acts
        return (s, ans :: rest)
      else .timeout

/-- The system over the file system that `vfs_init` leaves. -/
def bootTasks : Tasks Nat := ⟨unixSocketInit bootVfs, [], []⟩

theorem bootTasks_boots : bootTasks.Boots := ⟨bootVfs, rfl⟩

/-- The `k`-th call goes on by `n` accesses. -/
def goes (k n : Nat) : List Tasks.Act := List.replicate n (.go k)

section Tasks

variable {fs : FrameService σ} {cond : Tasks σ → Tasks.Act → Prop} {input : DevInput} {fuel : Nat}
  {s s' : Tasks σ} {act : Tasks.Act} {ans : Option Ans}

theorem Tasks.run_reach [∀ s act, Decidable (cond s act)] :
    ∀ {acts : List Tasks.Act} {s s' : Tasks σ} {anss : List (Option Ans)},
    Reach Tasks.Boots (Tasks.StepsIf fs cond) s →
    s.run fs cond input fuel acts = .done (s', anss) →
    Reach Tasks.Boots (Tasks.StepsIf fs cond) s'
  | [], s, s', anss, hr, h => by
      cases h
      exact hr
  | act :: acts, s, s', anss, hr, h => by
      rw [Tasks.run] at h
      split at h
      · next hc =>
        obtain ⟨⟨s₁, ans⟩, h₁, h⟩ := Outcome.bind_eq_done h
        obtain ⟨⟨s₂, rest⟩, h₂, h⟩ := Outcome.bind_eq_done h
        cases h
        exact Tasks.run_reach (.next hr ⟨input, fuel, act, ans, hc, h₁⟩) h₂
      · exact absurd h (by simp)

/-- A call is made, or one that has slept goes on, and the others stay as they are. -/
theorem Tasks.step_cases (h : s.step fs input fuel act = .done (s', ans)) :
    (∃ op n log rep, act = .call op ∧ s.net.call fs input fuel op = .done (n, log, rep)
        ∧ s'.net = n ∧ s'.hist = s.hist ++ log
        ∧ (s'.calls = s.calls ∨ ∃ w, s'.calls = s.calls ++ [.ofWait w]))
      ∨ (∃ k c n log next, act = .go k ∧ s.calls[k]? = some c ∧ c.go s.net = .done (n, log, next)
        ∧ s'.net = n ∧ s'.hist = s.hist ++ log ∧ s.calls.Perm (c :: s.calls.eraseIdx k)
        ∧ ((∃ c', next = .inl c' ∧ s'.calls.Perm (c' :: s.calls.eraseIdx k))
          ∨ (∃ a, next = .inr a ∧ ans = some a ∧ s'.calls = s.calls.eraseIdx k)))
      ∨ (∃ k, act = .go k ∧ s' = s) := by
  cases act with
  | call op =>
      left
      obtain ⟨⟨n, log, rep⟩, hc, h⟩ := Outcome.bind_eq_done h
      refine ⟨op, n, log, rep, rfl, hc, ?_⟩
      cases rep with
      | ret a => cases h; exact ⟨rfl, rfl, Or.inl rfl⟩
      | sleep w => cases h; exact ⟨rfl, rfl, Or.inr ⟨w, rfl⟩⟩
  | go k =>
      right
      rw [Tasks.step] at h
      split at h
      · cases h; exact Or.inr ⟨k, rfl, rfl⟩
      · next c hk =>
        left
        obtain ⟨hlt, hc⟩ := List.getElem?_eq_some_iff.mp hk
        obtain ⟨⟨n, log, next⟩, hg, h⟩ := Outcome.bind_eq_done h
        refine ⟨k, c, n, log, next, rfl, hk, hg, ?_⟩
        have hperm : s.calls.Perm (c :: s.calls.eraseIdx k) :=
          hc ▸ (List.getElem_cons_eraseIdx_perm hlt).symm
        cases next with
        | inl c' =>
            cases h
            exact ⟨rfl, rfl, hperm, Or.inl ⟨c', rfl, List.set_perm_cons_eraseIdx hlt c'⟩⟩
        | inr a => cases h; exact ⟨rfl, rfl, hperm, Or.inr ⟨a, rfl, rfl, rfl⟩⟩

end Tasks

/-! ## What one access changes -/

section Access

variable {n n' : Net σ} {log : List Ev} {next : Woken ⊕ Ans} {s s' : USock}

/-- Nothing but the received bytes. -/
theorem PopAt.go_rx {pos : PopAt} {len : Nat} {b : Option UInt8}
    {r : PopAt ⊕ Int × List UInt8} (h : pos.go s len = (s', b, r)) :
    ∃ rx, s' = { s with rx := rx } := by
  unfold PopAt.go at h
  cases pos with
  | poll => cases h; exact ⟨s.rx, rfl⟩
  | head t => cases h; exact ⟨s.rx, rfl⟩
  | peer => cases h; exact ⟨s.rx, rfl⟩
  | flags =>
      dsimp only at h
      split at h
      · cases h; exact ⟨s.rx, rfl⟩
      · cases h; exact ⟨s.rx, rfl⟩
  | take k =>
      dsimp only at h
      split at h
      · cases h; exact ⟨_, rfl⟩
      · cases h; exact ⟨_, rfl⟩

/-- What one access of `unix_accept` does to the slot, and where it leaves the call. -/
inductive AcceptAt.Goes (s : USock) : AcceptAt → USock → AcceptAt ⊕ Int → Prop where
  | poll : Goes s .poll s (.inl (if s.nWait = 0 then .flags else .first))
  | asleep : Goes s .flags s (.inl .poll)
  | again : Goes s .flags s (.inr (-eagain))
  | first : Goes s .first s (.inl (.count (s.listenQ 0)))
  | count (si : Int) : s.nWait ≠ 0 → Goes s (.count si) s (.inl (.move si s.nWait 0))
  | move (si : Int) (w k : Nat) : k < w - 1 → Goes s (.move si w k)
      { s with listenQ := fun m => if m = k then s.listenQ (k + 1) else s.listenQ m }
      (.inl (.move si w (k + 1)))
  | moved (si : Int) (w k : Nat) : ¬ k < w - 1 → Goes s (.move si w k) s (.inl (.drop si))
  | drop (si : Int) : Goes s (.drop si) s (.inl (.dropped si s.nWait))
  | dropped (si : Int) (w : Nat) : w ≠ 0 →
      Goes s (.dropped si w) { s with nWait := w - 1 } (.inl (.check si))
  | check (si r : Int) : Goes s (.check si) s (.inr r)

theorem AcceptAt.goes {pos : AcceptAt} {r : AcceptAt ⊕ Int} (h : pos.go n s = .done (s', r)) :
    pos.Goes s s' r := by
  unfold AcceptAt.go at h
  cases pos with
  | poll => cases h; exact .poll
  | flags =>
      dsimp only at h
      split at h
      · cases h; exact .again
      · cases h; exact .asleep
  | first => cases h; exact .first
  | count si =>
      dsimp only at h
      split at h
      · exact absurd h (by simp)
      · next hne => cases h; exact .count si hne
  | move si w k =>
      dsimp only at h
      split at h
      · next hlt => cases h; exact .move si w k hlt
      · next hge => cases h; exact .moved si w k hge
  | drop si => cases h; exact .drop si
  | dropped si w =>
      dsimp only at h
      split at h
      · exact absurd h (by simp)
      · next hne => cases h; exact .dropped si w hne
  | check si =>
      dsimp only at h
      split at h
      · cases h; exact .check si _
      · cases h; exact .check si _

/-- Nothing but the queue. -/
theorem AcceptAt.go_queue {pos : AcceptAt} {r : AcceptAt ⊕ Int}
    (h : pos.go n s = .done (s', r)) :
    ∃ q w, s' = { s with listenQ := q, nWait := w } := by
  cases AcceptAt.goes h with
  | move si w k hlt => exact ⟨_, _, rfl⟩
  | dropped si w hne => exact ⟨_, _, rfl⟩
  | _ => exact ⟨s.listenQ, s.nWait, rfl⟩

/-- **A woken call leaves the links alone.** -/
theorem Woken.go_sameLinks {c : Woken} (h : c.go n = .done (n', log, next)) : SameLinks n n' := by
  have hsame : SameLinks n n := fun _ => ⟨rfl, rfl, rfl⟩
  cases c with
  | pop i c len pos =>
      obtain ⟨⟨s, b, r⟩, hp⟩ : ∃ x, pos.go (n.socks i) len = x := ⟨_, rfl⟩
      rw [Woken.go, hp] at h
      cases h
      obtain ⟨rx, rfl⟩ := PopAt.go_rx hp
      exact sameLinks_setSock rfl rfl rfl
  | loop i msg rest total out => cases h; exact hsame
  | after i msg rest total out => cases h; exact hsame
  | afterTail i msg rest total out t => cases h; exact hsame
  | fds i total out k =>
      cases h
      exact sameLinks_setSock rfl rfl rfl
  | accept i pos =>
      obtain ⟨⟨s, r⟩, hp, h⟩ := Outcome.bind_eq_done h
      cases h
      obtain ⟨q, w, rfl⟩ := AcceptAt.go_queue hp
      exact sameLinks_setSock rfl rfl rfl

end Access

/-! ## Peers -/

section Peers

variable {fs : FrameService σ} {cond : Tasks σ → Tasks.Act → Prop} {s : Tasks σ}

theorem PeerInv.call {input : DevInput} {fuel : Nat} {n n' : Net σ} {op : SockOp} {log : List Ev}
    {rep : Reply} (h : PeerInv n) (hc : n.call fs input fuel op = .done (n', log, rep)) :
    PeerInv n' := by
  rcases call_edits h.created hc with he | ⟨_, _, v, _, _, rfl⟩
  · exact h.edits he
  · exact h.vfs v

end Peers

end VnlKernel
