import VnlKernel.Proof.SchedRun

/-!
# The task table

Tasks are added at the end of the table and never taken out, so a task keeps its slot, and
the pids go up with the slots. What a switch may change about a task is its state and its
saved stack pointer. A dead task is never made ready again: the wake-up loop looks for
sleepers only, and a task that has called `task_exit` only halts.

This module is about what nothing interrupts: a switch, a system call, an interrupt.
-/

namespace VnlKernel

open Bits Run

namespace SchedRun

variable {σ : Type}

/-- A dead task that still has the processor halts until the next tick. -/
def Halts (s : Sched σ) (op : SchedOp) : Prop := s.current.state = .dead → ∃ r, op = .tick r

/-- Does this make a task? -/
def makes : SchedOp → Bool
  | .create _ | .createUser .. => true
  | _ => false

structure TableInv (s : Sched σ) : Prop where
  cur_lt : s.currentIdx < s.numTasks
  num_le : s.numTasks ≤ maxTasks
  running : ∀ i, i < s.numTasks → (s.tasks i).state = .running → i = s.currentIdx
  pid_lt : ∀ i j, i < j → j < s.numTasks → (s.tasks i).pid < (s.tasks j).pid
  issued : ∀ i, i < s.numTasks → (s.tasks i).pid < s.nextPid

/-- What a task is apart from its state: scheduling does not change it. -/
structure SameTask (t t' : Task) : Prop where
  stackBase : t'.stackBase = t.stackBase
  cr3Phys : t'.cr3Phys = t.cr3Phys
  pid : t'.pid = t.pid

theorem SameTask.refl (t : Task) : SameTask t t := ⟨rfl, rfl, rfl⟩

theorem SameTask.trans {t t' t'' : Task} (h : SameTask t t') (h' : SameTask t' t'') :
    SameTask t t'' :=
  ⟨h'.stackBase.trans h.stackBase, h'.cr3Phys.trans h.cr3Phys, h'.pid.trans h.pid⟩

/-- The tasks there were are still there, the same but for their state. -/
structure Keeps (s s' : Sched σ) : Prop where
  num : s.numTasks ≤ s'.numTasks
  same : ∀ i, i < s.numTasks → SameTask (s.tasks i) (s'.tasks i)

/-- The table is as large as it was, and what lies behind it has not changed. -/
structure SameEnd (s s' : Sched σ) : Prop where
  num : s'.numTasks = s.numTasks
  nextPid : s'.nextPid = s.nextPid
  beyond : ∀ i, s.numTasks ≤ i →
    (s'.tasks i).pid = (s.tasks i).pid ∧ (s'.tasks i).state = (s.tasks i).state

/-- Dead tasks stay dead. -/
def StaysDead (s s' : Sched σ) : Prop :=
  ∀ i, i < s.numTasks → (s.tasks i).state = .dead → (s'.tasks i).state = .dead

section Switch

variable {s : Sched σ} {i j : Nat} {t : Task}

/-- A task is replaced by one that is the same but for its state. -/
theorem setTask_same (ht : SameTask (s.tasks i) t) (j : Nat) :
    SameTask (s.tasks j) ((s.setTask i t).tasks j) := by
  by_cases hj : j = i
  · rw [hj, setTask_self]; exact ht
  · rw [setTask_ne hj]; exact .refl _

theorem saveCurrent_same (r : Nat) (j : Nat) :
    SameTask (s.tasks j) ((saveCurrent s r).tasks j) := by
  unfold saveCurrent
  exact setTask_same (by exact ⟨rfl, rfl, rfl⟩) j

/-- **What a switch does**: nothing to anybody's state, or it makes a ready task current. -/
theorem doSwitch_cases {bootStackTop r : Nat} (hcur : s.currentIdx < s.numTasks) {s' : Sched σ}
    (hs' : (doSwitch bootStackTop s r).1 = s') :
    s'.numTasks = s.numTasks ∧ s'.nextPid = s.nextPid ∧ (∀ j, SameTask (s.tasks j) (s'.tasks j))
      ∧ ((s'.currentIdx = s.currentIdx ∧ ∀ j, (s'.tasks j).state = (s.tasks j).state)
        ∨ (s'.currentIdx < s.numTasks
          ∧ ((s.tasks s'.currentIdx).state = .ready
            ∨ s'.currentIdx = s.currentIdx ∧ (s.tasks s'.currentIdx).state = .running)
          ∧ ∀ j, (s'.tasks j).state = if j = s'.currentIdx then .running
            else if j = s.currentIdx ∧ (s.tasks j).state = .running then .ready else
              (s.tasks j).state)) := by
  unfold doSwitch at hs'
  dsimp only at hs'
  split at hs'
  · next hf =>
    -- the search ends with the current task, so that is not ready either
    obtain ⟨k, h1, h2, hk⟩ := exists_distance hcur hcur
    have hno := findReady_none hf k h1 h2
    rw [show (saveCurrent s r).currentIdx = s.currentIdx from rfl,
      show (saveCurrent s r).numTasks = s.numTasks from rfl, hk] at hno
    rw [if_neg (show ¬ (saveCurrent s r).current.state = .ready from hno)] at hs'
    rw [← hs']
    refine ⟨rfl, rfl, saveCurrent_same r, Or.inl ⟨rfl, fun j => ?_⟩⟩
    rw [(saveCurrent_tasks j).2]
    split
    · next hc =>
      exfalso
      rw [(saveCurrent_tasks _).2, if_pos ⟨rfl, hc.1 ▸ hc.2⟩] at hno
      exact hno rfl
    · rfl
  · next next hf =>
    obtain ⟨hlt, hst⟩ := findReady_some hf (by change 0 < s.numTasks; omega)
    rw [← hs']
    refine ⟨rfl, rfl, fun j => (saveCurrent_same r j).trans ?_, Or.inr ⟨hlt, ?_, fun j => ?_⟩⟩
    · change SameTask _ (((saveCurrent s r).setTask next _).tasks j)
      exact setTask_same (by exact ⟨rfl, rfl, rfl⟩) j
    · rw [(saveCurrent_tasks next).2] at hst
      split at hst
      · next hc => exact Or.inr hc
      · exact Or.inl hst
    · change (((saveCurrent s r).setTask next _).tasks j).state = _
      by_cases hj : j = next
      · rw [if_pos hj, hj, setTask_self]
      · rw [if_neg hj, setTask_ne hj, (saveCurrent_tasks j).2]

/-- Nothing but states has changed in the table: the pids are what they were. -/
theorem TableInv.same {s' : Sched σ} (h : TableInv s) (hk : SameEnd s s')
    (hs : ∀ i, i < s.numTasks → SameTask (s.tasks i) (s'.tasks i))
    (hcur : s'.currentIdx < s'.numTasks)
    (hrun : ∀ i, i < s'.numTasks → (s'.tasks i).state = .running → i = s'.currentIdx) :
    TableInv s' where
  cur_lt := hcur
  num_le := by rw [hk.num]; exact h.num_le
  running := hrun
  pid_lt := by
    intro i j hij hj
    rw [hk.num] at hj
    rw [(hs i (hij.trans hj)).pid, (hs j hj).pid]
    exact h.pid_lt i j hij hj
  issued := by
    intro i hi
    rw [hk.num] at hi
    rw [(hs i hi).pid, hk.nextPid]
    exact h.issued i hi

/-- A switch leaves one task running at most, and no dead task alive. -/
theorem inv_doSwitch {bootStackTop r : Nat} (h : TableInv s) :
    TableInv (doSwitch bootStackTop s r).1 ∧ Keeps s (doSwitch bootStackTop s r).1
      ∧ StaysDead s (doSwitch bootStackTop s r).1
      ∧ SameEnd s (doSwitch bootStackTop s r).1 := by
  obtain ⟨hnum, hpid, hsame, hcase⟩ := doSwitch_cases h.cur_lt
    (rfl : (doSwitch bootStackTop s r).1 = _)
  generalize (doSwitch bootStackTop s r).1 = s' at hnum hpid hsame hcase
  have hend : SameEnd s s' := by
    refine ⟨hnum, hpid, fun i hi => ⟨(hsame i).pid, ?_⟩⟩
    have hcur := h.cur_lt
    rcases hcase with ⟨_, hst⟩ | ⟨hlt, _, hst⟩
    · exact hst i
    · rw [hst, if_neg (by omega), if_neg (by omega)]
  refine ⟨h.same hend (fun i _ => hsame i) ?_ ?_, ⟨by rw [hnum], fun i _ => hsame i⟩, ?_, hend⟩
  · rcases hcase with ⟨hidx, _⟩ | ⟨hlt, _⟩
    · rw [hidx, hnum]; exact h.cur_lt
    · rw [hnum]; exact hlt
  · intro i hi hrun
    rw [hnum] at hi
    rcases hcase with ⟨hidx, hst⟩ | ⟨_, _, hst⟩
    · rw [hst] at hrun
      rw [hidx]
      exact h.running i hi hrun
    · rw [hst] at hrun
      split at hrun
      · next hc => exact hc
      · next hc =>
        split at hrun
        · exact absurd hrun (by decide)
        · next hn => exact absurd ⟨h.running i hi hrun, hrun⟩ hn
  · intro i _ hd
    rcases hcase with ⟨_, hst⟩ | ⟨_, hready, hst⟩
    · rw [hst]; exact hd
    · rw [hst, if_neg, if_neg]
      · exact hd
      · rw [hd]; exact fun hc => absurd hc.2 (by decide)
      · rintro rfl
        rcases hready with hr | ⟨_, hr⟩
        · rw [hd] at hr; exact absurd hr (by decide)
        · rw [hd] at hr; exact absurd hr (by decide)

end Switch

section Steps

variable {c c' : SchedRun σ} {pg : Pager σ} {bootStackTop fuel : Nat}

theorem Keeps.refl (s : Sched σ) : Keeps s s := ⟨Nat.le_refl _, fun _ _ => .refl _⟩

theorem Keeps.trans {s s' s'' : Sched σ} (h : Keeps s s') (h' : Keeps s' s'') : Keeps s s'' :=
  ⟨h.num.trans h'.num, fun i hi => (h.same i hi).trans (h'.same i (hi.trans_le h.num))⟩

theorem StaysDead.trans {s s' s'' : Sched σ} (hk : Keeps s s') (h : StaysDead s s')
    (h' : StaysDead s' s'') : StaysDead s s'' :=
  fun i hi hd => h' i (hi.trans_le hk.num) (h i hi hd)

theorem SameEnd.trans {s s' s'' : Sched σ} (h : SameEnd s s') (h' : SameEnd s' s'') :
    SameEnd s s'' where
  num := h'.num.trans h.num
  nextPid := h'.nextPid.trans h.nextPid
  beyond i hi := by
    obtain ⟨h1, h2⟩ := h.beyond i hi
    obtain ⟨h3, h4⟩ := h'.beyond i (by rw [h.num]; exact hi)
    exact ⟨h3.trans h1, h4.trans h2⟩

/-- A task that is not running takes the place of one, in the same slot. -/
theorem inv_setTask {s : Sched σ} (h : TableInv s) {i : Nat} {t : Task} (hi : i < s.numTasks)
    (ht : SameTask (s.tasks i) t) (hrun : t.state ≠ .running) :
    TableInv (s.setTask i t) ∧ Keeps s (s.setTask i t) ∧ SameEnd s (s.setTask i t) := by
  have hend : SameEnd s (s.setTask i t) :=
    ⟨rfl, rfl, fun k hk => by rw [setTask_ne (by omega)]; exact ⟨rfl, rfl⟩⟩
  refine ⟨h.same hend (fun k _ => setTask_same ht k) h.cur_lt ?_,
    ⟨Nat.le_refl _, fun k _ => setTask_same ht k⟩, hend⟩
  intro k hk hr
  by_cases hki : k = i
  · rw [hki, setTask_self] at hr; exact absurd hr hrun
  · rw [setTask_ne hki] at hr; exact h.running k hk hr

theorem inv_wakeSleepers {s : Sched σ} (h : TableInv s) :
    TableInv (wakeSleepers s) ∧ Keeps s (wakeSleepers s) ∧ StaysDead s (wakeSleepers s)
      ∧ SameEnd s (wakeSleepers s) := by
  have htask : ∀ i, SameTask (s.tasks i) ((wakeSleepers s).tasks i)
      ∧ ((wakeSleepers s).tasks i).state ≠ .running ∨ (wakeSleepers s).tasks i = s.tasks i := by
    intro i
    unfold wakeSleepers
    dsimp only
    split
    · exact Or.inl ⟨⟨rfl, rfl, rfl⟩, by simp⟩
    · exact Or.inr rfl
  have hsame : ∀ i, SameTask (s.tasks i) ((wakeSleepers s).tasks i) := by
    intro i
    rcases htask i with ⟨h1, _⟩ | h1
    · exact h1
    · rw [h1]; exact .refl _
  have hend : SameEnd s (wakeSleepers s) := by
    refine ⟨rfl, rfl, fun i hi => ?_⟩
    unfold wakeSleepers
    dsimp only
    rw [if_neg (by omega)]
    exact ⟨rfl, rfl⟩
  refine ⟨h.same hend (fun i _ => hsame i) h.cur_lt ?_, ⟨Nat.le_refl _, fun i _ => hsame i⟩, ?_,
    hend⟩
  · intro i hi hr
    rcases htask i with ⟨_, hn⟩ | he
    · exact absurd hr hn
    · rw [he] at hr; exact h.running i hi hr
  · intro i _ hd
    unfold wakeSleepers
    dsimp only
    rw [if_neg (by rw [hd]; simp)]
    exact hd

/-- The task in the slot behind the last is counted. -/
theorem inv_count {s : Sched σ} (h : TableInv s) (hroom : s.numTasks < maxTasks)
    (hst : (s.tasks s.numTasks).state ≠ .running)
    (hpid : ∀ i, i < s.numTasks → (s.tasks i).pid < (s.tasks s.numTasks).pid)
    (hnew : (s.tasks s.numTasks).pid < s.nextPid) :
    TableInv { s with numTasks := s.numTasks + 1 } where
  cur_lt := Nat.lt_succ_of_lt h.cur_lt
  num_le := hroom
  running := by
    intro i hi hr
    rcases Nat.lt_succ_iff_lt_or_eq.mp hi with hlt | rfl
    · exact h.running i hlt hr
    · exact absurd hr hst
  pid_lt := by
    intro i j hij hj
    rcases Nat.lt_succ_iff_lt_or_eq.mp hj with hlt | rfl
    · exact h.pid_lt i j hij hlt
    · exact hpid i hij
  issued := by
    intro i hi
    rcases Nat.lt_succ_iff_lt_or_eq.mp hi with hlt | rfl
    · exact h.issued i hlt
    · exact hnew

/-- The slots of the table are as they were, and no pid is taken back. -/
theorem TableInv.behind {s s' : Sched σ} (h : TableInv s) (hcur : s'.currentIdx = s.currentIdx)
    (hnum : s'.numTasks = s.numTasks) (hnext : s.nextPid ≤ s'.nextPid)
    (hs : ∀ i, i < s.numTasks → s'.tasks i = s.tasks i) : TableInv s' where
  cur_lt := by rw [hcur, hnum]; exact h.cur_lt
  num_le := by rw [hnum]; exact h.num_le
  running := by
    intro i hi hr
    rw [hnum] at hi
    rw [hs i hi] at hr
    rw [hcur]
    exact h.running i hi hr
  pid_lt := by
    intro i j hij hj
    rw [hnum] at hj
    rw [hs i (hij.trans hj), hs j hj]
    exact h.pid_lt i j hij hj
  issued := by
    intro i hi
    rw [hnum] at hi
    rw [hs i hi]
    exact (h.issued i hi).trans_le hnext

/-- A creation that does not take a slot leaves the table as it is. -/
theorem addTask_none {s s' : Sched σ} {t : Task} {build : ByteMem.Mem → Nat → ByteMem.Mem × Nat}
    {ret : Int} (hs : addTask pg fuel s t build = .done (s', ret))
    (hno : s.numTasks < maxTasks → ∀ heap stack,
      kmalloc pg fuel s.heap taskStackSz = .done (heap, stack) → stack = 0) :
    ∃ heap, s' = { s with heap := heap } := by
  unfold addTask at hs
  split at hs
  · cases hs; exact ⟨s.heap, rfl⟩
  · next hfull =>
    obtain ⟨⟨heap, stack⟩, hk, hs⟩ := Outcome.bind_eq_done hs
    dsimp only at hs
    rw [if_pos (hno (by omega) heap stack hk)] at hs
    cases hs
    exact ⟨heap, rfl⟩

/-- A ready task with a new pid is put behind the last one, and counted. -/
theorem TableInv.join {s : Sched σ} (h : TableInv s) (hroom : s.numTasks < maxTasks) (heap : Heap σ)
    {t : Task} (hst : t.state = .ready) (hpid : t.pid = s.nextPid) {v : Nat}
    (hv : v = s.nextPid + 1) {s' : Sched σ}
    (hs' : s' = { s.setTask s.numTasks t with
      heap := heap, nextPid := v, numTasks := s.numTasks + 1 }) :
    TableInv s' ∧ Keeps s s' ∧ StaysDead s s' := by
  subst hs' hv
  have hold : ∀ i, i < s.numTasks → (s.setTask s.numTasks t).tasks i = s.tasks i :=
    fun i hi => setTask_ne (by omega)
  have hnew : (s.setTask s.numTasks t).tasks s.numTasks = t := setTask_self
  have hbehind : TableInv { s.setTask s.numTasks t with heap := heap, nextPid := s.nextPid + 1 } :=
    h.behind rfl rfl (Nat.le_succ _) hold
  refine ⟨inv_count hbehind hroom ?_ ?_ ?_, ⟨Nat.le_succ _, fun i hi => ?_⟩, fun i hi hd => ?_⟩
  · change ((s.setTask s.numTasks t).tasks s.numTasks).state ≠ _
    rw [hnew, hst]
    decide
  · intro i hi
    change ((s.setTask s.numTasks t).tasks i).pid < ((s.setTask s.numTasks t).tasks s.numTasks).pid
    rw [hold i hi, hnew, hpid]
    exact h.issued i hi
  · change ((s.setTask s.numTasks t).tasks s.numTasks).pid < s.nextPid + 1
    rw [hnew, hpid]
    exact Nat.lt_succ_self _
  · change SameTask _ ((s.setTask s.numTasks t).tasks i)
    rw [hold i hi]
    exact .refl _
  · change ((s.setTask s.numTasks t).tasks i).state = _
    rw [hold i hi]
    exact hd

/-- A task joins at the end of the table. -/
theorem inv_join {s s' : Sched σ} (h : TableInv s) {t : Task}
    {build : ByteMem.Mem → Nat → ByteMem.Mem × Nat} {ret : Int} (hpid : s.nextPid + 1 < 2 ^ 32)
    (hs : addTask pg fuel s t build = .done (s', ret)) :
    TableInv s' ∧ Keeps s s' ∧ StaysDead s s' := by
  unfold addTask at hs
  split at hs
  · cases hs
    exact ⟨h, .refl _, fun _ _ hd => hd⟩
  · next hfull =>
    obtain ⟨⟨heap, stack⟩, _, hs⟩ := Outcome.bind_eq_done hs
    dsimp only at hs
    split at hs
    · cases hs
      exact ⟨h.behind rfl rfl (Nat.le_refl _) fun _ _ => rfl, ⟨Nat.le_refl _, fun _ _ => .refl _⟩,
        fun _ _ hd => hd⟩
    · cases hs
      exact h.join (by omega) _ rfl rfl (Nat.mod_eq_of_lt hpid) rfl

/-- The current task gives up the processor in a state that is not running. -/
theorem inv_giveUp {s : Sched σ} (h : TableInv s) {t : Task} {r : Nat} (ht : SameTask s.current t)
    (hrun : t.state ≠ .running) :
    TableInv (schedYield bootStackTop (s.setTask s.currentIdx t) r).1
      ∧ Keeps s (schedYield bootStackTop (s.setTask s.currentIdx t) r).1
      ∧ SameEnd s (schedYield bootStackTop (s.setTask s.currentIdx t) r).1
      ∧ ((s.current.state = .dead → t.state = .dead) →
        StaysDead s (schedYield bootStackTop (s.setTask s.currentIdx t) r).1) := by
  obtain ⟨hi, hk, he⟩ := inv_setTask h h.cur_lt ht hrun
  obtain ⟨hi', hk', hd', he'⟩ := @inv_doSwitch σ _ bootStackTop r hi
  refine ⟨hi', hk.trans hk', he.trans he', fun hdead i hlt hd => hd' i hlt ?_⟩
  by_cases hic : i = s.currentIdx
  · rw [hic] at hd ⊢
    rw [setTask_self]
    exact hdead hd
  · rw [setTask_ne hic]
    exact hd

/-- A task is marked dead. -/
theorem inv_mark {s : Sched σ} (h : TableInv s) {j : Nat} (hj : j < s.numTasks) :
    TableInv (s.setTask j { s.tasks j with state := .dead })
      ∧ Keeps s (s.setTask j { s.tasks j with state := .dead })
      ∧ StaysDead s (s.setTask j { s.tasks j with state := .dead })
      ∧ SameEnd s (s.setTask j { s.tasks j with state := .dead }) := by
  obtain ⟨h₁, hkeep, hend⟩ := inv_setTask h hj (t := { s.tasks j with state := .dead })
    ⟨rfl, rfl, rfl⟩ (by simp)
  refine ⟨h₁, hkeep, fun i _ hd => ?_, hend⟩
  by_cases hij : i = j
  · rw [hij, setTask_self]
  · rw [setTask_ne hij]; exact hd

/-- **One step** that makes no task. Dead tasks stay dead if those that have the processor only
halt. -/
theorem table_step {op : SchedOp} (h : TableInv c.sched) (hm : makes op = false)
    (hs : c.step pg bootStackTop fuel op = .done c') :
    TableInv c'.sched ∧ Keeps c.sched c'.sched ∧ SameEnd c.sched c'.sched
      ∧ (Halts c.sched op → StaysDead c.sched c'.sched) := by
  cases op with
  -- sleepers are woken first, and that brings no dead task back
  | tick r =>
      cases hs
      have h₀ : TableInv { c.sched with tickCount := u64 (c.sched.tickCount + 1) } :=
        h.behind rfl rfl (Nat.le_refl _) fun _ _ => rfl
      have he₀ : SameEnd c.sched { c.sched with tickCount := u64 (c.sched.tickCount + 1) } :=
        ⟨rfl, rfl, fun _ _ => ⟨rfl, rfl⟩⟩
      obtain ⟨h₁, hk₁, hd₁, he₁⟩ := inv_wakeSleepers h₀
      obtain ⟨h₂, hk₂, hd₂, he₂⟩ := @inv_doSwitch σ _ bootStackTop r h₁
      have hk₀ : Keeps c.sched (wakeSleepers { c.sched with tickCount := u64 (c.sched.tickCount + 1) }) :=
        ⟨Nat.le_refl _, hk₁.same⟩
      exact ⟨h₂, hk₀.trans hk₂, he₀.trans (he₁.trans he₂),
        fun _ i hi hd => hd₂ i hi (hd₁ i hi hd)⟩
  | yield r =>
      cases hs
      obtain ⟨h₁, hk, hd, he⟩ := @inv_doSwitch σ _ bootStackTop r h
      exact ⟨h₁, hk, he, fun _ => hd⟩
  | sleep ms r =>
      cases hs
      obtain ⟨h₁, hk, he, hd⟩ := @inv_giveUp σ bootStackTop c.sched h
        { c.sched.current with state := .sleeping, sleepUntil := u64 (c.sched.tickCount + ms) } r
        ⟨rfl, rfl, rfl⟩ (by simp)
      refine ⟨h₁, hk, he, fun hhalt => hd fun hc => ?_⟩
      obtain ⟨r', hop⟩ := hhalt hc
      exact absurd hop (by simp)
  | exit r =>
      cases hs
      obtain ⟨h₁, hk, he, hd⟩ := @inv_giveUp σ bootStackTop c.sched h
        { c.sched.current with state := .dead } r ⟨rfl, rfl, rfl⟩ (by simp)
      exact ⟨h₁, hk, he, fun _ => hd fun _ => rfl⟩
  | create entry => exact absurd hm (by simp [makes])
  | createUser cr3Phys rip userRsp brkStart brkEnd => exact absurd hm (by simp [makes])
  | kill pid =>
      cases hs
      dsimp only
      unfold cmdKill
      -- the task is marked dead where it stands, if there is one
      rcases killFrom_cases c.sched pid c.sched.numTasks 0 with he | ⟨j, _, hj, _, he⟩
      · rw [he]
        exact ⟨h, .refl _, ⟨rfl, rfl, fun _ _ => ⟨rfl, rfl⟩⟩, fun _ _ _ hd => hd⟩
      · rw [he]
        obtain ⟨h₁, hkeep, hdead, hend⟩ := inv_mark h (j := j) (by omega)
        exact ⟨h₁, hkeep, hend, fun _ => hdead⟩

theorem tableInv_init (heap : Heap σ) (tick cr3 : Nat) : TableInv (schedInit heap tick cr3) where
  cur_lt := Nat.one_pos
  num_le := (by decide : 1 ≤ maxTasks)
  running i hi _ := by change i < 1 at hi; change i = 0; omega
  pid_lt i j hij hj := by change j < 1 at hj; omega
  issued i hi := by change i < 1 at hi; rw [show i = 0 by omega]; exact Nat.lt_succ_self 1

/-- Every step leaves a task of the table current. -/
theorem cur_lt_step {op : SchedOp} (h : c.sched.currentIdx < c.sched.numTasks)
    (hs : c.step pg bootStackTop fuel op = .done c') :
    c'.sched.currentIdx < c'.sched.numTasks := by
  have hswitch : ∀ (s : Sched σ) r, s.currentIdx < s.numTasks →
      (doSwitch bootStackTop s r).1.currentIdx < (doSwitch bootStackTop s r).1.numTasks := by
    intro s r hcur
    obtain ⟨hnum, _, _, hcase⟩ := doSwitch_cases hcur (rfl : (doSwitch bootStackTop s r).1 = _)
    rw [hnum]
    rcases hcase with ⟨hidx, _⟩ | ⟨hlt, _⟩
    · rw [hidx]; exact hcur
    · exact hlt
  have hadd : ∀ {t : Task} {build : ByteMem.Mem → Nat → ByteMem.Mem × Nat} {s' : Sched σ} {ret : Int},
      addTask pg fuel c.sched t build = .done (s', ret) → s'.currentIdx < s'.numTasks := by
    intro t build s' ret hk
    unfold addTask at hk
    split at hk
    · cases hk; exact h
    · obtain ⟨⟨heap, stack⟩, _, hk⟩ := Outcome.bind_eq_done hk
      dsimp only at hk
      split at hk
      · cases hk; exact h
      · cases hk; exact Nat.lt_succ_of_lt h
  cases op with
  | tick r => cases hs; exact hswitch _ r h
  | yield r => cases hs; exact hswitch _ r h
  | sleep ms r => cases hs; exact hswitch _ r h
  | exit r => cases hs; exact hswitch _ r h
  | create entry =>
      obtain ⟨⟨s', ret⟩, hk, hs⟩ := Outcome.bind_eq_done hs
      cases hs
      exact hadd hk
  | createUser cr3Phys rip userRsp brkStart brkEnd =>
      obtain ⟨⟨s', ret⟩, hk, hs⟩ := Outcome.bind_eq_done hs
      cases hs
      exact hadd hk
  | kill pid =>
      cases hs
      dsimp only
      unfold cmdKill
      rcases killFrom_cases c.sched pid c.sched.numTasks 0 with he | ⟨j, _, _, _, he⟩
      · rw [he]; exact h
      · rw [he]; exact h

theorem reach_cur_lt (h : Reach Starts (Steps pg bootStackTop) c) :
    c.sched.currentIdx < c.sched.numTasks := by
  refine h.invariant (P := fun c => c.sched.currentIdx < c.sched.numTasks) ?_ ?_
  · rintro c ⟨heap, tick, cr3, rfl⟩
    exact Nat.one_pos
  · rintro c c' hi ⟨op, fuel, hs⟩
    exact cur_lt_step hi hs

/-- Pids tell the tasks of the table apart. -/
theorem TableInv.pid_inj {s : Sched σ} (h : TableInv s) {i j : Nat} (hi : i < s.numTasks)
    (hj : j < s.numTasks) (hpid : (s.tasks i).pid = (s.tasks j).pid) : i = j := by
  rcases Nat.lt_trichotomy i j with hlt | heq | hgt
  · have := h.pid_lt i j hlt hj; omega
  · exact heq
  · have := h.pid_lt j i hgt hi; omega

/-- The search for a pid finds its slot. -/
theorem pidAliveFrom_eq {s : Sched σ} (h : TableInv s) : ∀ {n i k : Nat}, i ≤ k → k < i + n
    → i + n ≤ s.numTasks →
    pidAliveFrom s (s.tasks k).pid n i = decide ((s.tasks k).state ≠ .dead)
  | 0, i, k, h1, h2, _ => absurd h2 (by omega)
  | n + 1, i, k, h1, h2, h3 => by
      rw [pidAliveFrom]
      by_cases hik : i = k
      · rw [hik, if_pos rfl]
      · rw [if_neg fun hp => hik (h.pid_inj (by omega) (by omega) hp)]
        exact pidAliveFrom_eq h (by omega) (by omega) (by omega)

theorem schedPidAlive_eq {s : Sched σ} (h : TableInv s) {i : Nat} (hi : i < s.numTasks) :
    schedPidAlive s (s.tasks i).pid = decide ((s.tasks i).state ≠ .dead) :=
  pidAliveFrom_eq h (Nat.zero_le _) (by omega) (by omega)

end Steps

end SchedRun

end VnlKernel
