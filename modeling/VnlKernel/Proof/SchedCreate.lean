import VnlKernel.Kernel.TaskCreate
import VnlKernel.Proof.SchedTable

/-!
# Creations that the timer cuts

`task_create` and `task_create_user` look at `num_tasks` three times: to see whether there
is room, to find the slot they fill, and to count it. Nothing keeps a second creation out
in between. If the timer comes while the shell is filling a slot, and the task it goes to
calls `SYS_TASK_CREATE`, then both fill the same slot and both count it. The pid of the
first to be counted changes, and a slot of zeros joins the table, which says of itself
that it is running.

The runs below have every step of such a call. As long as a creation takes its slot only
when no other task is between taking one and counting it, the table keeps its invariant.
-/

namespace VnlKernel

open Bits Run Function SchedRun

variable {σ : Type}

/-- What a task is in the middle of. -/
inductive Doing where
  | make (new : NewTask) (m : Making)
  /-- `kill` has found the task in slot `j`. -/
  | mark (j : Nat)

/-- Has it a slot that it has not counted? -/
def Doing.holds : Doing → Bool
  | .make _ m => m.holds
  | .mark _ => false

/-- The scheduler, and the calls with interrupts on that have begun and not returned. -/
structure TaskRun (σ : Type) where
  sched : Sched σ
  doing : Nat → Option Doing

/-- What happens next. -/
inductive TaskAct where
  /-- An interrupt, or a system call, which is not interrupted. -/
  | whole (op : SchedOp)
  /-- The task that executes calls one of the two creating functions, with interrupts on. -/
  | create (new : NewTask)
  | kill (pid : Nat)
  /-- It goes on with its call. -/
  | go

namespace TaskRun

/-- What the current task is in the middle of changes. -/
def put (s : TaskRun σ) (d : Option Doing) : TaskRun σ :=
  { s with doing := update s.doing s.sched.currentIdx d }

/-- A call goes on, or it has returned. -/
def goesOn (new : NewTask) : Making ⊕ Int → Option Doing
  | .inl m => some (.make new m)
  | .inr _ => none

def step (pg : Pager σ) (bootStackTop fuel : Nat) (s : TaskRun σ) : TaskAct → Outcome (TaskRun σ)
  | .whole op => do
      let c ← SchedRun.step pg bootStackTop fuel ⟨s.sched, fun _ => none⟩ op
      return { s with sched := c.sched }
  | .create new => .done (s.put (goesOn new (Making.begin s.sched)))
  | .kill pid => .done (s.put ((killTarget s.sched pid).map .mark))
  | .go =>
      match s.doing s.sched.currentIdx with
      | none => .done s
      | some (.mark j) =>
          let t := s.sched.setTask j { s.sched.tasks j with state := .dead }
          .done ⟨t, update s.doing s.sched.currentIdx none⟩
      | some (.make new m) => do
          let (t, r) ← m.next pg fuel new s.sched
          return ⟨t, update s.doing s.sched.currentIdx (goesOn new r)⟩

/-- A task that is in the middle of a call goes on with it, unless the timer comes. -/
def Follows (s : TaskRun σ) : TaskAct → Prop
  | .whole (.tick _) | .go => True
  | _ => s.doing s.sched.currentIdx = none

/-- A dead task that still has the processor halts until the next tick. -/
def Halts (s : TaskRun σ) (act : TaskAct) : Prop :=
  s.sched.current.state = .dead → ∃ r, act = .whole (.tick r)

/-- Does this step find the slot that a creation fills? -/
def TakesSlot (pg : Pager σ) (fuel : Nat) (s : TaskRun σ) : TaskAct → Prop
  | .whole op => makes op = true ∧ s.sched.numTasks < maxTasks ∧ ∃ heap stack,
      kmalloc pg fuel s.sched.heap taskStackSz = .done (heap, stack) ∧ stack ≠ 0
  | .go => ∃ new stack, s.doing s.sched.currentIdx = some (.make new (.slot stack))
  | _ => False

/-- There is a slot, a pid, and no other task that will count one. -/
structure Alone (s : TaskRun σ) : Prop where
  room : s.sched.numTasks < maxTasks
  pids : s.sched.nextPid + 1 < 2 ^ 32
  sole : ∀ i d, i ≠ s.sched.currentIdx → s.doing i = some d → d.holds = true →
    (s.sched.tasks i).state = .dead

def Starts (s : TaskRun σ) : Prop :=
  ∃ heap tick cr3, s = ⟨schedInit heap tick cr3, fun _ => none⟩

/-- Steps of tasks that do no more than halt once they have called `task_exit`. -/
def LiveSteps (pg : Pager σ) (bootStackTop : Nat) (s s' : TaskRun σ) : Prop :=
  ∃ act fuel, Follows s act ∧ Halts s act ∧ s.step pg bootStackTop fuel act = .done s'

/-- Those of them in which creations do not meet. -/
def AloneSteps (pg : Pager σ) (bootStackTop : Nat) (s s' : TaskRun σ) : Prop :=
  ∃ act fuel, Follows s act ∧ Halts s act ∧ (TakesSlot pg fuel s act → Alone s)
    ∧ s.step pg bootStackTop fuel act = .done s'

end TaskRun

/-! ## In one go -/

/-- What `task_create` and `task_create_user` begin a task as. -/
def NewTask.task (new : NewTask) (s : Sched σ) : Task :=
  match new with
  | .kernel _ => { Task.zero with cr3Phys := (s.tasks 0).cr3Phys }
  | .user cr3Phys _ _ brkStart brkEnd =>
      { Task.zero with
        cr3Phys := cr3Phys, brkStart := brkStart, brkEnd := brkEnd, mmapNext := mmapStart }

/-- The scheduler while the slot behind the last task is being filled. -/
def filling (s : Sched σ) (heap : Heap σ) (nextPid : Nat) (t : Task) : Sched σ :=
  { s.setTask s.numTasks t with heap := heap, nextPid := nextPid }

section Filling

variable {s : Sched σ} {heap : Heap σ} {np : Nat} {t : Task}

@[simp] theorem filling_self : (filling s heap np t).tasks s.numTasks = t := setTask_self

theorem filling_zero (h : 0 < s.numTasks) : (filling s heap np t).tasks 0 = s.tasks 0 :=
  setTask_ne (by omega)

@[simp] theorem filling_setTask (t' : Task) :
    (filling s heap np t).setTask s.numTasks t' = filling s heap np t' := by
  unfold filling Sched.setTask
  congr 1
  funext j
  dsimp only
  split
  · rfl
  · rfl

end Filling

/-- **Nothing interrupts it**: then the steps are `addTask`. -/
theorem making_finish {pg : Pager σ} {fuel : Nat} {s : Sched σ} (hs : 0 < s.numTasks)
    (new : NewTask) :
    Making.finish pg fuel new 16 s (Making.begin s) = addTask pg fuel s (new.task s) new.frame := by
  unfold Making.begin addTask
  split
  · rfl
  · unfold Making.finish
    unfold Making.next
    cases hk : kmalloc pg fuel s.heap taskStackSz with
    | panic msg => rfl
    | timeout => rfl
    | done x =>
        obtain ⟨heap, stack⟩ := x
        simp only [Outcome.bind_done, Outcome.pure_eq]
        by_cases h0 : stack = 0
        · rw [if_pos h0, if_pos h0]
          rfl
        · rw [if_neg h0, if_neg h0]
          have hbase : ({ s with heap := heap } : Sched σ).setTask s.numTasks
              { s.tasks s.numTasks with stackBase := stack }
                = filling s heap s.nextPid { s.tasks s.numTasks with stackBase := stack } := rfl
          have hpid : ∀ t v, { filling s heap s.nextPid t with nextPid := v }
              = filling s heap v t :=
            fun _ _ => rfl
          have hmem : ∀ t v h, { filling s heap v t with heap := h } = filling s h v t :=
            fun _ _ _ => rfl
          simp only [Making.finish, Making.next, NewTask.store, Outcome.bind_done, hbase, hpid,
            filling_self, filling_setTask, filling_zero hs, hmem, Nat.reduceLT, Nat.reduceAdd,
            reduceIte]
          cases new with
          | kernel entry => rfl
          | user cr3Phys rip userRsp brkStart brkEnd => rfl

theorem killFrom_eq (s : Sched σ) (pid : Nat) : ∀ n i, killFrom s pid n i
    = match (Scan.first (fun i => (s.tasks i).pid = pid) n i).filter (· ≠ s.currentIdx) with
      | none => s
      | some j => s.setTask j { s.tasks j with state := .dead }
  | 0, _ => rfl
  | n + 1, i => by
      rw [killFrom, Scan.first]
      by_cases hp : (s.tasks i).pid = pid
      · rw [if_pos hp, if_pos (decide_eq_true hp)]
        by_cases hi : i = s.currentIdx
        · simp [Option.filter, hi]
        · simp [Option.filter, hi]
      · rw [if_neg hp, if_neg (by simpa using hp)]
        exact killFrom_eq s pid n (i + 1)

/-- **The two steps of `kill` in a row.** -/
theorem cmdKill_eq (s : Sched σ) (pid : Nat) : cmdKill s pid = match killTarget s pid with
    | none => s
    | some j => s.setTask j { s.tasks j with state := .dead } :=
  killFrom_eq s pid s.numTasks 0

theorem killTarget_some {s : Sched σ} {pid j : Nat} (h : killTarget s pid = some j) :
    j < s.numTasks ∧ j ≠ s.currentIdx := by
  unfold killTarget at h
  rw [Option.filter_eq_some_iff] at h
  obtain ⟨_, _, hlt, _⟩ := Scan.first_some h.1
  exact ⟨by omega, by simpa using h.2⟩

/-! ## The invariant -/

/-- The slot that a creation fills is the one behind the last task. -/
def LastSlot (s : Sched σ) (k : Nat) : Prop := k = s.numTasks ∧ k < maxTasks

/-- A pid that no task of the table has, and none will be given. -/
def NewPid (s : Sched σ) (v : Nat) : Prop :=
  v < s.nextPid ∧ ∀ i, i < s.numTasks → (s.tasks i).pid < v

/-- What a creation has read is still so, and what it has stored is still there. -/
def Making.Ok (s : Sched σ) : Making → Prop
  | .alloc | .slot _ => True
  | .stackBase _ k | .loadPid _ k => LastSlot s k ∧ s.nextPid + 1 < 2 ^ 32
  | .bumpPid _ k v => LastSlot s k ∧ s.nextPid + 1 < 2 ^ 32 ∧ v = s.nextPid
  | .pid _ k v => LastSlot s k ∧ NewPid s v
  | .state _ k => LastSlot s k ∧ NewPid s (s.tasks k).pid
  | .fields _ k _ | .rsp _ k | .result k | .loadNum k _ =>
      LastSlot s k ∧ NewPid s (s.tasks k).pid ∧ (s.tasks k).state = .ready
  | .bumpNum k _ v => (LastSlot s k ∧ NewPid s (s.tasks k).pid ∧ (s.tasks k).state = .ready) ∧ v = k

def Doing.Ok (s : Sched σ) (i : Nat) : Doing → Prop
  | .make _ m => m.Ok s
  | .mark j => j < s.numTasks ∧ j ≠ i

namespace TaskRun

/-- No task but `me` that is still alive has a slot to count. -/
def Sole (s : TaskRun σ) (me : Nat) : Prop :=
  ∀ i d, i ≠ me → s.doing i = some d → d.holds = true → (s.sched.tasks i).state = .dead

/-- **Of those that will go on, one holds a slot at most, and it is the one behind the last task.**
-/
structure MakeInv (s : TaskRun σ) : Prop where
  table : TableInv s.sched
  inTable : ∀ i d, s.doing i = some d → i < s.sched.numTasks
  ok : ∀ i d, s.doing i = some d → (s.sched.tasks i).state ≠ .dead → d.Ok s.sched i
  sole : ∀ i d, s.doing i = some d → d.holds = true → (s.sched.tasks i).state ≠ .dead → Sole s i

end TaskRun

section Frame

variable {s t : Sched σ} {i k v : Nat} {m : Making} {d : Doing}

theorem LastSlot.same (h : LastSlot s k) (he : SameEnd s t) : LastSlot t k :=
  ⟨h.1.trans he.num.symm, h.2⟩

theorem NewPid.same (h : NewPid s v) (hk : Keeps s t) (he : SameEnd s t) : NewPid t v := by
  refine ⟨by rw [he.nextPid]; exact h.1, fun i hi => ?_⟩
  rw [he.num] at hi
  rw [(hk.same i hi).pid]
  exact h.2 i hi

/-- What stands in the slot is what stood there. -/
theorem LastSlot.slot (h : LastSlot s k) (he : SameEnd s t) :
    (t.tasks k).pid = (s.tasks k).pid ∧ (t.tasks k).state = (s.tasks k).state :=
  he.beyond k (by rw [h.1])

/-- A step of others that leaves the end of the table alone. -/
theorem Making.Ok.same (h : m.Ok s) (hk : Keeps s t) (he : SameEnd s t) : m.Ok t := by
  cases m with
  | alloc => trivial
  | slot stack => trivial
  | stackBase stack k => exact ⟨h.1.same he, by rw [he.nextPid]; exact h.2⟩
  | loadPid stack k => exact ⟨h.1.same he, by rw [he.nextPid]; exact h.2⟩
  | bumpPid stack k v => exact ⟨h.1.same he, by rw [he.nextPid]; exact h.2⟩
  | pid stack k v => exact ⟨h.1.same he, h.2.same hk he⟩
  | state stack k => exact ⟨h.1.same he, by rw [(h.1.slot he).1]; exact h.2.same hk he⟩
  | fields stack k m =>
      exact ⟨h.1.same he, by rw [(h.1.slot he).1]; exact h.2.1.same hk he,
        (h.1.slot he).2.trans h.2.2⟩
  | rsp stack k =>
      exact ⟨h.1.same he, by rw [(h.1.slot he).1]; exact h.2.1.same hk he,
        (h.1.slot he).2.trans h.2.2⟩
  | result k =>
      exact ⟨h.1.same he, by rw [(h.1.slot he).1]; exact h.2.1.same hk he,
        (h.1.slot he).2.trans h.2.2⟩
  | loadNum k p =>
      exact ⟨h.1.same he, by rw [(h.1.slot he).1]; exact h.2.1.same hk he,
        (h.1.slot he).2.trans h.2.2⟩
  | bumpNum k p v =>
      obtain ⟨h, hv⟩ := h
      exact ⟨⟨h.1.same he, by rw [(h.1.slot he).1]; exact h.2.1.same hk he,
        (h.1.slot he).2.trans h.2.2⟩, hv⟩

theorem Doing.Ok.same (h : d.Ok s i) (hk : Keeps s t) (he : SameEnd s t) : d.Ok t i := by
  cases d with
  | make new m => exact Making.Ok.same h hk he
  | mark j => exact ⟨by rw [he.num]; exact h.1, h.2⟩

/-- Who holds no slot minds nothing but a table that gets smaller. -/
theorem Doing.Ok.free (h : d.Ok s i) (hd : d.holds = false) (hk : Keeps s t) : d.Ok t i := by
  cases d with
  | mark j => exact ⟨h.1.trans_le hk.num, h.2⟩
  | make new m =>
      cases m with
      | alloc => trivial
      | slot stack => trivial
      | _ => exact absurd hd (by simp [Doing.holds, Making.holds])

end Frame

namespace TaskRun

variable {s s' : TaskRun σ} {pg : Pager σ} {bootStackTop fuel : Nat}

/-- **What keeps the invariant**: the end of the table is left alone, or nobody else minds it; and
whoever has a slot now is alone with it. -/
theorem MakeInv.next (h : MakeInv s) {t : Sched σ} {me : Nat} {d : Option Doing}
    (hme : me < s.sched.numTasks) (ht : TableInv t) (hk : Keeps s.sched t)
    (hd : StaysDead s.sched t) (hend : SameEnd s.sched t ∨ Sole s me)
    (hown : ∀ x, d = some x → (t.tasks me).state ≠ .dead →
      x.Ok t me ∧ (x.holds = true → Sole s me)) :
    MakeInv ⟨t, update s.doing me d⟩ := by
  -- who is alive now was alive before
  have hlive : ∀ i, i < s.sched.numTasks → (t.tasks i).state ≠ .dead →
      (s.sched.tasks i).state ≠ .dead := fun i hi hn hc => hn (hd i hi hc)
  refine ⟨ht, ?_, ?_, ?_⟩
  · intro i x hx
    change update s.doing me d i = some x at hx
    by_cases hi : i = me
    · rw [hi]; exact hme.trans_le hk.num
    · rw [update_of_ne hi] at hx
      exact (h.inTable i x hx).trans_le hk.num
  · intro i x hx hn
    change update s.doing me d i = some x at hx
    by_cases hi : i = me
    · subst hi
      rw [update_self] at hx
      exact (hown x hx hn).1
    · rw [update_of_ne hi] at hx
      have hn' := hlive i (h.inTable i x hx) hn
      rcases hend with hend | hsole
      · exact (h.ok i x hx hn').same hk hend
      · refine (h.ok i x hx hn').free ?_ hk
        cases hx' : x.holds with
        | false => rfl
        | true => exact absurd (hsole i x hi hx hx') hn'
  · intro i x hx hxh hn j y hj hy hyh
    change update s.doing me d i = some x at hx
    change update s.doing me d j = some y at hy
    by_contra hyn
    by_cases hi : i = me
    · subst hi
      rw [update_self] at hx
      rw [update_of_ne hj] at hy
      have hsole := (hown x hx hn).2 hxh j y hj hy hyh
      exact hyn (hd j (h.inTable j y hy) hsole)
    · rw [update_of_ne hi] at hx
      have hxn := hlive i (h.inTable i x hx) hn
      by_cases hjm : j = me
      · subst hjm
        rw [update_self] at hy
        exact hxn ((hown y hy hyn).2 hyh i x hi hx hxh)
      · rw [update_of_ne hjm] at hy
        exact hlive j (h.inTable j y hy) hyn (h.sole i x hx hxh hxn j y hj hy hyh)

/-- One that goes on with nothing new to say of its call. -/
theorem MakeInv.others (h : MakeInv s) {t : Sched σ} (ht : TableInv t) (hk : Keeps s.sched t)
    (hd : StaysDead s.sched t) (hend : SameEnd s.sched t) : MakeInv { s with sched := t } := by
  have hcur := h.table.cur_lt
  have hn := h.next (d := s.doing s.sched.currentIdx) hcur ht hk hd (Or.inl hend) (by
    intro x hx hn
    have hl := fun hc => hn (hd _ hcur hc)
    exact ⟨(h.ok _ x hx hl).same hk hend, fun hxh => h.sole _ x hx hxh hl⟩)
  rwa [update_eq_self] at hn

end TaskRun

/-! ## One step -/

section Step

variable {s t : Sched σ} {pg : Pager σ} {fuel : Nat}

/-- A store behind the last task. -/
theorem store_behind (h : TableInv s) (hcur : t.currentIdx = s.currentIdx)
    (hnum : t.numTasks = s.numTasks) (hnext : s.nextPid ≤ t.nextPid)
    (hs : ∀ i, i < s.numTasks → t.tasks i = s.tasks i) :
    TableInv t ∧ Keeps s t ∧ StaysDead s t :=
  ⟨h.behind hcur hnum hnext hs, ⟨Nat.le_of_eq hnum.symm,
    fun i hi => by rw [hs i hi]; exact .refl _⟩, fun i hi hd => by rw [hs i hi]; exact hd⟩

theorem setTask_behind {k : Nat} {x : Task} (hk : LastSlot s k) {i : Nat} (hi : i < s.numTasks) :
    (s.setTask k x).tasks i = s.tasks i := setTask_ne (by have := hk.1; omega)

/-- Whatever is stored into the slot. -/
theorem store_slot (h : TableInv s) {k : Nat} (hk : LastSlot s k) (x : Task) (heap : Heap σ) :
    TableInv { s.setTask k x with heap := heap } ∧ Keeps s { s.setTask k x with heap := heap }
      ∧ StaysDead s { s.setTask k x with heap := heap } :=
  store_behind h rfl rfl (Nat.le_refl _) fun _ hi => setTask_behind hk hi

theorem NewPid.setTask {k v : Nat} {x : Task} (hk : LastSlot s k) (h : NewPid s v) :
    NewPid (s.setTask k x) v :=
  ⟨h.1, fun i hi => by rw [setTask_behind hk hi]; exact h.2 i hi⟩

/-- The slot is stored to once its pid is there and it is ready. -/
theorem filled_setTask {k : Nat} {x : Task} (hk : LastSlot s k) (hp : NewPid s x.pid)
    (hst : x.state = .ready) :
    LastSlot (s.setTask k x) k ∧ NewPid (s.setTask k x) ((s.setTask k x).tasks k).pid
      ∧ ((s.setTask k x).tasks k).state = .ready := by
  rw [setTask_self]
  exact ⟨hk, hp.setTask hk, hst⟩

theorem NewTask.store_same (new : NewTask) (s : Sched σ) (x : Task) (m : Nat) :
    (new.store s x m).pid = x.pid ∧ (new.store s x m).state = x.state := by
  unfold NewTask.store
  split
  · exact ⟨rfl, rfl⟩
  · exact ⟨rfl, rfl⟩
  · exact ⟨rfl, rfl⟩
  · exact ⟨rfl, rfl⟩
  · exact ⟨rfl, rfl⟩

/-- **One step of a creation.** -/
theorem making_next {new : NewTask} {m : Making} {r : Making ⊕ Int} (h : TableInv s) (hm : m.Ok s)
    (hslot : ∀ stack, m = .slot stack → s.numTasks < maxTasks ∧ s.nextPid + 1 < 2 ^ 32)
    (hs : m.next pg fuel new s = .done (t, r)) :
    TableInv t ∧ Keeps s t ∧ StaysDead s t ∧ (SameEnd s t ∨ m.holds = true)
      ∧ ∀ m', r = .inl m' → m'.Ok t ∧ (m'.holds = true → m.holds = true ∨ ∃ stack,
        m = .slot stack) := by
  cases m with
  | alloc =>
      obtain ⟨⟨heap, stack⟩, _, hs⟩ := Outcome.bind_eq_done hs
      cases hs
      obtain ⟨h1, h2, h3⟩ := store_behind (t := { s with heap := heap }) h rfl rfl (Nat.le_refl _)
        fun _ _ => rfl
      refine ⟨h1, h2, h3, Or.inl ⟨rfl, rfl, fun _ _ => ⟨rfl, rfl⟩⟩, fun m' hm' => ?_⟩
      split at hm'
      · exact absurd hm' (by simp)
      · cases hm'
        exact ⟨trivial, fun hc => absurd hc Bool.false_ne_true⟩
  | slot stack =>
      cases hs
      obtain ⟨hroom, hpids⟩ := hslot stack rfl
      refine ⟨h, .refl _, fun _ _ hd => hd, Or.inl ⟨rfl, rfl, fun _ _ => ⟨rfl, rfl⟩⟩,
        fun m' hm' => ?_⟩
      cases hm'
      exact ⟨⟨⟨rfl, hroom⟩, hpids⟩, fun _ => Or.inr ⟨stack, rfl⟩⟩
  | stackBase stack k =>
      cases hs
      obtain ⟨h1, h2, h3⟩ := store_slot h hm.1 _ s.heap
      refine ⟨h1, h2, h3, Or.inr rfl, fun m' hm' => ?_⟩
      cases hm'
      exact ⟨⟨hm.1, hm.2⟩, fun _ => Or.inl rfl⟩
  | loadPid stack k =>
      cases hs
      refine ⟨h, .refl _, fun _ _ hd => hd, Or.inr rfl, fun m' hm' => ?_⟩
      cases hm'
      exact ⟨⟨hm.1, hm.2, rfl⟩, fun _ => Or.inl rfl⟩
  | bumpPid stack k v =>
      cases hs
      obtain ⟨hk, hpids, rfl⟩ := hm
      have hu : u32 (s.nextPid + 1) = s.nextPid + 1 := Nat.mod_eq_of_lt hpids
      rw [hu]
      obtain ⟨h1, h2, h3⟩ := store_behind (t := { s with nextPid := s.nextPid + 1 }) h rfl rfl
        (Nat.le_succ _) fun _ _ => rfl
      refine ⟨h1, h2, h3, Or.inr rfl, fun m' hm' => ?_⟩
      cases hm'
      exact ⟨⟨hk, Nat.lt_succ_self _, h.issued⟩, fun _ => Or.inl rfl⟩
  | pid stack k v =>
      cases hs
      obtain ⟨h1, h2, h3⟩ := store_slot h hm.1 _ s.heap
      refine ⟨h1, h2, h3, Or.inr rfl, fun m' hm' => ?_⟩
      cases hm'
      refine ⟨⟨hm.1, ?_⟩, fun _ => Or.inl rfl⟩
      rw [setTask_self]
      exact hm.2.setTask hm.1
  | state stack k =>
      cases hs
      obtain ⟨h1, h2, h3⟩ := store_slot h hm.1 _ s.heap
      refine ⟨h1, h2, h3, Or.inr rfl, fun m' hm' => ?_⟩
      cases hm'
      exact ⟨filled_setTask hm.1 hm.2 rfl, fun _ => Or.inl rfl⟩
  | fields stack k j =>
      cases hs
      obtain ⟨h1, h2, h3⟩ := store_slot h hm.1 _ s.heap
      obtain ⟨hp, hst⟩ := new.store_same s (s.tasks k) j
      have hfill := filled_setTask hm.1 (by rw [hp]; exact hm.2.1) (hst.trans hm.2.2)
      refine ⟨h1, h2, h3, Or.inr rfl, fun m' hm' => ?_⟩
      split at hm'
      · cases hm'; exact ⟨hfill, fun _ => Or.inl rfl⟩
      · cases hm'; exact ⟨hfill, fun _ => Or.inl rfl⟩
  | rsp stack k =>
      cases hs
      obtain ⟨h1, h2, h3⟩ := store_slot h hm.1 _ _
      refine ⟨h1, h2, h3, Or.inr rfl, fun m' hm' => ?_⟩
      cases hm'
      exact ⟨filled_setTask (x := { s.tasks k with rsp := _ }) hm.1 hm.2.1 hm.2.2,
        fun _ => Or.inl rfl⟩
  | result k =>
      cases hs
      refine ⟨h, .refl _, fun _ _ hd => hd, Or.inr rfl, fun m' hm' => ?_⟩
      cases hm'
      exact ⟨hm, fun _ => Or.inl rfl⟩
  | loadNum k p =>
      cases hs
      refine ⟨h, .refl _, fun _ _ hd => hd, Or.inr rfl, fun m' hm' => ?_⟩
      cases hm'
      exact ⟨⟨hm, hm.1.1.symm⟩, fun _ => Or.inl rfl⟩
  | bumpNum k p v =>
      cases hs
      obtain ⟨⟨⟨rfl, hroom⟩, ⟨hnew, hpid⟩, hst⟩, rfl⟩ := hm
      refine ⟨inv_count h hroom (by rw [hst]; decide) hpid hnew,
        ⟨Nat.le_succ _, fun _ _ => .refl _⟩, fun _ _ hd => hd, Or.inr rfl, fun m' hm' => ?_⟩
      exact absurd hm' (by simp)

end Step

namespace TaskRun

variable {s s' : TaskRun σ} {pg : Pager σ} {bootStackTop fuel : Nat}

/-- The two system calls that make a task. -/
theorem step_makes {c c' : SchedRun σ} {op : SchedOp} (hm : makes op = true)
    (hs : c.step pg bootStackTop fuel op = .done c') :
    ∃ t build ret, addTask pg fuel c.sched t build = .done (c'.sched, ret) := by
  cases op with
  | create entry =>
      obtain ⟨⟨s', ret⟩, hk, hs⟩ := Outcome.bind_eq_done hs
      cases hs
      exact ⟨_, _, ret, hk⟩
  | createUser cr3Phys rip userRsp brkStart brkEnd =>
      obtain ⟨⟨s', ret⟩, hk, hs⟩ := Outcome.bind_eq_done hs
      cases hs
      exact ⟨_, _, ret, hk⟩
  | _ => exact absurd hm Bool.false_ne_true

/-- Nothing is interrupted. -/
theorem makeInv_whole {op : SchedOp} {c : SchedRun σ} (h : MakeInv s)
    (hf : Follows s (.whole op)) (hh : Halts s (.whole op))
    (ha : TakesSlot pg fuel s (.whole op) → Alone s)
    (hs : SchedRun.step pg bootStackTop fuel ⟨s.sched, fun _ => none⟩ op = .done c) :
    MakeInv { s with sched := c.sched } ∧ Keeps s.sched c.sched ∧ StaysDead s.sched c.sched := by
  have hhalt : SchedRun.Halts s.sched op := by
    intro hd
    obtain ⟨r, hr⟩ := hh hd
    cases hr
    exact ⟨r, rfl⟩
  cases hm : makes op with
  | false =>
      obtain ⟨h1, h2, h3, h4⟩ := table_step h.table hm hs
      exact ⟨h.others h1 h2 (h4 hhalt) h3, h2, h4 hhalt⟩
  | true =>
      -- the task that calls is not in the middle of another call
      have hnone : s.doing s.sched.currentIdx = none := by
        cases op with
        | tick r => exact absurd hm Bool.false_ne_true
        | _ => exact hf
      obtain ⟨t, build, ret, hadd⟩ := step_makes hm hs
      by_cases htake : TakesSlot pg fuel s (.whole op)
      · have halone := ha htake
        obtain ⟨h1, h2, h3⟩ := inv_join h.table halone.pids hadd
        have hn := h.next (d := none) h.table.cur_lt h1 h2 h3 (Or.inr halone.sole)
          (fun x hx => absurd hx (by simp))
        rw [← hnone, update_eq_self] at hn
        exact ⟨hn, h2, h3⟩
      · obtain ⟨heap, he⟩ := addTask_none hadd fun hroom heap stack hk => by
          by_contra h0
          exact htake ⟨hm, hroom, heap, stack, hk, h0⟩
        rw [he]
        obtain ⟨h1, h2, h3⟩ := store_behind (t := { s.sched with heap := heap }) h.table rfl rfl
          (Nat.le_refl _) fun _ _ => rfl
        exact ⟨h.others h1 h2 h3 ⟨rfl, rfl, fun _ _ => ⟨rfl, rfl⟩⟩, h2, h3⟩

/-- The current task begins a call, and the table stays. -/
theorem MakeInv.begins (h : MakeInv s) {d : Option Doing}
    (hd : ∀ x, d = some x → x.Ok s.sched s.sched.currentIdx ∧ x.holds = false) :
    MakeInv (s.put d) :=
  h.next h.table.cur_lt h.table (.refl _) (fun _ _ hdead => hdead)
    (Or.inl ⟨rfl, rfl, fun _ _ => ⟨rfl, rfl⟩⟩) fun x hx _ => by
      obtain ⟨h1, h2⟩ := hd x hx
      exact ⟨h1, fun hc => absurd (h2.symm.trans hc) Bool.false_ne_true⟩

/-- **Every step in which creations do not meet keeps the invariant.** -/
theorem makeInv_step {act : TaskAct} (h : MakeInv s) (hf : Follows s act) (hh : Halts s act)
    (ha : TakesSlot pg fuel s act → Alone s) (hs : s.step pg bootStackTop fuel act = .done s') :
    MakeInv s' ∧ Keeps s.sched s'.sched ∧ StaysDead s.sched s'.sched := by
  cases act with
  | whole op =>
      obtain ⟨c, hc, hs⟩ := Outcome.bind_eq_done hs
      cases hs
      exact makeInv_whole h hf hh ha hc
  | create new =>
      cases hs
      refine ⟨h.begins fun x hx => ?_, .refl _, fun _ _ hd => hd⟩
      unfold Making.begin at hx
      split at hx
      · exact absurd hx (by simp [goesOn])
      · cases hx
        exact ⟨trivial, rfl⟩
  | kill pid =>
      cases hs
      refine ⟨h.begins fun x hx => ?_, .refl _, fun _ _ hd => hd⟩
      obtain ⟨j, hj, rfl⟩ := Option.map_eq_some_iff.mp hx
      exact ⟨killTarget_some hj, rfl⟩
  | go =>
      rw [step] at hs
      -- a task that goes on is not dead
      have hlive : s.sched.current.state ≠ .dead := by
        intro hd
        obtain ⟨r, hr⟩ := hh hd
        exact absurd hr (by simp)
      split at hs
      · cases hs
        exact ⟨h, .refl _, fun _ _ hd => hd⟩
      · next j hj =>
        cases hs
        obtain ⟨hlt, _⟩ := h.ok _ _ hj hlive
        obtain ⟨h1, h2, h3, h4⟩ := inv_mark h.table hlt
        exact ⟨h.next h.table.cur_lt h1 h2 h3 (Or.inl h4) fun x hx => absurd hx (by simp), h2, h3⟩
      · next new m hm =>
        obtain ⟨⟨t, r⟩, hnext, hs⟩ := Outcome.bind_eq_done hs
        cases hs
        have hslot : ∀ stack, m = .slot stack → Alone s := by
          rintro stack rfl
          exact ha ⟨new, stack, hm⟩
        obtain ⟨h1, h2, h3, h4, h5⟩ := making_next h.table (h.ok _ _ hm hlive)
          (fun stack he => ⟨(hslot stack he).room, (hslot stack he).pids⟩) hnext
        have hsole : m.holds = true → Sole s s.sched.currentIdx :=
          fun hc => h.sole _ _ hm hc hlive
        refine ⟨h.next h.table.cur_lt h1 h2 h3 (h4.imp id hsole) fun x hx _ => ?_, h2, h3⟩
        cases r with
        | inr v => exact absurd hx (by simp [goesOn])
        | inl m' =>
            cases hx
            obtain ⟨h6, h7⟩ := h5 m' rfl
            refine ⟨h6, fun hc => ?_⟩
            rcases h7 hc with hold | ⟨stack, he⟩
            · exact hsole hold
            · exact (hslot stack he).sole

theorem makeInv_start (h : s.Starts) : MakeInv s := by
  obtain ⟨heap, tick, cr3, rfl⟩ := h
  exact ⟨tableInv_init heap tick cr3, fun i d hd => absurd hd (by simp),
    fun i d hd => absurd hd (by simp), fun i d hd => absurd hd (by simp)⟩

theorem reach_makeInv (h : Reach Starts (AloneSteps pg bootStackTop) s) : MakeInv s := by
  refine h.invariant (P := MakeInv) (fun _ => makeInv_start) ?_
  rintro s s' hi ⟨act, fuel, hf, hh, ha, hs⟩
  exact (makeInv_step hi hf hh ha hs).1

/-- What later states keep. -/
theorem alone_keeps (h : MakeInv s)
    (hr : Relation.ReflTransGen (AloneSteps pg bootStackTop) s s') :
    MakeInv s' ∧ Keeps s.sched s'.sched ∧ StaysDead s.sched s'.sched := by
  induction hr with
  | refl => exact ⟨h, .refl _, fun _ _ hd => hd⟩
  | tail _ hstep ih =>
      obtain ⟨hi, hk, hd⟩ := ih
      obtain ⟨act, fuel, hf, hh, ha, hs⟩ := hstep
      obtain ⟨hi', hk', hd'⟩ := makeInv_step hi hf hh ha hs
      exact ⟨hi', hk.trans hk', hd.trans hk hd'⟩

/-! ## Runs -/

/-- May the task that executes do this, as far as it is alive and where it is in its call? -/
def obeys (s : TaskRun σ) : TaskAct → Bool
  | .whole (.tick _) => true
  | .go => s.sched.current.state ≠ .dead
  | _ => (s.doing s.sched.currentIdx).isNone && s.sched.current.state ≠ .dead

/-- Nobody else is in the middle of anything, or only the timer comes. -/
def quiet (s : TaskRun σ) : TaskAct → Bool
  | .whole (.tick _) => true
  | _ => s.sched.numTasks < maxTasks && s.sched.nextPid + 1 < 2 ^ 32
      && (List.range maxTasks).all fun i => i = s.sched.currentIdx || (s.doing i).isNone

/-- Steps in a row, each of which is checked first. -/
def run (pg : Pager σ) (bootStackTop fuel : Nat) (ok : TaskRun σ → TaskAct → Bool) :
    TaskRun σ → List TaskAct → Outcome (TaskRun σ)
  | s, [] => .done s
  | s, act :: acts =>
      if ok s act then do
        let s ← s.step pg bootStackTop fuel act
        run pg bootStackTop fuel ok s acts
      else .timeout

theorem run_steps {ok : TaskRun σ → TaskAct → Bool} {R : TaskRun σ → TaskRun σ → Prop}
    {P : TaskRun σ → Prop} (hP : ∀ s s', P s → R s s' → P s')
    (hok : ∀ s act s', P s → ok s act = true → s.step pg bootStackTop fuel act = .done s'
      → R s s') :
    ∀ {acts : List TaskAct} {s s' : TaskRun σ}, P s →
      run pg bootStackTop fuel ok s acts = .done s' → Relation.ReflTransGen R s s'
  | [], s, s', _, h => by
      cases h
      exact .refl
  | act :: acts, s, s', hp, h => by
      rw [run] at h
      split at h
      · next ha =>
        obtain ⟨s₁, hs, h⟩ := Outcome.bind_eq_done h
        have hr := hok s act s₁ hp ha hs
        exact .head hr (run_steps hP hok (hP s s₁ hp hr) h)
      · exact absurd h (by simp)

theorem obeys_follows {act : TaskAct} (h : obeys s act = true) : Follows s act ∧ Halts s act := by
  have hlive : ∀ {p : Bool}, (p && decide (s.sched.current.state ≠ .dead)) = true
      → Halts s act := by
    intro p hp hd
    exact absurd hd (by simpa using (Bool.and_eq_true_iff.mp hp).2)
  cases act with
  | go => exact ⟨trivial, hlive (p := true) (by simpa [obeys] using h)⟩
  | whole op =>
      cases op with
      | tick r => exact ⟨trivial, fun _ => ⟨r, rfl⟩⟩
      | _ => exact ⟨Option.isNone_iff_eq_none.mp (Bool.and_eq_true_iff.mp h).1, hlive h⟩
  | _ => exact ⟨Option.isNone_iff_eq_none.mp (Bool.and_eq_true_iff.mp h).1, hlive h⟩

theorem run_live {acts : List TaskAct} (h : run pg bootStackTop fuel obeys s acts = .done s') :
    Relation.ReflTransGen (LiveSteps pg bootStackTop) s s' :=
  run_steps (P := fun _ => True) (fun _ _ _ _ => trivial)
    (fun _ act _ _ ho hs => ⟨act, fuel, (obeys_follows ho).1, (obeys_follows ho).2, hs⟩) trivial h

theorem run_alone {acts : List TaskAct} (hr : Reach Starts (AloneSteps pg bootStackTop) s)
    (h : run pg bootStackTop fuel (fun s act => obeys s act && quiet s act) s acts = .done s') :
    Relation.ReflTransGen (AloneSteps pg bootStackTop) s s' := by
  refine run_steps (P := Reach Starts (AloneSteps pg bootStackTop)) (fun _ _ hp hs => .next hp hs)
    ?_ hr h
  intro s act s' hp hok hs
  obtain ⟨ho, hq⟩ := Bool.and_eq_true_iff.mp hok
  refine ⟨act, fuel, (obeys_follows ho).1, (obeys_follows ho).2, fun htake => ?_, hs⟩
  have hinv := reach_makeInv hp
  have hq : s.sched.numTasks < maxTasks ∧ s.sched.nextPid + 1 < 2 ^ 32
      ∧ ∀ i, i < maxTasks → i = s.sched.currentIdx ∨ s.doing i = none := by
    cases act with
    | whole op =>
        cases op with
        | tick r => exact absurd htake.1 Bool.false_ne_true
        | _ => simpa [quiet, and_assoc] using hq
    | _ => simpa [quiet, and_assoc] using hq
  refine ⟨hq.1, hq.2.1, fun i d hi hd _ => ?_⟩
  have hlt := (hinv.inTable i d hd).trans_le hinv.table.num_le
  rcases hq.2.2 i hlt with hc | hc
  · exact absurd hc hi
  · rw [hc] at hd; exact absurd hd (by simp)

theorem reach_trans {R : TaskRun σ → TaskRun σ → Prop} (h : Reach Starts R s)
    (hs : Relation.ReflTransGen R s s') : Reach Starts R s' := by
  induction hs with
  | refl => exact h
  | tail _ hstep ih => exact .next ih hstep

/-- **The table's invariant**, and what it keeps from any state on: the tasks there are, whose pids
nobody else gets, and who is dead. No two creations meet. -/
theorem table_invariant {pg : Pager σ} {bootStackTop : Nat} {s : TaskRun σ}
    (h : Reach Starts (AloneSteps pg bootStackTop) s) :
    (∀ i, i < s.sched.numTasks → (s.sched.tasks i).state = .running → i = s.sched.currentIdx)
      ∧ s.sched.currentIdx < s.sched.numTasks ∧ s.sched.numTasks ≤ 16
      ∧ (∀ i j, i < s.sched.numTasks → j < s.sched.numTasks →
        (s.sched.tasks i).pid = (s.sched.tasks j).pid → i = j)
      ∧ ∀ s', Relation.ReflTransGen (AloneSteps pg bootStackTop) s s' →
        s.sched.numTasks ≤ s'.sched.numTasks
        ∧ (∀ i j, i < s.sched.numTasks → j < s'.sched.numTasks →
          (s'.sched.tasks j).pid = (s.sched.tasks i).pid → j = i)
        ∧ ∀ i, i < s.sched.numTasks → SameTask (s.sched.tasks i) (s'.sched.tasks i)
          ∧ ((s.sched.tasks i).state = .dead → (s'.sched.tasks i).state = .dead)
          ∧ (schedPidAlive s.sched (s.sched.tasks i).pid = false →
            schedPidAlive s'.sched (s.sched.tasks i).pid = false) := by
  have hi := reach_makeInv h
  have ht := hi.table
  refine ⟨ht.running, ht.cur_lt, ht.num_le, fun i j hlt hlt' => ht.pid_inj hlt hlt',
    fun s' hr => ?_⟩
  obtain ⟨hi', hk, hd⟩ := alone_keeps hi hr
  have ht' := hi'.table
  refine ⟨hk.num, ?_, fun i hlt => ⟨hk.same i hlt, hd i hlt, ?_⟩⟩
  · intro i j hlt hlt' hpid
    rw [← (hk.same i hlt).pid] at hpid
    exact ht'.pid_inj hlt' (hlt.trans_le hk.num) hpid
  · intro hdead
    rw [schedPidAlive_eq ht hlt, decide_eq_false_iff_not, not_not] at hdead
    rw [← (hk.same i hlt).pid, schedPidAlive_eq ht' (hlt.trans_le hk.num), hd i hlt hdead]
    rfl

/-- After `sched_init`, on a heap that has just been set up. -/
def bootTasks (heap : Heap Nat) : TaskRun Nat := ⟨schedInit heap 0 0x1000, fun _ => none⟩

/-- Two user tasks, one made by a system call, and one by the shell with interrupts on, up to where
it has taken a slot and a pid. -/
def twoTasks : List TaskAct :=
  [.whole (.createUser 0x2000 0x400000 0x802000 0 0), .create (.user 0x3000 0x400000 0x802000 0 0)]
    ++ List.replicate 5 .go

/-- The timer goes to the first task and comes back, and the shell ends its call. -/
theorem table_invariant_cut : ∃ s s' : TaskRun Nat,
    Reach Starts (AloneSteps Client.zeroedFrames 0) s
      ∧ Relation.ReflTransGen (AloneSteps Client.zeroedFrames 0) s s'
      ∧ s.sched.currentIdx = 1 ∧ (s.doing 0).isSome ∧ s.sched.numTasks = 2 ∧ s'.sched.numTasks = 3
      ∧ (s'.sched.tasks 2).pid = 3 ∧ SameTask (s.sched.tasks 1) (s'.sched.tasks 1) := by
  obtain ⟨heap, _, hrest⟩ := Outcome.of_get?
    (x := heapInit Client.zeroedFrames ⟨fun _ => 0, 0, 0, 64⟩ 0xFFFFC00000000000 (4 * 4096))
    (f := fun heap => (run Client.zeroedFrames 0 4 (fun s act => obeys s act && quiet s act)
      (bootTasks heap) (twoTasks ++ [.whole (.tick 0)])).get?.map fun (s : TaskRun Nat) =>
        decide (s.sched.currentIdx = 1 ∧ (s.doing 0).isSome = true ∧ s.sched.numTasks = 2
          ∧ (run Client.zeroedFrames 0 4 (fun s act => obeys s act && quiet s act) s
              (.whole (.tick 0) :: List.replicate 11 .go)).get?.map
            (fun (s : TaskRun Nat) => (s.sched.numTasks, (s.sched.tasks 2).pid)) = some (3, 3)))
    (b := some true) (by decide +kernel)
  obtain ⟨s, hs, hfacts⟩ := Outcome.of_get? hrest
  obtain ⟨hcur, hdoing, hnum, hlater⟩ := of_decide_eq_true hfacts
  obtain ⟨s', hs', hres⟩ := Outcome.of_get? hlater
  simp only [Prod.mk.injEq] at hres
  have h0 : Reach Starts (AloneSteps Client.zeroedFrames 0) (bootTasks heap) :=
    .start ⟨heap, 0, 0x1000, rfl⟩
  have hr := reach_trans h0 (run_alone h0 hs)
  have hr' := run_alone hr hs'
  refine ⟨s, s', hr, hr', hcur, hdoing, hnum, hres.1, hres.2, ?_⟩
  exact (((table_invariant hr).2.2.2.2 s' hr').2.2 1 (by omega)).1

/-- **Two creations meet**: the timer goes from the shell to the first task, which makes a task in
the slot that the shell is filling. That task exits, and the shell goes on: the dead task gets
another pid and is ready, and a slot of zeros is counted. -/
theorem creations_meet : ∃ s s' : TaskRun Nat,
    Reach Starts (LiveSteps Client.zeroedFrames 0) s
      ∧ Relation.ReflTransGen (LiveSteps Client.zeroedFrames 0) s s'
      ∧ (s.sched.numTasks = 3 ∧ (s.sched.tasks 2).pid = 4 ∧ (s.sched.tasks 2).state = .dead)
      ∧ (s'.sched.tasks 2).pid = 3 ∧ (s'.sched.tasks 2).state = .ready
      ∧ s'.sched.numTasks = 4 ∧ (s'.sched.tasks 3).pid = 0
      ∧ (s'.sched.tasks 3).state = .running ∧ s'.sched.currentIdx = 0 := by
  obtain ⟨heap, _, hrest⟩ := Outcome.of_get?
    (x := heapInit Client.zeroedFrames ⟨fun _ => 0, 0, 0, 64⟩ 0xFFFFC00000000000 (4 * 4096))
    (f := fun heap => (run Client.zeroedFrames 0 5 obeys (bootTasks heap)
      (twoTasks ++ [.whole (.tick 0), .whole (.createUser 0x2000 0x400000 0x802000 0 0),
        .whole (.tick 0), .whole (.exit 0)])).get?.map fun (s : TaskRun Nat) =>
        decide ((s.sched.numTasks = 3 ∧ (s.sched.tasks 2).pid = 4 ∧ (s.sched.tasks 2).state = .dead)
          ∧ (run Client.zeroedFrames 0 5 obeys s (List.replicate 11 .go)).get?.map
            (fun (s : TaskRun Nat) => decide ((s.sched.tasks 2).pid = 3
              ∧ (s.sched.tasks 2).state = .ready ∧ s.sched.numTasks = 4 ∧ (s.sched.tasks 3).pid = 0
              ∧ (s.sched.tasks 3).state = .running ∧ s.sched.currentIdx = 0)) = some true))
    (b := some true) (by decide +kernel)
  obtain ⟨s, hs, hfacts⟩ := Outcome.of_get? hrest
  obtain ⟨hbefore, hlater⟩ := of_decide_eq_true hfacts
  obtain ⟨s', hs', hres⟩ := Outcome.of_get? hlater
  have h0 : Reach Starts (LiveSteps Client.zeroedFrames 0) (bootTasks heap) :=
    .start ⟨heap, 0, 0x1000, rfl⟩
  exact ⟨s, s', reach_trans h0 (run_live hs), run_live hs', hbefore, of_decide_eq_true hres⟩

end TaskRun

end VnlKernel
