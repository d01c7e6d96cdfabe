import VnlKernel.Proof.SchedTable

/-!
# Everybody gets a turn

`do_switch` begins its search after the current task and takes the first one that is
ready. A task that is ready is passed over only by tasks between the current one and
itself, so its distance from the current task shrinks with every switch, whatever the
others do meanwhile. The distance is less than the number of tasks.
-/

namespace VnlKernel

open Bits Run

namespace SchedRun

variable {σ : Type}

/-- How many places after the current task `j` stands. -/
def ahead (s : Sched σ) (j : Nat) : Nat := (j + s.numTasks - s.currentIdx) % s.numTasks

/-- The scheduler as `do_switch` finds it, and the stack pointer it is given, for what calls it. -/
def switches (s : Sched σ) : SchedOp → Option (Sched σ × Nat)
  | .tick r => some (wakeSleepers { s with tickCount := u64 (s.tickCount + 1) }, r)
  | .yield r => some (s, r)
  | .sleep ms r =>
      some (s.setTask s.currentIdx
        { s.current with state := .sleeping, sleepUntil := u64 (s.tickCount + ms) }, r)
  | .exit r => some (s.setTask s.currentIdx { s.current with state := .dead }, r)
  | _ => none

/-- Does this call `do_switch`? -/
def calls : SchedOp → Bool
  | .tick _ | .yield _ | .sleep _ _ | .exit _ => true
  | _ => false

/-- No task is created and `j` is not killed. -/
def Spares (j : Nat) (s : Sched σ) : SchedOp → Prop
  | .create _ | .createUser .. => False
  | .kill pid => (s.tasks j).pid ≠ pid
  | _ => True

/-- One step of a continuation that spares `j`. -/
def SparingStep (pg : Pager σ) (bootStackTop j : Nat) (c : SchedRun σ) (ops : List SchedOp)
    (c' : SchedRun σ) : Prop :=
  ∃ op fuel, ops = [op] ∧ Spares j c.sched op ∧ c.step pg bootStackTop fuel op = .done c'

/-- One step of a continuation in which `j` has not been current yet. -/
def WaitingStep (pg : Pager σ) (bootStackTop j : Nat) (c : SchedRun σ) (ops : List SchedOp)
    (c' : SchedRun σ) : Prop :=
  c.sched.currentIdx ≠ j ∧ SparingStep pg bootStackTop j c ops c'

section Switch

variable {s : Sched σ} {j : Nat}

/-- The scan stops at the first task that is ready. -/
theorem findReady_first : ∀ {n i k : Nat}, i ≤ k → k < i + n →
    (s.tasks ((s.currentIdx + k) % s.numTasks)).state = .ready →
    ∃ m, i ≤ m ∧ m ≤ k ∧ (s.tasks ((s.currentIdx + m) % s.numTasks)).state = .ready
      ∧ findReady s n i = some ((s.currentIdx + m) % s.numTasks)
  | 0, i, k, h1, h2, _ => absurd h2 (by omega)
  | n + 1, i, k, h1, h2, hr => by
      rw [findReady]
      by_cases hi : (s.tasks ((s.currentIdx + i) % s.numTasks)).state = .ready
      · exact ⟨i, Nat.le_refl _, h1, hi, if_pos hi⟩
      · have hne : i ≠ k := by
          rintro rfl
          exact hi hr
        obtain ⟨m, hm1, hm2, hm3, hm4⟩ :=
          findReady_first (n := n) (i := i + 1) (by omega) (by omega) hr
        refine ⟨m, by omega, hm2, hm3, ?_⟩
        rw [if_neg hi]
        exact hm4

/-- A place of the table, counted from the current one. -/
theorem ahead_place {cur num m : Nat} (hcur : cur < num) (hm : m ≤ num) :
    (cur + m) % num = if cur + m < num then cur + m else cur + m - num := by
  split
  · next h => exact Nat.mod_eq_of_lt h
  · next h =>
    rw [Nat.mod_eq_sub_mod (by omega), Nat.mod_eq_of_lt (by omega)]

/-- Going forward, but not past `j`, brings `j` nearer. -/
theorem nearer {cur num m next : Nat} (hcur : cur < num) (hj : j < num) (h1 : 1 ≤ m)
    (hm : m ≤ if cur ≤ j then j - cur else j + num - cur)
    (hnext : next = if cur + m < num then cur + m else cur + m - num) :
    (if next ≤ j then j - next else j + num - next)
      < if cur ≤ j then j - cur else j + num - cur := by
  by_cases hle : cur ≤ j
  · rw [if_pos hle] at hm ⊢
    rw [if_pos (by omega)] at hnext
    rw [if_pos (by omega)]
    omega
  · rw [if_neg hle] at hm ⊢
    by_cases hwrap : cur + m < num
    · rw [if_pos hwrap] at hnext
      rw [if_neg (by omega)]
      omega
    · rw [if_neg hwrap] at hnext
      rw [if_pos (by omega)]
      omega

theorem ahead_eq (hcur : s.currentIdx < s.numTasks) (hj : j < s.numTasks) :
    ahead s j = if s.currentIdx ≤ j then j - s.currentIdx else j + s.numTasks - s.currentIdx := by
  unfold ahead
  split
  · next h =>
    rw [show j + s.numTasks - s.currentIdx
      = j - s.currentIdx + s.numTasks by omega, Nat.add_mod_right,
      Nat.mod_eq_of_lt (by omega)]
  · next h => exact Nat.mod_eq_of_lt (by omega)

/-- **A switch brings a ready task nearer**: it goes to a ready task that is not the current one and
not past `j`, and `j` is still ready unless it was picked. -/
theorem doSwitch_nearer {bootStackTop r : Nat} (hcur : s.currentIdx < s.numTasks)
    (hj : j < s.numTasks)
    (hne : j ≠ s.currentIdx) (hready : (s.tasks j).state = .ready) {s' : Sched σ}
    (hs' : (doSwitch bootStackTop s r).1 = s') :
    s'.numTasks = s.numTasks ∧ s'.currentIdx < s.numTasks ∧ s'.currentIdx ≠ s.currentIdx
      ∧ (s.tasks s'.currentIdx).state = .ready ∧ (s'.tasks s'.currentIdx).state = .running
      ∧ ahead s' j < ahead s j ∧ (s'.currentIdx = j ∨ (s'.tasks j).state = .ready) := by
  have hahead := ahead_eq hcur hj
  have hlt : ahead s j < s.numTasks ∧ 1 ≤ ahead s j := by
    rw [hahead]
    split
    · omega
    · omega
  have hplace : (s.currentIdx + ahead s j) % s.numTasks = j := by
    rw [ahead_place hcur (by omega), hahead]
    split
    · split
      · omega
      · omega
    · split
      · omega
      · omega
  -- whoever was ready before the current context was saved still is
  have hsave : ∀ i, i ≠ s.currentIdx → ((saveCurrent s r).tasks i) = s.tasks i :=
    fun i hi => setTask_ne hi
  obtain ⟨m, h1, hm, hrm, hf⟩ := @findReady_first σ (saveCurrent s r) s.numTasks 1 (ahead s j)
    hlt.2 (by omega) (by
      change ((saveCurrent s r).tasks ((s.currentIdx + ahead s j) % s.numTasks)).state = .ready
      rw [hplace, hsave j hne]
      exact hready)
  change findReady (saveCurrent s r) s.numTasks 1 = some ((s.currentIdx + m) % s.numTasks) at hf
  change ((saveCurrent s r).tasks ((s.currentIdx + m) % s.numTasks)).state = .ready at hrm
  have hpm := ahead_place hcur (show m ≤ s.numTasks by omega)
  generalize hnext : (s.currentIdx + m) % s.numTasks = next at hf hrm hpm
  have hnlt : next < s.numTasks := by rw [← hnext]; exact Nat.mod_lt _ (by omega)
  have hnc : next ≠ s.currentIdx := by
    rw [hpm]
    split
    · omega
    · omega
  have hidx : s'.currentIdx = next := by
    rw [← hs']
    unfold doSwitch
    dsimp only
    rw [show (saveCurrent s r).numTasks = s.numTasks from rfl, hf]
  have hnum : s'.numTasks = s.numTasks := by
    rw [← hs']
    unfold doSwitch
    dsimp only
    rw [show (saveCurrent s r).numTasks = s.numTasks from rfl, hf]
    rfl
  have htasks : ∀ i, s'.tasks i
      = if i = next then { (saveCurrent s r).tasks next with state := .running }
        else (saveCurrent s r).tasks i := by
    intro i
    rw [← hs']
    unfold doSwitch
    dsimp only
    rw [show (saveCurrent s r).numTasks = s.numTasks from rfl, hf]
    rfl
  rw [hsave next hnc] at hrm
  refine ⟨hnum, by rw [hidx]; exact hnlt, by rw [hidx]; exact hnc, by rw [hidx]; exact hrm, ?_, ?_, ?_⟩
  · rw [hidx, htasks, if_pos rfl]
  · rw [ahead_eq (by rw [hidx, hnum]; exact hnlt) (by rw [hnum]; exact hj), hidx, hnum]
    rw [hahead] at hm ⊢
    exact nearer hcur hj h1 hm hpm
  · by_cases hjn : j = next
    · exact Or.inl (by rw [hidx, hjn])
    · right
      rw [htasks, if_neg hjn, hsave j hne]
      exact hready

end Switch

section Turn

variable {pg : Pager σ} {bootStackTop j : Nat} {c c' : SchedRun σ}

/-- What `do_switch` is called with: the table is the same size, and `j` is ready if it was. -/
theorem switches_ready {s₁ : Sched σ} {s : Sched σ} {op : SchedOp} {r : Nat}
    (h : switches s op = some (s₁, r)) (hne : j ≠ s.currentIdx)
    (hready : (s.tasks j).state = .ready) :
    s₁.numTasks = s.numTasks ∧ s₁.currentIdx = s.currentIdx ∧ (s₁.tasks j).state = .ready := by
  cases op with
  | tick r =>
      cases h
      refine ⟨rfl, rfl, ?_⟩
      unfold wakeSleepers
      dsimp only
      split
      · rfl
      · exact hready
  | yield r => cases h; exact ⟨rfl, rfl, hready⟩
  | sleep ms r => cases h; exact ⟨rfl, rfl, by rw [setTask_ne hne]; exact hready⟩
  | exit r => cases h; exact ⟨rfl, rfl, by rw [setTask_ne hne]; exact hready⟩
  | create entry => exact absurd h (by simp [switches])
  | createUser cr3Phys rip userRsp brkStart brkEnd => exact absurd h (by simp [switches])
  | kill pid => exact absurd h (by simp [switches])

theorem step_switches {fuel : Nat} {op : SchedOp} (hc : calls op = true)
    (h : c.step pg bootStackTop fuel op = .done c') :
    ∃ s r, switches c.sched op = some (s, r) ∧ c'.sched = (doSwitch bootStackTop s r).1 := by
  cases op with
  | tick r => cases h; exact ⟨_, _, rfl, rfl⟩
  | yield r => cases h; exact ⟨_, _, rfl, rfl⟩
  | sleep ms r => cases h; exact ⟨_, _, rfl, rfl⟩
  | exit r => cases h; exact ⟨_, _, rfl, rfl⟩
  | create entry => exact absurd hc (by simp [calls])
  | createUser cr3Phys rip userRsp brkStart brkEnd => exact absurd hc (by simp [calls])
  | kill pid => exact absurd hc (by simp [calls])

/-- A step that spares `j` and does not switch is a kill of somebody else, or of nobody. -/
theorem step_quiet {fuel : Nat} {op : SchedOp} (hc : calls op = false) (hs : Spares j c.sched op)
    (h : c.step pg bootStackTop fuel op = .done c') :
    c'.sched.numTasks = c.sched.numTasks ∧ c'.sched.currentIdx = c.sched.currentIdx
      ∧ (c'.sched.tasks j).state = (c.sched.tasks j).state := by
  cases op with
  | tick r => exact absurd hc (by simp [calls])
  | yield r => exact absurd hc (by simp [calls])
  | sleep ms r => exact absurd hc (by simp [calls])
  | exit r => exact absurd hc (by simp [calls])
  | create entry => exact absurd hs id
  | createUser cr3Phys rip userRsp brkStart brkEnd => exact absurd hs id
  | kill pid =>
      cases h
      dsimp only
      unfold cmdKill
      rcases killFrom_cases c.sched pid c.sched.numTasks 0 with he | ⟨k, _, _, hpid, he⟩
      · rw [he]; exact ⟨rfl, rfl, rfl⟩
      · rw [he]
        have hjk : j ≠ k := by
          rintro rfl
          exact hs hpid
        exact ⟨rfl, rfl, by rw [setTask_ne hjk]⟩

/-- What is known while `j` waits for its turn, after so many calls of `do_switch`. -/
structure Waiting (c₀ c : SchedRun σ) (j k : Nat) : Prop where
  num : c.sched.numTasks = c₀.sched.numTasks
  cur_lt : c.sched.currentIdx < c.sched.numTasks
  ready : c.sched.currentIdx = j ∨ (c.sched.tasks j).state = .ready
  nearer : ahead c.sched j + k ≤ ahead c₀.sched j

/-- A step that switches, while `j` is ready and somebody else has the processor. -/
theorem step_turn {fuel : Nat} {op : SchedOp} (hcur : c.sched.currentIdx < c.sched.numTasks)
    (hj : j < c.sched.numTasks) (hne : c.sched.currentIdx ≠ j)
    (hready : (c.sched.tasks j).state = .ready)
    (hc : calls op = true) (h : c.step pg bootStackTop fuel op = .done c') :
    ∃ s r, switches c.sched op = some (s, r) ∧ c'.sched = (doSwitch bootStackTop s r).1
      ∧ (s.tasks c'.sched.currentIdx).state = .ready ∧ c'.sched.currentIdx ≠ c.sched.currentIdx
      ∧ (c'.sched.tasks c'.sched.currentIdx).state = .running
      ∧ c'.sched.numTasks = c.sched.numTasks ∧ c'.sched.currentIdx < c.sched.numTasks
      ∧ ahead c'.sched j < ahead c.sched j
      ∧ (c'.sched.currentIdx = j ∨ (c'.sched.tasks j).state = .ready) := by
  obtain ⟨s, r, hsw, hs'⟩ := step_switches hc h
  obtain ⟨hnum, hidx, hr⟩ := switches_ready hsw (Ne.symm hne) hready
  obtain ⟨h1, h2, h3, h4, h5, h6, h7⟩ := doSwitch_nearer (j := j) (by rw [hnum, hidx]; exact hcur)
    (by rw [hnum]; exact hj) (by rw [hidx]; exact Ne.symm hne) hr hs'.symm
  have hahead : ahead s j = ahead c.sched j := by
    unfold ahead
    rw [hnum, hidx]
  refine ⟨s, r, hsw, hs', h4, by rw [← hidx]; exact h3, h5, h1.trans hnum, by rw [← hnum]; exact h2, ?_, h7⟩
  rw [← hahead]
  exact h6

/-- **Waiting** goes on with every step that spares `j`. -/
theorem waiting_step {c₀ : SchedRun σ} {k fuel : Nat} {op : SchedOp} (hj : j < c₀.sched.numTasks)
    (h : Waiting c₀ c j k) (hne : c.sched.currentIdx ≠ j) (hs : Spares j c.sched op)
    (hstep : c.step pg bootStackTop fuel op = .done c') :
    Waiting c₀ c' j (k + if calls op then 1 else 0) := by
  have hready : (c.sched.tasks j).state = .ready := h.ready.resolve_left hne
  cases hc : calls op with
  | true =>
      obtain ⟨s, r, _, _, _, _, _, hnum, hlt, hahead, hr⟩ :=
        step_turn h.cur_lt (by rw [h.num]; exact hj) hne hready hc hstep
      have hnear := h.nearer
      refine ⟨hnum.trans h.num, by rw [hnum]; exact hlt, hr, ?_⟩
      rw [if_pos rfl]
      omega
  | false =>
      obtain ⟨hnum, hidx, hst⟩ := step_quiet hc hs hstep
      refine ⟨hnum.trans h.num, by rw [hnum, hidx]; exact h.cur_lt, Or.inr (hst.trans hready), ?_⟩
      rw [if_neg (by decide), Nat.add_zero]
      unfold ahead
      rw [hnum, hidx]
      exact h.nearer

theorem waiting_trace {c₀ : SchedRun σ} {ops : List SchedOp} (hj : j < c₀.sched.numTasks)
    (h0 : Waiting c₀ c₀ j 0) (h : Trace (WaitingStep pg bootStackTop j) c₀ ops c) :
    Waiting c₀ c j (ops.countP calls) := by
  induction h with
  | nil => exact h0
  | snoc _ hs ih =>
      obtain ⟨hne, op, fuel, rfl, hsp, hstep⟩ := hs
      rw [List.countP_append, List.countP_singleton]
      exact waiting_step hj ih hne hsp hstep

/-- A continuation is one long wait, or comes to a state in which `j` is current. -/
theorem waits_or_turn {ops : List SchedOp} (h : Trace (SparingStep pg bootStackTop j) c ops c') :
    Trace (WaitingStep pg bootStackTop j) c ops c'
      ∨ ∃ pre post c₁, ops = pre ++ post ∧ Trace (WaitingStep pg bootStackTop j) c pre c₁
        ∧ Trace (SparingStep pg bootStackTop j) c₁ post c' ∧ c₁.sched.currentIdx = j := by
  induction h with
  | nil => exact Or.inl (.nil c)
  | @snoc s s' log es _ hs ih =>
      rcases ih with hw | ⟨pre, post, c₁, rfl, hw, hrest, hidx⟩
      · by_cases hcur : s.sched.currentIdx = j
        · exact Or.inr ⟨log, es, s, rfl, hw, .one hs, hcur⟩
        · exact Or.inl (.snoc hw ⟨hcur, hs⟩)
      · exact Or.inr ⟨pre, post ++ es, c₁, List.append_assoc .., hw, .snoc hrest hs, hidx⟩

end Turn

/-- **Round robin with bounded bypass.** While `j` waits, every call of `do_switch` goes to a ready
task other than the current one; and a continuation with `n - 1` calls comes to a state, after that
many calls at most, in which `j` is current. -/
theorem bounded_bypass {pg : Pager σ} {bootStackTop : Nat} {c : SchedRun σ}
    (h : Reach Starts (Steps pg bootStackTop) c) {j : Nat} (hj : j < c.sched.numTasks)
    (hready : (c.sched.tasks j).state = .ready) :
    (∀ ops c₁ op fuel c₂, Trace (WaitingStep pg bootStackTop j) c ops c₁ → c₁.sched.currentIdx ≠ j →
        Spares j c₁.sched op → calls op = true → c₁.step pg bootStackTop fuel op = .done c₂ →
        ∃ s r, switches c₁.sched op = some (s, r) ∧ c₂.sched = (doSwitch bootStackTop s r).1
          ∧ (s.tasks c₂.sched.currentIdx).state = .ready ∧ c₂.sched.currentIdx ≠ c₁.sched.currentIdx
          ∧ (c₂.sched.tasks c₂.sched.currentIdx).state = .running)
      ∧ ∀ ops c', Trace (SparingStep pg bootStackTop j) c ops c' →
        c.sched.numTasks - 1 ≤ ops.countP calls →
        ∃ pre post c₁, ops = pre ++ post ∧ Trace (WaitingStep pg bootStackTop j) c pre c₁
          ∧ Trace (SparingStep pg bootStackTop j) c₁ post c'
          ∧ pre.countP calls ≤ c.sched.numTasks - 1 ∧ c₁.sched.currentIdx = j := by
  have hcur : c.sched.currentIdx < c.sched.numTasks := reach_cur_lt h
  have hw0 : Waiting c c j 0 := ⟨rfl, hcur, Or.inr hready, Nat.le_refl _⟩
  have hahead : ahead c.sched j ≤ c.sched.numTasks - 1 := by
    have := Nat.mod_lt (j + c.sched.numTasks - c.sched.currentIdx)
      (show 0 < c.sched.numTasks by omega)
    unfold ahead
    omega
  refine ⟨?_, ?_⟩
  · intro ops c₁ op fuel c₂ htr hcj hsp hc hstep
    have hw := waiting_trace hj hw0 htr
    obtain ⟨s, r, h1, h2, h3, h4, h5, _⟩ := step_turn hw.cur_lt (by rw [hw.num]; exact hj) hcj
      (hw.ready.resolve_left hcj) hc hstep
    exact ⟨s, r, h1, h2, h3, h4, h5⟩
  · intro ops c' htr hcount
    rcases waits_or_turn htr with hwait | ⟨pre, post, c₁, rfl, hwait, hrest, hidx⟩
    · -- so many switches leave no distance
      have hw := waiting_trace hj hw0 hwait
      have hnear := hw.nearer
      refine ⟨ops, [], c', (List.append_nil _).symm, hwait, .nil c', by omega, ?_⟩
      have hz : ahead c'.sched j = 0 := by omega
      rw [ahead_eq hw.cur_lt (by rw [hw.num]; exact hj)] at hz
      have hlt := hw.cur_lt
      split at hz
      · omega
      · omega
    · have hnear := (waiting_trace hj hw0 hwait).nearer
      exact ⟨pre, post, c₁, rfl, hwait, hrest, by omega, hidx⟩

/-- The kernel task makes another: by the end of the next tick, that one is current. -/
theorem bounded_bypass_create : ∃ c : SchedRun Nat, Reach Starts (Steps Client.zeroedFrames 0) c
    ∧ c.sched.numTasks = 2 ∧ c.sched.currentIdx = 0 ∧ (c.sched.tasks 1).state = .ready
    ∧ ∃ pre post c₁, [.tick 0] = pre ++ post ∧ Trace (WaitingStep Client.zeroedFrames 0 1) c pre c₁
      ∧ c₁.sched.currentIdx = 1 := by
  obtain ⟨heap, _, hrest⟩ := Outcome.of_get?
    (x := heapInit Client.zeroedFrames ⟨fun _ => 0, 0, 0, 64⟩ 0xFFFFC00000000000 (4 * 4096))
    (f := fun heap =>
      ((⟨schedInit heap 0 0x1000, fun _ => none⟩ : SchedRun Nat).step Client.zeroedFrames 0 3
        (.create 0x2000)).get?.map fun (c : SchedRun Nat) =>
          decide (c.sched.numTasks = 2 ∧ c.sched.currentIdx = 0 ∧ (c.sched.tasks 1).state = .ready))
    (b := some true) (by decide +kernel)
  obtain ⟨c, hcreate, hfacts⟩ := Outcome.of_get? hrest
  obtain ⟨hnum, hidx, hready⟩ := of_decide_eq_true hfacts
  have hr : Reach Starts (Steps Client.zeroedFrames 0) c :=
    .next (.start ⟨heap, 0, 0x1000, rfl⟩) ⟨.create 0x2000, 3, hcreate⟩
  have hspare : SparingStep Client.zeroedFrames 0 1 c [.tick 0] _ := ⟨.tick 0, 0, rfl, trivial, rfl⟩
  obtain ⟨pre, post, c₁, hops, hwait, _, _, hcur⟩ :=
    (bounded_bypass hr (j := 1) (by omega) hready).2 [.tick 0] _ (.one hspare)
      (by rw [hnum]; decide)
  exact ⟨c, hr, hnum, hidx, hready, pre, post, c₁, hops, hwait, hcur⟩

end SchedRun

end VnlKernel
