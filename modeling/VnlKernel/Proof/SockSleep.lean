import VnlKernel.Proof.SockOwn

/-!
# Calls that sleep

A sleeping call knows its socket by the number of its slot. The slot may be closed
meanwhile, which leaves it empty and the call asleep; and it may be handed out again,
and then the call wakes up to another socket's data. As long as no slot is handed out
while a call sleeps on it, the call acts on the socket it was made on.
-/

namespace VnlKernel

open Run Function

variable {σ : Type}

/-! ## Slots that are not in use hold nothing -/

/-- Nothing is left in a slot that is not in use. -/
def UnusedEmpty (n : Net σ) : Prop :=
  ∀ i, (n.socks i).used = false → (n.socks i).rx.toList = [] ∧ (n.socks i).fdsRx.toList = []

section Empty

variable {fs : FrameService σ} {n n' : Net σ}

/-- A slot is rewritten; if it is not in use then it holds nothing. -/
theorem UnusedEmpty.setSock (h : UnusedEmpty n) {i : Nat} {s : USock}
    (hs : s.used = false → s.rx.toList = [] ∧ s.fdsRx.toList = []) :
    UnusedEmpty (n.setSock i s) := by
  intro k hk
  by_cases hki : k = i
  · subst hki; rw [Net.setSock_self] at hk ⊢; exact hs hk
  · rw [Net.setSock_ne _ hki] at hk ⊢; exact h k hk

theorem UnusedEmpty.vfs (h : UnusedEmpty n) (v : Vfs σ) : UnusedEmpty { n with vfs := v } := h

theorem UnusedEmpty.shut (h : UnusedEmpty n) {i : Nat} : UnusedEmpty (shutSlot n i) := by
  intro k hk
  by_cases hki : k = i
  · rw [hki, shutSlot_self]; exact ⟨RingBuf.toList_fresh _, RingBuf.toList_fresh _⟩
  · rcases shutSlot_ne (n := n) hki with he | ⟨_, hu, _, he⟩
    · rw [he] at hk ⊢; exact h k hk
    · rw [he] at hk
      dsimp only at hk
      rw [hu] at hk
      exact absurd hk (by decide)

theorem UnusedEmpty.edit (h : UnusedEmpty n) (hp : PeerInv n) {es : List Ev}
    (he : Edit fs n es n') :
    UnusedEmpty n' := by
  cases he with
  | scratch _ hs => exact h.setSock fun _ => ⟨hs.rx, hs.fds⟩
  | @touched i s ht => exact h.setSock fun hu => by rw [ht.rx, ht.fds]; exact h i (ht.used ▸ hu)
  | opened _ _ => exact h.setSock fun hu => absurd hu (by decide)
  | paired _ _ _ _ _ =>
      exact (h.setSock fun hu => absurd hu (by simp [USock.joined, USock.fresh])).setSock
        fun hu => absurd hu (by simp [USock.joined, USock.fresh])
  | looped _ _ flags => exact h.setSock fun hu => absurd hu (by simp [USock.joined, USock.fresh])
  | @linked c s l hc huc hsc hs hus hl hul hsl hw =>
      refine ((h.setSock ?_).setSock ?_).setSock ?_
      · exact fun hu => absurd hu (by simp [USock.joined, USock.fresh])
      · exact fun hu => absurd (hu.symm.trans huc) (by decide)
      · exact fun hu => absurd (hu.symm.trans hul) (by decide)
  | @accepted l s _ _ _ _ => exact h.setSock fun hu => h l hu
  | @stale l _ _ => exact h.setSock fun hu => h l hu
  | @pushed i j bytes rx hs hrx =>
      exact h.setSock fun hu => absurd (hu.symm.trans (hp.sends hs).2.2.1) (by decide)
  | @popped j bytes rx hrx =>
      refine h.setSock fun hu => ⟨?_, (h j hu).2⟩
      rw [(h j hu).1] at hrx
      exact (List.append_eq_nil_iff.mp hrx.symm).2
  | @sent i j f r v q hs _ _ =>
      exact (h.vfs v).setSock fun hu => absurd (hu.symm.trans (hp.sends hs).2.2.1) (by decide)
  | @received j fds q hq =>
      refine h.setSock fun hu => ⟨(h j hu).1, ?_⟩
      rw [(h j hu).2] at hq
      exact (List.append_eq_nil_iff.mp hq.symm).2
  | closed _ _ => exact h.shut.vfs _
  | openFile _ => exact h.vfs _
  | closeFile _ => exact h.vfs _
  | dupFile _ => exact h.vfs _
  | unlinkFile _ => exact h.vfs _

theorem reach_unusedEmpty {cond : Sys σ → Act → Prop} {s : Sys σ}
    (h : Reach Sys.Boots (Sys.StepsIf fs cond) s) : UnusedEmpty s.net :=
  net_invariant (P := UnusedEmpty) (fun _ _ _ => ⟨RingBuf.toList_fresh _, RingBuf.toList_fresh _⟩)
    (fun _ v hi => UnusedEmpty.vfs hi v) (fun _ _ _ hp hi he => UnusedEmpty.edit hi hp he) h

end Empty

/-! ## Sleepers -/

/-- No slot is handed out while a call sleeps on it. -/
def Sys.SparesSleepers (s : Sys σ) (act : Act) : Prop :=
  ∀ i ∈ s.takes act, ∀ t ∈ s.asleep, t.wait.slot ≠ i

/-- Every sleeping call is on the socket it was made on. -/
def Sys.SleepersKept (s : Sys σ) : Prop := ∀ t ∈ s.asleep, gen s.hist t.wait.slot = t.gen

section Sleep

variable {fs : FrameService σ}

theorem gen_append (hist log : List Ev) (i : Nat) : gen (hist ++ log) i = gen hist i + gen log i :=
  List.countP_append

/-- A log that hands out other slots only. -/
theorem gen_eq_zero {is : List Nat} {log : List Ev} {i : Nat} (h : Keeps is log) (hi : i ∉ is) :
    gen log i = 0 := by
  unfold gen
  rw [List.countP_eq_zero]
  intro e he hc
  exact hi ((h e he).2 i hc)

theorem gen_closed (i k : Nat) (path : CStr) (pre : List Ev) (fds : List Int)
    (hpre : pre = [] ∨ pre = [.unlinkFile path]) : gen (pre ++ [.closed k fds]) i = 0 := by
  rcases hpre with rfl | rfl
  · rfl
  · rfl

/-- Who sleeps after a step: those who did before, and the one who has just gone to sleep. -/
theorem step_asleep {input : DevInput} {fuel : Nat} {s s' : Sys σ} {act : Act} {ans : Option Ans}
    (h : s.step fs input fuel act = .done (s', ans)) {t : Sleeper} (ht : t ∈ s'.asleep) :
    t ∈ s.asleep ∨ t.gen = gen s'.hist t.wait.slot := by
  cases act with
  | call op =>
      obtain ⟨⟨n, log, rep⟩, hc, h⟩ := Outcome.bind_eq_done h
      cases rep with
      | ret a => cases h; exact Or.inl ht
      | sleep w =>
          cases h
          rcases List.mem_append.mp ht with ht | ht
          · exact Or.inl ht
          · rw [List.mem_singleton] at ht
            exact Or.inr (by rw [ht])
  | wake k =>
      rw [Sys.step] at h
      split at h
      · cases h; exact Or.inl ht
      · split at h
        · cases h; exact Or.inl (List.mem_of_mem_eraseIdx ht)
        · cases h; exact Or.inl ht

theorem reach_sleepersKept {cond : Sys σ → Act → Prop}
    (hcond : ∀ s act, cond s act → Sys.SparesSleepers s act) {s : Sys σ}
    (h : Reach Sys.Boots (Sys.StepsIf fs cond) s) : Sys.SleepersKept s := by
  refine (h.invariant (P := fun s => PeerInv s.net ∧ Sys.SleepersKept s) ?_ ?_).2
  · rintro s ⟨v, rfl⟩
    exact ⟨peerInv_init v, fun t ht => absurd ht (by simp)⟩
  · rintro s s' ⟨hp, hk⟩ ⟨input, fuel, act, ans, hc, hs⟩
    obtain ⟨log, hlog, hl⟩ := step_logged hp.created hs
    refine ⟨hl.peerInv hp, ?_⟩
    intro t ht
    rcases step_asleep hs ht with hold | hnew
    · have hzero : gen log t.wait.slot = 0 := by
        rcases step_closes hs hlog with hkeep | ⟨fd, i, pre, _, _, hpre, rfl⟩
        · exact gen_eq_zero hkeep fun hin => hcond s act hc _ hin t hold rfl
        · exact gen_closed _ _ _ pre _ hpre
      rw [hlog, gen_append, hzero]
      exact hk t hold
    · exact hnew.symm

/-- What a call that wakes up is given comes from the front of its slot's rings. -/
theorem resume_rings {n n' : Net σ} {w : Wait} {log : List Ev} {a : Ans}
    (h : n.resume w = (n', log, .ret a)) :
    (∃ rest, (n.socks w.slot).rx.toList = a.bytes ++ rest)
      ∧ ∃ rest, (n.socks w.slot).fdsRx.toList = a.fds ++ rest := by
  cases w with
  | read i len =>
      simp only [Net.resume, readFrom] at h
      split at h
      · exact absurd h (by simp)
      · next s r out hp =>
        obtain ⟨rx, _, hrx⟩ := popRx_rx hp
        cases h
        exact ⟨⟨_, hrx⟩, _, rfl⟩
  | recvmsg i msg =>
      simp only [Net.resume, recvFrom] at h
      split at h
      · exact absurd h (by simp)
      · next s out e hr =>
        obtain ⟨rx, _, hrx⟩ := recvIovs_spec msg.iov 0 hr
        cases h
        exact ⟨⟨_, hrx⟩, _, rfl⟩
      · next s out total hr =>
        obtain ⟨rx, rfl, hrx⟩ := recvIovs_spec msg.iov 0 hr
        split at h
        · obtain ⟨h1, _⟩ := RingBuf.popLoop_spec ((msg.controllen - cmsghdrSize) / 4)
            (n.socks i).fdsRx
          cases h
          refine ⟨⟨_, hrx⟩, (n.socks i).fdsRx.toList.drop ((msg.controllen - cmsghdrSize) / 4), ?_⟩
          change _ = (RingBuf.popLoop ((msg.controllen - cmsghdrSize) / 4) (n.socks i).fdsRx).1 ++ _
          rw [h1]
          exact (List.take_append_drop _ _).symm
        · cases h
          exact ⟨⟨_, hrx⟩, _, rfl⟩
  | accept i =>
      rcases acceptFrom_cases h with ⟨_, _, _, ⟨ha, _⟩ | ha⟩ | ⟨_, _,
        ⟨s, _, _, _, _, ha⟩ | ⟨_, _, ha⟩⟩
      · cases ha; exact ⟨⟨_, rfl⟩, _, rfl⟩
      · exact absurd ha (by simp)
      · cases ha; exact ⟨⟨_, rfl⟩, _, rfl⟩
      · cases ha; exact ⟨⟨_, rfl⟩, _, rfl⟩

end Sleep

/-- The condition under which sleepers are safe: nobody hands out a slot that a call sleeps on, and
programs close only what was returned to them. -/
def Sys.Considerate (s : Sys σ) (act : Act) : Prop := Sys.ClosesOwn s act ∧ Sys.SparesSleepers s act

/-- What a sleeping call returns is the socket's it was made on: the next bytes and descriptors
stored for that socket, or a connection made to that listener. -/
def Sys.ActsOnOwn (s : Sys σ) (t : Sleeper) : Prop :=
  gen s.hist t.wait.slot = t.gen ∧ ∀ n' log a, s.net.resume t.wait = (n', log, .ret a) →
    (a.bytes = [] ∨ ∃ rest, (traffic s.hist).into t.wait.slot
      = (traffic s.hist).taken t.wait.slot ++ a.bytes ++ rest)
    ∧ (a.fds = [] ∨ ∃ rest, (traffic s.hist).queued t.wait.slot
      = (traffic s.hist).fetched t.wait.slot ++ a.fds ++ rest)
    ∧ ∀ l, t.wait = .accept l → a.ret < 0 ∨ ∃ k ∈ (accepts s.hist).made l, a.ret = fdOf k.s
      ∧ (accepts s.hist).gens k.s = k.gs

/-- **A sleeping call never acts on a different socket**, in runs that are considerate. -/
theorem Sys.considerate_sleepers {fs : FrameService σ} {s : Sys σ}
    (h : Reach Sys.Boots (Sys.StepsIf fs Sys.Considerate) s) : ∀ t ∈ s.asleep, Sys.ActsOnOwn s t := by
  intro t ht
  have hq : QueueInv s.net (accepts s.hist) := reach_queueInv (reach_weaken (fun _ _ hc => hc.1) h)
  have hi : StreamInv s.net (traffic s.hist) := reach_streamInv h
  have hempty : UnusedEmpty s.net := reach_unusedEmpty h
  have hp : PeerInv s.net := reach_peerInv h
  refine ⟨reach_sleepersKept (fun _ _ hc => hc.2) h t ht, ?_⟩
  intro n' log a hr
  obtain ⟨⟨rest, hrx⟩, rest', hfds⟩ := resume_rings hr
  refine ⟨?_, ?_, ?_⟩
  · cases hu : (s.net.socks t.wait.slot).used with
    | false =>
        rw [(hempty _ hu).1] at hrx
        exact Or.inl (List.append_eq_nil_iff.mp hrx.symm).1
    | true => exact Or.inr ⟨rest, by rw [hi.flow _ hu, hrx, List.append_assoc]⟩
  · cases hu : (s.net.socks t.wait.slot).used with
    | false =>
        rw [(hempty _ hu).2] at hfds
        exact Or.inl (List.append_eq_nil_iff.mp hfds.symm).1
    | true => exact Or.inr ⟨rest', by rw [hi.rights _ hu, hfds, List.append_assoc]⟩
  · intro l hl
    rw [hl] at hr
    rcases acceptFrom_cases hr with ⟨_, _, _, ⟨ha, _⟩ | ha⟩ | ⟨hw, _,
      ⟨m, hm, _, _, _, ha⟩ | ⟨_, _, ha⟩⟩
    · cases ha; exact Or.inl (by decide)
    · exact absurd ha (by simp)
    · cases ha
      right
      obtain ⟨k, q, hwait, hks, _⟩ := hq.head hw
      have hk := hq.waiting l (hq.used hw) k (by rw [hwait]; exact List.mem_cons_self ..)
      have hmk : m = k.s := by rw [hks] at hm; exact_mod_cast hm.symm
      obtain ⟨done, hd, _⟩ := hq.conns.order l
      refine ⟨k, ?_, by rw [hmk]; rfl, hk.gen⟩
      rw [hd, hwait]
      exact List.mem_append_right _ (List.mem_cons_self ..)
    · cases ha; exact Or.inl (by decide)

/-- A read sleeps on slot 0, and the bytes that came for it meanwhile are its own. -/
theorem Sys.considerate_sleepers_pair : ∃ s : Sys Nat, ∃ t,
    Reach Sys.Boots (Sys.StepsIf zeroedService Sys.Considerate) s ∧ t ∈ s.asleep
    ∧ t.wait.slot = 0 ∧ (s.net.socks 0).rx.toList = [0x61] ∧ Sys.ActsOnOwn s t := by
  have hrun : (do
      let (s₁, ans) ← bootSys.step zeroedService noInput 0 (.call (.socketpair 1 1 false))
      let (s₂, _) ← Sys.run zeroedService noInput 0 s₁
        [.call (.read 128 4), .call (.write 129 (fun _ => 0x61) 1)]
      return decide ((s₂.asleep.map fun t : Sleeper => t.wait.slot) = [0]
        ∧ (s₂.net.socks 0).rx.toList = [0x61])) = .done true := by
    decide +kernel
  obtain ⟨⟨s₁, ans⟩, hs₁, hrun⟩ := Outcome.bind_eq_done hrun
  obtain ⟨⟨s₂, anss⟩, hs₂, hd⟩ := Outcome.bind_eq_done hrun
  obtain ⟨hslot, hrx⟩ := of_decide_eq_true (Outcome.done.inj hd)
  -- the pair is opened while nobody sleeps; after that nothing is handed out
  have hr : Reach Sys.Boots (Sys.StepsIf zeroedService Sys.Considerate) s₂ := by
    refine run_reach ?_ (.next (.start bootSys_boots) ⟨noInput, 0, _, ans, ⟨?_, ?_⟩, hs₁⟩) hs₂
    · intro act hact s
      simp only [List.mem_cons, List.not_mem_nil, or_false] at hact
      rcases hact with rfl | rfl
      · exact ⟨fun fd i hc => absurd hc (by simp),
          fun i hi => absurd hi (by simp [Sys.takes, SockOp.takes])⟩
      · exact ⟨fun fd i hc => absurd hc (by simp),
          fun i hi => absurd hi (by simp [Sys.takes, SockOp.takes])⟩
    · exact fun fd i hc => absurd hc (by simp)
    · exact fun i _ t ht => absurd ht (by simp [bootSys])
  obtain ⟨t, ht, hts⟩ : ∃ t ∈ s₂.asleep, t.wait.slot = 0 := by
    have h0 : 0 ∈ s₂.asleep.map fun t : Sleeper => t.wait.slot := by
      rw [hslot]
      exact List.mem_singleton.mpr rfl
    exact List.mem_map.mp h0
  exact ⟨s₂, t, hr, ht, hts, hrx, Sys.considerate_sleepers hr t ht⟩

/-- A pair is opened, a read sleeps on its first end, and that end is closed. The next pair is given
the same slot, and the sleeper wakes up to what was sent to it. -/
theorem Sys.sleeper_reads_other : ∃ s s' : Sys Nat, ∃ t a, Reach Sys.Boots (Sys.Steps zeroedService) s
    ∧ t ∈ s.asleep ∧ t.wait.slot = 0 ∧ t.gen = 1 ∧ gen s.hist 0 = 2 ∧ ¬ Sys.ActsOnOwn s t
    ∧ s.step zeroedService noInput 0 (.wake 0) = .done (s', some a) ∧ a.bytes = [0x61] := by
  have hrun : (do
      let (s, _) ← bootSys.run zeroedService noInput 0
        [.call (.socketpair 1 1 false), .call (.read 128 4), .call (.close 128),
          .call (.socketpair 1 1 false), .call (.write 130 (fun _ => 0x61) 1)]
      let (s', a) ← Sys.step zeroedService noInput 0 s (.wake 0)
      return decide ((s.asleep.map fun t : Sleeper => (t.wait.slot, t.gen)) = [(0, 1)]
        ∧ gen s.hist 0 = 2 ∧ (a.map Ans.bytes) = some [0x61])) = .done true := by
    decide +kernel
  obtain ⟨⟨s, anss⟩, hs, hrun⟩ := Outcome.bind_eq_done hrun
  obtain ⟨⟨s', ans⟩, hs', hd⟩ := Outcome.bind_eq_done hrun
  obtain ⟨hsl, hgen, hans⟩ := of_decide_eq_true (Outcome.done.inj hd)
  obtain ⟨a, rfl, ha⟩ := Option.map_eq_some_iff.mp hans
  have hmem : (0, 1) ∈ s.asleep.map fun t : Sleeper => (t.wait.slot, t.gen) := by
    rw [hsl]
    exact List.mem_singleton.mpr rfl
  obtain ⟨t, ht, hts⟩ := List.mem_map.mp hmem
  obtain ⟨hslot, hg⟩ := Prod.mk.inj hts
  refine ⟨s, s', t, a, run_reach (fun _ _ _ => trivial) (.start bootSys_boots) hs, ht, hslot, hg,
    hgen,
    ?_, hs', ha⟩
  rintro ⟨hown, _⟩
  rw [hslot, hgen, hg] at hown
  exact absurd hown (by decide)

end VnlKernel
