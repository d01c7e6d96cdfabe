import VnlKernel.Lib.OrderedMap
import VnlKernel.Proof.EpollRun

/-!
# An interest list is a map that remembers its order

The array of an instance is read up to `count`; what stands behind it is stale. Read so, it
is a map from descriptors to events, oldest entry first. Each call of `sys_epoll_ctl` is one
operation on that map or leaves it alone, and a wait that does not sleep is a filter over it.
-/

namespace VnlKernel

open Run

variable {σ : Type}

/-- What `sys_epoll_ctl` takes for its operation. -/
def epollCtlAdd : Int := 1
def epollCtlDel : Int := 2
def epollCtlMod : Int := 3

/-- The entries of an instance, oldest first. -/
def EpollInstance.entries (ep : EpollInstance) : List (Int × EpollEvent) :=
  (List.range ep.count).map fun i => ((ep.fds i).fd, (ep.fds i).event)

/-- The instance stands for the map, and its array is long enough for it. -/
structure EpollInstance.Shows (ep : EpollInstance) (m : OrderedMap Int EpollEvent) : Prop where
  entries : ep.entries = m.entries
  room : ep.count ≤ maxEpollFds

/-- Instances are created, and registered with. -/
inductive Epolls.Call (eps : Epolls) : Epolls → Prop
  | create : Call eps (sysEpollCreate1 eps).1
  | ctl (epfd op fd : Int) (ev : EpollEvent) : Call eps (sysEpollCtl eps epfd op fd ev).1

/-! ## Entries -/

section Entries

variable {ep : EpollInstance} {m : OrderedMap Int EpollEvent} {fd : Int} {ev : EpollEvent} {i : Nat}

theorem EpollInstance.length_entries (ep : EpollInstance) : ep.entries.length = ep.count := by
  rw [EpollInstance.entries, List.length_map, List.length_range]

theorem EpollInstance.getElem_entries (ep : EpollInstance) (h : i < ep.entries.length) :
    ep.entries[i] = ((ep.fds i).fd, (ep.fds i).event) := by
  simp only [EpollInstance.entries, List.getElem_map, List.getElem_range]

theorem EpollInstance.Shows.size (h : ep.Shows m) : m.size = ep.count := by
  rw [OrderedMap.size, ← h.entries, ep.length_entries]

theorem EpollInstance.Shows.mem_keys (h : ep.Shows m) : fd ∈ m.keys ↔ ∃ i, i < ep.count
    ∧ (ep.fds i).fd = fd := by
  rw [OrderedMap.keys, ← h.entries, EpollInstance.entries, List.map_map, List.mem_map]
  refine exists_congr fun i => ?_
  rw [List.mem_range]
  rfl

/-- The loop over the entries looks for a key. -/
theorem EpollInstance.Shows.find_some (h : ep.Shows m) (hf : ep.find fd = some i) :
    i < ep.count ∧ (ep.fds i).fd = fd ∧ fd ∈ m.keys := by
  obtain ⟨hp, _, hlt, _⟩ := Scan.first_some hf
  have hi : i < ep.count := by omega
  have hfd : (ep.fds i).fd = fd := by simpa using hp
  exact ⟨hi, hfd, h.mem_keys.mpr ⟨i, hi, hfd⟩⟩

theorem EpollInstance.Shows.find_none (h : ep.Shows m) (hf : ep.find fd = none) : fd ∉ m.keys := by
  intro hmem
  obtain ⟨i, hi, hfd⟩ := h.mem_keys.mp hmem
  have hno := Scan.first_none hf i (Nat.zero_le _) (by omega)
  exact absurd hfd (by simpa using hno)

/-- Two places of the array with one key are one place. -/
theorem EpollInstance.Shows.place_unique (h : ep.Shows m) {j : Nat} (hi : i < ep.count)
    (hj : j < ep.count)
    (hfd : (ep.fds i).fd = (ep.fds j).fd) : i = j := by
  have hnodup : (ep.entries.map Prod.fst).Nodup := by
    rw [h.entries]
    exact m.nodup
  have hlen : (ep.entries.map Prod.fst).length = ep.count := by
    rw [List.length_map, ep.length_entries]
  have hi' : i < (ep.entries.map Prod.fst).length := by omega
  have hj' : j < (ep.entries.map Prod.fst).length := by omega
  have hsame : (ep.entries.map Prod.fst)[i] = (ep.entries.map Prod.fst)[j] := by
    rw [List.getElem_map, List.getElem_map, ep.getElem_entries, ep.getElem_entries]
    exact hfd
  exact hnodup.getElem_inj_iff.mp hsame

/-- Taking an entry out takes its key out. -/
theorem EpollInstance.Shows.remove (h : ep.Shows m) (hi : i < ep.count) :
    (ep.remove i).Shows (m.erase (ep.fds i).fd) := by
  refine ⟨?_, Nat.le_trans (Nat.sub_le _ _) h.room⟩
  have hi' : i < ep.entries.length := by rw [ep.length_entries]; exact hi
  have hshift : (ep.remove i).entries = ep.entries.eraseIdx i := by
    refine List.ext_getElem ?_ fun j h1 h2 => ?_
    · rw [EpollInstance.length_entries, List.length_eraseIdx_of_lt hi', ep.length_entries]
      rfl
    · rw [EpollInstance.length_entries] at h1
      change j < ep.count - 1 at h1
      rw [EpollInstance.getElem_entries, List.getElem_eraseIdx]
      dsimp only [EpollInstance.remove]
      by_cases hj : j < i
      · rw [dif_pos hj, if_neg (by omega), ep.getElem_entries]
      · rw [dif_neg hj, if_pos (by omega), ep.getElem_entries]
  have hnodup : (ep.entries.map Prod.fst).Nodup := by
    rw [h.entries]
    exact m.nodup
  rw [hshift, OrderedMap.eraseIdx_entries hnodup hi', ep.getElem_entries, h.entries]
  rfl

/-- Writing an entry over leaves it in its place. -/
theorem EpollInstance.Shows.modify (h : ep.Shows m) (hi : i < ep.count) :
    (ep.setEntry i { ep.fds i with event := ev }).Shows (m.put (ep.fds i).fd ev) := by
  refine ⟨?_, h.room⟩
  change _ = m.entries.map fun e => if e.1 = (ep.fds i).fd then ((ep.fds i).fd, ev) else e
  rw [← h.entries, EpollInstance.entries, EpollInstance.entries, List.map_map]
  refine List.map_congr_left fun j hj => ?_
  dsimp only [EpollInstance.setEntry, Function.comp]
  by_cases hji : j = i
  · rw [if_pos hji, hji, if_pos rfl]
  · rw [if_neg hji, if_neg fun hfd => hji (h.place_unique (List.mem_range.mp hj) hi hfd)]

/-- A new entry goes behind the others. -/
theorem EpollInstance.Shows.append (h : ep.Shows m) (hroom : ep.count < maxEpollFds)
    (hnew : fd ∉ m.keys) :
    EpollInstance.Shows { ep.setEntry ep.count ⟨fd, ev⟩ with count := ep.count + 1 }
    (m.add fd ev hnew) := by
  refine ⟨?_, hroom⟩
  change _ = m.entries ++ [(fd, ev)]
  rw [← h.entries, EpollInstance.entries, EpollInstance.entries, List.range_succ, List.map_append,
    List.map_singleton]
  dsimp only [EpollInstance.setEntry]
  rw [if_pos rfl]
  refine congrArg (· ++ [(fd, ev)]) (List.map_congr_left fun j hj => ?_)
  rw [if_neg (Nat.ne_of_lt (List.mem_range.mp hj))]

end Entries

/-! ## Calls -/

/-- What a call of `sys_epoll_ctl` makes of the map of the instance it is for. -/
structure CtlStep (m m' : OrderedMap Int EpollEvent) (op fd : Int) (ev : EpollEvent) (r : Int) : Prop where
  add : op = epollCtlAdd → (r = 0 ↔ fd ∉ m.keys ∧ m.size < maxEpollFds)
  mod : op = epollCtlMod → (r = 0 ↔ fd ∈ m.keys)
  del : op = epollCtlDel → (r = 0 ↔ fd ∈ m.keys)
  /-- There are no other operations. -/
  ops : r = 0 → op = epollCtlAdd ∨ op = epollCtlMod ∨ op = epollCtlDel
  failed : r ≠ 0 → m' = m
  /-- The entry of the descriptor afterwards. -/
  entry : r = 0 → m'.get? fd = if op = epollCtlDel then none else some ev
  /-- The other entries, in their order. -/
  others : m'.erase fd = m.erase fd
  last : op = epollCtlAdd → r = 0 → m'.entries = m.entries ++ [(fd, ev)]
  keys : op = epollCtlMod → m'.keys = m.keys

/-- The call has made such a step for the instance, and nothing else. -/
def CtlDoes (eps : Epolls) (idx : Nat) (m : OrderedMap Int EpollEvent) (op fd : Int) (ev : EpollEvent)
    (x : Epolls × Int) : Prop :=
  ∃ m', (x.1 idx).Shows m' ∧ CtlStep m m' op fd ev x.2 ∧ (x.2 ≠ 0 → x.1 = eps)
    ∧ ∀ k, k ≠ idx → x.1 k = eps k

section Calls

variable {eps : Epolls} {m m' : OrderedMap Int EpollEvent} {epfd op fd r : Int} {ev : EpollEvent} {idx : Nat}

theorem CtlDoes.refused (h : (eps idx).Shows m) (hr : r ≠ 0)
    (hadd : op = epollCtlAdd → ¬ (fd ∉ m.keys ∧ m.size < maxEpollFds))
    (hmod : op = epollCtlMod → fd ∉ m.keys)
    (hdel : op = epollCtlDel → fd ∉ m.keys) : CtlDoes eps idx m op fd ev (eps, r) := by
  refine ⟨m, h, ?_, fun _ => rfl, fun _ _ => rfl⟩
  exact {
    add := fun hop => iff_of_false hr (hadd hop)
    mod := fun hop => iff_of_false hr (hmod hop)
    del := fun hop => iff_of_false hr (hdel hop)
    ops := fun h0 => absurd h0 hr
    failed := fun _ => rfl
    entry := fun h0 => absurd h0 hr
    others := rfl
    last := fun _ h0 => absurd h0 hr
    keys := fun _ => rfl }

theorem CtlDoes.changed {ep : EpollInstance} (h : ep.Shows m') (hs : CtlStep m m' op fd ev 0) :
    CtlDoes eps idx m op fd ev (eps.set idx ep, 0) := by
  refine ⟨m', ?_, hs, fun h0 => absurd rfl h0, fun k hk => Epolls.set_ne hk⟩
  change (eps.set idx ep idx).Shows m'
  rw [Epolls.set_self]
  exact h

theorem ctlStep_del (h : fd ∈ m.keys) : CtlStep m (m.erase fd) epollCtlDel fd ev 0 where
  add := fun hop => absurd hop (by decide)
  mod := fun hop => absurd hop (by decide)
  del := fun _ => iff_of_true rfl h
  ops := fun _ => .inr (.inr rfl)
  failed := fun hr => absurd rfl hr
  entry := fun _ => OrderedMap.get?_erase
  others := OrderedMap.erase_erase
  last := fun hop => absurd hop (by decide)
  keys := fun hop => absurd hop (by decide)

theorem ctlStep_add (h : fd ∉ m.keys) (hroom : m.size < maxEpollFds) :
    CtlStep m (m.add fd ev h) epollCtlAdd fd ev 0 where
  add := fun _ => iff_of_true rfl ⟨h, hroom⟩
  mod := fun hop => absurd hop (by decide)
  del := fun hop => absurd hop (by decide)
  ops := fun _ => .inl rfl
  failed := fun hr => absurd rfl hr
  entry := fun _ => OrderedMap.get?_add h
  others := OrderedMap.erase_add h
  last := fun _ _ => rfl
  keys := fun hop => absurd hop (by decide)

theorem ctlStep_mod (h : fd ∈ m.keys) : CtlStep m (m.put fd ev) epollCtlMod fd ev 0 where
  add := fun hop => absurd hop (by decide)
  mod := fun _ => iff_of_true rfl h
  del := fun hop => absurd hop (by decide)
  ops := fun _ => .inr (.inl rfl)
  failed := fun hr => absurd rfl hr
  entry := fun _ => OrderedMap.get?_put h
  others := OrderedMap.erase_put
  last := fun hop => absurd hop (by decide)
  keys := fun _ => OrderedMap.keys_put

/-- **What `sys_epoll_ctl` does** to the map of the instance, and that it leaves the others alone.
-/
theorem sysEpollCtl_does (hidx : epollOf eps epfd = some idx) (h : (eps idx).Shows m) :
    CtlDoes eps idx m op fd ev (sysEpollCtl eps epfd op fd ev) := by
  rw [sysEpollCtl, hidx]
  dsimp only
  -- deleted: the entry leaves the map, and the others stay
  by_cases hdel : op = 2
  · rw [if_pos hdel]
    subst hdel
    cases hfind : (eps idx).find fd with
    | some i =>
        obtain ⟨hi, hfd, hmem⟩ := h.find_some hfind
        have hshows := h.remove hi
        rw [hfd] at hshows
        exact .changed hshows (ctlStep_del hmem)
    | none =>
        exact .refused h (by decide) (fun hop => absurd hop (by decide))
          (fun hop => absurd hop (by decide))
          fun _ => h.find_none hfind
  rw [if_neg hdel]
  -- added: a table that is full is refused before a name that is there
  by_cases hadd : op = 1
  · rw [if_pos hadd]
    subst hadd
    by_cases hfull : (eps idx).count ≥ maxEpollFds
    · rw [if_pos hfull]
      refine .refused h (by decide) (fun _ hc => ?_) (fun hop => absurd hop (by decide))
        fun hop => absurd hop (by decide)
      rw [h.size] at hc
      omega
    rw [if_neg hfull]
    cases hfind : (eps idx).find fd with
    | some i =>
        exact .refused h (by decide) (fun _ hc => hc.1 (h.find_some hfind).2.2)
          (fun hop => absurd hop (by decide))
          fun hop => absurd hop (by decide)
    | none =>
        have hnew := h.find_none hfind
        exact .changed (h.append (by omega) hnew) (ctlStep_add hnew (by rw [h.size]; omega))
  rw [if_neg hadd]
  -- modified: the entry keeps its place
  by_cases hmod : op = 3
  · rw [if_pos hmod]
    subst hmod
    cases hfind : (eps idx).find fd with
    | some i =>
        obtain ⟨hi, hfd, hmem⟩ := h.find_some hfind
        have hshows : ((eps idx).setEntry i { (eps idx).fds i with event := ev }).Shows
            (m.put ((eps idx).fds i).fd ev) := h.modify hi
        rw [hfd] at hshows
        exact .changed hshows (ctlStep_mod hmem)
    | none =>
        exact .refused h (by decide) (fun hop => absurd hop (by decide))
          (fun _ => h.find_none hfind)
          fun hop => absurd hop (by decide)
  · rw [if_neg hmod]
    exact .refused h (by decide) (fun hop => absurd hop hadd) (fun hop => absurd hop hmod)
      fun hop => absurd hop hdel

end Calls

/-! ## Runs -/

/-- There are no instances. -/
def Epolls.none : Epolls := fun _ => .zero

theorem shows_empty {ep : EpollInstance} (h : ep.count = 0) : ep.Shows ⟨[], List.nodup_nil⟩ := by
  refine ⟨?_, by rw [h]; exact Nat.zero_le _⟩
  rw [EpollInstance.entries, h]
  rfl

/-- Every instance shows a map, whatever has been called. -/
theorem reach_shows {eps : Epolls} (h : Reach (· = Epolls.none) Epolls.Call eps) (idx : Nat) :
    ∃ m, (eps idx).Shows m := by
  induction h generalizing idx with
  | start h0 =>
      rw [h0]
      exact ⟨_, shows_empty rfl⟩
  | @next eps eps' _ hcall ih =>
      cases hcall with
      | create =>
          rw [sysEpollCreate1, epollAlloc]
          cases Scan.first (fun i => !(eps i).used) maxEpolls 0 with
          | none => exact ih idx
          | some i =>
              dsimp only
              by_cases hi : idx = i
              · rw [hi, Epolls.set_self]
                exact ⟨_, shows_empty rfl⟩
              · rw [Epolls.set_ne hi]
                exact ih idx
      | ctl epfd op fd ev =>
          cases hi : epollOf eps epfd with
          | none =>
              rw [sysEpollCtl, hi]
              exact ih idx
          | some i =>
              obtain ⟨m, hm⟩ := ih i
              have hdoes : CtlDoes eps i m op fd ev (sysEpollCtl eps epfd op fd ev) :=
                sysEpollCtl_does hi hm
              obtain ⟨m', hm', _, _, hothers⟩ := hdoes
              by_cases hidx : idx = i
              · rw [hidx]
                exact ⟨m', hm'⟩
              · rw [hothers idx hidx]
                exact ih idx

/-! ## Waiting -/

/-- What a wait has to say of an entry, if anything. -/
def report (n : Net σ) (e : Int × EpollEvent) : Option EpollEvent :=
  let revents := epollRevents n ⟨e.1, e.2⟩
  if revents ≠ 0 then some ⟨revents, e.2.data⟩ else none

/-- The loop of `sys_epoll_wait` over `k` entries from `i` on, with room for more events. -/
theorem epollScan_reports (n : Net σ) (ep : EpollInstance) (maxevents : Int) :
    ∀ (k i : Nat) (out : List (EpollEventEntry × EpollEvent)), (out.length : Int) < maxevents →
      (epollScan n ep maxevents k i out).map Prod.snd = out.map Prod.snd ++
        (((List.range' i k).map fun j => ((ep.fds j).fd, (ep.fds j).event)).filterMap
          (report n)).take
          (maxevents.toNat - out.length) := by
  intro k
  induction k with
  | zero =>
      intro i out _
      rw [epollScan, List.range'_zero, List.map_nil, List.filterMap_nil, List.take_nil,
        List.append_nil]
  | succ k ih =>
      intro i out hroom
      rw [epollScan, List.range'_succ, List.map_cons]
      dsimp only
      by_cases hready : epollRevents n (ep.fds i) ≠ 0
      · have hreport : report n ((ep.fds i).fd, (ep.fds i).event) =
            some ⟨epollRevents n (ep.fds i), (ep.fds i).event.data⟩ := if_pos hready
        have hleft : maxevents.toNat - out.length
          = maxevents.toNat - (out.length + 1) + 1 := by omega
        rw [if_pos hready, List.filterMap_cons_some hreport, hleft, List.take_succ_cons]
        by_cases hfull : ((out ++ [(ep.fds i,
          (⟨epollRevents n (ep.fds i), (ep.fds i).event.data⟩ : EpollEvent))]).length
            : Int) ≥ maxevents
        · -- there is no room for another
          rw [if_pos hfull, List.map_append]
          rw [List.length_append, List.length_singleton] at hfull
          rw [show maxevents.toNat - (out.length + 1) = 0 by omega, List.take_zero]
          rfl
        · rw [if_neg hfull, ih _ _ (by omega), List.map_append, List.length_append,
            List.length_singleton,
            List.append_assoc]
          rfl
      · have hreport : report n ((ep.fds i).fd, (ep.fds i).event) = none := if_neg hready
        rw [if_neg hready, List.filterMap_cons_none hreport, ih _ _ hroom]

/-- **An instance is a map that remembers its order**, after whatever calls: each call on it is a
step of that map, and a wait that does not sleep reports the first of its entries that are ready. -/
theorem epoll_refines_map {eps : Epolls} (h : Reach (· = Epolls.none) Epolls.Call eps) {epfd : Int} {idx : Nat}
    (hidx : epollOf eps epfd = some idx) : ∃ m : OrderedMap Int EpollEvent,
    (eps idx).Shows m ∧ m.size ≤ maxEpollFds
      ∧ (∀ op fd ev, CtlDoes eps idx m op fd ev (sysEpollCtl eps epfd op fd ev))
      ∧ ∀ (n : Net σ) (maxevents : Int), 1 ≤ maxevents → ∃ out,
        sysEpollWait n eps epfd maxevents 0 = .ret out.length out
          ∧ out.map Prod.snd = (m.entries.filterMap (report n)).take maxevents.toNat := by
  obtain ⟨m, hm⟩ := reach_shows h idx
  refine ⟨m, hm, ?_, fun op fd ev => sysEpollCtl_does hidx hm, fun n maxevents hmax => ?_⟩
  · rw [hm.size]
    exact hm.room
  · refine ⟨epollScan n (eps idx) maxevents (eps idx).count 0 [], ?_, ?_⟩
    · rw [sysEpollWait, hidx]
      dsimp only
      rw [epollTurn]
      dsimp only
      rw [if_pos (.inr rfl)]
    · have hscan := epollScan_reports n (eps idx) maxevents (eps idx).count 0 []
        (by rw [List.length_nil]; omega)
      rw [hscan, ← hm.entries, EpollInstance.entries, List.range_eq_range']
      rfl

/-- An instance that was given the descriptors 3, 4 and 5, lost 3 and was given it again. -/
def turnedEpoll : Epolls :=
  [(1, 3), (1, 4), (1, 5), (2, 3), (1, 3)].foldl
    (fun eps (call : Int × Int) => (sysEpollCtl eps 200 call.1 call.2 ⟨1, call.2.toNat⟩).1) (sysEpollCreate1 Epolls.none).1

/-- What was taken out and put back is the last one. -/
theorem epoll_refines_map_one : ((turnedEpoll 0).entries.map Prod.fst = [4, 5, 3])
    ∧ ∃ m : OrderedMap Int EpollEvent, (turnedEpoll 0).Shows m ∧ m.size ≤ maxEpollFds
      ∧ (∀ op fd ev, CtlDoes turnedEpoll 0 m op fd ev (sysEpollCtl turnedEpoll 200 op fd ev))
      ∧ ∀ (n : Net Nat) (maxevents : Int), 1 ≤ maxevents → ∃ out,
        sysEpollWait n turnedEpoll 200 maxevents 0 = .ret out.length out
          ∧ out.map Prod.snd = (m.entries.filterMap (report n)).take maxevents.toNat :=
  ⟨by decide, epoll_refines_map (.next (.next
    (.next (.next (.next (.next (.start rfl) .create) (.ctl 200 1 3 ⟨1, 3⟩))
    (.ctl 200 1 4 ⟨1, 4⟩)) (.ctl 200 1 5 ⟨1, 5⟩)) (.ctl 200 2 3 ⟨1, 3⟩)) (.ctl 200 1 3 ⟨1, 3⟩))
      (by decide)⟩

end VnlKernel
