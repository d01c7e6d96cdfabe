import VnlKernel.Logged
import VnlKernel.Proof.SockXfer

/-!
# What the walk over control messages reads

The walk goes from header to header by lengths that the caller has written. Each is added to
the offset in 64 bits, once to see whether the message ends inside the buffer and once,
rounded up, to go to the next header. Both sums may wrap. Where they do, the walk reads behind
the buffer or goes back to a header it has been at, unless a descriptor it reads first cannot
be sent; where they do not, it ends and stays inside.
-/

namespace VnlKernel

open Bits

variable {σ : Type}

/-! ## The walk, with what it reads -/

/-- Something the walk reads: a header, or a descriptor at an address. -/
inductive CtlRead where
  | header (offset : Nat)
  | fd (addr : Nat)
deriving DecidableEq

/-- It lies inside the buffer. -/
def CtlRead.Inside (controllen : Nat) : CtlRead → Prop
  | .header offset => offset + cmsghdrSize ≤ controllen
  | .fd addr => addr + 4 ≤ controllen

/-- The headers among what was read. -/
def headerReads (log : List CtlRead) : List Nat :=
  log.filterMap fun
    | .header offset => some offset
    | .fd _ => none

/-- Does the header at `offset` announce descriptors? -/
def IsRights (control : Nat → UInt8) (offset : Nat) : Prop :=
  readInt control (offset + 8) = solSocket ∧ readInt control (offset + 12) = scmRights

instance (control : Nat → UInt8) (offset : Nat) : Decidable (IsRights control offset) :=
  inferInstanceAs (Decidable (_ ∧ _))

/-- `sendFds`, with the descriptors it reads from `base` on. -/
def sendFdsReads (i j : Nat) (control : Nat → UInt8) (base : Nat) :
    Nat → Nat → Net σ → Logged CtlRead (Net σ × List Ev × Int)
  | 0, _, n => pure (n, [], 0)
  | k + 1, f, n => do
      Logged.note (.fd (base + 4 * f))
      let (n, log, r) := sendFd n i j (readInt control (base + 4 * f))
      if r < 0 then pure (n, log, r)
      else do
        let (n, log', r) ← sendFdsReads i j control base k (f + 1) n
        pure (n, log ++ log', r)

/-- What is done with the message at `offset`, with what is read behind its header. -/
def messageReads (i j : Nat) (control : Nat → UInt8) (offset : Nat) (n : Net σ) :
    Logged CtlRead (Net σ × List Ev × Int) :=
  if IsRights control offset then
    sendFdsReads i j control (offset + cmsghdrSize) ((ByteMem.read64 control offset - cmsghdrSize) / 4) 0 n
  else pure (n, [], 0)

/-- `sendControl`, with what it reads. -/
def sendControlReads (i j : Nat) (control : Nat → UInt8) (controllen : Nat) :
    Nat → Nat → Net σ → Logged CtlRead (Net σ × List Ev × Int)
  | 0, _, _ => .lift .timeout
  | fuel + 1, offset, n =>
      if u64 (offset + cmsghdrSize) ≤ controllen then do
        Logged.note (.header offset)
        let cmsgLen := ByteMem.read64 control offset
        if cmsgLen < cmsghdrSize ∨ u64 (offset + cmsgLen) > controllen then pure (n, [], 0)
        else do
          let (n, log, r) ← messageReads i j control offset n
          if r < 0 then pure (n, log, r)
          else do
            let (n, log', r) ←
              sendControlReads i j control controllen fuel (u64 (offset + alignUp cmsgLen 8)) n
            pure (n, log ++ log', r)
      else pure (n, [], 0)

/-- **The walk is bounded**: it ends, it goes forward from header to header, and it stays inside the
buffer. -/
structure WalkBounded (n : Net σ) (i j : Nat) (control : Nat → UInt8) (controllen : Nat) : Prop where
  ends : ∃ fuel x, sendControl i j control controllen fuel 0 n = .done x
  forward : ∀ fuel, (headerReads (sendControlReads i j control controllen fuel 0 n).log).Pairwise (· < ·)
  inside : ∀ fuel, ∀ e ∈ (sendControlReads i j control controllen fuel 0 n).log, e.Inside controllen

section Reads

variable {n m : Net σ} {i j : Nat} {control : Nat → UInt8} {controllen offset : Nat}

theorem sendFdsReads_out (base : Nat) : ∀ (k f : Nat) (n : Net σ),
    (sendFdsReads i j control base k f n).out
      = .done (sendFds i j (fun f => readInt control (base + 4 * f)) k f n)
  | 0, _, _ => rfl
  | k + 1, f, n => by
      obtain ⟨⟨m, log, r⟩, hf⟩ : ∃ x, sendFd n i j (readInt control (base + 4 * f)) = x := ⟨_, rfl⟩
      rw [sendFdsReads, sendFds, Logged.bind_of_done (Logged.note_out _)]
      simp only [hf]
      split
      · rfl
      · rw [Logged.bind_out, sendFdsReads_out base k (f + 1) m]
        rfl

theorem messageReads_out (n : Net σ) : (messageReads i j control offset n).out
    = .done (if readInt control (offset + 8) = solSocket ∧ readInt control (offset + 12) = scmRights then
        sendFds i j (fun f => readInt control (offset + cmsghdrSize + 4 * f))
          ((ByteMem.read64 control offset - cmsghdrSize) / 4) 0 n
      else (n, [], 0)) := by
  unfold messageReads
  by_cases h : IsRights control offset
  · rw [if_pos h, sendFdsReads_out]
    exact congrArg Outcome.done (if_pos h).symm
  · rw [if_neg h]
    exact congrArg Outcome.done (if_neg h).symm

/-- **It is the same walk.** -/
theorem sendControlReads_out : ∀ (fuel offset : Nat) (n : Net σ),
    (sendControlReads i j control controllen fuel offset n).out
      = sendControl i j control controllen fuel offset n
  | 0, _, _ => rfl
  | fuel + 1, offset, n => by
      rw [sendControlReads, sendControl]
      split
      · rw [Logged.bind_of_done (Logged.note_out _)]
        dsimp only
        split
        · rfl
        · rw [Logged.bind_out, messageReads_out]
          generalize (if readInt control (offset + 8) = solSocket
            ∧ readInt control (offset + 12) = scmRights then _ else _ : Net σ × List Ev × Int) = g
          obtain ⟨m, log, r⟩ := g
          rw [Outcome.bind_done]
          dsimp only
          split
          · rfl
          · rw [Logged.bind_out, sendControlReads_out fuel _ m]
            rfl
      · rfl

/-- More than what can be sent cannot be sent. -/
theorem canQueue_of_append : ∀ {l rest : List Int} {free : Nat} {v : Vfs σ},
    CanQueue n (l ++ rest) free v → CanQueue n l free v
  | [], _, _, _, _ => trivial
  | f :: l, rest, free, v, h => by
      rw [List.cons_append, CanQueue] at h
      rw [CanQueue]
      refine ⟨h.1, ?_⟩
      by_cases hs : unixIsSockfd n f = true
      · rw [if_pos hs]
        have h2 := h.2
        rw [if_pos hs] at h2
        exact canQueue_of_append h2
      · rw [if_neg hs]
        have h2 := h.2
        rw [if_neg hs] at h2
        exact ⟨h2.1, canQueue_of_append h2.2⟩

theorem Passes.of_append {l rest : List Int} (h : Passes n j (l ++ rest)) : Passes n j l :=
  canQueue_of_append h

/-- A descriptor is read when all before it have been sent. -/
theorem mem_sendFdsReads (base : Nat) {e : CtlRead} : ∀ (k f : Nat) (n : Net σ),
    e ∈ (sendFdsReads i j control base k f n).log ↔ ∃ g, g < k
      ∧ Passes n j (RingBuf.slice (fun f => readInt control (base + 4 * f)) f g)
      ∧ e = .fd (base + 4 * (f + g))
  | 0, f, n => by simp [sendFdsReads]
  | k + 1, f, n => by
      obtain ⟨⟨m, log, r⟩, hf⟩ : ∃ x, sendFd n i j (readInt control (base + 4 * f)) = x := ⟨_, rfl⟩
      rw [sendFdsReads, Logged.bind_of_done (Logged.note_out _)]
      simp only [hf, Logged.note_log]
      have hfirst : e = .fd (base + 4 * f) → ∃ g, g < k + 1
          ∧ Passes n j (RingBuf.slice (fun f => readInt control (base + 4 * f)) f g)
          ∧ e = .fd (base + 4 * (f + g)) := fun he => ⟨0, by omega, trivial, he⟩
      rcases sendFd_result hf with ⟨rfl, hq⟩ | ⟨hr, hq⟩
      · -- it is sent, and the others are read as they would be afterwards
        rw [if_neg (by decide), List.mem_append, List.mem_singleton, Logged.mem_bind,
          mem_sendFdsReads base k (f + 1) m]
        constructor
        · rintro (he | ⟨g, hg, hp, he⟩ | ⟨a, _, he⟩)
          · exact hfirst he
          · refine ⟨g + 1, by omega, ?_, by rw [he]; congr 2; omega⟩
            rw [RingBuf.slice_succ, ← List.singleton_append]
            exact (hq.2 _).mpr hp
          · exact absurd he (by simp)
        · rintro ⟨g, hg, hp, he⟩
          cases g with
          | zero => exact Or.inl he
          | succ g =>
              rw [RingBuf.slice_succ, ← List.singleton_append] at hp
              exact Or.inr (Or.inl ⟨g, by omega, (hq.2 _).mp hp, by rw [he]; congr 2; omega⟩)
      · rw [if_pos hr, Logged.pure_log, List.append_nil, List.mem_singleton]
        constructor
        · exact hfirst
        · rintro ⟨g, hg, hp, he⟩
          cases g with
          | zero => exact he
          | succ g =>
              rw [RingBuf.slice_succ, ← List.singleton_append] at hp
              exact absurd hp (hq.1 _)

/-! ## One header -/

/-- The first `k` descriptors behind the header at `offset`. -/
def fdsBehind (control : Nat → UInt8) (offset k : Nat) : List Int :=
  RingBuf.slice (fun f => readInt control (offset + cmsghdrSize + 4 * f)) 0 k

/-- The descriptors that the message at `offset` carries. -/
def messageFds (control : Nat → UInt8) (offset : Nat) : List Int :=
  if IsRights control offset then
    fdsBehind control offset ((ByteMem.read64 control offset - cmsghdrSize) / 4)
  else []

theorem messageReads_result (i j : Nat) (control : Nat → UInt8) (offset : Nat) (n : Net σ) :
    ∃ m log r,
    (messageReads i j control offset n).out = .done (m, log, r)
      ∧ (r = 0 ∧ AllQueued n m j (messageFds control offset)
        ∨ r < 0 ∧ Refused n m j (messageFds control offset)) := by
  unfold messageReads messageFds
  by_cases h : IsRights control offset
  · rw [if_pos h, if_pos h]
    obtain ⟨⟨m, log, r⟩, hs⟩ : ∃ x, sendFds i j
        (fun f => readInt control (offset + cmsghdrSize + 4 * f))
        ((ByteMem.read64 control offset - cmsghdrSize) / 4) 0 n = x := ⟨_, rfl⟩
    exact ⟨m, log, r, by rw [sendFdsReads_out, hs], sendFds_result _ _ _ hs⟩
  · rw [if_neg h, if_neg h]
    exact ⟨n, [], 0, rfl, Or.inl ⟨rfl, .nil n j⟩⟩

/-- What is read behind a header. -/
theorem mem_messageReads {e : CtlRead} : e ∈ (messageReads i j control offset n).log ↔
    IsRights control offset ∧ ∃ g, g < (ByteMem.read64 control offset - cmsghdrSize) / 4
      ∧ Passes n j (fdsBehind control offset g) ∧ e = .fd (offset + cmsghdrSize + 4 * g) := by
  unfold messageReads
  by_cases h : IsRights control offset
  · rw [if_pos h, mem_sendFdsReads]
    simp only [Nat.zero_add, h, true_and]
    exact Iff.rfl
  · rw [if_neg h]
    simp [h]

theorem headerReads_messageReads : headerReads (messageReads i j control offset n).log = [] := by
  rw [headerReads, List.filterMap_eq_nil_iff]
  intro e he
  obtain ⟨_, g, _, _, rfl⟩ := mem_messageReads.mp he
  rfl

/-- The walk is over when no header fits. -/
theorem walk_stop (hoff : ¬ u64 (offset + cmsghdrSize) ≤ controllen) (k : Nat) :
    sendControlReads i j control controllen (k + 1) offset n = pure (n, [], 0) := by
  rw [sendControlReads, if_neg hoff]

/-- The walk is over at a header that cannot be right. -/
theorem walk_break (hoff : u64 (offset + cmsghdrSize) ≤ controllen)
    (hbad : ByteMem.read64 control offset < cmsghdrSize
      ∨ u64 (offset + ByteMem.read64 control offset) > controllen) (k : Nat) :
    sendControlReads i j control controllen (k + 1) offset n
      = ⟨[.header offset], .done (n, [], 0)⟩ := by
  rw [sendControlReads, if_pos hoff, Logged.bind_of_done (Logged.note_out _)]
  dsimp only
  rw [if_pos hbad]
  rfl

/-- The walk ends in the message at `offset`, or goes on behind it. -/
theorem walk_message (n : Net σ) (hoff : u64 (offset + cmsghdrSize) ≤ controllen)
    (hgood : ¬ (ByteMem.read64 control offset < cmsghdrSize
      ∨ u64 (offset + ByteMem.read64 control offset) > controllen)) :
    ∃ m, (Refused n m j (messageFds control offset)
        ∧ ∀ k, (sendControlReads i j control controllen (k + 1) offset n).log
            = .header offset :: (messageReads i j control offset n).log
          ∧ ∃ x, (sendControlReads i j control controllen (k + 1) offset n).out = .done x)
      ∨ AllQueued n m j (messageFds control offset)
        ∧ ∀ k, (sendControlReads i j control controllen (k + 1) offset n).log
            = .header offset :: (messageReads i j control offset n).log ++
              (sendControlReads i j control
              controllen k (u64 (offset + alignUp (ByteMem.read64 control offset) 8)) m).log
          ∧ ((∃ x, (sendControlReads i j control controllen k
              (u64 (offset + alignUp (ByteMem.read64 control offset) 8)) m).out = .done x)
            → ∃ x, (sendControlReads i j control controllen (k + 1) offset n).out = .done x) := by
  obtain ⟨m, log, r, hout, hres⟩ := messageReads_result i j control offset n
  -- one turn of the loop, with what the message comes to
  have hstep : ∀ k, sendControlReads i j control controllen (k + 1) offset n
      = ⟨.header offset :: (messageReads i j control offset n).log ++
          (if r < 0 then pure (m, log, r) else do
            let (n', log', r) ← sendControlReads i j control controllen k
              (u64 (offset + alignUp (ByteMem.read64 control offset) 8)) m
            pure (n', log ++ log', r) : Logged CtlRead (Net σ × List Ev × Int)).log,
        (if r < 0 then pure (m, log, r) else do
            let (n', log', r) ← sendControlReads i j control controllen k
              (u64 (offset + alignUp (ByteMem.read64 control offset) 8)) m
            pure (n', log ++ log', r) : Logged CtlRead (Net σ × List Ev × Int)).out⟩ := by
    intro k
    rw [sendControlReads, if_pos hoff, Logged.bind_of_done (Logged.note_out _)]
    dsimp only
    rw [if_neg hgood, Logged.bind_of_done hout]
    rfl
  refine ⟨m, ?_⟩
  rcases hres with ⟨rfl, hq⟩ | ⟨hr, hq⟩
  · -- every descriptor was queued
    right
    refine ⟨hq, fun k => ?_⟩
    rw [hstep k, if_neg (by decide)]
    generalize sendControlReads i j control controllen k _ m = y
    refine ⟨?_, ?_⟩
    · dsimp only
      congr 1
      obtain ⟨ylog, yout⟩ := y
      cases yout with
      | done a => exact List.append_nil _
      | panic msg => rfl
      | timeout => rfl
    · rintro ⟨x, hx⟩
      dsimp only
      rw [Logged.bind_out, hx]
      exact ⟨_, rfl⟩
  · -- one was refused, and that is the end
    left
    refine ⟨hq, fun k => ?_⟩
    rw [hstep k, if_pos hr]
    exact ⟨List.append_nil _, _, rfl⟩

theorem headerReads_message (rest : List CtlRead) :
    headerReads (.header offset :: (messageReads i j control offset n).log ++ rest)
      = offset :: headerReads rest := by
  have hnil : headerReads (messageReads i j control offset n).log = [] := headerReads_messageReads
  unfold headerReads at hnil ⊢
  rw [List.cons_append, List.filterMap_cons, List.filterMap_append, hnil]
  rfl

/-- A message that is the last one reads no other header than its own. -/
theorem headerReads_only :
    headerReads (.header offset :: (messageReads i j control offset n).log) = [offset] := by
  have honly : headerReads (.header offset :: (messageReads i j control offset n).log ++ [])
      = [offset] :=
    headerReads_message []
  rw [List.append_nil] at honly
  exact honly

/-- A header that seems to fit is read. -/
theorem header_read (i j : Nat) (control : Nat → UInt8) (n : Net σ)
    (hoff : u64 (offset + cmsghdrSize) ≤ controllen) (k : Nat) :
    ∃ rest, (sendControlReads i j control controllen (k + 1) offset n).log
      = .header offset :: rest := by
  rw [sendControlReads, if_pos hoff, Logged.bind_of_done (Logged.note_out _)]
  exact ⟨_, rfl⟩

/-- Fewer descriptors behind the same header. -/
theorem fdsBehind_le {g k : Nat} (h : g ≤ k) :
    ∃ rest, fdsBehind control offset k = fdsBehind control offset g ++ rest := by
  unfold fdsBehind RingBuf.slice
  obtain ⟨d, rfl⟩ := Nat.exists_eq_add_of_le h
  rw [List.range_add, List.map_append]
  exact ⟨_, rfl⟩

theorem Passes.fdsBehind_le {g k : Nat} (hp : Passes n j (fdsBehind control offset k)) (h : g ≤ k) :
    Passes n j (fdsBehind control offset g) := by
  obtain ⟨rest, hrest⟩ : ∃ rest, fdsBehind control offset k = fdsBehind control offset g ++ rest :=
    VnlKernel.fdsBehind_le h
  rw [hrest] at hp
  exact hp.of_append

/-- Where the walk goes next: to where the next header is, or back. -/
theorem next_offset {len : Nat} (offset : Nat) (hlen : len < 2 ^ 64) (hoff : offset < 2 ^ 64) :
    offset + (len + 7) / 8 * 8 < 2 ^ 64 ∧ u64 (offset + alignUp len 8) = offset + (len + 7) / 8 * 8
      ∨ 2 ^ 64 ≤ offset + (len + 7) / 8 * 8 ∧ u64 (offset + alignUp len 8) ≤ offset := by
  by_cases hup : len + 7 < 2 ^ 64
  · have hal : alignUp len 8 = (len + 7) / 8 * 8 := alignUp_pow (k := 3) hup (by decide)
    rw [hal]
    by_cases hsum : offset + (len + 7) / 8 * 8 < 2 ^ 64
    · exact Or.inl ⟨hsum, u64_of_lt hsum⟩
    · refine Or.inr ⟨by omega, ?_⟩
      unfold u64
      omega
  · -- rounding up wraps, and the walk stays where it is
    have hal : alignUp len 8 = 0 := by
      have hlow : u64 (len + (8 - 1)) = len + 7 - 2 ^ 64 := by
        unfold u64
        omega
      have hmask := and_mask (v := len + 7 - 2 ^ 64) (k := 3) (by omega) (by decide)
      unfold alignUp
      rw [hlow]
      refine hmask.trans ?_
      omega
    rw [hal, Nat.add_zero offset, u64_of_lt hoff]
    exact Or.inr ⟨by omega, Nat.le_refl _⟩

end Reads

/-! ## Where nothing wraps -/

/-- The header at `offset` is reached when sums do not wrap, and these are the descriptors that the
messages before it carry. -/
inductive Reaches (control : Nat → UInt8) (controllen : Nat) : Nat → List Int → Prop
  | start : Reaches control controllen 0 []
  | next {offset : Nat} {l : List Int} (h : Reaches control controllen offset l)
      (hoff : offset + cmsghdrSize ≤ controllen) (hlen : cmsghdrSize ≤ ByteMem.read64 control offset)
      (hend : offset + ByteMem.read64 control offset ≤ controllen) :
      Reaches control controllen (offset + (ByteMem.read64 control offset + 7) / 8 * 8)
        (l ++ messageFds control offset)

/-- Nothing wraps at a header that is reached with all descriptors before it sent, unless it
announces descriptors of which one inside the buffer cannot be sent. -/
def WrapFree (n : Net σ) (j : Nat) (control : Nat → UInt8) (controllen : Nat) : Prop :=
  ∀ offset l, Reaches control controllen offset l → Passes n j l →
    offset + cmsghdrSize < 2 ^ 64
      ∧ (offset + cmsghdrSize ≤ controllen → cmsghdrSize ≤ ByteMem.read64 control offset →
        2 ^ 64 ≤ offset + ByteMem.read64 control offset →
        IsRights control offset
          ∧ ¬ Passes n j (l ++ fdsBehind control offset ((controllen - offset - cmsghdrSize) / 4)))

section Bounded

variable {n m : Net σ} {i j : Nat} {control : Nat → UInt8} {controllen offset : Nat} {l : List Int}

theorem Reaches.aligned (h : Reaches control controllen offset l) :
    8 ∣ offset ∧ (offset = 0 ∨ cmsghdrSize ≤ controllen) := by
  induction h with
  | start => exact ⟨by omega, Or.inl rfl⟩
  | next h hoff hlen hend ih => exact ⟨by omega, Or.inr (by omega)⟩

/-- Everything read for one message lies inside the buffer, if its descriptors do. -/
theorem message_inside (hoff : offset + cmsghdrSize ≤ controllen)
    (hfds : ∀ g, g < (ByteMem.read64 control offset - cmsghdrSize) / 4 →
      Passes n j (fdsBehind control offset g) → offset + cmsghdrSize + 4 * g + 4 ≤ controllen) :
    ∀ e ∈ CtlRead.header offset :: (messageReads i j control offset n).log,
      e.Inside controllen := by
  intro e he
  rcases List.mem_cons.mp he with rfl | he
  · exact hoff
  · obtain ⟨_, g, hg, hp, rfl⟩ := mem_messageReads.mp he
    exact hfds g hg hp

/-- The walk is bounded from `offset` on. -/
structure BoundedFrom (n : Net σ) (i j : Nat) (control : Nat → UInt8) (controllen offset : Nat) : Prop where
  ends : ∃ fuel x, (sendControlReads i j control controllen fuel offset n).out = .done x
  forward : ∀ fuel, (headerReads (sendControlReads i j control controllen fuel offset n).log).Pairwise (· < ·)
  above : ∀ fuel, ∀ o ∈ headerReads (sendControlReads i j control controllen fuel offset n).log, offset ≤ o
  inside : ∀ fuel, ∀ e ∈ (sendControlReads i j control controllen fuel offset n).log, e.Inside controllen

/-- The walk ends here, having read this much. -/
theorem BoundedFrom.last {log : List CtlRead}
    (hhdr : headerReads log = [] ∨ headerReads log = [offset])
    (hin : ∀ e ∈ log, e.Inside controllen)
    (h : ∀ k, (sendControlReads i j control controllen (k + 1) offset n).log = log
      ∧ ∃ x, (sendControlReads i j control controllen (k + 1) offset n).out = .done x) :
    BoundedFrom n i j control controllen offset where
  ends := ⟨1, (h 0).2⟩
  forward := by
    intro fuel
    cases fuel with
    | zero => exact .nil
    | succ k =>
        rw [(h k).1]
        rcases hhdr with he | he
        · rw [he]; exact .nil
        · rw [he]; exact List.pairwise_singleton _ _
  above := by
    intro fuel o ho
    cases fuel with
    | zero => exact absurd ho (by simp [sendControlReads, headerReads])
    | succ k =>
        rw [(h k).1] at ho
        rcases hhdr with he | he
        · rw [he] at ho; exact absurd ho (by simp)
        · rw [he, List.mem_singleton] at ho; omega
  inside := by
    intro fuel e he
    cases fuel with
    | zero => exact absurd he (by simp [sendControlReads])
    | succ k => rw [(h k).1] at he; exact hin e he

/-- The walk goes on further up. -/
theorem BoundedFrom.more {next : Nat} (h : BoundedFrom m i j control controllen next)
    (hlt : offset < next)
    (hin : ∀ e ∈ CtlRead.header offset :: (messageReads i j control offset n).log,
      e.Inside controllen)
    (hstep : ∀ k, (sendControlReads i j control controllen (k + 1) offset n).log
        = .header offset :: (messageReads i j control offset n).log
          ++ (sendControlReads i j control controllen k next m).log
      ∧ ((∃ x, (sendControlReads i j control controllen k next m).out = .done x)
        → ∃ x, (sendControlReads i j control controllen (k + 1) offset n).out = .done x)) :
    BoundedFrom n i j control controllen offset where
  ends := by
    obtain ⟨k, hk⟩ := h.ends
    exact ⟨k + 1, (hstep k).2 hk⟩
  forward := by
    intro fuel
    cases fuel with
    | zero => exact .nil
    | succ k =>
        rw [(hstep k).1, headerReads_message, List.pairwise_cons]
        exact ⟨fun o ho => Nat.lt_of_lt_of_le hlt (h.above k o ho), h.forward k⟩
  above := by
    intro fuel o ho
    cases fuel with
    | zero => exact absurd ho (by simp [sendControlReads, headerReads])
    | succ k =>
        rw [(hstep k).1, headerReads_message] at ho
        rcases List.mem_cons.mp ho with rfl | ho
        · exact Nat.le_refl _
        · exact Nat.le_of_lt (Nat.lt_of_lt_of_le hlt (h.above k o ho))
  inside := by
    intro fuel e he
    cases fuel with
    | zero => exact absurd he (by simp [sendControlReads])
    | succ k =>
        rw [(hstep k).1] at he
        rcases List.mem_append.mp he with he | he
        · exact hin e he
        · exact h.inside k e he

/-- **Where nothing wraps, the walk is bounded** from every header it reaches. What is left of the
buffer gets less from header to header. -/
theorem boundedFrom_reached (hc : controllen < 2 ^ 64) (hw : WrapFree n j control controllen) :
    ∀ (left : Nat) {offset : Nat} {l : List Int} {m : Net σ}, controllen - offset < left →
      Reaches control controllen offset l → (∀ rest, Passes n j (l ++ rest) ↔ Passes m j rest) →
      BoundedFrom m i j control controllen offset
  | 0, offset, l, m, hleft, _, _ => absurd hleft (by omega)
  | left + 1, offset, l, m, hleft, hr, hlink => by
      have hp : Passes n j l := by
        rw [← List.append_nil l]
        exact (hlink []).mpr trivial
      obtain ⟨hlt, hwrap⟩ := hw offset l hr hp
      have hsize : cmsghdrSize = 16 := rfl
      have hlen64 := ByteMem.read64_lt control offset
      have hsum : u64 (offset + cmsghdrSize) = offset + cmsghdrSize := u64_of_lt hlt
      by_cases hoff : offset + cmsghdrSize ≤ controllen
      swap
      · -- no header fits
        refine .last (Or.inl (rfl : headerReads [] = _)) (fun e he => absurd he (by simp)) fun k =>
          ?_
        rw [walk_stop (by rw [hsum]; exact hoff)]
        exact ⟨rfl, _, rfl⟩
      have hoff' : u64 (offset + cmsghdrSize) ≤ controllen := by rw [hsum]; exact hoff
      by_cases hbad : ByteMem.read64 control offset < cmsghdrSize
          ∨ u64 (offset + ByteMem.read64 control offset) > controllen
      · -- a header that cannot be right is the last one read
        refine .last (Or.inr (rfl : headerReads [.header offset] = _)) ?_ fun k => ?_
        · intro e he
          rw [List.mem_singleton.mp he]
          exact hoff
        rw [walk_break hoff' hbad]
        exact ⟨rfl, _, rfl⟩
      have hlen := Nat.not_lt.mp (not_or.mp hbad).1
      have hend := Nat.not_lt.mp (not_or.mp hbad).2
      by_cases hbig : 2 ^ 64 ≤ offset + ByteMem.read64 control offset
      · -- the end wraps, but a descriptor inside the buffer ends the walk
        obtain ⟨hrights, hno⟩ := hwrap hoff hlen hbig
        rw [hlink] at hno
        have hin : ∀ g, g < (ByteMem.read64 control offset - cmsghdrSize) / 4 →
            Passes m j (fdsBehind control offset g)
                → offset + cmsghdrSize + 4 * g + 4 ≤ controllen := by
          intro g _ hg
          by_contra hout
          exact hno (hg.fdsBehind_le (by omega))
        obtain ⟨m', ⟨_, hstep⟩ | ⟨hq, _⟩⟩ := walk_message (i := i) (j := j) m hoff' hbad
        · exact .last (Or.inr headerReads_only) (message_inside hoff hin) hstep
        · refine absurd ?_ hno
          have hall : Passes m j (messageFds control offset) := by
            rw [← List.append_nil (messageFds _ _)]
            exact (hq.2 []).mpr trivial
          rw [messageFds, if_pos hrights] at hall
          exact hall.fdsBehind_le (by omega)
      · have hsum' : u64 (offset + ByteMem.read64 control offset)
            = offset + ByteMem.read64 control offset :=
          u64_of_lt (by omega)
        rw [hsum'] at hend
        have hin : ∀ g, g < (ByteMem.read64 control offset - cmsghdrSize) / 4 →
            Passes m j (fdsBehind control offset g)
                → offset + cmsghdrSize + 4 * g + 4 ≤ controllen := by
          intro g hg _
          omega
        obtain ⟨m', ⟨_, hstep⟩ | ⟨hq, hstep⟩⟩ := walk_message (i := i) (j := j) m hoff' hbad
        · exact .last (Or.inr headerReads_only) (message_inside hoff hin) hstep
        · -- the walk goes on at the next header, and the condition with it
          have hnext := Reaches.next hr hoff hlen hend
          have hlink' : ∀ rest, Passes n j (l ++ messageFds control offset ++ rest)
              ↔ Passes m' j rest := by
            intro rest
            rw [List.append_assoc, hlink]
            exact hq.2 rest
          have hp' : Passes n j (l ++ messageFds control offset) := by
            rw [← List.append_nil (l ++ _)]
            exact (hlink' []).mpr trivial
          obtain ⟨hlt', _⟩ := hw _ _ hnext hp'
          have heq : u64 (offset + alignUp (ByteMem.read64 control offset) 8)
              = offset + (ByteMem.read64 control offset + 7) / 8 * 8 := by
            rcases next_offset offset hlen64 (by omega) with ⟨_, h⟩ | ⟨h, _⟩
            · exact h
            · omega
          simp only [heq] at hstep
          exact .more (boundedFrom_reached hc hw left (by omega) hnext hlink') (by omega)
            (message_inside hoff hin) hstep

/-! ## Where something wraps -/

/-- From one header the walk does not go back. -/
theorem WalkBounded.not_back (hb : WalkBounded n i j control controllen) {k next : Nat}
    {pre : List CtlRead}
    {m' : Net σ} (hlog : (sendControlReads i j control controllen (k + 2) 0 n).log
      = pre ++ (.header offset :: (messageReads i j control offset m).log
        ++ (sendControlReads i j control controllen 1 next m').log))
    (hoff : u64 (next + cmsghdrSize) ≤ controllen) : offset < next := by
  obtain ⟨rest, hrest⟩ := header_read i j control m' hoff 0
  have hf := hb.forward (k + 2)
  rw [hlog, hrest] at hf
  unfold headerReads at hf
  rw [List.filterMap_append] at hf
  have htail := (List.pairwise_append.mp hf).2.1
  have hshape : headerReads (.header offset :: (messageReads i j control offset m).log
      ++ CtlRead.header next :: rest) = offset :: headerReads (CtlRead.header next :: rest) :=
    headerReads_message _
  unfold headerReads at hshape
  rw [hshape] at htail
  exact (List.pairwise_cons.mp htail).1 next (List.mem_cons_self ..)

/-- **A bounded walk gets to every header that is reached**, as long as the descriptors before it
can be sent. -/
theorem WalkBounded.gets_to (hc : controllen < 2 ^ 64) (hb : WalkBounded n i j control controllen)
    (hr : Reaches control controllen offset l) (hp : Passes n j l) :
    offset < 2 ^ 64 ∧ ∃ (k : Nat) (pre : List CtlRead) (m : Net σ),
      (∀ rest, Passes n j (l ++ rest) ↔ Passes m j rest)
      ∧ ∀ fuel, (sendControlReads i j control controllen (k + fuel) 0 n).log
        = pre ++ (sendControlReads i j control controllen fuel offset m).log := by
  induction hr with
  | start =>
      refine ⟨by decide, 0, [], n, fun rest => Iff.rfl, fun fuel => ?_⟩
      rw [Nat.zero_add, List.nil_append]
  | @next offset l hr hoff hlen hend ih =>
      obtain ⟨hlt, k, pre, m, hlink, hlog⟩ := ih hp.of_append
      have hsize : cmsghdrSize = 16 := rfl
      have hlen64 := ByteMem.read64_lt control offset
      have hoff' : u64 (offset + cmsghdrSize)
        ≤ controllen := by rw [u64_of_lt (by omega)]; exact hoff
      have hgood : ¬ (ByteMem.read64 control offset < cmsghdrSize
          ∨ u64 (offset + ByteMem.read64 control offset) > controllen) := by
        rw [u64_of_lt (by omega)]
        omega
      obtain ⟨m', ⟨hq, _⟩ | ⟨hq, hstep⟩⟩ := walk_message (i := i) (j := j) m hoff' hgood
      · have hno := hq.1 []
        rw [List.append_nil] at hno
        exact absurd ((hlink _).mp hp) hno
      · have hlog' : ∀ fuel, (sendControlReads i j control controllen (k + (fuel + 1)) 0 n).log
            = pre ++ (.header offset :: (messageReads i j control offset m).log
              ++ (sendControlReads i j control controllen fuel
                (u64 (offset + alignUp (ByteMem.read64 control offset) 8)) m').log) := by
          intro fuel
          rw [hlog, (hstep fuel).1]
        rcases next_offset offset hlen64 hlt with ⟨hnext, heq⟩ | ⟨_, hback⟩
        · refine ⟨hnext, k + 1, pre ++ .header offset :: (messageReads i j control offset m).log,
            m', ?_, ?_⟩
          · intro rest
            rw [List.append_assoc, hlink]
            exact hq.2 rest
          · intro fuel
            rw [show k + 1 + fuel = k + (fuel + 1) by omega, hlog', heq, List.append_assoc]
        · -- the next offset wraps to one that the walk has been at
          have hfwd := hb.not_back (hlog' 1) (by rw [u64_of_lt (by omega)]; omega)
          omega

theorem WalkBounded.wrapFree (hc : controllen < 2 ^ 64)
    (hb : WalkBounded n i j control controllen) :
    WrapFree n j control controllen := by
  intro offset l hr hp
  obtain ⟨hlt, k, pre, m, hlink, hlog⟩ := hb.gets_to hc hr hp
  obtain ⟨hal, hstart⟩ := hr.aligned
  have hsize : cmsghdrSize = 16 := rfl
  have hlen64 := ByteMem.read64_lt control offset
  refine ⟨?_, fun hoff hlen hbig => ?_⟩
  · -- behind the last 16 bytes there are the header would not be inside
    by_contra hge
    have hwrap : u64 (offset + cmsghdrSize) ≤ controllen := by
      unfold u64
      omega
    obtain ⟨rest, hrest⟩ := header_read i j control m hwrap 0
    have hin : offset + cmsghdrSize ≤ controllen := by
      refine hb.inside (k + 1) (.header offset) ?_
      rw [hlog, hrest]
      exact List.mem_append_right _ (List.mem_cons_self ..)
    omega
  · have hoff' : u64 (offset + cmsghdrSize) ≤ controllen := by rw [u64_of_lt (by omega)]; exact hoff
    have hgood : ¬ (ByteMem.read64 control offset < cmsghdrSize
        ∨ u64 (offset + ByteMem.read64 control offset) > controllen) := by
      rw [not_or, Nat.not_lt, Nat.not_lt]
      refine ⟨hlen, ?_⟩
      unfold u64
      omega
    have hread : ∃ m' : Net σ, ∀ fuel, (sendControlReads i j control controllen
      (k + (fuel + 1)) 0 n).log
          = pre ++ (.header offset :: (messageReads i j control offset m).log)
        ∨ (sendControlReads i j control controllen (k + (fuel + 1)) 0 n).log
          = pre ++ (.header offset :: (messageReads i j control offset m).log
            ++ (sendControlReads i j control controllen fuel
              (u64 (offset + alignUp (ByteMem.read64 control offset) 8)) m').log) := by
      obtain ⟨m', ⟨_, hstep⟩ | ⟨_, hstep⟩⟩ := walk_message (i := i) (j := j) m hoff' hgood
      · exact ⟨m', fun fuel => Or.inl (by rw [hlog, (hstep fuel).1])⟩
      · exact ⟨m', fun fuel => Or.inr (by rw [hlog, (hstep fuel).1])⟩
    have hrights : IsRights control offset := by
      by_contra hno
      -- nothing stops the walk here, and it goes back
      have hnil : messageFds control offset = [] := if_neg hno
      obtain ⟨m', ⟨hq, _⟩ | ⟨_, hstep⟩⟩ := walk_message (i := i) (j := j) m hoff' hgood
      · rw [hnil] at hq
        exact absurd trivial (hq.1 [])
      · have hback : u64 (offset + alignUp (ByteMem.read64 control offset) 8) ≤ offset := by
          rcases next_offset offset hlen64 hlt with ⟨h, _⟩ | ⟨_, h⟩
          · omega
          · exact h
        have hlog' := hlog 2
        rw [(hstep 1).1] at hlog'
        have hfwd := hb.not_back hlog' (by rw [u64_of_lt (by omega)]; omega)
        omega
    refine ⟨hrights, fun hall => ?_⟩
    rw [hlink] at hall
    -- the first descriptor behind the buffer is read
    have hmem : CtlRead.fd (offset + cmsghdrSize + 4 * ((controllen - offset - cmsghdrSize) / 4))
        ∈ (messageReads i j control offset m).log :=
      mem_messageReads.mpr ⟨hrights, _, by omega, hall, rfl⟩
    have hin : offset + cmsghdrSize + 4 * ((controllen - offset - cmsghdrSize) / 4) + 4
        ≤ controllen := by
      refine hb.inside (k + 1) (.fd _) ?_
      obtain ⟨m', hread⟩ := hread
      rcases hread 0 with h | h
      · rw [h]
        exact List.mem_append_right _ (List.mem_cons_of_mem _ hmem)
      · rw [h]
        exact List.mem_append_right _ (List.mem_append_left _ (List.mem_cons_of_mem _ hmem))
    omega

end Bounded

/-- **The walk over control messages is bounded where nothing wraps**, and nowhere else. -/
theorem walk_bounded_iff (n : Net σ) (i j : Nat) (control : Nat → UInt8) {controllen : Nat}
    (hc : controllen < 2 ^ 64) :
    WalkBounded n i j control controllen ↔ WrapFree n j control controllen := by
  constructor
  · exact fun hb => hb.wrapFree hc
  · intro hw
    have hfrom := boundedFrom_reached (i := i) hc hw (controllen + 1) (m := n) (by omega) .start
      fun rest => Iff.rfl
    obtain ⟨fuel, x, hx⟩ := hfrom.ends
    rw [sendControlReads_out] at hx
    exact ⟨⟨fuel, x, hx⟩, hfrom.forward, hfrom.inside⟩

/-- In a buffer of zeros the walk ends at the first header. -/
theorem walk_bounded_zeros : (32 : Nat) < 2 ^ 64 ∧ WalkBounded bootSys.net 0 1 (fun _ => 0) 32 := by
  refine ⟨by decide, (walk_bounded_iff bootSys.net 0 1 (fun _ => 0) (by decide)).mpr ?_⟩
  intro offset l hr _
  have hzero : ∀ o, ByteMem.read64 (fun _ => 0) o = 0 := by
    intro o
    rw [ByteMem.read64, ByteMem.readLE_zeros]
  cases hr with
  | start => exact ⟨by decide, fun _ hlen => absurd hlen (by rw [hzero]; decide)⟩
  | next _ _ hlen _ =>
      rw [hzero] at hlen
      exact absurd hlen (by decide)

/-- Two headers that announce nothing, the second with a length that wraps to the first. -/
def circular : Nat → UInt8 := fun a =>
  ([16, 0, 0, 0, 0, 0, 0, 0, 0, 0, 0, 0, 0, 0, 0, 0,
    0xf0, 0xff, 0xff, 0xff, 0xff, 0xff, 0xff, 0xff, 0, 0, 0, 0, 0, 0, 0, 0] : List UInt8).getD a 0

/-- The walk over these two headers never ends. -/
theorem walk_circular : ¬ WalkBounded bootSys.net 0 1 circular 32
    ∧ ∀ fuel, sendControl 0 1 circular 32 fuel 0 bootSys.net = .timeout := by
  have hnever : ∀ fuel, sendControl 0 1 circular 32 fuel 0 bootSys.net = .timeout
      ∧ sendControl 0 1 circular 32 fuel 16 bootSys.net = .timeout := by
    intro fuel
    induction fuel with
    | zero => exact ⟨rfl, rfl⟩
    | succ fuel ih =>
        refine ⟨?_, ?_⟩
        · rw [sendControl, if_pos (by decide)]
          dsimp only
          rw [if_neg (by decide), if_neg (by decide), if_neg (by decide),
            show u64 (0 + alignUp (ByteMem.read64 circular 0) 8) = 16 by decide, ih.2]
          rfl
        · rw [sendControl, if_pos (by decide)]
          dsimp only
          rw [if_neg (by decide), if_neg (by decide), if_neg (by decide),
            show u64 (16 + alignUp (ByteMem.read64 circular 16) 8) = 0 by decide, ih.1]
          rfl
  refine ⟨fun hb => ?_, fun fuel => (hnever fuel).1⟩
  obtain ⟨fuel, x, hx⟩ := hb.ends
  rw [(hnever fuel).1] at hx
  exact absurd hx (by simp)

end VnlKernel
