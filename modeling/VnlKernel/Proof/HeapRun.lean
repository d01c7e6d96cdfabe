import Mathlib.Data.List.Nodup
import VnlKernel.Proof.HeapAlloc

/-!
# The heap over whole runs

The kernel uses the heap through four calls, in any order, and writes to the
memory it was given in between. `HeapOp` is one such move, `Client` a heap with
the allocations outstanding on it, and `Client.Reachable` every state that the
moves can lead to from `heap_init`.

The discipline the callers owe (`Client.Allowed`) is the usual one: pass back only
pointers that are live, ask for no size near the end of the address space, write
only to memory that is yours. Given that, the heap never loses its shape and no
allocation is ever touched on behalf of another.
-/

namespace VnlKernel

open ByteMem Bits

/-- One use of the heap. `store` is a caller writing a byte of its own. -/
inductive HeapOp where
  | kmalloc (size : Nat)
  | kcalloc (n size : Nat)
  | krealloc (ptr size : Nat)
  | kfree (ptr : Nat)
  | store (addr : Nat) (c : UInt8)
deriving DecidableEq

/-- The allocation a call is about, or zero. -/
def HeapOp.ptr : HeapOp → Nat
  | .krealloc ptr _ => ptr
  | .kfree ptr => ptr
  | _ => 0

/-- A call into the heap, as opposed to a caller's own store. -/
def HeapOp.IsCall : HeapOp → Prop
  | .store _ _ => False
  | _ => True

/-- The heap and what its callers hold: pointers with the sizes they asked for. -/
structure Client (σ : Type) where
  heap : Heap σ
  live : List (Nat × Nat)

/-- The usable bytes behind a live pointer. -/
def payloadLen (m : Mem) (p : Nat) : Nat := blkSize m (p - headerSize) - headerSize - footerSize

/-- The words a block keeps for itself: its header and its footer. -/
def Blk.InTags (b : Blk) (y : Nat) : Prop :=
  (b.addr ≤ y ∧ y < b.addr + headerSize) ∨ (b.lim - footerSize ≤ y ∧ y < b.lim)

/-- The payload of a block, read off its header. -/
theorem payloadLen_of_inv {σ : Type} {base : Nat} {s : Heap σ} {bs : List Blk} {fl : List Nat}
    (h : HeapInv base s bs fl) {b : Blk} (hb : b ∈ bs) :
    payloadLen s.mem (b.addr + 24) = b.size - 32 := by
  have hgeo := tiles_mem h.rep.tiles hb
  unfold payloadLen headerSize footerSize
  rw [Nat.add_sub_cancel, blkSize_of_tagged hgeo.2.2.1 (h.rep.tags b hb)]
  omega

namespace Client

variable {σ : Type}

def step (pg : Pager σ) (fuel : Nat) (c : Client σ) : HeapOp → Outcome (Client σ)
  | .kmalloc size => do
      let (s, p) ← VnlKernel.kmalloc pg fuel c.heap size
      return ⟨s, if p = 0 then c.live else (p, size) :: c.live⟩
  | .kcalloc n size => do
      let (s, p) ← VnlKernel.kcalloc pg fuel c.heap n size
      return ⟨s, if p = 0 then c.live else (p, n * size) :: c.live⟩
  | .krealloc ptr size => do
      let (s, p) ← VnlKernel.krealloc pg fuel c.heap ptr size
      -- a null result leaves the old allocation with the caller
      return ⟨s, if p = 0 then c.live else (p, size) :: c.live.filter (·.1 ≠ ptr)⟩
  | .kfree ptr => do
      let s ← VnlKernel.kfree c.heap ptr
      return ⟨s, c.live.filter (·.1 ≠ ptr)⟩
  | .store addr v => .done { c with heap := { c.heap with mem := setByte c.heap.mem addr v } }

/-- The bytes of `a`'s payload. -/
def Covers (c : Client σ) (a : Nat × Nat) (y : Nat) : Prop :=
  a.1 ≤ y ∧ y < a.1 + payloadLen c.heap.mem a.1

/-- What a caller may do. -/
def Allowed (c : Client σ) : HeapOp → Prop
  | .kmalloc size => size + 32 + 2 * pageSize < 2 ^ 64
  | .kcalloc n size => n * size + 32 + 2 * pageSize < 2 ^ 64
  | .krealloc ptr size => (ptr = 0 ∨ ptr ∈ c.live.map (·.1)) ∧ size + 32 + 2 * pageSize < 2 ^ 64
  | .kfree ptr => ptr = 0 ∨ ptr ∈ c.live.map (·.1)
  | .store addr _ => ∃ a ∈ c.live, c.Covers a addr

/-- The arguments `heap_init` is promised: a region that starts on a page boundary and into which
all the pages there are would fit, and something to start with. -/
structure GoodInit (pg : Pager σ) (s : Heap σ) (base n : Nat) : Prop where
  nonnull : 0 < base
  aligned : 4096 ∣ base
  room : base + 4096 * pg.supply s.pages < 2 ^ 64
  pos : 0 < n
  size : n + 4095 < 2 ^ 64

/-- The states that uses of the heap lead to, from `heap_init(base, n)`. -/
inductive Reachable (pg : Pager σ) (base n : Nat) : Client σ → Prop
  | init {s s' : Heap σ} : GoodInit pg s base n → heapInit pg s base n = .done s' →
      Reachable pg base n ⟨s', []⟩
  | step {c c' : Client σ} {op : HeapOp} {fuel : Nat} : Reachable pg base n c → c.Allowed op →
      c.step pg fuel op = .done c' → Reachable pg base n c'

/-! ## Blocks and their owners -/

/-- The live allocations are the used blocks, one for one. -/
structure Owns (bs : List Blk) (live : List (Nat × Nat)) : Prop where
  owned : ∀ a ∈ live, ∃ b ∈ bs, b.used = true ∧ a.1 = b.addr + 24 ∧ a.2 + 32 ≤ b.size
  owner : ∀ b ∈ bs, b.used = true → b.addr + 24 ∈ live.map (·.1)
  nodup : (live.map (·.1)).Nodup

section Owns

variable {base e : Nat} {bs bs' : List Blk} {live : List (Nat × Nat)} {b nb : Blk}

theorem Owns.block (h : Owns bs live) {p : Nat} (hp : p ∈ live.map (·.1)) :
    ∃ b ∈ bs, b.used = true ∧ p = b.addr + 24 := by
  obtain ⟨a, ha, rfl⟩ := List.mem_map.mp hp
  obtain ⟨b, hb, hu, he, _⟩ := h.owned a ha
  exact ⟨b, hb, hu, he⟩

/-- One more block in use, with its owner. -/
theorem Owns.add (h : Owns bs live) (hT : Tiles base bs' e) (hu : nb.used = true) (hnew : nb ∉ bs)
    (hiff : ∀ x : Blk, x.used = true → (x ∈ bs' ↔ x = nb ∨ x ∈ bs)) {size : Nat}
    (hfits : size + 32 ≤ nb.size) : Owns bs' ((nb.addr + 24, size) :: live) where
  owned := by
    intro a ha
    rcases List.mem_cons.mp ha with rfl | ha
    · exact ⟨nb, (hiff nb hu).mpr (Or.inl rfl), hu, rfl, hfits⟩
    · obtain ⟨b, hb, hbu, h1, h2⟩ := h.owned a ha
      exact ⟨b, (hiff b hbu).mpr (Or.inr hb), hbu, h1, h2⟩
  owner := by
    intro b hb hbu
    rcases (hiff b hbu).mp hb with rfl | hb
    · simp
    · exact List.mem_cons_of_mem _ (h.owner b hb hbu)
  nodup := by
    refine List.nodup_cons.mpr ⟨fun hm => ?_, h.nodup⟩
    obtain ⟨b, hb, hbu, he⟩ := h.block hm
    have he' : nb.addr = b.addr := by
      have : nb.addr + 24 = b.addr + 24 := he
      omega
    have : nb = b := tiles_addr_inj hT ((hiff nb hu).mpr (Or.inl rfl))
      ((hiff b hbu).mpr (Or.inr hb)) he'
    exact hnew (this ▸ hb)

/-- One block fewer in use. -/
theorem Owns.drop (h : Owns bs live) (hT : Tiles base bs e) (hb : b ∈ bs)
    (hiff : ∀ x : Blk, x.used = true → (x ∈ bs' ↔ x ∈ bs ∧ x ≠ b)) :
    Owns bs' (live.filter (·.1 ≠ b.addr + 24)) where
  owned := by
    intro a ha
    obtain ⟨ha, hne⟩ := List.mem_filter.mp ha
    obtain ⟨c, hc, hcu, h1, h2⟩ := h.owned a ha
    refine ⟨c, (hiff c hcu).mpr ⟨hc, ?_⟩, hcu, h1, h2⟩
    rintro rfl
    simp [h1] at hne
  owner := by
    intro c hc hcu
    obtain ⟨hc, hne⟩ := (hiff c hcu).mp hc
    obtain ⟨a, ha, he⟩ := List.mem_map.mp (h.owner c hc hcu)
    refine List.mem_map.mpr ⟨a, List.mem_filter.mpr ⟨ha, ?_⟩, he⟩
    have : c.addr ≠ b.addr := fun h => hne (tiles_addr_inj hT hc hb h)
    simp only [ne_eq, decide_eq_true_eq]
    omega
  nodup := (List.filter_sublist.map _).nodup h.nodup

/-- One block in exchange for another. -/
theorem Owns.swap {e' : Nat} (h : Owns bs live) (hT : Tiles base bs e) (hT' : Tiles base bs' e')
    (hb : b ∈ bs) (hu : nb.used = true) (hnew : nb ∉ bs)
    (hiff : ∀ x : Blk, x.used = true → (x ∈ bs' ↔ x = nb ∨ (x ∈ bs ∧ x ≠ b))) {size : Nat}
    (hfits : size + 32 ≤ nb.size) :
    Owns bs' ((nb.addr + 24, size) :: live.filter (·.1 ≠ b.addr + 24)) := by
  have hmid : ∀ x : Blk, x.used = true → (x ∈ bs.filter (· ≠ b) ↔ x ∈ bs ∧ x ≠ b) :=
    fun x _ => by simp
  refine (h.drop hT hb hmid).add hT' hu (fun hm => hnew (List.mem_filter.mp hm).1) ?_ hfits
  intro x hx
  rw [hiff x hx, hmid x hx]

end Owns

/-! ## One step -/

/-- The heap in shape, its owners accounted for, and room to grow. -/
structure Inv (pg : Pager σ) (base : Nat) (c : Client σ) (bs : List Blk) (fl : List Nat) : Prop where
  heap : HeapInv base c.heap bs fl
  room : c.heap.heapEnd + 4096 * pg.supply c.heap.pages < 2 ^ 64
  owns : Owns bs c.live

/-- What one step does to a heap in shape: it keeps it so, leaves every block in use alone except
the one it was called on, and with fuel to walk the free list it ends. -/
structure StepOk (pg : Pager σ) (base fuel : Nat) (c : Client σ) (bs : List Blk) (fl : List Nat)
    (op : HeapOp) : Prop where
  done : ∀ c', c.step pg fuel op = .done c' → ∃ bs' fl', Inv pg base c' bs' fl'
    ∧ (op.IsCall → ∀ b ∈ bs, b.used = true → b.addr + 24 ≠ op.ptr →
        ∀ y, b.addr ≤ y → y < b.lim → c'.heap.mem y = c.heap.mem y)
  ends : fl.length + 2 ≤ fuel → (c.step pg fuel op).Ends

section Step

variable {pg : Pager σ} {base fuel : Nat} {c : Client σ} {bs : List Blk} {fl : List Nat}

/-- A step that changes nothing. -/
theorem Inv.idle (h : Inv pg base c bs fl) {op : HeapOp} (hs : c.step pg fuel op = .done c) :
    StepOk pg base fuel c bs fl op where
  done := by
    intro c' hc
    cases hs.symm.trans hc
    exact ⟨bs, fl, h, fun _ _ _ _ _ _ _ _ => rfl⟩
  ends := fun _ => by rw [hs]; simp [Outcome.Ends]

/-- The state after an allocation. -/
theorem Inv.alloc (h : Inv pg base c bs fl) {s' : Heap σ} {p size : Nat} {bs' : List Blk}
    {fl' : List Nat} {nb : Blk} (ha : Allocates pg base c.heap bs size s' p bs' fl' nb) :
    Inv pg base ⟨s', if p = 0 then c.live else (p, size) :: c.live⟩ bs' fl' := by
  have hptr := ha.ptr
  rw [if_neg (by omega), hptr]
  have := h.room
  exact ⟨ha.inv, Nat.lt_of_le_of_lt ha.room this,
    h.owns.add ha.inv.rep.tiles ha.takes.used ha.takes.fresh ha.takes.used_iff ha.fits⟩

theorem Inv.kmalloc (h : Inv pg base c bs fl) (hbase : 0 < base) {size : Nat}
    (ha : c.Allowed (.kmalloc size)) : StepOk pg base fuel c bs fl (.kmalloc size) := by
  rcases Nat.eq_zero_or_pos size with rfl | hpos
  · cases fuel with
    | zero => exact ⟨fun c' hc => absurd hc (by simp [step, VnlKernel.kmalloc]), by omega⟩
    | succ fuel => exact h.idle (by simp [step, VnlKernel.kmalloc])
  · obtain ⟨hd, he⟩ := kmalloc_spec fuel h.heap hbase h.room hpos (Nat.le_of_lt ha)
    cases hk : VnlKernel.kmalloc pg fuel c.heap size with
    | panic msg => exact ⟨fun c' hc => absurd hc (by simp [step, hk]), fun _ => by simp [step, hk, Outcome.Ends]⟩
    | timeout => exact ⟨fun c' hc => absurd hc (by simp [step, hk]), fun hf => absurd hk (he hf)⟩
    | done r =>
        obtain ⟨s', p⟩ := r
        obtain ⟨bs', fl', nb, hal⟩ := hd s' p hk
        refine ⟨fun c' hc => ?_, fun _ => by simp [step, hk, Outcome.Ends]⟩
        simp only [step, hk, Outcome.bind_done, Outcome.pure_eq, Outcome.done.injEq] at hc
        subst hc
        exact ⟨bs', fl', h.alloc hal, fun _ b hb hu _ => hal.takes.keeps b hb hu⟩

theorem Inv.kcalloc (h : Inv pg base c bs fl) (hbase : 0 < base) {n size : Nat}
    (ha : c.Allowed (.kcalloc n size)) : StepOk pg base fuel c bs fl (.kcalloc n size) := by
  rcases Nat.eq_zero_or_pos (n * size) with hz | hpos
  · cases fuel with
    | zero =>
        exact ⟨fun c' hc => absurd hc (by simp [step, VnlKernel.kcalloc, VnlKernel.kmalloc]), by omega⟩
    | succ fuel => exact h.idle (by simp [step, VnlKernel.kcalloc, VnlKernel.kmalloc, hz, u64])
  · obtain ⟨hd, he⟩ := kcalloc_spec fuel h.heap hbase h.room hpos (Nat.le_of_lt ha)
    cases hk : VnlKernel.kcalloc pg fuel c.heap n size with
    | panic msg => exact ⟨fun c' hc => absurd hc (by simp [step, hk]), fun _ => by simp [step, hk, Outcome.Ends]⟩
    | timeout => exact ⟨fun c' hc => absurd hc (by simp [step, hk]), fun hf => absurd hk (he hf)⟩
    | done r =>
        obtain ⟨s', p⟩ := r
        obtain ⟨bs', fl', nb, hal, _⟩ := hd s' p hk
        refine ⟨fun c' hc => ?_, fun _ => by simp [step, hk, Outcome.Ends]⟩
        simp only [step, hk, Outcome.bind_done, Outcome.pure_eq, Outcome.done.injEq] at hc
        subst hc
        exact ⟨bs', fl', h.alloc hal, fun _ b hb hu _ => hal.takes.keeps b hb hu⟩

/-- No live pointer is null. -/
theorem Inv.filter_null (h : Inv pg base c bs fl) : c.live.filter (·.1 ≠ 0) = c.live := by
  refine List.filter_eq_self.mpr fun a ha => ?_
  obtain ⟨b, _, _, he, _⟩ := h.owns.owned a ha
  simp [he]

theorem Inv.krealloc (h : Inv pg base c bs fl) (hbase : 0 < base) {ptr size : Nat}
    (ha : c.Allowed (.krealloc ptr size)) : StepOk pg base fuel c bs fl (.krealloc ptr size) := by
  by_cases h0 : ptr = 0
  · -- a null pointer makes it `kmalloc`
    subst h0
    have hsame : c.step pg fuel (.krealloc 0 size) = c.step pg fuel (.kmalloc size) := by
      simp only [step, VnlKernel.krealloc, if_true, h.filter_null]
    have hk : StepOk pg base fuel c bs fl (.kmalloc size) := h.kmalloc hbase ha.2
    exact ⟨fun c' hc => hk.done c' (hsame ▸ hc), fun hf => hsame ▸ hk.ends hf⟩
  obtain ⟨b, hb, hu, rfl⟩ := h.owns.block (ha.1.resolve_left h0)
  rcases Nat.eq_zero_or_pos size with rfl | hpos
  · cases fuel with
    | zero =>
        exact ⟨fun c' hc => absurd hc (by simp [step, VnlKernel.krealloc, VnlKernel.kmalloc]), by omega⟩
    | succ fuel => exact h.idle (by simp [step, VnlKernel.krealloc, VnlKernel.kmalloc])
  · obtain ⟨hd, he⟩ := krealloc_spec fuel h.heap hbase h.room hb hu hpos ha.2
    cases hk : VnlKernel.krealloc pg fuel c.heap (b.addr + 24) size with
    | panic msg => exact ⟨fun c' hc => absurd hc (by simp [step, hk]), fun _ => by simp [step, hk, Outcome.Ends]⟩
    | timeout => exact ⟨fun c' hc => absurd hc (by simp [step, hk]), fun hf => absurd hk (he hf)⟩
    | done r =>
        obtain ⟨s', p⟩ := r
        obtain ⟨bs', fl', nb, hre⟩ := hd s' p hk
        have hptr := hre.ptr
        refine ⟨fun c' hc => ?_, fun _ => by simp [step, hk, Outcome.Ends]⟩
        simp only [step, hk, Outcome.bind_done, Outcome.pure_eq, Outcome.done.injEq] at hc
        rw [if_neg (by omega)] at hc
        subst hc
        refine ⟨bs', fl', ⟨hre.inv, Nat.lt_of_le_of_lt hre.room h.room, ?_⟩, ?_⟩
        · rw [hptr]
          exact h.owns.swap h.heap.rep.tiles hre.inv.rep.tiles hb hre.used hre.fresh hre.used_iff
            hre.fits
        · intro _ x hx hxu hne
          exact hre.keeps x hx hxu fun hxb => hne (by rw [hxb]; rfl)

theorem Inv.kfree (h : Inv pg base c bs fl) (hbase : 0 < base) {ptr : Nat}
    (ha : c.Allowed (.kfree ptr)) : StepOk pg base fuel c bs fl (.kfree ptr) := by
  by_cases h0 : ptr = 0
  · subst h0
    refine h.idle ?_
    simp only [step, VnlKernel.kfree, if_true, Outcome.bind_done, h.filter_null]
    rfl
  obtain ⟨b, hb, hu, rfl⟩ := h.owns.block (ha.resolve_left h0)
  have hend : c.heap.heapEnd < 2 ^ 64 := by have := h.room; omega
  obtain ⟨s', bs', fl', hk, hinv, hdrop, hend', hpages⟩ := kfree_spec h.heap hbase hend hb hu
  refine ⟨fun c' hc => ?_, fun _ => by simp [step, hk, Outcome.Ends]⟩
  simp only [step, hk, Outcome.bind_done, Outcome.pure_eq, Outcome.done.injEq] at hc
  subst hc
  refine ⟨bs', fl', ⟨hinv, ?_, h.owns.drop h.heap.rep.tiles hb hdrop.used_iff⟩, ?_⟩
  · show s'.heapEnd + 4096 * pg.supply s'.pages < _
    rw [hend', hpages]
    exact h.room
  · intro _ x hx hxu hne
    exact hdrop.keeps x hx hxu fun hxb => hne (by rw [hxb]; rfl)

theorem Inv.store (h : Inv pg base c bs fl) {addr : Nat} {v : UInt8}
    (ha : c.Allowed (.store addr v)) : StepOk pg base fuel c bs fl (.store addr v) where
  done := by
    intro c' hc
    cases hc
    obtain ⟨a, hm, h1, h2⟩ := ha
    obtain ⟨b, hb, hu, he, _⟩ := h.owns.owned a hm
    have hgeo := tiles_mem h.heap.rep.tiles hb
    have hlim : b.lim = b.addr + b.size := rfl
    rw [he] at h1 h2
    rw [payloadLen_of_inv h.heap hb] at h2
    refine ⟨bs, fl, ⟨?_, h.room, h.owns⟩, fun hf => False.elim hf⟩
    exact (h.heap.store (setByte c.heap.mem addr v) hb hu
      fun y hy => setByte_ne (by omega)).1
  ends := fun _ => by simp [step, Outcome.Ends]

/-- **Every allowed step keeps the heap in shape.** -/
theorem Inv.step (h : Inv pg base c bs fl) (hbase : 0 < base) {op : HeapOp} (ha : c.Allowed op) :
    StepOk pg base fuel c bs fl op := by
  cases op with
  | kmalloc size => exact h.kmalloc hbase ha
  | kcalloc n size => exact h.kcalloc hbase ha
  | krealloc ptr size => exact h.krealloc hbase ha
  | kfree ptr => exact h.kfree hbase ha
  | store addr v => exact h.store ha

end Step

/-! ## Whole runs -/

section Run

variable {pg : Pager σ} {base n : Nat} {c : Client σ}

theorem Inv.init {s s' : Heap σ} (hg : GoodInit pg s base n) (h : heapInit pg s base n = .done s') :
    ∃ bs fl, Inv pg base ⟨s', []⟩ bs fl := by
  obtain ⟨E, hinv, hroom⟩ := heapInit_spec hg.nonnull hg.room hg.pos hg.size h
  refine ⟨_, _, hinv, hroom, ⟨by simp, ?_, by simp⟩⟩
  intro b hb hu
  rw [List.mem_singleton.mp hb] at hu
  exact Bool.noConfusion hu

theorem Reachable.base_pos (h : Reachable pg base n c) : 0 < base := by
  induction h with
  | init hg _ => exact hg.nonnull
  | step _ _ _ ih => exact ih

theorem Reachable.inv (h : Reachable pg base n c) : ∃ bs fl, Inv pg base c bs fl := by
  induction h with
  | init hg hi => exact Inv.init hg hi
  | step hr ha hs ih =>
      obtain ⟨bs, fl, hinv⟩ := ih
      obtain ⟨bs', fl', hinv', _⟩ := (hinv.step hr.base_pos ha).done _ hs
      exact ⟨bs', fl', hinv'⟩

/-- **The heap keeps its shape.** After any run, the blocks tile the heap, every block's tags agree,
and the free list holds the free blocks once each; and whatever call comes next, it ends. -/
theorem reachable_heapInv (h : Reachable pg base n c) :
    (∃ bs fl, HeapInv base c.heap bs fl)
      ∧ ∀ op, c.Allowed op → ∃ enough, ∀ fuel, enough ≤ fuel → (c.step pg fuel op).Ends := by
  obtain ⟨bs, fl, hinv⟩ := h.inv
  refine ⟨⟨bs, fl, hinv.heap⟩, fun op ha => ⟨fl.length + 2, fun fuel hf => ?_⟩⟩
  exact (hinv.step h.base_pos ha).ends hf

/-- A supply of zeroed frames, counted. -/
def zeroedFrames : Pager Nat where
  mapPage
    | 0, _ => none
    | n + 1, _ => some (n, fun _ => 0)
  supply n := n
  supply_lt := by
    intro s s' va frame h
    cases s with
    | zero => exact absurd h (by simp)
    | succ n => cases h; exact Nat.lt_succ_self _

/-- The kernel's own `heap_init` with sixteen frames to spare, and a first allocation. -/
theorem boot_kmalloc : ∃ c : Client Nat, Reachable zeroedFrames 0xFFFFC00000000000 (4 * 4096) c
    ∧ c.live = [(0xFFFFC00000000018, 100)] := by
  have hgood : GoodInit zeroedFrames ⟨fun _ => 0xAA, 7, 0, 16⟩ 0xFFFFC00000000000 (4 * 4096) :=
    ⟨by decide, by decide, by decide, by decide, by decide⟩
  obtain ⟨s, hinit, hrest⟩ := Outcome.of_get?
    (x := heapInit zeroedFrames ⟨fun _ => 0xAA, 7, 0, 16⟩ 0xFFFFC00000000000 (4 * 4096))
    (f := fun s => ((⟨s, []⟩ : Client Nat).step zeroedFrames 3 (.kmalloc 100)).get?.map (·.live))
    (b := some [(0xFFFFC00000000018, 100)]) (by decide +kernel)
  obtain ⟨c, hstep, hlive⟩ := Outcome.of_get? hrest
  have hal : Allowed (⟨s, []⟩ : Client Nat) (.kmalloc 100) :=
    (by decide : 100 + 32 + 2 * pageSize < 2 ^ 64)
  exact ⟨c, .step (.init hgood hinit) hal hstep, hlive⟩

theorem reachable_heapInv_boot : ∃ c : Client Nat, c.live = [(0xFFFFC00000000018, 100)]
    ∧ (∃ bs fl, HeapInv 0xFFFFC00000000000 c.heap bs fl)
    ∧ ∃ enough, ∀ fuel, enough ≤ fuel →
        (c.step zeroedFrames fuel (.kfree 0xFFFFC00000000018)).Ends := by
  obtain ⟨c, hr, hlive⟩ := boot_kmalloc
  obtain ⟨hinv, hends⟩ := reachable_heapInv hr
  exact ⟨c, hlive, hinv, hends (.kfree 0xFFFFC00000000018) (Or.inr (by rw [hlive]; decide))⟩

/-- **Allocations are safe.** In every reachable state the live payloads lie in the heap, are as
long as was asked for, and meet neither one another nor any tag. No call writes to a payload other
than the one it was called on, and `krealloc` carries the contents over. -/
theorem reachable_allocations_safe (h : Reachable pg base n c) :
    ∃ bs fl, HeapInv base c.heap bs fl ∧ (c.live.map (·.1)).Nodup
      ∧ (∀ a ∈ c.live, a.2 ≤ payloadLen c.heap.mem a.1
          ∧ ∀ y, c.Covers a y → base ≤ y ∧ y < c.heap.heapEnd
            ∧ (∀ a' ∈ c.live, a' ≠ a → ¬ c.Covers a' y) ∧ ∀ b ∈ bs, ¬ b.InTags y)
      ∧ (∀ op fuel c', op.IsCall → c.Allowed op → c.step pg fuel op = .done c' →
          ∀ a ∈ c.live, a.1 ≠ op.ptr → ∀ y, c.Covers a y → c'.heap.mem y = c.heap.mem y)
      ∧ (∀ a ∈ c.live, ∀ size fuel s' q, 0 < size → size + 32 + 2 * pageSize < 2 ^ 64 →
          krealloc pg fuel c.heap a.1 size = .done (s', q) →
          q ≠ 0 ∧ size ≤ payloadLen s'.mem q
            ∧ ∀ i, i < min (payloadLen c.heap.mem a.1) size →
                s'.mem (q + i) = c.heap.mem (a.1 + i)) := by
  obtain ⟨bs, fl, hinv⟩ := h.inv
  have hbase := h.base_pos
  have hT := hinv.heap.rep.tiles
  refine ⟨bs, fl, hinv.heap, hinv.owns.nodup, ?_, ?_, ?_⟩
  · intro a ha
    -- an allocation is the payload of a block in use
    obtain ⟨b, hb, hu, he, hsz⟩ := hinv.owns.owned a ha
    have hgeo := tiles_mem hT hb
    have hlim : b.lim = b.addr + b.size := rfl
    have hlen := payloadLen_of_inv hinv.heap hb
    refine ⟨by rw [he, hlen]; omega, ?_⟩
    rintro y ⟨h1, h2⟩
    rw [he] at h1 h2
    rw [hlen] at h2
    refine ⟨by omega, by omega, ?_, ?_⟩
    · -- two payloads lie in two blocks, and blocks are apart
      rintro a' ha' hne ⟨h1', h2'⟩
      obtain ⟨b', hb', hu', he', _⟩ := hinv.owns.owned a' ha'
      rw [he'] at h1' h2'
      rw [payloadLen_of_inv hinv.heap hb'] at h2'
      have hlim' : b'.lim = b'.addr + b'.size := rfl
      rcases tiles_apart hT hb hb' with rfl | hap | hap
      · exact hne (List.inj_on_of_nodup_map hinv.owns.nodup ha' ha (by rw [he, he']))
      · omega
      · omega
    · intro b' hb' ht
      have hh : headerSize = 24 := rfl
      have hf : footerSize = 8 := rfl
      have hgeo' := tiles_mem hT hb'
      have hlim' : b'.lim = b'.addr + b'.size := rfl
      unfold Blk.InTags at ht
      rcases tiles_apart hT hb hb' with rfl | hap | hap
      · omega
      · omega
      · omega
  · -- a call writes to the block it was called on, and to no other in use
    intro op fuel c' hcall hal hs a ha hne y hy
    obtain ⟨b, hb, hu, he, _⟩ := hinv.owns.owned a ha
    obtain ⟨_, _, _, hkeep⟩ := (hinv.step hbase hal).done c' hs
    obtain ⟨h1, h2⟩ := hy
    have hgeo := tiles_mem hT hb
    have hlim : b.lim = b.addr + b.size := rfl
    rw [he] at h1 h2
    rw [payloadLen_of_inv hinv.heap hb] at h2
    exact hkeep hcall b hb hu (he ▸ hne) y (by omega) (by omega)
  · -- `krealloc` copies as much as both payloads hold
    intro a ha size fuel s' q hpos hsize hk
    obtain ⟨b, hb, hu, he, _⟩ := hinv.owns.owned a ha
    rw [he] at hk ⊢
    obtain ⟨bs', fl', nb, hre⟩ := (krealloc_spec fuel hinv.heap hbase hinv.room hb hu hpos
      hsize).1 s' q hk
    have hq := hre.ptr
    have hnb : nb ∈ bs' := (hre.used_iff nb hre.used).mpr (Or.inl rfl)
    have hnlen : payloadLen s'.mem (nb.addr + 24) = nb.size - 32 :=
      payloadLen_of_inv hre.inv hnb
    have hfits := hre.fits
    refine ⟨by omega, by rw [hq, hnlen]; omega, fun i hi => ?_⟩
    rw [payloadLen_of_inv hinv.heap hb] at hi
    exact hre.copied i (by omega) (by omega)

theorem reachable_allocations_safe_boot : ∃ c : Client Nat,
    c.live = [(0xFFFFC00000000018, 100)] ∧ 100 ≤ payloadLen c.heap.mem 0xFFFFC00000000018
      ∧ ∀ fuel s' q, krealloc zeroedFrames fuel c.heap 0xFFFFC00000000018 50 = .done (s', q) →
          ∀ i, i < 50 → s'.mem (q + i) = c.heap.mem (0xFFFFC00000000018 + i) := by
  obtain ⟨c, hr, hlive⟩ := boot_kmalloc
  obtain ⟨bs, fl, _, _, hpay, _, hre⟩ := reachable_allocations_safe hr
  have hm : (0xFFFFC00000000018, 100) ∈ c.live := by rw [hlive]; decide
  have hlen := (hpay _ hm).1
  refine ⟨c, hlive, hlen, fun fuel s' q hk i hi => ?_⟩
  exact (hre _ hm 50 fuel s' q (by decide) (by decide) hk).2.2 i
    (Nat.lt_min.mpr ⟨Nat.lt_of_lt_of_le (by omega) hlen, hi⟩)

end Run

end Client

end VnlKernel
