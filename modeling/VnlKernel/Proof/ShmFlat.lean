import VnlKernel.Proof.ShmRun

/-!
# Shared memory as a flat array of bytes

Byte `k` of an object lies at `k % 4096` in its page `k / 4096`, and that frame is the one
`shm_get_page_phys` gives to `SYS_MMAP`. Seen this way an object is one array: a write
changes the bytes it names and no others, of this object or of any other, and a read
returns what is there, across page boundaries and up to the size.

The frames of one object are in different places and aligned, so different bytes have
different addresses; growing takes frames that were nobody's.
-/

namespace VnlKernel

open Bits ByteMem

variable {σ : Type}

/-- Handing frames out and taking them back leaves their bytes alone. -/
structure FlatMemory (fs : FrameService σ) : Prop where
  alloc : ∀ s, fs.phys (fs.alloc s).1 = fs.phys s
  free : ∀ s f, fs.phys (fs.free s f) = fs.phys s
  setPhys : ∀ s m, fs.phys (fs.setPhys s m) = m

theorem machineFrames_flat : FlatMemory machineFrames :=
  ⟨fun _ => rfl, fun _ _ => rfl, fun _ _ => rfl⟩

/-- The byte at `k`, in the frame that a mapping of the object would show. -/
def shmByte (phys : Mem) (t : ShmTable) (idx : Int) (k : Nat) : UInt8 :=
  phys (shmGetPagePhys t idx k + k % pageSize)

/-! ## Addresses -/

def byteAddr (pages : Nat → Nat) (k : Nat) : Nat := pages (k / pageSize) + k % pageSize

/-- The first `b` pages are frames, in different places. -/
structure Laid (pages : Nat → Nat) (b : Nat) : Prop where
  frame : ∀ k, k < b → pages k ≠ 0 ∧ pages k % pageSize = 0
  inj : ∀ k l, k < b → l < b → pages k = pages l → k = l

section Addresses

variable {pages : Nat → Nat} {b : Nat}

theorem page_lt {k : Nat} (hk : k < b * pageSize) : k / pageSize < b :=
  (Nat.div_lt_iff_lt_mul (by decide)).mpr hk

theorem Laid.byteAddr_inj (h : Laid pages b) {k l : Nat} (hk : k < b * pageSize)
    (hl : l < b * pageSize)
    (he : byteAddr pages k = byteAddr pages l) : k = l := by
  have hp := page_lt hk
  have hq := page_lt hl
  have h1 := (h.frame _ hp).2
  have h2 := (h.frame _ hq).2
  have hinj := h.inj _ _ hp hq
  unfold byteAddr at he
  rw [show pageSize = 4096 from rfl] at *
  have hpage : pages (k / 4096) = pages (l / 4096) := by omega
  have := hinj hpage
  omega

/-- Inside one page addresses are consecutive. -/
theorem byteAddr_add {off j : Nat} (h : off % pageSize + j < pageSize) :
    byteAddr pages (off + j) = byteAddr pages off + j := by
  unfold byteAddr
  rw [show pageSize = 4096 from rfl] at *
  have hdiv : (off + j) / 4096 = off / 4096 := by omega
  rw [hdiv]
  omega

end Addresses

/-! ## The copy loop -/

/-- What `shm_write` does with a piece. -/
def scatter (buf : Nat → UInt8) : Mem → Nat → Nat → Nat → Mem := fun m a done chunk x =>
  if a ≤ x ∧ x < a + chunk then buf (done + (x - a)) else m x

/-- What `shm_read` does with a piece. -/
def gather (phys : Mem) : Mem → Nat → Nat → Nat → Mem := fun out a done chunk x =>
  if done ≤ x ∧ x < done + chunk then phys (a + (x - done)) else out x

section Copy

variable {pages : Nat → Nat} {b : Nat}

/-- One turn of the loop: a piece that ends with its page or with the transfer. -/
theorem shmCopy_turn (h : Laid pages b) (copy : Mem → Nat → Nat → Nat → Mem) (fuel done : Nat)
    {off left : Nat} (m : Mem) (hleft : left ≠ 0) (hend : off + left ≤ b * pageSize) :
    ∃ chunk, 0 < chunk ∧ chunk ≤ left ∧ off % pageSize + chunk ≤ pageSize
      ∧ shmCopy pages copy (fuel + 1) m off done left
        = shmCopy pages copy fuel (copy m (byteAddr pages off) done chunk)
          (off + chunk) (done + chunk) (left - chunk) := by
  have hp := (h.frame _ (page_lt (show off < b * pageSize by omega))).1
  have hmod : off % pageSize < pageSize := Nat.mod_lt _ (by decide)
  rw [shmCopy, if_neg hleft]
  dsimp only
  rw [if_neg hp]
  split
  · exact ⟨left, by omega, Nat.le_refl _, by omega, rfl⟩
  · exact ⟨pageSize - off % pageSize, by omega, by omega, by omega, rfl⟩

theorem shmCopy_scatter (h : Laid pages b) (buf : Nat → UInt8) : ∀ (fuel : Nat) (m : Mem)
    (off done left : Nat), left ≤ fuel → off + left ≤ b * pageSize →
    ∃ m', shmCopy pages (scatter buf) fuel m off done left = (m', true)
      ∧ (∀ k, off ≤ k → k < off + left → m' (byteAddr pages k) = buf (done + (k - off)))
      ∧ ∀ x, (∀ k, off ≤ k → k < off + left → x ≠ byteAddr pages k) → m' x = m x
  | 0, m, off, done, left, hf, _ => ⟨m, rfl, fun k _ _ => by omega, fun _ _ => rfl⟩
  | fuel + 1, m, off, done, left, hf, hend => by
      by_cases h0 : left = 0
      · rw [shmCopy, if_pos h0]
        exact ⟨m, rfl, fun k _ _ => by omega, fun _ _ => rfl⟩
      · obtain ⟨chunk, hpos, hle, hpage, heq⟩ := shmCopy_turn h (scatter buf) fuel done m h0 hend
        obtain ⟨m', hm', hnew, hold⟩ := shmCopy_scatter h buf fuel
          (scatter buf m (byteAddr pages off)
          done chunk) (off + chunk) (done + chunk) (left - chunk) (by omega) (by omega)
        refine ⟨m', heq.trans hm', fun k h1 h2 => ?_, fun x hx => ?_⟩
        · by_cases hk : off + chunk ≤ k
          · rw [hnew k hk (by omega)]
            congr 1
            omega
          · -- written in this turn, and not again
            have hlater : ∀ l, off + chunk ≤ l → l < off + chunk + (left - chunk) →
                byteAddr pages k ≠ byteAddr pages l := fun l h3 h4 he => by
              have := h.byteAddr_inj (by omega) (by omega) he
              omega
            have haddr : byteAddr pages k = byteAddr pages off + (k - off) := by
              rw [← byteAddr_add (by omega)]
              congr 1
              omega
            rw [hold _ hlater, haddr]
            unfold scatter
            rw [if_pos (by omega)]
            congr 1
            omega
        · rw [hold x fun k h1 h2 => hx k (by omega) (by omega)]
          unfold scatter
          rw [if_neg]
          rintro ⟨h1, h2⟩
          refine hx (off + (x - byteAddr pages off)) (by omega) (by omega) ?_
          rw [byteAddr_add (by omega)]
          omega

theorem shmCopy_gather (h : Laid pages b) (phys : Mem) : ∀ (fuel : Nat) (out : Mem)
    (off done left : Nat), left ≤ fuel → off + left ≤ b * pageSize →
    ∃ out', shmCopy pages (gather phys) fuel out off done left = (out', true)
      ∧ (∀ j, j < left → out' (done + j) = phys (byteAddr pages (off + j)))
      ∧ ∀ x, x < done → out' x = out x
  | 0, out, off, done, left, hf, _ => ⟨out, rfl, fun k _ => by omega, fun _ _ => rfl⟩
  | fuel + 1, out, off, done, left, hf, hend => by
      by_cases h0 : left = 0
      · rw [shmCopy, if_pos h0]
        exact ⟨out, rfl, fun k _ => by omega, fun _ _ => rfl⟩
      · obtain ⟨chunk, hpos, hle, hpage, heq⟩ := shmCopy_turn h (gather phys) fuel done out h0 hend
        obtain ⟨out', hout', hnew, hold⟩ :=
          shmCopy_gather h phys fuel (gather phys out (byteAddr pages off)
          done chunk) (off + chunk) (done + chunk) (left - chunk) (by omega) (by omega)
        refine ⟨out', heq.trans hout', fun j hj => ?_, fun x hx => ?_⟩
        · by_cases hk : chunk ≤ j
          · have := hnew (j - chunk) (by omega)
            rw [show done + chunk + (j - chunk) = done + j by omega,
              show off + chunk + (j - chunk) = off + j by omega] at this
            exact this
          · rw [hold _ (by omega), byteAddr_add (by omega)]
            unfold gather
            rw [if_pos (by omega)]
            congr 1
            omega
        · rw [hold x (by omega)]
          unfold gather
          exact if_neg (by omega)

end Copy

/-! ## Growing and shrinking -/

section Grow

variable {fs : FrameService σ} (o : OverPmm fs) (hm : FlatMemory fs) {others : Nat → Prop}
include hm

theorem shmUndoPages_flat : ∀ (n i : Nat) (s : σ) (pages : Nat → Nat),
    fs.phys (shmUndoPages fs s pages n i).1 = fs.phys s
      ∧ ∀ k, k < i → (shmUndoPages fs s pages n i).2 k = pages k
  | 0, _, _, _ => ⟨rfl, fun _ _ => rfl⟩
  | n + 1, i, s, pages => by
      rw [shmUndoPages]
      obtain ⟨h1, h2⟩ := shmUndoPages_flat n (i + 1) (fs.free s (pages i)) fun j =>
        if j = i then 0 else pages j
      refine ⟨h1.trans (hm.free _ _), fun k hk => ?_⟩
      rw [h2 k (by omega)]
      exact if_neg (by omega)

theorem shmFreePages_flat : ∀ (n i : Nat) (s : σ) (pages : Nat → Nat),
    fs.phys (shmFreePages fs s pages n i).1 = fs.phys s
      ∧ ∀ k, k < i → (shmFreePages fs s pages n i).2 k = pages k
  | 0, _, _, _ => ⟨rfl, fun _ _ => rfl⟩
  | n + 1, i, s, pages => by
      rw [shmFreePages]
      split
      · obtain ⟨h1, h2⟩ := shmFreePages_flat n (i + 1) (fs.free s (pages i))
          fun j => if j = i then 0 else pages j
        refine ⟨h1.trans (hm.free _ _), fun k hk => ?_⟩
        rw [h2 k (by omega)]
        exact if_neg (by omega)
      · obtain ⟨h1, h2⟩ := shmFreePages_flat n (i + 1) s pages
        exact ⟨h1, fun k hk => h2 k (by omega)⟩

omit hm in
/-- Frames are aligned, so two of them do not overlap. -/
theorem FrameTaken.apart {p p' : Pmm} {a b j : Nat} (ha : FrameTaken p a) (hb : FrameTaken p' b)
    (hne : a ≠ b) (hj : j < pageSize) : a + j < b ∨ b + pageSize ≤ a + j := by
  obtain ⟨f, rfl, _⟩ := ha
  obtain ⟨g, rfl, _⟩ := hb
  have hfg : f ≠ g := fun h => hne (by rw [h])
  rw [show pageSize = 4096 from rfl] at *
  omega

/-- Growing leaves the bytes of taken frames and the first pages as they are, whether it succeeds
or not; it succeeds if there are frames enough. -/
theorem shmGrowPages_flat (old : Nat) : ∀ (n i : Nat) {s s' : σ} {pages pages' : Nat → Nat}
    {ok : Bool},
    old ≤ i → PmmInv (o.pmm s) → shmGrowPages fs old s pages n i = (s', pages', ok) →
    (∀ a, FrameTaken (o.pmm s) a → ∀ j, j < pageSize → fs.phys s' (a + j) = fs.phys s (a + j))
      ∧ (∀ k, k < old → pages' k = pages k)
      ∧ (n ≤ (o.pmm s).freeFrames → ok = true)
  | 0, i, s, s', pages, pages', ok, _, _, hg => by
      cases hg
      exact ⟨fun _ _ _ _ => rfl, fun _ _ => rfl, fun _ => rfl⟩
  | n + 1, i, s, s', pages, pages', ok, hold, hinv, hg => by
      have ha := o.alloc s
      obtain ⟨hinv', hmono, hnew⟩ := frameTaken_alloc hinv ha
      rw [shmGrowPages] at hg
      dsimp only at hg
      split at hg
      · next h0 =>
        -- no frame: the pages added so far are given back
        obtain ⟨h1, h2⟩ := shmUndoPages_flat hm (i - old) old (fs.alloc s).1 pages
        cases hg
        refine ⟨fun a _ j _ => by rw [h1, hm.alloc], h2, fun hn => ?_⟩
        rcases pmmAlloc_cases hinv with ⟨hzero, _⟩ | ⟨f, _, hlo, _, _, he⟩
        · omega
        · rw [ha] at he
          have hf : (fs.alloc s).2 = f * pageSize := congrArg Prod.snd he
          rw [h0, show pageSize = 4096 from rfl] at hf
          omega
      · next h0 =>
        obtain ⟨htaken, hfresh⟩ := hnew h0
        -- the new frame is cleared, and no taken one is it
        have hset := o.setPhys (fs.alloc s).1
          (memset (fs.phys (fs.alloc s).1) (fs.alloc s).2 0 pageSize)
        obtain ⟨h1, h2, h3⟩ := shmGrowPages_flat old n (i + 1) (by omega) (hset ▸ hinv') hg
        rw [hset] at h1 h3
        refine ⟨fun a hta j hj => ?_, fun k hk => ?_, fun hn => h3 ?_⟩
        · have hne : a ≠ (fs.alloc s).2 := fun he => hfresh (he ▸ hta)
          rw [h1 a (hmono a hta) j hj, hm.setPhys, memset_out (hta.apart htaken hne hj), hm.alloc]
        · rw [h2 k hk]
          exact if_neg (by omega)
        · rcases pmmAlloc_cases hinv with ⟨hzero, _⟩ | ⟨f, hpos, _, _, _, he⟩
          · omega
          · rw [ha] at he
            have hp : o.pmm (fs.alloc s).1 = (o.pmm s).markUsed f := congrArg Prod.fst he
            have hle := hinv.free_le
            have hmax : maxFrames < 2 ^ 64 := by decide
            rw [hp]
            show n ≤ sub64 (o.pmm s).freeFrames 1
            rw [sub64_of_le (by omega) (by omega)]
            omega

end Grow

/-! ## The objects -/

section Objects

variable {p : Pmm} {t : ShmTable} {idx : Int} {i : Nat}

theorem ShmInv.laid (h : ShmInv p t) (hu : (t i).used = true) :
    Laid (t i).pages (pagesFor (t i).size) where
  frame := by
    intro k hk
    have htaken := ((h.pages i hu).taken k hk).1
    obtain ⟨f, hf, _⟩ := id htaken
    exact ⟨htaken.ne_zero, by rw [hf, Nat.mul_mod_left]⟩
  inj := (h.pages i hu).inj

theorem ShmInv.pagesFor_eq (h : ShmInv p t) (hu : (t i).used = true) :
    pagesFor (t i).size = ((t i).size + 4095) / 4096 := by
  have := h.size i hu
  have hmax : shmMaxPages * pageSize = 4194304 := rfl
  exact pagesFor_of_le (by omega)

/-- The bytes of an object are in its pages. -/
theorem ShmInv.size_le (h : ShmInv p t) (hu : (t i).used = true) :
    (t i).size ≤ pagesFor (t i).size * pageSize ∧ pagesFor (t i).size ≤ shmMaxPages := by
  have hsize := h.size i hu
  rw [h.pagesFor_eq hu]
  rw [show shmMaxPages = 1024 from rfl, show pageSize = 4096 from rfl] at *
  omega

theorem shmByte_eq (phys : Mem) (hv : shmValid t idx = true) {k : Nat}
    (hk : k < shmMaxPages * pageSize) :
    shmByte phys t idx k = phys (byteAddr (t idx.toNat).pages k) := by
  unfold shmByte shmGetPagePhys byteAddr
  have hp := page_lt hk
  rw [if_neg (by simp [hv])]
  dsimp only
  rw [if_neg (by omega)]

theorem shmValid_iff : shmValid t idx = true ↔
    0 ≤ idx ∧ idx < shmMaxObjects ∧ (t idx.toNat).used = true := by
  unfold shmValid
  simp [and_assoc]

/-- **A read returns the bytes that are there, up to the size.** -/
def FlatRead (phys : Mem) (t : ShmTable) (idx : Int) : Prop :=
  ∀ len off, ∃ bytes : Nat → UInt8, shmRead phys t idx len off
      = (((min len ((t idx.toNat).size - off) : Nat) : Int), off + min len ((t idx.toNat).size - off), bytes)
    ∧ ∀ k, k < min len ((t idx.toNat).size - off) → bytes k = shmByte phys t idx (off + k)

theorem ShmInv.flatRead (h : ShmInv p t) (hv : shmValid t idx = true) (phys : Mem) :
    FlatRead phys t idx := by
  intro len off
  have hu := shmValid_used hv
  obtain ⟨hle, hmax⟩ := h.size_le hu
  have hsize := h.size _ hu
  have hbig : shmMaxPages * pageSize = 4194304 := rfl
  unfold shmRead
  rw [if_neg (by simp [hv])]
  dsimp only
  by_cases hoff : (t idx.toNat).size ≤ off
  · rw [if_pos hoff]
    have h0 : min len ((t idx.toNat).size - off) = 0 := by omega
    rw [h0]
    exact ⟨fun _ => 0, rfl, fun k hk => by omega⟩
  · rw [if_neg hoff]
    have hmin : (if len < (t idx.toNat).size - off then len else (t idx.toNat).size - off)
        = min len ((t idx.toNat).size - off) := by
      split
      · omega
      · omega
    rw [hmin]
    obtain ⟨out, hcopy, hnew, _⟩ := shmCopy_gather (h.laid hu) phys
      (min len ((t idx.toNat).size - off))
      (fun _ => 0) off 0 (min len ((t idx.toNat).size - off)) (Nat.le_refl _) (by omega)
    have hcopy' := hcopy
    unfold gather at hcopy'
    rw [hcopy']
    refine ⟨out, ?_, fun k hk => ?_⟩
    · dsimp only
      rw [if_neg (by decide), toInt32_of_lt (by omega), u64_of_lt (by omega)]
    · have := hnew k hk
      rw [Nat.zero_add] at this
      rw [this, shmByte_eq phys hv (by omega)]

/-- **What a write does to the arrays.** -/
structure FlatWrite (phys phys' : Mem) (t t' : ShmTable) (idx : Int) (buf : Nat → UInt8) (len off : Nat) :
    Prop where
  valid : shmValid t' idx = true
  name : (t' idx.toNat).name = (t idx.toNat).name
  size : (t' idx.toNat).size = max (t idx.toNat).size (off + len)
  new : ∀ k, k < len → shmByte phys' t' idx (off + k) = buf k
  old : ∀ k, k < (t idx.toNat).size → k < off ∨ off + len ≤ k →
    shmByte phys' t' idx k = shmByte phys t idx k
  others : ∀ j, j ≠ idx → shmValid t j = true → t' j.toNat = t j.toNat
    ∧ ∀ k, k < (t j.toNat).size → shmByte phys' t' j k = shmByte phys t j k

end Objects

section Ops

variable {fs : FrameService σ} (o : OverPmm fs) (hm : FlatMemory fs) {s s' : σ} {t t' : ShmTable} {idx : Int}
include hm

/-- `shm_truncate`, whether it succeeds or not, and when it has to. -/
theorem shmTruncate_flat {length : Nat} {r : Int} (h : ShmInv (o.pmm s) t)
    (hs : shmTruncate fs s t idx length = (s', t', r)) :
    (∀ a, FrameTaken (o.pmm s) a → ∀ j, j < pageSize → fs.phys s' (a + j) = fs.phys s (a + j))
      ∧ (∀ j, j ≠ idx.toNat → t' j = t j)
      ∧ (shmValid t idx = true → (t idx.toNat).size ≤ length → length ≤ shmMaxPages * pageSize →
          pagesFor length ≤ pagesFor (t idx.toNat).size + (o.pmm s).freeFrames →
          r = 0 ∧ (t' idx.toNat).used = true ∧ (t' idx.toNat).name = (t idx.toNat).name
            ∧ (t' idx.toNat).size = length
            ∧ ∀ k, k < pagesFor (t idx.toNat).size
              → (t' idx.toNat).pages k = (t idx.toNat).pages k) := by
  unfold shmTruncate at hs
  split at hs
  · next hv =>
    cases hs
    exact ⟨fun _ _ _ _ => rfl, fun _ _ => rfl, fun hc => absurd hc (by simpa using hv)⟩
  · next hv =>
    have hu := shmValid_used (show shmValid t idx = true by simpa using hv)
    dsimp only at hs
    split at hs
    · next hbig =>
      cases hs
      refine ⟨fun _ _ _ _ => rfl, fun _ _ => rfl, fun _ _ hlen => ?_⟩
      have hmax : shmMaxPages * pageSize = 4194304 := rfl
      rw [pagesFor_of_le (by omega), show shmMaxPages = 1024 from rfl] at hbig
      omega
    · obtain ⟨⟨s₁, pages₁, ok⟩, hg⟩ : ∃ x, shmGrowPages fs (pagesFor (t idx.toNat).size) s
        (t idx.toNat).pages (pagesFor length - pagesFor (t idx.toNat).size)
        (pagesFor (t idx.toNat).size) = x := ⟨_, rfl⟩
      obtain ⟨h1, h2, h3⟩ := shmGrowPages_flat o hm _ _ _ (Nat.le_refl _) h.inv hg
      rw [hg] at hs
      dsimp only at hs
      cases ok with
      | false =>
          cases hs
          exact ⟨h1, fun j hj => ShmTable.set_ne _ hj,
            fun _ _ _ hn => absurd (h3 (by omega)) (by decide)⟩
      | true =>
          obtain ⟨h4, h5⟩ := shmFreePages_flat hm (pagesFor (t idx.toNat).size - pagesFor length)
            (pagesFor length) s₁ pages₁
          cases hs
          refine ⟨fun a ha j hj => by rw [h4]; exact h1 a ha j hj, fun j hj => ShmTable.set_ne _ hj,
            fun _ hle hlen _ => ?_⟩
          rw [ShmTable.set_self]
          refine ⟨rfl, hu, rfl, rfl, fun k hk => ?_⟩
          have hmax : shmMaxPages * pageSize = 4194304 := rfl
          have hold : pagesFor (t idx.toNat).size ≤ pagesFor length := by
            rw [h.pagesFor_eq hu, pagesFor_of_le (by omega)]
            omega
          exact (h5 k (by omega)).trans (h2 k hk)

/-- The part of `shm_write` that grows. -/
def growFor (fs : FrameService σ) (s : σ) (t : ShmTable) (idx : Int) (newEnd : Nat) : σ × ShmTable × Int :=
  if newEnd > (t idx.toNat).size then shmTruncate fs s t idx newEnd else (s, t, 0)

theorem growFor_flat {newEnd : Nat} {r : Int} (h : ShmInv (o.pmm s) t)
    (hs : growFor fs s t idx newEnd = (s', t', r)) :
    (∀ a, FrameTaken (o.pmm s) a → ∀ j, j < pageSize → fs.phys s' (a + j) = fs.phys s (a + j))
      ∧ (∀ j, j ≠ idx.toNat → t' j = t j)
      ∧ (shmValid t idx = true → newEnd ≤ shmMaxPages * pageSize →
          pagesFor newEnd ≤ pagesFor (t idx.toNat).size + (o.pmm s).freeFrames →
          r = 0 ∧ (t' idx.toNat).used = true ∧ (t' idx.toNat).name = (t idx.toNat).name
            ∧ (t' idx.toNat).size = max (t idx.toNat).size newEnd
            ∧ ∀ k, k < pagesFor (t idx.toNat).size
              → (t' idx.toNat).pages k = (t idx.toNat).pages k) := by
  unfold growFor at hs
  split at hs
  · next hgt =>
    obtain ⟨h1, h2, h3⟩ := shmTruncate_flat o hm h hs
    refine ⟨h1, h2, fun hv hmax hfree => ?_⟩
    obtain ⟨h4, h5, h6, h7, h8⟩ := h3 hv (by omega) hmax hfree
    exact ⟨h4, h5, h6, by rw [h7]; omega, h8⟩
  · cases hs
    refine ⟨fun _ _ _ _ => rfl, fun _ _ => rfl, fun hv _ _ => ?_⟩
    exact ⟨rfl, shmValid_used hv, rfl, by omega, fun _ _ => rfl⟩

omit hm in
/-- `shm_write`, in its two parts. -/
theorem shmWrite_parts (buf : Nat → UInt8) {len off : Nat} (h : ShmInv (o.pmm s) t)
    (hv : shmValid t idx = true) (hoff : off + len + 4095 < 2 ^ 64) :
    ∃ s₁ t₁ r₁, growFor fs s t idx (off + len) = (s₁, t₁, r₁) ∧ ShmInv (o.pmm s₁) t₁
      ∧ ((r₁ < 0 ∧ shmWrite fs s t idx buf len off = (s₁, t₁, r₁, off)) ∨
        (0 ≤ r₁ ∧ shmValid t₁ idx = true ∧ off + len ≤ (t₁ idx.toNat).size ∧ ∃ m,
          shmWrite fs s t idx buf len off = (fs.setPhys s₁ m, t₁, toInt32 len, off + len)
          ∧ (∀ k, off ≤ k → k < off + len → m (byteAddr (t₁ idx.toNat).pages k) = buf (k - off))
          ∧ ∀ x, (∀ k, off ≤ k → k < off + len → x ≠ byteAddr (t₁ idx.toNat).pages k) →
            m x = fs.phys s₁ x)) := by
  obtain ⟨⟨s₁, t₁, r₁⟩, hg⟩ : ∃ x, growFor fs s t idx (off + len) = x := ⟨_, rfl⟩
  have hg' := hg
  unfold growFor at hg'
  have hu64 : u64 (off + len) = off + len := u64_of_lt (by omega)
  have hgrown : (if u64 (off + len) > (t idx.toNat).size then shmTruncate fs s t idx
    (u64 (off + len))
      else (s, t, 0)) = (s₁, t₁, r₁) := by rw [hu64]; exact hg'
  obtain ⟨hinv, hr⟩ := shmWrite_grown o h hv hoff hgrown
  refine ⟨s₁, t₁, r₁, hg, hinv, ?_⟩
  unfold shmWrite
  rw [if_neg (by simp [hv]), hu64]
  dsimp only
  rw [hg']
  dsimp only
  by_cases hneg : r₁ < 0
  · rw [if_pos hneg]
    exact Or.inl ⟨hneg, rfl⟩
  · rw [if_neg hneg]
    obtain ⟨hv₁, hend⟩ := hr.resolve_left hneg
    have hu₁ := shmValid_used hv₁
    obtain ⟨m, hcopy, hnew, hold⟩ := shmCopy_scatter (hinv.laid hu₁) buf len (fs.phys s₁) off 0 len
      (Nat.le_refl _) (Nat.le_trans hend (hinv.size_le hu₁).1)
    have hcopy' := hcopy
    unfold scatter at hcopy'
    rw [hcopy']
    refine Or.inr ⟨by omega, hv₁, hend, m, ?_, fun k h1 h2 => ?_, hold⟩
    · dsimp only
      rw [if_neg (by decide)]
    · rw [hnew k h1 h2, Nat.zero_add]

/-- A write reaches no frame of another object, whether it succeeds or not. -/
theorem shmWrite_others (buf : Nat → UInt8) {len off off' : Nat} {r : Int} (h : ShmInv (o.pmm s) t)
    (hoff : off + len + 4095 < 2 ^ 64) (hs : shmWrite fs s t idx buf len off = (s', t', r, off')) :
    (∀ j, j ≠ idx.toNat → t' j = t j)
      ∧ ∀ a, Others t idx.toNat a → ∀ j, j < pageSize → fs.phys s' (a + j) = fs.phys s (a + j) := by
  by_cases hv : shmValid t idx = true
  · obtain ⟨s₁, t₁, r₁, hg, hinv, hend⟩ := shmWrite_parts o buf h hv hoff
    obtain ⟨hbytes, hsame, _⟩ := growFor_flat o hm h hg
    rcases hend with ⟨_, he⟩ | ⟨_, hv₁, hlen, m, he, _, hold⟩
    · cases he.symm.trans hs
      exact ⟨hsame, fun a ha => hbytes a (h.others_taken _ a ha)⟩
    · cases he.symm.trans hs
      refine ⟨hsame, fun a ha j hj => ?_⟩
      have hu₁ := shmValid_used hv₁
      obtain ⟨hle, hmax⟩ := hinv.size_le hu₁
      -- the other object is as it was, and its frames are still others
      have ha' : Others t' idx.toNat a := by
        obtain ⟨l, hl, hul, k, hk, rfl⟩ := ha
        exact ⟨l, hl, by rw [hsame l hl]; exact hul, k, by rw [hsame l hl]; exact hk, by rw [hsame l hl]⟩
      rw [hm.setPhys, hold _ fun k h1 h2 => ?_]
      · exact hbytes a (h.others_taken _ a ha) j hj
      · have hpage : k / pageSize < pagesFor (t' idx.toNat).size := page_lt (by omega)
        obtain ⟨htaken, hmine⟩ := (hinv.pages _ hu₁).taken _ hpage
        have hne : a ≠ (t' idx.toNat).pages (k / pageSize) := fun hc => hmine (hc ▸ ha')
        have hapart := (hinv.others_taken _ a ha').apart htaken hne hj
        have hmod : k % pageSize < pageSize := Nat.mod_lt _ (by decide)
        unfold byteAddr
        omega
  · unfold shmWrite at hs
    rw [if_pos (by simpa using hv)] at hs
    cases hs
    exact ⟨fun _ _ => rfl, fun _ _ _ _ => rfl⟩

omit hm in
/-- Bytes of frames that nobody touched. -/
theorem shmByte_kept {phys phys' : Mem} {p : Pmm} (h : ShmInv p t) (hv : shmValid t idx = true)
    (hv' : shmValid t' idx = true)
    (hpages : ∀ k, k < pagesFor (t idx.toNat).size → (t' idx.toNat).pages k = (t idx.toNat).pages k)
    {k : Nat} (hk : k < (t idx.toNat).size)
    (hbytes : phys' (byteAddr (t idx.toNat).pages k) = phys (byteAddr (t idx.toNat).pages k)) :
    shmByte phys' t' idx k = shmByte phys t idx k := by
  obtain ⟨hle, hmax⟩ := h.size_le (shmValid_used hv)
  have hsize := h.size _ (shmValid_used hv)
  have haddr : byteAddr (t' idx.toNat).pages k = byteAddr (t idx.toNat).pages k := by
    unfold byteAddr
    rw [hpages _ (page_lt (by omega))]
  rw [shmByte_eq phys hv (by omega), shmByte_eq phys' hv' (by omega), haddr, hbytes]

/-- **A write that has room makes the array what it should be.** -/
theorem shmWrite_flat (buf : Nat → UInt8) {len off : Nat} (h : ShmInv (o.pmm s) t)
    (hv : shmValid t idx = true) (hend : off + len ≤ shmMaxPages * pageSize)
    (hfree : pagesFor (off + len) ≤ pagesFor (t idx.toNat).size + (o.pmm s).freeFrames) :
    ∃ s' t', shmWrite fs s t idx buf len off = (s', t', (len : Int), off + len)
      ∧ ShmInv (o.pmm s') t' ∧ FlatWrite (fs.phys s) (fs.phys s') t t' idx buf len off := by
  have hbig : shmMaxPages * pageSize = 4194304 := rfl
  have hnowrap : off + len + 4095 < 2 ^ 64 := by omega
  obtain ⟨s₁, t₁, r₁, hg, hinv, hcases⟩ := shmWrite_parts o buf h hv hnowrap
  -- growing changes no byte that was there
  obtain ⟨hbytes, hsame, hgrown⟩ := growFor_flat o hm h hg
  obtain ⟨hr, hu₁, hname, hsize, hpages⟩ := hgrown hv hend hfree
  rcases hcases with ⟨hneg, _⟩ | ⟨_, hv₁, hlen, m, he, hnew, hold⟩
  · omega
  · rw [toInt32_of_lt (by omega)] at he
    have hu := shmValid_used hv
    obtain ⟨hle, _⟩ := h.size_le hu
    obtain ⟨hle₁, _⟩ := hinv.size_le hu₁
    have hothers := shmWrite_others o hm buf h hnowrap he
    refine ⟨fs.setPhys s₁ m, t₁, he, by rw [o.setPhys]; exact hinv, ⟨hv₁, hname, hsize, ?_, ?_, ?_⟩⟩
    · intro k hk
      rw [hm.setPhys, shmByte_eq m hv₁ (by omega), hnew _ (by omega) (by omega)]
      congr 1
      omega
    · intro k hk hout
      refine shmByte_kept h hv hv₁ hpages hk ?_
      have hpage : k / pageSize < pagesFor (t idx.toNat).size := page_lt (by omega)
      -- an old byte is in the same frame, and not among those written
      have haddr : byteAddr (t idx.toNat).pages k = byteAddr (t₁ idx.toNat).pages k := by
        unfold byteAddr
        rw [hpages _ hpage]
      rw [hm.setPhys, hold]
      · exact hbytes _ ((h.pages _ hu).taken _ hpage).1 _ (Nat.mod_lt _ (by decide))
      · intro l h1 h2 hc
        have := (hinv.laid hu₁).byteAddr_inj (by omega) (by omega) (haddr.symm.trans hc)
        omega
    · intro j hj hvj
      have huj := shmValid_used hvj
      -- another object has other frames
      have hjne : j.toNat ≠ idx.toNat := by
        have := (shmValid_iff.mp hvj).1
        have := (shmValid_iff.mp hv).1
        omega
      have htj := hsame _ hjne
      refine ⟨htj, fun k hk => ?_⟩
      have hvj' : shmValid t₁ j = true := by
        rw [shmValid_iff] at hvj ⊢
        rw [htj]
        exact hvj
      obtain ⟨hlej, _⟩ := h.size_le huj
      refine shmByte_kept h hvj hvj' (fun k _ => by rw [htj]) hk ?_
      exact hothers.2 _ ⟨_, hjne, huj, k / pageSize, page_lt (by omega), rfl⟩ _
        (Nat.mod_lt _ (by decide))

end Ops

/-! ## Later -/

/-- An operation on the objects that is not one on object `i`; lengths and ends do not wrap. -/
inductive Elsewhere (fs : FrameService σ) (i : Int) : σ × ShmTable → σ × ShmTable → Prop
  | open (s : σ) (t : ShmTable) (name : CStr) : Elsewhere fs i (s, t) (s, (shmOpenObject t name).1)
  | truncate {s s' : σ} {t t' : ShmTable} {idx : Int} {length : Nat} {r : Int} : idx ≠ i →
      length + 4095 < 2 ^ 64 → shmTruncate fs s t idx length = (s', t', r) →
      Elsewhere fs i (s, t) (s', t')
  | write {s s' : σ} {t t' : ShmTable} {idx : Int} {buf : Nat → UInt8} {len off off' : Nat} {r : Int} :
      idx ≠ i → off + len + 4095 < 2 ^ 64 → shmWrite fs s t idx buf len off = (s', t', r, off') →
      Elsewhere fs i (s, t) (s', t')
  | destroy {s s' : σ} {t t' : ShmTable} {idx : Int} : idx ≠ i → shmDestroy fs s t idx = (s', t') →
      Elsewhere fs i (s, t) (s', t')

/-- Object `i` is as it was. -/
structure SameObject (fs : FrameService σ) (i : Int) (x y : σ × ShmTable) : Prop where
  valid : shmValid y.2 i = true
  size : (y.2 i.toNat).size = (x.2 i.toNat).size
  bytes : ∀ k, k < (x.2 i.toNat).size → shmByte (fs.phys y.1) y.2 i k = shmByte (fs.phys x.1) x.2 i k

section Later

variable {fs : FrameService σ} (o : OverPmm fs) (hm : FlatMemory fs) {i : Int}

/-- The object's entry is unchanged and so are the bytes of its frames. -/
theorem sameObject_of_entry {s s' : σ} {t t' : ShmTable} (h : ShmInv (o.pmm s) t)
    (hv : shmValid t i = true) (ht : t' i.toNat = t i.toNat)
    (hbytes : ∀ k, k < pagesFor (t i.toNat).size → ∀ j, j < pageSize →
      fs.phys s' ((t i.toNat).pages k + j) = fs.phys s ((t i.toNat).pages k + j)) :
    SameObject fs i (s, t) (s', t') := by
  have hv' : shmValid t' i = true := by
    rw [shmValid_iff] at hv ⊢
    rw [ht]
    exact hv
  refine ⟨hv', by dsimp only; rw [ht], fun k hk => ?_⟩
  have hle := (h.size_le (shmValid_used hv)).1
  dsimp only at hk ⊢
  exact shmByte_kept h hv hv' (fun k _ => by rw [ht]) hk
    (hbytes _ (page_lt (by omega)) _ (Nat.mod_lt _ (by decide)))

include hm in
theorem Elsewhere.same {x y : σ × ShmTable} (he : Elsewhere fs i x y) (h : ShmInv (o.pmm x.1) x.2)
    (hv : shmValid x.2 i = true) : ShmInv (o.pmm y.1) y.2 ∧ SameObject fs i x y := by
  have hu := shmValid_used hv
  -- an operation on another index
  have hne : ∀ {t : ShmTable} {idx : Int}, idx ≠ i → shmValid t idx = true
      → i.toNat ≠ idx.toNat := by
    intro t idx hidx hvalid
    have := (shmValid_iff.mp hvalid).1
    have := (shmValid_iff.mp hv).1
    omega
  have htaken : ∀ k, k < pagesFor (x.2 i.toNat).size
      → FrameTaken (o.pmm x.1) ((x.2 i.toNat).pages k) :=
    fun k hk => ((h.pages _ hu).taken k hk).1
  cases he with
  | «open» s t name =>
      refine ⟨ShmInv.open h name, sameObject_of_entry o h hv ?_ fun _ _ _ _ => rfl⟩
      unfold shmOpenObject
      split
      · rfl
      · split
        · next j hj =>
          refine ShmTable.set_ne _ fun hc => ?_
          have hfree := (Scan.first_some hj).1
          dsimp only at hu
          rw [← hc, hu] at hfree
          exact absurd hfree (by decide)
        · rfl
  | @truncate s s' t t' idx length r hidx hlen hs =>
      obtain ⟨hbytes, hsame, _⟩ := shmTruncate_flat o hm h hs
      refine ⟨(shmTruncate_inv o h hlen hs).1, sameObject_of_entry o h hv ?_
        fun k hk => hbytes _ (htaken k hk)⟩
      by_cases hvalid : shmValid t idx = true
      · exact hsame _ (hne hidx hvalid)
      · unfold shmTruncate at hs
        rw [if_pos (by simpa using hvalid)] at hs
        cases hs
        rfl
  | @write s s' t t' idx buf len off off' r hidx hoff hs =>
      by_cases hvalid : shmValid t idx = true
      · obtain ⟨hsame, hbytes⟩ := shmWrite_others o hm buf h hoff hs
        have hi := hne hidx hvalid
        exact ⟨(shmWrite_inv o buf h hoff hs).1, sameObject_of_entry o h hv (hsame _ hi)
          fun k hk => hbytes _ ⟨_, hi, hu, k, hk, rfl⟩⟩
      · unfold shmWrite at hs
        rw [if_pos (by simpa using hvalid)] at hs
        cases hs
        exact ⟨h, sameObject_of_entry o h hv rfl fun _ _ _ _ => rfl⟩
  | @destroy s s' t t' idx hidx hs =>
      refine ⟨shmDestroy_inv o h hs, ?_⟩
      by_cases hvalid : shmValid t idx = true
      · have hi := hne hidx hvalid
        unfold shmDestroy at hs
        rw [if_neg (by simp [hvalid])] at hs
        have hflat := (shmFreePages_flat hm (pagesFor (t idx.toNat).size) 0 s (t idx.toNat).pages).1
        cases hs
        exact sameObject_of_entry o h hv (ShmTable.set_ne _ hi) fun k _ j _ => by rw [hflat]
      · unfold shmDestroy at hs
        rw [if_pos (by simpa using hvalid)] at hs
        cases hs
        exact sameObject_of_entry o h hv rfl fun _ _ _ _ => rfl

include hm in
theorem elsewhere_same {x y : σ × ShmTable} (he : Relation.ReflTransGen (Elsewhere fs i) x y)
    (h : ShmInv (o.pmm x.1) x.2) (hv : shmValid x.2 i = true) :
    ShmInv (o.pmm y.1) y.2 ∧ SameObject fs i x y := by
  induction he with
  | refl => exact ⟨h, hv, rfl, fun _ _ => rfl⟩
  | tail _ hstep ih =>
      obtain ⟨h₁, hsame⟩ := ih
      obtain ⟨h₂, hsame'⟩ := hstep.same o hm h₁ hsame.valid
      exact ⟨h₂, hsame'.valid, hsame'.size.trans hsame.size, fun k hk =>
        (hsame'.bytes k (by rw [hsame.size]; exact hk)).trans (hsame.bytes k hk)⟩

end Later

end VnlKernel
