import VnlKernel.Proof.ShmFlat

/-!
# Bytes of an object that nobody wrote

A larger size brings bytes into existence that nobody wrote: holes. Pages that are new
are cleared. The rest of the last page is not: it holds what the page held, and pages
are neither cleared behind a size that shrinks nor closed to a mapping beyond it. So
holes read as zeros exactly as long as a growth finds zeros there.

The run carries the holes along with the objects, through every operation of `shm.c`,
through writes to mapped pages and through what the rest of the kernel does with other
frames.
-/

namespace VnlKernel

open Bits ByteMem

variable {σ : Type}

/-- The objects, and the bytes of each that came with a larger size and were not written since. -/
structure ShmHoles (σ : Type) where
  frames : σ
  shm : ShmTable
  hole : Nat → Nat → Prop

/-- What the last page of the object holds behind its size, as far as `stop`, is zero. -/
def ZeroRest (fs : FrameService σ) (s : σ) (t : ShmTable) (idx : Int) (stop : Nat) : Prop :=
  shmValid t idx = true → ∀ k, (t idx.toNat).size ≤ k → k < stop →
    k < pagesFor (t idx.toNat).size * pageSize → shmByte (fs.phys s) t idx k = 0

namespace ShmHoles

/-- After an operation: what was a hole, or lies beyond the old size, is one unless it was written.
-/
def next (c : ShmHoles σ) (s : σ) (t : ShmTable) (written : Nat → Nat → Prop) : ShmHoles σ :=
  ⟨s, t, fun i k => (t i).used = true ∧ k < (t i).size ∧ ¬ written i k
    ∧ (c.hole i k ∨ (c.shm i).size ≤ k)⟩

/-- No byte. -/
def nothing (_ _ : Nat) : Prop := False

/-- One step. `ok` is what is asked of an operation that may bring bytes into existence, as far as
the last argument. -/
inductive Step (fs : FrameService σ) (o : OverPmm fs) (ok : σ → ShmTable → Int → Nat → Prop) :
    ShmHoles σ → ShmHoles σ → Prop
  | open {c : ShmHoles σ} (name : CStr) :
      Step fs o ok c (c.next c.frames (shmOpenObject c.shm name).1 nothing)
  | truncate {c : ShmHoles σ} {s : σ} {t : ShmTable} {idx r : Int} {length : Nat} :
      length + 4095 < 2 ^ 64 → ok c.frames c.shm idx length →
      shmTruncate fs c.frames c.shm idx length = (s, t, r) → Step fs o ok c (c.next s t nothing)
  | write {c : ShmHoles σ} {s : σ} {t : ShmTable} {idx r : Int} {buf : Nat → UInt8}
      {len off off' : Nat} :
      off + len + 4095 < 2 ^ 64 → ok c.frames c.shm idx off →
      shmWrite fs c.frames c.shm idx buf len off = (s, t, r, off') →
      Step fs o ok c (c.next s t fun i k => i = idx.toNat ∧ 0 ≤ r ∧ off ≤ k ∧ k < off + len)
  | destroy {c : ShmHoles σ} {s : σ} {t : ShmTable} {idx : Int} :
      shmDestroy fs c.frames c.shm idx = (s, t) → Step fs o ok c (c.next s t nothing)
  /-- A process stores a byte in a page it has mapped. -/
  | store {c : ShmHoles σ} {idx : Int} {k : Nat} (b : UInt8) : shmValid c.shm idx = true →
      k < pagesFor (c.shm idx.toNat).size * pageSize →
      Step fs o ok c (c.next
        (fs.setPhys c.frames
          (setByte (fs.phys c.frames) (shmGetPagePhys c.shm idx k + k % pageSize) b))
        c.shm fun i l => i = idx.toNat ∧ l = k)
  /-- The rest of the kernel takes, fills and gives back frames, but none that an object has. -/
  | rest {c : ShmHoles σ} {s : σ} : PmmInv (o.pmm s) →
      (∀ i k, (c.shm i).used = true → k < pagesFor (c.shm i).size →
        FrameTaken (o.pmm s) ((c.shm i).pages k) ∧ ∀ j, j < pageSize →
          fs.phys s ((c.shm i).pages k + j) = fs.phys c.frames ((c.shm i).pages k + j)) →
      Step fs o ok c { c with frames := s }

/-- After boot. -/
def Starts {fs : FrameService σ} (o : OverPmm fs) (c : ShmHoles σ) : Prop :=
  c.shm = shmInit ∧ (∀ i k, ¬ c.hole i k) ∧ ∃ rs out, PmmReach (o.pmm c.frames) rs out

/-- **Holes read as zeros**, through a mapping and through `shm_read`. -/
def ReadsZeros (fs : FrameService σ) (c : ShmHoles σ) : Prop :=
  ∀ idx, shmValid c.shm idx = true →
    (∀ k, c.hole idx.toNat k → shmByte (fs.phys c.frames) c.shm idx k = 0)
      ∧ ∀ len off j : Nat, (j : Int) < (shmRead (fs.phys c.frames) c.shm idx len off).1 →
          c.hole idx.toNat (off + j) → (shmRead (fs.phys c.frames) c.shm idx len off).2.2 j = 0

end ShmHoles

/-! ## The bytes of a page array that grows -/

section Bytes

variable {fs : FrameService σ} (o : OverPmm fs) (hm : FlatMemory fs) {s s' : σ} {t t' : ShmTable}
  {idx : Int}
include hm

/-- New pages are zero from end to end, and the old ones are where they were. -/
theorem shmGrowPages_zero (old : Nat) : ∀ (n i : Nat) {s s' : σ} {pages pages' : Nat → Nat},
    old ≤ i → PmmInv (o.pmm s) → shmGrowPages fs old s pages n i = (s', pages', true) →
    (∀ k, k < i → pages' k = pages k)
      ∧ ∀ k, i ≤ k → k < i + n → ∀ j, j < pageSize → fs.phys s' (pages' k + j) = 0 := by
  intro n
  induction n with
  | zero =>
      intro i s s' pages pages' _ _ hg
      cases hg
      exact ⟨fun _ _ => rfl, fun k h1 h2 => by omega⟩
  | succ n ih =>
      intro i s s' pages pages' hold hinv hg
      have ha := o.alloc s
      obtain ⟨hinv', _, hnew⟩ := frameTaken_alloc hinv ha
      rw [shmGrowPages] at hg
      dsimp only at hg
      split at hg
      · cases hg
      · next h0 =>
        have hset := o.setPhys (fs.alloc s).1
          (memset (fs.phys (fs.alloc s).1) (fs.alloc s).2 0 pageSize)
        have hinv'' := hset ▸ hinv'
        obtain ⟨hfirst, hzero⟩ := ih (i + 1) (by omega) hinv'' hg
        -- the page of this turn is taken when the later ones are cleared
        obtain ⟨hbytes, _, _⟩ := shmGrowPages_flat o hm old n (i + 1) (by omega) hinv'' hg
        rw [hset] at hbytes
        have hpage : pages' i = (fs.alloc s).2 := by
          rw [hfirst i (by omega)]
          exact if_pos rfl
        refine ⟨fun k hk => ?_, fun k h1 h2 j hj => ?_⟩
        · rw [hfirst k (by omega)]
          exact if_neg (by omega)
        · rcases Nat.eq_or_lt_of_le h1 with heq | hlt
          · rw [← heq, hpage, hbytes _ (hnew h0).1 j hj, hm.setPhys]
            exact memset_in (by omega) (by omega)
          · exact hzero k hlt (by omega) j hj

/-- **What `shm_truncate` makes of an object's bytes**: below the old end of its pages they are what
they were, beyond it they are zero. -/
theorem shmTruncate_bytes {length : Nat} {r : Int} (h : ShmInv (o.pmm s) t)
    (hlen : length + 4095 < 2 ^ 64) (hv : shmValid t idx = true)
    (hs : shmTruncate fs s t idx length = (s', t', r)) {k : Nat} (hk : k < (t' idx.toNat).size) :
    (k < pagesFor (t idx.toNat).size * pageSize
        ∧ byteAddr (t' idx.toNat).pages k = byteAddr (t idx.toNat).pages k
        ∧ fs.phys s' (byteAddr (t idx.toNat).pages k) = fs.phys s (byteAddr (t idx.toNat).pages k))
      ∨ (pagesFor (t idx.toNat).size * pageSize ≤ k ∧ k < length
        ∧ fs.phys s' (byteAddr (t' idx.toNat).pages k) = 0) := by
  have hu := shmValid_used hv
  obtain ⟨hle, _⟩ := h.size_le hu
  have hmod : k % pageSize < pageSize := Nat.mod_lt _ (by decide)
  have hbytes := (shmTruncate_flat o hm h hs).1
  -- a byte that has a page already, once the page array is known to begin as it did
  have hkept : k < pagesFor (t idx.toNat).size * pageSize →
      (t' idx.toNat).pages (k / pageSize) = (t idx.toNat).pages (k / pageSize) →
      byteAddr (t' idx.toNat).pages k = byteAddr (t idx.toNat).pages k
        ∧ fs.phys s' (byteAddr (t idx.toNat).pages k)
            = fs.phys s (byteAddr (t idx.toNat).pages k) := by
    intro hin hpage
    refine ⟨by unfold byteAddr; rw [hpage], ?_⟩
    exact hbytes _ ((h.pages _ hu).taken _ (page_lt hin)).1 _ hmod
  unfold shmTruncate at hs
  rw [if_neg (by simp [hv])] at hs
  dsimp only at hs
  split at hs
  · cases hs
    have hin := Nat.lt_of_lt_of_le hk hle
    exact Or.inl ⟨hin, hkept hin rfl⟩
  · obtain ⟨⟨s₁, pages₁, ok⟩, hg⟩ : ∃ x, shmGrowPages fs (pagesFor (t idx.toNat).size) s
      (t idx.toNat).pages (pagesFor length - pagesFor (t idx.toNat).size)
      (pagesFor (t idx.toNat).size) = x := ⟨_, rfl⟩
    have hflat := shmGrowPages_flat o hm _ _ _ (Nat.le_refl _) h.inv hg
    rw [hg] at hs
    dsimp only at hs
    cases ok with
    | false =>
        -- the new pages are given back, and the size stays
        cases hs
        rw [ShmTable.set_self] at hk hkept
        have hin := Nat.lt_of_lt_of_le hk hle
        rw [ShmTable.set_self]
        exact Or.inl ⟨hin, hkept hin (hflat.2.1 _ (page_lt hin))⟩
    | true =>
        obtain ⟨hfirst, hzero⟩ := shmGrowPages_zero o hm _ _ _ (Nat.le_refl _) h.inv hg
        obtain ⟨hphys, hpages⟩ := shmFreePages_flat hm
          (pagesFor (t idx.toNat).size - pagesFor length)
          (pagesFor length) s₁ pages₁
        cases hs
        rw [ShmTable.set_self] at hk hkept ⊢
        dsimp only at hk hkept ⊢
        have hpl : k / pageSize < pagesFor length := by
          rw [pagesFor_of_le hlen, show pageSize = 4096 from rfl]
          omega
        by_cases hin : k < pagesFor (t idx.toNat).size * pageSize
        · exact Or.inl ⟨hin, hkept hin ((hpages _ hpl).trans (hfirst _ (page_lt hin)))⟩
        · have hge : pagesFor (t idx.toNat).size ≤ k / pageSize := by
            rw [Nat.le_div_iff_mul_le (by decide)]
            omega
          refine Or.inr ⟨by omega, hk, ?_⟩
          unfold byteAddr
          rw [hphys, hpages _ hpl]
          exact hzero _ hge (by omega) _ hmod

/-- The same for the part of `shm_write` that grows. -/
theorem growFor_bytes {newEnd : Nat} {r : Int} (h : ShmInv (o.pmm s) t)
    (hend : newEnd + 4095 < 2 ^ 64)
    (hv : shmValid t idx = true) (hs : growFor fs s t idx newEnd = (s', t', r)) {k : Nat}
    (hk : k < (t' idx.toNat).size) :
    (k < pagesFor (t idx.toNat).size * pageSize
        ∧ byteAddr (t' idx.toNat).pages k = byteAddr (t idx.toNat).pages k
        ∧ fs.phys s' (byteAddr (t idx.toNat).pages k) = fs.phys s (byteAddr (t idx.toNat).pages k))
      ∨ (pagesFor (t idx.toNat).size * pageSize ≤ k ∧ k < newEnd
        ∧ fs.phys s' (byteAddr (t' idx.toNat).pages k) = 0) := by
  unfold growFor at hs
  split at hs
  · exact shmTruncate_bytes o hm h hend hv hs hk
  · cases hs
    exact Or.inl ⟨Nat.lt_of_lt_of_le hk (h.size_le (shmValid_used hv)).1, rfl, rfl⟩

omit hm in
/-- The size after `shm_truncate`. -/
theorem shmTruncate_size {length : Nat} {r : Int} (hv : shmValid t idx = true)
    (hs : shmTruncate fs s t idx length = (s', t', r)) :
    (r < 0 ∧ (t' idx.toNat).size = (t idx.toNat).size)
      ∨ (r = 0 ∧ (t' idx.toNat).size = length) := by
  unfold shmTruncate at hs
  rw [if_neg (by simp [hv])] at hs
  dsimp only at hs
  split at hs
  · cases hs
    exact Or.inl ⟨by decide, rfl⟩
  · split at hs
    · cases hs
      rw [ShmTable.set_self]
      exact Or.inl ⟨by decide, rfl⟩
    · cases hs
      rw [ShmTable.set_self]
      exact Or.inr ⟨rfl, rfl⟩

omit hm in
theorem growFor_size {newEnd : Nat} {r : Int} (hv : shmValid t idx = true)
    (hs : growFor fs s t idx newEnd = (s', t', r)) :
    (r < 0 ∧ (t' idx.toNat).size = (t idx.toNat).size)
      ∨ (r = 0 ∧ (t' idx.toNat).size = max (t idx.toNat).size newEnd) := by
  unfold growFor at hs
  split at hs
  · rcases shmTruncate_size hv hs with hfail | ⟨hr, hsize⟩
    · exact Or.inl hfail
    · exact Or.inr ⟨hr, by omega⟩
  · cases hs
    exact Or.inr ⟨rfl, by omega⟩

omit o hm in
/-- An index that is not an object in use. -/
theorem shmWrite_refused (buf : Nat → UInt8) {len off : Nat} (hv : shmValid t idx = false) :
    shmWrite fs s t idx buf len off = (s, t, -einval, off) := by
  unfold shmWrite
  exact if_pos (by simp [hv])

end Bytes

/-! ## The invariant -/

/-- Holes hold zeros. -/
structure ShmHoles.Blank {fs : FrameService σ} (o : OverPmm fs) (c : ShmHoles σ) : Prop where
  inv : ShmInv (o.pmm c.frames) c.shm
  hole : ∀ i k, c.hole i k → (c.shm i).used = true ∧ k < (c.shm i).size
    ∧ fs.phys c.frames (byteAddr (c.shm i).pages k) = 0

namespace ShmHoles.Blank

variable {fs : FrameService σ} {o : OverPmm fs} {c : ShmHoles σ} {s : σ} {t : ShmTable}

/-- An operation leaves an object alone, or is seen to make its holes zero. -/
theorem next (h : c.Blank o) {written : Nat → Nat → Prop} (hinv : ShmInv (o.pmm s) t)
    (hcase : ∀ i, (t i).used = true →
      (t i = c.shm i ∧ ∀ k, k < pagesFor (c.shm i).size → ∀ j, j < pageSize →
        fs.phys s ((c.shm i).pages k + j) = fs.phys c.frames ((c.shm i).pages k + j))
      ∨ ∀ k, k < (t i).size → ¬ written i k → (c.hole i k ∨ (c.shm i).size ≤ k) →
        fs.phys s (byteAddr (t i).pages k) = 0) : (c.next s t written).Blank o := by
  refine ⟨hinv, ?_⟩
  intro i k ⟨hu, hk, hnot, hold⟩
  refine ⟨hu, hk, ?_⟩
  rcases hcase i hu with ⟨hsame, hbytes⟩ | hzero
  · dsimp only [ShmHoles.next] at hk hu ⊢
    rw [hsame] at hk hu ⊢
    have hhole : c.hole i k := by
      rcases hold with hhole | hge
      · exact hhole
      · omega
    have hle := (h.inv.size_le hu).1
    unfold byteAddr
    rw [hbytes _ (page_lt (by omega)) _ (Nat.mod_lt _ (by decide))]
    exact (h.hole i k hhole).2.2
  · exact hzero k hk hnot hold

/-- An object that an operation does not name. -/
theorem kept (h : c.Blank o) {i : Nat} (hi : (t i).used = true) (ht : t i = c.shm i)
    (hbytes : ∀ a, FrameTaken (o.pmm c.frames) a → ∀ j, j < pageSize →
      fs.phys s (a + j) = fs.phys c.frames (a + j)) :
    t i = c.shm i ∧ ∀ k, k < pagesFor (c.shm i).size → ∀ j, j < pageSize →
      fs.phys s ((c.shm i).pages k + j) = fs.phys c.frames ((c.shm i).pages k + j) := by
  rw [ht] at hi
  exact ⟨ht, fun k hk => hbytes _ ((h.inv.pages i hi).taken k hk).1⟩

/-- What a growth makes of a byte that is a hole afterwards. -/
theorem grown (h : c.Blank o) {idx : Int} {stop : Nat} (hv : shmValid c.shm idx = true)
    (hok : ZeroRest fs c.frames c.shm idx stop) {k : Nat}
    (hbyte : (k < pagesFor (c.shm idx.toNat).size * pageSize
        ∧ byteAddr (t idx.toNat).pages k = byteAddr (c.shm idx.toNat).pages k
        ∧ fs.phys s (byteAddr (c.shm idx.toNat).pages k)
          = fs.phys c.frames (byteAddr (c.shm idx.toNat).pages k))
      ∨ fs.phys s (byteAddr (t idx.toNat).pages k) = 0)
    (hold : c.hole idx.toNat k ∨ ((c.shm idx.toNat).size ≤ k ∧ k < stop)) :
    fs.phys s (byteAddr (t idx.toNat).pages k) = 0 := by
  rcases hbyte with ⟨hin, haddr, hsame⟩ | hzero
  · rw [haddr, hsame]
    rcases hold with hhole | ⟨hge, hlt⟩
    · exact (h.hole _ k hhole).2.2
    · have hmax := (h.inv.size_le (shmValid_used hv)).2
      have hrest := hok hv k hge hlt hin
      rw [shmByte_eq _ hv (Nat.lt_of_lt_of_le hin (Nat.mul_le_mul_right _ hmax))] at hrest
      exact hrest
  · exact hzero

variable (hm : FlatMemory fs)

theorem opened (h : c.Blank o) (name : CStr) :
    (c.next c.frames (shmOpenObject c.shm name).1 nothing).Blank o := by
  refine h.next (ShmInv.open h.inv name) ?_
  intro i hi
  unfold shmOpenObject at hi ⊢
  split
  · exact Or.inl ⟨rfl, fun _ _ _ _ => rfl⟩
  · split
    · next j _ =>
      by_cases hj : i = j
      · -- a new object has no bytes
        dsimp only
        rw [hj, ShmTable.set_self]
        exact Or.inr fun k hk => absurd hk (Nat.not_lt_zero k)
      · exact Or.inl ⟨ShmTable.set_ne _ hj, fun _ _ _ _ => rfl⟩
    · exact Or.inl ⟨rfl, fun _ _ _ _ => rfl⟩

include hm

theorem truncated (h : c.Blank o) {idx r : Int} {length : Nat} (hlen : length + 4095 < 2 ^ 64)
    (hok : ZeroRest fs c.frames c.shm idx length)
    (hs : shmTruncate fs c.frames c.shm idx length = (s, t, r)) : (c.next s t nothing).Blank o := by
  obtain ⟨hbytes, hothers, _⟩ := shmTruncate_flat o hm h.inv hs
  refine h.next (shmTruncate_inv o h.inv hlen hs).1 ?_
  intro i hi
  by_cases hidx : i = idx.toNat
  · subst hidx
    by_cases hv : shmValid c.shm idx = true
    · refine Or.inr fun k hk _ hold => ?_
      have hbyte := shmTruncate_bytes o hm h.inv hlen hv hs hk
      refine h.grown hv hok (hbyte.imp_right fun hz => hz.2.2) (hold.imp_right fun hge => ⟨hge, ?_⟩)
      rcases shmTruncate_size hv hs with ⟨_, hsize⟩ | ⟨_, hsize⟩
      · omega
      · omega
    · unfold shmTruncate at hs
      rw [if_pos (by simpa using hv)] at hs
      cases hs
      exact Or.inl ⟨rfl, fun _ _ _ _ => rfl⟩
  · exact Or.inl (h.kept hi (hothers i hidx) hbytes)

theorem wrote (h : c.Blank o) {idx r : Int} {buf : Nat → UInt8} {len off off' : Nat}
    (hoff : off + len + 4095 < 2 ^ 64) (hok : ZeroRest fs c.frames c.shm idx off)
    (hs : shmWrite fs c.frames c.shm idx buf len off = (s, t, r, off')) :
    (c.next s t fun i k => i = idx.toNat ∧ 0 ≤ r ∧ off ≤ k ∧ k < off + len).Blank o := by
  obtain ⟨hothers, hbytes⟩ := shmWrite_others o hm buf h.inv hoff hs
  refine h.next (shmWrite_inv o buf h.inv hoff hs).1 ?_
  intro i hi
  by_cases hidx : i = idx.toNat
  · subst hidx
    by_cases hv : shmValid c.shm idx = true
    · refine Or.inr fun k hk hnot hold => ?_
      obtain ⟨s₁, t₁, r₁, hg, hinv₁, hend⟩ := shmWrite_parts o buf h.inv hv hoff
      have hsize := growFor_size hv hg
      have hbyte : k < (t₁ idx.toNat).size → _ := growFor_bytes o hm h.inv hoff hv hg
      rcases hend with ⟨hneg, he⟩ | ⟨hpos, hv₁, hlen, m, he, _, hout⟩
      · -- the object could not grow
        cases he.symm.trans hs
        refine h.grown hv hok ((hbyte hk).imp_right fun hz => hz.2.2)
          (hold.imp_right fun hge => ⟨hge, ?_⟩)
        rcases hsize with ⟨_, hsize⟩ | ⟨hzero, _⟩
        · omega
        · omega
      · cases he.symm.trans hs
        have hu₁ := shmValid_used hv₁
        have hsize₁ := (hinv₁.size_le hu₁).1
        have hret : toInt32 len = len := by
          have hbig : shmMaxPages * pageSize = 4194304 := rfl
          have := hinv₁.size _ hu₁
          exact toInt32_of_lt (by omega)
        have hunwritten : ¬ (off ≤ k ∧ k < off + len) := fun hin =>
          hnot ⟨rfl, by rw [hret]; omega, hin⟩
        -- the byte is at none of the addresses that the write goes to
        rw [hm.setPhys, hout _ fun l h1 h2 haddr => hunwritten
          (by rw [(hinv₁.laid hu₁).byteAddr_inj (by omega) (by omega) haddr]; exact ⟨h1, h2⟩)]
        refine h.grown hv hok ((hbyte hk).imp_right fun hz => hz.2.2)
          (hold.imp_right fun hge => ⟨hge, ?_⟩)
        rcases hsize with ⟨_, hsize⟩ | ⟨_, hsize⟩
        · omega
        · omega
    · rw [shmWrite_refused buf (by simpa using hv)] at hs
      cases hs
      exact Or.inl ⟨rfl, fun _ _ _ _ => rfl⟩
  · refine Or.inl ⟨hothers i hidx, fun k hk => hbytes _ ?_⟩
    rw [hothers i hidx] at hi
    exact ⟨i, hidx, hi, k, hk, rfl⟩

theorem destroyed (h : c.Blank o) {idx : Int} (hs : shmDestroy fs c.frames c.shm idx = (s, t)) :
    (c.next s t nothing).Blank o := by
  refine h.next (shmDestroy_inv o h.inv hs) ?_
  intro i hi
  left
  unfold shmDestroy at hs
  split at hs
  · cases hs
    exact ⟨rfl, fun _ _ _ _ => rfl⟩
  · have hflat := (shmFreePages_flat hm (pagesFor (c.shm idx.toNat).size) 0 c.frames
      (c.shm idx.toNat).pages).1
    cases hs
    by_cases hidx : i = idx.toNat
    · rw [hidx, ShmTable.set_self] at hi
      exact absurd hi (by simp)
    · exact ⟨ShmTable.set_ne _ hidx, fun k _ j _ => by rw [hflat]⟩

theorem stored (h : c.Blank o) {idx : Int} {k : Nat} (b : UInt8) (hv : shmValid c.shm idx = true)
    (hk : k < pagesFor (c.shm idx.toNat).size * pageSize) :
    (c.next (fs.setPhys c.frames
        (setByte (fs.phys c.frames) (shmGetPagePhys c.shm idx k + k % pageSize) b))
      c.shm fun i l => i = idx.toNat ∧ l = k).Blank o := by
  have hu := shmValid_used hv
  obtain ⟨hle, hmax⟩ := h.inv.size_le hu
  have hpage : k / pageSize < pagesFor (c.shm idx.toNat).size := page_lt hk
  have haddr : shmGetPagePhys c.shm idx k + k % pageSize = byteAddr (c.shm idx.toNat).pages k := by
    unfold shmGetPagePhys byteAddr
    rw [if_neg (by simp [hv])]
    dsimp only
    rw [if_neg (by omega)]
  obtain ⟨htaken, hmine⟩ := (h.inv.pages _ hu).taken _ hpage
  refine h.next (by rw [o.setPhys]; exact h.inv) ?_
  intro i hi
  rw [hm.setPhys, haddr]
  by_cases hidx : i = idx.toNat
  · -- another byte of the same object is at another address
    right
    intro l hl hnot hold
    subst hidx
    have hhole : c.hole idx.toNat l := by
      rcases hold with hhole | hge
      · exact hhole
      · omega
    rw [setByte_ne fun hc => hnot ⟨rfl, (h.inv.laid hu).byteAddr_inj (by omega) hk hc⟩]
    exact (h.hole _ l hhole).2.2
  · -- and another object has other frames
    refine Or.inl ⟨rfl, fun l hl j hj => setByte_ne ?_⟩
    have hother : Others c.shm idx.toNat ((c.shm i).pages l) := ⟨i, hidx, hi, l, hl, rfl⟩
    have hne : (c.shm i).pages l ≠ (c.shm idx.toNat).pages (k / pageSize) :=
      fun hc => hmine (hc ▸ hother)
    have hapart := ((h.inv.pages i hi).taken l hl).1.apart htaken hne hj
    have hmod : k % pageSize < pageSize := Nat.mod_lt _ (by decide)
    unfold byteAddr
    omega

omit hm in
theorem rested (h : c.Blank o) (hp : PmmInv (o.pmm s))
    (hframes : ∀ i k, (c.shm i).used = true → k < pagesFor (c.shm i).size →
      FrameTaken (o.pmm s) ((c.shm i).pages k) ∧ ∀ j, j < pageSize →
        fs.phys s ((c.shm i).pages k + j) = fs.phys c.frames ((c.shm i).pages k + j)) :
    ({ c with frames := s } : ShmHoles σ).Blank o := by
  refine ⟨⟨hp, h.inv.size, fun i hu => ?_⟩, fun i k hhole => ?_⟩
  · have hon := h.inv.pages i hu
    refine ⟨hp, ?_, fun k hk => ⟨(hframes i k hu hk).1, (hon.taken k hk).2⟩, hon.absent, hon.inj⟩
    rintro a ⟨j, _, huj, k, hk, rfl⟩
    exact (hframes j k huj hk).1
  · obtain ⟨hu, hk, hzero⟩ := h.hole i k hhole
    have hle := (h.inv.size_le hu).1
    refine ⟨hu, hk, ?_⟩
    unfold byteAddr
    rw [(hframes i _ hu (page_lt (by omega))).2 _ (Nat.mod_lt _ (by decide))]
    exact hzero

/-- **Every step keeps holes blank.** -/
theorem step {c' : ShmHoles σ} (h : c.Blank o) (hs : ShmHoles.Step fs o (ZeroRest fs) c c') :
    c'.Blank o := by
  cases hs with
  | «open» name => exact h.opened name
  | truncate hlen hok hdone => exact h.truncated hm hlen hok hdone
  | write hoff hok hdone => exact h.wrote hm hoff hok hdone
  | destroy hdone => exact h.destroyed hm hdone
  | store b hv hk => exact h.stored hm b hv hk
  | rest hp hframes => exact h.rested hp hframes

omit hm in
theorem start (h : c.Starts o) : c.Blank o := by
  obtain ⟨hshm, hnone, rs, out, hp⟩ := h
  refine ⟨?_, fun i k hk => absurd hk (hnone i k)⟩
  rw [hshm]
  exact ⟨hp.runInv.inv, fun i hu => Bool.noConfusion hu, fun i hu => Bool.noConfusion hu⟩

omit hm in
theorem readsZeros (h : c.Blank o) : c.ReadsZeros fs := by
  intro idx hv
  have hbig : shmMaxPages * pageSize = 4194304 := rfl
  have hbyte : ∀ k, c.hole idx.toNat k → shmByte (fs.phys c.frames) c.shm idx k = 0 := by
    intro k hk
    obtain ⟨hu, hlt, hzero⟩ := h.hole _ k hk
    have := h.inv.size _ hu
    rw [shmByte_eq _ hv (by omega)]
    exact hzero
  refine ⟨hbyte, fun len off j hj hk => ?_⟩
  obtain ⟨bytes, hread, hbytes⟩ := h.inv.flatRead hv (fs.phys c.frames) len off
  rw [hread] at hj ⊢
  dsimp only at hj ⊢
  rw [hbytes j (by omega)]
  exact hbyte _ hk

end ShmHoles.Blank

/-- Holes of objects read as zeros in every run whose growths find zeros. -/
theorem shm_holes_zero {fs : FrameService σ} (o : OverPmm fs) (hm : FlatMemory fs) {c : ShmHoles σ}
    (h : Run.Reach (ShmHoles.Starts o) (ShmHoles.Step fs o (ZeroRest fs)) c) : c.ReadsZeros fs :=
  (h.invariant (P := fun (c : ShmHoles σ) => c.Blank o) (fun _ => ShmHoles.Blank.start)
    fun _ _ hb hstep => hb.step hm hstep).readsZeros

end VnlKernel
