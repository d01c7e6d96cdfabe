import VnlKernel.Kernel.Shm
import VnlKernel.Proof.PmmRun

/-!
# Pages of shared memory objects

The pages of an object are frames of the physical allocator, one for each index below its
size in pages. The loops of `shm.c` allocate or give back one index at a time. What is said
of an object's pages is said here relative to the set of indices that have one, so that it
can be said in the middle of a loop, and relative to the frames that other objects have.
-/

namespace VnlKernel

open Bits

variable {σ : Type}

/-- The frames of a `FrameService` are those of `pmm.c`. -/
structure OverPmm (fs : FrameService σ) where
  pmm : σ → Pmm
  alloc : ∀ s, pmmAlloc (pmm s) = (pmm (fs.alloc s).1, (fs.alloc s).2)
  free : ∀ s f, pmm (fs.free s f) = pmmFree (pmm s) f
  setPhys : ∀ s m, pmm (fs.setPhys s m) = pmm s
  /-- Mapping a page for the heap takes frames, for the page and for the tables on the way. -/
  mapPage : ∀ {s s' : σ} {va : Nat} {frame : Nat → UInt8}, fs.mapPage s va = some (s', frame) →
    Relation.ReflTransGen (fun p p' => p' = (pmmAlloc p).1) (pmm s) (pmm s')

/-- The frame at `a` is allocated. -/
def FrameTaken (p : Pmm) (a : Nat) : Prop :=
  ∃ f, a = f * pageSize ∧ 256 ≤ f ∧ f < p.totalFrames ∧ p.bmTest f = true

section Frames

variable {p p' : Pmm} {a b : Nat}

theorem FrameTaken.ne_zero (h : FrameTaken p a) : a ≠ 0 := by
  obtain ⟨f, rfl, hlo, _⟩ := h
  exact Nat.mul_ne_zero (by omega) (by decide)

/-- An allocation takes a frame that was not taken, or none. -/
theorem frameTaken_alloc (h : PmmInv p) (ha : pmmAlloc p = (p', a)) :
    PmmInv p' ∧ (∀ b, FrameTaken p b → FrameTaken p' b)
      ∧ (a ≠ 0 → FrameTaken p' a ∧ ¬ FrameTaken p a) := by
  have hinv := pmmAlloc_inv h
  rw [ha] at hinv
  rcases pmmAlloc_cases h with ⟨_, he⟩ | ⟨f, _, hlo, hhi, hclr, he⟩
  · cases he.symm.trans ha
    exact ⟨hinv, fun _ hb => hb, fun h0 => absurd rfl h0⟩
  · cases he.symm.trans ha
    refine ⟨hinv, ?_, fun _ => ⟨⟨f, rfl, hlo, hhi, bmTest_markUsed_self⟩, ?_⟩⟩
    · rintro b ⟨g, hg, h1, h2, h3⟩
      exact ⟨g, hg, h1, h2, bmTest_markUsed_mono h3⟩
    · rintro ⟨g, hg, _, _, hset⟩
      rw [← Nat.mul_right_cancel (by decide) hg, hclr] at hset
      exact Bool.noConfusion hset

/-- A frame that is taken is given back, and no other. -/
theorem frameTaken_free (h : PmmInv p) (ha : FrameTaken p a) :
    PmmInv (pmmFree p a) ∧ ∀ b, b ≠ a → FrameTaken p b → FrameTaken (pmmFree p a) b := by
  obtain ⟨f, rfl, hlo, hhi, hset⟩ := ha
  rw [pmmFree_eq hset]
  refine ⟨h.give hlo hhi hset, ?_⟩
  rintro b hne ⟨g, rfl, h1, h2, h3⟩
  exact ⟨g, rfl, h1, h2, bmTest_markFree_ne (fun e => hne (by rw [e])) h3⟩

theorem frameTaken_grows (h : PmmInv p)
    (hg : Relation.ReflTransGen (fun p p' => p' = (pmmAlloc p).1) p p') :
    PmmInv p' ∧ ∀ b, FrameTaken p b → FrameTaken p' b := by
  induction hg with
  | refl => exact ⟨h, fun _ hb => hb⟩
  | tail _ hs ih =>
      obtain ⟨h1, h2, _⟩ := frameTaken_alloc ih.1 (Prod.eta _).symm
      rw [hs]
      exact ⟨h1, fun b hb => h2 b (ih.2 b hb)⟩

end Frames

/-! ## Page arrays -/

/-- The indices in `S` have a frame each, which is taken and not one of `others`; the rest have
none. -/
structure PagesOn (p : Pmm) (others : Nat → Prop) (pages : Nat → Nat) (S : Nat → Prop) : Prop where
  inv : PmmInv p
  rest : ∀ a, others a → FrameTaken p a
  taken : ∀ k, S k → FrameTaken p (pages k) ∧ ¬ others (pages k)
  absent : ∀ k, ¬ S k → pages k = 0
  inj : ∀ k l, S k → S l → pages k = pages l → k = l

section Pages

variable {fs : FrameService σ} (o : OverPmm fs) {others : Nat → Prop}

theorem PagesOn.congr {p : Pmm} {pages : Nat → Nat} {S S' : Nat → Prop}
    (h : PagesOn p others pages S)
    (hS : ∀ k, S' k ↔ S k) : PagesOn p others pages S' := by
  have : S' = S := funext fun k => propext (hS k)
  rw [this]
  exact h

/-- One more index gets a frame. -/
theorem PagesOn.add {p p' : Pmm} {pages : Nat → Nat} {S : Nat → Prop} (h : PagesOn p others pages S)
    {i frame : Nat} (hi : ¬ S i) (ha : pmmAlloc p = (p', frame)) (h0 : frame ≠ 0) :
    PagesOn p' others (fun j => if j = i then frame else pages j) (fun k => S k ∨ k = i) := by
  obtain ⟨hinv, hmono, hnew⟩ := frameTaken_alloc h.inv ha
  obtain ⟨htaken, hfresh⟩ := hnew h0
  -- the frame is nobody's yet
  have hold : ∀ k, S k → pages k ≠ frame := fun k hk he => hfresh (he ▸ (h.taken k hk).1)
  have hne : ∀ k, S k → k ≠ i := fun k hk he => hi (he ▸ hk)
  refine ⟨hinv, fun a ha => hmono a (h.rest a ha), ?_, ?_, ?_⟩
  · rintro k (hk | rfl)
    · rw [if_neg (hne k hk)]
      exact ⟨hmono _ (h.taken k hk).1, (h.taken k hk).2⟩
    · rw [if_pos rfl]
      exact ⟨htaken, fun hc => hfresh (h.rest _ hc)⟩
  · intro k hk
    rw [not_or] at hk
    rw [if_neg hk.2]
    exact h.absent k hk.1
  · rintro k l (hk | rfl) (hl | rfl) he
    · rw [if_neg (hne k hk), if_neg (hne l hl)] at he
      exact h.inj k l hk hl he
    · rw [if_neg (hne k hk), if_pos rfl] at he
      exact absurd he (hold k hk)
    · rw [if_pos rfl, if_neg (hne l hl)] at he
      exact absurd he.symm (hold l hl)
    · rfl

/-- An index gives its frame back. -/
theorem PagesOn.drop {p : Pmm} {pages : Nat → Nat} {S : Nat → Prop} (h : PagesOn p others pages S)
    {i : Nat} (hi : S i) :
    PagesOn (pmmFree p (pages i)) others (fun j => if j = i then 0 else pages j)
      (fun k => S k ∧ k ≠ i) := by
  obtain ⟨hinv, hkeep⟩ := frameTaken_free h.inv (h.taken i hi).1
  refine ⟨hinv, fun a ha => hkeep a (fun he => (h.taken i hi).2 (he ▸ ha)) (h.rest a ha), ?_, ?_,
    ?_⟩
  · rintro k ⟨hk, hne⟩
    rw [if_neg hne]
    exact ⟨hkeep _ (fun he => hne (h.inj k i hk hi he)) (h.taken k hk).1, (h.taken k hk).2⟩
  · intro k hk
    by_cases hki : k = i
    · rw [if_pos hki]
    · rw [if_neg hki]
      exact h.absent k fun hc => hk ⟨hc, hki⟩
  · rintro k l ⟨hk, hke⟩ ⟨hl, hle⟩ he
    rw [if_neg hke, if_neg hle] at he
    exact h.inj k l hk hl he

/-- The undo loop gives back what it is pointed at. -/
theorem shmUndoPages_on : ∀ (n i : Nat) {s : σ} {pages : Nat → Nat} {S : Nat → Prop},
    PagesOn (o.pmm s) others pages S → (∀ k, i ≤ k → k < i + n → S k) →
    PagesOn (o.pmm (shmUndoPages fs s pages n i).1) others (shmUndoPages fs s pages n i).2
      (fun k => S k ∧ ¬ (i ≤ k ∧ k < i + n))
  | 0, i, s, pages, S, h, _ => h.congr fun k => ⟨fun hk => hk.1, fun hk => ⟨hk, by omega⟩⟩
  | n + 1, i, s, pages, S, h, hS => by
      rw [shmUndoPages]
      have hdrop := h.drop (hS i (Nat.le_refl _) (by omega))
      rw [← o.free] at hdrop
      refine (shmUndoPages_on n (i + 1) hdrop fun k h1 h2 =>
        ⟨hS k (by omega) (by omega), by omega⟩).congr ?_
      intro k
      refine ⟨fun ⟨hk, hn⟩ => ⟨⟨hk, by omega⟩, by omega⟩, fun ⟨⟨hk, hne⟩, hn⟩ => ⟨hk, by omega⟩⟩

/-- The loop of `shm_truncate` and `shm_destroy` looks first, and finds every page. -/
theorem shmFreePages_on : ∀ (n i : Nat) {s : σ} {pages : Nat → Nat} {S : Nat → Prop},
    PagesOn (o.pmm s) others pages S → (∀ k, i ≤ k → k < i + n → S k) →
    PagesOn (o.pmm (shmFreePages fs s pages n i).1) others (shmFreePages fs s pages n i).2
      (fun k => S k ∧ ¬ (i ≤ k ∧ k < i + n))
  | 0, i, s, pages, S, h, _ => h.congr fun k => ⟨fun hk => hk.1, fun hk => ⟨hk, by omega⟩⟩
  | n + 1, i, s, pages, S, h, hS => by
      have hi := hS i (Nat.le_refl _) (by omega)
      have hdrop := h.drop hi
      rw [← o.free] at hdrop
      have hstep : shmFreePages fs s pages (n + 1) i
          = shmFreePages fs (fs.free s (pages i))
              (fun j => if j = i then 0 else pages j) n (i + 1) := by
        rw [shmFreePages]
        exact if_pos (h.taken i hi).1.ne_zero
      rw [hstep]
      refine (shmFreePages_on n (i + 1) hdrop fun k h1 h2 =>
        ⟨hS k (by omega) (by omega), by omega⟩).congr ?_
      intro k
      refine ⟨fun ⟨hk, hn⟩ => ⟨⟨hk, by omega⟩, by omega⟩, fun ⟨⟨hk, hne⟩, hn⟩ => ⟨hk, by omega⟩⟩

/-- The growing loop adds every index it is pointed at, or none. -/
theorem shmGrowPages_on (old : Nat) : ∀ (n i : Nat) {s s' : σ} {pages pages' : Nat → Nat}
    {ok : Bool},
    old ≤ i → PagesOn (o.pmm s) others pages (· < i) →
    shmGrowPages fs old s pages n i = (s', pages', ok) →
    PagesOn (o.pmm s') others pages' (fun k => k < if ok then i + n else old)
  | 0, i, s, s', pages, pages', ok, _, h, hg => by
      cases hg
      exact h
  | n + 1, i, s, s', pages, pages', ok, hold, h, hg => by
      have ha := o.alloc s
      rw [shmGrowPages] at hg
      dsimp only at hg
      split at hg
      · obtain ⟨hinv, hmono, _⟩ := frameTaken_alloc h.inv ha
        have h' : PagesOn (o.pmm (fs.alloc s).1) others pages (· < i) :=
          ⟨hinv, fun a hm => hmono a (h.rest a hm),
            fun k hk => ⟨hmono _ (h.taken k hk).1, (h.taken k hk).2⟩,
            h.absent, h.inj⟩
        have hundo := shmUndoPages_on o (i - old) old h' fun k h1 h2 => by omega
        cases hg
        refine hundo.congr fun k => ?_
        rw [if_neg (by decide)]
        exact ⟨fun hk => ⟨by omega, by omega⟩, fun ⟨h1, h2⟩ => by omega⟩
      · next h0 =>
        have hadd := h.add (i := i) (Nat.lt_irrefl i) ha h0
        rw [← o.setPhys _ (ByteMem.memset (fs.phys (fs.alloc s).1) (fs.alloc s).2 0 pageSize)]
          at hadd
        have hnext : ∀ k, k < i + 1 ↔ k < i ∨ k = i := fun k => by omega
        rw [show i + (n + 1) = i + 1 + n by omega]
        exact shmGrowPages_on old n (i + 1) (by omega) (hadd.congr hnext) hg

end Pages

end VnlKernel
