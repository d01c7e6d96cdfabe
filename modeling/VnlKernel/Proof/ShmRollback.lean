import VnlKernel.Proof.ShmRun

/-!
# A growth that runs out of frames

`shm_truncate` takes frames one at a time, and may find none at any turn. What it took so
far it then gives back, in the order it took it. A bitmap with a bit set and then cleared
is the bitmap from before only if the bit was clear, and a counter that went down and up
again only if nothing else moved it. So the loop carries along what it has taken: the bits
it set were clear, they are pairwise different, and there are as many as the counter lost.
-/

namespace VnlKernel

open Bits

variable {σ : Type}

/-- What the shm invariant says of one object: it has a frame of its own for each page of its size.
-/
structure ObjectInv (p : Pmm) (b : ShmObject) : Prop where
  size : b.size ≤ shmMaxPages * pageSize
  pages : PagesOn p (fun _ => False) b.pages (· < pagesFor b.size)

/-- An object of a table that satisfies the invariant does. -/
theorem ShmInv.object {p : Pmm} {t : ShmTable} {i : Nat} (h : ShmInv p t) (hu : (t i).used = true) :
    ObjectInv p (t i) :=
  have hon := h.pages i hu
  ⟨h.size i hu, h.inv, fun _ hc => hc.elim, fun k hk => ⟨(hon.taken k hk).1, id⟩, hon.absent,
    hon.inj⟩

/-! ## What was taken -/

/-- From `p₀` on, the frames of the indices in `[i, j)` were taken, and nothing else happened. -/
structure Took (p₀ p : Pmm) (pages : Nat → Nat) (i j : Nat) : Prop where
  total : p.totalFrames = p₀.totalFrames
  count : p.freeFrames + (j - i) = p₀.freeFrames
  bits : ∀ g, p.bmTest g = true ↔ p₀.bmTest g = true ∨ ∃ k, i ≤ k ∧ k < j ∧ pages k = g * pageSize
  fresh : ∀ k, i ≤ k → k < j → ∃ f, pages k = f * pageSize ∧ p₀.bmTest f = false
  inj : ∀ k l, i ≤ k → k < j → i ≤ l → l < j → pages k = pages l → k = l

namespace Took

variable {p₀ p p' : Pmm} {pages : Nat → Nat} {i j : Nat}

theorem none (p : Pmm) (pages : Nat → Nat) (i : Nat) : Took p p pages i i where
  total := rfl
  count := by omega
  bits := fun g => ⟨Or.inl, fun h => h.elim id fun ⟨_, h1, h2, _⟩ => absurd h1 (by omega)⟩
  fresh := fun k h1 h2 => absurd h1 (by omega)
  inj := fun k l h1 h2 => absurd h1 (by omega)

/-- Nothing is left of it. -/
theorem eq (h : Took p₀ p pages i i) : p = p₀ := by
  obtain ⟨bitmap, total, free⟩ := p
  obtain ⟨bitmap₀, total₀, free₀⟩ := p₀
  have hbits : bitmap = bitmap₀ := by
    refine Bitmap.eq_of_test fun g => ?_
    rw [Bool.eq_iff_iff]
    refine (h.bits g).trans ⟨fun hg => hg.elim id ?_, Or.inl⟩
    intro ⟨k, h1, h2, _⟩
    exact absurd h1 (by omega)
  have htotal : total = total₀ := h.total
  have hcount : free + (i - i) = free₀ := h.count
  rw [hbits, htotal, ← hcount, Nat.sub_self, Nat.add_zero]

/-- One frame more. -/
theorem take (h : Took p₀ p pages i j) (hij : i ≤ j) (hp : PmmInv p) {frame : Nat}
    (ha : pmmAlloc p = (p', frame)) (h0 : frame ≠ 0) :
    Took p₀ p' (fun k => if k = j then frame else pages k) i (j + 1) := by
  rcases pmmAlloc_cases hp with ⟨_, he⟩ | ⟨f, hpos, _, _, hclr, he⟩
  · cases he.symm.trans ha
    exact absurd rfl h0
  · cases he.symm.trans ha
    have hold : ∀ k, k < j → (if k = j then f * pageSize else pages k) = pages k :=
      fun k hk => if_neg (by omega)
    have hnew : (if j = j then f * pageSize else pages j) = f * pageSize := if_pos rfl
    -- the frame is none of those taken before
    have hfresh : ∀ k, i ≤ k → k < j → pages k ≠ f * pageSize := by
      intro k h1 h2 hk
      have := (h.bits f).mpr (Or.inr ⟨k, h1, h2, hk⟩)
      rw [hclr] at this
      exact Bool.noConfusion this
    refine ⟨h.total, ?_, fun g => ?_, fun k h1 h2 => ?_, fun k l h1 h2 h3 h4 hkl => ?_⟩
    · have hcount := h.count
      have hle := hp.free_le
      have hmax : maxFrames < 2 ^ 64 := by decide
      show sub64 p.freeFrames 1 + (j + 1 - i) = p₀.freeFrames
      rw [sub64_of_le (by omega) (by omega)]
      omega
    · rw [bmTest_markUsed, Bool.or_eq_true, h.bits g, decide_eq_true_eq]
      constructor
      · intro hg
        rcases hg with (hg | ⟨k, h1, h2, hk⟩) | rfl
        · exact Or.inl hg
        · exact Or.inr ⟨k, h1, by omega, (hold k h2).trans hk⟩
        · exact Or.inr ⟨j, hij, by omega, hnew⟩
      · intro hg
        rcases hg with hg | ⟨k, h1, h2, hk⟩
        · exact Or.inl (Or.inl hg)
        · by_cases hkj : k = j
          · rw [hkj, hnew] at hk
            exact Or.inr (Nat.mul_right_cancel (by decide) hk)
          · rw [hold k (by omega)] at hk
            exact Or.inl (Or.inr ⟨k, h1, by omega, hk⟩)
    · by_cases hkj : k = j
      · refine ⟨f, by rw [hkj, hnew], ?_⟩
        cases hb : p₀.bmTest f with
        | false => rfl
        | true => rw [(h.bits f).mpr (Or.inl hb)] at hclr; exact Bool.noConfusion hclr
      · rw [hold k (by omega)]
        exact h.fresh k h1 (by omega)
    · by_cases hkj : k = j
      · by_cases hlj : l = j
        · rw [hkj, hlj]
        · rw [hkj, hnew, hold l (by omega)] at hkl
          exact absurd hkl.symm (hfresh l h3 (by omega))
      · rw [hold k (by omega)] at hkl
        by_cases hlj : l = j
        · rw [hlj, hnew] at hkl
          exact absurd hkl (hfresh k h1 (by omega))
        · rw [hold l (by omega)] at hkl
          exact h.inj k l h1 (by omega) h3 (by omega) hkl

/-- The first of them is given back. -/
theorem give (h : Took p₀ p pages i j) (hij : i < j) (hp : PmmInv p₀) :
    Took p₀ (pmmFree p (pages i)) (fun k => if k = i then 0 else pages k) (i + 1) j := by
  obtain ⟨f, hf, hclr⟩ := h.fresh i (Nat.le_refl i) hij
  have hset : p.bmTest f = true := (h.bits f).mpr (Or.inr ⟨i, Nat.le_refl i, hij, hf⟩)
  have hrest : ∀ k, i + 1 ≤ k → (if k = i then 0 else pages k) = pages k :=
    fun k hk => if_neg (by omega)
  rw [hf, pmmFree_eq hset]
  refine ⟨h.total, ?_, fun g => ?_, fun k h1 h2 => ?_, fun k l h1 h2 h3 h4 hkl => ?_⟩
  · have hcount := h.count
    have hle := hp.free_le
    have hmax : maxFrames < 2 ^ 64 := by decide
    show u64 (p.freeFrames + 1) + (j - (i + 1)) = p₀.freeFrames
    rw [u64_of_lt (by omega)]
    omega
  · rw [bmTest_markFree, Bool.and_eq_true, h.bits g, Bool.not_eq_true', decide_eq_false_iff_not]
    constructor
    · intro ⟨hg, hne⟩
      rcases hg with hg | ⟨k, h1, h2, hk⟩
      · exact Or.inl hg
      · have hki : k ≠ i := fun he => by
          rw [he, hf] at hk
          exact hne (Nat.mul_right_cancel (by decide) hk)
        exact Or.inr ⟨k, by omega, h2, (hrest k (by omega)).trans hk⟩
    · intro hg
      rcases hg with hg | ⟨k, h1, h2, hk⟩
      · refine ⟨Or.inl hg, fun he => ?_⟩
        rw [he, hg] at hclr
        exact Bool.noConfusion hclr
      · rw [hrest k h1] at hk
        refine ⟨Or.inr ⟨k, by omega, h2, hk⟩, fun he => ?_⟩
        have := h.inj k i (by omega) h2 (Nat.le_refl i) hij (by rw [hk, hf, he])
        omega
  · rw [hrest k h1]
    exact h.fresh k (by omega) h2
  · rw [hrest k h1, hrest l h3] at hkl
    exact h.inj k l (by omega) h2 (by omega) h4 hkl

end Took

/-! ## The loops -/

section Loops

variable {fs : FrameService σ} (o : OverPmm fs)

/-- The undo loop goes back to where the call began. -/
theorem shmUndoPages_back {p₀ : Pmm} (hp : PmmInv p₀) {j : Nat} :
    ∀ (n i : Nat) {s : σ} {pages : Nat → Nat},
    i + n = j → Took p₀ (o.pmm s) pages i j →
    o.pmm (shmUndoPages fs s pages n i).1 = p₀
      ∧ ∀ k, (shmUndoPages fs s pages n i).2 k = if i ≤ k ∧ k < j then 0 else pages k := by
  intro n
  induction n with
  | zero =>
      intro i s pages hij h
      have hi : i = j := by omega
      subst hi
      exact ⟨h.eq, fun k => by rw [if_neg (by omega)]; rfl⟩
  | succ n ih =>
      intro i s pages hij h
      have hgive := h.give (by omega) hp
      rw [← o.free] at hgive
      obtain ⟨h1, h2⟩ := ih (i + 1) (by omega) hgive
      rw [shmUndoPages]
      refine ⟨h1, fun k => ?_⟩
      rw [h2 k]
      by_cases hk : k = i
      · subst hk
        rw [if_neg (by omega), if_pos rfl, if_pos (by omega)]
      · rw [if_neg hk]
        exact if_congr (by omega) rfl rfl

/-- The growing loop, with `old` the index it began at: it takes a frame for every index up to the
last one, or it leaves everything as it was before it began. -/
theorem shmGrowPages_back {p₀ : Pmm} (hp : PmmInv p₀) (old : Nat) : ∀ (n i : Nat) {s s' : σ}
    {pages pages' : Nat → Nat} {ok : Bool}, old ≤ i → PmmInv (o.pmm s)
      → Took p₀ (o.pmm s) pages old i →
    (∀ k, i ≤ k → pages k = 0) → shmGrowPages fs old s pages n i = (s', pages', ok) →
    (∀ k, k < old → pages' k = pages k)
      ∧ (ok = true → Took p₀ (o.pmm s') pages' old (i + n))
      ∧ (ok = false → o.pmm s' = p₀ ∧ ∀ k, old ≤ k → pages' k = 0) := by
  intro n
  induction n with
  | zero =>
      intro i s s' pages pages' ok _ _ htook _ hg
      cases hg
      exact ⟨fun _ _ => rfl, fun _ => htook, fun h => Bool.noConfusion h⟩
  | succ n ih =>
      intro i s s' pages pages' ok hold hs htook habsent hg
      have ha := o.alloc s
      have hinv := pmmAlloc_inv hs
      rw [ha] at hinv
      rw [shmGrowPages] at hg
      dsimp only at hg
      split at hg
      · next h0 =>
        -- no frame: the allocator has not moved, and the loop undoes what was taken
        have hsame : o.pmm (fs.alloc s).1 = o.pmm s := by
          rcases pmmAlloc_cases hs with ⟨_, he⟩ | ⟨f, _, hlo, _, _, he⟩
          · exact congrArg Prod.fst (ha.symm.trans he)
          · have hf : (fs.alloc s).2 = f * pageSize := congrArg Prod.snd (ha.symm.trans he)
            rw [h0] at hf
            exact absurd hf.symm (Nat.mul_ne_zero (by omega) (by decide))
        rw [← hsame] at htook
        obtain ⟨h1, h2⟩ := shmUndoPages_back o hp (i - old) old (by omega) htook
        cases hg
        refine ⟨fun k hk => ?_, fun h => Bool.noConfusion h, fun _ => ⟨h1, fun k hk => ?_⟩⟩
        · rw [h2 k, if_neg (by omega)]
        · rw [h2 k]
          split
          · rfl
          · exact habsent k (by omega)
      · next h0 =>
        have hnext := htook.take hold hs ha h0
        rw [← o.setPhys _ (ByteMem.memset (fs.phys (fs.alloc s).1) (fs.alloc s).2 0 pageSize)]
          at hnext hinv
        obtain ⟨h1, h2, h3⟩ := ih (i + 1) (by omega) hinv hnext
          (fun k hk => by rw [if_neg (by omega)]; exact habsent k (by omega)) hg
        refine ⟨fun k hk => ?_, fun hok => ?_, h3⟩
        · rw [h1 k hk, if_neg (by omega)]
        · rw [show i + (n + 1) = i + 1 + n by omega]
          exact h2 hok

/-- The shrinking loop gives back one frame for each index. -/
theorem shmFreePages_count : ∀ (n i : Nat) {s : σ} {pages : Nat → Nat} {S : Nat → Prop},
    PagesOn (o.pmm s) (fun _ => False) pages S → (∀ k, i ≤ k → k < i + n → S k) →
    (o.pmm (shmFreePages fs s pages n i).1).freeFrames = (o.pmm s).freeFrames + n
      ∧ ∀ k, k < i → (shmFreePages fs s pages n i).2 k = pages k := by
  intro n
  induction n with
  | zero => exact fun i s pages S _ _ => ⟨rfl, fun _ _ => rfl⟩
  | succ n ih =>
      intro i s pages S h hS
      have hi := hS i (Nat.le_refl i) (by omega)
      have htaken := (h.taken i hi).1
      have hdrop := h.drop hi
      rw [← o.free] at hdrop
      obtain ⟨h1, h2⟩ := ih (i + 1) hdrop fun k hk hk' => ⟨hS k (by omega) (by omega), by omega⟩
      have hone : (o.pmm (fs.free s (pages i))).freeFrames = (o.pmm s).freeFrames + 1 := by
        obtain ⟨f, hf, _, _, hset⟩ := htaken
        have hle := h.inv.free_le
        have hmax : maxFrames + 1 < 2 ^ 64 := by decide
        have hlt : (o.pmm s).freeFrames + 1 < 2 ^ 64 := by omega
        rw [o.free, hf, pmmFree_eq hset]
        exact u64_of_lt hlt
      rw [shmFreePages, if_pos htaken.ne_zero, h1, hone]
      refine ⟨by omega, fun k hk => ?_⟩
      rw [h2 k (by omega)]
      exact if_neg (by omega)

/-- **`shm_truncate` rolls back.** Out of memory, it leaves the objects and the frame allocator
exactly as they were. On success the free frames have changed by the old number of pages less the
new one, and the pages that both sizes have are the same frames. -/
theorem shmTruncate_rollback {s s' : σ} {t t' : ShmTable} {idx r : Int} {length : Nat}
    (h : shmValid t idx = true → ObjectInv (o.pmm s) (t idx.toNat)) (hlen : length ≤ 4 * 1024 * 1024)
    (hs : shmTruncate fs s t idx length = (s', t', r)) :
    (r = -enomem → t' = t ∧ o.pmm s' = o.pmm s)
      ∧ (r = 0 →
          ((o.pmm s').freeFrames : Int)
              = (o.pmm s).freeFrames + pagesFor (t idx.toNat).size - pagesFor length
            ∧ ∀ k, k < pagesFor (t idx.toNat).size → k < pagesFor length →
                (t' idx.toNat).pages k = (t idx.toNat).pages k) := by
  have hnew : pagesFor length ≤ shmMaxPages := by
    rw [pagesFor_of_le (by omega), show shmMaxPages = 1024 from rfl]
    omega
  unfold shmTruncate at hs
  by_cases hv : shmValid t idx = true
  · obtain ⟨hsize, hon⟩ := h hv
    rw [hv] at hs
    dsimp only at hs
    rw [if_neg (by decide), if_neg (by omega)] at hs
    obtain ⟨⟨s₁, pages₁, ok⟩, hg⟩ : ∃ x, shmGrowPages fs (pagesFor (t idx.toNat).size) s
      (t idx.toNat).pages (pagesFor length - pagesFor (t idx.toNat).size)
      (pagesFor (t idx.toNat).size) = x := ⟨_, rfl⟩
    have hgrow := shmGrowPages_on o _ _ _ (Nat.le_refl _) hon hg
    obtain ⟨hkept, hgot, hback⟩ := shmGrowPages_back o hon.inv _ _ _ (Nat.le_refl _) hon.inv
      (.none _ _ _) (fun k hk => hon.absent k (by omega)) hg
    rw [hg] at hs
    dsimp only at hs
    cases ok with
    | false =>
        obtain ⟨hp, hzero⟩ := hback rfl
        -- the page array is the old one, index by index
        have hpages : pages₁ = (t idx.toNat).pages := by
          funext k
          by_cases hk : k < pagesFor (t idx.toNat).size
          · exact hkept k hk
          · rw [hzero k (by omega), hon.absent k hk]
        have hsame : t.set idx.toNat { t idx.toNat with pages := pages₁ } = t := by
          funext k
          rw [hpages]
          by_cases hk : k = idx.toNat
          · rw [hk, ShmTable.set_self]
          · rw [ShmTable.set_ne _ hk]
        rw [if_pos (by decide)] at hs
        cases hs
        exact ⟨fun _ => ⟨hsame, hp⟩, fun h0 => absurd h0 (by decide)⟩
    | true =>
        have htook := hgot rfl
        obtain ⟨⟨s₂, pages₂⟩, hf⟩ : ∃ x, shmFreePages fs s₁ pages₁
          (pagesFor (t idx.toNat).size - pagesFor length) (pagesFor length) = x := ⟨_, rfl⟩
        obtain ⟨hcount, hlow⟩ := shmFreePages_count o
          (pagesFor (t idx.toNat).size - pagesFor length)
          (pagesFor length) hgrow fun k h1 h2 => by rw [if_pos rfl]; omega
        rw [hf] at hs hcount hlow
        rw [if_neg (by decide)] at hs
        cases hs
        refine ⟨fun h0 => absurd h0 (by decide), fun _ => ⟨?_, fun k h1 h2 => ?_⟩⟩
        · have htaken := htook.count
          have hs₂ : (o.pmm (s₂, pages₂).1).freeFrames = (o.pmm s₂).freeFrames := rfl
          omega
        · rw [ShmTable.set_self]
          exact (hlow k h2).trans (hkept k h1)
  · rw [Bool.not_eq_true] at hv
    rw [hv] at hs
    cases hs
    exact ⟨fun h0 => absurd h0 (by decide), fun h0 => absurd h0 (by decide)⟩

end Loops

/-- One object without pages. -/
def emptyObject : ShmTable := shmInit.set 0 { ShmObject.zero with used := true }

theorem emptyObject_inv {p : Pmm} (hp : PmmInv p) : ObjectInv p (emptyObject 0) := by
  have hnone : ∀ k, ¬ k < pagesFor 0 := fun k => by
    rw [pagesFor_of_le (by decide)]
    omega
  exact ⟨Nat.zero_le _, hp, fun _ hc => hc.elim, fun k hk => absurd hk (hnone k), fun k _ => rfl,
    fun k l hk => absurd hk (hnone k)⟩

/-- Five thousand bytes, on a machine of two megabytes: two frames less. -/
theorem shmTruncate_rollback_grow : ∃ s' t',
    shmTruncate machineFrames (pmmInit 2048, fun _ => 0, 0) emptyObject 0 5000 = (s', t', 0)
      ∧ (s'.1.freeFrames : Int) = (pmmInit 2048).freeFrames - 2 := by
  have hr : (shmTruncate machineFrames (pmmInit 2048, fun _ => 0, 0) emptyObject 0 5000).2.2
      = 0 := by
    decide +kernel
  have hp := pmmInit_inv 2048
  generalize pmmInit 2048 = p at hr hp ⊢
  obtain ⟨⟨s', t', r⟩, hs⟩ : ∃ x, shmTruncate machineFrames (p, fun _ => 0, 0) emptyObject 0 5000
      = x :=
    ⟨_, rfl⟩
  rw [hs] at hr
  obtain rfl : r = 0 := hr
  refine ⟨s', t', hs, ?_⟩
  have hobj : shmValid emptyObject 0 = true →
      ObjectInv (machineFrames_over.pmm (p, fun _ => 0, 0)) (emptyObject (0 : Int).toNat) :=
    fun _ => emptyObject_inv hp
  have hcount := ((shmTruncate_rollback machineFrames_over hobj (by decide) hs).2 rfl).1
  have h1 : pagesFor (emptyObject (0 : Int).toNat).size = 0 := by decide
  have h2 : pagesFor 5000 = 2 := by decide
  have h3 : machineFrames_over.pmm (p, fun _ => 0, 0) = p := rfl
  rw [h1, h2, h3] at hcount
  rw [machineFrames_over_pmm] at hcount
  omega

end VnlKernel
