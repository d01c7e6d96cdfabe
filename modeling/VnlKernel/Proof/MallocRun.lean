import VnlKernel.Lib.Run
import VnlKernel.Proof.MallocLayout

/-!
# Runs of a program that uses `malloc`

What goes wrong in `free` goes wrong in its one pass over the list: it joins two free
neighbours without asking whether they touch. Neighbours cut from one range do. The
last block of one range and the first of the next stand side by side on the list too,
and there the joined block runs over whatever lies behind the first range.

So the pass is followed with the pairs it makes in view. `Parted` reads them off the
memory before the call: free neighbours are paired from the left, and both blocks of
a pair lie in one range. In a run where every pass is so, the list keeps its picture,
and the picture says that allocations are disjoint.
-/

namespace VnlKernel.Libc

open ByteMem Bits

/-! ## Loops with fuel -/

section Fuel

variable {α β : Type} {f : Nat → Outcome α} {n k : Nat} {r : α}

/-- With more than `n` units of fuel `f` returns `r`, and with fewer nothing else. -/
structure Ends (f : Nat → Outcome α) (n : Nat) (r : α) : Prop where
  only : ∀ {fuel : Nat} {x : α}, f fuel = .done x → x = r
  ends : ∀ {fuel : Nat}, n < fuel → f fuel = .done r

theorem Ends.pure (n : Nat) (r : α) : Ends (fun _ => .done r) n r :=
  ⟨fun h => by cases h; rfl, fun _ => rfl⟩

theorem Ends.mono (h : Ends f n r) (hk : n ≤ k) : Ends f k r :=
  ⟨h.only, fun hf => h.ends (by omega)⟩

theorem Ends.bind {g : α → Nat → Outcome β} {x : β} (h : Ends f n r) (hg : Ends (g r) n x) :
    Ends (fun fuel => f fuel >>= fun a => g a fuel) n x where
  only := fun hd => by
    obtain ⟨a, ha, hd⟩ := Outcome.bind_eq_done hd
    cases h.only ha
    exact hg.only hd
  ends := fun hf => by
    rw [h.ends hf, Outcome.bind_done]
    exact hg.ends hf

/-- The turn that returns. -/
theorem Ends.last (h0 : f 0 = .timeout) (hs : ∀ fuel, f (fuel + 1) = .done r) : Ends f 0 r where
  only := fun {fuel} {x} hd => by
    cases fuel with
    | zero => rw [h0] at hd; cases hd
    | succ fuel => rw [hs] at hd; cases hd; rfl
  ends := fun {fuel} hf => by
    cases fuel with
    | zero => exact absurd hf (Nat.lt_irrefl 0)
    | succ fuel => exact hs fuel

/-- One turn more. -/
theorem Ends.turn {g : Nat → Outcome α} (h : Ends g n r) (h0 : f 0 = .timeout)
    (hs : ∀ fuel, f (fuel + 1) = g fuel) : Ends f (n + 1) r where
  only := fun {fuel} {x} hd => by
    cases fuel with
    | zero => rw [h0] at hd; cases hd
    | succ fuel => rw [hs] at hd; exact h.only hd
  ends := fun {fuel} hf => by
    cases fuel with
    | zero => exact absurd hf (by omega)
    | succ fuel => rw [hs]; exact h.ends (by omega)

end Fuel

/-! ## The search -/

/-- The search finds a block that fits, or ends at the last block of the list. -/
theorem mallocScan_ends {m : Mem} {n : Nat} : ∀ {bs : List Block} {curr : Nat} (prev : Nat),
    Chain m curr bs 0 → ∃ r, Ends (fun fuel => mallocScan m n fuel curr prev) bs.length r
      ∧ ((∃ b ∈ bs, b.free = true ∧ n ≤ b.size ∧ r = .inl b.addr)
        ∨ r = .inr ((bs.getLast?.map Block.addr).getD prev))
  | [], curr, prev, hc => by
      have h0 : curr = 0 := hc
      exact ⟨.inr prev, Ends.last rfl fun fuel => by rw [mallocScan, if_pos h0], Or.inr rfl⟩
  | b :: bs, curr, prev, ⟨h1, h2, h3, h4, h5⟩ => by
      by_cases hfit : isFree m curr = true ∧ n ≤ size m curr
      · have hlast : Ends (fun fuel => mallocScan m n fuel curr prev) 0 (.inl curr) :=
          Ends.last rfl fun fuel => by rw [mallocScan, if_neg h2, if_pos hfit]
        exact ⟨.inl curr, hlast.mono (Nat.zero_le _), Or.inl
          ⟨b, List.mem_cons_self, h4 ▸ hfit.1, h3 ▸ hfit.2, by rw [h1]⟩⟩
      · obtain ⟨r, hr, hcase⟩ := mallocScan_ends (n := n) curr h5
        refine ⟨r, hr.turn rfl fun fuel => by rw [mallocScan, if_neg h2, if_neg hfit], ?_⟩
        rcases hcase with ⟨c, hc, hrest⟩ | hlast
        · exact Or.inl ⟨c, List.mem_cons_of_mem b hc, hrest⟩
        · refine Or.inr (hlast.trans ?_)
          cases bs with
          | nil => simp [h1]
          | cons c cs => simp [List.getLast?_cons]

/-! ## The pass that joins -/

/-- Free neighbours, paired from the left, are from one range. -/
def PairsIn : List Block → Prop
  | b :: c :: bs =>
      if b.free = true ∧ c.free = true then b.home = c.home ∧ PairsIn bs else PairsIn (c :: bs)
  | _ => True

theorem pairsIn_append {b : Block} {ys : List Block} (hb : b.free = false)
    (hy : PairsIn (b :: ys)) :
    ∀ (xs : List Block), PairsIn xs → PairsIn (xs ++ b :: ys)
  | [], _ => hy
  | [x], _ => by
      rw [List.singleton_append, PairsIn, if_neg (by simp [hb])]
      exact hy
  | x :: y :: xs, h => by
      rw [List.cons_append, List.cons_append, PairsIn]
      rw [PairsIn] at h
      split
      · next hxy =>
        rw [if_pos hxy] at h
        exact ⟨h.1, pairsIn_append hb hy xs h.2⟩
      · next hxy =>
        rw [if_neg hxy] at h
        exact pairsIn_append hb hy (y :: xs) h

/-- The two stores of a join, in terms of the blocks. -/
theorem join_bytes {m : Mem} {curr : Nat} {b c : Block} {ys : List Block}
    (hc : Chain m curr (b :: c :: ys) 0) (hap : b.Apart c) (hlt : b.size + (24 + c.size) < 2 ^ 64) :
    setNext (setSize m curr (u64 (size m curr + (hdrLen + size m (next m curr))))) curr
        (next (setSize m curr (u64 (size m curr + (hdrLen + size m (next m curr)))))
          (next (setSize m curr (u64 (size m curr + (hdrLen + size m (next m curr))))) curr))
      = setNext (setSize m b.addr (b.size + (24 + c.size))) b.addr (next m c.addr) := by
  obtain ⟨rfl, h2, h3, _, h6, _, h8, _⟩ := hc
  have hsame : ∀ v, SameHdr m (setSize m b.addr v) c.addr := fun v x h1 h2 => by
    unfold Block.Apart Block.lim at hap
    exact setSize_out (by omega)
  rw [next_setSize, h3, h8, ← h6, (hsame _).next_eq, u64_of_lt (by unfold hdrLen; omega)]
  rfl

/-- From block to block the pass joins what it may, and nothing in use is touched. It writes to
headers only. -/
theorem mergeLoop_ends : ∀ (ys xs : List Block) {h : LibcHeap} {curr : Nat},
    Rep h (xs ++ ys) → PairsIn ys → Chain h.mem curr ys 0 →
    ∃ m' zs, Ends (fun fuel => mergeLoop fuel h.mem curr) ys.length m'
      ∧ Rep { h with mem := m' } (xs ++ zs) ∧ zs.length ≤ ys.length
      ∧ (∀ d, d.free = false → (d ∈ zs ↔ d ∈ ys))
      ∧ ∀ x, (∀ d ∈ ys, x < d.addr ∨ d.addr + 24 ≤ x) → m' x = h.mem x
  | [], xs, h, curr, hr, _, hc => by
      have h0 : curr = 0 := hc
      exact ⟨h.mem, [], Ends.last rfl fun fuel => by rw [mergeLoop, if_pos h0], hr, Nat.le_refl _,
        fun _ _ => Iff.rfl, fun _ _ => rfl⟩
  | [b], xs, h, curr, hr, _, ⟨h1, h2, h3, h4, h5⟩ => by
      have h5 : next h.mem curr = 0 := h5
      refine ⟨h.mem, [b], ?_, hr, Nat.le_refl _, fun _ _ => Iff.rfl, fun _ _ => rfl⟩
      have hend : Ends (fun fuel => mergeLoop fuel h.mem 0) 0 h.mem :=
        Ends.last rfl fun fuel => by rw [mergeLoop, if_pos rfl]
      refine hend.turn rfl fun fuel => ?_
      rw [mergeLoop, if_neg h2]
      dsimp only
      rw [if_neg (by simp [h5]), h5]
  | b :: c :: ys, xs, h, curr, hr, hp, ⟨h1, h2, h3, h4, h5⟩ => by
      have hc := h5
      obtain ⟨h6, h7, h8, h9, h10⟩ := h5
      rw [PairsIn] at hp
      have hcond : (isFree h.mem curr = true ∧ next h.mem curr ≠ 0
        ∧ isFree h.mem (next h.mem curr) = true)
          ↔ b.free = true ∧ c.free = true := by
        rw [h4, h9]
        exact ⟨fun h => ⟨h.1, h.2.2⟩, fun h => ⟨h.1, h7, h.2⟩⟩
      -- two free neighbours become one, and the pass goes on behind them
      by_cases hjoin : b.free = true ∧ c.free = true
      · rw [if_pos hjoin] at hp
        have hr' := hr.join hp.1
        obtain ⟨e, _, he, _, _, _, htail⟩ := chain_append.mp hr'.chain
        have hapart : b.Apart c :=
          (apart_mid.mp hr.laid.apart).1 c (List.mem_append_right xs List.mem_cons_self)
        obtain ⟨m', zs, hends, hrep, hlen, hused, hout⟩ := mergeLoop_ends ys (xs ++ [b.join c])
          (by rw [List.append_assoc]; exact hr') hp.2 htail
        refine ⟨m', b.join c :: zs, (hends.turn rfl fun fuel => ?_).mono (Nat.le_succ _), ?_, ?_,
          ?_, ?_⟩
        · rw [mergeLoop, if_neg h2]
          dsimp only
          rw [if_pos (hcond.mpr hjoin), join_bytes ⟨h1, h2, h3, h4, hc⟩ hapart (hr.join_lt hp.1)]
          rw [show e = curr from he.symm.trans h1, ← h1]
        · rw [List.append_assoc] at hrep
          exact hrep
        · simp only [List.length_cons]
          omega
        · intro d hd
          -- a block in use is neither of the two, nor what they become
          have hb : d ≠ b := fun h => by rw [h, hjoin.1] at hd; cases hd
          have hc : d ≠ c := fun h => by rw [h, hjoin.2] at hd; cases hd
          have hbc : d ≠ b.join c := fun h => by
            rw [h, show (b.join c).free = b.free from rfl, hjoin.1] at hd
            cases hd
          simp [hb, hc, hbc, hused d hd]
        · intro x hx
          have hxb := hx b List.mem_cons_self
          -- only the header of the first is written
          rw [hout x fun d hd => hx d (List.mem_cons_of_mem b (List.mem_cons_of_mem c hd))]
          dsimp only
          rw [setNext_out hxb, setSize_out hxb]
      · rw [if_neg hjoin] at hp
        -- nothing to join: the second block is looked at next
        obtain ⟨m', zs, hends, hrep, hlen, hused, hout⟩ := mergeLoop_ends (c :: ys) (xs ++ [b])
          (by rw [List.append_assoc]; exact hr) hp hc
        refine ⟨m', b :: zs, hends.turn rfl fun fuel => ?_, ?_, Nat.succ_le_succ hlen, ?_,
          fun x hx => hout x fun d hd => hx d (List.mem_cons_of_mem b hd)⟩
        · rw [mergeLoop, if_neg h2]
          dsimp only
          rw [if_neg (fun h => hjoin (hcond.mp h))]
        · rw [List.append_assoc] at hrep
          exact hrep
        · intro d hd
          rw [List.mem_cons, List.mem_cons, hused d hd]
  termination_by ys => ys.length

/-- Following the links from `a`, with `fr` telling which blocks are free: free neighbours are
paired from the left as the pass does, and the blocks of a pair lie in one of the ranges `own`. -/
inductive Parted (own : List MapRange) (m : Mem) (fr : Nat → Prop) : Nat → Prop
  | done : Parted own m fr 0
  | pass {a : Nat} : a ≠ 0 → ¬ (fr a ∧ next m a ≠ 0 ∧ fr (next m a)) → Parted own m fr (next m a) →
      Parted own m fr a
  | pair {a : Nat} {r : MapRange} : a ≠ 0 → fr a → next m a ≠ 0 → fr (next m a) → r ∈ own → r.Holds a →
      r.Holds (next m a) → Parted own m fr (next m (next m a)) → Parted own m fr a

/-- The pairs that memory shows are the pairs of the list. -/
theorem Parted.pairs {own : List MapRange} {m : Mem} {fr : Nat → Prop} {g : Block → Bool} {a : Nat}
    (h : Parted own m fr a) : ∀ {bs : List Block}, Chain m a bs 0 →
    (∀ b ∈ bs, ∀ r ∈ own, r.Holds b.addr → r = b.home) → (∀ b ∈ bs, fr b.addr ↔ g b = true) →
    PairsIn (bs.map fun b => { b with free := g b }) := by
  induction h with
  | done =>
      intro bs hc _ _
      cases bs with
      | nil => trivial
      | cons b bs => exact absurd rfl hc.2.1
  | @pass a ha hno _ ih =>
      intro bs hc hhome hg
      match bs, hc with
      | [], hc => trivial
      | [b], _ => trivial
      | b :: c :: bs, ⟨h1, h2, h3, h4, h5⟩ =>
          have htail := ih h5 (fun d hd => hhome d (List.mem_cons_of_mem b hd))
            fun d hd => hg d (List.mem_cons_of_mem b hd)
          rw [List.map_cons, List.map_cons, PairsIn, if_neg]
          · exact htail
          · rintro ⟨hb, hc⟩
            have hcm : c ∈ b :: c :: bs := List.mem_cons_of_mem b List.mem_cons_self
            refine hno ⟨h1 ▸ (hg b List.mem_cons_self).mpr hb, h5.2.1, ?_⟩
            rw [← h5.1]
            exact (hg c hcm).mpr hc
  | @pair a r ha hfa hn hfn hr hra hrn _ ih =>
      intro bs hc hhome hg
      match bs, hc with
      | [], hc => exact absurd hc ha
      | [b], ⟨_, _, _, _, h5⟩ => exact absurd h5 hn
      | b :: c :: bs, ⟨h1, h2, h3, h4, h5⟩ =>
          have hcm : c ∈ b :: c :: bs := List.mem_cons_of_mem b List.mem_cons_self
          have hsub : ∀ d ∈ bs, d ∈ b :: c :: bs := fun d hd =>
            List.mem_cons_of_mem b (List.mem_cons_of_mem c hd)
          have htail := ih h5.2.2.2.2 (fun d hd => hhome d (hsub d hd)) fun d hd => hg d (hsub d hd)
          have hgb : g b = true := (hg b List.mem_cons_self).mp (h1.symm ▸ hfa)
          have hgc : g c = true := (hg c hcm).mp (h5.1.symm ▸ hfn)
          rw [List.map_cons, List.map_cons, PairsIn, if_pos ⟨hgb, hgc⟩]
          refine ⟨?_, htail⟩
          rw [← hhome b List.mem_cons_self r hr (h1.symm ▸ hra)]
          exact hhome c hcm r hr (h5.1.symm ▸ hrn)

/-! ## The calls -/

/-- The address lies behind the header of a block in use. -/
def Behind (bs : List Block) (x : Nat) : Prop := ∃ b ∈ bs, b.free = false ∧ b.addr + 24 ≤ x ∧ x < b.lim

/-- What a call leaves alone: no byte is written behind the header of a block in use, and none where
`malloc` has no range. Ranges it has not had before are what `mmap` returned. -/
structure Spares (mmap : Nat → Option Nat) (bs : List Block) (h h' : LibcHeap) : Prop where
  ranges : ∀ r ∈ h'.obtained, r ∈ h.obtained ∨ mmap r.len = some r.addr
  bytes : ∀ x, Behind bs x ∨ (∀ r ∈ h'.obtained, ¬ r.Holds x) → h'.mem x = h.mem x

section Calls

variable {h : LibcHeap} {bs : List Block} {mmap : Nat → Option Nat} {n : Nat}

theorem Spares.refl (mmap : Nat → Option Nat) (bs : List Block) (h : LibcHeap) :
    Spares mmap bs h h :=
  ⟨fun _ hr => Or.inl hr, fun _ _ => rfl⟩

/-- Then bytes are written that a call leaves alone neither. -/
theorem Spares.write {h₁ : LibcHeap} {m' : Mem} (hs : Spares mmap bs h h₁)
    (hm : ∀ x, Behind bs x ∨ (∀ r ∈ h₁.obtained, ¬ r.Holds x) → m' x = h₁.mem x) :
    Spares mmap bs h { h₁ with mem := m' } :=
  ⟨hs.ranges, fun x hx => (hm x hx).trans (hs.bytes x hx)⟩

/-- No header holds a byte that a call leaves alone. -/
theorem Rep.hdr_out {x : Nat} (hr : Rep h bs) (hx : Behind bs x ∨ ∀ r ∈ h.obtained, ¬ r.Holds x) :
    ∀ c ∈ bs, x < c.addr ∨ c.addr + 24 ≤ x := by
  intro c hc
  rcases hx with ⟨b, hb, _, h1, h2⟩ | hout
  · by_cases hbc : b = c
    · exact Or.inr (hbc ▸ h1)
    · have := hr.laid.apart_of_ne hb hc hbc
      unfold Block.Apart Block.lim at this
      unfold Block.lim at h2
      omega
  · obtain ⟨h1, h2, h3⟩ := hr.laid.inside c hc
    have := hout _ h1
    unfold MapRange.Holds at this
    unfold Block.lim at h3
    omega

theorem round8_le (hn : n + 31 < 2 ^ 64) : n ≤ round8 n ∧ round8 n < n + 8 := by
  unfold round8
  rw [u64_of_lt (by omega), show (2 : Nat) ^ 64 - 8 = 2 ^ 64 - 2 ^ 3 from rfl,
    and_mask (by omega) (by decide)]
  omega

theorem chunkSize_le (hn : n + 24 < 2 ^ 64) : n + 24 ≤ chunkSize n := by
  unfold chunkSize
  rw [show u64 (n + hdrLen) = n + 24 from u64_of_lt hn]
  split <;> omega

theorem chain_size {m : Mem} : ∀ {bs : List Block} {a e : Nat} {b : Block}, Chain m a bs e
    → b ∈ bs →
    size m b.addr = b.size ∧ isFree m b.addr = b.free
  | c :: bs, a, e, b, ⟨h1, _, h3, h4, h5⟩, hb => by
      rcases List.mem_cons.mp hb with rfl | hb
      · rw [h1]
        exact ⟨h3, h4⟩
      · exact chain_size h5 hb

/-- What a search for `n` bytes comes to. -/
def Scans (h : LibcHeap) (bs : List Block) (n : Nat) (r : Nat ⊕ Nat) : Prop :=
  Ends (fun fuel => mallocScan h.mem (round8 n) fuel h.freeListHead 0) bs.length r

/-- The three ways `malloc` of `n` bytes may go, on the list `bs`. -/
inductive MallocEnd (mmap : Nat → Option Nat) (h : LibcHeap) (bs : List Block) (n : Nat) :
    LibcHeap → Nat → List Block → Prop
  | fail {p : Nat} : Scans h bs n (.inr p) → mmap (chunkSize (round8 n)) = none →
      MallocEnd mmap h bs n h 0 bs
  | take {b : Block} : Scans h bs n (.inl b.addr) → b ∈ bs → b.free = true → n ≤ b.size →
      MallocEnd mmap h bs n { h with mem := setFree h.mem b.addr false } (b.addr + 24)
        (mark b.addr false bs)
  | grow {p a : Nat} {h' : LibcHeap} {b : Block} {rest : List Block} : Scans h bs n (.inr p) →
      mmap (chunkSize (round8 n)) = some a → b.free = false → n ≤ b.size → rest.length ≤ 1 →
      (∀ c ∈ rest, c.free = true) → MallocEnd mmap h bs n h' (b.addr + 24) (bs ++ b :: rest)

/-- The rest of `malloc`, after its search. -/
def mallocGot (mmap : Nat → Option Nat) (h : LibcHeap) (n : Nat) : Nat ⊕ Nat → LibcHeap × Nat
  | .inl curr => ({ h with mem := setFree h.mem curr false }, u64 (curr + hdrLen))
  | .inr prev => match mmap (chunkSize (round8 n)) with
      | none => (h, 0)
      | some block => (mallocSplit (mallocLink h (round8 n) prev block) (round8 n) block,
          u64 (block + hdrLen))

theorem malloc_scan (mmap : Nat → Option Nat) {r : Nat ⊕ Nat} (hn : n ≠ 0) (hs : Scans h bs n r) :
    Ends (fun fuel => malloc mmap fuel h n) bs.length (mallocGot mmap h n r) := by
  have heq : ∀ fuel, malloc mmap fuel h n =
      mallocScan h.mem (round8 n) fuel h.freeListHead 0 >>= fun r =>
          .done (mallocGot mmap h n r) := by
    intro fuel
    unfold malloc
    rw [if_neg hn]
    refine Outcome.bind_congr fun r _ => ?_
    cases r with
    | inl curr => rfl
    | inr prev =>
        unfold mallocGot
        dsimp only
        cases mmap (chunkSize (round8 n)) with
        | none => rfl
        | some block => rfl
  simp only [heq]
  exact Ends.bind (g := fun r _ => .done (mallocGot mmap h n r)) hs (Ends.pure _ _)

/-- A new range is written to in no place that was there before. -/
theorem Rep.grow_spares {block : Nat} (hr : Rep h bs)
    (hlink : Rep (mallocLink h n (lastAddr bs) block) (bs ++ [wholeBlock ⟨block, chunkSize n⟩]))
    (hm : mmap (chunkSize n) = some block) (hf : MapRange.Fresh ⟨block, chunkSize n⟩ h.obtained)
    (hchunk : n + 24 ≤ chunkSize n) (hw : n + 32 < 2 ^ 64) :
    Spares mmap bs h (mallocSplit (mallocLink h n (lastAddr bs) block) n block) := by
  have hlim := hf.lim_lt
  have hown : (mallocLink h n (lastAddr bs) block).obtained
      = h.obtained ++ [⟨block, chunkSize n⟩] := by
    rw [mallocLink_eq]
  have hsize : size (mallocLink h n (lastAddr bs) block).mem block = chunkSize n - 24 :=
    (chain_size hlink.chain (List.mem_append_right _ List.mem_cons_self)).1
  unfold MapRange.lim at hlim
  dsimp only at hlim
  constructor
  · intro r hr'
    rw [mallocSplit_obtained, hown] at hr'
    rcases List.mem_append.mp hr' with hr' | hr'
    · exact Or.inl hr'
    · cases List.mem_singleton.mp hr'
      exact Or.inr hm
  · intro x hx
    rw [mallocSplit_obtained, hown] at hx
    have hold : Behind bs x ∨ ∀ r ∈ h.obtained, ¬ r.Holds x :=
      hx.imp_right fun hout r hr' => hout r (List.mem_append_left _ hr')
    -- what was there before lies in another range
    have hnew : x < block ∨ block + chunkSize n ≤ x := by
      rcases hx with ⟨b, hb, _, h1, h2⟩ | hout
      · obtain ⟨h3, h4, h5⟩ := hr.laid.inside b hb
        have hap := hf.apart _ h3
        unfold MapRange.Apart MapRange.lim at hap
        unfold MapRange.lim at h5
        dsimp only at hap
        omega
      · have := hout _ (List.mem_append_right _ List.mem_cons_self)
        unfold MapRange.Holds MapRange.lim at this
        dsimp only at this
        omega
    rw [mallocSplit_out (by omega) (by omega) hw (by omega)]
    exact mallocLink_out (by omega) (hr.hdr_out hold)

/-- **`malloc` returns, and keeps the picture.** -/
theorem malloc_ends (hr : Rep h bs) (hn : n ≠ 0) (hw : n + 31 < 2 ^ 64)
    (hm : ∀ len a, mmap len = some a → MapRange.Fresh ⟨a, len⟩ h.obtained) :
    ∃ h' p bs', Ends (fun fuel => malloc mmap fuel h n) bs.length (h', p) ∧ Rep h' bs'
      ∧ MallocEnd mmap h bs n h' p bs' ∧ Spares mmap bs h h' := by
  obtain ⟨r, hscan, hcase⟩ := mallocScan_ends (n := round8 n) 0 hr.chain
  have hround := round8_le hw
  have hends := malloc_scan mmap hn hscan
  rcases hcase with ⟨b, hb, hfree, hfit, rfl⟩ | rfl
  · obtain ⟨hhome, _, hlim⟩ := hr.laid.inside b hb
    have hlt := hr.lim_lt _ hhome
    unfold Block.lim at hlim
    rw [mallocGot, show u64 (b.addr + hdrLen) = b.addr + 24 from u64_of_lt
      (by unfold hdrLen; omega)] at hends
    exact ⟨_, _, _, hends, hr.marked hb false, .take hscan hb hfree (by omega),
      (Spares.refl mmap bs h).write fun x hx => setFree_out (hr.hdr_out hx b hb)⟩
  · rw [mallocGot] at hends
    cases hmap : mmap (chunkSize (round8 n)) with
    | none =>
        rw [hmap] at hends
        exact ⟨h, 0, bs, hends, hr, .fail hscan hmap, .refl mmap bs h⟩
    | some block =>
        rw [hmap] at hends
        have hf := hm _ _ hmap
        have hchunk := chunkSize_le (n := round8 n) (by omega)
        have hlim := hf.lim_lt
        have hpage : 4096 ≤ block := Nat.le_of_dvd (Nat.pos_of_ne_zero hf.nonzero) hf.aligned
        unfold MapRange.lim at hlim
        dsimp only at hends hlim
        rw [show u64 (block + hdrLen) = block + 24 from u64_of_lt (by unfold hdrLen; omega)]
          at hends
        have hlink := hr.link hf (by omega)
        obtain ⟨b, rest, hsplit, haddr, hused, hsize, hlen, hfree⟩ :=
          hlink.split (n := round8 n) (Nat.le_sub_of_add_le hchunk) (by omega)
        have haddr : b.addr = block := haddr
        refine ⟨_, _, _, hends, hsplit, ?_, ?_⟩
        · rw [← haddr]
          exact .grow hscan hmap hused (by omega) hlen hfree
        · exact hr.grow_spares hlink hmap hf (by omega) (by omega)

/-! What `malloc` does to the blocks in use. -/

theorem mark_mem {a : Nat} {f : Bool} {b : Block} (hb : b ∈ bs) (hne : b.addr ≠ a) :
    b ∈ mark a f bs :=
  List.mem_map.mpr ⟨b, hb, if_neg hne⟩

/-- Blocks in use stay, and an allocation is a block that was not in use. -/
theorem MallocEnd.used {h' : LibcHeap} {p : Nat} {bs' : List Block}
    (he : MallocEnd mmap h bs n h' p bs')
    (hr : Rep h bs) (hr' : Rep h' bs') : (∀ c ∈ bs, c.free = false → c ∈ bs')
      ∧ (p ≠ 0 → ∃ b ∈ bs', b.free = false ∧ b.addr + 24 = p ∧ n ≤ b.size
        ∧ ∀ c ∈ bs, c.free = false → c.addr ≠ b.addr) := by
  cases he with
  | fail => exact ⟨fun c hc _ => hc, fun h => absurd rfl h⟩
  | @take b _ hb hfree hfit =>
      have hne : ∀ c ∈ bs, c.free = false → c.addr ≠ b.addr := fun c hc hu he => by
        cases hr.laid.addr_inj hc hb he
        rw [hfree] at hu
        cases hu
      refine ⟨fun c hc hu => mark_mem hc (hne c hc hu), fun _ => ⟨{ b with free := false }, ?_⟩⟩
      exact ⟨List.mem_map.mpr ⟨b, hb, if_pos rfl⟩, rfl, rfl, hfit, hne⟩
  | @grow _ _ _ b rest _ _ hused hfit _ _ =>
      refine ⟨fun c hc _ => List.mem_append_left _ hc, fun _ =>
        ⟨b, List.mem_append_right _ List.mem_cons_self, hused, rfl, hfit, fun c hc _ he => ?_⟩⟩
      have hap := (apart_mid.mp hr'.laid.apart).1 c (List.mem_append_left _ hc)
      unfold Block.Apart Block.lim at hap
      omega

/-- A new allocation lies where no block in use was. -/
theorem MallocEnd.apart {h' : LibcHeap} {p : Nat} {bs' : List Block}
    (he : MallocEnd mmap h bs n h' p bs')
    (hr : Rep h bs) (hr' : Rep h' bs') (hp : p ≠ 0) {x : Nat} (hx : Behind bs x) :
    x < p ∨ p + n ≤ x := by
  obtain ⟨hstay, hnew⟩ := he.used hr hr'
  obtain ⟨b, hb, _, hbp, hfit, hother⟩ := hnew hp
  obtain ⟨c, hc, hu, h1, h2⟩ := hx
  have hap := hr'.laid.apart_of_ne (hstay c hc hu) hb fun h => hother c hc hu (by rw [h])
  unfold Block.Apart Block.lim at hap
  unfold Block.lim at h2
  omega

/-- It lies in the ranges that `malloc` has. -/
theorem MallocEnd.inside {h' : LibcHeap} {p : Nat} {bs' : List Block}
    (he : MallocEnd mmap h bs n h' p bs')
    (hr : Rep h bs) (hr' : Rep h' bs') (hp : p ≠ 0) {x : Nat}
    (hx : ∀ r ∈ h'.obtained, ¬ r.Holds x) :
    x < p ∨ p + n ≤ x := by
  obtain ⟨b, hb, _, hbp, hfit, _⟩ := (he.used hr hr').2 hp
  obtain ⟨h1, h2, h3⟩ := hr'.laid.inside b hb
  have := hx _ h1
  unfold MapRange.Holds at this
  unfold Block.lim at h3
  omega

/-- `(struct block_hdr *)ptr - 1`. -/
theorem Rep.hdr_of {b : Block} (hr : Rep h bs) (hb : b ∈ bs) :
    sub64 (b.addr + 24) hdrLen = b.addr := by
  obtain ⟨hhome, _, hlim⟩ := hr.laid.inside b hb
  have hlt := hr.lim_lt _ hhome
  unfold Block.lim at hlim
  rw [sub64_of_le (by unfold hdrLen; omega) (by omega)]
  exact Nat.add_sub_cancel ..

/-- Bytes behind the header of a block may be written. -/
theorem Rep.fill {b : Block} {m' : Mem} (hr : Rep h bs) (hb : b ∈ bs)
    (hm : ∀ x, x < b.addr + 24 ∨ b.lim ≤ x → m' x = h.mem x) : Rep { h with mem := m' } bs := by
  refine hr.frame fun c hc x h1 h2 => hm x ?_
  by_cases hbc : b = c
  · exact Or.inl (by rw [hbc]; exact h2)
  · have := hr.laid.apart_of_ne hb hc hbc
    unfold Block.Apart at this
    unfold Block.lim at this ⊢
    omega

/-- **`free` returns, and keeps the picture** when the pass pairs blocks of one range only. -/
theorem free_ends {b : Block} (hr : Rep h bs) (hb : b ∈ bs) (hp : PairsIn (mark b.addr true bs)) :
    ∃ h' bs', Ends (fun fuel => free fuel h (b.addr + 24)) bs.length h' ∧ Rep h' bs'
      ∧ (∀ d ∈ bs, d.free = false → d.addr ≠ b.addr → d ∈ bs') ∧ h'.obtained = h.obtained
      ∧ ∀ mmap, Spares mmap bs h h' := by
  have hmark := hr.marked hb true
  obtain ⟨m', zs, hends, hrep, _, hused, hout⟩ :=
    mergeLoop_ends (mark b.addr true bs) [] hmark hp hmark.chain
  have hsame : ∀ x, (∀ d ∈ bs, x < d.addr ∨ d.addr + 24 ≤ x) → m' x = h.mem x := fun x hx => by
    rw [hout x fun d hd => ?_]
    · exact setFree_out (hx b hb)
    · obtain ⟨c, hc, rfl⟩ := List.mem_map.mp hd
      have := hx c hc
      split <;> exact this
  refine ⟨{ h with mem := m' }, zs, ?_, hrep, fun d hd hu hne => (hused d hu).mpr (mark_mem hd hne),
    rfl, fun mmap => (Spares.refl mmap bs h).write fun x hx => hsame x (hr.hdr_out hx)⟩
  unfold free
  simp only [if_neg (show ¬ b.addr + 24 = 0 by omega), hr.hdr_of hb]
  rw [mark, List.length_map] at hends
  exact Ends.bind (g := fun m _ => .done { h with mem := m }) hends (Ends.pure _ _)

/-- Which blocks count as free when `free` is called for `ptr`. -/
def FreeAt (h : LibcHeap) (ptr a : Nat) : Prop := isFree h.mem a = true ∨ a + 24 = ptr

/-- The block that `malloc` of `n` bytes would take. -/
def Taken (h : LibcHeap) (n a : Nat) : Prop :=
  ∃ fuel, mallocScan h.mem (round8 n) fuel h.freeListHead 0 = .done (.inl a)

theorem Rep.pairs {fr : Nat → Prop} {g : Block → Bool} (hr : Rep h bs)
    (hp : Parted h.obtained h.mem fr h.freeListHead) (hg : ∀ b ∈ bs, fr b.addr ↔ g b = true) :
    PairsIn (bs.map fun b => { b with free := g b }) :=
  hp.pairs hr.chain (fun _ hb _ hro hold => hr.laid.home_unique hr.ranges hb hro hold) hg

theorem Rep.pairs_free {b : Block} (hr : Rep h bs)
    (hp : Parted h.obtained h.mem (FreeAt h (b.addr + 24)) h.freeListHead) :
    PairsIn (mark b.addr true bs) := by
  have := hr.pairs (g := fun c => if c.addr = b.addr then true else c.free) hp fun c hc => by
    unfold FreeAt
    rw [(chain_size hr.chain hc).2]
    by_cases hcb : c.addr = b.addr
    · simp [hcb]
    · simp [hcb]
  refine Eq.mp (congrArg PairsIn (List.map_congr_left fun c _ => ?_)) this
  split <;> rfl

theorem taken_iff {a x : Nat} (hs : Scans h bs n (.inl x)) : Taken h n a ↔ a = x := by
  constructor
  · rintro ⟨fuel, hf⟩
    cases hs.only hf
    rfl
  · rintro rfl
    exact ⟨_, hs.ends (Nat.lt_succ_self _)⟩

theorem not_taken {a p : Nat} (hs : Scans h bs n (.inr p)) : ¬ Taken h n a := by
  rintro ⟨fuel, hf⟩
  cases hs.only hf

/-- The pairs before a `malloc` are those after it, but for the block it takes. -/
theorem MallocEnd.pairs {h' : LibcHeap} {p : Nat} {bs' : List Block} {b : Block}
    (he : MallocEnd mmap h bs n h' p bs') (hr : Rep h bs) (hr' : Rep h' bs') (hb : b ∈ bs)
    (hp : Parted h.obtained h.mem (fun a => isFree h.mem a = true ∧ ¬ Taken h n a
      ∨ a + 24 = b.addr + 24)
      h.freeListHead) : PairsIn (mark b.addr true bs') := by
  -- nothing is taken: the old list is marked as it was
  have hold : (∀ a, ¬ Taken h n a) → PairsIn (mark b.addr true bs) := fun hno =>
    hr.pairs_free (b := b) (by
      unfold FreeAt
      simpa only [hno, not_false_eq_true, and_true] using hp)
  cases he with
  | fail hs _ => exact hold fun _ => not_taken hs
  | @take t hs _ _ _ =>
      have hpairs := hr.pairs
        (g := fun c => if c.addr = b.addr then true else if c.addr = t.addr then false else c.free)
        hp fun c hc => by
          rw [(chain_size hr.chain hc).2, taken_iff hs]
          by_cases hcb : c.addr = b.addr
          · simp [hcb]
          · by_cases hct : c.addr = t.addr
            · simp [hct]
            · simp [hcb, hct]
      rw [mark, mark, List.map_map]
      refine Eq.mp (congrArg PairsIn (List.map_congr_left fun c _ => ?_)) hpairs
      rw [Function.comp_apply]
      by_cases hct : c.addr = t.addr
      · rw [if_pos hct, if_pos hct]
        dsimp only
        split <;> rfl
      · rw [if_neg hct, if_neg hct]
        split <;> rfl
  | @grow _ _ _ t rest hs _ hused _ hlen _ =>
      have hap := (apart_mid.mp hr'.laid.apart).1 b (List.mem_append_left _ hb)
      have hne : t.addr ≠ b.addr := by
        unfold Block.Apart Block.lim at hap
        omega
      rw [mark, List.map_append, List.map_cons, if_neg hne]
      refine pairsIn_append hused ?_ _ (hold fun _ => not_taken hs)
      cases rest with
      | nil => trivial
      | cons c more =>
          -- a new chunk is cut in two at most
          obtain rfl : more = [] := by
            cases more with
            | nil => rfl
            | cons d more =>
                simp at hlen
          rw [List.map_cons, List.map_nil, PairsIn, if_neg (by simp [hused])]
          trivial

end Calls

/-! ## Allocations -/

/-- The allocations that are live: pointer and length asked for. -/
abbrev Live := List (Nat × Nat)

/-- A pointer that is not `NULL` is a new allocation. -/
def gain (n q : Nat) (live : Live) : Live := if q = 0 then live else (q, n) :: live

def drop (p : Nat) (live : Live) : Live := live.filter fun a => a.1 ≠ p

/-- Every live allocation is a block in use, each a different one. -/
structure Holds (h : LibcHeap) (live : Live) (bs : List Block) : Prop where
  rep : Rep h bs
  block : ∀ a ∈ live, ∃ b ∈ bs, b.free = false ∧ b.addr + 24 = a.1 ∧ a.2 ≤ b.size
  nodup : (live.map Prod.fst).Nodup

section Holds

variable {h : LibcHeap} {live : Live} {bs : List Block} {mmap : Nat → Option Nat} {n p : Nat}

theorem Holds.fill {b : Block} {m' : Mem} (hh : Holds h live bs) (hb : b ∈ bs)
    (hm : ∀ x, x < b.addr + 24 ∨ b.lim ≤ x → m' x = h.mem x) : Holds { h with mem := m' } live bs :=
  { hh with rep := hh.rep.fill hb hm }

theorem Holds.malloc (hh : Holds h live bs) (hn : n ≠ 0) (hw : n + 31 < 2 ^ 64)
    (hm : ∀ len a, mmap len = some a → MapRange.Fresh ⟨a, len⟩ h.obtained) :
    ∃ h' q bs', Ends (fun fuel => Libc.malloc mmap fuel h n) bs.length (h', q)
      ∧ MallocEnd mmap h bs n h' q bs' ∧ Holds h' (gain n q live) bs' ∧ Spares mmap bs h h' := by
  obtain ⟨h', q, bs', hends, hrep, hcase, hspares⟩ := malloc_ends hh.rep hn hw hm
  obtain ⟨hstay, hnew⟩ := hcase.used hh.rep hrep
  have hold : ∀ a ∈ live, ∃ b ∈ bs', b.free = false ∧ b.addr + 24 = a.1 ∧ a.2 ≤ b.size :=
      fun a ha => by
    obtain ⟨b, hb, hu, hrest⟩ := hh.block a ha
    exact ⟨b, hstay b hb hu, hu, hrest⟩
  refine ⟨h', q, bs', hends, hcase, ?_, hspares⟩
  unfold gain
  split
  · exact ⟨hrep, hold, hh.nodup⟩
  · next hq =>
    obtain ⟨b, hb, hu, hbq, hfit, hother⟩ := hnew hq
    refine ⟨hrep, List.forall_mem_cons.mpr ⟨⟨b, hb, hu, hbq, hfit⟩, hold⟩,
      List.nodup_cons.mpr ⟨?_, hh.nodup⟩⟩
    intro hmem
    obtain ⟨a, ha, haq⟩ := List.mem_map.mp hmem
    obtain ⟨c, hc, hcu, hcq, _⟩ := hh.block a ha
    exact hother c hc hcu (by omega)

theorem Holds.free {b : Block} (hh : Holds h live bs) (hb : b ∈ bs)
    (hp : PairsIn (mark b.addr true bs)) :
    ∃ h' bs', Ends (fun fuel => Libc.free fuel h (b.addr + 24)) bs.length h'
      ∧ Holds h' (drop (b.addr + 24) live) bs' ∧ h'.obtained = h.obtained ∧ ∀ mmap,
        Spares mmap bs h h' := by
  obtain ⟨h', bs', hends, hrep, hstay, hspares⟩ := free_ends hh.rep hb hp
  refine ⟨h', bs', hends, ⟨hrep, fun a ha => ?_, ?_⟩, hspares⟩
  · obtain ⟨hal, hne⟩ := List.mem_filter.mp ha
    obtain ⟨c, hc, hu, hca, hfit⟩ := hh.block a hal
    have hne : a.1 ≠ b.addr + 24 := of_decide_eq_true hne
    exact ⟨c, hstay c hc hu (by omega), hu, hca, hfit⟩
  · exact hh.nodup.sublist (List.filter_sublist.map _)

theorem drop_gain {q : Nat} (hh : Holds h (gain n q live) bs) (hp : p ∈ live.map Prod.fst) :
    drop p (gain n q live) = gain n q (drop p live) := by
  have hnd := hh.nodup
  unfold gain at hnd ⊢
  split
  · rfl
  · next hq =>
    rw [if_neg hq, List.map_cons, List.nodup_cons] at hnd
    have hne : q ≠ p := fun h => hnd.1 (h ▸ hp)
    simp [drop, hne]

end Holds

/-! ## Runs -/

inductive MallocCall where
  | malloc (n : Nat)
  | free (ptr : Nat)
  | realloc (ptr n : Nat)
  | calloc (nmemb n : Nat)

/-- One call, and the pointer it returns (zero for `free`). -/
def MallocCall.run (mmap : Nat → Option Nat) (fuel : Nat) (h : LibcHeap) :
    MallocCall → Outcome (LibcHeap × Nat)
  | .malloc n => Libc.malloc mmap fuel h n
  | .free ptr => do
      let h ← Libc.free fuel h ptr
      return (h, 0)
  | .realloc ptr n => Libc.realloc mmap fuel h ptr n
  | .calloc nmemb n => Libc.calloc mmap fuel h nmemb n

/-- What is live after a call that returned `q`. -/
def MallocCall.passOn (live : Live) (q : Nat) : MallocCall → Live
  | .malloc n => gain n q live
  | .free ptr => drop ptr live
  | .realloc ptr n => if n ≠ 0 ∧ q = 0 then live else gain n q (drop ptr live)
  | .calloc nmemb n => gain (nmemb * n) q live

/-- The program's heap, the ranges it had from `mmap` itself, and its allocations. -/
structure MallocState where
  heap : LibcHeap
  others : List MapRange
  live : Live

namespace MallocState

/-- Pointers that are freed are live, and no size wraps. -/
def Rightful (s : MallocState) : MallocCall → Prop
  | .malloc n => n + 31 < 2 ^ 64
  | .free ptr => ptr = 0 ∨ ptr ∈ s.live.map Prod.fst
  | .realloc ptr n => (ptr = 0 ∨ ptr ∈ s.live.map Prod.fst) ∧ n + 31 < 2 ^ 64
  | .calloc nmemb n => nmemb * n + 31 < 2 ^ 64

/-- `realloc` of `ptr` finds a place for `n` bytes elsewhere. -/
def Moves (s : MallocState) (mmap : Nat → Option Nat) (ptr n : Nat) : Prop :=
  size s.heap.mem (ptr - 24) < n ∧ ((∃ a, Taken s.heap n a) ∨ mmap (chunkSize (round8 n)) ≠ none)

/-- **Where joining is sound.** When a block is freed, no two blocks that the pass joins lie in
different ranges. -/
def JoinsIn (s : MallocState) (mmap : Nat → Option Nat) : MallocCall → Prop
  | .free ptr => ptr ≠ 0 →
      Parted s.heap.obtained s.heap.mem (FreeAt s.heap ptr) s.heap.freeListHead
  | .realloc ptr n => ptr ≠ 0 →
      (n = 0 → Parted s.heap.obtained s.heap.mem (FreeAt s.heap ptr) s.heap.freeListHead)
        ∧ (n ≠ 0 → s.Moves mmap ptr n → Parted s.heap.obtained s.heap.mem
            (fun a => isFree s.heap.mem a = true ∧ ¬ Taken s.heap n a ∨ a + 24 = ptr) s.heap.freeListHead)
  | _ => True

/-- A range that no earlier `mmap` overlaps. -/
def Fresh (s : MallocState) (r : MapRange) : Prop := r.Fresh (s.heap.obtained ++ s.others)

/-- The address lies in an allocation. -/
def InLive (s : MallocState) (x : Nat) : Prop := ∃ a ∈ s.live, a.1 ≤ x ∧ x < a.1 + a.2

/-- A call, an `mmap` of the program's own, or a store of the program: into an allocation, or where
`malloc` has no range. -/
inductive Step (ok : MallocState → (Nat → Option Nat) → MallocCall → Prop) :
    MallocState → MallocState → Prop
  | call {s : MallocState} {c : MallocCall} {mmap : Nat → Option Nat} {fuel : Nat} {h' : LibcHeap}
      {q : Nat} : s.Rightful c → ok s mmap c → (∀ len a, mmap len = some a → s.Fresh ⟨a, len⟩) →
      c.run mmap fuel s.heap = .done (h', q) → Step ok s ⟨h', s.others, c.passOn s.live q⟩
  | map {s : MallocState} {r : MapRange} : s.Fresh r → Step ok s { s with others := r :: s.others }
  | store {s : MallocState} {m' : Mem} :
      (∀ x, (∃ r ∈ s.heap.obtained, r.Holds x) → ¬ s.InLive x → m' x = s.heap.mem x) →
      Step ok s { s with heap := { s.heap with mem := m' } }

/-- No block yet: `free_list_head` is `NULL`. -/
inductive Starts : MallocState → Prop
  | boot (m : Mem) (others : List MapRange) : Starts ⟨⟨m, 0, []⟩, others, []⟩

end MallocState

section Keeps

variable {h : LibcHeap} {live : Live} {bs : List Block} {mmap : Nat → Option Nat} {n p : Nat}

theorem drop_of_not_mem (hp : p ∉ live.map Prod.fst) : drop p live = live :=
  List.filter_eq_self.mpr fun _ ha => decide_eq_true fun he => hp (List.mem_map.mpr ⟨_, ha, he⟩)

theorem Holds.ne_null (hh : Holds h live bs) : 0 ∉ live.map Prod.fst := fun h0 => by
  obtain ⟨a, ha, ha0⟩ := List.mem_map.mp h0
  obtain ⟨b, _, _, hba, _⟩ := hh.block a ha
  omega

/-- A live pointer points behind the header of a block in use. -/
theorem Holds.block_of (hh : Holds h live bs) (hp : p ∈ live.map Prod.fst) :
    ∃ b ∈ bs, b.free = false ∧ b.addr + 24 = p := by
  obtain ⟨a, ha, rfl⟩ := List.mem_map.mp hp
  obtain ⟨b, hb, hu, hba, _⟩ := hh.block a ha
  exact ⟨b, hb, hu, hba⟩

theorem Holds.free_any (hh : Holds h live bs) (hp : p = 0 ∨ p ∈ live.map Prod.fst)
    (hj : p ≠ 0 → Parted h.obtained h.mem (FreeAt h p) h.freeListHead) :
    ∃ h' bs', Ends (fun fuel => Libc.free fuel h p) bs.length h' ∧ Holds h' (drop p live) bs'
      ∧ ∀ mmap, Spares mmap bs h h' := by
  rcases hp with rfl | hp
  · rw [drop_of_not_mem hh.ne_null]
    exact ⟨h, bs, Ends.pure _ _, hh, fun mmap => .refl mmap bs h⟩
  · obtain ⟨b, hb, _, rfl⟩ := hh.block_of hp
    obtain ⟨h', bs', hends, hh', _, hspares⟩ := hh.free hb (hh.rep.pairs_free (hj (by omega)))
    exact ⟨h', bs', hends, hh', hspares⟩

theorem Holds.malloc_any (hh : Holds h live bs) (hw : n + 31 < 2 ^ 64)
    (hm : ∀ len a, mmap len = some a → MapRange.Fresh ⟨a, len⟩ h.obtained) :
    ∃ h' q bs', Ends (fun fuel => Libc.malloc mmap fuel h n) bs.length (h', q)
      ∧ Holds h' (gain n q live) bs' ∧ Spares mmap bs h h'
      ∧ (q ≠ 0 → ∀ x, Behind bs x ∨ (∀ r ∈ h'.obtained, ¬ r.Holds x) → x < q ∨ q + n ≤ x) := by
  by_cases hn : n = 0
  · subst hn
    exact ⟨h, 0, bs, Ends.pure _ _, hh, .refl mmap bs h, fun hq => absurd rfl hq⟩
  · obtain ⟨h', q, bs', hends, hcase, hh', hspares⟩ := hh.malloc hn hw hm
    refine ⟨h', q, bs', hends, hh', hspares, fun hq x hx => ?_⟩
    exact hx.elim (hcase.apart hh.rep hh'.rep hq) (hcase.inside hh.rep hh'.rep hq)

theorem Holds.calloc {k : Nat} (hh : Holds h live bs) (hw : k * n + 31 < 2 ^ 64)
    (hm : ∀ len a, mmap len = some a → MapRange.Fresh ⟨a, len⟩ h.obtained) :
    ∃ h' q bs', Ends (fun fuel => Libc.calloc mmap fuel h k n) bs.length (h', q)
      ∧ Holds h' (gain (k * n) q live) bs' ∧ Spares mmap bs h h' := by
  obtain ⟨h', q, bs', hends, hh', hspares, hnew⟩ := hh.malloc_any hw hm
  unfold Libc.calloc
  dsimp only
  rw [u64_of_lt (by omega)]
  by_cases hq : q = 0
  · refine ⟨h', q, bs', Ends.bind (g := fun x _ => _) hends ?_, hh', hspares⟩
    dsimp only
    rw [if_neg (by simp [hq])]
    exact Ends.pure _ _
  · obtain ⟨b, hb, hu, hbq, hfit⟩ := hh'.block (q, k * n) (by simp [gain, hq])
    refine ⟨{ h' with mem := memset h'.mem q 0 (k * n) }, q, bs',
      Ends.bind (g := fun x _ => _) hends ?_,
      hh'.fill hb fun x hx => memset_out ?_, hspares.write fun x hx => memset_out (hnew hq x hx)⟩
    · dsimp only
      rw [if_pos hq]
      exact Ends.pure _ _
    · unfold Block.lim at hx
      omega

theorem MallocEnd.length_le {h' : LibcHeap} {bs' : List Block}
    (he : MallocEnd mmap h bs n h' p bs') :
    bs'.length ≤ bs.length + 2 := by
  cases he with
  | fail => omega
  | take =>
      rw [mark, List.length_map]
      omega
  | grow _ _ _ _ hlen =>
      rw [List.length_append, List.length_cons]
      omega

/-- Without memory nothing has happened. -/
theorem MallocEnd.failed {h' : LibcHeap} {bs' : List Block} (he : MallocEnd mmap h bs n h' p bs')
    (hp : p = 0) : h' = h ∧ (∀ a, ¬ Taken h n a) ∧ mmap (chunkSize (round8 n)) = none := by
  cases he with
  | fail hs hm => exact ⟨rfl, fun _ => not_taken hs, hm⟩
  | take => exact absurd hp (by omega)
  | grow => exact absurd hp (by omega)

/-- A `malloc` that found a block, or was given a range. -/
theorem MallocEnd.moves {h' : LibcHeap} {bs' : List Block} (he : MallocEnd mmap h bs n h' p bs')
    (hp : p ≠ 0) : (∃ a, Taken h n a) ∨ mmap (chunkSize (round8 n)) ≠ none := by
  cases he with
  | fail => exact absurd rfl hp
  | take hs => exact Or.inl ⟨_, (taken_iff hs).mpr rfl⟩
  | grow _ hm => exact Or.inr (by rw [hm]; simp)

/-- A block that has the room already stays where it is. -/
theorem Holds.resize {b : Block} (hh : Holds h live bs) (hb : b ∈ bs) (hu : b.free = false)
    (hn : n ≤ b.size) : Holds h ((b.addr + 24, n) :: drop (b.addr + 24) live) bs := by
  refine ⟨hh.rep, List.forall_mem_cons.mpr ⟨⟨b, hb, hu, rfl, hn⟩, fun a ha => ?_⟩,
    List.nodup_cons.mpr ⟨?_, ?_⟩⟩
  · exact hh.block a (List.mem_filter.mp ha).1
  · intro hmem
    obtain ⟨a, ha, hab⟩ := List.mem_map.mp hmem
    exact of_decide_eq_true (List.mem_filter.mp ha).2 hab
  · exact hh.nodup.sublist (List.filter_sublist.map _)

/-- The block `p` has no room for `n` bytes, no free block has, and the kernel has no range. -/
def NoPlace (mmap : Nat → Option Nat) (h : LibcHeap) (p n : Nat) : Prop :=
  size h.mem (p - 24) < n ∧ (∀ a, ¬ Taken h n a) ∧ mmap (chunkSize (round8 n)) = none

/-- What `realloc` of an allocation that stays or moves from `p` to `q` leaves there: what the block
`p` held, in a place where nothing else was. -/
structure Moved (bs : List Block) (h h' : LibcHeap) (p q n : Nat) : Prop where
  copied : ∀ b ∈ bs, b.addr + 24 = p → ∀ i, i < b.size → h'.mem (q + i) = h.mem (p + i)
  apart : q = p ∨ ∀ x, Behind bs x ∨ (∀ r ∈ h'.obtained, ¬ r.Holds x) → x < q ∨ q + n ≤ x

/-- `realloc` of a block that is too short: allocate, copy, free. -/
theorem Holds.move {b : Block} (hh : Holds h live bs) (hb : b ∈ bs) (hu : b.free = false)
    (hlive : b.addr + 24 ∈ live.map Prod.fst) (hn : b.size < n) (hw : n + 31 < 2 ^ 64)
    (hm : ∀ len a, mmap len = some a → MapRange.Fresh ⟨a, len⟩ h.obtained)
    (hj : ((∃ a, Taken h n a) ∨ mmap (chunkSize (round8 n)) ≠ none) → Parted h.obtained h.mem
      (fun a => isFree h.mem a = true ∧ ¬ Taken h n a ∨ a + 24 = b.addr + 24) h.freeListHead) :
    ∃ h' q bs', Ends (fun fuel => Libc.realloc mmap fuel h (b.addr + 24) n) (bs.length + 2) (h', q)
      ∧ Holds h' ((MallocCall.realloc (b.addr + 24) n).passOn live q) bs' ∧ Spares mmap bs h h'
      ∧ (q = 0 → h' = h ∧ NoPlace mmap h (b.addr + 24) n)
      ∧ (q ≠ 0 → ¬ NoPlace mmap h (b.addr + 24) n ∧ Moved bs h h' (b.addr + 24) q n) := by
  have hsize := (chain_size hh.rep.chain hb).1
  obtain ⟨h₁, q, bs₁, hends₁, hcase, hh₁, hspares₁⟩ := hh.malloc (by omega) hw hm
  have hb₁ := (hcase.used hh.rep hh₁.rep).1 b hb hu
  have hends₁ := hends₁.mono (Nat.le_add_right bs.length 2)
  unfold Libc.realloc
  simp only [if_neg (show ¬ b.addr + 24 = 0 by omega), if_neg (show ¬ n = 0 by omega),
    hh.rep.hdr_of hb, hsize, if_neg (show ¬ n ≤ b.size by omega)]
  by_cases hq : q = 0
  · -- no place: nothing is copied and nothing freed
    refine ⟨h₁, q, bs₁, Ends.bind (g := fun x _ => _) hends₁ ?_, ?_, hspares₁, fun _ => ?_,
      fun h => absurd hq h⟩
    · simp only [if_neg (show ¬ q ≠ 0 from fun h => h hq)]
      exact Ends.pure _ _
    · rw [MallocCall.passOn, if_pos ⟨by omega, hq⟩]
      rw [gain, if_pos hq] at hh₁
      exact hh₁
    · obtain ⟨hsame, hnone⟩ := hcase.failed hq
      exact ⟨hsame, by rw [Nat.add_sub_cancel, hsize]; exact hn, hnone⟩
  · have hpairs := hcase.pairs hh.rep hh₁.rep hb (hj (hcase.moves hq))
    obtain ⟨t, ht, htu, htq, hfit⟩ := hh₁.block (q, n) (by simp [gain, hq])
    have hnew : ∀ x, Behind bs x ∨ (∀ r ∈ h₁.obtained, ¬ r.Holds x) → x < q ∨ q + n ≤ x :=
        fun x hx =>
      hx.elim (hcase.apart hh.rep hh₁.rep hq) (hcase.inside hh.rep hh₁.rep hq)
    have hcopy : Holds { h₁ with mem := memcpy h₁.mem q (b.addr + 24) b.size }
        (gain n q live) bs₁ :=
      hh₁.fill ht fun x hx => memcpy_out b.size q (b.addr + 24) (by
        unfold Block.lim at hx
        omega)
    obtain ⟨h₂, bs₂, hends₂, hh₂, hown, hspares₂⟩ := hcopy.free hb₁ hpairs
    have hown : h₂.obtained = h₁.obtained := hown
    have hfreed := (hspares₂ mmap).bytes
    rw [drop_gain hcopy hlive] at hh₂
    -- what was in use stays in use until `free`
    have hstay : ∀ x, Behind bs x → Behind bs₁ x := fun x ⟨c, hc, hcu, hx⟩ =>
      ⟨c, (hcase.used hh.rep hh₁.rep).1 c hc hcu, hcu, hx⟩
    refine ⟨h₂, q, bs₂, Ends.bind hends₁ (g := fun x fuel => _) ?_, ?_, ?_, fun h => absurd h hq,
      fun _ => ?_⟩
    · dsimp only
      rw [(chain_size hh₁.rep.chain hb₁).1]
      simp only [if_pos hq]
      exact Ends.bind (hends₂.mono hcase.length_le) (g := fun h' _ => _) (Ends.pure _ _)
    · rw [MallocCall.passOn, if_neg (fun h => hq h.2)]
      exact hh₂
    · refine ⟨fun r hr => hspares₁.ranges r (hown ▸ hr), fun x hx => ?_⟩
      rw [hown] at hx
      rw [hfreed x (hx.imp (hstay x) fun hout => hown.symm ▸ hout)]
      exact (memcpy_out b.size q (b.addr + 24) (by have := hnew x hx; omega)).trans
        (hspares₁.bytes x hx)
    · refine ⟨fun ⟨_, hno, hnone⟩ => ?_, fun c hc hcp i hi => ?_,
        Or.inr fun x hx => hnew x (hown ▸ hx)⟩
      · rcases hcase.moves hq with ⟨a, ha⟩ | hgiven
        · exact hno a ha
        · exact hgiven hnone
      obtain rfl : c = b := hh.rep.laid.addr_inj hc hb (by omega)
      have hsrc : Behind bs (c.addr + 24 + i) := ⟨c, hc, hu, by omega, by unfold Block.lim; omega⟩
      have hdst : Behind bs₁ (q + i) := ⟨t, ht, htu, by omega, by unfold Block.lim; omega⟩
      have hlast : Behind bs (c.addr + 24 + (c.size - 1)) :=
        ⟨c, hc, hu, by omega, by unfold Block.lim; omega⟩
      have hfirst : Behind bs (c.addr + 24) :=
        ⟨c, hc, hu, Nat.le_refl _, by unfold Block.lim; omega⟩
      have h1 := hnew _ (Or.inl hfirst)
      have h2 := hnew _ (Or.inl hlast)
      rw [hfreed _ (Or.inl hdst)]
      exact (memcpy_in c.size q (c.addr + 24) hi (by omega)).trans (hspares₁.bytes _ (Or.inl hsrc))

/-- `realloc` of an allocation: it stays, it moves, or there is no memory and nothing has happened.
-/
theorem Holds.resized {b : Block} (hh : Holds h live bs) (hb : b ∈ bs) (hu : b.free = false)
    (hlive : b.addr + 24 ∈ live.map Prod.fst) (hn : n ≠ 0) (hw : n + 31 < 2 ^ 64)
    (hm : ∀ len a, mmap len = some a → MapRange.Fresh ⟨a, len⟩ h.obtained)
    (hj : MallocState.JoinsIn ⟨h, [], live⟩ mmap (.realloc (b.addr + 24) n)) :
    ∃ h' q bs', Ends (fun fuel => Libc.realloc mmap fuel h (b.addr + 24) n) (bs.length + 2) (h', q)
      ∧ Holds h' ((MallocCall.realloc (b.addr + 24) n).passOn live q) bs' ∧ Spares mmap bs h h'
      ∧ (q = 0 → h' = h ∧ NoPlace mmap h (b.addr + 24) n)
      ∧ (q ≠ 0 → ¬ NoPlace mmap h (b.addr + 24) n ∧ Moved bs h h' (b.addr + 24) q n) := by
  have hp0 : b.addr + 24 ≠ 0 := by omega
  have hsize := (chain_size hh.rep.chain hb).1
  by_cases hfit : n ≤ b.size
  · refine ⟨h, b.addr + 24, bs, ?_, ?_, .refl mmap bs h, fun h => absurd h hp0,
      fun _ => ⟨fun hno => ?_, fun _ _ _ _ _ => rfl, Or.inl rfl⟩⟩
    · unfold Libc.realloc
      simp only [if_neg hp0, if_neg hn, hh.rep.hdr_of hb, hsize, if_pos hfit]
      exact Ends.pure _ _
    · rw [MallocCall.passOn, if_neg (fun h => hp0 h.2), gain, if_neg hp0]
      exact hh.resize hb hu hfit
    · have hlt := hno.1
      rw [Nat.add_sub_cancel, hsize] at hlt
      omega
  · refine hh.move hb hu hlive (by omega) hw hm fun hmoves => (hj hp0).2 hn ⟨?_, hmoves⟩
    rw [Nat.add_sub_cancel]
    dsimp only
    omega

theorem Holds.realloc (hh : Holds h live bs) (hp : p = 0 ∨ p ∈ live.map Prod.fst)
    (hw : n + 31 < 2 ^ 64)
    (hm : ∀ len a, mmap len = some a → MapRange.Fresh ⟨a, len⟩ h.obtained)
    (hj : MallocState.JoinsIn ⟨h, [], live⟩ mmap (.realloc p n)) :
    ∃ h' q bs', Ends (fun fuel => Libc.realloc mmap fuel h p n) (bs.length + 2) (h', q)
      ∧ Holds h' ((MallocCall.realloc p n).passOn live q) bs' ∧ Spares mmap bs h h' := by
  by_cases hp0 : p = 0
  · subst hp0
    obtain ⟨h', q, bs', hends, hh', hspares, _⟩ := hh.malloc_any hw hm
    refine ⟨h', q, bs', ?_, ?_, hspares⟩
    · unfold Libc.realloc
      exact hends.mono (Nat.le_add_right _ _)
    · rw [MallocCall.passOn, drop_of_not_mem hh.ne_null]
      split
      · next hq => rwa [gain, if_pos hq.2] at hh'
      · exact hh'
  · have hlive := hp.resolve_left hp0
    obtain ⟨b, hb, hu, rfl⟩ := hh.block_of hlive
    by_cases hn : n = 0
    · subst hn
      obtain ⟨h', bs', hends, hh', _, hspares⟩ := hh.free hb (hh.rep.pairs_free ((hj hp0).1 rfl))
      refine ⟨h', 0, bs', ?_, hh', hspares mmap⟩
      unfold Libc.realloc
      simp only [if_neg hp0, if_true]
      exact Ends.bind (hends.mono (Nat.le_add_right _ _)) (g := fun h' _ => _) (Ends.pure _ _)
    · obtain ⟨h', q, bs', hends, hh', hspares, _⟩ := hh.resized hb hu hlive hn hw hm hj
      exact ⟨h', q, bs', hends, hh', hspares⟩

end Keeps

namespace MallocState

/-- **Every call returns, and keeps what the list and the allocations are.** -/
theorem call_keeps {s : MallocState} {bs : List Block} {c : MallocCall} {mmap : Nat → Option Nat}
    (hh : Holds s.heap s.live bs) (hr : s.Rightful c) (hj : s.JoinsIn mmap c)
    (hm : ∀ len a, mmap len = some a → s.Fresh ⟨a, len⟩) :
    ∃ h' q bs', Ends (fun fuel => c.run mmap fuel s.heap) (bs.length + 2) (h', q)
      ∧ Holds h' (c.passOn s.live q) bs' ∧ Spares mmap bs s.heap h' := by
  have hm' : ∀ len a, mmap len = some a → MapRange.Fresh ⟨a, len⟩ s.heap.obtained := fun len a ha =>
    { hm len a ha with apart := fun r hr => (hm len a ha).apart r (List.mem_append_left _ hr) }
  cases c with
  | malloc n =>
      obtain ⟨h', q, bs', hends, hh', hspares, _⟩ := hh.malloc_any hr hm'
      exact ⟨h', q, bs', hends.mono (Nat.le_add_right _ _), hh', hspares⟩
  | free ptr =>
      obtain ⟨h', bs', hends, hh', hspares⟩ := hh.free_any hr hj
      exact ⟨h', 0, bs', Ends.bind (hends.mono (Nat.le_add_right _ _)) (g := fun h' _ => _)
        (Ends.pure _ _), hh',
        hspares mmap⟩
  | realloc ptr n => exact hh.realloc hr.1 hr.2 hm' hj
  | calloc nmemb n =>
      obtain ⟨h', q, bs', hends, hh'⟩ := hh.calloc hr hm'
      exact ⟨h', q, bs', hends.mono (Nat.le_add_right _ _), hh'⟩

theorem store_keeps {s : MallocState} {bs : List Block} {m' : Mem} (hh : Holds s.heap s.live bs)
    (hst : ∀ x, (∃ r ∈ s.heap.obtained, r.Holds x) → ¬ s.InLive x → m' x = s.heap.mem x) :
    Holds { s.heap with mem := m' } s.live bs := by
  refine { hh with rep := hh.rep.frame fun b hb x h1 h2 => hst x ?_ ?_ }
  · obtain ⟨h3, h4, h5⟩ := hh.rep.laid.inside b hb
    unfold Block.lim at h5
    exact ⟨b.home, h3, by omega, by omega⟩
  · rintro ⟨a, ha, h3, h4⟩
    obtain ⟨c, hc, _, hca, hfit⟩ := hh.block a ha
    have := hh.rep.laid.hdr_apart hb hc
    by_cases hbc : b = c
    · subst hbc
      omega
    · have := hh.rep.laid.apart_of_ne hb hc hbc
      unfold Block.Apart Block.lim at this
      omega

theorem holds_reach {s : MallocState} (h : Run.Reach Starts (Step JoinsIn) s) :
    ∃ bs, Holds s.heap s.live bs := by
  refine h.invariant (P := fun s => ∃ bs, Holds s.heap s.live bs) (fun s h0 => ?_) fun s s' hi hs =>
    ?_
  · cases h0
    refine ⟨[], ⟨?_, ?_, List.Pairwise.nil, ⟨?_, List.Pairwise.nil, List.IsChain.nil⟩, rfl⟩, ?_,
      List.nodup_nil⟩
    all_goals exact fun _ h => absurd h List.not_mem_nil
  · obtain ⟨bs, hh⟩ := hi
    cases hs with
    | call hr hj hm hc =>
        obtain ⟨h', q, bs', hends, hh', _⟩ := call_keeps hh hr hj hm
        cases hends.only hc
        exact ⟨bs', hh'⟩
    | map _ => exact ⟨bs, hh⟩
    | store hst => exact ⟨bs, store_keeps hh hst⟩

/-- The bytes an allocation really has: the length in its header. -/
def room (s : MallocState) (a : Nat × Nat) : Nat := size s.heap.mem (a.1 - 24)

end MallocState

/-- The block `b` is on the list that starts at `a`. -/
inductive Listed (m : Mem) : Nat → Nat → Prop
  | here {a : Nat} : a ≠ 0 → Listed m a a
  | next {a b : Nat} : a ≠ 0 → Listed m (next m a) b → Listed m a b

/-- Allocations are as long as they were asked for, each inside one range that `malloc` was given,
apart from one another and from every header. -/
structure MallocState.Disjoint (s : MallocState) : Prop where
  long : ∀ a ∈ s.live, a.2 ≤ s.room a
  inside : ∀ a ∈ s.live, ∃ r ∈ s.heap.obtained, r.addr ≤ a.1 ∧ a.1 + s.room a ≤ r.lim
  apart : s.live.Pairwise fun a b => a.1 + s.room a ≤ b.1 ∨ b.1 + s.room b ≤ a.1
  headers : ∀ a ∈ s.live, ∀ b, Listed s.heap.mem s.heap.freeListHead b →
    a.1 + s.room a ≤ b ∨ b + hdrLen ≤ a.1

theorem Listed.block {m : Mem} {a b : Nat} (h : Listed m a b) : ∀ {bs : List Block},
    Chain m a bs 0 →
    ∃ c ∈ bs, c.addr = b := by
  induction h with
  | here ha =>
      intro bs hc
      cases bs with
      | nil => exact absurd hc ha
      | cons c bs => exact ⟨c, List.mem_cons_self, hc.1⟩
  | next ha _ ih =>
      intro bs hc
      cases bs with
      | nil => exact absurd hc ha
      | cons c bs =>
          obtain ⟨d, hd, hdb⟩ := ih hc.2.2.2.2
          exact ⟨d, List.mem_cons_of_mem c hd, hdb⟩

namespace MallocState

/-- The picture says that allocations are disjoint. -/
theorem disjoint_of_holds {s : MallocState} {bs : List Block} (hh : Holds s.heap s.live bs) :
    s.Disjoint := by
  -- an allocation is what lies behind the header of its block
  have hblock : ∀ a ∈ s.live, ∃ b ∈ bs, b.addr + 24 = a.1 ∧ a.2 ≤ b.size ∧ s.room a = b.size := by
    intro a ha
    obtain ⟨b, hb, _, hba, hfit⟩ := hh.block a ha
    refine ⟨b, hb, hba, hfit, ?_⟩
    rw [room, ← hba, Nat.add_sub_cancel]
    exact (chain_size hh.rep.chain hb).1
  have hlaid := hh.rep.laid
  refine ⟨fun a ha => ?_, fun a ha => ?_, ?_, fun a ha c hc => ?_⟩
  · obtain ⟨b, _, _, hfit, hroom⟩ := hblock a ha
    exact hroom.symm ▸ hfit
  · obtain ⟨b, hb, hba, _, hroom⟩ := hblock a ha
    obtain ⟨h1, h2, h3⟩ := hlaid.inside b hb
    unfold Block.lim at h3
    exact ⟨b.home, h1, by omega, by omega⟩
  · refine (List.pairwise_map.mp hh.nodup).imp_of_mem fun {a a'} ha ha' hne => ?_
    obtain ⟨b, hb, hba, _, hroom⟩ := hblock a ha
    obtain ⟨b', hb', hba', _, hroom'⟩ := hblock a' ha'
    have hap := hlaid.apart_of_ne hb hb' fun he => hne (by rw [← hba, ← hba', he])
    unfold Block.Apart Block.lim at hap
    omega
  · obtain ⟨b, hb, hba, _, hroom⟩ := hblock a ha
    obtain ⟨d, hd, rfl⟩ := hc.block hh.rep.chain
    have hhdr := hlaid.hdr_apart hb hd
    by_cases hbd : b = d
    · subst hbd
      exact Or.inr (Nat.le_of_eq hba)
    · have hap := hlaid.apart_of_ne hb hd hbd
      unfold Block.Apart Block.lim at hap
      unfold hdrLen
      omega

/-- **Allocations are disjoint** in every run in which no pass of `free` joins blocks of two ranges.
-/
theorem malloc_disjoint {s : MallocState} (h : Run.Reach Starts (Step JoinsIn) s) : s.Disjoint := by
  obtain ⟨bs, hh⟩ := holds_reach h
  exact disjoint_of_holds hh

/-- In such a run every call that the condition allows returns. -/
theorem calls_return {s : MallocState} (h : Run.Reach Starts (Step JoinsIn) s) {c : MallocCall}
    {mmap : Nat → Option Nat} (hr : s.Rightful c) (hj : s.JoinsIn mmap c)
    (hm : ∀ len a, mmap len = some a → s.Fresh ⟨a, len⟩) :
    ∃ n x, ∀ fuel, n < fuel → c.run mmap fuel s.heap = .done x := by
  obtain ⟨bs, hh⟩ := holds_reach h
  obtain ⟨h', q, _, hends, _⟩ := call_keeps hh hr hj hm
  exact ⟨bs.length + 2, (h', q), fun fuel hf => hends.ends hf⟩

/-! Runs can be tried out: the conditions on a step are decidable. -/

instance (r r' : MapRange) : Decidable (r.Apart r') := inferInstanceAs (Decidable (_ ∨ _))

instance (s : MallocState) (r : MapRange) : Decidable (s.Fresh r) :=
  decidable_of_iff (pageSize ∣ r.addr ∧ r.addr ≠ 0 ∧ r.lim < 2 ^ 64
      ∧ ∀ r' ∈ s.heap.obtained ++ s.others, r'.Apart r)
    ⟨fun ⟨h1, h2, h3, h4⟩ => ⟨h1, h2, h3, h4⟩, fun ⟨h1, h2, h3, h4⟩ => ⟨h1, h2, h3, h4⟩⟩

instance (s : MallocState) : (c : MallocCall) → Decidable (s.Rightful c)
  | .malloc n => inferInstanceAs (Decidable (n + 31 < 2 ^ 64))
  | .free ptr => inferInstanceAs (Decidable (ptr = 0 ∨ ptr ∈ s.live.map Prod.fst))
  | .realloc ptr n =>
      inferInstanceAs (Decidable ((ptr = 0 ∨ ptr ∈ s.live.map Prod.fst) ∧ n + 31 < 2 ^ 64))
  | .calloc nmemb n => inferInstanceAs (Decidable (nmemb * n + 31 < 2 ^ 64))

/-- A kernel that has one range to give. -/
def oneRange (r : MapRange) (len : Nat) : Option Nat := if len = r.len then some r.addr else none

/-- One call, while the kernel has `r` to give. -/
def turn (s : MallocState) (c : MallocCall) (r : MapRange) : Option MallocState :=
  if s.Rightful c ∧ s.Fresh r then
    (c.run (oneRange r) 8 s.heap).get?.map fun x => ⟨x.1, s.others, c.passOn s.live x.2⟩
  else none

theorem step_of_turn {ok : MallocState → (Nat → Option Nat) → MallocCall → Prop}
    {s s' : MallocState}
    {c : MallocCall} {r : MapRange} (ht : s.turn c r = some s') (hok : ok s (oneRange r) c) :
    Step ok s s' := by
  unfold turn at ht
  split at ht
  · next hcond =>
    obtain ⟨x, hx, rfl⟩ := Option.map_eq_some_iff.mp ht
    obtain ⟨y, hy, rfl⟩ := Outcome.of_get? (f := id) (b := x) (by simpa using hx)
    refine .call hcond.1 hok (fun len a ha => ?_) hy
    unfold oneRange at ha
    split at ha
    · next hlen =>
      cases ha
      subst hlen
      exact hcond.2
    · exact absurd ha (by simp)
  · exact absurd ht (by simp)

/-- Two ranges, the first split and joined again while a block of the second is in use. -/
theorem malloc_disjoint_rejoined : ∃ s : MallocState, s.live = [(0x40020018, 65512)]
    ∧ size s.heap.mem 0x40000000 = 65512 ∧ isFree s.heap.mem 0x40000000 = true ∧ s.Disjoint := by
  obtain ⟨s₁, h₁, hrest⟩ := Option.map_eq_some_iff.mp (show
    (turn ⟨⟨fun _ => 0, 0, []⟩, [⟨0x40010000, 65536⟩], []⟩ (.malloc 100) ⟨0x40000000, 65536⟩).map
      (fun s₁ => decide ((s₁.turn (.malloc 65512) ⟨0x40020000, 65536⟩).map
        (fun s₂ => decide ((s₂.turn (.free 0x40000018) ⟨0x40030000, 65536⟩).map
          (fun s₃ => decide (s₃.live = [(0x40020018, 65512)] ∧ size s₃.heap.mem 0x40000000 = 65512
            ∧ isFree s₃.heap.mem 0x40000000 = true)) = some true
          ∧ s₂.heap.freeListHead = 0x40000000 ∧ next s₂.heap.mem 0x40000000 = 0x40000080
          ∧ isFree s₂.heap.mem 0x40000080 = true ∧ next s₂.heap.mem 0x40000080 = 0x40020000
          ∧ isFree s₂.heap.mem 0x40020000 = false ∧ next s₂.heap.mem 0x40020000 = 0
          ∧ ⟨0x40000000, 65536⟩ ∈ s₂.heap.obtained)) = some true))
            = some true from by decide +kernel)
  obtain ⟨s₂, h₂, hrest⟩ := Option.map_eq_some_iff.mp (of_decide_eq_true hrest)
  obtain ⟨hrest, hhead, hn₁, hf₁, hn₂, hf₂, hn₃, hr⟩ := of_decide_eq_true hrest
  obtain ⟨s₃, h₃, hrest⟩ := Option.map_eq_some_iff.mp hrest
  obtain ⟨hlive, hsize, hfree⟩ := of_decide_eq_true hrest
  have hjoin : s₂.JoinsIn (oneRange ⟨0x40030000, 65536⟩) (.free 0x40000018) := fun _ => by
    rw [hhead]
    refine .pair (by decide) (Or.inr rfl) (by rw [hn₁]; decide)
      (by rw [hn₁]; exact Or.inl hf₁) hr ?_ ?_ ?_
    · exact ⟨by decide, by decide⟩
    · rw [hn₁]
      exact ⟨by decide, by decide⟩
    · rw [hn₁, hn₂]
      refine .pass (by decide) (fun h => ?_) (by rw [hn₃]; exact .done)
      exact h.2.1 hn₃
  have hs₁ : Step JoinsIn ⟨⟨fun _ => 0, 0, []⟩, [⟨0x40010000, 65536⟩], []⟩ s₁ :=
    step_of_turn h₁ trivial
  have hreach := Run.Reach.next (.next (.next
    (.start (Starts.boot (fun _ => 0) [⟨0x40010000, 65536⟩])) hs₁)
    (step_of_turn h₂ trivial)) (step_of_turn h₃ hjoin)
  exact ⟨s₃, hlive, hsize, hfree, malloc_disjoint hreach⟩

/-- **One block over two ranges.** Two allocations that fill a range each, with a range of the
program's own between them. Both are freed, the pass joins them, and the next `malloc` returns
131048 bytes of which 65512 were ever `malloc`'s before the other range begins. -/
theorem malloc_spans_ranges : ∃ s : MallocState,
    Run.Reach Starts (Step fun _ _ _ => True) s ∧ s.live = [(0x40000018, 131048)]
      ∧ s.heap.obtained = [⟨0x40000000, 65536⟩, ⟨0x40011000, 65536⟩] ∧ s.others = [⟨0x40010000, 4096⟩]
      ∧ ¬ s.Disjoint := by
  obtain ⟨s₁, h₁, hrest⟩ := Option.map_eq_some_iff.mp (show
    (turn ⟨⟨fun _ => 0, 0, []⟩, [], []⟩ (.malloc 65512) ⟨0x40000000, 65536⟩).map
      (fun s₁ => decide (s₁.Fresh ⟨0x40010000, 4096⟩
        ∧ ((((turn { s₁ with others := ⟨0x40010000, 4096⟩ :: s₁.others } (.malloc 65512)
          ⟨0x40011000, 65536⟩).bind
          fun s₂ => s₂.turn (.free 0x40000018) ⟨0x40030000, 65536⟩).bind
          fun s₃ => s₃.turn (.free 0x40011018) ⟨0x40030000, 65536⟩).bind
          fun s₄ => s₄.turn (.malloc 131048) ⟨0x40030000, 65536⟩).map
          (fun s₅ => decide (s₅.live = [(0x40000018, 131048)]
            ∧ s₅.heap.obtained = [⟨0x40000000, 65536⟩, ⟨0x40011000, 65536⟩]
            ∧ s₅.others = [⟨0x40010000, 4096⟩] ∧ size s₅.heap.mem 0x40000000 = 131048))
              = some true))
      = some true from by decide +kernel)
  obtain ⟨hfresh, hrest⟩ := of_decide_eq_true hrest
  obtain ⟨s₅, h₅, hrest⟩ := Option.map_eq_some_iff.mp hrest
  obtain ⟨hlive, hown, hothers, hsize⟩ := of_decide_eq_true hrest
  obtain ⟨s₄, h₄, h₅⟩ := Option.bind_eq_some_iff.mp h₅
  obtain ⟨s₃, h₃, h₄⟩ := Option.bind_eq_some_iff.mp h₄
  obtain ⟨s₂, h₂, h₃⟩ := Option.bind_eq_some_iff.mp h₃
  have hs₁ : Step (fun _ _ _ => True) ⟨⟨fun _ => 0, 0, []⟩, [], []⟩ s₁ := step_of_turn h₁ trivial
  have hreach := Run.Reach.next (.next (.next
    (.next (.next (.next (.start (Starts.boot (fun _ => 0) [])) hs₁)
    (.map hfresh)) (step_of_turn h₂ trivial)) (step_of_turn h₃ trivial)) (step_of_turn h₄ trivial))
    (step_of_turn h₅ trivial)
  refine ⟨s₅, hreach, hlive, hown, hothers, fun hd => ?_⟩
  obtain ⟨r, hr, hlo, hhi⟩ := hd.inside (0x40000018, 131048)
    (by rw [hlive]; exact List.mem_cons_self)
  rw [room, show (0x40000018, 131048).1 - 24 = 0x40000000 from rfl, hsize] at hhi
  rw [hown] at hr
  rcases List.mem_cons.mp hr with rfl | hr
  · exact absurd hhi (by decide)
  · cases List.mem_singleton.mp hr
    exact absurd hlo (by decide)

end MallocState

end VnlKernel.Libc
