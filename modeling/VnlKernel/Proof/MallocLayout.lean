import VnlKernel.Libc.Malloc
import Mathlib.Data.List.Chain
import Mathlib.Data.List.Pairwise

/-!
# What the list of blocks looks like

The picture behind `libc.c`: a list of blocks, in the order of the links, each with
the range of `mmap` it was cut from. Nothing says that the list is in address order,
because ranges come as the kernel gives them. What does hold is local.

* A block lies in its range, and no two blocks meet.
* Neighbours on the list that come from *one* range also touch in memory.

The second is what makes joining neighbours sound, and it says nothing about
neighbours from two ranges.
-/

namespace VnlKernel

open ByteMem Bits

def MapRange.Apart (r r' : MapRange) : Prop := r.lim ≤ r'.addr ∨ r'.lim ≤ r.addr

/-- The address `a` lies in the range. -/
def MapRange.Holds (r : MapRange) (a : Nat) : Prop := r.addr ≤ a ∧ a < r.lim

/-- What `mmap` promises of a range, given the ranges it returned before. -/
structure MapRange.Fresh (r : MapRange) (earlier : List MapRange) : Prop where
  aligned : pageSize ∣ r.addr
  nonzero : r.addr ≠ 0
  lim_lt : r.lim < 2 ^ 64
  apart : ∀ r' ∈ earlier, r'.Apart r

namespace Libc

/-- One block, header included, and the range it is from. -/
structure Block where
  addr : Nat
  size : Nat
  free : Bool
  home : MapRange
deriving DecidableEq

/-- The address just past the block. -/
def Block.lim (b : Block) : Nat := b.addr + 24 + b.size

def Block.Apart (b c : Block) : Prop := b.lim ≤ c.addr ∨ c.lim ≤ b.addr

/-- Neighbours from one range touch. -/
def Block.Meets (b c : Block) : Prop := b.home = c.home → b.lim = c.addr

/-- The blocks `bs` are cut from the ranges `own`. -/
structure Laid (own : List MapRange) (bs : List Block) : Prop where
  inside : ∀ b ∈ bs, b.home ∈ own ∧ b.home.addr ≤ b.addr ∧ b.lim ≤ b.home.lim
  apart : bs.Pairwise Block.Apart
  meets : bs.IsChain Block.Meets

/-- The links lead from `a` through the blocks `bs` to `e`, and their headers say what they are. -/
def Chain (m : Mem) : Nat → List Block → Nat → Prop
  | a, [], e => a = e
  | a, b :: bs, e =>
      b.addr = a ∧ a ≠ 0 ∧ size m a = b.size ∧ isFree m a = b.free ∧ Chain m (next m a) bs e

/-- **The representation invariant of the heap.** -/
structure Rep (h : LibcHeap) (bs : List Block) : Prop where
  nonzero : ∀ r ∈ h.obtained, r.addr ≠ 0
  lim_lt : ∀ r ∈ h.obtained, r.lim < 2 ^ 64
  ranges : h.obtained.Pairwise MapRange.Apart
  laid : Laid h.obtained bs
  chain : Chain h.mem h.freeListHead bs 0

/-! ## Headers in memory -/

section Headers

variable {m m' : Mem} {a v x : Nat} {f : Bool}

/-- The header at `a` is the same in both memories. -/
def SameHdr (m m' : Mem) (a : Nat) : Prop := ∀ x, a ≤ x → x < a + 24 → m' x = m x

theorem SameHdr.size_eq (h : SameHdr m m' a) : size m' a = size m a :=
  read64_congr fun x h1 h2 => h x h1 (by omega)

theorem SameHdr.isFree_eq (h : SameHdr m m' a) : isFree m' a = isFree m a := by
  unfold isFree
  rw [readLE_congr 4 (a + 8) fun x h1 h2 => h x (by omega) (by omega)]

theorem SameHdr.next_eq (h : SameHdr m m' a) : next m' a = next m a :=
  read64_congr fun x h1 h2 => h x (by omega) (by omega)

theorem setSize_out (h : x < a ∨ a + 24 ≤ x) : setSize m a v x = m x := write64_out (by omega)

theorem setFree_out (h : x < a ∨ a + 24 ≤ x) : setFree m a f x = m x := writeLE_out (by omega)

theorem setNext_out (h : x < a ∨ a + 24 ≤ x) : setNext m a v x = m x := write64_out (by omega)

theorem size_setSize (hv : v < 2 ^ 64) : size (setSize m a v) a = v := read64_write64_same hv

@[simp] theorem size_setFree : size (setFree m a f) a = size m a :=
  readLE_writeLE_disj (Or.inl (by omega))

@[simp] theorem size_setNext : size (setNext m a v) a = size m a :=
  read64_write64_disj (Or.inl (by omega))

@[simp] theorem isFree_setSize : isFree (setSize m a v) a = isFree m a := by
  unfold isFree setSize write64
  rw [readLE_writeLE_disj (Or.inr (by omega))]

@[simp] theorem isFree_setFree : isFree (setFree m a f) a = f := by
  unfold isFree setFree
  rw [readLE_writeLE_same]
  cases f <;> rfl

@[simp] theorem isFree_setNext : isFree (setNext m a v) a = isFree m a := by
  unfold isFree setNext write64
  rw [readLE_writeLE_disj (Or.inl (by omega))]

@[simp] theorem next_setSize : next (setSize m a v) a = next m a :=
  read64_write64_disj (Or.inr (by omega))

@[simp] theorem next_setFree : next (setFree m a f) a = next m a :=
  readLE_writeLE_disj (Or.inr (by omega))

theorem next_setNext (hv : v < 2 ^ 64) : next (setNext m a v) a = v := read64_write64_same hv

theorem next_lt (m : Mem) (a : Nat) : next m a < 2 ^ 64 := read64_lt m _

end Headers

/-! ## Links -/

theorem chain_append {m : Mem} : ∀ {xs ys : List Block} {a e : Nat},
    Chain m a (xs ++ ys) e ↔ ∃ c, Chain m a xs c ∧ Chain m c ys e
  | [], ys, a, e => by simp [Chain]
  | x :: xs, ys, a, e => by
      simp only [List.cons_append, Chain, @chain_append m xs]
      constructor
      · rintro ⟨h1, h2, h3, h4, c, h5, h6⟩; exact ⟨c, ⟨h1, h2, h3, h4, h5⟩, h6⟩
      · rintro ⟨c, ⟨h1, h2, h3, h4, h5⟩, h6⟩; exact ⟨h1, h2, h3, h4, c, h5, h6⟩

/-- Only the headers of its own blocks matter to a stretch of the list. -/
theorem chain_congr {m m' : Mem} : ∀ {bs : List Block} {a e : Nat},
    (∀ b ∈ bs, SameHdr m m' b.addr) → Chain m a bs e → Chain m' a bs e
  | [], _, _, _, h => h
  | b :: bs, a, e, hs, ⟨h1, h2, h3, h4, h5⟩ => by
      have hb := hs b List.mem_cons_self
      rw [h1] at hb
      refine ⟨h1, h2, hb.size_eq.trans h3, hb.isFree_eq.trans h4, ?_⟩
      rw [hb.next_eq]
      exact chain_congr (fun c hc => hs c (List.mem_cons_of_mem b hc)) h5

/-- A header written field by field. -/
theorem chain_written {b : Block} (m : Mem) {e : Nat} (hb : b.addr ≠ 0) (hs : b.size < 2 ^ 64)
    (he : e < 2 ^ 64) :
    Chain (setNext (setFree (setSize m b.addr b.size) b.addr b.free) b.addr e) b.addr [b] e := by
  refine ⟨rfl, hb, ?_, ?_, next_setNext he⟩
  · rw [size_setNext, size_setFree, size_setSize hs]
  · rw [isFree_setNext, isFree_setFree]

theorem sameHdr_written {m : Mem} {o a v e : Nat} {f : Bool} (h : a + 24 ≤ o ∨ o + 24 ≤ a) :
    SameHdr m (setNext (setFree (setSize m o v) o f) o e) a := fun x h1 h2 => by
  rw [setNext_out (by omega), setFree_out (by omega), setSize_out (by omega)]

/-! ## Where blocks lie -/

instance : Std.Symm Block.Apart := ⟨fun _ _ h => Or.symm h⟩

instance : Std.Symm MapRange.Apart := ⟨fun _ _ h => Or.symm h⟩

/-- One block of the list apart from all the others, and these from one another. -/
theorem apart_mid {xs ys : List Block} {b : Block} : (xs ++ b :: ys).Pairwise Block.Apart ↔
    (∀ c ∈ xs ++ ys, b.Apart c) ∧ (xs ++ ys).Pairwise Block.Apart := by
  have hsymm : ∀ {b c : Block}, b.Apart c → c.Apart b := fun h => Or.symm h
  rw [List.pairwise_middle hsymm, List.pairwise_cons]

section Blocks

variable {own : List MapRange} {xs ys bs : List Block} {b c : Block}

theorem Laid.apart_of_ne (h : Laid own bs) (hb : b ∈ bs) (hc : c ∈ bs) (hne : b ≠ c) : b.Apart c :=
  h.apart.forall hb hc hne

theorem Laid.addr_inj (h : Laid own bs) (hb : b ∈ bs) (hc : c ∈ bs) (he : b.addr = c.addr) :
    b = c := by
  by_contra hne
  have := h.apart_of_ne hb hc hne
  unfold Block.Apart Block.lim at this
  omega

theorem Laid.home_holds (h : Laid own bs) (hb : b ∈ bs) : b.home.Holds b.addr := by
  obtain ⟨_, h1, h2⟩ := h.inside b hb
  unfold Block.lim at h2
  exact ⟨h1, by omega⟩

/-- A range that holds the address of a block is the one the block is from. -/
theorem Laid.home_unique (h : Laid own bs) (hr : own.Pairwise MapRange.Apart) (hb : b ∈ bs)
    {r : MapRange} (hro : r ∈ own) (hold : r.Holds b.addr) : r = b.home := by
  by_contra hne
  have hap : r.Apart b.home := hr.forall hro (h.inside b hb).1 hne
  obtain ⟨h1, h2⟩ := hold
  obtain ⟨h3, h4⟩ := h.home_holds hb
  rcases hap with hap | hap <;> omega

end Blocks

/-! ## Edits -/

/-- The list with the flag of the block at `a` set. -/
def mark (a : Nat) (f : Bool) (bs : List Block) : List Block :=
  bs.map fun b => if b.addr = a then { b with free := f } else b

/-- Flags do not matter to where blocks lie. -/
theorem Laid.map {own : List MapRange} {bs : List Block} {g : Block → Block} (h : Laid own bs)
    (hg : ∀ b, (g b).addr = b.addr ∧ (g b).size = b.size ∧ (g b).home = b.home) :
    Laid own (bs.map g) := by
  have hlim : ∀ b, (g b).lim = b.lim := fun b => by
    unfold Block.lim
    rw [(hg b).1, (hg b).2.1]
  refine ⟨fun b hb => ?_, ?_, ?_⟩
  · obtain ⟨c, hc, rfl⟩ := List.mem_map.mp hb
    rw [hlim c, (hg c).1, (hg c).2.2]
    exact h.inside c hc
  · refine List.pairwise_map.mpr (h.apart.imp fun {b c} hbc => ?_)
    unfold Block.Apart
    rw [hlim b, hlim c, (hg b).1, (hg c).1]
    exact hbc
  · refine List.isChain_map_of_isChain g (fun b c hbc => ?_) h.meets
    unfold Block.Meets
    rw [hlim b, (hg b).2.2, (hg c).1, (hg c).2.2]
    exact hbc

theorem chain_mark {m : Mem} {o : Nat} {f : Bool} : ∀ {bs : List Block} {a e : Nat},
    (∀ b ∈ bs, b.addr = o ∨ b.addr + 24 ≤ o ∨ o + 24 ≤ b.addr) → Chain m a bs e →
    Chain (setFree m o f) a (mark o f bs) e
  | [], _, _, _, h => h
  | b :: bs, a, e, ho, ⟨h1, h2, h3, h4, h5⟩ => by
      have ih := chain_mark (m := m) (f := f) (fun c hc => ho c (List.mem_cons_of_mem b hc)) h5
      have hb := ho b List.mem_cons_self
      rw [h1] at hb
      rw [mark, List.map_cons]
      by_cases hbo : b.addr = o
      · rw [if_pos hbo]
        rw [h1] at hbo
        subst hbo
        exact ⟨h1, h2, size_setFree.trans h3, isFree_setFree, by rw [next_setFree]; exact ih⟩
      · have hsame : SameHdr m (setFree m o f) a := fun x _ _ => setFree_out (by omega)
        rw [if_neg hbo]
        exact ⟨h1, h2, hsame.size_eq.trans h3,
          hsame.isFree_eq.trans h4, by rw [hsame.next_eq]; exact ih⟩

section Rep

variable {h : LibcHeap} {m' : Mem} {xs ys bs : List Block} {b c : Block}

/-- The headers of two blocks are the same or do not meet. -/
theorem Laid.hdr_apart {own : List MapRange} (hl : Laid own bs) (hb : b ∈ bs) (hc : c ∈ bs) :
    c.addr = b.addr ∨ c.addr + 24 ≤ b.addr ∨ b.addr + 24 ≤ c.addr := by
  by_cases hbc : c = b
  · exact Or.inl (by rw [hbc])
  · have := hl.apart_of_ne hc hb hbc
    unfold Block.Apart Block.lim at this
    omega

/-- What no header lies in may be written. -/
theorem Rep.frame (hr : Rep h bs) (hs : ∀ b ∈ bs, SameHdr h.mem m' b.addr) :
    Rep { h with mem := m' } bs :=
  { hr with chain := chain_congr hs hr.chain }

/-- `block->free = f`. -/
theorem Rep.marked (hr : Rep h bs) (hb : b ∈ bs) (f : Bool) :
    Rep { h with mem := setFree h.mem b.addr f } (mark b.addr f bs) where
  nonzero := hr.nonzero
  lim_lt := hr.lim_lt
  ranges := hr.ranges
  laid := hr.laid.map fun c => by split <;> exact ⟨rfl, rfl, rfl⟩
  chain := chain_mark (fun _ hc => hr.laid.hdr_apart hb hc) hr.chain

/-- Two neighbours from one range, as one block. -/
def Block.join (b c : Block) : Block := { b with size := b.size + (24 + c.size) }

theorem Laid.join {own : List MapRange} (hl : Laid own (xs ++ b :: c :: ys))
    (hh : b.home = c.home) :
    b.lim = c.addr ∧ Laid own (xs ++ b.join c :: ys) := by
  obtain ⟨hleft, hbc, hright⟩ := List.isChain_append_cons_cons.mp hl.meets
  have hbc := hbc hh
  have hlim : (b.join c).lim = c.lim := by
    unfold Block.lim at hbc ⊢
    simp only [Block.join]
    omega
  obtain ⟨hb, hpair⟩ := apart_mid.mp hl.apart
  obtain ⟨hc, hpair⟩ := apart_mid.mp hpair
  have hbm : b ∈ xs ++ b :: c :: ys := List.mem_append_right _ List.mem_cons_self
  have hcm : c ∈ xs ++ b :: c :: ys :=
    List.mem_append_right _ (List.mem_cons_of_mem _ List.mem_cons_self)
  have hrest : ∀ d ∈ xs ++ ys, d ∈ xs ++ c :: ys := fun d hd =>
    (List.mem_append.mp hd).elim (List.mem_append_left _)
      fun h => List.mem_append_right _ (List.mem_cons_of_mem _ h)
  refine ⟨hbc, fun d hd => ?_, ?_, ?_⟩
  · rcases List.mem_append.mp hd with hd | hd
    · exact hl.inside d (List.mem_append_left _ hd)
    · rcases List.mem_cons.mp hd with rfl | hd
      · obtain ⟨h1, h2, _⟩ := hl.inside b hbm
        obtain ⟨_, _, h3⟩ := hl.inside c hcm
        rw [hlim]
        exact ⟨h1, h2, by rw [show (b.join c).home = c.home from hh]; exact h3⟩
      · exact hl.inside d (List.mem_append_right _
          (List.mem_cons_of_mem _ (List.mem_cons_of_mem _ hd)))
  · refine apart_mid.mpr ⟨fun d hd => ?_, hpair⟩
    -- what is apart from both halves is apart from the whole, because the halves touch
    have h1 := hb d (hrest d hd)
    have h2 := hc d hd
    unfold Block.Apart at h1 h2 ⊢
    rw [hlim]
    have hd : d.addr < d.lim := by unfold Block.lim; omega
    have ha : (b.join c).addr = b.addr := rfl
    omega
  · obtain ⟨hx, _, hxb⟩ := List.isChain_append.mp hleft
    obtain ⟨hcy, hy⟩ := List.isChain_cons.mp hright
    refine List.isChain_append.mpr ⟨hx, List.isChain_cons.mpr ⟨fun d hd => ?_, hy⟩,
      fun d hd e he => ?_⟩
    · intro hde
      rw [hlim]
      exact hcy d hd (hh.symm.trans hde)
    · cases he
      exact hxb d hd b rfl

theorem Rep.join_lt (hr : Rep h (xs ++ b :: c :: ys)) (hh : b.home = c.home) :
    b.size + (24 + c.size) < 2 ^ 64 := by
  obtain ⟨_, hlaid⟩ := hr.laid.join hh
  obtain ⟨h1, _, h2⟩ := hlaid.inside (b.join c) (List.mem_append_right _ List.mem_cons_self)
  have h3 := hr.lim_lt _ h1
  rw [show (b.join c).home = b.home from rfl] at h2 h3
  unfold Block.lim Block.join at h2
  dsimp only at h2
  omega

/-- `curr->size += …; curr->next = curr->next->next`. -/
theorem Rep.join (hr : Rep h (xs ++ b :: c :: ys)) (hh : b.home = c.home) :
    Rep { h with
      mem := setNext (setSize h.mem b.addr (b.size + (24 + c.size))) b.addr (next h.mem c.addr) }
      (xs ++ b.join c :: ys) := by
  obtain ⟨hbc, hlaid⟩ := hr.laid.join hh
  refine ⟨hr.nonzero, hr.lim_lt, hr.ranges, hlaid, ?_⟩
  have hsize := hr.join_lt hh
  -- every other header is outside the joined block
  have hsame : ∀ d ∈ xs ++ ys, SameHdr h.mem
    (setNext (setSize h.mem b.addr (b.size + (24 + c.size)))
      b.addr (next h.mem c.addr)) d.addr := by
    intro d hm x h1 h2
    have hap := (apart_mid.mp hlaid.apart).1 d hm
    unfold Block.Apart Block.lim at hap
    simp only [Block.join] at hap
    rw [setNext_out (by omega), setSize_out (by omega)]
  obtain ⟨e, hx, hb1, hb2, hb3, hb4, hc1, hc2, hc3, hc4, hy⟩ := chain_append.mp hr.chain
  subst hb1
  rw [← hc1] at hy
  refine chain_append.mpr ⟨b.addr, chain_congr (fun d hd => hsame d (List.mem_append_left _ hd)) hx,
    rfl, hb2, ?_, ?_, ?_⟩
  · rw [size_setNext, size_setSize hsize]
    rfl
  · rw [isFree_setNext, isFree_setSize, hb4]
    rfl
  · rw [next_setNext (next_lt h.mem c.addr)]
    exact chain_congr (fun d hd => hsame d (List.mem_append_right _ hd)) hy

/-- The whole of a range, as one block in use. -/
def wholeBlock (r : MapRange) : Block := ⟨r.addr, r.len - 24, false, r⟩

theorem Laid.snoc {own : List MapRange} {r : MapRange} (hl : Laid own bs) (hf : r.Fresh own)
    (hlen : 24 ≤ r.len) : Laid (own ++ [r]) (bs ++ [wholeBlock r]) := by
  have hlim : (wholeBlock r).lim = r.lim := by
    unfold Block.lim wholeBlock MapRange.lim
    dsimp only
    omega
  -- old blocks lie in ranges the new one is apart from
  have hout : ∀ b ∈ bs, b.Apart (wholeBlock r) := fun b hb => by
    obtain ⟨h1, h2, h3⟩ := hl.inside b hb
    have h4 := hf.apart _ h1
    have h5 : b.addr < b.lim := by unfold Block.lim; omega
    have h6 : (wholeBlock r).addr = r.addr := rfl
    unfold MapRange.Apart at h4
    unfold Block.Apart
    rw [hlim, h6]
    omega
  refine ⟨fun b hb => ?_, ?_, ?_⟩
  · rcases List.mem_append.mp hb with hb | hb
    · obtain ⟨h1, h2⟩ := hl.inside b hb
      exact ⟨List.mem_append_left _ h1, h2⟩
    · cases List.mem_singleton.mp hb
      exact ⟨List.mem_append_right _ List.mem_cons_self, Nat.le_refl _, Nat.le_of_eq hlim⟩
  · refine List.pairwise_append.mpr ⟨hl.apart, List.pairwise_singleton _ _, fun b hb c hc => ?_⟩
    cases List.mem_singleton.mp hc
    exact hout b hb
  · refine List.isChain_append.mpr ⟨hl.meets, List.IsChain.singleton _, fun b hb c hc hhome => ?_⟩
    cases hc
    have hbm := List.mem_of_mem_getLast? hb
    have := hout b hbm
    obtain ⟨_, h1, h2⟩ := hl.inside b hbm
    have h3 := hl.home_holds hbm
    rw [hhome] at h1 h2
    have h5 : b.addr < b.lim := by unfold Block.lim; omega
    unfold Block.Apart at this
    rw [hlim] at this
    rw [show (wholeBlock r).home = r from rfl] at h1 h2
    rw [show (wholeBlock r).addr = r.addr from rfl] at this
    omega

/-- The last block of the list, or zero when there is none. -/
def lastAddr (bs : List Block) : Nat := (bs.getLast?.map Block.addr).getD 0

theorem lastAddr_snoc (bs : List Block) (b : Block) : lastAddr (bs ++ [b]) = b.addr := by
  simp [lastAddr]

/-- A new header behind the last block, once its three fields are written. -/
theorem Chain.snoc {m : Mem} {head : Nat} {b : Block} (hc : Chain m head bs 0)
    (hb : Chain m b.addr [b] 0)
    (hap : (bs ++ [b]).Pairwise Block.Apart) (hlt : b.addr < 2 ^ 64) :
    Chain (if lastAddr bs ≠ 0 then setNext m (lastAddr bs) b.addr else m)
      (if lastAddr bs ≠ 0 then head else b.addr) (bs ++ [b]) 0 := by
  rcases bs.eq_nil_or_concat with rfl | ⟨ws, p, rfl⟩
  · rw [if_neg (by simp [lastAddr]), if_neg (by simp [lastAddr])]
    exact hb
  · rw [List.concat_eq_append] at hc hap ⊢
    obtain ⟨e, hw, hp1, hp2, hp3, hp4, hp5⟩ := chain_append.mp hc
    subst hp1
    rw [lastAddr_snoc, if_pos hp2, if_pos hp2]
    rw [List.append_assoc] at hap ⊢
    obtain ⟨hp, hwb⟩ := apart_mid.mp hap
    have hsame : ∀ c ∈ ws ++ [b], SameHdr m (setNext m p.addr b.addr) c.addr :=
        fun c hc x h1 h2 => by
      have := hp c hc
      unfold Block.Apart Block.lim at this
      exact setNext_out (by omega)
    refine chain_append.mpr ⟨p.addr,
      chain_congr (fun c hc => hsame c (List.mem_append_left _ hc)) hw, rfl, hp2, ?_, ?_, ?_⟩
    · rw [size_setNext, hp3]
    · rw [isFree_setNext, hp4]
    · rw [next_setNext hlt]
      exact chain_congr (fun c hc => hsame c (List.mem_append_right _ hc)) hb

theorem mallocLink_eq (n prev block : Nat) : mallocLink h n prev block =
    let m := setNext (setFree (setSize h.mem block (sub64 (chunkSize n) hdrLen)) block false)
      block 0
    ⟨if prev ≠ 0 then setNext m prev block else m, if prev ≠ 0 then h.freeListHead else block,
      h.obtained ++ [⟨block, chunkSize n⟩]⟩ := by
  unfold mallocLink
  dsimp only
  split <;> rfl

/-- A fresh range, linked behind the last block. -/
theorem Rep.link {n block : Nat} (hr : Rep h bs)
    (hf : MapRange.Fresh ⟨block, chunkSize n⟩ h.obtained)
    (hlen : 24 ≤ chunkSize n) :
    Rep (mallocLink h n (lastAddr bs) block) (bs ++ [wholeBlock ⟨block, chunkSize n⟩]) := by
  have hlaid := hr.laid.snoc hf hlen
  have hlim := hf.lim_lt
  unfold MapRange.lim at hlim
  dsimp only at hlim
  rw [mallocLink_eq]
  refine ⟨?_, ?_, ?_, hlaid, ?_⟩
  · exact List.forall_mem_append.mpr ⟨hr.nonzero, List.forall_mem_singleton.mpr hf.nonzero⟩
  · exact List.forall_mem_append.mpr ⟨hr.lim_lt, List.forall_mem_singleton.mpr hf.lim_lt⟩
  · refine List.pairwise_append.mpr ⟨hr.ranges, List.pairwise_singleton _ _,
      fun r hr' r' hr'' => ?_⟩
    cases List.mem_singleton.mp hr''
    exact hf.apart r hr'
  · refine Chain.snoc (b := wholeBlock ⟨block, chunkSize n⟩) ?_ ?_ hlaid.apart
      (Nat.lt_of_le_of_lt (Nat.le_add_right _ _) hlim)
    · refine chain_congr (fun b hb => sameHdr_written ?_) hr.chain
      have hap : b.Apart _ := (List.pairwise_append.mp hlaid.apart).2.2 b hb _ List.mem_cons_self
      unfold Block.Apart Block.lim wholeBlock at hap
      dsimp only at hap
      omega
    · rw [show sub64 (chunkSize n) hdrLen = chunkSize n - 24 from sub64_of_le hlen (by omega)]
      exact chain_written (b := wholeBlock ⟨block, chunkSize n⟩) h.mem hf.nonzero
        (Nat.lt_of_le_of_lt (Nat.sub_le (chunkSize n) 24) (by omega)) (by decide)

theorem lastAddr_mem (hne : lastAddr bs ≠ 0) : ∃ b ∈ bs, b.addr = lastAddr bs := by
  rcases bs.eq_nil_or_concat with rfl | ⟨ws, p, rfl⟩
  · exact absurd rfl hne
  · rw [List.concat_eq_append, lastAddr_snoc]
    exact ⟨p, List.mem_append_right _ List.mem_cons_self, rfl⟩

/-- Linking writes to the new header and to the one before it. -/
theorem mallocLink_out {n block x : Nat} (hb : x < block ∨ block + 24 ≤ x)
    (hbs : ∀ b ∈ bs, x < b.addr ∨ b.addr + 24 ≤ x) :
    (mallocLink h n (lastAddr bs) block).mem x = h.mem x := by
  have hnew : setNext (setFree (setSize h.mem block (sub64 (chunkSize n) hdrLen)) block false)
    block 0 x
      = h.mem x := by
    rw [setNext_out hb, setFree_out hb, setSize_out hb]
  rw [mallocLink_eq]
  dsimp only
  split
  · next hne =>
    obtain ⟨b, hbm, hba⟩ := lastAddr_mem hne
    rw [setNext_out (hba ▸ hbs b hbm), hnew]
  · exact hnew

/-- The two blocks a block in use is split into, `n` bytes for the first. -/
def Block.front (b : Block) (n : Nat) : Block := { b with size := n }

def Block.rest (b : Block) (n : Nat) : Block := ⟨b.addr + 24 + n, b.size - n - 24, true, b.home⟩

theorem Laid.split {own : List MapRange} {n : Nat} (hl : Laid own (bs ++ [b]))
    (hn : n + 24 ≤ b.size) :
    Laid own (bs ++ [b.front n, b.rest n]) := by
  have h1 : (b.front n).lim = (b.rest n).addr := rfl
  have h2 : (b.rest n).lim = b.lim := by
    unfold Block.lim Block.rest
    dsimp only
    omega
  have h3 : (b.front n).lim ≤ b.lim := by
    unfold Block.lim Block.front
    dsimp only
    omega
  have h4 : b.addr ≤ (b.rest n).addr := by
    unfold Block.rest
    dsimp only
    omega
  obtain ⟨hxs, _, hxb⟩ := List.pairwise_append.mp hl.apart
  refine ⟨fun c hc => ?_, ?_, ?_⟩
  · have hb := hl.inside b (List.mem_append_right _ List.mem_cons_self)
    rcases List.mem_append.mp hc with hc | hc
    · exact hl.inside c (List.mem_append_left _ hc)
    · rcases List.mem_cons.mp hc with rfl | hc
      · exact ⟨hb.1, hb.2.1, Nat.le_trans h3 hb.2.2⟩
      · cases List.mem_singleton.mp hc
        exact ⟨hb.1, Nat.le_trans hb.2.1 h4, h2 ▸ hb.2.2⟩
  · refine List.pairwise_append.mpr ⟨hxs, ?_, fun c hc d hd => ?_⟩
    · exact List.pairwise_pair.mpr (Or.inl (Nat.le_of_eq h1))
    · have hcb := hxb c hc b List.mem_cons_self
      unfold Block.Apart at hcb ⊢
      have h5 : (b.front n).addr = b.addr := rfl
      rcases List.mem_cons.mp hd with rfl | hd
      · omega
      · cases List.mem_singleton.mp hd
        omega
  · obtain ⟨hx, _, hb⟩ := List.isChain_append.mp hl.meets
    refine List.isChain_append.mpr ⟨hx, List.isChain_pair.mpr fun _ => h1, fun c hc d hd => ?_⟩
    cases hd
    exact hb c hc b rfl

theorem mallocSplit_obtained (n block : Nat) : (mallocSplit h n block).obtained = h.obtained := by
  unfold mallocSplit
  split <;> rfl

/-- Splitting writes to the block that is split. -/
theorem mallocSplit_out {n block x : Nat} (hn : n ≤ size h.mem block)
    (hlim : block + 24 + size h.mem block < 2 ^ 64) (hw : n + 32 < 2 ^ 64)
    (hx : x < block ∨ block + 24 + size h.mem block ≤ x) : (mallocSplit h n block).mem x
      = h.mem x := by
  unfold mallocSplit
  split
  · next hgt =>
    rw [u64_of_lt (by unfold hdrLen; omega)] at hgt
    have hnext : u64 (block + hdrLen + n) = block + 24 + n := u64_of_lt (by unfold hdrLen; omega)
    unfold hdrLen at hgt
    dsimp only
    rw [hnext, setNext_out (by omega), setSize_out (by omega), setNext_out (by omega),
      setFree_out (by omega),
      setSize_out (by omega)]
  · rfl

/-- The last block, split when enough is left over. -/
theorem Rep.split {n : Nat} (hr : Rep h (bs ++ [b])) (hn : n ≤ b.size) (hw : n + 32 < 2 ^ 64) :
    ∃ b' rest, Rep (mallocSplit h n b.addr) (bs ++ b' :: rest) ∧ b'.addr = b.addr ∧ b'.free = b.free
      ∧ n ≤ b'.size ∧ rest.length ≤ 1 ∧ ∀ c ∈ rest, c.free = true := by
  have hb : b ∈ bs ++ [b] := List.mem_append_right _ List.mem_cons_self
  obtain ⟨hhome, _, hlim⟩ := hr.laid.inside b hb
  have hlt := hr.lim_lt _ hhome
  obtain ⟨e, hx, hb1, hb2, hb3, hb4, hb5⟩ := chain_append.mp hr.chain
  subst hb1
  unfold mallocSplit
  split
  · next hgt =>
    have hroom : n + 24 ≤ b.size := by
      rw [u64_of_lt (by unfold hdrLen; omega), hb3] at hgt
      unfold hdrLen at hgt
      omega
    -- enough is left for a block of its own
    have hlaid := hr.laid.split hroom
    unfold Block.lim at hlim
    have haddr : u64 (b.addr + hdrLen + n) = (b.rest n).addr := u64_of_lt (by unfold hdrLen; omega)
    have hsize : sub64 (sub64 (size h.mem b.addr) n) hdrLen = (b.rest n).size := by
      rw [hb3, sub64_of_le hn (by omega)]
      exact sub64_of_le (by unfold hdrLen; omega) (by omega)
    have ha : (b.rest n).addr = b.addr + 24 + n := rfl
    have hs : (b.rest n).size = b.size - n - 24 := rfl
    refine ⟨b.front n, [b.rest n], ⟨hr.nonzero, hr.lim_lt, hr.ranges, hlaid, ?_⟩, rfl, rfl,
      Nat.le_refl _,
      Nat.le_refl _, fun c hc => by cases List.mem_singleton.mp hc; rfl⟩
    -- the header behind is written first, and the one in front is not touched by it
    have hbr : SameHdr h.mem (setFree (setSize h.mem (b.rest n).addr (b.rest n).size)
      (b.rest n).addr
        true) b.addr := fun x h1 h2 => by
      rw [setFree_out (by omega), setSize_out (by omega)]
    dsimp only
    rw [haddr, hsize, hbr.next_eq, show next h.mem b.addr = 0 from hb5]
    have hrest := chain_written (b := b.rest n) h.mem (e := 0) (by omega) (by omega) (by decide)
    have hfront : SameHdr h.mem (setNext (setFree (setSize h.mem (b.rest n).addr (b.rest n).size)
        (b.rest n).addr true) (b.rest n).addr 0) b.addr := sameHdr_written (by omega)
    generalize hm : setNext (setFree (setSize h.mem (b.rest n).addr (b.rest n).size)
        (b.rest n).addr true) (b.rest n).addr 0 = m at hfront ⊢
    rw [show (b.rest n).free = true from rfl, hm] at hrest
    have hout : ∀ x, x < b.addr ∨ b.addr + 24 ≤ x →
        setNext (setSize m b.addr n) b.addr (b.rest n).addr x = m x := fun x hx => by
      rw [setNext_out hx, setSize_out hx]
    refine chain_append.mpr ⟨b.addr, chain_congr (fun c hc x h1 h2 => ?_) hx, rfl, hb2, ?_, ?_, ?_⟩
    · have hap := (List.pairwise_append.mp hr.laid.apart).2.2 c hc b List.mem_cons_self
      unfold Block.Apart Block.lim at hap
      rw [hout x (by omega), ← hm, setNext_out (by omega), setFree_out (by omega),
        setSize_out (by omega)]
    · rw [size_setNext, size_setSize (by omega)]
      rfl
    · rw [isFree_setNext, isFree_setSize, hfront.isFree_eq]
      exact hb4
    · rw [next_setNext (by omega)]
      refine chain_congr (fun c hc x h1 h2 => hout x (Or.inr ?_)) hrest
      cases List.mem_singleton.mp hc
      omega
  · exact ⟨b, [], hr, rfl, rfl, hn, Nat.zero_le _, fun c hc => absurd hc List.not_mem_nil⟩

end Rep

end Libc

end VnlKernel
