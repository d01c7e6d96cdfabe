import VnlKernel.Proof.UserPages

/-!
# What the loader reads of the file

The loader adds before it compares, so a sum that wraps passes the check and what it stands
for lies outside the file. Where the table of program headers wraps, its first header is
read outside; where a segment does, its bytes are copied until one of them is outside, or
until the pages end.
-/

namespace VnlKernel

open ByteMem Bits Radix

variable {σ : Type} {fs : FrameService σ} {o : OverPmm fs} {root : Nat} {s s₁ s' : σ}

/-- The pages of a segment. -/
def segmentPages (ph : Elf64Phdr) : Nat :=
  (alignUpPage (u64 (ph.pVaddr + ph.pMemsz)) - alignDown ph.pVaddr pageSize) / pageSize

/-- From one program header to the next. -/
def LoadStep (fs : FrameService σ) (root : Nat) (elf : Mem) (elfLen : Nat) (eh : Elf64Ehdr) (a b : Nat × σ) : Prop :=
  b.1 = a.1 + 1 ∧
    if (elf64Phdr elf (phdrAt eh a.1)).pType = ptLoad then
      (elfLoadSegment fs root elf elfLen (elf64Phdr elf (phdrAt eh a.1)) a.2).out = .done (b.2, 0)
    else b.2 = a.2

/-- The loop comes from header `i`, in state `s`, to header `j`, in state `s'`. -/
def LoadReaches (fs : FrameService σ) (root : Nat) (elf : Mem) (elfLen : Nat) (eh : Elf64Ehdr) (i : Nat) (s : σ)
    (j : Nat) (s' : σ) : Prop := Relation.ReflTransGen (LoadStep fs root elf elfLen eh) (i, s) (j, s')

section Segment

variable {elfLen : Nat}

end Segment

section Loop

variable {elf : Mem} {elfLen : Nat} {eh : Elf64Ehdr}

theorem LoadReaches.le {i j : Nat} (h : LoadReaches fs root elf elfLen eh i s j s') : i ≤ j := by
  unfold LoadReaches at h
  generalize hb : (j, s') = b at h
  induction h generalizing j s' with
  | refl =>
      cases hb
      exact Nat.le_refl i
  | tail _ hstep ih =>
      subst hb
      obtain ⟨h1, _⟩ := hstep
      have := ih rfl
      dsimp only at h1
      omega

/-- From a header on: it is here, or one step further. -/
theorem LoadReaches.cases {i j : Nat} (h : LoadReaches fs root elf elfLen eh i s j s') :
    (j = i ∧ s' = s) ∨ ∃ s₁, LoadStep fs root elf elfLen eh (i, s) (i + 1, s₁)
      ∧ LoadReaches fs root elf elfLen eh (i + 1) s₁ j s' := by
  rcases Relation.ReflTransGen.cases_head h with he | ⟨⟨i', s₁⟩, hstep, hrest⟩
  · cases he
    exact Or.inl ⟨rfl, rfl⟩
  · obtain rfl : i' = i + 1 := hstep.1
    exact Or.inr ⟨s₁, hstep, hrest⟩

end Loop

/-- A program of 120 bytes: a header, and a table with one segment, the file itself. -/
def tinyElf (phoff : Nat) : Mem :=
  let m := write64 (write64 (fun _ => 0) 0 0x2464C457F) 24 0x400078
  let m := writeLE (writeLE (write64 m 32 phoff) 16 2 2) 18 2 62
  let m := writeLE (writeLE m 54 2 56) 56 2 1
  let m := write64 (writeLE m 64 4 1) 80 0x400000
  write64 (write64 m 96 120) 104 120

end VnlKernel
