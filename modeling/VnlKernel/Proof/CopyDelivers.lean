import VnlKernel.Kernel.CopyOut
import VnlKernel.Proof.UaccessExact
import VnlKernel.Proof.UserPages

/-!
# What copying out delivers

`vnl_copy_to_user_va` stores byte after byte, and ends at the first address that leads
nowhere, without a word to its caller. It asks for an address only, not whether the program
may write there. As long as no byte lands on an entry that one of its own walks reads, where
the bytes go is known from the tables as they are before: the copy is an initial part of the
object, each byte at its place, and of several bytes with one place the last remains.
-/

namespace VnlKernel

open ByteMem Bits Radix

/-- The entries that a walk to `virt` reads. -/
def walkSlots (phys : Mem) (virt : Nat) : Nat → Nat → List Nat
  | 0, table => [entryAt table (ptIdx virt)]
  | level + 1, table =>
      let slot := entryAt table (levelIdx (level + 1) virt)
      let entry := read64 phys slot
      slot :: if !isPresent entry || stopsAt (level + 1) entry then []
        else walkSlots phys virt level (alignDown entry pageSize)

section Walk

variable {m m' : Mem} {virt : Nat}

end Walk

/-! ## Bytes at places -/

/-- The memory after `k` bytes of `b` have been stored, each at its place. -/
def stored (m : Mem) (place : Nat → Nat) (b : Nat → UInt8) : Nat → Mem
  | 0 => m
  | k + 1 => setByte (stored m place b k) (place k) (b k)

section Stored

variable (m : Mem) (place : Nat → Nat) (b : Nat → UInt8)

end Stored

/-! ## The copy -/

section Copy

variable {σ : Type} {fs : FrameService σ} {m m' : Mem} {root dst n : Nat} {b : Nat → UInt8}

/-- No byte lands on an entry that the walk to some byte reads. -/
def ClearOfTables (m : Mem) (root dst n : Nat) : Prop :=
  ∀ i j, i < n → j < n → ∀ slot ∈ walkSlots m (u64 (dst + i)) 3 root,
    userPhys m root dst j < slot ∨ slot + 8 ≤ userPhys m root dst j

end Copy

section Delivers

variable {m : Mem} {root dst k : Nat} {object : List UInt8}

end Delivers

section Calls

variable {σ : Type} {fs : FrameService σ}

/-- A whole call: how it came to its copy, and what it returned. It returns nothing while it is
asleep. -/
def OutCall.run (fs : FrameService σ) (fuel : Nat) (junk : StackBytes) (eps : Epolls) (cr3Phys : Nat) (n : Net σ)
    (call : OutCall) : Outcome (Option (CopyOut σ × Net σ × Int)) := do
  match ← call.start fs fuel junk eps cr3Phys n with
  | none => return none
  | some c =>
      let (n', r) ← c.finish fs cr3Phys
      return some (c, n', r)

end Calls

/-! ## Pages apart from tables -/

section Apart

variable {σ : Type} {fs : FrameService σ} {o : OverPmm fs} {s : σ} {root : Nat}

/-- A walk reads entries of tables. -/
theorem walkSlots_table {m : Mem} {virt : Nat} : ∀ {level table : Nat} {p : List (Fin 512)},
    p.length + level = 3 →
    route virt 3 = p ++ route virt level → tableAt m root p = some table →
    ∀ slot ∈ walkSlots m virt level table, ∃ q t i, q.length ≤ 3 ∧ i < 512
      ∧ tableAt m root q = some t ∧ slot = entryAt t i := by
  intro level
  induction level with
  | zero =>
      intro table p hlen _ htable slot hslot
      rw [List.mem_singleton.mp hslot, ptIdx_eq]
      exact ⟨p, table, _, by omega, Fin.isLt _, htable, rfl⟩
  | succ level ih =>
      intro table p hlen hroute htable slot hslot
      rw [walkSlots] at hslot
      rw [levelIdx_eq (Nat.succ_pos _) (by omega)] at hslot
      rcases List.mem_cons.mp hslot with rfl | hrest
      · exact ⟨p, table, _, by omega, Fin.isLt _, htable, rfl⟩
      · have hnext : route virt 3 = (p ++ [levelFin (level + 1) virt]) ++ route virt level := by
          rw [hroute, route, List.append_assoc]
          rfl
        cases hgo : !isPresent (read64 m (entryAt table (levelFin (level + 1) virt)))
            || stopsAt (level + 1) (read64 m (entryAt table (levelFin (level + 1) virt))) with
        | true =>
            rw [hgo, if_pos rfl] at hrest
            cases hrest
        | false =>
            rw [hgo, if_neg Bool.false_ne_true] at hrest
            refine ih ?_ hnext ?_ slot hrest
            · rw [List.length_append, List.length_singleton]
              omega
            · rw [tableAt_snoc, entryOn_some htable, Option.bind_some,
                show 3 - p.length = level + 1 by omega, hgo]
              rfl

/-- **Where no page is on a frame of a table**, nothing that is copied lands on one. -/
theorem PagesApart.clear (hp : PagesApart o s root) (hs : Space o s root) (dst n : Nat) :
    ClearOfTables (fs.phys s) root dst n := by
  intro i j _ _ slot hslot
  have hroot : tableAt (fs.phys s) root [] = some root := rfl
  obtain ⟨q, t, k, hq, hk, ht, rfl⟩ := walkSlots_table rfl rfl hroot slot hslot
  have hframe := hs.isFrame hq ht
  rw [entryAt_eq hframe hk]
  obtain ⟨hal, hne, _⟩ := hframe
  by_cases h0 : userPhys (fs.phys s) root dst j = 0
  · omega
  · obtain ⟨frame, htaken, hnone, hplace⟩ := lookup_frame hs hp h0
    have hne' : frame ≠ t := fun hc => hnone q hq (hc ▸ ht)
    have hal' := (htaken.isFrame hs.inv).1
    unfold userPhys
    rw [hplace]
    rw [show pageSize = 4096 from rfl] at *
    omega

theorem PageUsable.present {m : Mem} {root v : Nat} (h : PageUsable m root v) :
    isPresent (pageEntry m root v) = true := by
  have hbit : pageEntry m root v &&& vmmFlagPresent = vmmFlagPresent := by
    rw [show vmmFlagPresent = userPageFlags &&& vmmFlagPresent from rfl, ← Nat.and_assoc, h]
  unfold isPresent
  rw [hbit]
  decide

end Apart

/-! ## A pair of sockets -/

end VnlKernel
