import VnlKernel.Mm.Vmm

/-!
# Strings from user memory: `src/kernel/uaccess.c`

The system calls take paths by address. `copy_user_cstring` looks every byte's address up in
the caller's page tables and reads it through the identity map, which ends at 4 GiB.
-/

namespace VnlKernel

open ByteMem Bits

/-- Where the identity map ends. -/
def identityEnd : Nat := 0x100000000

/-- The loop of `copy_user_cstring`, with `n` turns left. -/
def copyUserLoop (phys : Mem) (cr3Phys uva outCap : Nat) : Nat → Nat → Mem → Int × Mem
  | 0, _, out => (-e2big, setByte out (outCap - 1) 0)
  | n + 1, i, out =>
      let pa := vmmLookupPhysPml4 phys cr3Phys (u64 (uva + i))
      if pa = 0 then (-efault, out)
      else if identityEnd ≤ pa then (-efault, out)
      else
        let c := phys pa
        let out := setByte out i c
        if c = 0 then (0, out) else copyUserLoop phys cr3Phys uva outCap n (i + 1) out

/-- `copy_user_cstring`: the result, and the array it was given afterwards. No caller passes `NULL`.
-/
def copyUserCstring (phys : Mem) (cr3Phys userPtr : Nat) (out : Mem) (outCap : Nat) : Int × Mem :=
  if outCap < 2 then (-einval, out)
  else copyUserLoop phys cr3Phys userPtr outCap (outCap - 1) 0 out

end VnlKernel
