import VnlKernel.Types

/-!
# Error numbers and C integers

`include/errno.h`, and the conversions between the integer types that the system
call layer mixes freely: results are 32-bit `int`s, lengths are 64-bit and unsigned.
-/

namespace VnlKernel

/-- A C string: the bytes before the terminating zero. -/
abbrev CStr := List UInt8

/-- ASCII text as a C string. -/
def cstr (s : String) : CStr := s.toList.map fun c => UInt8.ofNat c.toNat

/-- `(int)n` for an unsigned `n`. -/
def toInt32 (n : Nat) : Int :=
  if n % 2 ^ 32 < 2 ^ 31 then (n % 2 ^ 32 : Nat) else ((n % 2 ^ 32 : Nat) : Int) - 2 ^ 32

/-- `(uint32_t)i`. -/
def toU32 (i : Int) : Nat := (i % 2 ^ 32).toNat

/-- `(size_t)i`. -/
def toU64 (i : Int) : Nat := (i % 2 ^ 64).toNat

/-- `(int64_t)n` for an unsigned `n`. -/
def toInt64 (n : Nat) : Int :=
  if n % 2 ^ 64 < 2 ^ 63 then (n % 2 ^ 64 : Nat) else ((n % 2 ^ 64 : Nat) : Int) - 2 ^ 64

def eperm : Int := 1
def enoent : Int := 2
def eio : Int := 5
def e2big : Int := 7
def enoexec : Int := 8
def ebadf : Int := 9
def eagain : Int := 11
def enomem : Int := 12
def efault : Int := 14
def eexist : Int := 17
def enodev : Int := 19
def enotdir : Int := 20
def einval : Int := 22
def emfile : Int := 24
def enotty : Int := 25
def efbig : Int := 27
def erange : Int := 34
def eaddrinuse : Int := 98
def enotconn : Int := 107
def econnrefused : Int := 111

theorem toInt32_of_lt {n : Nat} (h : n < 2 ^ 31) : toInt32 n = n := by
  unfold toInt32
  rw [Nat.mod_eq_of_lt (by omega), if_pos h]

theorem toU32_natCast {n : Nat} (h : n < 2 ^ 32) : toU32 n = n := by
  unfold toU32
  omega

end VnlKernel
