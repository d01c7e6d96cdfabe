import Mathlib.Algebra.Order.Ring.Nat
import Mathlib.Data.Nat.Bitwise
import Mathlib.Tactic.Ring

/-!
# Byte-addressed memory

A memory is a total map from addresses to bytes. Everything a C program does to
memory comes down to two shapes of access: a little-endian word of some width,
and a run of bytes that is filled or copied.

Each operation gets the same two facts, and nothing later unfolds them again:
what it leaves **inside** its own range, and that it leaves everything
**outside** that range alone.
-/

namespace ByteMem

/-- A memory: one byte at every address. -/
abbrev Mem := Nat → UInt8

/-- The little-endian word of `n` bytes at `a`. -/
def readLE (m : Mem) (a : Nat) : Nat → Nat
  | 0 => 0
  | n + 1 => (m a).toNat + 256 * readLE m (a + 1) n

/-- Store the low `n` bytes of `v`, little-endian, at `a`. -/
def writeLE (m : Mem) (a n v : Nat) : Mem :=
  fun x => if a ≤ x ∧ x < a + n then UInt8.ofNat (v / 256 ^ (x - a)) else m x

/-- A 64-bit load. -/
def read64 (m : Mem) (a : Nat) : Nat := readLE m a 8

/-- A 64-bit store. -/
def write64 (m : Mem) (a v : Nat) : Mem := writeLE m a 8 v

/-- Store one byte. -/
def setByte (m : Mem) (a : Nat) (c : UInt8) : Mem := fun x => if x = a then c else m x

/-- Fill `n` bytes at `a` with `c`. -/
def memset (m : Mem) (a : Nat) (c : UInt8) (n : Nat) : Mem :=
  fun x => if a ≤ x ∧ x < a + n then c else m x

/-- Copy `n` bytes from `s` to `d`, lowest address first. -/
def memcpy (m : Mem) (d s : Nat) : Nat → Mem
  | 0 => m
  | n + 1 => memcpy (setByte m d (m s)) (d + 1) (s + 1) n

/-- Copy `n` bytes from `s` to `d`, highest address first. -/
def memcpyDown (m : Mem) (d s : Nat) : Nat → Mem
  | 0 => m
  | n + 1 => memcpyDown (setByte m (d + n) (m (s + n))) d s n

/-- Move `n` bytes from `s` to `d`: in the direction in which none is overwritten before it is
copied. -/
def memmove (m : Mem) (d s n : Nat) : Mem := if d < s then memcpy m d s n else memcpyDown m d s n

/-- The bytes from `p` on are `s`. -/
def BytesAt (m : Mem) : Nat → List UInt8 → Prop
  | _, [] => True
  | p, c :: s => m p = c ∧ BytesAt m (p + 1) s

/-! ## Words -/

theorem readLE_congr {m m' : Mem} : ∀ (n a : Nat),
    (∀ x, a ≤ x → x < a + n → m' x = m x) → readLE m' a n = readLE m a n
  | 0, _, _ => rfl
  | n + 1, a, h => by
      rw [readLE, readLE, h a (Nat.le_refl _) (by omega)]
      rw [readLE_congr n (a + 1) (fun x h1 h2 => h x (by omega) (by omega))]

theorem readLE_lt (m : Mem) : ∀ (n a : Nat), readLE m a n < 256 ^ n
  | 0, _ => by simp [readLE]
  | n + 1, a => by
      have h1 := readLE_lt m n (a + 1)
      have h2 := (m a).toNat_lt
      rw [readLE, Nat.pow_succ]
      omega

theorem writeLE_out {m : Mem} {a n v x : Nat} (h : x < a ∨ a + n ≤ x) :
    writeLE m a n v x = m x := by
  unfold writeLE
  rw [if_neg (by omega)]

theorem writeLE_in {m : Mem} {a n v i : Nat} (h : i < n) :
    writeLE m a n v (a + i) = UInt8.ofNat (v / 256 ^ i) := by
  unfold writeLE
  rw [if_pos (by omega), Nat.add_sub_cancel_left]

/-- Reading back any aligned slice of a stored word. -/
theorem readLE_writeLE_slice (m : Mem) (a n v : Nat) : ∀ (k i : Nat), i + k ≤ n →
    readLE (writeLE m a n v) (a + i) k = v / 256 ^ i % 256 ^ k
  | 0, _, _ => by simp [readLE, Nat.mod_one]
  | k + 1, i, h => by
      rw [readLE, writeLE_in (by omega), Nat.add_assoc a i 1,
        readLE_writeLE_slice m a n v k (i + 1) (by omega)]
      have hb : (UInt8.ofNat (v / 256 ^ i)).toNat = v / 256 ^ i % 256 := by
        simp [UInt8.toNat_ofNat']
      rw [hb, Nat.pow_succ 256 i, ← Nat.div_div_eq_div_mul, Nat.pow_succ 256 k,
        Nat.mul_comm (256 ^ k) 256, Nat.mod_mul]

theorem readLE_zeros : ∀ n a : Nat, readLE (fun _ => 0) a n = 0
  | 0, _ => rfl
  | n + 1, a => by
      rw [readLE, readLE_zeros n]
      rfl

theorem readLE_writeLE_same (m : Mem) (a n v : Nat) :
    readLE (writeLE m a n v) a n = v % 256 ^ n := by
  have h := readLE_writeLE_slice m a n v n 0 (by omega)
  simpa using h

theorem readLE_writeLE_disj {m : Mem} {a n v b k : Nat} (h : b + k ≤ a ∨ a + n ≤ b) :
    readLE (writeLE m a n v) b k = readLE m b k :=
  readLE_congr k b (fun _ _ _ => writeLE_out (by omega))

/-! ## 64-bit words -/

theorem read64_lt (m : Mem) (a : Nat) : read64 m a < 2 ^ 64 := readLE_lt m 8 a

theorem read64_congr {m m' : Mem} {a : Nat} (h : ∀ x, a ≤ x → x < a + 8 → m' x = m x) :
    read64 m' a = read64 m a := readLE_congr 8 a h

theorem read64_write64_same {m : Mem} {a v : Nat} (hv : v < 2 ^ 64) :
    read64 (write64 m a v) a = v := by
  unfold read64 write64
  rw [readLE_writeLE_same]
  exact Nat.mod_eq_of_lt hv

theorem read64_write64_disj {m : Mem} {a b v : Nat} (h : b + 8 ≤ a ∨ a + 8 ≤ b) :
    read64 (write64 m a v) b = read64 m b := readLE_writeLE_disj h

theorem write64_out {m : Mem} {a v x : Nat} (h : x < a ∨ a + 8 ≤ x) :
    write64 m a v x = m x := writeLE_out h

/-! ## Runs of bytes -/

theorem setByte_self (m : Mem) (a : Nat) (c : UInt8) : setByte m a c a = c := if_pos rfl

theorem setByte_ne {m : Mem} {a x : Nat} {c : UInt8} (h : x ≠ a) : setByte m a c x = m x :=
  if_neg h

/-- One turn of the fill loop. -/
theorem memset_succ (m : Mem) (a : Nat) (c : UInt8) (n : Nat) :
    memset m a c (n + 1) = memset (setByte m a c) (a + 1) c n := by
  funext x
  unfold memset setByte
  by_cases hx : x = a
  · subst hx; simp
  · rw [if_neg hx]
    by_cases h : a + 1 ≤ x ∧ x < a + 1 + n
    · rw [if_pos h, if_pos (by omega)]
    · rw [if_neg h, if_neg (by omega)]

theorem memset_in {m : Mem} {a n x : Nat} {c : UInt8} (h : a ≤ x) (h' : x < a + n) :
    memset m a c n x = c := if_pos ⟨h, h'⟩

theorem memset_out {m : Mem} {a n x : Nat} {c : UInt8} (h : x < a ∨ a + n ≤ x) :
    memset m a c n x = m x := if_neg (by omega)

theorem readLE_memset_zero {m : Mem} {a n : Nat} : ∀ (k b : Nat), a ≤ b → b + k ≤ a + n →
    readLE (memset m a 0 n) b k = 0
  | 0, _, _, _ => rfl
  | k + 1, b, h1, h2 => by
      rw [readLE, memset_in h1 (by omega), readLE_memset_zero k (b + 1) (by omega) (by omega)]
      rfl

theorem memcpy_out : ∀ (n d s : Nat) {m : Mem} {x : Nat}, x < d ∨ d + n ≤ x →
    memcpy m d s n x = m x
  | 0, _, _, _, _, _ => rfl
  | n + 1, d, s, m, x, h => by
      rw [memcpy, memcpy_out n (d + 1) (s + 1) (by omega), setByte_ne (by omega)]

/-- A copy downwards reproduces the source. -/
theorem memcpy_below : ∀ (n d s : Nat) {m : Mem} {i : Nat}, i < n → d ≤ s
    → memcpy m d s n (d + i) = m (s + i)
  | 0, _, _, _, _, h, _ => absurd h (Nat.not_lt_zero _)
  | n + 1, d, s, m, i, h, hle => by
      rw [memcpy]
      cases i with
      | zero =>
          rw [memcpy_out n (d + 1) (s + 1) (by omega)]
          exact setByte_self m d (m s)
      | succ i =>
          rw [show d + (i + 1) = d + 1 + i by omega, show s + (i + 1) = s + 1 + i by omega,
            memcpy_below n (d + 1) (s + 1) (by omega) (by omega)]
          exact setByte_ne (by omega)

theorem memcpyDown_out : ∀ (n d s : Nat) {m : Mem} {x : Nat}, x < d ∨ d + n ≤ x
    → memcpyDown m d s n x = m x
  | 0, _, _, _, _, _ => rfl
  | n + 1, d, s, m, x, h => by
      rw [memcpyDown, memcpyDown_out n d s (by omega), setByte_ne (by omega)]

/-- A copy upwards reproduces the source. -/
theorem memcpyDown_above : ∀ (n d s : Nat) {m : Mem} {i : Nat}, i < n → s ≤ d
    → memcpyDown m d s n (d + i) = m (s + i)
  | 0, _, _, _, _, h, _ => absurd h (Nat.not_lt_zero _)
  | n + 1, d, s, m, i, h, hle => by
      rw [memcpyDown]
      by_cases hi : i = n
      · rw [hi, memcpyDown_out n d s (by omega)]
        exact setByte_self m (d + n) (m (s + n))
      · rw [memcpyDown_above n d s (by omega) hle]
        exact setByte_ne (by omega)

/-- **Moving reproduces the source**, however the ranges lie. -/
theorem memmove_in {m : Mem} {d s n i : Nat} (h : i < n) : memmove m d s n (d + i) = m (s + i) := by
  rw [memmove]
  split
  · next hlt => exact memcpy_below n d s h (Nat.le_of_lt hlt)
  · next hge => exact memcpyDown_above n d s h (Nat.le_of_not_lt hge)

theorem memmove_out {m : Mem} {d s n x : Nat} (h : x < d ∨ d + n ≤ x) :
    memmove m d s n x = m x := by
  rw [memmove]
  split
  · exact memcpy_out n d s h
  · exact memcpyDown_out n d s h

/-- A copy between disjoint ranges reproduces the source. -/
theorem memcpy_in : ∀ (n d s : Nat) {m : Mem} {i : Nat}, i < n → d + n ≤ s ∨ s + n ≤ d →
    memcpy m d s n (d + i) = m (s + i)
  | 0, _, _, _, _, h, _ => absurd h (Nat.not_lt_zero _)
  | n + 1, d, s, m, i, h, hd => by
      rw [memcpy]
      cases i with
      | zero => rw [memcpy_out n (d + 1) (s + 1) (by omega)]; exact setByte_self m d (m s)
      | succ i =>
          rw [show d + (i + 1) = d + 1 + i by omega, show s + (i + 1) = s + 1 + i by omega,
            memcpy_in n (d + 1) (s + 1) (by omega) (by omega)]
          exact setByte_ne (by omega)

/-! ## Runs of bytes -/

theorem bytesAt_append {m : Mem} {t : List UInt8} : ∀ {s : List UInt8} {p : Nat},
    BytesAt m p (s ++ t) ↔ BytesAt m p s ∧ BytesAt m (p + s.length) t
  | [], p => ⟨fun h => ⟨trivial, h⟩, fun h => h.2⟩
  | c :: s, p => by
      rw [List.cons_append, BytesAt, BytesAt, bytesAt_append, List.length_cons, and_assoc,
        show p + 1 + s.length = p + (s.length + 1) by omega]

/-- The run may be elsewhere in the other memory. -/
theorem BytesAt.moved {m m' : Mem} : ∀ {s : List UInt8} {p q : Nat}, BytesAt m p s →
    (∀ i, i < s.length → m' (q + i) = m (p + i)) → BytesAt m' q s
  | [], _, _, _, _ => trivial
  | c :: s, p, q, h, he => by
      refine ⟨(he 0 (by simp)).trans h.1, h.2.moved fun i hi => ?_⟩
      have hi' := he (i + 1) (by simpa using hi)
      rwa [show q + (i + 1) = q + 1 + i by omega, show p + (i + 1) = p + 1 + i by omega] at hi'

theorem BytesAt.congr {m m' : Mem} {s : List UInt8} {p : Nat} (h : BytesAt m p s)
    (he : ∀ x, p ≤ x → x < p + s.length → m' x = m x) : BytesAt m' p s :=
  h.moved fun i hi => he (p + i) (by omega) (by omega)

end ByteMem
