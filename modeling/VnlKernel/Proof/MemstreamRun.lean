import VnlKernel.Lib.RingBuf
import VnlKernel.Libc.Memstream
import VnlKernel.Proof.MallocRun

/-!
# Runs of a program with a memory stream

A stream owns two allocations, its `FILE` and its buffer, and writes to two variables of
the program. The program goes on beside it: it allocates and frees, maps memory of its
own, and stores to what it owns.

Where bytes go comes first. The two allocations and the two variables lie apart, as long
as no pass of `free` joins blocks of two ranges (`malloc_disjoint`). What the bytes mean
is then a matter of each call: `fwrite` puts the new bytes behind the old ones, wherever
`realloc` has taken these.
-/

namespace VnlKernel.Libc

open ByteMem Bits

/-! ## The fields of a `FILE` -/

@[ext] structure FileFields where
  bufPtr : Nat
  sizePtr : Nat
  buf : Nat
  cap : Nat
  len : Nat
  isMemstream : Bool

/-- What the fields of the `FILE` at `f` are. -/
def fields (m : Mem) (f : Nat) : FileFields :=
  ⟨File.bufPtr m f, File.sizePtr m f, File.buf m f, File.cap m f, File.len m f, File.isMemstream m f⟩

section Fields

variable {m m' : Mem} {f v x : Nat} {b : Bool}

theorem fields_eq {bufPtr sizePtr buf cap len : Nat} :
    fields m f = ⟨bufPtr, sizePtr, buf, cap, len, b⟩ ↔
    File.bufPtr m f = bufPtr ∧ File.sizePtr m f = sizePtr ∧ File.buf m f = buf ∧ File.cap m f = cap
      ∧ File.len m f = len ∧ File.isMemstream m f = b := by
  rw [fields, FileFields.mk.injEq]

/-- The fields lie behind the descriptor. -/
theorem fields_behind (h : ∀ x, f + 8 ≤ x → x < f + 56 → m' x = m x) :
    fields m' f = fields m f := by
  have hword : ∀ k, 8 ≤ k → k + 8 ≤ 56 → read64 m' (f + k) = read64 m (f + k) := fun k h8 hk =>
    read64_congr fun x h1 h2 => h x (by omega) (by omega)
  have hint : File.isMemstream m' f = File.isMemstream m f := by
    unfold File.isMemstream
    rw [readLE_congr 4 (f + 48) fun x h1 h2 => h x (by omega) (by omega)]
  exact FileFields.ext (hword 8 (by omega) (by omega)) (hword 16 (by omega) (by omega))
    (hword 24 (by omega) (by omega))
    (hword 32 (by omega) (by omega)) (hword 40 (by omega) (by omega)) hint

theorem fields_congr (h : ∀ x, f ≤ x → x < f + 56 → m' x = m x) : fields m' f = fields m f :=
  fields_behind fun x h1 h2 => h x (by omega) h2

/-- Words that lie eight bytes apart. -/
theorem read64_word (hv : v < 2 ^ 64) (i j : Nat) :
    read64 (write64 m (f + 8 * i) v) (f + 8 * j) = if j = i then v else read64 m (f + 8 * j) := by
  split
  · next h => rw [h, read64_write64_same hv]
  · next h => exact read64_write64_disj (by omega)

/-- A store to one of the words changes that field. -/
theorem fields_write64 (hv : v < 2 ^ 64) (i : Nat) (hi : i ≤ 5) :
    fields (write64 m (f + 8 * i) v) f =
    ⟨if 1 = i then v else File.bufPtr m f, if 2 = i then v else File.sizePtr m f,
      if 3 = i then v else File.buf m f,
      if 4 = i then v else File.cap m f, if 5 = i then v else File.len m f,
        File.isMemstream m f⟩ := by
  have hint : File.isMemstream (write64 m (f + 8 * i) v) f = File.isMemstream m f := by
    unfold File.isMemstream write64
    rw [readLE_writeLE_disj (Or.inr (by omega))]
  exact FileFields.ext (read64_word hv i 1) (read64_word hv i 2) (read64_word hv i 3)
    (read64_word hv i 4)
    (read64_word hv i 5) hint

theorem fields_setBufPtr (hv : v < 2 ^ 64) :
    fields (File.setBufPtr m f v) f = { fields m f with bufPtr := v } :=
  fields_write64 hv 1 (by omega)

theorem fields_setSizePtr (hv : v < 2 ^ 64) :
    fields (File.setSizePtr m f v) f = { fields m f with sizePtr := v } :=
  fields_write64 hv 2 (by omega)

theorem fields_setBuf (hv : v < 2 ^ 64) :
    fields (File.setBuf m f v) f = { fields m f with buf := v } :=
  fields_write64 hv 3 (by omega)

theorem fields_setCap (hv : v < 2 ^ 64) :
    fields (File.setCap m f v) f = { fields m f with cap := v } :=
  fields_write64 hv 4 (by omega)

theorem fields_setLen (hv : v < 2 ^ 64) :
    fields (File.setLen m f v) f = { fields m f with len := v } :=
  fields_write64 hv 5 (by omega)

theorem fields_setIsMemstream : fields (File.setIsMemstream m f b) f
    = { fields m f with isMemstream := b } := by
  have hword : ∀ k, k + 8 ≤ 48 → read64 (File.setIsMemstream m f b) (f + k) = read64 m (f + k) :=
      fun k hk =>
    readLE_writeLE_disj (Or.inl (by omega))
  have hint : File.isMemstream (File.setIsMemstream m f b) f = b := by
    unfold File.isMemstream File.setIsMemstream
    rw [readLE_writeLE_same]
    cases b <;> rfl
  unfold fields File.bufPtr File.sizePtr File.buf File.cap File.len
  rw [hint, hword 8 (by omega), hword 16 (by omega), hword 24 (by omega), hword 32 (by omega),
    hword 40 (by omega)]

theorem fields_setFd {i : Int} : fields (File.setFd m f i) f = fields m f :=
  fields_behind fun x h1 _ => writeLE_out (Or.inr (by omega))

theorem setFd_out {i : Int} (h : x < f ∨ f + 56 ≤ x) : File.setFd m f i x = m x :=
  writeLE_out (by omega)

theorem setBufPtr_out (h : x < f ∨ f + 56 ≤ x) : File.setBufPtr m f v x = m x :=
  write64_out (by omega)

theorem setSizePtr_out (h : x < f ∨ f + 56 ≤ x) : File.setSizePtr m f v x = m x :=
  write64_out (by omega)

theorem setBuf_out (h : x < f ∨ f + 56 ≤ x) : File.setBuf m f v x = m x := write64_out (by omega)

theorem setCap_out (h : x < f ∨ f + 56 ≤ x) : File.setCap m f v x = m x := write64_out (by omega)

theorem setLen_out (h : x < f ∨ f + 56 ≤ x) : File.setLen m f v x = m x := write64_out (by omega)

theorem setIsMemstream_out (h : x < f ∨ f + 56 ≤ x) : File.setIsMemstream m f b x = m x :=
  writeLE_out (by omega)

end Fields

/-! ## The program and its stream -/

/-- The address is in memory of the program's own: one of its allocations, or a range it has itself.
-/
def MallocState.Owned (s : MallocState) (x : Nat) : Prop := s.InLive x ∨ ∃ r ∈ s.others, r.Holds x

/-- The address lies in one of the variables given to `open_memstream`. -/
def InVars (ptr sizeloc x : Nat) : Prop := ptr ≤ x ∧ x < ptr + 8 ∨ sizeloc ≤ x ∧ x < sizeloc + 8

/-- The variables given to `open_memstream` are the program's. -/
structure Vars (s : MallocState) (ptr sizeloc : Nat) : Prop where
  owned : ∀ x, InVars ptr sizeloc x → s.Owned x
  apart : ptr + 8 ≤ sizeloc ∨ sizeloc + 8 ≤ ptr
  words : ptr < 2 ^ 64 ∧ sizeloc < 2 ^ 64

/-- The program with its own allocations, the stream, the addresses of the two variables, and the
bytes that were written so far. -/
structure StreamState where
  prog : MallocState
  file : Nat
  ptr : Nat
  sizeloc : Nat
  written : List UInt8

namespace StreamState

variable (σ : StreamState)

def mem : Mem := σ.prog.heap.mem

/-- All allocations: the stream's two and the program's own. -/
def live : Live := (σ.file, fileLen) :: (File.buf σ.mem σ.file, File.cap σ.mem σ.file) :: σ.prog.live

/-- **The stream has accumulated what was written.** The program finds a buffer that is longer than
the text, the text in it, a NUL behind it, and the text's length. -/
structure Exact : Prop where
  buffer : ∃ cap, (read64 σ.mem σ.ptr, cap) ∈ σ.live ∧ σ.written.length < cap
  bytes : BytesAt σ.mem (read64 σ.mem σ.ptr) σ.written
  nul : σ.mem (read64 σ.mem σ.ptr + σ.written.length) = 0
  size : read64 σ.mem σ.sizeloc = σ.written.length

/-- `fwrite` may be called: no size wraps, and the source is memory of the program's or text of the
stream, and not the variable in which the buffer's address is kept. -/
structure Writable (src size nmemb : Nat) : Prop where
  total : size * nmemb < 2 ^ 64
  len : File.len σ.mem σ.file + size * nmemb < 2 ^ 64
  cap : fwriteFull σ.mem σ.file (size * nmemb) → File.cap σ.mem σ.file * 2 + size * nmemb + 31 < 2 ^ 64
  source : ∀ x, src ≤ x → x < src + size * nmemb → (σ.prog.Owned x
    ∨ File.buf σ.mem σ.file ≤ x ∧ x < File.buf σ.mem σ.file + File.len σ.mem σ.file)
    ∧ ¬ (σ.ptr ≤ x ∧ x < σ.ptr + 8)

/-- The buffer has to grow and there is no memory for it. -/
def NoMemory (mmap : Nat → Option Nat) (total : Nat) : Prop :=
  fwriteFull σ.mem σ.file total
    ∧ NoPlace mmap σ.prog.heap (File.buf σ.mem σ.file) (newCap σ.mem σ.file total)

/-- What `fwrite` does to the program's heap and the stream's text. -/
def afterWrite (h' : LibcHeap) (bytes : List UInt8) : StreamState :=
  { σ with prog := { σ.prog with heap := h' }, written := σ.written ++ bytes }

/-- A call to `malloc` and its like, an `mmap` of the program's own, a store of the program,
`fwrite` and `fflush`. The program keeps its variables and does not store to them. -/
inductive Step (ok : MallocState → (Nat → Option Nat) → MallocCall → Prop) : StreamState → StreamState → Prop
  | call {σ : StreamState} {c : MallocCall} {mmap : Nat → Option Nat} {fuel q : Nat} {h' : LibcHeap} :
      σ.prog.Rightful c → ok σ.prog mmap c → (∀ len a, mmap len = some a → σ.prog.Fresh ⟨a, len⟩) →
      c.run mmap fuel σ.prog.heap = .done (h', q) →
      Vars ⟨h', σ.prog.others, c.passOn σ.prog.live q⟩ σ.ptr σ.sizeloc →
      Step ok σ { σ with prog := ⟨h', σ.prog.others, c.passOn σ.prog.live q⟩ }
  | map {σ : StreamState} {r : MapRange} : σ.prog.Fresh r →
      Step ok σ { σ with prog := { σ.prog with others := r :: σ.prog.others } }
  | store {σ : StreamState} {m' : Mem} :
      (∀ x, (∃ r ∈ σ.prog.heap.obtained, r.Holds x) → ¬ σ.prog.InLive x → m' x = σ.mem x) →
      (∀ x, InVars σ.ptr σ.sizeloc x → m' x = σ.mem x) →
      Step ok σ { σ with prog := { σ.prog with heap := { σ.prog.heap with mem := m' } } }
  | fwrite {σ : StreamState} {src size nmemb fuel r : Nat} {mmap : Nat → Option Nat}
      {write : Int → Nat → Nat → Int} {h' : LibcHeap} : σ.Writable src size nmemb →
      (fwriteFull σ.mem σ.file (size * nmemb) →
        ok σ.prog mmap (.realloc (File.buf σ.mem σ.file) (newCap σ.mem σ.file (size * nmemb)))) →
      (∀ len a, mmap len = some a → σ.prog.Fresh ⟨a, len⟩) →
      Libc.fwrite mmap write fuel σ.prog.heap src size nmemb σ.file = .done (h', r) →
      Step ok σ (σ.afterWrite h' (if r = 0 then [] else RingBuf.slice σ.mem src (size * nmemb)))
  | fflush {σ : StreamState} : Step ok σ (σ.afterWrite (Libc.fflush σ.prog.heap σ.file).1 [])

/-- A program that has run for a while opens a stream. -/
inductive Opened (ok : MallocState → (Nat → Option Nat) → MallocCall → Prop) : StreamState → Prop
  | opened {s : MallocState} {mmap : List MapRange → Nat → Option Nat} {fuel ptr sizeloc f : Nat}
      {h' : LibcHeap} : Run.Reach MallocState.Starts (MallocState.Step ok) s → Vars s ptr sizeloc →
      (∀ own len a, mmap own len = some a → MapRange.Fresh ⟨a, len⟩ (own ++ s.others)) →
      openMemstream mmap fuel s.heap ptr sizeloc = .done (h', f) → f ≠ 0 →
      Opened ok ⟨{ s with heap := h' }, f, ptr, sizeloc, []⟩

end StreamState

/-! ## What lies where -/

/-- Two ranges no address of which is common lie one behind the other. -/
theorem apart_of_out {a n b k : Nat} (hn : 0 < n) (hk : 0 < k)
    (h : ∀ x, a ≤ x → x < a + n → x < b ∨ b + k ≤ x) : a + n ≤ b ∨ b + k ≤ a := by
  have := h (max a b)
  omega

section Live

variable {h : LibcHeap} {live : Live} {bs : List Block} {a : Nat × Nat} {x : Nat}

theorem Holds.tail (hh : Holds h (a :: live) bs) : Holds h live bs :=
  ⟨hh.rep, fun c hc => hh.block c (List.mem_cons_of_mem a hc), (List.nodup_cons.mp hh.nodup).2⟩

theorem Holds.perm {live' : Live} (hh : Holds h live bs) (hp : live.Perm live') :
    Holds h live' bs :=
  ⟨hh.rep, fun c hc => hh.block c (hp.mem_iff.mpr hc), (hp.map Prod.fst).nodup_iff.mp hh.nodup⟩

/-- An allocation lies behind the header of a block in use. -/
theorem Holds.behind (hh : Holds h live bs) (ha : a ∈ live) (h1 : a.1 ≤ x) (h2 : x < a.1 + a.2) :
    Behind bs x := by
  obtain ⟨b, hb, hu, hba, hfit⟩ := hh.block a ha
  exact ⟨b, hb, hu, by omega, by unfold Block.lim; omega⟩

/-- What is in another allocation, or where `malloc` has no range, is not in the first. -/
theorem Holds.first_out (hh : Holds h (a :: live) bs)
    (hx : (∃ c ∈ live, c.1 ≤ x ∧ x < c.1 + c.2) ∨ ∀ r ∈ h.obtained, ¬ r.Holds x) :
    x < a.1 ∨ a.1 + a.2 ≤ x := by
  have hd := MallocState.disjoint_of_holds (s := ⟨h, [], a :: live⟩) hh
  have hlong := hd.long a List.mem_cons_self
  rcases hx with ⟨c, hc, h1, h2⟩ | hout
  · have hap := (List.pairwise_cons.mp hd.apart).1 c hc
    have hlong' := hd.long c (List.mem_cons_of_mem a hc)
    omega
  · obtain ⟨r, hr, h1, h2⟩ := hd.inside a List.mem_cons_self
    have := hout r hr
    unfold MapRange.Holds at this
    omega

theorem Holds.lim_lt (hh : Holds h live bs) (ha : a ∈ live) : a.1 + a.2 < 2 ^ 64 := by
  have hd := MallocState.disjoint_of_holds (s := ⟨h, [], live⟩) hh
  obtain ⟨r, hr, _, h2⟩ := hd.inside a ha
  have h3 := hh.rep.lim_lt r hr
  have h4 := hd.long a ha
  omega

end Live

/-- The memory of a stream: its fields, the text in its buffer, and what the two variables say. -/
structure Filled (m : Mem) (f ptr sizeloc buf cap : Nat) (text : List UInt8) : Prop where
  file : fields m f = ⟨ptr, sizeloc, buf, cap, text.length, true⟩
  room : text.length < cap
  bytes : BytesAt m buf text
  nul : m (buf + text.length) = 0
  ptr : read64 m ptr = buf
  size : read64 m sizeloc = text.length

/-- **The invariant of a program with a stream.** -/
structure Streams (σ : StreamState) (buf cap : Nat) (bs : List Block) : Prop where
  holds : Holds σ.prog.heap ((σ.file, fileLen) :: (buf, cap) :: σ.prog.live) bs
  ranges : ∀ r ∈ σ.prog.heap.obtained, ∀ r' ∈ σ.prog.others, r.Apart r'
  vars : Vars σ.prog σ.ptr σ.sizeloc
  filled : Filled σ.mem σ.file σ.ptr σ.sizeloc buf cap σ.written

/-- The stream's two allocations and the program's two variables lie apart. -/
structure Layout (f ptr sizeloc buf cap : Nat) : Prop where
  file_buf : f + 56 ≤ buf ∨ buf + cap ≤ f
  ptr_file : ptr + 8 ≤ f ∨ f + 56 ≤ ptr
  ptr_buf : ptr + 8 ≤ buf ∨ buf + cap ≤ ptr
  size_file : sizeloc + 8 ≤ f ∨ f + 56 ≤ sizeloc
  size_buf : sizeloc + 8 ≤ buf ∨ buf + cap ≤ sizeloc
  ptr_size : ptr + 8 ≤ sizeloc ∨ sizeloc + 8 ≤ ptr
  lim_lt : buf + cap < 2 ^ 64

/-- Memory that is the program's is not the stream's. -/
theorem owned_out {s : MallocState} {f buf cap x : Nat} {bs : List Block}
    (hh : Holds s.heap ((f, fileLen) :: (buf, cap) :: s.live) bs)
    (hr : ∀ r ∈ s.heap.obtained, ∀ r' ∈ s.others, r.Apart r') (hx : s.Owned x) :
    (x < f ∨ f + 56 ≤ x) ∧ (x < buf ∨ buf + cap ≤ x) := by
  rcases hx with ⟨a, ha, h1, h2⟩ | ⟨r', hr', h1, h2⟩
  · exact ⟨hh.first_out (Or.inl ⟨a, List.mem_cons_of_mem _ ha, h1, h2⟩),
      hh.tail.first_out (Or.inl ⟨a, ha, h1, h2⟩)⟩
  · have hout : ∀ r ∈ s.heap.obtained, ¬ r.Holds x := fun r hro h => by
      have hap := hr r hro r' hr'
      unfold MapRange.Apart at hap
      have h3 := h.1
      have h4 := h.2
      omega
    exact ⟨hh.first_out (Or.inr hout), hh.tail.first_out (Or.inr hout)⟩

theorem layout {s : MallocState} {f ptr sizeloc buf cap : Nat} {bs : List Block}
    (hh : Holds s.heap ((f, fileLen) :: (buf, cap) :: s.live) bs)
    (hr : ∀ r ∈ s.heap.obtained, ∀ r' ∈ s.others, r.Apart r') (hv : Vars s ptr sizeloc)
    (hcap : 0 < cap) :
    Layout f ptr sizeloc buf cap := by
  have hout := fun x hx => owned_out hh hr (hv.owned x hx)
  refine ⟨?_, ?_, ?_, ?_, ?_, hv.apart, hh.tail.lim_lt List.mem_cons_self⟩
  · have hbuf := apart_of_out hcap (show 0 < fileLen by decide) fun x h1 h2 =>
      hh.first_out (Or.inl ⟨(buf, cap), List.mem_cons_self, h1, h2⟩)
    exact hbuf.symm
  · exact apart_of_out (by decide) (by decide) fun x h1 h2 => (hout x (Or.inl ⟨h1, h2⟩)).1
  · exact apart_of_out (by decide) hcap fun x h1 h2 => (hout x (Or.inl ⟨h1, h2⟩)).2
  · exact apart_of_out (by decide) (by decide) fun x h1 h2 => (hout x (Or.inr ⟨h1, h2⟩)).1
  · exact apart_of_out (by decide) hcap fun x h1 h2 => (hout x (Or.inr ⟨h1, h2⟩)).2

theorem Streams.layout {σ : StreamState} {buf cap : Nat} {bs : List Block}
    (hi : Streams σ buf cap bs) :
    Layout σ.file σ.ptr σ.sizeloc buf cap :=
  Libc.layout hi.holds hi.ranges hi.vars (Nat.lt_of_le_of_lt (Nat.zero_le _) hi.filled.room)

/-! ## What the calls store -/

section Store

variable {m m' : Mem} {f ptr sizeloc buf cap src n : Nat} {text : List UInt8}

theorem bytesAt_slice (m : Mem) : ∀ (n src : Nat), BytesAt m src (RingBuf.slice m src n)
  | 0, _ => trivial
  | n + 1, src => by
      rw [RingBuf.slice_succ]
      exact ⟨rfl, bytesAt_slice m n (src + 1)⟩

/-- Nothing of the stream changes, so the stream is what it was. -/
theorem Filled.congr (hf : Filled m f ptr sizeloc buf cap text)
    (hfile : ∀ x, f ≤ x → x < f + 56 → m' x = m x)
    (hbuf : ∀ x, buf ≤ x → x < buf + cap → m' x = m x)
    (hvars : ∀ x, InVars ptr sizeloc x → m' x = m x) :
    Filled m' f ptr sizeloc buf cap text where
  file := (fields_congr hfile).trans hf.file
  room := hf.room
  bytes := hf.bytes.congr fun x h1 h2 => hbuf x h1 (by have := hf.room; omega)
  nul := (hbuf _ (Nat.le_add_right _ _) (by have := hf.room; omega)).trans hf.nul
  ptr := (read64_congr fun x h1 h2 => hvars x (Or.inl ⟨h1, h2⟩)).trans hf.ptr
  size := (read64_congr fun x h1 h2 => hvars x (Or.inr ⟨h1, h2⟩)).trans hf.size

/-- The stores of `fwrite`, with the addresses they go to. -/
theorem fwriteStore_eq {len : Nat} (hF : fields m f = ⟨ptr, sizeloc, buf, cap, len, true⟩)
    (hl : Layout f ptr sizeloc buf cap) (hroom : len + n < cap) : fwriteStore m src f n =
      write64 (setByte (File.setLen (memcpy m (buf + len) src n) f (len + n))
      (buf + (len + n)) 0) sizeloc
        (len + n) := by
  have hlim := hl.lim_lt
  have hfb := hl.file_buf
  have hcopy : fields (memcpy m (buf + len) src n) f = ⟨ptr, sizeloc, buf, cap, len, true⟩ :=
    (fields_congr fun x h1 h2 => memcpy_out n _ src (by omega)).trans hF
  have hlen : fields (File.setLen (memcpy m (buf + len) src n) f (len + n)) f
      = ⟨ptr, sizeloc, buf, cap, len + n, true⟩ := by
    rw [fields_setLen (by omega), hcopy]
  have hbyte : fields (setByte (File.setLen (memcpy m (buf + len) src n) f (len + n))
    (buf + (len + n)) 0) f
      = ⟨ptr, sizeloc, buf, cap, len + n, true⟩ :=
    (fields_congr fun x h1 h2 => setByte_ne (by omega)).trans hlen
  obtain ⟨-, -, hb₀, -, hl₀, -⟩ := fields_eq.mp hF
  obtain ⟨-, -, -, -, hl₁, -⟩ := fields_eq.mp hcopy
  obtain ⟨-, -, hb₂, -, hl₂, -⟩ := fields_eq.mp hlen
  obtain ⟨-, hs₃, -, -, hl₃, -⟩ := fields_eq.mp hbyte
  unfold fwriteStore
  dsimp only
  rw [hb₀, hl₀, u64_of_lt (show buf + len < 2 ^ 64 by omega), hl₁,
    u64_of_lt (show len + n < 2 ^ 64 by omega),
    hb₂, hl₂, u64_of_lt (show buf + (len + n) < 2 ^ 64 by omega), hs₃, hl₃]

/-- **The new bytes stand behind the old ones.** -/
theorem Filled.stored (hf : Filled m f ptr sizeloc buf cap text) (hl : Layout f ptr sizeloc buf cap)
    (hroom : text.length + n < cap)
    (hsrc : ∀ x, src ≤ x → x < src + n → x < buf + text.length ∨ buf + cap ≤ x) :
    Filled (fwriteStore m src f n) f ptr sizeloc buf cap (text ++ RingBuf.slice m src n)
      ∧ ∀ x, (x < f ∨ f + 56 ≤ x) → (x < buf ∨ buf + cap ≤ x) → ¬ InVars ptr sizeloc x →
        fwriteStore m src f n x = m x := by
  have hlim := hl.lim_lt
  obtain ⟨hfb, hpf, hpb, hsf, hsb, hps, _⟩ := id hl
  have hapart : n = 0 ∨ src + n ≤ buf + text.length ∨ buf + cap ≤ src := by
    rcases Nat.eq_zero_or_pos n with hn | hn
    · exact Or.inl hn
    · have := apart_of_out (b := buf + text.length)
          (k := cap - text.length) hn (by omega) fun x h1 h2 => by
        have := hsrc x h1 h2
        omega
      omega
  rw [fwriteStore_eq hf.file hl hroom]
  have hlength : (text ++ RingBuf.slice m src n).length = text.length + n := by
    rw [List.length_append, RingBuf.length_slice]
  refine ⟨⟨?_, by rw [hlength]; exact hroom, ?_, ?_, ?_, ?_⟩, fun x h1 h2 h3 => ?_⟩
  · rw [fields_congr fun x h1 h2 => write64_out (by omega),
      fields_congr fun x h1 h2 => setByte_ne (by omega),
      fields_setLen (by omega), fields_congr fun x h1 h2 => memcpy_out n _ src (by omega), hf.file,
        hlength]
  · refine bytesAt_append.mpr ⟨hf.bytes.congr fun x h1 h2 => ?_,
      (bytesAt_slice m n src).moved fun i hi => ?_⟩
    · rw [write64_out (by omega), setByte_ne (by omega), setLen_out (by omega),
        memcpy_out n _ src (by omega)]
    · rw [RingBuf.length_slice] at hi
      rw [write64_out (by omega), setByte_ne (by omega), setLen_out (by omega)]
      exact memcpy_in n (buf + text.length) src hi (by omega)
  · rw [hlength, write64_out (by omega)]
    exact setByte_self _ _ _
  · rw [read64_write64_disj (by omega)]
    refine (read64_congr fun x h1 h2 => ?_).trans hf.ptr
    rw [setByte_ne (by omega), setLen_out (by omega), memcpy_out n _ src (by omega)]
  · rw [hlength]
    exact read64_write64_same (by omega)
  · unfold InVars at h3
    rw [write64_out (by omega), setByte_ne (by omega), setLen_out h1, memcpy_out n _ src (by omega)]

/-- `fflush` stores what is there already. -/
theorem Filled.flushed {h : LibcHeap} (hf : Filled h.mem f ptr sizeloc buf cap text)
    (hl : Layout f ptr sizeloc buf cap) (hbuf : buf ≠ 0) :
    ∃ m', fflush h f = ({ h with mem := m' }, 0) ∧ Filled m' f ptr sizeloc buf cap text
      ∧ ∀ x, (x < f ∨ f + 56 ≤ x) → (x < buf ∨ buf + cap ≤ x) → ¬ InVars ptr sizeloc x
          → m' x = h.mem x := by
  have hroom := hf.room
  have hlim := hl.lim_lt
  obtain ⟨hfb, hpf, hpb, hsf, hsb, hps, _⟩ := id hl
  have hbyte : fields (setByte h.mem (buf + text.length) 0) f
      = ⟨ptr, sizeloc, buf, cap, text.length, true⟩ :=
    (fields_congr fun x h1 h2 => setByte_ne (by omega)).trans hf.file
  have hword : fields (write64 (setByte h.mem (buf + text.length) 0) ptr buf) f
      = ⟨ptr, sizeloc, buf, cap, text.length, true⟩ :=
    (fields_congr fun x h1 h2 => write64_out (by omega)).trans hbyte
  obtain ⟨-, -, hb₀, -, hl₀, hi₀⟩ := fields_eq.mp hf.file
  obtain ⟨hp₁, -, hb₁, -, -, -⟩ := fields_eq.mp hbyte
  obtain ⟨-, hs₂, -, -, hl₂, -⟩ := fields_eq.mp hword
  refine ⟨write64 (write64 (setByte h.mem (buf + text.length) 0) ptr buf) sizeloc text.length, ?_,
    ⟨?_, hroom, ?_, ?_, ?_, read64_write64_same (by omega)⟩, fun x h1 h2 h3 => ?_⟩
  · unfold fflush
    dsimp only
    rw [hi₀, hb₀, hl₀, u64_of_lt (show buf + text.length < 2 ^ 64 by omega), hp₁, hb₁, hs₂, hl₂,
      if_pos rfl, if_pos hbuf]
  · exact (fields_congr fun x h1 h2 => write64_out (by omega)).trans hword
  · refine hf.bytes.congr fun x h1 h2 => ?_
    rw [write64_out (by omega), write64_out (by omega), setByte_ne (by omega)]
  · rw [write64_out (by omega), write64_out (by omega)]
    exact setByte_self _ _ _
  · rw [read64_write64_disj (by omega)]
    exact read64_write64_same (by omega)
  · unfold InVars at h3
    rw [write64_out (by omega), write64_out (by omega), setByte_ne (by omega)]

/-- The stores of `open_memstream` after its buffer is there. -/
def openStore (m : Mem) (f ptr sizeloc buf : Nat) : Mem :=
  write64 (write64 (File.setIsMemstream (File.setLen (setByte (File.setBuf m f buf) buf 0) f 0) f true) ptr buf)
    sizeloc 0

theorem Filled.opened {c l : Nat} {b : Bool} (hF : fields m f = ⟨ptr, sizeloc, c, cap, l, b⟩)
    (hl : Layout f ptr sizeloc buf cap) (hcap : 0 < cap) :
    Filled (openStore m f ptr sizeloc buf) f ptr sizeloc buf cap []
      ∧ ∀ x, (x < f ∨ f + 56 ≤ x) → (x < buf ∨ buf + cap ≤ x) → ¬ InVars ptr sizeloc x →
        openStore m f ptr sizeloc buf x = m x := by
  have hlim := hl.lim_lt
  obtain ⟨hfb, hpf, hpb, hsf, hsb, hps, _⟩ := id hl
  unfold openStore
  refine ⟨⟨?_, hcap, trivial, ?_, ?_, read64_write64_same (by decide)⟩, fun x h1 h2 h3 => ?_⟩
  · rw [fields_congr fun x h1 h2 => write64_out (by omega),
      fields_congr fun x h1 h2 => write64_out (by omega),
      fields_setIsMemstream, fields_setLen (by decide),
        fields_congr fun x h1 h2 => setByte_ne (by omega),
      fields_setBuf (by omega), hF]
    rfl
  · rw [List.length_nil, write64_out (by omega), write64_out (by omega),
      setIsMemstream_out (by omega),
      setLen_out (by omega)]
    exact setByte_self _ _ _
  · rw [read64_write64_disj (by omega)]
    exact read64_write64_same (by omega)
  · unfold InVars at h3
    rw [write64_out (by omega), write64_out (by omega), setIsMemstream_out h1, setLen_out h1,
      setByte_ne (by omega),
      setBuf_out h1]

/-- The buffer is another one, and the text is in it already. -/
theorem Filled.grown {q newCap : Nat} (hF : fields m f = ⟨ptr, sizeloc, buf, cap, text.length,
    true⟩)
    (hl : Layout f ptr sizeloc q newCap) (hroom : text.length < newCap) (hbytes : BytesAt m q text)
    (hnul : m (q + text.length) = 0) (hsize : read64 m sizeloc = text.length) :
    Filled (write64 (File.setCap (File.setBuf m f q) f newCap) ptr q) f ptr sizeloc q newCap
      text := by
  have hlim := hl.lim_lt
  have hfb := hl.file_buf
  have hsf := hl.size_file
  have hpf := hl.ptr_file
  have hpb := hl.ptr_buf
  have hps := hl.ptr_size
  refine ⟨?_, hroom, ?_, ?_, read64_write64_same (by omega), ?_⟩
  · rw [fields_congr fun x h1 h2 => write64_out (by omega), fields_setCap (by omega),
      fields_setBuf (by omega), hF]
  · refine hbytes.congr fun x h1 h2 => ?_
    rw [write64_out (by omega), setCap_out (by omega), setBuf_out (by omega)]
  · rw [write64_out (by omega), setCap_out (by omega), setBuf_out (by omega), hnul]
  · rw [read64_write64_disj (by omega)]
    refine (read64_congr fun x h1 h2 => ?_).trans hsize
    rw [setCap_out (by omega), setBuf_out (by omega)]

end Store

/-! ## What the calls keep -/

section Keeps

variable {s : MallocState} {f ptr sizeloc buf cap : Nat} {bs : List Block} {m' : Mem}

/-- The stream's stores go to its allocations and to the program's variables. -/
theorem Holds.stored (hh : Holds s.heap ((f, fileLen) :: (buf, cap) :: s.live) bs)
    (hr : ∀ r ∈ s.heap.obtained, ∀ r' ∈ s.others, r.Apart r') (hv : Vars s ptr sizeloc)
    (hm : ∀ x, (x < f ∨ f + 56 ≤ x) → (x < buf ∨ buf + cap ≤ x) → ¬ InVars ptr sizeloc x →
      m' x = s.heap.mem x) :
    Holds { s.heap with mem := m' } ((f, fileLen) :: (buf, cap) :: s.live) bs := by
  refine MallocState.store_keeps (s := ⟨s.heap, [], (f, fileLen) :: (buf, cap) :: s.live⟩) hh
    fun x hin hlive => ?_
  have hno : ∀ a ∈ (f, fileLen) :: (buf, cap) :: s.live, ¬ (a.1 ≤ x ∧ x < a.1 + a.2) :=
      fun a ha h =>
    hlive ⟨a, ha, h⟩
  have hfile := hno _ List.mem_cons_self
  have hbuf := hno _ (List.mem_cons_of_mem _ List.mem_cons_self)
  unfold fileLen at hfile
  dsimp only at hfile hbuf
  refine hm x (by omega) (by omega) fun hx => ?_
  -- a variable is in an allocation of the program's, or where `malloc` has nothing
  rcases hv.owned x hx with ⟨a, ha, h⟩ | ⟨r', hr', h1, h2⟩
  · exact hno a (List.mem_cons_of_mem _ (List.mem_cons_of_mem _ ha)) h
  · obtain ⟨r, hro, h3, h4⟩ := hin
    have hap := hr r hro r' hr'
    unfold MapRange.Apart at hap
    omega

/-- What a call leaves alone includes what the program owns and what the stream owns. -/
theorem Spares.owned {h' : LibcHeap} {mmap : Nat → Option Nat} {x : Nat}
    (hs : Spares mmap bs s.heap h')
    (hh : Holds s.heap ((f, fileLen) :: (buf, cap) :: s.live) bs)
    (hr : ∀ r ∈ h'.obtained, ∀ r' ∈ s.others, r.Apart r') (hx : s.Owned x) :
    h'.mem x = s.heap.mem x := by
  refine hs.bytes x ?_
  rcases hx with ⟨a, ha, h1, h2⟩ | ⟨r', hr', h1, h2⟩
  · exact Or.inl (hh.behind (List.mem_cons_of_mem _ (List.mem_cons_of_mem _ ha)) h1 h2)
  · refine Or.inr fun r hro h => ?_
    have hap := hr r hro r' hr'
    unfold MapRange.Apart at hap
    have h3 := h.1
    have h4 := h.2
    omega

/-- The ranges that `mmap` gives are apart from the program's own. -/
theorem Spares.apart {h' : LibcHeap} {mmap : Nat → Option Nat} (hs : Spares mmap bs s.heap h')
    (hr : ∀ r ∈ s.heap.obtained, ∀ r' ∈ s.others, r.Apart r')
    (hm : ∀ len a, mmap len = some a → s.Fresh ⟨a, len⟩) :
    ∀ r ∈ h'.obtained, ∀ r' ∈ s.others, r.Apart r' := by
  intro r hro r' hr'
  rcases hs.ranges r hro with hold | hnew
  · exact hr r hold r' hr'
  · exact ((hm _ _ hnew).apart r' (List.mem_append_right _ hr')).symm

end Keeps

/-! ## `fwrite` -/

section Write

variable {σ : StreamState} {buf cap total : Nat} {bs : List Block} {mmap : Nat → Option Nat}

theorem drop_second {a b : Nat × Nat} {live : Live} (hnd : ((a :: b :: live).map Prod.fst).Nodup) :
    drop b.1 (a :: b :: live) = a :: live := by
  rw [List.map_cons, List.map_cons] at hnd
  obtain ⟨ha, hnd⟩ := List.nodup_cons.mp hnd
  have hab : a.1 ≠ b.1 := fun h => ha (h ▸ List.mem_cons_self)
  have hlive : drop b.1 live = live := drop_of_not_mem (List.nodup_cons.mp hnd).1
  calc drop b.1 (a :: b :: live) = a :: drop b.1 (b :: live) :=
      List.filter_cons_of_pos (decide_eq_true hab)
    _ = a :: drop b.1 live := congrArg (a :: ·) (List.filter_cons_of_neg (by simp))
    _ = a :: live := by rw [hlive]

/-- A call to `malloc` and its like does not touch the `FILE`. -/
theorem Streams.fields_spared (hi : Streams σ buf cap bs) {h₁ : LibcHeap}
    (hs : Spares mmap bs σ.prog.heap h₁) :
    fields h₁.mem σ.file = ⟨σ.ptr, σ.sizeloc, buf, cap, σ.written.length, true⟩ :=
  (fields_congr fun x h1 h2 => hs.bytes x (Or.inl (hi.holds.behind List.mem_cons_self h1 h2))).trans
    hi.filled.file

/-- After the buffer has grown: `realloc` gave `q`, and the stream and the program's variable say
so. -/
theorem Streams.regrown (hi : Streams σ buf cap bs) {h₁ : LibcHeap} {q n : Nat} {bs₁ : List Block}
    (hh : Holds h₁ ((σ.file, fileLen) :: (q, n) :: σ.prog.live) bs₁)
    (hs : Spares mmap bs σ.prog.heap h₁)
    (hm : Moved bs σ.prog.heap h₁ buf q n) (hn : cap ≤ n)
    (hr : ∀ r ∈ h₁.obtained, ∀ r' ∈ σ.prog.others, r.Apart r') :
    Streams { σ with prog := { σ.prog with heap := { h₁ with
      mem := write64 (File.setCap (File.setBuf h₁.mem σ.file q) σ.file n) σ.ptr q } } } q n
          bs₁ := by
  have hroom := hi.filled.room
  have hvars : Vars { σ.prog with heap := h₁ } σ.ptr σ.sizeloc :=
    ⟨hi.vars.owned, hi.vars.apart, hi.vars.words⟩
  have hl : Layout σ.file σ.ptr σ.sizeloc q n :=
    Libc.layout (s := { σ.prog with heap := h₁ }) hh hr hvars (by omega)
  have hfile := hi.fields_spared hs
  -- the old text is where `realloc` put it
  obtain ⟨b, hb, _, hbuf, hfit⟩ := hi.holds.block (buf, cap)
    (List.mem_cons_of_mem _ List.mem_cons_self)
  have hcopied : ∀ i, i < cap → h₁.mem (q + i) = σ.mem (buf + i) := fun i hi' =>
    hm.copied b hb hbuf i (Nat.lt_of_lt_of_le hi' hfit)
  have hsize : read64 h₁.mem σ.sizeloc = σ.written.length :=
    (read64_congr fun x h1 h2 => hs.owned hi.holds hr (hi.vars.owned x (Or.inr ⟨h1, h2⟩))).trans
      hi.filled.size
  refine ⟨?_, hr, ⟨hi.vars.owned, hi.vars.apart, hi.vars.words⟩,
    Filled.grown hfile hl (Nat.lt_of_lt_of_le hroom hn) ?_ ?_ hsize⟩
  · refine Holds.stored (s := { σ.prog with heap := h₁ }) hh hr hvars fun x h1 h2 h3 => ?_
    unfold InVars at h3
    rw [write64_out (by omega), setCap_out h1, setBuf_out h1]
  · exact hi.filled.bytes.moved fun i hi' => hcopied i (by omega)
  · exact (hcopied _ hroom).trans hi.filled.nul

/-- What `fwrite` does with the pointer that `realloc` returned. -/
def fwriteGot (h : LibcHeap) (q f cap : Nat) : LibcHeap × Bool :=
  if q = 0 then (h, false)
  else
    let m := File.setCap (File.setBuf h.mem f q) f cap
    ({ h with mem := write64 m (File.bufPtr m f) q }, true)

theorem fwriteGrow_ends {h h₁ : LibcHeap} {f q k : Nat} (hfull : fwriteFull h.mem f total)
    (hends : Ends (fun fuel => realloc mmap fuel h (File.buf h.mem f) (newCap h.mem f total)) k
      (h₁, q)) :
    Ends (fun fuel => fwriteGrow mmap fuel h f total) k
      (fwriteGot h₁ q f (newCap h.mem f total)) := by
  unfold fwriteGrow
  simp only [if_pos hfull]
  refine Ends.bind hends (g := fun x _ => _) ?_
  unfold fwriteGot
  by_cases hq : q = 0
  · simp only [if_pos hq]
    exact Ends.pure _ _
  · simp only [if_neg hq]
    exact Ends.pure _ _

/-- The bytes that `fwrite` may be given. -/
def Source (σ : StreamState) (x : Nat) : Prop :=
  (σ.prog.Owned x ∨ File.buf σ.mem σ.file ≤ x ∧ x < File.buf σ.mem σ.file + File.len σ.mem σ.file)
    ∧ ¬ (σ.ptr ≤ x ∧ x < σ.ptr + 8)

/-- **Making room.** Either there is no memory and nothing has happened, or there is room behind the
text and the source is as it was, and not there. -/
theorem Streams.grow (hi : Streams σ buf cap bs) (hlen : σ.written.length + total < 2 ^ 64)
    (hcap : fwriteFull σ.mem σ.file total → cap * 2 + total + 31 < 2 ^ 64)
    (hj : fwriteFull σ.mem σ.file total → σ.prog.JoinsIn mmap
      (.realloc buf (newCap σ.mem σ.file total)))
    (hm : ∀ len a, mmap len = some a → σ.prog.Fresh ⟨a, len⟩) :
    ∃ h' room, Ends (fun fuel => fwriteGrow mmap fuel σ.prog.heap σ.file total) (bs.length + 2)
    (h', room)
      ∧ (room = false → h' = σ.prog.heap ∧ σ.NoMemory mmap total)
      ∧ (room = true → ¬ σ.NoMemory mmap total ∧ ∃ buf' cap' bs',
        Streams { σ with prog := { σ.prog with heap := h' } } buf' cap' bs'
          ∧ σ.written.length + total < cap'
          ∧ ∀ x, Source σ x → h'.mem x = σ.mem x
              ∧ (x < buf' + σ.written.length ∨ buf' + cap' ≤ x)) := by
  have hroom := hi.filled.room
  have hl := hi.layout
  obtain ⟨-, -, hbuf, hfcap, hflen, -⟩ := fields_eq.mp hi.filled.file
  have hown : ∀ {x}, σ.prog.Owned x → (x < σ.file ∨ σ.file + 56 ≤ x) ∧ (x < buf ∨ buf + cap ≤ x) :=
    fun hx => owned_out hi.holds hi.ranges hx
  -- either the text does not fit and the buffer is replaced, or nothing happens
  by_cases hfull : fwriteFull σ.mem σ.file total
  · obtain ⟨b, hb, hu, hbp, hfit⟩ := hi.holds.block (buf, cap)
      (List.mem_cons_of_mem _ List.mem_cons_self)
    obtain rfl : b.addr + 24 = buf := hbp
    -- the new capacity does not wrap
    have hnew : newCap σ.mem σ.file total = cap * 2 + total := by
      have := hcap hfull
      unfold newCap
      rw [hfcap, u64_of_lt (show cap * 2 < 2 ^ 64 by omega), u64_of_lt (by omega)]
    have hm' : ∀ len a, mmap len = some a → MapRange.Fresh ⟨a, len⟩ σ.prog.heap.obtained :=
        fun len a ha =>
      { hm len a ha with apart := fun r hr => (hm len a ha).apart r (List.mem_append_left _ hr) }
    -- what `realloc` does, and what it leaves alone
    obtain ⟨h₁, q, bs₁, hends₀, hh, hs, hzero, hmoved⟩ := hi.holds.resized hb hu
      (List.mem_cons_of_mem _ List.mem_cons_self) (n := cap * 2 + total) (by omega) (hcap hfull) hm'
      (hnew ▸ hj hfull)
    have hends := fwriteGrow_ends hfull (show Ends (fun fuel => realloc mmap fuel σ.prog.heap
      (File.buf σ.mem σ.file) (newCap σ.mem σ.file total)) _
        (h₁, q) by rw [hbuf, hnew]; exact hends₀)
    rw [show newCap σ.prog.heap.mem σ.file total = cap * 2 + total from hnew] at hends
    by_cases hq : q = 0
    · -- no memory: the stream is as it was
      rw [fwriteGot, if_pos hq] at hends
      obtain ⟨hsame, hno⟩ := hzero hq
      refine ⟨h₁, false, hends, fun _ => ⟨hsame, hfull, ?_⟩, fun h => absurd h (by decide)⟩
      rw [hbuf, hnew]
      exact hno
    · obtain ⟨hplace, hmoved⟩ := hmoved hq
      have hr := hs.apart hi.ranges hm
      rw [MallocCall.passOn, if_neg (fun h => hq h.2), gain, if_neg hq,
        drop_second (b := (b.addr + 24, cap)) hi.holds.nodup] at hh
      have hstate := hi.regrown (hh.perm (List.Perm.swap ..)) hs hmoved (by omega) hr
      -- the caller's pointer is told where the buffer is now
      have hptr : File.bufPtr (File.setCap (File.setBuf h₁.mem σ.file q) σ.file
          (cap * 2 + total)) σ.file = σ.ptr := by
        have hq' := hh.lim_lt List.mem_cons_self
        dsimp only at hq'
        have hfile : fields (File.setCap (File.setBuf h₁.mem σ.file q) σ.file
          (cap * 2 + total)) σ.file
            = ⟨σ.ptr, σ.sizeloc, q, cap * 2 + total, σ.written.length, true⟩ := by
          rw [fields_setCap (by omega), fields_setBuf (by omega), hi.fields_spared hs]
        exact (fields_eq.mp hfile).1
      rw [fwriteGot, if_neg hq] at hends
      dsimp only at hends
      rw [hptr] at hends
      refine ⟨_, true, hends, fun h => absurd h (by decide),
        fun _ => ⟨?_, q, cap * 2 + total, bs₁, hstate,
        by omega, fun x hx => ?_⟩⟩
      · rintro ⟨_, hno⟩
        rw [hbuf, hnew] at hno
        exact hplace hno
      · obtain ⟨hx, hptr⟩ := hx
        rw [hbuf, hflen] at hx
        have hfb := hl.file_buf
        have hsame : h₁.mem x = σ.mem x ∧ (x < σ.file ∨ σ.file + 56 ≤ x)
            ∧ (x < q + σ.written.length ∨ q + (cap * 2 + total) ≤ x) := by
          -- a byte of the source is the program's, or behind the text in the old buffer
          rcases hx with ho | ⟨h1, h2⟩
          · have := (owned_out hstate.holds hstate.ranges (x := x) ho).2
            exact ⟨hs.owned hi.holds hr ho, (hown ho).1, by omega⟩
          · have hbehind := hi.holds.behind (List.mem_cons_of_mem _ List.mem_cons_self) h1
              (show x < b.addr + 24 + cap by omega)
            refine ⟨hs.bytes x (Or.inl hbehind), by omega, ?_⟩
            rcases hmoved.apart with rfl | hapart
            · exact Or.inl h2
            · have := hapart x (Or.inl hbehind)
              omega
        refine ⟨?_, hsame.2.2⟩
        dsimp only
        rw [write64_out (by omega), setCap_out hsame.2.1, setBuf_out hsame.2.1]
        exact hsame.1
  · have hfits : σ.written.length + total < cap := by
      unfold fwriteFull at hfull
      rw [hflen, hfcap, u64_of_lt hlen] at hfull
      omega
    refine ⟨σ.prog.heap, true, ?_, fun h => absurd h (by decide),
      fun _ => ⟨fun h => hfull h.1, buf, cap, bs, hi,
      hfits, fun x hx => ⟨rfl, ?_⟩⟩⟩
    · have heq : ∀ fuel, fwriteGrow mmap fuel σ.prog.heap σ.file total
          = .done (σ.prog.heap, true) :=
        fun fuel => if_neg hfull
      simp only [heq]
      exact Ends.pure _ _
    · -- the source was not in the buffer before, and the buffer is where it was
      rcases hx.1 with ho | ⟨h1, h2⟩
      · have := (hown ho).2
        omega
      · rw [hbuf, hflen] at h2
        omega

theorem slice_congr {m m' : Mem} {src n : Nat} (h : ∀ x, src ≤ x → x < src + n → m' x = m x) :
    RingBuf.slice m' src n = RingBuf.slice m src n :=
  List.map_congr_left fun k hk => h (src + k) (Nat.le_add_right _ _)
    (by have := List.mem_range.mp hk; omega)

/-- Once there is room, the bytes are stored. -/
theorem Streams.store {src : Nat} (hi : Streams σ buf cap bs)
    (hroom : σ.written.length + total < cap)
    (hsrc : ∀ x, src ≤ x → x < src + total → x < buf + σ.written.length ∨ buf + cap ≤ x) :
    Streams (σ.afterWrite { σ.prog.heap with mem := fwriteStore σ.mem src σ.file total }
      (RingBuf.slice σ.mem src total)) buf cap bs := by
  obtain ⟨hfilled, hout⟩ := hi.filled.stored hi.layout hroom hsrc
  generalize fwriteStore σ.mem src σ.file total = m' at hfilled hout
  exact ⟨hi.holds.stored hi.ranges hi.vars hout, hi.ranges,
    ⟨hi.vars.owned, hi.vars.apart, hi.vars.words⟩, hfilled⟩

/-- **`fwrite` returns.** There is no memory, and nothing has happened; or the bytes are written. -/
theorem Streams.fwrite {src size nmemb : Nat} (hi : Streams σ buf cap bs)
    (hw : σ.Writable src size nmemb)
    (hj : fwriteFull σ.mem σ.file (size * nmemb) →
      σ.prog.JoinsIn mmap (.realloc (File.buf σ.mem σ.file) (newCap σ.mem σ.file (size * nmemb))))
    (hm : ∀ len a, mmap len = some a → σ.prog.Fresh ⟨a, len⟩) (write : Int → Nat → Nat → Int) :
    ∃ h' r, Ends (fun fuel => Libc.fwrite mmap write fuel σ.prog.heap src size nmemb σ.file)
    (bs.length + 2) (h', r)
      ∧ (r = 0 ∧ h' = σ.prog.heap ∧ σ.NoMemory mmap (size * nmemb)
        ∨ r = nmemb ∧ ¬ σ.NoMemory mmap (size * nmemb))
      ∧ ∃ buf' cap' bs', Streams
        (σ.afterWrite h' (if r = 0 then [] else RingBuf.slice σ.mem src (size * nmemb)))
          buf' cap' bs' := by
  obtain ⟨-, -, hbuf, hfcap, hflen, hmem⟩ := fields_eq.mp hi.filled.file
  have hlen := hw.len
  have hcap := hw.cap
  rw [hflen] at hlen
  rw [hfcap] at hcap
  rw [hbuf] at hj
  obtain ⟨h₁, room, hgrow, hno, hyes⟩ := hi.grow hlen hcap hj hm
  -- what follows the growth
  have hends : ∀ r : LibcHeap × Nat, (if room = true then
      ({ h₁ with mem := fwriteStore h₁.mem src σ.file (size * nmemb) }, nmemb) else (h₁, 0)) = r →
      Ends (fun fuel => Libc.fwrite mmap write fuel σ.prog.heap src size nmemb σ.file)
          (bs.length + 2) r := by
    intro r hr
    have hmem : File.isMemstream σ.prog.heap.mem σ.file = true := hmem
    unfold Libc.fwrite
    dsimp only
    simp only [hmem, if_true, u64_of_lt hw.total]
    refine Ends.bind hgrow (g := fun x _ => _) ?_
    subst hr
    cases room with
    | true => exact Ends.pure _ _
    | false => exact Ends.pure _ _
  cases room with
  | false =>
      obtain ⟨rfl, hnone⟩ := hno rfl
      refine ⟨_, _, hends _ rfl, Or.inl ⟨rfl, rfl, hnone⟩, buf, cap, bs, ?_⟩
      rw [if_pos rfl]
      unfold StreamState.afterWrite
      rw [List.append_nil]
      exact hi
  | true =>
      obtain ⟨hsome, buf', cap', bs', hi', hroom, hsrc⟩ := hyes rfl
      have hsource := fun x h1 h2 => hsrc x (hw.source x h1 h2)
      have hbytes : (if nmemb = 0 then [] else RingBuf.slice σ.mem src (size * nmemb))
          = RingBuf.slice h₁.mem src (size * nmemb) := by
        rw [slice_congr fun x h1 h2 => (hsource x h1 h2).1]
        split
        · next h0 => rw [h0, Nat.mul_zero, RingBuf.slice_zero]
        · rfl
      refine ⟨_, _, hends _ rfl, Or.inr ⟨rfl, hsome⟩, buf', cap', bs', ?_⟩
      rw [hbytes]
      exact hi'.store hroom fun x h1 h2 => (hsource x h1 h2).2

/-- `fflush` stores what is there. -/
theorem Streams.fflush (hi : Streams σ buf cap bs) :
    Streams (σ.afterWrite (Libc.fflush σ.prog.heap σ.file).1 []) buf cap bs := by
  have hbuf : buf ≠ 0 := fun h => hi.holds.ne_null (h ▸ List.mem_cons_of_mem _ List.mem_cons_self)
  obtain ⟨m', heq, hfilled, hout⟩ := Filled.flushed (h := σ.prog.heap) hi.filled hi.layout hbuf
  have hh := hi.holds.stored hi.ranges hi.vars hout
  rw [heq]
  unfold StreamState.afterWrite
  rw [List.append_nil]
  exact ⟨hh, hi.ranges, ⟨hi.vars.owned, hi.vars.apart, hi.vars.words⟩, hfilled⟩

end Write

/-! ## `open_memstream` -/

/-- The stores to a new `FILE`. -/
def openFields (m : Mem) (f ptr sizeloc : Nat) : Mem :=
  File.setCap (File.setSizePtr (File.setBufPtr (File.setFd m f (-1)) f ptr) f sizeloc) f 128

section Open

variable {s : MallocState} {h' : LibcHeap} {f ptr sizeloc fuel : Nat} {bs : List Block}
  {mmap : List MapRange → Nat → Option Nat}

/-- **A stream that was opened is empty.** -/
theorem openMemstream_streams (hh : Holds s.heap s.live bs)
    (hr : ∀ r ∈ s.heap.obtained, ∀ r' ∈ s.others, r.Apart r') (hv : Vars s ptr sizeloc)
    (hm : ∀ own len a, mmap own len = some a → MapRange.Fresh ⟨a, len⟩ (own ++ s.others))
    (hd : openMemstream mmap fuel s.heap ptr sizeloc = .done (h', f)) (hf : f ≠ 0) :
    ∃ buf bs', Streams ⟨{ s with heap := h' }, f, ptr, sizeloc, []⟩ buf 128 bs' := by
  have hfresh : ∀ own len a, mmap own len = some a → MapRange.Fresh ⟨a, len⟩ own :=
      fun own len a ha =>
    { hm own len a ha with apart := fun r hro => (hm own len a ha).apart r (List.mem_append_left _ hro) }
  unfold openMemstream at hd
  -- the record of the stream
  obtain ⟨⟨h₁, f₁⟩, hcalloc, hd⟩ := Outcome.bind_eq_done hd
  obtain ⟨h₁', q, bs₁, hends, hh₁, hs₁⟩ :=
    hh.calloc (k := 1) (n := fileLen) (by decide) (hfresh s.heap.obtained)
  cases hends.only hcalloc
  dsimp only at hd
  by_cases hf₁ : f₁ = 0
  · rw [if_pos hf₁] at hd
    cases hd
    exact absurd rfl hf
  rw [if_neg hf₁] at hd
  rw [gain, if_neg hf₁] at hh₁
  change Holds h₁ ((f₁, fileLen) :: s.live) bs₁ at hh₁
  have hr₁ := hs₁.apart hr (hm s.heap.obtained)
  -- its fields are set; the rest of the memory is left alone
  have hfields : fields (openFields h₁.mem f₁ ptr sizeloc) f₁
      = ⟨ptr, sizeloc, File.buf h₁.mem f₁, 128, File.len h₁.mem f₁,
          File.isMemstream h₁.mem f₁⟩ := by
    rw [openFields, fields_setCap (by decide), fields_setSizePtr hv.words.2,
      fields_setBufPtr hv.words.1, fields_setFd]
    rfl
  have hh₁' : Holds { h₁ with mem := openFields h₁.mem f₁ ptr sizeloc }
      ((f₁, fileLen) :: s.live) bs₁ := by
    refine MallocState.store_keeps (s := ⟨h₁, [], _⟩) hh₁ fun x _ hlive => ?_
    have hx : ¬ (f₁ ≤ x ∧ x < f₁ + fileLen) := fun h => hlive ⟨(f₁, fileLen), List.mem_cons_self, h⟩
    unfold fileLen at hx
    unfold openFields
    rw [setCap_out (by omega), setSizePtr_out (by omega), setBufPtr_out (by omega),
      setFd_out (by omega)]
  -- the buffer, which is apart from the record
  obtain ⟨⟨h₂, buf⟩, hmalloc, hd⟩ := Outcome.bind_eq_done hd
  change malloc (mmap h₁.obtained) fuel { h₁ with mem := openFields h₁.mem f₁ ptr sizeloc }
    (File.cap (openFields h₁.mem f₁ ptr sizeloc) f₁) = _ at hmalloc
  rw [(fields_eq.mp hfields).2.2.2.1] at hmalloc
  obtain ⟨h₂', q₂, bs₂, hends₂, hh₂, hs₂, _⟩ :=
    hh₁'.malloc_any (n := 128) (by decide) (hfresh h₁.obtained)
  cases hends₂.only hmalloc
  have hr₂ := Spares.apart (s := ⟨{ h₁ with mem := openFields h₁.mem f₁ ptr sizeloc }, s.others,
    s.live⟩) hs₂ hr₁
    (hm h₁.obtained)
  have hfields₂ := (fields_congr fun x h1 h2 =>
    hs₂.bytes x (Or.inl (hh₁'.behind List.mem_cons_self h1 h2))).trans
    hfields
  -- without a buffer the record is freed again, and there is no stream
  by_cases hb : buf = 0
  · have hbuf₀ : File.buf (File.setBuf h₂.mem f₁ 0) f₁ = 0 := read64_write64_same (by decide)
    subst hb
    dsimp only at hd
    rw [if_pos hbuf₀] at hd
    obtain ⟨h₃, _, hd⟩ := Outcome.bind_eq_done hd
    cases hd
    exact absurd rfl hf
  rw [gain, if_neg hb] at hh₂
  have hh₂ := hh₂.perm (List.Perm.swap ..)
  have hv₂ : Vars { s with heap := h₂ } ptr sizeloc := ⟨hv.owned, hv.apart, hv.words⟩
  have hl := layout (s := { s with heap := h₂ }) hh₂ hr₂ hv₂ (by decide)
  have hlim := hl.lim_lt
  have hfb := hl.file_buf
  have hbuf₁ : File.buf (File.setBuf h₂.mem f₁ buf) f₁ = buf := read64_write64_same (by omega)
  have hbuf₂ : File.buf (File.setIsMemstream
    (File.setLen (setByte (File.setBuf h₂.mem f₁ buf) buf 0) f₁ 0) f₁ true)
      f₁ = buf := by
    have hstored : fields (File.setIsMemstream
      (File.setLen (setByte (File.setBuf h₂.mem f₁ buf) buf 0) f₁ 0) f₁ true)
        f₁ = ⟨ptr, sizeloc, buf, 128, 0, true⟩ := by
      rw [fields_setIsMemstream, fields_setLen (by decide),
        fields_congr fun x h1 h2 => setByte_ne (by omega),
        fields_setBuf (by omega), hfields₂]
    exact (fields_eq.mp hstored).2.2.1
  dsimp only at hd
  rw [hbuf₁, if_neg hb, hbuf₂] at hd
  cases hd
  obtain ⟨hfilled, hout⟩ := Filled.opened hfields₂ hl (by decide)
  unfold openStore at hfilled hout
  exact ⟨buf, bs₂, Holds.stored (s := { s with heap := h₂ }) hh₂ hr₂ hv₂ hout, hr₂,
    ⟨hv.owned, hv.apart, hv.words⟩,
    hfilled⟩

end Open

/-! ## What the program does beside the stream -/

section Program

variable {σ : StreamState} {buf cap q : Nat} {bs : List Block} {mmap : Nat → Option Nat} {c : MallocCall}

/-- A call of the program's names none of the stream's allocations. -/
theorem passOn_perm {a b : Nat × Nat} {live : Live}
    (hr : MallocState.Rightful ⟨⟨fun _ => 0, 0, []⟩, [], live⟩ c)
    (hnd : ((a :: b :: live).map Prod.fst).Nodup) (hnull : 0 ∉ (a :: b :: live).map Prod.fst) :
    (c.passOn (a :: b :: live) q).Perm (a :: b :: c.passOn live q) := by
  have hgain : ∀ (n : Nat) (l : Live), (gain n q (a :: b :: l)).Perm (a :: b :: gain n q l) :=
      fun n l => by
    unfold gain
    split
    · exact .refl _
    · exact (List.Perm.swap ..).trans ((List.Perm.swap ..).cons a)
  have hdrop : ∀ p, p = 0 ∨ p ∈ live.map Prod.fst
      → drop p (a :: b :: live) = a :: b :: drop p live := by
    intro p hp
    have hne : a.1 ≠ p ∧ b.1 ≠ p := by
      rcases hp with rfl | hp
      · exact ⟨fun h => hnull (h ▸ List.mem_cons_self),
          fun h => hnull (h ▸ List.mem_cons_of_mem _ List.mem_cons_self)⟩
      · obtain ⟨ha, hnd⟩ := List.nodup_cons.mp hnd
        exact ⟨fun h => ha (h ▸ List.mem_cons_of_mem _ hp),
          fun h => (List.nodup_cons.mp hnd).1 (h ▸ hp)⟩
    calc drop p (a :: b :: live) = a :: drop p (b :: live) :=
        List.filter_cons_of_pos (decide_eq_true hne.1)
      _ = a :: b :: drop p live := congrArg (a :: ·)
          (List.filter_cons_of_pos (decide_eq_true hne.2))
  cases c with
  | malloc n => exact hgain n live
  | free ptr => rw [MallocCall.passOn, MallocCall.passOn, hdrop ptr hr]
  | realloc ptr n =>
      rw [MallocCall.passOn, MallocCall.passOn, hdrop ptr hr.1]
      split
      · exact .refl _
      · exact hgain n (drop ptr live)
  | calloc nmemb n => exact hgain (nmemb * n) live

theorem Streams.call {fuel : Nat} {h' : LibcHeap} (hi : Streams σ buf cap bs)
    (hr : σ.prog.Rightful c)
    (hj : σ.prog.JoinsIn mmap c) (hm : ∀ len a, mmap len = some a → σ.prog.Fresh ⟨a, len⟩)
    (hc : c.run mmap fuel σ.prog.heap = .done (h', q))
    (hv : Vars ⟨h', σ.prog.others, c.passOn σ.prog.live q⟩ σ.ptr σ.sizeloc) :
    ∃ bs', Streams { σ with prog := ⟨h', σ.prog.others, c.passOn σ.prog.live q⟩ } buf cap bs' := by
  -- for the heap, the stream's allocations are two more of the program's
  have hr' : MallocState.Rightful ⟨σ.prog.heap, σ.prog.others,
      (σ.file, fileLen) :: (buf, cap) :: σ.prog.live⟩ c := by
    have hsub : ∀ {p}, p ∈ σ.prog.live.map Prod.fst →
        p ∈ ((σ.file, fileLen) :: (buf, cap) :: σ.prog.live).map Prod.fst := fun hp =>
      List.mem_cons_of_mem _ (List.mem_cons_of_mem _ hp)
    cases c with
    | malloc n => exact hr
    | free ptr => exact hr.imp_right hsub
    | realloc ptr n => exact ⟨hr.1.imp_right hsub, hr.2⟩
    | calloc nmemb n => exact hr
  have hj' : MallocState.JoinsIn ⟨σ.prog.heap, σ.prog.others,
      (σ.file, fileLen) :: (buf, cap) :: σ.prog.live⟩ mmap c := by
    cases c with
    | malloc n => trivial
    | free ptr => exact hj
    | realloc ptr n => exact hj
    | calloc nmemb n => trivial
  obtain ⟨h₁, q₁, bs', hends, hh, hs⟩ :=
    MallocState.call_keeps (s := ⟨σ.prog.heap, σ.prog.others, _⟩) hi.holds hr' hj' hm
  cases hends.only hc
  have hranges := hs.apart hi.ranges hm
  have hperm : (c.passOn ((σ.file, fileLen) :: (buf, cap) :: σ.prog.live) q).Perm _ :=
    passOn_perm (by cases c <;> exact hr) hi.holds.nodup hi.holds.ne_null
  refine ⟨bs', hh.perm hperm, hranges, hv,
    hi.filled.congr (fun x h1 h2 => ?_) (fun x h1 h2 => ?_) fun x hx => ?_⟩
  · exact hs.bytes x (Or.inl (hi.holds.behind List.mem_cons_self h1 h2))
  · exact hs.bytes x (Or.inl (hi.holds.behind (List.mem_cons_of_mem _ List.mem_cons_self) h1 h2))
  · exact Spares.owned (s := σ.prog) hs hi.holds hranges (hi.vars.owned x hx)

theorem Streams.map {r : MapRange} (hi : Streams σ buf cap bs) (hf : σ.prog.Fresh r) :
    Streams { σ with prog := { σ.prog with others := r :: σ.prog.others } } buf cap bs := by
  refine ⟨hi.holds, fun r₁ h1 r₂ h2 => ?_, ⟨fun x hx => ?_, hi.vars.apart, hi.vars.words⟩,
    hi.filled⟩
  · rcases List.mem_cons.mp h2 with rfl | h2
    · exact hf.apart r₁ (List.mem_append_left _ h1)
    · exact hi.ranges r₁ h1 r₂ h2
  · exact (hi.vars.owned x hx).imp_right fun ⟨r', hr', h⟩ => ⟨r', List.mem_cons_of_mem _ hr', h⟩

theorem Streams.progStore {m' : Mem} (hi : Streams σ buf cap bs)
    (hst : ∀ x, (∃ r ∈ σ.prog.heap.obtained, r.Holds x) → ¬ σ.prog.InLive x → m' x = σ.mem x)
    (hv : ∀ x, InVars σ.ptr σ.sizeloc x → m' x = σ.mem x) :
    Streams { σ with prog := { σ.prog with heap := { σ.prog.heap with mem := m' } } } buf cap
      bs := by
  -- the stream's allocations are in `malloc`'s ranges, and not the program's
  have hown : ∀ a ∈ [(σ.file, fileLen), (buf, cap)], ∀ x, a.1 ≤ x → x < a.1 + a.2
      → m' x = σ.mem x := by
    intro a ha x h1 h2
    have hmem : a ∈ (σ.file, fileLen) :: (buf, cap) :: σ.prog.live := by
      rcases List.mem_cons.mp ha with rfl | ha
      · exact List.mem_cons_self
      · cases List.mem_singleton.mp ha
        exact List.mem_cons_of_mem _ List.mem_cons_self
    refine hst x ?_ fun hlive => ?_
    · have hd := MallocState.disjoint_of_holds (s := ⟨σ.prog.heap, [], _⟩) hi.holds
      obtain ⟨r, hr, h3, h4⟩ := hd.inside a hmem
      have h5 := hd.long a hmem
      exact ⟨r, hr, by omega, by omega⟩
    · have hout := owned_out hi.holds hi.ranges (Or.inl hlive)
      rcases List.mem_cons.mp ha with rfl | ha
      · unfold fileLen at h2
        dsimp only at h1 h2
        omega
      · cases List.mem_singleton.mp ha
        dsimp only at h1 h2
        omega
  refine ⟨MallocState.store_keeps (s := ⟨σ.prog.heap, [], _⟩) hi.holds fun x hin hlive =>
    hst x hin ?_, hi.ranges,
    ⟨hi.vars.owned, hi.vars.apart, hi.vars.words⟩, hi.filled.congr (hown _ List.mem_cons_self)
      (hown _ (List.mem_cons_of_mem _ List.mem_cons_self)) hv⟩
  rintro ⟨a, ha, h⟩
  exact hlive ⟨a, List.mem_cons_of_mem _ (List.mem_cons_of_mem _ ha), h⟩

end Program

/-! ## Runs -/

/-- The ranges that `malloc` has and those the program has itself do not meet. -/
theorem ranges_apart {s : MallocState} (h : Run.Reach MallocState.Starts
    (MallocState.Step MallocState.JoinsIn) s) :
    ∀ r ∈ s.heap.obtained, ∀ r' ∈ s.others, r.Apart r' := by
  induction h with
  | start h0 =>
      cases h0
      exact fun r hr => absurd hr List.not_mem_nil
  | next hreach hstep ih =>
      obtain ⟨bs, hh⟩ := MallocState.holds_reach hreach
      cases hstep with
      | call hr hj hm hc =>
          obtain ⟨h', q, bs', hends, _, hs⟩ := MallocState.call_keeps hh hr hj hm
          cases hends.only hc
          exact hs.apart ih hm
      | map hf =>
          intro r hr r' hr'
          rcases List.mem_cons.mp hr' with rfl | hr'
          · exact hf.apart r (List.mem_append_left _ hr)
          · exact ih r hr r' hr'
      | store _ => exact ih

namespace StreamState

variable {σ : StreamState}

theorem streams_reach (h : Run.Reach (Opened MallocState.JoinsIn) (Step MallocState.JoinsIn) σ) :
    ∃ buf cap bs, Streams σ buf cap bs := by
  refine h.invariant (P := fun σ => ∃ buf cap bs, Streams σ buf cap bs)
    (fun σ h0 => ?_) fun σ σ' hi hs => ?_
  · cases h0 with
    | opened hreach hv hm hd hf =>
        obtain ⟨bs, hh⟩ := MallocState.holds_reach hreach
        obtain ⟨buf, bs', hi⟩ := openMemstream_streams hh (ranges_apart hreach) hv hm hd hf
        exact ⟨buf, 128, bs', hi⟩
  · obtain ⟨buf, cap, bs, hi⟩ := hi
    cases hs with
    | call hr hj hm hc hv =>
        obtain ⟨bs', hi'⟩ := hi.call hr hj hm hc hv
        exact ⟨buf, cap, bs', hi'⟩
    | map hf => exact ⟨buf, cap, bs, hi.map hf⟩
    | store hst hv => exact ⟨buf, cap, bs, hi.progStore hst hv⟩
    | @fwrite _ _ _ _ _ _ write _ hw hj hm hd =>
        obtain ⟨h', r, hends, _, hi'⟩ := hi.fwrite hw hj hm write
        cases hends.only hd
        exact hi'
    | fflush => exact ⟨buf, cap, bs, hi.fflush⟩

theorem exact_of_streams {buf cap : Nat} {bs : List Block} (hi : Streams σ buf cap bs) :
    σ.Exact := by
  obtain ⟨-, -, hbuf, hcap, -, -⟩ := fields_eq.mp hi.filled.file
  have hptr := hi.filled.ptr
  refine ⟨⟨cap, ?_, hi.filled.room⟩, by rw [hptr]; exact hi.filled.bytes, by rw [hptr]; exact hi.filled.nul,
    hi.filled.size⟩
  rw [hptr, live, hbuf, hcap]
  exact List.mem_cons_of_mem _ List.mem_cons_self

/-- **Memory streams accumulate** in every run in which no pass of `free` joins blocks of two
ranges. The next `fwrite` returns, too: without memory it returns zero and nothing has happened,
otherwise it returns the count it was given. -/
theorem memstream_exact (h : Run.Reach (Opened MallocState.JoinsIn) (Step MallocState.JoinsIn) σ) :
    σ.Exact ∧ ∀ (src size nmemb : Nat) (mmap : Nat → Option Nat) (write : Int → Nat → Nat → Int),
      σ.Writable src size nmemb →
      (fwriteFull σ.mem σ.file (size * nmemb) →
        σ.prog.JoinsIn mmap (.realloc (File.buf σ.mem σ.file) (newCap σ.mem σ.file (size * nmemb)))) →
      (∀ len a, mmap len = some a → σ.prog.Fresh ⟨a, len⟩) →
      ∃ n h' r, (∀ fuel, n < fuel → Libc.fwrite mmap write fuel σ.prog.heap src size nmemb σ.file = .done (h', r))
        ∧ (σ.NoMemory mmap (size * nmemb) → r = 0 ∧ h' = σ.prog.heap)
        ∧ (¬ σ.NoMemory mmap (size * nmemb) → r = nmemb) := by
  obtain ⟨buf, cap, bs, hi⟩ := streams_reach h
  refine ⟨exact_of_streams hi, fun src size nmemb mmap write hw hj hm => ?_⟩
  obtain ⟨h', r, hends, hcase, _⟩ := hi.fwrite hw hj hm write
  refine ⟨bs.length + 2, h', r, fun fuel hf => hends.ends hf, fun hno => ?_, fun hsome => ?_⟩
  · rcases hcase with ⟨hr, hh, _⟩ | ⟨_, hsome⟩
    · exact ⟨hr, hh⟩
    · exact absurd hno hsome
  · rcases hcase with ⟨_, _, hno⟩ | ⟨hr, _⟩
    · exact absurd hno hsome
    · exact hr

/-! Runs can be tried out. -/

instance (r : MapRange) (earlier : List MapRange) : Decidable (r.Fresh earlier) :=
  decidable_of_iff (MallocState.Fresh ⟨⟨fun _ => 0, 0, earlier⟩, [], []⟩ r) (by rw [MallocState.Fresh, List.append_nil])

/-- A kernel that gives `r` while no range overlaps it. -/
def freshRange (others : List MapRange) (r : MapRange) (own : List MapRange) (len : Nat) : Option Nat :=
  if len = r.len ∧ r.Fresh (own ++ others) then some r.addr else none

theorem freshRange_fresh {others own : List MapRange} {r : MapRange} {len a : Nat}
    (h : freshRange others r own len = some a) : MapRange.Fresh ⟨a, len⟩ (own ++ others) := by
  unfold freshRange at h
  split at h
  · next hr =>
    cases h
    obtain ⟨rfl, hr⟩ := hr
    exact hr
  · exact absurd h (by simp)

/-- One `open_memstream`, while the kernel has `r` to give. -/
def openTurn (s : MallocState) (r : MapRange) (ptr sizeloc : Nat) : Option StreamState :=
  (openMemstream (freshRange s.others r) 8 s.heap ptr sizeloc).get?.map fun x =>
    ⟨{ s with heap := x.1 }, x.2, ptr, sizeloc, []⟩

/-- One `fwrite`, while the kernel has nothing to give. -/
def writeTurn (σ : StreamState) (src size nmemb : Nat) : Option StreamState :=
  (Libc.fwrite (fun _ => none) (fun _ _ _ => 0) 8 σ.prog.heap src size nmemb σ.file).get?.map fun x =>
    σ.afterWrite x.1 (if x.2 = 0 then [] else RingBuf.slice σ.mem src (size * nmemb))

theorem opened_of_turn {ok : MallocState → (Nat → Option Nat) → MallocCall → Prop} {s : MallocState}
    {r : MapRange}
    {ptr sizeloc : Nat} (hreach : Run.Reach MallocState.Starts (MallocState.Step ok) s)
    (hv : Vars s ptr sizeloc)
    (ht : openTurn s r ptr sizeloc = some σ) (hf : σ.file ≠ 0) : Opened ok σ := by
  obtain ⟨x, hx, rfl⟩ := Option.map_eq_some_iff.mp ht
  obtain ⟨y, hy, rfl⟩ := Outcome.of_get? (f := id) (b := x) (by simpa using hx)
  exact .opened hreach hv (fun _ _ _ h => freshRange_fresh h) hy hf

theorem step_of_writeTurn {ok : MallocState → (Nat → Option Nat) → MallocCall → Prop}
    {σ' : StreamState}
    {src size nmemb : Nat} (hw : σ.Writable src size nmemb)
    (hj : fwriteFull σ.mem σ.file (size * nmemb) → ok σ.prog (fun _ => none)
      (.realloc (File.buf σ.mem σ.file) (newCap σ.mem σ.file (size * nmemb))))
    (ht : σ.writeTurn src size nmemb = some σ') : Step ok σ σ' := by
  obtain ⟨x, hx, rfl⟩ := Option.map_eq_some_iff.mp ht
  obtain ⟨y, hy, rfl⟩ := Outcome.of_get? (f := id) (b := x) (by simpa using hx)
  exact .fwrite hw hj (fun _ _ h => absurd h (by simp)) hy

/-- What a page of the program's own holds, the program owns. -/
theorem owned_page {s : MallocState} {a x : Nat} (hs : s.others = [⟨a, pageSize⟩]) (h1 : a ≤ x)
    (h2 : x < a + pageSize) :
    s.Owned x := Or.inr ⟨⟨a, pageSize⟩, by rw [hs]; exact List.mem_cons_self, h1, h2⟩

theorem vars_page {s : MallocState} {a : Nat} (hs : s.others = [⟨a, pageSize⟩])
    (ha : a + pageSize < 2 ^ 64) :
    Vars s a (a + 8) := by
  unfold pageSize at ha
  refine ⟨fun x hx => owned_page hs ?_ ?_, Or.inl (Nat.le_refl _), by omega, by omega⟩
  all_goals unfold InVars at hx
  · omega
  · unfold pageSize
    omega

/-- A stream whose 128 bytes were too few: 130 bytes of the program's, and a buffer of 386. -/
theorem memstream_exact_grown : ∃ σ : StreamState, σ.written.length = 130 ∧ File.cap σ.mem σ.file = 386 ∧ σ.Exact
    ∧ ∃ n h' r, (∀ fuel, n < fuel → Libc.fwrite (fun _ => none) (fun _ _ _ => 0) fuel σ.prog.heap 0x40010100 5 2 σ.file
        = .done (h', r)) ∧ r = 2 := by
  obtain ⟨σ, hopen, hrest⟩ := Option.map_eq_some_iff.mp (show
    (openTurn ⟨⟨fun _ => 0x41, 0, []⟩, [⟨0x40010000, pageSize⟩], []⟩
      ⟨0x40000000, 65536⟩ 0x40010000 0x40010008).map
      (fun σ => decide (σ.file = 0x40000018 ∧ σ.ptr = 0x40010000 ∧ File.len σ.mem σ.file = 0
        ∧ File.cap σ.mem σ.file = 128 ∧ File.buf σ.mem σ.file = 0x40000068
          ∧ size σ.mem 0x40000050 = 65432
        ∧ newCap σ.mem σ.file 130 = 386 ∧ (σ.writeTurn 0x40010100 1 130).map
          (fun σ' => decide (σ'.file = 0x40000018 ∧ σ'.ptr = 0x40010000 ∧ σ'.written.length = 130
            ∧ File.cap σ'.mem σ'.file = 386 ∧ File.len σ'.mem σ'.file = 130
            ∧ ¬ fwriteFull σ'.mem σ'.file (5 * 2))) = some true))
              = some true from by decide +kernel)
  obtain ⟨hfile, hptr, hlen, hcap, hbuf, hsize, hnew, hrest⟩ := of_decide_eq_true hrest
  obtain ⟨σ', hwrite, hrest⟩ := Option.map_eq_some_iff.mp hrest
  obtain ⟨hfile', hptr', hlength, hcap', hlen', hfits⟩ := of_decide_eq_true hrest
  have hothers : σ.prog.others = [⟨0x40010000, pageSize⟩] := by
    obtain ⟨x, _, rfl⟩ := Option.map_eq_some_iff.mp hopen
    rfl
  have hothers' : σ'.prog.others = [⟨0x40010000, pageSize⟩] := by
    obtain ⟨x, _, rfl⟩ := Option.map_eq_some_iff.mp hwrite
    exact hothers
  have hopened : Opened MallocState.JoinsIn σ :=
    opened_of_turn (.start (.boot _ _)) (vars_page rfl (by decide)) hopen
    (by rw [hfile]; decide)
  -- the block is longer than what is asked for, so nothing moves
  have hstays : fwriteFull σ.mem σ.file (1 * 130) → σ.prog.JoinsIn (fun _ => none)
      (.realloc (File.buf σ.mem σ.file) (newCap σ.mem σ.file (1 * 130))) := fun _ _ => by
    rw [show 1 * 130 = 130 from rfl, hnew, hbuf]
    refine ⟨fun h => absurd h (by decide), fun _ hmoves => absurd hmoves.1 ?_⟩
    rw [show (0x40000068 : Nat) - 24 = 0x40000050 from rfl,
      show size σ.prog.heap.mem 0x40000050 = 65432 from hsize]
    decide
  have hw : σ.Writable 0x40010100 1 130 := by
    refine ⟨by decide, by rw [hlen]; decide, fun _ => by rw [hcap]; decide,
      fun x h1 h2 => ⟨Or.inl (owned_page hothers ?_ ?_), ?_⟩⟩
    · omega
    · unfold pageSize
      omega
    · rw [hptr]
      omega
  have hw' : σ'.Writable 0x40010100 5 2 := by
    refine ⟨by decide, by rw [hlen']; decide, fun h => absurd h hfits,
      fun x h1 h2 => ⟨Or.inl (owned_page hothers' ?_ ?_), ?_⟩⟩
    · omega
    · unfold pageSize
      omega
    · rw [hptr']
      omega
  obtain ⟨hexact, hnext⟩ := memstream_exact
    (.next (.start hopened) (step_of_writeTurn hw hstays hwrite))
  obtain ⟨n, h', r, hends, _, hr⟩ := hnext 0x40010100 5 2 (fun _ => none) (fun _ _ _ => 0) hw'
    (fun h => absurd h hfits) fun _ _ h => absurd h (by simp)
  exact ⟨σ', hlength, hcap', hexact, n, h', r, hends, hr fun h => hfits h.1⟩

/-- The program maps a page at 0x40020000 and puts 100 bytes into it. -/
def mapPage (s : MallocState) : MallocState :=
  ⟨{ s.heap with mem := fun x => if 0x40020100 ≤ x ∧ x < 0x40020164 then 0x41 else s.heap.mem x },
    ⟨0x40020000, pageSize⟩ :: s.others, s.live⟩

theorem mapPage_reach {ok : MallocState → (Nat → Option Nat) → MallocCall → Prop} {s : MallocState}
    (h : Run.Reach MallocState.Starts (MallocState.Step ok) s)
    (hranges : s.heap.obtained = [⟨0x40000000, 65536⟩, ⟨0x40010000, 65536⟩])
    (hothers : s.others = []) :
    Run.Reach MallocState.Starts (MallocState.Step ok) (mapPage s) := by
  have hbelow : ∀ r ∈ s.heap.obtained, r.lim ≤ 0x40020000 := by
    rw [hranges]
    decide
  have hfresh : s.Fresh ⟨0x40020000, pageSize⟩ := by
    rw [MallocState.Fresh, hranges, hothers]
    decide
  refine .next (.next h (.map hfresh)) (.store fun x hx _ => ?_)
  obtain ⟨r, hr, -, hlim⟩ := hx
  have hlt : x < 0x40020000 := Nat.lt_of_lt_of_le hlim (hbelow r hr)
  exact if_neg fun hx => by omega

/-- **A buffer over the program's own memory.** -/
theorem memstream_overrun : ∃ σ : StreamState,
    Run.Reach (Opened fun _ _ _ => True) (Step fun _ _ _ => True) σ ∧ σ.ptr = 0x40020000 ∧ σ.written.length = 100
      ∧ read64 σ.mem σ.ptr = 0x4141414141414141 ∧ ¬ σ.Exact := by
  obtain ⟨s₁, h₁, hrest⟩ := Option.map_eq_some_iff.mp (show
    (MallocState.turn ⟨⟨fun _ => 0, 0, []⟩, [], []⟩ (.malloc 65512) ⟨0x40000000, 65536⟩).map
      (fun s₁ => decide ((s₁.turn (.malloc 65400) ⟨0x40010000, 65536⟩).map
        (fun s₂ => decide (s₂.heap.obtained = [⟨0x40000000, 65536⟩, ⟨0x40010000, 65536⟩]
          ∧ s₂.others = [] ∧ ((((mapPage s₂).turn (.malloc 65512) ⟨0x40021000, 65536⟩).bind
            fun s₃ => s₃.turn (.free 0x40021018) ⟨0x40031000, 65536⟩).bind
            fun s₄ => s₄.turn (.free 0x40000018) ⟨0x40031000, 65536⟩).map
            (fun s₅ => decide (s₅.others = [⟨0x40020000, pageSize⟩]
              ∧ (openTurn s₅ ⟨0x40031000, 65536⟩ 0x40020000 0x40020008).map
                (fun σ => decide (σ.file = 0x40000018 ∧ σ.ptr = 0x40020000
                  ∧ File.len σ.mem σ.file = 0
                  ∧ ¬ fwriteFull σ.mem σ.file (1 * 100) ∧ (σ.writeTurn 0x40020100 1 100).map
                    (fun σ' => decide (σ'.ptr = 0x40020000 ∧ σ'.written.length = 100
                      ∧ read64 σ'.mem σ'.ptr = 0x4141414141414141 ∧ σ'.written.head? = some 0x41
                      ∧ σ'.mem 0x4141414141414141 = 0))
                    = some true)) = some true)) = some true)) = some true))
                      = some true from by decide +kernel)
  obtain ⟨s₂, h₂, hrest⟩ := Option.map_eq_some_iff.mp (of_decide_eq_true hrest)
  obtain ⟨hranges, hnone, hrest⟩ := of_decide_eq_true hrest
  obtain ⟨s₅, h₅, hrest⟩ := Option.map_eq_some_iff.mp hrest
  obtain ⟨s₄, h₄, h₅⟩ := Option.bind_eq_some_iff.mp h₅
  obtain ⟨s₃, h₃, h₄⟩ := Option.bind_eq_some_iff.mp h₄
  obtain ⟨hothers, hrest⟩ := of_decide_eq_true hrest
  obtain ⟨σ, hopen, hrest⟩ := Option.map_eq_some_iff.mp hrest
  obtain ⟨hfile, hptr, hlen, hfits, hrest⟩ := of_decide_eq_true hrest
  obtain ⟨σ', hwrite, hrest⟩ := Option.map_eq_some_iff.mp hrest
  obtain ⟨hptr', hlength, hword, hfirst, hzero⟩ := of_decide_eq_true hrest
  have hmapped : Run.Reach MallocState.Starts (MallocState.Step fun _ _ _ => True) (mapPage s₂) :=
    mapPage_reach (.next (.next
    (.start (MallocState.Starts.boot (fun _ => 0) [])) (MallocState.step_of_turn h₁ trivial))
    (MallocState.step_of_turn h₂ trivial)) hranges hnone
  have hreach := Run.Reach.next (.next (.next hmapped (MallocState.step_of_turn h₃ trivial))
    (MallocState.step_of_turn h₄ trivial)) (MallocState.step_of_turn h₅ trivial)
  have hopened := opened_of_turn hreach (vars_page hothers (by decide)) hopen
    (by rw [hfile]; decide)
  have hothers' : σ.prog.others = [⟨0x40020000, pageSize⟩] := by
    obtain ⟨x, _, rfl⟩ := Option.map_eq_some_iff.mp hopen
    exact hothers
  have hw : σ.Writable 0x40020100 1 100 := by
    refine ⟨by decide, by rw [hlen]; decide, fun h => absurd h hfits, fun x h1 h2 => ⟨Or.inl (owned_page hothers' ?_ ?_), ?_⟩⟩
    · omega
    · unfold pageSize
      omega
    · rw [hptr]
      omega
  refine ⟨σ', .next (.start hopened) (step_of_writeTurn hw (fun h => absurd h hfits) hwrite), hptr',
    hlength, hword, fun he => ?_⟩
  have hbytes := he.bytes
  rw [hword] at hbytes
  cases hw' : σ'.written with
  | nil => rw [hw'] at hlength; exact absurd hlength (by decide)
  | cons c cs =>
      rw [hw', List.head?_cons, Option.some.injEq] at hfirst
      rw [hw'] at hbytes
      exact absurd (hzero.symm.trans (hbytes.1.trans hfirst)) (by decide)

end StreamState

end VnlKernel.Libc
