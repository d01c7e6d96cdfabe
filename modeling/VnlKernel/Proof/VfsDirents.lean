import VnlKernel.Fs.Dirs
import VnlKernel.Lib.Packing
import VnlKernel.Proof.VfsCwd
import VnlKernel.Proof.VfsFound

/-!
# Listing a directory

A directory is `.`, `..` and its children in the order of the node table. A call of
`vfs_getdents64` writes the records from where the descriptor's offset stands, as many as fit
into its buffer, so any buffers that hold one record each see the same listing.

`vfs_readdir` sees it as well, but the two cannot be compared by a program: `vfs_open` refuses
directories, and without a descriptor there is nothing to call `vfs_getdents64` on.
-/

namespace VnlKernel

open ByteMem Bits Packing Run

variable {σ : Type}

/-! ## Records -/

/-- What a directory entry says, apart from its place in the listing. -/
structure DirEntry where
  ino : Nat
  type : Nat
  name : CStr
deriving DecidableEq

/-- A `struct dirent` that has been read. -/
structure Dirent where
  ino : Nat
  off : Nat
  type : Nat
  name : CStr
deriving DecidableEq

/-- The number that these bytes spell, the lowest first. -/
def fromLE : List UInt8 → Nat
  | [] => 0
  | b :: bs => b.toNat + 256 * fromLE bs

/-- Read records one after the other, each as long as it says. A record is a multiple of 8 bytes,
and its name ends inside it. -/
def parseDirents : Nat → List UInt8 → Option (List Dirent)
  | _, [] => some []
  | 0, _ :: _ => none
  | fuel + 1, b :: rest =>
      let bytes := b :: rest
      let reclen := fromLE ((bytes.drop 16).take 2)
      let name := ((bytes.take reclen).drop 19).takeWhile (· ≠ 0)
      if reclen % 8 = 0 ∧ 19 + name.length < reclen ∧ reclen ≤ bytes.length then
        (parseDirents fuel (bytes.drop reclen)).map
          (⟨fromLE (bytes.take 8), fromLE ((bytes.drop 8).take 8), fromLE ((bytes.drop 18).take 1), name⟩ :: ·)
      else none

/-- The length of an entry's record. -/
def DirEntry.size (e : DirEntry) : Nat := direntReclen e.name.length

/-- The records of entries that stand behind `off` others. -/
def recordsFrom : Nat → List DirEntry → List Dirent
  | _, [] => []
  | off, e :: es => ⟨e.ino, off + 1, e.type, e.name⟩ :: recordsFrom (off + 1) es

def Dirent.bytes (r : Dirent) : List UInt8 := direntBytes r.ino r.off (direntReclen r.name.length) r.type r.name

/-- What a record can hold. -/
structure Dirent.Holds (r : Dirent) : Prop where
  ino : r.ino < 2 ^ 64
  off : r.off < 2 ^ 64
  type : r.type < 256
  short : r.name.length ≤ 63
  noZero : (0 : UInt8) ∉ r.name

section Records

variable {r : Dirent} {n : Nat}

theorem direntReclen_eq (h : n < 2 ^ 32) : direntReclen n = (n + 27) / 8 * 8 := by
  unfold direntReclen
  rw [show 19 + n + 1 + 7 = n + 27 by omega]
  exact alignDown_pow (k := 3) (by omega) (by decide)

@[simp] theorem length_leBytes : ∀ (k v : Nat), (leBytes k v).length = k
  | 0, _ => rfl
  | k + 1, v => by rw [leBytes, List.length_cons, length_leBytes k]

theorem fromLE_leBytes : ∀ (k v : Nat), v < 256 ^ k → fromLE (leBytes k v) = v
  | 0, v, h => by
      obtain rfl : v = 0 := by simpa using h
      rfl
  | k + 1, v, h => by
      have hdiv : v / 256 < 256 ^ k := by
        rw [Nat.div_lt_iff_lt_mul (by decide)]
        rw [Nat.pow_succ] at h
        exact h
      rw [leBytes, fromLE, fromLE_leBytes k _ hdiv, UInt8.toNat_ofNat']
      omega

theorem Dirent.Holds.reclen (h : r.Holds) :
    direntReclen r.name.length = (r.name.length + 27) / 8 * 8 :=
  direntReclen_eq (by have := h.short; omega)

theorem Dirent.Holds.length_bytes (h : r.Holds) : r.bytes.length = direntReclen r.name.length := by
  have hshort := h.short
  rw [h.reclen]
  unfold Dirent.bytes direntBytes
  rw [h.reclen]
  simp only [List.length_append, length_leBytes, List.length_replicate]
  omega

/-- **A record that is read is the one that was written.** -/
theorem parseDirents_bytes (h : r.Holds) (fuel : Nat) (rest : List UInt8) :
    parseDirents (fuel + 1) (r.bytes ++ rest) = (parseDirents fuel rest).map (r :: ·) := by
  have hshort := h.short
  have hlen := h.length_bytes
  have hreclen := h.reclen
  -- the fields one by one
  have hbytes : r.bytes = leBytes 8 r.ino ++
    (leBytes 8 r.off ++ (leBytes 2 (direntReclen r.name.length)
      ++ (leBytes 1 r.type ++ (r.name ++ List.replicate
          (direntReclen r.name.length - 19 - r.name.length) 0)))) := by
    unfold Dirent.bytes direntBytes
    simp only [List.append_assoc]
  have hino : (r.bytes ++ rest).take 8 = leBytes 8 r.ino := by
    rw [hbytes, List.append_assoc]
    exact List.take_left' (length_leBytes 8 _)
  have hoff : ((r.bytes ++ rest).drop 8).take 8 = leBytes 8 r.off := by
    rw [hbytes, List.append_assoc, List.drop_left' (length_leBytes 8 _), List.append_assoc]
    exact List.take_left' (length_leBytes 8 _)
  have hfrom16 : (r.bytes ++ rest).drop 16 = leBytes 2 (direntReclen r.name.length)
      ++ (leBytes 1 r.type ++ (r.name ++ List.replicate
          (direntReclen r.name.length - 19 - r.name.length) 0) ++ rest) := by
    rw [hbytes, ← List.append_assoc (leBytes 8 r.ino), List.append_assoc _ _ rest,
      List.drop_left' (by simp), List.append_assoc]
  have hrec : ((r.bytes ++ rest).drop 16).take 2 = leBytes 2 (direntReclen r.name.length) := by
    rw [hfrom16]
    exact List.take_left' (length_leBytes 2 _)
  have htype : ((r.bytes ++ rest).drop 18).take 1 = leBytes 1 r.type := by
    rw [show 18 = 16 + 2 from rfl, ← List.drop_drop, hfrom16, List.drop_left' (length_leBytes 2 _),
      List.append_assoc]
    exact List.take_left' (length_leBytes 1 _)
  have hlenLE : fromLE (leBytes 2 (direntReclen r.name.length)) = direntReclen r.name.length :=
    fromLE_leBytes 2 _ (by rw [hreclen]; omega)
  have hname : (((r.bytes ++ rest).take (direntReclen r.name.length)).drop 19).takeWhile (· ≠ 0)
      = r.name := by
    rw [List.take_left' hlen, hbytes, ← List.append_assoc, ← List.append_assoc, ← List.append_assoc,
      List.drop_left' (by simp), List.takeWhile_append_of_pos]
    · obtain ⟨m, hm⟩ : ∃ m, direntReclen r.name.length - 19 - r.name.length = m + 1 :=
        ⟨direntReclen r.name.length - 19 - r.name.length - 1, by omega⟩
      rw [hm, List.replicate_succ, List.takeWhile_cons_of_neg (by simp), List.append_nil]
    · intro c hc
      simpa using fun h0 : c = 0 => h.noZero (h0 ▸ hc)
  obtain ⟨b, bs, hcons⟩ : ∃ b bs, r.bytes ++ rest = b :: bs := by
    refine List.exists_cons_of_ne_nil fun hnil => ?_
    have := congrArg List.length hnil
    rw [List.length_append, hlen, List.length_nil] at this
    omega
  rw [hcons, parseDirents, ← hcons, hrec, hlenLE, hname, hino, hoff, htype, List.drop_left' hlen,
    fromLE_leBytes 8 _ h.ino, fromLE_leBytes 8 _ h.off, fromLE_leBytes 1 _ h.type, if_pos]
  refine ⟨by omega, by omega, ?_⟩
  rw [List.length_append, hlen]
  exact Nat.le_add_right _ _

/-- **Records that are read are those that were written.** -/
theorem parseDirents_flatMap : ∀ {rs : List Dirent}, (∀ r ∈ rs, r.Holds) → ∀ {fuel : Nat},
    rs.length ≤ fuel →
    parseDirents fuel (rs.flatMap Dirent.bytes) = some rs
  | [], _, fuel, _ => by
      cases fuel with
      | zero => rfl
      | succ fuel => rfl
  | r :: rs, h, 0, hf => absurd hf (by simp)
  | r :: rs, h, fuel + 1, hf => by
      rw [List.flatMap_cons, parseDirents_bytes (h r List.mem_cons_self),
        parseDirents_flatMap (fun r hr => h r (List.mem_cons_of_mem _ hr)) (by simpa using hf)]
      rfl

end Records

/-! ## What a directory lists -/

/-- Is the node in slot `i` a child? The root, which is its own parent, is not its own child. -/
def isChild (v : Vfs σ) (inode i : Nat) : Bool :=
  (v.nodes i).used && (v.nodes i).parent = inode && (v.nodes i).inode ≠ inode

/-- The children in the `left` slots from `i` on. -/
def childrenFrom (v : Vfs σ) (inode left i : Nat) : List VFSNode :=
  ((List.range' i left).filter (isChild v inode)).map v.nodes

/-- All children, in the order of their slots. -/
def childrenOf (v : Vfs σ) (inode : Nat) : List VFSNode := childrenFrom v inode vfsMaxNodes 0

def nodeEntry (n : VFSNode) : DirEntry := ⟨n.inode, direntType n.type, n.name⟩

/-- What the directory in slot `d` lists: itself, its parent and its children. -/
def dirEntries (v : Vfs σ) (d : Nat) : List DirEntry :=
  ⟨(v.nodes d).inode, 4, dot⟩ :: ⟨(v.nodes d).parent, 4, dotdot⟩
    :: (childrenOf v (v.nodes d).inode).map nodeEntry

/-- The descriptor is open on a directory that lists these entries, and stands behind `off` of them.
-/
def Lists (v : Vfs σ) (fd : Int) (es : List DirEntry) (off : Nat) : Prop :=
  fdOpen v fd = true ∧ (v.fds fd.toNat).offset = off
    ∧ ∃ d, nodeGet v (v.fds fd.toNat).inode = some d ∧ (v.nodes d).type = .dir ∧ dirEntries v d = es

/-- Something else has happened: the descriptor stands where it stood, in a directory as it was. -/
def Undisturbed (fd : Int) (v v' : Vfs σ) : Prop := ∀ es off, Lists v fd es off → Lists v' fd es off

section Children

variable {v : Vfs σ} {inode count skip : Nat}

theorem childrenFrom_succ (left i : Nat) : childrenFrom v inode (left + 1) i
    = if isChild v inode i = true then v.nodes i :: childrenFrom v inode left (i + 1)
      else childrenFrom v inode left (i + 1) := by
  unfold childrenFrom
  rw [List.range'_succ, List.filter_cons]
  split
  · rfl
  · rfl

theorem length_childrenFrom (left i : Nat) : (childrenFrom v inode left i).length ≤ left := by
  unfold childrenFrom
  rw [List.length_map]
  exact Nat.le_trans (List.length_filter_le _ _) (Nat.le_of_eq List.length_range')

theorem mem_childrenFrom {left i : Nat} {n : VFSNode} (h : n ∈ childrenFrom v inode left i) :
    ∃ k, i ≤ k ∧ k < i + left ∧ isChild v inode k = true ∧ v.nodes k = n := by
  obtain ⟨k, hk, rfl⟩ := List.mem_map.mp h
  obtain ⟨hr, hc⟩ := List.mem_filter.mp hk
  obtain ⟨h1, h2⟩ := List.mem_range'_1.mp hr
  exact ⟨k, h1, h2, hc, rfl⟩

/-- As many records as fit behind what is written already: the offset afterwards, and all that is
written. -/
def listed (count : Nat) (es : List DirEntry) (off : Nat) (out : List UInt8) : Nat × List UInt8 :=
  (off + fitting DirEntry.size (count - out.length) es,
    out ++ (recordsFrom off (es.take (fitting DirEntry.size (count - out.length) es))).flatMap Dirent.bytes)

theorem listed_nil (off : Nat) (out : List UInt8) : listed count [] off out = (off, out) := by
  simp [listed, fitting, recordsFrom]

/-- The next record does not fit. -/
theorem listed_full {e : DirEntry} {es : List DirEntry} {off : Nat} {out : List UInt8}
    (hpos : 0 < e.size)
    (h : count < out.length + e.size) : listed count (e :: es) off out = (off, out) := by
  unfold listed
  rw [fitting, if_neg (by omega)]
  simp [recordsFrom]

/-- The next record fits. -/
theorem listed_fits {e : DirEntry} {es : List DirEntry} {off : Nat} {out : List UInt8}
    (hlen : (Dirent.mk e.ino (off + 1) e.type e.name).bytes.length = e.size)
    (h : out.length + e.size ≤ count) :
    listed count (e :: es) off out
      = listed count es (off + 1) (out ++ (Dirent.mk e.ino (off + 1) e.type e.name).bytes) := by
  unfold listed
  rw [fitting, if_pos (by omega), List.length_append, hlen,
    show count - (out.length + e.size) = count - out.length - e.size by omega, List.take_succ_cons,
    recordsFrom, List.flatMap_cons, List.append_assoc, Nat.add_right_comm]
  rfl

/-- Names that a record holds. -/
def Fitting (es : List DirEntry) : Prop :=
  ∀ e ∈ es, e.ino < 2 ^ 64 ∧ e.type < 256 ∧ e.name.length ≤ 63 ∧ (0 : UInt8) ∉ e.name

theorem Fitting.holds {es : List DirEntry} (h : Fitting es) {e : DirEntry} (he : e ∈ es) {off : Nat}
    (ho : off < 2 ^ 64) : (Dirent.mk e.ino off e.type e.name).Holds :=
  ⟨(h e he).1, ho, (h e he).2.1, (h e he).2.2.1, (h e he).2.2.2⟩

theorem Fitting.size {es : List DirEntry} (h : Fitting es) {e : DirEntry} (he : e ∈ es) :
    0 < e.size ∧ e.size ≤ 88 := by
  have hshort := (h e he).2.2.1
  unfold DirEntry.size
  rw [direntReclen_eq (by omega)]
  omega

/-- **The loop over the slots** writes the children that have not been listed, as many as fit. -/
theorem getdentsLoop_eq : ∀ (left i passed off : Nat) (out : List UInt8),
    Fitting ((childrenFrom v inode left i).map nodeEntry) → off + left < 2 ^ 64 →
    getdentsLoop v inode count skip left i passed off out
      = listed count (((childrenFrom v inode left i).drop (skip - passed)).map nodeEntry) off out
  | 0, i, passed, off, out, _, _ => by
      rw [getdentsLoop, show childrenFrom v inode 0 i = [] from rfl, List.drop_nil, List.map_nil,
        listed_nil]
  | left + 1, i, passed, off, out, hf, hoff => by
      have hchild : isChild v inode i = true
          ↔ (v.nodes i).used ∧ (v.nodes i).parent = inode ∧ (v.nodes i).inode ≠ inode := by
        unfold isChild
        simp [and_assoc]
      rw [getdentsLoop]
      dsimp only
      by_cases hc : isChild v inode i = true
      · rw [if_pos (hchild.mp hc), childrenFrom_succ, if_pos hc]
        rw [childrenFrom_succ, if_pos hc] at hf
        have hrest : Fitting ((childrenFrom v inode left (i + 1)).map nodeEntry) :=
          fun e he => hf e (List.mem_cons_of_mem _ he)
        by_cases hpass : passed < skip
        · obtain ⟨k, hk⟩ : ∃ k, skip - passed = k + 1 := ⟨skip - passed - 1, by omega⟩
          rw [if_pos hpass, getdentsLoop_eq left (i + 1) (passed + 1) off out hrest (by omega), hk,
            List.drop_succ_cons, show skip - (passed + 1) = k by omega]
        · have hmem : nodeEntry (v.nodes i) ∈
              (v.nodes i :: childrenFrom v inode left (i + 1)).map nodeEntry :=
            List.mem_cons_self
          have hsize := hf.size hmem
          rw [if_neg hpass, show skip - passed = 0 by omega, List.drop_zero, List.map_cons]
          by_cases hfull : out.length + direntReclen (v.nodes i).name.length > count
          · rw [if_pos hfull]
            exact (listed_full (e := nodeEntry (v.nodes i)) hsize.1 hfull).symm
          · have hone : u64 (off + 1) = off + 1 := u64_of_lt (by omega)
            rw [if_neg hfull, hone, getdentsLoop_eq left (i + 1) (passed + 1)
              (off + 1) _ hrest (by omega),
              show skip - (passed + 1) = 0 by omega, List.drop_zero]
            exact (listed_fits (e := nodeEntry (v.nodes i)) (hf.holds hmem (by omega)).length_bytes
              (Nat.not_lt.mp hfull)).symm
      · rw [if_neg (fun h => hc (hchild.mpr h)), childrenFrom_succ, if_neg hc]
        rw [childrenFrom_succ, if_neg hc] at hf
        exact getdentsLoop_eq left (i + 1) passed off out hf (by omega)

theorem length_dirEntries (d : Nat) : (dirEntries v d).length ≤ 258 := by
  have h : (childrenOf v (v.nodes d).inode).length ≤ vfsMaxNodes := length_childrenFrom _ _
  have hmax : vfsMaxNodes = 256 := rfl
  simp only [dirEntries, List.length_cons, List.length_map]
  omega

/-- What is done once `.` has been listed: `..` if it has not been, and the children. -/
theorem getdents_rest {β : Type} (done : Nat → List UInt8 → β) {d k : Nat} {out : List UInt8}
    (hf : Fitting (dirEntries v d)) (hk : 1 ≤ k) (hle : k ≤ 258) :
    (if k = 1 ∧ out.length + direntReclen 2 > count then done k out
      else
        let (off, out) :=
          if k = 1 then (2, out ++ direntBytes (v.nodes d).parent 2 (direntReclen 2) 4 dotdot) else
            (k, out)
        let (off, out) := getdentsLoop v (v.nodes d).inode count (off - 2) vfsMaxNodes 0 0 off out
        done off out)
      = done (listed count ((dirEntries v d).drop k) k out).1
          (listed count ((dirEntries v d).drop k) k out).2 := by
  have hrest : Fitting ((childrenOf v (v.nodes d).inode).map nodeEntry) :=
    fun e he => hf e (List.mem_cons_of_mem _ (List.mem_cons_of_mem _ he))
  have hloop : ∀ (k : Nat) (out : List UInt8), k ≤ 258 →
      getdentsLoop v (v.nodes d).inode count (k - 2) vfsMaxNodes 0 0 k out
        = listed count (((childrenOf v (v.nodes d).inode).map nodeEntry).drop (k - 2)) k out := by
    intro k out hk
    rw [getdentsLoop_eq _ _ _ _ _ hrest (by unfold vfsMaxNodes; omega), Nat.sub_zero,
      ← List.map_drop]
    rfl
  by_cases h1 : k = 1
  · subst h1
    have hmem : (⟨(v.nodes d).parent, 4, dotdot⟩ : DirEntry) ∈ dirEntries v d :=
      List.mem_cons_of_mem _ List.mem_cons_self
    have hdrop : (dirEntries v d).drop 1
        = ⟨(v.nodes d).parent, 4, dotdot⟩ :: (childrenOf v (v.nodes d).inode).map nodeEntry := rfl
    by_cases hfull : out.length + direntReclen 2 > count
    · rw [if_pos ⟨rfl, hfull⟩, hdrop, listed_full (hf.size hmem).1 hfull]
    · rw [if_neg (fun h => hfull h.2), if_pos rfl, hdrop,
        listed_fits (hf.holds hmem (by decide)).length_bytes (Nat.not_lt.mp hfull)]
      dsimp only
      rw [hloop 2 _ (by decide)]
      rfl
  · obtain ⟨m, rfl⟩ : ∃ m, k = m + 2 := ⟨k - 2, by omega⟩
    rw [if_neg (fun h => h1 h.1), if_neg h1]
    dsimp only
    rw [hloop (m + 2) out hle]
    rfl

/-- **One call** writes the records from the descriptor's offset on, as many as fit. -/
theorem getdents_call {fd : Int} {es : List DirEntry} {off : Nat} (hL : Lists v fd es off)
    (hf : Fitting es)
    (hoff : off ≤ es.length) :
    vfsGetdents64 v fd count
      = (v.setFd fd.toNat { v.fds fd.toNat with offset := (listed count (es.drop off) off []).1 },
        toInt32 (listed count (es.drop off) off []).2.length,
            (listed count (es.drop off) off []).2) := by
  obtain ⟨ho, he, d, hg, hd, rfl⟩ := hL
  have hlen := length_dirEntries (v := v) d
  unfold vfsGetdents64
  rw [ho, Bool.not_true, if_neg (by decide)]
  dsimp only
  rw [hg]
  dsimp only
  rw [if_neg (not_not.mpr hd), he]
  by_cases h0 : off = 0
  · subst h0
    have hmem : (⟨(v.nodes d).inode, 4, dot⟩ : DirEntry) ∈ dirEntries v d := List.mem_cons_self
    have hdrop : dirEntries v d = ⟨(v.nodes d).inode, 4, dot⟩ :: (dirEntries v d).drop 1 := rfl
    rw [List.drop_zero]
    by_cases hfull : direntReclen 1 > count
    · rw [if_pos ⟨rfl, hfull⟩, hdrop, listed_full (hf.size hmem).1
        (by rw [List.length_nil, Nat.zero_add]; exact hfull)]
    · rw [if_neg (fun h => hfull h.2), if_pos rfl]
      conv_rhs => rw [hdrop, listed_fits (hf.holds hmem (by decide)).length_bytes
        (by rw [List.length_nil, Nat.zero_add]; exact Nat.not_lt.mp hfull)]
      exact getdents_rest (fun off out => (v.setFd fd.toNat { v.fds fd.toNat with offset := off },
        toInt32 out.length, out)) hf (Nat.le_refl 1) (Nat.le_of_ble_eq_true rfl)
  · rw [if_neg (fun h => h0 h.1), if_neg h0]
    exact getdents_rest (fun off out => (v.setFd fd.toNat { v.fds fd.toNat with offset := off },
      toInt32 out.length, out)) hf (by omega) (by omega)

theorem Lists.moved {fd : Int} {es : List DirEntry} {off : Nat} (hL : Lists v fd es off) (k : Nat) :
    Lists (v.setFd fd.toNat { v.fds fd.toNat with offset := k }) fd es k := by
  obtain ⟨ho, _, d, hg, hd, hes⟩ := hL
  refine ⟨?_, by rw [Vfs.setFd_self], d, by rw [Vfs.setFd_self]; exact hg, hd, hes⟩
  rw [fdOpen_iff] at ho ⊢
  rw [Vfs.setFd_self]
  exact ho

end Children

/-! ## The whole listing -/

section Listing

variable {v : Vfs σ} {es : List DirEntry}

theorem recordsFrom_append : ∀ (off : Nat) (es es' : List DirEntry),
    recordsFrom off (es ++ es') = recordsFrom off es ++ recordsFrom (off + es.length) es'
  | _, [], _ => rfl
  | off, e :: es, es' => by
      rw [List.cons_append, recordsFrom, recordsFrom, recordsFrom_append (off + 1) es es',
        List.length_cons,
        List.cons_append, show off + 1 + es.length = off + (es.length + 1) by omega]

theorem Fitting.records (h : Fitting es) : ∀ {l : List DirEntry} {off : Nat}, (∀ e ∈ l, e ∈ es) →
    off + l.length < 2 ^ 64 → (∀ r ∈ recordsFrom off l, r.Holds)
      ∧ ((recordsFrom off l).flatMap Dirent.bytes).length = (l.map DirEntry.size).sum
      ∧ (recordsFrom off l).length = l.length
  | [], _, _, _ => ⟨by simp [recordsFrom], rfl, rfl⟩
  | e :: l, off, hsub, hoff => by
      rw [List.length_cons] at hoff
      have hfirst : (Dirent.mk e.ino (off + 1) e.type e.name).Holds :=
        h.holds (hsub e List.mem_cons_self) (by omega)
      obtain ⟨h1, h2, h3⟩ : (∀ r ∈ recordsFrom (off + 1) l, r.Holds)
          ∧ ((recordsFrom (off + 1) l).flatMap Dirent.bytes).length = (l.map DirEntry.size).sum
          ∧ (recordsFrom (off + 1) l).length = l.length :=
        h.records (fun x hx => hsub x (List.mem_cons_of_mem _ hx)) (by omega)
      refine ⟨?_, ?_, ?_⟩
      · intro r hr
        rcases List.mem_cons.mp hr with rfl | hr
        · exact hfirst
        · exact h1 r hr
      · rw [recordsFrom, List.flatMap_cons, List.length_append, hfirst.length_bytes, h2]
        rfl
      · rw [recordsFrom, List.length_cons, h3, List.length_cons]

/-- Records take 1 byte at least and 88 at most. -/
theorem Fitting.sizes (h : Fitting es) : ∀ {l : List DirEntry}, (∀ e ∈ l, e ∈ es) →
    l.length ≤ (l.map DirEntry.size).sum ∧ (l.map DirEntry.size).sum ≤ 88 * l.length
  | [], _ => ⟨Nat.le_refl _, Nat.le_refl _⟩
  | e :: l, hsub => by
      obtain ⟨hlo, hhi⟩ := h.size (hsub e List.mem_cons_self)
      obtain ⟨hmany, hsmall⟩ := h.sizes (fun x hx => hsub x (List.mem_cons_of_mem _ hx))
      rw [List.map_cons, List.sum_cons, List.length_cons]
      exact ⟨by omega, by omega⟩

/-- What is in the table fits into records. -/
theorem TreeInv.fitting (hT : TreeInv v) (hS : StoredNames v) (hnum : v.nextInode < 2 ^ 32)
    {d : Nat}
    (hu : (v.nodes d).used = true) : Fitting (dirEntries v d) := by
  have hino : ∀ i, (v.nodes i).used = true → (v.nodes i).inode < 2 ^ 64 := by
    intro i hi
    have := hT.below i hi
    omega
  have htype : ∀ t : VFSNodeType, direntType t < 256 := by
    intro t
    cases t with
    | file => decide
    | dir => decide
    | chr => decide
  have hdots : 4 < 256 ∧ dot.length ≤ 63 ∧ (0 : UInt8) ∉ dot ∧ dotdot.length ≤ 63
      ∧ (0 : UInt8) ∉ dotdot := by
    decide
  intro e he
  rcases List.mem_cons.mp he with rfl | he
  · exact ⟨hino d hu, hdots.1, hdots.2.1, hdots.2.2.1⟩
  · rcases List.mem_cons.mp he with rfl | he
    · refine ⟨?_, hdots.1, hdots.2.2.2.1, hdots.2.2.2.2⟩
      by_cases hd0 : d = 0
      · rw [hd0]
        show (v.nodes 0).parent < 2 ^ 64
        rw [hT.root.2.2.2]
        decide
      · obtain ⟨p, hpu, _, hpi, _⟩ := hT.attached d hu hd0
        show (v.nodes d).parent < 2 ^ 64
        rw [← hpi]
        exact hino p hpu
    · obtain ⟨n, hn, rfl⟩ := List.mem_map.mp he
      obtain ⟨k, _, _, hc, rfl⟩ := mem_childrenFrom hn
      have hku : (v.nodes k).used = true := by
        unfold isChild at hc
        simp only [Bool.and_eq_true] at hc
        exact hc.1.1
      exact ⟨hino k hku, htype _, (hS k hku).1, (hS k hku).2⟩

end Listing

/-- Calls in a row, the `k`-th with a buffer of `size k` bytes in the state `before k`. -/
structure Calls (fd : Int) (v : Vfs σ) (size : Nat → Nat) (before : Nat → Vfs σ) : Prop where
  start : before 0 = v
  next : ∀ k, Undisturbed fd (vfsGetdents64 (before k) fd (size k)).1 (before (k + 1))

section Enumerates

variable {v : Vfs σ} {fd : Int} {es : List DirEntry} {size : Nat → Nat} {before : Nat → Vfs σ}

/-- Where the descriptor stands before each call. -/
theorem Calls.lists (h : Calls fd v size before) (hL : Lists v fd es 0) (hf : Fitting es)
    (k : Nat) :
    Lists (before k) fd es (placed DirEntry.size size es k) := by
  induction k with
  | zero =>
      rw [h.start]
      exact hL
  | succ k ih =>
      refine h.next k es _ ?_
      rw [getdents_call ih hf (placed_le_length k)]
      have hstep : (listed (size k) (es.drop (placed DirEntry.size size es k))
          (placed DirEntry.size size es k) []).1 = placed DirEntry.size size es (k + 1) := rfl
      rw [hstep]
      exact ih.moved _

/-- What each call writes. -/
theorem Calls.bytes (h : Calls fd v size before) (hL : Lists v fd es 0) (hf : Fitting es)
    (k : Nat) :
    (vfsGetdents64 (before k) fd (size k)).2
      = (toInt32 ((recordsFrom (placed DirEntry.size size es k)
      (piece DirEntry.size size es k)).flatMap
          Dirent.bytes).length,
        (recordsFrom (placed DirEntry.size size es k)
        (piece DirEntry.size size es k)).flatMap Dirent.bytes) := by
  rw [getdents_call (h.lists hL hf k) hf (placed_le_length k)]
  rfl

/-- The records of the pieces are the records of the list. -/
theorem records_pieces (n : Nat) : ((List.range n).map fun k =>
      recordsFrom (placed DirEntry.size size es k) (piece DirEntry.size size es k)).flatten
    = recordsFrom 0 (es.take (placed DirEntry.size size es n)) := by
  induction n with
  | zero => rfl
  | succ n ih =>
      have hlen : (es.take (placed DirEntry.size size es n)).length
          = placed DirEntry.size size es n :=
        List.length_take_of_le (placed_le_length n)
      rw [List.range_succ, List.map_append, List.flatten_append, ih, List.map_singleton,
        List.flatten_singleton, placed, List.take_add, recordsFrom_append, hlen, Nat.zero_add]
      rfl

end Enumerates

/-- **`vfs_getdents64` enumerates a directory exactly once**, however the listing is split over
calls. -/
theorem getdents_enumerates {v : Vfs σ} (hT : TreeInv v) (hS : StoredNames v) (hnum : v.nextInode < 2 ^ 32)
    {fd : Int} {d : Nat} (ho : fdOpen v fd = true) (hoff : (v.fds fd.toNat).offset = 0)
    (hg : nodeGet v (v.fds fd.toNat).inode = some d) (hd : (v.nodes d).type = .dir)
    {size : Nat → Nat} (hsize : ∀ k, 88 ≤ size k) {before : Nat → Vfs σ} (hcalls : Calls fd v size before) :
    ∃ (n : Nat) (recs : Nat → List Dirent),
      (∀ k < n, 0 < (vfsGetdents64 (before k) fd (size k)).2.1
        ∧ (vfsGetdents64 (before k) fd (size k)).2.1 ≤ size k
        ∧ (vfsGetdents64 (before k) fd (size k)).2.1 = (vfsGetdents64 (before k) fd (size k)).2.2.length
        ∧ parseDirents (vfsGetdents64 (before k) fd (size k)).2.2.length
            (vfsGetdents64 (before k) fd (size k)).2.2 = some (recs k))
      ∧ ((List.range n).map recs).flatten = recordsFrom 0 (dirEntries v d)
      ∧ ∀ k, n ≤ k → (vfsGetdents64 (before k) fd (size k)).2 = (0, []) := by
  have hu := (nodeGet_some hg).2.1
  have hf : Fitting (dirEntries v d) := hT.fitting hS hnum hu
  have hL : Lists v fd (dirEntries v d) 0 := ⟨ho, hoff, d, hg, hd, rfl⟩
  have hlen := length_dirEntries (v := v) d
  have hfit : ∀ k, ∀ e ∈ dirEntries v d, e.size ≤ size k := fun k e he =>
    Nat.le_trans (hf.size he).2 (hsize k)
  obtain ⟨n, hn, hbefore⟩ := exists_placed hfit
  refine ⟨n, fun k => recordsFrom (placed DirEntry.size size (dirEntries v d) k)
    (piece DirEntry.size size (dirEntries v d) k), fun k hk => ?_, ?_, fun k hk => ?_⟩
  · rw [hcalls.bytes hL hf k]
    have hple : placed DirEntry.size size (dirEntries v d) k ≤ _ := placed_le_length k
    have hsub : ∀ e ∈ piece DirEntry.size size (dirEntries v d) k, e ∈ dirEntries v d := fun e he =>
      List.mem_of_mem_drop (List.mem_of_mem_take he)
    have hplen : (piece DirEntry.size size (dirEntries v d) k).length ≤ 258 := by
      unfold piece
      rw [List.length_take, List.length_drop]
      omega
    obtain ⟨h1, h2, h3⟩ : (∀ r ∈ recordsFrom (placed DirEntry.size size (dirEntries v d) k)
          (piece DirEntry.size size (dirEntries v d) k), r.Holds) ∧ _
            ∧ _ := hf.records hsub (by omega)
    have hroom : ((piece DirEntry.size size (dirEntries v d) k).map DirEntry.size).sum ≤ size k :=
      sum_fitting_le _ _
    -- something fits, and each record takes 20 bytes at least
    have hne : piece DirEntry.size size (dirEntries v d) k ≠ [] := by
      intro hnil
      have hlt : placed DirEntry.size size (dirEntries v d) k
          < placed DirEntry.size size (dirEntries v d) (k + 1) :=
        placed_lt hfit (hbefore k hk)
      have hzero := congrArg List.length hnil
      unfold piece at hzero
      rw [List.length_take, List.length_drop, List.length_nil] at hzero
      rw [placed] at hlt
      have hfl : fitting DirEntry.size (size k)
        ((dirEntries v d).drop (placed DirEntry.size size (dirEntries v d) k))
          ≤ ((dirEntries v d).drop (placed DirEntry.size size (dirEntries v d) k)).length :=
        fitting_le_length _ _
      rw [List.length_drop] at hfl
      omega
    obtain ⟨hmany, hsmall⟩ := hf.sizes hsub
    have hlong : 0 < (piece DirEntry.size size (dirEntries v d) k).length :=
      List.length_pos_of_ne_nil hne
    have hint : toInt32 ((piece DirEntry.size size (dirEntries v d) k).map DirEntry.size).sum
        = ((piece DirEntry.size size (dirEntries v d) k).map DirEntry.size).sum :=
          toInt32_of_lt (by omega)
    dsimp only
    rw [h2, hint]
    refine ⟨by omega, by exact_mod_cast hroom, rfl, parseDirents_flatMap h1 ?_⟩
    omega
  · rw [records_pieces, hn, List.take_length]
  · rw [hcalls.bytes hL hf k]
    have hnil : piece DirEntry.size size (dirEntries v d) k = [] := by
      have hmono : placed DirEntry.size size (dirEntries v d) n
          ≤ placed DirEntry.size size (dirEntries v d) k :=
        placed_mono hk
      have hple : placed DirEntry.size size (dirEntries v d) k ≤ _ := placed_le_length k
      unfold piece
      rw [List.drop_eq_nil_of_le (by omega), List.take_nil]
    rw [hnil]
    rfl

/-- The file system as it starts, and a descriptor on the root. -/
def rootOpenVfs : Vfs Nat := bootVfs.setFd 3 ⟨true, vfsInodeRoot, 0, 1⟩

/-- The states before each of the calls with the smallest buffers. -/
def rootCalls : Nat → Vfs Nat
  | 0 => rootOpenVfs
  | k + 1 => (vfsGetdents64 (rootCalls k) 3 88).1

theorem rootOpenVfs_tree : TreeInv rootOpenVfs ∧ StoredNames rootOpenVfs
    ∧ rootOpenVfs.nextInode < 2 ^ 32 := by
  have hT : TreeOk bootVfs := treeOk_start bootVfs_starts
  have hstored : ∀ i < vfsMaxNodes, (bootVfs.nodes i).used = true →
      (bootVfs.nodes i).name.length ≤ 63 ∧ (0 : UInt8) ∉ (bootVfs.nodes i).name := by
    decide +kernel
  have hset : ∀ (v : Vfs Nat) (e : FDEntry), SameTree v (v.setFd 3 e)
      ∧ (v.setFd 3 e).nodes = v.nodes :=
    fun _ _ => ⟨.of_nodes rfl rfl rfl, rfl⟩
  obtain ⟨hsame, hnodes⟩ := hset bootVfs ⟨true, vfsInodeRoot, 0, 1⟩
  have hnum : rootOpenVfs.nextInode = bootVfs.nextInode := hsame.next
  refine ⟨hT.1.same hsame, fun i hu => ?_, by have := hT.2; omega⟩
  rw [rootOpenVfs, hnodes] at hu ⊢
  exact hstored i (hT.1.bound i hu) hu

/-- The root, with buffers for one record or two. -/
theorem getdents_enumerates_root : ∃ (n : Nat) (recs : Nat → List Dirent),
    (∀ k < n, 0 < (vfsGetdents64 (rootCalls k) 3 88).2.1
      ∧ (vfsGetdents64 (rootCalls k) 3 88).2.1 ≤ 88
      ∧ (vfsGetdents64 (rootCalls k) 3 88).2.1 = (vfsGetdents64 (rootCalls k) 3 88).2.2.length
      ∧ parseDirents (vfsGetdents64 (rootCalls k) 3 88).2.2.length
          (vfsGetdents64 (rootCalls k) 3 88).2.2 = some (recs k))
    ∧ ((List.range n).map recs).flatten = recordsFrom 0 (dirEntries rootOpenVfs 0)
    ∧ ∀ k, n ≤ k → (vfsGetdents64 (rootCalls k) 3 88).2 = (0, []) := by
  have hopen : fdOpen rootOpenVfs 3 = true ∧ (rootOpenVfs.fds (3 : Int).toNat).offset = 0
      ∧ nodeGet rootOpenVfs (rootOpenVfs.fds (3 : Int).toNat).inode = some 0
      ∧ (rootOpenVfs.nodes 0).type = .dir := by
    decide +kernel
  have hcalls : Calls 3 rootOpenVfs (fun _ => 88) rootCalls := ⟨rfl, fun k es off h => h⟩
  exact getdents_enumerates rootOpenVfs_tree.1 rootOpenVfs_tree.2.1 rootOpenVfs_tree.2.2 hopen.1
    hopen.2.1
    hopen.2.2.1 hopen.2.2.2 (fun _ => Nat.le_refl 88) hcalls

/-! ## Listing what is opened -/

/-- The directory behind the descriptor, read to its end with buffers of `size` bytes. -/
def getdentsAll (fd : Int) (size : Nat) : Nat → Vfs σ → Option (List Dirent)
  | 0, _ => none
  | fuel + 1, v =>
      let (v, r, bytes) := vfsGetdents64 v fd size
      if r < 0 then none
      else if r = 0 then some []
      else
        match parseDirents bytes.length bytes with
        | none => none
        | some recs => (getdentsAll fd size fuel v).map (recs ++ ·)

/-- A name without the slash that `vfs_readdir` puts behind a directory's. -/
def unmarked (name : CStr) : CStr := if name.getLast? = some slash then name.dropLast else name

/-- What `opendir` and `readdir` of the C library get hold of on this path is what `vfs_readdir`
reports. -/
def ListingsAgree (v : Vfs σ) (path : CStr) (max : Int) (size : Nat) : Prop :=
  ∃ v' fd fuel recs, vfsOpen v path vfsORead = .done (v', fd) ∧ 0 ≤ fd
    ∧ getdentsAll fd size fuel v' = some recs
    ∧ (recs.map Dirent.name).filter (fun name => name ≠ dot ∧ name ≠ dotdot)
      = (vfsReaddir v path max).2.map unmarked

/-- Directories are not opened. -/
theorem vfsOpen_dir {v v' : Vfs σ} {path : CStr} {flags d : Nat} {r : Int}
    (h0 : 0 ≤ vfsResolve v path)
    (hg : nodeGet v (toU32 (vfsResolve v path)) = some d) (hd : (v.nodes d).type = .dir)
    (h : vfsOpen v path flags = .done (v', r)) : r < 0 := by
  -- an object behind the path changes nothing about the nodes
  have hinode : ∀ (t : ShmTable) (fd : Nat),
      openInode { v with shm := t } fd flags (vfsResolve v path)
          = .done ({ v with shm := t }, -1) := by
    intro t fd
    have hg' : nodeGet { v with shm := t } (toU32 (vfsResolve v path)) = some d := hg
    unfold openInode
    rw [hg']
    exact if_pos hd
  have hcreate : ∀ t : ShmTable, openCreate { v with shm := t } path flags (vfsResolve v path)
      = ({ v with shm := t }, .inl (vfsResolve v path)) := fun t => if_neg (by omega)
  unfold vfsOpen at h
  cases hfd : freeFd v with
  | none =>
      rw [hfd] at h
      cases h
      decide
  | some fd =>
      rw [hfd] at h
      dsimp only at h
      by_cases hp : path.take 9 = devShmPrefix
      · obtain ⟨⟨shm, idx⟩, hs⟩ : ∃ x, shmOpenObject v.shm (path.drop 9) = x := ⟨_, rfl⟩
        have hres : vfsResolve { v with shm := shm } path = vfsResolve v path :=
          (SameTree.of_nodes rfl rfl rfl : SameTree v { v with shm := shm }).resolve_eq rfl path
        unfold openLookup at h
        rw [if_pos hp, hs] at h
        dsimp only at h
        by_cases hidx : idx < 0
        · rw [if_pos hidx] at h
          cases h
          exact hidx
        · rw [if_neg hidx, hres, if_neg (by omega)] at h
          dsimp only at h
          rw [hcreate] at h
          dsimp only at h
          rw [hinode] at h
          cases h
          decide
      · unfold openLookup at h
        rw [if_neg hp] at h
        dsimp only at h
        have hv : openCreate v path flags (vfsResolve v path) = (v, .inl (vfsResolve v path)) :=
          hcreate v.shm
        have hi : openInode v fd flags (vfsResolve v path) = .done (v, -1) := hinode v.shm fd
        rw [hv] at h
        dsimp only at h
        rw [hi] at h
        cases h
        decide

/-- Where `vfs_readdir` succeeds there is a directory. -/
theorem vfsReaddir_dir {v : Vfs σ} {path : CStr} {max : Int} (h : 0 ≤ (vfsReaddir v path max).1) :
    0 ≤ vfsResolve v path ∧ ∃ d, nodeGet v (toU32 (vfsResolve v path)) = some d
      ∧ (v.nodes d).type = .dir := by
  unfold vfsReaddir at h
  dsimp only at h
  by_cases hres : vfsResolve v path < 0
  · rw [if_pos hres] at h
    exact absurd h (by decide)
  · rw [if_neg hres] at h
    cases hg : nodeGet v (toU32 (vfsResolve v path)) with
    | none =>
        rw [hg] at h
        dsimp only at h
        exact absurd h (by decide)
    | some d =>
        rw [hg] at h
        dsimp only at h
        by_cases hd : (v.nodes d).type = .dir
        · exact ⟨by omega, d, rfl, hd⟩
        · rw [if_pos hd] at h
          exact absurd h (by decide)

/-- **The listings never agree**: there is no descriptor to list a directory by. -/
theorem vfsReaddir_unmatched {v : Vfs σ} {path : CStr} {max : Int} (h : 0 ≤ (vfsReaddir v path max).1)
    (size : Nat) : ¬ ListingsAgree v path max size := by
  rintro ⟨v', fd, _, _, hopen, hfd, _⟩
  obtain ⟨h0, d, hg, hd⟩ := vfsReaddir_dir h
  have := vfsOpen_dir h0 hg hd hopen
  omega

/-- The root of the file system as it starts has six entries, and is not opened. -/
theorem vfsOpen_root_refused : Reach Vfs.Starts (Vfs.Steps zeroedService) bootVfs
    ∧ (vfsReaddir bootVfs (cstr "/") 64).1 = 6 ∧ ¬ ListingsAgree bootVfs (cstr "/") 64 1024 := by
  refine ⟨.start bootVfs_starts, by decide +kernel, ?_⟩
  rintro ⟨v', fd, _, _, hopen, hfd, _⟩
  have hroot : 0 ≤ vfsResolve bootVfs (cstr "/")
      ∧ nodeGet bootVfs (toU32 (vfsResolve bootVfs (cstr "/"))) = some 0
          ∧ (bootVfs.nodes 0).type = .dir := by
    decide +kernel
  have := vfsOpen_dir hroot.1 hroot.2.1 hroot.2.2 hopen
  omega

/-- Any listing of it will do. -/
theorem vfsReaddir_unmatched_root : 0 ≤ (vfsReaddir bootVfs (cstr "/") 64).1
    ∧ ¬ ListingsAgree bootVfs (cstr "/") 64 1024 := by
  have h : 0 ≤ (vfsReaddir bootVfs (cstr "/") 64).1 := by decide +kernel
  exact ⟨h, vfsReaddir_unmatched h 1024⟩

end VnlKernel
