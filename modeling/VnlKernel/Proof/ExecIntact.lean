import VnlKernel.Kernel.Exec
import VnlKernel.Proof.ElfPages
import VnlKernel.Proof.VfsFds

/-!
# What a failed `execve` leaves behind

Until it cannot fail any more the call writes to nothing of the program's, and on every way
out it closes the file and gives the buffer back. But a file may ask for pages in the
kernel's half of the addresses. The tables of that half are the same in the old root and in
the new one, and a call that fails after it has mapped such a page leaves the page there.
-/

namespace VnlKernel

open ByteMem Bits Radix CString

variable {σ : Type} {fs : FrameService σ} {o : OverPmm fs}

/-- The heap's pages are in other address spaces: mapping one leaves these tables as they are. -/
def HeapElsewhere (o : OverPmm fs) (root : Nat) : Prop :=
  ∀ {s s' : σ} {va : Nat} {frame : Nat → UInt8}, Space o s root → fs.mapPage s va = some (s', frame) →
    ∀ q a k, q.length ≤ 3 → tableAt (fs.phys s) root q = some a → k < pageSize →
      fs.phys s' (a + k) = fs.phys s (a + k)

/-- What is open is open as it was. -/
def SameFds (v v' : Vfs σ) : Prop :=
  ∀ i, (v'.fds i).isOpen = (v.fds i).isOpen ∧ ((v.fds i).isOpen = true → v'.fds i = v.fds i)

/-- What was allocated was freed afterwards. -/
def Freed (log : List HeapCall) : Prop :=
  ∀ before after p, log = before ++ .kmalloc p :: after → p ≠ 0 → .kfree p ∈ after

/-- **The process is intact.** -/
structure ExecIntact (fs : FrameService σ) (log : List HeapCall) (v v' : Vfs σ) (t t' : TaskMem)
    (r r' : Registers) : Prop where
  task : t' = t
  regs : { r' with rax := r.rax } = r
  pages : ∀ va, pageFrame (fs.phys v'.heap.pages) t.cr3Phys va = pageFrame (fs.phys v.heap.pages) t.cr3Phys va
  heap : Freed log
  fds : SameFds v v'

/-- A page of the kernel's half that the file asks for, and that there is a frame for, is under a
large page, or there is no such half. -/
def KernelHalfSpared (o : OverPmm fs) (cr3 : Nat) (im : ExecImage σ) : Prop :=
  ∀ k va, (elfFilePages im.elf im.len)[k]? = some va →
    framesFor (fs.phys im.vfs.heap.pages) im.root ((elfFilePages im.elf im.len).take k)
      < (o.pmm im.vfs.heap.pages).freeFrames →
    SparedAt (fs.phys im.vfs.heap.pages) cr3 im.root va

/-! ## The heap -/

section Log

theorem freed_nil : Freed [] := by
  intro before after p h
  simp at h

theorem freed_null : Freed [.kmalloc 0] := by
  intro before after p h hp
  cases before with
  | nil =>
      cases h
      exact absurd rfl hp
  | cons c before =>
      rw [List.cons_append] at h
      have := (List.cons.inj h).2
      simp at this

theorem freed_pair (p : Nat) : Freed [.kmalloc p, .kfree p] := by
  intro before after q h _
  cases before with
  | nil =>
      cases h
      exact List.mem_singleton_self _
  | cons c before =>
      obtain ⟨_, h⟩ := List.cons.inj h
      cases before with
      | nil => cases h
      | cons c before =>
          have := (List.cons.inj h).2
          simp at this

end Log

section Heap

variable {root : Nat} {s s' : σ}

theorem pmm_grows {p p' : Pmm} (h : Relation.ReflTransGen (fun p p' => p' = (pmmAlloc p).1) p p') :
    ∃ n, p' = allocs n p := by
  induction h with
  | refl => exact ⟨0, rfl⟩
  | tail _ hstep ih =>
      obtain ⟨n, rfl⟩ := ih
      exact ⟨n + 1, by rw [hstep, allocs_add]; rfl⟩

/-- The program does not see the heap grow. -/
theorem Mapped.elsewhere (h : Mapped fs.toPager s s') (hheap : HeapElsewhere o root)
    (hs : Space o s root) :
    Space o s' root ∧ (∃ n, o.pmm s' = allocs n (o.pmm s))
      ∧ (∀ q, q.length ≤ 3 → tableAt (fs.phys s') root q = tableAt (fs.phys s) root q)
      ∧ ∀ v, pageEntry (fs.phys s') root v = pageEntry (fs.phys s) root v := by
  induction h with
  | refl => exact ⟨hs, ⟨0, rfl⟩, fun _ _ => rfl, fun _ => rfl⟩
  | tail _ hstep ih =>
      obtain ⟨hspace, ⟨n, hn⟩, htables, hpages⟩ := ih
      obtain ⟨va, frame, hmap⟩ := hstep
      have hgrows := o.mapPage hmap
      obtain ⟨hinv, hmono⟩ := frameTaken_grows hspace.inv hgrows
      obtain ⟨m, hm⟩ := pmm_grows hgrows
      obtain ⟨hspace', htables', hentries'⟩ := hspace.outside hinv hmono (hheap hspace hmap)
      refine ⟨hspace', ⟨n + m, by rw [hm, hn, allocs_add]⟩,
        fun q hq => (htables' q hq).trans (htables q hq), fun v => ?_⟩
      rw [← hpages v]
      unfold pageEntry pteOf
      rw [hentries' _ _ (by rw [route_length])]

/-- The kernel's pages are still where they should be. -/
theorem KernelSettled.keeps (h : KernelSettled o s root) (hpmm : ∃ n, o.pmm s' = allocs n (o.pmm s))
    (htables : ∀ q, q.length ≤ 3 → tableAt (fs.phys s') root q = tableAt (fs.phys s) root q)
    (hpages : ∀ v, pageEntry (fs.phys s') root v = pageEntry (fs.phys s) root v) :
    KernelSettled o s' root := by
  obtain ⟨n, hn⟩ := hpmm
  intro v hv hpresent
  rw [hpages] at hpresent ⊢
  obtain ⟨hnotFree, hnone⟩ := h v hv hpresent
  refine ⟨fun hfree => hnotFree (hn ▸ hfree).before, fun q hq => ?_⟩
  rw [htables q hq]
  exact hnone q hq

theorem uspaceCreatePml4_pmm (o : OverPmm fs) (s : σ) (cr3 : Nat) :
    o.pmm (uspaceCreatePml4 fs s cr3).1 = allocs 1 (o.pmm s) := by
  have halloc : o.pmm (fs.alloc s).1 = allocs 1 (o.pmm s) := by
    change _ = (pmmAlloc (o.pmm s)).1
    rw [o.alloc s]
  unfold uspaceCreatePml4
  dsimp only
  by_cases h0 : (fs.alloc s).2 = 0
  · rw [if_pos h0]
    exact halloc
  · rw [if_neg h0, o.setPhys, o.setPhys]
    exact halloc

theorem uspaceCreatePml4_none (hm : FlatMemory fs) {cr3 : Nat}
    (h : uspaceCreatePml4 fs s cr3 = (s', 0)) :
    fs.phys s' = fs.phys s := by
  unfold uspaceCreatePml4 at h
  dsimp only at h
  by_cases h0 : (fs.alloc s).2 = 0
  · rw [if_pos h0] at h
    cases h
    exact hm.alloc s
  · rw [if_neg h0] at h
    exact absurd (congrArg Prod.snd h) h0

end Heap

/-! ## The file -/

section File

variable {v v' : Vfs σ}

theorem Created.heap {path : CStr} {k : Nat} (h : Created path k v v') : v'.heap = v.heap := by
  induction h with
  | none v => rfl
  | shm t _ ih => exact ih
  | node _ _ _ _ hcreate ih => exact (createNode_frames hcreate).1.trans ih

/-- Opening a file to read it. -/
theorem vfsOpen_reads {path : CStr} {fd : Int} (h : vfsOpen v path vfsORead = .done (v', fd)) :
    v'.heap.pages = v.heap.pages ∧ (fd < 0 → v'.fds = v.fds)
      ∧ (0 ≤ fd → fd < vfsMaxFds ∧ (v.fds fd.toNat).isOpen = false ∧ ∀ i,
        i ≠ fd.toNat → v'.fds i = v.fds i) := by
  obtain ⟨_, v₁, _, _, hc, hend⟩ := vfsOpen_cases h
  have hheap := hc.heap
  have hfds := hc.fds
  rcases hend with ⟨rfl, hneg⟩ | ⟨k, i, inode, hfree, _, _, rfl, hopened⟩
  · exact ⟨by rw [hheap], fun _ => hfds, fun hc' => absurd hneg (by omega)⟩
  · obtain ⟨_, hlt, hclosed⟩ := freeFd_some hfree
    have hrest := hopened.fds.2.2
    refine ⟨by rw [hopened.frames.1, hheap], fun hc' => absurd hc' (by omega),
      fun _ => ⟨by omega, hclosed, fun i hi => ?_⟩⟩
    rw [hrest i (by omega), hfds]

theorem Moves.fds_ne {k i : Nat} (h : Moves v k v') (hi : i ≠ k) : v'.fds i = v.fds i := by
  rcases h with rfl | ⟨e, rfl⟩
  · rfl
  · exact Vfs.setFd_ne _ hi

theorem vfsClose_closed {fd : Int} (h0 : 0 ≤ fd) (hlt : fd < vfsMaxFds) :
    ((vfsClose v fd).1.fds fd.toNat).isOpen = false := by
  unfold vfsClose
  by_cases hopen : fdOpen v fd = true
  · rw [if_neg (by rw [hopen]; decide)]
    dsimp only
    rw [Vfs.setFd_self]
  · rw [if_pos (by simpa using hopen)]
    have hnot : ¬ (v.fds fd.toNat).isOpen = true := fun hc => hopen (fdOpen_iff.mpr ⟨h0, hlt, hc⟩)
    exact Bool.not_eq_true _ ▸ hnot

/-- A descriptor that was opened and closed again. -/
theorem sameFds_closed {fd : Int} (h0 : 0 ≤ fd) (hlt : fd < vfsMaxFds)
    (hclosed : (v.fds fd.toNat).isOpen = false)
    (hrest : ∀ i, i ≠ fd.toNat → v'.fds i = v.fds i) : SameFds v (vfsClose v' fd).1 := by
  intro i
  by_cases hi : i = fd.toNat
  · subst hi
    rw [vfsClose_closed h0 hlt, hclosed]
    exact ⟨rfl, fun hc => Bool.noConfusion hc⟩
  · rw [(vfsClose_moves v' fd).fds_ne hi, hrest i hi]
    exact ⟨rfl, fun _ => rfl⟩

end File

/-! ## Before the loader -/

section Prepare

variable {fuel : Nat} {input : DevInput} {path : Mem} {v v' : Vfs σ} {t t' : TaskMem} {r r' : Registers}

/-- What the call has done when it fails before the loader, or comes to the loader. -/
structure Prepared (fs : FrameService σ) (v v' : Vfs σ) : Prop where
  fds : SameFds v v'
  heap : ∃ s₁, Mapped fs.toPager v.heap.pages s₁
    ∧ (v'.heap.pages = s₁ ∨ ∃ cr3 root, uspaceCreatePml4 fs s₁ cr3 = (v'.heap.pages, root) ∧ root = 0)

theorem kmallocLogged_done {pg : Pager σ} {heap heap' : Heap σ} {size p : Nat}
    (h : (kmallocLogged pg fuel heap size).out = .done (heap', p)) :
    (kmallocLogged pg fuel heap size).log = [.kmalloc p] ∧ Mapped pg heap.pages heap'.pages := by
  unfold kmallocLogged at h ⊢
  rw [Logged.bind_out] at h
  obtain ⟨⟨heap₁, p₁⟩, hrun, h⟩ := Outcome.bind_eq_done h
  cases h
  rw [Logged.bind_of_done hrun]
  exact ⟨rfl, kmalloc_mapped hrun⟩

theorem kfreeLogged_done {heap heap' : Heap σ} {p : Nat}
    (h : (kfreeLogged heap p).out = .done heap') :
    (kfreeLogged heap p).log = [.kfree p] ∧ heap'.pages = heap.pages := by
  unfold kfreeLogged at h ⊢
  rw [Logged.bind_out, Logged.note_out, Outcome.bind_done] at h
  rw [Logged.bind_of_done (Logged.note_out _)]
  exact ⟨rfl, kfree_pages h⟩

/-- **The file** is in a buffer, or there is an error and the buffer is gone. -/
theorem execRead_cases {file : CStr} {x : Except (Vfs σ × Int) (Vfs σ × Nat × Nat)}
    (h : (execRead fs fuel input v file).out = .done x) :
    (∃ v' e, x = .error (v', e) ∧ Prepared fs v v' ∧ Freed (execRead fs fuel input v file).log)
      ∨ ∃ v' buf n, x = .ok (v', buf, n) ∧ SameFds v v'
        ∧ Mapped fs.toPager v.heap.pages v'.heap.pages
        ∧ (execRead fs fuel input v file).log = [.kmalloc buf] := by
  unfold execRead at h ⊢
  rw [Logged.bind_out] at h
  obtain ⟨⟨v₁, fd⟩, hopen, h⟩ := Outcome.bind_eq_done h
  rw [Logged.lift_out] at hopen
  rw [hopen, Logged.bind_of_done (Logged.lift_out _), Logged.lift_log, List.nil_append]
  obtain ⟨hpages, hfail, hdone⟩ := vfsOpen_reads hopen
  dsimp only at h ⊢
  -- the file was not opened, and nothing was allocated
  by_cases hfd : fd < 0
  · rw [if_pos hfd] at h ⊢
    cases h
    refine Or.inl ⟨_, _, rfl, ⟨fun i => ?_, v₁.heap.pages, ?_, Or.inl rfl⟩, freed_nil⟩
    · rw [hfail hfd]
      exact ⟨rfl, fun _ => rfl⟩
    · rw [hpages]
      exact .refl
  rw [if_neg hfd, Logged.bind_out] at h
  rw [if_neg hfd]
  obtain ⟨hlt, hclosed, hrest⟩ := hdone (by omega)
  obtain ⟨⟨heap, buf⟩, halloc, h⟩ := Outcome.bind_eq_done h
  -- the buffer, which is the only thing that is held
  obtain ⟨hlog, hmapped⟩ := kmallocLogged_done halloc
  rw [hpages] at hmapped
  rw [Logged.bind_of_done halloc, hlog]
  dsimp only at h ⊢
  by_cases hbuf : buf = 0
  · rw [if_pos hbuf] at h ⊢
    cases h
    subst hbuf
    refine Or.inl ⟨_, _, rfl, ⟨sameFds_closed (by omega) hlt hclosed hrest, heap.pages, hmapped,
      ?_⟩, freed_null⟩
    rw [(vfsClose_moves _ fd).frames.1]
    exact Or.inl rfl
  rw [if_neg hbuf] at h ⊢
  -- reading and closing leave the other descriptors as they were
  have hread := vfsRead_moves (v := { v₁ with heap := heap }) fs input fd execFileMax
  have hrest₂ := fun i (hi : i ≠ fd.toNat) => (hread.fds_ne hi).trans (hrest i hi)
  have hheap := congrArg Heap.pages hread.frames.1
  generalize vfsRead fs { v₁ with heap := heap } input fd execFileMax = result at h hrest₂ hheap ⊢
  obtain ⟨v₂, x⟩ := result
  dsimp only at h hrest₂ hheap ⊢
  have hcopied : ∀ v₃ : Vfs σ, v₃ = { v₂ with heap := { v₂.heap with mem := copyIn v₂.heap.mem buf x.bytes x.ret.toNat } } →
      SameFds v (vfsClose v₃ fd).1 ∧ (vfsClose v₃ fd).1.heap.pages = heap.pages := by
    intro v₃ hv₃
    subst hv₃
    refine ⟨sameFds_closed (by omega) hlt hclosed hrest₂, ?_⟩
    rw [(vfsClose_moves _ fd).frames.1]
    exact hheap
  obtain ⟨hfds, hpages₃⟩ := hcopied _ rfl
  generalize (vfsClose { v₂ with heap := { v₂.heap with mem := copyIn v₂.heap.mem buf x.bytes x.ret.toNat } } fd).1 = v₄
    at h hfds hpages₃ ⊢
  -- a file too short for a header: the buffer is freed
  by_cases hshort : x.ret < 64
  · rw [if_pos hshort, Logged.bind_out] at h
    rw [if_pos hshort]
    obtain ⟨heap', hfree, h⟩ := Outcome.bind_eq_done h
    obtain ⟨hlog', hpages'⟩ := kfreeLogged_done hfree
    cases h
    rw [Logged.bind_of_done hfree, hlog']
    refine Or.inl ⟨_, _, rfl, ⟨hfds, heap.pages, hmapped, Or.inl ?_⟩, freed_pair buf⟩
    exact hpages'.trans hpages₃
  · rw [if_neg hshort] at h ⊢
    cases h
    exact Or.inr ⟨_, _, _, rfl, hfds, hpages₃ ▸ hmapped, rfl⟩

/-- **What the call comes to before the loader.** -/
theorem execPrepare_cases {x : Except (Vfs σ × Int) (ExecImage σ)}
    (h : (execPrepare fs fuel input path v t r).out = .done x) :
    (∃ v' e, x = .error (v', e) ∧ Prepared fs v v'
      ∧ Freed (execPrepare fs fuel input path v t r).log)
      ∨ ∃ im s₁, x = .ok im ∧ SameFds v im.vfs ∧ Mapped fs.toPager v.heap.pages s₁
        ∧ uspaceCreatePml4 fs s₁ t.cr3Phys = (im.vfs.heap.pages, im.root) ∧ im.root ≠ 0
        ∧ (execPrepare fs fuel input path v t r).log = [.kmalloc im.buf] := by
  have hsame : Prepared fs v v := ⟨fun i => ⟨rfl, fun _ => rfl⟩, _, .refl, Or.inl rfl⟩
  unfold execPrepare at h ⊢
  -- two refusals before anything is read
  by_cases hcs : r.cs ≠ userCs
  · rw [if_pos hcs] at h ⊢
    cases h
    exact Or.inl ⟨_, _, rfl, hsame, freed_nil⟩
  rw [if_neg hcs] at h ⊢
  generalize copyUserCstring (fs.phys v.heap.pages) t.cr3Phys r.rdi path 256 = copied at h ⊢
  obtain ⟨res, path'⟩ := copied
  dsimp only at h ⊢
  by_cases hres : res < 0
  · rw [if_pos hres] at h ⊢
    cases h
    exact Or.inl ⟨_, _, rfl, hsame, freed_nil⟩
  rw [if_neg hres, Logged.bind_out] at h
  rw [if_neg hres]
  obtain ⟨y, hread, h⟩ := Outcome.bind_eq_done h
  rw [Logged.bind_of_done hread]
  -- the file, or what reading it has left behind
  rcases execRead_cases hread with ⟨v', e, rfl, hprep, hfreed⟩ | ⟨v₁, buf, n, rfl, hfds, hmapped,
    hlog⟩
  · cases h
    refine Or.inl ⟨_, _, rfl, hprep, ?_⟩
    change Freed (_ ++ [])
    rw [List.append_nil]
    exact hfreed
  rw [hlog]
  dsimp only at h ⊢
  obtain ⟨⟨s₂, root⟩, hcreate⟩ : ∃ x, uspaceCreatePml4 fs v₁.heap.pages t.cr3Phys = x := ⟨_, rfl⟩
  rw [hcreate] at h ⊢
  dsimp only at h ⊢
  -- no frame for the root table: the buffer is freed
  by_cases hroot : root = 0
  · rw [if_pos hroot, Logged.bind_out] at h
    rw [if_pos hroot]
    obtain ⟨heap, hfree, h⟩ := Outcome.bind_eq_done h
    obtain ⟨hlog', hpages'⟩ := kfreeLogged_done hfree
    cases h
    rw [Logged.bind_of_done hfree, hlog']
    refine Or.inl ⟨_, _, rfl, ⟨hfds, _, hmapped, Or.inr ⟨t.cr3Phys, root, ?_, hroot⟩⟩,
      freed_pair buf⟩
    change _ = (heap.pages, root)
    rw [hcreate, hpages']
    rfl
  · rw [if_neg hroot] at h ⊢
    cases h
    exact Or.inr ⟨_, v₁.heap.pages, rfl, hfds, hmapped, hcreate, hroot, rfl⟩

end Prepare

/-! ## From the loader on -/

section Start

variable {fuel : Nat} {input : DevInput} {path : Mem} {v v' : Vfs σ} {t t' : TaskMem} {r r' : Registers} {ret : Int}
  {im : ExecImage σ} {s : σ}

/-- The stack is in the lower half. -/
theorem stack_page {x j : Nat} (hj : j < vnlUserStackPages)
    (hx : pageOf x = pageOf (vnlUserStackBase + pageSize * j)) :
    levelFin 3 x ≠ 511 := by
  intro hc
  have hroute := (pageOf_iff.mp hx).1
  have hlevel : levelFin 3 x = levelFin 3 (vnlUserStackBase + pageSize * j) := by
    rw [route, route] at hroute
    exact (List.cons.inj hroute).1
  have hvalue : ((levelFin 3 (vnlUserStackBase + pageSize * j) : Fin 512) : Nat) = 511 := by
    rw [← hlevel, hc]
    rfl
  change (vnlUserStackBase + pageSize * j) / 2 ^ (12 + 9 * 3) % 512 = 511 at hvalue
  unfold vnlUserStackBase at hvalue
  rw [show vnlUserStackPages = 48 from rfl] at hj
  rw [show pageSize = 4096 from rfl] at hvalue
  omega

/-- What a call does that fails in the loader or after it. -/
structure StartFails (o : OverPmm fs) (cr3 : Nat) (im : ExecImage σ) (v' : Vfs σ) : Prop where
  fds : v'.fds = im.vfs.fds
  pages : ∃ vas free', ∃ stack : Nat → Prop, vas <+: elfFilePages im.elf im.len
    ∧ (o.pmm im.vfs.heap.pages).freeFrames = free' + framesFor (fs.phys im.vfs.heap.pages) im.root vas
    ∧ (vas = elfFilePages im.elf im.len ∨ free' = 0) ∧ (∀ x, stack x → levelFin 3 x ≠ 511)
    ∧ Loaded o cr3 im.root (fun x => (∃ va ∈ vas, pageOf x = pageOf va) ∨ stack x) im.vfs.heap.pages v'.heap.pages

theorem ExecImage.start_fails (hm : FlatMemory fs)
    (hsib : Siblings o im.vfs.heap.pages t.cr3Phys im.root)
    (hset : PagesSettled o im.vfs.heap.pages t.cr3Phys im.root)
    (h : (im.start fs t r).out = .done (v', t', r', ret)) (hret : ret < 0) :
    t' = t ∧ r' = r ∧ (im.start fs t r).log = [.kfree im.buf] ∧ StartFails o t.cr3Phys im v' := by
  unfold ExecImage.start at h ⊢
  rw [Logged.bind_out] at h
  obtain ⟨⟨s₁, loaded⟩, hload, h⟩ := Outcome.bind_eq_done h
  rw [Logged.lift_out] at hload
  rw [hload, Logged.bind_of_done (Logged.lift_out _), Logged.lift_log, List.nil_append]
  obtain ⟨vas, hpre, hpages, hend⟩ := elfLoadExec_loaded im.elf hm hsib hset hload
  cases loaded with
  | error e =>
      dsimp only at h ⊢
      rw [Logged.bind_out] at h
      obtain ⟨heap, hfree, h⟩ := Outcome.bind_eq_done h
      obtain ⟨hlog, hkept⟩ := kfreeLogged_done hfree
      cases h
      rw [Logged.bind_of_done hfree, hlog]
      refine ⟨rfl, rfl, rfl, rfl, vas, _, fun _ => False, hpre, hpages.count, hend,
        fun _ hx => hx.elim, ?_⟩
      rw [show heap.pages = s₁ from hkept]
      exact hpages.loaded.congr fun x => or_iff_left id
  | ok image =>
      obtain ⟨entry, brk⟩ := image
      dsimp only at h ⊢
      rw [Logged.bind_out] at h
      obtain ⟨heap, hfree, h⟩ := Outcome.bind_eq_done h
      obtain ⟨hlog, hkept⟩ := kfreeLogged_done hfree
      have hkept : heap.pages = s₁ := hkept
      rw [Logged.bind_of_done hfree, hlog]
      rw [Logged.bind_out] at h
      obtain ⟨⟨s₂, stkOk⟩, hstack, h⟩ := Outcome.bind_eq_done h
      rw [Logged.lift_out, hkept] at hstack
      obtain ⟨k, hk, hfresh, _, _⟩ := mapFreshPages_fresh hm _ _ hpages.loaded.siblings.space hstack
      have hboth := hpages.loaded.trans
        (.fresh hfresh hpages.loaded.siblings.space.inv hpages.loaded.siblings
          hpages.loaded.settled)
      rw [hkept, hstack, Logged.bind_of_done (Logged.lift_out _), Logged.lift_log, List.nil_append]
      cases stkOk with
      | false =>
          cases h
          refine ⟨rfl, rfl, rfl, rfl, vas, _, _, hpre, hpages.count, hend, fun x hx => ?_, hboth⟩
          obtain ⟨j, hj, hx⟩ := hx
          exact stack_page (by omega) hx
      | true =>
          -- nothing can fail any more
          dsimp only at h
          rw [if_neg (by decide), Logged.bind_out] at h
          obtain ⟨s₃, _, h⟩ := Outcome.bind_eq_done h
          rw [Logged.bind_out] at h
          obtain ⟨s₄, _, h⟩ := Outcome.bind_eq_done h
          cases h
          exact absurd hret (by decide)

/-- The two ways of saying which pages were mapped. -/
theorem kernelHalfSpared_iff {cr3 free' : Nat} {vas : List Nat} {stack : Nat → Prop}
    (hpre : vas <+: elfFilePages im.elf im.len)
    (hcount : (o.pmm im.vfs.heap.pages).freeFrames = free' + framesFor
      (fs.phys im.vfs.heap.pages) im.root vas)
    (hend : vas = elfFilePages im.elf im.len ∨ free' = 0)
    (hstack : ∀ x, stack x → levelFin 3 x ≠ 511) :
    (∀ x, (∃ va ∈ vas, pageOf x = pageOf va) ∨ stack x → levelFin 3 x = 511 →
        tableAt (fs.phys im.vfs.heap.pages) cr3 [511] ≠ none
          → UnderLarge (fs.phys im.vfs.heap.pages) im.root x)
      ↔ KernelHalfSpared o cr3 im := by
  constructor
  · intro hall k va hva hframes hhalf htop
    have hk : k < (elfFilePages im.elf im.len).length := (List.getElem?_eq_some_iff.mp hva).1
    have hlt := (lt_length_iff hpre hcount hend hk).mpr hframes
    refine hall va (Or.inl ⟨va, ?_, rfl⟩) hhalf htop
    obtain ⟨rest, hrest⟩ := hpre
    rw [← hrest, List.getElem?_append_left hlt] at hva
    exact List.mem_of_getElem? hva
  · intro hall x hx hhalf htop
    rcases hx with ⟨va, hva, hpage⟩ | hx
    · obtain ⟨k, hlt, hk⟩ := List.getElem_of_mem hva
      have hget : (elfFilePages im.elf im.len)[k]? = some va := by
        obtain ⟨rest, hrest⟩ := hpre
        rw [← hrest, List.getElem?_append_left hlt, List.getElem?_eq_getElem hlt, hk]
      have hk' : k < (elfFilePages im.elf im.len).length := (List.getElem?_eq_some_iff.mp hget).1
      have hroute := (pageOf_iff.mp hpage).1
      have hlevel : levelFin 3 va = 511 := by
        rw [route, route] at hroute
        rw [← (List.cons.inj hroute).1]
        exact hhalf
      exact (hall k va hget ((lt_length_iff hpre hcount hend hk').mp hlt) hlevel htop).of_page hpage
    · exact absurd hhalf (hstack x hx)

end Start

/-! ## The call -/

section Call

variable {fuel : Nat} {input : DevInput} {path : Mem} {v v' : Vfs σ} {t t' : TaskMem} {r r' : Registers} {ret : Int}

/-- Before the loader nothing has happened that a program could see. -/
theorem Prepared.pageFrame (h : Prepared fs v v') (hm : FlatMemory fs) {root : Nat}
    (hheap : HeapElsewhere o root)
    (hs : Space o v.heap.pages root) (va : Nat) :
    VnlKernel.pageFrame (fs.phys v'.heap.pages) root va
      = VnlKernel.pageFrame (fs.phys v.heap.pages) root va := by
  obtain ⟨_, s₁, hmapped, hor⟩ := h
  obtain ⟨_, _, _, hpages⟩ := hmapped.elsewhere hheap hs
  have hsame : fs.phys v'.heap.pages = fs.phys s₁ := by
    rcases hor with he | ⟨cr3, root', hcreate, rfl⟩
    · rw [he]
    · exact uspaceCreatePml4_none hm hcreate
  unfold VnlKernel.pageFrame
  rw [hsame, hpages]

/-- **When a failed `execve` leaves the process intact.** -/
theorem execve_intact_iff (o : OverPmm fs) (hm : FlatMemory fs) (hheap : HeapElsewhere o t.cr3Phys)
    (hs : Space o v.heap.pages t.cr3Phys) (hk : KernelSettled o v.heap.pages t.cr3Phys)
    (h : (sysExecve fs fuel input path v t r).out = .done (v', t', r', ret)) (hret : ret < 0) :
    ExecIntact fs (sysExecve fs fuel input path v t r).log v v' t t' r r'
      ↔ ∀ im, (execPrepare fs fuel input path v t r).out = .done (.ok im) → KernelHalfSpared o t.cr3Phys im := by
  unfold sysExecve at h ⊢
  rw [Logged.bind_out] at h
  obtain ⟨x, hprepare, h⟩ := Outcome.bind_eq_done h
  rw [hprepare, Logged.bind_of_done hprepare]
  rcases execPrepare_cases hprepare with ⟨v₁, e, rfl, hprep, hfreed⟩ | ⟨im, s₁, rfl, hfds, hmapped,
    hcreate, hroot, hlog⟩
  · cases h
    constructor
    · intro _ im him
      cases him
    · intro _
      refine ⟨rfl, rfl, hprep.pageFrame hm hheap hs, ?_, hprep.fds⟩
      change Freed (_ ++ [])
      rw [List.append_nil]
      exact hfreed
  · dsimp only at h ⊢
    rw [Logged.bind_out] at h
    obtain ⟨⟨v₂, t₂, r₂, ret₂⟩, hstart, h⟩ := Outcome.bind_eq_done h
    cases h
    obtain ⟨hspace, hpmm, htables, hpages⟩ := hmapped.elsewhere hheap hs
    have hmade := uspaceCreatePml4_made (o := o) hm hspace hcreate hroot
    have hsettled := hmade.settled hspace (hk.keeps hpmm htables hpages) ⟨1, by
      have hone := uspaceCreatePml4_pmm o s₁ t.cr3Phys
      rw [hcreate] at hone
      exact hone⟩
    have hsib := hmade.siblings hspace
    obtain ⟨rfl, rfl, hlog', hfails⟩ := ExecImage.start_fails hm hsib hsettled hstart hret
    obtain ⟨hfds', vas, free', stack, hpre, hcount, hend, hstack, hloaded⟩ := hfails
    have hframes := (hloaded.pageFrames_iff hsib hsettled).trans
      (kernelHalfSpared_iff hpre hcount hend hstack)
    -- what was there before the root was made
    have hbefore : ∀ va, pageFrame (fs.phys im.vfs.heap.pages) t₂.cr3Phys va
        = pageFrame (fs.phys v.heap.pages) t₂.cr3Phys va := by
      intro va
      obtain ⟨_, _, hentries⟩ := hmade.current hspace
      unfold pageFrame
      rw [← hpages va]
      unfold pageEntry pteOf
      rw [hentries _ _ (by rw [route_length])]
    rw [hlog, Logged.bind_of_done hstart, hlog']
    constructor
    · intro hintact im' him'
      cases him'
      exact hframes.mp fun va => (hintact.pages va).trans (hbefore va).symm
    · intro hspared
      refine ⟨rfl, rfl, fun va => (hframes.mpr (hspared im rfl) va).trans (hbefore va),
        freed_pair _, ?_⟩
      intro i
      rw [hfds']
      exact hfds i

end Call

/-! ## A file with one segment -/

/-- A program of 120 bytes with one segment of a page, of which `filesz` bytes should be in the
file. -/
def segmentElf (vaddr filesz : Nat) : Mem :=
  write64 (write64 (write64 (tinyElf 64) 80 vaddr) 96 filesz) 104 4096

/-- A kernel that has this file at `/x`, and room in the heap to read it. -/
def execVfs (elf : Mem) (s : Pmm × Mem × Nat) : Vfs (Pmm × Mem × Nat) where
  nodes i :=
    if i = 0 then { VFSNode.zero with used := true, type := .dir, name := [slash] }
    else if i = 1 then
      { VFSNode.zero with used := true, inode := 1, name := cstr "x", data := 0xFFFFC00000100000, size := 120 }
    else .zero
  nextInode := 2
  cwd := 0
  fds := fun _ => .zero
  shm := shmInit
  heap :=
    { mem := fun x =>
        if 0xFFFFC00000100000 ≤ x then elf (x - 0xFFFFC00000100000)
        else setSize (fun _ => 0) 0xFFFFC00000000000 0x90000 false x
      freeList := 0xFFFFC00000000000
      heapEnd := 0xFFFFC00000101000
      pages := s }

/-- A program that has a page of its own, with the text `/x` on it. -/
def execMachine : Outcome ((Pmm × Mem × Nat) × Nat × (Pmm × Mem × Nat) × (Pmm × Mem × Nat)) := do
  let (s₁, root) := uspaceCreatePml4 machineFrames bootMachine 0x100000
  let (s₂, _) ← mapFreshPages machineFrames root 1 0x400000 s₁
  let s₃ ← (vnlCopyToUserVa (E := Empty) machineFrames root 0x400000 (fun i => pure ((cstr "/x").getD i 0)) 2 0 s₂).out
  return (s₁, root, s₂, s₃)

/-- The program asks for `/x`. -/
def execRegs : Registers :=
  ⟨0, 0, 0, 0, 0, 0, 0, 0, 0, 0, 0, 0, 0, 0x400000, 0, 0, 0, 0, 59, 0x80, 0, 0x401000, userCs, 0x202, 0x7F82FFC0, 0x23⟩

/-- It has its heap behind its page. -/
def execTask (root : Nat) : TaskMem := ⟨root, 0x401000, 0x401000, 0x40000000⟩

/-- The call there. -/
def execCall (elf : Mem) (root : Nat) (s : Pmm × Mem × Nat) :
    Logged HeapCall (Vfs (Pmm × Mem × Nat) × TaskMem × Registers × Int) :=
  sysExecve machineFrames 5 (fun _ _ => (0, fun _ => 0)) (fun _ => 0) (execVfs elf s) (execTask root) execRegs

theorem machineFrames_elsewhere (root : Nat) : HeapElsewhere machineFrames_over root := by
  intro s s' va frame _ hmap q a k _ _ _
  obtain ⟨p, m, n⟩ := s
  cases n with
  | zero => cases hmap
  | succ n =>
      unfold machineFrames at hmap
      dsimp only at hmap
      split at hmap
      · cases hmap
      · cases hmap
        rfl

theorem execMachine_settled {s₁ s₂ s₃ : Pmm × Mem × Nat} {root : Nat}
    (h : execMachine = .done (s₁, root, s₂, s₃))
    (hroot : root ≠ 0) : Space machineFrames_over s₃ root
      ∧ KernelSettled machineFrames_over s₃ root := by
  unfold execMachine at h
  obtain ⟨⟨s, r⟩, hcreate⟩ : ∃ x, uspaceCreatePml4 machineFrames bootMachine 0x100000 = x :=
    ⟨_, rfl⟩
  rw [hcreate] at h
  dsimp only at h
  obtain ⟨⟨s', all⟩, hmap, h⟩ := Outcome.bind_eq_done h
  obtain ⟨s'', hcopy, h⟩ := Outcome.bind_eq_done h
  cases h
  have hmade := uspaceCreatePml4_made machineFrames_flat bootMachine_space hcreate hroot
  obtain ⟨hs₁, hp₁⟩ := bootMachine_apart hmade
  obtain ⟨k, hk, hfresh, _⟩ := mapFreshPages_fresh machineFrames_flat _ _ hs₁ hmap
  have hp₂ := hfresh.apart hp₁
  obtain ⟨s, hcopy', hkept, _⟩ := vnlCopyToUserVa_kept (E := Empty) machineFrames_flat 0x400000
    (fun i => pure ((cstr "/x").getD i 0)) (fun i => ⟨_, rfl⟩) 2 0 hfresh.changed.space hp₂.off
  cases hcopy'.symm.trans hcopy
  refine ⟨hkept.space, fun v hv hpresent => ?_⟩
  have hother : ∀ j, j < k → pageOf v ≠ pageOf (0x400000 + pageSize * j) := by
    intro j hj hc
    obtain rfl : j = 0 := by omega
    have hroute := (pageOf_iff.mp hc).1
    rw [route, route] at hroute
    rw [(List.cons.inj hroute).1] at hv
    exact absurd hv (by decide)
  rw [hkept.pageEntry_eq, hfresh.old v (Or.inl hother), bootMachine_pages hmade] at hpresent
  exact absurd hpresent (by decide)

/-- What the file asks for, when the call comes to the loader. -/
def execAsks (elf : Mem) (root : Nat) (s : Pmm × Mem × Nat) : Option (List Nat) :=
  match (execPrepare machineFrames 5 (fun _ _ => (0, fun _ => 0)) (fun _ => 0) (execVfs elf s) (execTask root)
    execRegs).out with
  | .done (.ok im) => some (elfFilePages im.elf im.len)
  | _ => none

theorem execAsks_some {elf : Mem} {root : Nat} {s : Pmm × Mem × Nat}
    {im : ExecImage (Pmm × Mem × Nat)} {vas : List Nat}
    (h : execAsks elf root s = some vas)
    (him : (execPrepare machineFrames 5 (fun _ _ => (0, fun _ => 0)) (fun _ => 0)
      (execVfs elf s) (execTask root) execRegs).out = .done (.ok im)) : elfFilePages im.elf im.len
        = vas := by
  unfold execAsks at h
  rw [him] at h
  exact Option.some.inj h

/-- A segment that is not all in the file is refused after its page has been mapped. -/
theorem execMachine_low : ∃ s₁ root s₂ s₃, execMachine = .done (s₁, root, s₂, s₃) ∧ root ≠ 0
    ∧ execAsks (segmentElf 0x500000 4096) root s₃ = some [0x500000]
    ∧ ∃ v' t' r', (execCall (segmentElf 0x500000 4096) root s₃).out
      = .done (v', t', r', -enoexec) := by
  have hrun : (execMachine.get?.map fun x =>
    (x.2.1, execAsks (segmentElf 0x500000 4096) x.2.1 x.2.2.2,
      (execCall (segmentElf 0x500000 4096) x.2.1 x.2.2.2).out.get?.map fun y => y.2.2.2))
      = some (0x103000, some [0x500000], some (-enoexec)) := by decide +kernel
  obtain ⟨⟨s₁, root, s₂, s₃⟩, hmachine, hf⟩ := Outcome.of_get? hrun
  obtain ⟨hroot, hf⟩ := Prod.mk.inj hf
  obtain ⟨hasks, hcall⟩ := Prod.mk.inj hf
  obtain ⟨⟨v', t', r', ret⟩, hdone, hret⟩ := Outcome.of_get? hcall
  dsimp only at hroot hret
  refine ⟨s₁, root, s₂, s₃, hmachine, by omega, hasks, v', t', r', ?_⟩
  rw [← hret]
  exact hdone

/-- Where the page is the program's, no more than that has happened. -/
theorem execve_intact_iff_low : ∃ s₁ root s₂ s₃ v' t' r', execMachine = .done (s₁, root, s₂, s₃)
    ∧ (execCall (segmentElf 0x500000 4096) root s₃).out = .done (v', t', r', -enoexec)
    ∧ ExecIntact machineFrames (execCall (segmentElf 0x500000 4096) root s₃).log
        (execVfs (segmentElf 0x500000 4096) s₃) v' (execTask root) t' execRegs r' := by
  obtain ⟨s₁, root, s₂, s₃, hmachine, hroot, hasks, v', t', r', hdone⟩ := execMachine_low
  obtain ⟨hs, hk⟩ := execMachine_settled hmachine hroot
  refine ⟨s₁, root, s₂, s₃, v', t', r', hmachine, hdone, ?_⟩
  unfold execCall at hdone ⊢
  refine (execve_intact_iff (v := execVfs (segmentElf 0x500000 4096) s₃)
    (t := execTask root) machineFrames_over
    machineFrames_flat (machineFrames_elsewhere root) hs hk hdone (by decide)).mpr
      fun im him k va hva _ hhalf _ => ?_
  rw [execAsks_some hasks him] at hva
  rw [List.mem_singleton.mp (List.mem_of_getElem? hva)] at hhalf
  exact absurd hhalf (by decide)

/-- **A page of the kernel's half** is left behind, and is there for the old program too. -/
theorem execve_intact_all : ¬ ∀ s₁ root s₂ s₃, execMachine = .done (s₁, root, s₂, s₃) →
    ∀ elf v' t' r' ret, (execCall elf root s₃).out = .done (v', t', r', ret) → ret < 0 →
    ExecIntact machineFrames (execCall elf root s₃).log (execVfs elf s₃) v' (execTask root) t' execRegs r' := by
  intro hall
  have hrun : (execMachine.get?.map fun x =>
    (pageFrame (machineFrames.phys x.2.2.2) x.2.1 0xFFFFFF8000000000,
      ((execCall (segmentElf 0xFFFFFF8000000000 4096) x.2.1 x.2.2.2).out.get?.map fun y =>
        (y.2.2.2, (pageFrame (machineFrames.phys y.1.heap.pages)
          x.2.1 0xFFFFFF8000000000).isSome))))
      = some (none, some (-enoexec, true)) := by decide +kernel
  obtain ⟨⟨s₁, root, s₂, s₃⟩, hmachine, hf⟩ := Outcome.of_get? hrun
  obtain ⟨hbefore, hcall⟩ := Prod.mk.inj hf
  obtain ⟨⟨v', t', r', ret⟩, hdone, hf⟩ := Outcome.of_get? hcall
  obtain ⟨hret, hafter⟩ := Prod.mk.inj hf
  dsimp only at hbefore hret hafter hdone
  have hintact := hall s₁ root s₂ s₃ hmachine _ v' t' r' ret hdone (by rw [hret]; decide)
  have hsame := hintact.pages 0xFFFFFF8000000000
  change _ = pageFrame (machineFrames.phys s₃) root 0xFFFFFF8000000000 at hsame
  change pageFrame (machineFrames.phys v'.heap.pages) root 0xFFFFFF8000000000 = _ at hsame
  rw [hsame, hbefore] at hafter
  cases hafter

end VnlKernel
