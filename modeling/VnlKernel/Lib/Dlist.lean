import VnlKernel.Lib.ByteMem

/-!
# Doubly linked lists threaded through memory

An intrusive list keeps its links inside the nodes it links: one word holding the
address of the previous node, one holding the address of the next, zero for "no
such node". A program changes such a list in two ways, **unlinking** a node from
wherever it stands and **pushing** a node at the front, and each is a handful of
stores into nodes that are already on the list.

`Seg` describes a stretch of the list between two given neighbours, which is what
makes both edits local: cutting a list at any point leaves two segments, and an
edit rewrites one word at each side of the cut.
-/

namespace ByteMem

/-- Where a node keeps its two links. All of it lies in the first `width` bytes. -/
structure NodeLayout where
  /-- Offset of the link to the previous node. -/
  prevOff : Nat
  /-- Offset of the link to the next node. -/
  nextOff : Nat
  /-- The links end before this offset. -/
  width : Nat
  prev_lt : prevOff + 8 ≤ nextOff
  next_lt : nextOff + 8 ≤ width

variable (L : NodeLayout)

def NodeLayout.prev (m : Mem) (x : Nat) : Nat := read64 m (x + L.prevOff)

def NodeLayout.next (m : Mem) (x : Nat) : Nat := read64 m (x + L.nextOff)

def NodeLayout.setPrev (m : Mem) (x v : Nat) : Mem := write64 m (x + L.prevOff) v

def NodeLayout.setNext (m : Mem) (x v : Nat) : Mem := write64 m (x + L.nextOff) v

/-- The nodes `xs`, linked to one another, with `p` before them and `n` after. -/
def Seg (m : Mem) (p : Nat) : List Nat → Nat → Prop
  | [], _ => True
  | x :: xs, n => x ≠ 0 ∧ L.prev m x = p ∧ L.next m x = xs.headD n ∧ Seg m x xs n

/-- The link words of two nodes of the list never overlap. -/
def Apart (xs : List Nat) : Prop :=
  ∀ x ∈ xs, ∀ y ∈ xs, x ≠ y → x + L.width ≤ y ∨ y + L.width ≤ x

/-- A whole list: it starts at `head` and ends in zero both ways. -/
structure Dlist (m : Mem) (head : Nat) (xs : List Nat) : Prop where
  head_eq : head = xs.headD 0
  seg : Seg L m 0 xs 0
  nodup : xs.Nodup
  apart : Apart L xs
  lt : ∀ x ∈ xs, x < 2 ^ 64

/-- Take `x` off the list that starts at `head`. -/
def unlink (m : Mem) (head x : Nat) : Mem × Nat :=
  let (m, head) :=
    if L.prev m x ≠ 0 then (L.setNext m (L.prev m x) (L.next m x), head)
    else (m, L.next m x)
  let m := if L.next m x ≠ 0 then L.setPrev m (L.next m x) (L.prev m x) else m
  (L.setPrev (L.setNext m x 0) x 0, head)

/-- Put `x` at the front of the list that starts at `head`. -/
def pushFront (m : Mem) (head x : Nat) : Mem × Nat :=
  let m := L.setPrev (L.setNext m x head) x 0
  let m := if head ≠ 0 then L.setPrev m head x else m
  (m, x)

variable {L}

/-! ## Single link stores -/

section Stores

variable {m : Mem} {x y v : Nat}

theorem prev_setPrev_self (hv : v < 2 ^ 64) : L.prev (L.setPrev m x v) x = v :=
  read64_write64_same hv

theorem next_setNext_self (hv : v < 2 ^ 64) : L.next (L.setNext m x v) x = v :=
  read64_write64_same hv

theorem next_setPrev_self : L.next (L.setPrev m x v) x = L.next m x :=
  read64_write64_disj (Or.inr (by have := L.prev_lt; omega))

theorem prev_setNext_self : L.prev (L.setNext m x v) x = L.prev m x :=
  read64_write64_disj (Or.inl (by have := L.prev_lt; omega))

theorem prev_setPrev_ne (h : x + L.width ≤ y ∨ y + L.width ≤ x) :
    L.prev (L.setPrev m x v) y = L.prev m y :=
  read64_write64_disj (by have := L.prev_lt; have := L.next_lt; omega)

theorem next_setPrev_ne (h : x + L.width ≤ y ∨ y + L.width ≤ x) :
    L.next (L.setPrev m x v) y = L.next m y :=
  read64_write64_disj (by have := L.prev_lt; have := L.next_lt; omega)

theorem prev_setNext_ne (h : x + L.width ≤ y ∨ y + L.width ≤ x) :
    L.prev (L.setNext m x v) y = L.prev m y :=
  read64_write64_disj (by have := L.prev_lt; have := L.next_lt; omega)

theorem next_setNext_ne (h : x + L.width ≤ y ∨ y + L.width ≤ x) :
    L.next (L.setNext m x v) y = L.next m y :=
  read64_write64_disj (by have := L.prev_lt; have := L.next_lt; omega)

theorem setPrev_out {a : Nat} (h : a < x + L.prevOff ∨ x + L.width ≤ a) :
    L.setPrev m x v a = m a :=
  write64_out (by have := L.prev_lt; have := L.next_lt; omega)

theorem setNext_out {a : Nat} (h : a < x + L.prevOff ∨ x + L.width ≤ a) :
    L.setNext m x v a = m a :=
  write64_out (by have := L.prev_lt; have := L.next_lt; omega)

end Stores

/-! ## Segments -/

/-- Only the link words of its own nodes matter to a segment. -/
theorem seg_congr {m m' : Mem} : ∀ {xs : List Nat} {p n : Nat},
    (∀ x ∈ xs, L.prev m' x = L.prev m x ∧ L.next m' x = L.next m x) →
    Seg L m p xs n → Seg L m' p xs n
  | [], _, _, _, _ => trivial
  | x :: xs, p, n, hag, ⟨h0, hp, hn, hrest⟩ => by
      obtain ⟨e1, e2⟩ := hag x List.mem_cons_self
      exact ⟨h0, e1.trans hp, e2.trans hn,
        seg_congr (fun y hy => hag y (List.mem_cons_of_mem _ hy)) hrest⟩

theorem seg_append {m : Mem} : ∀ {xs ys : List Nat} {p n : Nat},
    Seg L m p (xs ++ ys) n ↔ Seg L m p xs (ys.headD n) ∧ Seg L m (xs.getLastD p) ys n
  | [], ys, p, n => by simp [Seg]
  | x :: xs, ys, p, n => by
      have ih := @seg_append m xs ys x n
      have hh : (xs ++ ys).headD n = xs.headD (ys.headD n) := by cases xs <;> simp
      have hl : (x :: xs).getLastD p = xs.getLastD x := by cases xs <;> rfl
      simp only [List.cons_append, Seg, ih, hh, hl]
      constructor
      · rintro ⟨a, b, c, d, e⟩; exact ⟨⟨a, b, c, d⟩, e⟩
      · rintro ⟨⟨a, b, c, d⟩, e⟩; exact ⟨a, b, c, d, e⟩

theorem seg_ne_zero {m : Mem} : ∀ {xs : List Nat} {p n x : Nat},
    Seg L m p xs n → x ∈ xs → x ≠ 0
  | _ :: _, _, _, _, ⟨h0, _, _, hrest⟩, hx => by
      rcases List.mem_cons.mp hx with rfl | hx
      · exact h0
      · exact seg_ne_zero hrest hx

/-- Redirect the link that leaves a segment at its far end. -/
theorem seg_setNext {m : Mem} {xs : List Nat} {y p n v : Nat} (hv : v < 2 ^ 64)
    (hnd : (xs ++ [y]).Nodup) (hap : Apart L (xs ++ [y])) (h : Seg L m p (xs ++ [y]) n) :
    Seg L (L.setNext m y v) p (xs ++ [y]) v := by
  obtain ⟨h1, h2⟩ := seg_append.mp h
  have hyx : ∀ x ∈ xs, y + L.width ≤ x ∨ x + L.width ≤ y := by
    intro x hx
    refine hap y (by simp) x (by simp [hx]) ?_
    rintro rfl
    rw [List.nodup_append] at hnd
    exact hnd.2.2 _ hx _ (by simp) rfl
  refine seg_append.mpr ⟨?_, ?_⟩
  · exact seg_congr (fun x hx => ⟨prev_setNext_ne (hyx x hx), next_setNext_ne (hyx x hx)⟩) h1
  · obtain ⟨h0, hp, _, _⟩ := h2
    exact ⟨h0, prev_setNext_self.trans hp, next_setNext_self hv, trivial⟩

/-- Redirect the link that leaves a segment at its near end. -/
theorem seg_setPrev {m : Mem} {ys : List Nat} {y p n v : Nat} (hv : v < 2 ^ 64)
    (hnd : (y :: ys).Nodup) (hap : Apart L (y :: ys)) (h : Seg L m p (y :: ys) n) :
    Seg L (L.setPrev m y v) v (y :: ys) n := by
  obtain ⟨h0, _, hn, hrest⟩ := h
  have hyx : ∀ x ∈ ys, y + L.width ≤ x ∨ x + L.width ≤ y := by
    intro x hx
    refine hap y (by simp) x (by simp [hx]) ?_
    rintro rfl
    exact (List.nodup_cons.mp hnd).1 hx
  exact ⟨h0, prev_setPrev_self hv, next_setPrev_self.trans hn,
    seg_congr (fun x hx => ⟨prev_setPrev_ne (hyx x hx), next_setPrev_ne (hyx x hx)⟩) hrest⟩

theorem Apart.subset {xs ys : List Nat} (h : Apart L ys) (hs : ∀ x ∈ xs, x ∈ ys) : Apart L xs :=
  fun x hx y hy hne => h x (hs x hx) y (hs y hy) hne

/-! ## Whole lists -/

/-- A list survives any change that misses its link words. -/
theorem Dlist.congr {m m' : Mem} {head : Nat} {xs : List Nat} (h : Dlist L m head xs)
    (hag : ∀ x ∈ xs, ∀ a, x + L.prevOff ≤ a → a < x + L.width → m' a = m a) :
    Dlist L m' head xs where
  head_eq := h.head_eq
  nodup := h.nodup
  apart := h.apart
  lt := h.lt
  seg := by
    refine seg_congr (fun x hx => ⟨?_, ?_⟩) h.seg
    · exact read64_congr fun a h1 h2 =>
        hag x hx a h1 (by have := L.prev_lt; have := L.next_lt; omega)
    · exact read64_congr fun a h1 h2 =>
        hag x hx a (by have := L.prev_lt; omega) (by have := L.next_lt; omega)

theorem Dlist.ne_zero {m : Mem} {head x : Nat} {xs : List Nat} (h : Dlist L m head xs)
    (hx : x ∈ xs) : x ≠ 0 := seg_ne_zero h.seg hx

/-- The neighbours a node of the list records. -/
theorem Dlist.neighbours {m : Mem} {head x : Nat} {l r : List Nat}
    (h : Dlist L m head (l ++ x :: r)) :
    L.prev m x = l.getLastD 0 ∧ L.next m x = r.headD 0 := by
  obtain ⟨_, _, hp, hn, _⟩ := seg_append.mp h.seg
  exact ⟨hp, hn⟩

theorem Dlist.singleton {m : Mem} {x : Nat} (h0 : x ≠ 0) (hlt : x < 2 ^ 64)
    (hp : L.prev m x = 0) (hn : L.next m x = 0) : Dlist L m x [x] where
  head_eq := rfl
  seg := ⟨h0, hp, hn, trivial⟩
  nodup := by simp
  apart := by
    intro a ha b hb hne
    rw [List.mem_singleton] at ha hb
    exact absurd (ha.trans hb.symm) hne
  lt := by simpa using hlt

section Edits

variable {m : Mem} {head x : Nat}

/-- What the first store of an unlink leaves: the part before `x` now leads past it. -/
theorem unlink_before {l r : List Nat} (h : Dlist L m head (l ++ x :: r)) :
    ∃ m₁ head₁, (if L.prev m x ≠ 0 then (L.setNext m (L.prev m x) (L.next m x), head)
        else (m, L.next m x)) = (m₁, head₁)
      ∧ head₁ = (l ++ r).headD 0
      ∧ Seg L m₁ 0 l (r.headD 0) ∧ Seg L m₁ x r 0
      ∧ L.prev m₁ x = l.getLastD 0 ∧ L.next m₁ x = r.headD 0
      ∧ ∀ a, (∀ y ∈ l, a < y + L.prevOff ∨ y + L.width ≤ a) → m₁ a = m a := by
  obtain ⟨hp, hn⟩ := h.neighbours
  obtain ⟨hl, _, _, _, hr⟩ := seg_append.mp h.seg
  rcases List.eq_nil_or_concat l with rfl | ⟨l', y, rfl⟩
  · -- nothing before `x`: the head moves instead
    refine ⟨m, L.next m x, by rw [if_neg (by simpa using hp)], hn, trivial, hr, hp, hn, ?_⟩
    exact fun a _ => rfl
  · rw [List.concat_eq_append] at *
    have hpy : L.prev m x = y := by rw [hp]; simp
    have hy0 : y ≠ 0 := h.ne_zero (by simp)
    have hnd := h.nodup
    have hnl : (l' ++ [y]).Nodup := (List.nodup_append.mp hnd).1
    have hyr : ∀ z ∈ x :: r, y + L.width ≤ z ∨ z + L.width ≤ y := by
      intro z hz
      refine h.apart y (by simp) z (List.mem_append_right _ hz) ?_
      rintro rfl
      exact (List.nodup_append.mp hnd).2.2 _ (by simp) _ hz rfl
    have hyx := hyr x (by simp)
    have hnlt : r.headD 0 < 2 ^ 64 := by rw [← hn]; exact read64_lt _ _
    refine ⟨L.setNext m y (r.headD 0), head, ?_, ?_, ?_, ?_, ?_, ?_, ?_⟩
    · rw [if_pos (by rw [hpy]; exact hy0), hpy, hn]
    · rw [h.head_eq]; cases l' <;> rfl
    · exact seg_setNext hnlt hnl (h.apart.subset fun z hz => List.mem_append_left _ hz) hl
    · refine seg_congr (fun z hz => ?_) hr
      have hyz := hyr z (List.mem_cons_of_mem _ hz)
      exact ⟨prev_setNext_ne hyz, next_setNext_ne hyz⟩
    · rw [prev_setNext_ne hyx, hp]
    · rw [next_setNext_ne hyx, hn]
    · exact fun a ha => setNext_out (ha y (by simp))

/-- **Unlinking removes exactly that node.** -/
theorem unlink_dlist {l r : List Nat} (h : Dlist L m head (l ++ x :: r)) :
    Dlist L (unlink L m head x).1 (unlink L m head x).2 (l ++ r) := by
  obtain ⟨m₁, head₁, he, hhead, hl, hr, hp, hn, _⟩ := unlink_before h
  have hsub : ∀ y ∈ l ++ r, y ∈ l ++ x :: r := by
    intro y hy
    rcases List.mem_append.mp hy with hy | hy
    · exact List.mem_append_left _ hy
    · exact List.mem_append_right _ (List.mem_cons_of_mem _ hy)
  have hnd : (l ++ x :: r).Nodup := h.nodup
  have hxl : x ∉ l ++ r := by
    have hp := hnd.perm (List.perm_middle)
    exact (List.nodup_cons.mp hp).1
  have hndlr : (l ++ r).Nodup := (List.nodup_cons.mp (hnd.perm List.perm_middle)).2
  have hxy : ∀ y ∈ l ++ r, x + L.width ≤ y ∨ y + L.width ≤ x := by
    intro y hy
    refine h.apart x (by simp) y (hsub y hy) ?_
    rintro rfl
    exact hxl hy
  -- the second store: what follows `x` now leads back past it
  obtain ⟨m₂, hm₂, hl₂, hr₂⟩ : ∃ m₂,
      (if L.next m₁ x ≠ 0 then L.setPrev m₁ (L.next m₁ x) (L.prev m₁ x) else m₁) = m₂
        ∧ Seg L m₂ 0 l (r.headD 0) ∧ Seg L m₂ (l.getLastD 0) r 0 := by
    cases r with
    | nil => exact ⟨m₁, by rw [if_neg (by simpa using hn)], hl, trivial⟩
    | cons z r' =>
        have hnz : L.next m₁ x = z := hn
        have hz0 : z ≠ 0 := h.ne_zero (by simp)
        have hndr : (z :: r').Nodup := (List.nodup_append.mp hndlr).2.1
        have hplt : l.getLastD 0 < 2 ^ 64 := by rw [← hp]; exact read64_lt _ _
        refine ⟨L.setPrev m₁ z (l.getLastD 0), ?_, ?_, ?_⟩
        · rw [if_pos (by rw [hnz]; exact hz0), hnz, hp]
        · refine seg_congr (fun y hy => ?_) hl
          have hzy : z + L.width ≤ y ∨ y + L.width ≤ z := by
            refine h.apart z (by simp) y (by simp [hy]) ?_
            rintro rfl
            exact (List.nodup_append.mp hndlr).2.2 _ hy _ (by simp) rfl
          exact ⟨prev_setPrev_ne hzy, next_setPrev_ne hzy⟩
        · exact seg_setPrev hplt hndr
            (h.apart.subset fun w hw => List.mem_append_right _ (List.mem_cons_of_mem _ hw)) hr
  have hu : unlink L m head x = (L.setPrev (L.setNext m₂ x 0) x 0, head₁) := by
    unfold unlink
    rw [he]
    dsimp only
    rw [hm₂]
  rw [hu]
  -- the last two stores only clear the links of `x` itself
  refine ⟨hhead, ?_, hndlr, h.apart.subset hsub, fun y hy => h.lt y (hsub y hy)⟩
  refine seg_congr (m := m₂) (fun y hy => ⟨?_, ?_⟩) (seg_append.mpr ⟨hl₂, hr₂⟩)
  · rw [prev_setPrev_ne (hxy y hy), prev_setNext_ne (hxy y hy)]
  · rw [next_setPrev_ne (hxy y hy), next_setNext_ne (hxy y hy)]

/-- An unlink stores only into link words of nodes on the list. -/
theorem unlink_out {l r : List Nat} (h : Dlist L m head (l ++ x :: r)) {a : Nat}
    (ha : ∀ y ∈ l ++ x :: r, a < y + L.prevOff ∨ y + L.width ≤ a) :
    (unlink L m head x).1 a = m a := by
  obtain ⟨m₁, head₁, he, _, _, _, hp, hn, hout⟩ := unlink_before h
  have hx := ha x (by simp)
  unfold unlink
  rw [he]
  dsimp only
  rw [setPrev_out hx, setNext_out hx]
  have h1 : m₁ a = m a := hout a (fun y hy => ha y (by simp [hy]))
  split
  · rename_i hne
    cases r with
    | nil => exact absurd hn hne
    | cons z r' =>
        have hnz : L.next m₁ x = z := hn
        rw [hnz, setPrev_out (ha z (by simp)), h1]
  · exact h1

/-- **Pushing adds exactly that node, at the front.** -/
theorem pushFront_dlist {xs : List Nat} (h : Dlist L m head xs) (h0 : x ≠ 0) (hlt : x < 2 ^ 64)
    (hnew : x ∉ xs) (hap : ∀ y ∈ xs, x + L.width ≤ y ∨ y + L.width ≤ x) :
    Dlist L (pushFront L m head x).1 (pushFront L m head x).2 (x :: xs) := by
  have hheadlt : head < 2 ^ 64 := by
    rw [h.head_eq]
    cases xs with
    | nil => decide
    | cons y ys => exact h.lt y (by simp)
  have hseg : Seg L (L.setPrev (L.setNext m x head) x 0) 0 xs 0 := by
    refine seg_congr (fun y hy => ⟨?_, ?_⟩) h.seg
    · rw [prev_setPrev_ne (hap y hy), prev_setNext_ne (hap y hy)]
    · rw [next_setPrev_ne (hap y hy), next_setNext_ne (hap y hy)]
  refine ⟨rfl, ?_, List.nodup_cons.mpr ⟨hnew, h.nodup⟩, ?_, ?_⟩
  · unfold pushFront
    dsimp only
    cases xs with
    | nil =>
        have hz : head = 0 := h.head_eq
        rw [if_neg (by simpa using hz)]
        refine ⟨h0, prev_setPrev_self (by decide), ?_, trivial⟩
        rw [next_setPrev_self, next_setNext_self hheadlt, hz]
        rfl
    | cons y ys =>
        have hy : head = y := h.head_eq
        have hyx := hap y (by simp)
        subst hy
        rw [if_pos (h.ne_zero (by simp))]
        refine ⟨h0, ?_, ?_, seg_setPrev hlt h.nodup h.apart hseg⟩
        · rw [prev_setPrev_ne (Or.symm hyx), prev_setPrev_self (by decide)]
        · rw [next_setPrev_ne (Or.symm hyx), next_setPrev_self, next_setNext_self hheadlt]
          rfl
  · intro a ha b hb hne
    rcases List.mem_cons.mp ha with ha | ha <;> rcases List.mem_cons.mp hb with hb | hb
    · exact absurd (ha.trans hb.symm) hne
    · rw [ha]; exact hap b hb
    · rw [hb]; exact (hap a ha).symm
    · exact h.apart a ha b hb hne
  · intro y hy
    rcases List.mem_cons.mp hy with rfl | hy
    · exact hlt
    · exact h.lt y hy

/-- A push stores only into link words of the new node and of the old first one. -/
theorem pushFront_out {xs : List Nat} (h : Dlist L m head xs) {a : Nat}
    (ha : ∀ y ∈ x :: xs, a < y + L.prevOff ∨ y + L.width ≤ a) :
    (pushFront L m head x).1 a = m a := by
  have hx := ha x (by simp)
  unfold pushFront
  dsimp only
  split
  · rename_i hne
    cases xs with
    | nil => exact absurd h.head_eq hne
    | cons y ys =>
        rw [show head = y from h.head_eq, setPrev_out (ha y (by simp)), setPrev_out hx,
          setNext_out hx]
  · rw [setPrev_out hx, setNext_out hx]

end Edits

end ByteMem
