import VnlKernel.Libc.Stdio
import VnlKernel.Proof.FormatText

/-!
# What the C library's formatter makes of its arguments

Its formats are simpler than the kernel's: a `%` and the byte behind it are a directive,
whatever that byte is, and a `%` at the very end is printed. The loop is followed piece by
piece. Everything is cut off in front of the buffer's last byte, except the two bytes of a
directive it does not know.
-/

namespace VnlKernel

open ByteMem Bits Logged CString

namespace Libc

/-- A piece of a format. -/
inductive Item where
  | char (c : UInt8)
  | string
  | int
  | uint (base : Nat)
  /-- Not a directive of this formatter. -/
  | other (c : UInt8)
  /-- A `%` at the end. -/
  | lone
deriving DecidableEq

/-- The item that the byte behind a `%` says. -/
def itemOf (c : UInt8) : Item :=
  if c = ascii 's' then .string
  else if c = ascii 'd' then .int
  else if c = ascii 'u' then .uint 10
  else if c = ascii 'x' then .uint 16
  else .other c

def items : CStr → List Item
  | [] => []
  | [c] => if c ≠ ascii '%' then [.char c] else [.lone]
  | c :: d :: s => if c ≠ ascii '%' then .char c :: items (d :: s) else itemOf d :: items s

theorem items_char {c : UInt8} (h : c ≠ ascii '%') (s : CStr) :
    items (c :: s) = .char c :: items s := by
  cases s with
  | nil => simp [items, h]
  | cons d s => simp [items, h]

theorem items_dir (d : UInt8) (s : CStr) : items (ascii '%' :: d :: s) = itemOf d :: items s := by
  simp [items]

namespace Item

/-- How many arguments it takes. -/
def args : Item → Nat
  | .string | .int | .uint _ => 1
  | .char _ | .other _ | .lone => 0

/-- What it stands for. -/
def text (ap : VaList) (i : Nat) : Item → CStr
  | .char c => [c]
  | .string => ap.string i
  | .int => (if ap.int i < 0 then [ascii '-'] else [])
      ++ (intTmp (if ap.int i < 0 then negInt (ap.int i) else ap.int i)).reverse
  | .uint base => (uintTmp (ap.uint i) base).reverse
  | .other c => [ascii '%', c]
  | .lone => [ascii '%']

/-- Is it stored as a whole, whatever room there is? -/
def isOther : Item → Bool
  | .other _ => true
  | _ => false

/-- What of it gets into the buffer. -/
def added (ap : VaList) (i : Nat) (buf : CStr) (it : Item) : CStr :=
  if it.isOther then it.text ap i else (it.text ap i).take (stdioBufSize - 1 - buf.length)

end Item

/-- What the buffer holds behind the items. -/
def itemsFilled (ap : VaList) : List Item → Nat → CStr → CStr
  | [], _, buf => buf
  | it :: its, i, buf =>
      if buf.length < stdioBufSize - 1 then itemsFilled ap its (i + it.args) (buf ++ it.added ap i buf) else buf

/-- What the items stand for, in full. -/
def itemsText (ap : VaList) : List Item → Nat → CStr
  | [], _ => []
  | it :: its, i => it.text ap i ++ itemsText ap its (i + it.args)

/-! ## The loop -/

theorem storeWhile_eq : ∀ (s text : CStr),
    storeWhile text s = storeAll text (s.take (stdioBufSize - 1 - text.length))
  | [], text => by
      rw [storeWhile, List.take_nil]
      rfl
  | c :: s, text => by
      rw [storeWhile]
      by_cases h : text.length < stdioBufSize - 1
      · have hroom : stdioBufSize - 1 - text.length
            = stdioBufSize - 1 - (text ++ [c]).length + 1 := by
          rw [List.length_append, List.length_singleton]
          omega
        rw [if_pos h, hroom, List.take_succ_cons, storeAll, storeChar_eq, bind_of_done rfl,
          bind_of_done rfl,
          storeWhile_eq s]
      · rw [if_neg h, show stdioBufSize - 1 - text.length = 0 by omega, List.take_zero, storeAll]

theorem storeAll_one (text : CStr) (c : UInt8) : storeChar text c = storeAll text [c] :=
  (Logged.bind_pure _).symm

/-- A sign is stored in any case; there is room for it where a directive is read at all. -/
theorem storeSigned {text s : CStr} {c : UInt8} (neg : Prop) [Decidable neg]
    (hroom : text.length < stdioBufSize - 1) :
    ((if neg then storeChar text c else pure text) >>= fun text => storeWhile text s)
      = storeAll text (((if neg then [c] else []) ++ s).take (stdioBufSize - 1 - text.length)) := by
  by_cases h : neg
  · rw [if_pos h, if_pos h, List.singleton_append,
      show stdioBufSize - 1 - text.length = stdioBufSize - 1 - (text ++ [c]).length + 1 by
        rw [List.length_append, List.length_singleton]; omega,
      List.take_succ_cons, storeAll, storeChar_eq, bind_of_done rfl, bind_of_done rfl,
        storeWhile_eq]
  · rw [if_neg h, if_neg h, Logged.pure_bind, storeWhile_eq, List.nil_append]

section Reading

variable {m : Mem} {b e p : Nat} {s : CStr} {c : UInt8}

/-- The loop reads an item, puts it into the buffer, and goes on at `q`. -/
def ReadsItem (m : Mem) (ap : VaList) (b e p fuel i : Nat) (buf : CStr) (it : Item) (q : Nat) : Prop :=
  ∃ log, (∀ ev ∈ log, ReadIn b e ev) ∧
    vsnprintfLoop m ap (fuel + 1) p i buf = (⟨log, .done ()⟩ : Logged FmtEvent Unit) >>= fun _ =>
      storeAll buf (it.added ap i buf) >>= fun buf => vsnprintfLoop m ap fuel q (i + it.args) buf

/-- **The loop takes a format apart item by item.** -/
theorem loop_item {ap : VaList} {fuel i : Nat} {buf : CStr} {it : Item} {its : List Item}
    (h : StrTo m b e p (c :: s)) (hroom : buf.length < stdioBufSize - 1)
    (hi : items (c :: s) = it :: its) :
    ∃ q s', ReadsItem m ap b e p fuel i buf it q ∧ StrTo m b e q s' ∧ s'.length ≤ s.length
      ∧ its = items s' := by
  have hc : m p = c := h.str.1
  have h0 : ¬ (c = 0 ∨ ¬ buf.length < stdioBufSize - 1) := by
    rw [not_or, not_not]
    exact ⟨h.str.2.1, hroom⟩
  have hload : (loadFmt m p).out = .done c := by rw [← hc]; rfl
  -- a character, a `%` at the end, or a directive
  by_cases hpc : c ≠ ascii '%'
  · rw [items_char hpc, List.cons.injEq] at hi
    obtain ⟨rfl, rfl⟩ := hi
    have hone : [c].take (stdioBufSize - 1 - buf.length) = [c] := by
      rw [List.take_of_length_le]
      rw [List.length_singleton]
      omega
    refine ⟨p + 1, s, ⟨[.read p], (loadFmt_comes h).1, ?_⟩, h.tail, Nat.le_refl _, rfl⟩
    rw [vsnprintfLoop, bind_of_done' hload, if_neg h0, if_pos hpc, storeAll_one]
    simp only [Item.added, Item.isOther, Bool.false_eq_true, if_false, Item.text, hone]
    rfl
  · have hspec : (loadFmt m (p + 1)).out = .done (s.head?.getD 0) := by rw [← h.tail.byte]; rfl
    have hlog : ∀ ev ∈ (loadFmt m p).log ++ (loadFmt m (p + 1)).log, ReadIn b e ev := by
      intro ev hev
      rcases List.mem_append.mp hev with hev | hev
      · exact (loadFmt_comes h).1 ev hev
      · exact (loadFmt_comes h.tail).1 ev hev
    obtain rfl : c = ascii '%' := not_not.mp hpc
    cases s with
    | nil =>
        -- the `%` is stored, and the loop is at the end of the format
        have hlone : items [ascii '%'] = [.lone] := rfl
        rw [hlone, List.cons.injEq] at hi
        obtain ⟨rfl, rfl⟩ := hi
        have hone : [ascii '%'].take (stdioBufSize - 1 - buf.length) = [ascii '%'] := by
          rw [List.take_of_length_le]
          rw [List.length_singleton]
          omega
        refine ⟨p + 1, [], ⟨_, hlog, ?_⟩, h.tail, Nat.le_refl _, rfl⟩
        rw [vsnprintfLoop, bind_of_done hload, if_neg h0, if_neg hpc, bind_of_done hspec,
          storeAll_one,
          bind_of_done (x := ⟨_, _⟩) rfl, List.append_assoc]
        simp only [Item.added, Item.isOther, Bool.false_eq_true, if_false, Item.text, hone]
        rfl
    | cons d s =>
        rw [items_dir, List.cons.injEq] at hi
        obtain ⟨rfl, rfl⟩ := hi
        have hd0 : d ≠ 0 := h.tail.str.2.1
        refine ⟨p + 2, s, ⟨_, hlog, ?_⟩, h.tail.tail, Nat.le_succ _, rfl⟩
        rw [vsnprintfLoop, bind_of_done hload, if_neg h0, if_neg hpc, bind_of_done hspec,
          List.head?_cons, Option.getD_some,
          bind_of_done (x := ⟨_, _⟩) rfl, List.append_assoc, itemOf]
        by_cases h1 : d = ascii 's'
        · rw [if_pos h1, if_pos h1, storeWhile_eq]
          rfl
        rw [if_neg h1, if_neg h1]
        by_cases h2 : d = ascii 'd'
        · rw [if_pos h2, if_pos h2]
          dsimp only
          rw [← Logged.bind_assoc, storeSigned _ hroom]
          rfl
        rw [if_neg h2, if_neg h2]
        by_cases h3 : d = ascii 'u'
        · rw [if_pos h3, if_pos h3, storeWhile_eq]
          rfl
        rw [if_neg h3, if_neg h3]
        by_cases h4 : d = ascii 'x'
        · rw [if_pos h4, if_pos h4, storeWhile_eq]
          rfl
        · rw [if_neg h4, if_neg h4]
          -- a directive that is not known is copied, its `%` too
          simp only [if_pos hd0, storeAll_one]
          rw [← Logged.bind_assoc, storeAll_append]
          rfl

/-- At the end of the format, and with no room left, the loop is left. -/
theorem stdioLoop_ends {ap : VaList} {fuel i : Nat} {buf : CStr}
    (hend : m p = 0 ∨ ¬ buf.length < stdioBufSize - 1) :
    vsnprintfLoop m ap (fuel + 1) p i buf = ⟨[.read p], .done buf⟩ := by
  rw [vsnprintfLoop, bind_of_done (a := m p) rfl, if_pos hend]
  rfl

theorem itemsFilled_length_le (ap : VaList) : ∀ (its : List Item) (i : Nat) (buf : CStr),
    buf.length ≤ (itemsFilled ap its i buf).length
  | [], _, _ => Nat.le_refl _
  | it :: its, i, buf => by
      rw [itemsFilled]
      split
      · have h := itemsFilled_length_le ap its (i + it.args) (buf ++ it.added ap i buf)
        rw [List.length_append] at h
        exact Nat.le_trans (Nat.le_add_right _ _) h
      · exact Nat.le_refl _

theorem items_cons (c : UInt8) (s : CStr) : ∃ it its, items (c :: s) = it :: its := by
  by_cases hc : c ≠ ascii '%'
  · exact ⟨_, _, items_char hc s⟩
  · obtain rfl : c = ascii '%' := not_not.mp hc
    cases s with
    | nil => exact ⟨_, _, rfl⟩
    | cons d s => exact ⟨_, _, items_dir d s⟩

/-- **A run of the loop.** -/
theorem stdioLoop_comes (ap : VaList) : ∀ {fuel p : Nat} {s : CStr} (i : Nat) (buf : CStr),
    StrTo m b e p s → s.length < fuel →
    (vsnprintfLoop m ap fuel p i buf).Comes (FmtWithin b e (itemsFilled ap (items s) i buf).length)
      (itemsFilled ap (items s) i buf)
  | 0, _, _, _, _, _, hf => absurd hf (by omega)
  | fuel + 1, p, [], i, buf, h, _ => by
      rw [items, itemsFilled, stdioLoop_ends (.inl h.str)]
      refine ⟨fun ev hev => ?_, rfl⟩
      rw [List.mem_singleton] at hev
      exact .inl ⟨p, hev, h.low, h.le⟩
  | fuel + 1, p, c :: s, i, buf, h, hf => by
      rw [List.length_cons] at hf
      obtain ⟨it, its, hi⟩ := items_cons c s
      rw [hi, itemsFilled]
      by_cases hroom : buf.length < stdioBufSize - 1
      · obtain ⟨q, s', ⟨log, hlog, hloop⟩, hstr, hle, rfl⟩ := loop_item (i := i) h hroom hi
        have hrest := stdioLoop_comes ap (i + it.args) (buf ++ it.added ap i buf) hstr
          (Nat.lt_of_le_of_lt hle (Nat.lt_of_succ_lt_succ hf))
        rw [if_pos hroom, hloop]
        refine Comes.bind (a := ()) ⟨fun ev hev => .inl (hlog ev hev), rfl⟩ (Comes.bind ?_ hrest)
        rw [storeAll_eq]
        refine ⟨fun ev hev => ?_, rfl⟩
        obtain ⟨k, rfl, _, hk⟩ := mem_stores.mp hev
        have hlen := itemsFilled_length_le ap (items s') (i + it.args) (buf ++ it.added ap i buf)
        rw [List.length_append] at hlen
        exact .inr ⟨k, rfl, by omega⟩
      · rw [if_neg hroom, stdioLoop_ends (.inr hroom)]
        refine ⟨fun ev hev => ?_, rfl⟩
        rw [List.mem_singleton] at hev
        exact .inl ⟨p, hev, h.low, h.le⟩

end Reading

end Libc

end VnlKernel
