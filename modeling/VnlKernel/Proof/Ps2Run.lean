import VnlKernel.Drivers.Mouse

/-!
# Keyboard and mouse behind one controller

Bytes of both devices wait in one line. Either interrupt may come at any time and takes from
the front of it; the bytes of the other device that it finds there are gone. Programs look
whenever they like.

Each of the three rings is a mailbox, so what a program is handed and what still waits is what
the driver made of the bytes that its own interrupt took, in the order in which they came. Of
that nothing is missing unless a ring was full when it came, or was flushed. What the driver
makes of a byte is said here without a ring: `Keymap.decode` and `assemble`.
-/

namespace VnlKernel

/-! ## Scan codes without a ring -/

/-- The keys that are held or locked, and whether the first byte of two has come. -/
structure Keymap where
  shiftHeld : Bool
  capsLock : Bool
  e0Pending : Bool
deriving DecidableEq

namespace Keymap

/-- The character of a key that is pressed, or zero. -/
def char (km : Keymap) (sc : UInt8) : UInt8 :=
  if km.shiftHeld then scUpper sc
  else
    let c := scLower sc
    if km.capsLock ∧ c ≥ 0x61 ∧ c ≤ 0x7A then c - 0x61 + 0x41 else c

/-- What is typed with a code, if it is not zero. -/
def typed (c : UInt8) : Option UInt8 := if c ≠ 0 then some c else none

/-- What one byte changes, and what it types. -/
def decode (km : Keymap) (sc : UInt8) : Keymap × Option UInt8 :=
  if sc = 0xE0 then ({ km with e0Pending := true }, none)
  else
    let released := decide (sc &&& 0x80 ≠ 0)
    let sc := sc &&& 0x7F
    if km.e0Pending then
      ({ km with e0Pending := false }, if !released then typed (extKey sc) else none)
    else if sc = 0x2A ∨ sc = 0x36 then ({ km with shiftHeld := !released }, none)
    else if !released ∧ sc = 0x3A then ({ km with capsLock := !km.capsLock }, none)
    else (km, if !released ∧ sc < 128 then typed (km.char sc) else none)

/-- **What some bytes type.** -/
def types (km : Keymap) : List UInt8 → List UInt8
  | [] => []
  | sc :: bytes => (km.decode sc).2.toList ++ (km.decode sc).1.types bytes

theorem length_types (km : Keymap) (bytes : List UInt8) : (km.types bytes).length
    ≤ bytes.length := by
  induction bytes generalizing km with
  | nil => exact Nat.le_refl _
  | cons sc bytes ih =>
      rw [types, List.length_append, List.length_cons]
      have hrest := ih (km.decode sc).1
      have hone : (km.decode sc).2.toList.length ≤ 1 := by
        cases (km.decode sc).2 with
        | none => exact Nat.zero_le _
        | some c => exact Nat.le_refl _
      omega

end Keymap

namespace Keyboard

/-- The keyboard's keys. -/
def keymap (k : Keyboard) : Keymap := ⟨k.shiftHeld, k.capsLock, k.e0Pending⟩

/-- Put on the ring what was typed, if anything was. -/
def accept (k : Keyboard) (o : Option UInt8) : RingBuf UInt8 kbdBufSize :=
  match o with
  | none => k.buf
  | some c => k.buf.offer c

/-- **`kbd_handle_byte` decodes a byte, and puts what it types on the ring.** -/
theorem handleByte_eq (k : Keyboard) (sc : UInt8) :
    (k.handleByte sc).keymap = (k.keymap.decode sc).1
      ∧ (k.handleByte sc).buf = k.accept (k.keymap.decode sc).2
      ∧ (k.handleByte sc).raw = k.raw := by
  have hpush : ∀ (k' : Keyboard) (c : UInt8), k'.buf = k.buf →
      (if c ≠ 0 then k'.push c else k').keymap = k'.keymap
        ∧ (if c ≠ 0 then k'.push c else k').buf = k.accept (Keymap.typed c)
        ∧ (if c ≠ 0 then k'.push c else k').raw = k'.raw := by
    intro k' c hbuf
    unfold Keymap.typed
    split
    · exact ⟨rfl, by rw [push, hbuf]; rfl, rfl⟩
    · exact ⟨rfl, hbuf, rfl⟩
  unfold handleByte Keymap.decode
  split
  · exact ⟨rfl, rfl, rfl⟩
  · dsimp only
    change _ ∧ _ ∧ _
    by_cases he : k.e0Pending
    · -- the second byte of two
      rw [if_pos he, if_pos (show k.keymap.e0Pending = true from he)]
      split
      · exact hpush _ _ rfl
      · exact ⟨rfl, rfl, rfl⟩
    · rw [if_neg he, if_neg (show ¬ k.keymap.e0Pending = true from he)]
      split
      · exact ⟨rfl, rfl, rfl⟩
      · split
        · exact ⟨rfl, rfl, rfl⟩
        · split
          · exact hpush k _ rfl
          · exact ⟨rfl, rfl, rfl⟩

/-- What `keyboard_irq` does with a byte from the controller. -/
def take (k : Keyboard) (b : PortByte) : Keyboard :=
  if b.aux then k else (k.pushRaw b.data).handleByte b.data

theorem irqLoop_eq : ∀ (n : Nat) (port : List PortByte) (k : Keyboard),
    irqLoop n port k = (port.drop n, (port.take n).foldl take k)
  | 0, port, k => by simp [irqLoop]
  | n + 1, [], k => by simp [irqLoop, kbcStatus]
  | n + 1, b :: port, k => by
      rw [irqLoop, List.drop_succ_cons, List.take_succ_cons, List.foldl_cons]
      have hone : ¬ kbcStatus (b :: port) &&& 0x01 = 0 := by
        rw [kbcStatus]
        cases b.aux <;> decide
      have haux : (kbcStatus (b :: port) &&& 0x20 ≠ 0) ↔ b.aux = true := by
        rw [kbcStatus]
        cases b.aux <;> decide
      dsimp only
      rw [if_neg hone, take]
      dsimp only [kbcData]
      by_cases h : b.aux = true
      · rw [if_pos (haux.mpr h), if_pos h]
        exact irqLoop_eq n port k
      · rw [if_neg (fun hc => h (haux.mp hc)), if_neg h]
        exact irqLoop_eq n port _

end Keyboard

/-! ## Packets without a ring -/

/-- The bytes of a packet that have come, and the packet that the next one ends. -/
def assemble (pkt : List UInt8) (b : UInt8) : List UInt8 × Option MouseMove :=
  if pkt.length = 0 ∧ b &&& 0x08 = 0 then (pkt, none)
  else if (pkt ++ [b]).length < 3 then (pkt ++ [b], none)
  else
    ([], some ⟨toInt8 ((pkt ++ [b]).getD 1 0), toInt8 ((pkt ++ [b]).getD 2 0), (pkt ++ [b]).getD 0 0 &&& 7⟩)

/-- The bytes that are left over behind some bytes. -/
def leftOver (pkt : List UInt8) (bytes : List UInt8) : List UInt8 :=
  bytes.foldl (fun pkt b => (assemble pkt b).1) pkt

/-- **The packets that some bytes end.** -/
def packets (pkt : List UInt8) : List UInt8 → List MouseMove
  | [] => []
  | b :: bytes => (assemble pkt b).2.toList ++ packets (assemble pkt b).1 bytes

theorem packets_append (pkt bs bs' : List UInt8) :
    packets pkt (bs ++ bs') = packets pkt bs ++ packets (leftOver pkt bs) bs' := by
  induction bs generalizing pkt with
  | nil => rfl
  | cons b bs ih =>
      rw [List.cons_append, packets, packets, ih, List.append_assoc]
      rfl

namespace Mouse

/-- Put a packet on the ring, if there is one. -/
def accept (m : Mouse) (o : Option MouseMove) : RingBuf MouseMove mouseQueue :=
  match o with
  | none => m.q
  | some p => m.q.offer p

/-- **A byte of the mouse goes to the packet, and a packet that ends to the ring.** -/
theorem handleByte_eq (m : Mouse) (b : UInt8) :
    m.handleByte b
      = { m with pkt := (assemble m.pkt b).1, q := m.accept (assemble m.pkt b).2 } := by
  unfold handleByte assemble
  split
  · rfl
  · dsimp only
    split
    · rfl
    · rfl

/-- What `mouse_irq` does with a byte from the controller. -/
def take (m : Mouse) (b : PortByte) : Mouse := if b.aux then m.handleByte b.data else m

theorem irqLoop_eq : ∀ (port : List PortByte) (m : Mouse), irqLoop port m = port.foldl take m
  | [], m => rfl
  | b :: port, m => by
      rw [irqLoop, List.foldl_cons, take]
      cases b.aux with
      | true => exact irqLoop_eq port _
      | false => exact irqLoop_eq port m

end Mouse

/-! ## Reading the devices -/

/-- **A read of the keyboard delivers what has waited longest**, up to so many bytes. -/
theorem devKeyboardRead_eq : ∀ (n : Nat) (k : Keyboard),
    (devKeyboardRead n k).1 = k.raw.toList.take n
      ∧ (devKeyboardRead n k).2.raw.toList = k.raw.toList.drop n
      ∧ (devKeyboardRead n k).2.buf = k.buf ∧ (devKeyboardRead n k).2.keymap = k.keymap
  | 0, k => by simp [devKeyboardRead]
  | n + 1, k => by
      have hfst := k.raw.poll_fst
      have hsnd := k.raw.toList_poll none
      rw [Mailbox.after] at hsnd
      rw [devKeyboardRead, Keyboard.pollRaw]
      dsimp only
      cases hq : k.raw.toList with
      | nil =>
          rw [hq] at hfst hsnd
          rw [hfst, List.head?_nil, Keyboard.polled, if_pos (by decide)]
          exact ⟨rfl, by rw [hsnd]; rfl, rfl, rfl⟩
      | cons b q =>
          rw [hq] at hfst hsnd
          rw [hfst, List.head?_cons, Keyboard.polled, if_neg (by omega)]
          obtain ⟨h1, h2, h3, h4⟩ := devKeyboardRead_eq n { k with raw := k.raw.poll.2 }
          dsimp only at h1 h2 h3 h4 ⊢
          rw [hsnd, List.tail_cons] at h1 h2
          refine ⟨?_, by rw [h2]; rfl, h3, h4⟩
          rw [h1, List.take_succ_cons, Int.toNat_natCast, UInt8.ofNat_toNat]

/-- **A read of the mouse delivers whole packets**, those that have waited longest. -/
theorem devMouseReadLoop_eq (len : Nat) (m : Mouse) :
    (devMouseReadLoop len m).1 = (m.q.toList.take (len / 3)).flatMap MouseMove.bytes
      ∧ (devMouseReadLoop len m).2.q.toList = m.q.toList.drop (len / 3)
      ∧ (devMouseReadLoop len m).2.pkt = m.pkt ∧ (devMouseReadLoop len m).2.ready = m.ready := by
  induction len using Nat.strong_induction_on generalizing m with
  | _ len ih =>
    rw [devMouseReadLoop]
    split
    · next hlen =>
        have hfst := m.q.poll_fst
        have hsnd := m.q.toList_poll none
        rw [Mailbox.after] at hsnd
        have hdiv : len / 3 = (len - 3) / 3 + 1 := by omega
        rw [Mouse.poll]
        dsimp only
        cases hq : m.q.toList with
        | nil =>
            rw [hq] at hfst hsnd
            rw [hfst]
            dsimp only [List.head?_nil]
            exact ⟨by simp, by rw [hsnd]; simp, rfl, rfl⟩
        | cons p q =>
            rw [hq] at hfst hsnd
            rw [hfst]
            dsimp only [List.head?_cons]
            obtain ⟨h1, h2, h3, h4⟩ := ih (len - 3) (by omega) { m with q := m.q.poll.2 }
            dsimp only at h1 h2 h3 h4 ⊢
            rw [hsnd, List.tail_cons] at h1 h2
            rw [hdiv, List.take_succ_cons, List.drop_succ_cons, List.flatMap_cons]
            exact ⟨by rw [h1], h2, h3, h4⟩
    · next hlen =>
        rw [Nat.div_eq_of_lt (by omega)]
        exact ⟨rfl, rfl, rfl, rfl⟩

theorem devMouseRead_eq (len : Nat) (m : Mouse) :
    (devMouseRead len m).1.getD [] = (m.q.toList.take (len / 3)).flatMap MouseMove.bytes
      ∧ (devMouseRead len m).2.q.toList = m.q.toList.drop (len / 3)
      ∧ (devMouseRead len m).2.pkt = m.pkt := by
  rw [devMouseRead]
  split
  · next hlen => rw [Nat.div_eq_of_lt hlen]; exact ⟨rfl, rfl, rfl⟩
  · obtain ⟨h1, h2, h3, _⟩ := devMouseReadLoop_eq len m
    exact ⟨h1, h2, h3⟩

/-! ## Runs -/

/-- The controller, and what the two drivers remember. -/
structure Ps2 where
  port : List PortByte
  kbd : Keyboard
  mouse : Mouse

/-- What happens at the drivers. -/
inductive Ps2Event where
  /-- A byte reaches the controller. -/
  | arrive (b : PortByte)
  /-- `keyboard_irq` takes a byte. -/
  | kbdTook (b : PortByte)
  /-- `mouse_irq` takes a byte. -/
  | mouseTook (b : PortByte)
  /-- `mouse_flush` takes a byte. -/
  | flushTook (b : PortByte)
  /-- `mouse_flush` empties the ring. -/
  | flush
  /-- What `keyboard_poll` returned. -/
  | key (r : Int)
  /-- What `keyboard_poll_raw` returned. -/
  | rawKey (r : Int)
  /-- What `mouse_poll` found. -/
  | move (o : Option MouseMove)
deriving DecidableEq

/-- One step, and what happens in it. -/
inductive Ps2.Step : Ps2 → List Ps2Event → Ps2 → Prop
  | arrive (s : Ps2) (b : PortByte) : Step s [.arrive b] { s with port := s.port ++ [b] }
  | kbdIrq (s : Ps2) :
      Step s ((s.port.take 32).map .kbdTook)
        { s with port := (Keyboard.irq s.port s.kbd).1, kbd := (Keyboard.irq s.port s.kbd).2 }
  | mouseIrq (s : Ps2) :
      Step s (if s.mouse.ready then s.port.map .mouseTook else [])
        { s with port := (Mouse.irq s.port s.mouse).1, mouse := (Mouse.irq s.port s.mouse).2 }
  | poll (s : Ps2) : Step s [.key s.kbd.poll.1] { s with kbd := s.kbd.poll.2 }
  | pollRaw (s : Ps2) : Step s [.rawKey s.kbd.pollRaw.1] { s with kbd := s.kbd.pollRaw.2 }
  | mousePoll (s : Ps2) : Step s [.move s.mouse.poll.1] { s with mouse := s.mouse.poll.2 }
  /-- A read of `/dev/input/keyboard`. -/
  | readKeyboard (s : Ps2) (len : Nat) :
      Step s ((devKeyboardRead len s.kbd).1.map fun b => .rawKey b.toNat)
        { s with kbd := (devKeyboardRead len s.kbd).2 }
  /-- A read of `/dev/input/mouse`: the bytes it delivers are those of the packets that have left
  the ring. -/
  | readMouse (s : Ps2) (len : Nat) (moves : List MouseMove)
      (hbytes : (devMouseRead len s.mouse).1.getD [] = moves.flatMap MouseMove.bytes)
      (hring : s.mouse.q.toList = moves ++ (devMouseRead len s.mouse).2.q.toList) :
      Step s (moves.map fun p => .move (some p)) { s with mouse := (devMouseRead len s.mouse).2 }
  | flush (s : Ps2) :
      Step s (.flush :: (s.port.take 64).map .flushTook)
        { s with port := (Mouse.flush s.port s.mouse).1, mouse := (Mouse.flush s.port s.mouse).2 }

/-- The mouse's device can always be read. -/
theorem Ps2.readMouse_step (s : Ps2) (len : Nat) :
    Ps2.Step s ((s.mouse.q.toList.take (len / 3)).map fun p => .move (some p))
      { s with mouse := (devMouseRead len s.mouse).2 } := by
  obtain ⟨h1, h2, -⟩ := devMouseRead_eq len s.mouse
  exact .readMouse s len _ h1 (by rw [h2]; exact (List.take_append_drop _ _).symm)

/-- Nothing has been pressed or moved yet. -/
structure Ps2.Booted (s : Ps2) : Prop where
  port : s.port = []
  keys : s.kbd.buf.toList = []
  raw : s.kbd.raw.toList = []
  map : s.kbd.keymap = ⟨false, false, false⟩
  moves : s.mouse.q.toList = []
  pkt : s.mouse.pkt = []

/-! ## What an event means for each of the rings -/

/-- What a program was given, of what it was told. -/
def given (r : Int) : Option UInt8 := if r < 0 then none else some (UInt8.ofNat r.toNat)

@[simp] theorem given_polled (o : Option UInt8) : given (Keyboard.polled o) = o := by
  cases o with
  | none => rfl
  | some c => rw [Keyboard.polled, given, if_neg (by omega), Int.toNat_natCast, UInt8.ofNat_toNat]

namespace Ps2Event

/-- For the keys that were typed. -/
def keyFeed (km : Keymap) : Ps2Event → Keymap × Option (Mailbox.Event UInt8)
  | .kbdTook b =>
      if b.aux then (km, none) else ((km.decode b.data).1, (km.decode b.data).2.map .put)
  | .key r => (km, some (.take (given r)))
  | _ => (km, none)

/-- For the scan codes. -/
def rawFeed (u : Unit) : Ps2Event → Unit × Option (Mailbox.Event UInt8)
  | .kbdTook b => (u, if b.aux then none else some (.put b.data))
  | .rawKey r => (u, some (.take (given r)))
  | _ => (u, none)

/-- For the packets. -/
def moveFeed (pkt : List UInt8) : Ps2Event → List UInt8 × Option (Mailbox.Event MouseMove)
  | .mouseTook b =>
      if b.aux then ((assemble pkt b.data).1, (assemble pkt b.data).2.map .put) else (pkt, none)
  | .move o => (pkt, some (.take o))
  | .flush => ([], some .clear)
  | _ => (pkt, none)

/-- A byte that reached the controller. -/
def arrived? : Ps2Event → Option PortByte
  | .arrive b => some b
  | _ => none

/-- A byte that was taken out of it. -/
def took? : Ps2Event → Option PortByte
  | .kbdTook b => some b
  | .mouseTook b => some b
  | .flushTook b => some b
  | _ => none

/-- A scan code that the keyboard's interrupt took. -/
def scan? : Ps2Event → Option UInt8
  | .kbdTook b => if b.aux then none else some b.data
  | _ => none

/-- A key that a program was given. -/
def key? : Ps2Event → Option UInt8
  | .key r => given r
  | _ => none

/-- A scan code that a program was given. -/
def rawKey? : Ps2Event → Option UInt8
  | .rawKey r => given r
  | _ => none

/-- A packet that a program was given. -/
def move? : Ps2Event → Option MouseMove
  | .move o => o
  | _ => none

end Ps2Event

open Ps2Event Mailbox

/-- No key is held. -/
def Keymap.idle : Keymap := ⟨false, false, false⟩

/-- **What holds of every run.** -/
structure Ps2.Inv (s : Ps2) (log : List Ps2Event) : Prop where
  keys : Follows (kbdBufSize - 1) keyFeed Keymap.idle log s.kbd.keymap s.kbd.buf.toList
  raw : Follows (kbdBufSize - 1) rawFeed () log () s.kbd.raw.toList
  moves : Follows (mouseQueue - 1) moveFeed [] log s.mouse.pkt s.mouse.q.toList
  port : log.filterMap arrived? = log.filterMap took? ++ s.port

namespace Ps2

variable {s : Ps2} {log : List Ps2Event}

/-- Both interrupts take from the front. -/
theorem Inv.took (h : s.Inv log) {e : Ps2Event} {b : PortByte} {port : List PortByte}
    {kbd : Keyboard}
    {mouse : Mouse} (he : took? e = some b) (ha : arrived? e = none) (hp : s.port = b :: port)
    (hk : Follows (kbdBufSize - 1) keyFeed Keymap.idle (log ++ [e]) kbd.keymap kbd.buf.toList)
    (hr : Follows (kbdBufSize - 1) rawFeed () (log ++ [e]) () kbd.raw.toList)
    (hm : Follows (mouseQueue - 1) moveFeed [] (log ++ [e]) mouse.pkt mouse.q.toList) :
    Inv ⟨port, kbd, mouse⟩ (log ++ [e]) where
  keys := hk
  raw := hr
  moves := hm
  port := by
    rw [List.filterMap_append, List.filterMap_append, h.port, hp]
    simp [he, ha]

theorem Inv.kbdTook (h : s.Inv log) {b : PortByte} {port : List PortByte}
    (hp : s.port = b :: port) : Inv ⟨port, s.kbd.take b, s.mouse⟩ (log ++ [.kbdTook b]) := by
  refine h.took rfl rfl hp ?_ ?_ (h.moves.skip _ rfl)
  · have hs := h.keys.snoc (.kbdTook b) (by
      rw [keyFeed]
      split
      · simp
      · cases (s.kbd.keymap.decode b.data).2 <;> simp [Mailbox.Allowed])
    rw [keyFeed] at hs
    unfold Keyboard.take
    split at hs
    · next haux => rw [if_pos haux]; exact hs
    · next haux =>
        rw [if_neg haux]
        obtain ⟨h1, h2, h3⟩ := (s.kbd.pushRaw b.data).handleByte_eq b.data
        refine hs.as h1 ?_
        rw [h2]
        change ((s.kbd.pushRaw b.data).accept (s.kbd.keymap.decode b.data).2).toList = _
        cases (s.kbd.keymap.decode b.data).2 with
        | none => rfl
        | some c => exact s.kbd.buf.toList_offer c
  · have hs := h.raw.snoc (.kbdTook b) (by
      rw [rawFeed]
      split <;> simp [Mailbox.Allowed])
    rw [rawFeed] at hs
    unfold Keyboard.take
    split at hs
    · next haux => rw [if_pos haux]; exact hs
    · next haux =>
        rw [if_neg haux]
        obtain ⟨h1, h2, h3⟩ := (s.kbd.pushRaw b.data).handleByte_eq b.data
        refine hs.as rfl ?_
        rw [h3]
        exact s.kbd.raw.toList_offer b.data

theorem Inv.mouseTook (h : s.Inv log) {b : PortByte} {port : List PortByte}
    (hp : s.port = b :: port) : Inv ⟨port, s.kbd, s.mouse.take b⟩ (log ++ [.mouseTook b]) := by
  refine h.took rfl rfl hp (h.keys.skip _ rfl) (h.raw.skip _ rfl) ?_
  have hs := h.moves.snoc (.mouseTook b) (by
    rw [moveFeed]
    split
    · cases (assemble s.mouse.pkt b.data).2 <;> simp [Mailbox.Allowed]
    · simp)
  rw [moveFeed] at hs
  unfold Mouse.take
  split at hs
  · next haux =>
      rw [if_pos haux, Mouse.handleByte_eq]
      refine hs.as rfl ?_
      change (s.mouse.accept (assemble s.mouse.pkt b.data).2).toList = _
      cases (assemble s.mouse.pkt b.data).2 with
      | none => rfl
      | some p => exact s.mouse.q.toList_offer p
  · next haux => rw [if_neg haux]; exact hs

/-- `keyboard_irq`, byte by byte. -/
theorem Inv.kbdTakes : ∀ {bs port : List PortByte} {s : Ps2} {log : List Ps2Event}, s.Inv log →
    s.port = bs ++ port → Inv ⟨port, bs.foldl Keyboard.take s.kbd, s.mouse⟩ (log ++ bs.map .kbdTook)
  | [], port, s, log, h, hp => by
      rw [List.map_nil, List.append_nil]
      obtain ⟨_, _, _⟩ := s
      cases hp
      exact h
  | b :: bs, port, s, log, h, hp => by
      have hone : Inv ⟨bs ++ port, s.kbd.take b, s.mouse⟩ (log ++ [.kbdTook b]) := h.kbdTook hp
      have hrest := hone.kbdTakes rfl
      rw [List.append_assoc] at hrest
      exact hrest

/-- `mouse_irq`, byte by byte. -/
theorem Inv.mouseTakes : ∀ {bs port : List PortByte} {s : Ps2} {log : List Ps2Event}, s.Inv log →
    s.port = bs ++ port → Inv ⟨port, s.kbd, bs.foldl Mouse.take s.mouse⟩ (log ++ bs.map .mouseTook)
  | [], port, s, log, h, hp => by
      rw [List.map_nil, List.append_nil]
      obtain ⟨_, _, _⟩ := s
      cases hp
      exact h
  | b :: bs, port, s, log, h, hp => by
      have hone : Inv ⟨bs ++ port, s.kbd, s.mouse.take b⟩ (log ++ [.mouseTook b]) := h.mouseTook hp
      have hrest := hone.mouseTakes rfl
      rw [List.append_assoc] at hrest
      exact hrest

/-- Bytes that nobody wanted. -/
theorem Inv.flushTakes : ∀ {bs port : List PortByte} {s : Ps2} {log : List Ps2Event}, s.Inv log →
    s.port = bs ++ port → Inv ⟨port, s.kbd, s.mouse⟩ (log ++ bs.map .flushTook)
  | [], port, s, log, h, hp => by
      rw [List.map_nil, List.append_nil]
      obtain ⟨_, _, _⟩ := s
      cases hp
      exact h
  | b :: bs, port, s, log, h, hp => by
      have hone : Inv ⟨bs ++ port, s.kbd, s.mouse⟩ (log ++ [.flushTook b]) :=
        h.took rfl rfl hp (h.keys.skip _ rfl) (h.raw.skip _ rfl) (h.moves.skip _ rfl)
      have hrest := hone.flushTakes rfl
      rw [List.append_assoc] at hrest
      exact hrest

/-- An event that has nothing to do with the controller. -/
theorem Inv.idle (h : s.Inv log) {e : Ps2Event} {kbd : Keyboard} {mouse : Mouse}
    (he : took? e = none) (ha : arrived? e = none)
    (hk : Follows (kbdBufSize - 1) keyFeed Keymap.idle (log ++ [e]) kbd.keymap kbd.buf.toList)
    (hr : Follows (kbdBufSize - 1) rawFeed () (log ++ [e]) () kbd.raw.toList)
    (hm : Follows (mouseQueue - 1) moveFeed [] (log ++ [e]) mouse.pkt mouse.q.toList) :
    Inv ⟨s.port, kbd, mouse⟩ (log ++ [e]) where
  keys := hk
  raw := hr
  moves := hm
  port := by
    rw [List.filterMap_append, List.filterMap_append, h.port]
    simp [he, ha]

theorem Inv.poll (h : s.Inv log) : Inv { s with kbd := s.kbd.poll.2 }
    (log ++ [.key s.kbd.poll.1]) := by
  have hback : keyFeed s.kbd.keymap (.key s.kbd.poll.1)
      = (s.kbd.keymap, some (.take s.kbd.buf.poll.1)) :=
    congrArg (fun o => (s.kbd.keymap, some (Event.take o))) (given_polled s.kbd.buf.poll.1)
  refine h.idle rfl rfl ?_ (h.raw.skip _ rfl) (h.moves.skip _ rfl)
  have hs := h.keys.snoc (.key s.kbd.poll.1) (by
    rw [hback]
    intro x hx
    cases hx
    exact s.kbd.buf.poll_fst)
  rw [hback] at hs
  exact hs.as rfl (s.kbd.buf.toList_poll s.kbd.buf.poll.1)

theorem Inv.pollRaw (h : s.Inv log) :
    Inv { s with kbd := s.kbd.pollRaw.2 } (log ++ [.rawKey s.kbd.pollRaw.1]) := by
  have hback : rawFeed () (.rawKey s.kbd.pollRaw.1) = ((), some (.take s.kbd.raw.poll.1)) :=
    congrArg (fun o => ((), some (Event.take o))) (given_polled s.kbd.raw.poll.1)
  refine h.idle rfl rfl (h.keys.skip _ rfl) ?_ (h.moves.skip _ rfl)
  have hs := h.raw.snoc (.rawKey s.kbd.pollRaw.1) (by
    rw [hback]
    intro x hx
    cases hx
    exact s.kbd.raw.poll_fst)
  rw [hback] at hs
  exact hs.as rfl (s.kbd.raw.toList_poll s.kbd.raw.poll.1)

theorem Inv.mousePoll (h : s.Inv log) :
    Inv { s with mouse := s.mouse.poll.2 } (log ++ [.move s.mouse.poll.1]) := by
  refine h.idle rfl rfl (h.keys.skip _ rfl) (h.raw.skip _ rfl) ?_
  have hs := h.moves.snoc (.move s.mouse.poll.1) (by
    intro x hx
    cases hx
    exact s.mouse.q.poll_fst)
  exact hs.as rfl (s.mouse.q.toList_poll s.mouse.poll.1)

/-- Scan codes that wait are read, the oldest first. -/
theorem Inv.rawReads : ∀ {bs q : List UInt8} {s : Ps2} {log : List Ps2Event} {kbd : Keyboard}, s.Inv log →
    s.kbd.raw.toList = bs ++ q → kbd.raw.toList = q → kbd.buf = s.kbd.buf
      → kbd.keymap = s.kbd.keymap →
    Inv { s with kbd := kbd } (log ++ bs.map fun b => .rawKey b.toNat)
  | [], q, s, log, kbd, h, hq, h1, h2, h3 => by
      rw [List.map_nil, List.append_nil]
      refine ⟨h.keys.as h3 (by rw [h2]), h.raw.as rfl ?_, h.moves, h.port⟩
      rw [h1, hq]
      rfl
  | b :: bs, q, s, log, kbd, h, hq, h1, h2, h3 => by
      have hfst := s.kbd.raw.poll_fst
      have hsnd := s.kbd.raw.toList_poll none
      rw [hq] at hfst hsnd
      have hone := h.pollRaw
      have hrest := hone.rawReads hsnd h1 h2 h3
      rw [List.append_assoc] at hrest
      have hb : s.kbd.pollRaw.1 = (b.toNat : Int) := by
        change Keyboard.polled s.kbd.raw.poll.1 = _
        rw [hfst]
        rfl
      rw [hb] at hrest
      exact hrest

/-- Packets that wait are read, the oldest first. -/
theorem Inv.moveReads : ∀ {ps q : List MouseMove} {s : Ps2} {log : List Ps2Event} {mouse : Mouse},
    s.Inv log → s.mouse.q.toList = ps ++ q → mouse.q.toList = q → mouse.pkt = s.mouse.pkt →
    Inv { s with mouse := mouse } (log ++ ps.map fun p => .move (some p))
  | [], q, s, log, mouse, h, hq, h1, h2 => by
      rw [List.map_nil, List.append_nil]
      refine ⟨h.keys, h.raw, h.moves.as h2 ?_, h.port⟩
      rw [h1, hq]
      rfl
  | p :: ps, q, s, log, mouse, h, hq, h1, h2 => by
      have hfst := s.mouse.q.poll_fst
      have hsnd := s.mouse.q.toList_poll none
      rw [hq] at hfst hsnd
      have hrest := h.mousePoll.moveReads hsnd h1 h2
      rw [List.append_assoc] at hrest
      have hp : s.mouse.poll.1 = some p := hfst
      rw [hp] at hrest
      exact hrest

/-- **One step.** -/
theorem Inv.step {s' : Ps2} {es : List Ps2Event} (h : s.Inv log) (hs : s.Step es s') :
    s'.Inv (log ++ es) := by
  cases hs with
  | arrive b =>
      refine ⟨h.keys.skip _ rfl, h.raw.skip _ rfl, h.moves.skip _ rfl, ?_⟩
      rw [List.filterMap_append, List.filterMap_append, h.port]
      simp [arrived?, took?]
  | kbdIrq =>
      rw [Keyboard.irq, Keyboard.irqLoop_eq]
      exact h.kbdTakes (List.take_append_drop 32 s.port).symm
  | mouseIrq =>
      rw [Mouse.irq]
      cases s.mouse.ready with
      | false =>
          change Inv s (log ++ [])
          rw [List.append_nil]
          exact h
      | true =>
          change Inv ⟨[], s.kbd, Mouse.irqLoop s.port s.mouse⟩ (log ++ s.port.map .mouseTook)
          rw [Mouse.irqLoop_eq]
          exact h.mouseTakes (List.append_nil s.port).symm
  | poll => exact h.poll
  | pollRaw => exact h.pollRaw
  | mousePoll => exact h.mousePoll
  | readKeyboard len =>
      obtain ⟨h1, h2, h3, h4⟩ := devKeyboardRead_eq len s.kbd
      rw [h1]
      exact h.rawReads (List.take_append_drop len _).symm h2 h3 h4
  | readMouse len moves hbytes hring => exact h.moveReads hring rfl (devMouseRead_eq len s.mouse).2.2
  | flush =>
      -- the ring and the packet are given up first, then what waits in the controller
      have hclear : Inv { s with mouse := (Mouse.flush s.port s.mouse).2 } (log ++ [.flush]) := by
        refine h.idle rfl rfl (h.keys.skip _ rfl) (h.raw.skip _ rfl) ?_
        exact (h.moves.snoc .flush (by intro x hx; cases hx; trivial)).as rfl
          (RingBuf.toList_fresh s.mouse.q.buf)
      have hrest := hclear.flushTakes (List.take_append_drop 64 s.port).symm
      rw [List.append_assoc] at hrest
      exact hrest

theorem Booted.inv (h : s.Booted) : s.Inv [] where
  keys := by rw [h.keys, h.map]; exact .nil _
  raw := by rw [h.raw]; exact .nil _
  moves := by rw [h.moves, h.pkt]; exact .nil _
  port := by rw [h.port]; rfl

/-- **Every run.** -/
theorem Booted.run {s0 : Ps2} (h0 : s0.Booted) (h : Run.Trace Step s0 log s) : s.Inv log := by
  induction h with
  | nil => exact h0.inv
  | snoc _ hs ih => exact ih.step hs

end Ps2

/-! ## What the logs say -/

section Logs

variable {log : List Ps2Event}

theorem puts_keyFeed (km : Keymap) : puts (feed keyFeed km log)
    = km.types (log.filterMap scan?) := by
  refine puts_feed (fun (km : Keymap) log => km.types (log.filterMap scan?))
    (fun _ => rfl) fun km e es => ?_
  cases e with
  | kbdTook b =>
      rw [List.filterMap_cons, keyFeed, scan?]
      cases b.aux with
      | true => rfl
      | false =>
          change (km.decode b.data).2.toList ++ _
            = puts ((km.decode b.data).2.map Event.put).toList ++ _
          cases (km.decode b.data).2 with
          | none => rfl
          | some c => rfl
  | _ => rfl

theorem takes_keyFeed (km : Keymap) : takes (feed keyFeed km log) = log.filterMap key? := by
  refine takes_feed fun km e => ?_
  cases e with
  | kbdTook b =>
      unfold keyFeed key?
      dsimp only
      split
      · rfl
      · cases (km.decode b.data).2 with
        | none => rfl
        | some c => rfl
  | key r =>
      change (given r).toList ++ [] = (given r).toList
      rw [List.append_nil]
  | _ => rfl

theorem clear_keyFeed (km : Keymap) : Event.clear ∉ feed keyFeed km log := by
  refine clear_not_mem_feed fun km e _ => ?_
  cases e with
  | kbdTook b =>
      rw [keyFeed]
      split
      · simp
      · cases (km.decode b.data).2 <;> simp
  | _ => simp [keyFeed]

theorem puts_rawFeed : puts (feed rawFeed () log) = log.filterMap scan? := by
  refine puts_feed (fun _ log => log.filterMap scan?) (fun _ => rfl) fun u e es => ?_
  cases e with
  | kbdTook b =>
      rw [List.filterMap_cons, rawFeed, scan?]
      cases b.aux <;> rfl
  | _ => rfl

theorem takes_rawFeed : takes (feed rawFeed () log) = log.filterMap rawKey? := by
  refine takes_feed fun u e => ?_
  cases e with
  | kbdTook b =>
      unfold rawFeed rawKey?
      dsimp only
      cases b.aux <;> rfl
  | rawKey r =>
      change (given r).toList ++ [] = (given r).toList
      rw [List.append_nil]
  | _ => rfl

theorem clear_rawFeed : Event.clear ∉ feed rawFeed () log := by
  refine clear_not_mem_feed fun u e _ => ?_
  cases e with
  | kbdTook b =>
      rw [rawFeed]
      cases b.aux <;> simp
  | _ => simp [rawFeed]

end Logs

/-- What was handed out, and what waits behind it, is what was made: in order, and nothing of it
twice. Nothing is missing either, if there was never more of it than the ring has room for. -/
structure InOrder {α : Type} (room : Nat) (made got : List Ps2Event → List α) (log : List Ps2Event)
    (waiting : List α) : Prop where
  part : (got log ++ waiting).Sublist (made log)
  whole : (∀ p, p <+: log → (made p).length ≤ (got p).length + room) → got log ++ waiting = made log

/-- The keys that were typed, by the scan codes that `keyboard_irq` took. -/
def typedKeys (log : List Ps2Event) : List UInt8 := Keymap.idle.types (log.filterMap scan?)

/-- The ring of typed keys in a run. -/
theorem ps2_keys {s0 s : Ps2} {log : List Ps2Event} (h0 : s0.Booted)
    (h : Run.Trace Ps2.Step s0 log s) :
    InOrder 255 typedKeys (List.filterMap key?) log s.kbd.buf.toList := by
  have hinv := h0.run h
  refine ⟨?_, fun hroom => ?_⟩
  · have hs := hinv.keys.sublist
    rw [takes_keyFeed, puts_keyFeed] at hs
    exact hs
  · have hs := hinv.keys.eq_of_ample (ample_feed (clear_keyFeed _) fun p hp => by
      rw [takes_keyFeed, puts_keyFeed]
      exact hroom p hp)
    rw [takes_keyFeed, puts_keyFeed] at hs
    exact hs

/-- **No key is lost, doubled or put out of order**, whatever interrupts and programs do in
whatever order, unless 255 of them wait; and every byte that reached the controller was taken out of
it once, or waits there. -/
theorem ps2_keys_in_order {s0 s : Ps2} {log : List Ps2Event} (h0 : s0.Booted)
    (h : Run.Trace Ps2.Step s0 log s) :
    InOrder 255 typedKeys (List.filterMap key?) log s.kbd.buf.toList
      ∧ InOrder 255 (List.filterMap scan?) (List.filterMap rawKey?) log s.kbd.raw.toList
      ∧ log.filterMap arrived? = log.filterMap took? ++ s.port := by
  have hinv := h0.run h
  refine ⟨ps2_keys h0 h, ⟨?_, fun hroom => ?_⟩, hinv.port⟩
  · have hs := hinv.raw.sublist
    rw [takes_rawFeed, puts_rawFeed] at hs
    exact hs
  · have hs := hinv.raw.eq_of_ample (ample_feed clear_rawFeed fun p hp => by
      rw [takes_rawFeed, puts_rawFeed]
      exact hroom p hp)
    rw [takes_rawFeed, puts_rawFeed] at hs
    exact hs

/-- A machine that has just been switched on. -/
def ps2Boot : Ps2 := ⟨[], .init (fun _ => 0) (fun _ => 0), ⟨.fresh fun _ => ⟨0, 0, 0⟩, [], true⟩⟩

theorem ps2Boot_booted : ps2Boot.Booted where
  port := rfl
  keys := RingBuf.toList_fresh _
  raw := RingBuf.toList_fresh _
  map := rfl
  moves := RingBuf.toList_fresh _
  pkt := rfl

/-- What may happen next, by name. -/
inductive Ps2Act where
  | arrive (b : PortByte)
  | kbdIrq
  | mouseIrq
  | poll
  | readMouse (len : Nat)

def Ps2.act (s : Ps2) : Ps2Act → List Ps2Event × Ps2
  | .arrive b => ([.arrive b], { s with port := s.port ++ [b] })
  | .kbdIrq => ((s.port.take 32).map .kbdTook,
      { s with port := (Keyboard.irq s.port s.kbd).1, kbd := (Keyboard.irq s.port s.kbd).2 })
  | .mouseIrq => (if s.mouse.ready then s.port.map .mouseTook else [],
      { s with port := (Mouse.irq s.port s.mouse).1, mouse := (Mouse.irq s.port s.mouse).2 })
  | .poll => ([.key s.kbd.poll.1], { s with kbd := s.kbd.poll.2 })
  | .readMouse len => ((s.mouse.q.toList.take (len / 3)).map fun p => .move (some p),
      { s with mouse := (devMouseRead len s.mouse).2 })

def Ps2.acts (s : Ps2) : List Ps2Act → List Ps2Event × Ps2
  | [] => ([], s)
  | a :: as =>
      let (log, s) := s.act a
      let (log', s) := s.acts as
      (log ++ log', s)

theorem Ps2.act_step (s : Ps2) (a : Ps2Act) : Ps2.Step s (s.act a).1 (s.act a).2 := by
  cases a with
  | arrive b => exact .arrive s b
  | kbdIrq => exact .kbdIrq s
  | mouseIrq => exact .mouseIrq s
  | poll => exact .poll s
  | readMouse len => exact s.readMouse_step len

theorem Ps2.acts_trace (s : Ps2) (as : List Ps2Act) :
    Run.Trace Ps2.Step s (s.acts as).1 (s.acts as).2 := by
  induction as generalizing s with
  | nil => exact .nil s
  | cons a as ih => exact (Run.Trace.one (s.act_step a)).append (ih (s.act a).2)

/-- A byte of the keyboard, and its interrupt. -/
def struck (b : UInt8) : List Ps2Act := [.arrive ⟨false, b⟩, .kbdIrq]

/-- `a` and `b` are pressed, the mouse is moved, and `c` is pressed 254 times: that is one key more
than there is room for. Then two keys and the move are read. -/
def fullActs : List Ps2Act :=
  struck 0x1E ++ [.arrive ⟨true, 0x09⟩, .arrive ⟨true, 3⟩, .arrive ⟨true, 0⟩, .mouseIrq] ++ struck 0x30
    ++ (List.replicate 254 (struck 0x2E)).flatten ++ [.poll, .readMouse 8, .poll]

/-- The ring has filled up, and the first two keys are read all the same. -/
theorem ps2_keys_in_order_a : ∃ s log, Run.Trace Ps2.Step ps2Boot log s
    ∧ log.filterMap key? = [0x61, 0x62] ∧ log.filterMap move? = [⟨3, 0, 1⟩]
    ∧ (typedKeys log).length = 256 ∧ s.kbd.buf.toList.length = 253
    ∧ InOrder 255 typedKeys (List.filterMap key?) log s.kbd.buf.toList := by
  have hfacts : (ps2Boot.acts fullActs).1.filterMap key? = [0x61, 0x62]
      ∧ (ps2Boot.acts fullActs).1.filterMap move? = [⟨3, 0, 1⟩]
      ∧ (typedKeys (ps2Boot.acts fullActs).1).length = 256
      ∧ (ps2Boot.acts fullActs).2.kbd.buf.count = 253 := by
    decide +kernel
  obtain ⟨h1, h2, h3, h4⟩ := hfacts
  have h := ps2Boot.acts_trace fullActs
  exact ⟨_, _, h, h1, h2, h3, (RingBuf.length_toList _).trans h4,
    (ps2_keys_in_order ps2Boot_booted h).1⟩

end VnlKernel
