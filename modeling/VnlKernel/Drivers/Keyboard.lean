import VnlKernel.Lib.Mailbox
import VnlKernel.Types

/-!
# The keyboard: `src/drivers/keyboard.c`

The controller hands over one byte after the other, the mouse's among the keyboard's, and says
of each whose it is. The keyboard's bytes are scan codes of set 1. They are kept as they came,
and what they mean is kept too: a character, or the code of a key that has none.
-/

namespace VnlKernel

/-! ## The controller -/

/-- A byte that waits in the controller. -/
structure PortByte where
  /-- It came from the mouse. -/
  aux : Bool
  data : UInt8
deriving DecidableEq

/-- `inb(KBD_STATUS)`: bit 0 says that a byte waits, and bit 5 that it is the mouse's. -/
def kbcStatus : List PortByte → UInt8
  | [] => 0
  | b :: _ => if b.aux then 0x21 else 0x01

/-- `inb(KBD_DATA)`: the byte that waits, and the bytes behind it. -/
def kbcData : List PortByte → UInt8 × List PortByte
  | [] => (0, [])
  | b :: port => (b.data, port)

/-! ## Scan codes -/

/-- `sc_lower`. -/
def scLowerTable : List UInt8 :=
  [0, 27, 0x31, 0x32, 0x33, 0x34, 0x35, 0x36, 0x37, 0x38, 0x39, 0x30, 0x2D, 0x3D, 0x08,
   0x09, 0x71, 0x77, 0x65, 0x72, 0x74, 0x79, 0x75, 0x69, 0x6F, 0x70, 0x5B, 0x5D, 0x0A,
   0, 0x61, 0x73, 0x64, 0x66, 0x67, 0x68, 0x6A, 0x6B, 0x6C, 0x3B, 0x27, 0x60,
   0, 0x5C, 0x7A, 0x78, 0x63, 0x76, 0x62, 0x6E, 0x6D, 0x2C, 0x2E, 0x2F, 0,
   0x2A, 0, 0x20]

/-- `sc_upper`. -/
def scUpperTable : List UInt8 :=
  [0, 27, 0x21, 0x40, 0x23, 0x24, 0x25, 0x5E, 0x26, 0x2A, 0x28, 0x29, 0x5F, 0x2B, 0x08,
   0x09, 0x51, 0x57, 0x45, 0x52, 0x54, 0x59, 0x55, 0x49, 0x4F, 0x50, 0x7B, 0x7D, 0x0A,
   0, 0x41, 0x53, 0x44, 0x46, 0x47, 0x48, 0x4A, 0x4B, 0x4C, 0x3A, 0x22, 0x7E,
   0, 0x7C, 0x5A, 0x58, 0x43, 0x56, 0x42, 0x4E, 0x4D, 0x3C, 0x3E, 0x3F, 0,
   0x2A, 0, 0x20]

/-- `sc_lower[sc]`; the rest of the table is zero. -/
def scLower (sc : UInt8) : UInt8 := scLowerTable.getD sc.toNat 0

/-- `sc_upper[sc]`. -/
def scUpper (sc : UInt8) : UInt8 := scUpperTable.getD sc.toNat 0

/-- The code of a key behind `0xE0`: `KEY_UP` and so on, or zero. -/
def extKey (sc : UInt8) : UInt8 :=
  match sc with
  | 0x48 => 0x80
  | 0x50 => 0x81
  | 0x4B => 0x82
  | 0x4D => 0x83
  | 0x47 => 0x84
  | 0x4F => 0x85
  | 0x53 => 0x86
  | 0x49 => 0x87
  | 0x51 => 0x88
  | _ => 0

/-! ## The driver -/

/-- `KBD_BUF_SIZE`. -/
def kbdBufSize : Nat := 256

instance : NeZero kbdBufSize := ⟨by decide⟩

/-- The file's static variables. -/
structure Keyboard where
  /-- `kbd_buf`, `kbd_head` and `kbd_tail`. -/
  buf : RingBuf UInt8 kbdBufSize
  /-- `kbd_raw_buf`, `kbd_raw_head` and `kbd_raw_tail`. -/
  raw : RingBuf UInt8 kbdBufSize
  shiftHeld : Bool
  capsLock : Bool
  e0Pending : Bool

namespace Keyboard

/-- `kbd_push`. -/
def push (k : Keyboard) (c : UInt8) : Keyboard := { k with buf := k.buf.offer c }

/-- `kbd_push_raw`. -/
def pushRaw (k : Keyboard) (sc : UInt8) : Keyboard := { k with raw := k.raw.offer sc }

/-- `kbd_handle_byte`. -/
def handleByte (k : Keyboard) (sc : UInt8) : Keyboard :=
  if sc = 0xE0 then { k with e0Pending := true }
  else
    let released := decide (sc &&& 0x80 ≠ 0)
    let sc := sc &&& 0x7F
    if k.e0Pending then
      let k := { k with e0Pending := false }
      if !released then
        let ext := extKey sc
        if ext ≠ 0 then k.push ext else k
      else k
    else if sc = 0x2A ∨ sc = 0x36 then { k with shiftHeld := !released }
    else if !released ∧ sc = 0x3A then { k with capsLock := !k.capsLock }
    else if !released ∧ sc < 128 then
      let c :=
        if k.shiftHeld then scUpper sc
        else
          let c := scLower sc
          if k.capsLock ∧ c ≥ 0x61 ∧ c ≤ 0x7A then c - 0x61 + 0x41 else c
      if c ≠ 0 then k.push c else k
    else k

/-- The turns of the loop in `keyboard_irq`. -/
def irqLoop : Nat → List PortByte → Keyboard → List PortByte × Keyboard
  | 0, port, k => (port, k)
  | n + 1, port, k =>
      let st := kbcStatus port
      if st &&& 0x01 = 0 then (port, k)
      else
        let (data, port) := kbcData port
        if st &&& 0x20 ≠ 0 then irqLoop n port k
        else irqLoop n port ((k.pushRaw data).handleByte data)

/-- `keyboard_irq`: what still waits in the controller, and the driver's variables. -/
def irq (port : List PortByte) (k : Keyboard) : List PortByte × Keyboard := irqLoop 32 port k

/-- What `keyboard_poll` and `keyboard_poll_raw` return, of what they found. -/
def polled : Option UInt8 → Int
  | none => -1
  | some c => c.toNat

/-- `keyboard_poll`. -/
def poll (k : Keyboard) : Int × Keyboard :=
  let (o, buf) := k.buf.poll
  (polled o, { k with buf := buf })

/-- `keyboard_poll_raw`. -/
def pollRaw (k : Keyboard) : Int × Keyboard :=
  let (o, raw) := k.raw.poll
  (polled o, { k with raw := raw })

/-- The static variables before the first interrupt. -/
def init (buf raw : Fin kbdBufSize → UInt8) : Keyboard :=
  ⟨.fresh buf, .fresh raw, false, false, false⟩

end Keyboard

/-! ## Reading the device -/

/-- The loop of `devfs_chr_read` for the keyboard: the bytes delivered. -/
def devKeyboardRead : Nat → Keyboard → List UInt8 × Keyboard
  | 0, k => ([], k)
  | n + 1, k =>
      let (val, k') := k.pollRaw
      if val < 0 then ([], k')
      else
        let (bytes, k'') := devKeyboardRead n k'
        (UInt8.ofNat val.toNat :: bytes, k'')

end VnlKernel
