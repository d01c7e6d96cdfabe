import VnlKernel.Drivers.Keyboard

/-!
# The mouse: `src/drivers/mouse.c`

A packet of the mouse is three bytes: the buttons, and how far it went. Nothing marks its first
byte but bit 3, which is always set there, and may be set in the other two as well. Packets wait
in a ring of 64 slots.
-/

namespace VnlKernel

/-- `MOUSE_QUEUE`. -/
def mouseQueue : Nat := 64

instance : NeZero mouseQueue := ⟨by decide⟩

/-- `(int8_t)b`. -/
def toInt8 (b : UInt8) : Int := if b < 0x80 then b.toNat else (b.toNat : Int) - 256

/-- An entry of `s_q`. -/
structure MouseMove where
  dx : Int
  dy : Int
  buttons : UInt8
deriving DecidableEq

/-- The file's static variables. -/
structure Mouse where
  /-- `s_q`, `s_head` and `s_tail`. -/
  q : RingBuf MouseMove mouseQueue
  /-- The first `s_pkt_len` bytes of `s_pkt`. -/
  pkt : List UInt8
  /-- `s_mouse_ready`. -/
  ready : Bool

namespace Mouse

/-- The loop's body in `mouse_irq`, for a byte of the mouse. -/
def handleByte (m : Mouse) (b : UInt8) : Mouse :=
  if m.pkt.length = 0 ∧ b &&& 0x08 = 0 then m
  else
    let m := { m with pkt := m.pkt ++ [b] }
    if m.pkt.length < 3 then m
    else
      let flags := m.pkt.getD 0 0
      let dx := toInt8 (m.pkt.getD 1 0)
      let dy := toInt8 (m.pkt.getD 2 0)
      { m with pkt := [], q := m.q.offer ⟨dx, dy, flags &&& 7⟩ }

/-- The loop of `mouse_irq`: it takes all that waits. -/
def irqLoop : List PortByte → Mouse → Mouse
  | [], m => m
  | b :: port, m => if !b.aux then irqLoop port m else irqLoop port (m.handleByte b.data)

/-- `mouse_irq`: what still waits in the controller, and the driver's variables. -/
def irq (port : List PortByte) (m : Mouse) : List PortByte × Mouse :=
  if !m.ready then (port, m) else ([], irqLoop port m)

/-- `mouse_poll`. -/
def poll (m : Mouse) : Option MouseMove × Mouse :=
  let (o, q) := m.q.poll
  (o, { m with q := q })

/-- `mouse_flush`: what waits is thrown away, and up to 64 bytes in the controller. -/
def flush (port : List PortByte) (m : Mouse) : List PortByte × Mouse :=
  (port.drop 64, { m with q := .fresh m.q.buf, pkt := [] })

end Mouse

/-! ## Reading the device -/

/-- `(uint8_t)(int8_t)i`. -/
def ofInt8 (i : Int) : UInt8 := UInt8.ofNat (i % 256).toNat

/-- The bytes of the packed structure in `devfs_chr_read`. -/
def MouseMove.bytes (p : MouseMove) : List UInt8 := [ofInt8 p.dx, ofInt8 p.dy, p.buttons]

/-- The loop of `devfs_chr_read` for the mouse, with room for `len` bytes. -/
def devMouseReadLoop : Nat → Mouse → List UInt8 × Mouse
  | len, m =>
      if 3 ≤ len then
        match m.poll with
        | (none, m) => ([], m)
        | (some p, m) =>
            let (bytes, m) := devMouseReadLoop (len - 3) m
            (p.bytes ++ bytes, m)
      else ([], m)

/-- `devfs_chr_read` for the mouse: `-EINVAL` if there is no room for a packet. -/
def devMouseRead (len : Nat) (m : Mouse) : Option (List UInt8) × Mouse :=
  if len < 3 then (none, m)
  else
    let (bytes, m) := devMouseReadLoop len m
    (some bytes, m)

end VnlKernel
