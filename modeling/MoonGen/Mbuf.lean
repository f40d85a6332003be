/-! # Packet buffers

The part of an `rte_mbuf` that the modelled code reads or writes. `addr` is the
buffer's identity: two buffers with equal contents are still two buffers. The
timestamp and the burst size live in dynamic fields of 64 and 32 bits.
-/

namespace MoonGen

structure Mbuf where
  addr : Nat
  pktLen : UInt32
  timestamp : UInt64
  burstSize : UInt32
deriving Repr, DecidableEq

namespace Mbuf

def setTimestampDynfield (m : Mbuf) (timestamp : UInt64) : Mbuf :=
  { m with timestamp := timestamp }

/-- The setter takes a 64-bit value and stores its low 32 bits. -/
def setBurstSizeDynfield (m : Mbuf) (burstSize : UInt64) : Mbuf :=
  { m with burstSize := burstSize.toUInt32 }

@[simp] theorem setTimestampDynfield_addr (m : Mbuf) (t : UInt64) :
    (m.setTimestampDynfield t).addr = m.addr := rfl

@[simp] theorem setTimestampDynfield_pktLen (m : Mbuf) (t : UInt64) :
    (m.setTimestampDynfield t).pktLen = m.pktLen := rfl

@[simp] theorem setTimestampDynfield_timestamp (m : Mbuf) (t : UInt64) :
    (m.setTimestampDynfield t).timestamp = t := rfl

@[simp] theorem setBurstSizeDynfield_addr (m : Mbuf) (n : UInt64) :
    (m.setBurstSizeDynfield n).addr = m.addr := rfl

@[simp] theorem setBurstSizeDynfield_timestamp (m : Mbuf) (n : UInt64) :
    (m.setBurstSizeDynfield n).timestamp = m.timestamp := rfl

@[simp] theorem setBurstSizeDynfield_burstSize (m : Mbuf) (n : UInt64) :
    (m.setBurstSizeDynfield n).burstSize = n.toUInt32 := rfl

end Mbuf

end MoonGen
