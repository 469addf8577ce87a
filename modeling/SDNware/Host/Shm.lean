/-
# SDNware.Host.Shm — the shared-memory segment of a host.

One segment per host, attached by every process that posts work requests and by the client: the
indices `t` and `h`, the ring of `flow_NUM` records and the direct-mapped destination cache.
`alloc_shared_memory` zeroes it.  `flow_forecast` appends by overwriting five of the six fields of
slot `h`; the `ip` field is left as the previous lap left it, and is the client's to fill.
-/
import Mathlib.Logic.Function.Basic
import SDNware.Wire.Amount

namespace SDNware.Host

open SDNware.Wire

/-- `CACHE_NUM`. -/
def cacheNum : Nat := 521

/-- One line of the destination cache. -/
structure Cache where
  qpNum : UInt32
  pathMtu : UInt8
  gid : CharArray 16
  deriving DecidableEq

/-- The fields of a record that `flow_forecast` writes. -/
structure Entry where
  gid : CharArray 16
  name : CharArray 64
  tx : UInt64
  rx : UInt64
  tm : UInt64
  deriving DecidableEq

/-- The driver's part of a record. -/
def entryOf (a : Amount) : Entry := ⟨a.gid, a.name, a.tx, a.rx, a.tm⟩

/-- A record overwritten by the driver; `ip` stays. -/
def putEntry (a : Amount) (e : Entry) : Amount := ⟨e.gid, e.name, a.ip, e.tx, e.rx, e.tm⟩

@[simp] theorem entryOf_putEntry (a : Amount) (e : Entry) : entryOf (putEntry a e) = e := rfl

/-- The segment. Slots at `flow_NUM` and above and cache lines at `CACHE_NUM` and above do not exist
and are never touched. -/
structure Shm where
  t : Nat
  h : Nat
  amount : Nat → Amount
  cache : Nat → Cache

/-- A record of zero bytes. -/
def zeroAmount : Amount :=
  ⟨CharArray.fit 16 [], CharArray.fit 64 [], CharArray.fit 32 [], 0, 0, 0⟩

/-- `alloc_shared_memory`. -/
def allocSharedMemory : Shm where
  t := 0
  h := 0
  amount _ := zeroAmount
  cache _ := ⟨0, 0, CharArray.fit 16 []⟩

/-- The append at the end of `flow_forecast`. -/
def Shm.append (m : Shm) (e : Entry) : Shm :=
  { m with
    amount := Function.update m.amount m.h (putEntry (m.amount m.h) e)
    h := (m.h + 1) % flowNum }

end SDNware.Host
