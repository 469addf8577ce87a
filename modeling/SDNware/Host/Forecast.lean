/-
# SDNware.Host.Forecast — `flow_forecast`, called by the driver for every posted chain of requests.

The function adds up the scatter/gather lengths of the chain and gives up below 1024 bytes.
Otherwise it obtains the destination (path MTU and the text after the last `:` of the printed
destination GID), from the shared cache when the line of the queue pair's number is tagged with that
number and from `ibv_query_qp` when not; computes the bytes a reliable connection will send and
receive; and appends a record when their sum exceeds 4096.

`flowForecast` is the function; `flowForecastUncached` is its purpose, the same function with the
destination always taken from `ibv_query_qp`.  Both end in `report`.
-/
import SDNware.Host.Shm

namespace SDNware.Host

open SDNware.Wire

/-! ## §1 — requests and queue pairs -/

/-- `enum ibv_wr_opcode`. -/
inductive WrOpcode
  | rdmaWrite | rdmaWriteWithImm | send | sendWithImm | rdmaRead | atomicCmpAndSwp
  | atomicFetchAndAdd | localInv | bindMw | sendWithInv | tso | driver1
  deriving DecidableEq

/-- `enum ibv_qp_type`. -/
inductive QpType
  | rc | uc | ud | rawPacket | xrcSend | xrcRecv | driver
  deriving DecidableEq

/-- A work request: its opcode and the lengths of its `num_sge` scatter/gather entries. -/
structure SendWr where
  opcode : WrOpcode
  sgList : List UInt32
  deriving DecidableEq

/-- A queue pair. `handle` tells apart queue pairs of different devices or processes that share
their number. -/
structure Qp where
  handle : Nat
  qpNum : UInt32
  qpType : QpType
  deviceName : String
  deriving DecidableEq

/-- What `ibv_query_qp` returns of a queue pair. -/
structure QpAttr where
  dgid : CharArray 16
  pathMtu : UInt8
  deriving DecidableEq

/-- A reading of clock 0. -/
structure Timespec where
  sec : Int
  nsec : Int
  deriving DecidableEq

/-- `flow_size` of a chain. -/
def flowSize (wr : List SendWr) : Nat := (wr.map fun w => (w.sgList.map UInt32.toNat).sum).sum

/-! ## §2 — the text of a GID -/

/-- The eight 16-bit words of an address. -/
def words (g : CharArray 16) : List Nat :=
  (List.range 8).map fun i => (g.toList.getD (2 * i) 0).toNat * 256 + (g.toList.getD (2 * i + 1) 0).toNat

/-- The longer of two runs of zero words, the earlier one on a tie. A run is its start and length. -/
def betterRun (best : Option (Nat × Nat)) (cur : Nat × Nat) : Option (Nat × Nat) :=
  match best with
  | none => some cur
  | some b => if b.2 < cur.2 then some cur else some b

/-- One word of the scan for the longest run. -/
def scanWord (st : Option (Nat × Nat) × Option (Nat × Nat)) (iw : Nat × Nat) :
    Option (Nat × Nat) × Option (Nat × Nat) :=
  match st.2 with
  | none => if iw.2 = 0 then (st.1, some (iw.1, 1)) else (st.1, none)
  | some cur => if iw.2 = 0 then (st.1, some (cur.1, cur.2 + 1)) else (betterRun st.1 cur, none)

/-- The run of zero words `inet_ntop` compresses; a single word is not compressed. -/
def bestRun (ws : List Nat) : Option (Nat × Nat) :=
  let st := ((List.range 8).zip ws).foldl scanWord (none, none)
  let best := match st.2 with
    | none => st.1
    | some cur => betterRun st.1 cur
  best.filter fun r => 2 ≤ r.2

/-- The dotted quad of the last four bytes. -/
def inetNtop4 (g : CharArray 16) : List Char :=
  List.intercalate ['.'] ((g.toList.drop 12).map fun b => Nat.toDigits 10 b.toNat)

/-- `inet_ntop(AF_INET6, …)` of the C library. -/
def inetNtop6 (g : CharArray 16) : List Char :=
  let ws := words g
  let best := bestRun ws
  let mapped := best = some (0, 6) ∨ best = some (0, 5) ∧ ws.getD 5 0 = 0xffff
  let piece i :=
    if best.any fun r => r.1 ≤ i && i < r.1 + r.2 then
      (if best.any fun r => r.1 = i then [':'] else [])
    else (if i = 0 then [] else [':']) ++
      (if i = 6 ∧ mapped then inetNtop4 g else Nat.toDigits 16 (ws.getD i 0))
  (List.range (if mapped then 7 else 8)).flatMap piece ++
    (if best.any fun r => r.1 + r.2 = 8 then [':'] else [])

/-- `dgid` after `inet_ntop(…, dgid, sizeof(dgid))`: untouched, hence empty, if the text and its NUL
do not fit the 30 bytes. -/
def dgidText (g : CharArray 16) : List Char :=
  if (inetNtop6 g).length + 1 ≤ 30 then inetNtop6 g else []

/-- `strrchr(dgid, ':')` and the copy of what follows; without a colon the pointer is NULL and the
copy does not return. -/
def gidText (g : CharArray 16) : Option (CharArray 16) :=
  if ':' ∈ dgidText g then
    some (strncpy 16 (String.ofList ((dgidText g).reverse.takeWhile (· ≠ ':')).reverse))
  else none

/-! ## §3 — the forecast -/

/-- What `flow_forecast` takes from a destination. -/
structure Destination where
  pathMtu : UInt8
  gid : CharArray 16
  deriving DecidableEq

/-- The destination `ibv_query_qp` reports. -/
def queryDestination (attr : QpAttr) : Option Destination :=
  (gidText attr.dgid).map fun gid => ⟨attr.pathMtu, gid⟩

/-- `mtu` from `path_mtu` (`enum ibv_mtu`). -/
def mtuOf (pathMtu : UInt8) : UInt64 :=
  match pathMtu with
  | 2 => 512
  | 3 => 1024
  | 4 => 2048
  | 5 => 4096
  | _ => 256

/-- `_send_amount` and `_recv_amount` of one request. -/
def wrAmounts (mtu : UInt64) (w : SendWr) : UInt64 × UInt64 :=
  let length : UInt64 := (w.sgList.map UInt32.toUInt64).foldl (· + ·) 0
  let numPacket := (length + mtu - 1) / mtu
  let both := length + numPacket * 62
  let ack : UInt64 := if length > mtu then 66 * 2 else 66
  match w.opcode with
  | .rdmaRead => (78, both + 4 + (if length > mtu then 4 else 0))
  | .sendWithImm => (both + 4, ack)
  | .rdmaWrite => (both + 16, ack)
  | .rdmaWriteWithImm => (both + 20, ack)
  | .atomicFetchAndAdd => (both + 90, 74)
  | .atomicCmpAndSwp => (both + 90, 74)
  | _ => (both, ack)

/-- `send_amount` and `recv_amount`: only reliable connections are counted. -/
def amounts (qpType : QpType) (mtu : UInt64) (wr : List SendWr) : UInt64 × UInt64 :=
  if qpType = .rc then
    wr.foldl (fun acc w => (acc.1 + (wrAmounts mtu w).1, acc.2 + (wrAmounts mtu w).2)) (0, 0)
  else (0, 0)

/-- The record of a chain, if its traffic is worth one. -/
def forecastEntry (q : Qp) (d : Destination) (wr : List SendWr) (now : Timespec) : Option Entry :=
  let amount := amounts q.qpType (mtuOf d.pathMtu) wr
  if amount.2 + amount.1 > 4096 then
    some
      { gid := strncpy 16 (cStr d.gid)
        name := strncpy 64 q.deviceName
        tx := amount.1
        rx := amount.2
        tm := UInt64.ofInt (now.sec * 1000000000 + now.nsec) }
  else none

/-- The rest of the function once the destination is known. -/
def report (m : Shm) (q : Qp) (d : Destination) (wr : List SendWr) (now : Timespec) : Shm :=
  match forecastEntry q d wr now with
  | some e => m.append e
  | none => m

/-- `cache_key`. -/
def cacheKey (qpNum : UInt32) : Nat := qpNum.toNat % cacheNum

/-- The cache lookup and fill. -/
def cacheLookup (m : Shm) (qpNum : UInt32) (attr : QpAttr) : Option (Shm × Destination) :=
  if (m.cache (cacheKey qpNum)).qpNum = qpNum then
    some (m,
      ⟨(m.cache (cacheKey qpNum)).pathMtu, strncpy 16 (cStr (m.cache (cacheKey qpNum)).gid)⟩)
  else (queryDestination attr).map fun d =>
    ({ m with
        cache := Function.update m.cache (cacheKey qpNum) ⟨qpNum, d.pathMtu, strncpy 16 (cStr d.gid)⟩ },
      d)

/-- `flow_forecast`, `attr` being what `ibv_query_qp` returns for `q` at this call. -/
def flowForecast (m : Shm) (q : Qp) (attr : QpAttr) (wr : List SendWr) (now : Timespec) : Option Shm :=
  if flowSize wr < 1024 then some m
  else (cacheLookup m q.qpNum attr).map fun r => report r.1 q r.2 wr now

/-- The function with no cache in it. -/
def flowForecastUncached (m : Shm) (q : Qp) (attr : QpAttr) (wr : List SendWr) (now : Timespec) :
    Option Shm :=
  if flowSize wr < 1024 then some m
  else (queryDestination attr).map fun d => report m q d wr now

end SDNware.Host
