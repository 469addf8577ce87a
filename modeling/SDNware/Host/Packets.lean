/-
# SDNware.Host.Packets — the forecast against the packets of a reliable connection.

`flow_forecast` computes the bytes of a request in closed form: a ceiling division for the number of
packets, increments per opcode and one comparison of the length with the MTU.  Here the bytes are
counted packet by packet.  A message is cut into packets of at most `mtu` bytes of payload, every
packet costs its payload and 62 bytes of headers, and the extended headers are charged to the packet
that carries them: 16 bytes to the first packet of an RDMA write, 4 bytes to the last packet of a
message with immediate data, 4 bytes to the first and to the last packet of a read response.

`amounts_eq_packets` says that the two agree for every chain, every MTU and every split into
scatter/gather entries, as long as the totals are below 2^63.
-/
import SDNware.Lib.Cut
import SDNware.Host.Forecast

namespace SDNware.Host

/-! ## §1 — the packets of a request -/

/-- The length of a request. -/
def SendWr.length (w : SendWr) : Nat := (w.sgList.map UInt32.toNat).sum

/-- The packets of a message, each with its payload and 62 bytes of headers. -/
def messagePackets (mtu length : Nat) : List Nat := (cut mtu length).map (· + 62)

/-- The packets of a read response: the first and the last one carry 4 bytes more. -/
def responsePackets (mtu length : Nat) : List Nat :=
  let packets := messagePackets mtu length
  if packets.length = 1 then packets.modifyHead (· + 4)
  else (packets.modifyHead (· + 4)).modifyLast (· + 4)

/-- The packets a request sends. -/
def sentPackets (mtu : Nat) (w : SendWr) : List Nat :=
  match w.opcode with
  | .rdmaRead => [62 + 16]
  | .sendWithImm => (messagePackets mtu w.length).modifyLast (· + 4)
  | .rdmaWrite => (messagePackets mtu w.length).modifyHead (· + 16)
  | .rdmaWriteWithImm => ((messagePackets mtu w.length).modifyHead (· + 16)).modifyLast (· + 4)
  | _ => messagePackets mtu w.length

/-- The bytes a request sends. -/
def sentBytes (mtu : Nat) (w : SendWr) : Nat := (sentPackets mtu w).sum

/-- The bytes a request receives: the read response, or the acknowledgements of a message that does
or does not fit in one packet. -/
def receivedBytes (mtu : Nat) (w : SendWr) : Nat :=
  match w.opcode with
  | .rdmaRead => (responsePackets mtu w.length).sum
  | _ => if (cut mtu w.length).length = 1 then 66 else 132

/-- The opcodes with a packet count. -/
def WrOpcode.Counted (op : WrOpcode) : Prop :=
  op = .send ∨ op = .sendWithImm ∨ op = .rdmaWrite ∨ op = .rdmaWriteWithImm ∨ op = .rdmaRead

/-! ## §2 — the closed forms -/

/-- `length + num_packet * 62`. -/
def dataBytes (mtu length : Nat) : Nat := length + (length + mtu - 1) / mtu * 62

section Closed

variable {mtu length : Nat} (hmtu : 0 < mtu)

theorem messagePackets_ne_nil : messagePackets mtu length ≠ [] := by
  unfold messagePackets
  simpa using cut_ne_nil mtu length

include hmtu

theorem sum_messagePackets (hlength : 0 < length) :
    (messagePackets mtu length).sum = dataBytes mtu length := by
  unfold messagePackets dataBytes
  rw [sum_map_add, sum_cut, length_cut hmtu hlength]

theorem sum_responsePackets (hlength : 0 < length) :
    (responsePackets mtu length).sum
      = dataBytes mtu length + 4 + if mtu < length then 4 else 0 := by
  have hone : (messagePackets mtu length).length = 1 ↔ length ≤ mtu := by
    unfold messagePackets
    rw [List.length_map, length_cut_eq_one_iff hmtu]
  have hhead : (messagePackets mtu length).modifyHead (· + 4) ≠ [] := by
    simpa using messagePackets_ne_nil
  unfold responsePackets
  simp only [hone]
  split
  · rename_i hfits
    rw [sum_modifyHead_add messagePackets_ne_nil, sum_messagePackets hmtu hlength,
      if_neg hfits.not_gt]
  · rename_i hlong
    rw [sum_modifyLast_add hhead, sum_modifyHead_add messagePackets_ne_nil,
      sum_messagePackets hmtu hlength, if_pos (not_le.mp hlong)]

/-- What a request sends, in closed form. -/
theorem sentBytes_eq {w : SendWr} (hlength : 0 < w.length) :
    sentBytes mtu w =
      match w.opcode with
      | .rdmaRead => 78
      | .sendWithImm => dataBytes mtu w.length + 4
      | .rdmaWrite => dataBytes mtu w.length + 16
      | .rdmaWriteWithImm => dataBytes mtu w.length + 20
      | _ => dataBytes mtu w.length := by
  have hsum := sum_messagePackets hmtu hlength
  have hhead : (messagePackets mtu w.length).modifyHead (· + 16) ≠ [] := by
    simpa using messagePackets_ne_nil
  unfold sentBytes sentPackets
  cases w.opcode with
  | rdmaRead => rfl
  | sendWithImm => simp only [sum_modifyLast_add messagePackets_ne_nil, hsum]
  | rdmaWrite => simp only [sum_modifyHead_add messagePackets_ne_nil, hsum]
  | rdmaWriteWithImm =>
    simp only [sum_modifyLast_add hhead, sum_modifyHead_add messagePackets_ne_nil, hsum]
  | _ => exact hsum

/-- What a request receives, in closed form. -/
theorem receivedBytes_eq {w : SendWr} (hlength : 0 < w.length) :
    receivedBytes mtu w =
      match w.opcode with
      | .rdmaRead => dataBytes mtu w.length + 4 + if mtu < w.length then 4 else 0
      | _ => if mtu < w.length then 132 else 66 := by
  have hack : (if (cut mtu w.length).length = 1 then 66 else 132)
      = if mtu < w.length then 132 else 66 := by
    simp only [length_cut_eq_one_iff hmtu]
    by_cases h : w.length ≤ mtu
    · rw [if_pos h, if_neg h.not_gt]
    · rw [if_neg h, if_pos (not_le.mp h)]
  unfold receivedBytes
  cases w.opcode with
  | rdmaRead => exact sum_responsePackets hmtu hlength
  | _ => exact hack

end Closed

/-! ## §3 — 64-bit arithmetic -/

theorem mtuOf_bounds (pathMtu : UInt8) : 0 < (mtuOf pathMtu).toNat ∧ (mtuOf pathMtu).toNat ≤ 4096 := by
  unfold mtuOf
  split <;> decide

theorem toNat_add_eq {a b : UInt64} {m n : Nat} (ha : a.toNat = m) (hb : b.toNat = n)
    (h : m + n < 2 ^ 64) : (a + b).toNat = m + n := by
  rw [UInt64.toNat_add, ha, hb, Nat.mod_eq_of_lt h]

/-- The sum of the scatter/gather lengths does not wrap. -/
theorem toNat_foldl_add (l : List UInt32) (acc : UInt64)
    (h : acc.toNat + (l.map UInt32.toNat).sum < 2 ^ 64) :
    ((l.map UInt32.toUInt64).foldl (· + ·) acc).toNat = acc.toNat + (l.map UInt32.toNat).sum := by
  induction l generalizing acc with
  | nil => simp
  | cons a l ih =>
    rw [List.map_cons, List.sum_cons] at h
    have hacc : (acc + a.toUInt64).toNat = acc.toNat + a.toNat :=
      toNat_add_eq rfl (UInt32.toNat_toUInt64 a) (by omega)
    rw [List.map_cons, List.foldl_cons, ih _ (by rw [hacc]; omega), hacc, List.map_cons,
      List.sum_cons]
    omega

/-- Neither does the count of one message. -/
theorem toNat_dataBytes {mtu : UInt64} (hmtu : 0 < mtu.toNat) (hmtu' : mtu.toNat ≤ 4096)
    (length : UInt64) (h : dataBytes mtu.toNat length.toNat < 2 ^ 63) :
    (length + (length + mtu - 1) / mtu * 62).toNat = dataBytes mtu.toNat length.toNat := by
  unfold dataBytes at h ⊢
  have hsum : (length + mtu).toNat = length.toNat + mtu.toNat := toNat_add_eq rfl rfl (by omega)
  have hone : (1 : UInt64) ≤ length + mtu := by
    rw [UInt64.le_iff_toNat_le, hsum]
    show 1 ≤ _
    omega
  have hpackets : ((length + mtu - 1) / mtu).toNat = (length.toNat + mtu.toNat - 1) / mtu.toNat := by
    rw [UInt64.toNat_div, UInt64.toNat_sub_of_le _ _ hone, hsum]
    rfl
  have hheaders : ((length + mtu - 1) / mtu * 62).toNat
      = (length.toNat + mtu.toNat - 1) / mtu.toNat * 62 := by
    rw [UInt64.toNat_mul, hpackets]
    exact Nat.mod_eq_of_lt (by show _ * 62 < _; omega)
  exact toNat_add_eq rfl hheaders (by omega)

/-- The bytes of one request are those of its packets. -/
theorem wrAmounts_toNat {mtu : UInt64} (hmtu : 0 < mtu.toNat) (hmtu' : mtu.toNat ≤ 4096) {w : SendWr}
    (hop : w.opcode.Counted) (hlength : 0 < w.length)
    (hsent : sentBytes mtu.toNat w < 2 ^ 63) (hreceived : receivedBytes mtu.toNat w < 2 ^ 63) :
    (wrAmounts mtu w).1.toNat = sentBytes mtu.toNat w ∧
      (wrAmounts mtu w).2.toNat = receivedBytes mtu.toNat w := by
  rw [sentBytes_eq hmtu hlength] at hsent ⊢
  rw [receivedBytes_eq hmtu hlength] at hreceived ⊢
  -- the data of the message is bounded by what is sent, or for a read by what is received
  have hdata : dataBytes mtu.toNat w.length < 2 ^ 63 := by
    rcases hop with h | h | h | h | h <;> rw [h] at hsent hreceived <;> simp only at hsent hreceived <;>
      omega
  have hfits : w.length < 2 ^ 63 := lt_of_le_of_lt (Nat.le_add_right _ _) hdata
  set length : UInt64 := (w.sgList.map UInt32.toUInt64).foldl (· + ·) 0 with hlen
  have htoNat : length.toNat = w.length := by
    rw [hlen, toNat_foldl_add w.sgList 0 (by show 0 + w.length < _; omega)]
    exact Nat.zero_add _
  have hboth := toNat_dataBytes hmtu hmtu' length (by rw [htoNat]; exact hdata)
  rw [htoNat] at hboth
  have hlong : length > mtu ↔ mtu.toNat < w.length := by
    rw [gt_iff_lt, UInt64.lt_iff_toNat_lt, htoNat]
  have hack : (if length > mtu then 66 * 2 else 66 : UInt64).toNat
      = if mtu.toNat < w.length then 132 else 66 := by
    simp only [hlong]
    split <;> rfl
  have hlast : (if length > mtu then 4 else 0 : UInt64).toNat = if mtu.toNat < w.length then 4 else 0 := by
    simp only [hlong]
    split <;> rfl
  unfold wrAmounts
  simp only [← hlen]
  rcases hop with h | h | h | h | h
  · simp only [h]
    exact ⟨hboth, hack⟩
  · simp only [h]
    exact ⟨toNat_add_eq hboth rfl (by omega), hack⟩
  · simp only [h]
    exact ⟨toNat_add_eq hboth rfl (by omega), hack⟩
  · simp only [h]
    exact ⟨toNat_add_eq hboth rfl (by omega), hack⟩
  · simp only [h] at hreceived ⊢
    have hfirst : (length + (length + mtu - 1) / mtu * 62 + 4).toNat
        = dataBytes mtu.toNat w.length + 4 := toNat_add_eq hboth rfl (by omega)
    exact ⟨rfl, toNat_add_eq hfirst hlast (by omega)⟩

/-! ## §4 — the chain -/

/-- The loop over the chain adds up without wrap-around. -/
theorem foldl_amounts {mtu : UInt64} (hmtu : 0 < mtu.toNat) (hmtu' : mtu.toNat ≤ 4096)
    (wr : List SendWr) (hop : ∀ w ∈ wr, w.opcode.Counted) (hlength : ∀ w ∈ wr, 0 < w.length)
    (acc : UInt64 × UInt64)
    (hsent : acc.1.toNat + (wr.map (sentBytes mtu.toNat)).sum < 2 ^ 63)
    (hreceived : acc.2.toNat + (wr.map (receivedBytes mtu.toNat)).sum < 2 ^ 63) :
    (wr.foldl (fun acc w => (acc.1 + (wrAmounts mtu w).1, acc.2 + (wrAmounts mtu w).2)) acc).1.toNat
        = acc.1.toNat + (wr.map (sentBytes mtu.toNat)).sum ∧
      (wr.foldl (fun acc w => (acc.1 + (wrAmounts mtu w).1, acc.2 + (wrAmounts mtu w).2)) acc).2.toNat
        = acc.2.toNat + (wr.map (receivedBytes mtu.toNat)).sum := by
  induction wr generalizing acc with
  | nil => exact ⟨rfl, rfl⟩
  | cons w wr ih =>
    obtain ⟨hopw, hops⟩ := List.forall_mem_cons.mp hop
    obtain ⟨hlengthw, hlengths⟩ := List.forall_mem_cons.mp hlength
    simp only [List.map_cons, List.sum_cons] at hsent hreceived ⊢
    obtain ⟨hs, hr⟩ := wrAmounts_toNat hmtu hmtu' hopw hlengthw (by omega) (by omega)
    have hs' : (acc.1 + (wrAmounts mtu w).1).toNat = acc.1.toNat + sentBytes mtu.toNat w :=
      toNat_add_eq rfl hs (by omega)
    have hr' : (acc.2 + (wrAmounts mtu w).2).toNat = acc.2.toNat + receivedBytes mtu.toNat w :=
      toNat_add_eq rfl hr (by omega)
    obtain ⟨ihs, ihr⟩ := ih hops hlengths (acc.1 + (wrAmounts mtu w).1, acc.2 + (wrAmounts mtu w).2)
      (by simp only [hs']; omega) (by simp only [hr']; omega)
    rw [List.foldl_cons, ihs, ihr, hs', hr']
    omega

/-- **The forecast counts packets.** For every chain of requests on a reliable connection, of the
five opcodes with a packet count and at least one byte each, every path MTU and every split into
scatter/gather entries, with totals below 2^63: `send_amount` is what the packets of the requests
send, and `recv_amount` is what the read responses and the acknowledgements bring back. -/
theorem amounts_eq_packets (pathMtu : UInt8) (wr : List SendWr)
    (hop : ∀ w ∈ wr, w.opcode.Counted) (hlength : ∀ w ∈ wr, 1 ≤ w.length)
    (hsent : (wr.map (sentBytes (mtuOf pathMtu).toNat)).sum < 2 ^ 63)
    (hreceived : (wr.map (receivedBytes (mtuOf pathMtu).toNat)).sum < 2 ^ 63) :
    (amounts .rc (mtuOf pathMtu) wr).1.toNat = (wr.map (sentBytes (mtuOf pathMtu).toNat)).sum ∧
      (amounts .rc (mtuOf pathMtu) wr).2.toNat
        = (wr.map (receivedBytes (mtuOf pathMtu).toNat)).sum := by
  obtain ⟨hpos, hle⟩ := mtuOf_bounds pathMtu
  have hfold := foldl_amounts hpos hle wr hop hlength (0, 0)
    (by show 0 + _ < _; omega) (by show 0 + _ < _; omega)
  unfold amounts
  rw [if_pos rfl, hfold.1, hfold.2]
  exact ⟨Nat.zero_add _, Nat.zero_add _⟩

/-- A write of two packets, a read of three and a message of exactly one packet. -/
def mixedChain : List SendWr :=
  [⟨.rdmaWriteWithImm, [1000, 500]⟩, ⟨.rdmaRead, [3000]⟩, ⟨.send, [1024]⟩]

/-- The counts of that chain with a path MTU of 1024. -/
theorem amounts_eq_packets_mixed :
    (amounts .rc (mtuOf 3) mixedChain).1.toNat
        = (mixedChain.map (sentBytes (mtuOf 3).toNat)).sum ∧
      (amounts .rc (mtuOf 3) mixedChain).2.toNat
        = (mixedChain.map (receivedBytes (mtuOf 3).toNat)).sum :=
  amounts_eq_packets 3 mixedChain
    (by simp [mixedChain, WrOpcode.Counted]) (by simp [mixedChain, SendWr.length])
    (by decide +kernel) (by decide +kernel)

end SDNware.Host
