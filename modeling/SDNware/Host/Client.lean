/-
# SDNware.Host.Client — the client's drain loop against concurrent appends.

The loop of `client.cpp` reads `shm->h` afresh in its branch tests, in every test of the loops that
fill in the `ip` fields, in the length given to `sock_write` and in `shm->t = shm->h`; the mutex
around it is commented out.  The model is a small-step machine: one program counter for each of
these reads and for each assignment to `shm->t`, a producer that may append before any of them.
A `sock_write` succeeds unless the code gives it a negative length, which `write()` refuses.

`drain_exactly_once` is what the loop guarantees, and the conditions it needs.  Two kinds of appends
are not safe:

* one between the last test of a filling loop and `shm->t = shm->h`: its record is sent without its
  `ip` (before the length is read) or never sent at all (after it);
* one that carries the head from the last slot to slot 0 while the client is in a filling loop up to
  `shm->h`: the length is then negative, `sock_write` returns -1, and `shm->t = shm->h` steps over
  everything unsent (`wrapAppend_loses`).

Everywhere else appends are safe, also those that carry the head around while the client is in the
filling loop up to `flow_NUM` or tests which branch to take.
-/
import SDNware.Lib.Ring
import SDNware.Lib.Run
import SDNware.Host.Shm

namespace SDNware.Host

open SDNware.Wire

/-! ## §1 — the machine -/

/-- Where the client stands, by the statement it executes next. -/
inductive Pc
  /-- `while (ret)` and `if (shm->t < shm->h)`. -/
  | top
  /-- `else if (shm->t > shm->h)`. -/
  | elseIf
  /-- The filling loop up to `shm->h`, at index `idx`. The loop after `shm->t = 0` is the same. -/
  | fill (idx : Nat)
  /-- `sock_write(…, ((shm->h) - (shm->t)) * sizeof(Amount))`. -/
  | write
  /-- `shm->t = shm->h`. -/
  | advance
  /-- The filling loop up to `flow_NUM`, at index `idx`. -/
  | fillEnd (idx : Nat)
  /-- `sock_write(…, (flow_NUM - (shm->t)) * sizeof(Amount))`. -/
  | writeEnd
  /-- `shm->t = 0`. -/
  | wrap
  /-- The inner `if (shm->t < shm->h)`. -/
  | again
  /-- After the loop. -/
  | exited
  deriving DecidableEq

/-- The segment, the client, and two histories: what has been appended and what has been sent. -/
structure Sys where
  shm : Shm
  pc : Pc
  ret : Int
  appended : List Entry
  sent : List Amount

/-- A step of the producer or of the client. -/
inductive Label
  | produce (e : Entry)
  | client
  deriving DecidableEq

/-- The client right after `alloc_shared_memory`. -/
def Sys.init : Sys := ⟨allocSharedMemory, .top, 1, [], []⟩

section Machine

-- `name_to_ip`, with the empty string for an absent name as `std::map::operator[]` has it
variable (nameToIp : String → String)

/-- `strncpy(amount.ip, name_to_ip[amount.name].c_str(), 32)`. -/
def fillIp (a : Amount) : Amount := { a with ip := strncpy 32 (nameToIp (cStr a.name)) }

/-- The record carries the ip of its own device name. -/
def Addressed (a : Amount) : Prop := a.ip = strncpy 32 (nameToIp (cStr a.name))

/-- The filling of slot `idx`. -/
def Shm.fillSlot (m : Shm) (idx : Nat) : Shm :=
  { m with amount := Function.update m.amount idx (fillIp nameToIp (m.amount idx)) }

/-- `ret = sock_write(…)` of the slots from `lo` to `hi`. With `hi` behind `lo` the length is negative,
enormous as a `size_t`: `write()` refuses it and `sock_write` returns -1. -/
def Sys.sockWrite (s : Sys) (lo hi : Nat) (next : Pc) : Sys :=
  if lo ≤ hi then
    { s with
      sent := s.sent ++ Ring.segment s.shm.amount lo hi
      ret := ((hi - lo) * sizeofAmount : Nat)
      pc := next }
  else { s with ret := -1, pc := next }

/-- One step of the client. -/
def Sys.clientStep (s : Sys) : Option Sys :=
  match s.pc with
  | .top =>
      if s.ret = 0 then some { s with pc := .exited }
      else if s.shm.t < s.shm.h then some { s with pc := .fill s.shm.t }
      else some { s with pc := .elseIf }
  | .elseIf =>
      if s.shm.h < s.shm.t then some { s with pc := .fillEnd s.shm.t }
      else some { s with pc := .top }
  | .fill idx =>
      if idx < s.shm.h then some { s with shm := s.shm.fillSlot nameToIp idx, pc := .fill (idx + 1) }
      else some { s with pc := .write }
  | .write => some (s.sockWrite s.shm.t s.shm.h .advance)
  | .advance => some { s with shm := { s.shm with t := s.shm.h }, pc := .top }
  | .fillEnd idx =>
      if idx < flowNum then
        some { s with shm := s.shm.fillSlot nameToIp idx, pc := .fillEnd (idx + 1) }
      else some { s with pc := .writeEnd }
  | .writeEnd => some (s.sockWrite s.shm.t flowNum .wrap)
  | .wrap => some { s with shm := { s.shm with t := 0 }, pc := .again }
  | .again =>
      if s.shm.t < s.shm.h then some { s with pc := .fill s.shm.t }
      else some { s with pc := .top }
  | .exited => none

/-- One step of the system. -/
def Sys.step (s : Sys) : Label → Option Sys
  | .produce e => some { s with shm := s.shm.append e, appended := s.appended ++ [e] }
  | .client => s.clientStep nameToIp

end Machine

/-- The append leaves fewer than `flow_NUM` records unsent. -/
def Sys.Room (s : Sys) : Label → Prop
  | .produce _ => s.appended.length + 1 < s.sent.length + flowNum
  | .client => True

/-- The client is in a filling loop up to `shm->h`. -/
def Pc.fills : Pc → Bool
  | .fill _ => true
  | _ => false

/-- The append does not fall between the last test of a filling loop and `shm->t = shm->h`, nor does
it carry the head around during a filling loop up to `shm->h`. -/
def Sys.Quiet (s : Sys) : Label → Prop
  | .produce _ => s.pc ≠ .write ∧ s.pc ≠ .advance ∧ (s.pc.fills = true → s.shm.h + 1 < flowNum)
  | .client => True

instance (s : Sys) : ∀ l, Decidable (s.Room l)
  | .produce _ => inferInstanceAs (Decidable (_ < _))
  | .client => isTrue trivial

instance (s : Sys) : ∀ l, Decidable (s.Quiet l)
  | .produce _ => inferInstanceAs (Decidable (_ ∧ _ ∧ (_ → _)))
  | .client => isTrue trivial

/-- What the loop owes its reader at the top: nothing skipped, nothing twice, the order kept, every
sent record addressed. -/
def Sys.ExactlyOnce (nameToIp : String → String) (s : Sys) : Prop :=
  s.appended = (s.sent ++ Ring.window flowNum s.shm.amount s.shm.t s.shm.h).map entryOf ∧
    ∀ a ∈ s.sent, Addressed nameToIp a

/-! ## §2 — the invariant -/

section Invariant

variable {nameToIp : String → String}

/-- The slots `lo, …, hi - 1` carry the ip of their device name. -/
def FilledOn (nameToIp : String → String) (m : Shm) (lo hi : Nat) : Prop :=
  ∀ j, lo ≤ j → j < hi → Addressed nameToIp (m.amount j)

/-- What is known at each program counter. `s.sent.length % flowNum` is where the tail stands, or
stood before the records up to it were sent. -/
def AtPc (nameToIp : String → String) (s : Sys) : Prop :=
  match s.pc with
  | .top => s.shm.t = s.sent.length % flowNum
  | .elseIf => s.shm.t = s.sent.length % flowNum
  | .fill idx => s.shm.t = s.sent.length % flowNum ∧ s.sent.length < s.appended.length ∧
      s.shm.t ≤ idx ∧ idx ≤ s.shm.h ∧ FilledOn nameToIp s.shm s.shm.t idx
  | .write => s.shm.t = s.sent.length % flowNum ∧ s.sent.length < s.appended.length ∧
      s.shm.t ≤ s.shm.h ∧ FilledOn nameToIp s.shm s.shm.t s.shm.h
  | .advance => s.sent.length = s.appended.length
  | .fillEnd idx => s.shm.t = s.sent.length % flowNum ∧ s.shm.h < s.shm.t ∧ s.shm.t ≤ idx ∧
      idx ≤ flowNum ∧ FilledOn nameToIp s.shm s.shm.t idx
  | .writeEnd => s.shm.t = s.sent.length % flowNum ∧ s.shm.h < s.shm.t ∧
      FilledOn nameToIp s.shm s.shm.t flowNum
  | .wrap => s.sent.length % flowNum = 0
  | .again => s.shm.t = 0 ∧ s.sent.length % flowNum = 0
  | .exited => True

/-- The invariant of the system. -/
structure Inv (nameToIp : String → String) (s : Sys) : Prop where
  head : s.shm.h = s.appended.length % flowNum
  slots : ∀ k (hk : k < s.appended.length), s.appended.length ≤ k + flowNum →
    entryOf (s.shm.amount (k % flowNum)) = s.appended.get ⟨k, hk⟩
  prefix_eq : s.sent.map entryOf = s.appended.take s.sent.length
  addressed : ∀ a ∈ s.sent, Addressed nameToIp a
  room : s.appended.length < s.sent.length + flowNum
  running : s.ret ≠ 0
  at_pc : AtPc nameToIp s

theorem inv_init : Inv nameToIp Sys.init := by
  refine ⟨rfl, ?_, rfl, ?_, by decide, by decide, rfl⟩
  · intro k hk
    exact absurd hk (by simp [Sys.init])
  · intro a ha
    exact absurd ha (by simp [Sys.init])

theorem Inv.sent_le {s : Sys} (hI : Inv nameToIp s) : s.sent.length ≤ s.appended.length := by
  have h := congrArg List.length hI.prefix_eq
  rw [List.length_map, List.length_take] at h
  omega

/-- The unsent positions hold the unsent records. -/
theorem Inv.positions_eq {s : Sys} (hI : Inv nameToIp s) :
    (Ring.positions flowNum s.shm.amount s.sent.length (s.appended.length - s.sent.length)).map
      entryOf = s.appended.drop s.sent.length :=
  Ring.positions_eq_drop hI.sent_le fun k hk hsk => hI.slots k hk (by have := hI.room; omega)

/-- Filling in an `ip` changes no driver field and no index. -/
theorem Inv.fillSlot {s : Sys} (hI : Inv nameToIp s) (idx : Nat) (pc : Pc)
    (hpc : AtPc nameToIp { s with shm := s.shm.fillSlot nameToIp idx, pc := pc }) :
    Inv nameToIp { s with shm := s.shm.fillSlot nameToIp idx, pc := pc } where
  head := hI.head
  slots k hk hlap := by
    rw [← hI.slots k hk hlap]
    show entryOf (Function.update s.shm.amount idx _ (k % flowNum)) = _
    by_cases hidx : k % flowNum = idx
    · rw [hidx, Function.update_self]
      rfl
    · rw [Function.update_of_ne hidx]
  prefix_eq := hI.prefix_eq
  addressed := hI.addressed
  room := hI.room
  running := hI.running
  at_pc := hpc

theorem filledOn_refl (m : Shm) (lo : Nat) : FilledOn nameToIp m lo lo :=
  fun _ hlo hj => absurd hlo (Nat.not_le_of_lt hj)

theorem filledOn_fillSlot {m : Shm} {lo idx : Nat} (h : FilledOn nameToIp m lo idx) :
    FilledOn nameToIp (m.fillSlot nameToIp idx) lo (idx + 1) := by
  intro j hlo hj
  show Addressed nameToIp (Function.update m.amount idx _ j)
  by_cases hji : j = idx
  · rw [hji, Function.update_self]
    rfl
  · rw [Function.update_of_ne hji]
    exact h j hlo (by omega)

theorem filledOn_append {m : Shm} {lo hi : Nat} (e : Entry) (h : FilledOn nameToIp m lo hi)
    (hout : hi ≤ m.h ∨ m.h < lo) : FilledOn nameToIp (m.append e) lo hi := by
  intro j hlo hj
  show Addressed nameToIp (Function.update m.amount m.h _ j)
  rw [Function.update_of_ne (by omega)]
  exact h j hlo hj

/-- A step that moves only the program counter. -/
theorem Inv.move {s : Sys} (hI : Inv nameToIp s) (pc : Pc)
    (hpc : AtPc nameToIp { s with pc := pc }) : Inv nameToIp { s with pc := pc } :=
  ⟨hI.head, hI.slots, hI.prefix_eq, hI.addressed, hI.room, hI.running, hpc⟩

theorem sockWrite_of_le (s : Sys) {lo hi : Nat} (h : lo ≤ hi) (next : Pc) :
    s.sockWrite lo hi next = { s with
      sent := s.sent ++ Ring.segment s.shm.amount lo hi
      ret := ((hi - lo) * sizeofAmount : Nat)
      pc := next } :=
  if_pos h

/-- The system after a `sock_write` of `m` further positions, all of them addressed. -/
theorem Inv.send {s : Sys} (hI : Inv nameToIp s) {batch : List Amount} {m : Nat}
    (hbatch : batch = Ring.positions flowNum s.shm.amount s.sent.length m)
    (hm : m ≤ s.appended.length - s.sent.length) (hpos : 0 < m)
    (haddr : ∀ a ∈ batch, Addressed nameToIp a) (pc : Pc)
    (hpc : AtPc nameToIp { s with sent := s.sent ++ batch, ret := (m * sizeofAmount : Nat), pc := pc }) :
    Inv nameToIp { s with sent := s.sent ++ batch, ret := (m * sizeofAmount : Nat), pc := pc } := by
  have hlen : batch.length = m := by rw [hbatch, Ring.positions_length]
  have hentries : batch.map entryOf = (s.appended.drop s.sent.length).take m := by
    have hsplit := Ring.positions_add flowNum s.shm.amount s.sent.length m
      (s.appended.length - s.sent.length - m)
    rw [show m + (s.appended.length - s.sent.length - m)
      = s.appended.length - s.sent.length by omega] at hsplit
    rw [← hI.positions_eq, hsplit, List.map_append, ← hbatch]
    rw [List.take_left' (by rw [List.length_map, hlen])]
  refine ⟨hI.head, hI.slots, ?_, ?_, ?_, ?_, hpc⟩
  · show (s.sent ++ batch).map entryOf = s.appended.take (s.sent ++ batch).length
    rw [List.map_append, hI.prefix_eq, hentries, List.length_append, hlen, List.take_add]
  · intro a ha
    rcases List.mem_append.mp ha with ha | ha
    · exact hI.addressed a ha
    · exact haddr a ha
  · show s.appended.length < (s.sent ++ batch).length + flowNum
    have := hI.room
    rw [List.length_append]
    omega
  · show ((m * sizeofAmount : Nat) : Int) ≠ 0
    have : 0 < m * sizeofAmount := Nat.mul_pos hpos (by decide)
    omega

theorem addressed_segment {m : Shm} {lo hi : Nat} (h : FilledOn nameToIp m lo hi) :
    ∀ a ∈ Ring.segment m.amount lo hi, Addressed nameToIp a := by
  intro a ha
  obtain ⟨j, hj, rfl⟩ := List.mem_map.mp ha
  rw [List.mem_range'_1] at hj
  exact h j hj.1 (by omega)

/-! ## §3 — one step -/

/-- Behind the tail there is something to send unless the head is there too. -/
theorem Inv.sent_lt {s : Sys} (hI : Inv nameToIp s) (h : s.shm.h ≠ s.sent.length % flowNum) :
    s.sent.length < s.appended.length :=
  lt_of_le_of_ne hI.sent_le fun heq => h (by rw [hI.head, heq])

/-- `sock_write` of the slots from the tail to the head sends everything appended. -/
theorem Inv.write {s : Sys} (hI : Inv nameToIp s) (ht : s.shm.t = s.sent.length % flowNum)
    (hlt : s.sent.length < s.appended.length) (hle : s.shm.t ≤ s.shm.h)
    (hfilled : FilledOn nameToIp s.shm s.shm.t s.shm.h) :
    Inv nameToIp (s.sockWrite s.shm.t s.shm.h .advance) := by
  rw [sockWrite_of_le s hle]
  have hmod : s.sent.length % flowNum ≤ s.appended.length % flowNum := by
    rw [← ht, ← hI.head]
    exact hle
  have hsub := Ring.sub_eq_of_le hI.sent_le hI.room hmod
  rw [← ht, ← hI.head] at hsub
  have hseg : Ring.segment s.shm.amount s.shm.t s.shm.h
      = Ring.positions flowNum s.shm.amount s.sent.length (s.shm.h - s.shm.t) := by
    have hh : s.shm.h < flowNum := by rw [hI.head]; exact Nat.mod_lt _ (by decide)
    rw [Ring.positions_eq_segment _ (by rw [← ht]; omega), ← ht, Nat.add_sub_cancel' hle]
  refine hI.send hseg (by omega) (by omega) (addressed_segment hfilled) _ ?_
  show (s.sent ++ Ring.segment s.shm.amount s.shm.t s.shm.h).length = s.appended.length
  rw [List.length_append, hseg, Ring.positions_length]
  omega

/-- `sock_write` of the slots from the tail to the end of the array completes a lap. -/
theorem Inv.writeEnd {s : Sys} (hI : Inv nameToIp s) (ht : s.shm.t = s.sent.length % flowNum)
    (hlt : s.shm.h < s.shm.t) (hfilled : FilledOn nameToIp s.shm s.shm.t flowNum) :
    Inv nameToIp (s.sockWrite s.shm.t flowNum .wrap) := by
  have htN : s.shm.t < flowNum := by rw [ht]; exact Nat.mod_lt _ (by decide)
  rw [sockWrite_of_le s htN.le]
  have hmod : s.appended.length % flowNum < s.sent.length % flowNum := by
    rw [← ht, ← hI.head]
    exact hlt
  have hsub := Ring.sub_eq_of_lt hI.sent_le hI.room hmod
  rw [← ht] at hsub
  have hseg : Ring.segment s.shm.amount s.shm.t flowNum
      = Ring.positions flowNum s.shm.amount s.sent.length (flowNum - s.shm.t) := by
    rw [Ring.positions_eq_segment _ (by rw [← ht]; omega), ← ht, Nat.add_sub_cancel' htN.le]
  refine hI.send hseg (by omega) (by omega) (addressed_segment hfilled) _ ?_
  show (s.sent ++ Ring.segment s.shm.amount s.shm.t flowNum).length % flowNum = 0
  rw [List.length_append, hseg, Ring.positions_length, ht]
  exact Ring.lap_end (by decide) _

theorem inv_clientStep {s s' : Sys} (hI : Inv nameToIp s)
    (h : s.clientStep nameToIp = some s') : Inv nameToIp s' := by
  have hpc := hI.at_pc
  unfold Sys.clientStep at h
  unfold AtPc at hpc
  cases hcase : s.pc with
  | top =>
    simp only [hcase, if_neg hI.running] at h hpc
    split at h
    · rename_i hlt
      obtain rfl := Option.some.inj h
      -- the head is ahead of the tail, so something is pending
      have hsent := hI.sent_lt (by omega)
      exact hI.move _ ⟨hpc, hsent, le_rfl, hlt.le, filledOn_refl _ _⟩
    · obtain rfl := Option.some.inj h
      exact hI.move _ hpc
  | elseIf =>
    simp only [hcase] at h hpc
    split at h
    · rename_i hlt
      obtain rfl := Option.some.inj h
      have ht : s.shm.t < flowNum := by rw [hpc]; exact Nat.mod_lt _ (by decide)
      exact hI.move _ ⟨hpc, hlt, le_rfl, ht.le, filledOn_refl _ _⟩
    · obtain rfl := Option.some.inj h
      exact hI.move _ hpc
  | fill idx =>
    simp only [hcase] at h hpc
    obtain ⟨ht, hlt, hidx, hidxh, hfilled⟩ := hpc
    split at h
    · rename_i hih
      obtain rfl := Option.some.inj h
      exact hI.fillSlot idx _ ⟨ht, hlt, Nat.le_succ_of_le hidx, hih, filledOn_fillSlot hfilled⟩
    · obtain rfl := Option.some.inj h
      -- the loop has run up to the head
      obtain rfl : idx = s.shm.h := by omega
      exact hI.move _ ⟨ht, hlt, hidx, hfilled⟩
  | write =>
    simp only [hcase] at h hpc
    obtain ⟨ht, hlt, hle, hfilled⟩ := hpc
    obtain rfl := Option.some.inj h
    exact hI.write ht hlt hle hfilled
  | advance =>
    simp only [hcase] at h hpc
    obtain rfl := Option.some.inj h
    exact ⟨hI.head, hI.slots, hI.prefix_eq, hI.addressed, hI.room, hI.running,
      show s.shm.h = s.sent.length % flowNum by rw [hI.head, hpc]⟩
  | fillEnd idx =>
    simp only [hcase] at h hpc
    obtain ⟨ht, hlt, hidx, hidxN, hfilled⟩ := hpc
    split at h
    · rename_i hih
      obtain rfl := Option.some.inj h
      exact hI.fillSlot idx _ ⟨ht, hlt, Nat.le_succ_of_le hidx, hih, filledOn_fillSlot hfilled⟩
    · obtain rfl := Option.some.inj h
      have : idx = flowNum := by omega
      exact hI.move _ ⟨ht, hlt, this ▸ hfilled⟩
  | writeEnd =>
    simp only [hcase] at h hpc
    obtain ⟨ht, hlt, hfilled⟩ := hpc
    obtain rfl := Option.some.inj h
    exact hI.writeEnd ht hlt hfilled
  | wrap =>
    simp only [hcase] at h hpc
    obtain rfl := Option.some.inj h
    exact ⟨hI.head, hI.slots, hI.prefix_eq, hI.addressed, hI.room, hI.running, ⟨rfl, hpc⟩⟩
  | again =>
    simp only [hcase] at h hpc
    obtain ⟨ht, hmod⟩ := hpc
    split at h
    · rename_i hlt
      obtain rfl := Option.some.inj h
      have hsent := hI.sent_lt (by omega)
      exact hI.move _ ⟨by rw [ht, hmod], hsent, le_rfl, hlt.le, filledOn_refl _ _⟩
    · obtain rfl := Option.some.inj h
      exact hI.move _ (by show s.shm.t = _; rw [ht, hmod])
  | exited =>
    simp only [hcase] at h
    exact absurd h (by simp)

/-- An append never brings the head onto the tail. -/
theorem Inv.head_append_ne {s : Sys} (hI : Inv nameToIp s) {e : Entry} (hroom : s.Room (.produce e)) :
    (s.shm.h + 1) % flowNum ≠ s.sent.length % flowNum := by
  rw [hI.head, Nat.mod_add_mod]
  exact (Ring.slot_ne (Nat.lt_succ_of_le hI.sent_le) hroom).symm

/-- The program counters at which an append may fall stay as they are: the head moves on, or outside
the filling loops up to it back to slot 0, but not onto the tail. -/
theorem atPc_append {s : Sys} (hI : Inv nameToIp s) {e : Entry} (hroom : s.Room (.produce e))
    (hquiet : s.Quiet (.produce e)) :
    AtPc nameToIp { s with shm := s.shm.append e, appended := s.appended ++ [e] } := by
  have hne := hI.head_append_ne hroom
  have hh : s.shm.h < flowNum := by rw [hI.head]; exact Nat.mod_lt _ (by decide)
  have hnext : (s.shm.h + 1) % flowNum = s.shm.h + 1 ∨
      s.shm.h + 1 = flowNum ∧ (s.shm.h + 1) % flowNum = 0 := by
    rcases Nat.lt_or_ge (s.shm.h + 1) flowNum with hlt | hge
    · exact Or.inl (Nat.mod_eq_of_lt hlt)
    · have : s.shm.h + 1 = flowNum := by omega
      exact Or.inr ⟨this, by rw [this, Nat.mod_self]⟩
  have hpc := hI.at_pc
  unfold AtPc at hpc ⊢
  cases hcase : s.pc with
  | top =>
    simp only [hcase] at hpc ⊢
    exact hpc
  | elseIf =>
    simp only [hcase] at hpc ⊢
    exact hpc
  | fill idx =>
    simp only [hcase] at hpc ⊢
    obtain ⟨ht, hlt, hidx, hidxh, hfilled⟩ := hpc
    have hnowrap : s.shm.h + 1 < flowNum := hquiet.2.2 (by rw [hcase]; rfl)
    refine ⟨ht, ?_, hidx, ?_, filledOn_append e hfilled (Or.inl hidxh)⟩
    · rw [List.length_append, List.length_singleton]
      omega
    · show idx ≤ (s.shm.h + 1) % flowNum
      omega
  | write => exact absurd hcase hquiet.1
  | advance => exact absurd hcase hquiet.2.1
  | fillEnd idx =>
    simp only [hcase] at hpc ⊢
    obtain ⟨ht, hlt, hidx, hidxN, hfilled⟩ := hpc
    rw [← ht] at hne
    refine ⟨ht, ?_, hidx, hidxN, filledOn_append e hfilled (Or.inr hlt)⟩
    show (s.shm.h + 1) % flowNum < s.shm.t
    omega
  | writeEnd =>
    simp only [hcase] at hpc ⊢
    obtain ⟨ht, hlt, hfilled⟩ := hpc
    rw [← ht] at hne
    refine ⟨ht, ?_, filledOn_append e hfilled (Or.inr hlt)⟩
    show (s.shm.h + 1) % flowNum < s.shm.t
    omega
  | wrap => simpa only [hcase] using hpc
  | again =>
    simp only [hcase] at hpc ⊢
    exact hpc
  | exited => trivial

theorem inv_produce {s : Sys} (hI : Inv nameToIp s) {e : Entry} (hroom : s.Room (.produce e))
    (hquiet : s.Quiet (.produce e)) :
    Inv nameToIp { s with shm := s.shm.append e, appended := s.appended ++ [e] } := by
  refine ⟨?_, ?_, ?_, hI.addressed, ?_, hI.running, ?_⟩
  · show (s.shm.h + 1) % flowNum = (s.appended ++ [e]).length % flowNum
    rw [hI.head, Nat.mod_add_mod, List.length_append, List.length_singleton]
  · intro k hk hlap
    show entryOf (Function.update s.shm.amount s.shm.h _ (k % flowNum)) = (s.appended ++ [e])[k]
    simp only [List.length_append, List.length_singleton] at hk hlap
    rcases Nat.lt_succ_iff_lt_or_eq.mp hk with hlt | rfl
    · have hslot := Ring.slot_ne hlt (show s.appended.length < k + flowNum by omega)
      rw [← hI.head] at hslot
      rw [Function.update_of_ne hslot, List.getElem_append_left hlt]
      exact hI.slots k hlt (by omega)
    · rw [← hI.head, Function.update_self, entryOf_putEntry, List.getElem_concat_length rfl]
  · show s.sent.map entryOf = (s.appended ++ [e]).take s.sent.length
    rw [List.take_append_of_le_length hI.sent_le]
    exact hI.prefix_eq
  · show (s.appended ++ [e]).length < s.sent.length + flowNum
    rw [List.length_append, List.length_singleton]
    exact hroom
  · exact atPc_append hI hroom hquiet

theorem inv_step (s : Sys) (l : Label) (s' : Sys) (hI : Inv nameToIp s)
    (hok : s.Room l ∧ s.Quiet l) (h : s.step nameToIp l = some s') : Inv nameToIp s' := by
  cases l with
  | produce e =>
    obtain rfl := Option.some.inj h
    exact inv_produce hI hok.1 hok.2
  | client => exact inv_clientStep hI h

/-! ## §4 — every run -/

theorem Inv.exactlyOnce {s : Sys} (hI : Inv nameToIp s) (htop : s.pc = .top) :
    s.ExactlyOnce nameToIp := by
  have ht : s.shm.t = s.sent.length % flowNum := by
    have := hI.at_pc
    unfold AtPc at this
    simpa only [htop] using this
  refine ⟨?_, hI.addressed⟩
  rw [ht, hI.head, Ring.window_eq _ hI.sent_le hI.room, List.map_append, hI.prefix_eq,
    hI.positions_eq, List.take_append_drop]

end Invariant

/-- **Exactly once.** For every interleaving of appends and client steps that keeps fewer than
`flow_NUM` records unsent, never appends between the last test of a filling loop and
`shm->t = shm->h`, and never carries the head around to slot 0 during a filling loop up to `shm->h`:
whenever the client is at the top of its loop, the records sent followed by the ring's window are the
records appended, and every sent record carries the ip of its device. -/
theorem drain_exactly_once (nameToIp : String → String) (ls : List Label) (s : Sys)
    (hok : Run.Along (Sys.step nameToIp) (fun s l => s.Room l ∧ s.Quiet l) Sys.init ls)
    (hrun : ls.foldlM (Sys.step nameToIp) Sys.init = some s) (htop : s.pc = .top) :
    s.ExactlyOnce nameToIp :=
  (Run.invariant inv_step ls inv_init hok hrun).exactlyOnce htop

/-- One device, and two records of it. -/
def oneDevice (name : String) : String := if name = "mlx5_0" then "172.16.1.1" else ""

def firstEntry : Entry := ⟨strncpy 16 "172.16.5.1", strncpy 64 "mlx5_0", 5000, 66, 1000⟩

def secondEntry : Entry := { firstEntry with tm := 2000 }

/-- A record appended and drained. -/
def drainOne : List Label := .produce firstEntry :: List.replicate 5 .client

theorem drain_exactly_once_drainOne :
    ∃ s, drainOne.foldlM (Sys.step oneDevice) Sys.init = some s ∧ s.sent.length = 1 ∧
      s.ExactlyOnce oneDevice := by
  have hok : Run.Along (Sys.step oneDevice) (fun s l => s.Room l ∧ s.Quiet l) Sys.init drainOne := by
    decide +kernel
  obtain ⟨s, hrun, hs⟩ := Option.map_eq_some_iff.mp
    (show (drainOne.foldlM (Sys.step oneDevice) Sys.init).map (fun s => (s.pc, s.sent.length))
      = some (.top, 1) by decide +kernel)
  obtain ⟨htop, hlen⟩ := Prod.mk.inj hs
  exact ⟨s, hrun, hlen, drain_exactly_once oneDevice drainOne s hok hrun htop⟩

/-- A second record appended between `sock_write` and `shm->t = shm->h`. -/
def lateAppend : List Label :=
  .produce firstEntry :: (List.replicate 4 .client ++ [.produce secondEntry, .client])

/-- The late record is neither sent nor left in the window: the tail has stepped over it. -/
theorem not_exactlyOnce_lateAppend :
    Run.Along (Sys.step oneDevice) Sys.Room Sys.init lateAppend ∧
      ∃ s, lateAppend.foldlM (Sys.step oneDevice) Sys.init = some s ∧ s.pc = .top ∧
        ¬ s.ExactlyOnce oneDevice := by
  refine ⟨by decide +kernel, ?_⟩
  obtain ⟨s, hrun, hs⟩ := Option.map_eq_some_iff.mp
    (show (lateAppend.foldlM (Sys.step oneDevice) Sys.init).map (fun s => (s.pc, s.appended.length,
        (s.sent ++ Ring.window flowNum s.shm.amount s.shm.t s.shm.h).length))
      = some (.top, 2, 1) by decide +kernel)
  obtain ⟨htop, hrest⟩ := Prod.mk.inj hs
  obtain ⟨happended, hkept⟩ := Prod.mk.inj hrest
  refine ⟨s, hrun, htop, fun honce => ?_⟩
  have hlen := congrArg List.length honce.1
  rw [List.length_map, happended, hkept] at hlen
  exact absurd hlen (by decide)

/-- **An append that wraps loses the ring.** From every state with the client at the top of its loop,
records waiting for it up to the last slot but not from slot 0 on: one append after the client's first
test, and the client sends nothing, gets -1 from `sock_write`, steps over all of them and goes on at the
top of its loop with an empty window. -/
theorem wrapAppend_loses (nameToIp : String → String) (s : Sys) (e : Entry) (htop : s.pc = .top)
    (hret : s.ret ≠ 0) (ht : 0 < s.shm.t) (hwaiting : s.shm.t < s.shm.h)
    (hlast : s.shm.h + 1 = flowNum) :
    ∃ s', [.client, .produce e, .client, .client, .client].foldlM (Sys.step nameToIp) s = some s' ∧
      s'.pc = .top ∧ s'.ret = -1 ∧ s'.sent = s.sent ∧ s'.appended = s.appended ++ [e] ∧
      Ring.window flowNum s'.shm.amount s'.shm.t s'.shm.h = [] := by
  refine ⟨{ s with
    shm := { s.shm.append e with t := 0, h := 0 }, pc := .top, ret := -1,
    appended := s.appended ++ [e] }, ?_, rfl, rfl, rfl, rfl, by simp [Ring.window, Ring.segment]⟩
  have hhead : (s.shm.h + 1) % flowNum = 0 := by rw [hlast, Nat.mod_self]
  have hbehind : ¬ s.shm.t ≤ 0 := by omega
  simp [List.foldlM, Sys.step, Sys.clientStep, Sys.sockWrite, Shm.append, htop, hret, hwaiting, hhead,
    hbehind]

/-- One record waits in the last slot but one. -/
def lastWaiting : Sys := { Sys.init with shm := { allocSharedMemory with t := 9998, h := 9999 } }

theorem wrapAppend_loses_lastWaiting :
    (Ring.window flowNum lastWaiting.shm.amount lastWaiting.shm.t lastWaiting.shm.h).length = 1 ∧
      ∃ s', [.client, .produce firstEntry, .client, .client, .client].foldlM (Sys.step oneDevice)
          lastWaiting = some s' ∧ s'.pc = .top ∧ s'.sent = [] ∧
        Ring.window flowNum s'.shm.amount s'.shm.t s'.shm.h = [] := by
  obtain ⟨s', hrun, htop, -, hsent, -, hwindow⟩ :=
    wrapAppend_loses oneDevice lastWaiting firstEntry rfl (by decide) (by decide) (by decide) rfl
  exact ⟨by decide, s', hrun, htop, hsent, hwindow⟩

end SDNware.Host
