/-
# SDNware.Host.Overrun — what a pass sends when the ring may have been overrun.

Appends do not look at the tail.  After `k` appends since tail and head last met, the head stands
`k mod flow_NUM` slots after the tail, a full ring looks empty, and a slot holds the last of the
records written to it.  `pass_sends_last` says what remains of the `k` records for a pass made then:
exactly the last `k mod flow_NUM`, whatever the position of the window and however many laps the
head has made.

A pass is the loop body without interruption.  `pass_steps` connects it to the small-step machine
of `Client`: the client's own steps, with no append between them, do what `Drain.pass` does.
-/
import Mathlib.Logic.Relation
import SDNware.Host.Pass

namespace SDNware.Host

open SDNware.Wire

/-! ## §1 — appends and passes -/

/-- An append, or a whole pass with the results of its `write()` calls. -/
inductive Event
  | append (e : Entry)
  | pass (rs rs' : List WriteResult)

section Runs

variable (nameToIp : String → String)

/-- One event. -/
def Drain.step (d : Drain) : Event → Option Drain
  | .append e => some { d with shm := d.shm.append e }
  | .pass rs rs' => d.pass nameToIp rs rs'

/-- Every `sock_write` of the event succeeds. -/
def Drain.Succeeds (d : Drain) : Event → Prop
  | .append _ => True
  | .pass rs rs' => ∀ c ∈ d.passCalls nameToIp rs rs', c.Done

instance (d : Drain) : ∀ e, Decidable (d.Succeeds nameToIp e)
  | .append _ => isTrue trivial
  | .pass rs rs' => inferInstanceAs (Decidable (∀ c ∈ d.passCalls nameToIp rs rs', c.Done))

end Runs

/-- The records appended since the last pass, after one more event. -/
def pendingStep (pend : List Entry) : Event → List Entry
  | .append e => pend ++ [e]
  | .pass _ _ => []

/-- The records appended since the last pass. -/
def pending (es : List Event) : List Entry := es.foldl pendingStep []

/-- What holds between two events: the head is as far from the tail as the pending records take it,
and each slot has the last pending record that was written to it. -/
structure Holds (d : Drain) (pend : List Entry) : Prop where
  running : d.ret ≠ 0
  tail : d.shm.t < flowNum
  head : d.shm.h = (d.shm.t + pend.length) % flowNum
  slots : ∀ i (hi : i < pend.length), pend.length ≤ i + flowNum →
    entryOf (d.shm.amount ((d.shm.t + i) % flowNum)) = pend.get ⟨i, hi⟩

section Invariant

variable {nameToIp : String → String} {d : Drain} {pend : List Entry}

theorem Holds.append (h : Holds d pend) (e : Entry) :
    Holds { d with shm := d.shm.append e } (pend ++ [e]) := by
  refine ⟨h.running, h.tail, ?_, ?_⟩
  · show (d.shm.h + 1) % flowNum = (d.shm.t + (pend ++ [e]).length) % flowNum
    rw [h.head, Nat.mod_add_mod, List.length_append, List.length_singleton, Nat.add_assoc]
  · intro i hi hlap
    show entryOf (Function.update d.shm.amount d.shm.h _ ((d.shm.t + i) % flowNum)) = (pend ++ [e])[i]
    simp only [List.length_append, List.length_singleton] at hi hlap
    rcases Nat.lt_succ_iff_lt_or_eq.mp hi with hlt | rfl
    · -- an older record of the last lap is in another slot
      have hslot := Ring.slot_ne (N := flowNum) (Nat.add_lt_add_left hlt d.shm.t) (by omega)
      rw [← h.head] at hslot
      rw [Function.update_of_ne hslot, List.getElem_append_left hlt]
      exact h.slots i hlt (by omega)
    · rw [← h.head, Function.update_self, entryOf_putEntry, List.getElem_concat_length rfl]

/-- The window is the last `k mod flow_NUM` of the `k` pending records. -/
theorem Holds.window_eq (h : Holds d pend) :
    (Ring.window flowNum d.shm.amount d.shm.t d.shm.h).map entryOf
      = pend.drop (pend.length - pend.length % flowNum) := by
  have hlap : pend.length % flowNum < flowNum := Nat.mod_lt _ (by decide)
  have hpositions : (Ring.positions flowNum d.shm.amount
      (d.shm.t + (pend.length - pend.length % flowNum))
      (pend.length - (pend.length - pend.length % flowNum))).map entryOf
        = pend.drop (pend.length - pend.length % flowNum) := by
    refine Ring.positions_eq_drop_of_shift (Nat.sub_le _ _) fun i hi => ?_
    rw [Nat.add_assoc]
    exact h.slots _ hi (by omega)
  rw [Nat.sub_sub_self (Nat.mod_le _ _)] at hpositions
  rw [h.head, Ring.window_eq_mod _ h.tail]
  exact hpositions

/-- A pass whose calls succeed. -/
theorem Holds.pass (h : Holds d pend) {rs rs' : List WriteResult}
    (hdone : ∀ c ∈ d.passCalls nameToIp rs rs', c.Done) :
    ∃ d', d.pass nameToIp rs rs' = some d' ∧ Passed d d' (d.passCalls nameToIp rs rs') ∧
      Holds d' [] := by
  obtain ⟨d', hpass, hpassed⟩ := pass_spec d h.running fun c hc => ⟨_, hdone c hc⟩
  have hhead : d.shm.h < flowNum := by
    rw [h.head]
    exact Nat.mod_lt _ (by decide)
  refine ⟨d', hpass, hpassed, ?_, ?_, ?_, fun i hi => absurd hi (by simp)⟩
  · rcases hpassed.ret with ⟨-, hret⟩ | ⟨c, hc, hret⟩
    · rw [hret]
      exact h.running
    · -- a call that succeeds returns the bytes of at least one record
      have hdone' : Returned c (wire c.records).length := hdone c hc
      rw [Option.some.inj (hret.symm.trans hdone'), wire_length]
      have hpos := List.length_pos_iff.mpr (records_ne_nil_of_mem_passCalls h.tail hc)
      have : 0 < sizeofAmount * c.records.length := Nat.mul_pos (by decide) hpos
      omega
  · rw [hpassed.tail]
    exact hhead
  · rw [hpassed.tail, hpassed.head, List.length_nil, Nat.add_zero, Nat.mod_eq_of_lt hhead]

/-- A run whose calls succeed does not stop, and keeps what holds. -/
theorem Holds.run {es : List Event} (h : Holds d pend)
    (hok : Run.Along (Drain.step nameToIp) (Drain.Succeeds nameToIp) d es) :
    ∃ d', es.foldlM (Drain.step nameToIp) d = some d' ∧ Holds d' (es.foldl pendingStep pend) := by
  induction es generalizing d pend with
  | nil => exact ⟨d, rfl, h⟩
  | cons e es ih =>
    obtain ⟨hsucc, hrest⟩ := hok
    obtain ⟨mid, hmid, hholds⟩ : ∃ mid, d.step nameToIp e = some mid ∧
        Holds mid (pendingStep pend e) := by
      cases e with
      | append x => exact ⟨_, rfl, h.append x⟩
      | pass rs rs' =>
        obtain ⟨mid, hpass, -, hmid⟩ := h.pass hsucc
        exact ⟨mid, hpass, hmid⟩
    obtain ⟨d', hrun, hd'⟩ := ih hholds (hrest mid hmid)
    refine ⟨d', ?_, hd'⟩
    rw [List.foldlM_cons, hmid]
    exact hrun

end Invariant

/-- **What a pass sends.** For every sequence of appends and whole passes from an empty ring, with
`sock_write` succeeding: the indices stay within the ring, and a pass made after `k` appends since
the previous one returns, leaves the tail at the head, and puts on the connection exactly the last
`k mod flow_NUM` of those `k` records, in order and each once, with the ip of their device. -/
theorem pass_sends_last (nameToIp : String → String) (m : Shm) (ht : m.t = 0) (hh : m.h = 0)
    (es : List Event)
    (hok : Run.Along (Drain.step nameToIp) (Drain.Succeeds nameToIp) ⟨m, 1, []⟩ es) :
    ∃ d, es.foldlM (Drain.step nameToIp) ⟨m, 1, []⟩ = some d ∧
      d.shm.t < flowNum ∧ d.shm.h < flowNum ∧
      ∀ rs rs', d.Succeeds nameToIp (.pass rs rs') →
        ∃ d' calls, d.pass nameToIp rs rs' = some d' ∧ d'.shm.t = d'.shm.h ∧
          d'.calls = d.calls ++ calls ∧ sentStream calls = wire (sentRecords calls) ∧
          (sentRecords calls).map entryOf
            = (pending es).drop ((pending es).length - (pending es).length % flowNum) ∧
          ∀ a ∈ sentRecords calls, Addressed nameToIp a := by
  have hstart : Holds ⟨m, 1, []⟩ [] := by
    refine ⟨one_ne_zero, ?_, ?_, fun i hi => absurd hi (by simp)⟩
    · rw [ht]
      decide
    · rw [ht, hh]
      rfl
  obtain ⟨d, hrun, hholds⟩ := hstart.run hok
  refine ⟨d, hrun, hholds.tail, ?_, fun rs rs' hdone => ?_⟩
  · rw [hholds.head]
    exact Nat.mod_lt _ (by decide)
  · obtain ⟨d', hpass, hpassed, -⟩ := hholds.pass hdone
    refine ⟨d', d.passCalls nameToIp rs rs', hpass, ?_, hpassed.calls_eq, sentStream_eq_wire hdone,
      ?_, ?_⟩
    · rw [hpassed.tail, hpassed.head]
    · rw [sentRecords_passCalls, List.map_map]
      exact hholds.window_eq
    · intro a ha
      rw [sentRecords_passCalls] at ha
      obtain ⟨b, -, rfl⟩ := List.mem_map.mp ha
      rfl

/-- One record appended to a fresh ring, and sent in two pieces. -/
theorem pass_sends_last_oneRecord :
    ∃ d' calls, oneRecord.pass oneDevice [.wrote 100, .wrote 36] [] = some d' ∧
      d'.calls = oneRecord.calls ++ calls ∧ (sentRecords calls).map entryOf = [firstEntry] := by
  obtain ⟨d, hrun, -, -, hpass⟩ := pass_sends_last oneDevice allocSharedMemory rfl rfl
    [.append firstEntry] (by decide +kernel)
  obtain rfl : oneRecord = d := Option.some.inj hrun
  obtain ⟨d', calls, hd', -, hcalls, -, hrecords, -⟩ := hpass [.wrote 100, .wrote 36] []
    (by decide +kernel)
  exact ⟨d', calls, hd', hcalls, hrecords⟩

/-! ## §2 — the passes of the small-step machine -/

section Steps

variable {nameToIp : String → String}

/-- The client runs, with no append in between. -/
def ClientSteps (nameToIp : String → String) : Sys → Sys → Prop :=
  Relation.ReflTransGen fun s s' => s.clientStep nameToIp = some s'

theorem fillSlots_of_lt (m : Shm) {lo hi : Nat} (h : lo < hi) :
    m.fillSlots nameToIp lo hi = (m.fillSlot nameToIp lo).fillSlots nameToIp (lo + 1) hi := by
  unfold Shm.fillSlots
  rw [show hi - lo = (hi - (lo + 1)) + 1 by omega, List.range'_succ, List.foldl_cons]

theorem fillSlots_self (m : Shm) (lo : Nat) : m.fillSlots nameToIp lo lo = m := by
  unfold Shm.fillSlots
  rw [Nat.sub_self]
  rfl

/-- The filling loop up to the head. -/
theorem fill_steps {s : Sys} {idx : Nat} (hpc : s.pc = .fill idx) (hle : idx ≤ s.shm.h) :
    ClientSteps nameToIp s
      { s with shm := s.shm.fillSlots nameToIp idx s.shm.h, pc := .write } := by
  -- induction on the number of slots left
  obtain ⟨n, hn⟩ : ∃ n, s.shm.h = idx + n := ⟨s.shm.h - idx, by omega⟩
  induction n generalizing s idx with
  | zero =>
    have hend : s.clientStep nameToIp = some { s with pc := .write } := by
      unfold Sys.clientStep
      simp only [hpc, if_neg (show ¬ idx < s.shm.h by omega)]
    rw [hn, Nat.add_zero, fillSlots_self]
    exact .single hend
  | succ n ih =>
    have hnext : s.clientStep nameToIp
        = some { s with shm := s.shm.fillSlot nameToIp idx, pc := .fill (idx + 1) } := by
      unfold Sys.clientStep
      simp only [hpc, if_pos (show idx < s.shm.h by omega)]
    have hrest := ih (s := { s with shm := s.shm.fillSlot nameToIp idx, pc := .fill (idx + 1) }) rfl
      (show idx + 1 ≤ s.shm.h by omega) (show s.shm.h = idx + 1 + n by omega)
    rw [fillSlots_of_lt s.shm (show idx < s.shm.h by omega)]
    exact .head hnext hrest

/-- The filling loop up to the end of the array. -/
theorem fillEnd_steps {s : Sys} {idx : Nat} (hpc : s.pc = .fillEnd idx) (hle : idx ≤ flowNum) :
    ClientSteps nameToIp s
      { s with shm := s.shm.fillSlots nameToIp idx flowNum, pc := .writeEnd } := by
  obtain ⟨n, hn⟩ : ∃ n, flowNum = idx + n := ⟨flowNum - idx, by omega⟩
  induction n generalizing s idx with
  | zero =>
    have hend : s.clientStep nameToIp = some { s with pc := .writeEnd } := by
      unfold Sys.clientStep
      simp only [hpc, if_neg (show ¬ idx < flowNum by omega)]
    rw [hn, Nat.add_zero, fillSlots_self]
    exact .single hend
  | succ n ih =>
    have hnext : s.clientStep nameToIp
        = some { s with shm := s.shm.fillSlot nameToIp idx, pc := .fillEnd (idx + 1) } := by
      unfold Sys.clientStep
      simp only [hpc, if_pos (show idx < flowNum by omega)]
    have hrest := ih (s := { s with shm := s.shm.fillSlot nameToIp idx, pc := .fillEnd (idx + 1) }) rfl
      (show idx + 1 ≤ flowNum by omega) (by omega)
    rw [fillSlots_of_lt s.shm (show idx < flowNum by omega)]
    exact .head hnext hrest

/-- The machine after `shm->t` has been moved behind the slots `lo, …, hi - 1` that were sent. -/
def Sys.sentUpTo (nameToIp : String → String) (s : Sys) (lo hi next : Nat) (pc : Pc) : Sys where
  shm := { s.shm.fillSlots nameToIp lo hi with t := next }
  pc := pc
  ret := ((hi - lo) * sizeofAmount : Nat)
  appended := s.appended
  sent := s.sent ++ (Ring.segment s.shm.amount lo hi).map (fillIp nameToIp)

/-- From the filling loop to the top: the slots up to the head are sent. -/
theorem send_steps {s : Sys} (hpc : s.pc = .fill s.shm.t) (hle : s.shm.t ≤ s.shm.h) :
    ClientSteps nameToIp s (s.sentUpTo nameToIp s.shm.t s.shm.h s.shm.h .top) := by
  have hwrite : Sys.clientStep nameToIp
      { s with shm := s.shm.fillSlots nameToIp s.shm.t s.shm.h, pc := .write }
        = some { s.sentUpTo nameToIp s.shm.t s.shm.h s.shm.h .advance with
            shm := s.shm.fillSlots nameToIp s.shm.t s.shm.h } := by
    unfold Sys.clientStep Sys.sockWrite Sys.sentUpTo
    simp only [fillSlots_t, fillSlots_h, if_pos hle, segment_fillSlots]
  have hadvance : Sys.clientStep nameToIp
      { s.sentUpTo nameToIp s.shm.t s.shm.h s.shm.h .advance with
        shm := s.shm.fillSlots nameToIp s.shm.t s.shm.h }
        = some (s.sentUpTo nameToIp s.shm.t s.shm.h s.shm.h .top) := by
    unfold Sys.clientStep Sys.sentUpTo
    simp only [fillSlots_h]
  exact (fill_steps hpc hle).trans (.head hwrite (.single hadvance))

/-- From the other filling loop to the inner test: the slots up to the end are sent. -/
theorem sendEnd_steps {s : Sys} (hpc : s.pc = .fillEnd s.shm.t) (hle : s.shm.t ≤ flowNum) :
    ClientSteps nameToIp s (s.sentUpTo nameToIp s.shm.t flowNum 0 .again) := by
  have hwrite : Sys.clientStep nameToIp
      { s with shm := s.shm.fillSlots nameToIp s.shm.t flowNum, pc := .writeEnd }
        = some { s.sentUpTo nameToIp s.shm.t flowNum 0 .wrap with
            shm := s.shm.fillSlots nameToIp s.shm.t flowNum } := by
    unfold Sys.clientStep Sys.sockWrite Sys.sentUpTo
    simp only [fillSlots_t, if_pos hle, segment_fillSlots]
  have hwrap : Sys.clientStep nameToIp
      { s.sentUpTo nameToIp s.shm.t flowNum 0 .wrap with
        shm := s.shm.fillSlots nameToIp s.shm.t flowNum }
        = some (s.sentUpTo nameToIp s.shm.t flowNum 0 .again) := by
    unfold Sys.clientStep Sys.sentUpTo
    simp only
  exact (fillEnd_steps hpc hle).trans (.head hwrite (.single hwrap))

/-- The machine and the loop body agree on the segment, `ret` and what has been sent. -/
structure Matches (s : Sys) (d : Drain) : Prop where
  shm : s.shm = d.shm
  ret : s.ret = d.ret
  sent : s.sent = sentRecords d.calls

/-- A `sock_write` that succeeds is the one the machine has. -/
theorem Matches.send {s : Sys} {d : Drain} (h : Matches s d) {lo hi : Nat} {rs : List WriteResult}
    (next : Nat) (hdone : Send.Done ⟨(Ring.segment d.shm.amount lo hi).map (fillIp nameToIp), rs⟩) (pc : Pc) :
    ∃ d', d.send nameToIp lo hi next rs = some d' ∧
      Matches (s.sentUpTo nameToIp lo hi next pc) d' := by
  refine ⟨_, send_eq d hdone, ?_, ?_, ?_⟩
  · show ({ s.shm.fillSlots nameToIp lo hi with t := next } : Shm) = _
    rw [h.shm]
  · show (((hi - lo) * sizeofAmount : Nat) : Int) = ((wire _).length : Int)
    rw [wire_length, List.length_map, Ring.segment_length, Nat.mul_comm]
  · show s.sent ++ _ = sentRecords (d.calls ++ [_])
    rw [h.sent, h.shm]
    unfold sentRecords
    rw [List.flatMap_append, List.flatMap_singleton]

/-! The three tests of the loop body. -/

theorem clientStep_top (nameToIp : String → String) {s : Sys} (hpc : s.pc = .top) (hret : s.ret ≠ 0) :
    s.clientStep nameToIp
      = some { s with pc := if s.shm.t < s.shm.h then .fill s.shm.t else .elseIf } := by
  unfold Sys.clientStep
  simp only [hpc, if_neg hret]
  split <;> rfl

theorem clientStep_elseIf (nameToIp : String → String) {s : Sys} (hpc : s.pc = .elseIf) :
    s.clientStep nameToIp
      = some { s with pc := if s.shm.h < s.shm.t then .fillEnd s.shm.t else .top } := by
  unfold Sys.clientStep
  simp only [hpc]
  split <;> rfl

theorem clientStep_again (nameToIp : String → String) {s : Sys} (hpc : s.pc = .again) :
    s.clientStep nameToIp
      = some { s with pc := if s.shm.t < s.shm.h then .fill s.shm.t else .top } := by
  unfold Sys.clientStep
  simp only [hpc]
  split <;> rfl

/-- A test has found records between tail and head: they are sent. -/
theorem forward_steps {s : Sys} {d : Drain} (h : Matches s d)
    (henter : s.clientStep nameToIp = some { s with pc := .fill s.shm.t }) (hlt : d.shm.t < d.shm.h)
    {rs : List WriteResult}
    (hdone : Send.Done ⟨(Ring.segment d.shm.amount d.shm.t d.shm.h).map (fillIp nameToIp), rs⟩) :
    ∃ s' d', d.send nameToIp d.shm.t d.shm.h d.shm.h rs = some d' ∧ Matches s' d' ∧ s'.pc = .top ∧
      s'.appended = s.appended ∧ ClientSteps nameToIp s s' := by
  obtain ⟨d', hsend, hmatch⟩ := h.send d.shm.h hdone .top
  refine ⟨_, d', hsend, hmatch, rfl, rfl, .head henter ?_⟩
  rw [← h.shm] at hlt ⊢
  exact send_steps (s := { s with pc := .fill s.shm.t }) rfl hlt.le

/-- From the inner test to the top. -/
theorem again_steps {s : Sys} {d : Drain} (h : Matches s d) (hpc : s.pc = .again) (rs : List WriteResult)
    (hdone : d.shm.t < d.shm.h →
      Send.Done ⟨(Ring.segment d.shm.amount d.shm.t d.shm.h).map (fillIp nameToIp), rs⟩) :
    ∃ s' d', (if d.shm.t < d.shm.h then d.send nameToIp d.shm.t d.shm.h d.shm.h rs else some d) = some d' ∧
      Matches s' d' ∧ s'.pc = .top ∧ s'.appended = s.appended ∧ ClientSteps nameToIp s s' := by
  have htest := clientStep_again nameToIp hpc
  by_cases hlt : d.shm.t < d.shm.h
  · rw [if_pos (by rw [h.shm]; exact hlt)] at htest
    rw [if_pos hlt]
    exact forward_steps h htest hlt (hdone hlt)
  · rw [if_neg (by rw [h.shm]; exact hlt)] at htest
    rw [if_neg hlt]
    exact ⟨{ s with pc := .top }, d, rfl, ⟨h.shm, h.ret, h.sent⟩, rfl, rfl, .single htest⟩

/-- **The loop body is the machine without appends.** From the top of the loop, and with calls that
succeed, the client's own steps lead back to the top, to the state `Drain.pass` computes. -/
theorem pass_steps {s : Sys} {d : Drain} (h : Matches s d) (htop : s.pc = .top) (hret : d.ret ≠ 0)
    (ht : d.shm.t < flowNum) {rs rs' : List WriteResult}
    (hdone : ∀ c ∈ d.passCalls nameToIp rs rs', c.Done) :
    ∃ s' d', d.pass nameToIp rs rs' = some d' ∧ Matches s' d' ∧ s'.pc = .top ∧
      s'.appended = s.appended ∧ ClientSteps nameToIp s s' := by
  have hret' : s.ret ≠ 0 := fun hzero => hret (by rw [← h.ret, hzero])
  have hshm := h.shm
  have hfirst := clientStep_top nameToIp htop hret'
  have hsecond := clientStep_elseIf nameToIp (s := { s with pc := .elseIf }) rfl
  unfold Drain.pass
  unfold Drain.passCalls at hdone
  rw [if_neg hret]
  rcases Nat.lt_trichotomy d.shm.t d.shm.h with hlt | heq | hgt
  · rw [if_pos (by rw [hshm]; exact hlt)] at hfirst
    simp only [if_pos hlt] at hdone ⊢
    exact forward_steps h hfirst hlt (hdone _ List.mem_cons_self)
  · rw [if_neg (by rw [hshm]; exact heq.not_lt)] at hfirst
    rw [if_neg (by rw [hshm]; exact heq.not_gt)] at hsecond
    simp only [if_neg heq.not_lt, if_neg heq.not_gt]
    exact ⟨{ s with pc := .top }, d, rfl, ⟨h.shm, h.ret, h.sent⟩, rfl, rfl,
      .head hfirst (.single hsecond)⟩
  · rw [if_neg (by rw [hshm]; exact hgt.not_gt)] at hfirst
    rw [if_pos (by rw [hshm]; exact hgt)] at hsecond
    simp only [if_neg hgt.not_gt, if_pos hgt] at hdone ⊢
    have hend : ClientSteps nameToIp s (s.sentUpTo nameToIp s.shm.t flowNum 0 .again) :=
      .head hfirst (.head hsecond
        (sendEnd_steps (s := { s with pc := .fillEnd s.shm.t }) rfl (by rw [hshm]; exact ht.le)))
    obtain ⟨mid, hsend, hmid⟩ := h.send 0 (hdone _ List.mem_cons_self) .again
    rw [← hshm] at hmid
    -- the slots before the head are as they were
    have htail : mid.shm.t = 0 := by
      rw [← hmid.shm]
      rfl
    have hhead : mid.shm.h = d.shm.h := by
      rw [← hmid.shm, ← hshm]
      exact fillSlots_h ..
    have hlow : Ring.segment mid.shm.amount 0 d.shm.h = Ring.segment d.shm.amount 0 d.shm.h := by
      rw [← hmid.shm, ← hshm]
      exact segment_fillSlots_before s.shm (by rw [hshm]; exact hgt.le)
    obtain ⟨s', d', hagain, hmatch, hpc, happ, hsteps⟩ := again_steps hmid rfl rs' (by
      rw [htail, hhead, hlow]
      intro hpos
      rw [if_pos hpos] at hdone
      exact hdone _ (List.mem_cons_of_mem _ List.mem_cons_self))
    rw [hsend, Option.bind_some]
    exact ⟨s', d', hagain, hmatch, hpc, happ, hend.trans hsteps⟩

end Steps

end SDNware.Host
