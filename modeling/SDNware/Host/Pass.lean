/-
# SDNware.Host.Pass — one iteration of the client's loop, with every outcome of its `sock_write` calls.

`Sys.clientStep` cuts the loop body at every read of the shared indices and lets every `sock_write` of
a possible length succeed.  Here the body runs without interruption and `sock_write` may also return `-1` after any
number of bytes.  An iteration makes no call, one, or two when the window goes around the end of the
array; the calls are known before it starts (`Drain.passCalls`), because neither the second call nor
the assignments to `shm->t` look at what the first one returned.

`pass_spec` is the account of an iteration: whatever the calls return, it ends with an empty window.
Hence a failed call loses the records it has not written (`failed_send_kept_iff`).
-/
import SDNware.Wire.Socket
import SDNware.Host.Client

namespace SDNware.Host

open SDNware.Wire

/-! ## §1 — the loop body -/

/-- The client between two iterations: the segment, `ret`, and the `sock_write` calls it has made. -/
structure Drain where
  shm : Shm
  ret : Int
  calls : List Send

section Body

variable (nameToIp : String → String)

/-- The filling loop from `lo` up to `hi`. -/
def Shm.fillSlots (m : Shm) (lo hi : Nat) : Shm :=
  (List.range' lo (hi - lo)).foldl (Shm.fillSlot nameToIp) m

/-- Filling loop, `sock_write` and the assignment to `shm->t`; `none` while `sock_write` has not
returned. -/
def Drain.send (d : Drain) (lo hi next : Nat) (rs : List WriteResult) : Option Drain :=
  let m := d.shm.fillSlots nameToIp lo hi
  let records := Ring.segment m.amount lo hi
  (sockWrite (wire records) rs).2.map fun ret =>
    ⟨{ m with t := next }, ret, d.calls ++ [⟨records, rs⟩]⟩

/-- One iteration of `while (ret)`; `none` after the loop. `rs` and `rs'` are the results of the
`write()` calls of its first and second `sock_write`. -/
def Drain.pass (d : Drain) (rs rs' : List WriteResult) : Option Drain :=
  if d.ret = 0 then none
  else if d.shm.t < d.shm.h then d.send nameToIp d.shm.t d.shm.h d.shm.h rs
  else if d.shm.t > d.shm.h then
    (d.send nameToIp d.shm.t flowNum 0 rs).bind fun mid =>
      if mid.shm.t < mid.shm.h then mid.send nameToIp mid.shm.t mid.shm.h mid.shm.h rs'
      else some mid
  else some d

/-- The calls of an iteration. -/
def Drain.passCalls (d : Drain) (rs rs' : List WriteResult) : List Send :=
  if d.shm.t < d.shm.h then
    [⟨(Ring.segment d.shm.amount d.shm.t d.shm.h).map (fillIp nameToIp), rs⟩]
  else if d.shm.t > d.shm.h then
    ⟨(Ring.segment d.shm.amount d.shm.t flowNum).map (fillIp nameToIp), rs⟩ ::
      if 0 < d.shm.h then [⟨(Ring.segment d.shm.amount 0 d.shm.h).map (fillIp nameToIp), rs'⟩]
      else []
  else []

end Body

/-! ## §2 — filling -/

section Filling

variable {nameToIp : String → String}

theorem foldl_fillSlot_frame (l : List Nat) (m : Shm) :
    (l.foldl (Shm.fillSlot nameToIp) m).t = m.t ∧ (l.foldl (Shm.fillSlot nameToIp) m).h = m.h := by
  induction l generalizing m with
  | nil => exact ⟨rfl, rfl⟩
  | cons i l ih => exact ih (m.fillSlot nameToIp i)

theorem foldl_fillSlot_amount {l : List Nat} (hl : l.Nodup) (m : Shm) (j : Nat) :
    (l.foldl (Shm.fillSlot nameToIp) m).amount j
      = if j ∈ l then fillIp nameToIp (m.amount j) else m.amount j := by
  induction l generalizing m with
  | nil => simp
  | cons i l ih =>
    obtain ⟨hi, hl'⟩ := List.nodup_cons.mp hl
    rw [List.foldl_cons, ih hl']
    show (if j ∈ l then fillIp nameToIp (Function.update m.amount i _ j)
      else Function.update m.amount i _ j) = _
    by_cases hji : j = i
    · subst hji
      rw [if_neg hi, if_pos List.mem_cons_self, Function.update_self]
    · rw [Function.update_of_ne hji]
      simp only [List.mem_cons, hji, false_or]

@[simp] theorem fillSlots_t (m : Shm) (lo hi : Nat) : (m.fillSlots nameToIp lo hi).t = m.t :=
  (foldl_fillSlot_frame _ m).1

@[simp] theorem fillSlots_h (m : Shm) (lo hi : Nat) : (m.fillSlots nameToIp lo hi).h = m.h :=
  (foldl_fillSlot_frame _ m).2

theorem fillSlots_amount (m : Shm) (lo hi j : Nat) :
    (m.fillSlots nameToIp lo hi).amount j
      = if lo ≤ j ∧ j < hi then fillIp nameToIp (m.amount j) else m.amount j := by
  unfold Shm.fillSlots
  rw [foldl_fillSlot_amount List.nodup_range']
  have hmem : j ∈ List.range' lo (hi - lo) ↔ lo ≤ j ∧ j < hi := by
    rw [List.mem_range'_1]
    omega
  simp only [hmem]

/-- Filling touches no driver field. -/
theorem entryOf_fillSlots (m : Shm) (lo hi j : Nat) :
    entryOf ((m.fillSlots nameToIp lo hi).amount j) = entryOf (m.amount j) := by
  rw [fillSlots_amount]
  split <;> rfl

/-- The slots that have been filled. -/
theorem segment_fillSlots (m : Shm) (lo hi : Nat) :
    Ring.segment (m.fillSlots nameToIp lo hi).amount lo hi
      = (Ring.segment m.amount lo hi).map (fillIp nameToIp) := by
  unfold Ring.segment
  rw [List.map_map]
  refine List.map_congr_left fun j hj => ?_
  rw [List.mem_range'_1] at hj
  rw [fillSlots_amount, if_pos (by omega), Function.comp_apply]

/-- The slots before them. -/
theorem segment_fillSlots_before (m : Shm) {lo hi k : Nat} (hk : k ≤ lo) :
    Ring.segment (m.fillSlots nameToIp lo hi).amount 0 k = Ring.segment m.amount 0 k := by
  unfold Ring.segment
  refine List.map_congr_left fun j hj => ?_
  rw [List.mem_range'_1] at hj
  rw [fillSlots_amount, if_neg (by omega)]

/-- The calls carry the window, addressed. -/
theorem sentRecords_passCalls (d : Drain) (rs rs' : List WriteResult) :
    sentRecords (d.passCalls nameToIp rs rs')
      = (Ring.window flowNum d.shm.amount d.shm.t d.shm.h).map (fillIp nameToIp) := by
  unfold Drain.passCalls Ring.window
  rcases Nat.lt_trichotomy d.shm.t d.shm.h with hlt | heq | hgt
  · rw [if_pos hlt, if_pos hlt.le]
    exact List.append_nil _
  · rw [if_neg heq.not_lt, if_neg heq.not_gt, if_pos heq.le, heq]
    unfold Ring.segment
    rw [Nat.sub_self]
    rfl
  · rw [if_neg hgt.not_gt, if_pos hgt, if_neg hgt.not_ge, List.map_append]
    show _ ++ sentRecords _ = _
    congr 1
    split
    · exact List.append_nil _
    · rename_i hzero
      rw [Nat.eq_zero_of_not_pos hzero]
      rfl

/-- No call is made for nothing. -/
theorem records_ne_nil_of_mem_passCalls {d : Drain} (ht : d.shm.t < flowNum)
    {rs rs' : List WriteResult} {c : Send} (hc : c ∈ d.passCalls nameToIp rs rs') :
    c.records ≠ [] := by
  have hsegment : ∀ {lo hi : Nat}, lo < hi →
      (Ring.segment d.shm.amount lo hi).map (fillIp nameToIp) ≠ [] := by
    intro lo hi hlt hnil
    have hlen := congrArg List.length hnil
    rw [List.length_map, Ring.segment_length, List.length_nil] at hlen
    omega
  unfold Drain.passCalls at hc
  split at hc
  · rename_i hlt
    rw [List.mem_singleton.mp hc]
    exact hsegment hlt
  · split at hc
    · rcases List.mem_cons.mp hc with rfl | hc
      · exact hsegment ht
      · split at hc
        · rename_i hpos
          rw [List.mem_singleton.mp hc]
          exact hsegment hpos
        · exact absurd hc (by simp)
    · exact absurd hc (by simp)

/-! ## §3 — an iteration -/

/-- The call has returned. -/
def Returned (c : Send) (ret : Int) : Prop := (sockWrite (wire c.records) c.results).2 = some ret

/-- A call that returns. -/
theorem send_eq (d : Drain) {lo hi next : Nat} {rs : List WriteResult} {ret : Int}
    (h : Returned ⟨(Ring.segment d.shm.amount lo hi).map (fillIp nameToIp), rs⟩ ret) :
    d.send nameToIp lo hi next rs = some ⟨{ d.shm.fillSlots nameToIp lo hi with t := next }, ret,
      d.calls ++ [⟨(Ring.segment d.shm.amount lo hi).map (fillIp nameToIp), rs⟩]⟩ := by
  unfold Drain.send
  simp only [segment_fillSlots]
  rw [show (sockWrite _ rs).2 = some ret from h]
  rfl

/-- What an iteration leaves: its calls recorded, the window empty, the driver's fields as they
were, and in `ret` what the last call returned. -/
structure Passed (d d' : Drain) (calls : List Send) : Prop where
  calls_eq : d'.calls = d.calls ++ calls
  head : d'.shm.h = d.shm.h
  tail : d'.shm.t = d.shm.h
  entries : ∀ j, entryOf (d'.shm.amount j) = entryOf (d.shm.amount j)
  ret : calls = [] ∧ d'.ret = d.ret ∨ ∃ c ∈ calls, Returned c d'.ret

/-- **An iteration whose calls return.** -/
theorem pass_spec (d : Drain) {rs rs' : List WriteResult} (hret : d.ret ≠ 0)
    (hcalls : ∀ c ∈ d.passCalls nameToIp rs rs', ∃ ret, Returned c ret) :
    ∃ d', d.pass nameToIp rs rs' = some d' ∧ Passed d d' (d.passCalls nameToIp rs rs') := by
  unfold Drain.pass
  unfold Drain.passCalls at hcalls ⊢
  rw [if_neg hret]
  rcases Nat.lt_trichotomy d.shm.t d.shm.h with hlt | heq | hgt
  · simp only [if_pos hlt] at hcalls ⊢
    obtain ⟨ret, hreturn⟩ := hcalls _ List.mem_cons_self
    rw [send_eq d hreturn]
    exact ⟨_, rfl, rfl, fillSlots_h .., rfl, entryOf_fillSlots _ _ _,
      .inr ⟨_, List.mem_cons_self, hreturn⟩⟩
  · simp only [if_neg heq.not_lt, if_neg heq.not_gt]
    exact ⟨d, rfl, (List.append_nil _).symm, rfl, heq, fun _ => rfl, .inl ⟨rfl, rfl⟩⟩
  · simp only [if_neg hgt.not_gt, if_pos hgt] at hcalls ⊢
    obtain ⟨ret, hreturn⟩ := hcalls _ List.mem_cons_self
    rw [send_eq d hreturn]
    simp only [Option.bind_some, fillSlots_h]
    by_cases hpos : 0 < d.shm.h
    · -- the second segment is what the first filling loop has not touched
      simp only [if_pos hpos] at hcalls ⊢
      obtain ⟨ret', hreturn'⟩ := hcalls _ (List.mem_cons_of_mem _ List.mem_cons_self)
      rw [← segment_fillSlots_before d.shm hgt.le] at hreturn' ⊢
      rw [send_eq _ hreturn']
      refine ⟨_, rfl, ?_, ?_, rfl, ?_, .inr ⟨_, List.mem_cons_of_mem _ List.mem_cons_self, hreturn'⟩⟩
      · show d.calls ++ [_] ++ [_] = _
        rw [List.append_assoc]
        rfl
      · show (Shm.fillSlots nameToIp _ _ _).h = _
        rw [fillSlots_h]
      · intro j
        show entryOf ((Shm.fillSlots nameToIp _ _ _).amount j) = _
        rw [entryOf_fillSlots, entryOf_fillSlots]
    · simp only [if_neg hpos]
      refine ⟨_, rfl, rfl, rfl, ?_, entryOf_fillSlots _ _ _,
        .inr ⟨_, List.mem_cons_self, hreturn⟩⟩
      exact (Nat.eq_zero_of_not_pos hpos).symm

/-! ## §4 — failed calls -/

/-- The client writes only where a record may start: every call of the iteration is made at a record
boundary of what the iteration has put on the connection, and the loop goes on only if the iteration
ends at one. -/
def WritesAtBoundaries (calls : List Send) (ret : Int) : Prop :=
  (∀ pre c post, calls = pre ++ c :: post → sizeofAmount ∣ (sentStream pre).length) ∧
    (ret ≠ 0 → sizeofAmount ∣ (sentStream calls).length)

theorem sentStream_aligned {calls : List Send} (h : ∀ c ∈ calls, c.Done) :
    sizeofAmount ∣ (sentStream calls).length := by
  rw [sentStream_eq_wire h, wire_length]
  exact Nat.dvd_mul_right ..

theorem window_self (slot : Nat → Amount) (k : Nat) : Ring.window flowNum slot k k = [] := by
  apply List.eq_nil_of_length_eq_zero
  rw [Ring.window, if_pos le_rfl, Ring.segment_length, Nat.sub_self]

/-- **Failed sends.** Take any ring and any outcome of the calls of an iteration, complete or `-1`
after any number of bytes.  The records that were not completely written are still between tail and
head afterwards, and the client writes only at record boundaries, if and only if no call failed. -/
theorem failed_send_kept_iff (nameToIp : String → String) (d : Drain) (rs rs' : List WriteResult)
    (hret : d.ret ≠ 0) (hout : ∀ c ∈ d.passCalls nameToIp rs rs', c.Done ∨ c.Failed) :
    ∃ d', d.pass nameToIp rs rs' = some d' ∧ d'.calls = d.calls ++ d.passCalls nameToIp rs rs' ∧
      (((∀ c ∈ d.passCalls nameToIp rs rs', ∀ a ∈ c.unwritten,
            a ∈ Ring.window flowNum d'.shm.amount d'.shm.t d'.shm.h) ∧
          WritesAtBoundaries (d.passCalls nameToIp rs rs') d'.ret) ↔
        ∀ c ∈ d.passCalls nameToIp rs rs', ¬ c.Failed) := by
  have hcalls : ∀ c ∈ d.passCalls nameToIp rs rs', ∃ ret, Returned c ret := by
    intro c hc
    rcases hout c hc with hdone | hfailed
    · exact ⟨_, hdone⟩
    · exact ⟨_, hfailed⟩
  obtain ⟨d', hpass, hpassed⟩ := pass_spec d hret hcalls
  refine ⟨d', hpass, hpassed.calls_eq, ?_, ?_⟩
  · rintro ⟨hkept, -⟩ c hc hfailed
    -- a failed call has unwritten records, and the window is empty
    obtain ⟨a, ha⟩ := List.exists_mem_of_ne_nil _ hfailed.unwritten_ne_nil
    have hmem := hkept c hc a ha
    rw [hpassed.tail, hpassed.head, window_self] at hmem
    exact absurd hmem (by simp)
  · intro hnone
    have hdone : ∀ c ∈ d.passCalls nameToIp rs rs', c.Done := fun c hc =>
      (hout c hc).resolve_right (hnone c hc)
    refine ⟨fun c hc a ha => ?_, fun pre c post hsplit => ?_, fun _ => sentStream_aligned hdone⟩
    · rw [(hdone c hc).unwritten_eq] at ha
      exact absurd ha (by simp)
    · refine sentStream_aligned fun c' hc' => hdone c' ?_
      rw [hsplit]
      exact List.mem_append_left _ hc'

end Filling

/-- A client with one record to send. -/
def oneRecord : Drain := ⟨allocSharedMemory.append firstEntry, 1, []⟩

/-- A write in two pieces keeps what it has to. -/
theorem failed_send_kept_oneRecord :
    ∃ d', oneRecord.pass oneDevice [.wrote 100, .wrote 36] [] = some d' ∧
      WritesAtBoundaries (oneRecord.passCalls oneDevice [.wrote 100, .wrote 36] []) d'.ret := by
  obtain ⟨d', hpass, -, hiff⟩ := failed_send_kept_iff oneDevice oneRecord [.wrote 100, .wrote 36] []
    (by decide) (by decide +kernel)
  exact ⟨d', hpass, (hiff.mpr (by decide +kernel)).2⟩

/-- A write that fails inside a record loses the record, and the client goes on in the middle of
it. -/
theorem record_lost_on_failed_send :
    ∃ d', oneRecord.pass oneDevice [.wrote 100, .failed] [] = some d' ∧
      (¬ ∀ c ∈ oneRecord.passCalls oneDevice [.wrote 100, .failed] [], ∀ a ∈ c.unwritten,
        a ∈ Ring.window flowNum d'.shm.amount d'.shm.t d'.shm.h) ∧
      ¬ WritesAtBoundaries (oneRecord.passCalls oneDevice [.wrote 100, .failed] []) d'.ret := by
  obtain ⟨d', hpass, hd'⟩ := Option.map_eq_some_iff.mp
    (show (oneRecord.pass oneDevice [.wrote 100, .failed] []).map (fun d' =>
        (d'.ret, Ring.window flowNum d'.shm.amount d'.shm.t d'.shm.h)) = some (-1, []) by
      decide +kernel)
  obtain ⟨hret, hwindow⟩ := Prod.mk.inj hd'
  refine ⟨d', hpass, ?_, fun hwrites => ?_⟩
  · rw [hwindow]
    decide +kernel
  · have hcut := hwrites.2 (by rw [hret]; decide)
    revert hcut
    decide +kernel

end SDNware.Host
