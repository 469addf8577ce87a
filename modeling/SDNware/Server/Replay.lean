/-
# SDNware.Server.Replay — a batch that arrives twice.

The collector refuses an announcement that is not later than the last one of its pair.  With time
stamps below 2^63, and stored stamps that are such time stamps, the mixed 64-bit subtraction is the
subtraction of integers, so the stored stamps only grow (`step_grows`) and a record that has been
read is stale from then on (`Stale`): its first announcement above 4096 bytes finds a stamp that is
not earlier than its own.  A second reading of the batch therefore counts nothing
(`addSendRec_replay`), whatever the clock shows meanwhile and through both exits of the loop body: a
record refused at its outgoing announcement is refused there again.
-/
import SDNware.Server.Updates

namespace SDNware.Server

open SDNware.Wire

variable {R : Type} [DoubleOps R]

/-! ## §1 — stamps grow -/

section Range

omit [DoubleOps R]

/-- Every stored stamp is a time stamp below 2^63. -/
def Collector.InRange (c : Collector R) : Prop :=
  ∀ p, 0 ≤ c.timeLastFlow p ∧ c.timeLastFlow p < 2 ^ 63

theorem toInt64_eq_self {n : Int} (hlo : -2 ^ 63 ≤ n) (hhi : n < 2 ^ 63) : toInt64 n = n := by
  unfold toInt64
  rw [Int.bmod_def]
  split <;> omega

/-- `flow_dt` is the difference of the two stamps. -/
theorem Collector.InRange.flowDt_eq {c : Collector R} (h : c.InRange) {tm : UInt64}
    (htm : tm.toNat < 2 ^ 63) (p : Flow) : c.flowDt p tm = tm.toNat - c.timeLastFlow p := by
  obtain ⟨hlo, hhi⟩ := h p
  exact toInt64_eq_self (by omega) (by omega)

end Range

theorem timeLastFlow_count (c : Collector R) (p : Flow) {tm : UInt64} (htm : tm.toNat < 2 ^ 63)
    (now : Int) (speed : R) :
    (c.count p tm now speed).timeLastFlow = Function.update c.timeLastFlow p (tm.toNat : Int) := by
  have hself : toInt64 tm.toNat = tm.toNat := toInt64_eq_self (by omega) (by omega)
  show Function.update c.timeLastFlow p (toInt64 tm.toNat) = _
  rw [hself]

/-- **A block keeps the stamps in range and moves none back.** -/
theorem rateBlock_grows (speedOf : UInt64 → Int → R) {c : Collector R} (hrange : c.InRange)
    (p : Flow) (bytes : UInt64) {tm : UInt64} (htm : tm.toNat < 2 ^ 63) (now : Int) :
    ((rateBlock speedOf c p bytes tm now).getD c).InRange ∧
      ∀ q, c.timeLastFlow q ≤ ((rateBlock speedOf c p bytes tm now).getD c).timeLastFlow q := by
  rcases rateBlock_cases speedOf c p bytes tm now with ⟨-, hb⟩ | ⟨-, -, hb⟩ | ⟨-, hdt, hb⟩
  · rw [hb]
    exact ⟨hrange, fun _ => le_rfl⟩
  · rw [hb]
    exact ⟨hrange, fun _ => le_rfl⟩
  · rw [hrange.flowDt_eq htm] at hdt
    rw [hb, Option.getD_some, Collector.InRange, timeLastFlow_count c p htm]
    have hcell : ∀ q, c.timeLastFlow q ≤ Function.update c.timeLastFlow p (tm.toNat : Int) q ∧
        Function.update c.timeLastFlow p (tm.toNat : Int) q < 2 ^ 63 := by
      intro q
      by_cases hq : q = p
      · rw [hq, Function.update_self]
        omega
      · rw [Function.update_of_ne hq]
        exact ⟨le_rfl, (hrange q).2⟩
    exact ⟨fun q => ⟨(hrange q).1.trans (hcell q).1, (hcell q).2⟩, fun q => (hcell q).1⟩

/-- So does a record. -/
theorem recordSample_grows (E : Env) {c : Collector R} (hrange : c.InRange) {a : Sample}
    (htm : a.amount.tm.toNat < 2 ^ 63) :
    (recordSample E c a).InRange ∧
      ∀ q, c.timeLastFlow q ≤ (recordSample E c a).timeLastFlow q := by
  unfold recordSample
  simp only
  split
  · have hout := rateBlock_grows txSpeed hrange (cStr a.amount.ip, cStr a.amount.gid) a.amount.tx htm
      a.nowTx
    split
    · exact ⟨hrange, fun _ => le_rfl⟩
    · rename_i c' hb
      rw [hb, Option.getD_some] at hout
      have hin := rateBlock_grows rxSpeed hout.1 (cStr a.amount.gid, cStr a.amount.ip) a.amount.rx htm
        a.nowRx
      exact ⟨hin.1, fun q => (hout.2 q).trans (hin.2 q)⟩
  · exact ⟨hrange, fun _ => le_rfl⟩

/-- And so does a batch. -/
theorem addSendRec_grows (E : Env) {c : Collector R} (hrange : c.InRange) {xs : List Sample}
    (htm : ∀ a ∈ xs, a.amount.tm.toNat < 2 ^ 63) :
    (addSendRec E c xs).InRange ∧ ∀ p, c.timeLastFlow p ≤ (addSendRec E c xs).timeLastFlow p := by
  induction xs generalizing c with
  | nil => exact ⟨hrange, fun _ => le_rfl⟩
  | cons a xs ih =>
    unfold addSendRec
    split
    · exact ⟨hrange, fun _ => le_rfl⟩
    · obtain ⟨ha, hxs⟩ := List.forall_mem_cons.mp htm
      obtain ⟨hmid, hle⟩ := recordSample_grows E hrange ha
      obtain ⟨hend, hle'⟩ := ih hmid hxs
      exact ⟨hend, fun p => (hle p).trans (hle' p)⟩

/-! ## §2 — records that have been read -/

section Stale

omit [DoubleOps R] in
/-- The first announcement above 4096 bytes of a record finds a stamp that is not earlier. -/
def Stale (E : Env) (c : Collector R) (a : Amount) : Prop :=
  E.checkIp (cStr a.gid) = true →
    (a.tx > 4096 → a.tm.toNat ≤ c.timeLastFlow (cStr a.ip, cStr a.gid)) ∧
    (¬ a.tx > 4096 → a.rx > 4096 → a.tm.toNat ≤ c.timeLastFlow (cStr a.gid, cStr a.ip))

omit [DoubleOps R] in
theorem Stale.mono {E : Env} {c c' : Collector R} {a : Amount} (h : Stale E c a)
    (hle : ∀ p, c.timeLastFlow p ≤ c'.timeLastFlow p) : Stale E c' a := fun hreg =>
  ⟨fun htx => ((h hreg).1 htx).trans (hle _), fun htx hrx => ((h hreg).2 htx hrx).trans (hle _)⟩

/-- A stale record does nothing. -/
theorem Stale.recordSample_eq {E : Env} {c : Collector R} {a : Sample} (h : Stale E c a.amount)
    (hrange : c.InRange) (htm : a.amount.tm.toNat < 2 ^ 63) : recordSample E c a = c := by
  unfold recordSample
  by_cases hreg : E.checkIp (cStr a.amount.gid) = true
  · obtain ⟨hout, hin⟩ := h hreg
    simp only [hreg, if_true]
    rcases rateBlock_cases txSpeed c (cStr a.amount.ip, cStr a.amount.gid) a.amount.tx a.amount.tm
        a.nowTx with ⟨hsmall, hb⟩ | ⟨-, -, hb⟩ | ⟨hbig, hdt, -⟩
    · simp only [hb]
      rcases rateBlock_cases rxSpeed c (cStr a.amount.gid, cStr a.amount.ip) a.amount.rx a.amount.tm
          a.nowRx with ⟨-, hb'⟩ | ⟨-, -, hb'⟩ | ⟨hbig, hdt, -⟩
      · rw [hb', Option.getD_some]
      · rw [hb', Option.getD_none]
      · rw [hrange.flowDt_eq htm] at hdt
        have := hin hsmall hbig
        omega
    · rw [hb]
    · rw [hrange.flowDt_eq htm] at hdt
      have := hout hbig
      omega
  · simp only [hreg, Bool.false_eq_true, if_false]

/-- An announcement above 4096 bytes that has been looked at leaves a stamp that is not earlier. -/
theorem rateBlock_stamps (speedOf : UInt64 → Int → R) {c : Collector R} (hrange : c.InRange)
    (p : Flow) {bytes tm : UInt64} (hbytes : bytes > 4096) (htm : tm.toNat < 2 ^ 63) (now : Int) :
    (tm.toNat : Int) ≤ ((rateBlock speedOf c p bytes tm now).getD c).timeLastFlow p := by
  rcases rateBlock_cases speedOf c p bytes tm now with ⟨hsmall, -⟩ | ⟨-, hdt, hb⟩ | ⟨-, -, hb⟩
  · exact absurd hbytes hsmall
  · rw [hb, Option.getD_none]
    rw [hrange.flowDt_eq htm] at hdt
    omega
  · rw [hb, Option.getD_some, timeLastFlow_count c p htm, Function.update_self]

/-- A record that has been read is stale. -/
theorem stale_recordSample (E : Env) {c : Collector R} (hrange : c.InRange) {a : Sample}
    (htm : a.amount.tm.toNat < 2 ^ 63) : Stale E (recordSample E c a) a.amount := by
  intro hreg
  unfold recordSample
  simp only [hreg, if_true]
  constructor
  · intro htx
    have hstamp := rateBlock_stamps txSpeed hrange (cStr a.amount.ip, cStr a.amount.gid) htx htm
      a.nowTx
    rcases rateBlock_cases txSpeed c (cStr a.amount.ip, cStr a.amount.gid) a.amount.tx a.amount.tm
        a.nowTx with ⟨hsmall, -⟩ | ⟨-, -, hb⟩ | ⟨-, -, hb⟩
    · exact absurd htx hsmall
    · rw [hb] at hstamp ⊢
      exact hstamp
    · have hmid := (rateBlock_grows txSpeed hrange (cStr a.amount.ip, cStr a.amount.gid) a.amount.tx
        htm a.nowTx).1
      rw [hb] at hstamp hmid ⊢
      -- the incoming block runs on the new stamps and moves none back
      exact hstamp.trans ((rateBlock_grows rxSpeed hmid _ a.amount.rx htm a.nowRx).2 _)
  · intro htx hrx
    rw [rateBlock_of_small txSpeed c _ htx]
    exact rateBlock_stamps rxSpeed hrange _ hrx htm a.nowRx

end Stale

/-! ## §3 — reading a batch again -/

/-- The records of a batch up to the first empty destination. -/
def live (xs : List Amount) : List Amount := xs.takeWhile fun a => decide (cStr a.gid ≠ "")

theorem live_cons_of_ne {a : Amount} (h : cStr a.gid ≠ "") (xs : List Amount) :
    live (a :: xs) = a :: live xs :=
  List.takeWhile_cons_of_pos (by simpa using h)

/-- After a batch every record it has read is stale. -/
theorem stale_addSendRec (E : Env) {c : Collector R} (hrange : c.InRange) {xs : List Sample}
    (htm : ∀ a ∈ xs, a.amount.tm.toNat < 2 ^ 63) :
    ∀ r ∈ live (xs.map Sample.amount), Stale E (addSendRec E c xs) r := by
  induction xs generalizing c with
  | nil => exact fun r hr => absurd hr (by simp [live])
  | cons a xs ih =>
    obtain ⟨ha, hxs⟩ := List.forall_mem_cons.mp htm
    unfold addSendRec
    split
    · rename_i hempty
      exact fun r hr => absurd hr (by simp [live, hempty])
    · rename_i hgid
      rw [List.map_cons, live_cons_of_ne hgid]
      have hmid := (recordSample_grows E hrange ha).1
      refine List.forall_mem_cons.mpr ⟨?_, ih hmid hxs⟩
      exact (stale_recordSample E hrange ha).mono (addSendRec_grows E hmid hxs).2

/-- A batch whose records are stale does nothing. -/
theorem addSendRec_of_stale {E : Env} {c : Collector R} (hrange : c.InRange) {xs : List Sample}
    (htm : ∀ a ∈ xs, a.amount.tm.toNat < 2 ^ 63)
    (h : ∀ r ∈ live (xs.map Sample.amount), Stale E c r) : addSendRec E c xs = c := by
  induction xs with
  | nil => rfl
  | cons a xs ih =>
    obtain ⟨ha, hxs⟩ := List.forall_mem_cons.mp htm
    unfold addSendRec
    split
    · rfl
    · rename_i hgid
      rw [List.map_cons, live_cons_of_ne hgid] at h
      obtain ⟨hstale, hrest⟩ := List.forall_mem_cons.mp h
      rw [hstale.recordSample_eq hrange ha]
      exact ih hxs hrest

/-- **Replays are harmless.** From a state whose stamps are below 2^63, a batch `xs` of records
stamped below 2^63 read again as `ys`, with any clock readings, leaves the collector as it was; and
no stamp is moved back, by the whole batch or by what follows any part of it. -/
theorem addSendRec_replay (E : Env) (c : Collector R) (xs ys : List Sample)
    (hrange : ∀ p, 0 ≤ c.timeLastFlow p ∧ c.timeLastFlow p < 2 ^ 63)
    (htm : ∀ a ∈ xs, a.amount.tm.toNat < 2 ^ 63)
    (hsame : ys.map Sample.amount = xs.map Sample.amount) :
    addSendRec E (addSendRec E c xs) ys = addSendRec E c xs ∧
      ∀ pre, pre <+: xs → ∀ p,
        (addSendRec E c pre).timeLastFlow p ≤ (addSendRec E c xs).timeLastFlow p := by
  constructor
  · refine addSendRec_of_stale (addSendRec_grows E hrange htm).1 ?_ ?_
    · intro b hb
      obtain ⟨a, ha, hab⟩ := List.mem_map.mp (hsame ▸ List.mem_map_of_mem hb)
      rw [← hab]
      exact htm a ha
    · rw [hsame]
      exact stale_addSendRec E hrange htm
  · rintro pre ⟨post, rfl⟩ p
    obtain ⟨hpre, hpost⟩ := List.forall_mem_append.mp htm
    by_cases hgid : ∃ a ∈ pre, cStr a.amount.gid = ""
    · rw [addSendRec_append_of_empty hgid]
    · push Not at hgid
      rw [addSendRec_append hgid]
      exact (addSendRec_grows E (addSendRec_grows E hrange hpre).1 hpost).2 p

/-- Two announcements of one pair, read twice. -/
theorem addSendRec_replay_pair :
    addSendRec twoServers (addSendRec twoServers (Collector.init (R := ℚ))
        [sampleTo "172.16.5.1", readSample]) [sampleTo "172.16.5.1", readSample]
      = addSendRec twoServers (Collector.init (R := ℚ)) [sampleTo "172.16.5.1", readSample] :=
  (addSendRec_replay twoServers Collector.init [sampleTo "172.16.5.1", readSample]
    [sampleTo "172.16.5.1", readSample]
    (fun _ => by simp only [Collector.init]; omega) (by decide +kernel) rfl).1

end SDNware.Server
