/-
# SDNware.Server.Updates — `add_send_rec` as a machine whose events are counted announcements.

A record announces traffic in two directions, and each announcement is either counted, ignored as
small or refused as out of order.  What a batch does to the collector is the sequence of
announcements it counts (`batchUpdates`), each counted in the state the ones before have left:
`addSendRec_run` says so, and the invariants of the rates are proved about that machine
(`Collector.step`).

The two directions of a record share one loop iteration, and the refusal of the first leaves the
iteration.  `recordSample_back` says when: with the outgoing announcement above 4096 bytes and not
later than the last record of its pair, the incoming one is not looked at.
-/
import Mathlib.Logic.Function.Basic
import SDNware.Lib.Run
import SDNware.Server.Collector

namespace SDNware.Server

open SDNware.Wire

variable {R : Type} [DoubleOps R]

/-! ## §1 — one block -/

section Block

omit [DoubleOps R] in
/-- `flow_dt` of an announcement. -/
def Collector.flowDt (c : Collector R) (p : Flow) (tm : UInt64) : Int :=
  toInt64 (tm.toNat - c.timeLastFlow p)

/-- `dt` after its clipping. -/
def clipDt (dt : Int) : Int := if dt > winS then winS else dt

/-- The state after an announcement for the direction `p` is counted. -/
def Collector.count (c : Collector R) (p : Flow) (tm : UInt64) (now : Int) (speed : R) :
    Collector R where
  timeLastFlow := Function.update c.timeLastFlow p (toInt64 tm.toNat)
  timeRateUpdate := Function.update c.timeRateUpdate p now
  txRates := c.txRates.set p
    (windowRate (c.txRates.rate p) (clipDt (now - c.timeRateUpdate p)) speed)

/-- What a block does: it ignores, refuses or counts. -/
theorem rateBlock_cases (speedOf : UInt64 → Int → R) (c : Collector R) (p : Flow)
    (bytes tm : UInt64) (now : Int) :
    (¬ bytes > 4096 ∧ rateBlock speedOf c p bytes tm now = some c) ∨
    (bytes > 4096 ∧ c.flowDt p tm ≤ 0 ∧ rateBlock speedOf c p bytes tm now = none) ∨
    (bytes > 4096 ∧ 0 < c.flowDt p tm ∧
      rateBlock speedOf c p bytes tm now
        = some (c.count p tm now (speedOf bytes (c.flowDt p tm)))) := by
  by_cases hbytes : bytes > 4096
  · by_cases hdt : c.flowDt p tm ≤ 0
    · refine .inr (.inl ⟨hbytes, hdt, ?_⟩)
      unfold rateBlock
      rw [if_pos hbytes]
      exact if_pos hdt
    · refine .inr (.inr ⟨hbytes, not_le.mp hdt, ?_⟩)
      unfold rateBlock
      rw [if_pos hbytes]
      exact if_neg hdt
  · exact .inl ⟨hbytes, rateBlock_of_small speedOf c p hbytes tm now⟩

end Block

/-! ## §2 — the machine of counted announcements -/

/-- A counted announcement. -/
structure Update (R : Type) where
  pair : Flow
  tm : UInt64
  now : Int
  speed : R

/-- The collector as a machine: an announcement is counted if it is later than the last one of its
pair, and is not an event of the machine otherwise. -/
def Collector.step (c : Collector R) (u : Update R) : Option (Collector R) :=
  if 0 < c.flowDt u.pair u.tm then some (c.count u.pair u.tm u.now u.speed) else none

theorem Collector.step_eq_some {c c' : Collector R} {u : Update R} :
    c.step u = some c' ↔ 0 < c.flowDt u.pair u.tm ∧ c' = c.count u.pair u.tm u.now u.speed := by
  unfold Collector.step
  split
  · rename_i hdt
    exact ⟨fun h => ⟨hdt, (Option.some.inj h).symm⟩, fun h => by rw [h.2]⟩
  · rename_i hdt
    exact ⟨fun h => absurd h (by simp), fun h => absurd h.1 hdt⟩

/-- The announcements a block counts. -/
def blockUpdates (speedOf : UInt64 → Int → R) (c : Collector R) (p : Flow) (bytes tm : UInt64)
    (now : Int) : List (Update R) :=
  if bytes > 4096 ∧ 0 < c.flowDt p tm then [⟨p, tm, now, speedOf bytes (c.flowDt p tm)⟩] else []

/-- The announcements a record gets counted. -/
def recordUpdates (E : Env) (c : Collector R) (a : Sample) : List (Update R) :=
  let sip := cStr a.amount.ip
  let dip := cStr a.amount.gid
  if E.checkIp dip then
    match rateBlock txSpeed c (sip, dip) a.amount.tx a.amount.tm a.nowTx with
    | none => []
    | some c' =>
      blockUpdates txSpeed c (sip, dip) a.amount.tx a.amount.tm a.nowTx ++
        blockUpdates rxSpeed c' (dip, sip) a.amount.rx a.amount.tm a.nowRx
  else []

/-- The announcements a batch gets counted. -/
def batchUpdates (E : Env) (c : Collector R) : List Sample → List (Update R)
  | [] => []
  | a :: rest =>
    if cStr a.amount.gid = "" then []
    else recordUpdates E c a ++ batchUpdates E (recordSample E c a) rest

/-- The announcements a sequence of batches gets counted. -/
def runUpdates (E : Env) (c : Collector R) : List (List Sample) → List (Update R)
  | [] => []
  | xs :: rest => batchUpdates E c xs ++ runUpdates E (addSendRec E c xs) rest

theorem blockUpdates_run (speedOf : UInt64 → Int → R) (c : Collector R) (p : Flow)
    (bytes tm : UInt64) (now : Int) :
    (blockUpdates speedOf c p bytes tm now).foldlM Collector.step c
      = some ((rateBlock speedOf c p bytes tm now).getD c) := by
  unfold blockUpdates
  rcases rateBlock_cases speedOf c p bytes tm now with ⟨hsmall, hb⟩ | ⟨-, hdt, hb⟩ | ⟨hbig, hdt, hb⟩
  · rw [if_neg fun h => hsmall h.1, hb]
    rfl
  · rw [if_neg fun h => hdt.not_gt h.2, hb]
    rfl
  · have hstep : c.step ⟨p, tm, now, speedOf bytes (c.flowDt p tm)⟩
        = some (c.count p tm now (speedOf bytes (c.flowDt p tm))) := if_pos hdt
    rw [if_pos ⟨hbig, hdt⟩, hb, List.foldlM_cons, hstep]
    rfl

theorem recordUpdates_run (E : Env) (c : Collector R) (a : Sample) :
    (recordUpdates E c a).foldlM Collector.step c = some (recordSample E c a) := by
  unfold recordUpdates recordSample
  by_cases hreg : E.checkIp (cStr a.amount.gid) = true
  · simp only [hreg, if_true]
    have htx := blockUpdates_run txSpeed c (cStr a.amount.ip, cStr a.amount.gid) a.amount.tx
      a.amount.tm a.nowTx
    cases hb : rateBlock txSpeed c (cStr a.amount.ip, cStr a.amount.gid) a.amount.tx a.amount.tm
        a.nowTx with
    | none => rfl
    | some c' =>
      rw [hb] at htx
      simp only [List.foldlM_append, htx]
      exact blockUpdates_run rxSpeed c' _ a.amount.rx a.amount.tm a.nowRx
  · simp only [hreg, Bool.false_eq_true, if_false]
    rfl

/-- **A batch is a run of the machine.** -/
theorem addSendRec_run (E : Env) (c : Collector R) (xs : List Sample) :
    (batchUpdates E c xs).foldlM Collector.step c = some (addSendRec E c xs) := by
  induction xs generalizing c with
  | nil => rfl
  | cons a xs ih =>
    unfold batchUpdates addSendRec
    split
    · rfl
    · rw [List.foldlM_append, recordUpdates_run]
      exact ih (recordSample E c a)

/-- So is a sequence of batches. -/
theorem batches_run (E : Env) (c : Collector R) (bs : List (List Sample)) :
    (runUpdates E c bs).foldlM Collector.step c = some (bs.foldl (addSendRec E) c) := by
  induction bs generalizing c with
  | nil => rfl
  | cons xs bs ih =>
    unfold runUpdates
    rw [List.foldlM_append, addSendRec_run]
    exact ih (addSendRec E c xs)

/-! ## §3 — the two directions of a record -/

omit [DoubleOps R] in
/-- What the collector holds of a pair. -/
def Collector.entry (c : Collector R) (p : Flow) : Int × Int × R :=
  (c.timeLastFlow p, c.timeRateUpdate p, c.txRates.rate p)

theorem entry_count_self (c : Collector R) (p : Flow) (tm : UInt64) (now : Int) (speed : R) :
    (c.count p tm now speed).entry p
      = (toInt64 tm.toNat, now,
          windowRate (c.entry p).2.2 (clipDt (now - (c.entry p).2.1)) speed) := by
  simp only [Collector.entry, Collector.count, RateMap.set, Function.update_self]

theorem entry_count_of_ne (c : Collector R) {p q : Flow} (h : q ≠ p) (tm : UInt64) (now : Int)
    (speed : R) : (c.count p tm now speed).entry q = c.entry q := by
  simp only [Collector.entry, Collector.count, RateMap.set, Function.update_of_ne h]

omit [DoubleOps R] in
theorem flowDt_congr {c c' : Collector R} {p : Flow} (h : c.entry p = c'.entry p) (tm : UInt64) :
    c.flowDt p tm = c'.flowDt p tm := by
  unfold Collector.flowDt
  rw [show c.timeLastFlow p = c'.timeLastFlow p from congrArg Prod.fst h]

/-- A block reads and writes the entry of its own direction only. -/
theorem rateBlock_entry_congr {c c' : Collector R} {p : Flow} (h : c.entry p = c'.entry p)
    (speedOf : UInt64 → Int → R) (bytes tm : UInt64) (now : Int) :
    ((rateBlock speedOf c p bytes tm now).getD c).entry p
      = ((rateBlock speedOf c' p bytes tm now).getD c').entry p := by
  have hdt := flowDt_congr h tm
  rcases rateBlock_cases speedOf c p bytes tm now with ⟨hsmall, hb⟩ | ⟨hbig, hle, hb⟩ | ⟨hbig, hlt, hb⟩
  · rw [hb, rateBlock_of_small speedOf c' p hsmall tm now]
    exact h
  · rcases rateBlock_cases speedOf c' p bytes tm now with ⟨hs, -⟩ | ⟨-, -, hb'⟩ | ⟨-, hlt, -⟩
    · exact absurd hbig hs
    · rw [hb, hb']
      exact h
    · exact absurd (hdt ▸ hle) hlt.not_ge
  · rcases rateBlock_cases speedOf c' p bytes tm now with ⟨hs, -⟩ | ⟨-, hle, -⟩ | ⟨-, -, hb'⟩
    · exact absurd hbig hs
    · exact absurd (hdt ▸ hlt) hle.not_gt
    · rw [hb, hb', Option.getD_some, Option.getD_some, entry_count_self, entry_count_self, h, hdt]

omit [DoubleOps R] in
/-- The outgoing announcement of a record is refused, and the iteration left. -/
def Collector.Refuses (c : Collector R) (p : Flow) (bytes tm : UInt64) : Prop :=
  bytes > 4096 ∧ c.flowDt p tm ≤ 0

omit [DoubleOps R] in
instance (c : Collector R) (p : Flow) (bytes tm : UInt64) : Decidable (c.Refuses p bytes tm) :=
  inferInstanceAs (Decidable (_ ∧ _))

/-- What a record does to the entry of its incoming direction. -/
theorem recordSample_back {E : Env} {a : Sample} (hreg : E.checkIp (cStr a.amount.gid) = true)
    (hne : cStr a.amount.ip ≠ cStr a.amount.gid) (c : Collector R) :
    (recordSample E c a).entry (cStr a.amount.gid, cStr a.amount.ip)
      = if c.Refuses (cStr a.amount.ip, cStr a.amount.gid) a.amount.tx a.amount.tm then
          c.entry (cStr a.amount.gid, cStr a.amount.ip)
        else ((rateBlock rxSpeed c (cStr a.amount.gid, cStr a.amount.ip) a.amount.rx a.amount.tm
          a.nowRx).getD c).entry (cStr a.amount.gid, cStr a.amount.ip) := by
  have hpair : ((cStr a.amount.gid, cStr a.amount.ip) : Flow) ≠ (cStr a.amount.ip, cStr a.amount.gid) :=
    fun h => hne (congrArg Prod.fst h).symm
  unfold recordSample
  simp only [hreg, if_true]
  rcases rateBlock_cases txSpeed c (cStr a.amount.ip, cStr a.amount.gid) a.amount.tx a.amount.tm
      a.nowTx with ⟨hsmall, hb⟩ | ⟨hbig, hle, hb⟩ | ⟨-, hlt, hb⟩
  · rw [hb, if_neg fun h => hsmall h.1]
  · rw [hb, if_pos ⟨hbig, hle⟩]
  · rw [hb, if_neg fun h => hlt.not_ge h.2]
    -- the outgoing update is elsewhere, so the incoming block finds what it would have found
    exact rateBlock_entry_congr (entry_count_of_ne c hpair _ _ _) rxSpeed _ _ _

theorem toInt64_sub_self (n : Int) : toInt64 (n - toInt64 n) = 0 := by
  unfold toInt64
  rw [Int.bmod_def n]
  split <;> rw [Int.bmod_def] <;> split <;> omega

/-- An announcement above 4096 bytes changes its entry if and only if it is later than the last. -/
theorem rateBlock_entry_eq_iff {bytes : UInt64} (h : bytes > 4096) (speedOf : UInt64 → Int → R)
    (c : Collector R) (p : Flow) (tm : UInt64) (now : Int) :
    ((rateBlock speedOf c p bytes tm now).getD c).entry p = c.entry p ↔ c.flowDt p tm ≤ 0 := by
  rcases rateBlock_cases speedOf c p bytes tm now with ⟨hsmall, -⟩ | ⟨-, hle, hb⟩ | ⟨-, hlt, hb⟩
  · exact absurd h hsmall
  · rw [hb]
    exact ⟨fun _ => hle, fun _ => rfl⟩
  · rw [hb, Option.getD_some, entry_count_self]
    refine ⟨fun heq => ?_, fun hle => absurd hle hlt.not_ge⟩
    -- the stored stamp would be the record's own, at distance 0
    obtain ⟨hlast, -⟩ := Prod.mk.inj heq
    unfold Collector.flowDt
    rw [← hlast, toInt64_sub_self]

/-- A sample with another `tx`. -/
def Sample.withTx (a : Sample) (tx : UInt64) : Sample := { a with amount := { a.amount with tx := tx } }

/-- **The two directions of a record.** Take a record with a registered destination other than its
source and `rx > 4096`.  Whatever its clock readings, two values of `tx` leave the same time stamp,
clock reading and rate for the incoming direction if and only if the destination is empty, or both
are above 4096 or neither, or the record is later than the last one of the outgoing direction, or it
is not later than the last one of the incoming direction. -/
theorem incoming_independent_iff (E : Env) (c : Collector R) (a : Sample) (tx tx' : UInt64)
    (hreg : E.checkIp (cStr a.amount.gid) = true) (hne : cStr a.amount.ip ≠ cStr a.amount.gid)
    (hrx : a.amount.rx > 4096) :
    (addSendRec E c [a.withTx tx]).entry (cStr a.amount.gid, cStr a.amount.ip)
        = (addSendRec E c [a.withTx tx']).entry (cStr a.amount.gid, cStr a.amount.ip) ↔
      cStr a.amount.gid = "" ∨ (tx > 4096 ↔ tx' > 4096) ∨
        0 < c.flowDt (cStr a.amount.ip, cStr a.amount.gid) a.amount.tm ∨
        c.flowDt (cStr a.amount.gid, cStr a.amount.ip) a.amount.tm ≤ 0 := by
  by_cases hempty : cStr a.amount.gid = ""
  · refine iff_of_true ?_ (.inl hempty)
    simp only [addSendRec, show (a.withTx tx).amount.gid = a.amount.gid from rfl,
      show (a.withTx tx').amount.gid = a.amount.gid from rfl, if_pos hempty]
  · have hback : ∀ t, (addSendRec E c [a.withTx t]).entry (cStr a.amount.gid, cStr a.amount.ip)
        = if c.Refuses (cStr a.amount.ip, cStr a.amount.gid) t a.amount.tm then
            c.entry (cStr a.amount.gid, cStr a.amount.ip)
          else ((rateBlock rxSpeed c (cStr a.amount.gid, cStr a.amount.ip) a.amount.rx a.amount.tm
            a.nowRx).getD c).entry (cStr a.amount.gid, cStr a.amount.ip) := by
      intro t
      simp only [addSendRec, show (a.withTx t).amount.gid = a.amount.gid from rfl, if_neg hempty]
      exact recordSample_back (a := a.withTx t) hreg hne c
    have hchange := rateBlock_entry_eq_iff hrx rxSpeed c (cStr a.amount.gid, cStr a.amount.ip)
      a.amount.tm a.nowRx
    rw [hback tx, hback tx', ← hchange]
    simp only [hempty, false_or]
    unfold Collector.Refuses
    by_cases hlate : c.flowDt (cStr a.amount.ip, cStr a.amount.gid) a.amount.tm ≤ 0
    · have hnot : ¬ 0 < c.flowDt (cStr a.amount.ip, cStr a.amount.gid) a.amount.tm := hlate.not_gt
      simp only [hlate, and_true, hnot, false_or]
      by_cases h : tx > 4096 <;> by_cases h' : tx' > 4096 <;> simp [h, h', eq_comm]
    · simp only [hlate, and_false, if_false, not_le.mp hlate, true_or, or_true]

/-- Two registered servers. -/
def twoServers : Env where
  nodes := []
  linklist := []
  interfaces := []
  serverList :=
    [("Leaf1", [⟨"172.16.5.1", "1", 100⟩]), ("Leaf2", [⟨"172.16.1.1", "1", 100⟩])]
  eraseEnd := eraseLast
  assignsRecycled := false

/-- A record that announces incoming traffic, stamped like `sampleTo`. -/
def readSample : Sample :=
  ⟨⟨strncpy 16 "172.16.5.1", strncpy 64 "mlx5_0", strncpy 32 "172.16.1.1", 66, 5000, 1000⟩,
    3000, 3000⟩

/-- On a fresh collector the incoming traffic is counted whatever `tx` is. -/
theorem incoming_independent_init :
    (addSendRec twoServers (Collector.init (R := ℚ)) [readSample.withTx 5000]).entry
        (cStr readSample.amount.gid, cStr readSample.amount.ip)
      = (addSendRec twoServers (Collector.init (R := ℚ)) [readSample.withTx 66]).entry
        (cStr readSample.amount.gid, cStr readSample.amount.ip) :=
  (incoming_independent_iff twoServers Collector.init readSample 5000 66 (by decide +kernel)
    (by decide +kernel) (by decide +kernel)).mpr (.inr (.inr (.inl (by decide +kernel))))

/-- A record stamped like the last one of its pair has its incoming traffic counted with `tx = 66`
and not with `tx = 5000`. -/
theorem incoming_depends_on_tx :
    ¬ ∀ (c : Collector ℚ) (a : Sample) (tx tx' : UInt64),
      twoServers.checkIp (cStr a.amount.ip) = true → twoServers.checkIp (cStr a.amount.gid) = true →
      cStr a.amount.ip ≠ cStr a.amount.gid → a.amount.rx > 4096 →
      (addSendRec twoServers c [a.withTx tx]).entry (cStr a.amount.gid, cStr a.amount.ip)
        = (addSendRec twoServers c [a.withTx tx']).entry (cStr a.amount.gid, cStr a.amount.ip) := by
  intro hsame
  have hlast := congrArg Prod.fst (hsame
    (addSendRec twoServers Collector.init [sampleTo "172.16.5.1"]) readSample 5000 66
    (by decide +kernel) (by decide +kernel) (by decide +kernel) (by decide +kernel))
  revert hlast
  decide +kernel

end SDNware.Server
