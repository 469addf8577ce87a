/-
# SDNware.Server.Rates — the rates against the observed speeds, in exact arithmetic.

A counted announcement moves the rate of its pair to `((win_s - dt)·rate + dt·speed) / win_s`, where
`dt` is the time since the last update, clipped to `win_s` above and not below.  The update is a
convex combination exactly when `dt` is not negative (`convexUpdate_clipDt_iff`), that is, when the
clock has not been stepped back since the last update of the pair.  `rates_within_observed_iff` is
the statement over whole runs; the bound at every state is `rates_bounded`, by induction on the
announcements counted so far.

`speed` itself is computed from an unsigned 64-bit product.  It is the exact one if and only if the
product does not wrap (`speeds_exact_iff`), which bounds the bytes of a record by 2305843009, less
than what one chain of requests may announce.

`get_txRate` estimates the rate between two updates.  It divides `win_s - dt` by `win_s` as integers,
so what it returns is the rate at the instant of the update and 0 from the next nanosecond on
(`getTxRate_eq`), where the update would store a rate that falls linearly over the window
(`getTxRate_eq_count_iff`).
-/
import Mathlib.Data.Rat.Floor
import Mathlib.Tactic.FieldSimp
import Mathlib.Tactic.Linarith
import Mathlib.Tactic.Positivity
import Mathlib.Tactic.Ring
import SDNware.Host.Forecast
import SDNware.Server.Updates

namespace SDNware.Server

open SDNware.Wire SDNware.Host

/-! ## §1 — one update -/

/-- The update with the weight `dt` is a convex combination of the rate and the speed. -/
def ConvexUpdate (dt : Int) : Prop :=
  ∃ w : ℚ, 0 ≤ w ∧ w ≤ 1 ∧ ∀ rate speed : ℚ, windowRate rate dt speed = (1 - w) * rate + w * speed

theorem windowRate_eq (rate : ℚ) (dt : Int) (speed : ℚ) :
    windowRate rate dt speed = (1 - dt / winS) * rate + dt / winS * speed := by
  show (((winS - dt : Int) : ℚ) * rate + (dt : ℚ) * speed) / (winS : ℚ) = _
  have hwin : (winS : ℚ) ≠ 0 := by norm_num [winS]
  push_cast
  field_simp

theorem clipDt_le (dt : Int) : clipDt dt ≤ winS := by
  unfold clipDt
  split <;> omega

theorem clipDt_nonneg_iff (dt : Int) : 0 ≤ clipDt dt ↔ 0 ≤ dt := by
  unfold clipDt winS
  split <;> omega

/-- **An update is a convex combination if and only if the clock has not gone back.** -/
theorem convexUpdate_clipDt_iff (dt : Int) : ConvexUpdate (clipDt dt) ↔ 0 ≤ dt := by
  have hwin : (0 : ℚ) < winS := by norm_num [winS]
  rw [← clipDt_nonneg_iff]
  constructor
  · rintro ⟨w, hw, -, hcomb⟩
    -- rate 0 and speed 1 read the weight off
    have hread := hcomb 0 1
    rw [windowRate_eq, mul_zero, mul_zero, zero_add, zero_add, mul_one, mul_one] at hread
    rw [← hread] at hw
    have hnum : (0 : ℚ) ≤ clipDt dt := by
      have := mul_nonneg hw hwin.le
      rwa [div_mul_cancel₀ _ hwin.ne'] at this
    exact_mod_cast hnum
  · intro hdt
    have hle : (clipDt dt : ℚ) ≤ winS := by exact_mod_cast clipDt_le dt
    have hnonneg : (0 : ℚ) ≤ clipDt dt := by exact_mod_cast hdt
    exact ⟨clipDt dt / winS, div_nonneg hnonneg hwin.le, (div_le_one hwin).mpr hle,
      fun rate speed => windowRate_eq rate (clipDt dt) speed⟩

/-- A convex update stays within the bounds of both its arguments. -/
theorem ConvexUpdate.within {dt : Int} (h : ConvexUpdate dt) {rate speed top : ℚ}
    (hrate : 0 ≤ rate) (hspeed : 0 ≤ speed) (hrtop : rate ≤ top) (hstop : speed ≤ top) :
    0 ≤ windowRate rate dt speed ∧ windowRate rate dt speed ≤ top := by
  obtain ⟨w, hw0, hw1, hcomb⟩ := h
  rw [hcomb]
  have hw1' : 0 ≤ 1 - w := sub_nonneg.mpr hw1
  constructor
  · exact add_nonneg (mul_nonneg hw1' hrate) (mul_nonneg hw0 hspeed)
  · calc (1 - w) * rate + w * speed
        ≤ (1 - w) * top + w * top :=
          add_le_add (mul_le_mul_of_nonneg_left hrtop hw1') (mul_le_mul_of_nonneg_left hstop hw0)
      _ = top := by ring

/-! ## §2 — whole runs -/

/-- The largest speed computed for a pair, 0 before the first. -/
def fastest (us : List (Update ℚ)) (p : Flow) : ℚ :=
  us.foldl (fun top u => if u.pair = p then max top u.speed else top) 0

theorem fastest_concat (us : List (Update ℚ)) (u : Update ℚ) (p : Flow) :
    fastest (us ++ [u]) p = if u.pair = p then max (fastest us p) u.speed else fastest us p := by
  unfold fastest
  rw [List.foldl_append]
  rfl

theorem txSpeed_nonneg (tx : UInt64) (dt : Int) : (0 : ℚ) ≤ txSpeed tx dt := by
  show (0 : ℚ) ≤ (((_ : Nat) : Int) : ℚ)
  exact_mod_cast Nat.zero_le _

theorem rxSpeed_nonneg (rx : UInt64) {dt : Int} (h : 0 < dt) : (0 : ℚ) ≤ rxSpeed rx dt := by
  show (0 : ℚ) ≤ (((_ : Nat) : Int) : ℚ) / (dt : ℚ)
  refine div_nonneg ?_ (by exact_mod_cast h.le)
  exact_mod_cast Nat.zero_le _

theorem speed_nonneg_of_mem_blockUpdates {speedOf : UInt64 → Int → ℚ}
    (hspeed : ∀ n {dt}, 0 < dt → 0 ≤ speedOf n dt) {c : Collector ℚ} {p : Flow} {bytes tm : UInt64}
    {now : Int} {u : Update ℚ} (h : u ∈ blockUpdates speedOf c p bytes tm now) : 0 ≤ u.speed := by
  unfold blockUpdates at h
  split at h
  · rename_i hcount
    rw [List.mem_singleton.mp h]
    exact hspeed bytes hcount.2
  · exact absurd h (by simp)

theorem speed_nonneg_of_mem_recordUpdates {E : Env} {c : Collector ℚ} {a : Sample} {u : Update ℚ}
    (h : u ∈ recordUpdates E c a) : 0 ≤ u.speed := by
  unfold recordUpdates at h
  simp only at h
  split at h
  · split at h
    · exact absurd h (by simp)
    · rcases List.mem_append.mp h with h | h
      · exact speed_nonneg_of_mem_blockUpdates (fun n {dt} _ => txSpeed_nonneg n dt) h
      · exact speed_nonneg_of_mem_blockUpdates (fun n {_} hdt => rxSpeed_nonneg n hdt) h
  · exact absurd h (by simp)

theorem speed_nonneg_of_mem_batchUpdates {E : Env} {c : Collector ℚ} {xs : List Sample}
    {u : Update ℚ} (h : u ∈ batchUpdates E c xs) : 0 ≤ u.speed := by
  induction xs generalizing c with
  | nil => exact absurd h (by simp [batchUpdates])
  | cons a xs ih =>
    unfold batchUpdates at h
    split at h
    · exact absurd h (by simp)
    · exact (List.mem_append.mp h).elim speed_nonneg_of_mem_recordUpdates ih

/-- No speed is negative. -/
theorem speed_nonneg_of_mem_runUpdates {E : Env} {c : Collector ℚ} {bs : List (List Sample)}
    {u : Update ℚ} (h : u ∈ runUpdates E c bs) : 0 ≤ u.speed := by
  induction bs generalizing c with
  | nil => exact absurd h (by simp [runUpdates])
  | cons xs bs ih => exact (List.mem_append.mp h).elim speed_nonneg_of_mem_batchUpdates ih

/-- The clock reading of an announcement is not before the last one of its pair. -/
def ClockForward (c : Collector ℚ) (u : Update ℚ) : Prop := c.timeRateUpdate u.pair ≤ u.now

/-- The announcement moves the rate of its pair by a convex combination. -/
def Convex (c : Collector ℚ) (u : Update ℚ) : Prop :=
  ConvexUpdate (clipDt (u.now - c.timeRateUpdate u.pair))

theorem convex_iff_clockForward (c : Collector ℚ) (u : Update ℚ) : Convex c u ↔ ClockForward c u := by
  unfold Convex ClockForward
  rw [convexUpdate_clipDt_iff, Int.sub_nonneg]

/-- Every rate is between 0 and a bound of its pair. -/
def Bounded (c : Collector ℚ) (top : Flow → ℚ) : Prop :=
  ∀ p, 0 ≤ c.txRates.rate p ∧ c.txRates.rate p ≤ top p

/-- One convex update keeps the rates within the observed speeds. -/
theorem Bounded.step {c c' : Collector ℚ} {u : Update ℚ} {us : List (Update ℚ)}
    (h : Bounded c (fastest us)) (hspeed : 0 ≤ u.speed) (hconvex : Convex c u)
    (hstep : c.step u = some c') : Bounded c' (fastest (us ++ [u])) := by
  obtain ⟨-, rfl⟩ := Collector.step_eq_some.mp hstep
  intro p
  show 0 ≤ Function.update c.txRates.rate u.pair _ p ∧ Function.update c.txRates.rate u.pair _ p ≤ _
  rw [fastest_concat]
  by_cases hp : u.pair = p
  · subst hp
    obtain ⟨hlo, hhi⟩ := h u.pair
    rw [Function.update_self, if_pos rfl]
    exact ConvexUpdate.within hconvex hlo hspeed (hhi.trans (le_max_left _ _)) (le_max_right _ _)
  · rw [Function.update_of_ne (Ne.symm hp), if_neg hp]
    exact h p

theorem bounded_init : Bounded (Collector.init (R := ℚ)) (fastest []) := by
  intro p
  show (0 : ℚ) ≤ ((0 : Int) : ℚ) ∧ ((0 : Int) : ℚ) ≤ 0
  simp

/-- A run of convex updates keeps the rates within the observed speeds, at every state it visits. -/
theorem rates_bounded {us : List (Update ℚ)} (hspeed : ∀ u ∈ us, 0 ≤ u.speed)
    (hconvex : Run.Along Collector.step Convex Collector.init us) {pre : List (Update ℚ)}
    (hpre : pre <+: us) {c : Collector ℚ} (hc : pre.foldlM Collector.step Collector.init = some c) :
    Bounded c (fastest pre) := by
  -- induction from the right: the state before the last announcement is one the run has visited
  induction pre using List.reverseRecOn generalizing c with
  | nil =>
    obtain rfl : Collector.init = c := Option.some.inj hc
    exact bounded_init
  | append_singleton pre u ih =>
    obtain ⟨mid, hmid, hlast⟩ := Run.foldlM_append_some hc
    obtain ⟨c', hstep, hend⟩ := Run.foldlM_cons_some hlast
    obtain rfl : c' = c := Option.some.inj hend
    obtain ⟨post, hpost⟩ := hpre
    rw [List.append_assoc, List.singleton_append] at hpost
    have hu : u ∈ us := hpost ▸ List.mem_append_right pre List.mem_cons_self
    rw [← hpost] at hconvex
    exact (ih ⟨u :: post, hpost⟩ hmid).step (hspeed u hu) (hconvex.of_reached hmid) hstep

/-- **The rates and the observed speeds.** The states a sequence of batches takes the collector
through are those of the announcements it gets counted.  Every one of these is a convex combination,
and every rate is at every state between 0 and the largest speed computed so far for its pair, if
and only if no announcement is counted at a clock reading before the last one of its pair. -/
theorem rates_within_observed_iff (E : Env) (bs : List (List Sample)) :
    (runUpdates E Collector.init bs).foldlM Collector.step Collector.init
        = some (bs.foldl (addSendRec E) (Collector.init (R := ℚ))) ∧
      ((Run.Along Collector.step Convex Collector.init (runUpdates E Collector.init bs) ∧
          ∀ pre c, pre <+: runUpdates E Collector.init bs →
            pre.foldlM Collector.step Collector.init = some c →
            ∀ p, 0 ≤ c.txRates.rate p ∧ c.txRates.rate p ≤ fastest pre p) ↔
        Run.Along Collector.step ClockForward Collector.init (runUpdates E Collector.init bs)) := by
  refine ⟨batches_run E Collector.init bs, ?_, ?_⟩
  · rintro ⟨hconvex, -⟩
    exact hconvex.mono fun c u => (convex_iff_clockForward c u).mp
  · intro hclock
    have hconvex := hclock.mono fun c u => (convex_iff_clockForward c u).mpr
    exact ⟨hconvex, fun pre c hpre hc =>
      rates_bounded (fun u hu => speed_nonneg_of_mem_runUpdates hu) hconvex hpre hc⟩

/-- A record one tick after `sampleTo`'s, read with the clock one microsecond before. -/
def steppedBack : Sample :=
  ⟨⟨strncpy 16 "172.16.5.1", strncpy 64 "mlx5_0", strncpy 32 "172.16.1.1", 5000, 66, 1001⟩, 1000, 1000⟩

/-- With the clock stepped back the rate goes below zero. -/
theorem rate_negative_after_step_back :
    (([[sampleTo "172.16.5.1"], [steppedBack]].foldl (addSendRec oneServer)
      (Collector.init (R := ℚ))).txRates.rate ("172.16.1.1", "172.16.5.1")) < 0 := by
  decide +kernel

/-! ## §3 — the speed of a record -/

/-- The product as the server computes it. -/
theorem toNat_scaled (n : UInt64) : (n * 8 * 1000000000).toNat = n.toNat * 8 * 10 ^ 9 % 2 ^ 64 := by
  rw [UInt64.toNat_mul, UInt64.toNat_mul]
  simp

theorem toInt64_lt (n : Int) : toInt64 n < 2 ^ 63 := by
  unfold toInt64
  rw [Int.bmod_def]
  split <;> omega

/-- Wrapping an amount of at least the modulus changes its quotient by anything below the modulus. -/
theorem mod_div_eq_iff {n m k : Nat} (hk : 0 < k) (hkm : k ≤ m) : n % m / k = n / k ↔ n < m := by
  constructor
  · intro heq
    by_contra hge
    have hle : n % m + k ≤ n := by
      have hone : m * 1 ≤ m * (n / m) :=
        Nat.mul_le_mul_left m ((Nat.one_le_div_iff (hk.trans_le hkm)).mpr (not_lt.mp hge))
      have := Nat.mod_add_div n m
      omega
    have hdiv : (n % m + k) / k ≤ n / k := Nat.div_le_div_right hle
    rw [Nat.add_div_right _ hk] at hdiv
    omega
  · intro hlt
    rw [Nat.mod_eq_of_lt hlt]

/-- The outgoing speed is exact if and only if the product does not wrap. -/
theorem txSpeed_exact_iff (tx : UInt64) {dt : Int} (hpos : 0 < dt) (hlt : dt < 2 ^ 63) :
    (txSpeed tx dt : ℚ) = (⌊(tx.toNat * 8 * 10 ^ 9 : ℚ) / dt⌋ : Int) ↔ tx.toNat * 8 * 10 ^ 9 < 2 ^ 64 := by
  obtain ⟨k, rfl⟩ := Int.eq_ofNat_of_zero_le hpos.le
  have hfloor : ⌊(tx.toNat * 8 * 10 ^ 9 : ℚ) / ((k : Int) : ℚ)⌋ = ((tx.toNat * 8 * 10 ^ 9 / k : Nat) : Int) := by
    have := Rat.floor_intCast_div_natCast (tx.toNat * 8 * 10 ^ 9 : Int) k
    push_cast at this ⊢
    exact this
  have hspeed : (txSpeed tx (k : Int) : ℚ) = (((tx.toNat * 8 * 10 ^ 9 % 2 ^ 64 / k : Nat) : Int) : ℚ) := by
    show ((((tx * 8 * 1000000000).toNat / (k : Int).toNat : Nat) : Int) : ℚ) = _
    rw [toNat_scaled, Int.toNat_natCast]
  rw [hspeed, hfloor, Int.cast_inj, Int.natCast_inj]
  exact mod_div_eq_iff (by omega) (by omega)

/-- The incoming speed is exact if and only if the product does not wrap. -/
theorem rxSpeed_exact_iff (rx : UInt64) {dt : Int} (hpos : 0 < dt) :
    (rxSpeed rx dt : ℚ) = (rx.toNat * 8 * 10 ^ 9 : ℚ) / dt ↔ rx.toNat * 8 * 10 ^ 9 < 2 ^ 64 := by
  have hdt : (dt : ℚ) ≠ 0 := by exact_mod_cast hpos.ne'
  have hspeed : (rxSpeed rx dt : ℚ) = (((rx.toNat * 8 * 10 ^ 9 % 2 ^ 64 : Nat) : Int) : ℚ) / dt := by
    show (((rx * 8 * 1000000000).toNat : Int) : ℚ) / (dt : ℚ) = _
    rw [toNat_scaled]
  rw [hspeed, div_left_inj' hdt]
  constructor
  · intro heq
    have hnat : rx.toNat * 8 * 10 ^ 9 % 2 ^ 64 = rx.toNat * 8 * 10 ^ 9 := by exact_mod_cast heq
    rw [← hnat]
    exact Nat.mod_lt _ (by decide)
  · intro hlt
    rw [Nat.mod_eq_of_lt hlt]
    push_cast
    rfl

/-- **The speeds of a forecast record.** For every record `flow_forecast` can append and every two
states and directions in which it is accepted, the outgoing speed is the floor of
`tx·8·10⁹ / flow_dt` and the incoming one is `rx·8·10⁹ / flow_dt` if and only if neither amount of
the chain times `8·10⁹` reaches 2^64. -/
theorem speeds_exact_iff (q : Qp) (d : Destination) (wr : List SendWr) (now : Timespec) (e : Entry)
    (he : forecastEntry q d wr now = some e) (c c' : Collector ℚ) (p p' : Flow)
    (hout : 0 < c.flowDt p e.tm) (hin : 0 < c'.flowDt p' e.tm) :
    ((txSpeed e.tx (c.flowDt p e.tm) : ℚ) = (⌊(e.tx.toNat * 8 * 10 ^ 9 : ℚ) / c.flowDt p e.tm⌋ : Int) ∧
        (rxSpeed e.rx (c'.flowDt p' e.tm) : ℚ) = (e.rx.toNat * 8 * 10 ^ 9 : ℚ) / c'.flowDt p' e.tm) ↔
      (amounts q.qpType (mtuOf d.pathMtu) wr).1.toNat * 8 * 10 ^ 9 < 2 ^ 64 ∧
        (amounts q.qpType (mtuOf d.pathMtu) wr).2.toNat * 8 * 10 ^ 9 < 2 ^ 64 := by
  have hentry : e.tx = (amounts q.qpType (mtuOf d.pathMtu) wr).1 ∧
      e.rx = (amounts q.qpType (mtuOf d.pathMtu) wr).2 := by
    unfold forecastEntry at he
    simp only at he
    split at he
    · rw [← Option.some.inj he]
      exact ⟨rfl, rfl⟩
    · exact absurd he (by simp)
  rw [txSpeed_exact_iff e.tx hout (toInt64_lt _), rxSpeed_exact_iff e.rx hin, hentry.1, hentry.2]

/-- A queue pair of a reliable connection. -/
def rcQp : Qp := ⟨0, 1, .rc, "mlx5_0"⟩

/-- A destination with path MTU 4096. -/
def farEnd : Destination := ⟨5, strncpy 16 "172.16.5.1"⟩

/-- The record of two RDMA writes of the given length. -/
def twoWrites (length : UInt32) : Option Entry :=
  forecastEntry rcQp farEnd [⟨.rdmaWrite, [length]⟩, ⟨.rdmaWrite, [length]⟩] ⟨1, 0⟩

/-- Two RDMA writes of a million bytes have their speed computed exactly. -/
theorem speeds_exact_million :
    ∃ e, twoWrites 1000000 = some e ∧
      (txSpeed e.tx ((Collector.init (R := ℚ)).flowDt ("172.16.1.1", "172.16.5.1") e.tm) : ℚ)
        = (⌊(e.tx.toNat * 8 * 10 ^ 9 : ℚ) /
            (Collector.init (R := ℚ)).flowDt ("172.16.1.1", "172.16.5.1") e.tm⌋ : Int) := by
  obtain ⟨e, he, htm⟩ := Option.map_eq_some_iff.mp
    (show (twoWrites 1000000).map (fun e => e.tm) = some 1000000000 by decide +kernel)
  refine ⟨e, he, ((speeds_exact_iff rcQp farEnd _ ⟨1, 0⟩ e he Collector.init Collector.init
    ("172.16.1.1", "172.16.5.1") ("172.16.5.1", "172.16.1.1") ?_ ?_).mpr ?_).1⟩
  · rw [htm]
    decide +kernel
  · rw [htm]
    decide +kernel
  · decide +kernel

/-- The product wraps for two RDMA writes of 1.5 GB. -/
theorem not_speeds_exact :
    ¬ ∀ (e : Entry) (c : Collector ℚ) (p : Flow), twoWrites 1500000000 = some e →
      0 < c.flowDt p e.tm →
      (txSpeed e.tx (c.flowDt p e.tm) : ℚ)
        = (⌊(e.tx.toNat * 8 * 10 ^ 9 : ℚ) / c.flowDt p e.tm⌋ : Int) := by
  intro hexact
  obtain ⟨e, he, hfields⟩ := Option.map_eq_some_iff.mp
    (show (twoWrites 1500000000).map (fun e => (e.tx, e.tm)) = some (3045410196, 1000000000) by
      decide +kernel)
  obtain ⟨htx, htm⟩ := Prod.mk.inj hfields
  have hone := hexact e Collector.init ("172.16.1.1", "172.16.5.1") he
    (by rw [htm]; decide +kernel)
  rw [htm, htx] at hone
  revert hone
  decide +kernel

/-! ## §4 — the rate between two updates -/

/-- `get_txRate`; the division is that of `long long`. -/
def getTxRate {R : Type} [DoubleOps R] (c : Collector R) (p : Flow) (now : Int) : R :=
  let dt := now - c.timeRateUpdate p
  let dt := if winS > dt then dt else winS
  DoubleOps.mul (DoubleOps.ofInt ((winS - dt).tdiv winS)) (c.txRates.rate p)

/-- Within the window the quotient is 0, but for the instant of the update. -/
theorem tdiv_winS {dt : Int} (hdt : 0 ≤ dt) :
    (winS - if winS > dt then dt else winS).tdiv winS = if dt = 0 then 1 else 0 := by
  by_cases hzero : dt = 0
  · rw [hzero, if_pos rfl]
    decide
  · rw [if_neg hzero]
    refine Int.tdiv_eq_zero_of_lt ?_ ?_
    · split <;> omega
    · have hwin : 0 < winS := by decide
      split <;> omega

/-- What `get_txRate` returns at or after the last update. -/
theorem getTxRate_eq (c : Collector ℚ) {p : Flow} {now : Int} (hnow : c.timeRateUpdate p ≤ now) :
    getTxRate c p now = if now = c.timeRateUpdate p then c.txRates.rate p else 0 := by
  show (((winS - if winS > now - c.timeRateUpdate p then now - c.timeRateUpdate p else winS).tdiv
    winS : Int) : ℚ) * c.txRates.rate p = _
  rw [tdiv_winS (Int.sub_nonneg.mpr hnow)]
  by_cases hsame : now = c.timeRateUpdate p
  · rw [if_pos (Int.sub_eq_zero.mpr hsame), if_pos hsame, Int.cast_one, one_mul]
  · rw [if_neg (fun h => hsame (Int.sub_eq_zero.mp h)), if_neg hsame, Int.cast_zero, zero_mul]

/-- What a counted sample of speed 0 stores: the rate, falling linearly over the window. -/
theorem rate_count_zero (c : Collector ℚ) (p : Flow) (tm : UInt64) (now : Int) :
    (c.count p tm now 0).txRates.rate p
      = (winS - min (now - c.timeRateUpdate p) winS : Int) / winS * c.txRates.rate p := by
  have hclip : clipDt (now - c.timeRateUpdate p) = min (now - c.timeRateUpdate p) winS := by
    unfold clipDt
    split <;> omega
  have hentry := congrArg (fun e : Int × Int × ℚ => e.2.2) (entry_count_self c p tm now 0)
  have hwin : (winS : ℚ) ≠ 0 := by norm_num [winS]
  calc (c.count p tm now 0).txRates.rate p
      = windowRate (c.txRates.rate p) (clipDt (now - c.timeRateUpdate p)) 0 := hentry
    _ = _ := by
      rw [windowRate_eq, hclip, mul_zero, add_zero]
      push_cast
      field_simp

/-- **The two decays.** At or after the last update of a pair, `get_txRate` returns what
`add_send_rec` would store from a sample of speed 0, the rate times what is left of the window, if
and only if no time has passed, the whole window has, or the rate is 0. -/
theorem getTxRate_eq_count_iff (c : Collector ℚ) (p : Flow) (tm : UInt64) (now : Int)
    (hnow : c.timeRateUpdate p ≤ now) :
    (getTxRate c p now = (c.count p tm now 0).txRates.rate p ∧
      getTxRate c p now
        = (winS - min (now - c.timeRateUpdate p) winS : Int) / winS * c.txRates.rate p) ↔
    now = c.timeRateUpdate p ∨ winS ≤ now - c.timeRateUpdate p ∨ c.txRates.rate p = 0 := by
  have hwin : (winS : ℚ) ≠ 0 := by norm_num [winS]
  rw [rate_count_zero, and_self, getTxRate_eq c hnow]
  by_cases hsame : now = c.timeRateUpdate p
  · have hmin : min (now - c.timeRateUpdate p) winS = 0 := by
      rw [hsame, sub_self]
      decide
    rw [if_pos hsame, hmin, sub_zero, div_self hwin, one_mul]
    simp [hsame]
  · rw [if_neg hsame, eq_comm, mul_eq_zero, div_eq_zero_iff, Int.cast_eq_zero]
    simp only [hsame, hwin, or_false, false_or]
    refine or_congr_left ?_
    omega

/-- A pair updated at time 0 with the rate 1000. -/
def updatedAtZero : Collector ℚ :=
  { (Collector.init (R := ℚ)) with txRates := RateMap.empty.set ("172.16.1.1", "172.16.5.1") 1000 }

/-- The decays meet at the end of the window. -/
theorem decays_meet_after_window :
    getTxRate updatedAtZero ("172.16.1.1", "172.16.5.1") 1000000000
      = (updatedAtZero.count ("172.16.1.1", "172.16.5.1") 7 1000000000 0).txRates.rate
          ("172.16.1.1", "172.16.5.1") :=
  ((getTxRate_eq_count_iff updatedAtZero ("172.16.1.1", "172.16.5.1") 7 1000000000
    (by decide)).mpr (.inr (.inl (by decide)))).1

/-- Half-way through the window the estimate is 0, where the update would leave half the rate. -/
theorem getTxRate_half_window :
    updatedAtZero.timeRateUpdate ("172.16.1.1", "172.16.5.1") ≤ 500000000 ∧
      getTxRate updatedAtZero ("172.16.1.1", "172.16.5.1") 500000000 = 0 ∧
      (updatedAtZero.count ("172.16.1.1", "172.16.5.1") 7 500000000 0).txRates.rate
        ("172.16.1.1", "172.16.5.1") = 500 := by
  decide +kernel

end SDNware.Server
