/-
# SDNware.Server.Collector — `add_send_rec`, from received records to transmission rates.

For every ordered pair of ips the server keeps the time stamp of the last record, the clock reading
of the last update and a rate.  A record `(ip, gid, tx, rx, tm)` announces `tx` bytes from `ip` to
`gid` and `rx` bytes back; each announcement above 4096 bytes moves the rate of its direction by a
one-second sliding window.  Rates are `double`s: the model is generic in their arithmetic
(`DoubleOps`), with the exact one on `ℚ` as an instance.

The loop leaves a record in two ways: a destination that is not registered skips the record, an
empty one ends the batch.  `addSendRec_append_iff` says what the second costs: a batch can be cut
after `xs` without a difference exactly when `xs` has no empty destination, or when no destination
is registered at all.
-/
import Mathlib.Data.Prod.Lex
import Mathlib.Data.List.Sort
import Mathlib.Algebra.Order.Ring.Rat
import SDNware.Wire.Amount
import SDNware.Server.Topology

namespace SDNware.Server

open SDNware.Wire

/-! ## §1 — rates -/

/-- The operations on `double` the server uses. -/
class DoubleOps (R : Type) where
  /-- The conversion from an integer. -/
  ofInt : Int → R
  add : R → R → R
  mul : R → R → R
  div : R → R → R
  lt : R → R → Bool
  /-- The conversion to `long long`. -/
  toInt : R → Int

/-- Exact arithmetic. -/
instance : DoubleOps ℚ where
  ofInt := Int.cast
  add := (· + ·)
  mul := (· * ·)
  div := (· / ·)
  lt a b := decide (a < b)
  toInt q := q.num.tdiv q.den

/-- `txRates`: the keys that have been assigned, in the order in which `std::map` iterates over
them, and the rates, 0 for absent keys. -/
structure RateMap (R : Type) where
  keys : List (String ×ₗ String)
  sorted : keys.Pairwise (· ≤ ·)
  nodup : keys.Nodup
  rate : Flow → R

namespace RateMap

variable {R : Type}

/-- The keys with one more. -/
def insertKey (keys : List (String ×ₗ String)) (p : Flow) : List (String ×ₗ String) :=
  if toLex p ∈ keys then keys else keys.orderedInsert (· ≤ ·) (toLex p)

theorem mem_insertKey {keys : List (String ×ₗ String)} {p : Flow} {q : String ×ₗ String} :
    q ∈ insertKey keys p ↔ q = toLex p ∨ q ∈ keys := by
  unfold insertKey
  split
  · rename_i hmem
    refine ⟨Or.inr, fun h => ?_⟩
    rcases h with rfl | h
    · exact hmem
    · exact h
  · exact List.mem_orderedInsert _

/-- `txRates[p.1][p.2] = v`. -/
def set (m : RateMap R) (p : Flow) (v : R) : RateMap R where
  keys := insertKey m.keys p
  sorted := by
    unfold insertKey
    split
    · exact m.sorted
    · exact m.sorted.orderedInsert _ _
  nodup := by
    unfold insertKey
    split
    · exact m.nodup
    · rename_i hnew
      exact (List.perm_orderedInsert _ _ _).nodup_iff.mpr (List.nodup_cons.mpr ⟨hnew, m.nodup⟩)
  rate := Function.update m.rate p v

/-- The empty map. -/
def empty [DoubleOps R] : RateMap R := ⟨[], List.Pairwise.nil, List.nodup_nil, fun _ => DoubleOps.ofInt 0⟩

end RateMap

/-! ## §2 — the collector -/

/-- `win_s`. -/
def winS : Int := 1000000000

/-- The collector's state. -/
structure Collector (R : Type) where
  timeLastFlow : Flow → Int
  timeRateUpdate : Flow → Int
  txRates : RateMap R

/-- A received record, with the clock readings taken while it is processed. -/
structure Sample where
  amount : Amount
  nowTx : Int
  nowRx : Int

/-- The conversion of a 64-bit difference to `long long`. -/
def toInt64 (n : Int) : Int := n.bmod (2 ^ 64)

section Blocks

variable {R : Type} [DoubleOps R]

/-- The collector at start-up. -/
def Collector.init : Collector R := ⟨fun _ => 0, fun _ => 0, RateMap.empty⟩

/-- `speed` of the outgoing block: an unsigned 64-bit division. -/
def txSpeed (tx : UInt64) (flowDt : Int) : R :=
  DoubleOps.ofInt (((tx * 8 * 1000000000).toNat / flowDt.toNat : Nat) : Int)

/-- `speed` of the incoming block: a division of doubles. -/
def rxSpeed (rx : UInt64) (flowDt : Int) : R :=
  DoubleOps.div (DoubleOps.ofInt ((rx * 8 * 1000000000).toNat : Int)) (DoubleOps.ofInt flowDt)

/-- The sliding-window update. -/
def windowRate (rate : R) (dt : Int) (speed : R) : R :=
  DoubleOps.div
    (DoubleOps.add (DoubleOps.mul (DoubleOps.ofInt (winS - dt)) rate)
      (DoubleOps.mul (DoubleOps.ofInt dt) speed))
    (DoubleOps.ofInt winS)

/-- One block of the loop body, for the direction `p`; `none` is its `continue`. -/
def rateBlock (speedOf : UInt64 → Int → R) (c : Collector R) (p : Flow) (bytes tm : UInt64)
    (now : Int) : Option (Collector R) :=
  if bytes > 4096 then
    let flowDt := toInt64 (tm.toNat - c.timeLastFlow p)
    if flowDt ≤ 0 then none
    else
      let dt := now - c.timeRateUpdate p
      some
        { timeLastFlow := Function.update c.timeLastFlow p (toInt64 tm.toNat)
          timeRateUpdate := Function.update c.timeRateUpdate p now
          txRates := c.txRates.set p
            (windowRate (c.txRates.rate p) (if dt > winS then winS else dt) (speedOf bytes flowDt)) }
  else some c

/-- The loop body after the test for an empty destination. -/
def recordSample (E : Env) (c : Collector R) (a : Sample) : Collector R :=
  let sip := cStr a.amount.ip
  let dip := cStr a.amount.gid
  if E.checkIp dip then
    match rateBlock txSpeed c (sip, dip) a.amount.tx a.amount.tm a.nowTx with
    | none => c
    | some c' => (rateBlock rxSpeed c' (dip, sip) a.amount.rx a.amount.tm a.nowRx).getD c'
  else c

/-- `add_send_rec`. -/
def addSendRec (E : Env) (c : Collector R) : List Sample → Collector R
  | [] => c
  | a :: rest => if cStr a.amount.gid = "" then c else addSendRec E (recordSample E c a) rest

end Blocks

/-! ## §3 — cutting a batch -/

section Split

variable {R : Type} [DoubleOps R] {E : Env}

/-- Without an empty destination the batch is the fold of its records. -/
theorem addSendRec_append {xs : List Sample} (h : ∀ a ∈ xs, cStr a.amount.gid ≠ "")
    (c : Collector R) (ys : List Sample) :
    addSendRec E c (xs ++ ys) = addSendRec E (addSendRec E c xs) ys := by
  induction xs generalizing c with
  | nil => rfl
  | cons a xs ih =>
    have ha := h a List.mem_cons_self
    simp only [List.cons_append, addSendRec, if_neg ha]
    exact ih (fun b hb => h b (List.mem_cons_of_mem a hb)) _

/-- After an empty destination nothing more is read. -/
theorem addSendRec_append_of_empty {xs : List Sample} (h : ∃ a ∈ xs, cStr a.amount.gid = "")
    (c : Collector R) (ys : List Sample) : addSendRec E c (xs ++ ys) = addSendRec E c xs := by
  induction xs generalizing c with
  | nil => obtain ⟨a, ha, -⟩ := h; exact absurd ha (by simp)
  | cons a xs ih =>
    simp only [List.cons_append, addSendRec]
    by_cases ha : cStr a.amount.gid = ""
    · rw [if_pos ha, if_pos ha]
    · rw [if_neg ha, if_neg ha]
      obtain ⟨b, hb, hempty⟩ := h
      rcases List.mem_cons.mp hb with rfl | hb
      · exact absurd hempty ha
      · exact ih ⟨b, hb, hempty⟩ _

/-- With no destination registered a batch does nothing. -/
theorem addSendRec_unregistered
    (h : ∀ gid : CharArray 16, cStr gid ≠ "" → E.checkIp (cStr gid) = false)
    (c : Collector R) (ys : List Sample) : addSendRec E c ys = c := by
  induction ys generalizing c with
  | nil => rfl
  | cons a ys ih =>
    unfold addSendRec
    split
    · rfl
    · rename_i hgid
      have hskip : recordSample E c a = c := by
        unfold recordSample
        simp only [h a.amount.gid hgid, Bool.false_eq_true, if_false]
      rw [hskip]
      exact ih c

theorem toInt64_add_one_ne (n : Int) : toInt64 (n + 1) ≠ n := by
  unfold toInt64
  intro h
  have hdvd : ((2 ^ 64 : Nat) : Int) ∣ (n + 1) - (n + 1).bmod (2 ^ 64) := Int.dvd_self_sub_bmod
  rw [h] at hdvd
  omega

theorem toNat_ofInt (n : Int) : ((UInt64.ofInt n).toNat : Int) = n % 2 ^ 64 := by
  have hpos : 0 ≤ n % 2 ^ 64 := Int.emod_nonneg n (by decide)
  have hlt : n % 2 ^ 64 < 2 ^ 64 := Int.emod_lt_of_pos n (by decide)
  unfold UInt64.ofInt
  rw [UInt64.toNat_ofNat', Nat.mod_eq_of_lt (by omega), Int.toNat_of_nonneg hpos]

/-- A time stamp one tick after `n` is one tick after `n`, whatever wraps around. -/
theorem toInt64_ofInt_succ_sub (n : Int) : toInt64 ((UInt64.ofInt (n + 1)).toNat - n) = 1 := by
  unfold toInt64
  rw [toNat_ofInt, Int.bmod_def]
  split <;> omega

theorem toInt64_toNat_ofInt (n : Int) : toInt64 (UInt64.ofInt n).toNat = toInt64 n := by
  unfold toInt64
  rw [toNat_ofInt]
  exact Int.emod_bmod n (2 ^ 64)

/-- A record one tick after the last one of its pair. -/
def nextSample (c : Collector R) (gid : CharArray 16) : Sample where
  amount :=
    { gid := gid
      name := CharArray.fit 64 []
      ip := CharArray.fit 32 []
      tx := 4097
      rx := 0
      tm := UInt64.ofInt (c.timeLastFlow (cStr (CharArray.fit 32 []), cStr gid) + 1) }
  nowTx := 0
  nowRx := 0

theorem rateBlock_of_small (speedOf : UInt64 → Int → R) (c : Collector R) (p : Flow)
    {bytes : UInt64} (h : ¬ bytes > 4096) (tm : UInt64) (now : Int) :
    rateBlock speedOf c p bytes tm now = some c := by
  unfold rateBlock
  rw [if_neg h]

/-- An accepted announcement stamps its pair. -/
theorem rateBlock_accepted (speedOf : UInt64 → Int → R) (c : Collector R) (p : Flow)
    {bytes tm : UInt64} (h : bytes > 4096) (hdt : 0 < toInt64 (tm.toNat - c.timeLastFlow p))
    (now : Int) : ∃ c', rateBlock speedOf c p bytes tm now = some c' ∧
      c'.timeLastFlow p = toInt64 tm.toNat := by
  unfold rateBlock
  rw [if_pos h]
  simp only [if_neg (not_le.mpr hdt)]
  exact ⟨_, rfl, Function.update_self ..⟩

/-- The next record, with a registered destination, is always counted. -/
theorem recordSample_nextSample (c : Collector R) {gid : CharArray 16}
    (h : E.checkIp (cStr gid) = true) : recordSample E c (nextSample c gid) ≠ c := by
  set p : Flow := (cStr (CharArray.fit 32 []), cStr gid) with hp
  have hdt : 0 < toInt64 ((UInt64.ofInt (c.timeLastFlow p + 1)).toNat - c.timeLastFlow p) := by
    rw [toInt64_ofInt_succ_sub]
    decide
  obtain ⟨c', hc', hlast⟩ :=
    rateBlock_accepted txSpeed c p (show (4097 : UInt64) > 4096 by decide) hdt 0
  have hrecord : recordSample E c (nextSample c gid) = c' := by
    unfold recordSample
    simp only [nextSample, h, if_true, ← hp, hc']
    rw [rateBlock_of_small rxSpeed c' _ (by decide), Option.getD_some]
  intro heq
  rw [hrecord] at heq
  rw [heq, toInt64_toNat_ofInt] at hlast
  exact toInt64_add_one_ne _ hlast.symm

/-- **Cutting a batch.** For every first part `xs`: processing `xs ++ ys` in one call is processing
`xs` and then `ys`, from every state and for every `ys`, if and only if no record of `xs` has an
empty destination, or no destination at all is registered. -/
theorem addSendRec_append_iff (E : Env) (xs : List Sample) :
    (∀ (c : Collector R) (ys : List Sample),
        addSendRec E c (xs ++ ys) = addSendRec E (addSendRec E c xs) ys) ↔
      (∀ a ∈ xs, cStr a.amount.gid ≠ "") ∨
        ∀ gid : CharArray 16, cStr gid ≠ "" → E.checkIp (cStr gid) = false := by
  constructor
  · intro hcut
    by_contra hnot
    rw [not_or] at hnot
    push Not at hnot
    obtain ⟨hempty, gid, hgid, hreg⟩ := hnot
    -- the record right after the empty one is lost in the single call and counted in the second
    set c := addSendRec E (Collector.init (R := R)) xs with hc
    have hone := hcut Collector.init [nextSample c gid]
    rw [addSendRec_append_of_empty hempty, ← hc] at hone
    simp only [addSendRec, show (nextSample c gid).amount.gid = gid from rfl, if_neg hgid] at hone
    exact recordSample_nextSample c (by simpa using hreg) hone.symm
  · rintro (hgid | hnone) c ys
    · exact addSendRec_append hgid c ys
    · rw [addSendRec_unregistered hnone, addSendRec_unregistered hnone,
        addSendRec_unregistered hnone]

/-- One registered server. -/
def oneServer : Env where
  nodes := []
  linklist := []
  interfaces := []
  serverList := [("Leaf1", [⟨"172.16.5.1", "1", 100⟩])]
  eraseEnd := eraseLast
  assignsRecycled := false

/-- A record with the given destination. -/
def sampleTo (gid : String) : Sample :=
  ⟨⟨strncpy 16 gid, strncpy 64 "mlx5_0", strncpy 32 "172.16.1.1", 5000, 66, 1000⟩, 2000, 2000⟩

/-- A record with an empty destination hides the next one from a batch. -/
theorem addSendRec_cut_differs :
    ¬ ∀ (c : Collector ℚ) (xs ys : List Sample),
      addSendRec oneServer c (xs ++ ys) = addSendRec oneServer (addSendRec oneServer c xs) ys := by
  intro hcut
  have hone := congrArg (fun c => c.timeLastFlow ("172.16.1.1", "172.16.5.1"))
    (hcut Collector.init [sampleTo ""] [sampleTo "172.16.5.1"])
  revert hone
  decide +kernel

end Split

end SDNware.Server
