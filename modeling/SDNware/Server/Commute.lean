/-
# SDNware.Server.Commute — the order in which connections are read does not matter.

`add_send_rec` keeps three numbers for every direction, and a record reads and writes those of the
directions it announces traffic for, at most two.  Seen through these cells (`Collector.cell`), which
determine the collector down to the order of its map, a record has the footprint `Sample.touches`
(`footprint_recordSample`).  Records with disjoint footprints therefore commute, and the rates depend
on the sequence of records of each connection only, not on how the polls of `main` interleave the
connections or cut their streams into batches (`main_confluent`).
-/
import SDNware.Lib.Interleave
import SDNware.Server.Main
import SDNware.Server.Updates

namespace SDNware.Server

open SDNware.Wire Interleave

/-! ## §1 — cells -/

section Cells

variable {R : Type}

/-- What the collector holds of a direction, and whether `txRates` has its key. -/
def Collector.cell (c : Collector R) (p : Flow) : (Int × Int × R) × Prop :=
  (c.entry p, toLex p ∈ c.txRates.keys)

theorem RateMap.ext_of_mem {m m' : RateMap R} (hkeys : ∀ q, q ∈ m.keys ↔ q ∈ m'.keys)
    (hrate : m.rate = m'.rate) : m = m' := by
  obtain ⟨keys, sorted, nodup, rate⟩ := m
  obtain ⟨keys', sorted', nodup', rate'⟩ := m'
  obtain rfl : rate = rate' := hrate
  -- two sorted lists without repetition and with the same elements
  obtain rfl : keys = keys' :=
    ((List.perm_ext_iff_of_nodup nodup nodup').mpr hkeys).eq_of_pairwise
      (fun a b _ _ hab hba => le_antisymm hab hba) sorted sorted'
  rfl

/-- The cells determine the collector. -/
theorem cell_injective : Function.Injective (Collector.cell (R := R)) := by
  intro c c' h
  have hentry : ∀ p, c.entry p = c'.entry p := fun p => congrArg Prod.fst (congrFun h p)
  have hkeys : ∀ q, q ∈ c.txRates.keys ↔ q ∈ c'.txRates.keys := fun q =>
    iff_of_eq (congrArg Prod.snd (congrFun h (ofLex q)))
  have hrates : c.txRates = c'.txRates :=
    RateMap.ext_of_mem hkeys (funext fun p => congrArg (fun e => e.2.2) (hentry p))
  obtain ⟨last, upd, rates⟩ := c
  obtain ⟨last', upd', rates'⟩ := c'
  obtain rfl : last = last' := funext fun p => congrArg Prod.fst (hentry p)
  obtain rfl : upd = upd' := funext fun p => congrArg (fun e => e.2.1) (hentry p)
  obtain rfl : rates = rates' := hrates
  rfl

end Cells

/-! ## §2 — footprints -/

section Footprints

variable {R : Type} [DoubleOps R]

theorem cell_count_of_ne (c : Collector R) {p q : Flow} (h : q ≠ p) (tm : UInt64) (now : Int)
    (speed : R) : (c.count p tm now speed).cell q = c.cell q := by
  unfold Collector.cell
  rw [entry_count_of_ne c h]
  congr 1
  show (toLex q ∈ RateMap.insertKey c.txRates.keys p) = _
  rw [RateMap.mem_insertKey]
  exact propext (or_iff_right fun heq => h (toLex.injective heq))

theorem cell_count_self (c : Collector R) (p : Flow) (tm : UInt64) (now : Int) (speed : R) :
    (c.count p tm now speed).cell p
      = ((toInt64 tm.toNat, now, windowRate (c.entry p).2.2 (clipDt (now - (c.entry p).2.1)) speed),
          True) := by
  unfold Collector.cell
  rw [entry_count_self]
  congr 1
  show (toLex p ∈ RateMap.insertKey c.txRates.keys p) = _
  rw [RateMap.mem_insertKey]
  exact eq_true (Or.inl rfl)

/-- A block touches the direction it is about, if it announces enough. -/
theorem footprint_rateBlock (speedOf : UInt64 → Int → R) (p : Flow) (bytes tm : UInt64) (now : Int) :
    Footprint Collector.cell {q | q = p ∧ bytes > 4096} fun c =>
      (rateBlock speedOf c p bytes tm now).getD c where
  writes := by
    intro c q hq
    rcases rateBlock_cases speedOf c p bytes tm now with ⟨-, hb⟩ | ⟨-, -, hb⟩ | ⟨hbig, -, hb⟩
    · rw [hb, Option.getD_some]
    · rw [hb, Option.getD_none]
    · rw [hb, Option.getD_some, cell_count_of_ne c fun hqp => hq ⟨hqp, hbig⟩]
  reads := by
    rintro c c' h q ⟨rfl, hbig⟩
    have hcell := h q ⟨rfl, hbig⟩
    have hentry : c.entry q = c'.entry q := congrArg Prod.fst hcell
    have hdt := flowDt_congr hentry tm
    rcases rateBlock_cases speedOf c q bytes tm now with ⟨hsmall, -⟩ | ⟨-, hle, hb⟩ | ⟨-, hlt, hb⟩
    · exact absurd hbig hsmall
    · rcases rateBlock_cases speedOf c' q bytes tm now with ⟨hsmall, -⟩ | ⟨-, -, hb'⟩ | ⟨-, hlt, -⟩
      · exact absurd hbig hsmall
      · rw [hb, hb']
        exact hcell
      · exact absurd (hdt ▸ hle) hlt.not_ge
    · rcases rateBlock_cases speedOf c' q bytes tm now with ⟨hsmall, -⟩ | ⟨-, hle, -⟩ | ⟨-, -, hb'⟩
      · exact absurd hbig hsmall
      · exact absurd (hdt ▸ hlt) hle.not_gt
      · rw [hb, hb', Option.getD_some, Option.getD_some, cell_count_self, cell_count_self, hentry, hdt]

/-- The directions a record announces traffic for. -/
def Sample.touches (a : Sample) : Set Flow :=
  {q | q = (cStr a.amount.ip, cStr a.amount.gid) ∧ a.amount.tx > 4096} ∪
    {q | q = (cStr a.amount.gid, cStr a.amount.ip) ∧ a.amount.rx > 4096}

/-- A record is its outgoing block and then its incoming one, unless the outgoing one is refused. -/
theorem recordSample_eq (E : Env) (c : Collector R) (a : Sample) :
    recordSample E c a =
      if E.checkIp (cStr a.amount.gid) = true ∧
          ¬ c.Refuses (cStr a.amount.ip, cStr a.amount.gid) a.amount.tx a.amount.tm then
        (fun c' => (rateBlock rxSpeed c' (cStr a.amount.gid, cStr a.amount.ip) a.amount.rx a.amount.tm
          a.nowRx).getD c')
          ((rateBlock txSpeed c (cStr a.amount.ip, cStr a.amount.gid) a.amount.tx a.amount.tm
            a.nowTx).getD c)
      else c := by
  unfold recordSample
  by_cases hreg : E.checkIp (cStr a.amount.gid) = true
  · simp only [hreg, if_true, true_and]
    rcases rateBlock_cases txSpeed c (cStr a.amount.ip, cStr a.amount.gid) a.amount.tx a.amount.tm
        a.nowTx with ⟨hsmall, hb⟩ | ⟨hbig, hle, hb⟩ | ⟨-, hlt, hb⟩
    · rw [hb, if_pos fun h => hsmall h.1, Option.getD_some]
    · rw [hb, if_neg (not_not.mpr ⟨hbig, hle⟩)]
    · rw [hb, if_pos fun h => hlt.not_ge h.2, Option.getD_some]
  · simp only [hreg, Bool.false_eq_true, if_false, false_and]

/-- **A record touches the directions it announces traffic for.** -/
theorem footprint_recordSample (E : Env) (a : Sample) :
    Footprint (Collector.cell (R := R)) a.touches fun c => recordSample E c a := by
  have heq : (fun c : Collector R => recordSample E c a) = _ := funext fun c => recordSample_eq E c a
  rw [heq]
  refine Footprint.ite ?_ (Footprint.id _ _) ?_
  · exact ((footprint_rateBlock rxSpeed _ _ _ _).mono Set.subset_union_right).comp
      ((footprint_rateBlock txSpeed _ _ _ _).mono Set.subset_union_left)
  · -- whether the outgoing announcement is refused can be read from its own cell
    intro c c' h
    unfold Collector.Refuses
    by_cases hbig : a.amount.tx > 4096
    · have hcell := h _ (Or.inl ⟨rfl, hbig⟩)
      rw [flowDt_congr (congrArg Prod.fst hcell)]
    · simp only [hbig, false_and]

/-- Records about different directions commute. -/
theorem recordSample_comm (E : Env) {a b : Sample} (h : Disjoint a.touches b.touches)
    (c : Collector R) :
    recordSample E (recordSample E c a) b = recordSample E (recordSample E c b) a :=
  (Footprint.comm cell_injective (footprint_recordSample E b) (footprint_recordSample E a) h.symm c)

end Footprints

/-! ## §3 — batches of several connections -/

section Batches

variable {R : Type} [DoubleOps R] {E : Env}

/-- The records of some batches, each with its connection. -/
def records (handed : List (Nat × List Sample)) : List (Nat × Sample) :=
  handed.flatMap fun b => b.2.map fun a => (b.1, a)

/-- The records a connection has delivered. -/
def delivery (handed : List (Nat × List Sample)) (k : Nat) : List Sample := stream k (records handed)

/-- Without an empty destination a batch is its records one by one. -/
theorem addSendRec_eq_foldl : ∀ {xs : List Sample}, (∀ a ∈ xs, cStr a.amount.gid ≠ "") →
    ∀ c : Collector R, addSendRec E c xs = xs.foldl (recordSample E) c
  | [], _, _ => rfl
  | a :: xs, h, c => by
      obtain ⟨ha, hxs⟩ := List.forall_mem_cons.mp h
      rw [addSendRec, if_neg ha, List.foldl_cons]
      exact addSendRec_eq_foldl hxs _

theorem handed_eq_foldl : ∀ {handed : List (Nat × List Sample)},
    (∀ x ∈ records handed, cStr x.2.amount.gid ≠ "") → ∀ c : Collector R,
      handed.foldl (fun c b => addSendRec E c b.2) c
        = (records handed).foldl (fun c x => recordSample E c x.2) c
  | [], _, _ => rfl
  | b :: handed, h, c => by
      unfold records at h ⊢
      rw [List.flatMap_cons] at h ⊢
      obtain ⟨hb, hrest⟩ := List.forall_mem_append.mp h
      have hb' : ∀ a ∈ b.2, cStr a.amount.gid ≠ "" := fun a ha =>
        hb (b.1, a) (List.mem_map_of_mem ha)
      rw [List.foldl_cons, List.foldl_append, List.foldl_map, addSendRec_eq_foldl hb']
      exact handed_eq_foldl hrest _

/-- Batches of several connections whose records are about different directions. -/
theorem handed_confluent {handed handed' : List (Nat × List Sample)}
    (hgid : ∀ x ∈ records handed, cStr x.2.amount.gid ≠ "")
    (hdisj : ∀ x ∈ records handed, ∀ y ∈ records handed, x.1 ≠ y.1 →
      Disjoint x.2.touches y.2.touches)
    (hsame : ∀ k, delivery handed k = delivery handed' k) (c : Collector R) :
    handed.foldl (fun c b => addSendRec E c b.2) c
      = handed'.foldl (fun c b => addSendRec E c b.2) c := by
  have hgid' : ∀ x ∈ records handed', cStr x.2.amount.gid ≠ "" := by
    rintro ⟨k, a⟩ hx
    refine hgid (k, a) (mem_stream.mp ?_)
    show a ∈ delivery handed k
    rw [hsame k]
    exact mem_stream.mpr hx
  rw [handed_eq_foldl hgid, handed_eq_foldl hgid']
  refine foldl_eq ?_ hsame c
  exact fun x hx y hy hxy c => recordSample_comm E (hdisj x hx y hy hxy) c

/-- **The rates do not depend on the order of the polls.** Take two runs of `main`, with any numbers of
connections, rounds and polls, in which every connection delivers the same records with the same clock
readings, cut into polls in any way.  If no record has an empty destination and records of different
connections announce traffic for different directions, then the two collectors are the same. -/
theorem main_confluent (start start' : Int) (es es' : List MainEvent) (m m' : Main R)
    (hrun : es.foldlM (Main.step E) (Main.init E start) = some m)
    (hrun' : es'.foldlM (Main.step E) (Main.init E start') = some m')
    (hgid : ∀ x ∈ records m.handed, cStr x.2.amount.gid ≠ "")
    (hdisj : ∀ x ∈ records m.handed, ∀ y ∈ records m.handed, x.1 ≠ y.1 →
      Disjoint x.2.touches y.2.touches)
    (hsame : ∀ k, delivery m.handed k = delivery m'.handed k) :
    m.state.collector = m'.state.collector := by
  rw [collector_eq_handed start es m hrun, collector_eq_handed start' es' m' hrun']
  exact handed_confluent hgid hdisj hsame _

/-- A poll that delivers one record. -/
def pollOf (a : Amount) : Poll where
  results := [.data a.toBytes, .again]
  fits := by
    simp only [ReadsFit, Amount.toBytes_length]
    decide

theorem readRecords_pollOf (a : Amount) : readRecords (pollOf a) = [a] := by
  have hstream : readStream [pollOf a] = wire [a] := by
    simp [readStream, Poll.bytes, pollOf, delivered, wire]
  have hwhole : ∀ p ∈ [pollOf a], p.Whole := by
    intro p hp
    rw [List.mem_singleton.mp hp]
    show sizeofAmount ∣ (a.toBytes ++ []).length
    rw [List.append_nil, Amount.toBytes_length]
  have hbegin : readStream [pollOf a] <+: wire [a] := ⟨[], by rw [List.append_nil, hstream]⟩
  have hread := received_of_whole hbegin hwhole
  rw [hstream, wire_length] at hread
  simpa [received, sizeofAmount] using hread

/-- Records of two hosts. -/
def hostA : Sample := { sampleFrom "172.16.1.1" 5000 with nowTx := 0, nowRx := 0 }

def hostB : Sample := { sampleFrom "172.16.1.2" 6000 with nowTx := 0, nowRx := 0 }

theorem disjoint_hosts : Disjoint hostA.touches hostB.touches := by
  have hip : cStr hostA.amount.ip ≠ cStr hostB.amount.ip := by decide +kernel
  rw [Set.disjoint_left]
  rintro q (⟨rfl, -⟩ | ⟨-, hrx⟩) (⟨heq, -⟩ | ⟨-, hrx'⟩)
  · exact hip (Prod.mk.inj heq).1
  · exact absurd hrx' (by decide +kernel)
  · exact absurd hrx (by decide +kernel)
  · exact absurd hrx (by decide +kernel)

/-- Both records in one iteration. -/
def together : List MainEvent :=
  [.accept, .accept, .clock 0 0 fun _ => 0, .poll (pollOf hostA.amount) fun _ => (0, 0),
    .poll (pollOf hostB.amount) fun _ => (0, 0)]

/-- A poll that finds nothing. -/
def emptyPoll : Poll := ⟨[.again], trivial⟩

/-- The second host's record first. -/
def apart : List MainEvent :=
  [.accept, .accept, .clock 0 0 fun _ => 0, .poll emptyPoll fun _ => (0, 0),
    .poll (pollOf hostB.amount) fun _ => (0, 0), .done,
    .clock 0 0 fun _ => 0, .poll (pollOf hostA.amount) fun _ => (0, 0)]

theorem main_confluent_twoHosts :
    ∃ m m' : Main ℚ, together.foldlM (Main.step twoLeaves) (Main.init twoLeaves 0) = some m ∧
      apart.foldlM (Main.step twoLeaves) (Main.init twoLeaves 0) = some m' ∧
      records m.handed ≠ records m'.handed ∧ m.state.collector = m'.state.collector := by
  have hread : ∀ a : Sample, a.nowTx = 0 → a.nowRx = 0 →
      stamped (readRecords (pollOf a.amount)) (fun _ => (0, 0)) = [a] := by
    rintro ⟨a, tx, rx⟩ rfl rfl
    rw [readRecords_pollOf]
    rfl
  obtain ⟨m, hrun, hm⟩ : ∃ m : Main ℚ,
      together.foldlM (Main.step twoLeaves) (Main.init twoLeaves 0) = some m ∧
        records m.handed = [(0, hostA), (1, hostB)] := by
    refine ⟨_, rfl, ?_⟩
    simp [Main.init, Main.pollStep, records, hread hostA rfl rfl, hread hostB rfl rfl]
  obtain ⟨m', hrun', hm'⟩ : ∃ m : Main ℚ,
      apart.foldlM (Main.step twoLeaves) (Main.init twoLeaves 0) = some m ∧
        records m.handed = [(1, hostB), (0, hostA)] := by
    refine ⟨_, rfl, ?_⟩
    have hempty : stamped (readRecords emptyPoll) (fun _ => (0, 0)) = [] := by
      rw [readRecords_eq]
      rfl
    simp [Main.init, Main.pollStep, records, hread hostA rfl rfl, hread hostB rfl rfl, hempty]
  refine ⟨m, m', hrun, hrun', by simp [hm, hm'], ?_⟩
  refine main_confluent 0 0 together apart m m' hrun hrun' ?_ ?_ ?_
  · rw [hm]
    decide +kernel
  · rw [hm]
    simp [disjoint_hosts, disjoint_hosts.symm]
  · intro k
    unfold delivery
    rw [hm, hm']
    rcases k with _ | _ | k <;> rfl

end Batches

end SDNware.Server
