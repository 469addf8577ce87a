/-
# SDNware.Host.DestCache — when the destination cache of `flow_forecast` can be observed.

The host is the shared segment together with the current destination of every queue pair.  Its
events are posts, by queue pairs of any device and process, and re-connections.  The cache is an
instance of `Lib.DirectMapped`: the key is the queue pair NUMBER, the answer what `ibv_query_qp`
reports, and nothing invalidates a line when a queue pair is connected elsewhere or when a queue
pair of another device has the same number.

`cache_coherent_iff` characterises the histories in which every destination used is the current one,
by the history alone, and says that in those histories the ring is the one the uncached function
would have produced.
-/
import SDNware.Lib.DirectMapped
import SDNware.Lib.Run
import SDNware.Host.Forecast

namespace SDNware.Host

open SDNware.Wire

/-! ## §1 — the host -/

/-- The segment, the queue pairs' current attributes, and the calls made so far that got past the
size test: the queue pair's number and what `ibv_query_qp` would have returned. -/
structure HostState where
  shm : Shm
  attr : Qp → QpAttr
  calls : List (UInt32 × QpAttr)

/-- A post, or a re-connection. -/
inductive HostEvent
  | post (q : Qp) (wr : List SendWr) (now : Timespec)
  | connect (q : Qp) (attr : QpAttr)

/-- The calls after a post. -/
def HostState.logPost (s : HostState) (q : Qp) (wr : List SendWr) : List (UInt32 × QpAttr) :=
  if flowSize wr < 1024 then s.calls else s.calls ++ [(q.qpNum, s.attr q)]

/-- One event, with `forecast` in the place of `flow_forecast`. -/
def HostState.stepWith
    (forecast : Shm → Qp → QpAttr → List SendWr → Timespec → Option Shm) (s : HostState) :
    HostEvent → Option HostState
  | .post q wr now => (forecast s.shm q (s.attr q) wr now).map fun m =>
      { s with shm := m, calls := s.logPost q wr }
  | .connect q attr => some { s with attr := Function.update s.attr q attr }

/-- One event of the host. -/
def HostState.step : HostState → HostEvent → Option HostState := HostState.stepWith flowForecast

/-- One event of the host without the cache. -/
def HostState.stepUncached : HostState → HostEvent → Option HostState :=
  HostState.stepWith flowForecastUncached

/-- The host right after `alloc_shared_memory`. -/
def HostState.init (attr : Qp → QpAttr) : HostState := ⟨allocSharedMemory, attr, []⟩

/-- What the client sees of the segment. -/
def HostState.ring (s : HostState) : Nat × Nat × (Nat → Amount) := (s.shm.t, s.shm.h, s.shm.amount)

/-- The destination used by the call is the one `ibv_query_qp` would report. -/
def HostState.Coherent (s : HostState) : HostEvent → Prop
  | .post q wr _ => 1024 ≤ flowSize wr →
      (cacheLookup s.shm q.qpNum (s.attr q)).map Prod.snd = queryDestination (s.attr q)
  | .connect _ _ => True

/-- The last call through the line of a queue pair number. -/
def HostState.lastCall (s : HostState) (qpNum : UInt32) : Option (UInt32 × QpAttr) :=
  s.calls.reverse.find? fun call => cacheKey call.1 = cacheKey qpNum

/-- The call does not reach its line with a number the line knows under another destination: if the
last call through the line had the same number, its destination was the present one; a first call
through the line has a number other than 0, or the all-zero destination. -/
def HostState.Fresh (s : HostState) : HostEvent → Prop
  | .post q wr _ => 1024 ≤ flowSize wr →
      match s.lastCall q.qpNum with
      | none => q.qpNum = 0 → queryDestination (s.attr q) = some ⟨0, CharArray.fit 16 []⟩
      | some call => call.1 = q.qpNum → queryDestination (s.attr q) = queryDestination call.2
  | .connect _ _ => True

instance (s : HostState) : ∀ e, Decidable (s.Coherent e)
  | .post q wr _ => inferInstanceAs (Decidable (1024 ≤ flowSize wr →
      (cacheLookup s.shm q.qpNum (s.attr q)).map Prod.snd = queryDestination (s.attr q)))
  | .connect _ _ => isTrue trivial

/-! ## §2 — the cache as a direct-mapped cache -/

/-- A line as its reader sees it. -/
def Cache.line (c : Cache) : UInt32 × Destination := (c.qpNum, ⟨c.pathMtu, strncpy 16 (cStr c.gid)⟩)

/-- The calls with their answers. -/
def answers (calls : List (UInt32 × QpAttr)) : List (UInt32 × Option Destination) :=
  calls.map fun call => (call.1, queryDestination call.2)

/-- The zeroed cache as its reader sees it. -/
def zeroLine (_ : Nat) : UInt32 × Destination := (0, ⟨0, CharArray.fit 16 []⟩)

theorem line_alloc : (fun i => (allocSharedMemory.cache i).line) = zeroLine := by
  funext i
  show Cache.line ⟨0, 0, CharArray.fit 16 []⟩ = zeroLine 0
  decide +kernel

/-- A reported destination survives the copy into the line and back. -/
theorem line_of_query {attr : QpAttr} {d : Destination} (h : queryDestination attr = some d)
    (qpNum : UInt32) : Cache.line ⟨qpNum, d.pathMtu, strncpy 16 (cStr d.gid)⟩ = (qpNum, d) := by
  obtain ⟨gid, hgid, rfl⟩ := Option.map_eq_some_iff.mp h
  unfold gidText at hgid
  split at hgid
  · obtain rfl := Option.some.inj hgid
    simp only [Cache.line, strncpy_cStr_strncpy]
  · exact absurd hgid (by simp)

/-- `cacheLookup` is the library's lookup; it touches nothing but the cache. -/
theorem cacheLookup_eq (m : Shm) (qpNum : UInt32) (attr : QpAttr) :
    (cacheLookup m qpNum attr).map (fun r => ((fun i => (r.1.cache i).line), r.2))
      = DirectMapped.lookup cacheKey (fun i => (m.cache i).line) qpNum (queryDestination attr) := by
  unfold cacheLookup DirectMapped.lookup
  by_cases hhit : (m.cache (cacheKey qpNum)).qpNum = qpNum
  · have hline : ((fun i => (m.cache i).line) (cacheKey qpNum)).1 = qpNum := hhit
    rw [if_pos hhit, if_pos hline]
    rfl
  · have hline : ((fun i => (m.cache i).line) (cacheKey qpNum)).1 ≠ qpNum := hhit
    rw [if_neg hhit, if_neg hline]
    cases hq : queryDestination attr with
    | none => rfl
    | some d =>
      simp only [Option.map_some, Option.some.injEq, Prod.mk.injEq, and_true]
      funext i
      rw [← line_of_query hq qpNum]
      exact Function.apply_update (fun _ => Cache.line) m.cache (cacheKey qpNum) _ i

/-- The segment with another cache. -/
def Shm.withCache (m : Shm) (cache : Nat → Cache) : Shm := { m with cache := cache }

theorem cacheLookup_ring {m : Shm} {qpNum : UInt32} {attr : QpAttr} {r : Shm × Destination}
    (h : cacheLookup m qpNum attr = some r) : r.1 = m.withCache r.1.cache := by
  unfold cacheLookup at h
  split at h
  · obtain rfl := Option.some.inj h
    rfl
  · obtain ⟨_, -, rfl⟩ := Option.map_eq_some_iff.mp h
    rfl

/-- The report reads and writes the ring only. -/
theorem report_withCache (m : Shm) (cache : Nat → Cache) (q : Qp) (d : Destination)
    (wr : List SendWr) (now : Timespec) :
    report (m.withCache cache) q d wr now = (report m q d wr now).withCache cache := by
  unfold report
  cases forecastEntry q d wr now <;> rfl

theorem report_cache (m : Shm) (q : Qp) (d : Destination) (wr : List SendWr) (now : Timespec) :
    (report m q d wr now).cache = m.cache := by
  unfold report
  cases forecastEntry q d wr now <;> rfl

/-- The lines hold the answers to the last calls. -/
def HostState.Tracks (s : HostState) : Prop :=
  DirectMapped.Tracks cacheKey zeroLine (answers s.calls) fun i => (s.shm.cache i).line

theorem tracks_init (attr : Qp → QpAttr) : (HostState.init attr).Tracks := by
  show DirectMapped.Tracks cacheKey zeroLine [] fun i => (allocSharedMemory.cache i).line
  rw [line_alloc]
  exact DirectMapped.tracks_nil cacheKey zeroLine

theorem lastCall_answers (s : HostState) (qpNum : UInt32) :
    DirectMapped.lastCall cacheKey (answers s.calls) (cacheKey qpNum)
      = (s.lastCall qpNum).map fun call => (call.1, queryDestination call.2) := by
  unfold DirectMapped.lastCall HostState.lastCall answers
  rw [← List.map_reverse, List.find?_map]
  simp only [Function.comp_def]

/-! ## §3 — one event -/

theorem coherent_iff_fresh {s : HostState} (hs : s.Tracks) (e : HostEvent) :
    s.Coherent e ↔ s.Fresh e := by
  cases e with
  | connect q attr => exact Iff.rfl
  | post q wr now =>
    refine imp_congr_right fun _ => ?_
    have hlib := DirectMapped.coherent_iff hs q.qpNum (queryDestination (s.attr q))
    rw [← cacheLookup_eq, Option.map_map] at hlib
    refine hlib.trans ?_
    unfold DirectMapped.Fresh
    rw [lastCall_answers]
    cases s.lastCall q.qpNum with
    | none =>
      simp only [Option.map_none, zeroLine]
      exact ⟨fun h h0 => h h0.symm, fun h h0 => h h0.symm⟩
    | some call => simp only [Option.map_some]

theorem tracks_step {s s' : HostState} {e : HostEvent} (hs : s.Tracks) (he : s.Coherent e)
    (h : s.step e = some s') : s'.Tracks := by
  cases e with
  | connect q attr =>
    obtain rfl := Option.some.inj h
    exact hs
  | post q wr now =>
    obtain ⟨m, hm, rfl⟩ := Option.map_eq_some_iff.mp h
    show DirectMapped.Tracks cacheKey zeroLine (answers (s.logPost q wr)) fun i => (m.cache i).line
    unfold flowForecast at hm
    unfold HostState.logPost
    by_cases hsmall : flowSize wr < 1024
    · rw [if_pos hsmall] at hm ⊢
      obtain rfl := Option.some.inj hm
      exact hs
    · rw [if_neg hsmall] at hm ⊢
      obtain ⟨⟨m₁, d⟩, hlook, rfl⟩ := Option.map_eq_some_iff.mp hm
      have hused : some d = queryDestination (s.attr q) := by
        rw [← he (by omega), hlook]
        rfl
      have hlib := cacheLookup_eq s.shm q.qpNum (s.attr q)
      rw [hlook] at hlib
      have htracks := DirectMapped.tracks_lookup hs hlib.symm hused
      rw [report_cache]
      simpa only [answers, List.map_append, List.map_cons, List.map_nil] using htracks

/-! ## §4 — every history -/

/-- Along any history, using current destinations throughout and having a fresh history are the same. -/
theorem along_coherent_iff : ∀ (es : List HostEvent) {s : HostState}, s.Tracks →
    (Run.Along HostState.step HostState.Coherent s es ↔ Run.Along HostState.step HostState.Fresh s es)
  | [], _, _ => Iff.rfl
  | e :: es, s, hs => by
      constructor
      · rintro ⟨he, hrest⟩
        refine ⟨(coherent_iff_fresh hs e).mp he, fun s' hs' => ?_⟩
        exact (along_coherent_iff es (tracks_step hs he hs')).mp (hrest s' hs')
      · rintro ⟨he, hrest⟩
        have hcoh := (coherent_iff_fresh hs e).mpr he
        refine ⟨hcoh, fun s' hs' => ?_⟩
        exact (along_coherent_iff es (tracks_step hs hcoh hs')).mpr (hrest s' hs')

/-- The two hosts differ in the cache only. -/
def SameRing (s u : HostState) : Prop :=
  u.shm = s.shm.withCache u.shm.cache ∧ u.attr = s.attr ∧ u.calls = s.calls

/-- A coherent event does the same to both hosts. -/
theorem step_sameRing (s u : HostState) (e : HostEvent) (hsu : SameRing s u) (he : s.Coherent e) :
    Option.Rel SameRing (s.step e) (u.stepUncached e) := by
  obtain ⟨hshm, hattr, hcalls⟩ := hsu
  cases e with
  | connect q attr => exact .some ⟨hshm, by rw [hattr], hcalls⟩
  | post q wr now =>
    unfold HostState.step HostState.stepUncached HostState.stepWith flowForecast flowForecastUncached
      HostState.logPost
    by_cases hsmall : flowSize wr < 1024
    · simp only [if_pos hsmall, Option.map_some]
      exact .some ⟨hshm, hattr, hcalls⟩
    · simp only [if_neg hsmall, hattr, hcalls]
      rw [← he (by omega)]
      cases hlook : cacheLookup s.shm q.qpNum (s.attr q) with
      | none => exact .none
      | some r =>
        refine .some ⟨?_, rfl, rfl⟩
        show report u.shm q r.2 wr now
          = (report r.1 q r.2 wr now).withCache (report u.shm q r.2 wr now).cache
        rw [report_cache, cacheLookup_ring hlook, hshm, report_withCache, report_withCache]
        rfl

theorem ring_eq_of_sameRing {x y : Option HostState} (h : Option.Rel SameRing x y) :
    x.map HostState.ring = y.map HostState.ring := by
  cases h with
  | none => rfl
  | @some s u hsu =>
    show some s.ring = some u.ring
    unfold HostState.ring
    rw [hsu.1]
    rfl

/-- **When the cache is not observable.** From the zeroed segment, for every history of posts and
re-connections: every destination used is the one `ibv_query_qp` would report if and only if every
call is fresh with respect to the calls before it; and then the ring is the one the function without
a cache produces from the same history. -/
theorem cache_coherent_iff (attr : Qp → QpAttr) (es : List HostEvent) :
    (Run.Along HostState.step HostState.Coherent (HostState.init attr) es ↔
      Run.Along HostState.step HostState.Fresh (HostState.init attr) es) ∧
    (Run.Along HostState.step HostState.Fresh (HostState.init attr) es →
      (es.foldlM HostState.step (HostState.init attr)).map HostState.ring
        = (es.foldlM HostState.stepUncached (HostState.init attr)).map HostState.ring) := by
  have hiff := along_coherent_iff es (tracks_init attr)
  refine ⟨hiff, fun hfresh => ?_⟩
  apply ring_eq_of_sameRing
  exact Run.simulation step_sameRing es ⟨rfl, rfl, rfl⟩ (hiff.mpr hfresh)

/-- The IPv4-mapped GID of `172.16.x.1`. -/
def mappedGid (x : UInt8) : CharArray 16 :=
  CharArray.fit 16 [0, 0, 0, 0, 0, 0, 0, 0, 0, 0, 255, 255, 172, 16, x, 1]

/-- A queue pair connected to `172.16.5.1`. -/
def movedQp : Qp := ⟨0, 7, .rc, "mlx5_0"⟩

def peerAt5 (_ : Qp) : QpAttr := ⟨mappedGid 5, 3⟩

/-- A write of 5000 bytes, a re-connection to `172.16.6.1`, and the same write again. -/
def moveRun : List HostEvent :=
  [.post movedQp [⟨.rdmaWrite, [5000]⟩] ⟨1, 0⟩, .connect movedQp ⟨mappedGid 6, 3⟩,
    .post movedQp [⟨.rdmaWrite, [5000]⟩] ⟨2, 0⟩]

/-- The second record still names the first peer. -/
theorem not_coherent_moveRun :
    ¬ Run.Along HostState.step HostState.Coherent (HostState.init peerAt5) moveRun ∧
      (moveRun.foldlM HostState.step (HostState.init peerAt5)).map
        (fun s => (s.shm.h, cStr (s.shm.amount 1).gid)) = some (2, "172.16.5.1") ∧
      (moveRun.foldlM HostState.stepUncached (HostState.init peerAt5)).map
        (fun s => (s.shm.h, cStr (s.shm.amount 1).gid)) = some (2, "172.16.6.1") := by
  decide +kernel

end SDNware.Host
