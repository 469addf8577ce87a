/-
# SDNware.Server.Main — the loop of `main`: the clock, the rounds and the polls.

`main` reads the clock once per iteration, runs `update_route` if more than a second has passed since
the last round, and then polls every connection once: one `sock_read` into a fresh buffer, whose whole
records go to `add_send_rec`.  Meanwhile the thread of `connect_client` appends connections to `fds`;
the loop reads `fds.size()` afresh, so a connection accepted during an iteration is polled in it.

The machine has a step for every reading of the clock, every poll and every accepted connection.  Its
data is that of `SDNware.Server.Router`, and `main_refines` shows that every run of `main` is a run of
batches and rounds, so whatever holds of those holds here.

An accepted connection is one step: `fds.push_back`, which nothing keeps from running while the loop
reads `fds[i]`, is taken to be atomic.
-/
import SDNware.Wire.Socket
import SDNware.Server.PairStep

namespace SDNware.Server

open SDNware.Wire

/-! ## §1 — the machine -/

/-- Where `main` stands. -/
inductive MainPc
  /-- `clock_gettime` at the top of an iteration. -/
  | clock
  /-- The loop over `fds`, at index `i`. -/
  | poll (i : Nat)
  deriving DecidableEq

/-- The data of the server, `start`, the number of connections in `fds`, and as a history what
`add_send_rec` has been given, with the index of the connection it came from. -/
structure Main (R : Type) where
  state : State R
  start : Int
  fds : Nat
  pc : MainPc
  handed : List (Nat × List Sample)

/-- A step of `main` or of `connect_client`. -/
inductive MainEvent
  /-- `fds.push_back(connect_fd)`. -/
  | accept
  /-- The reading of the clock, with the fuel and the clock readings of the round it may start. -/
  | clock (now : Int) (fuel : Nat) (times : Flow → Int)
  /-- The poll of the next connection, with the clock readings taken for each record. -/
  | poll (p : Poll) (times : Nat → Int × Int)
  /-- The end of the loop over `fds`. -/
  | done

/-- The records of a poll, with the clock readings taken while they are processed. -/
def stamped (records : List Amount) (times : Nat → Int × Int) : List Sample :=
  records.mapIdx fun k a => ⟨a, (times k).1, (times k).2⟩

namespace Main

variable {R : Type} [DoubleOps R]

/-- `main` after `data_init`, with the first reading of the clock. -/
def init (E : Env) (start : Int) : Main R := ⟨State.init E, start, 0, .clock, []⟩

/-- The body of an iteration up to the loop over `fds`. -/
def clockStep (E : Env) (m : Main R) (now : Int) (fuel : Nat) (times : Flow → Int) : Option (Main R) :=
  if m.start + 1000000000 < now then
    (updateRoute E m.state.collector.txRates fuel times m.state.router).map fun r =>
      { m with
        state := { m.state with router := r }
        start := now
        pc := .poll 0 }
  else some { m with pc := .poll 0 }

/-- The body of the loop over `fds`. -/
def pollStep (E : Env) (m : Main R) (i : Nat) (p : Poll) (times : Nat → Int × Int) : Main R :=
  { m with
    state := { m.state with
      collector := addSendRec E m.state.collector (stamped (readRecords p) times) }
    pc := .poll (i + 1)
    handed := m.handed ++ [(i, stamped (readRecords p) times)] }

/-- One step. -/
def step (E : Env) (m : Main R) : MainEvent → Option (Main R)
  | .accept => some { m with fds := m.fds + 1 }
  | .clock now fuel times =>
    match m.pc with
    | .clock => m.clockStep E now fuel times
    | .poll _ => none
  | .poll p times =>
    match m.pc with
    | .clock => none
    | .poll i => if i < m.fds then some (m.pollStep E i p times) else none
  | .done =>
    match m.pc with
    | .clock => none
    | .poll i => if i < m.fds then none else some { m with pc := .clock }

end Main

/-! ## §2 — one step -/

section Step

variable {R : Type} [DoubleOps R] {E : Env} {m m' : Main R}

/-- What one step can do. -/
inductive MainStep (E : Env) (m : Main R) : MainEvent → Main R → Prop
  | accept : MainStep E m .accept { m with fds := m.fds + 1 }
  | round {now : Int} {fuel : Nat} {times : Flow → Int} {r : Router} (hpc : m.pc = .clock)
      (hlate : m.start + 1000000000 < now)
      (hround : updateRoute E m.state.collector.txRates fuel times m.state.router = some r) :
      MainStep E m (.clock now fuel times)
        { m with
          state := { m.state with router := r }
          start := now
          pc := .poll 0 }
  | early {now : Int} {fuel : Nat} {times : Flow → Int} (hpc : m.pc = .clock)
      (hearly : now ≤ m.start + 1000000000) :
      MainStep E m (.clock now fuel times) { m with pc := .poll 0 }
  | poll {i : Nat} {p : Poll} {times : Nat → Int × Int} (hpc : m.pc = .poll i) (hi : i < m.fds) :
      MainStep E m (.poll p times) (m.pollStep E i p times)
  | done {i : Nat} (hpc : m.pc = .poll i) (hi : m.fds ≤ i) :
      MainStep E m .done { m with pc := .clock }

theorem mainStep_cases {e : MainEvent} (h : m.step E e = some m') : MainStep E m e m' := by
  cases e with
  | accept =>
    obtain rfl := Option.some.inj h
    exact .accept
  | clock now fuel times =>
    cases hpc : m.pc with
    | clock =>
      simp only [Main.step, hpc, Main.clockStep] at h
      split at h
      · rename_i hlate
        obtain ⟨r, hround, rfl⟩ := Option.map_eq_some_iff.mp h
        exact .round hpc hlate hround
      · rename_i hearly
        obtain rfl := Option.some.inj h
        exact .early hpc (not_lt.mp hearly)
    | poll i =>
      simp only [Main.step, hpc] at h
      exact absurd h (by simp)
  | poll p times =>
    cases hpc : m.pc with
    | clock =>
      simp only [Main.step, hpc] at h
      exact absurd h (by simp)
    | poll i =>
      simp only [Main.step, hpc] at h
      split at h
      · rename_i hi
        obtain rfl := Option.some.inj h
        exact .poll hpc hi
      · exact absurd h (by simp)
  | done =>
    cases hpc : m.pc with
    | clock =>
      simp only [Main.step, hpc] at h
      exact absurd h (by simp)
    | poll i =>
      simp only [Main.step, hpc] at h
      split at h
      · exact absurd h (by simp)
      · rename_i hi
        obtain rfl := Option.some.inj h
        exact .done hpc (not_lt.mp hi)

end Step

/-! ## §3 — batches and rounds -/

section Refines

variable {R : Type} [DoubleOps R] {E : Env}

/-- **`main` runs batches and rounds.** The data of the server after any run of `main` is that of a
run of batches and rounds. -/
theorem main_refines (start : Int) (es : List MainEvent) (m : Main R)
    (hrun : es.foldlM (Main.step E) (Main.init E start) = some m) :
    ∃ events : List Event, events.foldlM (State.step E) (State.init E) = some m.state := by
  have hstep : ∀ (m : Main R) (e : MainEvent) (m' : Main R) (s : State R), m.state = s → True →
      m.step E e = some m' → ∃ (events : List Event) (s' : State R),
        events.foldlM (State.step E) s = some s' ∧
          Run.Along (State.step E) (fun _ _ => True) s events ∧ m'.state = s' := by
    rintro m e m' s rfl - hstep
    cases mainStep_cases hstep with
    | accept | early | done => exact ⟨[], m.state, rfl, trivial, rfl⟩
    | @round now fuel times r hpc hlate hround =>
      refine ⟨[.round fuel times], _, ?_, ⟨trivial, fun _ _ => trivial⟩, rfl⟩
      simp [List.foldlM, State.step, hround]
    | @poll i p times hpc hi =>
      exact ⟨[.batch (stamped (readRecords p) times)], _, rfl, ⟨trivial, fun _ _ => trivial⟩, rfl⟩
  obtain ⟨events, s, hevents, -, rfl⟩ := Run.forward_simulation hstep es rfl
    (Run.along_of_mem (fun _ _ _ => trivial) _) hrun
  exact ⟨events, hevents⟩

/-- The rates are those of the batches handed over, in their order: rounds leave them alone. -/
theorem collector_eq_handed (start : Int) (es : List MainEvent) (m : Main R)
    (hrun : es.foldlM (Main.step E) (Main.init E start) = some m) :
    m.state.collector = m.handed.foldl (fun c b => addSendRec E c b.2) Collector.init := by
  refine Run.invariant_of_step (I := fun m : Main R =>
    m.state.collector = m.handed.foldl (fun c b => addSendRec E c b.2) Collector.init) ?_ es rfl hrun
  intro m e m' hI hstep
  cases mainStep_cases hstep with
  | accept | round | early | done => exact hI
  | @poll i p times hpc hi =>
    show addSendRec E m.state.collector _ = (m.handed ++ [_]).foldl _ _
    rw [List.foldl_append, ← hI]
    rfl

end Refines

end SDNware.Server
