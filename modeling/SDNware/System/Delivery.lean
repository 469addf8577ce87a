/-
# SDNware.System.Delivery — hosts, connections and server together.

A host is the machine of `SDNware.Host.Producers`: any number of processes that append announcements
access by access, and the client that drains them into its connection.  The server is the machine of
`SDNware.Server.Main`.  In between is TCP: a poll of a connection may deliver any part of the bytes
sent on it and not yet read, in order.  Hosts, the client of each, the rounds and the polls of the
server and newly accepted connections interleave in any way.

The hosts keep to `Fine.Locked`, which is more than their lock: one process at a time is in its append,
fewer than `flow_NUM` records are unsent, no record becomes part of the ring at a moment at which the
client would step over it, and the client does not look at a head beyond the array.  Every
`sock_write` succeeds, and polls end on record boundaries.  Then:

* `delivered_in_order`: what `add_send_rec` has been given from a connection is always a beginning of
  what the processes of that host announced, in order, with nothing lost, repeated or mixed up, and all
  of it once the ring is drained and the connection read;
* `routes_announced`: the server routes no pair that was not announced by one of the hosts.
-/
import SDNware.Host.Producers
import SDNware.Server.Commute
import SDNware.Server.Registered

namespace SDNware.System

open SDNware.Wire SDNware.Host SDNware.Server

/-! ## §1 — the machine -/

/-- The hosts, by the index of their connection in `fds`, and the server.  Two histories: the
announcements whose append has begun, and the polls of the connections. -/
structure Net (n : Nat) (R : Type) where
  hosts : Nat → Fine n
  announced : Nat → List Entry
  polls : Nat → List Poll
  main : Main R

/-- A step on one host or in the server. -/
inductive NetEvent (n : Nat)
  | host (k : Nat) (m : Move n)
  | server (e : MainEvent)

/-- The announcement a move begins to append. -/
def begins {n : Nat} : Move n → List Entry
  | .start _ e => [e]
  | .access _ => []
  | .client => []

namespace Net

variable {n : Nat} {R : Type} [DoubleOps R]

/-- Every client right after `alloc_shared_memory`, and the server right after `data_init`. -/
def init (n : Nat) (E : Env) (start : Int) : Net n R :=
  ⟨fun _ => Fine.init n, fun _ => [], fun _ => [], Main.init E start⟩

/-- The bytes sent on a connection and not yet read. -/
def unread (s : Net n R) (k : Nat) : List UInt8 :=
  (wire (s.hosts k).sys.sent).drop (readStream (s.polls k)).length

/-- A step on host `k`. -/
def hostStep (nameToIp : Nat → String → String) (s : Net n R) (k : Nat) (m : Move n) :
    Option (Net n R) :=
  ((s.hosts k).step (nameToIp k) m).map fun host =>
    { s with
      hosts := Function.update s.hosts k host
      announced := Function.update s.announced k (s.announced k ++ begins m) }

/-- A poll delivers bytes that have been sent. -/
def pollStep (E : Env) (s : Net n R) (p : Poll) (times : Nat → Int × Int) : Option (Net n R) :=
  match s.main.pc with
  | .clock => none
  | .poll i =>
    if p.bytes <+: s.unread i then
      (s.main.step E (.poll p times)).map fun m =>
        { s with main := m, polls := Function.update s.polls i (s.polls i ++ [p]) }
    else none

/-- One step. -/
def step (E : Env) (nameToIp : Nat → String → String) (s : Net n R) : NetEvent n → Option (Net n R)
  | .host k m => s.hostStep nameToIp k m
  | .server (.poll p times) => s.pollStep E p times
  | .server .accept => (s.main.step E .accept).map fun m => { s with main := m }
  | .server .done => (s.main.step E .done).map fun m => { s with main := m }
  | .server (.clock now fuel times) =>
      (s.main.step E (.clock now fuel times)).map fun m => { s with main := m }

/-- The conditions on the hosts, and polls that end on record boundaries. -/
def Ok (s : Net n R) : NetEvent n → Prop
  | .host k m => (s.hosts k).Locked m
  | .server (.poll p _) => p.Whole
  | .server _ => True

instance (s : Net n R) : ∀ e, Decidable (s.Ok e)
  | .host k m => inferInstanceAs (Decidable ((s.hosts k).Locked m))
  | .server (.poll p _) => inferInstanceAs (Decidable (sizeofAmount ∣ p.bytes.length))
  | .server .accept => isTrue trivial
  | .server .done => isTrue trivial
  | .server (.clock _ _ _) => isTrue trivial

/-- Nothing is under way on host `k`: no append, no unsent record, no unread byte. -/
def Drained (s : Net n R) (k : Nat) : Prop :=
  (∀ i, (s.hosts k).procs i = .idle) ∧ (s.hosts k).sys.pc = .top ∧
    (s.hosts k).sys.shm.t = (s.hosts k).sys.shm.h ∧ s.unread k = []

instance (s : Net n R) (k : Nat) : Decidable (s.Drained k) := inferInstanceAs (Decidable (_ ∧ _ ∧ _ ∧ _))

end Net

/-! ## §2 — one host -/

section Hosts

variable {n : Nat} {nameToIp : String → String} {announced : List Entry} {s s' : Fine n}

/-- The announcement of an append under way. -/
def underWay : Access → List Entry
  | .idle => []
  | .write e _ => [e]
  | .load e => [e]
  | .store e _ => [e]
  | .loadMod e => [e]
  | .storeMod e _ => [e]

/-- What is known of a host: the atomic machine it refines, and the announcements begun. -/
structure HostInv (nameToIp : String → String) (announced : List Entry) (s : Fine n) : Prop where
  refines : ∃ c, Refines nameToIp s c
  idle : (∀ i, s.procs i = .idle) → announced = s.sys.appended
  active : ∀ i, s.procs i ≠ .idle → announced = s.sys.appended ++ underWay (s.procs i)

theorem hostInv_init (n : Nat) : HostInv nameToIp [] (Fine.init n) where
  refines := ⟨Sys.init, inv_init, Or.inl ⟨fun _ => rfl, rfl⟩⟩
  idle _ := rfl
  active _ hi := absurd rfl hi

/-- An access leaves the announcement of its process under way, or puts it into the history. -/
theorem accessStep_underWay {i : Fin n} (h : s.accessStep i = some s') :
    (∀ j, j ≠ i → s'.procs j = s.procs j) ∧
      s'.sys.appended ++ underWay (s'.procs i) = s.sys.appended ++ underWay (s.procs i) := by
  unfold Fine.accessStep at h
  have hother : ∀ (p : Access) (j : Fin n), j ≠ i → Function.update s.procs i p j = s.procs j :=
    fun p j hj => Function.update_of_ne hj _ _
  cases hpc : s.procs i with
  | idle =>
    simp only [hpc] at h
    exact absurd h (by simp)
  | write e f =>
    simp only [hpc] at h
    split at h
    · obtain rfl := Option.some.inj h
      refine ⟨hother _, ?_⟩
      cases f <;> simp [Fine.goto, Fine.setShm, Access.after, underWay]
    · exact absurd h (by simp)
  | store e reg =>
    simp only [hpc] at h
    split at h
    · obtain rfl := Option.some.inj h
      exact ⟨hother _, by simp [Fine.goto, Fine.setShm, underWay]⟩
    · exact absurd h (by simp)
  | load e | loadMod e =>
    simp only [hpc] at h
    obtain rfl := Option.some.inj h
    exact ⟨hother _, by simp [Fine.goto, underWay]⟩
  | storeMod e reg =>
    simp only [hpc] at h
    obtain rfl := Option.some.inj h
    exact ⟨hother _, by simp [underWay]⟩

theorem hostInv_step {m : Move n} (h : HostInv nameToIp announced s) (hlock : s.Locked m)
    (hstep : s.step nameToIp m = some s') : HostInv nameToIp (announced ++ begins m) s' := by
  obtain ⟨c, hc⟩ := h.refines
  obtain ⟨ls, c', -, -, hc'⟩ := matched_step s m s' c hc hlock hstep
  cases m with
  | start i e =>
    simp only [Fine.step, if_pos (hlock i)] at hstep
    obtain rfl := Option.some.inj hstep
    refine ⟨⟨c', hc'⟩, fun hidle => ?_, fun j hj => ?_⟩
    · exact absurd (hidle i) (by simp [Fine.goto])
    · obtain rfl : j = i := by
        by_contra hne
        exact hj (by simp [Fine.goto, hne, hlock j])
      rw [h.idle hlock]
      simp [Fine.goto, begins, underWay]
  | access i =>
    obtain ⟨hothers, heq⟩ := accessStep_underWay hstep
    have hi : s.procs i ≠ .idle := by
      intro hidle
      simp [Fine.step, Fine.accessStep, hidle] at hstep
    have hidle := (hc.stands hi).1
    rw [begins, List.append_nil, h.active i hi, ← heq]
    refine ⟨⟨c', hc'⟩, fun hall => ?_, fun j hj => ?_⟩
    · rw [hall i, underWay, List.append_nil]
    · obtain rfl : j = i := by
        by_contra hne
        exact hj (by rw [hothers j hne, hidle j hne])
      rfl
  | client =>
    obtain ⟨sys, hsys, rfl⟩ := Option.map_eq_some_iff.mp hstep
    obtain ⟨-, happended⟩ := clientStep_frame hsys
    rw [begins, List.append_nil]
    refine ⟨⟨c', hc'⟩, fun hidle => ?_, fun i hi => ?_⟩
    · rw [happended]
      exact h.idle hidle
    · rw [happended]
      exact h.active i hi

/-- The atomic machine has sent the same records, and appended at most the announcement under way in
addition. -/
theorem stands_appended {s c : Sys} {p : Access} (h : Stands s c p) :
    c.sent = s.sent ∧ c.appended <+: s.appended ++ underWay p := by
  have hhidden : ∀ {e fs k l}, Hidden s c e fs k → c.sent = s.sent ∧ c.appended <+: s.appended ++ l := by
    rintro e fs k l ⟨a, rfl, -⟩
    exact ⟨rfl, List.prefix_append _ _⟩
  have hshown : ∀ {e}, Shown s c e ∨ Wrapped s c e →
      c.sent = s.sent ∧ c.appended <+: s.appended ++ [e] := by
    rintro e (⟨-, rfl⟩ | ⟨-, hwrapped⟩)
    · exact ⟨rfl, List.prefix_rfl⟩
    · exact hhidden hwrapped
  cases p with
  | idle =>
    obtain rfl : c = s := h
    exact ⟨rfl, List.prefix_append _ _⟩
  | write e f | load e => exact hhidden h
  | store e reg => exact hhidden h.2
  | loadMod e => exact hshown h
  | storeMod e reg => exact hshown h.2

/-- The client has sent a beginning of what was announced, addressed. -/
theorem HostInv.sent_begins (h : HostInv nameToIp announced s) :
    s.sys.sent.map entryOf <+: announced ∧ ∀ a ∈ s.sys.sent, Addressed nameToIp a := by
  obtain ⟨c, hc⟩ := h.refines
  have hsent : c.sent = s.sys.sent ∧ c.appended <+: announced := by
    rcases hc.active with ⟨hidle, rfl⟩ | ⟨i, -, hi, hstands⟩
    · exact ⟨rfl, h.idle hidle ▸ List.prefix_rfl⟩
    · rw [h.active i hi]
      exact stands_appended hstands
  rw [← hsent.1]
  refine ⟨List.IsPrefix.trans ?_ hsent.2, hc.inv.addressed⟩
  rw [hc.inv.prefix_eq]
  exact List.take_prefix _ _

/-- With nothing under way it has sent all of it. -/
theorem HostInv.sent_all (h : HostInv nameToIp announced s) (hidle : ∀ i, s.procs i = .idle)
    (htop : s.sys.pc = .top) (hempty : s.sys.shm.t = s.sys.shm.h) :
    s.sys.sent.map entryOf = announced := by
  obtain ⟨c, hc⟩ := h.refines
  obtain rfl : c = s.sys := by
    rcases hc.active with ⟨-, hc⟩ | ⟨i, -, hi, -⟩
    · exact hc
    · exact absurd (hidle i) hi
  have honce := (hc.inv.exactlyOnce htop).1
  have hwindow : Ring.window flowNum s.sys.shm.amount s.sys.shm.t s.sys.shm.h = [] := by
    rw [hempty]
    simp [Ring.window, Ring.segment]
  rw [hwindow, List.append_nil] at honce
  rw [h.idle hidle, honce]

/-- Moves of a host only add to what its client has sent. -/
theorem sent_mono {m : Move n} (hstep : s.step nameToIp m = some s') :
    s.sys.sent <+: s'.sys.sent := by
  cases m with
  | start i e =>
    simp only [Fine.step] at hstep
    split at hstep
    · obtain rfl := Option.some.inj hstep
      exact List.prefix_rfl
    · exact absurd hstep (by simp)
  | access i =>
    simp only [Fine.step, Fine.accessStep] at hstep
    split at hstep <;> (try split at hstep) <;> cases hstep <;> exact List.prefix_rfl
  | client =>
    obtain ⟨sys, hsys, rfl⟩ := Option.map_eq_some_iff.mp hstep
    unfold Sys.clientStep Sys.sockWrite at hsys
    cases hpc : s.sys.pc <;> simp only [hpc] at hsys <;> (repeat' split at hsys) <;> cases hsys <;>
      first | exact List.prefix_rfl | exact List.prefix_append _ _

end Hosts

/-! ## §3 — one step -/

section Steps

variable {n : Nat} {R : Type} {nameToIp : Nat → String → String} {s s' : Net n R}

/-- The invariant of the system. -/
structure NetInv (nameToIp : Nat → String → String) (s : Net n R) : Prop where
  hosts : ∀ k, HostInv (nameToIp k) (s.announced k) (s.hosts k)
  stream : ∀ k, readStream (s.polls k) <+: wire (s.hosts k).sys.sent
  whole : ∀ k, ∀ p ∈ s.polls k, p.Whole
  handed : ∀ k, (delivery s.main.handed k).map Sample.amount = received (s.polls k)

theorem netInv_init [DoubleOps R] (E : Env) (start : Int) : NetInv nameToIp (Net.init (R := R) n E start) where
  hosts _ := hostInv_init n
  stream _ := List.nil_prefix
  whole _ _ hp := absurd hp List.not_mem_nil
  handed _ := rfl

theorem wire_mono {rs rs' : List Amount} (h : rs <+: rs') : wire rs <+: wire rs' := by
  obtain ⟨rest, rfl⟩ := h
  unfold wire
  rw [List.flatMap_append]
  exact List.prefix_append _ _

theorem netInv_hostStep {k : Nat} {m : Move n} (hI : NetInv nameToIp s)
    (hlock : (s.hosts k).Locked m) (hstep : s.hostStep nameToIp k m = some s') :
    NetInv nameToIp s' := by
  obtain ⟨host, hhost, rfl⟩ := Option.map_eq_some_iff.mp hstep
  refine ⟨fun j => ?_, fun j => ?_, hI.whole, hI.handed⟩
  · by_cases hj : j = k
    · subst hj
      simpa only [Function.update_self] using hostInv_step (hI.hosts j) hlock hhost
    · simpa only [Function.update_of_ne hj] using hI.hosts j
  · by_cases hj : j = k
    · subst hj
      simp only [Function.update_self]
      exact (hI.stream j).trans (wire_mono (sent_mono hhost))
    · simpa only [Function.update_of_ne hj] using hI.stream j

/-- What a poll adds to the records of the connections. -/
theorem delivery_concat (handed : List (Nat × List Sample)) (i k : Nat) (samples : List Sample) :
    delivery (handed ++ [(i, samples)]) k
      = delivery handed k ++ if i = k then samples else [] := by
  have hrecords : records (handed ++ [(i, samples)])
      = records handed ++ samples.map fun a => (i, a) := by
    simp [records]
  unfold delivery
  rw [hrecords, Interleave.stream_append]
  congr 1
  by_cases hik : i = k <;> simp [Interleave.stream, hik, List.filter_map, Function.comp_def]

theorem map_amount_stamped (rs : List Amount) (times : Nat → Int × Int) :
    (stamped rs times).map Sample.amount = rs := by
  apply List.ext_getElem
  · simp [stamped]
  · intro k _ _
    simp [stamped]

/-- What the server has been handed are the first records sent. -/
theorem NetInv.handed_begins {s : Net n R} (hI : NetInv nameToIp s) (k : Nat) :
    (delivery s.main.handed k).map Sample.amount <+: (s.hosts k).sys.sent ∧
      (s.unread k = [] → (delivery s.main.handed k).map Sample.amount = (s.hosts k).sys.sent) := by
  rw [hI.handed k, received_of_whole (hI.stream k) (hI.whole k)]
  refine ⟨List.take_prefix _ _, fun hunread => ?_⟩
  have hlen := (hI.stream k).length_le
  unfold Net.unread at hunread
  rw [List.drop_eq_nil_iff] at hunread
  rw [le_antisymm hlen hunread, wire_length, Nat.mul_div_cancel_left _ (by decide), List.take_length]

variable [DoubleOps R] {E : Env}

theorem netInv_pollStep {p : Poll} {times : Nat → Int × Int} (hI : NetInv nameToIp s) (hp : p.Whole)
    (hstep : s.pollStep E p times = some s') : NetInv nameToIp s' := by
  cases hpc : s.main.pc with
  | clock =>
    simp only [Net.pollStep, hpc] at hstep
    exact absurd hstep (by simp)
  | poll i =>
    simp only [Net.pollStep, hpc] at hstep
    split at hstep
    · rename_i hunread
      obtain ⟨m, hm, rfl⟩ := Option.map_eq_some_iff.mp hstep
      refine ⟨hI.hosts, fun k => ?_, fun k => ?_, fun k => ?_⟩
      · by_cases hk : k = i
        · subst hk
          simp only [Function.update_self]
          -- the bytes delivered are the next ones of the stream
          obtain ⟨rest, hrest⟩ := hI.stream k
          have hread : readStream (s.polls k ++ [p]) = readStream (s.polls k) ++ p.bytes := by
            simp [readStream]
          unfold Net.unread at hunread
          rw [← hrest, List.drop_left] at hunread
          rw [hread, ← hrest]
          exact (List.prefix_append_right_inj _).mpr hunread
        · simpa only [Function.update_of_ne hk] using hI.stream k
      · by_cases hk : k = i
        · subst hk
          simp only [Function.update_self]
          exact List.forall_mem_append.mpr ⟨hI.whole k, by simpa using hp⟩
        · simpa only [Function.update_of_ne hk] using hI.whole k
      · cases mainStep_cases hm with
        | @poll i' _ _ hpc' hi =>
          obtain rfl : i' = i := MainPc.poll.inj (hpc'.symm.trans hpc)
          show (delivery (s.main.handed ++ [_]) k).map Sample.amount = _
          rw [delivery_concat, List.map_append, hI.handed k]
          by_cases hk : i' = k
          · subst hk
            simp [received, map_amount_stamped]
          · simp [hk, Function.update_of_ne (Ne.symm hk)]
    · exact absurd hstep (by simp)

theorem netInv_step (s : Net n R) (e : NetEvent n) (s' : Net n R) (hI : NetInv nameToIp s)
    (hok : s.Ok e) (hstep : s.step E nameToIp e = some s') : NetInv nameToIp s' := by
  cases e with
  | host k m => exact netInv_hostStep hI hok hstep
  | server e =>
    -- apart from the polls the server touches neither the connections nor what was handed over
    have hkeep : ∀ m, s.main.step E e = some m → m.handed = s.main.handed →
        NetInv nameToIp { s with main := m } := by
      intro m _ hm
      exact ⟨hI.hosts, hI.stream, hI.whole, fun k => by rw [hm]; exact hI.handed k⟩
    cases e with
    | poll p times => exact netInv_pollStep hI hok hstep
    | accept | done | clock =>
      simp only [Net.step] at hstep
      obtain ⟨m, hm, rfl⟩ := Option.map_eq_some_iff.mp hstep
      apply hkeep m hm
      cases mainStep_cases hm <;> rfl

end Steps

/-! ## §4 — what the server acts on -/

section Server

variable {R : Type} [DoubleOps R] {E : Env}

/-- A record adds at most the keys of the directions it announces traffic for. -/
theorem mem_keys_recordSample {c : Collector R} {a : Sample} {p : Flow}
    (h : toLex p ∈ (recordSample E c a).txRates.keys) : toLex p ∈ c.txRates.keys ∨ p ∈ a.touches := by
  by_cases hp : p ∈ a.touches
  · exact Or.inr hp
  · have hcell := congrArg Prod.snd ((footprint_recordSample E a).writes c p hp)
    exact Or.inl (hcell.mp h)

theorem mem_keys_addSendRec : ∀ {samples : List Sample} {c : Collector R} {p : Flow},
    toLex p ∈ (addSendRec E c samples).txRates.keys →
      toLex p ∈ c.txRates.keys ∨ ∃ a ∈ samples, p ∈ a.touches
  | [], _, _, h => Or.inl h
  | a :: samples, c, p, h => by
      unfold addSendRec at h
      split at h
      · exact Or.inl h
      · rcases mem_keys_addSendRec h with hkey | ⟨b, hb, hp⟩
        · rcases mem_keys_recordSample hkey with hkey | hp
          · exact Or.inl hkey
          · exact Or.inr ⟨a, List.mem_cons_self, hp⟩
        · exact Or.inr ⟨b, List.mem_cons_of_mem a hb, hp⟩

/-- All `save` requests are about pairs of a set. -/
def SavesWithin (A : Set Flow) (r : Router) : Prop :=
  ∀ path, .save path ∈ r.log → ∀ rule ∈ path.rules, (rule.srcIp, rule.dstIp) ∈ A

theorem savesWithin_installed {A : Set Flow} {r : Router} {p : Flow} {rt : Route} {now : Int}
    (hr : SavesWithin A r) (hp : p ∈ A) : SavesWithin A (installed E r p rt now) := by
  intro path hpath rule hrule
  rcases List.mem_append.mp hpath with hpath | hpath
  · exact hr path hpath rule hrule
  · obtain rfl := Request.save.inj (List.mem_singleton.mp hpath)
    rw [List.mem_singleton.mp hrule]
    exact hp

theorem savesWithin_pairStep {A : Set Flow} {rates : RateMap R} {fuel : Nat} {now : Int} {r r' : Router}
    {p : Flow} (hr : SavesWithin A r) (hp : p ∈ A) (h : PairStep E rates fuel now r p r') :
    SavesWithin A r' := by
  cases h with
  | near _ | keep => exact hr
  | fresh => exact savesWithin_installed hr hp
  | replace =>
    refine savesWithin_installed (fun path hpath => ?_) hp
    rcases List.mem_append.mp hpath with hpath | hpath
    · exact hr path hpath
    · exact absurd (List.mem_singleton.mp hpath) (by simp)

/-- The directions the records handed over so far announce traffic for. -/
def touched (handed : List (Nat × List Sample)) : Set Flow :=
  {p | ∃ k, ∃ a ∈ delivery handed k, p ∈ a.touches}

theorem touched_concat (handed : List (Nat × List Sample)) (i : Nat) (samples : List Sample) :
    touched (handed ++ [(i, samples)]) = touched handed ∪ {p | ∃ a ∈ samples, p ∈ a.touches} := by
  ext p
  simp only [touched, delivery_concat, List.mem_append, Set.mem_union, Set.mem_ofPred_eq]
  constructor
  · rintro ⟨k, a, ha | ha, hp⟩
    · exact Or.inl ⟨k, a, ha, hp⟩
    · split at ha
      · exact Or.inr ⟨a, ha, hp⟩
      · exact absurd ha List.not_mem_nil
  · rintro (⟨k, a, ha, hp⟩ | ⟨a, ha, hp⟩)
    · exact ⟨k, a, Or.inl ha, hp⟩
    · exact ⟨i, a, Or.inr (by rwa [if_pos rfl]), hp⟩

/-- The server acts on what it was handed. -/
structure Sourced (E : Env) (m : Main R) : Prop where
  wf : m.state.router.Wf E
  keys : ∀ p, toLex p ∈ m.state.collector.txRates.keys → p ∈ touched m.handed
  saves : SavesWithin (touched m.handed) m.state.router

theorem sourced_init (start : Int) : Sourced E (Main.init (R := R) E start) where
  wf := wf_init E
  keys _ hp := absurd hp (by simp [Main.init, State.init, Collector.init, RateMap.empty])
  saves _ hpath := absurd hpath (by simp [Main.init, State.init, Router.init])

theorem sourced_step {m m' : Main R} {e : MainEvent} (h : Sourced E m) (hstep : m.step E e = some m') :
    Sourced E m' := by
  cases mainStep_cases hstep with
  | accept | early | done => exact ⟨h.wf, h.keys, h.saves⟩
  | @round now fuel times r hpc hlate hround =>
    -- a round steps through active pairs only, and those are keys
    have hpairs : Run.Along (pairStep E m.state.collector.txRates fuel times)
        (fun _ p => p ∈ touched m.handed) m.state.router (activePairs m.state.collector.txRates) :=
      Run.along_of_mem (fun p hp _ => h.keys p (mem_keys_of_active hp)) _
    have hrouter : r.Wf E ∧ SavesWithin (touched m.handed) r := by
      refine Run.invariant (I := fun r => r.Wf E ∧ SavesWithin (touched m.handed) r) ?_ _
        ⟨h.wf, h.saves⟩ hpairs hround
      rintro r p r' ⟨hwf, hr⟩ hp hpair
      have hcases := pairStep_cases hwf hpair
      exact ⟨wf_pairStep hwf hcases, savesWithin_pairStep hr hp hcases⟩
    exact ⟨hrouter.1, h.keys, hrouter.2⟩
  | @poll i p times hpc hi =>
    have hgrow : touched m.handed ⊆ touched (m.pollStep E i p times).handed := by
      show _ ⊆ touched (m.handed ++ [_])
      rw [touched_concat]
      exact Set.subset_union_left
    refine ⟨h.wf, fun q hq => ?_, fun path hpath rule hrule => hgrow (h.saves path hpath rule hrule)⟩
    rcases mem_keys_addSendRec hq with hq | hq
    · exact hgrow (h.keys q hq)
    · show q ∈ touched (m.handed ++ [_])
      rw [touched_concat]
      exact Or.inr hq

end Server

/-! ## §5 — every run -/

section Runs

variable {n : Nat} {R : Type} [DoubleOps R] {E : Env} {nameToIp : Nat → String → String}

/-- The steps of the system as the server sees them. -/
theorem main_step {s s' : Net n R} {e : NetEvent n} (hstep : s.step E nameToIp e = some s') :
    s'.main = s.main ∨ ∃ e', s.main.step E e' = some s'.main := by
  cases e with
  | host k m =>
    obtain ⟨host, -, rfl⟩ := Option.map_eq_some_iff.mp hstep
    exact Or.inl rfl
  | server e =>
    refine Or.inr ⟨e, ?_⟩
    cases e with
    | poll p times =>
      simp only [Net.step, Net.pollStep] at hstep
      split at hstep
      · exact absurd hstep (by simp)
      · split at hstep
        · obtain ⟨m, hm, rfl⟩ := Option.map_eq_some_iff.mp hstep
          exact hm
        · exact absurd hstep (by simp)
    | accept | done | clock =>
      simp only [Net.step] at hstep
      obtain ⟨m, hm, rfl⟩ := Option.map_eq_some_iff.mp hstep
      exact hm

/-- **Announcements reach the server once and in order.** For every number of hosts and processes and
every interleaving of their accesses, the clients, the polls, the rounds and the accepted connections in
which every host keeps to `Fine.Locked` and every poll ends on a record boundary, with a `sock_write`
that succeeds: the records handed to `add_send_rec` from a connection are at any time a beginning of what
the processes of its host began to announce, in that order, all with the ip of their device; and all of
it once nothing is under way there. -/
theorem delivered_in_order (start : Int) (es : List (NetEvent n)) (s : Net n R)
    (hok : Run.Along (Net.step (R := R) E nameToIp) Net.Ok (Net.init n E start) es)
    (hrun : es.foldlM (Net.step E nameToIp) (Net.init n E start) = some s) (k : Nat) :
    (delivery s.main.handed k).map (fun a => entryOf a.amount) <+: s.announced k ∧
      (∀ a ∈ delivery s.main.handed k, Addressed (nameToIp k) a.amount) ∧
      (s.Drained k → (delivery s.main.handed k).map (fun a => entryOf a.amount) = s.announced k) := by
  have hI := Run.invariant netInv_step es (netInv_init E start) hok hrun
  obtain ⟨hbegin, hall⟩ := hI.handed_begins k
  obtain ⟨hsent, haddressed⟩ := (hI.hosts k).sent_begins
  have hmap : (delivery s.main.handed k).map (fun a => entryOf a.amount)
      = ((delivery s.main.handed k).map Sample.amount).map entryOf := by rw [List.map_map]; rfl
  rw [hmap]
  refine ⟨(hbegin.map entryOf).trans hsent, fun a ha => ?_, ?_⟩
  · exact haddressed _ (hbegin.subset (List.mem_map_of_mem ha))
  · rintro ⟨hidle, htop, hempty, hunread⟩
    rw [hall hunread, (hI.hosts k).sent_all hidle htop hempty]

/-- The source ip a client fills in for an announcement. -/
def sourceIp (nameToIp : String → String) (e : Entry) : String :=
  cStr (strncpy 32 (nameToIp (cStr e.name)))

/-- The announcement is about the direction, with more than 4096 bytes. -/
def Announces (nameToIp : String → String) (e : Entry) (p : Flow) : Prop :=
  p = (sourceIp nameToIp e, cStr e.gid) ∧ e.tx > 4096 ∨ p = (cStr e.gid, sourceIp nameToIp e) ∧ e.rx > 4096

theorem announces_of_touches {nameToIp : String → String} {a : Sample} {p : Flow}
    (ha : Addressed nameToIp a.amount) (hp : p ∈ a.touches) :
    Announces nameToIp (entryOf a.amount) p := by
  have hip : cStr a.amount.ip = sourceIp nameToIp (entryOf a.amount) := by
    rw [ha]
    rfl
  rcases hp with ⟨rfl, htx⟩ | ⟨rfl, hrx⟩
  · exact Or.inl ⟨by rw [hip]; rfl, htx⟩
  · exact Or.inr ⟨by rw [hip]; rfl, hrx⟩

/-- **Nothing is routed that was not announced.** In every state of every run under these conditions on
hosts, writes and polls, a direction has a rate, or stands in the rule of a `save` request ever sent to
the controller, only if some process of some host announced more than 4096 bytes for it. -/
theorem routes_announced (start : Int) (es : List (NetEvent n)) (s : Net n R)
    (hok : Run.Along (Net.step (R := R) E nameToIp) Net.Ok (Net.init n E start) es)
    (hrun : es.foldlM (Net.step E nameToIp) (Net.init n E start) = some s) (p : Flow)
    (hp : toLex p ∈ s.main.state.collector.txRates.keys ∨
      ∃ path rule, .save path ∈ s.main.state.router.log ∧ rule ∈ path.rules ∧
        p = (rule.srcIp, rule.dstIp)) :
    ∃ k, ∃ e ∈ s.announced k, Announces (nameToIp k) e p := by
  have hI := Run.invariant netInv_step es (netInv_init E start) hok hrun
  have hsourced : Sourced E s.main := by
    refine Run.invariant_of_step (I := fun s : Net n R => Sourced E s.main) ?_ es
      (sourced_init start) hrun
    intro s e s' hs hstep
    rcases main_step hstep with heq | ⟨e', he'⟩
    · rw [heq]
      exact hs
    · exact sourced_step hs he'
  have htouched : p ∈ touched s.main.handed := by
    rcases hp with hkey | ⟨path, rule, hpath, hrule, rfl⟩
    · exact hsourced.keys p hkey
    · exact hsourced.saves path hpath rule hrule
  obtain ⟨k, a, ha, hpa⟩ := htouched
  obtain ⟨hsent, haddressed⟩ := (hI.hosts k).sent_begins
  have hamount := (hI.handed_begins k).1.subset (List.mem_map_of_mem ha)
  exact ⟨k, entryOf a.amount, hsent.subset (List.mem_map_of_mem hamount),
    announces_of_touches (haddressed _ hamount) hpa⟩

/-! ## §6 — one announcement from process to route -/

/-- The record of `firstEntry` as the client sends it. -/
def firstRecord : Amount := fillIp oneDevice (putEntry zeroAmount firstEntry)

/-- A process appends, the client drains, the server polls and starts a round. -/
def journey : List (NetEvent 1) :=
  .server .accept :: .host 0 (.start 0 firstEntry) :: (List.replicate 9 (.host 0 (.access 0))
    ++ List.replicate 5 (.host 0 .client)
    ++ [.server (.clock 0 0 fun _ => 0), .server (.poll (pollOf firstRecord) fun _ => (1000, 1000)),
      .server .done, .server (.clock 2000000000 3 fun _ => 2000000000)])

theorem journey_ok : Run.Along (Net.step (R := ℚ) twoLeaves fun _ => oneDevice) Net.Ok
    (Net.init 1 twoLeaves 0) journey := by
  decide +kernel

theorem delivered_in_order_journey :
    ∃ s : Net 1 ℚ, journey.foldlM (Net.step twoLeaves fun _ => oneDevice) (Net.init 1 twoLeaves 0) = some s ∧
      (delivery s.main.handed 0).map (fun a => entryOf a.amount) = [firstEntry] := by
  obtain ⟨s, hrun, hs⟩ := Option.map_eq_some_iff.mp
    (show (journey.foldlM (Net.step twoLeaves fun _ => oneDevice)
        (Net.init (R := ℚ) 1 twoLeaves 0)).map (fun s => (s.announced 0, decide (s.Drained 0)))
      = some ([firstEntry], true) by decide +kernel)
  obtain ⟨hannounced, hdrained⟩ := Prod.mk.inj hs
  have hall := (delivered_in_order 0 journey s journey_ok hrun 0).2.2 (of_decide_eq_true hdrained)
  exact ⟨s, hrun, hall.trans hannounced⟩

theorem routes_announced_journey :
    ∃ s : Net 1 ℚ, journey.foldlM (Net.step twoLeaves fun _ => oneDevice) (Net.init 1 twoLeaves 0) = some s ∧
      s.main.state.router.log.length = 1 ∧
      ∃ k, ∃ e ∈ s.announced k, Announces oneDevice e ("172.16.1.1", "172.16.5.1") := by
  obtain ⟨s, hrun, hs⟩ := Option.map_eq_some_iff.mp
    (show (journey.foldlM (Net.step twoLeaves fun _ => oneDevice)
        (Net.init (R := ℚ) 1 twoLeaves 0)).map (fun s => (s.main.state.router.log.length,
          s.main.state.collector.txRates.keys))
      = some (1, [toLex ("172.16.1.1", "172.16.5.1")]) by decide +kernel)
  obtain ⟨hlog, hkeys⟩ := Prod.mk.inj hs
  refine ⟨s, hrun, hlog, routes_announced 0 journey s journey_ok hrun _ (Or.inl ?_)⟩
  rw [hkeys]
  exact List.mem_singleton_self _

end Runs

end SDNware.System
