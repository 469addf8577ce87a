/-
# SDNware.Host.Producers — the append of `flow_forecast`, access by access.

Every process that posts work requests runs `flow_forecast` on the same segment.  Its append writes
five fields of the slot `shm->h`, reading `shm->h` for each, and then executes `shm->h++` and
`shm->h %= FLOW_NUM`, a load and a store each.  The lock around the append is commented out, as is
the client's.  The machine of `SDNware.Host.Client`, where an append is one step, is an abstraction
of this one:

* with the lock back in the processes, the conditions of `SDNware.Host.Client` on the moment at which a
  record becomes part of the ring, and a client that does not look at `shm->h` while it stands at
  `FLOW_NUM`, every run refines a run of the atomic machine (`locked_refines_atomic`);
* a client that does look then can leave its loop for good (`exits_at_lap_end`);
* without the lock two processes can carry `shm->h` to every value an `int` has, although every append
  ends with `shm->h %= FLOW_NUM`, and one more `shm->h++` then overflows (`head_reaches_intMax`).
-/
import SDNware.Host.Client

namespace SDNware.Host

open SDNware.Wire

/-! ## §1 — the machine -/

/-- The fields of a slot, in the order in which the append writes them. -/
inductive Field
  | gid
  | rx
  | tx
  | name
  | tm
  deriving DecidableEq

/-- One assignment to a field of `shm->amount[shm->h]`. -/
def putField (e : Entry) (a : Amount) : Field → Amount
  | .gid => { a with gid := e.gid }
  | .rx => { a with rx := e.rx }
  | .tx => { a with tx := e.tx }
  | .name => { a with name := e.name }
  | .tm => { a with tm := e.tm }

/-- Where a process stands, by the access to the segment that comes next. -/
inductive Access
  /-- Outside the append. -/
  | idle
  /-- The assignment to a field of `shm->amount[shm->h]`. -/
  | write (e : Entry) (f : Field)
  /-- The load of `shm->h++`. -/
  | load (e : Entry)
  /-- Its store, with the value loaded. -/
  | store (e : Entry) (reg : Nat)
  /-- The load of `shm->h %= FLOW_NUM`. -/
  | loadMod (e : Entry)
  /-- Its store, with the value loaded. -/
  | storeMod (e : Entry) (reg : Nat)
  deriving DecidableEq

/-- The access after the assignment to a field. -/
def Access.after (e : Entry) : Field → Access
  | .gid => .write e .rx
  | .rx => .write e .tx
  | .tx => .write e .name
  | .name => .write e .tm
  | .tm => .load e

/-- The largest value of the `int` that `shm->h` is. -/
def intMax : Nat := 2147483647

/-- A host with `n` processes: the segment and the client, with the records whose append has come to
its end as a history, and the processes. -/
structure Fine (n : Nat) where
  sys : Sys
  procs : Fin n → Access

/-- A process starts the append of a record, makes its next access, or the client makes a step. -/
inductive Move (n : Nat)
  | start (i : Fin n) (e : Entry)
  | access (i : Fin n)
  | client
  deriving DecidableEq

namespace Fine

variable {n : Nat}

/-- The host right after `alloc_shared_memory`. -/
def init (n : Nat) : Fine n := ⟨Sys.init, fun _ => .idle⟩

/-- A process moves on. -/
def goto (s : Fine n) (i : Fin n) (p : Access) : Fine n :=
  { s with procs := Function.update s.procs i p }

/-- An access to the segment. -/
def setShm (s : Fine n) (m : Shm) : Fine n := { s with sys := { s.sys with shm := m } }

/-- The next access of a process. An assignment to a slot beyond the array does not return, nor does an
increment of the largest `int`: `none`. -/
def accessStep (s : Fine n) (i : Fin n) : Option (Fine n) :=
  match s.procs i with
  | .idle => none
  | .write e f =>
      if s.sys.shm.h < flowNum then
        some ((s.setShm { s.sys.shm with
          amount := Function.update s.sys.shm.amount s.sys.shm.h
            (putField e (s.sys.shm.amount s.sys.shm.h) f) }).goto i (.after e f))
      else none
  | .load e => some (s.goto i (.store e s.sys.shm.h))
  | .store e reg =>
      if reg < intMax then some ((s.setShm { s.sys.shm with h := reg + 1 }).goto i (.loadMod e))
      else none
  | .loadMod e => some (s.goto i (.storeMod e s.sys.shm.h))
  | .storeMod e reg =>
      some { sys :=
              { s.sys with
                shm := { s.sys.shm with h := reg % flowNum }
                appended := s.sys.appended ++ [e] }
             procs := Function.update s.procs i .idle }

/-- One move. -/
def step (nameToIp : String → String) (s : Fine n) : Move n → Option (Fine n)
  | .start i e => if s.procs i = .idle then some (s.goto i (.write e .gid)) else none
  | .access i => s.accessStep i
  | .client => (s.sys.clientStep nameToIp).map fun sys => { s with sys := sys }

end Fine

/-! ## §2 — the discipline -/

/-- The statements of the client that read `shm->h`. -/
def Pc.readsHead : Pc → Bool
  | .fillEnd _ => false
  | .writeEnd => false
  | .wrap => false
  | .exited => false
  | _ => true

/-- The access makes the record part of the ring: the store of `shm->h++`, or the store of
`shm->h %= FLOW_NUM` at the end of a lap. -/
def Access.publishes : Access → Bool
  | .store _ reg => reg + 1 < flowNum
  | .storeMod _ reg => reg = flowNum
  | _ => false

/-- One process in the append at a time.  A record becomes part of the ring when there is room, not
between the last test of a filling loop and `shm->t = shm->h`, and not at the end of a lap, where the
head stands beyond the array until then, during a filling loop up to `shm->h`.  The client does not
read `shm->h` while it stands beyond the array. -/
def Fine.Locked {n : Nat} (s : Fine n) : Move n → Prop
  | .start _ _ => ∀ j, s.procs j = .idle
  | .access i => (s.procs i).publishes = true →
      s.sys.appended.length + 1 < s.sys.sent.length + flowNum ∧ s.sys.pc ≠ .write ∧
        s.sys.pc ≠ .advance ∧ (s.sys.pc.fills = true → s.sys.shm.h < flowNum)
  | .client => s.sys.pc.readsHead = true → s.sys.shm.h < flowNum

instance {n : Nat} (s : Fine n) : ∀ m, Decidable (s.Locked m)
  | .start _ _ => inferInstanceAs (Decidable (∀ _, _))
  | .access _ => inferInstanceAs (Decidable (_ → _))
  | .client => inferInstanceAs (Decidable (_ → _))

/-! ## §3 — the atomic machine meanwhile -/

/-- The fields written before the assignment to a field. -/
def Field.before : Field → List Field
  | .gid => []
  | .rx => [.gid]
  | .tx => [.gid, .rx]
  | .name => [.gid, .rx, .tx]
  | .tm => [.gid, .rx, .tx, .name]

/-- A slot with some fields of a record in it. -/
def putFields (e : Entry) (a : Amount) (fs : List Field) : Amount := fs.foldl (putField e) a

/-- The segment with slot `k` as it was, and the head on it. -/
def Sys.masked (s : Sys) (k : Nat) (a : Amount) : Sys :=
  { s with shm := { s.shm with h := k, amount := Function.update s.shm.amount k a } }

/-- The record is not part of the ring yet: the atomic machine still has the old slot `k`. -/
def Hidden (s c : Sys) (e : Entry) (fs : List Field) (k : Nat) : Prop :=
  ∃ a, c = s.masked k a ∧ s.shm.amount k = putFields e a fs

/-- All five fields. -/
def allFields : List Field := [.gid, .rx, .tx, .name, .tm]

/-- The record is part of the ring, and its append not at its end. -/
def Shown (s c : Sys) (e : Entry) : Prop :=
  s.shm.h < flowNum ∧ c = { s with appended := s.appended ++ [e] }

/-- The record waits for `shm->h %= FLOW_NUM` to become part of the ring. -/
def Wrapped (s c : Sys) (e : Entry) : Prop :=
  s.shm.h = flowNum ∧ Hidden s c e allFields (flowNum - 1)

/-- The state of the atomic machine that a process in its append stands for. -/
def Stands (s c : Sys) : Access → Prop
  | .idle => c = s
  | .write e f => Hidden s c e f.before s.shm.h
  | .load e => Hidden s c e allFields s.shm.h
  | .store e reg => reg = s.shm.h ∧ Hidden s c e allFields s.shm.h
  | .loadMod e => Shown s c e ∨ Wrapped s c e
  | .storeMod e reg => reg = s.shm.h ∧ (Shown s c e ∨ Wrapped s c e)

/-- The refinement relation: at most one process is in its append. -/
structure Refines {n : Nat} (nameToIp : String → String) (s : Fine n) (c : Sys) : Prop where
  inv : Inv nameToIp c
  active : (∀ i, s.procs i = .idle) ∧ c = s.sys ∨
    ∃ i, (∀ j, j ≠ i → s.procs j = .idle) ∧ s.procs i ≠ .idle ∧ Stands s.sys c (s.procs i)

section Client

variable {nameToIp : String → String} {s s' : Sys}

/-- The client moves neither the head nor the history of the appends. -/
theorem clientStep_frame (h : s.clientStep nameToIp = some s') :
    s'.shm.h = s.shm.h ∧ s'.appended = s.appended := by
  unfold Sys.clientStep Sys.sockWrite at h
  cases hpc : s.pc <;> simp only [hpc] at h <;> (repeat' split at h) <;> cases h <;> exact ⟨rfl, rfl⟩

/-- The client does not look at the history of the appends. -/
theorem clientStep_appended (l : List Entry) (h : s.clientStep nameToIp = some s') :
    ({ s with appended := l } : Sys).clientStep nameToIp = some { s' with appended := l } := by
  unfold Sys.clientStep Sys.sockWrite at h ⊢
  cases hpc : s.pc <;> simp only [hpc] at h ⊢ <;> (repeat' split at h) <;> cases h <;> simp [*]

/-- The head of the atomic machine is inside the array. -/
theorem Inv.head_lt (hI : Inv nameToIp s) : s.shm.h < flowNum := by
  rw [hI.head]
  exact Nat.mod_lt _ (by decide)

theorem segment_update {α : Type} (slot : Nat → α) {k lo hi : Nat} (a : α) (hk : k < lo ∨ hi ≤ k) :
    Ring.segment (Function.update slot k a) lo hi = Ring.segment slot lo hi := by
  refine List.map_congr_left fun j hj => Function.update_of_ne ?_ _ _
  rw [List.mem_range'_1] at hj
  omega

/-- Filling in an `ip` elsewhere. -/
theorem masked_fillSlot (m : Shm) {k idx : Nat} (a : Amount) (hk : idx ≠ k) :
    Shm.fillSlot nameToIp { m with h := k, amount := Function.update m.amount k a } idx
      = { m.fillSlot nameToIp idx with
          h := k, amount := Function.update (m.fillSlot nameToIp idx).amount k a } := by
  unfold Shm.fillSlot
  simp only [Function.update_of_ne hk]
  rw [Function.update_comm hk]

theorem sockWrite_shm (s : Sys) (lo hi : Nat) (next : Pc) : (s.sockWrite lo hi next).shm = s.shm := by
  unfold Sys.sockWrite
  split <;> rfl

/-- Sending slots elsewhere. -/
theorem masked_sockWrite (s : Sys) {k lo hi : Nat} (a : Amount) (hk : k < lo ∨ hi ≤ k) (next : Pc) :
    (s.masked k a).sockWrite lo hi next = (s.sockWrite lo hi next).masked k a := by
  unfold Sys.sockWrite Sys.masked
  simp only [segment_update _ _ hk]
  split <;> rfl

/-- **The client does not see the slot under way.** With the head on it, or at a statement that does
not read the head, the client makes the same step with the slot as it was. -/
theorem clientStep_masked {k : Nat} {a : Amount} (hI : Inv nameToIp (s.masked k a))
    (hhead : s.pc.readsHead = true → s.shm.h = k) (h : s.clientStep nameToIp = some s') :
    (s.masked k a).clientStep nameToIp = some (s'.masked k a) ∧
      s'.shm.amount k = s.shm.amount k := by
  have hat := hI.at_pc
  unfold Sys.clientStep at h ⊢
  unfold AtPc at hat
  cases hpc : s.pc with
  | top | elseIf | advance | again =>
    obtain rfl := hhead (by rw [hpc]; rfl)
    simp only [Sys.masked, hpc] at h ⊢
    (repeat' split at h) <;> cases h <;> simp [*]
  | fill idx =>
    obtain rfl := hhead (by rw [hpc]; rfl)
    simp only [Sys.masked, hpc] at h ⊢
    split at h
    · rename_i hidx
      obtain rfl := Option.some.inj h
      rw [if_pos hidx, masked_fillSlot s.shm a hidx.ne]
      exact ⟨rfl, Function.update_of_ne hidx.ne' _ _⟩
    · rename_i hidx
      obtain rfl := Option.some.inj h
      rw [if_neg hidx]
      exact ⟨rfl, rfl⟩
  | write =>
    obtain rfl := hhead (by rw [hpc]; rfl)
    simp only [Sys.masked, hpc] at h ⊢
    obtain rfl := Option.some.inj h
    exact ⟨congrArg some (masked_sockWrite s a (Or.inr le_rfl) _), by rw [sockWrite_shm]⟩
  | fillEnd idx =>
    simp only [Sys.masked, hpc] at h hat ⊢
    obtain ⟨-, hlt, hidx, -⟩ := hat
    split at h
    · rename_i hidxN
      obtain rfl := Option.some.inj h
      have hne : idx ≠ k := by omega
      rw [if_pos hidxN, masked_fillSlot s.shm a hne]
      exact ⟨rfl, Function.update_of_ne hne.symm _ _⟩
    · rename_i hidxN
      obtain rfl := Option.some.inj h
      rw [if_neg hidxN]
      exact ⟨rfl, rfl⟩
  | writeEnd =>
    simp only [Sys.masked, hpc] at h hat ⊢
    obtain rfl := Option.some.inj h
    exact ⟨congrArg some (masked_sockWrite s a (Or.inl hat.2.1) _), by rw [sockWrite_shm]⟩
  | wrap =>
    simp only [Sys.masked, hpc] at h ⊢
    obtain rfl := Option.some.inj h
    exact ⟨rfl, rfl⟩
  | exited =>
    simp only [hpc] at h
    exact absurd h (by simp)

end Client

/-! ## §4 — one move -/

section Moves

variable {n : Nat} {nameToIp : String → String} {s s' : Fine n} {c : Sys}

/-- The condition on the steps of the atomic machine. -/
def Sys.Ok (s : Sys) (l : Label) : Prop := s.Room l ∧ s.Quiet l

/-- The move is matched by a run of the atomic machine. -/
def Matched (nameToIp : String → String) (c : Sys) (s' : Fine n) : Prop :=
  ∃ ls c', ls.foldlM (Sys.step nameToIp) c = some c' ∧ Run.Along (Sys.step nameToIp) Sys.Ok c ls ∧
    Refines nameToIp s' c'

theorem matched_of_stutter (h : Refines nameToIp s' c) : Matched nameToIp c s' :=
  ⟨[], c, rfl, trivial, h⟩

theorem matched_of_step {l : Label} {c' : Sys} (hstep : c.step nameToIp l = some c') (hok : c.Ok l)
    (h : Refines nameToIp s' c') : Matched nameToIp c s' := by
  refine ⟨[l], c', ?_, ⟨hok, fun _ _ => trivial⟩, h⟩
  rw [List.foldlM_cons, hstep]
  rfl

/-- The process whose access it is is the one in its append. -/
theorem Refines.stands (h : Refines nameToIp s c) {i : Fin n} (hi : s.procs i ≠ .idle) :
    (∀ j, j ≠ i → s.procs j = .idle) ∧ Stands s.sys c (s.procs i) := by
  rcases h.active with ⟨hidle, -⟩ | ⟨i', hothers, -, hstands⟩
  · exact absurd (hidle i) hi
  · obtain rfl : i = i' := by
      by_contra hne
      exact hi (hothers i hne)
    exact ⟨hothers, hstands⟩

/-- A move of the process in its append. -/
theorem refines_of_active {i : Fin n} {p : Access} (hI : Inv nameToIp c)
    (hothers : ∀ j, j ≠ i → s.procs j = .idle) (hp : p ≠ .idle) {sys : Sys} (h : Stands sys c p) :
    Refines nameToIp ⟨sys, Function.update s.procs i p⟩ c := by
  refine ⟨hI, Or.inr ⟨i, fun j hj => ?_, ?_, ?_⟩⟩
  · show Function.update s.procs i p j = _
    rw [Function.update_of_ne hj, hothers j hj]
  · show Function.update s.procs i p i ≠ _
    rwa [Function.update_self]
  · show Stands sys c (Function.update s.procs i p i)
    rwa [Function.update_self]

theorem Hidden.head {s c : Sys} {e : Entry} {fs : List Field} {k : Nat} (h : Hidden s c e fs k) :
    c.shm.h = k := by
  obtain ⟨a, rfl, -⟩ := h
  rfl

/-- One more field. -/
theorem Hidden.write {s c : Sys} {e : Entry} {fs : List Field} (h : Hidden s c e fs s.shm.h)
    (f : Field) :
    Hidden
      { s with
        shm := { s.shm with
          amount := Function.update s.shm.amount s.shm.h (putField e (s.shm.amount s.shm.h) f) } }
      c e (fs ++ [f]) s.shm.h := by
  obtain ⟨a, rfl, hslot⟩ := h
  refine ⟨a, ?_, ?_⟩
  · unfold Sys.masked
    simp only [Function.update_idem]
  · show Function.update s.shm.amount s.shm.h _ s.shm.h = _
    rw [Function.update_self, hslot]
    unfold putFields
    rw [List.foldl_append]
    rfl

/-- The append of the atomic machine fills the slot as the five assignments have. -/
theorem Hidden.publish {s c : Sys} {e : Entry} {k : Nat} (h : Hidden s c e allFields k)
    (nameToIp : String → String) :
    c.step nameToIp (.produce e) = some { s with
      shm := { s.shm with h := (k + 1) % flowNum }
      appended := s.appended ++ [e] } := by
  obtain ⟨a, rfl, hslot⟩ := h
  have hall : putEntry a e = putFields e a allFields := rfl
  unfold Sys.step Sys.masked Shm.append
  simp only [Function.update_self, Function.update_idem, hall, ← hslot, Function.update_eq_self]

theorem Hidden.ok {s c : Sys} {e : Entry} {fs : List Field} {k : Nat} (h : Hidden s c e fs k)
    (hroom : s.appended.length + 1 < s.sent.length + flowNum)
    (hquiet : s.pc ≠ .write ∧ s.pc ≠ .advance ∧ (s.pc.fills = true → k + 1 < flowNum)) :
    c.Ok (.produce e) := by
  obtain ⟨a, rfl, -⟩ := h
  exact ⟨hroom, hquiet⟩

theorem refines_start {i : Fin n} {e : Entry} (h : Refines nameToIp s c)
    (hlock : s.Locked (.start i e)) : Refines nameToIp (s.goto i (.write e .gid)) c := by
  have hidle : c = s.sys := by
    rcases h.active with ⟨-, hc⟩ | ⟨j, -, hj, -⟩
    · exact hc
    · exact absurd (hlock j) hj
  subst hidle
  refine refines_of_active h.inv (fun j _ => hlock j) (by simp) ⟨s.sys.shm.amount s.sys.shm.h, ?_, rfl⟩
  unfold Sys.masked
  rw [Function.update_eq_self]

/-- The store of `shm->h++` publishes the record, except at the end of a lap. -/
theorem matched_store {i : Fin n} {e : Entry} (h : Refines nameToIp s c)
    (hpc : s.procs i = .store e s.sys.shm.h) (hothers : ∀ j, j ≠ i → s.procs j = .idle)
    (hslot : Hidden s.sys c e allFields s.sys.shm.h) (hlock : s.Locked (.access i)) :
    Matched nameToIp c
      ((s.setShm { s.sys.shm with h := s.sys.shm.h + 1 }).goto i (.loadMod e)) := by
  have hlt : s.sys.shm.h < flowNum := by
    have := h.inv.head_lt
    rwa [hslot.head] at this
  rcases Nat.lt_or_ge (s.sys.shm.h + 1) flowNum with hnext | hend
  · obtain ⟨hroom, hwrite, hadvance, -⟩ := hlock (by simp [hpc, Access.publishes, hnext])
    have hok := hslot.ok hroom ⟨hwrite, hadvance, fun _ => hnext⟩
    have hstep := hslot.publish nameToIp
    rw [Nat.mod_eq_of_lt hnext] at hstep
    refine matched_of_step hstep hok ?_
    refine refines_of_active (inv_step c _ _ h.inv hok hstep) hothers (by simp) ?_
    exact Or.inl ⟨hnext, rfl⟩
  · -- the head now stands beyond the array, and the atomic machine has not moved
    have hlast : s.sys.shm.h = flowNum - 1 := by omega
    refine matched_of_stutter (refines_of_active h.inv hothers (by simp) ?_)
    refine Or.inr ⟨by show s.sys.shm.h + 1 = flowNum; omega, ?_⟩
    rw [← hlast]
    exact hslot

/-- The store of `shm->h %= FLOW_NUM` ends the append, and publishes the record at the end of a lap. -/
theorem matched_storeMod {i : Fin n} {e : Entry} (h : Refines nameToIp s c)
    (hpc : s.procs i = .storeMod e s.sys.shm.h) (hothers : ∀ j, j ≠ i → s.procs j = .idle)
    (hslot : Shown s.sys c e ∨ Wrapped s.sys c e) (hlock : s.Locked (.access i)) :
    Matched nameToIp c
      ⟨{ s.sys with
          shm := { s.sys.shm with h := s.sys.shm.h % flowNum }
          appended := s.sys.appended ++ [e] },
        Function.update s.procs i .idle⟩ := by
  have hidle : ∀ j, Function.update s.procs i .idle j = .idle := by
    intro j
    rw [Function.update_apply]
    split
    · rfl
    · rename_i hj
      exact hothers j hj
  rcases hslot with ⟨hlt, rfl⟩ | ⟨hend, hslot⟩
  · refine matched_of_stutter ⟨h.inv, Or.inl ⟨hidle, ?_⟩⟩
    rw [Nat.mod_eq_of_lt hlt]
  · obtain ⟨hroom, hwrite, hadvance, hfills⟩ := hlock (by simp [hpc, Access.publishes, hend])
    have hok := hslot.ok hroom ⟨hwrite, hadvance, fun hin => absurd (hfills hin) (by omega)⟩
    have hstep := hslot.publish nameToIp
    rw [hend]
    exact matched_of_step hstep hok ⟨inv_step c _ _ h.inv hok hstep, Or.inl ⟨hidle, rfl⟩⟩

theorem matched_access {i : Fin n} (h : Refines nameToIp s c) (hlock : s.Locked (.access i))
    (hstep : s.accessStep i = some s') : Matched nameToIp c s' := by
  unfold Fine.accessStep at hstep
  have hstands := h.stands (i := i)
  cases hpc : s.procs i with
  | idle =>
    rw [hpc] at hstep
    exact absurd hstep (by simp)
  | write e f =>
    obtain ⟨hothers, hslot⟩ := hstands (by simp [hpc])
    simp only [hpc] at hstep hslot
    split at hstep
    · obtain rfl := Option.some.inj hstep
      have hnext := Hidden.write hslot f
      refine matched_of_stutter (refines_of_active h.inv hothers ?_ ?_)
      · cases f <;> simp [Access.after]
      · cases f <;> exact hnext
    · exact absurd hstep (by simp)
  | load e =>
    obtain ⟨hothers, hslot⟩ := hstands (by simp [hpc])
    simp only [hpc] at hstep hslot
    obtain rfl := Option.some.inj hstep
    exact matched_of_stutter (refines_of_active h.inv hothers (by simp) ⟨rfl, hslot⟩)
  | store e reg =>
    obtain ⟨hothers, hslot⟩ := hstands (by simp [hpc])
    simp only [hpc] at hstep hslot
    split at hstep
    · obtain rfl := Option.some.inj hstep
      obtain ⟨rfl, hslot⟩ := hslot
      exact matched_store h hpc hothers hslot hlock
    · exact absurd hstep (by simp)
  | loadMod e =>
    obtain ⟨hothers, hslot⟩ := hstands (by simp [hpc])
    simp only [hpc] at hstep hslot
    obtain rfl := Option.some.inj hstep
    exact matched_of_stutter (refines_of_active h.inv hothers (by simp) ⟨rfl, hslot⟩)
  | storeMod e reg =>
    obtain ⟨hothers, hslot⟩ := hstands (by simp [hpc])
    simp only [hpc] at hstep hslot
    obtain rfl := Option.some.inj hstep
    obtain ⟨rfl, hslot⟩ := hslot
    exact matched_storeMod h hpc hothers hslot hlock

/-- The client makes its step on both sides. -/
theorem Hidden.client {s s' c : Sys} {e : Entry} {fs : List Field} {k : Nat} (h : Hidden s c e fs k)
    (hI : Inv nameToIp c) (hhead : s.pc.readsHead = true → s.shm.h = k)
    (hstep : s.clientStep nameToIp = some s') :
    ∃ c', c.step nameToIp .client = some c' ∧ Hidden s' c' e fs k := by
  obtain ⟨a, rfl, hslot⟩ := h
  obtain ⟨hclient, hkeep⟩ := clientStep_masked hI hhead hstep
  exact ⟨_, hclient, a, rfl, hkeep.trans hslot⟩

theorem Shown.client {s s' c : Sys} {e : Entry} (h : Shown s c e)
    (hstep : s.clientStep nameToIp = some s') :
    ∃ c', c.step nameToIp .client = some c' ∧ Shown s' c' e := by
  obtain ⟨hlt, rfl⟩ := h
  obtain ⟨hh, happended⟩ := clientStep_frame hstep
  refine ⟨_, clientStep_appended _ hstep, by rwa [hh], ?_⟩
  rw [happended]

theorem Wrapped.client {s s' c : Sys} {e : Entry} (h : Wrapped s c e) (hI : Inv nameToIp c)
    (hhead : s.pc.readsHead = true → s.shm.h < flowNum) (hstep : s.clientStep nameToIp = some s') :
    ∃ c', c.step nameToIp .client = some c' ∧ Wrapped s' c' e := by
  obtain ⟨hend, hslot⟩ := h
  obtain ⟨c', hclient, hslot'⟩ := hslot.client hI
    (fun hread => absurd (hhead hread) (by omega)) hstep
  exact ⟨c', hclient, (clientStep_frame hstep).1.trans hend, hslot'⟩

/-- Wherever the process in its append stands, the client's step is a step of the atomic machine. -/
theorem Stands.client {s s' c : Sys} {p : Access} (h : Stands s c p) (hI : Inv nameToIp c)
    (hhead : s.pc.readsHead = true → s.shm.h < flowNum) (hstep : s.clientStep nameToIp = some s') :
    ∃ c', c.step nameToIp .client = some c' ∧ Stands s' c' p := by
  have hh := (clientStep_frame hstep).1
  cases p with
  | idle => exact ⟨s', by rw [show c = s from h]; exact hstep, rfl⟩
  | write e f | load e =>
    obtain ⟨c', hclient, hslot⟩ := Hidden.client h hI (fun _ => rfl) hstep
    refine ⟨c', hclient, ?_⟩
    show Hidden s' c' e _ s'.shm.h
    rwa [hh]
  | store e reg =>
    obtain ⟨rfl, hslot⟩ := h
    obtain ⟨c', hclient, hslot⟩ := hslot.client hI (fun _ => rfl) hstep
    exact ⟨c', hclient, hh.symm, hh ▸ hslot⟩
  | loadMod e =>
    rcases h with hshown | hwrapped
    · obtain ⟨c', hclient, hshown⟩ := hshown.client hstep
      exact ⟨c', hclient, Or.inl hshown⟩
    · obtain ⟨c', hclient, hwrapped⟩ := hwrapped.client hI hhead hstep
      exact ⟨c', hclient, Or.inr hwrapped⟩
  | storeMod e reg =>
    obtain ⟨rfl, hshown | hwrapped⟩ := h
    · obtain ⟨c', hclient, hshown⟩ := hshown.client hstep
      exact ⟨c', hclient, hh.symm, Or.inl hshown⟩
    · obtain ⟨c', hclient, hwrapped⟩ := hwrapped.client hI hhead hstep
      exact ⟨c', hclient, hh.symm, Or.inr hwrapped⟩

theorem matched_client {sys : Sys} (h : Refines nameToIp s c) (hlock : s.Locked .client)
    (hstep : s.sys.clientStep nameToIp = some sys) : Matched nameToIp c { s with sys := sys } := by
  have hok : c.Ok .client := ⟨trivial, trivial⟩
  rcases h.active with ⟨hidle, rfl⟩ | ⟨i, hothers, hi, hstands⟩
  · exact matched_of_step (l := .client) hstep hok ⟨inv_step _ .client _ h.inv hok hstep, Or.inl ⟨hidle, rfl⟩⟩
  · obtain ⟨c', hclient, hstands'⟩ := hstands.client h.inv hlock hstep
    exact matched_of_step hclient hok
      ⟨inv_step _ .client _ h.inv hok hclient, Or.inr ⟨i, hothers, hi, hstands'⟩⟩

/-- **One move.** Every move under the lock is matched by the atomic machine. -/
theorem matched_step (s : Fine n) (m : Move n) (s' : Fine n) (c : Sys) (h : Refines nameToIp s c)
    (hlock : s.Locked m) (hstep : s.step nameToIp m = some s') : Matched nameToIp c s' := by
  cases m with
  | start i e =>
    simp only [Fine.step, if_pos (hlock i)] at hstep
    obtain rfl := Option.some.inj hstep
    exact matched_of_stutter (refines_start h hlock)
  | access i => exact matched_access h hlock hstep
  | client =>
    obtain ⟨sys, hsys, rfl⟩ := Option.map_eq_some_iff.mp hstep
    exact matched_client h hlock hsys

theorem flowNum_le_intMax : flowNum ≤ intMax := by decide

/-- No assignment of a process in its append falls outside the array, and no increment overflows. -/
theorem Refines.access_returns (h : Refines nameToIp s c) {i : Fin n} (hi : s.procs i ≠ .idle) :
    (s.accessStep i).isSome := by
  obtain ⟨-, hstands⟩ := h.stands hi
  unfold Fine.accessStep
  cases hpc : s.procs i with
  | idle => exact absurd hpc hi
  | write e f =>
    rw [hpc] at hstands
    have hlt := h.inv.head_lt
    rw [Hidden.head hstands] at hlt
    simp [hlt]
  | store e reg =>
    rw [hpc] at hstands
    obtain ⟨rfl, hslot⟩ := hstands
    have hlt := h.inv.head_lt
    rw [hslot.head] at hlt
    simp [hlt.trans_le flowNum_le_intMax]
  | load e | loadMod e | storeMod e reg => rfl

end Moves

/-! ## §5 — every run -/

/-- **Under the lock the append is atomic.** For every number of processes and every interleaving of
their accesses with the client's steps in which one process at a time is in its append, fewer than
`flow_NUM` records are unsent, no record becomes part of the ring between the last test of a filling
loop and `shm->t = shm->h` nor at the end of a lap during a filling loop up to `shm->h`, and the client
does not read `shm->h` while it stands beyond the array, and in which every `sock_write` succeeds:
no assignment falls outside the array; and whenever no process is in its append, a run of the machine
with atomic appends ends in the very same state, so that at the top of its loop the client has sent
everything that is not in the window, each record once, in order and addressed. -/
theorem locked_refines_atomic {n : Nat} (nameToIp : String → String) (ms : List (Move n)) (s : Fine n)
    (hlock : Run.Along (Fine.step nameToIp) Fine.Locked (Fine.init n) ms)
    (hrun : ms.foldlM (Fine.step nameToIp) (Fine.init n) = some s) :
    (∀ i, s.procs i ≠ .idle → (s.step nameToIp (.access i)).isSome) ∧
      ((∀ i, s.procs i = .idle) →
        (∃ ls, Run.Along (Sys.step nameToIp) Sys.Ok Sys.init ls ∧
          ls.foldlM (Sys.step nameToIp) Sys.init = some s.sys) ∧
        (s.sys.pc = .top → s.sys.ExactlyOnce nameToIp)) := by
  have hinit : Refines nameToIp (Fine.init n) Sys.init := ⟨inv_init, Or.inl ⟨fun _ => rfl, rfl⟩⟩
  obtain ⟨ls, c, hatomic, hok, hrefines⟩ := Run.forward_simulation matched_step ms hinit hlock hrun
  refine ⟨fun i hi => hrefines.access_returns hi, fun hidle => ?_⟩
  have hc : c = s.sys := by
    rcases hrefines.active with ⟨-, hc⟩ | ⟨i, -, hi, -⟩
    · exact hc
    · exact absurd (hidle i) hi
  subst hc
  exact ⟨⟨ls, hok, hatomic⟩, fun htop => hrefines.inv.exactlyOnce htop⟩

/-- Two processes append a record each, the second one while the client fills in the first. -/
def turns : List (Move 2) :=
  .start 0 firstEntry :: (List.replicate 9 (.access 0) ++ List.replicate 2 .client)
    ++ .start 1 secondEntry :: (List.replicate 9 (.access 1) ++ List.replicate 4 .client)

theorem locked_refines_atomic_turns :
    ∃ s, turns.foldlM (Fine.step oneDevice) (Fine.init 2) = some s ∧ s.sys.sent.length = 2 ∧
      s.sys.ExactlyOnce oneDevice := by
  have hlock : Run.Along (Fine.step oneDevice) Fine.Locked (Fine.init 2) turns := by decide +kernel
  obtain ⟨s, hrun, hs⟩ := Option.map_eq_some_iff.mp
    (show (turns.foldlM (Fine.step oneDevice) (Fine.init 2)).map
        (fun s => (s.procs 0, s.procs 1, s.sys.pc, s.sys.sent.length)) = some (.idle, .idle, .top, 2)
      by decide +kernel)
  simp only [Prod.mk.injEq] at hs
  have hidle : ∀ i, s.procs i = .idle := Fin.forall_fin_two.mpr ⟨hs.1, hs.2.1⟩
  exact ⟨s, hrun, hs.2.2.2, ((locked_refines_atomic oneDevice turns s hlock hrun).2 hidle).2 hs.2.2.1⟩

/-! ## §6 — without the lock -/

section Unlocked

open Run

variable {n : Nat} (nameToIp : String → String)

/-- The segment with a record in the slot of the head. -/
def Shm.filled (m : Shm) (e : Entry) : Shm :=
  { m with amount := Function.update m.amount m.h (putEntry (m.amount m.h) e) }

/-- A process writes the five fields, undisturbed. -/
theorem reaches_load (s : Fine n) (i : Fin n) (e : Entry) (hidle : s.procs i = .idle)
    (hlt : s.sys.shm.h < flowNum) :
    Reaches (Fine.step nameToIp) s ((s.setShm (s.sys.shm.filled e)).goto i (.load e)) := by
  refine ⟨[.start i e, .access i, .access i, .access i, .access i, .access i], ?_⟩
  simp [List.foldlM, Fine.step, Fine.accessStep, Fine.goto, Fine.setShm, hidle, hlt, Access.after,
    Shm.filled, putField, putEntry]

/-- The client fills in what is left up to the head. -/
theorem reaches_write : ∀ (d : Nat) (s : Fine n) (idx : Nat), s.sys.pc = .fill idx →
    idx + d = s.sys.shm.h → ∃ amount, Reaches (Fine.step nameToIp) s
      { s with sys := { s.sys with shm := { s.sys.shm with amount := amount }, pc := .write } }
  | 0, s, idx, hpc, hd => by
      refine ⟨s.sys.shm.amount, .head .client ?_ (.refl _)⟩
      have hnot : ¬ idx < s.sys.shm.h := by omega
      simp [Fine.step, Sys.clientStep, hpc, hnot]
  | d + 1, s, idx, hpc, hd => by
      have hlt : idx < s.sys.shm.h := by omega
      have hstep : s.step nameToIp .client = some
          { s with sys := { s.sys with shm := s.sys.shm.fillSlot nameToIp idx, pc := .fill (idx + 1) } } := by
        simp [Fine.step, Sys.clientStep, hpc, hlt]
      obtain ⟨amount, hrest⟩ := reaches_write d
        { s with sys := { s.sys with shm := s.sys.shm.fillSlot nameToIp idx, pc := .fill (idx + 1) } }
        (idx + 1) rfl (by show idx + 1 + d = s.sys.shm.h; omega)
      exact ⟨amount, .head .client hstep hrest⟩

/-- The client sends what is there and brings the tail onto the head, wherever the head stands. -/
theorem reaches_drained (s : Fine n) (htop : s.sys.pc = .top) (hret : s.sys.ret ≠ 0)
    (hlt : s.sys.shm.t < s.sys.shm.h) : ∃ (amount : Nat → Amount) (sent : List Amount) (ret : Int),
      ret ≠ 0 ∧ Reaches (Fine.step nameToIp) s
        ⟨⟨⟨s.sys.shm.h, s.sys.shm.h, amount, s.sys.shm.cache⟩, .top, ret, s.sys.appended, sent⟩,
          s.procs⟩ := by
  have hfill : s.step nameToIp .client
      = some { s with sys := { s.sys with pc := .fill s.sys.shm.t } } := by
    simp [Fine.step, Sys.clientStep, htop, hret, hlt]
  obtain ⟨amount, hwrite⟩ := reaches_write nameToIp (s.sys.shm.h - s.sys.shm.t)
    { s with sys := { s.sys with pc := .fill s.sys.shm.t } } s.sys.shm.t rfl
    (Nat.add_sub_cancel' hlt.le)
  have hpos : 0 < (s.sys.shm.h - s.sys.shm.t) * sizeofAmount := Nat.mul_pos (by omega) (by decide)
  refine ⟨amount, s.sys.sent ++ Ring.segment amount s.sys.shm.t s.sys.shm.h,
    ((s.sys.shm.h - s.sys.shm.t) * sizeofAmount : Nat), by omega, ?_⟩
  -- `sock_write`, then `shm->t = shm->h`
  refine .head .client hfill (hwrite.trans ⟨[.client, .client], ?_⟩)
  simp [List.foldlM, Fine.step, Sys.clientStep, Sys.sockWrite, hlt.le]

/-- A tail beyond the array makes the client send nothing and stop. -/
theorem reaches_exited (s : Fine n) (htop : s.sys.pc = .top) (hret : s.sys.ret ≠ 0)
    (ht : s.sys.shm.t = flowNum) (hh : s.sys.shm.h = 0) :
    Reaches (Fine.step nameToIp) s
      { s with sys := { s.sys with shm := { s.sys.shm with t := 0 }, pc := .exited, ret := 0 } } := by
  have hpos : 0 < flowNum := by decide
  refine ⟨List.replicate 7 .client, ?_⟩
  simp [List.replicate, List.foldlM, Fine.step, Sys.clientStep, Sys.sockWrite, htop, hret, ht, hh, hpos,
    Ring.segment]

/-- **The client can leave its loop.** From every state with the client at the top of its loop, the head
on the last slot and one process about to append: there is an interleaving of that one append with the
client's steps after which the record is appended and the client has left the loop.  Between `shm->h++`
and `shm->h %= FLOW_NUM` the client sends the records, sets `shm->t` to `FLOW_NUM`, takes this for a
wrapped ring afterwards and leaves with the 0 that `sock_write` returns for no bytes. -/
theorem exits_at_lap_end (s : Fine 1) (e : Entry) (hidle : s.procs 0 = .idle)
    (htop : s.sys.pc = .top) (hret : s.sys.ret ≠ 0) (ht : s.sys.shm.t ≤ s.sys.shm.h)
    (hlast : s.sys.shm.h + 1 = flowNum) :
    ∃ s', Reaches (Fine.step nameToIp) s s' ∧ s'.sys.pc = .exited ∧ s'.procs 0 = .idle ∧
      s'.sys.appended = s.sys.appended ++ [e] := by
  -- the five fields and `shm->h++`
  have hload := reaches_load nameToIp s 0 e hidle (by omega)
  set s₁ : Fine 1 := (s.setShm { s.sys.shm.filled e with h := flowNum }).goto 0 (.loadMod e) with hs₁
  have hstore : Reaches (Fine.step nameToIp) s s₁ := by
    refine hload.trans (.head (.access 0) rfl (.head (.access 0) ?_ (.refl _)))
    have hfits : s.sys.shm.h < intMax := by
      have := flowNum_le_intMax
      omega
    simp [Fine.step, Fine.accessStep, Fine.goto, Fine.setShm, hs₁, Shm.filled, hlast, hfits]
  -- the client's turn
  obtain ⟨amount, sent, ret, hret₂, hdrained⟩ :=
    reaches_drained nameToIp s₁ htop hret (by show s.sys.shm.t < flowNum; omega)
  -- `shm->h %= FLOW_NUM`, and the client again
  set s₃ : Fine 1 := ⟨⟨⟨flowNum, 0, amount, s.sys.shm.cache⟩, .top, ret, s.sys.appended ++ [e], sent⟩,
    fun _ => .idle⟩ with hs₃
  have hwrapped : Reaches (Fine.step nameToIp) s s₃ := by
    have hprocs : Function.update s.procs 0 .idle = fun _ => .idle := by
      funext i
      rw [Subsingleton.elim i 0, Function.update_self]
    refine hstore.trans (hdrained.trans ⟨[.access 0, .access 0], ?_⟩)
    simp [List.foldlM, Fine.step, Fine.accessStep, Fine.goto, Fine.setShm, Shm.filled, hs₁, hs₃, hprocs]
  exact ⟨_, hwrapped.trans (reaches_exited nameToIp s₃ rfl hret₂ rfl rfl), rfl, rfl, rfl⟩

/-- A host whose head is on the last slot, with the record before it unsent. -/
def lapEnd : Fine 1 where
  sys := lastWaiting
  procs _ := .idle

theorem exits_at_lap_end_oneDevice :
    lapEnd.sys.shm.t < lapEnd.sys.shm.h ∧
      ∃ s', Reaches (Fine.step oneDevice) lapEnd s' ∧ s'.sys.pc = .exited ∧
        s'.sys.appended = [firstEntry] := by
  obtain ⟨s', hreach, hexited, -, happended⟩ :=
    exits_at_lap_end oneDevice lapEnd firstEntry rfl rfl (by decide) (by decide) (by decide)
  exact ⟨by decide, s', hreach, hexited, happended⟩

/-- One process has loaded the head, the other one is outside its append, the head is in the array. -/
structure Poised (e : Entry) (a b : Fin 2) (reg : Nat) (s : Fine 2) : Prop where
  loaded : s.procs a = .store e reg
  idle : s.procs b = .idle
  head : s.sys.shm.h < flowNum

/-- **One round of the race.** The second process writes its record while the head is in the array and
loads the head after the first one's store; the first one reduces the head before the second one's
store, which is then one further than the first one's. -/
theorem Poised.round {e : Entry} {a b : Fin 2} {reg : Nat} {s : Fine 2} (hab : a ≠ b)
    (h : Poised e a b reg s) (hreg : reg < intMax) :
    ∃ s', Reaches (Fine.step nameToIp) s s' ∧ Poised e b a (reg + 1) s' := by
  have hload := reaches_load nameToIp s b e h.idle h.head
  refine ⟨⟨⟨⟨s.sys.shm.t, (reg + 1) % flowNum, (s.sys.shm.filled e).amount, s.sys.shm.cache⟩, s.sys.pc,
      s.sys.ret, s.sys.appended ++ [e], s.sys.sent⟩,
    Function.update (Function.update s.procs b (.store e (reg + 1))) a .idle⟩, ?_, ?_⟩
  · refine hload.trans ⟨[.access a, .access b, .access a, .access a], ?_⟩
    simp [List.foldlM, Fine.step, Fine.accessStep, Fine.goto, Fine.setShm, h.loaded, hreg, hab, hab.symm,
      Shm.filled, Function.update_comm hab]
  · refine ⟨?_, Function.update_self .., Nat.mod_lt _ (by decide)⟩
    show Function.update _ a _ b = _
    rw [Function.update_of_ne hab.symm, Function.update_self]

/-- Round by round, with the processes in turn. -/
theorem exists_poised (e : Entry) : ∀ k ≤ intMax, ∃ a b s, a ≠ b ∧
    Reaches (Fine.step nameToIp) (Fine.init 2) s ∧ Poised e a b k s
  | 0, _ => by
      have hload := reaches_load nameToIp (Fine.init 2) 0 e rfl (by decide)
      exact ⟨0, 1, _, by decide, hload.trans (.head (.access 0) rfl (.refl _)), rfl, rfl,
        (by decide : 0 < flowNum)⟩
  | k + 1, hk => by
      obtain ⟨a, b, s, hab, hreach, h⟩ := exists_poised e k (Nat.le_of_succ_le hk)
      obtain ⟨s', hround, h'⟩ := h.round nameToIp hab hk
      exact ⟨b, a, s', hab.symm, hreach.trans hround, h'⟩

/-- **Without the lock the head goes anywhere.** Two processes can bring `shm->h` to every value up to
the largest `int`, in an interleaving in which all assignments to slots fall inside the array; and from
there to a `shm->h++` that overflows. -/
theorem head_reaches_intMax (e : Entry) :
    (∀ B ≤ intMax, ∃ s, Reaches (Fine.step nameToIp) (Fine.init 2) s ∧ s.sys.shm.h = B) ∧
      ∃ s i, Reaches (Fine.step nameToIp) (Fine.init 2) s ∧ s.procs i = .store e intMax ∧
        s.step nameToIp (.access i) = none := by
  constructor
  · intro B hB
    cases B with
    | zero => exact ⟨Fine.init 2, .refl _, rfl⟩
    | succ B =>
      obtain ⟨a, b, s, -, hreach, h⟩ := exists_poised nameToIp e B (Nat.le_of_succ_le hB)
      refine ⟨(s.setShm { s.sys.shm with h := B + 1 }).goto a (.loadMod e),
        hreach.trans (.head (.access a) ?_ (.refl _)), rfl⟩
      have hfits : B < intMax := hB
      simp [Fine.step, Fine.accessStep, h.loaded, hfits]
  · obtain ⟨a, b, s, -, hreach, h⟩ := exists_poised nameToIp e intMax le_rfl
    refine ⟨s, a, hreach, h.loaded, ?_⟩
    simp [Fine.step, Fine.accessStep, h.loaded]

end Unlocked

end SDNware.Host
