/-
# SDNware.Planner.Discover — the link table of the planner, from the controller's answers.

`SDNroute.py` puts its link table together from three answers of the controller.  The topology lists
every connection once; the script enters it in both directions.  The interface table translates between
the names of ports and their indices, by everything but the first letter of the name, because the
topology writes `Eth` where the interface table writes `eth`.  For the ports of all connections it then
asks for the speeds (`get_data_table`), and appends each reported speed to every connection whose near
port the interface table gives that index.

A row of `links` grows as speeds are appended, and only the first of them is ever read.  An unknown
device in the link list, an index that the interface table does not have on a device with links, and a
connection left without a speed raise (`none`).

`discover_eq_some` says what is in the table when nothing raises.  `discover_of_consistent` is the
round trip: the indices that are asked for are those of the ports, so if the controller answers each of
them once or more, every connection gets a speed that was reported for its own near port.
-/
import SDNware.Lib.Run
import SDNware.Planner.Assign

namespace SDNware.Planner

open SDNware.Server (Device IfEntry IfGroup LinkEntry)

/-! ## §1 — the source -/

/-- An element of `snmpDataList`. -/
structure IfRow (K : Type) where
  ip : String
  ifIndex : Int
  ifHighSpeed : K

/-- What the controller answers: `deviceList`, `linkList`, the interface table and the speeds. -/
structure Answers (K : Type) where
  nodes : List Device
  linklist : List LinkEntry
  interfaces : List IfGroup
  iflist : List (IfRow K)

/-- An element `lll` of `links[l][ll]`: its two ports, and the speeds appended so far. -/
structure LinkRow (K : Type) where
  port1 : String
  port2 : String
  speeds : List K

/-- `links`, with the empty list for absent keys. -/
abbrev LinkRows (K : Type) := String × String → List (LinkRow K)

namespace Answers

variable {K : Type} (A : Answers K)

/-- The keys of `links`. -/
def names : List String := A.nodes.map Device.deviceName

/-- `ip_to_name`. -/
def ipToName (ip : String) : Option String :=
  (A.nodes.find? fun node => ip = node.deviceIp).map Device.deviceName

/-- `name_to_ip` on the answers. -/
def nameToIp (name : String) : Option String := Planner.nameToIp A.nodes name

/-- The ports of a device in the answers. -/
def ports (name : String) : List IfEntry := portsOf A.nodes A.interfaces name

/-- `if_to_idx`. -/
def ifToIdx (name ifname : String) : Option String :=
  ((A.ports name).find? fun inf => tail ifname = tail inf.label).map IfEntry.value

/-- `idx_to_if` on the answers. -/
def idxToIf (name : String) (idx : Int) : Option String :=
  Planner.idxToIf A.nodes A.interfaces name idx

/-- The set of indices `get_data_table` collects for a device; `if_to_idx` may answer `None`. -/
def dataSet (name : String) : List (Option String) :=
  A.linklist.flatMap fun link =>
    (if link.deviceName1 = name then [A.ifToIdx name link.port1] else []) ++
      if link.deviceName2 = name then [A.ifToIdx name link.port2] else []

/-- `links[a][b].append([port1, port2])`. -/
def push (links : LinkRows K) (ab : String × String) (port1 port2 : String) : LinkRows K :=
  Function.update links ab (links ab ++ [⟨port1, port2, []⟩])

/-- One element of `linklist`: a connection each way. -/
def addEntry (links : LinkRows K) (l : LinkEntry) : Option (LinkRows K) :=
  if l.deviceName1 ∈ A.names ∧ l.deviceName2 ∈ A.names then
    some (push (push links (l.deviceName1, l.deviceName2) l.port1 l.port2)
      (l.deviceName2, l.deviceName1) l.port2 l.port1)
  else none

variable [Field K]

/-- The two inner loops for a reported speed: it is appended where the near port has the label. -/
def appendSpeed (links : LinkRows K) (l label : String) (speed : K) : LinkRows K :=
  fun ab => if ab.1 = l then
    (links ab).map fun lll =>
      if tail lll.port1 = tail label then { lll with speeds := lll.speeds ++ [speed] } else lll
  else links ab

/-- One element of `iflist`.  The label is looked up for every connection of the device, and sliced. -/
def addSpeed (links : LinkRows K) (row : IfRow K) : Option (LinkRows K) :=
  match A.ipToName row.ip with
  | none => some links
  | some l =>
    match A.idxToIf l row.ifIndex with
    | none => if ∀ ll ∈ A.names, (links (l, ll)).isEmpty then some links else none
    | some label => some (appendSpeed links l label (row.ifHighSpeed / 1000))

/-- `links` as the rest of the script uses it: `lll[2]` is the first speed. -/
def cablesOf (links : LinkRows K) : Links K := fun a b =>
  (links (a, b)).map fun lll => ⟨lll.port1, lll.port2, lll.speeds.headD 0⟩

/-- The script up to the links, and the loop of `topo_to_file` that reads every `lll[2]`. -/
def discover : Option (Links K) := do
  let links ← A.linklist.foldlM A.addEntry fun _ => []
  let links ← A.iflist.foldlM A.addSpeed links
  if ∀ l ∈ A.names, ∀ ll ∈ A.names, ∀ lll ∈ links (l, ll), ¬ lll.speeds.isEmpty then
    some (cablesOf links)
  else none

end Answers

/-! ## §2 — what is in the table -/

/-- The connection seen from its other end. -/
def flip (l : LinkEntry) : LinkEntry := ⟨l.deviceName2, l.port2, l.deviceName1, l.port1⟩

namespace Answers

variable {K : Type} (A : Answers K)

/-- Every connection from both ends. -/
def directed : List LinkEntry := A.linklist.flatMap fun l => [l, flip l]

/-- The connections from `a` to `b`. -/
def entries (a b : String) : List LinkEntry :=
  A.directed.filter fun e => e.deviceName1 = a ∧ e.deviceName2 = b

/-- The row is about the port of the device. -/
def Reports (row : IfRow K) (a port : String) : Prop :=
  A.ipToName row.ip = some a ∧ ∃ label ∈ A.idxToIf a row.ifIndex, tail port = tail label

instance (row : IfRow K) (a port : String) : Decidable (A.Reports row a port) :=
  inferInstanceAs (Decidable (_ ∧ _))

variable [Field K]

/-- The speeds reported for a port, in the order of the rows. -/
def speeds (a port : String) : List K :=
  (A.iflist.filter fun row => A.Reports row a port).map fun row => row.ifHighSpeed / 1000

/-- The cable of a connection: its ports, and the first speed reported for the near one. -/
def cable (e : LinkEntry) : Cable K :=
  ⟨e.port1, e.port2, (A.speeds e.deviceName1 e.port1).headD 0⟩

variable {A}

omit [Field K] in
theorem push_apply (links : LinkRows K) (k : String × String) (port1 port2 : String)
    (ab : String × String) :
    push links k port1 port2 ab = links ab ++ if k = ab then [⟨port1, port2, []⟩] else [] := by
  unfold push
  by_cases h : k = ab
  · rw [h, Function.update_self, if_pos rfl]
  · rw [Function.update_of_ne (Ne.symm h), if_neg h, List.append_nil]

omit [Field K] in
/-- The connections the loop over `linklist` has entered. -/
theorem rows_of_entries {xs : List LinkEntry} {links : LinkRows K}
    (h : xs.foldlM A.addEntry (fun _ => []) = some links) :
    (∀ l ∈ xs, l.deviceName1 ∈ A.names ∧ l.deviceName2 ∈ A.names) ∧
      ∀ a b, links (a, b) = ((xs.flatMap fun l => [l, flip l]).filter fun e =>
        e.deviceName1 = a ∧ e.deviceName2 = b).map fun e => ⟨e.port1, e.port2, []⟩ := by
  induction xs using List.reverseRecOn generalizing links with
  | nil =>
    obtain rfl := Option.some.inj h
    exact ⟨by simp, fun _ _ => rfl⟩
  | append_singleton xs l ih =>
    obtain ⟨mid, hmid, hlast⟩ := Run.foldlM_append_some h
    obtain ⟨links', hadd, hend⟩ := Run.foldlM_cons_some hlast
    obtain rfl := Option.some.inj hend
    obtain ⟨hlisted, hrows⟩ := ih hmid
    unfold addEntry at hadd
    split at hadd
    · rename_i hnames
      obtain rfl := Option.some.inj hadd
      constructor
      · intro l' hl'
        rcases List.mem_append.mp hl' with hl' | hl'
        · exact hlisted l' hl'
        · rw [List.mem_singleton.mp hl']
          exact hnames
      · intro a b
        rw [push_apply, push_apply, hrows, List.flatMap_append, List.filter_append, List.map_append,
          List.append_assoc]
        congr 1
        simp only [List.flatMap_singleton, List.filter_cons, List.filter_nil, flip, Prod.mk.injEq,
          decide_eq_true_eq]
        split_ifs <;> rfl
    · exact absurd hadd (by simp)

omit [Field K] in
theorem directed_listed (hlisted : ∀ l ∈ A.linklist, l.deviceName1 ∈ A.names ∧ l.deviceName2 ∈ A.names)
    {e : LinkEntry} (he : e ∈ A.directed) : e.deviceName1 ∈ A.names ∧ e.deviceName2 ∈ A.names := by
  obtain ⟨l, hl, hmem⟩ := List.mem_flatMap.mp he
  rcases List.mem_cons.mp hmem with rfl | hmem
  · exact hlisted e hl
  · rw [List.mem_singleton.mp hmem]
    exact (hlisted l hl).symm

/-- What one row of `iflist` does to a connection. -/
theorem addSpeed_apply {links links' : LinkRows K} {row : IfRow K}
    (h : A.addSpeed links row = some links') (a b : String) :
    links' (a, b) = (links (a, b)).map fun lll =>
      if A.Reports row a lll.port1 then
        { lll with speeds := lll.speeds ++ [row.ifHighSpeed / 1000] }
      else lll := by
  have hsame : (∀ port, ¬ A.Reports row a port) → links (a, b) = (links (a, b)).map fun lll =>
      if A.Reports row a lll.port1 then
        { lll with speeds := lll.speeds ++ [row.ifHighSpeed / 1000] }
      else lll := by
    intro hnot
    simp only [hnot, if_false, List.map_id']
  unfold addSpeed at h
  cases hname : A.ipToName row.ip with
  | none =>
    rw [hname] at h
    obtain rfl := Option.some.inj h
    apply hsame
    rintro port ⟨hl, -⟩
    rw [hname] at hl
    exact absurd hl (by simp)
  | some l =>
    rw [hname] at h
    cases hlabel : A.idxToIf l row.ifIndex with
    | none =>
      simp only [hlabel] at h
      split at h
      · obtain rfl := Option.some.inj h
        apply hsame
        rintro port ⟨hl, label, hmem, -⟩
        obtain rfl : l = a := Option.some.inj (hname.symm.trans hl)
        rw [hlabel] at hmem
        exact absurd hmem (by simp)
      · exact absurd h (by simp)
    | some label =>
      simp only [hlabel] at h
      obtain rfl := Option.some.inj h
      unfold appendSpeed
      by_cases hal : a = l
      · subst hal
        rw [if_pos rfl]
        refine List.map_congr_left fun lll _ => ?_
        have hiff : A.Reports row a lll.port1 ↔ tail lll.port1 = tail label := by
          unfold Reports
          rw [hname, hlabel]
          simp
        simp only [hiff]
      · rw [if_neg hal]
        apply hsame
        rintro port ⟨hl, -⟩
        exact hal (Option.some.inj (hl.symm.trans hname))

/-- The speeds the loop over `iflist` has appended. -/
theorem rows_of_speeds {rows : List (IfRow K)} {links links' : LinkRows K}
    (h : rows.foldlM A.addSpeed links = some links') (a b : String) :
    links' (a, b) = (links (a, b)).map fun lll =>
      { lll with speeds := lll.speeds ++
          (rows.filter fun row => A.Reports row a lll.port1).map fun row => row.ifHighSpeed / 1000 } := by
  induction rows generalizing links with
  | nil =>
    obtain rfl := Option.some.inj h
    simp
  | cons row rows ih =>
    obtain ⟨mid, hadd, hrest⟩ := Run.foldlM_cons_some h
    rw [ih hrest, addSpeed_apply hadd, List.map_map]
    refine List.map_congr_left fun lll _ => ?_
    by_cases hrep : A.Reports row a lll.port1
    · simp [hrep]
    · simp [hrep]

/-- **The link table.**  If nothing raises, both ends of every connection are devices, a speed is
reported for each of its ports, and the table has the connections between two devices in the order of
the link list, each with its first speed. -/
theorem discover_eq_some {links : Links K} (h : A.discover = some links) :
    (∀ e ∈ A.directed, e.deviceName1 ∈ A.names ∧ e.deviceName2 ∈ A.names ∧
      A.speeds e.deviceName1 e.port1 ≠ []) ∧
      ∀ a b, links a b = (A.entries a b).map A.cable := by
  simp only [discover, Option.bind_eq_bind, Option.bind_eq_some_iff] at h
  obtain ⟨links₁, hentries, links₂, hspeeds, h⟩ := h
  obtain ⟨hlisted, hrows⟩ := rows_of_entries hentries
  have htable : ∀ a b, links₂ (a, b) = (A.entries a b).map fun e =>
      ⟨e.port1, e.port2, A.speeds a e.port1⟩ := by
    intro a b
    rw [rows_of_speeds hspeeds, hrows, List.map_map]
    rfl
  split at h
  · rename_i hread
    obtain rfl := Option.some.inj h
    constructor
    · intro e he
      obtain ⟨h1, h2⟩ := directed_listed hlisted he
      refine ⟨h1, h2, fun hnone => ?_⟩
      have hmem : (⟨e.port1, e.port2, A.speeds e.deviceName1 e.port1⟩ : LinkRow K) ∈
          links₂ (e.deviceName1, e.deviceName2) := by
        rw [htable]
        exact List.mem_map.mpr ⟨e, List.mem_filter.mpr ⟨he, by simp⟩, rfl⟩
      apply hread _ h1 _ h2 _ hmem
      rw [hnone]
      rfl
    · intro a b
      unfold cablesOf
      rw [htable, List.map_map]
      refine List.map_congr_left fun e he => ?_
      obtain ⟨rfl, -⟩ := of_decide_eq_true (List.mem_filter.mp he).2
      rfl
  · exact absurd h (by simp)

/-! ## §3 — asking and being answered -/

/-- The controller's answers fit together: no two devices share a name or an ip, the ends of the
connections are devices and their ports are in the interface table, on a device neither two indices nor
two names of ports coincide, every index that is asked for is answered, and no other. -/
structure Consistent (A : Answers K) : Prop where
  names : A.names.Nodup
  ips : (A.nodes.map Device.deviceIp).Nodup
  listed : ∀ l ∈ A.linklist, l.deviceName1 ∈ A.names ∧ l.deviceName2 ∈ A.names
  known : ∀ e ∈ A.directed, (A.ifToIdx e.deviceName1 e.port1).isSome
  values : ∀ name ∈ A.names, ((A.ports name).map IfEntry.value).Nodup
  labels : ∀ name ∈ A.names, ((A.ports name).map fun inf => tail inf.label).Nodup
  answered : ∀ name ∈ A.names, ∀ o ∈ A.dataSet name, ∀ idx ∈ o,
    ∃ row ∈ A.iflist, A.nameToIp name = some row.ip ∧ toString row.ifIndex = idx
  asked : ∀ row ∈ A.iflist, ∃ name ∈ A.names,
    A.nameToIp name = some row.ip ∧ some (toString row.ifIndex) ∈ A.dataSet name

omit [Field K] in
/-- A search by a key that no two elements share finds the element. -/
theorem find?_of_nodup {α β : Type} [DecidableEq β] {f : α → β} {xs : List α}
    (hnodup : (xs.map f).Nodup) {x : α} (hx : x ∈ xs) :
    xs.find? (fun y => f x = f y) = some x := by
  obtain ⟨y, hy⟩ := Option.isSome_iff_exists.mp
    (List.find?_isSome (p := fun y => f x = f y).mpr ⟨x, hx, by simp⟩)
  have hkey : f x = f y := by simpa using List.find?_some hy
  rw [hy, List.inj_on_of_nodup_map hnodup hx (List.mem_of_find?_eq_some hy) hkey]

omit [Field K] in
/-- What is asked for: the indices of the ports of the connections. -/
theorem mem_dataSet {name idx : String} : some idx ∈ A.dataSet name ↔
    ∃ e ∈ A.directed, e.deviceName1 = name ∧ A.ifToIdx name e.port1 = some idx := by
  unfold dataSet directed
  simp only [List.mem_flatMap, List.mem_append, List.mem_cons, List.not_mem_nil, or_false]
  constructor
  · rintro ⟨l, hl, h | h⟩
    · split at h
      · rename_i hname
        exact ⟨l, ⟨l, hl, Or.inl rfl⟩, hname, (List.mem_singleton.mp h).symm⟩
      · exact absurd h (by simp)
    · split at h
      · rename_i hname
        exact ⟨flip l, ⟨l, hl, Or.inr rfl⟩, hname, (List.mem_singleton.mp h).symm⟩
      · exact absurd h (by simp)
  · rintro ⟨e, ⟨l, hl, rfl | rfl⟩, hname, hidx⟩
    · exact ⟨e, hl, Or.inl (by rw [if_pos hname, hidx]; exact List.mem_singleton_self _)⟩
    · refine ⟨l, hl, Or.inr ?_⟩
      rw [if_pos (show l.deviceName2 = name from hname)]
      exact List.mem_singleton.mpr hidx.symm

namespace Consistent

variable (hA : Consistent A)

include hA

omit [Field K] in
/-- The ip of a device leads back to it, and its name to the ip. -/
theorem ipToName_iff {name ip : String} : A.ipToName ip = some name ↔ A.nameToIp name = some ip := by
  unfold ipToName nameToIp Planner.nameToIp
  simp only [Option.map_eq_some_iff]
  constructor
  · rintro ⟨node, hfind, rfl⟩
    have hip : ip = node.deviceIp := by simpa using List.find?_some hfind
    exact ⟨node, find?_of_nodup hA.names (List.mem_of_find?_eq_some hfind), hip.symm⟩
  · rintro ⟨node, hfind, rfl⟩
    have hname : name = node.deviceName := by simpa using List.find?_some hfind
    exact ⟨node, find?_of_nodup hA.ips (List.mem_of_find?_eq_some hfind), hname.symm⟩

omit [Field K] in
/-- A reported row is about a port exactly if it carries the ip of the device and the index of the
port. -/
theorem reports_iff {row : IfRow K} {a port : String} (ha : a ∈ A.names) :
    A.Reports row a port ↔
      A.nameToIp a = some row.ip ∧ A.ifToIdx a port = some (toString row.ifIndex) := by
  unfold Reports idxToIf Planner.idxToIf ifToIdx
  rw [hA.ipToName_iff]
  refine and_congr_right fun _ => ?_
  simp only [Option.mem_def, Option.map_eq_some_iff]
  constructor
  · rintro ⟨_, ⟨inf, hfind, rfl⟩, htail⟩
    have hvalue : toString row.ifIndex = inf.value := by simpa using List.find?_some hfind
    have hlabel : tail port = tail inf.label := by
      rw [htail, tail, String.toList_ofList]
      rfl
    refine ⟨inf, ?_, hvalue.symm⟩
    rw [hlabel]
    exact find?_of_nodup (hA.labels a ha) (List.mem_of_find?_eq_some hfind)
  · rintro ⟨inf, hfind, hvalue⟩
    have hlabel : tail port = tail inf.label := by simpa using List.find?_some hfind
    refine ⟨_, ⟨inf, ?_, rfl⟩, ?_⟩
    · rw [← hvalue]
      exact find?_of_nodup (hA.values a ha) (List.mem_of_find?_eq_some hfind)
    · rw [hlabel, tail, tail, String.toList_ofList]
      rfl

omit [Field K] in
/-- A port of a connection is reported. -/
theorem reported {e : LinkEntry} (he : e ∈ A.directed) :
    ∃ row ∈ A.iflist, A.Reports row e.deviceName1 e.port1 := by
  have hname := (directed_listed hA.listed he).1
  obtain ⟨idx, hidx⟩ := Option.isSome_iff_exists.mp (hA.known e he)
  obtain ⟨row, hrow, hip, hindex⟩ := hA.answered _ hname _ (mem_dataSet.mpr ⟨e, he, rfl, hidx⟩) idx rfl
  exact ⟨row, hrow, (hA.reports_iff hname).mpr ⟨hip, by rw [hidx, hindex]⟩⟩

theorem speeds_ne_nil {e : LinkEntry} (he : e ∈ A.directed) :
    A.speeds e.deviceName1 e.port1 ≠ [] := by
  obtain ⟨row, hrow, hrep⟩ := hA.reported he
  exact List.ne_nil_of_mem (List.mem_map_of_mem (List.mem_filter.mpr ⟨hrow, by simpa using hrep⟩))

/-- The speed of a cable is one that was reported for its near port. -/
theorem cable_speed {e : LinkEntry} (he : e ∈ A.directed) :
    ∃ row ∈ A.iflist, A.nameToIp e.deviceName1 = some row.ip ∧
      A.ifToIdx e.deviceName1 e.port1 = some (toString row.ifIndex) ∧
      (A.cable e).bw = row.ifHighSpeed / 1000 := by
  have hne := hA.speeds_ne_nil he
  obtain ⟨speed, rest, hspeeds⟩ := List.exists_cons_of_ne_nil hne
  have hmem : speed ∈ A.speeds e.deviceName1 e.port1 := by
    rw [hspeeds]
    exact List.mem_cons_self
  obtain ⟨row, hrow, rfl⟩ := List.mem_map.mp hmem
  obtain ⟨hrow, hrep⟩ := List.mem_filter.mp hrow
  obtain ⟨hip, hidx⟩ := (hA.reports_iff (directed_listed hA.listed he).1).mp (of_decide_eq_true hrep)
  refine ⟨row, hrow, hip, hidx, ?_⟩
  unfold cable
  rw [hspeeds]
  rfl

/-- No row of `iflist` raises. -/
theorem addSpeed_isSome {row : IfRow K} (hrow : row ∈ A.iflist) (links : LinkRows K) :
    ∃ links', A.addSpeed links row = some links' := by
  obtain ⟨name, hname, hip, hidx⟩ := hA.asked row hrow
  obtain ⟨e, -, rfl, hport⟩ := mem_dataSet.mp hidx
  have hrep : A.Reports row e.deviceName1 e.port1 := (hA.reports_iff hname).mpr ⟨hip, hport⟩
  obtain ⟨-, label, hlabel, -⟩ := hrep
  unfold addSpeed
  rw [hA.ipToName_iff.mpr hip]
  simp only [Option.mem_def.mp hlabel]
  exact ⟨_, rfl⟩

end Consistent

/-- **Every connection gets the speed of its own port.**  For consistent answers of the controller the
script puts its link table together without raising; between any two devices it has the connections of
the link list, seen from the first, and the bandwidth of each is a speed the controller has reported
for the index of its port on the first device. -/
theorem discover_of_consistent (A : Answers K) (hA : Consistent A) :
    ∃ links, A.discover = some links ∧ ∀ a b,
      (links a b).map (fun c => (c.port1, c.port2))
          = (A.entries a b).map (fun e => (e.port1, e.port2)) ∧
        ∀ c ∈ links a b, ∃ row ∈ A.iflist, A.nameToIp a = some row.ip ∧
          A.ifToIdx a c.port1 = some (toString row.ifIndex) ∧ c.bw = row.ifHighSpeed / 1000 := by
  obtain ⟨links₁, hentries, -⟩ : ∃ links, A.linklist.foldlM A.addEntry (fun _ => []) = some links ∧
      True :=
    Run.exists_of_step (fun _ l hl _ => ⟨_, if_pos (hA.listed l hl), trivial⟩) trivial
  obtain ⟨links₂, hspeeds, -⟩ : ∃ links, A.iflist.foldlM A.addSpeed links₁ = some links ∧ True := by
    refine Run.exists_of_step (fun links row hrow _ => ?_) trivial
    obtain ⟨links', h⟩ := hA.addSpeed_isSome hrow links
    exact ⟨links', h, trivial⟩
  have hread : ∀ l ∈ A.names, ∀ ll ∈ A.names, ∀ lll ∈ links₂ (l, ll), ¬ lll.speeds.isEmpty := by
    intro l _ ll _ lll hlll
    rw [rows_of_speeds hspeeds, (rows_of_entries hentries).2, List.map_map] at hlll
    obtain ⟨e, he, rfl⟩ := List.mem_map.mp hlll
    obtain ⟨hmem, hends⟩ := List.mem_filter.mp he
    obtain ⟨rfl, -⟩ := of_decide_eq_true hends
    have hne := hA.speeds_ne_nil hmem
    simpa [speeds] using hne
  have hdisc : A.discover = some (cablesOf links₂) := by
    simp only [discover, hentries, hspeeds, Option.bind_eq_bind, Option.bind_some, if_pos hread]
  refine ⟨_, hdisc, fun a b => ?_⟩
  obtain ⟨-, htable⟩ := discover_eq_some hdisc
  rw [htable, List.map_map]
  refine ⟨rfl, fun c hc => ?_⟩
  obtain ⟨e, he, rfl⟩ := List.mem_map.mp hc
  obtain ⟨hmem, hends⟩ := List.mem_filter.mp he
  obtain ⟨rfl, -⟩ := of_decide_eq_true hends
  exact hA.cable_speed hmem

/-- Two leaves and one connection, which the topology and the interface table spell differently. -/
def twoLeafAnswers : Answers ℚ where
  nodes := [⟨"Leaf1", "10.0.0.1"⟩, ⟨"Leaf2", "10.0.0.2"⟩]
  linklist := [⟨"Leaf1", "Eth1", "Leaf2", "Eth2"⟩]
  interfaces := [⟨"10.0.0.1", [⟨"7", "eth1"⟩]⟩, ⟨"10.0.0.2", [⟨"7", "eth1"⟩, ⟨"8", "eth2"⟩]⟩]
  iflist := [⟨"10.0.0.2", 8, 40000⟩, ⟨"10.0.0.1", 7, 100000⟩]

theorem twoLeafAnswers_consistent : Consistent twoLeafAnswers :=
  ⟨by decide +kernel, by decide +kernel, by decide +kernel, by decide +kernel, by decide +kernel,
    by decide +kernel, by decide +kernel, by decide +kernel⟩

theorem discover_of_consistent_twoLeafAnswers :
    ∃ links, twoLeafAnswers.discover = some links ∧
      (links "Leaf1" "Leaf2").map (fun c => (c.port1, c.port2)) = [("Eth1", "Eth2")] := by
  obtain ⟨links, hdisc, htable⟩ := discover_of_consistent twoLeafAnswers twoLeafAnswers_consistent
  refine ⟨links, hdisc, ?_⟩
  rw [(htable "Leaf1" "Leaf2").1]
  decide +kernel

end Answers

end SDNware.Planner
