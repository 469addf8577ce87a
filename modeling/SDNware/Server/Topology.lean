/-
# SDNware.Server.Topology — what `data_init` reads, and the lookups over it.

Three sources: the controller's topology (`deviceList`, `linkList`), the controller's interface
table, and `server_list.txt`.  The lookups keep the fallbacks of the code: `switch_name_to_idx`
answers 0 for an unknown name, `server_ip_to_switch_name` the empty string for an unknown ip, and
`server_ip_to_if` and `idx_to_ifname` fall off the end of a non-void function, here `none`.

`switch_ip_to_name` looks the ip up among the names.  So it answers the first switch for every ip that
is not also a name, and the conversions between names and ips are inverse exactly if every switch but
the first is named by its ip (`conversions_inverse_iff`).

`switch_server_list` and `server_ip_to_switch_name` are filled by the same loop but not in step: a
switch listed twice keeps only its last list in the first, while the second keeps the servers of
both.
-/
import Mathlib.Data.List.Sort
import Mathlib.Data.List.Dedup
import Mathlib.Data.String.Basic
import Mathlib.Logic.Function.Basic

namespace SDNware.Server

/-- A flow: source ip and destination ip. -/
abbrev Flow := String × String

/-- One directed connection between two switches. -/
structure Link where
  port1 : String
  port2 : String
  flows : List Flow
  deriving DecidableEq

/-- `links`, with the empty vector for absent keys. -/
abbrev Links := String × String → List Link

/-- An element of the controller's `deviceList`. -/
structure Device where
  deviceName : String
  deviceIp : String

/-- An element of the controller's `linkList`. -/
structure LinkEntry where
  deviceName1 : String
  port1 : String
  deviceName2 : String
  port2 : String

/-- A port of a device in the interface table. -/
structure IfEntry where
  value : String
  label : String

/-- The ports of one device, found by the device's ip. -/
structure IfGroup where
  value : String
  children : List IfEntry

/-- A server as `server_list.txt` lists it. -/
structure ServerEntry where
  ip : String
  port : String
  bw : Int

/-- What the server program is given: the controller's answers, the sections of `server_list.txt` in
file order, and what the platform makes of two undefined operations. -/
structure Env where
  nodes : List Device
  linklist : List LinkEntry
  interfaces : List IfGroup
  serverList : List (String × List ServerEntry)
  /-- `vector::erase` of the end iterator, `none` if it does not return. -/
  eraseEnd : List Flow → Option (List Flow)
  /-- Whether assigning to the strings of a `malloc`ed node, which nothing has constructed, returns in a
  block that `free` has given back. -/
  assignsRecycled : Bool

/-- `vector::erase` of the end iterator in libstdc++: the last entry is destroyed, and there must be
one. -/
def eraseLast : List Flow → Option (List Flow)
  | [] => none
  | flow :: flows => some (flow :: flows).dropLast

namespace Env

variable (E : Env)

/-- `n_switch`. -/
def nSwitch : Nat := E.nodes.length

/-- `switch_name_to_idx`. -/
def switchNameToIdx (name : String) : Nat :=
  (E.nodes.findIdx? fun node => node.deviceName = name).getD 0

/-- `switch_idx_to_name`. -/
def switchIdxToName (idx : Nat) : String := (E.nodes[idx]?.map Device.deviceName).getD ""

/-- `switch_idx_to_ip`. -/
def switchIdxToIp (idx : Nat) : String := (E.nodes[idx]?.map Device.deviceIp).getD ""

/-- `switch_ip_to_idx`. -/
def switchIpToIdx (ip : String) : Nat :=
  (E.nodes.findIdx? fun node => node.deviceIp = ip).getD 0

/-- `switch_name_to_ip`. -/
def switchNameToIp (name : String) : String := E.switchIdxToIp (E.switchNameToIdx name)

/-- `switch_ip_to_name`, which searches among the names. -/
def switchIpToName (ip : String) : String := E.switchIdxToName (E.switchNameToIdx ip)

/-- `links[a][b].emplace_back(…)`. -/
def pushLink (links : Links) (ab : String × String) (l : Link) : Links :=
  Function.update links ab (links ab ++ [l])

/-- One `linkList` element of `get_links`: a connection each way. -/
def addLink (links : Links) (l : LinkEntry) : Links :=
  pushLink (pushLink links (l.deviceName1, l.deviceName2) ⟨l.port1, l.port2, []⟩)
    (l.deviceName2, l.deviceName1) ⟨l.port2, l.port1, []⟩

/-- `get_links`. -/
def getLinks : Links := E.linklist.foldl addLink fun _ => []

/-- `switch_server_list[sw]`: the last section of the switch. -/
def lastListing (sw : String) : List ServerEntry :=
  ((E.serverList.reverse.find? fun listing => listing.1 = sw).map Prod.snd).getD []

/-- `switch_server_list` in the order of `std::map`. -/
def switchServerList : List (String × List ServerEntry) :=
  ((E.serverList.map Prod.fst).dedup.insertionSort (· ≤ ·)).map fun sw => (sw, E.lastListing sw)

/-- Every line of `server_list.txt`: a server's ip and the switch of its section. -/
def listedServers : List (String × String) :=
  E.serverList.flatMap fun listing => listing.2.map fun server => (server.ip, listing.1)

/-- `server_ip_to_switch_name[ip]`: the last line of the ip. -/
def serverIpToSwitchName (ip : String) : String :=
  ((E.listedServers.reverse.find? fun server => server.1 = ip).map Prod.snd).getD ""

/-- `server_ip_to_if`. -/
def serverIpToIf (ip : String) : Option String :=
  ((E.switchServerList.flatMap Prod.snd).find? fun server => server.ip = ip).map ServerEntry.port

/-- `idx_to_ifname`. -/
def idxToIfname (ip idx : String) : Option String :=
  (((E.interfaces.filter fun group => group.value = ip).flatMap IfGroup.children).find?
    fun inf => inf.value = idx).map IfEntry.label

/-- `check_ip`. -/
def checkIp (ip : String) : Bool :=
  E.switchServerList.any fun sw => sw.2.any fun server => server.ip = ip

variable {E}

theorem checkIp_iff {ip : String} :
    E.checkIp ip = true ↔ ∃ sw ∈ E.serverList.map Prod.fst, ∃ server ∈ E.lastListing sw,
      server.ip = ip := by
  simp only [checkIp, switchServerList, List.any_map, List.any_eq_true, Function.comp_apply,
    List.mem_insertionSort, List.mem_dedup, decide_eq_true_eq]

/-- A registered ip has a port. -/
theorem serverIpToIf_isSome {ip : String} (h : E.checkIp ip = true) :
    (E.serverIpToIf ip).isSome := by
  simp only [checkIp, List.any_eq_true, decide_eq_true_eq] at h
  obtain ⟨sw, hsw, server, hserver, hip⟩ := h
  unfold serverIpToIf
  rw [Option.isSome_map, List.find?_isSome]
  exact ⟨server, List.mem_flatMap.mpr ⟨sw, hsw, hserver⟩, by simpa using hip⟩

theorem mem_of_lastListing {sw : String} {server : ServerEntry} (h : server ∈ E.lastListing sw) :
    ∃ listing ∈ E.serverList, listing.1 = sw ∧ server ∈ listing.2 := by
  unfold lastListing at h
  cases hfind : E.serverList.reverse.find? fun listing => listing.1 = sw with
  | none =>
    rw [hfind] at h
    exact absurd h (by simp)
  | some listing =>
    rw [hfind] at h
    have hname := List.find?_some hfind
    exact ⟨listing, List.mem_reverse.mp (List.mem_of_find?_eq_some hfind), by simpa using hname, h⟩

/-- A registered ip has a switch, on whose section of `server_list.txt` it stands. -/
theorem serverIpToSwitchName_mem {ip : String} (h : E.checkIp ip = true) :
    ∃ listing ∈ E.serverList, E.serverIpToSwitchName ip = listing.1 ∧
      ∃ server ∈ listing.2, server.ip = ip := by
  obtain ⟨sw, -, server, hserver, hip⟩ := checkIp_iff.mp h
  obtain ⟨listing, hlisting, -, hmem⟩ := mem_of_lastListing hserver
  have hlisted : (server.ip, listing.1) ∈ E.listedServers :=
    List.mem_flatMap.mpr ⟨listing, hlisting, List.mem_map.mpr ⟨server, hmem, rfl⟩⟩
  unfold serverIpToSwitchName
  cases hfind : E.listedServers.reverse.find? fun server => server.1 = ip with
  | none =>
    have := List.find?_eq_none.mp hfind _ (List.mem_reverse.mpr hlisted)
    exact absurd hip (by simpa using this)
  | some line =>
    have hline := List.mem_reverse.mp (List.mem_of_find?_eq_some hfind)
    have hlineIp := List.find?_some hfind
    obtain ⟨listing', hlisting', hin⟩ := List.mem_flatMap.mp hline
    obtain ⟨server', hserver', rfl⟩ := List.mem_map.mp hin
    exact ⟨listing', hlisting', rfl, server', hserver', by simpa using hlineIp⟩

/-- A search by a field of the devices stops at a device with that field. -/
theorem exists_findIdx (field : Device → String) {key : String} (h : key ∈ E.nodes.map field) :
    ∃ node ∈ E.nodes, field node = key ∧
      E.nodes[(E.nodes.findIdx? fun n => field n = key).getD 0]? = some node := by
  obtain ⟨node, hnode, rfl⟩ := List.mem_map.mp h
  have hsome : (E.nodes.findIdx? fun n => field n = field node).isSome := by
    rw [List.findIdx?_isSome, List.any_eq_true]
    exact ⟨node, hnode, by simp⟩
  obtain ⟨i, hi⟩ := Option.isSome_iff_exists.mp hsome
  obtain ⟨hlt, hfield, -⟩ := List.findIdx?_eq_some_iff_getElem.mp hi
  refine ⟨E.nodes[i], List.getElem_mem hlt, by simpa using hfield, ?_⟩
  rw [hi, Option.getD_some, List.getElem?_eq_getElem hlt]

/-- The name of a listed device comes back from its index. -/
theorem switchIdxToName_switchNameToIdx {name : String}
    (h : name ∈ E.nodes.map Device.deviceName) :
    E.switchIdxToName (E.switchNameToIdx name) = name := by
  obtain ⟨node, -, hname, hget⟩ := exists_findIdx Device.deviceName h
  unfold switchIdxToName switchNameToIdx
  rw [hget, Option.map_some, Option.getD_some, hname]

/-- The ip of a listed device comes back from its index. -/
theorem switchIdxToIp_switchIpToIdx {ip : String} (h : ip ∈ E.nodes.map Device.deviceIp) :
    E.switchIdxToIp (E.switchIpToIdx ip) = ip := by
  obtain ⟨node, -, hip, hget⟩ := exists_findIdx Device.deviceIp h
  unfold switchIdxToIp switchIpToIdx
  rw [hget, Option.map_some, Option.getD_some, hip]

/-- Where no name is given twice, a name tells its device and so the device's ip. -/
theorem switchNameToIp_of_mem (hnames : (E.nodes.map Device.deviceName).Nodup) {node : Device}
    (hnode : node ∈ E.nodes) : E.switchNameToIp node.deviceName = node.deviceIp := by
  obtain ⟨found, hfound, hname, hget⟩ :=
    exists_findIdx Device.deviceName (List.mem_map_of_mem hnode)
  have hsame : found = node := List.inj_on_of_nodup_map hnames hfound hnode hname
  unfold switchNameToIp switchIdxToIp switchNameToIdx
  rw [hget, Option.map_some, Option.getD_some, hsame]

/-- `switch_ip_to_name` gives an ip back that happens to be a name. -/
theorem switchIpToName_of_mem {ip : String} (h : ip ∈ E.nodes.map Device.deviceName) :
    E.switchIpToName ip = ip :=
  switchIdxToName_switchNameToIdx h

/-- For any other ip it falls back to the first switch. -/
theorem switchIpToName_of_notMem {ip : String} (h : ip ∉ E.nodes.map Device.deviceName) :
    E.switchIpToName ip = E.switchIdxToName 0 := by
  have hnone : E.nodes.findIdx? (fun node => node.deviceName = ip) = none := by
    rw [List.findIdx?_eq_none_iff]
    intro node hnode
    have hne : node.deviceName ≠ ip := fun heq => h (heq ▸ List.mem_map_of_mem hnode)
    simpa using hne
  unfold switchIpToName switchNameToIdx
  rw [hnone, Option.getD_none]

/-- After the first switch of the list, `switch_ip_to_name` is right for the switches that are named
by their ip. -/
theorem switchIpToName_eq_iff {first : Device} {rest : List Device} (hE : E.nodes = first :: rest)
    (hnames : (E.nodes.map Device.deviceName).Nodup) {node : Device} (hnode : node ∈ rest) :
    E.switchIpToName node.deviceIp = node.deviceName ↔ node.deviceName = node.deviceIp := by
  have hmem : node ∈ E.nodes := hE ▸ List.mem_cons_of_mem first hnode
  constructor
  · intro hback
    by_cases hip : node.deviceIp ∈ E.nodes.map Device.deviceName
    · rw [← hback, switchIpToName_of_mem hip]
    · -- the fallback is the first switch, whose name the node does not share
      rw [switchIpToName_of_notMem hip] at hback
      have hfirst : first.deviceName = node.deviceName := by simpa [switchIdxToName, hE] using hback
      rw [hE, List.map_cons, List.nodup_cons, hfirst] at hnames
      exact absurd (List.mem_map_of_mem hnode) hnames.1
  · intro heq
    rw [← heq]
    exact switchIpToName_of_mem (List.mem_map_of_mem hmem)

/-- For the first switch it is right where all the later ones are named by their ip. -/
theorem switchIpToName_first {first : Device} {rest : List Device} (hE : E.nodes = first :: rest)
    (hips : (E.nodes.map Device.deviceIp).Nodup)
    (hrest : ∀ node ∈ rest, node.deviceName = node.deviceIp) :
    E.switchIpToName first.deviceIp = first.deviceName := by
  by_cases hip : first.deviceIp ∈ E.nodes.map Device.deviceName
  · -- a later switch of that name would have that ip too
    rw [switchIpToName_of_mem hip]
    rw [hE, List.map_cons, List.mem_cons] at hip
    rcases hip with hself | hlater
    · exact hself
    · obtain ⟨node, hnode, hname⟩ := List.mem_map.mp hlater
      rw [hE, List.map_cons, List.nodup_cons, ← hname, hrest node hnode] at hips
      exact absurd (List.mem_map_of_mem hnode) hips.1
  · rw [switchIpToName_of_notMem hip]
    simp [switchIdxToName, hE]

/-- **The conversions are inverse only where names are ips.**  `switch_ip_to_name` searches an ip
among the names; the round trips through it hold for every switch exactly if every switch but the
first of the list carries its ip as its name. -/
theorem conversions_inverse_iff (E : Env) (hnames : (E.nodes.map Device.deviceName).Nodup)
    (hips : (E.nodes.map Device.deviceIp).Nodup) :
    (∀ node ∈ E.nodes,
      E.switchIpToName (E.switchNameToIp node.deviceName) = node.deviceName ∧
      E.switchNameToIp (E.switchIpToName node.deviceIp) = node.deviceIp ∧
      E.switchIdxToName (E.switchNameToIdx node.deviceName) = node.deviceName ∧
      E.switchIdxToIp (E.switchIpToIdx node.deviceIp) = node.deviceIp) ↔
    ∀ node ∈ E.nodes.tail, node.deviceName = node.deviceIp := by
  cases hE : E.nodes with
  | nil => simp
  | cons first rest =>
    rw [List.tail_cons, ← hE]
    constructor
    · intro hinverse node hnode
      have hmem : node ∈ E.nodes := hE ▸ List.mem_cons_of_mem first hnode
      have hback := (hinverse node hmem).1
      rw [switchNameToIp_of_mem hnames hmem] at hback
      exact (switchIpToName_eq_iff hE hnames hnode).mp hback
    · intro hrest node hmem
      have hback : E.switchIpToName node.deviceIp = node.deviceName := by
        rw [hE, List.mem_cons] at hmem
        rcases hmem with rfl | hnode
        · exact switchIpToName_first hE hips hrest
        · exact (switchIpToName_eq_iff hE hnames hnode).mpr (hrest node hnode)
      have hip := switchNameToIp_of_mem hnames hmem
      refine ⟨?_, ?_, ?_, ?_⟩
      · rw [hip, hback]
      · rw [hback, hip]
      · exact switchIdxToName_switchNameToIdx (List.mem_map_of_mem hmem)
      · exact switchIdxToIp_switchIpToIdx (List.mem_map_of_mem hmem)

/-- An environment of which only the node list is read. -/
def ofNodes (nodes : List Device) : Env where
  nodes := nodes
  linklist := []
  interfaces := []
  serverList := []
  eraseEnd := eraseLast
  assignsRecycled := false

/-- A second switch that carries its ip as its name. -/
def namedByIp : Env := ofNodes [⟨"Spine1", "10.0.0.1"⟩, ⟨"10.0.0.2", "10.0.0.2"⟩]

theorem conversions_inverse_namedByIp :
    namedByIp.switchIpToName (namedByIp.switchNameToIp "Spine1") = "Spine1" ∧
      namedByIp.switchNameToIp (namedByIp.switchIpToName "10.0.0.2") = "10.0.0.2" := by
  have hinverse := (conversions_inverse_iff namedByIp (by decide) (by decide)).mpr (by decide)
  constructor
  · exact (hinverse ⟨"Spine1", "10.0.0.1"⟩ List.mem_cons_self).1
  · exact (hinverse ⟨"10.0.0.2", "10.0.0.2"⟩ (List.mem_cons_of_mem _ List.mem_cons_self)).2.1

/-- With names that are not ips, the second switch is taken for the first both ways. -/
theorem switchIpToName_takes_first :
    ∃ E : Env, E.nodes = [⟨"Spine1", "10.0.0.1"⟩, ⟨"Leaf1", "10.0.0.2"⟩] ∧
      (E.nodes.map Device.deviceName).Nodup ∧ (E.nodes.map Device.deviceIp).Nodup ∧
      E.switchIpToName (E.switchNameToIp "Leaf1") = "Spine1" ∧
      E.switchNameToIp (E.switchIpToName "10.0.0.2") = "10.0.0.1" :=
  ⟨ofNodes [⟨"Spine1", "10.0.0.1"⟩, ⟨"Leaf1", "10.0.0.2"⟩], rfl, by decide, by decide, by decide,
    by decide⟩

/-- Every link of a table meets `P`. -/
def AllLinks (P : Link → Prop) (links : Links) : Prop := ∀ ab, ∀ l ∈ links ab, P l

theorem allLinks_pushLink {P : Link → Prop} {links : Links} (h : AllLinks P links)
    (ab : String × String) {l : Link} (hl : P l) : AllLinks P (pushLink links ab l) := by
  intro cd l' hl'
  unfold pushLink at hl'
  by_cases hcd : cd = ab
  · rw [hcd, Function.update_self] at hl'
    rcases List.mem_append.mp hl' with hold | hnew
    · exact h ab l' hold
    · rw [List.mem_singleton.mp hnew]
      exact hl
  · rw [Function.update_of_ne hcd] at hl'
    exact h cd l' hl'

/-- What holds of a new connection, each way, holds of every link `get_links` builds. -/
theorem allLinks_getLinks {P : Link → Prop}
    (h : ∀ e ∈ E.linklist, P ⟨e.port1, e.port2, []⟩ ∧ P ⟨e.port2, e.port1, []⟩) :
    AllLinks P E.getLinks := by
  have hfold : ∀ (es : List LinkEntry) (links : Links), AllLinks P links →
      (∀ e ∈ es, P ⟨e.port1, e.port2, []⟩ ∧ P ⟨e.port2, e.port1, []⟩) →
        AllLinks P (es.foldl addLink links) := by
    intro es
    induction es with
    | nil => exact fun links hlinks _ => hlinks
    | cons e es ih =>
      intro links hlinks hes
      obtain ⟨h1, h2⟩ := hes e List.mem_cons_self
      apply ih
      · exact allLinks_pushLink (allLinks_pushLink hlinks _ h1) _ h2
      · exact fun e' he' => hes e' (List.mem_cons_of_mem e he')
  exact hfold E.linklist (fun _ => []) (fun _ _ hl => absurd hl (by simp)) h

end Env

end SDNware.Server
