/-
# SDNware.Server.Router — routes, link book-keeping and controller requests.

The part of the server that turns rates into policy routes: the routes table, the flows recorded on
every link, the list of installed routes, the sequence counter and the requests sent to the
controller.  Every function follows its source; where the source runs into undefined behaviour
(falling off `server_ip_to_if` or `idx_to_ifname`, an index out of range, the route list running
empty) the step does not return.  For erasing at the end iterator, and for assigning to the strings of
a node in a block that was freed before, the platform decides (`Env.eraseEnd`, `Env.assignsRecycled`);
a node in any other block is taken to accept the assignments.

`SDNware.Server.PairStep` says once what one pair of `update_route` can do.
-/
import SDNware.Lib.Run
import SDNware.Server.Search

namespace SDNware.Server

/-! ## §1 — state -/

/-- `struct route`. -/
structure Route where
  seq : Int := -1
  del : Bool := false
  tm : Int := 0
  indev : String := ""
  inport : String := ""
  outdev : String := ""
  outport : String := ""
  pass : List PathHop := []
  deriving DecidableEq

/-- `struct route_list`. -/
structure RouteNode where
  flow : Flow
  tm : Int
  deriving DecidableEq

/-- The rule of a `save` request. -/
structure FlowRule where
  seq : Int
  action : String
  srcIp : String
  dstIp : String
  deriving DecidableEq

/-- The body of a `save` request; devices are pairs of `deviceAlias` and `portName`. -/
structure FlowPath where
  seq : Int
  fabricName : String
  description : String
  inDevice : String × String
  passDeviceList : List (String × String)
  outDevice : String × String
  rules : List FlowRule
  deriving DecidableEq

/-- A request to the controller. -/
inductive Request
  | delete (seq : Int)
  | save (path : FlowPath)
  deriving DecidableEq

/-- The router's state, with the requests sent so far. -/
structure Router where
  routes : Flow → Route
  links : Links
  seq : Int
  nRoute : Nat
  routeList : List RouteNode
  log : List Request

/-- `route_max`. -/
def routeMax : Nat := 1000

/-- The router after `data_init`. -/
def Router.init (E : Env) : Router := ⟨fun _ => {}, E.getLinks, 1, 0, [], []⟩

/-- Assigning to `routes[sip][dip]`. -/
def Router.setRoute (r : Router) (p : Flow) (rt : Route) : Router :=
  { r with routes := Function.update r.routes p rt }

/-! ## §2 — flows on links -/

/-- One loop over `links[a][b]` and the port it compares `port2` with. -/
abbrev Hop := (String × String) × String

/-- `for (auto &_link : links[a][b]) if (_link.port2 == port) …`. -/
def editHop (op : List Flow → List Flow) (links : Links) (hop : Hop) : Links :=
  Function.update links hop.1
    ((links hop.1).map fun l => if l.port2 = hop.2 then { l with flows := op l.flows } else l)

/-- Several such loops, one after the other. -/
def editHops (op : List Flow → List Flow) (links : Links) (hops : List Hop) : Links :=
  hops.foldl (editHop op) links

/-- `flows.erase(find(flows.begin(), flows.end(), p))`. -/
def eraseFlow (E : Env) (p : Flow) (flows : List Flow) : Option (List Flow) :=
  if p ∈ flows then some (flows.erase p) else E.eraseEnd flows

/-- The loop that erases a flow, which need not return. -/
def eraseHop (E : Env) (p : Flow) (links : Links) (hop : Hop) : Option Links :=
  ((links hop.1).mapM fun l =>
    if l.port2 = hop.2 then (eraseFlow E p l.flows).map fun flows => { l with flows := flows }
    else some l).map (Function.update links hop.1)

/-- The loops between consecutive `passroute` entries; all compare with the first entry's port. -/
def middleHops (first : PathHop) (rest : List PathHop) : List Hop :=
  ((first :: rest).zip rest).map fun ab => ((ab.1.1, ab.2.1), first.2)

/-- The loops of `del_route_in_links`; `selfOutdev` is `routes[sip][sip].outdev`. -/
def delHops (E : Env) (p : Flow) (rt : Route) (selfOutdev : String) : List Hop :=
  match rt.pass with
  | first :: rest =>
    ((E.serverIpToSwitchName p.1, first.1), first.2) :: (middleHops first rest ++
      [(((rest.getLastD first).1, rt.outdev), (rest.getLastD first).2)])
  | [] => [((rt.indev, selfOutdev), rt.outport)]

/-- The loops of `save_route_in_links`. -/
def saveHops (E : Env) (p : Flow) (rt : Route) : List Hop :=
  match rt.pass with
  | first :: rest =>
    ((E.serverIpToSwitchName p.1, first.1), first.2) :: (middleHops first rest ++
      [(((rest.getLastD first).1, rt.outdev), rt.outport)])
  | [] => [((rt.indev, rt.outdev), rt.outport)]

/-- `del_route_in_links`. -/
def delRouteInLinks (E : Env) (r : Router) (p : Flow) : Option Router :=
  ((delHops E p (r.routes p) (r.routes (p.1, p.1)).outdev).foldlM (eraseHop E p) r.links).map
    fun links =>
      { r with
        links := links
        routes := Function.update r.routes p { r.routes p with del := true } }

/-- `save_route_in_links`. -/
def saveRouteInLinks (E : Env) (r : Router) (p : Flow) : Router :=
  { r with
    links := editHops (· ++ [p]) r.links (saveHops E p (r.routes p))
    routes := Function.update r.routes p { r.routes p with del := false } }

/-! ## §3 — requests and the route list -/

/-- `del_route`. -/
def delRoute (r : Router) (seq : Int) : Router := { r with log := r.log ++ [.delete seq] }

/-- The body `save_route` builds. -/
def flowPath (p : Flow) (rt : Route) : FlowPath where
  seq := rt.seq
  fabricName := "test"
  description := ""
  inDevice := (rt.indev, rt.inport)
  passDeviceList := rt.pass
  outDevice := (rt.outdev, rt.outport)
  rules := [⟨rt.seq, "permit", p.1, p.2⟩]

/-- `save_route`. -/
def saveRoute (r : Router) (p : Flow) : Router :=
  { r with log := r.log ++ [.save (flowPath p (r.routes p))] }

/-- The eviction of `add_route`: heads older than `tm`, then one more. The list must not run out,
nor lose the node `route_end` points to. -/
def evict (tm : Int) : List RouteNode → Option (List RouteNode)
  | [] => none
  | node :: rest =>
    if node.tm < tm then evict tm rest
    else if rest = [] then none
    else some rest

/-- The new node of `add_route`, behind what is left of the list. -/
def appendNode (r : Router) (p : Flow) (now : Int) (list : List RouteNode) : Router :=
  { r with
    routes := Function.update r.routes p { r.routes p with tm := now }
    nRoute := r.nRoute + 1
    routeList := list ++ [⟨p, now⟩] }

/-- `add_route`, `now` being its clock reading. After an eviction `malloc` hands back the block freed
last; otherwise the block is taken to be fresh, with zeros in place of the strings. -/
def addRoute (E : Env) (r : Router) (p : Flow) (now : Int) : Option Router :=
  if r.nRoute = 0 then some (appendNode r p now [])
  else if routeMax ≤ r.nRoute ∧ (r.routes p).del then
    (evict (r.routes p).tm r.routeList).bind fun list =>
      if E.assignsRecycled then some (appendNode r p now list) else none
  else some (appendNode r p now r.routeList)

/-! ## §4 — `get_route` and `update_route` -/

/-- `if (!del) { del_route(seq); del_route_in_links(sip, dip); }`. -/
def retire (E : Env) (r : Router) (p : Flow) : Option Router :=
  if (r.routes p).del then some r
  else delRouteInLinks E (delRoute r (r.routes p).seq) p

/-- `routes[sip][dip].pass = …`. -/
def Router.setPass (r : Router) (p : Flow) (pass : List PathHop) : Router :=
  r.setRoute p { r.routes p with pass := pass }

/-- One round of the loop that compares `pass` with the new path, entry `k`; the flag is
`is_update`. -/
def passStep (E : Env) (p : Flow) (path : List PathHop) (st : Bool × Router) (k : Nat) :
    Option (Bool × Router) := do
  let new := path.getD k ("", "")
  let old := (st.2.routes p).pass.getD k ("", "")
  let st ←
    if old.1 ≠ new.1 then
      (retire E st.2 p).map fun r =>
        (true, r.setPass p ((r.routes p).pass.modify k fun hop => (new.1, hop.2)))
    else some st
  if old.2 ≠ new.2 then
    (retire E st.2 p).map fun r =>
      (true, r.setPass p ((r.routes p).pass.modify k fun hop => (hop.1, new.2)))
  else some st

/-- The three branches on the stored route: none yet, another length, the same length. -/
def assignPass (E : Env) (r : Router) (p : Flow) (path : List PathHop) : Option (Bool × Router) :=
  let rt := r.routes p
  let s := serverIdx E p.1
  if rt.seq = -1 then
    (E.serverIpToIf p.1).bind fun port =>
      (E.idxToIfname (E.switchIdxToIp s) port).map fun inport =>
        (true,
          { r.setRoute p
              { rt with
                seq := r.seq
                del := false
                indev := E.switchIdxToName s
                inport := inport
                pass := rt.pass ++ path.dropLast } with
            seq := r.seq + 1 })
  else if path.length ≠ rt.pass.length + 1 then
    (retire E r p).map fun r => (true, r.setPass p path.dropLast)
  else (List.range (path.length - 1)).foldlM (passStep E p path) (false, r)

/-- `switch_idx_to_name(d)`. -/
def outName (E : Env) (p : Flow) : String := E.switchIdxToName (serverIdx E p.2)

/-- `tmp_route[tmp_route.size() - 1].second`. -/
def lastPort (path : List PathHop) : String := (path.getLastD ("", "")).2

/-- The assignments to `outdev` and `outport`. -/
def assignOut (E : Env) (p : Flow) (path : List PathHop) (st : Bool × Router) :
    Option (Bool × Router) :=
  let r := st.2.setRoute p { st.2.routes p with outdev := outName E p }
  if (r.routes p).outport = "" then
    some (st.1, r.setRoute p { r.routes p with outport := lastPort path })
  else if (r.routes p).outport ≠ lastPort path then
    (retire E r p).map fun r => (true, r.setRoute p { r.routes p with outport := lastPort path })
  else some (st.1, r)

/-- The rest of `get_route` once `tmp_route` is known. -/
def applyRoute (E : Env) (r : Router) (p : Flow) (path : List PathHop) : Option (Bool × Router) :=
  (assignPass E r p path).bind fun st =>
    (assignOut E p path st).map fun st =>
      if st.1 then (true, saveRouteInLinks E st.2 p) else st

section Round

variable {R : Type} [DoubleOps R] (E : Env) (rates : RateMap R)

/-- `get_route`. -/
def getRoute (fuel : Nat) (r : Router) (p : Flow) : Option (Bool × Router) :=
  if serverIdx E p.1 = serverIdx E p.2 then some (false, r)
  else (findRoute E rates r.links fuel p).bind (applyRoute E r p)

/-- The loop body of `update_route` for a flow with a positive rate. -/
def pairStep (fuel : Nat) (clock : Flow → Int) (r : Router) (p : Flow) : Option Router :=
  (getRoute E rates fuel r p).bind fun res =>
    if res.1 then (addRoute E res.2 p (clock p)).map fun r => saveRoute r p
    else some res.2

/-- The flows with a positive rate, in the order of `txRates`. -/
def activePairs : List Flow :=
  (rates.keys.map ofLex).filter fun p => DoubleOps.lt (DoubleOps.ofInt 0) (rates.rate p)

/-- `update_route`. -/
def updateRoute (fuel : Nat) (clock : Flow → Int) (r : Router) : Option Router :=
  (activePairs rates).foldlM (pairStep E rates fuel clock) r

end Round

/-- The server's state: rates on one side, routes on the other. -/
structure State (R : Type) where
  collector : Collector R
  router : Router

/-- A received batch, or a round of `update_route` with its clock readings. -/
inductive Event
  | batch (samples : List Sample)
  | round (fuel : Nat) (clock : Flow → Int)

/-- The server after `data_init`. -/
def State.init {R : Type} [DoubleOps R] (E : Env) : State R := ⟨Collector.init, Router.init E⟩

/-- One event. -/
def State.step {R : Type} [DoubleOps R] (E : Env) (s : State R) : Event → Option (State R)
  | .batch samples => some { s with collector := addSendRec E s.collector samples }
  | .round fuel clock =>
      (updateRoute E s.collector.txRates fuel clock s.router).map fun r => { s with router := r }

end SDNware.Server
