import Bws.NetGroup

/-!
# The connections of a node

The threads of a node share its connections: one serves the sockets and deletes what has been
disconnected, one processes messages, and others open connections.  Their steps are what they do
between two locks of `cs_vNodes`, and every write to a node that another thread may use; the steps may
come in any order.
-/

namespace Bws

/-- A pointer to a `CNode`; none is given out twice. -/
abbrev NodePtr := ℕ

/-- What a connection is opened for. -/
inductive Task where
  /-- an address of the manager, in `ThreadOpenConnections` -/
  | automatic
  /-- `-connect` -/
  | connect (strDest : List UInt8)
  /-- `ProcessOneShot` -/
  | oneShot (strDest : List UInt8)
  /-- `-addnode`, in `ThreadOpenAddedConnections` -/
  | added (addr : CService)
  | addedName (strDest : List UInt8)
  /-- `addnode "node" onetry` -/
  | onetry (strDest : List UInt8)
deriving DecidableEq

namespace Task

def strDest : Task → Option (List UInt8)
  | automatic | added _ => none
  | connect strDest | oneShot strDest | addedName strDest | onetry strDest => some strDest

/-- A grant of `semOutbound` is passed. -/
def fGrant : Task → Bool
  | automatic | oneShot _ | added _ | addedName _ => true
  | connect _ | onetry _ => false

def fOneShot : Task → Bool
  | oneShot _ => true
  | _ => false

/-- `OpenNetworkConnection`, and not `ConnectNode` alone. -/
def fOpen : Task → Bool
  | onetry _ => false
  | _ => true

end Task

/-- The threads that open connections. -/
inductive Opener where
  | openConnections
  | openAddedConnections
  | rpc (n : ℕ)
deriving DecidableEq

def Opener.does : Opener → Task → Bool
  | openConnections, .automatic | openConnections, .connect _ | openConnections, .oneShot _ => true
  | openAddedConnections, .added _ | openAddedConnections, .addedName _ => true
  | rpc _, .onetry _ => true
  | _, _ => false

/-- `CNode` -/
structure PeerNode where
  addr : CService
  addrName : List UInt8
  fInbound : Bool
  fNetworkNode : Bool
  fOneShot : Bool
  fDisconnect : Bool
  /-- whether it has a grant -/
  grantOutbound : Bool
  nRefCount : ℤ
  nMisbehavior : ℤ
  /-- history: what it has been opened for -/
  task : Option Task

/-- What `OpenNetworkConnection` asks before it connects. -/
inductive OpenCheck where
  | isLocal
  | findIp
  | isBanned
  | findName (addrName : List UInt8)

/-- What `ConnectNode` and `OpenNetworkConnection` write to a node after they have got it. -/
inductive OpenWrite where
  | nTimeConnected
  | grantOutbound
  | fNetworkNode
  | fOneShot
deriving DecidableEq

/-- The writes, to a node that has been found and to a new one. -/
def Task.writes (task : Task) (fFound : Bool) : List OpenWrite :=
  (if fFound then [] else [.nTimeConnected]) ++
    if task.fOpen then
      (if task.fGrant then [.grantOutbound] else []) ++
        .fNetworkNode :: if task.fOneShot then [.fOneShot] else []
    else []

/-- Where `ThreadSocketHandler` is. -/
inductive SocketPc where
  | disconnect
  | delete (rest : List NodePtr)
  /-- the count and the locks have been looked at -/
  | deleting (pnode : NodePtr) (rest : List NodePtr)
  | accept
  | accepting (addr : CService)
  | serve (vNodesCopy rest : List NodePtr)

/-- Where `ThreadMessageHandler` is. -/
inductive MessagePc where
  | poll
  | serve (vNodesCopy rest : List NodePtr)
  | process (pnode : NodePtr) (vNodesCopy rest : List NodePtr)

/-- Where a thread is that opens connections. -/
inductive OpenerPc where
  | idle
  | granted
  | choosing (setConnected : List (List UInt8))
  | checking (task : Task) (addr : CService) (checks : List OpenCheck)
  | dialing (task : Task) (addr : CService)
  /-- `FindNode` has found a node in `ConnectNode` -/
  | found (task : Task) (pnode : NodePtr)
  | opened (task : Task) (fFound : Bool) (pnode : NodePtr) (writes : List OpenWrite)

/-- The arguments `-maxconnections`, `-banscore` and `-bantime`, and the text of an address. -/
structure PeerArgs where
  resolver : Resolver
  nMaxConnections : ℤ
  nBanScore : ℤ
  nBanTime : ℤ

/-- What is asked when there is no name. -/
def openChecks (A : PeerArgs) (addr : CService) : List OpenCheck :=
  [.isLocal, .findIp, .isBanned, .findName (toStringIPPort A.resolver addr)]

/-- A name is resolved when it is dialed. -/
def noService : CService := ⟨Vector.replicate 16 0, 0⟩

/-- Where a task starts. -/
def Task.start (A : PeerArgs) (task : Task) : OpenerPc :=
  match task with
  | automatic => .granted
  | added addr => .checking task addr (openChecks A addr)
  | connect strDest | oneShot strDest | addedName strDest =>
    .checking task noService [.findName strDest]
  | onetry _ => .checking task noService []

/-- The connections, and the threads. -/
structure Peers where
  /-- the nodes that exist -/
  heap : NodePtr → Option PeerNode
  /-- the next pointer -/
  nextPtr : NodePtr
  vNodes : List NodePtr
  vNodesDisconnected : List NodePtr
  semOutbound : ℤ
  setBanned : CNetAddr → Option ℤ
  socket : SocketPc
  message : MessagePc
  opener : Opener → OpenerPc
  /-- which threads have a grant -/
  grant : Opener → Bool

inductive PeerFault where
  | useAfterFree
  /-- `assert(nRefCount >= 0)` -/
  | refCount
deriving DecidableEq

def MAX_OUTBOUND_CONNECTIONS : ℤ := 16

namespace PeerNode

def addRef (node : PeerNode) : PeerNode := { node with nRefCount := node.nRefCount + 1 }

def release (node : PeerNode) : PeerNode := { node with nRefCount := node.nRefCount - 1 }

def getRefCount (node : PeerNode) : Except PeerFault ℤ :=
  if 0 ≤ node.nRefCount then .ok node.nRefCount else .error .refCount

/-- `CloseSocketDisconnect`, and `fDisconnect = true` -/
def close (node : PeerNode) : PeerNode := { node with fDisconnect := true }

/-- The constructor, and the first reference. -/
def create (A : PeerArgs) (addr : CService) (addrNameIn : Option (List UInt8)) (fInbound : Bool)
    (task : Option Task) : PeerNode where
  addr := addr
  addrName :=
    match addrNameIn with
    | some addrName => if addrName = [] then toStringIPPort A.resolver addr else addrName
    | none => toStringIPPort A.resolver addr
  fInbound := fInbound
  fNetworkNode := false
  fOneShot := false
  fDisconnect := false
  grantOutbound := false
  nRefCount := 1
  nMisbehavior := 0
  task := task

/-- Whether a node is to be disconnected. -/
def isDue (node : PeerNode) (fUnused : Bool) : Except PeerFault Bool :=
  if node.fDisconnect then return true
  else do
    let nRefCount ← node.getRefCount
    return nRefCount ≤ 0 && fUnused

/-- What `ThreadSocketHandler` does to a node that it takes out of `vNodes`. -/
def disconnect (node : PeerNode) : PeerNode :=
  { node.close with
    grantOutbound := false
    nRefCount := if node.fNetworkNode || node.fInbound then node.release.nRefCount else node.nRefCount }

end PeerNode

namespace Peers

variable (A : PeerArgs)

/-! ## Nodes -/

def deref (s : Peers) (p : NodePtr) : Except PeerFault PeerNode :=
  match s.heap p with
  | some node => .ok node
  | none => .error .useAfterFree

def put (s : Peers) (p : NodePtr) (node : PeerNode) : Peers :=
  { s with heap := Function.update s.heap p (some node) }

def modify (s : Peers) (p : NodePtr) (f : PeerNode → PeerNode) : Except PeerFault Peers := do
  let node ← s.deref p
  return s.put p (f node)

def derefAll (s : Peers) : List NodePtr → Except PeerFault (List PeerNode)
  | [] => return []
  | p :: ps => do
    let node ← s.deref p
    let nodes ← derefAll s ps
    return node :: nodes

def modifyAll (f : PeerNode → PeerNode) : List NodePtr → Peers → Except PeerFault Peers
  | [], s => return s
  | p :: ps, s => do
    let s ← s.modify p f
    modifyAll f ps s

/-- `FindNode`, of some kind. -/
def findNode (s : Peers) (wanted : PeerNode → Bool) : List NodePtr → Except PeerFault (Option NodePtr)
  | [] => return none
  | p :: ps => do
    let node ← s.deref p
    if wanted node then return some p else findNode s wanted ps

/-- `IsBanned` -/
def isBanned (s : Peers) (ip : CNetAddr) (nNow : ℤ) : Bool :=
  match s.setBanned ip with
  | some t => nNow < t
  | none => false

/-- A new node is put at the end of `vNodes`. -/
def push (s : Peers) (node : PeerNode) : Peers :=
  { s.put s.nextPtr node with
    nextPtr := s.nextPtr + 1
    vNodes := s.vNodes ++ [s.nextPtr] }

/-! ## The thread of the sockets -/

/-- A node is disconnected if that is due; its queues may be empty. -/
def disconnectNode (fUnused : NodePtr → Bool) (s : Peers) (p : NodePtr) : Except PeerFault Peers := do
  let node ← s.deref p
  if ← node.isDue (fUnused p) then
    return { s.put p node.disconnect with
      vNodes := s.vNodes.filter (· ≠ p)
      vNodesDisconnected := s.vNodesDisconnected ++ [p]
      semOutbound := s.semOutbound + if node.grantOutbound then 1 else 0 }
  else return s

def disconnectNodes (fUnused : NodePtr → Bool) : List NodePtr → Peers → Except PeerFault Peers
  | [], s => return s
  | p :: ps, s => do
    let s ← s.disconnectNode fUnused p
    disconnectNodes fUnused ps s

/-- What `ThreadSocketHandler` does next, with what it comes upon. -/
inductive SocketEvent where
  | disconnect (fUnused : NodePtr → Bool)
  | check (fLocked : Bool)
  | delete
  | poll
  | accept (addr : CService) (nNow : ℤ)
  | push
  | snapshot
  | serve (fDisconnect : Bool)
  | release

/-- `ThreadSocketHandler` -/
def socketStep (s : Peers) (e : SocketEvent) : Except PeerFault Peers :=
  match s.socket, e with
  -- disconnect unused nodes
  | .disconnect, .disconnect fUnused => do
    let s ← disconnectNodes fUnused s.vNodes s
    return { s with socket := .delete s.vNodesDisconnected }
  -- delete disconnected nodes
  | .delete (p :: rest), .check fLocked => do
    let node ← s.deref p
    let nRefCount ← node.getRefCount
    return { s with socket := if nRefCount ≤ 0 && fLocked then .deleting p rest else .delete rest }
  | .deleting p rest, .delete => do
    let node ← s.deref p
    return { s with
      heap := Function.update s.heap p none
      vNodesDisconnected := s.vNodesDisconnected.filter (· ≠ p)
      semOutbound := s.semOutbound + if node.grantOutbound then 1 else 0
      socket := .delete rest }
  -- find which sockets have data to receive
  | .delete [], .poll => do
    let _ ← s.derefAll s.vNodes
    return { s with socket := .accept }
  -- accept new connections
  | .accept, .accept addr nNow => do
    let nodes ← s.derefAll s.vNodes
    let nInbound := (nodes.filter PeerNode.fInbound).length
    if A.nMaxConnections - MAX_OUTBOUND_CONNECTIONS ≤ nInbound then return s
    else if s.isBanned addr.ip nNow then return s
    else return { s with socket := .accepting addr }
  | .accepting addr, .push =>
    return { s.push (.create A addr none true none) with socket := .accept }
  -- service each socket
  | .accept, .snapshot => do
    let s' ← modifyAll PeerNode.addRef s.vNodes s
    return { s' with socket := .serve s.vNodes s.vNodes }
  | .serve vNodesCopy (p :: rest), .serve fDisconnect => do
    let s ← s.modify p fun node ↦ if fDisconnect then node.close else node
    return { s with socket := .serve vNodesCopy rest }
  | .serve vNodesCopy [], .release => do
    let s ← modifyAll PeerNode.release vNodesCopy s
    return { s with socket := .disconnect }
  | _, _ => return s

/-! ## The thread of the messages -/

/-- What `ThreadMessageHandler` does next. -/
inductive MessageEvent where
  | poll
  | start
  | misbehaving (fLocal : Bool) (howmuch nNow : ℤ)
  | close
  | done
  | release

/-- `Misbehaving` -/
def misbehaving (s : Peers) (p : NodePtr) (fLocal : Bool) (howmuch nNow : ℤ) : Except PeerFault Peers := do
  let node ← s.deref p
  if fLocal then return s
  else
    let node := { node with nMisbehavior := node.nMisbehavior + howmuch }
    if A.nBanScore ≤ node.nMisbehavior then
      let banTime := nNow + A.nBanTime
      return { s.put p node.close with
        setBanned := Function.update s.setBanned node.addr.ip
          (some (max ((s.setBanned node.addr.ip).getD 0) banTime)) }
    else return s.put p node

/-- `ThreadMessageHandler` -/
def messageStep (s : Peers) (e : MessageEvent) : Except PeerFault Peers :=
  match s.message, e with
  | .poll, .poll => do
    let s' ← modifyAll PeerNode.addRef s.vNodes s
    -- `StartSync` looks at all of them
    let _ ← s'.derefAll s.vNodes
    return { s' with message := .serve s.vNodes s.vNodes }
  | .serve vNodesCopy (p :: rest), .start => do
    let node ← s.deref p
    return { s with
      message := if node.fDisconnect then .serve vNodesCopy rest else .process p vNodesCopy rest }
  -- in `ProcessMessages` and `SendMessages`
  | .process p _ _, .misbehaving fLocal howmuch nNow => s.misbehaving A p fLocal howmuch nNow
  | .process p _ _, .close => s.modify p PeerNode.close
  | .process p vNodesCopy rest, .done => do
    let _ ← s.deref p
    return { s with message := .serve vNodesCopy rest }
  | .serve vNodesCopy [], .release => do
    let s ← modifyAll PeerNode.release vNodesCopy s
    return { s with message := .poll }
  | _, _ => return s

/-! ## The threads that open connections -/

/-- What a thread that opens connections does next. -/
inductive OpenEvent where
  | start (task : Task)
  | setConnected
  | choose (addr : CService) (fLocal : Bool)
  | giveUp
  | check (fLocal : Bool) (nNow : ℤ)
  | dial (connected : Option CService)
  | addRef
  | write
  | finish

def goto (s : Peers) (t : Opener) (pc : OpenerPc) : Peers :=
  { s with opener := Function.update s.opener t pc }

/-- The end of a task, where the grant goes out of scope. -/
def finish (s : Peers) (t : Opener) : Peers :=
  { s.goto t .idle with
    semOutbound := s.semOutbound + if s.grant t then 1 else 0
    grant := Function.update s.grant t false }

/-- Whether `OpenNetworkConnection` goes on. -/
def passes (s : Peers) (addr : CService) (fLocal : Bool) (nNow : ℤ) : OpenCheck → Except PeerFault Bool
  | .isLocal => return !fLocal
  | .findIp => do return (← s.findNode (fun node ↦ node.addr.ip = addr.ip) s.vNodes).isNone
  | .isBanned => return !s.isBanned addr.ip nNow
  | .findName addrName => do
    return (← s.findNode (fun node ↦ node.addrName = addrName) s.vNodes).isNone

/-- `ConnectNode`, up to the connecting -/
def connectNode (s : Peers) (t : Opener) (task : Task) (addr : CService) (fLocal : Bool) :
    Except PeerFault Peers :=
  match task.strDest with
  | some _ => return s.goto t (.dialing task addr)
  | none =>
    if fLocal then return s.finish t
    else do
      match ← s.findNode (fun node ↦ node.addr = addr) s.vNodes with
      | some p => return s.goto t (.found task p)
      | none => return s.goto t (.dialing task addr)

/-- One of the writes. -/
def write (s : Peers) (t : Opener) (p : NodePtr) (node : PeerNode) : OpenWrite → Peers
  | .nTimeConnected => s
  -- `MoveTo`: the grant that the node may have is released
  | .grantOutbound =>
    { s.put p { node with grantOutbound := s.grant t } with
      semOutbound := s.semOutbound + if node.grantOutbound then 1 else 0
      grant := Function.update s.grant t false }
  | .fNetworkNode => s.put p { node with fNetworkNode := true }
  | .fOneShot => s.put p { node with fOneShot := true }

/-- `ThreadOpenConnections`, `ProcessOneShot`, `ThreadOpenAddedConnections` and `addnode`, with
`OpenNetworkConnection` and `ConnectNode`. -/
def openStep (s : Peers) (t : Opener) (e : OpenEvent) : Except PeerFault Peers :=
  match s.opener t, e with
  | .idle, .start task =>
    if !t.does task then return s
    else if !task.fGrant then return s.goto t (task.start A)
    -- waits for a grant, or does without the task
    else if s.semOutbound < 1 then return s
    else return { s.goto t (task.start A) with
      semOutbound := s.semOutbound - 1
      grant := Function.update s.grant t true }
  -- only connect out to one peer per network group
  | .granted, .setConnected => do
    let nodes ← s.derefAll s.vNodes
    return s.goto t (.choosing ((nodes.filter (!·.fInbound)).map fun node ↦ getGroup node.addr.ip))
  | .choosing setConnected, .choose addr fLocal =>
    if !isValid addr.ip || setConnected.contains (getGroup addr.ip) || fLocal then
      return s.finish t
    else return s.goto t (.checking .automatic addr (openChecks A addr))
  | .choosing _, .giveUp => return s.finish t
  | .checking task addr (check :: checks), .check fLocal nNow => do
    if ← s.passes addr fLocal nNow check then return s.goto t (.checking task addr checks)
    else return s.finish t
  | .checking task addr [], .check fLocal _ => s.connectNode t task addr fLocal
  | .dialing task addr, .dial connected =>
    match connected with
    | none => return s.finish t
    | some resolved =>
      let addr := if task.strDest.isSome then resolved else addr
      return (s.push (.create A addr task.strDest false (some task))).goto t
        (.opened task false s.nextPtr (task.writes false))
  | .found task p, .addRef => do
    let s ← s.modify p PeerNode.addRef
    return s.goto t (.opened task true p (task.writes true))
  | .opened task fFound p (w :: ws), .write => do
    let node ← s.deref p
    return (s.write t p node w).goto t (.opened task fFound p ws)
  | .opened _ _ _ [], .finish => return s.finish t
  | _, _ => return s

/-! ## Runs -/

inductive Event where
  | socket (e : SocketEvent)
  | message (e : MessageEvent)
  | opener (t : Opener) (e : OpenEvent)
  /-- some thread looks at all nodes, under `cs_vNodes` -/
  | visit

def step (s : Peers) : Event → Except PeerFault Peers
  | .socket e => s.socketStep A e
  | .message e => s.messageStep A e
  | .opener t e => s.openStep A t e
  | .visit => do
    let _ ← s.derefAll s.vNodes
    return s

def run (s : Peers) : List Event → Except PeerFault Peers
  | [] => return s
  | e :: events => do
    let s ← s.step A e
    s.run events

def init : Peers where
  heap _ := none
  nextPtr := 0
  vNodes := []
  vNodesDisconnected := []
  semOutbound := min MAX_OUTBOUND_CONNECTIONS A.nMaxConnections
  setBanned _ := none
  socket := .disconnect
  message := .poll
  opener _ := .idle
  grant _ := false

end Peers

end Bws
