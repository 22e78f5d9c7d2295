import Bws.Core
import Bws.NetMessage

/-!
# Sending messages

`CNode::EndMessage` puts a message at the end of `vSendMsg`, and `SocketSendData` writes from its
front, as far as the socket takes it: the first `nSendOffset` bytes of the front message are gone
already.  Whatever `send` answers, nothing is lost, doubled or reordered, and the assertions hold
(`SendNode.run_ok`).

Sizes are those of buffers in memory, so that `size_t` is never left; nor is `int`, as `send` takes
less than 2^31 bytes at a time.
-/

namespace Bws

/-! ## The source -/

/-- `WSAGetLastError()` -/
inductive SocketError where
  | WSAEWOULDBLOCK
  | WSAEMSGSIZE
  | WSAEINTR
  | WSAEINPROGRESS
  | other (nErr : ℤ)
deriving DecidableEq

/-- What `send` may answer when it is offered `len` bytes, and the last error after it. -/
structure SendResult (len : ℕ) where
  nBytes : ℤ
  nBytes_le : nBytes ≤ len
  nErr : SocketError

/-- A socket during one call of `SocketSendData`: the answer for each message that is offered. -/
abbrev Socket := ℕ → (len : ℕ) → SendResult len

/-- What a `CNode` has for sending. -/
structure SendNode where
  ssSend : List UInt8
  /-- total size of all vSendMsg entries -/
  nSendSize : ℤ
  /-- offset inside the first vSendMsg already sent -/
  nSendOffset : ℕ
  nSendBytes : UInt64
  vSendMsg : List (List UInt8)
  nLastSend : ℤ
  fDisconnect : Bool
  /-- history: what the socket has taken -/
  accepted : List UInt8

namespace SendNode

def init : SendNode where
  ssSend := []
  nSendSize := 0
  nSendOffset := 0
  nSendBytes := 0
  vSendMsg := []
  nLastSend := 0
  fDisconnect := false
  accepted := []

/-- `CNode::CloseSocketDisconnect`, as far as sending goes -/
def closeSocketDisconnect (node : SendNode) : SendNode := { node with fDisconnect := true }

/-- What `SocketSendData` does when `send` has taken no byte. -/
def sentNothing (node : SendNode) (nBytes : ℤ) (nErr : SocketError) : SendNode :=
  if nBytes < 0 ∧ nErr ≠ .WSAEWOULDBLOCK ∧ nErr ≠ .WSAEMSGSIZE ∧ nErr ≠ .WSAEINTR ∧
      nErr ≠ .WSAEINPROGRESS then node.closeSocketDisconnect
  else node

/-- What `SocketSendData` does when `send` has taken the first bytes of what it was offered. -/
def sentBytes (node : SendNode) (nNow : ℤ) (offered : List UInt8) (nBytes : ℕ) : SendNode :=
  { node with
    nLastSend := nNow
    nSendBytes := node.nSendBytes + UInt64.ofNat nBytes
    nSendOffset := node.nSendOffset + nBytes
    accepted := node.accepted ++ offered.take nBytes }

/-- The loop of `SocketSendData` over the messages from the position `it` on; `nNow` is the time
at each round. -/
def sendLoop (nNow : ℕ → ℤ) (send : Socket) :
    ℕ → List (List UInt8) → SendNode → Except Fault (ℕ × SendNode)
  | it, [], node => .ok (it, node)
  | it, data :: rest, node =>
    if data.length ≤ node.nSendOffset then
      .error (.thrown "assert(data.size() > pnode->nSendOffset)")
    else
      let offered := data.drop node.nSendOffset
      let r := send it offered.length
      if 0 < r.nBytes then
        let node := node.sentBytes (nNow it) offered r.nBytes.toNat
        if node.nSendOffset = data.length then
          sendLoop nNow send (it + 1) rest
            { node with nSendOffset := 0, nSendSize := node.nSendSize - data.length }
        -- could not send full message; stop sending more
        else .ok (it, node)
      -- couldn't send anything at all
      else .ok (it, node.sentNothing r.nBytes r.nErr)

/-- `SocketSendData` -/
def socketSendData (nNow : ℕ → ℤ) (send : Socket) (node : SendNode) : Except Fault SendNode := do
  let (it, node) ← sendLoop nNow send 0 node.vSendMsg node
  if it = node.vSendMsg.length ∧ node.nSendOffset ≠ 0 then
    .error (.thrown "assert(pnode->nSendOffset == 0)")
  else if it = node.vSendMsg.length ∧ node.nSendSize ≠ 0 then
    .error (.thrown "assert(pnode->nSendSize == 0)")
  else .ok { node with vSendMsg := node.vSendMsg.drop it }

end SendNode

/-- `CMessageHeader(pszCommand, nMessageSizeIn)` -/
def CMessageHeader.mk' (messageStart pszCommand : List UInt8) (nMessageSizeIn : ℕ) :
    CMessageHeader where
  pchMessageStart := messageStart
  pchCommand := resize ((pszCommand.takeWhile (· ≠ 0)).take 12) 12
  nMessageSize := nMessageSizeIn
  nChecksum := 0

section

/- `Params().MessageStart()` and `Hash` -/
variable (messageStart : { l : List UInt8 // l.length = 4 }) (hash : List UInt8 → UInt256)

/-- The size and the checksum are set, as `EndMessage` does. -/
def completeMessage (ssSend : List UInt8) : List UInt8 :=
  let nSize := (ssSend.length - 24) % 2 ^ 32
  let ssSend := memcpy ssSend 16 (Codec.toLE 4 nSize)
  let nChecksum := hash (ssSend.drop 24) % 2 ^ 32
  memcpy ssSend 20 (Codec.toLE 4 nChecksum)

namespace SendNode

/-- `BeginMessage` -/
def beginMessage (pszCommand : List UInt8) (node : SendNode) : Except Fault SendNode :=
  if node.ssSend ≠ [] then .error (.thrown "assert(ssSend.size() == 0)")
  else .ok { node with
    ssSend := CMessageHeader.codec.put (.mk' messageStart pszCommand 0) }

/-- `AbortMessage` -/
def abortMessage (node : SendNode) : SendNode := { node with ssSend := [] }

/-- `EndMessage`; `fDrop` is whether `-dropmessagestest` drops the message. -/
def endMessage (fDrop : Bool) (nNow : ℕ → ℤ) (send : Socket) (node : SendNode) :
    Except Fault SendNode :=
  if fDrop then .ok node.abortMessage
  else if node.ssSend = [] then .ok node
  else if node.ssSend.length < 24 then
    .error (.thrown "assert(ssSend.size () >= CMessageHeader::CHECKSUM_OFFSET + sizeof(nChecksum))")
  else
    let data := completeMessage hash node.ssSend
    let wasEmpty := node.vSendMsg.isEmpty
    let node := { node with
      ssSend := []
      vSendMsg := node.vSendMsg ++ [data]
      nSendSize := node.nSendSize + data.length }
    -- if write queue empty, attempt "optimistic write"
    if wasEmpty then node.socketSendData nNow send else .ok node

/-- What happens to the queue of a node; `cs_vSend` is held while a message is put together. -/
inductive Event where
  /-- `PushMessage`: the parameters are written behind the header. -/
  | pushMessage (pszCommand parameters : List UInt8) (fDrop : Bool) (nNow : ℕ → ℤ) (send : Socket)
  /-- `PushMessage`, when writing a parameter throws -/
  | pushAborted (pszCommand : List UInt8)
  | socketSendData (nNow : ℕ → ℤ) (send : Socket)

def step (node : SendNode) : Event → Except Fault SendNode
  | .pushMessage pszCommand parameters fDrop nNow send => do
    let node ← node.beginMessage messageStart pszCommand
    ({ node with ssSend := node.ssSend ++ parameters } : SendNode).endMessage hash fDrop nNow send
  | .pushAborted pszCommand => do
    let node ← node.beginMessage messageStart pszCommand
    .ok node.abortMessage
  | .socketSendData nNow send => node.socketSendData nNow send

def run : SendNode → List Event → Except Fault SendNode
  | node, [] => .ok node
  | node, e :: events => do
    let node ← node.step messageStart hash e
    run node events

/-! ## What it is for -/

/-- The messages that an event ends. -/
def Event.ended : Event → List (List UInt8)
  | .pushMessage pszCommand parameters false _ _ =>
    [completeMessage hash
      (CMessageHeader.codec.put (.mk' messageStart pszCommand 0) ++ parameters)]
  | _ => []

/-- What is left of a queue of messages, the front one of which has been sent up to an offset. -/
def pending (nSendOffset : ℕ) : List (List UInt8) → List UInt8
  | [] => []
  | data :: rest => data.drop nSendOffset ++ rest.flatten

/-- The size and the offset agree with the messages of the queue. -/
structure Queued (nSendSize : ℤ) (nSendOffset : ℕ) (vSendMsg : List (List UInt8)) : Prop where
  size_eq : nSendSize = (vSendMsg.map List.length).sum
  offset_lt : ∀ data ∈ vSendMsg.head?, nSendOffset < data.length
  offset_eq_zero : vSendMsg = [] → nSendOffset = 0

/-- No message of a queue is empty, and size and offset agree with it. -/
structure Sound (node : SendNode) : Prop where
  nonempty : ∀ data ∈ node.vSendMsg, 0 < data.length
  queued : Queued node.nSendSize node.nSendOffset node.vSendMsg

end SendNode

end

namespace SendNode

/-! ## Sending -/

section

variable {nNow : ℕ → ℤ} {send : Socket} {node node' : SendNode} {rest : List (List UInt8)}

theorem pending_zero (vSendMsg : List (List UInt8)) : pending 0 vSendMsg = vSendMsg.flatten := by
  cases vSendMsg with
  | nil => rfl
  | cons data rest => rw [pending, List.drop_zero, List.flatten_cons]

/-- Once the front message is out, nothing of the next one is. -/
theorem Queued.tail {nSendSize : ℤ} {nSendOffset : ℕ} {data : List UInt8}
    (h : Queued nSendSize nSendOffset (data :: rest)) (hrest : ∀ data ∈ rest, 0 < data.length) :
    Queued (nSendSize - data.length) 0 rest where
  size_eq := by
    rw [h.size_eq, List.map_cons, List.sum_cons, Nat.cast_add, add_sub_cancel_left]
  offset_lt := fun data hdata ↦ hrest data (List.mem_of_mem_head? hdata)
  offset_eq_zero := fun _ ↦ rfl

/-- **What the loop does**: no assertion fails, some messages go out as a whole, and of the next one
a part. -/
theorem sendLoop_spec : ∀ (it : ℕ) (node : SendNode), (∀ data ∈ rest, 0 < data.length) →
    Queued node.nSendSize node.nSendOffset rest → ∃ sent rest' node', rest = sent ++ rest' ∧
      sendLoop nNow send it rest node = .ok (it + sent.length, node') ∧
      Queued node'.nSendSize node'.nSendOffset rest' ∧
      node'.accepted ++ pending node'.nSendOffset rest' =
        node.accepted ++ pending node.nSendOffset rest ∧
      node'.vSendMsg = node.vSendMsg ∧ node'.ssSend = node.ssSend := by
  induction rest with
  | nil => exact fun it node _ h ↦ ⟨[], [], node, rfl, rfl, h, rfl, rfl, rfl⟩
  | cons data rest ih =>
    intro it node hpos h
    have hlt : node.nSendOffset < data.length := h.offset_lt data rfl
    have hlen : (data.drop node.nSendOffset).length = data.length - node.nSendOffset :=
      List.length_drop
    obtain ⟨r, hr⟩ : ∃ r, r = send it (data.drop node.nSendOffset).length := ⟨_, rfl⟩
    have hle := r.nBytes_le
    rw [sendLoop, if_neg (Nat.not_le.2 hlt)]
    dsimp only
    rw [← hr]
    by_cases hsome : 0 < r.nBytes
    · obtain ⟨n, hn⟩ := Int.eq_ofNat_of_zero_le hsome.le
      have htoNat : r.nBytes.toNat = n := by rw [hn]; rfl
      rw [if_pos hsome, htoNat]
      by_cases hall : node.nSendOffset + n = data.length
      · -- the message is out
        obtain ⟨sent, rest', node', rfl, hrun, hq, hbytes, hkept⟩ := ih (it + 1)
          { node.sentBytes (nNow it) (data.drop node.nSendOffset) n with
            nSendOffset := 0
            nSendSize := node.nSendSize - data.length }
          (fun data hdata ↦ hpos data (List.mem_cons_of_mem _ hdata))
          (h.tail fun data hdata ↦ hpos data (List.mem_cons_of_mem _ hdata))
        refine ⟨data :: sent, rest', node', rfl, ?_, hq, ?_, hkept⟩
        · rw [if_pos (show (node.sentBytes _ _ n).nSendOffset = _ from hall), List.length_cons,
            show it + (sent.length + 1) = it + 1 + sent.length by omega]
          exact hrun
        · rw [hbytes, pending_zero, pending]
          have htake : (data.drop node.nSendOffset).take n = data.drop node.nSendOffset :=
            List.take_of_length_le (by omega)
          show node.accepted ++ (data.drop node.nSendOffset).take n ++ _ = _
          rw [htake, List.append_assoc]
      · rw [if_neg (show ¬ (node.sentBytes _ _ n).nSendOffset = _ from hall)]
        refine ⟨[], data :: rest, _, rfl, rfl, ⟨h.size_eq, ?_, by simp⟩, ?_, rfl, rfl⟩
        · rintro _ ⟨⟩
          show node.nSendOffset + n < data.length
          omega
        · show node.accepted ++ (data.drop node.nSendOffset).take n ++
            (data.drop (node.nSendOffset + n) ++ rest.flatten) =
              node.accepted ++ (data.drop node.nSendOffset ++ rest.flatten)
          rw [← List.drop_drop, List.append_assoc, ← List.append_assoc (List.take n _),
            List.take_append_drop]
    · rw [if_neg hsome]
      refine ⟨[], data :: rest, _, rfl, rfl, ?_⟩
      unfold sentNothing closeSocketDisconnect
      split_ifs
      · exact ⟨h, rfl, rfl, rfl⟩
      · exact ⟨h, rfl, rfl, rfl⟩

/-- What has been taken and what is queued, in one. -/
def bytes (node : SendNode) : List UInt8 :=
  node.accepted ++ pending node.nSendOffset node.vSendMsg

/-- **One call of `SocketSendData`.** -/
theorem Sound.socketSendData (h : node.Sound) (nNow : ℕ → ℤ) (send : Socket) : ∃ node',
    node.socketSendData nNow send = .ok node' ∧ node'.Sound ∧ node'.ssSend = node.ssSend ∧
      node'.bytes = node.bytes := by
  obtain ⟨sent, rest, node₁, hsplit, hrun, hq, hbytes, hmsg, hss⟩ :=
    sendLoop_spec 0 node h.nonempty h.queued
  have hdrop : node₁.vSendMsg.drop (0 + sent.length) = rest := by
    rw [hmsg, hsplit, Nat.zero_add, List.drop_left]
  -- at the end of the queue nothing is left
  have hend : 0 + sent.length = node₁.vSendMsg.length → rest = [] := fun heq ↦ by
    rw [← hdrop, heq, List.drop_length]
  have hsize : ¬ (0 + sent.length = node₁.vSendMsg.length ∧ node₁.nSendSize ≠ 0) := by
    rintro ⟨heq, hne⟩
    rw [hend heq] at hq
    exact hne hq.size_eq
  refine ⟨{ node₁ with vSendMsg := rest }, ?_, ⟨fun data hdata ↦ h.nonempty data ?_, hq⟩, hss,
    hbytes⟩
  · rw [SendNode.socketSendData, hrun]
    show (if _ then _ else _) = _
    rw [if_neg fun hfail ↦ hfail.2 (hq.offset_eq_zero (hend hfail.1)), if_neg hsize, hdrop]
  · rw [hsplit]
    exact List.mem_append_right _ hdata

theorem Queued.concat {nSendSize : ℤ} {nSendOffset : ℕ} {vSendMsg : List (List UInt8)}
    (h : Queued nSendSize nSendOffset vSendMsg) {data : List UInt8} (hdata : 0 < data.length) :
    Queued (nSendSize + data.length) nSendOffset (vSendMsg ++ [data]) where
  size_eq := by
    rw [h.size_eq, List.map_append, List.sum_append, Nat.cast_add]
    rfl
  offset_lt := by
    intro front hfront
    cases vSendMsg with
    | nil =>
      obtain rfl := Option.some.inj hfront
      rwa [h.offset_eq_zero rfl]
    | cons first rest => exact h.offset_lt front hfront
  offset_eq_zero := fun hnil ↦ absurd hnil (by simp)

theorem Queued.pending_concat {nSendSize : ℤ} {nSendOffset : ℕ} {vSendMsg : List (List UInt8)}
    (h : Queued nSendSize nSendOffset vSendMsg) (data : List UInt8) :
    pending nSendOffset (vSendMsg ++ [data]) = pending nSendOffset vSendMsg ++ data := by
  cases vSendMsg with
  | nil =>
    rw [h.offset_eq_zero rfl, pending_zero]
    exact List.append_nil data
  | cons first rest => simp [pending]

end

section

variable (messageStart : { l : List UInt8 // l.length = 4 }) (hash : List UInt8 → UInt256)
  {node : SendNode}

theorem length_completeMessage {ssSend : List UInt8} (h : 24 ≤ ssSend.length) :
    (completeMessage hash ssSend).length = ssSend.length := by
  have hsize : (memcpy ssSend 16 (Codec.toLE 4 ((ssSend.length - 24) % 2 ^ 32))).length =
      ssSend.length := length_memcpy (by rw [Codec.length_toLE]; omega)
  unfold completeMessage
  dsimp only
  rw [length_memcpy (by rw [Codec.length_toLE]; omega), hsize]

theorem length_header (pszCommand : List UInt8) :
    (CMessageHeader.codec.put (.mk' messageStart pszCommand 0)).length = 24 := by
  have hcommand : (resize ((pszCommand.takeWhile (· ≠ 0)).take 12) 12).length = 12 := by
    unfold resize
    simp only [List.length_append, List.length_take, List.length_replicate]
    omega
  show (messageStart.val ++ (resize _ 12 ++ (Codec.toLE 4 0 ++ Codec.toLE 4 0))).length = 24
  rw [List.length_append, List.length_append, List.length_append, Codec.length_toLE, hcommand,
    messageStart.property]

/-- **One call of `EndMessage`**, for any message. -/
theorem Sound.endMessage (h : node.Sound) (hlen : 24 ≤ node.ssSend.length) (fDrop : Bool)
    (nNow : ℕ → ℤ) (send : Socket) : ∃ node',
      node.endMessage hash fDrop nNow send = .ok node' ∧ node'.Sound ∧ node'.ssSend = [] ∧
        node'.bytes = node.bytes ++ if fDrop then [] else completeMessage hash node.ssSend := by
  unfold SendNode.endMessage
  cases fDrop with
  | true => exact ⟨node.abortMessage, rfl, ⟨h.nonempty, h.queued⟩, rfl, (List.append_nil _).symm⟩
  | false =>
    have hne : node.ssSend ≠ [] := List.ne_nil_of_length_pos (by omega)
    have hpos : 0 < (completeMessage hash node.ssSend).length := by
      rw [length_completeMessage hash hlen]
      omega
    obtain ⟨node₁, hnode₁⟩ : ∃ node₁ : SendNode, node₁ = { node with
      ssSend := []
      vSendMsg := node.vSendMsg ++ [completeMessage hash node.ssSend]
      nSendSize := node.nSendSize + (completeMessage hash node.ssSend).length } := ⟨_, rfl⟩
    have hsound : node₁.Sound := by
      subst hnode₁
      refine ⟨fun data hdata ↦ ?_, h.queued.concat hpos⟩
      rcases List.mem_append.1 hdata with hdata | hdata
      · exact h.nonempty data hdata
      · exact List.mem_singleton.1 hdata ▸ hpos
    have hbytes : node₁.bytes = node.bytes ++ completeMessage hash node.ssSend := by
      subst hnode₁
      show node.accepted ++ pending _ (node.vSendMsg ++ [_]) = _
      rw [h.queued.pending_concat, bytes, List.append_assoc]
    have hssSend : node₁.ssSend = [] := hnode₁ ▸ rfl
    simp only [Bool.false_eq_true, if_false, if_neg hne, if_neg (Nat.not_lt.2 hlen), ← hnode₁]
    split_ifs
    · obtain ⟨node', hrun, hsound', hss, hbytes'⟩ := hsound.socketSendData nNow send
      exact ⟨node', hrun, hsound', hss.trans hssSend, hbytes'.trans hbytes⟩
    · exact ⟨node₁, rfl, hsound, hssSend, hbytes⟩

theorem Sound.step (h : node.Sound) (hss : node.ssSend = []) (e : Event) : ∃ node',
    node.step messageStart hash e = .ok node' ∧ node'.Sound ∧ node'.ssSend = [] ∧
      node'.bytes = node.bytes ++ (e.ended messageStart hash).flatten := by
  have hbegin : ∀ pszCommand, node.beginMessage messageStart pszCommand = .ok { node with
      ssSend := CMessageHeader.codec.put (.mk' messageStart pszCommand 0) } := fun pszCommand ↦
    if_neg fun hne ↦ hne hss
  cases e with
  | pushMessage pszCommand parameters fDrop nNow send =>
    obtain ⟨ssSend, hssSend⟩ : ∃ ssSend, ssSend =
        CMessageHeader.codec.put (.mk' messageStart pszCommand 0) ++ parameters := ⟨_, rfl⟩
    have hlen : 24 ≤ ssSend.length := by
      rw [hssSend, List.length_append, length_header]
      omega
    have hbegun : ({ node with ssSend := ssSend } : SendNode).Sound := ⟨h.nonempty, h.queued⟩
    obtain ⟨node', hrun, hsound, hss', hbytes⟩ := hbegun.endMessage hash hlen fDrop nNow send
    subst hssSend
    refine ⟨node', ?_, hsound, hss', hbytes.trans ?_⟩
    · rw [SendNode.step, hbegin]
      exact hrun
    · cases fDrop with
      | true => rfl
      | false =>
        rw [Event.ended, List.flatten_singleton]
        rfl
  | pushAborted pszCommand =>
    refine ⟨node, ?_, h, hss, (List.append_nil _).symm⟩
    rw [SendNode.step, hbegin]
    show Except.ok { node with ssSend := [] } = .ok node
    rw [← hss]
  | socketSendData nNow send =>
    obtain ⟨node', hrun, hsound, hss', hbytes⟩ := h.socketSendData nNow send
    exact ⟨node', hrun, hsound, hss'.trans hss, hbytes.trans (List.append_nil _).symm⟩

theorem Sound.run (events : List Event) : ∀ {node : SendNode}, node.Sound → node.ssSend = [] →
    ∃ node', node.run messageStart hash events = .ok node' ∧ node'.Sound ∧
      node'.bytes = node.bytes ++ (events.flatMap (Event.ended messageStart hash)).flatten := by
  induction events with
  | nil => exact fun {node} h _ ↦ ⟨node, rfl, h, (List.append_nil _).symm⟩
  | cons e events ih =>
    intro node h hss
    obtain ⟨node₁, hstep, h₁, hss₁, hbytes₁⟩ := h.step messageStart hash hss e
    obtain ⟨node', hrun, h', hbytes'⟩ := ih h₁ hss₁
    refine ⟨node', ?_, h', ?_⟩
    · rw [SendNode.run, hstep]
      exact hrun
    · rw [hbytes', hbytes₁, List.flatMap_cons, List.flatten_append, List.append_assoc]

end

/-- **Nothing is lost on the way.**  Whatever messages are pushed, whatever `send` answers and
whenever the queue is written out, no assertion fails, and what the socket has taken followed by
what is queued is what has been ended, in this order. -/
theorem run_ok (messageStart : { l : List UInt8 // l.length = 4 }) (hash : List UInt8 → UInt256)
    (events : List Event) : ∃ node, init.run messageStart hash events = .ok node ∧
      node.accepted ++ pending node.nSendOffset node.vSendMsg =
        (events.flatMap (Event.ended messageStart hash)).flatten ∧
      Queued node.nSendSize node.nSendOffset node.vSendMsg := by
  have hinit : init.Sound := ⟨List.forall_mem_nil _, ⟨rfl, fun _ h ↦ (by cases h), fun _ ↦ rfl⟩⟩
  obtain ⟨node, hrun, h, hbytes⟩ := hinit.run messageStart hash events rfl
  exact ⟨node, hrun, hbytes, h.queued⟩

end SendNode

end Bws
