import Bws.SendData

/-!
# One direction of a connection

What `PushMessage` frames on one side, `ProcessMessages` unframes on the other.  Between them are the
queue of the sender, the bytes under way and the buffers of the receiver, and each is emptied in
steps of any size.  However the steps interleave, what has been processed is a prefix of what has
been pushed, with every command and every payload intact, and the receiver never hangs up because of
what it has been sent (`Connection.run_delivers`).

The socket gives the bytes in the order in which it has taken them.
-/

namespace Bws

/-! ## The source -/

namespace CMessageHeader

/-- `GetCommand` -/
def getCommand (hdr : CMessageHeader) : List UInt8 := hdr.pchCommand.takeWhile (· ≠ 0)

/-- The loop of `IsValid` over the command. -/
def validCommand : List UInt8 → Bool
  | [] => true
  | p1 :: rest =>
    -- must be all zeros after the first zero
    if p1 = 0 then rest.all (· = 0)
    else if p1 < 0x20 ∨ 0x7e < p1 then false
    else validCommand rest

def isValid (messageStart : List UInt8) (hdr : CMessageHeader) : Bool :=
  hdr.pchMessageStart = messageStart && validCommand hdr.pchCommand &&
    hdr.nMessageSize ≤ MAX_SIZE

end CMessageHeader

/-- What `ProcessMessage` is called with. -/
structure Message where
  strCommand : List UInt8
  vRecv : List UInt8
deriving DecidableEq

/-- Why a socket has been closed. -/
inductive HangUp where
  /-- `ReceiveMsgBytes` or `ProcessMessages` has returned `false` -/
  | refused
  /-- flood control -/
  | flood
  | other
deriving DecidableEq

/-- What a `CNode` has for receiving. -/
structure RecvNode where
  vRecvMsg : List CNetMessage
  fDisconnect : Bool
  /-- `hSocket`, which is open as long as this is none -/
  closed : Option HangUp
  /-- history: the calls of `ProcessMessage` -/
  processed : List Message

/-- What a call of `ProcessMessages` meets: whether requests for data are left over, whether the send
buffer is full before each message, and whether `ProcessMessage` disconnects the node. -/
structure ProcessCall where
  fGetDataLeft : Bool
  fSendFull : ℕ → Bool
  fDisconnects : Message → Bool

namespace RecvNode

def init : RecvNode where
  vRecvMsg := []
  fDisconnect := false
  closed := none
  processed := []

/-- `CloseSocketDisconnect`; `lockRecv` is whether the lock on the messages is free. -/
def closeSocketDisconnect (node : RecvNode) (why : HangUp) (lockRecv : Bool) : RecvNode :=
  { node with
    fDisconnect := true
    closed := some (node.closed.getD why)
    vRecvMsg := if lockRecv then [] else node.vRecvMsg }

/-- `GetTotalRecvSize` -/
def getTotalRecvSize (node : RecvNode) : ℕ :=
  (node.vRecvMsg.map fun msg ↦ msg.vRecv.length + 24).sum % 2 ^ 32

section

variable (messageStart : List UInt8) (hash : List UInt8 → UInt256) (call : ProcessCall)

/-- The loop of `ProcessMessages` over the messages from the position `it` on, and what it returns. -/
def processLoop : ℕ → List CNetMessage → RecvNode → ℕ × Bool × RecvNode
  | it, [], node => (it, true, node)
  | it, msg :: rest, node =>
    if call.fSendFull it then (it, true, node)
    -- end, if an incomplete message is found
    else if !msg.complete then (it, true, node)
    else if msg.hdr.pchMessageStart ≠ messageStart then (it + 1, false, node)
    else if !msg.hdr.isValid messageStart then processLoop (it + 1) rest node
    else if hash (msg.vRecv.take msg.hdr.nMessageSize) % 2 ^ 32 ≠ msg.hdr.nChecksum then
      processLoop (it + 1) rest node
    else
      let message := ⟨msg.hdr.getCommand, msg.vRecv⟩
      (it + 1, true, { node with
        fDisconnect := node.fDisconnect || call.fDisconnects message
        processed := node.processed ++ [message] })

/-- `ProcessMessages` -/
def processMessages (node : RecvNode) : Bool × RecvNode :=
  if call.fGetDataLeft ∨ node.fDisconnect then (true, node)
  else
    let r := processLoop messageStart hash call 0 node.vRecvMsg node
    (r.2.1, if r.2.2.fDisconnect then r.2.2
      else { r.2.2 with vRecvMsg := r.2.2.vRecvMsg.drop r.1 })

end

end RecvNode

/-- The two ends of one direction, and the bytes that one socket has taken and the other has not given
yet. -/
structure Connection where
  sender : SendNode
  wire : List UInt8
  receiver : RecvNode

namespace Connection

def init : Connection := ⟨.init, [], .init⟩

inductive Event where
  | send (e : SendNode.Event)
  /-- `ThreadSocketHandler` finds that the socket can be read; `recv` gives at most `n + 1` bytes. -/
  | receive (n : ℕ)
  /-- `ThreadMessageHandler` -/
  | processMessages (call : ProcessCall)
  /-- `fDisconnect` is set for another reason. -/
  | disconnect
  | closeSocketDisconnect (lockRecv : Bool)

section

/- `Params().MessageStart()`, `Hash` and `ReceiveFloodSize()` -/
variable (messageStart : { l : List UInt8 // l.length = 4 }) (hash : List UInt8 → UInt256)
  (nReceiveFloodSize : ℕ)

/-- One step, or none where an assertion fails or a call does not return. -/
def step (c : Connection) : Event → Option Connection
  | .send e =>
    match c.sender.step messageStart hash e with
    | .error _ => none
    | .ok sender =>
      some { c with sender, wire := c.wire ++ sender.accepted.drop c.sender.accepted.length }
  | .receive n =>
    if c.receiver.closed.isSome then some c
    else if nReceiveFloodSize < c.receiver.getTotalRecvSize then
      some { c with receiver := c.receiver.closeSocketDisconnect .flood true }
    else if c.wire = [] then some c
    else
      match receiveMsgBytes messageStart c.receiver.vRecvMsg (c.wire.take (n + 1)) with
      | none => none
      | some (vRecvMsg, fRet) =>
        let receiver := { c.receiver with vRecvMsg }
        some { c with
          wire := c.wire.drop (n + 1)
          receiver := if fRet then receiver else receiver.closeSocketDisconnect .refused true }
  | .processMessages call =>
    if c.receiver.fDisconnect then some c
    else
      let r := c.receiver.processMessages messageStart hash call
      some { c with receiver := if r.1 then r.2 else r.2.closeSocketDisconnect .refused true }
  | .disconnect => some { c with receiver := { c.receiver with fDisconnect := true } }
  | .closeSocketDisconnect lockRecv =>
    some { c with receiver := c.receiver.closeSocketDisconnect .other lockRecv }

def run : Connection → List Event → Option Connection
  | c, [] => some c
  | c, e :: events => (c.step messageStart hash nReceiveFloodSize e).bind (run · events)

end

/-- The messages that an event pushes. -/
def Event.pushed : Event → List Message
  | .send (.pushMessage pszCommand parameters false _ _) => [⟨pszCommand, parameters⟩]
  | _ => []

end Connection

/-! ## Frames -/

/-- A command that `IsValid` lets pass, and a payload of a size that is received. -/
structure Message.Sendable (m : Message) : Prop where
  short : m.strCommand.length ≤ 12
  chars : ∀ c ∈ m.strCommand, 0x20 ≤ c ∧ c ≤ 0x7e
  size_le : m.vRecv.length ≤ MAX_SIZE

section

variable (messageStart : { l : List UInt8 // l.length = 4 }) (hash : List UInt8 → UInt256)
  {m : Message} {ms : List Message}

/-- The bytes that `PushMessage` makes of a message. -/
def Message.frame (m : Message) : List UInt8 :=
  completeMessage hash (CMessageHeader.codec.put (.mk' messageStart m.strCommand 0) ++ m.vRecv)

/-- The header of the frame. -/
def Message.header (m : Message) : CMessageHeader where
  pchMessageStart := messageStart
  pchCommand := resize m.strCommand 12
  nMessageSize := m.vRecv.length
  nChecksum := hash m.vRecv % 2 ^ 32

theorem memcpy_append {x y z data : List UInt8} (h : data.length = y.length) :
    memcpy (x ++ (y ++ z)) x.length data = x ++ (data ++ z) := by
  have hdrop : (x ++ (y ++ z)).drop (x.length + y.length) = z := by
    rw [← List.append_assoc, ← List.length_append, List.drop_left]
  rw [memcpy, List.take_left, h, hdrop, List.append_assoc]

theorem Message.Sendable.ne_zero (h : m.Sendable) {c : UInt8} (hc : c ∈ m.strCommand) : c ≠ 0 := by
  rintro rfl
  exact absurd (h.chars 0 hc).1 (by decide)

theorem Message.Sendable.takeWhile (h : m.Sendable) :
    (m.strCommand.takeWhile (· ≠ 0)).take 12 = m.strCommand := by
  rw [List.takeWhile_eq_self_iff.2 fun c hc ↦ decide_eq_true (h.ne_zero hc),
    List.take_of_length_le h.short]

theorem Message.Sendable.size_lt (h : m.Sendable) : m.vRecv.length < 2 ^ 32 :=
  h.size_le.trans_lt (by decide)

/-- The size and the checksum stand where they are looked for. -/
theorem Message.Sendable.frame_eq (h : m.Sendable) : m.frame messageStart hash =
    CMessageHeader.codec.put (m.header messageStart hash) ++ m.vRecv := by
  have hlen : (resize m.strCommand 12).length = 12 := length_resize _ _
  have hx : (messageStart.val ++ resize m.strCommand 12).length = 16 := by
    rw [List.length_append, hlen, messageStart.property]
  obtain ⟨x, hxdef⟩ : ∃ x, x = messageStart.val ++ resize m.strCommand 12 := ⟨_, rfl⟩
  have hput : ∀ size sum : ℕ, CMessageHeader.codec.put
      ⟨messageStart, resize m.strCommand 12, size, sum⟩ =
        x ++ (Codec.toLE 4 size ++ Codec.toLE 4 sum) := by
    intro size sum
    rw [hxdef, List.append_assoc]
    rfl
  rw [← hxdef] at hx
  have hbegun : CMessageHeader.codec.put (.mk' messageStart m.strCommand 0) ++ m.vRecv =
      x ++ (Codec.toLE 4 0 ++ (Codec.toLE 4 0 ++ m.vRecv)) := by
    rw [CMessageHeader.mk', h.takeWhile, hput, List.append_assoc, List.append_assoc]
  have hsize : (x ++ (Codec.toLE 4 0 ++ (Codec.toLE 4 0 ++ m.vRecv))).length - 24 =
      m.vRecv.length := by
    simp only [List.length_append, Codec.length_toLE, hx]
    omega
  have hsized : memcpy (x ++ (Codec.toLE 4 0 ++ (Codec.toLE 4 0 ++ m.vRecv))) 16
      (Codec.toLE 4 m.vRecv.length) =
        (x ++ Codec.toLE 4 m.vRecv.length) ++ (Codec.toLE 4 0 ++ m.vRecv) := by
    rw [← hx, memcpy_append (by rw [Codec.length_toLE, Codec.length_toLE]), List.append_assoc]
  have hlong : (x ++ Codec.toLE 4 m.vRecv.length).length = 20 := by
    rw [List.length_append, Codec.length_toLE, hx]
  have hdrop : ((x ++ Codec.toLE 4 m.vRecv.length) ++ (Codec.toLE 4 0 ++ m.vRecv)).drop 24 =
      m.vRecv := by
    rw [← List.append_assoc]
    refine List.drop_left' ?_
    rw [List.length_append, hlong, Codec.length_toLE]
  rw [Message.frame, hbegun, completeMessage, hsize, Nat.mod_eq_of_lt h.size_lt]
  rw [hsized, hdrop, ← hlong, memcpy_append (by rw [Codec.length_toLE, Codec.length_toLE]),
    Message.header, hput]
  simp only [List.append_assoc]

theorem Message.Sendable.valid_header (h : m.Sendable) :
    CMessageHeader.codec.Valid (m.header messageStart hash) := by
  refine ⟨⟨messageStart.property, length_resize _ _, ?_, ?_⟩, rfl⟩
  · exact h.size_lt
  · exact Nat.mod_lt _ (by decide)

theorem Message.length_frame (m : Message) :
    (m.frame messageStart hash).length = 24 + m.vRecv.length := by
  rw [Message.frame, SendNode.length_completeMessage, List.length_append, SendNode.length_header]
  rw [List.length_append, SendNode.length_header]
  exact Nat.le_add_right 24 _

/-- The header and the payload of a frame, whatever comes behind it. -/
theorem Message.Sendable.ofBytes_frame (h : m.Sendable) (rest : List UInt8) :
    CMessageHeader.ofBytes (m.frame messageStart hash ++ rest) = m.header messageStart hash ∧
      (m.frame messageStart hash).drop 24 = m.vRecv := by
  have hget : ∀ rest, CMessageHeader.codec.get (m.frame messageStart hash ++ rest) =
      some (m.header messageStart hash, m.vRecv ++ rest) := by
    intro rest
    rw [h.frame_eq, List.append_assoc]
    exact CMessageHeader.codec.get_put (h.valid_header messageStart hash) _
  have hlen : ∀ rest, ¬ (m.frame messageStart hash ++ rest).length < 24 := by
    intro rest
    rw [List.length_append, m.length_frame]
    omega
  have hsplit : ∀ rest, (CMessageHeader.ofBytes (m.frame messageStart hash ++ rest),
      (m.frame messageStart hash ++ rest).drop 24) =
        (m.header messageStart hash, m.vRecv ++ rest) := by
    intro rest
    have heq := hget rest
    rw [CMessageHeader.get_codec, if_neg (hlen rest)] at heq
    exact Option.some.inj heq
  have hnil := congrArg Prod.snd (hsplit [])
  rw [List.append_nil, List.append_nil] at hnil
  exact ⟨congrArg Prod.fst (hsplit rest), hnil⟩

theorem validCommand_resize : ∀ {strCommand : List UInt8} (n : ℕ),
    (∀ c ∈ strCommand, 0x20 ≤ c ∧ c ≤ 0x7e) →
    CMessageHeader.validCommand (strCommand ++ List.replicate n 0) = true := by
  intro strCommand n h
  induction strCommand with
  | nil =>
    cases n with
    | zero => rfl
    | succ n =>
      rw [List.nil_append, List.replicate_succ, CMessageHeader.validCommand, if_pos rfl,
        List.all_eq_true]
      exact fun c hc ↦ decide_eq_true (List.eq_of_mem_replicate hc)
  | cons c strCommand ih =>
    obtain ⟨⟨hlow, hhigh⟩, h⟩ := List.forall_mem_cons.1 h
    have hne : c ≠ 0 := by
      rintro rfl
      exact absurd hlow (by decide)
    have hok : ¬ (c < 0x20 ∨ 0x7e < c) := by
      rw [not_or]
      exact ⟨UInt8.not_lt.2 hlow, UInt8.not_lt.2 hhigh⟩
    rw [List.cons_append, CMessageHeader.validCommand, if_neg hne, if_neg hok]
    exact ih h

/-- A sendable message has a header that is accepted, with its command. -/
theorem Message.Sendable.isValid_header (h : m.Sendable) :
    (m.header messageStart hash).isValid messageStart = true ∧
      (m.header messageStart hash).getCommand = m.strCommand := by
  have hresize : resize m.strCommand 12 =
      m.strCommand ++ List.replicate (12 - m.strCommand.length) 0 := by
    rw [resize, List.take_of_length_le h.short]
  constructor
  · rw [CMessageHeader.isValid, Message.header]
    dsimp only
    rw [hresize, validCommand_resize _ h.chars, decide_eq_true rfl, decide_eq_true h.size_le]
    rfl
  · rw [CMessageHeader.getCommand, Message.header]
    dsimp only
    rw [hresize, List.takeWhile_append_of_pos fun c hc ↦ decide_eq_true (h.ne_zero hc)]
    have hzeros : (List.replicate (12 - m.strCommand.length) (0 : UInt8)).takeWhile (· ≠ 0) = [] := by
      cases 12 - m.strCommand.length with
      | zero => rfl
      | succ n => rfl
    rw [hzeros, List.append_nil]

/-- The bytes of some messages. -/
def frames (ms : List Message) : List UInt8 := ms.flatMap (Message.frame messageStart hash)

theorem frames_append (ms ms' : List Message) :
    frames messageStart hash (ms ++ ms') =
      frames messageStart hash ms ++ frames messageStart hash ms' := List.flatMap_append

end

/-! ## The receiver -/

section

variable {messageStart : { l : List UInt8 // l.length = 4 }} {hash : List UInt8 → UInt256}
  {ms : List Message} {msg : CNetMessage} {vRecvMsg : List CNetMessage} {bytes rest : List UInt8}

/-- Where a header is complete, it is that of the first frame. -/
theorem exists_header_eq (hms : ∀ m ∈ ms, m.Sendable)
    (hframes : frames messageStart hash ms = bytes ++ rest) (hlen : 24 ≤ bytes.length) :
    ∃ m ms', ms = m :: ms' ∧ CMessageHeader.ofBytes bytes = m.header messageStart hash := by
  cases ms with
  | nil =>
    have hzero := congrArg List.length hframes
    rw [List.length_append] at hzero
    have hnil : (frames messageStart hash []).length = 0 := rfl
    omega
  | cons m ms' =>
    obtain ⟨hheader, -⟩ := (hms m List.mem_cons_self).ofBytes_frame messageStart hash
      (frames messageStart hash ms')
    refine ⟨m, ms', rfl, ?_⟩
    rw [← hheader, ← CMessageHeader.ofBytes_append hlen rest, ← hframes]
    rfl

/-- A complete message has taken the first frame. -/
theorem InData.exists_frame_eq (h : InData msg bytes) (hc : msg.complete = true)
    (hms : ∀ m ∈ ms, m.Sendable) (hframes : frames messageStart hash ms = bytes ++ rest) :
    ∃ m ms', ms = m :: ms' ∧ msg.hdr = m.header messageStart hash ∧ msg.vRecv = m.vRecv ∧
      frames messageStart hash ms' = rest := by
  have hdone := h.complete_iff.1 hc
  have hbytes := h.nDataPos
  have hle₁ := h.le_length
  have hle₂ := h.length_le
  obtain ⟨m, ms', rfl, hheader⟩ := exists_header_eq hms hframes (by omega)
  have hsendable := hms m List.mem_cons_self
  have hhdr : msg.hdr = m.header messageStart hash := h.hdr.trans hheader
  have hsize : msg.hdr.nMessageSize = m.vRecv.length := by rw [hhdr, Message.header]
  have hsplit : m.frame messageStart hash ++ frames messageStart hash ms' = bytes ++ rest := hframes
  have hlen : (m.frame messageStart hash).length = bytes.length := by
    rw [m.length_frame]
    omega
  obtain ⟨hframe, hrest⟩ := List.append_inj hsplit hlen
  have hvRecv := h.take_vRecv
  rw [List.take_of_length_le (by omega), ← hframe,
    (hsendable.ofBytes_frame messageStart hash []).2] at hvRecv
  exact ⟨m, ms', rfl, hhdr, hvRecv, hrest⟩

/-- What begins like frames is not refused. -/
theorem Received.ok_of_frames {ok : Bool} (h : Received vRecvMsg bytes ok)
    (hms : ∀ m ∈ ms, m.Sendable) (hframes : frames messageStart hash ms = bytes ++ rest) :
    ok = true := by
  induction h generalizing ms with
  | nil => rfl
  | waiting => rfl
  | refused h =>
    obtain ⟨m, ms', rfl, hheader⟩ := exists_header_eq hms hframes h.le_length
    have hsize := h.lt_size
    rw [hheader] at hsize
    exact absurd (hms m List.mem_cons_self).size_le (Nat.not_le.2 hsize)
  | cons h hc _ ih =>
    rw [List.append_assoc] at hframes
    obtain ⟨m, ms', rfl, -, -, hrest⟩ := h.exists_frame_eq hc hms hframes
    exact ih (List.forall_mem_cons.1 hms).2 hrest

theorem RecvNode.processLoop_of_not_complete (call : ProcessCall) (it : ℕ) (node : RecvNode)
    (hc : msg.complete = false) (vRecvMsg : List CNetMessage) :
    processLoop messageStart hash call it (msg :: vRecvMsg) node = (it, true, node) := by
  rw [processLoop, hc, Bool.not_false, if_pos rfl]
  exact ite_self _

/-- The message is in order, so that it is processed. -/
theorem RecvNode.processLoop_of_header {m : Message} (call : ProcessCall) (it : ℕ) (node : RecvNode)
    (hfull : ¬ call.fSendFull it = true) (hc : msg.complete = true) (hm : m.Sendable)
    (hhdr : msg.hdr = m.header messageStart hash) (hvRecv : msg.vRecv = m.vRecv)
    (vRecvMsg : List CNetMessage) :
    processLoop messageStart hash call it (msg :: vRecvMsg) node = (it + 1, true, { node with
      fDisconnect := node.fDisconnect || call.fDisconnects m
      processed := node.processed ++ [m] }) := by
  obtain ⟨hvalid, hcommand⟩ := hm.isValid_header messageStart hash
  have hstart : msg.hdr.pchMessageStart = messageStart := by rw [hhdr, Message.header]
  have hsum : hash (msg.vRecv.take msg.hdr.nMessageSize) % 2 ^ 32 = msg.hdr.nChecksum := by
    rw [hhdr, hvRecv, Message.header, List.take_length]
  rw [processLoop, if_neg hfull, hc, if_neg (by decide), if_neg (not_not.2 hstart), hhdr, hvalid,
    if_neg (by decide), ← hhdr, if_neg (not_not.2 hsum), hhdr, hcommand, hvRecv]

theorem RecvNode.processLoop_cases (call : ProcessCall) (node : RecvNode)
    (h : Received vRecvMsg bytes true) (hms : ∀ m ∈ ms, m.Sendable)
    (hframes : frames messageStart hash ms = bytes ++ rest) :
    processLoop messageStart hash call 0 vRecvMsg node = (0, true, node) ∨
    ∃ m ms' bytes', ms = m :: ms' ∧
      processLoop messageStart hash call 0 vRecvMsg node = (1, true, { node with
        fDisconnect := node.fDisconnect || call.fDisconnects m
        processed := node.processed ++ [m] }) ∧
      Received (vRecvMsg.drop 1) bytes' true ∧ frames messageStart hash ms' = bytes' ++ rest := by
  cases h with
  | nil => exact .inl rfl
  | waiting h hc => exact .inl (processLoop_of_not_complete call 0 node hc [])
  | cons h hc hrest =>
    by_cases hfull : call.fSendFull 0 = true
    · left
      rw [processLoop, if_pos hfull]
    · rw [List.append_assoc] at hframes
      obtain ⟨m, ms', rfl, hhdr, hvRecv, hframes'⟩ := h.exists_frame_eq hc hms hframes
      refine .inr ⟨m, ms', _, rfl, ?_, hrest, hframes'⟩
      exact processLoop_of_header call 0 node hfull hc (hms m List.mem_cons_self) hhdr hvRecv _

/-- **One call of `ProcessMessages`**: nothing is processed, or the message in front of the frames. -/
theorem RecvNode.processMessages_cases {node : RecvNode} (call : ProcessCall)
    (hopen : node.fDisconnect = false) (h : Received node.vRecvMsg bytes true)
    (hms : ∀ m ∈ ms, m.Sendable) (hframes : frames messageStart hash ms = bytes ++ rest) :
    node.processMessages messageStart hash call = (true, node) ∨
    ∃ m ms' node', ms = m :: ms' ∧ node.processMessages messageStart hash call = (true, node') ∧
      node'.closed = node.closed ∧ node'.processed = node.processed ++ [m] ∧
      (node'.fDisconnect = true ∧ node'.vRecvMsg = node.vRecvMsg ∨
        node'.fDisconnect = false ∧ ∃ bytes', Received node'.vRecvMsg bytes' true ∧
          frames messageStart hash ms' = bytes' ++ rest) := by
  unfold processMessages
  by_cases hleft : call.fGetDataLeft = true
  · rw [if_pos (.inl hleft)]
    exact .inl rfl
  rw [if_neg (not_or.2 ⟨hleft, by rw [hopen]; exact Bool.false_ne_true⟩)]
  obtain hloop | ⟨m, ms', bytes', rfl, hloop, hreceived, hframes'⟩ :=
    processLoop_cases call node h hms hframes
  · left
    rw [hloop]
    dsimp only
    rw [hopen, if_neg Bool.false_ne_true, List.drop_zero]
    cases node
    cases hopen
    rfl
  · right
    rw [hloop]
    dsimp only
    rw [hopen, Bool.false_or]
    cases hdisconnects : call.fDisconnects m with
    | true => exact ⟨m, ms', _, rfl, rfl, rfl, rfl, .inl ⟨rfl, rfl⟩⟩
    | false => exact ⟨m, ms', _, rfl, rfl, rfl, rfl, .inr ⟨rfl, bytes', hreceived, hframes'⟩⟩

end

/-! ## The sender -/

namespace SendNode

variable {messageStart : { l : List UInt8 // l.length = 4 }} {hash : List UInt8 → UInt256}
  {nNow : ℕ → ℤ} {send : Socket} {node node' : SendNode}

theorem accepted_sentNothing (node : SendNode) (nBytes : ℤ) (nErr : SocketError) :
    (node.sentNothing nBytes nErr).accepted = node.accepted := by
  rw [sentNothing]
  split_ifs
  · rfl
  · rfl

/-- What the socket has taken stays taken. -/
theorem prefix_of_sendLoop : ∀ {rest : List (List UInt8)} {it it' : ℕ} {node : SendNode},
    sendLoop nNow send it rest node = .ok (it', node') → node.accepted <+: node'.accepted := by
  intro rest
  induction rest with
  | nil =>
    intro it it' node h
    cases h
    exact List.prefix_rfl
  | cons data rest ih =>
    intro it it' node h
    rw [sendLoop] at h
    split_ifs at h with hassert
    dsimp only at h
    have hsent : ∀ r : SendResult (data.drop node.nSendOffset).length, node.accepted <+:
        (node.sentBytes (nNow it) (data.drop node.nSendOffset) r.nBytes.toNat).accepted :=
      fun r ↦ List.prefix_append _ _
    split_ifs at h with hsome hall
    · have hrest := ih h
      exact (hsent _).trans hrest
    · cases h
      exact hsent _
    · cases h
      rw [accepted_sentNothing]

theorem prefix_of_socketSendData (h : node.socketSendData nNow send = .ok node') :
    node.accepted <+: node'.accepted := by
  rw [socketSendData] at h
  cases hloop : sendLoop nNow send 0 node.vSendMsg node with
  | error e =>
    rw [hloop] at h
    cases h
  | ok r =>
    rw [hloop] at h
    simp only [bind, Except.bind] at h
    have hprefix := prefix_of_sendLoop hloop
    split_ifs at h
    cases h
    exact hprefix

theorem prefix_of_endMessage {fDrop : Bool} (h : node.endMessage hash fDrop nNow send = .ok node') :
    node.accepted <+: node'.accepted := by
  unfold endMessage at h
  dsimp only at h
  split_ifs at h
  · cases h
    exact List.prefix_rfl
  · cases h
    exact List.prefix_rfl
  · have hprefix := prefix_of_socketSendData h
    exact hprefix
  · cases h
    exact List.prefix_rfl

theorem prefix_of_step {e : Event} (h : node.step messageStart hash e = .ok node') :
    node.accepted <+: node'.accepted := by
  have hbegin : ∀ {pszCommand : List UInt8} {node₁ : SendNode},
      node.beginMessage messageStart pszCommand = .ok node₁ → node₁.accepted = node.accepted := by
    intro pszCommand node₁ hbegun
    rw [beginMessage] at hbegun
    split_ifs at hbegun
    cases hbegun
    rfl
  cases e with
  | pushMessage pszCommand parameters fDrop nNow send =>
    rw [step] at h
    cases hbegun : node.beginMessage messageStart pszCommand with
    | error e =>
      rw [hbegun] at h
      cases h
    | ok node₁ =>
      rw [hbegun] at h
      rw [← hbegin hbegun]
      have hprefix := prefix_of_endMessage h
      exact hprefix
  | pushAborted pszCommand =>
    rw [step] at h
    cases hbegun : node.beginMessage messageStart pszCommand with
    | error e =>
      rw [hbegun] at h
      cases h
    | ok node₁ =>
      rw [hbegun] at h
      cases h
      rw [← hbegin hbegun]
      exact List.prefix_rfl
  | socketSendData nNow send => exact prefix_of_socketSendData h

end SendNode

/-! ## Both sides -/

namespace Connection

section

variable (messageStart : { l : List UInt8 // l.length = 4 }) (hash : List UInt8 → UInt256)
  (nReceiveFloodSize : ℕ)

/-- What has been pushed is what has been processed and what is under way: in the messages of the
receiver, on the wire and in the queue of the sender. -/
structure UnderWay (pushed : List Message) (c : Connection) (bytes : List UInt8)
    (done ahead : List Message) : Prop where
  pushed_eq : pushed = done ++ ahead
  frames_eq : frames messageStart hash ahead =
    bytes ++ (c.wire ++ SendNode.pending c.sender.nSendOffset c.sender.vSendMsg)
  received : Received c.receiver.vRecvMsg bytes true
  processed_eq : c.receiver.fDisconnect = false → c.receiver.processed = done

/-- What holds after any steps: once the socket is closed, nothing more is said of what is under way. -/
structure Inv (pushed : List Message) (c : Connection) : Prop where
  sound : c.sender.Sound
  ssSend : c.sender.ssSend = []
  processed : c.receiver.processed <+: pushed
  not_refused : c.receiver.closed ≠ some .refused
  disconnects : c.receiver.closed ≠ none → c.receiver.fDisconnect = true
  underWay : c.receiver.closed = none →
    ∃ bytes done ahead, UnderWay messageStart hash pushed c bytes done ahead

variable {messageStart hash nReceiveFloodSize} {pushed : List Message} {c : Connection}

theorem inv_init : Inv messageStart hash [] init where
  sound := ⟨List.forall_mem_nil _, ⟨rfl, fun _ h ↦ (by cases h), fun _ ↦ rfl⟩⟩
  ssSend := rfl
  processed := List.prefix_rfl
  not_refused := Option.some_ne_none _ |>.symm
  disconnects := fun h ↦ absurd rfl h
  underWay := fun _ ↦ ⟨[], [], [], rfl, rfl, .nil, fun _ ↦ rfl⟩

/-- A socket that is closed for another reason than what has been received. -/
theorem Inv.close (h : Inv messageStart hash pushed c) {why : HangUp} (hwhy : why ≠ .refused)
    (lockRecv : Bool) :
    Inv messageStart hash pushed
      { c with receiver := c.receiver.closeSocketDisconnect why lockRecv } where
  sound := h.sound
  ssSend := h.ssSend
  processed := h.processed
  not_refused := by
    intro hrefused
    have hgetD : c.receiver.closed.getD why = .refused := Option.some.inj hrefused
    cases hclosed : c.receiver.closed with
    | none =>
      rw [hclosed] at hgetD
      exact hwhy hgetD
    | some why' =>
      rw [hclosed] at hgetD
      exact h.not_refused (hclosed.trans (congrArg some hgetD))
  disconnects := fun _ ↦ rfl
  underWay := fun hopen ↦ absurd hopen (Option.some_ne_none _)

theorem flatten_ended (e : SendNode.Event) :
    (e.ended messageStart hash).flatten = frames messageStart hash (Event.send e).pushed := by
  cases e with
  | pushMessage pszCommand parameters fDrop nNow send =>
    cases fDrop with
    | true => rfl
    | false =>
      rw [Event.pushed, frames, List.flatMap_singleton]
      exact List.flatten_singleton
  | pushAborted pszCommand => rfl
  | socketSendData nNow send => rfl

theorem Inv.send (h : Inv messageStart hash pushed c) (e : SendNode.Event) :
    ∃ c', c.step messageStart hash nReceiveFloodSize (.send e) = some c' ∧
      Inv messageStart hash (pushed ++ (Event.send e).pushed) c' ∧
      c'.receiver.closed = c.receiver.closed := by
  obtain ⟨sender, hstep, hsound, hss, hbytes⟩ := h.sound.step messageStart hash h.ssSend e
  obtain ⟨taken, htaken⟩ := SendNode.prefix_of_step hstep
  rw [flatten_ended] at hbytes
  refine ⟨{ c with sender, wire := c.wire ++ taken }, ?_, ?_, rfl⟩
  · rw [step, hstep]
    dsimp only
    rw [← htaken, List.drop_left]
  refine ⟨hsound, hss, h.processed.trans (List.prefix_append _ _), h.not_refused, h.disconnects,
    fun hopen ↦ ?_⟩
  obtain ⟨bytes, done, ahead, hway⟩ := h.underWay hopen
  -- what has been taken was at the front of the queue
  have hqueue : taken ++ SendNode.pending sender.nSendOffset sender.vSendMsg =
      SendNode.pending c.sender.nSendOffset c.sender.vSendMsg ++
        frames messageStart hash (Event.send e).pushed := by
    have haccepted : c.sender.accepted ++ (taken ++ SendNode.pending sender.nSendOffset sender.vSendMsg) =
        c.sender.accepted ++ (SendNode.pending c.sender.nSendOffset c.sender.vSendMsg ++
          frames messageStart hash (Event.send e).pushed) := by
      rw [← List.append_assoc, htaken, ← List.append_assoc]
      exact hbytes
    exact List.append_cancel_left haccepted
  refine ⟨bytes, done, ahead ++ (Event.send e).pushed, ?_, ?_, hway.received, hway.processed_eq⟩
  · rw [hway.pushed_eq, List.append_assoc]
  · rw [frames_append, hway.frames_eq]
    simp only [List.append_assoc]
    rw [hqueue]

theorem Inv.receive (h : Inv messageStart hash pushed c) (hms : ∀ m ∈ pushed, m.Sendable) (n : ℕ) :
    ∃ c', c.step messageStart hash nReceiveFloodSize (.receive n) = some c' ∧
      Inv messageStart hash pushed c' ∧
      (c'.receiver.closed = c.receiver.closed ∨ c'.receiver.closed = some .flood) := by
  rw [step]
  by_cases hclosed : c.receiver.closed.isSome = true
  · rw [if_pos hclosed]
    exact ⟨c, rfl, h, .inl rfl⟩
  have hopen : c.receiver.closed = none := Option.not_isSome_iff_eq_none.1 hclosed
  rw [if_neg hclosed]
  by_cases hflood : nReceiveFloodSize < c.receiver.getTotalRecvSize
  · rw [if_pos hflood]
    refine ⟨_, rfl, h.close (by decide) true, .inr ?_⟩
    rw [RecvNode.closeSocketDisconnect, hopen]
    rfl
  rw [if_neg hflood]
  by_cases hwire : c.wire = []
  · rw [if_pos hwire]
    exact ⟨c, rfl, h, .inl rfl⟩
  rw [if_neg hwire]
  obtain ⟨bytes, done, ahead, hway⟩ := h.underWay hopen
  have htake : c.wire.take (n + 1) ≠ [] := by
    rw [Ne, List.take_eq_nil_iff, not_or]
    exact ⟨n.succ_ne_zero, hwire⟩
  have hsplit : bytes ++ (c.wire ++ SendNode.pending c.sender.nSendOffset c.sender.vSendMsg) =
      (bytes ++ c.wire.take (n + 1)) ++
        (c.wire.drop (n + 1) ++ SendNode.pending c.sender.nSendOffset c.sender.vSendMsg) := by
    rw [List.append_assoc, ← List.append_assoc (c.wire.take (n + 1)), List.take_append_drop]
  have hframes := hway.frames_eq.trans hsplit
  have hahead : ∀ m ∈ ahead, m.Sendable := fun m hm ↦
    hms m (hway.pushed_eq ▸ List.mem_append_right done hm)
  obtain ⟨vRecvMsg, ok, hcall, hreceived⟩ :=
    hway.received.loop messageStart le_rfl (.inl htake)
  obtain rfl := hreceived.ok_of_frames hahead hframes
  rw [receiveMsgBytes, hcall]
  exact ⟨_, rfl, ⟨h.sound, h.ssSend, h.processed, h.not_refused, h.disconnects, fun _ ↦
    ⟨_, done, ahead, hway.pushed_eq, hframes, hreceived, hway.processed_eq⟩⟩, .inl rfl⟩

theorem Inv.process (h : Inv messageStart hash pushed c) (hms : ∀ m ∈ pushed, m.Sendable)
    (call : ProcessCall) :
    ∃ c', c.step messageStart hash nReceiveFloodSize (.processMessages call) = some c' ∧
      Inv messageStart hash pushed c' ∧ c'.receiver.closed = c.receiver.closed := by
  rw [step]
  by_cases hdisconnect : c.receiver.fDisconnect = true
  · rw [if_pos hdisconnect]
    exact ⟨c, rfl, h, rfl⟩
  rw [if_neg hdisconnect]
  have hopen : c.receiver.closed = none := by
    by_contra hne
    exact hdisconnect (h.disconnects hne)
  have hfalse := eq_false_of_ne_true hdisconnect
  obtain ⟨bytes, done, ahead, hway⟩ := h.underWay hopen
  have hahead : ∀ m ∈ ahead, m.Sendable := fun m hm ↦
    hms m (hway.pushed_eq ▸ List.mem_append_right done hm)
  obtain hcall | ⟨m, ahead', node', rfl, hcall, hclosed, hprocessed, hnext⟩ :=
    RecvNode.processMessages_cases call hfalse hway.received hahead hway.frames_eq
  · rw [hcall]
    exact ⟨c, rfl, h, rfl⟩
  rw [hcall]
  have hpushed : pushed = (done ++ [m]) ++ ahead' := by
    rw [hway.pushed_eq, List.append_assoc]
    rfl
  rw [hway.processed_eq hfalse] at hprocessed
  refine ⟨{ c with receiver := node' }, rfl, ⟨h.sound, h.ssSend, ?_, ?_, ?_, fun _ ↦ ?_⟩, hclosed⟩
  · exact ⟨ahead', by rw [hprocessed, hpushed]⟩
  · rw [hclosed]
    exact h.not_refused
  · intro hne
    exact absurd (hclosed.trans hopen) hne
  obtain ⟨hset, hvRecvMsg⟩ | ⟨hunset, bytes', hreceived, hframes⟩ := hnext
  · refine ⟨bytes, done, m :: ahead', hway.pushed_eq, hway.frames_eq, ?_, fun hunset ↦ ?_⟩
    · rw [hvRecvMsg]
      exact hway.received
    · exact absurd (hset.symm.trans hunset) (by decide)
  · exact ⟨bytes', done ++ [m], ahead', hpushed, hframes, hreceived, fun _ ↦ hprocessed⟩

/-- **One step** of either side. -/
theorem Inv.step (h : Inv messageStart hash pushed c) (nReceiveFloodSize : ℕ) (e : Event)
    (hms : ∀ m ∈ pushed ++ e.pushed, m.Sendable) :
    ∃ c', c.step messageStart hash nReceiveFloodSize e = some c' ∧
      Inv messageStart hash (pushed ++ e.pushed) c' := by
  have hpushed : ∀ m ∈ pushed, m.Sendable := fun m hm ↦ hms m (List.mem_append_left _ hm)
  cases e with
  | send e =>
    obtain ⟨c', hstep, hinv, -⟩ := h.send e
    exact ⟨c', hstep, hinv⟩
  | receive n =>
    obtain ⟨c', hstep, hinv, -⟩ := h.receive hpushed n
    have hnil : pushed ++ (Event.receive n).pushed = pushed := List.append_nil pushed
    rw [hnil]
    exact ⟨c', hstep, hinv⟩
  | processMessages call =>
    obtain ⟨c', hstep, hinv, -⟩ := h.process hpushed call
    have hnil : pushed ++ (Event.processMessages call).pushed = pushed := List.append_nil pushed
    rw [hnil]
    exact ⟨c', hstep, hinv⟩
  | disconnect =>
    have hnil : pushed ++ Event.disconnect.pushed = pushed := List.append_nil pushed
    rw [hnil]
    refine ⟨_, rfl, h.sound, h.ssSend, h.processed, h.not_refused, fun _ ↦ rfl, fun hopen ↦ ?_⟩
    obtain ⟨bytes, done, ahead, hway⟩ := h.underWay hopen
    exact ⟨bytes, done, ahead, hway.pushed_eq, hway.frames_eq, hway.received,
      fun hunset ↦ absurd hunset Bool.true_eq_false.mp⟩
  | closeSocketDisconnect lockRecv =>
    have hnil : pushed ++ (Event.closeSocketDisconnect lockRecv).pushed = pushed :=
      List.append_nil pushed
    rw [hnil]
    exact ⟨_, rfl, h.close (by decide) lockRecv⟩

theorem Inv.run (nReceiveFloodSize : ℕ) (events : List Event) : ∀ {pushed : List Message} {c : Connection},
    Inv messageStart hash pushed c → (∀ m ∈ pushed ++ events.flatMap Event.pushed, m.Sendable) →
    ∃ c', c.run messageStart hash nReceiveFloodSize events = some c' ∧
      Inv messageStart hash (pushed ++ events.flatMap Event.pushed) c' := by
  induction events with
  | nil =>
    intro pushed c h _
    rw [List.flatMap_nil, List.append_nil]
    exact ⟨c, rfl, h⟩
  | cons e events ih =>
    intro pushed c h hms
    rw [List.flatMap_cons, ← List.append_assoc] at hms ⊢
    obtain ⟨c₁, hstep, h₁⟩ := h.step nReceiveFloodSize e
      fun m hm ↦ hms m (List.mem_append_left _ hm)
    obtain ⟨c', hrun, h'⟩ := ih h₁ hms
    refine ⟨c', ?_, h'⟩
    rw [Connection.run, hstep]
    exact hrun

end

/-- **Messages arrive in order, and nothing is lost on the way.**  Whatever is pushed, however the
socket takes and gives it, and whenever messages are processed: no assertion fails, what has been
processed is a prefix of what has been pushed, and the receiver does not hang up on what it has been
sent.  When nothing is left in the queue, on the wire or with the receiver, all of it has been
processed. -/
theorem run_delivers (messageStart : { l : List UInt8 // l.length = 4 })
    (hash : List UInt8 → UInt256) (nReceiveFloodSize : ℕ) (events : List Event)
    (hms : ∀ m ∈ events.flatMap Event.pushed, m.Sendable) :
    ∃ c, init.run messageStart hash nReceiveFloodSize events = some c ∧
      c.receiver.processed <+: events.flatMap Event.pushed ∧
      c.receiver.closed ≠ some .refused ∧
      (c.receiver.closed = none → c.receiver.fDisconnect = false → c.sender.vSendMsg = [] →
        c.wire = [] → c.receiver.vRecvMsg = [] →
        c.receiver.processed = events.flatMap Event.pushed) := by
  obtain ⟨c, hrun, h⟩ := inv_init.run nReceiveFloodSize events hms
  refine ⟨c, hrun, h.processed, h.not_refused, fun hopen hconnected hqueue hwire hnone ↦ ?_⟩
  obtain ⟨bytes, done, ahead, hway⟩ := h.underWay hopen
  have hreceived := hway.received
  rw [hnone] at hreceived
  cases hreceived
  have hframes := hway.frames_eq
  rw [hqueue, hwire] at hframes
  have hpushed := hway.pushed_eq
  cases ahead with
  | nil =>
    rw [List.append_nil] at hpushed
    rw [hway.processed_eq hconnected, ← hpushed]
    rfl
  | cons m ahead =>
    have hlen := congrArg List.length hframes
    rw [frames, List.flatMap_cons, List.length_append, m.length_frame] at hlen
    exact absurd hlen (by simp [SendNode.pending])

theorem run_delivers_sample :
    ∃ c, init.run ⟨[1, 2, 3, 4], rfl⟩ (fun _ ↦ 5) 1000
        [.send (.pushMessage [0x70, 0x69, 0x6e, 0x67] [7, 8] false (fun _ ↦ 0) fun _ len ↦
          ⟨len, le_rfl, .other 0⟩), .receive 10, .receive 100,
          .processMessages ⟨false, fun _ ↦ false, fun _ ↦ false⟩] = some c ∧
      c.receiver.processed <+: [⟨[0x70, 0x69, 0x6e, 0x67], [7, 8]⟩] ∧
      c.receiver.closed ≠ some .refused ∧
      (c.receiver.closed = none → c.receiver.fDisconnect = false → c.sender.vSendMsg = [] →
        c.wire = [] → c.receiver.vRecvMsg = [] →
        c.receiver.processed = [⟨[0x70, 0x69, 0x6e, 0x67], [7, 8]⟩]) := by
  refine run_delivers ⟨[1, 2, 3, 4], rfl⟩ (fun _ ↦ 5) 1000 _ fun m hm ↦ ?_
  obtain rfl := List.mem_singleton.1 hm
  exact ⟨by decide, by decide +kernel, by simp [MAX_SIZE]⟩

end Connection

end Bws
