import Bws.Serialize

/-!
# Receiving messages

`CNode::ReceiveMsgBytes` is given the bytes of a connection in the pieces in which they arrive.  It
keeps a partial header or a partial payload between two calls, in buffers that are longer than what
has arrived.  However the stream is cut, the messages that are complete are those of `parseStream`,
which reads the stream in one go, and a call fails exactly when a header with too large a size is
complete (`receiveAll_eq_parse`).

The time of receipt is left out.
-/

namespace Bws

structure CMessageHeader where
  pchMessageStart : List UInt8
  pchCommand : List UInt8
  nMessageSize : ℕ
  nChecksum : ℕ
deriving DecidableEq, Repr

namespace CMessageHeader

def codec : Codec CMessageHeader :=
  ((Codec.raw 4).prod ((Codec.raw 12).prod ((Codec.uint 4).prod (Codec.uint 4)))).imap
    (fun r ↦ ⟨r.1, r.2.1, r.2.2.1, r.2.2.2⟩)
    fun hdr ↦ (hdr.pchMessageStart, hdr.pchCommand, hdr.nMessageSize, hdr.nChecksum)

/-- `CMessageHeader()` -/
def init (messageStart : List UInt8) : CMessageHeader where
  pchMessageStart := messageStart
  pchCommand := List.replicate 12 0
  nMessageSize := 2 ^ 32 - 1
  nChecksum := 0

/-- The fields of a header, in the first 24 bytes. -/
def ofBytes (bytes : List UInt8) : CMessageHeader where
  pchMessageStart := bytes.take 4
  pchCommand := (bytes.drop 4).take 12
  nMessageSize := Codec.ofLE ((bytes.drop 16).take 4)
  nChecksum := Codec.ofLE ((bytes.drop 20).take 4)

theorem get_codec (bytes : List UInt8) : codec.get bytes =
    if bytes.length < 24 then none else some (ofBytes bytes, bytes.drop 24) := by
  simp only [codec, Codec.imap, Codec.prod, Codec.bind, Codec.uint, Codec.raw]
  by_cases h : bytes.length < 24
  · rw [if_pos h]
    split_ifs <;> simp
    all_goals omega
  · rw [if_neg h, if_neg (by omega), Option.bind_some, List.length_drop, if_neg (by omega),
      Option.bind_some, if_neg (by rw [List.length_drop, List.length_drop]; omega),
      Option.map_some, Option.bind_some,
      if_neg (by rw [List.length_drop, List.length_drop, List.length_drop]; omega)]
    simp only [Option.map_some, List.drop_drop, ofBytes]

theorem ofBytes_append {bytes : List UInt8} (h : 24 ≤ bytes.length) (rest : List UInt8) :
    ofBytes (bytes ++ rest) = ofBytes bytes := by
  unfold ofBytes
  rw [List.take_append_of_le_length (by omega), List.drop_append_of_le_length (by omega),
    List.drop_append_of_le_length (by omega), List.drop_append_of_le_length (by omega),
    List.take_append_of_le_length (by rw [List.length_drop]; omega),
    List.take_append_of_le_length (by rw [List.length_drop]; omega),
    List.take_append_of_le_length (by rw [List.length_drop]; omega)]

end CMessageHeader

/-! ## The source -/

/-- `memcpy(&buf[pos], data, data.size())` -/
def memcpy (buf : List UInt8) (pos : ℕ) (data : List UInt8) : List UInt8 :=
  buf.take pos ++ data ++ buf.drop (pos + data.length)

/-- `buf.resize(n)` -/
def resize (buf : List UInt8) (n : ℕ) : List UInt8 := buf.take n ++ List.replicate (n - buf.length) 0

structure CNetMessage where
  /-- parsing header (false) or data (true) -/
  in_data : Bool
  /-- partially received header: the bytes that have not been read from the stream -/
  hdrbuf : List UInt8
  /-- complete header -/
  hdr : CMessageHeader
  nHdrPos : ℕ
  /-- received message data -/
  vRecv : List UInt8
  nDataPos : ℕ
deriving DecidableEq

namespace CNetMessage

/-- `CNetMessage(nTypeIn, nVersionIn)` -/
def init (messageStart : List UInt8) : CNetMessage where
  in_data := false
  hdrbuf := List.replicate 24 0
  hdr := .init messageStart
  nHdrPos := 0
  vRecv := []
  nDataPos := 0

def complete (msg : CNetMessage) : Bool := msg.in_data && msg.hdr.nMessageSize == msg.nDataPos

/-- `readHeader`: how many bytes it has taken, or none for `-1`. -/
def readHeader (msg : CNetMessage) (pch : List UInt8) : CNetMessage × Option ℕ :=
  let nRemaining := 24 - msg.nHdrPos
  let nCopy := min nRemaining pch.length
  let msg := { msg with
    hdrbuf := memcpy msg.hdrbuf msg.nHdrPos (pch.take nCopy)
    nHdrPos := msg.nHdrPos + nCopy }
  -- if header incomplete, exit
  if msg.nHdrPos < 24 then (msg, some nCopy)
  else
    match CMessageHeader.codec.get msg.hdrbuf with
    | none => ({ msg with hdrbuf := [] }, none)
    | some (hdr, hdrbuf) =>
      let msg := { msg with hdr, hdrbuf }
      -- reject messages larger than MAX_SIZE
      if MAX_SIZE < hdr.nMessageSize then (msg, none)
      else ({ msg with in_data := true }, some nCopy)

/-- `readData`; up to 256 KiB are allocated ahead, but never more than the message has. -/
def readData (msg : CNetMessage) (pch : List UInt8) : CNetMessage × Option ℕ :=
  let nRemaining := msg.hdr.nMessageSize - msg.nDataPos
  let nCopy := min nRemaining pch.length
  let vRecv :=
    if msg.vRecv.length < msg.nDataPos + nCopy then
      resize msg.vRecv (min msg.hdr.nMessageSize (msg.nDataPos + nCopy + 256 * 1024))
    else msg.vRecv
  ({ msg with
    vRecv := memcpy vRecv msg.nDataPos (pch.take nCopy)
    nDataPos := msg.nDataPos + nCopy }, some nCopy)

def read (msg : CNetMessage) (pch : List UInt8) : CNetMessage × Option ℕ :=
  if msg.in_data then msg.readData pch else msg.readHeader pch

end CNetMessage

section

variable (messageStart : List UInt8)

/-- The current incomplete message, or a new one, and the messages before it. -/
def currentMsg (vRecvMsg : List CNetMessage) : List CNetMessage × CNetMessage :=
  match vRecvMsg.getLast? with
  | none => ([], .init messageStart)
  | some msg => if msg.complete then (vRecvMsg, .init messageStart) else (vRecvMsg.dropLast, msg)

/-- The loop of `ReceiveMsgBytes`, for at most so many rounds. -/
def receiveLoop : ℕ → List CNetMessage → List UInt8 → Option (List CNetMessage × Bool)
  | _, vRecvMsg, [] => some (vRecvMsg, true)
  | 0, _, _ :: _ => none
  | fuel + 1, vRecvMsg, b :: pch =>
    let current := currentMsg messageStart vRecvMsg
    let r := current.2.read (b :: pch)
    match r.2 with
    | none => some (current.1 ++ [r.1], false)
    | some handled => receiveLoop fuel (current.1 ++ [r.1]) ((b :: pch).drop handled)

/-- `ReceiveMsgBytes`: every round takes a byte at least. -/
def receiveMsgBytes (vRecvMsg : List CNetMessage) (pch : List UInt8) :
    Option (List CNetMessage × Bool) :=
  receiveLoop messageStart pch.length vRecvMsg pch

/-- One call after another, and what the calls return. -/
def receiveAll : List CNetMessage → List (List UInt8) → Option (List CNetMessage × List Bool)
  | vRecvMsg, [] => some (vRecvMsg, [])
  | vRecvMsg, pch :: chunks => do
    let (vRecvMsg, fRet) ← receiveMsgBytes messageStart vRecvMsg pch
    let (vRecvMsg, fRets) ← receiveAll vRecvMsg chunks
    some (vRecvMsg, fRet :: fRets)

end

/-! ## What a message has taken -/

/-- Part of a header has come. -/
structure InHeader (msg : CNetMessage) (bytes : List UInt8) : Prop where
  in_data : msg.in_data = false
  nHdrPos : msg.nHdrPos = bytes.length
  lt : bytes.length < 24
  length_hdrbuf : msg.hdrbuf.length = 24
  take_hdrbuf : msg.hdrbuf.take bytes.length = bytes
  vRecv : msg.vRecv = []
  nDataPos : msg.nDataPos = 0

/-- The header has come and so has part of the payload, or all of it.  The buffer never becomes longer
than the message. -/
structure InData (msg : CNetMessage) (bytes : List UInt8) : Prop where
  in_data : msg.in_data = true
  hdr : msg.hdr = .ofBytes bytes
  size_le : msg.hdr.nMessageSize ≤ MAX_SIZE
  nDataPos : bytes.length = 24 + msg.nDataPos
  take_vRecv : msg.vRecv.take msg.nDataPos = bytes.drop 24
  le_length : msg.nDataPos ≤ msg.vRecv.length
  length_le : msg.vRecv.length ≤ msg.hdr.nMessageSize

/-- The header that has come announces too much.  It has been taken out of its buffer, so every later
attempt to read it fails. -/
structure Refused (msg : CNetMessage) (bytes : List UInt8) : Prop where
  in_data : msg.in_data = false
  nHdrPos : msg.nHdrPos = 24
  hdrbuf : msg.hdrbuf = []
  le_length : 24 ≤ bytes.length
  lt_size : MAX_SIZE < (CMessageHeader.ofBytes bytes).nMessageSize

theorem inHeader_init (messageStart : List UInt8) : InHeader (.init messageStart) [] :=
  ⟨rfl, rfl, by decide, rfl, rfl, rfl, rfl⟩

theorem InHeader.complete {msg : CNetMessage} {bytes : List UInt8} (h : InHeader msg bytes) :
    msg.complete = false := by
  rw [CNetMessage.complete, h.in_data, Bool.false_and]

theorem Refused.complete {msg : CNetMessage} {bytes : List UInt8} (h : Refused msg bytes) :
    msg.complete = false := by
  rw [CNetMessage.complete, h.in_data, Bool.false_and]

theorem InData.complete_iff {msg : CNetMessage} {bytes : List UInt8} (h : InData msg bytes) :
    msg.complete = true ↔ msg.hdr.nMessageSize = msg.nDataPos := by
  rw [CNetMessage.complete, h.in_data, Bool.true_and, beq_iff_eq]

theorem length_memcpy {buf data : List UInt8} {pos : ℕ} (h : pos + data.length ≤ buf.length) :
    (memcpy buf pos data).length = buf.length := by
  rw [memcpy, List.length_append, List.length_append, List.length_take, List.length_drop]
  omega

theorem take_memcpy {buf data : List UInt8} {pos : ℕ} (h : pos ≤ buf.length) :
    (memcpy buf pos data).take (pos + data.length) = buf.take pos ++ data := by
  have hlen : (buf.take pos ++ data).length = pos + data.length := by
    rw [List.length_append, List.length_take, Nat.min_eq_left h]
  rw [memcpy, ← hlen, List.take_left]

theorem length_resize (buf : List UInt8) (n : ℕ) : (resize buf n).length = n := by
  rw [resize, List.length_append, List.length_take, List.length_replicate]
  omega

theorem take_resize {buf : List UInt8} {n k : ℕ} (hk : k ≤ n) (hlen : k ≤ buf.length) :
    (resize buf n).take k = buf.take k := by
  rw [resize, List.take_append_of_le_length (by rw [List.length_take]; omega), List.take_take,
    Nat.min_eq_left hk]

/-! ### One attempt to read -/

/-- A header goes on, or is complete and accepted, or announces too much. -/
theorem InHeader.readHeader {msg : CNetMessage} {bytes pch : List UInt8} (h : InHeader msg bytes)
    (hpch : pch ≠ []) :
    ((msg.readHeader pch).2 = none ∧ Refused (msg.readHeader pch).1 (bytes ++ pch)) ∨
    ∃ n, (msg.readHeader pch).2 = some n ∧ 0 < n ∧
      (InHeader (msg.readHeader pch).1 (bytes ++ pch.take n) ∨
        InData (msg.readHeader pch).1 (bytes ++ pch.take n)) := by
  have hlt := h.lt
  have hpos := List.length_pos_iff.mpr hpch
  set n := min (24 - bytes.length) pch.length with hn
  have hdata : (pch.take n).length = n := by
    rw [List.length_take]
    omega
  have hfits : bytes.length + (pch.take n).length ≤ msg.hdrbuf.length := by
    rw [hdata, h.length_hdrbuf]
    omega
  have hlen := length_memcpy hfits
  have htake : (memcpy msg.hdrbuf bytes.length (pch.take n)).take
      (bytes.length + (pch.take n).length) = msg.hdrbuf.take bytes.length ++ pch.take n :=
    take_memcpy (Nat.le_of_add_right_le hfits)
  rw [hdata, h.take_hdrbuf] at htake
  rw [h.length_hdrbuf] at hlen
  unfold CNetMessage.readHeader
  simp only [h.nHdrPos, ← hn]
  by_cases hdone : bytes.length + n < 24
  · rw [if_pos hdone]
    refine .inr ⟨n, rfl, by omega, .inl ⟨h.in_data, ?_, ?_, hlen, ?_, h.vRecv, h.nDataPos⟩⟩
    · rw [List.length_append, hdata]
    · rwa [List.length_append, hdata]
    · rw [List.length_append, hdata, htake]
  · -- the buffer is full, and what it holds is the header
    have hfull : bytes.length + n = 24 := by omega
    have hbuf : memcpy msg.hdrbuf bytes.length (pch.take n) = bytes ++ pch.take n := by
      rw [hfull, List.take_of_length_le hlen.le] at htake
      exact htake
    have hlen24 : (bytes ++ pch.take n).length = 24 := by
      rw [List.length_append, hdata, hfull]
    rw [if_neg hdone, hbuf, CMessageHeader.get_codec, if_neg (by omega)]
    simp only [List.drop_of_length_le hlen24.le]
    by_cases hsize : MAX_SIZE < (CMessageHeader.ofBytes (bytes ++ pch.take n)).nMessageSize
    · rw [if_pos hsize]
      have happ : bytes ++ pch = bytes ++ pch.take n ++ pch.drop n := by
        rw [List.append_assoc, List.take_append_drop]
      refine .inl ⟨rfl, h.in_data, hfull, rfl, ?_, ?_⟩
      · rw [happ, List.length_append]
        omega
      · rwa [happ, CMessageHeader.ofBytes_append hlen24.ge]
    · rw [if_neg hsize]
      have hvRecv : msg.vRecv.length = 0 := by rw [h.vRecv, List.length_nil]
      refine .inr ⟨n, rfl, by omega, .inr ⟨rfl, rfl, not_lt.mp hsize, ?_, ?_, ?_, ?_⟩⟩
      · rw [hlen24, h.nDataPos]
      · rw [h.nDataPos, List.take_zero, List.drop_of_length_le hlen24.le]
      · rw [h.nDataPos]
        exact Nat.zero_le _
      · rw [hvRecv]
        exact Nat.zero_le _

/-- A payload goes on; what the buffer is given ahead does not go beyond the message. -/
theorem InData.readData {msg : CNetMessage} {bytes pch : List UInt8} (h : InData msg bytes)
    (hpch : pch ≠ []) (hc : msg.complete = false) :
    ∃ n, (msg.readData pch).2 = some n ∧ 0 < n ∧
      InData (msg.readData pch).1 (bytes ++ pch.take n) := by
  have hpos := List.length_pos_iff.mpr hpch
  have hlt : msg.nDataPos < msg.hdr.nMessageSize := by
    have hne : msg.hdr.nMessageSize ≠ msg.nDataPos := fun heq ↦
      Bool.false_ne_true (hc.symm.trans (h.complete_iff.mpr heq))
    have h₁ := h.le_length
    have h₂ := h.length_le
    omega
  have hle₁ := h.le_length
  have hle₂ := h.length_le
  have hbytes := h.nDataPos
  set n := min (msg.hdr.nMessageSize - msg.nDataPos) pch.length with hn
  have hdata : (pch.take n).length = n := by
    rw [List.length_take]
    omega
  -- the buffer that is written to
  set vRecv := if msg.vRecv.length < msg.nDataPos + n then
    resize msg.vRecv (min msg.hdr.nMessageSize (msg.nDataPos + n + 256 * 1024))
    else msg.vRecv with hvRecv
  have hbuf : msg.nDataPos + n ≤ vRecv.length ∧ vRecv.length ≤ msg.hdr.nMessageSize ∧
      vRecv.take msg.nDataPos = bytes.drop 24 := by
    rw [hvRecv]
    split_ifs with hshort
    · rw [length_resize, take_resize (by omega) h.le_length]
      exact ⟨by omega, by omega, h.take_vRecv⟩
    · exact ⟨by omega, h.length_le, h.take_vRecv⟩
  obtain ⟨hroom, hsize, htake⟩ := hbuf
  have hlen : (memcpy vRecv msg.nDataPos (pch.take n)).length = vRecv.length :=
    length_memcpy (by rwa [hdata])
  refine ⟨n, rfl, by omega, h.in_data, ?_, h.size_le, ?_, ?_, ?_, ?_⟩
  · rw [CMessageHeader.ofBytes_append (by omega)]
    exact h.hdr
  · show (bytes ++ pch.take n).length = 24 + (msg.nDataPos + n)
    rw [List.length_append, hdata]
    omega
  · show (memcpy vRecv msg.nDataPos (pch.take n)).take (msg.nDataPos + n) = _
    have hcopy : (memcpy vRecv msg.nDataPos (pch.take n)).take
        (msg.nDataPos + (pch.take n).length) = vRecv.take msg.nDataPos ++ pch.take n :=
      take_memcpy (by omega)
    rw [hdata, htake] at hcopy
    rw [hcopy, List.drop_append_of_le_length (by omega)]
  · show msg.nDataPos + n ≤ (memcpy vRecv msg.nDataPos (pch.take n)).length
    omega
  · show (memcpy vRecv msg.nDataPos (pch.take n)).length ≤ msg.hdr.nMessageSize
    omega

/-- Nothing can be read from a header that has been taken out of its buffer. -/
theorem Refused.read {msg : CNetMessage} {bytes : List UInt8} (h : Refused msg bytes)
    (pch : List UInt8) :
    (msg.read pch).2 = none ∧ Refused (msg.read pch).1 (bytes ++ pch) := by
  have hn : min (24 - msg.nHdrPos) pch.length = 0 := by
    rw [h.nHdrPos]
    omega
  have hbuf : memcpy msg.hdrbuf msg.nHdrPos (pch.take 0) = [] := by
    rw [h.hdrbuf, memcpy, List.take_nil, List.drop_nil]
    rfl
  rw [CNetMessage.read, h.in_data, if_neg Bool.false_ne_true]
  unfold CNetMessage.readHeader
  simp only [hn, hbuf]
  rw [if_neg (by rw [h.nHdrPos]; decide)]
  refine ⟨rfl, h.in_data, h.nHdrPos, rfl, ?_, ?_⟩
  · rw [List.length_append]
    exact Nat.le_add_right_of_le h.le_length
  · rw [CMessageHeader.ofBytes_append h.le_length]
    exact h.lt_size

/-! ## The messages of a connection -/

/-- What the messages of a connection have taken of its bytes: all but the last are complete.  The
Boolean is false when the last is refused. -/
inductive Received : List CNetMessage → List UInt8 → Bool → Prop
  | nil : Received [] [] true
  | waiting {msg : CNetMessage} {bytes : List UInt8} (h : InHeader msg bytes ∨ InData msg bytes)
      (hc : msg.complete = false) : Received [msg] bytes true
  | refused {msg : CNetMessage} {bytes : List UInt8} (h : Refused msg bytes) :
      Received [msg] bytes false
  | cons {msg : CNetMessage} {bytes rest : List UInt8} {vRecvMsg : List CNetMessage} {ok : Bool}
      (h : InData msg bytes) (hc : msg.complete = true) (hrest : Received vRecvMsg rest ok) :
      Received (msg :: vRecvMsg) (bytes ++ rest) ok

theorem Received.single {msg : CNetMessage} {bytes : List UInt8}
    (h : InHeader msg bytes ∨ InData msg bytes) : Received [msg] bytes true := by
  cases hc : msg.complete with
  | false => exact .waiting h hc
  | true =>
    obtain hheader | hdata := h
    · rw [hheader.complete] at hc
      exact absurd hc Bool.false_ne_true
    · have hcons := Received.cons hdata hc .nil
      rwa [List.append_nil] at hcons

section

variable (messageStart : List UInt8)

theorem currentMsg_single {msg : CNetMessage} (hc : msg.complete = false) :
    currentMsg messageStart [msg] = ([], msg) := by
  rw [currentMsg, List.getLast?_singleton]
  exact if_neg (by rw [hc]; exact Bool.false_ne_true)

theorem currentMsg_cons {msg : CNetMessage} (hc : msg.complete = true)
    (vRecvMsg : List CNetMessage) : currentMsg messageStart (msg :: vRecvMsg) =
      (msg :: (currentMsg messageStart vRecvMsg).1, (currentMsg messageStart vRecvMsg).2) := by
  cases vRecvMsg with
  | nil =>
    rw [currentMsg, List.getLast?_singleton]
    exact if_pos hc
  | cons next vRecvMsg =>
    unfold currentMsg
    rw [List.getLast?_cons_cons, List.getLast?_cons]
    show (if (vRecvMsg.getLast?.getD next).complete = true then _ else _) = _
    split_ifs with hlast
    · simp only [hlast, if_true]
    · simp only [hlast, List.dropLast_cons_cons, if_false, Bool.false_eq_true]

/-- What one round of the loop does: it takes bytes of the stream, or it finds that the header announces
too much. -/
structure Round (bytes pch : List UInt8) (ok : Bool) (vRecvMsg : List CNetMessage)
    (handled : Option ℕ) : Prop where
  none : handled = none → Received vRecvMsg (bytes ++ pch) false
  some : ∀ n, handled = some n → ok = true ∧ 0 < n ∧ Received vRecvMsg (bytes ++ pch.take n) true

theorem round_single {msg : CNetMessage} {bytes pch : List UInt8}
    (h : InHeader msg bytes ∨ InData msg bytes) (hc : msg.complete = false) (hpch : pch ≠ []) :
    Round bytes pch true [(msg.read pch).1] (msg.read pch).2 := by
  obtain hheader | hdata := h
  · rw [CNetMessage.read, hheader.in_data, if_neg Bool.false_ne_true]
    obtain ⟨hnone, hrefused⟩ | ⟨n, hn, hpos, hnext⟩ := hheader.readHeader hpch
    · refine ⟨fun _ ↦ .refused hrefused, fun m hm ↦ ?_⟩
      rw [hnone] at hm
      cases hm
    · refine ⟨fun hnone ↦ ?_, fun m hm ↦ ?_⟩
      · rw [hn] at hnone
        cases hnone
      · obtain rfl : n = m := Option.some.inj (hn.symm.trans hm)
        exact ⟨rfl, hpos, .single hnext⟩
  · rw [CNetMessage.read, hdata.in_data, if_pos rfl]
    obtain ⟨n, hn, hpos, hnext⟩ := hdata.readData hpch hc
    refine ⟨fun hnone ↦ ?_, fun m hm ↦ ?_⟩
    · rw [hn] at hnone
      cases hnone
    · obtain rfl : n = m := Option.some.inj (hn.symm.trans hm)
      exact ⟨rfl, hpos, .single (.inr hnext)⟩

theorem Received.round {vRecvMsg : List CNetMessage} {bytes : List UInt8} {ok : Bool}
    (h : Received vRecvMsg bytes ok) {pch : List UInt8} (hpch : pch ≠ []) :
    Round bytes pch ok
      ((currentMsg messageStart vRecvMsg).1 ++ [((currentMsg messageStart vRecvMsg).2.read pch).1])
      ((currentMsg messageStart vRecvMsg).2.read pch).2 := by
  induction h with
  | nil =>
    exact round_single (.inl (inHeader_init messageStart)) rfl hpch
  | waiting h hc =>
    rw [currentMsg_single messageStart hc]
    exact round_single h hc hpch
  | refused h =>
    rw [currentMsg_single messageStart h.complete]
    obtain ⟨hnone, hrefused⟩ := h.read pch
    refine ⟨fun _ ↦ .refused hrefused, fun m hm ↦ ?_⟩
    rw [hnone] at hm
    cases hm
  | cons h hc _ ih =>
    rw [currentMsg_cons messageStart hc]
    refine ⟨fun hnone ↦ ?_, fun m hm ↦ ?_⟩
    · rw [List.append_assoc]
      exact .cons h hc (ih.none hnone)
    · obtain ⟨hok, hpos, hnext⟩ := ih.some m hm
      rw [List.append_assoc]
      exact ⟨hok, hpos, .cons h hc hnext⟩

theorem Received.loop {fuel : ℕ} {vRecvMsg : List CNetMessage} {bytes pch : List UInt8} {ok : Bool}
    (h : Received vRecvMsg bytes ok) (hfuel : pch.length ≤ fuel) (hpch : pch ≠ [] ∨ ok = true) :
    ∃ vRecvMsg' ok', receiveLoop messageStart fuel vRecvMsg pch = some (vRecvMsg', ok') ∧
      Received vRecvMsg' (bytes ++ pch) ok' := by
  induction fuel generalizing vRecvMsg bytes pch ok with
  | zero =>
    obtain rfl := List.length_eq_zero_iff.mp (Nat.le_zero.mp hfuel)
    obtain rfl := hpch.resolve_left (fun hne ↦ hne rfl)
    exact ⟨vRecvMsg, true, rfl, by rwa [List.append_nil]⟩
  | succ fuel ih =>
    cases pch with
    | nil =>
      obtain rfl := hpch.resolve_left (fun hne ↦ hne rfl)
      exact ⟨vRecvMsg, true, rfl, by rwa [List.append_nil]⟩
    | cons b pch =>
      have hround := h.round messageStart (List.cons_ne_nil b pch)
      rw [receiveLoop]
      cases hread : ((currentMsg messageStart vRecvMsg).2.read (b :: pch)).2 with
      | none => exact ⟨_, false, rfl, hround.none hread⟩
      | some n =>
        obtain ⟨-, hpos, hnext⟩ := hround.some n hread
        have hshort : ((b :: pch).drop n).length ≤ fuel := by
          rw [List.length_drop]
          omega
        obtain ⟨vRecvMsg', ok', hrun, hreceived⟩ := ih hnext hshort (.inr rfl)
        rw [List.append_assoc, List.take_append_drop] at hreceived
        exact ⟨vRecvMsg', ok', hrun, hreceived⟩

end

/-! ## The reference -/

/-- The messages of a stream, and whether the header after them announces too much. -/
structure ParsedStream where
  messages : List (CMessageHeader × List UInt8)
  refused : Bool

/-- Headers of 24 bytes, each followed by as many bytes as it announces. -/
def parseStream (bytes : List UInt8) : ParsedStream :=
  if bytes.length < 24 then ⟨[], false⟩
  else
    let hdr := CMessageHeader.ofBytes bytes
    if MAX_SIZE < hdr.nMessageSize then ⟨[], true⟩
    else if bytes.length < 24 + hdr.nMessageSize then ⟨[], false⟩
    else
      let rest := parseStream (bytes.drop (24 + hdr.nMessageSize))
      ⟨(hdr, (bytes.drop 24).take hdr.nMessageSize) :: rest.messages, rest.refused⟩
termination_by bytes.length

theorem parse_short {bytes : List UInt8} (h : bytes.length < 24) :
    parseStream bytes = ⟨[], false⟩ := by
  rw [parseStream, if_pos h]

theorem parse_refused {bytes : List UInt8} (hlen : 24 ≤ bytes.length)
    (hsize : MAX_SIZE < (CMessageHeader.ofBytes bytes).nMessageSize) :
    parseStream bytes = ⟨[], true⟩ := by
  rw [parseStream, if_neg (not_lt.mpr hlen), if_pos hsize]

theorem parse_waiting {bytes : List UInt8} (hlen : 24 ≤ bytes.length)
    (hsize : (CMessageHeader.ofBytes bytes).nMessageSize ≤ MAX_SIZE)
    (hshort : bytes.length < 24 + (CMessageHeader.ofBytes bytes).nMessageSize) :
    parseStream bytes = ⟨[], false⟩ := by
  rw [parseStream, if_neg (not_lt.mpr hlen), if_neg (not_lt.mpr hsize), if_pos hshort]

/-- A complete message is taken off. -/
theorem parse_append {bytes rest : List UInt8}
    (hlen : bytes.length = 24 + (CMessageHeader.ofBytes bytes).nMessageSize)
    (hsize : (CMessageHeader.ofBytes bytes).nMessageSize ≤ MAX_SIZE) :
    parseStream (bytes ++ rest) =
      ⟨(CMessageHeader.ofBytes bytes, bytes.drop 24) :: (parseStream rest).messages,
        (parseStream rest).refused⟩ := by
  have hbytes : 24 ≤ bytes.length := by omega
  have hall : (bytes ++ rest).length = bytes.length + rest.length := List.length_append
  have hpayload : ((bytes ++ rest).drop 24).take (CMessageHeader.ofBytes bytes).nMessageSize =
      bytes.drop 24 := by
    have hdrop : (bytes.drop 24).length = (CMessageHeader.ofBytes bytes).nMessageSize := by
      rw [List.length_drop]
      omega
    rw [List.drop_append_of_le_length hbytes, ← hdrop, List.take_left]
  rw [parseStream, CMessageHeader.ofBytes_append hbytes, if_neg (by omega),
    if_neg (not_lt.mpr hsize),
    if_neg (by omega), hpayload, ← hlen, List.drop_left]

/-- What has been received is what the reference finds. -/
theorem Received.parse {vRecvMsg : List CNetMessage} {bytes : List UInt8} {ok : Bool}
    (h : Received vRecvMsg bytes ok) :
    parseStream bytes =
      ⟨(vRecvMsg.filter CNetMessage.complete).map fun msg ↦ (msg.hdr, msg.vRecv), !ok⟩ := by
  induction h with
  | nil => exact parse_short (by decide)
  | waiting h hc =>
    rw [List.filter_cons_of_neg (by rw [hc]; exact Bool.false_ne_true)]
    obtain hheader | hdata := h
    · exact parse_short hheader.lt
    · have hbytes := hdata.nDataPos
      have hle₁ := hdata.le_length
      have hle₂ := hdata.length_le
      have hsize := hdata.size_le
      have hne := mt hdata.complete_iff.mpr (by rw [hc]; exact Bool.false_ne_true)
      rw [hdata.hdr] at hsize hle₂ hne
      exact parse_waiting (by omega) hsize (by omega)
  | refused h =>
    rw [List.filter_cons_of_neg (by rw [h.complete]; exact Bool.false_ne_true)]
    exact parse_refused h.le_length h.lt_size
  | cons h hc _ ih =>
    have hsize := h.size_le
    have hdone := h.complete_iff.mp hc
    have hle := h.length_le
    have hbytes := h.nDataPos
    have hpayload := h.take_vRecv
    rw [List.take_of_length_le (by omega)] at hpayload
    rw [h.hdr] at hsize
    rw [List.filter_cons_of_pos hc, List.map_cons, parse_append (by rw [← h.hdr]; omega) hsize, ih,
      h.hdr, hpayload]

/-! ## Every way to cut the stream -/

theorem Received.all (messageStart : List UInt8) {chunks : List (List UInt8)}
    (hne : ∀ pch ∈ chunks, pch ≠ []) {vRecvMsg : List CNetMessage} {bytes : List UInt8} {ok : Bool}
    (h : Received vRecvMsg bytes ok) :
    ∃ vRecvMsg' ok' fRets, receiveAll messageStart vRecvMsg chunks = some (vRecvMsg', fRets) ∧
      Received vRecvMsg' (bytes ++ chunks.flatten) ok' ∧ fRets.length = chunks.length ∧
      ∀ k < chunks.length, fRets[k]? =
        some !(parseStream (bytes ++ (chunks.take (k + 1)).flatten)).refused := by
  induction chunks generalizing vRecvMsg bytes ok with
  | nil =>
    refine ⟨vRecvMsg, ok, [], rfl, ?_, rfl, fun k hk ↦ absurd hk (Nat.not_lt_zero k)⟩
    rwa [List.flatten_nil, List.append_nil]
  | cons pch chunks ih =>
    obtain ⟨hpch, hchunks⟩ := List.forall_mem_cons.mp hne
    obtain ⟨vRecvMsg₁, ok₁, hcall, h₁⟩ := h.loop messageStart le_rfl (.inl hpch)
    obtain ⟨vRecvMsg₂, ok₂, fRets, hcalls, h₂, hlen, hfRets⟩ := ih hchunks h₁
    refine ⟨vRecvMsg₂, ok₂, ok₁ :: fRets, ?_, ?_, ?_, fun k hk ↦ ?_⟩
    · rw [receiveAll, receiveMsgBytes, hcall]
      show (receiveAll messageStart vRecvMsg₁ chunks).bind _ = _
      rw [hcalls]
      rfl
    · rwa [List.flatten_cons, ← List.append_assoc]
    · rw [List.length_cons, List.length_cons, hlen]
    · cases k with
      | zero =>
        rw [List.take_succ_cons, List.take_zero, List.flatten_cons, List.flatten_nil,
          List.append_nil, h₁.parse, Bool.not_not]
        rfl
      | succ k =>
        rw [List.length_cons] at hk
        rw [List.take_succ_cons, List.flatten_cons, ← List.append_assoc, List.getElem?_cons_succ]
        exact hfRets k (by omega)

/-- However a stream is cut into pieces, the complete messages are those of the reference, each with its
header and its payload, and a call fails exactly when the stream up to it has a header that announces
too much. -/
theorem receiveAll_eq_parse (messageStart : List UInt8) (chunks : List (List UInt8))
    (hne : ∀ pch ∈ chunks, pch ≠ []) :
    ∃ vRecvMsg fRets, receiveAll messageStart [] chunks = some (vRecvMsg, fRets) ∧
      (vRecvMsg.filter CNetMessage.complete).map (fun msg ↦ (msg.hdr, msg.vRecv)) =
        (parseStream chunks.flatten).messages ∧
      fRets.length = chunks.length ∧
      ∀ k < chunks.length, fRets[k]? =
        some !(parseStream (chunks.take (k + 1)).flatten).refused := by
  obtain ⟨vRecvMsg, ok, fRets, hcalls, hreceived, hlen, hfRets⟩ :=
    Received.all messageStart hne .nil
  rw [List.nil_append] at hreceived
  exact ⟨vRecvMsg, fRets, hcalls, by rw [hreceived.parse], hlen, hfRets⟩

theorem receiveAll_eq_parse_sample :
    ∃ vRecvMsg fRets,
      receiveAll [1, 2, 3, 4] [] [[1, 2, 3], 4 :: List.replicate 20 0 ++ [1]] =
        some (vRecvMsg, fRets) ∧
      (vRecvMsg.filter CNetMessage.complete).map (fun msg ↦ (msg.hdr, msg.vRecv)) =
        (parseStream [[1, 2, 3], 4 :: List.replicate 20 0 ++ [1]].flatten).messages ∧
      fRets.length = 2 ∧
      ∀ k < 2, fRets[k]? = some
        !(parseStream ([[1, 2, 3], 4 :: List.replicate 20 0 ++ [1]].take (k + 1)).flatten).refused :=
  receiveAll_eq_parse [1, 2, 3, 4] _ (by decide)

end Bws
