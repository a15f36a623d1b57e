import Lycancoin.Net.MessageStream

namespace Lycancoin

open Lycancoin.Data

/-- Bytes of the same number take the place of others. -/
theorem memcpy_middle {front back old new : List UInt8} {position : Nat}
    (starts : front.length = position) (same : new.length = old.length) :
    memcpy (front ++ (old ++ back)) position new = some (front ++ (new ++ back)) := by
  subst starts
  have fits : front.length + new.length ≤ (front ++ (old ++ back)).length := by
    rw [List.length_append, List.length_append]
    omega
  have behind : (front ++ (old ++ back)).drop (front.length + new.length) = back := by
    rw [← List.append_assoc, same, ← List.length_append]
    exact List.drop_left
  rw [memcpy, if_pos fits, overwrite, behind, List.take_left,
    show front.length - (front ++ (old ++ back)).length = 0 by rw [List.length_append]; omega,
    List.replicate_zero, List.append_nil, List.append_assoc]

namespace CMessageHeader

theorem length_strncpy (pszCommand : List UInt8) (count : Nat) :
    (strncpy pszCommand count).length = count := by
  have short := List.length_take_le count (pszCommand.takeWhile (· ≠ 0))
  rw [strncpy, List.length_append, List.length_replicate]
  omega

/-- A header whose arrays have their sizes is read back from its bytes. -/
theorem ofBytes_serialize (hdr : CMessageHeader) (payload : List UInt8)
    (start : hdr.pchMessageStart.length = MESSAGE_START_SIZE)
    (command : hdr.pchCommand.length = COMMAND_SIZE) :
    ofBytes ((hdr.serialize ++ payload).take HEADER_SIZE) = hdr ∧
      (hdr.serialize ++ payload).drop HEADER_SIZE = payload := by
  have length : hdr.serialize.length = HEADER_SIZE := by
    simp only [serialize, serializeUInt32, List.length_append, length_serWriteData, start, command]
    rfl
  rw [List.take_left' length, List.drop_left' length]
  refine ⟨?_, rfl⟩
  have read := unserialize_eq length
  have start' : Reads (Reader.take ReadFailure.endOfData MESSAGE_START_SIZE) hdr.pchMessageStart
      hdr.pchMessageStart := start ▸ Reads.take ReadFailure.endOfData hdr.pchMessageStart
  have command' : Reads (Reader.take ReadFailure.endOfData COMMAND_SIZE) hdr.pchCommand
      hdr.pchCommand := command ▸ Reads.take ReadFailure.endOfData hdr.pchCommand
  have reads : Reads unserialize hdr.serialize hdr := by
    simp only [serialize, List.append_assoc]
    exact start'.bind (command'.bind ((inverse_unserializeUInt32.reads hdr.nMessageSize trivial).bind
      (inverse_unserializeUInt32.reads hdr.nChecksum trivial).bind_pure))
  have known := reads []
  rw [List.append_nil, read] at known
  exact congrArg Prod.fst (Except.ok.inj known)

end CMessageHeader

/-- A command of printable characters that fits into a header. -/
structure IsCommand (pszCommand : List UInt8) : Prop where
  length : pszCommand.length ≤ COMMAND_SIZE
  printable : ∀ byte ∈ pszCommand, 0x20 ≤ byte ∧ byte ≤ 0x7E

namespace IsCommand

variable {pszCommand : List UInt8}

theorem ne_zero (isCommand : IsCommand pszCommand) : ∀ byte ∈ pszCommand, byte ≠ 0 := by
  intro byte member isZero
  have least := (isCommand.printable byte member).1
  rw [isZero] at least
  exact absurd least (by decide)

theorem takeWhile_eq (isCommand : IsCommand pszCommand) :
    pszCommand.takeWhile (· ≠ 0) = pszCommand := by
  rw [List.takeWhile_eq_self_iff]
  intro byte member
  exact decide_eq_true (isCommand.ne_zero byte member)

theorem strncpy_eq (isCommand : IsCommand pszCommand) :
    CMessageHeader.strncpy pszCommand COMMAND_SIZE =
      pszCommand ++ List.replicate (COMMAND_SIZE - pszCommand.length) 0 := by
  simp only [CMessageHeader.strncpy, isCommand.takeWhile_eq,
    List.take_of_length_le isCommand.length]

theorem takeWhile_append_replicate (bytes : List UInt8) (nonzero : ∀ byte ∈ bytes, byte ≠ 0)
    (count : Nat) : (bytes ++ List.replicate count 0).takeWhile (· ≠ 0) = bytes := by
  induction bytes with
  | nil => cases count <;> rfl
  | cons byte bytes ih =>
      rw [List.cons_append, List.takeWhile_cons, if_pos
        (decide_eq_true (nonzero byte List.mem_cons_self)),
        ih fun other member => nonzero other (List.mem_cons_of_mem _ member)]

theorem isCommand_append_replicate (bytes : List UInt8)
    (printable : ∀ byte ∈ bytes, 0x20 ≤ byte ∧ byte ≤ 0x7E) (count : Nat) :
    CMessageHeader.isCommand (bytes ++ List.replicate count 0) = true := by
  induction bytes with
  | nil =>
      cases count with
      | zero => rfl
      | succ count => simp [List.replicate_succ, CMessageHeader.isCommand]
  | cons byte bytes ih =>
      obtain ⟨least, most⟩ := printable byte List.mem_cons_self
      have nonzero : byte ≠ 0 := by
        rintro rfl
        exact absurd least (by decide)
      rw [List.cons_append, CMessageHeader.isCommand, if_neg nonzero, if_neg]
      · exact ih fun other member => printable other (List.mem_cons_of_mem _ member)
      · intro outside
        rcases outside with below | above
        · exact absurd least (UInt8.not_le.mpr below)
        · exact absurd most (UInt8.not_le.mpr above)

end IsCommand

namespace SendQueue

variable {hash : List UInt8 → Uint256} {messageStart : MessageStart}
  {pszCommand payload : List UInt8} {node : SendQueue}

def checksum (hash : List UInt8 → Uint256) (payload : List UInt8) : UInt32 :=
  UInt32.ofNat (littleEndian ((hash payload).serialize.take 4))

def encode (hash : List UInt8 → Uint256) (messageStart : MessageStart)
    (message : List UInt8 × List UInt8) : List UInt8 :=
  { CMessageHeader.ofCommand messageStart message.1 (UInt32.ofNat message.2.length) with
    nChecksum := checksum hash message.2 }.serialize ++ message.2

theorem length_checksumBytes (blob : Uint256) : (blob.serialize.take 4).length = 4 := by
  rw [List.length_take, Uint256.serialize_eq, length_serWriteData]
  rfl

theorem serialize_checksum (hash : List UInt8 → Uint256) (payload : List UInt8) :
    serializeUInt32 (checksum hash payload) = (hash payload).serialize.take 4 := by
  have length := length_checksumBytes (hash payload)
  have bound := littleEndian_lt ((hash payload).serialize.take 4)
  rw [length] at bound
  have same := serWriteData_littleEndian ((hash payload).serialize.take 4)
  rw [length] at same
  rw [serializeUInt32, checksum, UInt32.toNat_ofNat_of_lt' (by exact bound)]
  exact same

theorem finishHeader_eq (hash : List UInt8 → Uint256) (messageStart : MessageStart)
    (pszCommand payload : List UInt8) :
    finishHeader hash ((CMessageHeader.ofCommand messageStart pszCommand 0).serialize ++ payload) =
      some (encode hash messageStart (pszCommand, payload)) := by
  have starts : (messageStart.val ++ CMessageHeader.strncpy pszCommand COMMAND_SIZE).length =
      MESSAGE_SIZE_OFFSET := by
    rw [List.length_append, messageStart.property, CMessageHeader.length_strncpy]
    rfl
  have words : ∀ word : UInt32, (serializeUInt32 word).length = 4 := fun _ => length_serWriteData _ _
  have offsets : MESSAGE_SIZE_OFFSET = 16 ∧ CHECKSUM_OFFSET = 20 ∧ HEADER_SIZE = 24 :=
    ⟨rfl, rfl, rfl⟩
  rw [finishHeader, encode]
  simp only [CMessageHeader.serialize, CMessageHeader.ofCommand, List.append_assoc]
  simp only [← List.append_assoc messageStart.val]
  generalize messageStart.val ++ CMessageHeader.strncpy pszCommand COMMAND_SIZE = front at starts
  have size : (front ++ (serializeUInt32 0 ++ (serializeUInt32 0 ++ payload))).length - HEADER_SIZE =
      payload.length := by
    simp only [List.length_append, words, starts]
    omega
  rw [size, memcpy_middle starts ((words _).trans (words _).symm), Option.bind_eq_bind,
    Option.bind_some]
  have sized : (front ++ serializeUInt32 (UInt32.ofNat payload.length)).length = CHECKSUM_OFFSET := by
    rw [List.length_append, starts, words]
  have behind : (front ++ (serializeUInt32 (UInt32.ofNat payload.length) ++
      (serializeUInt32 0 ++ payload))).drop HEADER_SIZE = payload := by
    rw [← List.append_assoc, ← List.append_assoc]
    apply List.drop_left'
    rw [List.length_append, sized, words]
  rw [behind, if_neg, ← List.append_assoc, memcpy_middle sized, serialize_checksum,
    List.append_assoc]
  · rw [length_checksumBytes, words]
  · simp only [List.length_append, words, starts]
    omega

theorem encode_spec (hash : List UInt8 → Uint256) (messageStart : MessageStart)
    (pszCommand payload : List UInt8) :
    CMessageHeader.ofBytes ((encode hash messageStart (pszCommand, payload)).take HEADER_SIZE) =
        { CMessageHeader.ofCommand messageStart pszCommand (UInt32.ofNat payload.length) with
          nChecksum := checksum hash payload } ∧
      (encode hash messageStart (pszCommand, payload)).drop HEADER_SIZE = payload :=
  CMessageHeader.ofBytes_serialize _ payload messageStart.property
    (CMessageHeader.length_strncpy _ _)

theorem length_encode (hash : List UInt8 → Uint256) (messageStart : MessageStart)
    (pszCommand payload : List UInt8) :
    (encode hash messageStart (pszCommand, payload)).length = HEADER_SIZE + payload.length := by
  simp only [encode, CMessageHeader.serialize, CMessageHeader.ofCommand, serializeUInt32,
    List.length_append, length_serWriteData, messageStart.property, CMessageHeader.length_strncpy]
  rfl

theorem toNat_length (small : payload.length ≤ MAX_PROTOCOL_MESSAGE_LENGTH) :
    (UInt32.ofNat payload.length).toNat = payload.length :=
  UInt32.toNat_ofNat_of_lt' (lt_of_le_of_lt small (by decide))

theorem framed_encode (small : payload.length ≤ MAX_PROTOCOL_MESSAGE_LENGTH) :
    messageFraming.Framed (encode hash messageStart (pszCommand, payload)) := by
  refine ⟨payload.length, ?_, length_encode hash messageStart pszCommand payload⟩
  have isSize : (CMessageHeader.ofBytes ((encode hash messageStart (pszCommand, payload)).take
      HEADER_SIZE)).nMessageSize.toNat = payload.length := by
    rw [(encode_spec hash messageStart pszCommand payload).1]
    exact toNat_length small
  simp only [messageFraming, isSize]
  rw [if_pos small]

theorem accepted_encode (isCommand : IsCommand pszCommand)
    (small : payload.length ≤ MAX_PROTOCOL_MESSAGE_LENGTH) :
    (CNetMessage.ofFrame (encode hash messageStart (pszCommand, payload))).accepted hash
      messageStart = some (pszCommand, payload) := by
  obtain ⟨isHeader, isPayload⟩ := encode_spec hash messageStart pszCommand payload
  have valid : CMessageHeader.isCommand (CMessageHeader.strncpy pszCommand COMMAND_SIZE) = true := by
    rw [isCommand.strncpy_eq]
    exact IsCommand.isCommand_append_replicate _ isCommand.printable _
  have command : (CMessageHeader.strncpy pszCommand COMMAND_SIZE).takeWhile (· ≠ 0) = pszCommand := by
    rw [isCommand.strncpy_eq]
    exact IsCommand.takeWhile_append_replicate _ isCommand.ne_zero _
  have sum : littleEndian ((hash payload).serialize.take 4) = (checksum hash payload).toNat := by
    have bound := littleEndian_lt ((hash payload).serialize.take 4)
    rw [length_checksumBytes] at bound
    exact (UInt32.toNat_ofNat_of_lt' bound).symm
  have limit : payload.length ≤ MAX_SIZE := small.trans (by decide)
  have isSize := toNat_length small
  rw [CNetMessage.accepted]
  simp only [CNetMessage.ofFrame, isHeader, isPayload, CMessageHeader.ofCommand,
    CMessageHeader.isValid, CMessageHeader.getCommand, valid, isSize, List.take_length, sum]
  simp only [ne_eq, not_true_eq_false, if_false, Bool.not_true, Bool.false_eq_true, limit,
    decide_true, command]

variable {after : SendQueue} {sent : List UInt8}

/-- The bytes that wait to be sent. -/
def pending (node : SendQueue) : List UInt8 := node.vSendMsg.flatten.drop node.nSendOffset

/-- Nothing but the start of the first message is sent. -/
def OffsetInside (vSendMsg : List (List UInt8)) (nSendOffset : Nat) : Prop :=
  match vSendMsg with
  | [] => nSendOffset = 0
  | data :: _ => nSendOffset < data.length

structure Sound (node : SendQueue) : Prop where
  ssSend : node.ssSend = []
  nSendSize : node.nSendSize = (node.vSendMsg.map List.length).sum
  messages : ∀ data ∈ node.vSendMsg, data ≠ []
  nSendOffset : OffsetInside node.vSendMsg node.nSendOffset

theorem Sound.empty : Sound empty := ⟨rfl, rfl, nofun, rfl⟩

theorem sendLoop_spec (send : SendResults) (call : Nat) {vSendMsg : List (List UInt8)}
    {nSendOffset : Nat} (messages : ∀ data ∈ vSendMsg, data ≠ [])
    (inside : OffsetInside vSendMsg nSendOffset) :
    ∃ queue offset sent,
      sendLoop send call vSendMsg nSendOffset (vSendMsg.map List.length).sum =
          some (queue, offset, ((queue.map List.length).sum : Int), sent) ∧
        sent ++ queue.flatten.drop offset = vSendMsg.flatten.drop nSendOffset ∧
        (∀ data ∈ queue, data ≠ []) ∧ OffsetInside queue offset := by
  induction vSendMsg generalizing call nSendOffset with
  | nil =>
      refine ⟨[], nSendOffset, [], rfl, rfl, messages, inside⟩
  | cons data rest ih =>
      change nSendOffset < data.length at inside
      have others := fun other member => messages other (List.mem_cons_of_mem data member)
      obtain ⟨nBytes, isCount⟩ : ∃ nBytes,
          nBytes = min ((send call).getD 0) (data.length - nSendOffset) := ⟨_, rfl⟩
      have split : (data :: rest).flatten.drop nSendOffset =
          data.drop nSendOffset ++ rest.flatten := by
        rw [List.flatten_cons, List.drop_append_of_le_length inside.le]
      rw [sendLoop, if_neg (by omega)]
      simp only [← isCount]
      by_cases nothing : nBytes = 0
      · rw [if_pos nothing]
        exact ⟨data :: rest, nSendOffset, [], rfl, rfl, messages, inside⟩
      · rw [if_neg nothing]
        by_cases whole : nSendOffset + nBytes = data.length
        · have start : OffsetInside rest 0 := by
            cases rest with
            | nil => rfl
            | cons next rest => exact List.length_pos_iff.mpr (others next List.mem_cons_self)
          obtain ⟨queue, offset, sent, returned, stream, kept, insideAfter⟩ :=
            ih (call + 1) others start
          have size : (((data :: rest).map List.length).sum : Int) - data.length =
              (rest.map List.length).sum := by
            rw [List.map_cons, List.sum_cons]
            push_cast
            omega
          rw [if_pos whole]
          push_cast at size returned ⊢
          rw [size, returned]
          refine ⟨queue, offset, (data.drop nSendOffset).take nBytes ++ sent, rfl, ?_, kept,
            insideAfter⟩
          rw [List.append_assoc, stream, split, List.drop_zero, List.take_of_length_le]
          rw [List.length_drop]
          omega
        · rw [if_neg whole]
          refine ⟨data :: rest, nSendOffset + nBytes, (data.drop nSendOffset).take nBytes, rfl, ?_,
            messages, (by omega : nSendOffset + nBytes < data.length)⟩
          rw [split, List.flatten_cons, List.drop_append_of_le_length (by omega), ← List.drop_drop,
            ← List.append_assoc, List.take_append_drop]

/-- `SocketSendData` sends the next of the bytes that wait, and no assertion fails. -/
theorem Sound.socketSendData (sound : Sound node) (send : SendResults) :
    ∃ after sent, node.socketSendData send = some (after, sent) ∧ Sound after ∧
      sent ++ after.pending = node.pending := by
  obtain ⟨queue, offset, sent, returned, stream, kept, inside⟩ :=
    sendLoop_spec send 0 sound.messages sound.nSendOffset
  rw [← sound.nSendSize] at returned
  refine ⟨{ node with
    vSendMsg := queue
    nSendOffset := offset
    nSendSize := (queue.map List.length).sum }, sent, ?_, ⟨sound.ssSend, rfl, kept, inside⟩, stream⟩
  rw [SendQueue.socketSendData, returned, Option.bind_eq_bind, Option.bind_some]
  simp only
  rw [if_neg]
  intro ⟨isEmpty, wrong⟩
  have nothing := List.isEmpty_iff.mp isEmpty
  subst nothing
  rcases wrong with wrongOffset | wrongSize
  · exact wrongOffset inside
  · exact wrongSize rfl

theorem Sound.pushMessage (sound : Sound node) (hash : List UInt8 → Uint256)
    (messageStart : MessageStart) (pszCommand payload : List UInt8) (send : SendResults) :
    ∃ after sent, node.pushMessage hash messageStart pszCommand payload send = some (after, sent) ∧
      Sound after ∧
      sent ++ after.pending = node.pending ++ encode hash messageStart (pszCommand, payload) := by
  have length := length_encode hash messageStart pszCommand payload
  have headerLength : (CMessageHeader.ofCommand messageStart pszCommand 0).serialize.length =
      HEADER_SIZE := by
    simp only [CMessageHeader.serialize, CMessageHeader.ofCommand, serializeUInt32,
      List.length_append, length_serWriteData, messageStart.property,
      CMessageHeader.length_strncpy]
    rfl
  have isSize : HEADER_SIZE = 24 := rfl
  have begun : node.beginMessage messageStart pszCommand = some { node with
      ssSend := (CMessageHeader.ofCommand messageStart pszCommand 0).serialize } := by
    rw [beginMessage, sound.ssSend, if_neg (by simp)]
  rw [SendQueue.pushMessage, begun, Option.bind_eq_bind, Option.bind_some, endMessage]
  simp only
  rw [if_neg (by rw [List.length_append, headerLength]; omega), finishHeader_eq,
    Option.bind_eq_bind, Option.bind_some]
  generalize encode hash messageStart (pszCommand, payload) = data at length ⊢
  have some : data ≠ [] := by
    intro nothing
    rw [nothing] at length
    change 0 = _ at length
    omega
  have queued : Sound { node with
      ssSend := []
      vSendMsg := node.vSendMsg ++ [data]
      nSendSize := node.nSendSize + data.length } := by
    refine ⟨rfl, ?_, ?_, ?_⟩
    · simp [sound.nSendSize]
    · intro other member
      rcases List.mem_append.mp member with earlier | last
      · exact sound.messages other earlier
      · rw [List.mem_singleton.mp last]
        exact some
    · have inside := sound.nSendOffset
      cases queue : node.vSendMsg with
      | nil =>
          rw [queue] at inside
          change node.nSendOffset = 0 at inside
          change node.nSendOffset < data.length
          omega
      | cons first rest =>
          rw [queue] at inside
          exact inside
  have stream : pending { node with
      ssSend := []
      vSendMsg := node.vSendMsg ++ [data]
      nSendSize := node.nSendSize + data.length } = node.pending ++ data := by
    have inside := sound.nSendOffset
    have enough : node.nSendOffset ≤ node.vSendMsg.flatten.length := by
      cases queue : node.vSendMsg with
      | nil =>
          rw [queue] at inside
          exact Nat.le_of_eq inside
      | cons first rest =>
          rw [queue] at inside
          change node.nSendOffset < first.length at inside
          rw [List.flatten_cons, List.length_append]
          omega
    rw [pending, pending]
    simp only [List.flatten_append, List.flatten_singleton]
    exact List.drop_append_of_le_length enough
  split_ifs
  · obtain ⟨after, sent, returned, soundAfter, streamAfter⟩ := queued.socketSendData send
    exact ⟨after, sent, returned, soundAfter, streamAfter.trans stream⟩
  · exact ⟨_, [], rfl, queued, stream⟩

end SendQueue

namespace MessageLink

variable {hash : List UInt8 → Uint256} {messageStart : MessageStart}
  {queued : List (List UInt8 × List UInt8)} {link after : MessageLink}

structure Queueable (message : List UInt8 × List UInt8) : Prop where
  isCommand : IsCommand message.1
  small : message.2.length ≤ MAX_PROTOCOL_MESSAGE_LENGTH

/-- The bytes that were received, those on their way and those that wait are the
queued messages, and the peer holds the messages of what it received. -/
structure Delivers (hash : List UInt8 → Uint256) (messageStart : MessageStart)
    (queued : List (List UInt8 × List UInt8)) (link : MessageLink) : Prop where
  node : link.node.Sound
  connected : link.fDisconnect = false
  stream : ∃ received state,
    received ++ (link.wire ++ link.node.pending) =
        (queued.map (SendQueue.encode hash messageStart)).flatten ∧
      messageFraming.feed ⟨[], []⟩ received = .ok state ∧
      CNetMessage.Receives state link.vRecvMsg

theorem Delivers.empty : Delivers hash messageStart [] empty where
  node := SendQueue.Sound.empty
  connected := rfl
  stream := ⟨[], ⟨[], []⟩, rfl, rfl, CNetMessage.Receives.empty⟩

theorem framed_of_queueable (queueable : ∀ message ∈ queued, Queueable message) :
    ∀ frame ∈ queued.map (SendQueue.encode hash messageStart), messageFraming.Framed frame := by
  intro frame member
  obtain ⟨message, inQueue, rfl⟩ := List.mem_map.mp member
  exact SendQueue.framed_encode (queueable message inQueue).small

def queuedBy (action : LinkAction) : List (List UInt8 × List UInt8) := queuedMessages [action]

theorem Delivers.step (delivers : Delivers hash messageStart queued link)
    (queueable : ∀ message ∈ queued, Queueable message) (action : LinkAction) :
    ∃ after, link.step hash messageStart action = some after ∧
      Delivers hash messageStart (queued ++ queuedBy action) after := by
  obtain ⟨received, state, stream, fed, receives⟩ := delivers.stream
  cases action with
  | pushMessage pszCommand payload send =>
      obtain ⟨node, sent, returned, sound, pending⟩ :=
        delivers.node.pushMessage hash messageStart pszCommand payload send
      refine ⟨{ link with node, wire := link.wire ++ sent }, ?_, sound, delivers.connected,
        received, state, ?_, fed, receives⟩
      · rw [MessageLink.step, returned]
        rfl
      · change received ++ (link.wire ++ sent ++ node.pending) = _
        rw [List.append_assoc, pending, ← List.append_assoc link.wire, ← List.append_assoc received,
          stream]
        simp [queuedBy, queuedMessages]
  | socketSendData send =>
      obtain ⟨node, sent, returned, sound, pending⟩ := delivers.node.socketSendData send
      refine ⟨{ link with node, wire := link.wire ++ sent }, ?_, sound, delivers.connected,
        received, state, ?_, fed, receives⟩
      · rw [MessageLink.step, returned]
        rfl
      · change received ++ (link.wire ++ sent ++ node.pending) = _
        rw [List.append_assoc, pending, stream]
        simp [queuedBy, queuedMessages]
  | receiveMsgBytes nBytes =>
      have split : received ++ link.wire.take nBytes ++ (link.wire.drop nBytes ++
          link.node.pending) = (queued.map (SendQueue.encode hash messageStart)).flatten := by
        rw [List.append_assoc, ← List.append_assoc (link.wire.take nBytes), List.take_append_drop,
          stream]
      obtain ⟨next, fedMore, _, _⟩ := Framing.feed_of_prefix (by decide : 0 < HEADER_SIZE)
        (framed_of_queueable queueable) ⟨_, split⟩
      have chunk : messageFraming.feed state (link.wire.take nBytes) = .ok next := by
        have whole : messageFraming.feed ⟨[], []⟩ (received ++ link.wire.take nBytes) = _ :=
          Framing.feed_append ..
        rw [fed] at whole
        exact whole.symm.trans fedMore
      obtain ⟨fOk, vRecvMsg, returned, outcome⟩ :=
        CNetMessage.receiveLoop_spec messageStart (link.wire.take nBytes).length le_rfl receives
      rw [chunk] at outcome
      obtain ⟨rfl, receivesNext⟩ := outcome
      refine ⟨{ link with wire := link.wire.drop nBytes, vRecvMsg, fDisconnect := false }, ?_,
        delivers.node, rfl, received ++ link.wire.take nBytes, next, ?_, fedMore, receivesNext⟩
      · rw [MessageLink.step, delivers.connected, if_neg Bool.false_ne_true,
          CNetMessage.receiveMsgBytes, returned]
        rfl
      · rw [show queuedBy (.receiveMsgBytes nBytes) = [] from rfl, List.append_nil]
        exact split

theorem queuedMessages_cons (action : LinkAction) (actions : List LinkAction) :
    queuedMessages (action :: actions) = queuedBy action ++ queuedMessages actions := by
  cases action <;> rfl

theorem Delivers.run (delivers : Delivers hash messageStart queued link) (actions : List LinkAction)
    (queueable : ∀ message ∈ queued ++ queuedMessages actions, Queueable message) :
    ∃ after, link.run hash messageStart actions = some after ∧
      Delivers hash messageStart (queued ++ queuedMessages actions) after := by
  induction actions generalizing link queued with
  | nil =>
      refine ⟨link, rfl, ?_⟩
      rw [show queuedMessages [] = [] from rfl, List.append_nil]
      exact delivers
  | cons action actions ih =>
      rw [queuedMessages_cons, ← List.append_assoc] at queueable ⊢
      have earlier : ∀ message ∈ queued, Queueable message := fun message member =>
        queueable message (by simp [member])
      obtain ⟨next, returned, deliversNext⟩ := delivers.step earlier action
      obtain ⟨after, ran, deliversAfter⟩ := ih deliversNext queueable
      refine ⟨after, ?_, deliversAfter⟩
      rw [MessageLink.run, List.foldlM_cons, returned]
      exact ran

theorem accepted_encoded (queueable : ∀ message ∈ queued, Queueable message) :
    ((queued.map (SendQueue.encode hash messageStart)).map CNetMessage.ofFrame).map
      (CNetMessage.accepted hash messageStart) = queued.map some := by
  rw [List.map_map, List.map_map]
  apply List.map_congr_left
  intro message member
  have fits := queueable message member
  exact SendQueue.accepted_encode fits.isCommand fits.small

/-- Messages arrive as they were queued, however the bytes are cut, and what a stream
of bytes is taken for does not depend on the cuts. -/
theorem messages_delivered (hash : List UInt8 → Uint256) (messageStart : MessageStart)
    (actions : List LinkAction) (queueable : ∀ message ∈ queuedMessages actions, Queueable message) :
    (∃ link, empty.run hash messageStart actions = some link ∧
      link.fDisconnect = false ∧
      link.node.nSendSize = (link.node.vSendMsg.map List.length).sum ∧
      (link.vRecvMsg.filter CNetMessage.complete).map (CNetMessage.accepted hash messageStart) <+:
        (queuedMessages actions).map some ∧
      (link.node.vSendMsg = [] → link.wire = [] →
        (link.vRecvMsg.filter CNetMessage.complete).map (CNetMessage.accepted hash messageStart) =
          (queuedMessages actions).map some)) ∧
    ∀ chunks chunks' : List (List UInt8), chunks.flatten = chunks'.flatten →
      (CNetMessage.outcome messageStart chunks).isSome = true ∧
        CNetMessage.outcome messageStart chunks = CNetMessage.outcome messageStart chunks' := by
  constructor
  · obtain ⟨link, ran, delivers⟩ := Delivers.empty.run actions queueable
    rw [List.nil_append] at delivers
    obtain ⟨received, state, stream, fed, receives⟩ := delivers.stream
    obtain ⟨known, fedAgain, frames, whole⟩ := Framing.feed_of_prefix
      (by decide : 0 < HEADER_SIZE) (framed_of_queueable queueable) ⟨_, stream⟩
    rw [fed] at fedAgain
    cases fedAgain
    refine ⟨link, ran, delivers.connected, delivers.node.nSendSize, ?_, ?_⟩
    · rw [receives.messages, ← accepted_encoded queueable]
      exact (frames.map _).map _
    · intro sentAll arrived
      have nothing : link.node.pending = [] := by
        rw [SendQueue.pending, sentAll]
        exact List.drop_nil
      rw [arrived, nothing, List.append_nil, List.append_nil] at stream
      rw [receives.messages, whole stream]
      exact accepted_encoded queueable
  · intro chunks chunks' same
    obtain ⟨result, told, known⟩ := CNetMessage.outcome_eq messageStart chunks
    obtain ⟨result', told', known'⟩ := CNetMessage.outcome_eq messageStart chunks'
    rw [same] at known
    rw [told, told', known, known']
    exact ⟨rfl, rfl⟩

/-- A message without a payload behind one with a payload, sent and received in pieces. -/
def twoMessages : List LinkAction :=
  [.pushMessage [0x70, 0x69, 0x6E, 0x67] [8, 9] (fun _ => some 10), .receiveMsgBytes 4,
    .pushMessage [0x76, 0x65, 0x72, 0x61, 0x63, 0x6B] [] (fun _ => none),
    .socketSendData (fun _ => some 16), .receiveMsgBytes 21, .socketSendData (fun _ => some 24),
    .receiveMsgBytes 40]

theorem messages_delivered_twoMessages :
    ∃ link, empty.run (fun _ => 7) ⟨[1, 2, 3, 4], rfl⟩ twoMessages = some link ∧
      (link.vRecvMsg.filter CNetMessage.complete).map
          (CNetMessage.accepted (fun _ => 7) ⟨[1, 2, 3, 4], rfl⟩) =
        [some ([0x70, 0x69, 0x6E, 0x67], [8, 9]),
          some ([0x76, 0x65, 0x72, 0x61, 0x63, 0x6B], [])] := by
  obtain ⟨link, ran, _, _, _, delivered⟩ :=
    (messages_delivered (fun _ => 7) ⟨[1, 2, 3, 4], rfl⟩ twoMessages (by
      intro message member
      change message ∈ [([0x70, 0x69, 0x6E, 0x67], [8, 9]),
        ([0x76, 0x65, 0x72, 0x61, 0x63, 0x6B], [])] at member
      rw [List.mem_cons, List.mem_singleton] at member
      rcases member with rfl | rfl
      · exact ⟨⟨by decide, by simp⟩, (by decide : 2 ≤ 2097152)⟩
      · exact ⟨⟨by decide, by simp⟩, Nat.zero_le _⟩)).1
  have quiet : (empty.run (fun _ => 7) ⟨[1, 2, 3, 4], rfl⟩ twoMessages).map
      (fun link => (link.node.vSendMsg, link.wire)) = some ([], []) := by decide
  rw [ran, Option.map_some, Option.some.injEq, Prod.mk.injEq] at quiet
  exact ⟨link, ran, delivered quiet.1 quiet.2⟩

end MessageLink

end Lycancoin
