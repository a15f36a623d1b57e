import Lycancoin.Data.RingBuffer
import Lycancoin.Primitives.Serialize

namespace Lycancoin

open Lycancoin.Data

abbrev MESSAGE_START_SIZE : Nat := 4

abbrev COMMAND_SIZE : Nat := 12

abbrev MESSAGE_SIZE_OFFSET : Nat := 16

abbrev CHECKSUM_OFFSET : Nat := 20

abbrev HEADER_SIZE : Nat := 24

abbrev MAX_PROTOCOL_MESSAGE_LENGTH : Nat := 2 * 1024 * 1024

/-- `MessageStartChars`. -/
abbrev MessageStart := { bytes : List UInt8 // bytes.length = MESSAGE_START_SIZE }

structure CMessageHeader where
  pchMessageStart : List UInt8
  pchCommand : List UInt8
  nMessageSize : UInt32
  nChecksum : UInt32
deriving DecidableEq

namespace CMessageHeader

def ofStart (messageStart : MessageStart) : CMessageHeader where
  pchMessageStart := messageStart.val
  pchCommand := List.replicate COMMAND_SIZE 0
  nMessageSize := 0xFFFFFFFF
  nChecksum := 0

/-- `strncpy` into an array of zeros. -/
def strncpy (pszCommand : List UInt8) (count : Nat) : List UInt8 :=
  let copied := (pszCommand.takeWhile (· ≠ 0)).take count
  copied ++ List.replicate (count - copied.length) 0

def ofCommand (messageStart : MessageStart) (pszCommand : List UInt8) (nMessageSizeIn : UInt32) :
    CMessageHeader where
  pchMessageStart := messageStart.val
  pchCommand := strncpy pszCommand COMMAND_SIZE
  nMessageSize := nMessageSizeIn
  nChecksum := 0

def serialize (hdr : CMessageHeader) : List UInt8 :=
  hdr.pchMessageStart ++ hdr.pchCommand ++ serializeUInt32 hdr.nMessageSize ++
    serializeUInt32 hdr.nChecksum

def unserialize : ByteReader CMessageHeader := do
  let pchMessageStart ← Reader.take .endOfData MESSAGE_START_SIZE
  let pchCommand ← Reader.take .endOfData COMMAND_SIZE
  let nMessageSize ← unserializeUInt32
  let nChecksum ← unserializeUInt32
  pure { pchMessageStart, pchCommand, nMessageSize, nChecksum }

def getCommand (hdr : CMessageHeader) : List UInt8 := hdr.pchCommand.takeWhile (· ≠ 0)

/-- The check of `IsValid` on the command. -/
def isCommand : List UInt8 → Bool
  | [] => true
  | p1 :: rest =>
      if p1 = 0 then rest.all (· = 0)
      else if p1 < 0x20 ∨ p1 > 0x7E then false
      else isCommand rest

def isValid (messageStart : MessageStart) (hdr : CMessageHeader) : Bool :=
  if hdr.pchMessageStart ≠ messageStart.val then false
  else if !isCommand hdr.pchCommand then false
  else decide (hdr.nMessageSize.toNat ≤ MAX_SIZE)

end CMessageHeader

/-- A difference of two values of the type `unsigned int`. -/
def unsignedSub (a b : Nat) : Nat := (a + (2 ^ 32 - b)) % 2 ^ 32

/-- Bytes are copied into a buffer, unless they do not fit. -/
def memcpy (buffer : List UInt8) (position : Nat) (bytes : List UInt8) : Option (List UInt8) :=
  if position + bytes.length ≤ buffer.length then some (overwrite 0 buffer position bytes)
  else none

def resize (buffer : List UInt8) (size : Nat) : List UInt8 :=
  buffer.take size ++ List.replicate (size - buffer.length) 0

/-- A message that comes in.  The time of its receipt is left out. -/
structure CNetMessage where
  inData : Bool
  hdrbuf : List UInt8
  hdr : CMessageHeader
  nHdrPos : Nat
  vRecv : List UInt8
  nDataPos : Nat
deriving DecidableEq

namespace CNetMessage

def ofStart (messageStart : MessageStart) : CNetMessage where
  inData := false
  hdrbuf := List.replicate HEADER_SIZE 0
  hdr := CMessageHeader.ofStart messageStart
  nHdrPos := 0
  vRecv := []
  nDataPos := 0

def complete (msg : CNetMessage) : Bool :=
  if !msg.inData then false else decide (msg.hdr.nMessageSize.toNat = msg.nDataPos)

/-- `readHeader`, with the number of bytes taken, or -1. -/
def readHeader (pch : List UInt8) (msg : CNetMessage) : Option (Int × CNetMessage) := do
  let nRemaining := unsignedSub HEADER_SIZE msg.nHdrPos
  let nCopy := min nRemaining pch.length
  let hdrbuf ← memcpy msg.hdrbuf msg.nHdrPos (pch.take nCopy)
  let nHdrPos := msg.nHdrPos + nCopy
  if nHdrPos < HEADER_SIZE then some (nCopy, { msg with hdrbuf, nHdrPos })
  else
    match CMessageHeader.unserialize.run hdrbuf with
    | .error _ => some (-1, { msg with hdrbuf, nHdrPos })
    | .ok (hdr, hdrbuf) =>
        if MAX_SIZE < hdr.nMessageSize.toNat then some (-1, { msg with hdrbuf, hdr, nHdrPos })
        else some (nCopy, { msg with inData := true, hdrbuf, hdr, nHdrPos })

/-- `readData`, with the number of bytes taken. -/
def readData (pch : List UInt8) (msg : CNetMessage) : Option (Int × CNetMessage) := do
  let nRemaining := unsignedSub msg.hdr.nMessageSize.toNat msg.nDataPos
  let nCopy := min nRemaining pch.length
  let room :=
    if msg.vRecv.length < msg.nDataPos + nCopy then
      resize msg.vRecv (min msg.hdr.nMessageSize.toNat (msg.nDataPos + nCopy + 256 * 1024))
    else msg.vRecv
  let vRecv ← memcpy room msg.nDataPos (pch.take nCopy)
  some (nCopy, { msg with vRecv, nDataPos := msg.nDataPos + nCopy })

/-- The messages before the one that takes the next bytes, and that one. -/
def backOrNew (messageStart : MessageStart) (vRecvMsg : List CNetMessage) :
    List CNetMessage × CNetMessage :=
  match vRecvMsg.getLast? with
  | none => ([], ofStart messageStart)
  | some back =>
      if back.complete then (vRecvMsg, ofStart messageStart) else (vRecvMsg.dropLast, back)

/-- The loop of `ReceiveMsgBytes`, with a bound on its rounds.  `none` stands for a
write outside of a buffer, and for a loop that does not end. -/
def receiveLoop (messageStart : MessageStart) :
    Nat → List UInt8 → List CNetMessage → Option (Bool × List CNetMessage)
  | _, [], vRecvMsg => some (true, vRecvMsg)
  | 0, _ :: _, _ => none
  | rounds + 1, byte :: bytes, vRecvMsg => do
      let pch := byte :: bytes
      let (front, back) := backOrNew messageStart vRecvMsg
      let (handled, msg) ← if back.inData then back.readData pch else back.readHeader pch
      if handled < 0 then some (false, front ++ [msg])
      else if msg.inData ∧ MAX_PROTOCOL_MESSAGE_LENGTH < msg.hdr.nMessageSize.toNat then
        some (false, front ++ [msg])
      else receiveLoop messageStart rounds (pch.drop handled.toNat) (front ++ [msg])

def receiveMsgBytes (messageStart : MessageStart) (pch : List UInt8)
    (vRecvMsg : List CNetMessage) : Option (Bool × List CNetMessage) :=
  receiveLoop messageStart pch.length pch vRecvMsg

/-- The calls of `ReceiveMsgBytes` for what comes in.  The node is disconnected, and
nothing more comes in, once a call returns false. -/
def receiveAll (messageStart : MessageStart) :
    List (List UInt8) → List CNetMessage → Option (Bool × List CNetMessage)
  | [], vRecvMsg => some (true, vRecvMsg)
  | pch :: rest, vRecvMsg => do
      let (fOk, vRecvMsg) ← receiveMsgBytes messageStart pch vRecvMsg
      if fOk then receiveAll messageStart rest vRecvMsg else some (false, vRecvMsg)

/-- The command and the payload with which `ProcessMessages` goes on, if the complete
message passes the checks on its header and its checksum. -/
def accepted (hash : List UInt8 → Uint256) (messageStart : MessageStart) (msg : CNetMessage) :
    Option (List UInt8 × List UInt8) :=
  if msg.hdr.pchMessageStart ≠ messageStart.val then none
  else if !msg.hdr.isValid messageStart then none
  else if littleEndian ((hash (msg.vRecv.take msg.hdr.nMessageSize.toNat)).serialize.take 4) ≠
      msg.hdr.nChecksum.toNat then none
  else some (msg.hdr.getCommand, msg.vRecv)

end CNetMessage

/-- The part of `CNode` that sends. -/
structure SendQueue where
  ssSend : List UInt8
  vSendMsg : List (List UInt8)
  nSendOffset : Nat
  nSendSize : Int

/-- What `send` returns at its calls, one after the other: an error after which one
may try again, or how many of the bytes that are left it takes at most. -/
abbrev SendResults := Nat → Option Nat

namespace SendQueue

def empty : SendQueue where
  ssSend := []
  vSendMsg := []
  nSendOffset := 0
  nSendSize := 0

/-- What `SocketSendData` leaves: the queue, the offset, the size, and the bytes that
`send` has taken. -/
abbrev Sent := List (List UInt8) × Nat × Int × List UInt8

/-- The loop of `SocketSendData` from a call of `send` on.  `none` stands for a
failed assertion. -/
def sendLoop (send : SendResults) : Nat → List (List UInt8) → Nat → Int → Option Sent
  | _, [], nSendOffset, nSendSize => some ([], nSendOffset, nSendSize, [])
  | call, data :: rest, nSendOffset, nSendSize =>
      if data.length ≤ nSendOffset then none
      else
        let nBytes := min ((send call).getD 0) (data.length - nSendOffset)
        let sent := (data.drop nSendOffset).take nBytes
        if nBytes = 0 then some (data :: rest, nSendOffset, nSendSize, [])
        else if nSendOffset + nBytes = data.length then
          (sendLoop send (call + 1) rest 0 (nSendSize - data.length)).map
            fun (vSendMsg, nSendOffset, nSendSize, more) =>
              (vSendMsg, nSendOffset, nSendSize, sent ++ more)
        else some (data :: rest, nSendOffset + nBytes, nSendSize, sent)

/-- `SocketSendData`, with the bytes that `send` has taken. -/
def socketSendData (send : SendResults) (node : SendQueue) : Option (SendQueue × List UInt8) := do
  let (vSendMsg, nSendOffset, nSendSize, sent) ←
    sendLoop send 0 node.vSendMsg node.nSendOffset node.nSendSize
  if vSendMsg.isEmpty ∧ (nSendOffset ≠ 0 ∨ nSendSize ≠ 0) then none
  else some ({ node with vSendMsg, nSendOffset, nSendSize }, sent)

def beginMessage (messageStart : MessageStart) (pszCommand : List UInt8) (node : SendQueue) :
    Option SendQueue :=
  if node.ssSend.length ≠ 0 then none
  else some { node with ssSend := (CMessageHeader.ofCommand messageStart pszCommand 0).serialize }

/-- The bytes of `EndMessage` with the size and the checksum filled in. -/
def finishHeader (hash : List UInt8 → Uint256) (ssSend : List UInt8) : Option (List UInt8) := do
  let nSize := UInt32.ofNat (ssSend.length - HEADER_SIZE)
  let sized ← memcpy ssSend MESSAGE_SIZE_OFFSET (serializeUInt32 nSize)
  let checksum := (hash (sized.drop HEADER_SIZE)).serialize.take 4
  if sized.length < CHECKSUM_OFFSET + 4 then none
  else memcpy sized CHECKSUM_OFFSET checksum

/-- `EndMessage` without the options for tests, with the bytes that `send` has taken. -/
def endMessage (hash : List UInt8 → Uint256) (send : SendResults) (node : SendQueue) :
    Option (SendQueue × List UInt8) :=
  if node.ssSend.length = 0 then some (node, [])
  else do
    let data ← finishHeader hash node.ssSend
    let queued := { node with
      ssSend := []
      vSendMsg := node.vSendMsg ++ [data]
      nSendSize := node.nSendSize + data.length }
    if node.vSendMsg.isEmpty then queued.socketSendData send else some (queued, [])

/-- `PushMessage`: a message is begun, its payload written, and ended. -/
def pushMessage (hash : List UInt8 → Uint256) (messageStart : MessageStart)
    (pszCommand payload : List UInt8) (send : SendResults) (node : SendQueue) :
    Option (SendQueue × List UInt8) := do
  let node ← node.beginMessage messageStart pszCommand
  endMessage hash send { node with ssSend := node.ssSend ++ payload }

end SendQueue

/-- A node that sends, the bytes on their way, and the messages of its peer. -/
structure MessageLink where
  node : SendQueue
  wire : List UInt8
  vRecvMsg : List CNetMessage
  fDisconnect : Bool

inductive LinkAction
  | pushMessage (pszCommand payload : List UInt8) (send : SendResults)
  | socketSendData (send : SendResults)
  | receiveMsgBytes (nBytes : Nat)

namespace MessageLink

def empty : MessageLink where
  node := SendQueue.empty
  wire := []
  vRecvMsg := []
  fDisconnect := false

def step (hash : List UInt8 → Uint256) (messageStart : MessageStart) (link : MessageLink) :
    LinkAction → Option MessageLink
  | .pushMessage pszCommand payload send => do
      let (node, sent) ← link.node.pushMessage hash messageStart pszCommand payload send
      some { link with node, wire := link.wire ++ sent }
  | .socketSendData send => do
      let (node, sent) ← link.node.socketSendData send
      some { link with node, wire := link.wire ++ sent }
  | .receiveMsgBytes nBytes =>
      if link.fDisconnect then some link
      else do
        let (fOk, vRecvMsg) ←
          CNetMessage.receiveMsgBytes messageStart (link.wire.take nBytes) link.vRecvMsg
        some { link with wire := link.wire.drop nBytes, vRecvMsg, fDisconnect := !fOk }

def run (hash : List UInt8 → Uint256) (messageStart : MessageStart) (link : MessageLink)
    (actions : List LinkAction) : Option MessageLink :=
  actions.foldlM (step hash messageStart) link

end MessageLink

def queuedMessages (actions : List LinkAction) : List (List UInt8 × List UInt8) :=
  actions.filterMap fun action =>
    match action with
    | .pushMessage pszCommand payload _ => some (pszCommand, payload)
    | _ => none

end Lycancoin
