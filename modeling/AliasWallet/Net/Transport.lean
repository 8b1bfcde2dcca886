import AliasWallet.Chain.BlockFile
import AliasWallet.Lib.CString

/-!
# The message stream of a connection (`net.cpp`, `net.h`, `protocol.cpp`, `main.cpp`)

`PushMessage` puts a message into the send queue of a `CNode`, `SocketSendData` writes as much of the queue as the
socket takes, `ReceiveMsgBytes` puts messages together again from whatever pieces arrive, and `ProcessMessages` hands
one message a call to `ProcessMessage`.
-/

namespace AliasWallet
open Lib

def COMMAND_SIZE : Nat := 12

def MESSAGE_SIZE_OFFSET : Nat := MESSAGE_START_SIZE + COMMAND_SIZE

def CHECKSUM_OFFSET : Nat := MESSAGE_SIZE_OFFSET + 4

def HEADER_SIZE : Nat := MESSAGE_START_SIZE + COMMAND_SIZE + 4 + 4

structure CMessageHeader where
  pchMessageStart : Bytes
  pchCommand : Bytes
  nMessageSize : UInt32
  nChecksum : UInt32

namespace CMessageHeader

/-- The default header, with a command and a size that are not valid. -/
def invalid (network : Network) : CMessageHeader :=
  ⟨network.messageStart, [0, 1, 0, 0, 0, 0, 0, 0, 0, 0, 0, 0], 0xFFFFFFFF, 0⟩

/-- `CMessageHeader(pszCommand, nMessageSizeIn)`; `strncpy` pads with zeros. -/
def new (network : Network) (pszCommand : Bytes) (nMessageSizeIn : UInt32) : CMessageHeader :=
  ⟨network.messageStart, (cString pszCommand ++ List.replicate COMMAND_SIZE 0).take COMMAND_SIZE, nMessageSizeIn, 0⟩

def bytes (hdr : CMessageHeader) : Bytes :=
  hdr.pchMessageStart ++ hdr.pchCommand ++ uint32Bytes hdr.nMessageSize ++ uint32Bytes hdr.nChecksum

def unserialize : Reader CMessageHeader := do
  let pchMessageStart ← readBytes MESSAGE_START_SIZE
  let pchCommand ← readBytes COMMAND_SIZE
  let nMessageSize ← readUInt32
  let nChecksum ← readUInt32
  return ⟨pchMessageStart, pchCommand, nMessageSize, nChecksum⟩

def getCommand (hdr : CMessageHeader) : Bytes :=
  if hdr.pchCommand.getLast? = some 0 then cString hdr.pchCommand else hdr.pchCommand

/-- Printable characters, and only zeros after the first zero. -/
def commandValid : Bytes → Bool
  | [] => true
  | c :: cs => if c = 0 then cs.all (· == 0) else if c < 0x20 ∨ 0x7E < c then false else commandValid cs

def isValid (network : Network) (hdr : CMessageHeader) : Bool :=
  hdr.pchMessageStart == network.messageStart && commandValid hdr.pchCommand &&
    decide (hdr.nMessageSize.toNat ≤ MAX_SIZE)

end CMessageHeader

/-- The checksum of a message: the first four bytes of its hash. -/
def messageChecksum (hash : HashFn) (payload : Bytes) : UInt32 :=
  UInt32.ofNat (leNat ((uint256Bytes (hash payload)).take 4))

/-- A message that is being received. -/
structure CNetMessage where
  in_data : Bool
  hdrbuf : Bytes
  hdr : CMessageHeader
  nHdrPos : Nat
  vRecv : Bytes
  nDataPos : Nat

namespace CNetMessage

def new (network : Network) : CNetMessage :=
  { in_data := false, hdrbuf := List.replicate 24 0, hdr := CMessageHeader.invalid network, nHdrPos := 0, vRecv := [],
    nDataPos := 0 }

def complete (msg : CNetMessage) : Bool := msg.in_data && decide (msg.hdr.nMessageSize.toNat = msg.nDataPos)

/-- `readHeader`, with the number of bytes it took; none for -1. -/
def readHeader (msg : CNetMessage) (pch : Bytes) : Option (CNetMessage × Nat) :=
  let nCopy := min (24 - msg.nHdrPos) pch.length
  let hdrbuf := writeAt msg.hdrbuf msg.nHdrPos (pch.take nCopy)
  if msg.nHdrPos + nCopy < 24 then some ({ msg with hdrbuf, nHdrPos := msg.nHdrPos + nCopy }, nCopy)
  else match CMessageHeader.unserialize.run hdrbuf with
    | none => none
    | some (hdr, left) =>
      if MAX_SIZE < hdr.nMessageSize.toNat then none
      else some ({ msg with in_data := true, hdrbuf := left, hdr, nHdrPos := msg.nHdrPos + nCopy }, nCopy)

/-- The buffer with room for `n` bytes. -/
def resize (n : Nat) (buf : Bytes) : Bytes := buf.take n ++ List.replicate (n - buf.length) 0

/-- `readData`: the buffer grows in steps that run up to 256 KiB ahead of what has come. -/
def readData (msg : CNetMessage) (pch : Bytes) : CNetMessage × Nat :=
  let nCopy := min (msg.hdr.nMessageSize.toNat - msg.nDataPos) pch.length
  let vRecv :=
    if msg.vRecv.length < msg.nDataPos + nCopy then
      resize (min msg.hdr.nMessageSize.toNat (msg.nDataPos + nCopy + 256 * 1024)) msg.vRecv
    else msg.vRecv
  ({ msg with vRecv := writeAt vRecv msg.nDataPos (pch.take nCopy), nDataPos := msg.nDataPos + nCopy }, nCopy)

/-- What the bytes received so far determine: the message without the room that was made ahead. -/
def settled (msg : CNetMessage) : CNetMessage :=
  { msg with hdrbuf := msg.hdrbuf.take msg.nHdrPos, vRecv := msg.vRecv.take msg.nDataPos }

end CNetMessage

section Receive

variable (network : Network)

/-- The messages before the one that takes the next byte, and that one. -/
def currentMessage (vRecvMsg : List CNetMessage) : List CNetMessage × CNetMessage :=
  match vRecvMsg.getLast? with
  | none => (vRecvMsg, CNetMessage.new network)
  | some msg => if msg.complete then (vRecvMsg, CNetMessage.new network) else (vRecvMsg.dropLast, msg)

/-- One round of the loop, with the bytes that are left. -/
def receiveRound (vRecvMsg : List CNetMessage) (pch : Bytes) : Option (List CNetMessage × Bytes) :=
  let (earlier, msg) := currentMessage network vRecvMsg
  if msg.in_data then
    let (msg, handled) := msg.readData pch
    some (earlier ++ [msg], pch.drop handled)
  else match msg.readHeader pch with
    | none => none
    | some (msg, handled) => some (earlier ++ [msg], pch.drop handled)

/-- The loop; every round takes at least one byte, so the length of the input bounds their number. -/
def receiveLoop : Nat → List CNetMessage → Bytes → Option (List CNetMessage)
  | rounds, vRecvMsg, pch =>
    if pch = [] then some vRecvMsg
    else match rounds with
      | 0 => none
      | rounds + 1 => (receiveRound network vRecvMsg pch).bind fun next => receiveLoop rounds next.1 next.2

/-- `CNode::ReceiveMsgBytes`; none for false. -/
def receiveMsgBytes (vRecvMsg : List CNetMessage) (pch : Bytes) : Option (List CNetMessage) :=
  receiveLoop network pch.length vRecvMsg pch

end Receive

/-- What a node reads of its configuration. -/
structure NodeArgs where
  sendBufferSize : Nat
  receiveFloodSize : Nat
  banscore : Int

structure NetEnv extends NodeArgs where
  network : Network
  hash : HashFn

/-- The part of a `CNode` that carries the message stream. -/
structure CNode where
  /-- `hSocket` is not `INVALID_SOCKET`. -/
  socketOpen : Bool
  fDisconnect : Bool
  nMisbehavior : Int
  ssSend : Bytes
  vSendMsg : List Bytes
  nSendOffset : Nat
  nSendSize : Nat
  vRecvMsg : List CNetMessage

/-- What the system answers to a call of `send`: the bytes it has room for, or an error that is not temporary. -/
inductive SendResult
  | room (n : Nat)
  | error

/-- A message that is handed to `ProcessMessage`, or was given to `PushMessage`. -/
structure Message where
  strCommand : Bytes
  payload : Bytes
  deriving DecidableEq

/-- `PushMessage`, with what the system answers to the write it may attempt; `fDrop` is the throw of the dice of
`-dropmessagestest`. The size of a message has 32 bits. -/
structure Push where
  message : Message
  fDrop : Bool
  results : List SendResult
  lockRecv : Bool
  payload_lt : message.payload.length < 2 ^ 32

namespace CNode

def new : CNode :=
  { socketOpen := true, fDisconnect := false, nMisbehavior := 0, ssSend := [], vSendMsg := [], nSendOffset := 0,
    nSendSize := 0, vRecvMsg := [] }

/-- The receive buffer is wiped if its lock can be had. -/
def closeSocketDisconnect (lockRecv : Bool) (pnode : CNode) : CNode :=
  { pnode with fDisconnect := true, socketOpen := false, vRecvMsg := if lockRecv then [] else pnode.vRecvMsg }

def misbehaving (env : NetEnv) (howmuch : Int) (pnode : CNode) : CNode :=
  let pnode := { pnode with nMisbehavior := pnode.nMisbehavior + howmuch }
  if env.banscore ≤ pnode.nMisbehavior then pnode.closeSocketDisconnect true else pnode

def getTotalRecvSize (pnode : CNode) : Nat := (pnode.vRecvMsg.map fun msg => msg.vRecv.length + 24).sum % 2 ^ 32

/-- The loop of `SocketSendData` over the queue, with the bytes that went out; none if an assertion fails. -/
def sendLoop (lockRecv : Bool) : List Bytes → List SendResult → CNode → Bytes → Option (CNode × Bytes)
  | [], _, pnode, wire =>
    if pnode.nSendOffset = 0 ∧ pnode.nSendSize = 0 then some ({ pnode with vSendMsg := [] }, wire) else none
  | data :: rest, results, pnode, wire =>
    if data.length ≤ pnode.nSendOffset then none
    else match results with
      | [] => some ({ pnode with vSendMsg := data :: rest }, wire)
      | .error :: _ => some (closeSocketDisconnect lockRecv { pnode with vSendMsg := data :: rest }, wire)
      | .room n :: results =>
        let nBytes := min n (data.length - pnode.nSendOffset)
        let wire := wire ++ slice data pnode.nSendOffset nBytes
        if nBytes = 0 then some ({ pnode with vSendMsg := data :: rest }, wire)
        else if pnode.nSendOffset + nBytes = data.length then
          sendLoop lockRecv rest results
            { pnode with nSendOffset := 0, nSendSize := pnode.nSendSize - data.length } wire
        else some ({ pnode with nSendOffset := pnode.nSendOffset + nBytes, vSendMsg := data :: rest }, wire)

/-- `SocketSendData`; a socket that is closed answers with an error. -/
def socketSendData (lockRecv : Bool) (results : List SendResult) (pnode : CNode) : Option (CNode × Bytes) :=
  sendLoop lockRecv pnode.vSendMsg (if pnode.socketOpen then results else [.error]) pnode []

def beginMessage (env : NetEnv) (pszCommand : Bytes) (pnode : CNode) : Option CNode :=
  if pnode.ssSend.length = 0 then some { pnode with ssSend := (CMessageHeader.new env.network pszCommand 0).bytes }
  else none

/-- The messages that were taken are erased, unless the connection got shut down and its buffer was wiped. -/
def eraseHandled (rest : List CNetMessage) (pnode : CNode) : CNode :=
  if pnode.fDisconnect then pnode else { pnode with vRecvMsg := rest }

def abortMessage (pnode : CNode) : CNode := { pnode with ssSend := [] }

/-- The size and the checksum are written into the header that is in front of the payload. -/
def sealMessage (env : NetEnv) (ssSend : Bytes) : Bytes :=
  let payload := ssSend.drop HEADER_SIZE
  let nSize := UInt32.ofNat (ssSend.length - HEADER_SIZE)
  writeAt (writeAt ssSend MESSAGE_SIZE_OFFSET (leBytes 4 nSize.toNat)) CHECKSUM_OFFSET
    (leBytes 4 (messageChecksum env.hash payload).toNat)

def endMessage (env : NetEnv) (p : Push) (pnode : CNode) : Option (CNode × Bytes) :=
  if p.fDrop then some (pnode.abortMessage, [])
  else if pnode.ssSend.length = 0 then some (pnode, [])
  else if pnode.ssSend.length < CHECKSUM_OFFSET + 4 then none
  else
    let data := sealMessage env pnode.ssSend
    let queued := { pnode with
      ssSend := [], vSendMsg := pnode.vSendMsg ++ [data], nSendSize := pnode.nSendSize + data.length }
    -- the optimistic write, if there was nothing in the queue
    if pnode.vSendMsg = [] then queued.socketSendData p.lockRecv p.results else some (queued, [])

def pushMessage (env : NetEnv) (p : Push) (pnode : CNode) : Option (CNode × Bytes) :=
  (pnode.beginMessage env p.message.strCommand).bind fun pnode =>
    endMessage env p { pnode with ssSend := pnode.ssSend ++ p.message.payload }

end CNode

/-- What the rest of the program does to a connection. -/
inductive NodeOp
  | push (p : Push)
  | disconnect
  | close (lockRecv : Bool)
  | misbehave (howmuch : Int)

/-- A connection after an operation, what went out and what was pushed for good. -/
structure Outcome where
  node : CNode
  wire : Bytes
  sent : List Message

namespace NodeOp

def run (env : NetEnv) (pnode : CNode) : NodeOp → Option Outcome
  | push p =>
    (pnode.pushMessage env p).map fun (pnode, wire) => ⟨pnode, wire, if p.fDrop then [] else [p.message]⟩
  | disconnect => some ⟨{ pnode with fDisconnect := true }, [], []⟩
  | close lockRecv => some ⟨pnode.closeSocketDisconnect lockRecv, [], []⟩
  | misbehave howmuch => some ⟨pnode.misbehaving env howmuch, [], []⟩

def runAll (env : NetEnv) (pnode : CNode) : List NodeOp → Option Outcome
  | [] => some ⟨pnode, [], []⟩
  | op :: ops => (op.run env pnode).bind fun first =>
    (runAll env first.node ops).map fun rest => ⟨rest.node, first.wire ++ rest.wire, first.sent ++ rest.sent⟩

end NodeOp

section Process

variable (env : NetEnv)

/-- The loop of `ProcessMessages` up to the message that is handed on: what it leaves in the buffer, the message, and
`fOk`. -/
def scanMessages : List CNetMessage → CNode → CNode × List CNetMessage × Option Message × Bool
  | [], pfrom => (pfrom, [], none, true)
  | msg :: rest, pfrom =>
    if pfrom.fDisconnect then (pfrom, msg :: rest, none, true)
    else if env.sendBufferSize ≤ pfrom.nSendSize then (pfrom, msg :: rest, none, true)
    else if !msg.complete then (pfrom, msg :: rest, none, true)
    else if msg.hdr.pchMessageStart ≠ env.network.messageStart then (pfrom.misbehaving env 5, rest, none, false)
    else if !msg.hdr.isValid env.network then scanMessages rest (pfrom.misbehaving env 5)
    else if messageChecksum env.hash (msg.vRecv.take msg.hdr.nMessageSize.toNat) ≠ msg.hdr.nChecksum then
      scanMessages rest pfrom
    else (pfrom, rest, some ⟨msg.hdr.getCommand, msg.vRecv⟩, true)

/-- A call of `ProcessMessages`: what it did to the connection, the message it handed on and its result. -/
structure Processed where
  out : Outcome
  handed : Option Message
  fOk : Bool

/-- `ProcessMessages`. `gets` is what `ProcessGetData` does, `fLeft` whether it leaves requests behind, and `handler`
is what `ProcessMessage` does to the connection. -/
def processMessages (gets : List NodeOp) (fLeft : Bool) (handler : List NodeOp) (pfrom : CNode) : Option Processed :=
  (NodeOp.runAll env pfrom gets).bind fun got =>
    if fLeft then some ⟨got, none, true⟩
    else
      let (pnode, rest, handed, fOk) := scanMessages env got.node.vRecvMsg got.node
      (NodeOp.runAll env pnode (if handed.isSome then handler else [])).map fun done =>
        ⟨⟨done.node.eraseHandled rest, got.wire ++ done.wire, got.sent ++ done.sent⟩, handed, fOk⟩

/-- The receiving part of `ThreadSocketHandler`, where `recv` delivers up to `n` of the bytes that have arrived, and
the bytes that are left. -/
def socketReceive (n : Nat) (arrived : Bytes) (pnode : CNode) : CNode × Bytes :=
  if !pnode.socketOpen then (pnode, arrived)
  else if env.receiveFloodSize < pnode.getTotalRecvSize then (pnode.closeSocketDisconnect true, arrived)
  else
    let nBytes := min n 0x10000
    match receiveMsgBytes env.network pnode.vRecvMsg (arrived.take nBytes) with
    | none => (pnode.closeSocketDisconnect true, arrived.drop nBytes)
    | some vRecvMsg => ({ pnode with vRecvMsg }, arrived.drop nBytes)

end Process

end AliasWallet
