import AliasWallet.Net.ReceiveSpec
import AliasWallet.Chain.BlockFileSpec

/-!
# Two nodes and the bytes between them

Either side pushes messages, writes, reads and processes in any order, with any pieces, refusals and disconnects. What
one side hands to `ProcessMessage` is, in order and without loss or repetition, what the other side pushed.
-/

namespace AliasWallet
open Lib

/-- A node with the messages that it pushed and those that it handed to `ProcessMessage`. -/
structure Endpoint where
  node : CNode
  sent : List Message
  handed : List Message

/-- The two sides, and what each has written and the other has not read yet. -/
structure Connection where
  side : Bool → Endpoint
  wire : Bool → Bytes

/-- What happens at one side. -/
inductive Action
  | own (op : NodeOp)
  | flush (lockRecv : Bool) (results : List SendResult)
  | receive (n : Nat)
  | process (gets : List NodeOp) (fLeft : Bool) (handler : List NodeOp)

namespace Connection

def new : Connection := ⟨fun _ => ⟨CNode.new, [], []⟩, fun _ => []⟩

/-- The side `s` after something that wrote to the wire. -/
def emit (c : Connection) (s : Bool) (out : Outcome) (handed : Option Message) : Connection where
  side := Function.update c.side s ⟨out.node, (c.side s).sent ++ out.sent, (c.side s).handed ++ handed.toList⟩
  wire := Function.update c.wire s (c.wire s ++ out.wire)

/-- The side `s` after it read from the wire. -/
def absorb (c : Connection) (s : Bool) (read : CNode × Bytes) : Connection where
  side := Function.update c.side s { c.side s with node := read.1 }
  wire := Function.update c.wire (!s) read.2

def step (env : Bool → NetEnv) (c : Connection) (s : Bool) : Action → Option Connection
  | .own op => (op.run (env s) (c.side s).node).map fun out => c.emit s out none
  | .flush lockRecv results =>
    ((c.side s).node.socketSendData lockRecv results).map fun (node, wire) => c.emit s ⟨node, wire, []⟩ none
  | .receive n => some (c.absorb s (socketReceive (env s) n (c.wire !s) (c.side s).node))
  | .process gets fLeft handler =>
    (processMessages (env s) gets fLeft handler (c.side s).node).map fun p => c.emit s p.out p.handed

def run (env : Bool → NetEnv) (c : Connection) (actions : List (Bool × Action)) : Option Connection :=
  actions.foldlM (fun c a => c.step env a.1 a.2) c

end Connection

section Frames

variable (network : Network) (hash : HashFn)

/-- The header that goes out with a message. -/
def Message.header (m : Message) : CMessageHeader :=
  { CMessageHeader.new network m.strCommand (UInt32.ofNat m.payload.length) with
    nChecksum := messageChecksum hash m.payload }

/-- A message on the wire. -/
def Message.frame (m : Message) : Bytes := (m.header network hash).bytes ++ m.payload

/-- What the receiver makes of a message: nothing, if the command is not valid. -/
def Message.deliver (m : Message) : Option Message :=
  let hdr := m.header network hash
  if CMessageHeader.commandValid hdr.pchCommand then some ⟨hdr.getCommand, m.payload⟩ else none

/-- What `ProcessMessages` does with a complete message. -/
def CNetMessage.accept (msg : CNetMessage) : Option Message :=
  if msg.hdr.pchMessageStart ≠ network.messageStart then none
  else if !msg.hdr.isValid network then none
  else if messageChecksum hash (msg.vRecv.take msg.hdr.nMessageSize.toNat) ≠ msg.hdr.nChecksum then none
  else some ⟨msg.hdr.getCommand, msg.vRecv⟩

variable {network hash}

theorem CMessageHeader.new_sized (network : Network) (pszCommand : Bytes) (n : UInt32) :
    (CMessageHeader.new network pszCommand n).Sized where
  start := network.messageStart_length
  command := by
    simp only [new, List.length_take, List.length_append, List.length_replicate]
    omega

theorem Message.header_sized (m : Message) (network : Network) (hash : HashFn) : (m.header network hash).Sized :=
  ⟨(CMessageHeader.new_sized network m.strCommand 0).start, (CMessageHeader.new_sized network m.strCommand 0).command⟩

theorem Message.header_size {m : Message} (h : m.payload.length < 2 ^ 32) :
    (m.header network hash).nMessageSize.toNat = m.payload.length :=
  UInt32.toNat_ofNat_of_lt' h

theorem Message.frame_shaped {m : Message} (h : m.payload.length < 2 ^ 32) (network : Network) (hash : HashFn) :
    wireFraming.Shaped (m.frame network hash) := by
  have hlen := CMessageHeader.bytes_length (m.header_sized network hash)
  constructor
  · change 24 ≤ _
    rw [frame, List.length_append]
    omega
  · rw [frame, wireFraming_bodySize (m.header_sized network hash), m.header_size h, List.length_append, hlen]
    rfl

theorem writeAt_middle {a b d : Bytes} (c : Bytes) {off : Nat} (hoff : off = a.length) (hlen : b.length = d.length) :
    writeAt (a ++ b ++ c) off d = a ++ d ++ c := by
  have hdrop : (a ++ b ++ c).drop (a.length + d.length) = c := by
    rw [← hlen, ← List.length_append, List.drop_left]
  have htake : (a ++ b ++ c).take a.length = a := by rw [List.append_assoc, List.take_left]
  rw [writeAt, hoff, hdrop, htake]

/-- `EndMessage` makes the frame of the message. -/
theorem sealMessage_eq (env : NetEnv) (m : Message) :
    CNode.sealMessage env ((CMessageHeader.new env.network m.strCommand 0).bytes ++ m.payload) =
      m.frame env.network env.hash := by
  have hsized := CMessageHeader.new_sized env.network m.strCommand 0
  have hlen := CMessageHeader.bytes_length hsized
  have hdrop : ((CMessageHeader.new env.network m.strCommand 0).bytes ++ m.payload).drop HEADER_SIZE = m.payload := by
    rw [show HEADER_SIZE = 24 from rfl, ← hlen, List.drop_left]
  have hsize : ((CMessageHeader.new env.network m.strCommand 0).bytes ++ m.payload).length - HEADER_SIZE =
      m.payload.length := by
    rw [List.length_append, hlen, show HEADER_SIZE = 24 from rfl, Nat.add_sub_cancel_left]
  have hfront : MESSAGE_SIZE_OFFSET = ((CMessageHeader.new env.network m.strCommand 0).pchMessageStart ++
      (CMessageHeader.new env.network m.strCommand 0).pchCommand).length := by
    rw [List.length_append, hsized.start, hsized.command]
    rfl
  have hregroup : ∀ a b c d e : Bytes, a ++ b ++ c ++ d ++ e = (a ++ b) ++ c ++ (d ++ e) := by simp
  have hregroup' : ∀ a b c d e : Bytes, (a ++ b) ++ c ++ (d ++ e) = (a ++ b ++ c) ++ d ++ e := by simp
  have hchecksum : CHECKSUM_OFFSET = ((CMessageHeader.new env.network m.strCommand 0).pchMessageStart ++
      (CMessageHeader.new env.network m.strCommand 0).pchCommand ++
        leBytes 4 (UInt32.ofNat m.payload.length).toNat).length := by
    rw [List.length_append, ← hfront, leBytes_length]
    rfl
  simp only [CNode.sealMessage, hdrop, hsize]
  rw [CMessageHeader.bytes, hregroup, writeAt_middle _ hfront (by simp [uint32Bytes]), hregroup',
    writeAt_middle _ hchecksum (by simp [uint32Bytes])]
  rfl

/-- A message that came as a frame is treated as the message that was sent. -/
theorem CNetMessage.Shape.accept_frame {msg : CNetMessage} (h : CNetMessage.Shape network msg)
    (hcomplete : msg.complete = true) {m : Message} (hm : m.payload.length < 2 ^ 32)
    (hframe : msg.received = m.frame network hash) :
    msg.accept network hash = m.deliver network hash := by
  have hfull := h.of_complete hcomplete
  have hdata := h.data (CNetMessage.complete_iff.mp hcomplete).1
  rw [hfull.2.2, Message.frame] at hframe
  have hboth := List.append_inj hframe
    (by rw [CMessageHeader.bytes_length hdata.1, CMessageHeader.bytes_length (m.header_sized network hash)])
  have hhdr := CMessageHeader.bytes_inj hdata.1 (m.header_sized network hash) hboth.1
  have hlimit := hdata.2.2.2.1
  rw [hhdr, m.header_size hm] at hlimit
  have hstart : (m.header network hash).pchMessageStart = network.messageStart := rfl
  have hchecksum : (m.header network hash).nChecksum = messageChecksum hash m.payload := rfl
  have hvalid : (m.header network hash).isValid network =
      CMessageHeader.commandValid (m.header network hash).pchCommand := by
    rw [CMessageHeader.isValid, hstart, m.header_size hm, decide_eq_true hlimit]
    simp
  rw [accept, Message.deliver, hhdr, hboth.2, if_neg (by rw [hstart]; exact fun hne => hne rfl), m.header_size hm,
    List.take_length, hchecksum, hvalid]
  cases CMessageHeader.commandValid (m.header network hash).pchCommand with
  | false => rfl
  | true => simp

end Frames

section Send

/-- The counters of a send queue: the first message is not written completely, and the size is that of the whole. -/
structure QueueOk (queue : List Bytes) (nSendOffset nSendSize : Nat) : Prop where
  nonempty : ∀ data ∈ queue, data ≠ []
  offset : nSendOffset = 0 ∨ ∃ data rest, queue = data :: rest ∧ nSendOffset < data.length
  size : nSendSize = queue.flatten.length

/-- What is still to be written. -/
def CNode.queued (pnode : CNode) : Bytes := pnode.vSendMsg.flatten.drop pnode.nSendOffset

/-- Between the operations there is no message that is being built, and the counters are right. -/
structure CNode.SendOk (pnode : CNode) : Prop where
  idle : pnode.ssSend = []
  queue : QueueOk pnode.vSendMsg pnode.nSendOffset pnode.nSendSize

/-- What an operation other than receiving may do to a connection: the bytes that it writes, and those it leaves in the
queue, are those that waited and the messages that it pushed. -/
structure Emits (env : NetEnv) (pnode : CNode) (out : Outcome) : Prop where
  send_ok : out.node.SendOk
  bytes : out.wire ++ out.node.queued = pnode.queued ++ (out.sent.map (Message.frame env.network env.hash)).flatten
  fits : ∀ m ∈ out.sent, m.payload.length < 2 ^ 32
  alive : out.node.fDisconnect = false → pnode.fDisconnect = false ∧ out.node.vRecvMsg = pnode.vRecvMsg

variable {env : NetEnv}

theorem Emits.refl {pnode : CNode} (h : pnode.SendOk) : Emits env pnode ⟨pnode, [], []⟩ where
  send_ok := h
  bytes := by simp
  fits := by simp
  alive := fun halive => ⟨halive, rfl⟩

theorem Emits.trans {pnode : CNode} {first rest : Outcome} (h : Emits env pnode first)
    (h' : Emits env first.node rest) :
    Emits env pnode ⟨rest.node, first.wire ++ rest.wire, first.sent ++ rest.sent⟩ where
  send_ok := h'.send_ok
  bytes := by
    rw [List.append_assoc, h'.bytes, ← List.append_assoc, h.bytes, List.append_assoc, List.map_append,
      List.flatten_append]
  fits := by
    intro m hm
    rw [List.mem_append] at hm
    cases hm with
    | inl hm => exact h.fits m hm
    | inr hm => exact h'.fits m hm
  alive := by
    intro halive
    have hrest := h'.alive halive
    have hfirst := h.alive hrest.1
    exact ⟨hfirst.1, hrest.2.trans hfirst.2⟩

/-- Nothing but flags and the receive buffer changes. -/
theorem Emits.quiet {pnode node : CNode} (h : pnode.SendOk) (hss : node.ssSend = pnode.ssSend)
    (hqueue : node.vSendMsg = pnode.vSendMsg) (hoffset : node.nSendOffset = pnode.nSendOffset)
    (hsize : node.nSendSize = pnode.nSendSize)
    (halive : node.fDisconnect = false → pnode.fDisconnect = false ∧ node.vRecvMsg = pnode.vRecvMsg) :
    Emits env pnode ⟨node, [], []⟩ where
  send_ok := ⟨hss.trans h.idle, by rw [hqueue, hoffset, hsize]; exact h.queue⟩
  bytes := by simp [CNode.queued, hqueue, hoffset]
  fits := by simp
  alive := halive

theorem Emits.close {pnode : CNode} (h : pnode.SendOk) (lockRecv : Bool) :
    Emits env pnode ⟨pnode.closeSocketDisconnect lockRecv, [], []⟩ :=
  Emits.quiet h rfl rfl rfl rfl fun halive => by cases halive

theorem Emits.misbehaving (env : NetEnv) {pnode : CNode} (h : pnode.SendOk) (howmuch : Int) :
    Emits env pnode ⟨pnode.misbehaving env howmuch, [], []⟩ := by
  rw [CNode.misbehaving]
  dsimp only
  split_ifs
  · exact Emits.quiet h rfl rfl rfl rfl fun halive => by cases halive
  · exact Emits.quiet h rfl rfl rfl rfl fun halive => ⟨halive, rfl⟩

theorem QueueOk.tail {data : Bytes} {rest : List Bytes} {nSendOffset nSendSize : Nat}
    (h : QueueOk (data :: rest) nSendOffset nSendSize) : QueueOk rest 0 (nSendSize - data.length) where
  nonempty := fun d hd => h.nonempty d (List.mem_cons_of_mem _ hd)
  offset := .inl rfl
  size := by
    have hsize := h.size
    rw [List.flatten_cons, List.length_append] at hsize
    omega

theorem QueueOk.offset_lt {data : Bytes} {rest : List Bytes} {nSendOffset nSendSize : Nat}
    (h : QueueOk (data :: rest) nSendOffset nSendSize) : nSendOffset < data.length := by
  cases h.offset with
  | inl hzero =>
    rw [hzero]
    exact List.length_pos_iff.mpr (h.nonempty data List.mem_cons_self)
  | inr hpart =>
    obtain ⟨data', rest', hcons, hlt⟩ := hpart
    rw [(List.cons.inj hcons).1]
    exact hlt

/-- The loop over the queue never comes upon a failed assertion, and what it writes is the front of what waits. -/
theorem sendLoop_spec (lockRecv : Bool) (queue : List Bytes) (results : List SendResult) (pnode : CNode) (wire : Bytes)
    (hidle : pnode.ssSend = []) (h : QueueOk queue pnode.nSendOffset pnode.nSendSize) :
    ∃ node written, CNode.sendLoop lockRecv queue results pnode wire = some (node, wire ++ written) ∧ node.SendOk ∧
      written ++ node.queued = queue.flatten.drop pnode.nSendOffset ∧
        (node.fDisconnect = false → pnode.fDisconnect = false ∧ node.vRecvMsg = pnode.vRecvMsg) := by
  induction queue generalizing results pnode wire with
  | nil =>
    have hoffset : pnode.nSendOffset = 0 := by
      cases h.offset with
      | inl hzero => exact hzero
      | inr hpart =>
        obtain ⟨data, rest, hcons, -⟩ := hpart
        cases hcons
    have hsize : pnode.nSendSize = 0 := h.size
    refine ⟨{ pnode with vSendMsg := [] }, [], ?_, ⟨hidle, ?_⟩, ?_, fun halive => ⟨halive, rfl⟩⟩
    · rw [CNode.sendLoop, if_pos ⟨hoffset, hsize⟩, List.append_nil]
    · dsimp only
      exact ⟨by simp, .inl hoffset, hsize⟩
    · simp [CNode.queued]
  | cons data rest ih =>
    have hlt := h.offset_lt
    have hstop : ∀ node : CNode, node.ssSend = [] → node.vSendMsg = data :: rest →
        node.nSendOffset = pnode.nSendOffset → node.nSendSize = pnode.nSendSize →
        node.SendOk ∧ [] ++ node.queued = (data :: rest).flatten.drop pnode.nSendOffset := by
      intro node hss hqueue hoffset hsize
      exact ⟨⟨hss, by rw [hqueue, hoffset, hsize]; exact h⟩, by rw [CNode.queued, hqueue, hoffset, List.nil_append]⟩
    cases results with
    | nil =>
      have hnode := hstop { pnode with vSendMsg := data :: rest } hidle rfl rfl rfl
      rw [CNode.sendLoop, if_neg (Nat.not_le.mpr hlt)]
      exact ⟨_, [], by rw [List.append_nil], hnode.1, hnode.2, fun halive => ⟨halive, rfl⟩⟩
    | cons result results =>
      cases result with
      | error =>
        have hnode := hstop (CNode.closeSocketDisconnect lockRecv { pnode with vSendMsg := data :: rest }) hidle
          rfl rfl rfl
        rw [CNode.sendLoop, if_neg (Nat.not_le.mpr hlt)]
        exact ⟨_, [], by rw [List.append_nil], hnode.1, hnode.2, fun halive => by cases halive⟩
      | room n =>
        rw [CNode.sendLoop, if_neg (Nat.not_le.mpr hlt)]
        dsimp only
        generalize hk : min n (data.length - pnode.nSendOffset) = nBytes
        have hslice : slice data pnode.nSendOffset nBytes ++ data.drop (pnode.nSendOffset + nBytes) =
            data.drop pnode.nSendOffset := by
          rw [slice, ← List.drop_drop, List.take_append_drop]
        have hdrop : (data :: rest).flatten.drop pnode.nSendOffset = data.drop pnode.nSendOffset ++ rest.flatten := by
          rw [List.flatten_cons, List.drop_append_of_le_length hlt.le]
        by_cases hzero : nBytes = 0
        · -- the socket takes nothing
          have hnode := hstop { pnode with vSendMsg := data :: rest } hidle rfl rfl rfl
          refine ⟨_, [], by rw [if_pos hzero, hzero, slice, List.take_zero], hnode.1, hnode.2, ?_⟩
          exact fun halive => ⟨halive, rfl⟩
        · rw [if_neg hzero]
          by_cases hall : pnode.nSendOffset + nBytes = data.length
          · -- the message is out, and the loop goes on with the next one
            rw [if_pos hall]
            obtain ⟨node, written, hrun, hok, hbytes, halive⟩ := ih results
              { pnode with nSendOffset := 0, nSendSize := pnode.nSendSize - data.length }
              (wire ++ slice data pnode.nSendOffset nBytes) hidle h.tail
            refine ⟨node, slice data pnode.nSendOffset nBytes ++ written, ?_, hok, ?_, halive⟩
            · rw [hrun, List.append_assoc]
            rw [hall, List.drop_length, List.append_nil] at hslice
            rw [List.append_assoc, hbytes, hdrop, hslice, List.drop_zero]
          · -- the rest of the message waits
            rw [if_neg hall]
            have hinside : pnode.nSendOffset + nBytes < data.length := by omega
            refine ⟨_, slice data pnode.nSendOffset nBytes, rfl, ⟨hidle, ⟨h.nonempty, ?_, h.size⟩⟩, ?_,
              fun halive => ⟨halive, rfl⟩⟩
            · exact .inr ⟨data, rest, rfl, hinside⟩
            · simp only [CNode.queued]
              rw [List.flatten_cons, List.drop_append_of_le_length hinside.le, ← List.append_assoc, hslice,
                ← List.drop_append_of_le_length hlt.le]

theorem socketSendData_spec (env : NetEnv) {pnode : CNode} (h : pnode.SendOk) (lockRecv : Bool)
    (results : List SendResult) :
    ∃ node wire, pnode.socketSendData lockRecv results = some (node, wire) ∧ Emits env pnode ⟨node, wire, []⟩ := by
  obtain ⟨node, written, hrun, hok, hbytes, halive⟩ := sendLoop_spec lockRecv pnode.vSendMsg
    (if pnode.socketOpen then results else [.error]) pnode [] h.idle h.queue
  exact ⟨node, written, hrun, ⟨hok, by simpa [CNode.queued] using hbytes, by simp, halive⟩⟩

theorem QueueOk.concat {queue : List Bytes} {nSendOffset nSendSize : Nat} (h : QueueOk queue nSendOffset nSendSize)
    {data : Bytes} (hne : data ≠ []) : QueueOk (queue ++ [data]) nSendOffset (nSendSize + data.length) where
  nonempty := by
    intro d hd
    rw [List.mem_append, List.mem_singleton] at hd
    cases hd with
    | inl hold => exact h.nonempty d hold
    | inr hnew =>
      rw [hnew]
      exact hne
  offset := by
    cases h.offset with
    | inl hzero => exact .inl hzero
    | inr hpart =>
      obtain ⟨first, rest, hcons, hlt⟩ := hpart
      exact .inr ⟨first, rest ++ [data], by rw [hcons]; rfl, hlt⟩
  size := by simp [h.size]

theorem QueueOk.offset_le {queue : List Bytes} {nSendOffset nSendSize : Nat} (h : QueueOk queue nSendOffset nSendSize) :
    nSendOffset ≤ queue.flatten.length := by
  cases h.offset with
  | inl hzero =>
    rw [hzero]
    exact Nat.zero_le _
  | inr hpart =>
    obtain ⟨data, rest, hcons, hlt⟩ := hpart
    rw [hcons, List.flatten_cons, List.length_append]
    omega

theorem pushMessage_spec (env : NetEnv) {pnode : CNode} (h : pnode.SendOk) (p : Push) :
    ∃ node wire, pnode.pushMessage env p = some (node, wire) ∧
      Emits env pnode ⟨node, wire, if p.fDrop then [] else [p.message]⟩ := by
  have hbegin : pnode.beginMessage env p.message.strCommand =
      some { pnode with ssSend := (CMessageHeader.new env.network p.message.strCommand 0).bytes } := by
    rw [CNode.beginMessage, h.idle]
    rfl
  have hlen := CMessageHeader.bytes_length (CMessageHeader.new_sized env.network p.message.strCommand 0)
  have hss : ((CMessageHeader.new env.network p.message.strCommand 0).bytes ++ p.message.payload).length =
      24 + p.message.payload.length := by rw [List.length_append, hlen]
  rw [CNode.pushMessage, hbegin, Option.bind_some, CNode.endMessage]
  cases hdrop : p.fDrop with
  | true =>
    refine ⟨_, [], rfl, Emits.quiet h h.idle.symm rfl rfl rfl fun halive => ⟨halive, rfl⟩⟩
  | false =>
    simp only [Bool.false_eq_true, if_false, hss, sealMessage_eq]
    rw [if_neg (by omega), if_neg (by rw [show CHECKSUM_OFFSET + 4 = 24 from rfl]; omega)]
    have hframe : p.message.frame env.network env.hash ≠ [] := by
      have hshaped := (Message.frame_shaped p.payload_lt env.network env.hash).1
      intro hnil
      rw [hnil] at hshaped
      exact absurd hshaped (by decide)
    have hqueue := h.queue.concat hframe
    have hqueued : Emits env pnode ⟨{ pnode with
        ssSend := [], vSendMsg := pnode.vSendMsg ++ [p.message.frame env.network env.hash],
        nSendSize := pnode.nSendSize + (p.message.frame env.network env.hash).length }, [], [p.message]⟩ := by
      refine ⟨⟨rfl, hqueue⟩, ?_, ?_, fun halive => ⟨halive, rfl⟩⟩
      · simp only [CNode.queued, List.nil_append, List.map_singleton, List.flatten_singleton, List.flatten_append]
        rw [List.drop_append_of_le_length h.queue.offset_le]
      · intro m hm
        rw [List.mem_singleton.mp hm]
        exact p.payload_lt
    by_cases hempty : pnode.vSendMsg = []
    · rw [if_pos hempty]
      obtain ⟨node, wire, hrun, hemits⟩ := socketSendData_spec env hqueued.send_ok p.lockRecv p.results
      exact ⟨node, wire, hrun, hqueued.trans hemits⟩
    · rw [if_neg hempty]
      exact ⟨_, [], rfl, hqueued⟩

theorem NodeOp.run_spec (env : NetEnv) {pnode : CNode} (h : pnode.SendOk) (op : NodeOp) :
    ∃ out, op.run env pnode = some out ∧ Emits env pnode out := by
  cases op with
  | push p =>
    obtain ⟨node, wire, hrun, hemits⟩ := pushMessage_spec env h p
    exact ⟨_, by rw [run, hrun, Option.map_some], hemits⟩
  | disconnect => exact ⟨_, rfl, Emits.quiet h rfl rfl rfl rfl fun halive => by cases halive⟩
  | close lockRecv => exact ⟨_, rfl, Emits.close h lockRecv⟩
  | misbehave howmuch => exact ⟨_, rfl, Emits.misbehaving env h howmuch⟩

theorem NodeOp.runAll_spec (env : NetEnv) {pnode : CNode} (h : pnode.SendOk) (ops : List NodeOp) :
    ∃ out, runAll env pnode ops = some out ∧ Emits env pnode out := by
  induction ops generalizing pnode with
  | nil => exact ⟨_, rfl, Emits.refl h⟩
  | cons op ops ih =>
    obtain ⟨first, hfirst, hemits⟩ := NodeOp.run_spec env h op
    obtain ⟨rest, hrest, hemits'⟩ := ih hemits.send_ok
    exact ⟨_, by rw [runAll, hfirst, Option.bind_some, hrest, Option.map_some], hemits.trans hemits'⟩

end Send

section Handle

/-- What a call of `ProcessMessages` does: as a sender like any operation, and as a receiver it takes complete messages
off the front of the buffer and hands on the one of them that it accepts. -/
structure Handles (env : NetEnv) (pfrom : CNode) (p : Processed) : Prop where
  send_ok : p.out.node.SendOk
  bytes : p.out.wire ++ p.out.node.queued =
    pfrom.queued ++ (p.out.sent.map (Message.frame env.network env.hash)).flatten
  fits : ∀ m ∈ p.out.sent, m.payload.length < 2 ^ 32
  dead : pfrom.fDisconnect = true → p.handed = none ∧ p.out.node.fDisconnect = true
  alive : pfrom.fDisconnect = false → ∃ scanned rest, pfrom.vRecvMsg = scanned ++ rest ∧
    (∀ msg ∈ scanned, msg.complete = true) ∧
      scanned.filterMap (CNetMessage.accept env.network env.hash) = p.handed.toList ∧
        (p.out.node.fDisconnect = false → p.out.node.vRecvMsg = rest)

variable (env : NetEnv)

/-- A message that is neither complete nor to be handled now stops the loop. -/
theorem scanMessages_stop {l : List CNetMessage} {pfrom : CNode} (h : pfrom.SendOk) :
    Emits env pfrom ⟨pfrom, [], []⟩ ∧ ∃ scanned, l = scanned ++ l ∧ (∀ msg ∈ scanned, msg.complete = true) ∧
      scanned.filterMap (CNetMessage.accept env.network env.hash) = (none : Option Message).toList ∧
        (pfrom.fDisconnect = true → scanned = []) :=
  ⟨Emits.refl h, [], rfl, by simp, rfl, fun _ => rfl⟩

theorem scanMessages_spec (l : List CNetMessage) (pfrom : CNode) (h : pfrom.SendOk) :
    Emits env pfrom ⟨(scanMessages env l pfrom).1, [], []⟩ ∧
      ∃ scanned, l = scanned ++ (scanMessages env l pfrom).2.1 ∧ (∀ msg ∈ scanned, msg.complete = true) ∧
        scanned.filterMap (CNetMessage.accept env.network env.hash) = (scanMessages env l pfrom).2.2.1.toList ∧
          (pfrom.fDisconnect = true → scanned = []) := by
  induction l generalizing pfrom with
  | nil =>
    rw [scanMessages]
    exact scanMessages_stop env h
  | cons msg rest ih =>
    rw [scanMessages]
    by_cases hdead : pfrom.fDisconnect = true
    · rw [if_pos hdead]
      exact scanMessages_stop env h
    rw [if_neg hdead]
    by_cases hfull : env.sendBufferSize ≤ pfrom.nSendSize
    · rw [if_pos hfull]
      exact scanMessages_stop env h
    rw [if_neg hfull]
    cases hcomplete : msg.complete with
    | false =>
      simp only [Bool.not_false, if_true]
      exact scanMessages_stop env h
    | true =>
      simp only [Bool.not_true, Bool.false_eq_true, if_false]
      -- a message that is passed over, or the last one, in front of what was scanned already
      have hcons : ∀ scanned : List CNetMessage, (∀ m ∈ scanned, m.complete = true) →
          ∀ m ∈ msg :: scanned, m.complete = true := by
        intro scanned hscanned m hm
        cases List.mem_cons.mp hm with
        | inl heq =>
          rw [heq]
          exact hcomplete
        | inr hmem => exact hscanned m hmem
      by_cases hstart : msg.hdr.pchMessageStart ≠ env.network.messageStart
      · rw [if_pos hstart]
        refine ⟨Emits.misbehaving env h 5, [msg], rfl, hcons [] (by simp), ?_, fun hdead' => absurd hdead' hdead⟩
        rw [List.filterMap_cons_none (by rw [CNetMessage.accept, if_pos hstart])]
        rfl
      rw [if_neg hstart]
      cases hvalid : msg.hdr.isValid env.network with
      | false =>
        simp only [Bool.not_false, if_true]
        have hfirst := Emits.misbehaving env h 5
        obtain ⟨hemits, scanned, hlist, hscanned, hfilter, -⟩ := ih _ hfirst.send_ok
        refine ⟨hfirst.trans hemits, msg :: scanned, by rw [List.cons_append, ← hlist], hcons scanned hscanned, ?_,
          fun hdead' => absurd hdead' hdead⟩
        rw [List.filterMap_cons_none (by rw [CNetMessage.accept, if_neg hstart, hvalid]; rfl), hfilter]
      | true =>
        simp only [Bool.not_true, Bool.false_eq_true, if_false]
        by_cases hchecksum :
            messageChecksum env.hash (msg.vRecv.take msg.hdr.nMessageSize.toNat) ≠ msg.hdr.nChecksum
        · rw [if_pos hchecksum]
          obtain ⟨hemits, scanned, hlist, hscanned, hfilter, -⟩ := ih _ h
          refine ⟨hemits, msg :: scanned, by rw [List.cons_append, ← hlist], hcons scanned hscanned, ?_,
            fun hdead' => absurd hdead' hdead⟩
          rw [List.filterMap_cons_none (by
            rw [CNetMessage.accept, if_neg hstart, hvalid, if_neg (by simp), if_pos hchecksum]), hfilter]
        · rw [if_neg hchecksum]
          refine ⟨Emits.refl h, [msg], rfl, hcons [] (by simp), ?_, fun hdead' => absurd hdead' hdead⟩
          rw [List.filterMap_cons_some (by
            rw [CNetMessage.accept, if_neg hstart, hvalid, if_neg (by simp), if_neg hchecksum])]
          rfl

/-- Erasing the messages leaves the sending side as it is. -/
theorem eraseHandled_spec {pnode : CNode} (h : pnode.SendOk) (rest : List CNetMessage) :
    (pnode.eraseHandled rest).SendOk ∧ (pnode.eraseHandled rest).queued = pnode.queued ∧
      (pnode.eraseHandled rest).fDisconnect = pnode.fDisconnect ∧
        (pnode.fDisconnect = false → (pnode.eraseHandled rest).vRecvMsg = rest) := by
  rw [CNode.eraseHandled]
  cases hflag : pnode.fDisconnect with
  | true => exact ⟨h, rfl, hflag, fun halive => by cases halive⟩
  | false => exact ⟨⟨h.idle, h.queue⟩, rfl, rfl, fun _ => rfl⟩

theorem processMessages_spec (gets : List NodeOp) (fLeft : Bool) (handler : List NodeOp) {pfrom : CNode}
    (h : pfrom.SendOk) :
    ∃ p, processMessages env gets fLeft handler pfrom = some p ∧ Handles env pfrom p := by
  obtain ⟨got, hgot, hemits⟩ := NodeOp.runAll_spec env h gets
  rw [processMessages, hgot, Option.bind_some]
  cases fLeft with
  | true =>
    refine ⟨_, rfl, hemits.send_ok, hemits.bytes, hemits.fits, ?_, ?_⟩
    · intro hdead
      refine ⟨rfl, ?_⟩
      by_contra halive
      rw [Bool.not_eq_true] at halive
      exact absurd hdead (by simp [(hemits.alive halive).1])
    · intro _
      exact ⟨[], _, rfl, by simp, rfl, fun halive => (hemits.alive halive).2⟩
  | false =>
    obtain ⟨hscan, scanned, hlist, hcomplete, hfilter, hdead⟩ :=
      scanMessages_spec env got.node.vRecvMsg got.node hemits.send_ok
    generalize scanMessages env got.node.vRecvMsg got.node = r at hscan hlist hfilter
    obtain ⟨pnode, rest, handed, fOk⟩ := r
    dsimp only at hscan hlist hfilter
    obtain ⟨done, hdone, hemits'⟩ := NodeOp.runAll_spec env hscan.send_ok (if handed.isSome then handler else [])
    have hall := (hemits.trans hscan).trans hemits'
    have hgot_alive : done.node.fDisconnect = false → got.node.fDisconnect = false ∧ pfrom.fDisconnect = false ∧
        got.node.vRecvMsg = pfrom.vRecvMsg := by
      intro halive
      have hgot' := (hscan.trans hemits').alive halive
      exact ⟨hgot'.1, hemits.alive hgot'.1⟩
    have hnone : got.node.fDisconnect = true → handed = none := by
      intro hgot'
      rw [hdead hgot'] at hfilter
      cases handed with
      | none => rfl
      | some m => cases hfilter
    refine ⟨⟨⟨done.node.eraseHandled rest, got.wire ++ done.wire, got.sent ++ done.sent⟩, handed, fOk⟩, ?_, ?_⟩
    · simp only [Bool.false_eq_true, if_false]
      rw [hdone, Option.map_some]
    · obtain ⟨hok, hqueued, hflag, herased⟩ := eraseHandled_spec hemits'.send_ok rest
      refine ⟨hok, ?_, ?_, ?_, ?_⟩
      · have hbytes := hall.bytes
        simp only [List.append_nil] at hbytes
        rw [← hbytes, hqueued]
      · have hfits := hall.fits
        simpa only [List.append_nil] using hfits
      · intro hpfrom
        have hgot_dead : got.node.fDisconnect = true := by
          by_contra halive
          rw [Bool.not_eq_true] at halive
          exact absurd hpfrom (by simp [(hemits.alive halive).1])
        refine ⟨hnone hgot_dead, ?_⟩
        rw [hflag]
        by_contra halive
        rw [Bool.not_eq_true] at halive
        exact absurd hgot_dead (by simp [(hgot_alive halive).1])
      · intro hpfrom
        cases hgot_flag : got.node.fDisconnect with
        | true =>
          rw [hnone hgot_flag]
          refine ⟨[], pfrom.vRecvMsg, rfl, by simp, rfl, ?_⟩
          intro halive
          rw [hflag] at halive
          exact absurd hgot_flag (by simp [(hgot_alive halive).1])
        | false =>
          rw [(hemits.alive hgot_flag).2] at hlist
          refine ⟨scanned, rest, hlist, hcomplete, hfilter, ?_⟩
          intro halive
          rw [hflag] at halive
          exact herased halive

end Handle

section Flow

variable {network : Network} {hash : HashFn}

/-- One direction of a connection: the messages that were pushed are those that the receiver is done with and others,
and as long as it is not disconnected these others are the bytes in its buffer and those that are still to come. -/
structure Flow (network : Network) (hash : HashFn) (sent : List Message) (receiver : Endpoint) (incoming : Bytes) :
    Prop where
  fits : ∀ m ∈ sent, m.payload.length < 2 ^ 32
  split : ∃ done rest, sent = done ++ rest ∧ receiver.handed = done.filterMap (Message.deliver network hash) ∧
    (receiver.node.fDisconnect = false → ∃ earlier current, Receiving network earlier current ∧
      receiver.node.vRecvMsg = earlier ++ current.toList ∧
        (splitOf earlier current).letters ++ incoming = (rest.map (Message.frame network hash)).flatten)

theorem Flow.new : Flow network hash [] ⟨CNode.new, [], []⟩ [] where
  fits := by simp
  split := ⟨[], [], rfl, rfl, fun _ => ⟨[], none, receiving_nil, rfl, rfl⟩⟩

/-- More is pushed at the other end. -/
theorem Flow.push {sent : List Message} {receiver : Endpoint} {incoming : Bytes}
    (h : Flow network hash sent receiver incoming) {pushed : List Message}
    (hfits : ∀ m ∈ pushed, m.payload.length < 2 ^ 32) :
    Flow network hash (sent ++ pushed) receiver (incoming ++ (pushed.map (Message.frame network hash)).flatten) where
  fits := by
    intro m hm
    cases List.mem_append.mp hm with
    | inl hold => exact h.fits m hold
    | inr hnew => exact hfits m hnew
  split := by
    obtain ⟨done, rest, hsent, hhanded, halive⟩ := h.split
    refine ⟨done, rest ++ pushed, by rw [hsent, List.append_assoc], hhanded, ?_⟩
    intro hflag
    obtain ⟨earlier, current, hreceiving, hlist, hbytes⟩ := halive hflag
    refine ⟨earlier, current, hreceiving, hlist, ?_⟩
    rw [← List.append_assoc, hbytes, List.map_append, List.flatten_append]

/-- The receiver is disconnected, or its buffer is as before. -/
theorem Flow.keep {sent : List Message} {receiver : Endpoint} {incoming : Bytes}
    (h : Flow network hash sent receiver incoming) {node : CNode} {mine : List Message}
    (halive : node.fDisconnect = false → receiver.node.fDisconnect = false ∧ node.vRecvMsg = receiver.node.vRecvMsg) :
    Flow network hash sent ⟨node, mine, receiver.handed⟩ incoming where
  fits := h.fits
  split := by
    obtain ⟨done, rest, hsent, hhanded, hopen⟩ := h.split
    refine ⟨done, rest, hsent, hhanded, ?_⟩
    intro hflag
    obtain ⟨hbefore, hbuffer⟩ := halive hflag
    obtain ⟨earlier, current, hreceiving, hlist, hbytes⟩ := hopen hbefore
    exact ⟨earlier, current, hreceiving, hbuffer.trans hlist, hbytes⟩

theorem Receiving.shaped {earlier : List CNetMessage} {current : Option CNetMessage}
    (h : Receiving network earlier current) : ∀ f ∈ earlier.map CNetMessage.received, wireFraming.Shaped f := by
  intro f hf
  obtain ⟨msg, hmsg, rfl⟩ := List.mem_map.mp hf
  exact (h.shape msg (List.mem_append_left _ hmsg)).shaped (h.earlier msg hmsg)

/-- Complete messages in the buffer are the next of those that were sent. -/
theorem Flow.next {rest : List Message} {earlier : List CNetMessage} {current : Option CNetMessage} {incoming : Bytes}
    (hfits : ∀ m ∈ rest, m.payload.length < 2 ^ 32) (h : Receiving network earlier current)
    (hbytes : (splitOf earlier current).letters ++ incoming = (rest.map (Message.frame network hash)).flatten)
    {scanned kept : List CNetMessage} (hsplit : earlier = scanned ++ kept) :
    ∃ next rest', rest = next ++ rest' ∧
      scanned.filterMap (CNetMessage.accept network hash) = next.filterMap (Message.deliver network hash) ∧
        (splitOf kept current).letters ++ incoming = (rest'.map (Message.frame network hash)).flatten := by
  induction scanned generalizing rest earlier with
  | nil => exact ⟨[], rest, rfl, rfl, by rw [← hbytes, hsplit]; rfl⟩
  | cons msg scanned ih =>
    have hmsg : msg ∈ earlier := by simp [hsplit]
    have hshape := h.shape msg (List.mem_append_left _ hmsg)
    have hcomplete := h.earlier msg hmsg
    have hletters : (splitOf earlier current).letters ++ incoming =
        msg.received ++ ((splitOf (scanned ++ kept) current).letters ++ incoming) := by
      rw [hsplit]
      simp [splitOf, Split.letters]
    rw [hletters] at hbytes
    cases rest with
    | nil =>
      have hnil := (List.append_eq_nil_iff.mp hbytes).1
      have hlen := (hshape.shaped hcomplete).1
      rw [hnil] at hlen
      exact absurd hlen (by decide)
    | cons m rest =>
      rw [List.map_cons, List.flatten_cons] at hbytes
      have hm := hfits m List.mem_cons_self
      have hsame := wireFraming.shaped_unique (hshape.shaped hcomplete) (Message.frame_shaped hm network hash) hbytes
      have hrest : Receiving network (scanned ++ kept) current := by
        rw [hsplit] at h
        exact ⟨fun m hm => h.shape m (List.mem_cons_of_mem _ hm), fun m hm => h.earlier m (List.mem_cons_of_mem _ hm),
          h.current⟩
      obtain ⟨next, rest', hnext, hfilter, hletters'⟩ :=
        ih (fun m hm => hfits m (List.mem_cons_of_mem _ hm)) hrest hsame.2 rfl
      refine ⟨m :: next, rest', by rw [hnext]; rfl, ?_, hletters'⟩
      rw [List.filterMap_cons, List.filterMap_cons, hshape.accept_frame hcomplete hm hsame.1, hfilter]

/-- The messages that a call of `ProcessMessages` takes are complete ones at the front of the buffer. -/
theorem Receiving.scanned {earlier : List CNetMessage} {current : Option CNetMessage}
    (h : Receiving network earlier current) {scanned rest : List CNetMessage}
    (hlist : earlier ++ current.toList = scanned ++ rest)
    (hcomplete : ∀ msg ∈ scanned, msg.complete = true) :
    ∃ kept, earlier = scanned ++ kept ∧ rest = kept ++ current.toList ∧ Receiving network kept current := by
  have hkept : ∃ kept, earlier = scanned ++ kept ∧ rest = kept ++ current.toList := by
    cases List.append_eq_append_iff.mp hlist with
    | inr hright =>
      obtain ⟨kept, hearlier, hrest⟩ := hright
      exact ⟨kept, hearlier, hrest⟩
    | inl hleft =>
      obtain ⟨others, hscanned, hcurrent⟩ := hleft
      cases others with
      | nil => exact ⟨[], by simpa using hscanned.symm, by simpa using hcurrent.symm⟩
      | cons msg others =>
        have hmem : msg ∈ current := by
          have hmem' : msg ∈ current.toList := by simp [hcurrent]
          simpa using hmem'
        have hopen := (h.current msg hmem).1
        rw [hcomplete msg (by simp [hscanned])] at hopen
        cases hopen
  obtain ⟨kept, hearlier, hrest⟩ := hkept
  refine ⟨kept, hearlier, hrest, ?_, ?_, h.current⟩
  · intro msg hmsg
    apply h.shape msg
    rw [hearlier, List.append_assoc]
    exact List.mem_append_right _ hmsg
  · intro msg hmsg
    apply h.earlier msg
    rw [hearlier]
    exact List.mem_append_right _ hmsg

/-- A call of `ProcessMessages` at the receiver. -/
theorem Flow.process {sent : List Message} {receiver : Endpoint} {incoming : Bytes}
    (h : Flow network hash sent receiver incoming) {env : NetEnv} (hnetwork : env.network = network)
    (hhash : env.hash = hash) {p : Processed} (hp : Handles env receiver.node p) {mine : List Message} :
    Flow network hash sent ⟨p.out.node, mine, receiver.handed ++ p.handed.toList⟩ incoming where
  fits := h.fits
  split := by
    obtain ⟨done, rest, hsent, hhanded, hopen⟩ := h.split
    cases hflag : receiver.node.fDisconnect with
    | true =>
      obtain ⟨hnone, hdead⟩ := hp.dead hflag
      refine ⟨done, rest, hsent, by simp [hhanded, hnone], ?_⟩
      intro halive
      rw [hdead] at halive
      cases halive
    | false =>
      obtain ⟨earlier, current, hreceiving, hlist, hbytes⟩ := hopen hflag
      obtain ⟨scanned, left, hbuffer, hcomplete, hfilter, herased⟩ := hp.alive hflag
      rw [hlist] at hbuffer
      obtain ⟨kept, hearlier, hleft, hkept⟩ := hreceiving.scanned hbuffer hcomplete
      have hfits : ∀ m ∈ rest, m.payload.length < 2 ^ 32 := by
        intro m hm
        apply h.fits m
        rw [hsent]
        exact List.mem_append_right _ hm
      obtain ⟨next, rest', hrest, hnext, hbytes'⟩ := Flow.next hfits hreceiving hbytes hearlier
      rw [hnetwork, hhash, hnext] at hfilter
      refine ⟨done ++ next, rest', by rw [hsent, hrest, List.append_assoc], ?_, ?_⟩
      · rw [List.filterMap_append, ← hhanded, hfilter]
      · intro halive
        exact ⟨kept, current, hkept, (herased halive).trans hleft, hbytes'⟩

theorem Receiving.cut {earlier : List CNetMessage} {current : Option CNetMessage}
    (h : Receiving network earlier current) : wireFraming.Cut (splitOf earlier current) where
  shaped := by
    intro f hf
    refine ⟨h.shaped f hf, ?_⟩
    obtain ⟨msg, hmsg, rfl⟩ := List.mem_map.mp hf
    have hshape := h.shape msg (List.mem_append_left _ hmsg)
    have hdata := hshape.data (CNetMessage.complete_iff.mp (h.earlier msg hmsg)).1
    rw [(hshape.of_complete (h.earlier msg hmsg)).2.2, wireFraming_bodySize hdata.1]
    exact Nat.not_lt.mpr hdata.2.2.2.1
  open_part := by
    cases current with
    | none => exact .inl (Nat.zero_lt_succ 23)
    | some msg =>
      have hshape := h.shape msg (by simp)
      have hopen := (h.current msg rfl).1
      have hlen := hshape.received_length
      change msg.received.length < 24 ∨ _ ∧ msg.received.length < 24 + wireFraming.bodySize msg.received
      cases hphase : msg.in_data with
      | false =>
        rw [hphase] at hlen
        exact .inl (hlen.trans_lt (hshape.header hphase).2.1)
      | true =>
        have hdata := hshape.data hphase
        have hsize := wireFraming_bodySize hdata.1 (msg.vRecv.take msg.nDataPos)
        rw [hphase, if_pos rfl] at hlen
        rw [CNetMessage.complete, hphase, Bool.true_and, decide_eq_false_iff_not] at hopen
        have hreceived : msg.received = msg.hdr.bytes ++ msg.vRecv.take msg.nDataPos := by
          rw [CNetMessage.received, if_pos hphase]
        rw [← hreceived] at hsize
        right
        rw [hsize, hlen]
        constructor
        · rw [show wireFraming.bodySize (splitOf earlier (some msg)).part = _ from hsize]
          exact Nat.not_lt.mpr hdata.2.2.2.1
        · omega

/-- The receiver reads. -/
theorem Flow.receive {sent : List Message} {receiver : Endpoint} {arrived queued : Bytes}
    (h : Flow network hash sent receiver (arrived ++ queued)) {env : NetEnv} (hnetwork : env.network = network)
    (n : Nat) {mine : List Message} :
    Flow network hash sent ⟨(socketReceive env n arrived receiver.node).1, mine, receiver.handed⟩
      ((socketReceive env n arrived receiver.node).2 ++ queued) := by
  obtain ⟨hfits, done, rest, hsent, hhanded, hopen⟩ := h
  refine ⟨hfits, done, rest, hsent, hhanded, ?_⟩
  rw [socketReceive]
  cases receiver.node.socketOpen with
  | false =>
    intro hflag
    exact hopen hflag
  | true =>
    simp only [Bool.not_true, Bool.false_eq_true, if_false]
    split_ifs with hflood
    · intro hflag
      cases hflag
    · generalize min n 0x10000 = nBytes
      split
      · intro hflag
        cases hflag
      · rename_i vRecvMsg hrun
        intro hflag
        obtain ⟨earlier, current, hreceiving, hlist, hbytes⟩ := hopen hflag
        rw [hnetwork, hlist] at hrun
        cases receiveLoop_spec hreceiving (arrived.take nBytes) (le_refl _) with
        | inl hbad => exact absurd (hbad.1.symm.trans hrun) (by simp)
        | inr hgood =>
          obtain ⟨earlier', current', hreceiving', hlist', hfeed⟩ := hgood
          refine ⟨earlier', current', hreceiving', Option.some.inj (hrun.symm.trans hlist'), ?_⟩
          rw [(wireFraming.feedAll_cut hreceiving.cut hfeed).2.1, ← hbytes, List.append_assoc,
            ← List.append_assoc _ _ queued, List.take_append_drop]

end Flow

namespace Connection

variable {network : Network} {hash : HashFn}

/-- Both sides send as they should, and both directions carry what was pushed. -/
structure Ok (network : Network) (hash : HashFn) (c : Connection) : Prop where
  send_ok : ∀ s, (c.side s).node.SendOk
  flow : ∀ s, Flow network hash (c.side s).sent (c.side !s) (c.wire s ++ (c.side s).node.queued)

theorem new_ok : Ok network hash new where
  send_ok := fun _ => ⟨rfl, by simp [new, CNode.new], .inl rfl, rfl⟩
  flow := fun _ => Flow.new

theorem side_cases (s x : Bool) : x = s ∨ x = !s := by
  cases s <;> cases x <;> simp

theorem other_ne (s : Bool) : (!s) ≠ s := by
  cases s <;> simp

section Update

variable (c : Connection) (s : Bool) (out : Outcome) (handed : Option Message) (read : CNode × Bytes)

@[simp] theorem emit_side_self : (c.emit s out handed).side s =
    ⟨out.node, (c.side s).sent ++ out.sent, (c.side s).handed ++ handed.toList⟩ := Function.update_self ..

@[simp] theorem emit_side_other : (c.emit s out handed).side (!s) = c.side !s := Function.update_of_ne (other_ne s) ..

@[simp] theorem emit_wire_self : (c.emit s out handed).wire s = c.wire s ++ out.wire := Function.update_self ..

@[simp] theorem emit_wire_other : (c.emit s out handed).wire (!s) = c.wire !s := Function.update_of_ne (other_ne s) ..

@[simp] theorem absorb_side_self : (c.absorb s read).side s = { c.side s with node := read.1 } :=
  Function.update_self ..

@[simp] theorem absorb_side_other : (c.absorb s read).side (!s) = c.side !s := Function.update_of_ne (other_ne s) ..

@[simp] theorem absorb_wire_self : (c.absorb s read).wire s = c.wire s := Function.update_of_ne (other_ne s).symm ..

@[simp] theorem absorb_wire_other : (c.absorb s read).wire (!s) = read.2 := Function.update_self ..

end Update

theorem emit_ok {c : Connection} (h : Ok network hash c) (s : Bool) {out : Outcome} {handed : Option Message}
    (hsend : out.node.SendOk)
    (hbytes : out.wire ++ out.node.queued =
      (c.side s).node.queued ++ (out.sent.map (Message.frame network hash)).flatten)
    (hfits : ∀ m ∈ out.sent, m.payload.length < 2 ^ 32)
    (hreceiver : Flow network hash (c.side !s).sent
      ⟨out.node, (c.side s).sent ++ out.sent, (c.side s).handed ++ handed.toList⟩
        (c.wire (!s) ++ (c.side !s).node.queued)) :
    Ok network hash (c.emit s out handed) where
  send_ok := by
    intro x
    cases side_cases s x with
    | inl hx =>
      rw [hx, emit_side_self]
      exact hsend
    | inr hx =>
      rw [hx, emit_side_other]
      exact h.send_ok !s
  flow := by
    intro x
    cases side_cases s x with
    | inl hx =>
      rw [hx, emit_side_self, emit_side_other, emit_wire_self]
      dsimp only
      rw [List.append_assoc, hbytes, ← List.append_assoc]
      exact (h.flow s).push hfits
    | inr hx =>
      rw [hx, Bool.not_not, emit_side_self, emit_side_other, emit_wire_other]
      exact hreceiver

theorem absorb_ok {c : Connection} (h : Ok network hash c) (s : Bool) {env : NetEnv} (hnetwork : env.network = network)
    (n : Nat) : Ok network hash (c.absorb s (socketReceive env n (c.wire !s) (c.side s).node)) := by
  have hsame : (socketReceive env n (c.wire !s) (c.side s).node).1.SendOk ∧
      (socketReceive env n (c.wire !s) (c.side s).node).1.queued = (c.side s).node.queued := by
    have hok := h.send_ok s
    rw [socketReceive]
    split_ifs
    · exact ⟨hok, rfl⟩
    · exact ⟨⟨hok.idle, hok.queue⟩, rfl⟩
    · dsimp only
      split
      · exact ⟨⟨hok.idle, hok.queue⟩, rfl⟩
      · exact ⟨⟨hok.idle, hok.queue⟩, rfl⟩
  constructor
  · intro x
    cases side_cases s x with
    | inl hx =>
      rw [hx, absorb_side_self]
      exact hsame.1
    | inr hx =>
      rw [hx, absorb_side_other]
      exact h.send_ok !s
  · intro x
    cases side_cases s x with
    | inl hx =>
      rw [hx, absorb_side_self, absorb_side_other, absorb_wire_self]
      dsimp only
      rw [hsame.2]
      exact h.flow s
    | inr hx =>
      rw [hx, Bool.not_not, absorb_side_self, absorb_side_other, absorb_wire_other]
      have hflow := h.flow !s
      rw [Bool.not_not] at hflow
      exact hflow.receive hnetwork n

/-- Any action at any side. -/
theorem step_ok {c : Connection} (h : Ok network hash c) (args : Bool → NodeArgs) (s : Bool) (a : Action) :
    ∃ c', c.step (fun x => { args x with network, hash }) s a = some c' ∧ Ok network hash c' := by
  have hback := h.flow !s
  rw [Bool.not_not] at hback
  cases a with
  | own op =>
    obtain ⟨out, hrun, hemits⟩ := NodeOp.run_spec { args s with network, hash } (h.send_ok s) op
    refine ⟨_, by rw [step, hrun, Option.map_some], emit_ok h s hemits.send_ok hemits.bytes hemits.fits ?_⟩
    rw [Option.toList_none, List.append_nil]
    exact hback.keep hemits.alive
  | flush lockRecv results =>
    obtain ⟨node, wire, hrun, hemits⟩ :=
      socketSendData_spec { args s with network, hash } (h.send_ok s) lockRecv results
    refine ⟨_, by rw [step, hrun, Option.map_some], emit_ok h s hemits.send_ok hemits.bytes hemits.fits ?_⟩
    rw [Option.toList_none, List.append_nil, List.append_nil]
    exact hback.keep hemits.alive
  | receive n => exact ⟨_, rfl, absorb_ok h s rfl n⟩
  | process gets fLeft handler =>
    obtain ⟨p, hrun, hp⟩ := processMessages_spec { args s with network, hash } gets fLeft handler (h.send_ok s)
    refine ⟨_, by rw [step, hrun, Option.map_some], emit_ok h s hp.send_ok hp.bytes hp.fits ?_⟩
    exact hback.process rfl rfl hp

theorem run_ok (args : Bool → NodeArgs) (actions : List (Bool × Action)) {c : Connection} (h : Ok network hash c) :
    ∃ c', run (fun x => { args x with network, hash }) c actions = some c' ∧ Ok network hash c' := by
  induction actions generalizing c with
  | nil => exact ⟨c, rfl, h⟩
  | cons a actions ih =>
    obtain ⟨c₁, hstep, hok⟩ := step_ok h args a.1 a.2
    obtain ⟨c', hrun, hok'⟩ := ih hok
    refine ⟨c', ?_, hok'⟩
    rw [run, List.foldlM_cons, hstep]
    exact hrun

end Connection

/-- Whatever the two sides do in whatever order, no assertion of the send queue fails, and `nSendSize` and `nSendOffset`
are the bytes that the queue holds and those of its first message that are out. -/
theorem connection_queues (network : Network) (hash : HashFn) (args : Bool → NodeArgs)
    (actions : List (Bool × Action)) :
    ∃ c, Connection.new.run (fun x => { args x with network, hash }) actions = some c ∧
      ∀ s, QueueOk (c.side s).node.vSendMsg (c.side s).node.nSendOffset (c.side s).node.nSendSize ∧
        (c.side s).node.ssSend = [] := by
  obtain ⟨c, hrun, hok⟩ := Connection.run_ok args actions (Connection.new_ok : Connection.Ok network hash _)
  exact ⟨c, hrun, fun s => ⟨(hok.send_ok s).queue, (hok.send_ok s).idle⟩⟩

/-- The messages that a side hands to `ProcessMessage` are the first of those that the other side pushed, in order and
each once, but for those whose command is not valid; and as long as it is not disconnected, the others are, byte for
byte, in its buffer, on the wire and in the queue of the other side. -/
theorem connection_delivers (network : Network) (hash : HashFn) (args : Bool → NodeArgs)
    (actions : List (Bool × Action)) :
    ∃ c, Connection.new.run (fun x => { args x with network, hash }) actions = some c ∧
      ∀ s, ∃ done rest, (c.side s).sent = done ++ rest ∧
        (c.side !s).handed = done.filterMap (Message.deliver network hash) ∧
          ((c.side !s).node.fDisconnect = false →
            (c.side !s).node.vRecvMsg.flatMap CNetMessage.received ++ c.wire s ++ (c.side s).node.queued =
              (rest.map (Message.frame network hash)).flatten) := by
  obtain ⟨c, hrun, hok⟩ := Connection.run_ok args actions (Connection.new_ok : Connection.Ok network hash _)
  refine ⟨c, hrun, ?_⟩
  intro s
  obtain ⟨done, rest, hsent, hhanded, hopen⟩ := (hok.flow s).split
  refine ⟨done, rest, hsent, hhanded, ?_⟩
  intro hflag
  obtain ⟨earlier, current, -, hlist, hbytes⟩ := hopen hflag
  have hbuffer : (earlier ++ current.toList).flatMap CNetMessage.received = (splitOf earlier current).letters := by
    rw [List.flatMap_append, splitOf, Split.letters, List.flatMap_def]
    cases current with
    | none => rfl
    | some msg => simp
  rw [hlist, hbuffer, List.append_assoc]
  exact hbytes

end AliasWallet
