import AliasWallet.Net.Transport
import AliasWallet.Lib.Framing

/-!
# Messages out of pieces

What `ReceiveMsgBytes` builds depends on the bytes that came and not on the pieces in which they came: it is the cutting
of a stream of frames one byte at a time, up to the room that a message makes ahead.
-/

namespace AliasWallet
open Lib

section Header

/-- The fixed arrays of a header have their lengths. -/
structure CMessageHeader.Sized (hdr : CMessageHeader) : Prop where
  start : hdr.pchMessageStart.length = MESSAGE_START_SIZE
  command : hdr.pchCommand.length = COMMAND_SIZE

theorem CMessageHeader.unserialize_exact :
    Exact CMessageHeader.unserialize CMessageHeader.bytes CMessageHeader.Sized := by
  have h := ((((readBytes_exact MESSAGE_START_SIZE).pair (readBytes_exact COMMAND_SIZE)).pair readUInt32_exact).pair
    readUInt32_exact).map (fun p => CMessageHeader.mk p.1.1.1 p.1.1.2 p.1.2 p.2)
    (fun hdr => (((hdr.pchMessageStart, hdr.pchCommand), hdr.nMessageSize), hdr.nChecksum)) (fun _ => rfl)
    (fun _ _ => rfl)
  simp only [bind_assoc, pure_bind] at h
  apply h.congr
  · intro hdr
    constructor
    · intro hsized
      exact ⟨⟨⟨hsized.start, hsized.command⟩, trivial⟩, trivial⟩
    · intro hrange
      exact ⟨hrange.1.1.1, hrange.1.1.2⟩
  · intro hdr _
    rfl

theorem CMessageHeader.bytes_length {hdr : CMessageHeader} (h : hdr.Sized) : hdr.bytes.length = 24 := by
  simp only [bytes, uint32Bytes, List.length_append, leBytes_length, h.start, h.command]
  rfl

theorem CMessageHeader.bytes_inj {hdr hdr' : CMessageHeader} (h : hdr.Sized) (h' : hdr'.Sized)
    (heq : hdr.bytes = hdr'.bytes) : hdr = hdr' := by
  have hread := CMessageHeader.unserialize_exact.read_write hdr h []
  rw [heq, CMessageHeader.unserialize_exact.read_write hdr' h' []] at hread
  exact (Prod.mk.inj (Option.some.inj hread)).1.symm

theorem uint32Bytes_leNat {bs : Bytes} (h : bs.length = 4) : uint32Bytes (UInt32.ofNat (leNat bs)) = bs := by
  have hlt := leNat_lt bs
  rw [h] at hlt
  rw [uint32Bytes, UInt32.toNat_ofNat_of_lt' hlt, ← h, leBytes_leNat]

/-- Any 24 bytes are a header. -/
theorem CMessageHeader.exists_bytes {bs : Bytes} (h : bs.length = 24) :
    ∃ hdr : CMessageHeader, hdr.Sized ∧ hdr.bytes = bs := by
  let hdr : CMessageHeader := ⟨bs.take 4, slice bs 4 12, UInt32.ofNat (leNat (slice bs 16 4)),
    UInt32.ofNat (leNat (slice bs 20 4))⟩
  have hslice : ∀ off len, off + len ≤ 24 → (slice bs off len).length = len := by
    intro off len hle
    rw [slice, List.length_take, List.length_drop, h]
    omega
  refine ⟨hdr, ⟨by simp [hdr, h, MESSAGE_START_SIZE], hslice 4 12 (by omega)⟩, ?_⟩
  simp only [hdr, bytes, uint32Bytes_leNat (hslice 16 4 (by omega)), uint32Bytes_leNat (hslice 20 4 (by omega))]
  have htail : slice bs 20 4 = bs.drop 20 := by
    rw [slice, List.take_of_length_le (by rw [List.length_drop]; omega)]
  have hstep : ∀ off len, slice bs off len ++ bs.drop (off + len) = bs.drop off := by
    intro off len
    rw [slice, ← List.drop_drop, List.take_append_drop]
  rw [htail, List.append_assoc, List.append_assoc, hstep 16 4, hstep 4 12, List.take_append_drop]

/-- The stream of messages: the size is at its place in the header. -/
def wireFraming : Framing UInt8 where
  header := 24
  body := fun hdr => leNat (slice hdr MESSAGE_SIZE_OFFSET 4)
  limit := MAX_SIZE
  header_pos := Nat.zero_lt_succ 23

theorem wireFraming_bodySize {hdr : CMessageHeader} (h : hdr.Sized) (rest : Bytes) :
    wireFraming.bodySize (hdr.bytes ++ rest) = hdr.nMessageSize.toNat := by
  have hlen := CMessageHeader.bytes_length h
  have htake : (hdr.bytes ++ rest).take 24 = hdr.bytes := by rw [← hlen, List.take_left]
  have hfront : (hdr.pchMessageStart ++ hdr.pchCommand).length = MESSAGE_SIZE_OFFSET := by
    rw [List.length_append, h.start, h.command]
    rfl
  have hsize : (uint32Bytes hdr.nMessageSize).length = 4 := leBytes_length _ _
  change leNat (slice ((hdr.bytes ++ rest).take 24) MESSAGE_SIZE_OFFSET 4) = _
  rw [htake, slice, CMessageHeader.bytes, List.append_assoc, ← hfront, List.drop_left, ← hsize, List.take_left,
    uint32Bytes, leNat_leBytes_of_lt _ _ hdr.nMessageSize.toNat_lt]

end Header

namespace CNetMessage

variable {network : Network} {msg msg' : CNetMessage}

/-- The bytes of a message that have come. -/
def received (msg : CNetMessage) : Bytes :=
  if msg.in_data then msg.hdr.bytes ++ msg.vRecv.take msg.nDataPos else msg.hdrbuf.take msg.nHdrPos

/-- What holds of a message in the buffer, while its header comes and while its data comes. -/
structure Shape (network : Network) (msg : CNetMessage) : Prop where
  header : msg.in_data = false →
    msg.hdrbuf.length = 24 ∧ msg.nHdrPos < 24 ∧ msg.hdr = CMessageHeader.invalid network ∧ msg.vRecv = [] ∧
      msg.nDataPos = 0
  data : msg.in_data = true →
    msg.hdr.Sized ∧ msg.hdrbuf = [] ∧ msg.nHdrPos = 24 ∧ msg.hdr.nMessageSize.toNat ≤ MAX_SIZE ∧
      msg.nDataPos ≤ msg.vRecv.length ∧ msg.vRecv.length ≤ msg.hdr.nMessageSize.toNat

theorem shape_new (network : Network) : Shape network (new network) where
  header := fun _ => ⟨rfl, Nat.zero_lt_succ 23, rfl, rfl, rfl⟩
  data := fun h => absurd h (by simp [new])

theorem Shape.received_length (h : Shape network msg) :
    msg.received.length = if msg.in_data then 24 + msg.nDataPos else msg.nHdrPos := by
  rw [received]
  cases hphase : msg.in_data with
  | false =>
    have hpart := h.header hphase
    simp only [Bool.false_eq_true, if_false, List.length_take]
    omega
  | true =>
    have hpart := h.data hphase
    simp only [if_true, List.length_append, List.length_take, CMessageHeader.bytes_length hpart.1]
    omega

/-- The bytes that have come determine the message, up to the room made ahead. -/
theorem Shape.settled_unique (h : Shape network msg) (h' : Shape network msg') (heq : msg.received = msg'.received) :
    msg.settled = msg'.settled := by
  have hlen := h.received_length
  have hlen' := h'.received_length
  rw [heq, hlen'] at hlen
  cases msg with
  | mk in_data hdrbuf hdr nHdrPos vRecv nDataPos =>
  cases msg' with
  | mk in_data' hdrbuf' hdr' nHdrPos' vRecv' nDataPos' =>
  cases in_data with
  | false =>
    have hpart := h.header rfl
    cases in_data' with
    | false =>
      have hpart' := h'.header rfl
      simp only [Bool.false_eq_true, if_false, received] at hlen hpart hpart' heq
      simp only [settled, hpart.2.2.1, hpart'.2.2.1, hpart.2.2.2.1, hpart'.2.2.2.1, hpart.2.2.2.2, hpart'.2.2.2.2, heq,
        hlen]
    | true =>
      simp only [Bool.false_eq_true, if_false, if_true] at hlen hpart
      omega
  | true =>
    have hpart := h.data rfl
    cases in_data' with
    | false =>
      have hpart' := h'.header rfl
      simp only [Bool.false_eq_true, if_false, if_true] at hlen hpart'
      omega
    | true =>
      have hpart' := h'.data rfl
      simp only [if_true, received] at hlen hpart hpart' heq
      have hboth := List.append_inj heq
        (by rw [CMessageHeader.bytes_length hpart.1, CMessageHeader.bytes_length hpart'.1])
      have hhdr := CMessageHeader.bytes_inj hpart.1 hpart'.1 hboth.1
      have hpos : nDataPos = nDataPos' := by omega
      have hdata := hboth.2
      rw [hpos] at hdata
      simp only [settled, hpart.2.1, hpart'.2.1, hpart.2.2.1, hpart'.2.2.1, hhdr, hdata, hpos]

theorem complete_iff : msg.complete = true ↔ msg.in_data = true ∧ msg.hdr.nMessageSize.toNat = msg.nDataPos := by
  simp [complete]

/-- A complete message holds its data and nothing else. -/
theorem Shape.of_complete (h : Shape network msg) (hc : msg.complete = true) :
    msg.vRecv.length = msg.hdr.nMessageSize.toNat ∧ msg.settled = msg ∧ msg.received = msg.hdr.bytes ++ msg.vRecv := by
  have hparts := complete_iff.mp hc
  have hdata := h.data hparts.1
  have hlen : msg.vRecv.length = msg.nDataPos := by omega
  have hrecv : msg.vRecv.take msg.nDataPos = msg.vRecv := by rw [← hlen, List.take_length]
  have hbuf : msg.hdrbuf.take msg.nHdrPos = msg.hdrbuf := by rw [hdata.2.1, List.take_nil]
  refine ⟨by omega, ?_, ?_⟩
  · rw [settled, hrecv, hbuf]
  · rw [received, if_pos hparts.1, hrecv]

theorem Shape.shaped (h : Shape network msg) (hc : msg.complete = true) : wireFraming.Shaped msg.received := by
  have hfull := h.of_complete hc
  have hdata := h.data (complete_iff.mp hc).1
  have hsize := wireFraming_bodySize hdata.1 msg.vRecv
  have hlen := CMessageHeader.bytes_length hdata.1
  rw [hfull.2.2]
  constructor
  · change 24 ≤ _
    rw [List.length_append]
    omega
  · rw [hsize, List.length_append, hlen, hfull.1]
    rfl

/-- The stream with a message at its end. -/
def splitWith (whole : List Bytes) (msg : CNetMessage) : Split UInt8 :=
  if msg.complete then ⟨whole ++ [msg.received], []⟩ else ⟨whole, msg.received⟩

/-- A round that works on `msg` takes `k` bytes, and the stream is cut as it is byte by byte. -/
structure Absorbs (network : Network) (whole : List Bytes) (msg msg' : CNetMessage) (pch : Bytes) (k : Nat) : Prop where
  taken : 0 < (pch.take k).length
  shape : Shape network msg'
  received : msg'.received = msg.received ++ pch.take k
  cut : wireFraming.feedAll ⟨whole, msg.received⟩ (pch.take k) = some (splitWith whole msg')

theorem Absorbs.pos {whole : List Bytes} {pch : Bytes} {k : Nat} (h : Absorbs network whole msg msg' pch k) :
    0 < k := by
  have htaken := h.taken
  rw [List.length_take] at htaken
  omega

theorem take_writeAt (buf : Bytes) {off : Nat} (hoff : off ≤ buf.length) (bs : Bytes) :
    (writeAt buf off bs).take (off + bs.length) = buf.take off ++ bs := by
  have hlen : (buf.take off ++ bs).length = off + bs.length := by
    rw [List.length_append, List.length_take, min_eq_left hoff]
  rw [writeAt, ← hlen, List.take_left]

theorem readHeader_spec (h : Shape network msg) (hphase : msg.in_data = false) (whole : List Bytes) {pch : Bytes}
    (hne : pch ≠ []) :
    (msg.readHeader pch = none ∧ wireFraming.feedAll ⟨whole, msg.received⟩ pch = none) ∨
      ∃ msg' k, msg.readHeader pch = some (msg', k) ∧ Absorbs network whole msg msg' pch k := by
  obtain ⟨hbuf, hpos, hhdr, hrecv, hdata⟩ := h.header hphase
  have hlen : 0 < pch.length := List.length_pos_iff.mpr hne
  have hreceived : msg.received = msg.hdrbuf.take msg.nHdrPos := by rw [received, hphase]; rfl
  have hreceived_length : msg.received.length = msg.nHdrPos := by rw [h.received_length, hphase]; rfl
  generalize hk : min (24 - msg.nHdrPos) pch.length = k
  have htake : (pch.take k).length = k := by rw [List.length_take]; omega
  have hwrite : (writeAt msg.hdrbuf msg.nHdrPos (pch.take k)).take (msg.nHdrPos + k) = msg.received ++ pch.take k := by
    have hspec := take_writeAt msg.hdrbuf (show msg.nHdrPos ≤ _ by omega) (pch.take k)
    rwa [htake, ← hreceived] at hspec
  have hwrite_length : (writeAt msg.hdrbuf msg.nHdrPos (pch.take k)).length = 24 := by
    rw [writeAt_length _ _ _ (by omega), hbuf]
  simp only [readHeader, hk]
  by_cases hshort : msg.nHdrPos + k < 24
  · -- the header is still not complete
    refine .inr ⟨_, k, if_pos hshort, by omega, ⟨fun _ => ⟨hwrite_length, hshort, hhdr, hrecv, hdata⟩, ?_⟩, ?_, ?_⟩
    · intro hin
      exact absurd hin (by simp [hphase])
    · simp only [received, hphase, Bool.false_eq_true, if_false]
      rw [hwrite, hreceived]
    · rw [wireFraming.feedAll_short _ _ (by rw [hreceived_length, htake]; exact hshort), splitWith, if_neg]
      · simp only [received, hphase, Bool.false_eq_true, if_false, hwrite]
      · simp [complete, hphase]
  · -- the header is complete, and every 24 bytes are a header
    have hfull : msg.nHdrPos + k = 24 := by omega
    rw [if_neg hshort]
    rw [hfull, List.take_of_length_le (by omega)] at hwrite
    obtain ⟨hdr, hsized, hbytes⟩ := CMessageHeader.exists_bytes hwrite_length
    have hread := CMessageHeader.unserialize_exact.read_write hdr hsized []
    rw [List.append_nil, hbytes] at hread
    have hcut := wireFraming.feedAll_header ⟨whole, msg.received⟩ (pch.take k)
      (by intro hnil; rw [hnil] at htake; simp only [List.length_nil] at htake; omega)
      (by rw [hreceived_length, htake]; exact hfull)
    have hsize := wireFraming_bodySize hsized []
    rw [List.append_nil, hbytes, hwrite] at hsize
    simp only [hsize] at hcut
    simp only [hread]
    by_cases hlimit : MAX_SIZE < hdr.nMessageSize.toNat
    · have hover : wireFraming.limit < hdr.nMessageSize.toNat := hlimit
      rw [if_pos hover] at hcut
      refine .inl ⟨if_pos hlimit, ?_⟩
      rw [← List.take_append_drop k pch, wireFraming.feedAll_append, hcut]
      rfl
    · have hallowed : ¬wireFraming.limit < hdr.nMessageSize.toNat := hlimit
      rw [if_neg hallowed] at hcut
      have hnew : received { msg with in_data := true, hdrbuf := [], hdr, nHdrPos := msg.nHdrPos + k } =
          msg.received ++ pch.take k := by
        rw [received, if_pos rfl, ← hwrite, ← hbytes, hdata, List.take_zero, List.append_nil]
      refine .inr ⟨_, k, if_neg hlimit, by omega,
        ⟨?_, fun _ => ⟨hsized, rfl, hfull, Nat.not_lt.mp hlimit, ?_, ?_⟩⟩, hnew, ?_⟩
      · intro hin
        cases hin
      · simp [hrecv, hdata]
      · simp [hrecv]
      · rw [hcut, splitWith, hnew]
        simp only [complete, Bool.true_and, decide_eq_true_eq, hdata]
        split_ifs
        · rfl
        · rfl

theorem resize_length (n : Nat) {buf : Bytes} (h : buf.length ≤ n) : (resize n buf).length = n := by
  rw [resize, List.length_append, List.length_take, List.length_replicate]
  omega

theorem take_resize {n k : Nat} {buf : Bytes} (hk : k ≤ buf.length) (h : buf.length ≤ n) :
    (resize n buf).take k = buf.take k := by
  rw [resize, List.take_of_length_le h, List.take_append_of_le_length hk]

/-- The buffer that `readData` writes to has room for the bytes, keeps those that are there and is no longer than the
message. -/
theorem room_spec {vRecv : Bytes} {pos size : Nat} (k : Nat) (hpos : pos ≤ vRecv.length) (hsize : vRecv.length ≤ size)
    (hk : pos + k ≤ size) :
    let room := if vRecv.length < pos + k then resize (min size (pos + k + 256 * 1024)) vRecv else vRecv
    room.take pos = vRecv.take pos ∧ pos + k ≤ room.length ∧ room.length ≤ size := by
  dsimp only
  split_ifs with hsmall
  · have hle : vRecv.length ≤ min size (pos + k + 256 * 1024) := by omega
    rw [take_resize hpos hle, resize_length _ hle]
    exact ⟨rfl, by omega, by omega⟩
  · exact ⟨rfl, by omega, hsize⟩

theorem readData_spec (h : Shape network msg) (hphase : msg.in_data = true) (hopen : msg.complete = false)
    (whole : List Bytes) {pch : Bytes} (hne : pch ≠ []) :
    Absorbs network whole msg (msg.readData pch).1 pch (msg.readData pch).2 := by
  obtain ⟨hsized, hbuf, hpos, hlimit, hroom, hmax⟩ := h.data hphase
  have hlen : 0 < pch.length := List.length_pos_iff.mpr hne
  have hless : msg.nDataPos < msg.hdr.nMessageSize.toNat := by
    simp only [complete, hphase, Bool.true_and, decide_eq_false_iff_not] at hopen
    omega
  have hreceived : msg.received = msg.hdr.bytes ++ msg.vRecv.take msg.nDataPos := by rw [received, if_pos hphase]
  have hreceived_length : msg.received.length = 24 + msg.nDataPos := by rw [h.received_length, if_pos hphase]
  generalize hk : min (msg.hdr.nMessageSize.toNat - msg.nDataPos) pch.length = k
  have htake : (pch.take k).length = k := by rw [List.length_take]; omega
  have hspec := room_spec k hroom hmax (by omega)
  simp only [readData, hk]
  generalize (if msg.vRecv.length < msg.nDataPos + k then
    resize (min msg.hdr.nMessageSize.toNat (msg.nDataPos + k + 256 * 1024)) msg.vRecv else msg.vRecv) = room at hspec ⊢
  have hwrite : (writeAt room msg.nDataPos (pch.take k)).take (msg.nDataPos + k) =
      msg.vRecv.take msg.nDataPos ++ pch.take k := by
    have htaken := take_writeAt room (show msg.nDataPos ≤ _ by omega) (pch.take k)
    rwa [htake, hspec.1] at htaken
  have hwrite_length : (writeAt room msg.nDataPos (pch.take k)).length = room.length :=
    writeAt_length _ _ _ (by omega)
  have hnew : received { msg with
      vRecv := writeAt room msg.nDataPos (pch.take k), nDataPos := msg.nDataPos + k } = msg.received ++ pch.take k := by
    rw [hreceived, received, if_pos (show _ = true from hphase), List.append_assoc]
    simp only [hwrite]
  have hsize := wireFraming_bodySize hsized (msg.vRecv.take msg.nDataPos)
  rw [← hreceived] at hsize
  refine ⟨by omega, ⟨fun hin => ?_, fun _ => ⟨hsized, hbuf, hpos, hlimit, ?_, ?_⟩⟩, hnew, ?_⟩
  · exact absurd hin (by simp [hphase])
  · rw [hwrite_length]
    exact hspec.2.1
  · rw [hwrite_length]
    exact hspec.2.2
  · have hheader : wireFraming.header ≤ msg.received.length := by
      rw [hreceived_length]
      exact Nat.le_add_right 24 _
    have hallowed : ¬wireFraming.limit < wireFraming.bodySize msg.received := by
      rw [hsize]
      exact Nat.not_lt.mpr hlimit
    have hsum : msg.received.length + (pch.take k).length = wireFraming.header + (msg.nDataPos + k) := by
      rw [hreceived_length, htake]
      change 24 + _ + k = 24 + _
      omega
    rw [splitWith, hnew]
    by_cases hfull : msg.nDataPos + k = msg.hdr.nMessageSize.toNat
    · rw [wireFraming.feedAll_body_full _ _ (by intro hnil; rw [hnil] at htake; simp at htake; omega) hheader hallowed
        (by rw [hsum, hsize, hfull]), if_pos (by simp [complete, hphase, hfull])]
    · rw [wireFraming.feedAll_body _ _ hheader hallowed (by rw [hsum, hsize]; omega), if_neg]
      simp only [complete, hphase, Bool.true_and, decide_eq_true_eq]
      omega

end CNetMessage

section Stream

variable {network : Network}

/-- A receive buffer: complete messages, and at most one behind them that has begun. -/
structure Receiving (network : Network) (earlier : List CNetMessage) (current : Option CNetMessage) : Prop where
  shape : ∀ msg ∈ earlier ++ current.toList, CNetMessage.Shape network msg
  earlier : ∀ msg ∈ earlier, msg.complete = true
  current : ∀ msg ∈ current, msg.complete = false ∧ msg.received ≠ []

/-- The buffer as a stream that is cut. -/
def splitOf (earlier : List CNetMessage) (current : Option CNetMessage) : Split UInt8 :=
  ⟨earlier.map CNetMessage.received, (current.map CNetMessage.received).getD []⟩

theorem receiving_nil : Receiving network [] none where
  shape := by simp
  earlier := by simp
  current := by simp

theorem Receiving.currentMessage_eq {earlier : List CNetMessage} {current : Option CNetMessage}
    (h : Receiving network earlier current) :
    currentMessage network (earlier ++ current.toList) = (earlier, current.getD (CNetMessage.new network)) := by
  cases current with
  | some msg =>
    have hopen := (h.current msg rfl).1
    rw [currentMessage, Option.toList_some, List.getLast?_concat, List.dropLast_concat]
    simp [hopen]
  | none =>
    rw [Option.toList_none, List.append_nil, currentMessage]
    cases hlast : earlier.getLast? with
    | none => rfl
    | some msg => simp [h.earlier msg (List.mem_of_getLast? hlast)]

/-- The message that takes the next byte, as a part of the stream. -/
theorem Receiving.current_spec {earlier : List CNetMessage} {current : Option CNetMessage}
    (h : Receiving network earlier current) :
    let msg := current.getD (CNetMessage.new network)
    CNetMessage.Shape network msg ∧ msg.complete = false ∧
      splitOf earlier current = ⟨earlier.map CNetMessage.received, msg.received⟩ := by
  cases current with
  | none => exact ⟨CNetMessage.shape_new network, rfl, rfl⟩
  | some msg => exact ⟨h.shape msg (by simp), (h.current msg rfl).1, rfl⟩

/-- The message that has taken bytes goes to its place in the buffer. -/
theorem Receiving.absorb {earlier : List CNetMessage} {current : Option CNetMessage}
    (h : Receiving network earlier current) {msg msg' : CNetMessage} {pch : Bytes} {k : Nat}
    (habsorbs : CNetMessage.Absorbs network (earlier.map CNetMessage.received) msg msg' pch k) :
    ∃ earlier' current', earlier ++ [msg'] = earlier' ++ current'.toList ∧ Receiving network earlier' current' ∧
      CNetMessage.splitWith (earlier.map CNetMessage.received) msg' = splitOf earlier' current' := by
  have hshape : ∀ m ∈ earlier ++ [msg'], CNetMessage.Shape network m := by
    intro m hm
    rw [List.mem_append, List.mem_singleton] at hm
    cases hm with
    | inl hold => exact h.shape m (List.mem_append_left _ hold)
    | inr hnew =>
      rw [hnew]
      exact habsorbs.shape
  cases hcomplete : msg'.complete with
  | true =>
    refine ⟨earlier ++ [msg'], none, by simp, ⟨by simpa using hshape, ?_, by simp⟩, ?_⟩
    · intro m hm
      rw [List.mem_append, List.mem_singleton] at hm
      cases hm with
      | inl hold => exact h.earlier m hold
      | inr hnew =>
        rw [hnew]
        exact hcomplete
    · simp [CNetMessage.splitWith, splitOf, hcomplete]
  | false =>
    refine ⟨earlier, some msg', rfl, ⟨hshape, h.earlier, ?_⟩, ?_⟩
    · intro m hm
      obtain rfl := Option.mem_some_iff.mp hm
      refine ⟨hcomplete, ?_⟩
      rw [habsorbs.received]
      exact List.append_ne_nil_of_right_ne_nil _ (List.length_pos_iff.mp habsorbs.taken)
    · simp [CNetMessage.splitWith, splitOf, hcomplete]

/-- A buffer after some input, beside the stream after it. -/
def Follows (network : Network) (vRecvMsg : Option (List CNetMessage)) (s : Option (Split UInt8)) : Prop :=
  (vRecvMsg = none ∧ s = none) ∨ ∃ earlier current, Receiving network earlier current ∧
    vRecvMsg = some (earlier ++ current.toList) ∧ s = some (splitOf earlier current)

theorem receiveRound_spec {earlier : List CNetMessage} {current : Option CNetMessage}
    (h : Receiving network earlier current) {pch : Bytes} (hne : pch ≠ []) :
    (receiveRound network (earlier ++ current.toList) pch = none ∧
        wireFraming.feedAll (splitOf earlier current) pch = none) ∨
      ∃ earlier' current' k, 0 < k ∧ Receiving network earlier' current' ∧
        receiveRound network (earlier ++ current.toList) pch = some (earlier' ++ current'.toList, pch.drop k) ∧
          wireFraming.feedAll (splitOf earlier current) (pch.take k) = some (splitOf earlier' current') := by
  have hcurrent := h.current_spec
  dsimp only at hcurrent
  rw [receiveRound, h.currentMessage_eq, hcurrent.2.2]
  generalize current.getD (CNetMessage.new network) = msg at hcurrent ⊢
  dsimp only
  cases hphase : msg.in_data with
  | true =>
    have habsorbs := CNetMessage.readData_spec hcurrent.1 hphase hcurrent.2.1 (earlier.map CNetMessage.received) hne
    obtain ⟨earlier', current', hlist, hreceiving, hsplit⟩ := h.absorb habsorbs
    refine .inr ⟨earlier', current', _, habsorbs.pos, hreceiving, ?_, ?_⟩
    · rw [← hlist]
      rfl
    · rw [habsorbs.cut, hsplit]
  | false =>
    cases CNetMessage.readHeader_spec hcurrent.1 hphase (earlier.map CNetMessage.received) hne with
    | inl hbad =>
      refine .inl ⟨?_, hbad.2⟩
      rw [hbad.1]
      rfl
    | inr hgood =>
      obtain ⟨msg', k, hread, habsorbs⟩ := hgood
      obtain ⟨earlier', current', hlist, hreceiving, hsplit⟩ := h.absorb habsorbs
      refine .inr ⟨earlier', current', k, habsorbs.pos, hreceiving, ?_, ?_⟩
      · rw [hread, ← hlist]
        rfl
      · rw [habsorbs.cut, hsplit]

theorem receiveLoop_spec {earlier : List CNetMessage} {current : Option CNetMessage}
    (h : Receiving network earlier current) {rounds : Nat} (pch : Bytes) (hrounds : pch.length ≤ rounds) :
    Follows network (receiveLoop network rounds (earlier ++ current.toList) pch)
      (wireFraming.feedAll (splitOf earlier current) pch) := by
  induction rounds generalizing earlier current pch with
  | zero =>
    have hnil : pch = [] := List.eq_nil_of_length_eq_zero (by omega)
    rw [hnil]
    exact .inr ⟨earlier, current, h, by rw [receiveLoop, if_pos rfl], rfl⟩
  | succ rounds ih =>
    rw [receiveLoop]
    by_cases hne : pch = []
    · rw [if_pos hne, hne]
      exact .inr ⟨earlier, current, h, rfl, rfl⟩
    · rw [if_neg hne]
      cases receiveRound_spec h hne with
      | inl hbad =>
        refine .inl ⟨?_, hbad.2⟩
        simp only [hbad.1, Option.bind_none]
      | inr hgood =>
        obtain ⟨earlier', current', k, hpos, hreceiving, hround, hcut⟩ := hgood
        have hlen : 0 < pch.length := List.length_pos_iff.mpr hne
        simp only [hround, Option.bind_some]
        have hrest := ih hreceiving (pch.drop k) (by rw [List.length_drop]; omega)
        have hfeed : wireFraming.feedAll (splitOf earlier current) pch =
            wireFraming.feedAll (splitOf earlier' current') (pch.drop k) := by
          rw [← List.take_append_drop k pch, wireFraming.feedAll_append, hcut, Option.bind_some,
            List.take_append_drop]
        rw [hfeed]
        exact hrest

/-- The buffer is the stream cut byte by byte, whatever the pieces. -/
theorem receiveChunks_spec {earlier : List CNetMessage} {current : Option CNetMessage}
    (h : Receiving network earlier current) (chunks : List Bytes) :
    Follows network (chunks.foldlM (receiveMsgBytes network) (earlier ++ current.toList))
      (wireFraming.feedAll (splitOf earlier current) chunks.flatten) := by
  induction chunks generalizing earlier current with
  | nil => exact .inr ⟨earlier, current, h, rfl, rfl⟩
  | cons chunk chunks ih =>
    rw [List.foldlM_cons, List.flatten_cons, wireFraming.feedAll_append]
    cases receiveLoop_spec h chunk (le_refl chunk.length) with
    | inl hbad =>
      rw [receiveMsgBytes, hbad.1, hbad.2]
      exact .inl ⟨rfl, rfl⟩
    | inr hgood =>
      obtain ⟨earlier', current', hreceiving, hlist, hsplit⟩ := hgood
      rw [receiveMsgBytes, hlist, hsplit]
      exact ih hreceiving

theorem map_settled_eq {l l' : List CNetMessage} (hl : ∀ msg ∈ l, CNetMessage.Shape network msg)
    (hl' : ∀ msg ∈ l', CNetMessage.Shape network msg)
    (heq : l.map CNetMessage.received = l'.map CNetMessage.received) :
    l.map CNetMessage.settled = l'.map CNetMessage.settled := by
  induction l generalizing l' with
  | nil =>
    cases l' with
    | nil => rfl
    | cons msg' l' => cases heq
  | cons msg l ih =>
    cases l' with
    | nil => cases heq
    | cons msg' l' =>
      rw [List.map_cons, List.map_cons, List.cons.injEq] at heq
      rw [List.map_cons, List.map_cons, (hl msg List.mem_cons_self).settled_unique (hl' msg' List.mem_cons_self) heq.1,
        ih (fun m hm => hl m (List.mem_cons_of_mem _ hm)) (fun m hm => hl' m (List.mem_cons_of_mem _ hm)) heq.2]

/-- The stream determines the buffer, up to the room made ahead. -/
theorem Receiving.settled_unique {earlier earlier' : List CNetMessage} {current current' : Option CNetMessage}
    (h : Receiving network earlier current) (h' : Receiving network earlier' current')
    (heq : splitOf earlier current = splitOf earlier' current') :
    (earlier ++ current.toList).map CNetMessage.settled = (earlier' ++ current'.toList).map CNetMessage.settled := by
  rw [splitOf, splitOf, Split.mk.injEq] at heq
  apply map_settled_eq h.shape h'.shape
  rw [List.map_append, List.map_append, heq.1]
  congr 1
  cases current with
  | none =>
    cases current' with
    | none => rfl
    | some msg' => exact absurd heq.2.symm (h'.current msg' rfl).2
  | some msg =>
    cases current' with
    | none => exact absurd heq.2 (h.current msg rfl).2
    | some msg' => exact congrArg (fun bytes => [bytes]) heq.2

/-- However the bytes are cut into pieces, the messages are the same, and complete ones hold exactly their data. -/
theorem receiveMsgBytes_chunks {earlier : List CNetMessage} {current : Option CNetMessage}
    (h : Receiving network earlier current) {chunks₁ chunks₂ : List Bytes} (heq : chunks₁.flatten = chunks₂.flatten) :
    ((chunks₁.foldlM (receiveMsgBytes network) (earlier ++ current.toList)).map (List.map CNetMessage.settled) =
      (chunks₂.foldlM (receiveMsgBytes network) (earlier ++ current.toList)).map (List.map CNetMessage.settled)) ∧
    ∀ vRecvMsg, chunks₁.foldlM (receiveMsgBytes network) (earlier ++ current.toList) = some vRecvMsg →
      ∀ msg ∈ vRecvMsg, msg.complete = true →
        msg.settled = msg ∧ msg.vRecv.length = msg.hdr.nMessageSize.toNat ∧ msg.hdr.nMessageSize.toNat ≤ MAX_SIZE := by
  have h₁ := receiveChunks_spec h chunks₁
  have h₂ := receiveChunks_spec h chunks₂
  rw [heq] at h₁
  constructor
  · cases h₁ with
    | inl hbad₁ =>
      cases h₂ with
      | inl hbad₂ => rw [hbad₁.1, hbad₂.1]
      | inr hgood₂ =>
        obtain ⟨_, _, _, _, hsplit⟩ := hgood₂
        exact absurd (hbad₁.2.symm.trans hsplit) (by simp)
    | inr hgood₁ =>
      obtain ⟨earlier₁, current₁, hreceiving₁, hlist₁, hsplit₁⟩ := hgood₁
      cases h₂ with
      | inl hbad₂ => exact absurd (hbad₂.2.symm.trans hsplit₁) (by simp)
      | inr hgood₂ =>
        obtain ⟨earlier₂, current₂, hreceiving₂, hlist₂, hsplit₂⟩ := hgood₂
        rw [hlist₁, hlist₂, Option.map_some, Option.map_some,
          hreceiving₁.settled_unique hreceiving₂ (Option.some.inj (hsplit₁.symm.trans hsplit₂))]
  · intro vRecvMsg hrun msg hmsg hcomplete
    cases h₁ with
    | inl hbad => exact absurd (hbad.1.symm.trans hrun) (by simp)
    | inr hgood =>
      obtain ⟨earlier', current', hreceiving, hlist, -⟩ := hgood
      rw [Option.some.inj (hrun.symm.trans hlist)] at hmsg
      have hshape := hreceiving.shape msg hmsg
      have hfull := hshape.of_complete hcomplete
      have hdata := hshape.data (CNetMessage.complete_iff.mp hcomplete).1
      exact ⟨hfull.2.1, hfull.1, hdata.2.2.2.1⟩

/-- A header that announces two bytes. -/
def announceTwo : Bytes := (CMessageHeader.new .main [0x76] 2).bytes

/-- The first of the two bytes comes with the header, the second with a byte of the next message. -/
theorem receiveMsgBytes_chunks_twoBytes :
    ([announceTwo ++ [7], [8, 0xb5]].foldlM (receiveMsgBytes .main) ([] ++ none.toList)).map
        (List.map CNetMessage.settled) =
      ([announceTwo ++ [7, 8, 0xb5]].foldlM (receiveMsgBytes .main) ([] ++ none.toList)).map
        (List.map CNetMessage.settled) :=
  (receiveMsgBytes_chunks receiving_nil (by simp)).1

end Stream

end AliasWallet
