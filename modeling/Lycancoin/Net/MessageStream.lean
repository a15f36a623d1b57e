import Lycancoin.Data.Framing
import Lycancoin.Net.NetMessage
import Lycancoin.Primitives.RoundTrip

namespace Lycancoin

open Lycancoin.Data

section Buffers

variable {buffer bytes : List UInt8} {position : Nat}

theorem unsignedSub_of_le {a b : Nat} (le : b ≤ a) (small : a < 2 ^ 32) :
    unsignedSub a b = a - b := by
  rw [unsignedSub]
  omega

theorem memcpy_spec (fits : position + bytes.length ≤ buffer.length) :
    ∃ copied, memcpy buffer position bytes = some copied ∧ copied.length = buffer.length ∧
      copied.take (position + bytes.length) = buffer.take position ++ bytes := by
  have front : (buffer.take position).length = position := by
    rw [List.length_take]
    omega
  have copied : overwrite 0 buffer position bytes =
      buffer.take position ++ bytes ++ buffer.drop (position + bytes.length) := by
    rw [overwrite, show position - buffer.length = 0 by omega, List.replicate_zero,
      List.append_nil]
  refine ⟨_, if_pos fits, ?_, ?_⟩
  · rw [copied, List.length_append, List.length_append, front, List.length_drop]
    omega
  · rw [copied]
    apply List.take_left'
    rw [List.length_append, front]

theorem length_resize (buffer : List UInt8) (size : Nat) : (resize buffer size).length = size := by
  rw [resize, List.length_append, List.length_take, List.length_replicate]
  omega

theorem take_resize {count size : Nat} (old : count ≤ buffer.length) (kept : count ≤ size) :
    (resize buffer size).take count = buffer.take count := by
  rw [resize, List.take_append_of_le_length, List.take_take, min_eq_left kept]
  rw [List.length_take]
  omega

end Buffers

namespace CMessageHeader

def ofBytes (bytes : List UInt8) : CMessageHeader where
  pchMessageStart := bytes.take 4
  pchCommand := (bytes.drop 4).take 12
  nMessageSize := UInt32.ofNat (littleEndian ((bytes.drop 16).take 4))
  nChecksum := UInt32.ofNat (littleEndian ((bytes.drop 20).take 4))

theorem reads_uint32 (stream : List UInt8) (enough : 4 ≤ stream.length) :
    unserializeUInt32.run stream =
      .ok (UInt32.ofNat (littleEndian (stream.take 4)), stream.drop 4) := by
  apply Reader.run_bind_eq_ok.mpr
  refine ⟨littleEndian (stream.take 4), stream.drop 4, ?_, rfl⟩
  apply Reader.run_bind_eq_ok.mpr
  refine ⟨stream.take 4, stream.drop 4, ?_, rfl⟩
  apply Reader.run_take_eq_ok.mpr
  exact ⟨(List.take_append_drop 4 stream).symm, List.length_take_of_le enough⟩

theorem unserialize_eq {bytes : List UInt8} (length : bytes.length = HEADER_SIZE) :
    unserialize.run bytes = .ok (ofBytes bytes, []) := by
  change bytes.length = 24 at length
  have nMessageSize := reads_uint32 (bytes.drop 16) (by rw [List.length_drop]; omega)
  have nChecksum := reads_uint32 (bytes.drop 20) (by rw [List.length_drop]; omega)
  have split : bytes.drop 4 = (bytes.drop 4).take 12 ++ bytes.drop 16 := by
    have parts := List.take_append_drop 12 (bytes.drop 4)
    rw [List.drop_drop] at parts
    exact parts.symm
  rw [List.drop_drop] at nMessageSize nChecksum
  have nothing : bytes.drop (20 + 4) = [] := List.drop_eq_nil_iff.mpr length.le
  rw [nothing] at nChecksum
  apply Reader.run_bind_eq_ok.mpr
  refine ⟨bytes.take 4, bytes.drop 4, ?_, ?_⟩
  · apply Reader.run_take_eq_ok.mpr
    exact ⟨(List.take_append_drop 4 bytes).symm, List.length_take_of_le (by omega)⟩
  · apply Reader.run_bind_eq_ok.mpr
    refine ⟨(bytes.drop 4).take 12, bytes.drop 16, ?_, ?_⟩
    · apply Reader.run_take_eq_ok.mpr
      refine ⟨split, ?_⟩
      rw [List.length_take, List.length_drop, length]
      rfl
    · apply Reader.run_bind_eq_ok.mpr
      refine ⟨_, _, nMessageSize, ?_⟩
      apply Reader.run_bind_eq_ok.mpr
      exact ⟨_, _, nChecksum, rfl⟩

end CMessageHeader

def messageFraming : Framing UInt8 where
  headerSize := HEADER_SIZE
  payloadSize header :=
    let nMessageSize := (CMessageHeader.ofBytes header).nMessageSize.toNat
    if nMessageSize ≤ MAX_PROTOCOL_MESSAGE_LENGTH then some nMessageSize else none

namespace CNetMessage

variable {messageStart : MessageStart} {msg : CNetMessage} {tokens pch frame : List UInt8}
  {state : Unframed UInt8} {vRecvMsg : List CNetMessage}

/-- The complete message with the given bytes. -/
def ofFrame (frame : List UInt8) : CNetMessage where
  inData := true
  hdrbuf := []
  hdr := CMessageHeader.ofBytes (frame.take HEADER_SIZE)
  nHdrPos := HEADER_SIZE
  vRecv := frame.drop HEADER_SIZE
  nDataPos := frame.length - HEADER_SIZE

inductive PartOf (tokens : List UInt8) : CNetMessage → Prop
  | header {hdrbuf : List UInt8} {hdr : CMessageHeader} (short : tokens.length < HEADER_SIZE)
      (room : hdrbuf.length = HEADER_SIZE) (copied : hdrbuf.take tokens.length = tokens) :
      PartOf tokens ⟨false, hdrbuf, hdr, tokens.length, [], 0⟩
  | data {vRecv : List UInt8} {size : Nat} (long : HEADER_SIZE ≤ tokens.length)
      (known : messageFraming.payloadSize (tokens.take HEADER_SIZE) = some size)
      (short : tokens.length < HEADER_SIZE + size)
      (room : tokens.length - HEADER_SIZE ≤ vRecv.length) (bound : vRecv.length ≤ size)
      (copied : vRecv.take (tokens.length - HEADER_SIZE) = tokens.drop HEADER_SIZE) :
      PartOf tokens ⟨true, [], CMessageHeader.ofBytes (tokens.take HEADER_SIZE), HEADER_SIZE, vRecv,
        tokens.length - HEADER_SIZE⟩

theorem payloadSize_eq_some {header : List UInt8} {size : Nat}
    (known : messageFraming.payloadSize header = some size) :
    (CMessageHeader.ofBytes header).nMessageSize.toNat = size ∧
      size ≤ MAX_PROTOCOL_MESSAGE_LENGTH := by
  simp only [messageFraming] at known
  split at known
  · rename_i small
    cases known
    exact ⟨rfl, small⟩
  · contradiction

theorem PartOf.incomplete (part : PartOf tokens msg) : msg.complete = false := by
  cases part with
  | header => rfl
  | data long known short =>
      obtain ⟨isSize, _⟩ := payloadSize_eq_some known
      simp only [complete, Bool.not_true, Bool.false_eq_true, if_false, decide_eq_false_iff_not]
      omega

theorem PartOf.start (messageStart : MessageStart) : PartOf [] (ofStart messageStart) :=
  .header (by decide) rfl rfl

theorem complete_ofFrame (framed : messageFraming.Framed frame) :
    (ofFrame frame).complete = true := by
  obtain ⟨size, known, length⟩ := framed
  obtain ⟨isSize, _⟩ := payloadSize_eq_some known
  change frame.length = HEADER_SIZE + size at length
  change (CMessageHeader.ofBytes (frame.take HEADER_SIZE)).nMessageSize.toNat = size at isSize
  have inside : frame.length - HEADER_SIZE = size := by
    rw [length, Nat.add_sub_cancel_left]
  change decide ((CMessageHeader.ofBytes (frame.take HEADER_SIZE)).nMessageSize.toNat =
    frame.length - HEADER_SIZE) = true
  rw [inside, decide_eq_true_eq]
  exact isSize

/-- The messages of a receiver against the frames of the bytes that it got. -/
structure Receives (state : Unframed UInt8) (vRecvMsg : List CNetMessage) : Prop where
  framed : ∀ frame ∈ state.frames, messageFraming.Framed frame
  back : ∀ messageStart, ∃ msg, PartOf state.tokens msg ∧
    backOrNew messageStart vRecvMsg = (state.frames.map ofFrame, msg)
  messages : vRecvMsg.filter complete = state.frames.map ofFrame

theorem Receives.empty : Receives ⟨[], []⟩ [] where
  framed frame member := by contradiction
  back messageStart := ⟨ofStart messageStart, PartOf.start messageStart, rfl⟩
  messages := rfl

theorem filter_complete_map {frames : List (List UInt8)}
    (framed : ∀ frame ∈ frames, messageFraming.Framed frame) :
    (frames.map ofFrame).filter complete = frames.map ofFrame := by
  rw [List.filter_eq_self]
  intro msg member
  obtain ⟨frame, inFrames, rfl⟩ := List.mem_map.mp member
  exact complete_ofFrame (framed frame inFrames)

/-- A message that is not complete behind the complete ones. -/
theorem Receives.ofPart (framed : ∀ frame ∈ state.frames, messageFraming.Framed frame)
    (part : PartOf state.tokens msg) : Receives state (state.frames.map ofFrame ++ [msg]) where
  framed := framed
  back messageStart := by
    refine ⟨msg, part, ?_⟩
    rw [backOrNew, List.getLast?_concat]
    simp only [part.incomplete, List.dropLast_concat]
    rfl
  messages := by
    rw [List.filter_append, filter_complete_map framed]
    simp [part.incomplete]

theorem Receives.ofWhole (framed : ∀ frame ∈ state.frames, messageFraming.Framed frame)
    (whole : messageFraming.Framed frame) :
    Receives ⟨state.frames ++ [frame], []⟩ (state.frames.map ofFrame ++ [ofFrame frame]) where
  framed other member := by
    rcases List.mem_append.mp member with earlier | last
    · exact framed other earlier
    · rw [List.mem_singleton.mp last]
      exact whole
  back messageStart := by
    refine ⟨ofStart messageStart, PartOf.start messageStart, ?_⟩
    rw [backOrNew, List.getLast?_concat]
    simp only [complete_ofFrame whole, List.map_append, List.map_cons, List.map_nil]
    rfl
  messages := by
    rw [List.filter_append, filter_complete_map framed, List.map_append]
    simp [complete_ofFrame whole]

/-- The bytes of a header that fit into a call. -/
theorem readHeader_spec {hdrbuf : List UInt8} {hdr : CMessageHeader}
    (framed : ∀ frame ∈ state.frames, messageFraming.Framed frame)
    (short : state.tokens.length < HEADER_SIZE) (room : hdrbuf.length = HEADER_SIZE)
    (copied : hdrbuf.take state.tokens.length = state.tokens) (some : pch ≠ []) :
    ∃ count handled msg,
      readHeader pch ⟨false, hdrbuf, hdr, state.tokens.length, [], 0⟩ = Option.some (handled, msg) ∧
        0 < count ∧ count ≤ pch.length ∧
        match messageFraming.feed state (pch.take count) with
        | .ok after =>
            handled = count ∧
              ¬(msg.inData = true ∧ MAX_PROTOCOL_MESSAGE_LENGTH < msg.hdr.nMessageSize.toNat) ∧
              Receives after (state.frames.map ofFrame ++ [msg])
        | .error after =>
            (handled < 0 ∨
              (msg.inData = true ∧ MAX_PROTOCOL_MESSAGE_LENGTH < msg.hdr.nMessageSize.toNat)) ∧
              msg.complete = false ∧ after.frames = state.frames := by
  have isSize : HEADER_SIZE = 24 := rfl
  have positive := List.length_pos_iff.mpr some
  have nRemaining : unsignedSub HEADER_SIZE state.tokens.length = HEADER_SIZE - state.tokens.length :=
    unsignedSub_of_le short.le (by decide)
  obtain ⟨count, isCount⟩ : ∃ count, count = min (HEADER_SIZE - state.tokens.length) pch.length :=
    ⟨_, rfl⟩
  have length : (pch.take count).length = count := by
    rw [List.length_take]
    omega
  have fits : state.tokens.length + (pch.take count).length ≤ hdrbuf.length := by omega
  obtain ⟨filled, returned, sameRoom, front⟩ := memcpy_spec fits
  rw [copied, length] at front
  rcases Nat.lt_or_ge (state.tokens.length + count) HEADER_SIZE with still | full
  · have together : (state.tokens ++ pch.take count).length = state.tokens.length + count := by
      rw [List.length_append, length]
    refine ⟨count, count, ⟨false, filled, hdr, state.tokens.length + count, [], 0⟩, ?_, by omega,
      by omega, ?_⟩
    · simp only [readHeader, nRemaining, ← isCount, returned, Option.bind_eq_bind, Option.bind_some]
      rw [if_pos still]
    · have fed : messageFraming.feed state (pch.take count) =
          .ok { state with tokens := state.tokens ++ pch.take count } :=
        Framing.feed_short (by rw [length]; exact still)
      have part : PartOf (state.tokens ++ pch.take count)
          ⟨false, filled, hdr, (state.tokens ++ pch.take count).length, [], 0⟩ :=
        .header (by rw [together]; exact still) (sameRoom.trans room) (by rw [together]; exact front)
      rw [together] at part
      rw [fed]
      refine ⟨rfl, ?_, Receives.ofPart framed part⟩
      intro ⟨impossible, _⟩
      contradiction
  · have ends : state.tokens.length + count = HEADER_SIZE := by omega
    have whole : filled = state.tokens ++ pch.take count := by
      rw [← front, ends]
      exact (List.take_of_length_le (sameRoom.trans room).le).symm
    have read := CMessageHeader.unserialize_eq (sameRoom.trans room)
    rw [whole] at read
    have fed : messageFraming.feed state (pch.take count) = _ :=
      Framing.feed_header short (by rw [length]; exact ends)
    have known : messageFraming.payloadSize (state.tokens ++ pch.take count) =
        if (CMessageHeader.ofBytes (state.tokens ++ pch.take count)).nMessageSize.toNat ≤
          MAX_PROTOCOL_MESSAGE_LENGTH then
          Option.some (CMessageHeader.ofBytes (state.tokens ++ pch.take count)).nMessageSize.toNat
        else none := rfl
    have together : (state.tokens ++ pch.take count).length = HEADER_SIZE := by
      rw [List.length_append, length, ends]
    generalize state.tokens ++ pch.take count = header at whole read fed known together
    have protocolLimit : MAX_PROTOCOL_MESSAGE_LENGTH < MAX_SIZE := by decide
    have result : readHeader pch ⟨false, hdrbuf, hdr, state.tokens.length, [], 0⟩ =
        if MAX_SIZE < (CMessageHeader.ofBytes header).nMessageSize.toNat then
          Option.some ((-1 : Int),
            CNetMessage.mk false [] (CMessageHeader.ofBytes header) HEADER_SIZE [] 0)
        else Option.some ((count : Int),
          CNetMessage.mk true [] (CMessageHeader.ofBytes header) HEADER_SIZE [] 0) := by
      simp only [readHeader, nRemaining, ← isCount, returned, Option.bind_eq_bind,
        Option.bind_some, ends, lt_irrefl, if_false, whole, read]
    have itself : header.take HEADER_SIZE = header := List.take_of_length_le together.le
    by_cases large : MAX_SIZE < (CMessageHeader.ofBytes header).nMessageSize.toNat
    · rw [if_pos large] at result
      rw [if_neg (by omega)] at known
      rw [known] at fed
      refine ⟨count, _, _, result, by omega, by omega, ?_⟩
      rw [fed]
      exact ⟨Or.inl (by decide), rfl, rfl⟩
    · rw [if_neg large] at result
      by_cases oversized :
          MAX_PROTOCOL_MESSAGE_LENGTH < (CMessageHeader.ofBytes header).nMessageSize.toNat
      · rw [if_neg (by omega)] at known
        rw [known] at fed
        refine ⟨count, _, _, result, by omega, by omega, ?_⟩
        rw [fed]
        refine ⟨Or.inr ⟨rfl, oversized⟩, ?_, rfl⟩
        change decide ((CMessageHeader.ofBytes header).nMessageSize.toNat = 0) = false
        rw [decide_eq_false_iff_not]
        omega
      · rw [if_pos (by omega)] at known
        have inRange : ¬(true = true ∧ MAX_PROTOCOL_MESSAGE_LENGTH <
            (CMessageHeader.ofBytes header).nMessageSize.toNat) := fun both => oversized both.2
        refine ⟨count, _, _, result, by omega, by omega, ?_⟩
        rcases Nat.eq_zero_or_pos (CMessageHeader.ofBytes header).nMessageSize.toNat with size | size
        · rw [size] at known
          rw [known] at fed
          rw [fed]
          have framed' : messageFraming.Framed header := ⟨0, by
            change messageFraming.payloadSize (header.take HEADER_SIZE) = _
            rw [itself]
            exact known, together⟩
          have isFrame : ofFrame header =
              ⟨true, [], CMessageHeader.ofBytes header, HEADER_SIZE, [], 0⟩ := by
            rw [ofFrame, itself, together, List.drop_eq_nil_iff.mpr together.le, Nat.sub_self]
          refine ⟨rfl, inRange, ?_⟩
          rw [← isFrame]
          exact Receives.ofWhole framed framed'
        · obtain ⟨rest, size⟩ := Nat.exists_eq_succ_of_ne_zero size.ne'
          rw [size] at known
          rw [known] at fed
          rw [fed]
          have part : PartOf header ⟨true, [], CMessageHeader.ofBytes (header.take HEADER_SIZE),
              HEADER_SIZE, [], header.length - HEADER_SIZE⟩ := by
            have nothing : header.length - HEADER_SIZE = 0 := by omega
            refine .data together.ge (by rw [itself]; exact known) (by omega)
              (by rw [nothing]; exact Nat.zero_le _) (Nat.zero_le _) ?_
            rw [List.drop_eq_nil_iff.mpr together.le, List.take_nil]
          rw [itself, together, Nat.sub_self] at part
          exact ⟨rfl, inRange, Receives.ofPart framed part⟩

/-- The room that `readData` makes is enough for what it copies. -/
theorem room_spec {vRecv copied : List UInt8} {nDataPos nCopy size : Nat}
    (room : nDataPos ≤ vRecv.length) (bound : vRecv.length ≤ size) (inside : nDataPos + nCopy ≤ size)
    (old : vRecv.take nDataPos = copied) :
    ∃ buffer, (if vRecv.length < nDataPos + nCopy then
        resize vRecv (min size (nDataPos + nCopy + 256 * 1024)) else vRecv) = buffer ∧
      nDataPos + nCopy ≤ buffer.length ∧ buffer.length ≤ size ∧ buffer.take nDataPos = copied := by
  split_ifs with short
  · refine ⟨_, rfl, ?_, ?_, ?_⟩
    · rw [length_resize]
      omega
    · rw [length_resize]
      omega
    · rw [take_resize room (by omega)]
      exact old
  · exact ⟨_, rfl, by omega, bound, old⟩

theorem readData_spec {vRecv : List UInt8} {size : Nat}
    (framed : ∀ frame ∈ state.frames, messageFraming.Framed frame)
    (long : HEADER_SIZE ≤ state.tokens.length)
    (known : messageFraming.payloadSize (state.tokens.take HEADER_SIZE) = some size)
    (short : state.tokens.length < HEADER_SIZE + size)
    (room : state.tokens.length - HEADER_SIZE ≤ vRecv.length) (bound : vRecv.length ≤ size)
    (copied : vRecv.take (state.tokens.length - HEADER_SIZE) = state.tokens.drop HEADER_SIZE)
    (some : pch ≠ []) :
    ∃ (count : Nat) (msg : CNetMessage) (after : Unframed UInt8),
      readData pch ⟨true, [], CMessageHeader.ofBytes (state.tokens.take HEADER_SIZE), HEADER_SIZE,
          vRecv, state.tokens.length - HEADER_SIZE⟩ = Option.some ((count : Int), msg) ∧
        0 < count ∧ count ≤ pch.length ∧
        messageFraming.feed state (pch.take count) = .ok after ∧
        msg.hdr.nMessageSize.toNat ≤ MAX_PROTOCOL_MESSAGE_LENGTH ∧
        Receives after (state.frames.map ofFrame ++ [msg]) := by
  obtain ⟨isSize, small⟩ := payloadSize_eq_some known
  have header : (state.tokens.take HEADER_SIZE).length = messageFraming.headerSize :=
    List.length_take_of_le long
  have starts : state.tokens.take HEADER_SIZE <+: state.tokens := List.take_prefix _ _
  have positive := List.length_pos_iff.mpr some
  have nRemaining : unsignedSub size (state.tokens.length - HEADER_SIZE) =
      size - (state.tokens.length - HEADER_SIZE) :=
    unsignedSub_of_le (by omega) (lt_of_le_of_lt small (by decide))
  obtain ⟨count, isCount⟩ : ∃ count,
      count = min (size - (state.tokens.length - HEADER_SIZE)) pch.length := ⟨_, rfl⟩
  have length : (pch.take count).length = count := by
    rw [List.length_take]
    omega
  have together : (state.tokens ++ pch.take count).length = state.tokens.length + count := by
    rw [List.length_append, length]
  obtain ⟨buffer, isBuffer, enough, most, front⟩ :=
    room_spec room bound (by omega : state.tokens.length - HEADER_SIZE + count ≤ size) copied
  have fits : state.tokens.length - HEADER_SIZE + (pch.take count).length ≤ buffer.length := by
    rw [length]
    exact enough
  obtain ⟨filled, returned, sameRoom, filledFront⟩ := memcpy_spec fits
  rw [front, length] at filledFront
  have payload : (state.tokens ++ pch.take count).drop HEADER_SIZE =
      state.tokens.drop HEADER_SIZE ++ pch.take count := List.drop_append_of_le_length long
  have sameHeader : (state.tokens ++ pch.take count).take HEADER_SIZE =
      state.tokens.take HEADER_SIZE := List.take_append_of_le_length long
  have result : readData pch ⟨true, [], CMessageHeader.ofBytes (state.tokens.take HEADER_SIZE),
      HEADER_SIZE, vRecv, state.tokens.length - HEADER_SIZE⟩ = Option.some ((count : Int),
        CNetMessage.mk true [] (CMessageHeader.ofBytes (state.tokens.take HEADER_SIZE)) HEADER_SIZE
          filled (state.tokens.length - HEADER_SIZE + count)) := by
    simp only [readData, isSize, nRemaining, ← isCount, isBuffer, returned, Option.bind_eq_bind,
      Option.bind_some]
  have position : state.tokens.length - HEADER_SIZE + count =
      (state.tokens ++ pch.take count).length - HEADER_SIZE := by omega
  rw [position, ← payload] at filledFront
  rw [position] at result
  rcases Nat.lt_or_ge (state.tokens.length + count) (HEADER_SIZE + size) with still | full
  · have fed : messageFraming.feed state (pch.take count) =
        .ok { state with tokens := state.tokens ++ pch.take count } :=
      Framing.feed_within known header starts (by rw [length]; exact still)
    have part : PartOf (state.tokens ++ pch.take count) ⟨true, [],
        CMessageHeader.ofBytes ((state.tokens ++ pch.take count).take HEADER_SIZE), HEADER_SIZE,
        filled, (state.tokens ++ pch.take count).length - HEADER_SIZE⟩ :=
      .data (by omega) (by rw [sameHeader]; exact known) (by omega) (by omega) (by omega)
        filledFront
    rw [sameHeader] at part
    refine ⟨count, _, _, result, by omega, by omega, fed, ?_, Receives.ofPart framed part⟩
    exact le_of_eq_of_le isSize small
  · have fed : messageFraming.feed state (pch.take count) =
        .ok ⟨state.frames ++ [state.tokens ++ pch.take count], []⟩ := by
      apply Framing.feed_payload known header starts
      · intro nothing
        rw [nothing] at length
        change 0 = count at length
        omega
      · rw [length]
        exact (by omega : state.tokens.length + count = HEADER_SIZE + size)
    have whole : messageFraming.Framed (state.tokens ++ pch.take count) := by
      refine ⟨size, ?_, ?_⟩
      · change messageFraming.payloadSize ((state.tokens ++ pch.take count).take HEADER_SIZE) = _
        rw [sameHeader]
        exact known
      · rw [together]
        exact (by omega : state.tokens.length + count = HEADER_SIZE + size)
    have isFrame : ofFrame (state.tokens ++ pch.take count) = ⟨true, [],
        CMessageHeader.ofBytes (state.tokens.take HEADER_SIZE), HEADER_SIZE, filled,
        (state.tokens ++ pch.take count).length - HEADER_SIZE⟩ := by
      have all : (state.tokens ++ pch.take count).drop HEADER_SIZE = filled := by
        rw [← filledFront]
        exact List.take_of_length_le (by omega)
      rw [ofFrame, sameHeader, all]
    refine ⟨count, _, _, result, by omega, by omega, fed, le_of_eq_of_le isSize small, ?_⟩
    rw [← isFrame]
    exact Receives.ofWhole framed whole

/-- A call goes through the frames that its bytes complete. -/
theorem receiveLoop_spec (messageStart : MessageStart) (rounds : Nat) (enough : pch.length ≤ rounds)
    (receives : Receives state vRecvMsg) :
    ∃ fOk received, receiveLoop messageStart rounds pch vRecvMsg = some (fOk, received) ∧
      match messageFraming.feed state pch with
      | .ok after => fOk = true ∧ Receives after received
      | .error after => fOk = false ∧ received.filter complete = after.frames.map ofFrame := by
  induction rounds generalizing pch state vRecvMsg with
  | zero =>
      have nothing := List.length_eq_zero_iff.mp (Nat.le_zero.mp enough)
      subst nothing
      exact ⟨true, vRecvMsg, rfl, rfl, receives⟩
  | succ rounds ih =>
      cases pch with
      | nil => exact ⟨true, vRecvMsg, rfl, rfl, receives⟩
      | cons byte bytes =>
          obtain ⟨msg, part, back⟩ := receives.back messageStart
          have rest : ∀ {count : Nat} {handled : Int} {next : CNetMessage} {middle : Unframed UInt8},
              0 < count → handled = count →
              messageFraming.feed state ((byte :: bytes).take count) = .ok middle →
              Receives middle (state.frames.map ofFrame ++ [next]) →
              ∃ fOk received, receiveLoop messageStart rounds
                  ((byte :: bytes).drop handled.toNat) (state.frames.map ofFrame ++ [next]) =
                    some (fOk, received) ∧
                match messageFraming.feed state (byte :: bytes) with
                | .ok after => fOk = true ∧ Receives after received
                | .error after =>
                    fOk = false ∧ received.filter complete = after.frames.map ofFrame := by
            intro count handled next middle positive isCount fed receivesNext
            have fewer : ((byte :: bytes).drop count).length ≤ rounds := by
              rw [List.length_drop]
              rw [List.length_cons] at enough ⊢
              omega
            have later := ih fewer receivesNext
            have whole : messageFraming.feed state
                ((byte :: bytes).take count ++ (byte :: bytes).drop count) = _ :=
              Framing.feed_append ..
            rw [List.take_append_drop, fed] at whole
            rw [isCount, Int.toNat_natCast, whole]
            exact later
          rw [receiveLoop]
          simp only [back, Option.bind_eq_bind]
          generalize isTokens : state.tokens = tokens at part
          cases part with
          | header short room copied =>
              subst isTokens
              obtain ⟨count, handled, next, returned, positive, inside, outcome⟩ :=
                readHeader_spec receives.framed short room copied (List.cons_ne_nil byte bytes)
              rw [if_neg Bool.false_ne_true, returned, Option.bind_some]
              cases fed : messageFraming.feed state ((byte :: bytes).take count) with
              | ok middle =>
                  rw [fed] at outcome
                  obtain ⟨isCount, inRange, receivesNext⟩ := outcome
                  simp only
                  rw [if_neg (by omega), if_neg inRange]
                  exact rest positive isCount fed receivesNext
              | error middle =>
                  rw [fed] at outcome
                  obtain ⟨failed, incomplete, frames⟩ := outcome
                  have whole : messageFraming.feed state
                      ((byte :: bytes).take count ++ (byte :: bytes).drop count) = _ :=
                    Framing.feed_append ..
                  rw [List.take_append_drop, fed] at whole
                  have messages : (state.frames.map ofFrame ++ [next]).filter complete =
                      middle.frames.map ofFrame := by
                    rw [List.filter_append, filter_complete_map receives.framed, frames]
                    simp [incomplete]
                  refine ⟨false, state.frames.map ofFrame ++ [next], ?_, ?_⟩
                  · simp only
                    rcases failed with negative | oversized
                    · rw [if_pos negative]
                    · rw [if_pos oversized, ite_self]
                  · rw [whole]
                    exact ⟨rfl, messages⟩
          | data long known short room bound copied =>
              subst isTokens
              obtain ⟨count, next, middle, returned, positive, inside, fed, small, receivesNext⟩ :=
                readData_spec receives.framed long known short room bound copied
                  (List.cons_ne_nil byte bytes)
              rw [if_pos rfl, returned, Option.bind_some]
              simp only
              rw [if_neg (by omega), if_neg (fun both => absurd both.2 (by omega))]
              exact rest positive rfl fed receivesNext

/-- The calls for a stream end as the stream as a whole tells. -/
theorem receiveAll_spec (messageStart : MessageStart) (chunks : List (List UInt8))
    (receives : Receives state vRecvMsg) :
    ∃ fOk received, receiveAll messageStart chunks vRecvMsg = some (fOk, received) ∧
      match messageFraming.feed state chunks.flatten with
      | .ok after => fOk = true ∧ Receives after received
      | .error after => fOk = false ∧ received.filter complete = after.frames.map ofFrame := by
  induction chunks generalizing state vRecvMsg with
  | nil => exact ⟨true, vRecvMsg, rfl, rfl, receives⟩
  | cons pch chunks ih =>
      obtain ⟨fOk, received, returned, outcome⟩ :=
        receiveLoop_spec messageStart pch.length le_rfl receives
      have whole : messageFraming.feed state (pch ++ chunks.flatten) = _ :=
        Framing.feed_append ..
      rw [List.flatten_cons, whole, receiveAll, receiveMsgBytes, returned]
      cases fed : messageFraming.feed state pch with
      | ok middle =>
          rw [fed] at outcome
          obtain ⟨rfl, receivesMiddle⟩ := outcome
          exact ih receivesMiddle
      | error middle =>
          rw [fed] at outcome
          obtain ⟨rfl, messages⟩ := outcome
          exact ⟨false, received, rfl, rfl, messages⟩

/-- What a receiver tells of a stream: whether some call returned false, and the
complete messages. -/
def outcome (messageStart : MessageStart) (chunks : List (List UInt8)) :
    Option (Bool × List CNetMessage) :=
  (receiveAll messageStart chunks []).map fun (fOk, vRecvMsg) => (fOk, vRecvMsg.filter complete)

/-- The outcome is there, and it does not depend on how the stream is divided. -/
theorem outcome_eq (messageStart : MessageStart) (chunks : List (List UInt8)) :
    ∃ result, outcome messageStart chunks = some result ∧
      result = match messageFraming.feed ⟨[], []⟩ chunks.flatten with
        | .ok after => (true, after.frames.map ofFrame)
        | .error after => (false, after.frames.map ofFrame) := by
  obtain ⟨fOk, received, returned, told⟩ := receiveAll_spec messageStart chunks Receives.empty
  refine ⟨(fOk, received.filter complete), by rw [outcome, returned]; rfl, ?_⟩
  cases fed : messageFraming.feed ⟨[], []⟩ chunks.flatten with
  | ok after =>
      rw [fed] at told
      rw [told.1, told.2.messages]
  | error after =>
      rw [fed] at told
      rw [told.1, told.2]

end CNetMessage

end Lycancoin
