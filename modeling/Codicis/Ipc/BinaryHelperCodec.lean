/-
The binary codec of the helper protocol (`ipc/helper_codec.cc`), and what the two codecs have
in common.

A frame is a magic number, the length of the payload and the payload; numbers are little-endian.
As in the text codec a byte is a character, so that both share the type of messages.

`HelperCodec` carries what a client needs of its codec: a message that is complete stays the same
when more bytes stand behind it.  `HelperCodec.records` are the messages of a whole stream.
-/
import Codicis.Ipc.TextHelperCodec

namespace Codicis

open TextHelperCodec (HelperDecode)

namespace BinaryHelperCodec

/-- The characters of the magic number spell CODC. -/
def binaryMagic : ℕ := 0x434F4443

def maxBinaryPayload : ℕ := 64 * 1024 * 1024

/-- Append a little-endian value of `n` bytes. -/
def putUint (n v : ℕ) : List Char := (List.range n).map fun i => Char.ofNat (v / 256 ^ i % 256)

/-- Read a little-endian unsigned integer. -/
def getUint (bytes : List Char) : ℕ := bytes.foldr (fun b v => b.toNat + 256 * v) 0

/-- A text behind its length. -/
def putText (n : ℕ) (s : String) : List Char := putUint n s.toList.length ++ s.toList

def payload (msg : HelperMessage) : List Char :=
  putUint 8 msg.reqId ++ putText 2 msg.type ++ putUint 4 msg.fields.length ++
    msg.fields.flatMap fun kv => putText 4 kv.1 ++ putText 4 kv.2

/-- The frame of a message. -/
def encode (msg : HelperMessage) : List Char :=
  putUint 4 binaryMagic ++ putUint 4 (payload msg).length ++ payload msg

/-- The fields of a payload. -/
def decodeFields : ℕ → HelperMessage → List Char → Except String HelperMessage
  | 0, msg, _ => .ok msg
  | n + 1, msg, p =>
    if p.length < 4 then .error "binary codec: truncated field key length"
    else
      let klen := getUint (p.take 4)
      let p := p.drop 4
      if p.length < klen + 4 then .error "binary codec: truncated field key"
      else
        let key := p.take klen
        let p := p.drop klen
        let vlen := getUint (p.take 4)
        let p := p.drop 4
        if p.length < vlen then .error "binary codec: truncated field value"
        else
          decodeFields n (msg.set (String.ofList key) (String.ofList (p.take vlen)))
            (p.drop vlen)

/-- The message of a payload; what stands behind its fields is ignored. -/
def decodePayload (p : List Char) : Except String HelperMessage :=
  if p.length < 8 + 2 then .error "binary codec: truncated header"
  else
    let reqId := getUint (p.take 8)
    let p := p.drop 8
    let typeLen := getUint (p.take 2)
    let p := p.drop 2
    if p.length < typeLen + 4 then .error "binary codec: truncated type"
    else
      let type := String.ofList (p.take typeLen)
      let p := p.drop typeLen
      decodeFields (getUint (p.take 4)) { reqId := reqId, type := type } (p.drop 4)

/-- Decode one frame from the buffer. -/
def decode (v : List Char) : HelperDecode :=
  if v.length < 8 then .incomplete
  else if getUint (v.take 4) ≠ binaryMagic then .error "binary codec: bad magic"
  else
    let payloadLen := getUint ((v.drop 4).take 4)
    if maxBinaryPayload < payloadLen then .error "binary codec: payload too large"
    else if v.length < 8 + payloadLen then .incomplete
    else
      match decodePayload ((v.drop 8).take payloadLen) with
      | .ok msg => .complete msg (v.drop (8 + payloadLen))
      | .error err => .error err

variable {v w rest : List Char} {msg : HelperMessage}

/-- The length of the payload of a frame. -/
def payloadLen (v : List Char) : ℕ := getUint ((v.drop 4).take 4)

/-- A frame that is complete has been cut off the buffer. -/
lemma decode_eq_complete_iff : decode v = .complete msg rest ↔
    8 + payloadLen v ≤ v.length ∧ getUint (v.take 4) = binaryMagic ∧
      payloadLen v ≤ maxBinaryPayload ∧
      decodePayload ((v.drop 8).take (payloadLen v)) = .ok msg ∧
      rest = v.drop (8 + payloadLen v) := by
  unfold decode
  dsimp only
  rw [← payloadLen]
  split_ifs with h8 hmagic hmax hlen
  · exact iff_of_false (by simp) fun h => by omega
  · exact iff_of_false (by simp) fun h => hmagic h.2.1
  · exact iff_of_false (by simp) fun h => by omega
  · exact iff_of_false (by simp) fun h => by omega
  · rw [and_iff_right (not_lt.1 hlen), and_iff_right (not_not.1 hmagic),
      and_iff_right (not_lt.1 hmax)]
    cases decodePayload ((v.drop 8).take (payloadLen v)) with
    | error err => simp
    | ok msg' => simp [eq_comm]

lemma take_drop_append {n k : ℕ} (h : n + k ≤ v.length) (w : List Char) :
    ((v ++ w).drop n).take k = (v.drop n).take k := by
  rw [List.drop_append_of_le_length (by omega), List.take_append_of_le_length]
  rw [List.length_drop]
  omega

/-- More bytes behind a frame do not change it. -/
lemma decode_append (h : decode v = .complete msg rest) (w : List Char) :
    decode (v ++ w) = .complete msg (rest ++ w) := by
  obtain ⟨hlen, hmagic, hmax, hpayload, rfl⟩ := decode_eq_complete_iff.1 h
  have hsame : payloadLen (v ++ w) = payloadLen v := by
    rw [payloadLen, take_drop_append (by omega), payloadLen]
  rw [decode_eq_complete_iff, hsame, List.take_append_of_le_length (by omega),
    take_drop_append hlen, List.drop_append_of_le_length hlen, List.length_append]
  exact ⟨by omega, hmagic, hmax, hpayload, rfl⟩

lemma length_lt_of_decode (h : decode v = .complete msg rest) : rest.length < v.length := by
  obtain ⟨hlen, -, -, -, rfl⟩ := decode_eq_complete_iff.1 h
  rw [List.length_drop]
  omega

end BinaryHelperCodec

namespace HelperCodec

def binary : HelperCodec where
  encode := BinaryHelperCodec.encode
  decode := BinaryHelperCodec.decode
  length_lt := BinaryHelperCodec.length_lt_of_decode
  decode_append := BinaryHelperCodec.decode_append

variable (codec : HelperCodec)

/-- The messages of a stream. -/
def records (v : List Char) : List HelperMessage := (codec.parser.run () v).outs

variable {codec} {v rest : List Char} {msg : HelperMessage}

lemma records_of_complete (h : codec.decode v = .complete msg rest) :
    codec.records v = msg :: codec.records rest := by
  have hturn : codec.parser.turn () v = .go () rest (some msg) :=
    turn_eq_go_iff.2 ⟨msg, h, rfl⟩
  rw [records, Resumable.Parser.run_go hturn]
  rfl

lemma records_of_incomplete (h : codec.decode v = .incomplete) : codec.records v = [] := by
  have hturn : codec.parser.turn () v = .wait () v := by simp [parser, turn, h]
  rw [records, Resumable.Parser.run_wait hturn]

/-! ### Readers -/

/-- A reader has taken some bytes, some of which are still in its buffer, and the messages of the
others. -/
def Tracks (codec : HelperCodec) (taken input : List Char) (msgs : List HelperMessage) : Prop :=
  ∀ w, codec.records (taken ++ w) = msgs ++ codec.records (input ++ w)

variable {taken input : List Char} {msgs : List HelperMessage}

lemma tracks_start : codec.Tracks [] [] [] := fun _ => rfl

lemma Tracks.read (h : codec.Tracks taken input msgs) (data : List Char) :
    codec.Tracks (taken ++ data) (input ++ data) msgs := by
  intro w
  rw [List.append_assoc, List.append_assoc]
  exact h (data ++ w)

lemma Tracks.decode (h : codec.Tracks taken input msgs)
    (hd : codec.decode input = .complete msg rest) : codec.Tracks taken rest (msgs ++ [msg]) := by
  intro w
  rw [h w, records_of_complete (codec.decode_append hd w), List.append_assoc]
  rfl

/-- If no message is left in the buffer, then all messages have been taken. -/
lemma Tracks.records_eq (h : codec.Tracks taken input msgs) (hrest : codec.records input = []) :
    codec.records taken = msgs := by
  simpa [hrest] using h []

end HelperCodec

end Codicis
