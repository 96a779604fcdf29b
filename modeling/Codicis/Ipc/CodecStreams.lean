/-
Streams of helper messages, in both codecs.

What an encoder has written is decoded in whatever chunks it comes: `TextHelperCodec.read_back`
and `BinaryHelperCodec.read_back`.  The text codec gives up on a long buffer without the end of a
record, so a record must not be longer than its cap; the decoder then never sees such a buffer.

The lengths in a binary frame are those that the other side claims.  `fetched` is the decoder with
every access to the bytes written out, where a read beyond the end of the payload has no result;
since each read stands behind its check, it always has one.
-/
import Codicis.Ipc.BinaryHelperCodec

namespace Codicis

open TextHelperCodec (HelperDecode)

namespace HelperCodec

variable {codec : HelperCodec} {T : List Char → Prop}

/-- What is complete stays so.  An error may be premature where `T` holds. -/
lemma splits (hfail : ∀ v err, codec.decode v = .error err →
      ∀ w, (∃ err', codec.decode (v ++ w) = .error err') ∨ T (v ++ w))
    (hmono : ∀ v, T v → ∀ w, T (v ++ w)) : codec.parser.Splits fun _ => T where
  go := by
    intro _ v _ rest out h
    cases hd : codec.decode v with
    | incomplete => simp [parser, turn, hd] at h
    | error err => simp [parser, turn, hd] at h
    | complete msg rest' =>
      simp only [parser, turn, hd, Resumable.Move.go.injEq] at h
      obtain ⟨-, rfl, rfl⟩ := h
      exact ⟨(codec.length_lt hd).le, fun w => by simp [parser, turn, codec.decode_append hd w]⟩
  wait := by
    intro _ v _ rest h
    cases hd : codec.decode v with
    | incomplete =>
      simp only [parser, turn, hd, Resumable.Move.wait.injEq] at h
      exact .inl ⟨rfl, h.2.symm⟩
    | error err => simp [parser, turn, hd] at h
    | complete msg rest' => simp [parser, turn, hd] at h
  fail := by
    intro _ v h w
    cases hd : codec.decode v with
    | incomplete => simp [parser, turn, hd] at h
    | error err =>
      refine (hfail v err hd w).imp_left ?_
      rintro ⟨err', herr⟩
      simp [parser, turn, herr]
    | complete msg rest' => simp [parser, turn, hd] at h
  mono := fun h w => hmono _ h w

/-- Messages that are decoded one by one come back from their stream, in whatever chunks. -/
lemma feedAll_encoded (hP : codec.parser.Splits fun _ => T) (hnil : codec.decode [] = .incomplete)
    (hT : ¬ T []) {msgs : List HelperMessage}
    (h : ∀ msg ∈ msgs, ∀ w, codec.decode (codec.encode msg ++ w) = .complete msg w ∧
      ¬ T (codec.encode msg ++ w)) {chunks : List (List Char)}
    (hchunks : chunks.flatten = msgs.flatMap codec.encode) :
    codec.parser.feedAll () chunks = ⟨msgs, chunks.flatten.length, some ((), [])⟩ := by
  have hidle : codec.parser.turn () [] = .wait () [] := by simp [parser, turn, hnil]
  have hrun : codec.parser.Smooth (fun _ => T) () (msgs.flatMap codec.encode) ∧
      codec.parser.run () (msgs.flatMap codec.encode)
        = ⟨msgs, (msgs.flatMap codec.encode).length, some ((), [])⟩ := by
    clear hchunks
    induction msgs with
    | nil =>
      refine ⟨fun s v hv => ?_, Resumable.Parser.run_wait hidle⟩
      cases hv with
      | here => exact hT
      | turn hturn _ => rw [List.flatMap_nil, hidle] at hturn; cases hturn
    | cons msg msgs ih =>
      obtain ⟨hsmooth, hrun⟩ := ih fun msg' hmsg' => h msg' (by simp [hmsg'])
      obtain ⟨hdec, hsafe⟩ := h msg (by simp) (msgs.flatMap codec.encode)
      have hturn : codec.parser.turn () (codec.encode msg ++ msgs.flatMap codec.encode)
          = .go () (msgs.flatMap codec.encode) (some msg) :=
        turn_eq_go_iff.2 ⟨msg, hdec, rfl⟩
      rw [List.flatMap_cons]
      refine ⟨fun s v hv => ?_, ?_⟩
      · cases hv with
        | here => exact hsafe
        | turn hturn' hv =>
          obtain ⟨rfl, rfl, -⟩ := Resumable.Move.go.inj (hturn.symm.trans hturn')
          exact hsmooth s v hv
      · rw [Resumable.Parser.run_go hturn, hrun]
        simp [Resumable.Verdict.after]
  rw [← hchunks] at hrun
  rw [hP.feedAll_eq hidle hrun.1, hrun.2]

end HelperCodec

/-! ### Text -/

namespace TextHelperCodec

variable {msg : HelperMessage} {v : List Char}

/-- A message that the text codec can carry. -/
structure Writable (msg : HelperMessage) : Prop where
  reqId : msg.reqId < 2 ^ 64
  keys : KeysOk msg
  noLf : NoLf msg
  noCr : msg.type.toList.getLast? ≠ some '\r' ∧
    ∀ kv ∈ msg.fields, kv.2.toList.getLast? ≠ some '\r'
  short : (encode msg).length ≤ maxTextRecord

instance (msg : HelperMessage) : Decidable (Writable msg) :=
  haveI : Decidable (KeysOk msg) := inferInstanceAs (Decidable (∀ key ∈ _, _))
  haveI : Decidable (NoLf msg) := inferInstanceAs (Decidable (_ ∧ _))
  decidable_of_iff (msg.reqId < 2 ^ 64 ∧ KeysOk msg ∧ NoLf msg ∧
      (msg.type.toList.getLast? ≠ some '\r' ∧
        ∀ kv ∈ msg.fields, kv.2.toList.getLast? ≠ some '\r') ∧
      (encode msg).length ≤ maxTextRecord)
    ⟨fun ⟨h₁, h₂, h₃, h₄, h₅⟩ => ⟨h₁, h₂, h₃, h₄, h₅⟩, fun ⟨h₁, h₂, h₃, h₄, h₅⟩ =>
      ⟨h₁, h₂, h₃, h₄, h₅⟩⟩

lemma Writable.decode (h : Writable msg) (w : List Char) :
    decode (encode msg ++ w) = .complete msg w := by
  have hvalue : ∀ kv ∈ msg.fields, (kv.1, String.ofList (trimCr kv.2.toList)) = kv := by
    intro kv hkv
    rw [trimCr_eq_self_iff.2 (h.noCr.2 kv hkv), String.ofList_toList]
  have hsame : trimmed msg = msg := by
    rw [trimmed, trimCr_eq_self_iff.2 h.noCr.1, String.ofList_toList,
      (List.map_congr_left hvalue).trans (List.map_id' _)]
  rw [decode_encode h.keys h.noLf h.reqId, hsame]

/-- The end of the record is the only place where the decoder finds one. -/
lemma Writable.cutAt (h : Writable msg) (w : List Char) :
    cutAt ['\n', '\n'] (encode msg ++ w) = some (['\n'].intercalate (lines msg), w) := by
  rw [encode, List.append_assoc, List.singleton_append]
  exact cutAt_joined (by simp [lines]) (lines_noLf h.keys h.noLf) w

/-- A record that has not come whole has no end. -/
lemma Writable.incomplete (h : Writable msg) (hv : v <+: encode msg) (hne : v ≠ encode msg) :
    TextHelperCodec.decode v = .incomplete := by
  obtain ⟨u, hu⟩ := hv
  have hnone : Codicis.cutAt ['\n', '\n'] v = none := by
    cases hcut : Codicis.cutAt ['\n', '\n'] v with
    | none => rfl
    | some r =>
      have happ := cutAt_append (by simp) hcut u
      rw [hu, ← List.append_nil (encode msg), h.cutAt] at happ
      obtain ⟨-, hnil⟩ := Prod.mk.inj (Option.some.inj happ)
      obtain rfl : u = [] := (List.append_eq_nil_iff.1 hnil.symm).2
      exact absurd (by simpa using hu) hne
  have hlen : v.length ≤ maxTextRecord :=
    (hu ▸ List.prefix_append v u).length_le.trans h.short
  rw [TextHelperCodec.decode, hnone]
  exact if_neg (not_lt.2 hlen)

/-- The bytes start with more than a record may have, and there is no end among them. -/
def Unended (v : List Char) : Prop :=
  ∃ p, p <+: v ∧ maxTextRecord < p.length ∧ cutAt ['\n', '\n'] p = none

lemma splits : HelperCodec.text.parser.Splits fun _ => Unended := by
  refine HelperCodec.splits (fun v err h w => ?_) fun v h w => ?_
  · change TextHelperCodec.decode v = _ at h
    change (∃ err', TextHelperCodec.decode (v ++ w) = _) ∨ _
    unfold TextHelperCodec.decode at h
    split at h
    · next hcut =>
      split_ifs at h with hlong
      exact .inr ⟨v, List.prefix_append v w, hlong, hcut⟩
    · next block rest hcut =>
      refine .inl ⟨err, ?_⟩
      rw [TextHelperCodec.decode, cutAt_append (by simp) hcut w]
      cases hblock : decodeBlock block with
      | ok msg => simp [hblock] at h
      | error err' => simpa [hblock] using h
  · obtain ⟨p, hp, hlong, hcut⟩ := h
    exact ⟨p, hp.trans (List.prefix_append v w), hlong, hcut⟩

lemma Writable.not_unended (h : Writable msg) (w : List Char) : ¬ Unended (encode msg ++ w) := by
  rintro ⟨p, hp, hlong, hcut⟩
  obtain ⟨u, rfl⟩ := List.prefix_of_prefix_length_le (List.prefix_append (encode msg) w) hp
    (h.short.trans hlong.le)
  rw [h.cutAt] at hcut
  cases hcut

/-- Records come back, in whatever chunks their stream comes. -/
lemma feedAll_encode {msgs : List HelperMessage} (h : ∀ msg ∈ msgs, Writable msg)
    {chunks : List (List Char)} (hchunks : chunks.flatten = msgs.flatMap encode) :
    HelperCodec.text.parser.feedAll () chunks = ⟨msgs, chunks.flatten.length, some ((), [])⟩ := by
  refine HelperCodec.feedAll_encoded splits ?_ ?_
    (fun msg hmsg w => ⟨(h msg hmsg).decode w, (h msg hmsg).not_unended w⟩) hchunks
  · change TextHelperCodec.decode [] = _
    simp [TextHelperCodec.decode, Codicis.cutAt]
  · rintro ⟨p, hp, hlong, -⟩
    rw [List.prefix_nil.1 hp] at hlong
    exact absurd hlong (by decide)

/-- They come back, and a part of a record is waited for. -/
theorem read_back {msgs : List HelperMessage} (h : ∀ msg ∈ msgs, Writable msg) :
    (∀ chunks : List (List Char), chunks.flatten = msgs.flatMap encode →
      HelperCodec.text.parser.feedAll () chunks
        = ⟨msgs, chunks.flatten.length, some ((), [])⟩) ∧
    ∀ msg ∈ msgs, ∀ v, v <+: encode msg → v ≠ encode msg →
      TextHelperCodec.decode v = .incomplete :=
  ⟨fun _ hchunks => feedAll_encode h hchunks, fun msg hmsg _ => (h msg hmsg).incomplete⟩

/-- Two records with the same key twice, cut within the blank line between them. -/
theorem read_back_two :
    let msgs : List HelperMessage := [⟨7, "put", [("k", "a=b"), ("k", "")]⟩, ⟨8, "", []⟩]
    HelperCodec.text.parser.feedAll ()
        [(msgs.flatMap encode).take 26, (msgs.flatMap encode).drop 26]
      = ⟨msgs, (msgs.flatMap encode).length, some ((), [])⟩ := by
  intro msgs
  have h : ∀ msg ∈ msgs, Writable msg := by
    intro msg hmsg
    simp only [msgs, List.mem_cons, List.not_mem_nil, or_false] at hmsg
    rcases hmsg with rfl | rfl
    · exact ⟨by decide, by simp [KeysOk], by simp [NoLf], by simp, by decide⟩
    · exact ⟨by decide, by simp [KeysOk], by simp [NoLf], by simp, by decide⟩
  have hback := (read_back h).1 [(msgs.flatMap encode).take 26, (msgs.flatMap encode).drop 26]
    (by simp)
  simpa using hback

end TextHelperCodec

/-! ### Binary -/

namespace BinaryHelperCodec

variable {msg : HelperMessage} {v p : List Char}

lemma putUint_succ (n v : ℕ) : putUint (n + 1) v = Char.ofNat (v % 256) :: putUint n (v / 256) := by
  simp only [putUint, List.range_succ_eq_map, List.map_cons, List.map_map, pow_zero, Nat.div_one]
  congr 1
  refine List.map_congr_left fun i _ => ?_
  rw [Function.comp_apply, Nat.succ_eq_add_one, Nat.pow_succ', Nat.div_div_eq_div_mul]

lemma toNat_ofNat {k : ℕ} (h : k < 256) : (Char.ofNat k).toNat = k := by
  rw [Char.ofNat, dif_pos (Or.inl (by omega))]
  rfl

@[simp] lemma length_putUint (n v : ℕ) : (putUint n v).length = n := by simp [putUint]

lemma getUint_putUint {n v : ℕ} (h : v < 256 ^ n) : getUint (putUint n v) = v := by
  induction n generalizing v with
  | zero =>
    obtain rfl : v = 0 := by simpa using h
    rfl
  | succ n ih =>
    have hbyte := toNat_ofNat (Nat.mod_lt v (show 0 < 256 by decide))
    have hrest := ih (Nat.div_lt_of_lt_mul (by rwa [Nat.pow_succ'] at h))
    rw [putUint_succ, getUint, List.foldr_cons, ← getUint, hrest, hbyte]
    omega

/-- A number ahead of other bytes. -/
lemma getUint_take {n k : ℕ} (h : k < 256 ^ n) (w : List Char) :
    getUint ((putUint n k ++ w).take n) = k := by
  rw [List.take_left' (length_putUint n k), getUint_putUint h]

lemma drop_putUint (n k : ℕ) (w : List Char) : (putUint n k ++ w).drop n = w :=
  List.drop_left' (length_putUint n k)

/-- The bytes of a field. -/
def putField (kv : String × String) : List Char := putText 4 kv.1 ++ putText 4 kv.2

lemma length_putField (kv : String × String) :
    (putField kv).length = 8 + kv.1.toList.length + kv.2.toList.length := by
  simp only [putField, putText, List.length_append, length_putUint]
  omega

/-- Fields that have been written are read back. -/
lemma decodeFields_flatMap {fields : List (String × String)}
    (h : ∀ kv ∈ fields, kv.1.toList.length < 256 ^ 4 ∧ kv.2.toList.length < 256 ^ 4)
    (msg : HelperMessage) (w : List Char) :
    decodeFields fields.length msg (fields.flatMap putField ++ w)
      = .ok { msg with fields := msg.fields ++ fields } := by
  induction fields generalizing msg with
  | nil => simp [decodeFields]
  | cons kv fields ih =>
    obtain ⟨hkey, hvalue⟩ := h kv (by simp)
    have hbytes : (kv :: fields).flatMap putField ++ w
        = putUint 4 kv.1.toList.length ++ (kv.1.toList ++ (putUint 4 kv.2.toList.length ++
            (kv.2.toList ++ (fields.flatMap putField ++ w)))) := by
      simp [putField, putText]
    rw [List.length_cons, hbytes, decodeFields, if_neg (by simp), getUint_take hkey, drop_putUint]
    dsimp only
    rw [if_neg (by simp), List.drop_left, getUint_take hvalue, drop_putUint,
      if_neg (by simp), List.take_left, List.take_left, List.drop_left,
      ih (fun kv hkv => h kv (by simp [hkv]))]
    simp [HelperMessage.set]

/-- A message that the binary codec can carry. -/
structure Writable (msg : HelperMessage) : Prop where
  reqId : msg.reqId < 2 ^ 64
  type : msg.type.toList.length < 2 ^ 16
  short : (payload msg).length ≤ maxBinaryPayload

lemma payload_eq (msg : HelperMessage) : payload msg = putUint 8 msg.reqId ++
    (putUint 2 msg.type.toList.length ++ (msg.type.toList ++ (putUint 4 msg.fields.length ++
      (msg.fields.flatMap putField ++ [])))) := by
  have hfields : (msg.fields.flatMap fun kv => putText 4 kv.1 ++ putText 4 kv.2)
      = msg.fields.flatMap putField := rfl
  rw [payload, hfields, putText]
  simp

lemma Writable.decodePayload (h : Writable msg) : decodePayload (payload msg) = .ok msg := by
  have hshort := h.short
  simp only [payload_eq, List.length_append, length_putUint, maxBinaryPayload] at hshort
  -- a part is no longer than the whole
  have hpart : ∀ kv ∈ msg.fields, (putField kv).length ≤ (msg.fields.flatMap putField).length :=
    fun kv hkv => (List.sublist_flatten_of_mem (List.mem_map_of_mem hkv)).length_le
  have hcount : ∀ fields : List (String × String),
      fields.length ≤ (fields.flatMap putField).length := by
    intro fields
    induction fields with
    | nil => exact le_rfl
    | cons kv fields ih =>
      rw [List.flatMap_cons, List.length_append, List.length_cons, length_putField]
      omega
  have hcount' := hcount msg.fields
  have hfields : ∀ kv ∈ msg.fields,
      kv.1.toList.length < 256 ^ 4 ∧ kv.2.toList.length < 256 ^ 4 := by
    intro kv hkv
    have := hpart kv hkv
    rw [length_putField] at this
    constructor <;> omega
  rw [payload_eq, BinaryHelperCodec.decodePayload, if_neg (by simp; omega),
    getUint_take (h.reqId.trans_eq (by decide)), drop_putUint]
  dsimp only
  rw [getUint_take (h.type.trans_eq (by decide)), drop_putUint, if_neg (by simp),
    List.drop_left, List.take_left, getUint_take (by omega), drop_putUint,
    decodeFields_flatMap hfields]
  simp

lemma Writable.decode (h : Writable msg) (w : List Char) :
    decode (encode msg ++ w) = .complete msg w := by
  have hbytes : encode msg ++ w = putUint 4 binaryMagic ++ (putUint 4 (payload msg).length ++
      (payload msg ++ w)) := by simp [encode]
  have hmax := h.short
  have hlen : payloadLen (encode msg ++ w) = (payload msg).length := by
    rw [payloadLen, hbytes, drop_putUint, getUint_take (hmax.trans_lt (by decide))]
  have hdrop : (encode msg ++ w).drop 8 = payload msg ++ w := by
    rw [hbytes, ← List.drop_drop (i := 4) (j := 4), drop_putUint, drop_putUint]
  refine decode_eq_complete_iff.2 ⟨?_, ?_, ?_, ?_, ?_⟩
  · rw [hlen]
    simp [encode]
    omega
  · rw [hbytes, getUint_take (by decide)]
  · rwa [hlen]
  · rw [hlen, hdrop, List.take_left]
    exact h.decodePayload
  · rw [hlen, ← List.drop_drop, hdrop, List.drop_left]

/-- An error stays one. -/
lemma error_append {err : String} (h : decode v = .error err) (w : List Char) :
    decode (v ++ w) = .error err := by
  unfold decode at h ⊢
  by_cases h8 : v.length < 8
  · rw [if_pos h8] at h
    cases h
  rw [if_neg h8] at h
  rw [if_neg (by simp; omega), List.take_append_of_le_length (by omega)]
  by_cases hmagic : getUint (v.take 4) ≠ binaryMagic
  · rw [if_pos hmagic] at h ⊢
    exact h
  rw [if_neg hmagic] at h ⊢
  dsimp only at h ⊢
  rw [take_drop_append (by omega)]
  by_cases hmax : maxBinaryPayload < getUint ((v.drop 4).take 4)
  · rw [if_pos hmax] at h ⊢
    exact h
  rw [if_neg hmax] at h ⊢
  by_cases hlen : v.length < 8 + getUint ((v.drop 4).take 4)
  · rw [if_pos hlen] at h
    cases h
  rw [if_neg hlen] at h
  rw [if_neg (by simp; omega), take_drop_append (by omega)]
  cases hp : decodePayload ((v.drop 8).take (getUint ((v.drop 4).take 4))) with
  | ok msg => simp [hp] at h
  | error err' => simpa [hp] using h

/-! ### Reads within bounds -/

/-- Go on with the next bytes and those behind them; there is no result if they go beyond the
end. -/
def fetch {α : Type} (n : ℕ) (p : List Char) (next : List Char → List Char → Option α) : Option α :=
  if n ≤ p.length then next (p.take n) (p.drop n) else none

/-- `decodeFields` with its reads. -/
def fetchedFields : ℕ → HelperMessage → List Char → Option (Except String HelperMessage)
  | 0, msg, _ => some (.ok msg)
  | n + 1, msg, p =>
    if p.length < 4 then some (.error "binary codec: truncated field key length")
    else fetch 4 p fun klen p =>
      if p.length < getUint klen + 4 then some (.error "binary codec: truncated field key")
      else fetch (getUint klen) p fun key p => fetch 4 p fun vlen p =>
        if p.length < getUint vlen then some (.error "binary codec: truncated field value")
        else fetch (getUint vlen) p fun value p =>
          fetchedFields n (msg.set (String.ofList key) (String.ofList value)) p

/-- `decodePayload` with its reads. -/
def fetchedPayload (p : List Char) : Option (Except String HelperMessage) :=
  if p.length < 8 + 2 then some (.error "binary codec: truncated header")
  else fetch 8 p fun reqId p => fetch 2 p fun typeLen p =>
    if p.length < getUint typeLen + 4 then some (.error "binary codec: truncated type")
    else fetch (getUint typeLen) p fun type p => fetch 4 p fun count p =>
      fetchedFields (getUint count) { reqId := getUint reqId, type := String.ofList type } p

/-- `decode` with its reads: those of the payload may not go beyond its declared length. -/
def fetched (v : List Char) : Option HelperDecode :=
  if v.length < 8 then some .incomplete
  else fetch 4 v fun magic p => fetch 4 p fun len p =>
    if getUint magic ≠ binaryMagic then some (.error "binary codec: bad magic")
    else if maxBinaryPayload < getUint len then some (.error "binary codec: payload too large")
    else if v.length < 8 + getUint len then some .incomplete
    else fetch (getUint len) p fun payload rest =>
      (fetchedPayload payload).map fun
        | .ok msg => .complete msg rest
        | .error err => .error err

lemma fetch_eq {α : Type} {n : ℕ} (h : n ≤ p.length) (next : List Char → List Char → Option α) :
    fetch n p next = next (p.take n) (p.drop n) := if_pos h

lemma fetchedFields_eq (n : ℕ) (msg : HelperMessage) (p : List Char) :
    fetchedFields n msg p = some (decodeFields n msg p) := by
  induction n generalizing msg p with
  | zero => rfl
  | succ n ih =>
    rw [fetchedFields, decodeFields]
    by_cases h4 : p.length < 4
    · rw [if_pos h4, if_pos h4]
    rw [if_neg h4, if_neg h4, fetch_eq (by omega)]
    dsimp only
    by_cases hkey : (p.drop 4).length < getUint (p.take 4) + 4
    · rw [if_pos hkey, if_pos hkey]
    rw [if_neg hkey, if_neg hkey, fetch_eq (by omega),
      fetch_eq (by rw [List.length_drop]; omega)]
    generalize (p.drop 4).drop (getUint (p.take 4)) = q
    by_cases hvalue : (q.drop 4).length < getUint (q.take 4)
    · rw [if_pos hvalue, if_pos hvalue]
    rw [if_neg hvalue, if_neg hvalue, fetch_eq (by omega)]
    exact ih _ _

lemma fetchedPayload_eq (p : List Char) : fetchedPayload p = some (decodePayload p) := by
  rw [fetchedPayload, decodePayload]
  by_cases h10 : p.length < 8 + 2
  · rw [if_pos h10, if_pos h10]
  rw [if_neg h10, if_neg h10, fetch_eq (by omega), fetch_eq (by rw [List.length_drop]; omega)]
  dsimp only
  generalize hq : (p.drop 8).drop 2 = q
  by_cases htype : q.length < getUint ((p.drop 8).take 2) + 4
  · rw [if_pos htype, if_pos htype]
  rw [if_neg htype, if_neg htype, fetch_eq (by omega),
    fetch_eq (by rw [List.length_drop]; omega)]
  exact fetchedFields_eq _ _ _

/-- No read goes beyond the end. -/
lemma fetched_eq (v : List Char) : fetched v = some (decode v) := by
  rw [fetched, decode]
  by_cases h8 : v.length < 8
  · rw [if_pos h8, if_pos h8]
  rw [if_neg h8, if_neg h8, fetch_eq (by omega), fetch_eq (by rw [List.length_drop]; omega)]
  dsimp only
  by_cases hmagic : getUint (v.take 4) ≠ binaryMagic
  · rw [if_pos hmagic, if_pos hmagic]
  rw [if_neg hmagic, if_neg hmagic]
  by_cases hmax : maxBinaryPayload < getUint ((v.drop 4).take 4)
  · rw [if_pos hmax, if_pos hmax]
  rw [if_neg hmax, if_neg hmax]
  by_cases hlen : v.length < 8 + getUint ((v.drop 4).take 4)
  · rw [if_pos hlen, if_pos hlen]
  rw [if_neg hlen, if_neg hlen, List.drop_drop, fetch_eq (by rw [List.length_drop]; omega),
    fetchedPayload_eq]
  cases decodePayload ((v.drop 8).take (getUint ((v.drop 4).take 4))) <;> simp

/-- What is left in the buffer. -/
def left (v : List Char) : HelperDecode → List Char
  | .complete _ rest => rest
  | _ => v

/-- Frames come back, in whatever chunks their stream comes.  Whatever the bytes are, no read goes
beyond the end, a message takes its frame off the buffer, and else nothing is consumed. -/
theorem frames_back {msgs : List HelperMessage} (h : ∀ msg ∈ msgs, Writable msg) :
    (∀ chunks : List (List Char), chunks.flatten = msgs.flatMap encode →
      HelperCodec.binary.parser.feedAll () chunks
        = ⟨msgs, chunks.flatten.length, some ((), [])⟩) ∧
    ∀ v, fetched v = some (decode v) ∧
      ((decode v = .incomplete ∧ left v (decode v) = v) ∨
        (∃ err, decode v = .error err ∧ left v (decode v) = v) ∨
        ∃ msg rest, decode v = .complete msg rest ∧ 8 + payloadLen v ≤ v.length ∧
          left v (decode v) = v.drop (8 + payloadLen v)) := by
  refine ⟨fun chunks hchunks => ?_, fun v => ⟨fetched_eq v, ?_⟩⟩
  · have hsplits : HelperCodec.binary.parser.Splits fun _ _ => False :=
      HelperCodec.splits (fun v err hd w => .inl ⟨err, error_append hd w⟩) (by simp)
    exact HelperCodec.feedAll_encoded hsplits rfl id
      (fun msg hmsg w => ⟨(h msg hmsg).decode w, id⟩) hchunks
  · cases hd : decode v with
    | incomplete => exact .inl ⟨rfl, rfl⟩
    | error err => exact .inr (.inl ⟨err, rfl, rfl⟩)
    | complete msg rest =>
      obtain ⟨hlen, -, -, -, hrest⟩ := decode_eq_complete_iff.1 hd
      exact .inr (.inr ⟨msg, rest, rfl, hlen, hrest⟩)

/-- A frame that comes in two parts. -/
theorem frames_back_two_parts :
    let msg : HelperMessage := ⟨7, "put", [("k", "\n"), ("k", "")]⟩
    HelperCodec.binary.parser.feedAll () [(encode msg).take 9, (encode msg).drop 9]
      = ⟨[msg], (encode msg).length, some ((), [])⟩ := by
  intro msg
  have h : ∀ m ∈ [msg], Writable m := by
    intro m hm
    obtain rfl := List.mem_singleton.1 hm
    exact ⟨by decide, by decide, by decide⟩
  have hback := (frames_back h).1 [(encode msg).take 9, (encode msg).drop 9] (by simp)
  simpa using hback

end BinaryHelperCodec

end Codicis
