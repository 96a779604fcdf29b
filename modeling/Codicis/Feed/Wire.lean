/-
The wire encoding of the feed (`feed/feed_wire.cc`).

A record is sixty bytes of little-endian numbers and a symbol.  The length of the symbol has
two bytes, and the encoder takes what is left of it there; the symbol itself is written whole.
A character of a symbol stands for a byte.

`feed_roundtrip_iff` says that a stream of events comes back, in whatever chunks, exactly if
all symbols are shorter than 65536 bytes.
-/
import Codicis.Core.Order
import Codicis.Lib.Resumable

namespace Codicis

namespace FeedWire

/-- The fixed part of a record. -/
def feedRecordFixed : ℕ := 1 + 1 + 2 + 8 + 8 + 8 + 8 + 8 + 8 + 8

/-- A little-endian unsigned integer of `n` bytes. -/
def putUint (v : ℕ) : ℕ → List UInt8
  | 0 => []
  | n + 1 => UInt8.ofNat (v % 256) :: putUint (v / 256) n

/-- Read a little-endian unsigned integer. -/
def getUint : List UInt8 → ℕ
  | [] => 0
  | b :: bs => b.toNat + 256 * getUint bs

/-- The cast of a signed 64-bit number to an unsigned one. -/
def castU64 (z : ℤ) : ℕ := (z % 2 ^ 64).toNat

/-- The cast of an unsigned 64-bit number to a signed one. -/
def castI64 (n : ℕ) : ℤ := if n < 2 ^ 63 then n else n - 2 ^ 64

/-- The number of a kind of event. -/
def typeTag : BookEventType → ℕ
  | .add => 0
  | .cancel => 1
  | .trade => 2
  | .reprice => 3
  | .replenish => 4
  | .trigger => 5

/-- The kind of event with a number. -/
def ofTag : ℕ → Option BookEventType
  | 0 => some .add
  | 1 => some .cancel
  | 2 => some .trade
  | 3 => some .reprice
  | 4 => some .replenish
  | 5 => some .trigger
  | _ => none

def sideTag : Side → ℕ
  | .buy => 0
  | .sell => 1

/-- The bytes of a symbol. -/
def symbolBytes (s : Symbol) : List UInt8 := s.toList.map fun c => UInt8.ofNat c.toNat

/-- The symbol of some bytes. -/
def ofBytes (bs : List UInt8) : Symbol := String.ofList (bs.map fun b => Char.ofNat b.toNat)

/-- The numbers of a record, with their widths in bytes. -/
def layout (ev : BookEvent) : List (ℕ × ℕ) :=
  [(typeTag ev.type, 1), (sideTag ev.side, 1), ((symbolBytes ev.symbol).length % 2 ^ 16, 2),
    (ev.seq, 8), (ev.orderId, 8), (ev.takerId, 8), (castU64 ev.price, 8),
    (castU64 ev.prevPrice, 8), (castU64 ev.qty, 8), (castU64 ev.displayed, 8)]

/-- Numbers one after the other. -/
def putAll (fields : List (ℕ × ℕ)) : List UInt8 := fields.flatMap fun xn => putUint xn.1 xn.2

/-- The wire encoding of an event. -/
def encodeBookEvent (ev : BookEvent) : List UInt8 := putAll (layout ev) ++ symbolBytes ev.symbol

/-- Outcome of a decode attempt. -/
inductive FeedDecode
  | incomplete
  | complete (ev : BookEvent) (rest : List UInt8)
  | error
deriving DecidableEq

/-- The number in `n` bytes at an offset. -/
def field (v : List UInt8) (off n : ℕ) : ℕ := getUint ((v.drop off).take n)

/-- The event in a buffer that holds all of it. -/
def readEvent (v : List UInt8) (type : BookEventType) (symbolLen : ℕ) : BookEvent where
  type := type
  side := if field v 1 1 = 1 then .sell else .buy
  seq := field v 4 8
  orderId := field v 12 8
  takerId := field v 20 8
  price := castI64 (field v 28 8)
  prevPrice := castI64 (field v 36 8)
  qty := castI64 (field v 44 8)
  displayed := castI64 (field v 52 8)
  symbol := ofBytes ((v.drop feedRecordFixed).take symbolLen)

/-- Decode one event from the buffer. -/
def decodeBookEvent (v : List UInt8) : FeedDecode :=
  if v.length < feedRecordFixed then .incomplete
  else
    match ofTag (field v 0 1) with
    | none => .error
    | some type =>
      let symbolLen := field v 2 2
      if v.length < feedRecordFixed + symbolLen then .incomplete
      else .complete (readEvent v type symbolLen) (v.drop (feedRecordFixed + symbolLen))

/-! ### Numbers -/

@[simp] lemma length_putUint (v n : ℕ) : (putUint v n).length = n := by
  induction n generalizing v with
  | zero => rfl
  | succ n ih => simp [putUint, ih]

lemma getUint_putUint (v n : ℕ) : getUint (putUint v n) = v % 256 ^ n := by
  induction n generalizing v with
  | zero => simp [putUint, getUint, Nat.mod_one]
  | succ n ih =>
    have hbyte : (UInt8.ofNat (v % 256)).toNat = v % 256 := by simp
    rw [putUint, getUint, ih, hbyte, Nat.pow_succ, Nat.mul_comm (256 ^ n) 256, Nat.mod_mul]

lemma castI64_castU64 {z : ℤ} (h : -2 ^ 63 ≤ z) (h' : z < 2 ^ 63) : castI64 (castU64 z) = z := by
  unfold castI64 castU64
  split_ifs <;> omega

@[simp] lemma ofTag_typeTag (t : BookEventType) : ofTag (typeTag t) = some t := by cases t <;> rfl

lemma length_symbolBytes (s : Symbol) : (symbolBytes s).length = s.length := by
  rw [symbolBytes, List.length_map, String.length_toList]

lemma length_ofBytes (bs : List UInt8) : (ofBytes bs).length = bs.length := by
  rw [ofBytes, String.length_ofList, List.length_map]

lemma ofBytes_symbolBytes {s : Symbol} (h : ∀ c ∈ s.toList, c.toNat < 256) :
    ofBytes (symbolBytes s) = s := by
  have hchar : ∀ c ∈ s.toList, Char.ofNat (UInt8.ofNat c.toNat).toNat = c := by
    intro c hc
    have hc' : (UInt8.ofNat c.toNat).toNat = c.toNat := by
      simp [Nat.mod_eq_of_lt (h c hc)]
    rw [hc', Char.ofNat_toNat]
  rw [ofBytes, symbolBytes, List.map_map]
  exact (congrArg String.ofList ((List.map_congr_left hchar).trans (List.map_id _))).trans
    String.ofList_toList

/-! ### Fields -/

lemma length_putAll (fields : List (ℕ × ℕ)) :
    (putAll fields).length = (fields.map Prod.snd).sum := by
  simp [putAll, List.length_flatMap]

/-- A number that stands behind others. -/
lemma field_putAll (before : List (ℕ × ℕ)) (x n : ℕ) (behind : List (ℕ × ℕ)) (w : List UInt8) :
    field (putAll (before ++ (x, n) :: behind) ++ w) (before.map Prod.snd).sum n
      = x % 256 ^ n := by
  have hsplit : putAll (before ++ (x, n) :: behind) ++ w
      = putAll before ++ (putUint x n ++ (putAll behind ++ w)) := by simp [putAll]
  rw [hsplit, ← length_putAll, field, List.drop_left, List.take_left' (length_putUint x n),
    getUint_putUint]

/-- More bytes behind the buffer do not change a field that it holds. -/
lemma field_of_append {v : List UInt8} {off n : ℕ} (h : off + n ≤ v.length) (w : List UInt8) :
    field (v ++ w) off n = field v off n := by
  rw [field, field, List.drop_append_of_le_length (by omega),
    List.take_append_of_le_length (by rw [List.length_drop]; omega)]

/-- Numbers that fit their types. -/
structure InRange (ev : BookEvent) : Prop where
  seq : ev.seq < 2 ^ 64
  orderId : ev.orderId < 2 ^ 64
  takerId : ev.takerId < 2 ^ 64
  price : -2 ^ 63 ≤ ev.price ∧ ev.price < 2 ^ 63
  prevPrice : -2 ^ 63 ≤ ev.prevPrice ∧ ev.prevPrice < 2 ^ 63
  qty : -2 ^ 63 ≤ ev.qty ∧ ev.qty < 2 ^ 63
  displayed : -2 ^ 63 ≤ ev.displayed ∧ ev.displayed < 2 ^ 63

/-- Numbers and symbols that fit their types. -/
structure Fits (ev : BookEvent) : Prop extends InRange ev where
  symbol : ev.symbol ≠ "" ∧ ∀ c ∈ ev.symbol.toList, c.toNat < 256

/-- The length of a symbol as it is written. -/
def wireLen (ev : BookEvent) : ℕ := (symbolBytes ev.symbol).length % 2 ^ 16

lemma castU64_lt (z : ℤ) : castU64 z < 2 ^ 64 := by
  unfold castU64
  omega

/-- What is read back of the numbers of a written event. -/
structure Reads (v : List UInt8) (ev : BookEvent) : Prop where
  type : field v 0 1 = typeTag ev.type
  side : field v 1 1 = sideTag ev.side
  len : field v 2 2 = wireLen ev
  seq : field v 4 8 = ev.seq
  orderId : field v 12 8 = ev.orderId
  takerId : field v 20 8 = ev.takerId
  price : castI64 (field v 28 8) = ev.price
  prevPrice : castI64 (field v 36 8) = ev.prevPrice
  qty : castI64 (field v 44 8) = ev.qty
  displayed : castI64 (field v 52 8) = ev.displayed

lemma reads_encode {ev : BookEvent} (h : InRange ev) (w : List UInt8) :
    Reads (encodeBookEvent ev ++ w) ev := by
  have hfield : ∀ before x n behind off, layout ev = before ++ (x, n) :: behind →
      (before.map Prod.snd).sum = off → x < 256 ^ n →
        field (encodeBookEvent ev ++ w) off n = x := by
    intro before x n behind off hlayout hoff hx
    rw [encodeBookEvent, List.append_assoc, hlayout, ← hoff, field_putAll, Nat.mod_eq_of_lt hx]
  have hi64 : ∀ z : ℤ, castU64 z < 256 ^ 8 := castU64_lt
  have htype : typeTag ev.type < 256 ^ 1 := by cases ev.type <;> decide
  have hside : sideTag ev.side < 256 ^ 1 := by cases ev.side <;> decide
  have hlen : wireLen ev < 256 ^ 2 := Nat.mod_lt _ (by decide)
  constructor
  · exact hfield [] _ 1 _ 0 rfl rfl htype
  · exact hfield [(_, 1)] _ 1 _ 1 rfl rfl hside
  · exact hfield [(_, 1), (_, 1)] _ 2 _ 2 rfl rfl hlen
  · exact hfield [(_, 1), (_, 1), (_, 2)] _ 8 _ 4 rfl rfl h.seq
  · exact hfield [(_, 1), (_, 1), (_, 2), (_, 8)] _ 8 _ 12 rfl rfl h.orderId
  · exact hfield [(_, 1), (_, 1), (_, 2), (_, 8), (_, 8)] _ 8 _ 20 rfl rfl h.takerId
  · rw [hfield [(_, 1), (_, 1), (_, 2), (_, 8), (_, 8), (_, 8)] _ 8 _ 28 rfl rfl (hi64 _)]
    exact castI64_castU64 h.price.1 h.price.2
  · rw [hfield [(_, 1), (_, 1), (_, 2), (_, 8), (_, 8), (_, 8), (_, 8)] _ 8 _ 36 rfl rfl (hi64 _)]
    exact castI64_castU64 h.prevPrice.1 h.prevPrice.2
  · rw [hfield [(_, 1), (_, 1), (_, 2), (_, 8), (_, 8), (_, 8), (_, 8), (_, 8)] _ 8 _ 44 rfl rfl
      (hi64 _)]
    exact castI64_castU64 h.qty.1 h.qty.2
  · rw [hfield [(_, 1), (_, 1), (_, 2), (_, 8), (_, 8), (_, 8), (_, 8), (_, 8), (_, 8)] _ 8 _ 52
      rfl rfl (hi64 _)]
    exact castI64_castU64 h.displayed.1 h.displayed.2

/-! ### Records -/

lemma length_encodeBookEvent (ev : BookEvent) :
    (encodeBookEvent ev).length = feedRecordFixed + (symbolBytes ev.symbol).length := by
  rw [encodeBookEvent, List.length_append, length_putAll]
  rfl

/-- A written event is read with as much of its symbol as the written length says. -/
theorem decode_encode {ev : BookEvent} (h : InRange ev) (w : List UInt8) :
    decodeBookEvent (encodeBookEvent ev ++ w)
      = .complete { ev with symbol := ofBytes ((symbolBytes ev.symbol).take (wireLen ev)) }
          ((symbolBytes ev.symbol).drop (wireLen ev) ++ w) := by
  have hle : wireLen ev ≤ (symbolBytes ev.symbol).length := Nat.mod_le _ _
  have hlen : (encodeBookEvent ev ++ w).length
      = feedRecordFixed + (symbolBytes ev.symbol).length + w.length := by
    rw [List.length_append, length_encodeBookEvent]
  have hsymbol : (encodeBookEvent ev ++ w).drop feedRecordFixed = symbolBytes ev.symbol ++ w := by
    have hfixed : (putAll (layout ev)).length = feedRecordFixed := by rw [length_putAll]; rfl
    rw [encodeBookEvent, List.append_assoc, ← hfixed, List.drop_left]
  have hside : (if sideTag ev.side = 1 then Side.sell else Side.buy) = ev.side := by
    cases ev.side <;> rfl
  have hread := reads_encode h w
  rw [decodeBookEvent, if_neg (by omega), hread.type, ofTag_typeTag]
  simp only [hread.len]
  rw [if_neg (by omega), ← List.drop_drop, hsymbol, List.drop_append_of_le_length hle, readEvent,
    hsymbol, List.take_append_of_le_length hle, hread.side, hside, hread.seq, hread.orderId,
    hread.takerId, hread.price, hread.prevPrice, hread.qty, hread.displayed]

/-- One attempt to decode, as a turn of a parser. -/
def turn (v : List UInt8) : Resumable.Move Unit UInt8 BookEvent :=
  match decodeBookEvent v with
  | .incomplete => .wait () v
  | .complete ev rest => .go () rest (some ev)
  | .error => .fail

lemma turn_eq_go_iff {v rest : List UInt8} {out : Option BookEvent} :
    turn v = .go () rest out ↔ ∃ type, ofTag (field v 0 1) = some type ∧
      feedRecordFixed + field v 2 2 ≤ v.length ∧
      rest = v.drop (feedRecordFixed + field v 2 2) ∧
      out = some (readEvent v type (field v 2 2)) := by
  unfold turn decodeBookEvent
  by_cases hfixed : v.length < feedRecordFixed
  · simp only [if_pos hfixed, reduceCtorEq, false_iff]
    rintro ⟨type, -, hlen, -⟩
    omega
  · rw [if_neg hfixed]
    cases htag : ofTag (field v 0 1) with
    | none => simp
    | some type =>
      by_cases hlen : v.length < feedRecordFixed + field v 2 2
      · simp [hlen, not_le.2 hlen]
      · simp [hlen, not_lt.1 hlen, eq_comm]

lemma turn_eq_fail_iff {v : List UInt8} :
    turn v = .fail ↔ feedRecordFixed ≤ v.length ∧ ofTag (field v 0 1) = none := by
  unfold turn decodeBookEvent
  by_cases hfixed : v.length < feedRecordFixed
  · simp [hfixed, not_le.2 hfixed]
  · rw [if_neg hfixed]
    cases htag : ofTag (field v 0 1) with
    | none => simp [not_lt.1 hfixed]
    | some type => by_cases hlen : v.length < feedRecordFixed + field v 2 2 <;> simp [hlen]

/-- Decoding again and again. -/
def parser : Resumable.Parser Unit UInt8 BookEvent where
  turn _ v := turn v
  measure _ v := v.length
  decreases := by
    intro s v s' rest out h
    obtain ⟨type, -, hlen, rfl, -⟩ := turn_eq_go_iff.1 h
    rw [List.length_drop]
    unfold feedRecordFixed at *
    omega

/-- A record is decoded in the same way when more bytes stand behind it. -/
theorem splits : parser.Splits fun _ _ => False where
  go := by
    intro s v s' rest out h
    obtain ⟨type, htype, hlen, rfl, rfl⟩ := turn_eq_go_iff.1 h
    refine ⟨by simp, fun w => ?_⟩
    have hfixed : 60 ≤ v.length := (Nat.le_add_right _ _).trans hlen
    have hfield : ∀ off n, off + n ≤ 60 → field (v ++ w) off n = field v off n :=
      fun off n h => field_of_append (h.trans hfixed) w
    refine turn_eq_go_iff.2 ⟨type, ?_, ?_, ?_, ?_⟩
    · rw [hfield 0 1 (by decide), htype]
    · rw [hfield 2 2 (by decide), List.length_append]
      omega
    · rw [hfield 2 2 (by decide), List.drop_append_of_le_length hlen]
    · have hsymbol : ((v ++ w).drop feedRecordFixed).take (field v 2 2)
          = (v.drop feedRecordFixed).take (field v 2 2) := by
        rw [List.drop_append_of_le_length (show feedRecordFixed ≤ v.length from hfixed),
          List.take_append_of_le_length (by rw [List.length_drop]; omega)]
      rw [hfield 2 2 (by decide), readEvent, readEvent, hsymbol, hfield 1 1 (by decide),
        hfield 4 8 (by decide), hfield 12 8 (by decide), hfield 20 8 (by decide),
        hfield 28 8 (by decide), hfield 36 8 (by decide), hfield 44 8 (by decide),
        hfield 52 8 (by decide)]
  wait := by
    intro s v s' rest h
    left
    change turn v = _ at h
    unfold turn at h
    cases hd : decodeBookEvent v <;> simp_all
  fail := by
    intro s v h w
    left
    obtain ⟨hlen, htag⟩ := turn_eq_fail_iff.1 h
    have hlen' : 0 + 1 ≤ v.length := le_trans (by decide) hlen
    refine turn_eq_fail_iff.2 ⟨by rw [List.length_append]; omega, ?_⟩
    rw [field_of_append hlen' w, htag]
  mono := by simp

lemma turn_nil : parser.turn () [] = .wait () [] := by decide

/-- In whatever chunks a stream comes, it is decoded as a whole. -/
lemma feedAll_eq (chunks : List (List UInt8)) :
    parser.feedAll () chunks = parser.run () chunks.flatten :=
  splits.feedAll_eq turn_nil fun _ _ _ h => h

lemma run_encode {ev : BookEvent} (h : Fits ev) (w : List UInt8) :
    parser.run () (encodeBookEvent ev ++ w)
      = (parser.run () ((symbolBytes ev.symbol).drop (wireLen ev) ++ w)).after
          [{ ev with symbol := ofBytes ((symbolBytes ev.symbol).take (wireLen ev)) }]
          (feedRecordFixed + wireLen ev) := by
  have hturn : parser.turn () (encodeBookEvent ev ++ w)
      = .go () ((symbolBytes ev.symbol).drop (wireLen ev) ++ w)
          (some { ev with symbol := ofBytes ((symbolBytes ev.symbol).take (wireLen ev)) }) := by
    show turn _ = _
    rw [turn, decode_encode h.toInRange]
  have hle : wireLen ev ≤ (symbolBytes ev.symbol).length := Nat.mod_le _ _
  rw [Resumable.Parser.run_go hturn]
  congr 1
  rw [List.length_append, List.length_append, length_encodeBookEvent, List.length_drop]
  omega

/-- A symbol whose length is written whole. -/
lemma wireLen_eq_iff {ev : BookEvent} :
    wireLen ev = (symbolBytes ev.symbol).length ↔ ev.symbol.length < 2 ^ 16 := by
  rw [wireLen, length_symbolBytes]
  omega

/-- What it means that events come back from their bytes. -/
def ReadBack (evs : List BookEvent) (chunks : List (List UInt8)) : Prop :=
  parser.feedAll () chunks = ⟨evs, chunks.flatten.length, some ((), [])⟩

/-- A stream of events comes back, in whatever chunks, exactly if all symbols are short. -/
theorem feed_roundtrip_iff {evs : List BookEvent} (h : ∀ ev ∈ evs, Fits ev) :
    (∀ chunks, chunks.flatten = evs.flatMap encodeBookEvent → ReadBack evs chunks) ↔
      ∀ ev ∈ evs, ev.symbol.length < 2 ^ 16 := by
  have hrun : (∀ chunks, chunks.flatten = evs.flatMap encodeBookEvent → ReadBack evs chunks) ↔
      parser.run () (evs.flatMap encodeBookEvent)
        = ⟨evs, (evs.flatMap encodeBookEvent).length, some ((), [])⟩ := by
    unfold ReadBack
    constructor
    · intro hall
      simpa [feedAll_eq] using hall [evs.flatMap encodeBookEvent] (by simp)
    · intro hone chunks hchunks
      rw [feedAll_eq, hchunks, hone]
  rw [hrun]
  constructor
  · intro hback
    have houts : (parser.run () (evs.flatMap encodeBookEvent)).outs = evs := by rw [hback]
    clear hback hrun
    induction evs with
    | nil => simp
    | cons ev evs ih =>
      rw [List.flatMap_cons, run_encode (h ev (by simp))] at houts
      obtain ⟨hev, hrest⟩ := List.cons.inj houts
      have hlen : wireLen ev = (symbolBytes ev.symbol).length := by
        have hle : wireLen ev ≤ (symbolBytes ev.symbol).length := Nat.mod_le _ _
        have hsymbol := congrArg (fun ev => (symbolBytes ev.symbol).length) hev
        simp only [length_symbolBytes, length_ofBytes, List.length_take] at hle hsymbol ⊢
        omega
      rw [hlen, List.drop_length, List.nil_append] at hrest
      refine List.forall_mem_cons.2 ⟨wireLen_eq_iff.1 hlen, ?_⟩
      exact ih (fun ev hev => h ev (by simp [hev])) hrest
  · intro hshort
    clear hrun
    induction evs with
    | nil => exact Resumable.Parser.run_wait turn_nil
    | cons ev evs ih =>
      have hlen := wireLen_eq_iff.2 (hshort ev (by simp))
      rw [List.flatMap_cons, run_encode (h ev (by simp)), hlen, List.take_length,
        List.drop_length, List.nil_append,
        ih (fun ev hev => h ev (by simp [hev])) fun ev hev => hshort ev (by simp [hev]),
        ofBytes_symbolBytes (h ev (by simp)).symbol.2, List.length_append,
        length_encodeBookEvent]
      rfl

/-- Two ordinary events, cut in the middle of a record. -/
theorem feed_roundtrip_two :
    let evs : List BookEvent := [
      { seq := 1, symbol := "ABC", orderId := 7, price := 100, qty := 5 },
      { seq := 2, symbol := "XY", type := .trade, orderId := 7, takerId := 8, side := .sell,
        price := -3, qty := 2, displayed := 2 }]
    ReadBack evs [(evs.flatMap encodeBookEvent).take 70,
      (evs.flatMap encodeBookEvent).drop 70] := by
  intro evs
  refine (@feed_roundtrip_iff evs ?_).2 (by decide) _ (by simp)
  intro ev hev
  simp only [evs, List.mem_cons, List.not_mem_nil, or_false] at hev
  rcases hev with rfl | rfl <;> refine ⟨⟨?_, ?_, ?_, ?_, ?_, ?_, ?_⟩, by simp⟩ <;> decide

/-- An event whose symbol is just too long comes back without its symbol. -/
lemma head_of_long {ev : BookEvent} (h : Fits ev) (hlen : ev.symbol.length = 2 ^ 16) :
    (parser.feedAll () [encodeBookEvent ev]).outs.head? = some { ev with symbol := "" } := by
  have hzero : wireLen ev = 0 := by rw [wireLen, length_symbolBytes, hlen, Nat.mod_self]
  have hrun := run_encode h []
  rw [List.append_nil] at hrun
  rw [feedAll_eq, List.flatten_singleton, hrun, hzero]
  rfl

/-- A symbol of 65536 bytes. -/
theorem feed_truncates_symbol : ∃ ev, Fits ev ∧ ev.symbol.length = 2 ^ 16 ∧
    (parser.feedAll () [encodeBookEvent ev]).outs.head? = some { ev with symbol := "" } ∧
    ¬ ReadBack [ev] [encodeBookEvent ev] := by
  have hlen : (String.ofList (List.replicate (2 ^ 16) 'A')).length = 2 ^ 16 := by
    rw [String.length_ofList, List.length_replicate]
  have hfits : Fits { symbol := String.ofList (List.replicate (2 ^ 16) 'A') } := by
    refine ⟨⟨by decide, by decide, by decide, by decide, by decide, by decide, by decide⟩,
      fun h => ?_, fun c hc => ?_⟩
    · have h0 := congrArg String.length h
      rw [hlen] at h0
      exact absurd h0 (by decide)
    · rw [String.toList_ofList] at hc
      rw [List.eq_of_mem_replicate hc]
      decide
  have hhead := head_of_long hfits hlen
  refine ⟨_, hfits, hlen, hhead, fun hback => ?_⟩
  rw [hback, List.head?_cons, Option.some.injEq] at hhead
  exact hfits.symbol.1 (congrArg BookEvent.symbol hhead)

end FeedWire

end Codicis
