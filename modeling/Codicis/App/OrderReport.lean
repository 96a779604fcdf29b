/-
An order on its way to storage, as bytes.

The symbol of an order is whatever non-empty text a client put into its form, and the text
codec escapes nothing.  So a client can end a line of the report with the symbol, and even
the record.  `report_order_roundtrip_iff` says for which symbols the helper reads what the
engine has sent.
-/
import Codicis.App.OrderForm
import Codicis.Ipc.StorageClient
import Codicis.Ipc.TextHelperCodec

namespace Codicis

/-- ASCII hex digits. -/
def isHex (c : Char) : Bool :=
  ('0' ≤ c && c ≤ '9') || ('a' ≤ c && c ≤ 'f') || ('A' ≤ c && c ≤ 'F')

/-- The canonical form of a UUID: hex digits, with hyphens at four places. -/
def isValidUuidString (s : String) : Bool :=
  s.toList.length = 36 && s.toList.zipIdx.all fun ci =>
    if ci.2 = 8 ∨ ci.2 = 13 ∨ ci.2 = 18 ∨ ci.2 = 23 then ci.1 = '-' else isHex ci.1

lemma isHex_or_hyphen {s : String} (h : isValidUuidString s = true) {c : Char}
    (hc : c ∈ s.toList) : isHex c = true ∨ c = '-' := by
  obtain ⟨i, hi, rfl⟩ := List.getElem_of_mem hc
  rw [isValidUuidString, Bool.and_eq_true, List.all_eq_true] at h
  have hat := h.2 (s.toList[i], i) (List.mem_zipIdx_iff_getElem?.2 (by simp))
  simp only at hat
  split_ifs at hat
  · exact Or.inr (by simpa using hat)
  · exact Or.inl hat

/-- The owners that orders have. -/
def IsOwner (owner : String) : Prop := owner = "" ∨ isValidUuidString owner = true

/-- The report of an order, as a message with its correlation id. -/
def orderMessage (reqId : ℕ) (symbol : Symbol) (owner : String) (o : Order) : HelperMessage :=
  let req := StorageClient.reportOrder symbol owner o
  ⟨reqId, req.type, req.fields⟩

/-- The bytes of a message are read as this message and nothing else. -/
def ReadBack (msg : HelperMessage) : Prop :=
  HelperCodec.text.parser.run () (TextHelperCodec.encode msg)
    = ⟨[msg], (TextHelperCodec.encode msg).length, some ((), [])⟩

/-! ### The values of the other fields -/

/-- A text without line ends. -/
def Clean (s : String) : Prop := '\n' ∉ s.toList ∧ '\r' ∉ s.toList

lemma Clean.trimCr {s : String} (h : Clean s) :
    String.ofList (TextHelperCodec.trimCr s.toList) = s := by
  rw [TextHelperCodec.trimCr_eq_self_iff.2 fun hl => h.2 (List.mem_of_getLast? hl),
    String.ofList_toList]

lemma clean_owner {owner : String} (h : IsOwner owner) : Clean owner := by
  rcases h with rfl | h
  · exact ⟨by decide, by decide⟩
  · constructor
    · exact fun hc => (isHex_or_hyphen h hc).elim (by decide) (by decide)
    · exact fun hc => (isHex_or_hyphen h hc).elim (by decide) (by decide)

lemma clean_side (side : Side) : Clean (sideName side) := by
  cases side <;> exact ⟨by decide, by decide⟩

lemma clean_toString_nat (n : ℕ) : Clean (toString n) :=
  ⟨notMem_toString n rfl, notMem_toString n rfl⟩

lemma clean_toString_int (z : ℤ) : Clean (toString z) := by
  cases z with
  | ofNat n => exact clean_toString_nat n
  | negSucc n =>
    obtain ⟨hlf, hcr⟩ := clean_toString_nat (n + 1)
    rw [Clean, toList_toString_negSucc]
    exact ⟨List.not_mem_cons_of_ne_of_not_mem (by decide) hlf,
      List.not_mem_cons_of_ne_of_not_mem (by decide) hcr⟩

/-! ### Which symbols are read back -/

section Report

variable {symbol : Symbol} {owner : String} {reqId : ℕ}

lemma orderMessage_keysOk (o : Order) :
    TextHelperCodec.KeysOk (orderMessage reqId symbol owner o) := by
  show ∀ key ∈ ["symbol", "owner", "id", "side", "price", "qty"], _
  decide

lemma orderMessage_noLf_iff (howner : IsOwner owner) (o : Order) :
    TextHelperCodec.NoLf (orderMessage reqId symbol owner o) ↔ '\n' ∉ symbol.toList := by
  constructor
  · exact fun h => h.2 ("symbol", symbol) (by simp [orderMessage, StorageClient.reportOrder])
  · intro hsym
    refine ⟨show '\n' ∉ "report_order".toList by decide, fun kv hkv => ?_⟩
    simp only [orderMessage, StorageClient.reportOrder, List.mem_cons, List.not_mem_nil,
      or_false] at hkv
    rcases hkv with rfl | rfl | rfl | rfl | rfl | rfl
    · exact hsym
    · exact (clean_owner howner).1
    · exact (clean_toString_nat o.id).1
    · exact (clean_side o.side).1
    · exact (clean_toString_int o.price).1
    · exact (clean_toString_int o.qty).1

lemma trimmed_orderMessage_iff (howner : IsOwner owner) (o : Order) :
    TextHelperCodec.trimmed (orderMessage reqId symbol owner o)
      = orderMessage reqId symbol owner o ↔
      symbol.toList.getLast? ≠ some '\r' := by
  have htype : String.ofList (TextHelperCodec.trimCr "report_order".toList) = "report_order" := by
    decide
  rw [← TextHelperCodec.trimCr_eq_self_iff]
  simp only [TextHelperCodec.trimmed, orderMessage, StorageClient.reportOrder, List.map_cons,
    List.map_nil, htype, (clean_owner howner).trimCr, (clean_toString_nat o.id).trimCr,
    (clean_side o.side).trimCr, (clean_toString_int o.price).trimCr,
    (clean_toString_int o.qty).trimCr]
  constructor
  · intro h
    have hsym : String.ofList (TextHelperCodec.trimCr symbol.toList) = symbol := by simpa using h
    rw [← String.toList_ofList (l := TextHelperCodec.trimCr symbol.toList), hsym]
  · intro h
    rw [h, String.ofList_toList]

/-- The report of an order is read back exactly if its symbol has no line feed and does not
end in a carriage return. -/
theorem report_order_roundtrip_iff (id : OrderId) (howner : IsOwner owner)
    (hreq : reqId < 2 ^ 64) :
    ∀ form o, OrderForm.parseOrderForm form = .ok (symbol, o) →
      (ReadBack (orderMessage reqId symbol owner { o with id := id }) ↔
        '\n' ∉ symbol.toList ∧ symbol.toList.getLast? ≠ some '\r') := by
  intro form o _
  rw [← orderMessage_noLf_iff howner { o with id := id },
    ← trimmed_orderMessage_iff howner { o with id := id }]
  generalize hmsg : orderMessage reqId symbol owner { o with id := id } = msg
  have hkeys : TextHelperCodec.KeysOk msg := hmsg ▸ orderMessage_keysOk _
  have hid : msg.reqId < 2 ^ 64 := hmsg ▸ hreq
  constructor
  · intro h
    obtain ⟨rest, hdec⟩ := HelperCodec.decode_of_run (congrArg Resumable.Verdict.outs h)
    -- whatever is decoded has no line feeds, so that the message comes back trimmed
    have hnoLf := TextHelperCodec.noLf_of_decode hdec
    have hdec' := TextHelperCodec.decode_encode hkeys hnoLf hid []
    rw [List.append_nil] at hdec'
    exact ⟨hnoLf, (TextHelperCodec.HelperDecode.complete.inj (hdec'.symm.trans hdec)).1⟩
  · rintro ⟨hnoLf, htrim⟩
    have hdec := TextHelperCodec.decode_encode hkeys hnoLf hid []
    rw [List.append_nil, htrim] at hdec
    exact HelperCodec.run_of_decode (by decide) hdec

/-- An ordinary symbol, and an owner with a UUID. -/
theorem report_order_roundtrip_plain :
    ReadBack (orderMessage 7 "ABC" "00000000-0000-4000-8000-00000000000a"
      { id := 5, side := .sell, qty := 12, price := 101 }) :=
  (report_order_roundtrip_iff 5 (Or.inr (by decide +kernel)) (by decide)
    [("symbol", "ABC"), ("side", "sell"), ("type", "limit"), ("qty", "12"), ("price", "101")]
    { side := .sell, qty := 12, price := 101 } (by decide +kernel)).2 ⟨by decide, by decide⟩

/-- A symbol that ends the record and begins another: the helper is told to cancel order 7 of
another symbol. -/
theorem report_order_injects_cancel : ∃ form symbol o,
    OrderForm.parseOrderForm form = .ok (symbol, o) ∧
    (HelperCodec.text.parser.run ()
      (TextHelperCodec.encode (orderMessage 1 symbol "" { o with id := 5 }))).outs
        = [⟨1, "report_order", [("symbol", "A")]⟩,
           ⟨2, "report_cancel", [("symbol", "B"), ("id", "7"), ("owner", ""), ("id", "5"),
             ("side", "buy"), ("price", "100"), ("qty", "1")]⟩] ∧
    ¬ ReadBack (orderMessage 1 symbol "" { o with id := 5 }) := by
  refine ⟨[("symbol", "A\n\nreq_id=2\ntype=report_cancel\nsymbol=B\nid=7"), ("side", "buy"),
      ("type", "limit"), ("qty", "1"), ("price", "100")],
    "A\n\nreq_id=2\ntype=report_cancel\nsymbol=B\nid=7", { qty := 1, price := 100 },
    by decide +kernel, by decide +kernel, fun h => ?_⟩
  have hlen := congrArg (fun r => r.outs.length) h
  revert hlen
  decide +kernel

end Report

end Codicis
