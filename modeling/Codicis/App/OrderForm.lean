/-
The orders that a client can ask for (`ParseOrderForm` of `app/server.cc`).

All transports build their orders from a form, a list of fields.  Of an order they set the
side, the type, the quantity, the price of a limit order, the time in force and an auction;
everything else keeps its default, and the engine assigns the id.

Numbers are read digit by digit into 64 bits.  There is no check against overflow, and what
overflows wraps around here, as on the usual machines.  `asWritten_iff` says that the numbers of a
client are taken for what they are exactly if they fit.
-/
import Codicis.Core.Submit
import Codicis.Ipc.Message
import Codicis.Lib.Fallible

namespace Codicis

namespace OrderForm

/-- The fields of a form, in the order in which they came. -/
abbrev Form := List (String × String)

/-- The first field with this key. -/
def formGet (form : Form) (key : String) : Option String :=
  (form.find? fun kv => kv.1 = key).map Prod.snd

/-- The digit loop of `ParseI64`: any other character makes the text invalid. -/
def digits (v : ℤ) : List Char → Option ℤ
  | [] => some v
  | c :: cs =>
    if c < '0' ∨ '9' < c then none
    else digits (wrapI64 (v * 10 + (c.toNat - '0'.toNat : ℕ))) cs

/-- A decimal number with an optional minus sign. -/
def parseI64 (s : String) : Option ℤ :=
  match s.toList with
  | [] => none
  | ['-'] => none
  | '-' :: cs => (digits 0 cs).map fun v => wrapI64 (-v)
  | cs => digits 0 cs

def parseSide (s : String) : Option Side :=
  if s = "buy" then some .buy else if s = "sell" then some .sell else none

def parseType (s : String) : Option OrdType :=
  if s = "limit" then some .limit else if s = "market" then some .market else none

def parseTif (s : String) : Option Tif :=
  if s = "gtc" then some .gtc
  else if s = "day" then some .day
  else if s = "gtd" then some .gtd
  else if s = "ioc" then some .ioc
  else if s = "fok" then some .fok
  else if s = "gtx" then some .gtx
  else none

/-- The session auction that an order is designated for. -/
def parseAuction (s : String) : Option OrderFlags :=
  if s = "moo" then some { moo := true }
  else if s = "loo" then some { loo := true }
  else if s = "moc" then some { moc := true }
  else if s = "loc" then some { loc := true }
  else if s = "opg" then some { opg := true }
  else none

/-- A value that must be there. -/
def require {α : Type} (err : String) : Option α → Except String α
  | none => .error err
  | some a => .ok a

/-- The price of a limit order; a market order has none. -/
def formPrice (form : Form) : OrdType → Except String ℤ
  | .limit => require "missing or invalid price"
      (((formGet form "price").bind parseI64).filter (0 < ·))
  | .market => .ok 0

/-- The time in force; market orders never rest, unless the form says otherwise. -/
def formTif (form : Form) (type : OrdType) : Except String Tif :=
  match formGet form "tif" with
  | some s => require "invalid tif" (parseTif s)
  | none =>
    match type with
    | .limit => .ok .gtc
    | .market => .ok .ioc

/-- The flag of the auction, if there is one. -/
def formFlags (form : Form) : Except String OrderFlags :=
  match formGet form "auction" with
  | some s => require "invalid auction (moo|loo|moc|loc|opg)" (parseAuction s)
  | none => .ok {}

/-- Build an order from a form. -/
def parseOrderForm (form : Form) : Except String (Symbol × Order) := do
  let symbol ← require "missing symbol" ((formGet form "symbol").filter (· ≠ ""))
  let side ← require "missing or invalid side" ((formGet form "side").bind parseSide)
  let type ← require "missing or invalid type" ((formGet form "type").bind parseType)
  let qty ← require "missing or invalid qty" (((formGet form "qty").bind parseI64).filter (0 < ·))
  let price ← formPrice form type
  let tif ← formTif form type
  let flags ← formFlags form
  .ok (symbol, { side := side, type := type, qty := qty, price := price, tif := tif,
                 flags := flags })

example : parseOrderForm [("symbol", "ABC"), ("side", "sell"), ("type", "limit"), ("qty", "12"),
    ("price", "101"), ("auction", "loo")]
      = .ok ("ABC", { side := .sell, qty := 12, price := 101, flags := { loo := true } }) := by
  decide +kernel

/-- What all orders of forms have in common. -/
structure Formed (o : Order) : Prop where
  eq : o = { side := o.side, type := o.type, qty := o.qty, price := o.price, tif := o.tif,
             flags := o.flags }
  qty : 0 < o.qty
  price : o.type = .limit → 0 < o.price
  market : o.type = .market → o.price = 0
  /-- At most the flag of an auction is set. -/
  flags : o.flags.clearAuction = {}

section Parse

variable {α : Type} {form : Form}

lemma require_eq_ok {err : String} {o : Option α} {a : α} (h : require err o = .ok a) :
    o = some a := by
  cases o with
  | none => exact absurd h (by simp [require])
  | some b => exact congrArg some (Except.ok.inj h)

lemma formPrice_eq_ok {type : OrdType} {price : ℤ} (h : formPrice form type = .ok price) :
    (type = .limit → 0 < price) ∧ (type = .market → price = 0) := by
  cases type with
  | limit =>
    refine ⟨fun _ => ?_, by simp⟩
    simpa using (Option.filter_eq_some_iff.1 (require_eq_ok h)).2
  | market => exact ⟨by simp, fun _ => (Except.ok.inj h).symm⟩

lemma formFlags_eq_ok {flags : OrderFlags} (h : formFlags form = .ok flags) :
    flags.clearAuction = {} := by
  unfold formFlags at h
  split at h
  · have h := require_eq_ok h
    unfold parseAuction at h
    split_ifs at h <;> exact Option.some.inj h ▸ rfl
  · exact Except.ok.inj h ▸ rfl

/-- Where the numbers and the flags of an accepted order come from. -/
lemma parseOrderForm_eq_ok {symbol : Symbol} {o : Order}
    (h : parseOrderForm form = .ok (symbol, o)) :
    o = { side := o.side, type := o.type, qty := o.qty, price := o.price, tif := o.tif,
          flags := o.flags } ∧
      ((formGet form "qty").bind parseI64 = some o.qty ∧ 0 < o.qty) ∧
      formPrice form o.type = .ok o.price ∧ formFlags form = .ok o.flags := by
  obtain ⟨sym, -, h⟩ := bind_eq_ok h
  obtain ⟨side, -, h⟩ := bind_eq_ok h
  obtain ⟨type, -, h⟩ := bind_eq_ok h
  obtain ⟨qty, hqty, h⟩ := bind_eq_ok h
  obtain ⟨price, hprice, h⟩ := bind_eq_ok h
  obtain ⟨tif, -, h⟩ := bind_eq_ok h
  obtain ⟨flags, hflags, h⟩ := bind_eq_ok h
  obtain ⟨-, rfl⟩ := Prod.mk.inj (Except.ok.inj h)
  exact ⟨rfl, by simpa using Option.filter_eq_some_iff.1 (require_eq_ok hqty), hprice, hflags⟩

/-- What is accepted is well formed. -/
theorem formed_of_parse {symbol : Symbol} {o : Order}
    (h : parseOrderForm form = .ok (symbol, o)) : Formed o := by
  obtain ⟨heq, ⟨-, hqty⟩, hprice, hflags⟩ := parseOrderForm_eq_ok h
  obtain ⟨hlimit, hmarket⟩ := formPrice_eq_ok hprice
  exact ⟨heq, hqty, hlimit, hmarket, formFlags_eq_ok hflags⟩

/-! ### Numbers as the client wrote them -/

/-- The digit loop computes the number modulo `2 ^ 64`. -/
lemma digits_eq_some {cs : List Char} {v : ℕ} {r : ℤ} : digits (wrapI64 v) cs = some r ↔
    (∀ c ∈ cs, c.isDigit = true) ∧ r = wrapI64 (Nat.ofDigitChars 10 cs v) := by
  induction cs generalizing v with
  | nil =>
    rw [digits, Nat.ofDigitChars_nil, Option.some.injEq]
    exact ⟨fun h => ⟨by simp, h.symm⟩, fun h => h.2.symm⟩
  | cons c cs ih =>
    rw [digits, wrapI64_mul_add, List.forall_mem_cons, isDigit_iff, Nat.ofDigitChars_cons]
    split_ifs with hc
    · simp [hc]
    · have hcast : (v : ℤ) * 10 + (c.toNat - '0'.toNat : ℕ)
          = ((10 * v + (c.toNat - '0'.toNat) : ℕ) : ℤ) := by
        push_cast
        ring
      rw [hcast, ih]
      simp [hc]

/-- What is accepted is a written number, modulo `2 ^ 64`. -/
lemma parseI64_eq_some {s : String} {r : ℤ} :
    parseI64 s = some r ↔ ∃ z, Writes s.toList z ∧ r = wrapI64 z := by
  have hloop : ∀ {cs : List Char} {r : ℤ}, digits 0 cs = some r ↔
      (∀ c ∈ cs, c.isDigit = true) ∧ r = wrapI64 (Nat.ofDigitChars 10 cs 0) := by
    intro cs r
    exact @digits_eq_some cs 0 r
  unfold parseI64
  generalize s.toList = l
  constructor
  · intro h
    split at h
    · cases h
    · cases h
    · rename_i cs hne
      obtain ⟨v, hv, rfl⟩ := Option.map_eq_some_iff.1 h
      obtain ⟨hcs, hv⟩ := hloop.1 hv
      exact ⟨_, .neg (fun h0 => hne (by rw [h0])) hcs, by rw [hv, wrapI64_neg]⟩
    · rename_i hnil _ _
      obtain ⟨hcs, hr⟩ := hloop.1 h
      exact ⟨_, .pos hnil hcs, hr⟩
  · rintro ⟨z, hw, rfl⟩
    cases hw with
    | pos hne hcs =>
      split
      · exact absurd rfl hne
      · exact absurd (hcs '-' (by simp)) (by decide)
      · exact absurd (hcs '-' (by simp)) (by decide)
      · exact hloop.2 ⟨hcs, rfl⟩
    | @neg cs hne hcs =>
      cases cs with
      | nil => exact absurd rfl hne
      | cons c cs =>
        show (digits 0 (c :: cs)).map _ = _
        rw [hloop.2 ⟨hcs, rfl⟩, Option.map_some, wrapI64_neg]

/-- The parser of the helper protocol reads the same number, but it takes other texts, too. -/
lemma wrappedInt_of_parseI64 {s : String} {r : ℤ} (h : parseI64 s = some r) :
    wrappedInt s.toList = r := by
  obtain ⟨z, hz, rfl⟩ := parseI64_eq_some.1 h
  rw [wrappedInt_eq, parseInt_of_writes hz]

/-- Every number that the text writes has 64 bits. -/
def Fits (s : String) : Prop := ∀ z, Writes s.toList z → InI64 z

/-- The order has the quantity that the client wrote, and a limit order the price. -/
structure AsWritten (form : Form) (o : Order) : Prop where
  qty : ∃ s, formGet form "qty" = some s ∧ Writes s.toList o.qty ∧ InI64 o.qty
  price : o.type = .limit →
    ∃ s, formGet form "price" = some s ∧ Writes s.toList o.price ∧ InI64 o.price

/-- The numbers that are read from the form have 64 bits. -/
def FormFits (form : Form) (type : OrdType) : Prop :=
  (∀ s ∈ formGet form "qty", Fits s) ∧ (type = .limit → ∀ s ∈ formGet form "price", Fits s)

lemma faceValue_iff (s : String) :
    (∀ r, parseI64 s = some r → Writes s.toList r ∧ InI64 r) ↔ Fits s := by
  constructor
  · intro h z hz
    obtain ⟨hr, hin⟩ := h (wrapI64 z) (parseI64_eq_some.2 ⟨z, hz, rfl⟩)
    exact hz.unique hr ▸ hin
  · intro h r hr
    obtain ⟨z, hz, rfl⟩ := parseI64_eq_some.1 hr
    rw [wrapI64_of_inI64 (h z hz)]
    exact ⟨hz, h z hz⟩

/-- The number of a field of an order that is accepted. -/
lemma written_iff {key : String} {r : ℤ} (h : (formGet form key).bind parseI64 = some r) :
    (∃ s, formGet form key = some s ∧ Writes s.toList r ∧ InI64 r) ↔
      ∀ s ∈ formGet form key, Fits s := by
  obtain ⟨s, hs, hr⟩ := Option.bind_eq_some_iff.1 h
  rw [hs]
  constructor
  · rintro ⟨s', hs', hw, hin⟩ t ht z hz
    obtain rfl := Option.some.inj hs'
    obtain rfl := Option.some.inj ht
    exact hz.unique hw ▸ hin
  · intro hfits
    exact ⟨s, rfl, (faceValue_iff s).2 (hfits s rfl) r hr⟩

/-- A text that is accepted is taken at face value exactly if its number has 64 bits, and so an
order has the numbers that the client wrote exactly if those have. -/
theorem asWritten_iff (s : String) (form : Form) (symbol : Symbol) (o : Order) :
    ((∀ r, parseI64 s = some r → Writes s.toList r ∧ InI64 r) ↔ Fits s) ∧
    (parseOrderForm form = .ok (symbol, o) → (AsWritten form o ↔ FormFits form o.type)) := by
  refine ⟨faceValue_iff s, fun h => ?_⟩
  obtain ⟨-, ⟨hqty, -⟩, hprice, -⟩ := parseOrderForm_eq_ok h
  have hq := written_iff hqty
  have hp : o.type = .limit →
      ((∃ s, formGet form "price" = some s ∧ Writes s.toList o.price ∧ InI64 o.price) ↔
        ∀ s ∈ formGet form "price", Fits s) := by
    intro htype
    rw [htype] at hprice
    exact written_iff (Option.filter_eq_some_iff.1 (require_eq_ok hprice)).1
  constructor
  · exact fun hw => ⟨hq.1 hw.qty, fun ht => (hp ht).1 (hw.price ht)⟩
  · exact fun hf => ⟨hq.2 hf.1, fun ht => (hp ht).2 (hf.2 ht)⟩

/-- A limit order with the largest price. -/
theorem asWritten_iff_limit :
    let form : Form := [("symbol", "ABC"), ("side", "buy"), ("type", "limit"), ("qty", "12"),
      ("price", "9223372036854775807")]
    AsWritten form { qty := 12, price := 9223372036854775807 } := by
  intro form
  have hparse : parseOrderForm form = .ok ("ABC", { qty := 12, price := 9223372036854775807 }) := by
    decide +kernel
  have hfits : ∀ {s : String} {z : ℤ}, Writes s.toList z → InI64 z → Fits s :=
    fun hw hin z' hz' => hz'.unique hw ▸ hin
  have hq : Fits "12" := hfits (.pos (by decide) (List.all_eq_true.1 (by decide))) (by decide)
  have hp : Fits "9223372036854775807" :=
    hfits (.pos (by decide) (List.all_eq_true.1 (by decide))) (by decide +kernel)
  refine ((asWritten_iff "12" form _ _).2 hparse).2 ⟨fun s hs => ?_, fun _ s hs => ?_⟩
  · exact Option.some.inj hs ▸ hq
  · exact Option.some.inj hs ▸ hp

/-- A quantity of `2 ^ 64 + 5` is taken for five. -/
theorem wrapped_quantity_accepted :
    (parseOrderForm [("symbol", "ABC"), ("side", "buy"), ("type", "market"),
      ("qty", "18446744073709551621")]).map (fun r => r.2.qty) = .ok 5 ∧
    Writes "18446744073709551621".toList 18446744073709551621 ∧
    ¬ AsWritten [("symbol", "ABC"), ("side", "buy"), ("type", "market"),
      ("qty", "18446744073709551621")] { qty := 5, type := .market, tif := .ioc } := by
  have hw : Writes "18446744073709551621".toList 18446744073709551621 :=
    .pos (by decide) (List.all_eq_true.1 (by decide))
  refine ⟨by decide +kernel, hw, fun h => ?_⟩
  obtain ⟨s, hs, hwr, -⟩ := h.qty
  obtain rfl : "18446744073709551621" = s := Option.some.inj hs
  exact absurd (hw.unique hwr) (by decide)

end Parse

end OrderForm

end Codicis
