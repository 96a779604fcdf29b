/-
The numbers of the helper protocol in 64 bits.

`ParseInt` of the reference helper, `ParseI64` of the storage client and the parser of
`pull_position` are one loop: the magnitude is built up digit by digit in a signed number, and the
sign is applied at the end.  `parseInt` computes with exact numbers; here a computation whose
signed value leaves 64 bits has no result, as the language leaves it undefined.

`survives_iff` says that the loop reads back every number of 64 bits but the least one, whose
magnitude does not fit.  The engine sends that number, to ask for the best levels of the sell side.
-/
import Codicis.Ipc.StorageClient
import Codicis.Lib.Decimal
import Codicis.Lib.Fallible

namespace Codicis

/-- The value, if it has 64 bits. -/
def checkI64 (z : ℤ) : Option ℤ := if InI64 z then some z else none

/-- The digit loop. -/
def checkedDigits (v : ℤ) : List Char → Option ℤ
  | [] => some v
  | c :: cs =>
    if c.isDigit = true then
      ((checkI64 (v * 10)).bind fun w => checkI64 (w + (c.toNat - '0'.toNat : ℕ))).bind fun w =>
        checkedDigits w cs
    else some v

/-- A decimal integer, optionally signed. -/
def checkedInt : List Char → Option ℤ
  | '-' :: cs => (checkedDigits 0 cs).bind fun v => checkI64 (-v)
  | '+' :: cs => checkedDigits 0 cs
  | cs => checkedDigits 0 cs

namespace StorageHelper

/-- `ParseInt` of the reference helper. -/
def parseInt64 (s : String) : Option ℤ := checkedInt s.toList

end StorageHelper

namespace StorageClient

/-- `ParseI64` of the storage client. -/
def parseI64 (s : String) : Option ℤ := checkedInt s.toList

/-- The parser in `pull_position`. -/
def parseNet (s : String) : Option ℤ := checkedInt s.toList

/-- One record of the reply to a level pull: the first four numbers. -/
def parseRecord64 (rec : List Char) : Option PulledOrder :=
  (((rec.splitOn ',').take 4).mapM checkedInt).map fun f =>
    ⟨toU64 (f.getD 0 0), f.getD 1 0, f.getD 2 0, toU64 (f.getD 3 0)⟩

/-- The records of the reply to a level pull (`ParseOrders`). -/
def parseOrders64 (blob : String) : Option (List PulledOrder) :=
  ((blob.toList.splitOn ';').filter (· ≠ [])).mapM parseRecord64

end StorageClient

/-- The three parsers read a number back from its text. -/
structure Survives (z : ℤ) : Prop where
  helper : StorageHelper.parseInt64 (toString z) = some z
  client : StorageClient.parseI64 (toString z) = some z
  position : StorageClient.parseNet (toString z) = some z

lemma checkI64_eq_some {z w : ℤ} : checkI64 z = some w ↔ InI64 z ∧ z = w := by
  unfold checkI64
  split_ifs with h <;> simp [h]

/-- The loop stays in 64 bits exactly if its result does. -/
lemma checkedDigits_eq {cs : List Char} (hcs : ∀ c ∈ cs, c.isDigit = true) {v : ℕ}
    (hv : v < 2 ^ 63) : checkedDigits v cs
      = if Nat.ofDigitChars 10 cs v < 2 ^ 63
        then some (Nat.ofDigitChars 10 cs v : ℤ) else none := by
  induction cs generalizing v with
  | nil => rw [checkedDigits, Nat.ofDigitChars_nil, if_pos hv]
  | cons c cs ih =>
    rw [checkedDigits, if_pos (hcs c (by simp)), Nat.ofDigitChars_cons]
    have hle := le_ofDigitChars cs (10 * v + (c.toNat - '0'.toNat))
    by_cases hin : 10 * v + (c.toNat - '0'.toNat) < 2 ^ 63
    · have hcast : (v : ℤ) * 10 + (c.toNat - '0'.toNat : ℕ)
          = ((10 * v + (c.toNat - '0'.toNat) : ℕ) : ℤ) := by
        push_cast
        ring
      have h₁ : checkI64 ((v : ℤ) * 10) = some ((v : ℤ) * 10) :=
        checkI64_eq_some.2 ⟨⟨by omega, by omega⟩, rfl⟩
      have h₂ : checkI64 ((v : ℤ) * 10 + (c.toNat - '0'.toNat : ℕ))
          = some ((10 * v + (c.toNat - '0'.toNat) : ℕ) : ℤ) :=
        checkI64_eq_some.2 ⟨⟨by omega, by omega⟩, hcast⟩
      rw [h₁, Option.bind_some, h₂, Option.bind_some, ih (fun d hd => hcs d (by simp [hd])) hin]
    · rw [if_neg (by omega)]
      have hnone : ((checkI64 ((v : ℤ) * 10)).bind fun w =>
          checkI64 (w + (c.toNat - '0'.toNat : ℕ))) = none := by
        rw [Option.bind_eq_none_iff]
        rintro w hw
        obtain ⟨-, rfl⟩ := checkI64_eq_some.1 hw
        exact if_neg fun hbad => hin (by have := hbad.2; omega)
      rw [hnone, Option.bind_none]

/-- What the loop reads is what is read with exact numbers. -/
lemma checkedInt_toString (z : ℤ) :
    checkedInt (toString z).toList = if z.natAbs < 2 ^ 63 then some z else none := by
  have hval : ∀ n : ℕ, Nat.ofDigitChars 10 n.repr.toList 0 = n := by
    intro n
    rw [Nat.toList_repr]
    exact Nat.ofDigitChars_ten_toDigits
  have hloop : ∀ n : ℕ, checkedDigits 0 n.repr.toList
      = if n < 2 ^ 63 then some (n : ℤ) else none := by
    intro n
    have h := @checkedDigits_eq n.repr.toList (fun _ => isDigit_of_mem_repr) 0 (by decide)
    rwa [hval] at h
  cases z with
  | ofNat n =>
    have hplain : checkedInt n.repr.toList = checkedDigits 0 n.repr.toList := by
      unfold checkedInt
      split
      · next cs heq => exact absurd (@isDigit_of_mem_repr n '-' (by simp [heq])) (by decide)
      · next cs heq => exact absurd (@isDigit_of_mem_repr n '+' (by simp [heq])) (by decide)
      · rfl
    exact hplain.trans (hloop n)
  | negSucc n =>
    rw [toList_toString_negSucc, checkedInt, hloop, Int.natAbs_negSucc]
    split_ifs with h
    · rw [Option.bind_some, checkI64_eq_some]
      exact ⟨⟨by omega, by omega⟩, by omega⟩
    · rfl

/-- A result of the loop is the exact one. -/
lemma parseInt_of_checkedInt {cs : List Char} {z : ℤ} (h : checkedInt cs = some z) :
    parseInt cs = z := by
  have hloop : ∀ {cs : List Char} {v : ℕ} {z : ℤ}, checkedDigits v cs = some z →
      (parseDigits v cs : ℤ) = z := by
    intro cs
    induction cs with
    | nil => exact fun h => Option.some.inj h
    | cons c cs ih =>
      intro v z h
      rw [checkedDigits] at h
      rw [parseDigits]
      split_ifs at h ⊢ with hc
      · obtain ⟨w, hw, h⟩ := Option.bind_eq_some_iff.1 h
        obtain ⟨u, hu, hw⟩ := Option.bind_eq_some_iff.1 hw
        obtain ⟨-, rfl⟩ := checkI64_eq_some.1 hu
        obtain ⟨-, rfl⟩ := checkI64_eq_some.1 hw
        exact ih (by exact_mod_cast h)
      · exact Option.some.inj h
  unfold checkedInt at h
  split at h
  · obtain ⟨v, hv, hz⟩ := Option.bind_eq_some_iff.1 h
    obtain ⟨-, rfl⟩ := checkI64_eq_some.1 hz
    exact congrArg Neg.neg (hloop (by exact_mod_cast hv))
  · exact hloop (by exact_mod_cast h)
  · next hminus hplus =>
    unfold parseInt
    split
    · next cs' => exact absurd rfl (hminus cs')
    · next cs' => exact absurd rfl (hplus cs')
    · exact hloop (by exact_mod_cast h)

lemma inI64_of_checkedInt {cs : List Char} {z : ℤ} (h : checkedInt cs = some z) : InI64 z := by
  have hloop : ∀ {cs : List Char} {v z : ℤ}, InI64 v → checkedDigits v cs = some z → InI64 z := by
    intro cs
    induction cs with
    | nil => exact fun hv h => Option.some.inj h ▸ hv
    | cons c cs ih =>
      intro v z hv h
      rw [checkedDigits] at h
      split_ifs at h with hc
      · obtain ⟨w, hw, h⟩ := Option.bind_eq_some_iff.1 h
        obtain ⟨u, -, hw⟩ := Option.bind_eq_some_iff.1 hw
        obtain ⟨hin, rfl⟩ := checkI64_eq_some.1 hw
        exact ih hin h
      · exact Option.some.inj h ▸ hv
  unfold checkedInt at h
  split at h
  · obtain ⟨v, -, hz⟩ := Option.bind_eq_some_iff.1 h
    obtain ⟨hin, rfl⟩ := checkI64_eq_some.1 hz
    exact hin
  · exact hloop (by decide) h
  · exact hloop (by decide) h

/-- A computation that stays in 64 bits reads the same number as the one that wraps around. -/
lemma wrappedInt_of_checkedInt {cs : List Char} {z : ℤ} (h : checkedInt cs = some z) :
    wrappedInt cs = z := by
  rw [wrappedInt_eq, parseInt_of_checkedInt h, wrapI64_of_inI64 (inI64_of_checkedInt h)]

/-- The records of a reply that are read in 64 bits are those read with exact numbers. -/
lemma StorageClient.parseOrders_of_parseOrders64 {blob : String} {os : List PulledOrder}
    (h : parseOrders64 blob = some os) : parseOrders blob = os := by
  refine map_of_mapM (fun rec _ o ho => ?_) h
  obtain ⟨f, hf, rfl⟩ := Option.map_eq_some_iff.1 ho
  have hnums := map_of_mapM (fun _ _ _ hz => parseInt_of_checkedInt hz) hf
  have hget : ∀ i < 4, f.getD i 0 = ((rec.splitOn ',').map parseInt).getD i 0 := by
    intro i hi
    simp only [← hnums, List.getD_eq_getElem?_getD, List.getElem?_map, List.getElem?_take, hi,
      if_true]
  simp only [parseRecord, hget 0 (by decide), hget 1 (by decide), hget 2 (by decide),
    hget 3 (by decide)]

/-- The parsers read a number of 64 bits back from its text, and stay within 64 bits, exactly if
it is not the least one. -/
theorem survives_iff {z : ℤ} (h : InI64 z) : Survives z ↔ z ≠ -2 ^ 63 := by
  have hin : z.natAbs < 2 ^ 63 ↔ z ≠ -2 ^ 63 := by
    unfold InI64 at h
    omega
  constructor
  · intro hs
    have hhelper := hs.helper
    rw [StorageHelper.parseInt64, checkedInt_toString] at hhelper
    split_ifs at hhelper with hlt
    exact hin.1 hlt
  · intro hne
    have hread : checkedInt (toString z).toList = some z := by
      rw [checkedInt_toString, if_pos (hin.2 hne)]
    exact ⟨hread, hread, hread⟩

/-- The largest number. -/
theorem survives_iff_max : InI64 (2 ^ 63 - 1) ∧ Survives (2 ^ 63 - 1) :=
  ⟨by decide, (survives_iff (by decide)).2 (by decide)⟩

/-- The request for the best levels of the sell side carries the least number, which the helper
cannot read. -/
theorem least_number_overflows :
    ("from_price", toString (-2 ^ 63 : ℤ)) ∈ (StorageClient.pullLevels "ABC" .sell
      (-2 ^ 63) 5).fields ∧
      InI64 (-2 ^ 63) ∧ StorageHelper.parseInt64 (toString (-2 ^ 63 : ℤ)) = none ∧
      ¬ Survives (-2 ^ 63) := by
  have hnone : StorageHelper.parseInt64 (toString (-2 ^ 63 : ℤ)) = none := by
    rw [StorageHelper.parseInt64, checkedInt_toString]
    decide
  refine ⟨by simp [StorageClient.pullLevels], by decide, hnone, fun h => ?_⟩
  have := h.helper
  rw [hnone] at this
  cases this

end Codicis
