/-
The dense price ladder of one side of the book (`Level` and `Ladder` of
`core/order_book.cc`).

`levels[i]` is the level at the price `base + i`; the ladder grows at either end
when a price outside its range is touched.  `Ladder.level` reads the level at any
price, a price that is not covered being an empty level, and every fact about the
book is stated through it: `level_touch` says that growing the ladder changes no
level, and `level_modify` that writing one level changes only that one.
-/
import Codicis.Core.Order
import Mathlib.Data.List.Nodup
import Mathlib.Algebra.Order.Ring.Int
import Mathlib.Data.List.GetD
import Mathlib.Tactic.SplitIfs

namespace Codicis

/-- One price level: the queue of its orders, and the running totals. -/
structure Level where
  /-- Matchable quantity, hidden quantity and reserves included. -/
  total : ℤ := 0
  /-- Publicly visible quantity. -/
  displayed : ℤ := 0
  /-- The identifiers of the resting orders, first in, first out. -/
  fifo : List OrderId := []
deriving DecidableEq, Repr

/-- The dense price ladder of side `s`. -/
structure Ladder (s : Side) where
  levels : List Level := []
  base : ℤ := 0
  hasBase : Bool := false
  bestValid : Bool := false
  bestPrice : ℤ := 0
deriving DecidableEq, Repr

namespace Ladder

variable {s : Side}

/-- The price `p` is covered by the ladder. -/
def Covers (L : Ladder s) (p : ℤ) : Prop :=
  L.hasBase = true ∧ L.base ≤ p ∧ p < L.base + L.levels.length

instance (L : Ladder s) (p : ℤ) : Decidable (L.Covers p) :=
  inferInstanceAs (Decidable (_ ∧ _ ∧ _))

/-- The position of a covered price. -/
def index (L : Ladder s) (p : ℤ) : ℕ := (p - L.base).toNat

/-- The price `a` is a better (more aggressive) price than `b`. -/
def better (s : Side) (a b : ℤ) : Bool :=
  match s with
  | .buy => b < a
  | .sell => a < b

/-- Make the ladder cover the price `p`, growing it as needed. -/
def touch (L : Ladder s) (p : ℤ) : Ladder s :=
  if L.hasBase = false then
    { L with base := p, levels := [{}], hasBase := true }
  else if p < L.base then
    { L with levels := List.replicate (L.base - p).toNat {} ++ L.levels, base := p }
  else if L.base + L.levels.length ≤ p then
    { L with levels := L.levels ++
        List.replicate ((p - L.base).toNat + 1 - L.levels.length) {} }
  else L

/-- The level at `p`, if `p` is covered. -/
def at? (L : Ladder s) (p : ℤ) : Option Level :=
  if L.Covers p then L.levels[L.index p]? else none

/-- The level at `p`; a price that is not covered is an empty level. -/
def level (L : Ladder s) (p : ℤ) : Level := (L.at? p).getD {}

/-- Write to the level at the covered price `p`. -/
def modify (L : Ladder s) (p : ℤ) (f : Level → Level) : Ladder s :=
  { L with levels := L.levels.modify (L.index p) f }

/-- Quantity was added at `p`: keep the cached best price. -/
def onAdded (L : Ladder s) (p : ℤ) : Ladder s :=
  if L.bestValid = true ∧ better s p L.bestPrice = true then { L with bestPrice := p } else L

/-- The level at `p` may now be empty: drop the cached best price. -/
def onRemoved (L : Ladder s) (p : ℤ) : Ladder s :=
  if L.bestValid = true ∧ p = L.bestPrice then { L with bestValid := false } else L

/-- The covered prices, lowest first. -/
def prices (L : Ladder s) : List ℤ :=
  (List.range L.levels.length).map fun i : ℕ => L.base + (i : ℤ)

/-- The covered prices from the top of the book outward. -/
def outward (L : Ladder s) : List ℤ :=
  match s with
  | .buy => L.prices.reverse
  | .sell => L.prices

/-- The level at `p` is populated. -/
def Populated (L : Ladder s) (p : ℤ) : Prop := 0 < (L.level p).total

instance (L : Ladder s) : DecidablePred L.Populated :=
  fun p => inferInstanceAs (Decidable (0 < (L.level p).total))

/-- The best price of the side, through the cache. -/
def best (L : Ladder s) : Ladder s × Option ℤ :=
  if L.bestValid = true then (L, some L.bestPrice)
  else if L.hasBase = false then (L, none)
  else
    match L.outward.find? fun p => L.Populated p with
    | some p => ({ L with bestPrice := p, bestValid := true }, some p)
    | none => (L, none)

/-- The worst (farthest from the top) resident price of the side. -/
def worstPrice (L : Ladder s) : Option ℤ :=
  if L.hasBase = false then none else L.outward.reverse.find? fun p => L.Populated p

/-- The number of populated levels. -/
def populatedCount (L : Ladder s) : ℕ := L.levels.countP fun lvl => 0 < lvl.total

/-! ### Reading levels -/

lemma index_lt {L : Ladder s} {p : ℤ} (h : L.Covers p) : L.index p < L.levels.length := by
  obtain ⟨-, h1, h2⟩ := h
  unfold index
  omega

lemma at?_of_covers {L : Ladder s} {p : ℤ} (h : L.Covers p) :
    L.at? p = some (L.level p) := by
  simp [level, at?, h, List.getElem?_eq_getElem (index_lt h)]

lemma level_of_not_covers {L : Ladder s} {p : ℤ} (h : ¬ L.Covers p) : L.level p = {} := by
  simp [level, at?, h]

lemma covers_touch (L : Ladder s) (p : ℤ) : (L.touch p).Covers p := by
  unfold touch
  split_ifs with h1 h2 h3
  · exact ⟨rfl, le_refl p, by simp⟩
  · refine ⟨by simpa using h1, le_refl p, ?_⟩
    simp only [List.length_append, List.length_replicate]
    omega
  · refine ⟨by simpa using h1, by simpa using h2, ?_⟩
    simp only [List.length_append, List.length_replicate]
    omega
  · exact ⟨by simpa using h1, by omega, by omega⟩

lemma level_eq_getD {L : Ladder s} {q : ℤ} (h : L.Covers q) :
    L.level q = L.levels.getD (L.index q) {} := by
  simp [level, at?, h, List.getD_eq_getElem?_getD]

/-- Growing the ladder changes no level. -/
@[simp] lemma level_touch (L : Ladder s) (p q : ℤ) : (L.touch p).level q = L.level q := by
  by_cases hc : (L.touch p).Covers q
  · rw [level_eq_getD hc]
    revert hc
    unfold touch
    split_ifs with h1 h2 h3
    · -- the first level of an empty ladder
      rintro ⟨-, hq1, hq2⟩
      simp only [List.length_singleton] at hq1 hq2
      have hidx : (q - p).toNat = 0 := by omega
      rw [level_of_not_covers (by simp [Covers, h1])]
      simp [index, hidx]
    · -- new levels at the low end
      rintro ⟨hb, hq1, hq2⟩
      simp only [List.length_append, List.length_replicate] at hq1 hq2
      by_cases hq : L.base ≤ q
      · rw [level_eq_getD (L := L) ⟨hb, hq, by omega⟩,
          List.getD_append_right _ _ _ _ (by simp [index]; omega)]
        simp only [index, List.length_replicate]
        congr 1
        omega
      · rw [level_of_not_covers (L := L) (fun h => hq h.2.1),
          List.getD_append _ _ _ _ (by simp [index]; omega)]
        simp [index]
    · -- new levels at the high end
      rintro ⟨hb, hq1, hq2⟩
      simp only at hq1
      by_cases hq : q < L.base + L.levels.length
      · rw [level_eq_getD (L := L) ⟨hb, hq1, hq⟩, List.getD_append _ _ _ _ (by simp [index]; omega)]
        rfl
      · rw [level_of_not_covers (L := L) (fun h => hq h.2.2),
          List.getD_append_right _ _ _ _ (by simp [index]; omega)]
        simp [index]
    · intro hc
      rw [level_eq_getD hc]
  · rw [level_of_not_covers hc]
    refine (level_of_not_covers fun h => hc ?_).symm
    -- the range only grows
    revert h
    unfold touch
    split_ifs with h1 h2 h3
    · rintro ⟨hb, -⟩
      exact absurd hb (by simp [h1])
    · rintro ⟨hb, hq1, hq2⟩
      refine ⟨hb, ?_, ?_⟩
      · simp only
        omega
      · simp only [List.length_append, List.length_replicate]
        omega
    · rintro ⟨hb, hq1, hq2⟩
      refine ⟨hb, hq1, ?_⟩
      simp only [List.length_append, List.length_replicate]
      omega
    · exact id

/-- Writing a covered level changes that level only. -/
lemma level_modify {L : Ladder s} {p : ℤ} (h : L.Covers p) (f : Level → Level)
    (q : ℤ) : (L.modify p f).level q = if q = p then f (L.level p) else L.level q := by
  have hcov : (L.modify p f).Covers q ↔ L.Covers q := by simp [Covers, modify]
  have hlt := index_lt h
  by_cases hq : q = p
  · subst hq
    rw [if_pos rfl, level_eq_getD (hcov.2 h), level_eq_getD h]
    simp only [modify, index] at hlt ⊢
    rw [List.getD_eq_getElem _ _ (by simpa using hlt), List.getD_eq_getElem _ _ hlt,
      List.getElem_modify_eq]
  · rw [if_neg hq]
    by_cases hc : L.Covers q
    · have hne : L.index p ≠ L.index q := by
        obtain ⟨-, h1, h2⟩ := h
        obtain ⟨-, h3, h4⟩ := hc
        unfold index
        omega
      rw [level_eq_getD (hcov.2 hc), level_eq_getD hc]
      simp only [modify, index, List.getD_eq_getElem?_getD] at hne ⊢
      rw [List.getElem?_modify_ne _ _ hne]
    · rw [level_of_not_covers hc, level_of_not_covers (fun h' => hc (hcov.1 h'))]

@[simp] lemma level_onAdded (L : Ladder s) (p q : ℤ) : (L.onAdded p).level q = L.level q := by
  unfold onAdded
  split_ifs <;> rfl

@[simp] lemma level_onRemoved (L : Ladder s) (p q : ℤ) :
    (L.onRemoved p).level q = L.level q := by
  unfold onRemoved
  split_ifs <;> rfl

@[simp] lemma level_best (L : Ladder s) (q : ℤ) : L.best.1.level q = L.level q := by
  unfold best
  split_ifs
  · rfl
  · rfl
  · split <;> rfl

/-- The prices the loops of the matcher walk over are the covered ones. -/
lemma mem_outward {L : Ladder s} (hb : L.hasBase = true) {p : ℤ} :
    p ∈ L.outward ↔ L.Covers p := by
  have hmem : p ∈ L.prices ↔ L.Covers p := by
    simp only [prices, List.mem_map, List.mem_range, Covers, hb, true_and]
    constructor
    · rintro ⟨i, hi, rfl⟩
      omega
    · rintro ⟨h1, h2⟩
      exact ⟨(p - L.base).toNat, by omega, by omega⟩
  cases s
  · rw [outward, List.mem_reverse, hmem]
  · rw [outward, hmem]

/-! ### The worst populated price -/

lemma covers_of_populated {L : Ladder s} {p : ℤ} (h : L.Populated p) : L.Covers p := by
  by_contra hc
  rw [Populated, level_of_not_covers hc] at h
  simp at h

/-- The prices walk outward from best to worst. -/
lemma outward_pairwise (L : Ladder s) : L.outward.Pairwise fun p q => better s p q = true := by
  have hp : L.prices.Pairwise (· < ·) := by
    refine List.Pairwise.map _ (fun a b h => ?_) List.pairwise_lt_range
    omega
  cases s with
  | buy =>
    rw [outward, List.pairwise_reverse]
    simpa [better] using hp
  | sell => simpa [outward, better] using hp

/-- What is found first in a list relates to the others that could have been found. -/
lemma rel_of_find? {α : Type} {R : α → α → Prop} {f : α → Bool} {l : List α} {a c : α}
    (hl : l.Pairwise R) (ha : l.find? f = some a) (hc : c ∈ l) (hf : f c = true) (hne : c ≠ a) :
    R a c := by
  obtain ⟨-, l₁, l₂, rfl, hno⟩ := List.find?_eq_some_iff_append.1 ha
  rcases List.mem_append.1 hc with hc | hc
  · exact absurd hf (by simpa using hno c hc)
  · exact List.rel_of_pairwise_cons (List.pairwise_append.1 hl).2.1
      ((List.mem_cons.1 hc).resolve_left hne)

/-- The worst price is populated, and every other populated price is better. -/
lemma worstPrice_eq_some {L : Ladder s} {w : ℤ} (h : L.worstPrice = some w) :
    L.Populated w ∧ ∀ q, L.Populated q → q ≠ w → better s q w = true := by
  unfold worstPrice at h
  split_ifs at h with hb
  have hb' : L.hasBase = true := by simpa using hb
  refine ⟨by simpa using List.find?_some h, fun q hq hne => ?_⟩
  have hmem : q ∈ L.outward.reverse := by
    rw [List.mem_reverse, mem_outward hb']
    exact covers_of_populated hq
  exact rel_of_find? (R := fun p q => better s q p = true)
    (List.pairwise_reverse.2 L.outward_pairwise) h hmem (by simpa using hq) hne

lemma worstPrice_eq_none {L : Ladder s} (h : L.worstPrice = none) (q : ℤ) :
    ¬ L.Populated q := by
  intro hq
  have hc := covers_of_populated hq
  unfold worstPrice at h
  rw [if_neg (by simp [hc.1])] at h
  have := List.find?_eq_none.1 h q (by rw [List.mem_reverse, mem_outward hc.1]; exact hc)
  exact this (by simpa using hq)

lemma populatedCount_touch {L : Ladder s} (hb : L.hasBase = true) (p : ℤ) :
    (L.touch p).populatedCount = L.populatedCount := by
  unfold touch
  rw [if_neg (by simp [hb])]
  split_ifs <;> simp [populatedCount, List.countP_append, List.countP_replicate]

lemma populatedCount_touch_empty {L : Ladder s} (hb : L.hasBase = false) (p : ℤ) :
    (L.touch p).populatedCount = 0 := by
  simp [touch, hb, populatedCount]

@[simp] lemma populatedCount_onAdded (L : Ladder s) (p : ℤ) :
    (L.onAdded p).populatedCount = L.populatedCount := by
  unfold onAdded
  split_ifs <;> rfl

/-- Populating an empty level adds one to the count. -/
lemma populatedCount_modify {L : Ladder s} {p : ℤ} (h : L.Covers p) {f : Level → Level}
    (h0 : ¬ L.Populated p) (hf : 0 < (f (L.level p)).total) :
    (L.modify p f).populatedCount = L.populatedCount + 1 := by
  have hlt := index_lt h
  have hlev : L.level p = L.levels[L.index p] := by
    rw [level_eq_getD h, List.getD_eq_getElem _ _ hlt]
  rw [Populated, hlev] at h0
  rw [hlev] at hf
  have hsplit := List.take_append_drop (L.index p) L.levels
  rw [List.drop_eq_getElem_cons hlt] at hsplit
  simp only [populatedCount, modify]
  rw [List.modify_eq_take_cons_drop hlt]
  conv_rhs => rw [← hsplit]
  simp only [List.countP_append, List.countP_cons]
  simp [h0, hf]
  omega

lemma populatedCount_eq {L : Ladder s} (hb : L.hasBase = true) :
    L.populatedCount = L.prices.countP fun p => L.Populated p := by
  have hlevels : L.levels = (List.range L.levels.length).map fun i => L.levels.getD i {} := by
    refine List.ext_getElem (by simp) fun i h1 h2 => ?_
    simp [h1]
  rw [populatedCount, prices, List.countP_map]
  conv_lhs => rw [hlevels]
  rw [List.countP_map]
  refine List.countP_congr fun i hi => ?_
  have hi' := List.mem_range.1 hi
  have hc : L.Covers (L.base + (i : ℤ)) := ⟨hb, by omega, by omega⟩
  have hidx : L.index (L.base + (i : ℤ)) = i := by
    unfold index
    omega
  simp [Populated, level_eq_getD hc, hidx]

/-- When two levels are populated, one of them is not at `p`. -/
lemma exists_populated_ne {L : Ladder s} (hb : L.hasBase = true) (h : 1 < L.populatedCount)
    (p : ℤ) : ∃ q, L.Populated q ∧ q ≠ p := by
  by_contra hno
  have hall : ∀ q, L.Populated q → q = p := fun q hq => by_contra fun hne => hno ⟨q, hq, hne⟩
  have hle : L.prices.countP (fun q => L.Populated q) ≤ L.prices.count p := by
    refine List.countP_mono_left fun q _ hq => ?_
    simpa using hall q (by simpa using hq)
  have hnd : L.prices.Nodup := by
    refine List.Nodup.map (fun a b hab => ?_) List.nodup_range
    have : L.base + (a : ℤ) = L.base + (b : ℤ) := hab
    omega
  have := List.nodup_iff_count_le_one.1 hnd p
  rw [populatedCount_eq hb] at h
  omega

/-! ### The cached best price -/

/-- The cached best price, if there is one, is the best populated price, except that the
level `p` may have been emptied. -/
def CachedBut (L : Ladder s) (p : ℤ) : Prop :=
  L.bestValid = true → (L.Populated L.bestPrice ∨ L.bestPrice = p) ∧
    ∀ q, L.Populated q → q ≠ L.bestPrice → better s L.bestPrice q = true

/-- The cached best price, if there is one, is the best populated price. -/
def Cached (L : Ladder s) : Prop :=
  L.bestValid = true → L.Populated L.bestPrice ∧
    ∀ q, L.Populated q → q ≠ L.bestPrice → better s L.bestPrice q = true

lemma Cached.but {L : Ladder s} (h : L.Cached) (p : ℤ) : L.CachedBut p :=
  fun hv => ⟨.inl (h hv).1, (h hv).2⟩

/-- Of two prices one is better. -/
lemma better_total {p q : ℤ} (h : p ≠ q) (hn : better s p q = false) : better s q p = true := by
  cases s <;> simp only [better, decide_eq_true_eq, decide_eq_false_iff_not] at hn ⊢ <;> omega

lemma better_trans {p q r : ℤ} (h : better s p q = true) (h' : better s q r = true) :
    better s p r = true := by
  cases s <;> simp only [better, decide_eq_true_eq] at h h' ⊢ <;> omega

lemma better_irrefl {p : ℤ} : better s p p = false := by
  cases s <;> simp [better]

/-- Levels were emptied at most, and only at `p`. -/
lemma CachedBut.of_populated {L L' : Ladder s} {p : ℤ} (h : L.CachedBut p)
    (hv : L'.bestValid = L.bestValid) (hb : L'.bestPrice = L.bestPrice)
    (hle : ∀ q, L'.Populated q → L.Populated q)
    (hge : ∀ q, q ≠ p → L.Populated q → L'.Populated q) : L'.CachedBut p := by
  intro hvalid
  obtain ⟨hbest, hother⟩ := h (hv ▸ hvalid)
  rw [hb]
  refine ⟨?_, fun q hq => hother q (hle q hq)⟩
  by_cases hp : L.bestPrice = p
  · exact .inr hp
  · exact .inl (hge _ hp (hbest.resolve_right hp))

/-- The same levels, or a cache that was dropped. -/
lemma Cached.of_populated {L L' : Ladder s} (h : L.Cached)
    (hv : L'.bestValid = true → L.bestValid = true ∧ L'.bestPrice = L.bestPrice)
    (hpop : ∀ q, L'.Populated q ↔ L.Populated q) : L'.Cached := by
  intro hvalid
  obtain ⟨hv', hb⟩ := hv hvalid
  obtain ⟨hbest, hother⟩ := h hv'
  rw [hb]
  exact ⟨(hpop _).2 hbest, fun q hq => hother q ((hpop q).1 hq)⟩

/-- The emptied level is taken out of the cache. -/
lemma CachedBut.onRemoved {L : Ladder s} {p : ℤ} (h : L.CachedBut p) : (L.onRemoved p).Cached := by
  unfold Ladder.onRemoved
  split_ifs with hp
  · intro hv
    exact absurd hv (by simp)
  · intro hv
    obtain ⟨hbest, hother⟩ := h hv
    exact ⟨hbest.resolve_right fun hb => hp ⟨hv, hb.symm⟩, hother⟩

lemma CachedBut.of_level {L : Ladder s} {p : ℤ} (h : L.CachedBut p) (hp : L.Populated p) :
    L.Cached := by
  intro hv
  obtain ⟨hbest, hother⟩ := h hv
  exact ⟨hbest.elim id fun hb => hb ▸ hp, hother⟩

/-- A level that is populated is a candidate for the best price. -/
lemma Cached.onAdded {L L' : Ladder s} {p : ℤ} (h : L.Cached) (hv : L'.bestValid = L.bestValid)
    (hb : L'.bestPrice = L.bestPrice) (hp : L'.Populated p)
    (hpop : ∀ q, q ≠ p → (L'.Populated q ↔ L.Populated q)) : (L'.onAdded p).Cached := by
  have hlev : ∀ {q}, (L'.onAdded p).Populated q ↔ L'.Populated q := by
    intro q
    simp [Populated]
  intro hvalid
  have hvalid' : L'.bestValid = true := by
    unfold Ladder.onAdded at hvalid
    split_ifs at hvalid <;> exact hvalid
  obtain ⟨hbest, hother⟩ := h (hv ▸ hvalid')
  -- a populated price other than `p` is not better than the old best one
  have hold : ∀ q, L'.Populated q → q ≠ p → q ≠ L.bestPrice → better s L.bestPrice q = true :=
    fun q hq hne hne' => hother q ((hpop q hne).1 hq) hne'
  by_cases hbp : better s p L'.bestPrice = true
  · have hprice : (L'.onAdded p).bestPrice = p := by simp [Ladder.onAdded, hvalid', hbp]
    rw [hprice]
    refine ⟨hlev.2 hp, fun q hq hne => ?_⟩
    rw [hb] at hbp
    by_cases hqb : q = L.bestPrice
    · exact hqb ▸ hbp
    · exact better_trans hbp (hold q (hlev.1 hq) hne hqb)
  · have hprice : (L'.onAdded p).bestPrice = L.bestPrice := by
      rw [Ladder.onAdded, if_neg fun h => hbp h.2, hb]
    rw [hprice]
    refine ⟨hlev.2 ?_, fun q hq hne => ?_⟩
    · by_cases hpb : L.bestPrice = p
      · exact hpb ▸ hp
      · exact (hpop _ hpb).2 hbest
    · by_cases hqp : q = p
      · subst hqp
        exact better_total hne (by rw [← hb]; simpa using hbp)
      · exact hold q (hlev.1 hq) hqp hne

/-- The best price is the best populated one, and looking it up fills the cache. -/
lemma Cached.best {L : Ladder s} (h : L.Cached) :
    L.best.1.Cached ∧ (∀ p, L.best.2 = some p → L.Populated p ∧
      ∀ q, L.Populated q → q ≠ p → better s p q = true) ∧
      (L.best.2 = none → ∀ q, ¬ L.Populated q) := by
  by_cases hv : L.bestValid = true
  · have hbest : L.best = (L, some L.bestPrice) := by simp [Ladder.best, hv]
    rw [hbest]
    refine ⟨h, fun p hp => ?_, by simp⟩
    obtain rfl := Option.some.inj hp
    exact h hv
  by_cases hb : L.hasBase = false
  · have hbest : L.best = (L, none) := by simp [Ladder.best, hv, hb]
    rw [hbest]
    refine ⟨h, by simp, fun _ q hq => ?_⟩
    have := (covers_of_populated hq).1
    rw [hb] at this
    exact absurd this (by simp)
  have hb' : L.hasBase = true := by simpa using hb
  unfold Ladder.best
  rw [if_neg hv, if_neg hb]
  cases hf : L.outward.find? fun p => L.Populated p with
  | none =>
    refine ⟨h, by simp, fun _ q hq => ?_⟩
    have := List.find?_eq_none.1 hf q ((mem_outward hb').2 (covers_of_populated hq))
    exact this (by simpa using hq)
  | some p =>
    have hp' : L.Populated p := by simpa using List.find?_some hf
    have hother : ∀ q, L.Populated q → q ≠ p → better s p q = true := fun q hq hne =>
      rel_of_find? (R := fun p q => better s p q = true) L.outward_pairwise hf
        ((mem_outward hb').2 (covers_of_populated hq)) (by simpa using hq) hne
    refine ⟨fun _ => ⟨hp', hother⟩, fun q hq => ?_, by simp⟩
    obtain rfl := Option.some.inj hq
    exact ⟨hp', hother⟩

end Ladder

end Codicis
