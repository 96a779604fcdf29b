/-
Finite maps, and sums over the keys of a queue.

A hash map or a search tree of a program is an association list without repeated
keys (`AList` of Mathlib).  This file fixes the spelling used throughout: looking
a key up after an insertion or an erasure is an `if` on the key, `mapVal` visits
every value in place, and `pairs` enumerates a map.

A queue holds keys and the map holds the values, so that a total over a queue is
a sum of a function of the key.  `sum_map_update` says how such a sum moves when
the value of one key of the queue does.
-/
import Mathlib.Data.List.AList
import Mathlib.Algebra.BigOperators.Group.List.Basic
import Mathlib.Algebra.Order.BigOperators.Group.List
import Mathlib.Data.List.Nodup
import Mathlib.Algebra.Order.Ring.Int
import Mathlib.Algebra.Order.Group.Multiset

namespace Codicis

/-- A finite map. -/
abbrev Map (κ υ : Type) : Type := AList (fun _ : κ => υ)

namespace Map

variable {κ υ : Type} [DecidableEq κ]

lemma lookup_insert_eq (m : Map κ υ) (k k' : κ) (v : υ) :
    (m.insert k v).lookup k' = if k' = k then some v else m.lookup k' := by
  by_cases h : k' = k
  · subst h
    rw [if_pos rfl, AList.lookup_insert]
  · rw [if_neg h, AList.lookup_insert_ne h]

lemma lookup_erase_eq (m : Map κ υ) (k k' : κ) :
    (m.erase k).lookup k' = if k' = k then none else m.lookup k' := by
  by_cases h : k' = k
  · subst h
    rw [if_pos rfl, AList.lookup_erase]
  · rw [if_neg h, AList.lookup_erase_ne h]

lemma lookup_of_erase {m : Map κ υ} {k k' : κ} {v : υ} (h : (m.erase k).lookup k' = some v) :
    m.lookup k' = some v := by
  rw [lookup_erase_eq] at h
  split_ifs at h
  exact h

lemma mem_iff_lookup {m : Map κ υ} {k : κ} : k ∈ m ↔ ∃ v, m.lookup k = some v := by
  rw [← AList.lookup_isSome, Option.isSome_iff_exists]

/-- Apply a function to every value of a map, in place. -/
def mapVal (f : υ → υ) (m : Map κ υ) : Map κ υ where
  entries := m.entries.map fun e => ⟨e.1, f e.2⟩
  nodupKeys := by
    have h : (m.entries.map fun e : (_ : κ) × υ => (⟨e.1, f e.2⟩ : (_ : κ) × υ)).keys
        = m.entries.keys := by simp [List.keys, Function.comp_def]
    rw [List.NodupKeys, h]
    exact m.nodupKeys

omit [DecidableEq κ] in
@[simp] lemma keys_mapVal (f : υ → υ) (m : Map κ υ) : (mapVal f m).keys = m.keys := by
  simp [AList.keys, mapVal, List.keys, Function.comp_def]

lemma lookup_mapVal (f : υ → υ) (m : Map κ υ) (k : κ) :
    (mapVal f m).lookup k = (m.lookup k).map f := by
  obtain ⟨l, hl⟩ := m
  simp only [AList.lookup, mapVal]
  clear hl
  induction l with
  | nil => rfl
  | cons e l ih =>
    obtain ⟨k', v⟩ := e
    by_cases h : k = k'
    · subst h
      simp
    · rw [List.map_cons, List.dlookup_cons_ne _ _ h, List.dlookup_cons_ne _ _ h, ih]

/-- The pairs of a map, in the order in which the map enumerates them. -/
def pairs (m : Map κ υ) : List (κ × υ) := m.entries.map fun e => (e.1, e.2)

lemma mem_pairs {m : Map κ υ} {k : κ} {v : υ} : (k, v) ∈ m.pairs ↔ m.lookup k = some v := by
  rw [← Option.mem_def, AList.mem_lookup_iff, pairs, List.mem_map]
  constructor
  · rintro ⟨⟨k', v'⟩, hmem, heq⟩
    simp only [Prod.mk.injEq] at heq
    obtain ⟨rfl, rfl⟩ := heq
    exact hmem
  · intro hmem
    exact ⟨⟨k, v⟩, hmem, rfl⟩

omit [DecidableEq κ] in
lemma map_fst_pairs (m : Map κ υ) : m.pairs.map Prod.fst = m.keys := by
  simp [pairs, AList.keys, List.keys, Function.comp_def]

lemma pairs_insert (m : Map κ υ) (k : κ) (v : υ) :
    pairs (m.insert k v) = (k, v) :: pairs (m.erase k) := rfl

lemma pairs_perm_of_lookup {m : Map κ υ} {k : κ} {v : υ} (h : m.lookup k = some v) :
    m.pairs.Perm ((k, v) :: pairs (m.erase k)) := by
  have hmem : k ∈ m.entries.keys := AList.mem_keys.1 (mem_iff_lookup.2 ⟨v, h⟩)
  obtain ⟨v', l₁, l₂, -, hl, hk⟩ := List.exists_of_kerase hmem
  have hv' : m.lookup k = some v' := by
    rw [← Option.mem_def, AList.mem_lookup_iff, hl]
    simp
  obtain rfl := Option.some.inj (h.symm.trans hv')
  have he : (m.erase k).entries = l₁ ++ l₂ := hk
  rw [pairs, pairs, he, hl, List.map_append, List.map_cons, List.map_append]
  exact List.perm_middle

lemma erase_of_lookup_eq_none {m : Map κ υ} {k : κ} (h : m.lookup k = none) : m.erase k = m := by
  apply AList.ext
  exact List.kerase_of_notMem_keys fun hmem => by
    rw [AList.lookup_eq_none] at h
    exact h hmem

/-- The values of a map, in the order in which the map enumerates them. -/
def values (m : Map κ υ) : List υ := m.pairs.map Prod.snd

lemma values_insert_perm {m : Map κ υ} {k : κ} (h : m.lookup k = none) (v : υ) :
    (values (m.insert k v)).Perm (v :: m.values) := by
  rw [values, pairs_insert, erase_of_lookup_eq_none h]
  exact List.Perm.refl _

lemma values_erase_perm {m : Map κ υ} {k : κ} {v : υ} (h : m.lookup k = some v) :
    m.values.Perm (v :: values (m.erase k)) := (pairs_perm_of_lookup h).map Prod.snd

lemma keys_insert_perm {m : Map κ υ} {k : κ} (h : m.lookup k = none) (v : υ) :
    (m.insert k v).keys.Perm (k :: m.keys) := by
  rw [← map_fst_pairs, ← map_fst_pairs, pairs_insert, erase_of_lookup_eq_none h]
  exact List.Perm.refl _

lemma keys_erase_perm {m : Map κ υ} {k : κ} {v : υ} (h : m.lookup k = some v) :
    m.keys.Perm (k :: (m.erase k).keys) := by
  rw [← map_fst_pairs, ← map_fst_pairs]
  exact (pairs_perm_of_lookup h).map Prod.fst

/-- Inserting a value for a key that is there keeps the keys. -/
lemma keys_update_perm {m : Map κ υ} {k : κ} {v : υ} (h : m.lookup k = some v) (v' : υ) :
    (m.insert k v').keys.Perm m.keys := by
  refine (List.Perm.of_eq ?_).trans (keys_erase_perm h).symm
  rw [← map_fst_pairs, ← map_fst_pairs, pairs_insert]
  rfl

/-- Looking up all keys gives all values. -/
lemma filterMap_lookup_perm {m : Map κ υ} {ks : List κ} (h : ks.Perm m.keys) :
    (ks.filterMap fun k => m.lookup k).Perm m.values := by
  refine (h.filterMap _).trans (List.Perm.of_eq ?_)
  have hlook : ∀ e ∈ m.pairs, m.lookup e.1 = some e.2 := fun e he => mem_pairs.1 he
  rw [← map_fst_pairs, List.filterMap_map, values]
  calc m.pairs.filterMap ((fun k => m.lookup k) ∘ Prod.fst)
      = m.pairs.filterMap fun e => some e.2 := List.filterMap_congr hlook
    _ = m.pairs.map Prod.snd := by rw [List.filterMap_eq_map']

/-! ### Sums over a map -/

/-- The sum of a weight over the values of a map. -/
def sumBy (w : υ → ℤ) (m : Map κ υ) : ℤ := (m.values.map w).sum

lemma pairs_perm_of_lookup_eq {m m' : Map κ υ} (h : ∀ k, m'.lookup k = m.lookup k) :
    m'.pairs.Perm m.pairs := by
  refine List.Perm.map _ (List.lookup_ext m'.nodupKeys m.nodupKeys fun k v => ?_)
  have hk := h k
  rw [AList.lookup, AList.lookup] at hk
  rw [hk]

lemma sumBy_congr (w : υ → ℤ) {m m' : Map κ υ} (h : ∀ k, m'.lookup k = m.lookup k) :
    sumBy w m' = sumBy w m :=
  (((pairs_perm_of_lookup_eq h).map Prod.snd).map w).sum_eq

lemma sumBy_erase (w : υ → ℤ) (m : Map κ υ) (k : κ) :
    sumBy w (m.erase k) = sumBy w m - (m.lookup k).elim 0 w := by
  cases h : m.lookup k with
  | none => simp [erase_of_lookup_eq_none h]
  | some v =>
    have hsum := ((values_erase_perm h).map w).sum_eq
    rw [List.map_cons, List.sum_cons] at hsum
    simp only [sumBy, hsum, Option.elim_some]
    omega

/-- Changing the value of one key changes the sum by as much. -/
lemma sumBy_update (w : υ → ℤ) {m m' : Map κ υ} {k : κ} {x : Option υ}
    (h : ∀ k', m'.lookup k' = if k' = k then x else m.lookup k') :
    sumBy w m' = sumBy w m - (m.lookup k).elim 0 w + x.elim 0 w := by
  cases x with
  | none =>
    have heq : sumBy w m' = sumBy w (m.erase k) :=
      sumBy_congr w fun k' => by rw [h, lookup_erase_eq]
    rw [heq, sumBy_erase]
    simp
  | some v =>
    have heq : sumBy w m' = sumBy w ((m.erase k).insert k v) := by
      refine sumBy_congr w fun k' => ?_
      rw [h, lookup_insert_eq, lookup_erase_eq]
      split_ifs <;> rfl
    have hnone : (m.erase k).lookup k = none := by rw [lookup_erase_eq, if_pos rfl]
    have hsum := ((values_insert_perm hnone v).map w).sum_eq
    rw [List.map_cons, List.sum_cons] at hsum
    rw [heq, sumBy, hsum, ← sumBy_erase, Option.elim_some, sumBy]
    omega

lemma mem_values {m : Map κ υ} {v : υ} : v ∈ m.values ↔ ∃ k, m.lookup k = some v := by
  rw [values, List.mem_map]
  constructor
  · rintro ⟨⟨k, v'⟩, hmem, rfl⟩
    exact ⟨k, mem_pairs.1 hmem⟩
  · rintro ⟨k, hk⟩
    exact ⟨(k, v), mem_pairs.2 hk, rfl⟩

lemma sumBy_nonneg {w : υ → ℤ} {m : Map κ υ} (h : ∀ k v, m.lookup k = some v → 0 ≤ w v) :
    0 ≤ sumBy w m := by
  refine List.sum_nonneg fun x hx => ?_
  obtain ⟨v, hv, rfl⟩ := List.mem_map.1 hx
  obtain ⟨k, hk⟩ := mem_values.1 hv
  exact h k v hk

/-- A sum of nonnegative weights is at least each of them. -/
lemma le_sumBy {w : υ → ℤ} {m : Map κ υ} (h : ∀ k v, m.lookup k = some v → 0 ≤ w v) {k : κ} {v : υ}
    (hk : m.lookup k = some v) : w v ≤ sumBy w m := by
  refine List.single_le_sum (fun x hx => ?_) _ (List.mem_map_of_mem (mem_values.2 ⟨k, hk⟩))
  obtain ⟨v', hv, rfl⟩ := List.mem_map.1 hx
  obtain ⟨k', hk'⟩ := mem_values.1 hv
  exact h k' v' hk'

lemma sumBy_eq_zero {w : υ → ℤ} {m : Map κ υ} (h : ∀ k v, m.lookup k = some v → w v = 0) :
    sumBy w m = 0 := by
  refine List.sum_eq_zero fun x hx => ?_
  obtain ⟨v, hv, rfl⟩ := List.mem_map.1 hx
  obtain ⟨k, hk⟩ := mem_values.1 hv
  exact h k v hk

/-! ### Bags of values -/

variable {α : Type}

/-- The bag of what a function makes of the values of a map. -/
def bag (f : υ → α) (m : Map κ υ) : Multiset α := ↑(m.values.map f)

lemma bag_congr (f : υ → α) {m m' : Map κ υ} (h : ∀ k, m'.lookup k = m.lookup k) :
    bag f m' = bag f m :=
  Multiset.coe_eq_coe.2 (((pairs_perm_of_lookup_eq h).map Prod.snd).map f)

lemma bag_insert (f : υ → α) {m : Map κ υ} {k : κ} (h : m.lookup k = none) (v : υ) :
    bag f (m.insert k v) = bag f m + {f v} := by
  rw [add_comm, Multiset.singleton_add]
  exact Multiset.coe_eq_coe.2 ((values_insert_perm h v).map f)

lemma bag_erase (f : υ → α) {m : Map κ υ} {k : κ} {v : υ} (h : m.lookup k = some v) :
    bag f m = bag f (m.erase k) + {f v} := by
  rw [add_comm, Multiset.singleton_add]
  exact Multiset.coe_eq_coe.2 ((values_erase_perm h).map f)

/-- The bag of a map whose value for one key is replaced. -/
lemma bag_replace (f : υ → α) {m m' : Map κ υ} {k : κ} {x : Option υ}
    (h : ∀ k', m'.lookup k' = if k' = k then x else m.lookup k') :
    bag f m' = bag f (m.erase k) + ↑(x.toList.map f) := by
  have hnone : (m.erase k).lookup k = none := by rw [lookup_erase_eq, if_pos rfl]
  cases x with
  | none =>
    rw [Option.toList_none, List.map_nil, Multiset.coe_nil, add_zero]
    exact bag_congr f fun k' => by rw [h, lookup_erase_eq]
  | some v' =>
    have heq : bag f m' = bag f ((m.erase k).insert k v') := by
      refine bag_congr f fun k' => ?_
      rw [h, lookup_insert_eq, lookup_erase_eq]
      split_ifs <;> rfl
    rw [heq, bag_insert f hnone]
    rfl

/-- A map whose values are made into the same as those of another one has the smaller bag. -/
lemma bag_le {f : υ → α} {m m' : Map κ υ}
    (h : ∀ k v', m'.lookup k = some v' → ∃ v, m.lookup k = some v ∧ f v = f v') :
    bag f m' ≤ bag f m := by
  have hbag : ∀ m : Map κ υ, bag f m = ↑(m.keys.filterMap fun k => (m.lookup k).map f) := by
    intro m
    have hperm := (filterMap_lookup_perm (List.Perm.refl m.keys)).map f
    rw [List.map_filterMap] at hperm
    exact (Multiset.coe_eq_coe.2 hperm).symm
  have hsub : m'.keys.Subperm m.keys := by
    refine List.subperm_of_subset m'.keys_nodup fun k hk => ?_
    obtain ⟨v', hv'⟩ := mem_iff_lookup.1 (AList.mem_keys.2 hk)
    obtain ⟨v, hv, -⟩ := h k v' hv'
    exact AList.mem_keys.1 (mem_iff_lookup.2 ⟨v, hv⟩)
  have hsame : (m'.keys.filterMap fun k => (m'.lookup k).map f)
      = m'.keys.filterMap fun k => (m.lookup k).map f := by
    refine List.filterMap_congr fun k hk => ?_
    obtain ⟨v', hv'⟩ := mem_iff_lookup.1 (AList.mem_keys.2 hk)
    obtain ⟨v, hv, hf⟩ := h k v' hv'
    rw [hv, hv', Option.map_some, Option.map_some, hf]
  rw [hbag m, hbag m', hsame]
  exact Multiset.filterMap_le_filterMap _ (Multiset.coe_le.2 hsub)

lemma mem_bag {f : υ → α} {m : Map κ υ} {a : α} :
    a ∈ bag f m ↔ ∃ k v, m.lookup k = some v ∧ f v = a := by
  rw [bag, Multiset.mem_coe, List.mem_map]
  constructor
  · rintro ⟨v, hv, rfl⟩
    obtain ⟨k, hk⟩ := mem_values.1 hv
    exact ⟨k, v, hk, rfl⟩
  · rintro ⟨k, v, hk, rfl⟩
    exact ⟨v, mem_values.2 ⟨k, hk⟩, rfl⟩

end Map

/-! ### Sums over a queue -/

section Sums

variable {κ : Type} [DecidableEq κ]

/-- Changing the summand of one key of a queue without repetition changes the
sum by as much. -/
lemma sum_map_update {f g : κ → ℤ} {l : List κ} {k : κ} (hl : l.Nodup) (hk : k ∈ l)
    (h : ∀ x ∈ l, x ≠ k → g x = f x) :
    (l.map g).sum = (l.map f).sum + (g k - f k) := by
  have hrest : ((l.erase k).map g) = (l.erase k).map f := by
    refine List.map_congr_left fun x hx => h x (List.mem_of_mem_erase hx) ?_
    rintro rfl
    exact hl.not_mem_erase hx
  have hg := List.sum_map_erase g hk
  have hf := List.sum_map_erase f hk
  rw [hrest] at hg
  omega

lemma sum_map_erase_sub (f : κ → ℤ) {l : List κ} {k : κ} (hk : k ∈ l) :
    ((l.erase k).map f).sum = (l.map f).sum - f k := by
  have h := List.sum_map_erase f hk
  omega

end Sums

end Codicis
