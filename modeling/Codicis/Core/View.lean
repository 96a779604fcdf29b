/-
The resting book, abstractly.

What the ladders, the order map and the pegged set of a book say about the orders
that rest is a `View`: the queue and the total at every side and price, the entry
of every identifier, and the pegged identifiers.  `View.Sound` is the structure
invariant: each resting order is queued exactly once, at its own side and price,
and each total is the sum of the leaves of its queue.

Every change the book makes to the resting orders is one of the mutations `Mut`.
A mutation has a guard (`Mut.Ok`), an effect on the view (`Mut.apply`), and
the events, executions and re-queued orders that go with it.  Soundness is
proved for single mutations, and so for the runs of mutations (`View.Run`) that
the operations of the book are shown to be.
-/
import Codicis.Core.Match
import Mathlib.Algebra.Order.BigOperators.Group.List

namespace Codicis

/-- What a book says about the orders that rest in it. -/
@[ext] structure View where
  /-- The queue at a side and price. -/
  queue : Side → ℤ → List OrderId
  /-- The matchable quantity at a side and price. -/
  total : Side → ℤ → ℤ
  /-- The displayed quantity at a side and price. -/
  shown : Side → ℤ → ℤ
  /-- The resting order with an identifier. -/
  entry : OrderId → Option Entry
  /-- The resting orders that reprice. -/
  pegged : List OrderId

/-- An entry that may rest: it has quantity left, and an iceberg shows a positive
part of it and can be replenished. -/
structure Entry.Ok (e : Entry) : Prop where
  leaves_pos : 0 < e.order.leaves
  slice_pos : e.order.flags.iceberg = true → 0 < e.slice
  slice_le : e.order.flags.iceberg = true → e.slice ≤ e.order.leaves
  display_pos : e.order.flags.iceberg = true → 0 < e.order.displayQty

/-- An aggressor is not shown more than is left. -/
lemma Entry.Ok.exposed_le {e : Entry} (h : e.Ok) : Book.exposed e ≤ e.order.leaves := by
  unfold Book.exposed
  split_ifs with hi
  · exact h.slice_le hi
  · exact le_rfl

lemma Entry.Ok.exposed_pos {e : Entry} (h : e.Ok) : 0 < Book.exposed e := by
  unfold Book.exposed
  split_ifs with hi
  · exact h.slice_pos hi
  · exact h.leaves_pos

/-- The displayed quantity of an entry. -/
def Entry.displayed (e : Entry) : ℤ := displayedOf e.order.flags e.order.leaves e.slice

lemma Entry.Ok.displayed_nonneg {e : Entry} (h : e.Ok) : 0 ≤ e.displayed := by
  unfold Entry.displayed displayedOf
  split_ifs with hh hi
  · exact le_rfl
  · exact (h.slice_pos hi).le
  · exact h.leaves_pos.le

/-- What an order displays after a fill that leaves some of its slice. -/
lemma Entry.displayed_fill (e : Entry) (q : ℤ) :
    (e.fill q).displayed = e.displayed - if e.order.flags.hidden = true then 0 else q := by
  unfold Entry.displayed displayedOf Entry.fill
  split_ifs <;> simp_all

/-- The side, the price and the quantity left of an order. -/
def Order.key (o : Order) : Side × ℤ × ℤ := (o.side, o.price, o.leaves)

namespace View

/-- The quantity left of a resting order. -/
def leaves (v : View) (id : OrderId) : ℤ :=
  match v.entry id with
  | none => 0
  | some e => e.order.leaves

/-- The structure invariant of the resting book. -/
structure Sound (v : View) : Prop where
  mem_queue : ∀ s p id, id ∈ v.queue s p ↔
    ∃ e, v.entry id = some e ∧ e.order.side = s ∧ e.order.price = p
  nodup : ∀ s p, (v.queue s p).Nodup
  total_eq : ∀ s p, v.total s p = ((v.queue s p).map v.leaves).sum
  id_eq : ∀ id e, v.entry id = some e → e.order.id = id
  entry_ok : ∀ id e, v.entry id = some e → e.Ok
  pegged_ok : ∀ id ∈ v.pegged, ∃ e, v.entry id = some e ∧ e.order.peg.isSome = true

/-! ### Elementary changes -/

/-- Queue an entry at the back of its level. -/
def link (v : View) (e : Entry) : View where
  queue s p := if s = e.order.side ∧ p = e.order.price then v.queue s p ++ [e.order.id]
    else v.queue s p
  total s p := if s = e.order.side ∧ p = e.order.price then v.total s p + e.order.leaves
    else v.total s p
  shown s p := if s = e.order.side ∧ p = e.order.price then v.shown s p + e.displayed
    else v.shown s p
  entry id := if id = e.order.id then some e else v.entry id
  pegged := v.pegged

/-- Take an entry out of its level. -/
def unlink (v : View) (e : Entry) : View where
  queue s p := if s = e.order.side ∧ p = e.order.price then (v.queue s p).erase e.order.id
    else v.queue s p
  total s p := if s = e.order.side ∧ p = e.order.price then v.total s p - e.order.leaves
    else v.total s p
  shown s p := if s = e.order.side ∧ p = e.order.price then v.shown s p - e.displayed
    else v.shown s p
  entry id := if id = e.order.id then none else v.entry id
  pegged := v.pegged

/-- Reduce an entry in place. -/
def reduce (v : View) (e : Entry) (q : ℤ) : View where
  queue := v.queue
  total s p := if s = e.order.side ∧ p = e.order.price then v.total s p - q else v.total s p
  shown s p := if s = e.order.side ∧ p = e.order.price ∧ e.order.flags.hidden = false
    then v.shown s p - q else v.shown s p
  entry id := if id = e.order.id then some (e.fill q) else v.entry id
  pegged := v.pegged

/-- A replenished slice is displayed, also that of a hidden order. -/
def reveal (v : View) (e : Entry) : View :=
  { v with shown := fun s p =>
      if s = e.order.side ∧ p = e.order.price ∧ e.order.flags.hidden = true
      then v.shown s p + e.slice else v.shown s p }

/-- An identifier is no longer pegged. -/
def unpeg (v : View) (id : OrderId) : View := { v with pegged := v.pegged.filter (· ≠ id) }

/-- Forget the orders of a level. -/
def evict (v : View) (s : Side) (p : ℤ) : View where
  queue t q := if t = s ∧ q = p then [] else v.queue t q
  total t q := if t = s ∧ q = p then 0 else v.total t q
  shown t q := if t = s ∧ q = p then 0 else v.shown t q
  entry id := if id ∈ v.queue s p then none else v.entry id
  pegged := v.pegged.filter (· ∉ v.queue s p)

lemma leaves_of_entry {v : View} {id : OrderId} {e : Entry} (h : v.entry id = some e) :
    v.leaves id = e.order.leaves := by simp [leaves, h]

lemma Sound.leaves_nonneg {v : View} (hv : v.Sound) (id : OrderId) : 0 ≤ v.leaves id := by
  unfold leaves
  cases he : v.entry id with
  | none => exact le_rfl
  | some e => exact (hv.entry_ok id e he).leaves_pos.le

lemma Sound.total_nonneg {v : View} (hv : v.Sound) (s : Side) (p : ℤ) : 0 ≤ v.total s p := by
  rw [hv.total_eq]
  refine List.sum_nonneg fun x hx => ?_
  obtain ⟨id, -, rfl⟩ := List.mem_map.1 hx
  exact hv.leaves_nonneg id

/-- A level has at least the quantity of any of its orders. -/
lemma Sound.leaves_le_total {v : View} (hv : v.Sound) {id : OrderId} {e : Entry}
    (he : v.entry id = some e) : e.order.leaves ≤ v.total e.order.side e.order.price := by
  have hin := (hv.mem_queue _ _ id).2 ⟨e, he, rfl, rfl⟩
  rw [hv.total_eq, ← leaves_of_entry he]
  refine List.single_le_sum (fun x hx => ?_) _ (List.mem_map_of_mem hin)
  obtain ⟨id', -, rfl⟩ := List.mem_map.1 hx
  exact hv.leaves_nonneg id'

/-- A level has quantity when an order rests there. -/
lemma Sound.total_pos_iff {v : View} (hv : v.Sound) {s : Side} {p : ℤ} :
    0 < v.total s p ↔ ∃ id e, v.entry id = some e ∧ e.order.side = s ∧ e.order.price = p := by
  constructor
  · intro hpos
    by_contra hno
    have hnil : v.queue s p = [] := by
      refine List.eq_nil_iff_forall_not_mem.2 fun id hid => hno ?_
      obtain ⟨e, he⟩ := (hv.mem_queue s p id).1 hid
      exact ⟨id, e, he⟩
    rw [hv.total_eq, hnil] at hpos
    exact absurd hpos (by simp)
  · rintro ⟨id, e, he, rfl, rfl⟩
    exact lt_of_lt_of_le (hv.entry_ok id e he).leaves_pos (hv.leaves_le_total he)

/-! ### Sums over a level -/

/-- The weight of a resting order. -/
def weigh (v : View) (w : Entry → ℤ) (id : OrderId) : ℤ := (v.entry id).elim 0 w

/-- The weight of the orders of a level. -/
def sumOf (v : View) (w : Entry → ℤ) (s : Side) (p : ℤ) : ℤ := ((v.queue s p).map (v.weigh w)).sum

lemma leaves_eq_weigh (v : View) : v.leaves = v.weigh (·.order.leaves) := by
  funext id
  unfold leaves weigh
  cases v.entry id <;> rfl

section Changes

variable {v : View} {e : Entry}

lemma Sound.total_eq_sumOf (hv : v.Sound) (s : Side) (p : ℤ) :
    v.total s p = v.sumOf (·.order.leaves) s p := by
  rw [hv.total_eq, leaves_eq_weigh]
  rfl

lemma Sound.notMem_queue (hv : v.Sound) {id : OrderId} (h : v.entry id = none) (s : Side) (p : ℤ) :
    id ∉ v.queue s p := by
  intro hmem
  obtain ⟨e', he', -⟩ := (hv.mem_queue s p _).1 hmem
  rw [h] at he'
  exact absurd he' (by simp)

lemma Sound.mem_queue_entry (hv : v.Sound) (he : v.entry e.order.id = some e) {s : Side} {p : ℤ} :
    e.order.id ∈ v.queue s p ↔ s = e.order.side ∧ p = e.order.price := by
  constructor
  · intro hmem
    obtain ⟨e', he', rfl, rfl⟩ := (hv.mem_queue s p _).1 hmem
    rw [he] at he'
    obtain rfl := Option.some.inj he'
    exact ⟨rfl, rfl⟩
  · rintro ⟨rfl, rfl⟩
    exact (hv.mem_queue _ _ _).2 ⟨e, he, rfl, rfl⟩

/-- An order joins its level. -/
lemma Sound.sumOf_link (hv : v.Sound) (hnew : v.entry e.order.id = none) (w : Entry → ℤ) (s : Side)
    (p : ℤ) : (v.link e).sumOf w s p =
      if s = e.order.side ∧ p = e.order.price then v.sumOf w s p + w e else v.sumOf w s p := by
  have hmap : (v.queue s p).map ((v.link e).weigh w) = (v.queue s p).map (v.weigh w) := by
    refine List.map_congr_left fun id hid => ?_
    have hne : id ≠ e.order.id := fun h => hv.notMem_queue hnew s p (h ▸ hid)
    simp [weigh, View.link, hne]
  have hself : (v.link e).weigh w e.order.id = w e := by simp [weigh, View.link]
  unfold sumOf
  by_cases h : s = e.order.side ∧ p = e.order.price
  · have hq : (v.link e).queue s p = v.queue s p ++ [e.order.id] := by simp [View.link, h]
    rw [if_pos h, hq, List.map_append, List.sum_append, hmap]
    simp [hself]
  · have hq : (v.link e).queue s p = v.queue s p := by simp [View.link, h]
    rw [if_neg h, hq, hmap]

/-- An order leaves its level. -/
lemma Sound.sumOf_unlink (hv : v.Sound) (he : v.entry e.order.id = some e) (w : Entry → ℤ)
    (s : Side) (p : ℤ) : (v.unlink e).sumOf w s p =
      if s = e.order.side ∧ p = e.order.price then v.sumOf w s p - w e else v.sumOf w s p := by
  have hmap : ∀ l : List OrderId, e.order.id ∉ l →
      l.map ((v.unlink e).weigh w) = l.map (v.weigh w) := by
    intro l hl
    refine List.map_congr_left fun id hid => ?_
    have hne : id ≠ e.order.id := fun h => hl (h ▸ hid)
    simp [weigh, View.unlink, hne]
  have hself : v.weigh w e.order.id = w e := by simp [weigh, he]
  unfold sumOf
  by_cases h : s = e.order.side ∧ p = e.order.price
  · have hq : (v.unlink e).queue s p = (v.queue s p).erase e.order.id := by simp [View.unlink, h]
    rw [if_pos h, hq, hmap _ (hv.nodup s p).not_mem_erase,
      sum_map_erase_sub _ ((hv.mem_queue_entry he).2 h), hself]
  · have hq : (v.unlink e).queue s p = v.queue s p := by simp [View.unlink, h]
    rw [if_neg h, hq, hmap _ fun hmem => h ((hv.mem_queue_entry he).1 hmem)]

/-- An order changes in place. -/
lemma Sound.sumOf_reduce (hv : v.Sound) (he : v.entry e.order.id = some e) (q : ℤ)
    (w : Entry → ℤ) (s : Side) (p : ℤ) : (v.reduce e q).sumOf w s p =
      if s = e.order.side ∧ p = e.order.price then v.sumOf w s p + (w (e.fill q) - w e)
      else v.sumOf w s p := by
  have hself : (v.reduce e q).weigh w e.order.id = w (e.fill q) := by simp [weigh, View.reduce]
  have hold : v.weigh w e.order.id = w e := by simp [weigh, he]
  have hother : ∀ id, id ≠ e.order.id → (v.reduce e q).weigh w id = v.weigh w id := by
    intro id hid
    simp [weigh, View.reduce, hid]
  have hq : (v.reduce e q).queue s p = v.queue s p := rfl
  unfold sumOf
  rw [hq]
  by_cases h : s = e.order.side ∧ p = e.order.price
  · have hsum := sum_map_update (f := v.weigh w) (g := (v.reduce e q).weigh w) (hv.nodup s p)
      ((hv.mem_queue_entry he).2 h) fun id _ hid => hother id hid
    rw [hself, hold] at hsum
    rw [if_pos h, hsum]
  · rw [if_neg h, List.map_congr_left fun id hid => hother id fun hid' => ?_]
    exact h ((hv.mem_queue_entry he).1 (hid' ▸ hid))

lemma Sound.link (hv : v.Sound) (hnew : v.entry e.order.id = none) (he : e.Ok) :
    (v.link e).Sound := by
  have hnot := hv.notMem_queue hnew
  refine ⟨?_, ?_, ?_, ?_, ?_, ?_⟩
  · intro s p id
    by_cases hid : id = e.order.id
    · subst hid
      have : e.order.id ∈ (v.link e).queue s p ↔ s = e.order.side ∧ p = e.order.price := by
        simp only [View.link]
        split_ifs with h
        · simp [h]
        · simp [hnot s p, h]
      rw [this]
      constructor
      · rintro ⟨rfl, rfl⟩
        exact ⟨e, by simp [View.link], rfl, rfl⟩
      · rintro ⟨e', he', rfl, rfl⟩
        simp only [View.link, if_true, Option.some.injEq] at he'
        simp [he']
    · have hq : id ∈ (v.link e).queue s p ↔ id ∈ v.queue s p := by
        simp only [View.link]
        split_ifs <;> simp [hid]
      rw [hq, hv.mem_queue]
      simp [View.link, hid]
  · intro s p
    simp only [View.link]
    split_ifs
    · exact (hv.nodup s p).append (by simp) (by simpa using hnot s p)
    · exact hv.nodup s p
  · intro s p
    rw [leaves_eq_weigh]
    have hsum := hv.sumOf_link hnew (·.order.leaves) s p
    rw [← hv.total_eq_sumOf] at hsum
    exact hsum.symm
  · intro id e' he'
    simp only [View.link] at he'
    split_ifs at he' with hid
    · rw [← Option.some.inj he', hid]
    · exact hv.id_eq id e' he'
  · intro id e' he'
    simp only [View.link] at he'
    split_ifs at he'
    · exact Option.some.inj he' ▸ he
    · exact hv.entry_ok id e' he'
  · intro id hid
    obtain ⟨e', he', hp⟩ := hv.pegged_ok id hid
    have hne : id ≠ e.order.id := by
      rintro rfl
      rw [hnew] at he'
      exact absurd he' (by simp)
    exact ⟨e', by simp [View.link, hne, he'], hp⟩

/-- Everything but the pegged set survives taking an entry out. -/
lemma Sound.unlink (hv : v.Sound) (he : v.entry e.order.id = some e)
    (hpeg : ∀ id ∈ v.pegged, id ≠ e.order.id) : (v.unlink e).Sound := by
  refine ⟨?_, ?_, ?_, ?_, ?_, ?_⟩
  · intro s p id
    by_cases hid : id = e.order.id
    · subst hid
      have hno : e.order.id ∉ (v.unlink e).queue s p := by
        simp only [View.unlink]
        split_ifs with h
        · exact (hv.nodup s p).not_mem_erase
        · exact fun hmem => h ((hv.mem_queue_entry he).1 hmem)
      refine iff_of_false hno ?_
      rintro ⟨e', he', -⟩
      simp [View.unlink] at he'
    · have hq : id ∈ (v.unlink e).queue s p ↔ id ∈ v.queue s p := by
        simp only [View.unlink]
        split_ifs
        · exact List.mem_erase_of_ne hid
        · rfl
      rw [hq, hv.mem_queue]
      simp [View.unlink, hid]
  · intro s p
    simp only [View.unlink]
    split_ifs
    · exact (hv.nodup s p).erase _
    · exact hv.nodup s p
  · intro s p
    rw [leaves_eq_weigh]
    have hsum := hv.sumOf_unlink he (·.order.leaves) s p
    rw [← hv.total_eq_sumOf] at hsum
    exact hsum.symm
  · intro id e' he'
    simp only [View.unlink] at he'
    split_ifs at he'
    exact hv.id_eq id e' he'
  · intro id e' he'
    simp only [View.unlink] at he'
    split_ifs at he'
    exact hv.entry_ok id e' he'
  · intro id hid
    obtain ⟨e', he', hp⟩ := hv.pegged_ok id hid
    exact ⟨e', by simp [View.unlink, hpeg id hid, he'], hp⟩

lemma Sound.unpeg (hv : v.Sound) (id : OrderId) : (v.unpeg id).Sound :=
  { hv with pegged_ok := fun id' hid' => hv.pegged_ok id' (List.mem_of_mem_filter hid') }

/-- The displayed quantities matter to no clause. -/
lemma Sound.reveal (hv : v.Sound) (e : Entry) : (v.reveal e).Sound :=
  ⟨hv.mem_queue, hv.nodup, hv.total_eq, hv.id_eq, hv.entry_ok, hv.pegged_ok⟩

lemma Sound.reduce (hv : v.Sound) (he : v.entry e.order.id = some e) {q : ℤ}
    (hok : (e.fill q).Ok) : (v.reduce e q).Sound := by
  refine ⟨?_, hv.nodup, ?_, ?_, ?_, ?_⟩
  · intro s p id
    rw [show (v.reduce e q).queue s p = v.queue s p from rfl, hv.mem_queue]
    by_cases hid : id = e.order.id
    · subst hid
      simp [View.reduce, he, Entry.fill]
    · simp [View.reduce, hid]
  · intro s p
    rw [leaves_eq_weigh]
    have hsum := hv.sumOf_reduce he q (·.order.leaves) s p
    rw [← hv.total_eq_sumOf] at hsum
    refine Eq.trans ?_ hsum.symm
    simp only [View.reduce, Entry.fill]
    split_ifs <;> omega
  · intro id e' he'
    simp only [View.reduce] at he'
    split_ifs at he' with hid
    · rw [← Option.some.inj he', hid]
      rfl
    · exact hv.id_eq id e' he'
  · intro id e' he'
    simp only [View.reduce] at he'
    split_ifs at he'
    · exact Option.some.inj he' ▸ hok
    · exact hv.entry_ok id e' he'
  · intro id hid
    obtain ⟨e', he', hp⟩ := hv.pegged_ok id hid
    by_cases hid' : id = e.order.id
    · subst hid'
      rw [he] at he'
      obtain rfl := Option.some.inj he'
      exact ⟨e.fill q, by simp [View.reduce], hp⟩
    · exact ⟨e', by simp [View.reduce, hid', he'], hp⟩

/-- The pegged set matters to no other clause. -/
lemma Sound.of_pegged (hv : Sound { v with pegged := [] })
    (hp : ∀ id ∈ v.pegged, ∃ e, v.entry id = some e ∧ e.order.peg.isSome = true) : v.Sound :=
  ⟨hv.mem_queue, hv.nodup, hv.total_eq, hv.id_eq, hv.entry_ok, hp⟩

/-- The view without an order is sound, but for its pegged set. -/
lemma Sound.unlink_unpegged (hv : v.Sound) (he : v.entry e.order.id = some e) :
    Sound { v.unlink e with pegged := [] } :=
  Sound.unlink (v := { v with pegged := [] }) { hv with pegged_ok := by simp } he (by simp)

/-- An entry may be replaced by another one of the same identifier and peg, which
goes to the back of its own level. -/
lemma Sound.relink (hv : v.Sound) (he : v.entry e.order.id = some e) {e' : Entry}
    (hid : e'.order.id = e.order.id) (hpeg : e'.order.peg = e.order.peg) (hok : e'.Ok) :
    ((v.unlink e).link e').Sound := by
  refine Sound.of_pegged ((hv.unlink_unpegged he).link (by simp [View.unlink, hid]) hok)
    fun id hmem => ?_
  obtain ⟨e₀, he₀, hp⟩ := hv.pegged_ok id hmem
  by_cases h : id = e.order.id
  · subst h
    rw [he] at he₀
    obtain rfl := Option.some.inj he₀
    exact ⟨e', by simp [View.link, hid], by rw [hpeg]; exact hp⟩
  · exact ⟨e₀, by simp [View.link, View.unlink, hid, h, he₀], hp⟩

/-- An entry that leaves the book leaves the pegged set too. -/
lemma Sound.remove (hv : v.Sound) (he : v.entry e.order.id = some e) :
    ((v.unlink e).unpeg e.order.id).Sound :=
  (hv.unpeg e.order.id).unlink he (by simp [View.unpeg])

lemma entry_evict {s : Side} {p : ℤ} {id : OrderId} (h : id ∉ v.queue s p) :
    (v.evict s p).entry id = v.entry id := by simp [View.evict, h]

/-- An order is queued at one level only. -/
lemma Sound.notMem_queue_of_ne (hv : v.Sound) {s t : Side} {p q : ℤ} {id : OrderId}
    (hid : id ∈ v.queue t q) (hne : ¬ (t = s ∧ q = p)) : id ∉ v.queue s p := by
  intro hid'
  obtain ⟨e, he, rfl, rfl⟩ := (hv.mem_queue t q id).1 hid
  obtain ⟨e', he', h1, h2⟩ := (hv.mem_queue s p id).1 hid'
  rw [he] at he'
  obtain rfl := Option.some.inj he'
  exact hne ⟨h1, h2⟩

/-- A level is emptied. -/
lemma Sound.sumOf_evict (hv : v.Sound) (s t : Side) (p q : ℤ) (w : Entry → ℤ) :
    (v.evict s p).sumOf w t q = if t = s ∧ q = p then 0 else v.sumOf w t q := by
  unfold sumOf
  by_cases h : t = s ∧ q = p
  · simp [View.evict, h]
  · have hq : (v.evict s p).queue t q = v.queue t q := by simp [View.evict, h]
    rw [if_neg h, hq, List.map_congr_left fun id hid => ?_]
    simp only [weigh, entry_evict (hv.notMem_queue_of_ne hid h)]

lemma Sound.evict (hv : v.Sound) (s : Side) (p : ℤ) : (v.evict s p).Sound := by
  have hentry : ∀ {id e}, (v.evict s p).entry id = some e →
      v.entry id = some e ∧ ¬ (e.order.side = s ∧ e.order.price = p) := by
    intro id e he
    simp only [View.evict] at he
    split_ifs at he with h
    exact ⟨he, fun h' => h ((hv.mem_queue s p id).2 ⟨e, he, h'.1, h'.2⟩)⟩
  refine ⟨?_, ?_, ?_, ?_, ?_, ?_⟩
  · intro t q id
    by_cases h : t = s ∧ q = p
    · rw [show (v.evict s p).queue t q = [] by simp [View.evict, h]]
      refine iff_of_false (by simp) ?_
      rintro ⟨e, he, h1, h2⟩
      exact (hentry he).2 ⟨h1.trans h.1, h2.trans h.2⟩
    · rw [show (v.evict s p).queue t q = v.queue t q by simp [View.evict, h], hv.mem_queue]
      constructor
      · rintro ⟨e, he, h1, h2⟩
        have hid : id ∉ v.queue s p := hv.notMem_queue_of_ne
          ((hv.mem_queue t q id).2 ⟨e, he, h1, h2⟩) h
        exact ⟨e, by rw [entry_evict hid, he], h1, h2⟩
      · rintro ⟨e, he, h1, h2⟩
        exact ⟨e, (hentry he).1, h1, h2⟩
  · intro t q
    simp only [View.evict]
    split_ifs
    · exact List.nodup_nil
    · exact hv.nodup t q
  · intro t q
    rw [leaves_eq_weigh]
    have hsum := hv.sumOf_evict s t p q (·.order.leaves)
    rw [← hv.total_eq_sumOf] at hsum
    exact hsum.symm
  · exact fun id e he => hv.id_eq id e (hentry he).1
  · exact fun id e he => hv.entry_ok id e (hentry he).1
  · intro id hid
    simp only [View.evict, List.mem_filter, decide_eq_true_eq] at hid
    obtain ⟨e, he, hp⟩ := hv.pegged_ok id hid.1
    exact ⟨e, by rw [entry_evict hid.2, he], hp⟩

/-! ### The displayed quantity -/

/-- What a level counts as displayed beyond what its orders display. -/
def drift (v : View) (s : Side) (p : ℤ) : ℤ := v.shown s p - v.sumOf Entry.displayed s p

lemma Sound.drift_link (hv : v.Sound) (hnew : v.entry e.order.id = none) :
    (v.link e).drift = v.drift := by
  funext s p
  rw [drift, drift, hv.sumOf_link hnew]
  simp only [View.link]
  split_ifs <;> omega

lemma Sound.drift_unlink (hv : v.Sound) (he : v.entry e.order.id = some e) :
    (v.unlink e).drift = v.drift := by
  funext s p
  rw [drift, drift, hv.sumOf_unlink he]
  simp only [View.unlink]
  split_ifs <;> omega

/-- An order is replaced by another one of its identifier. -/
lemma Sound.drift_relink (hv : v.Sound) (he : v.entry e.order.id = some e) {e' : Entry}
    (hid : e'.order.id = e.order.id) : ((v.unlink e).link e').drift = v.drift :=
  (Sound.drift_link (v := { v.unlink e with pegged := [] }) (hv.unlink_unpegged he)
    (by simp [View.unlink, hid])).trans (hv.drift_unlink he)

lemma Sound.drift_reduce (hv : v.Sound) (he : v.entry e.order.id = some e) (q : ℤ) :
    (v.reduce e q).drift = v.drift := by
  funext s p
  rw [drift, drift, hv.sumOf_reduce he, e.displayed_fill]
  simp only [View.reduce]
  by_cases hsp : s = e.order.side ∧ p = e.order.price
  · obtain ⟨rfl, rfl⟩ := hsp
    by_cases hh : e.order.flags.hidden = true
    · simp [hh]
    · simp only [hh, and_self, if_true, Bool.false_eq_true, if_false]
      omega
  · rw [if_neg hsp, if_neg fun hc => hsp ⟨hc.1, hc.2.1⟩]

lemma drift_reveal (v : View) (e : Entry) (s : Side) (p : ℤ) :
    (v.reveal e).drift s p = v.drift s p +
    if s = e.order.side ∧ p = e.order.price ∧ e.order.flags.hidden = true then e.slice else 0 := by
  have hsum : (v.reveal e).sumOf Entry.displayed s p = v.sumOf Entry.displayed s p := rfl
  rw [drift, drift, hsum]
  simp only [View.reveal]
  split_ifs <;> omega

lemma Sound.drift_evict (hv : v.Sound) (s t : Side) (p q : ℤ) :
    (v.evict s p).drift t q = if t = s ∧ q = p then 0 else v.drift t q := by
  rw [drift, drift, hv.sumOf_evict]
  simp only [View.evict]
  split_ifs <;> rfl

end Changes

end View

/-! ### Mutations -/

/-- A change of the resting book. -/
inductive Mut
  /-- An order comes to rest. -/
  | rest (e : Entry)
  /-- An order comes to rest beyond the resident window. -/
  | restDeep (o : Order)
  /-- The aggressor `o` takes `q` of a resting order, which keeps its place, is
  replenished with a new rank, or leaves. -/
  | fill (o : Order) (me : Entry) (q : ℤ) (rank : ℕ)
  /-- A resting order is cancelled. -/
  | remove (e : Entry)
  /-- A level leaves the resident window. -/
  | evict (s : Side) (p : ℤ)
  /-- A pegged order moves to another price. -/
  | move (e : Entry) (p : ℤ) (rank : ℕ)
  /-- A resting order is to follow its peg. -/
  | peg (id : OrderId)
  /-- Two orders of an auction trade; neither of them rests. -/
  | cross (t : Trade) (displayed : ℤ)
  /-- A stop fires. -/
  | trigger (o : Order)

/-- An entry whose slice has been replenished. -/
def Entry.replenished (e : Entry) (rank : ℕ) : Entry :=
  { order := { e.order with rank := rank }, slice := min e.order.displayQty e.order.leaves }

/-- An entry at another price. -/
def Entry.moved (e : Entry) (p : ℤ) (rank : ℕ) : Entry :=
  { e with order := { e.order with price := p, rank := rank } }

/-- An event of an order. -/
def Order.event (o : Order) (sym : Symbol) (type : BookEventType) (qty displayed : ℤ) :
    BookEvent :=
  { symbol := sym, type := type, orderId := o.id, side := o.side, price := o.price, qty := qty,
    displayed := displayed }

/-- The event of an execution. -/
def Trade.event (sym : Symbol) (t : Trade) (displayed : ℤ) : BookEvent :=
  { symbol := sym, type := .trade, orderId := t.makerId, takerId := t.takerId,
    side := t.takerSide, price := t.price, qty := t.qty, displayed := displayed }

namespace Mut

/-- A fill uses up the visible slice of an iceberg that has a reserve. -/
def Replenishes (me : Entry) (q : ℤ) : Prop :=
  me.order.leaves - q ≠ 0 ∧ me.order.flags.iceberg = true ∧ me.slice - q = 0

instance (me : Entry) (q : ℤ) : Decidable (Replenishes me q) :=
  inferInstanceAs (Decidable (_ ∧ _ ∧ _))

/-- What a fill leaves of the maker. -/
def remaining (me : Entry) (q : ℤ) (rank : ℕ) : Option Entry :=
  if me.order.leaves - q = 0 then none
  else if Replenishes me q then some ((me.fill q).replenished rank) else some (me.fill q)

/-- When a mutation may happen. -/
def Ok (v : View) : Mut → Prop
  | rest e => v.entry e.order.id = none ∧ e.Ok
  | restDeep o => v.entry o.id = none ∧ 0 < o.leaves
  | fill o me q _ => v.entry me.order.id = some me ∧ 0 < q ∧ q ≤ Book.exposed me ∧
      q ≤ o.leaves ∧ me.order.side = o.side.opposite ∧
      Book.acceptable o me.order.price = true
  | remove e => v.entry e.order.id = some e
  | evict _ _ => True
  | move e _ _ => v.entry e.order.id = some e
  | peg id => ∃ e, v.entry id = some e ∧ e.order.peg.isSome = true
  | cross t _ => v.entry t.makerId = none ∧ 0 ≤ t.qty
  | trigger o => v.entry o.id = none

/-- The effect of a mutation. -/
def apply (v : View) : Mut → View
  | rest e => v.link e
  | restDeep _ => v
  | fill _ me q rank =>
    if me.order.leaves - q = 0 then (v.unlink me).unpeg me.order.id
    else if Replenishes me q then
      ((v.unlink me).link ((me.fill q).replenished rank)).reveal ((me.fill q).replenished rank)
    else v.reduce me q
  | remove e => (v.unlink e).unpeg e.order.id
  | evict s p => v.evict s p
  | move e p rank => (v.unlink e).link (e.moved p rank)
  | peg id => { v with pegged := v.pegged.insert id }
  | cross _ _ => v
  | trigger _ => v

/-- The execution that is part of a mutation. -/
def trade? : Mut → Option Trade
  | fill o me q _ => some ⟨o.id, me.order.id, o.side, me.order.price, q⟩
  | cross t _ => some t
  | _ => none

/-- The orders that a mutation records for re-reporting to storage. -/
def requeued : Mut → List Order
  | fill _ me q rank =>
    if Replenishes me q then [((me.fill q).replenished rank).order] else []
  | move e p rank => [(e.moved p rank).order]
  | _ => []

/-- The events that go with a mutation of the book of an instrument. -/
def events (sym : Symbol) : Mut → List BookEvent
  | rest e => [e.order.event sym .add e.order.leaves e.displayed]
  | restDeep o => [o.event sym .add o.leaves (displayedOf o.flags o.leaves (sliceOf o))]
  | fill o me q rank =>
    Trade.event sym ⟨o.id, me.order.id, o.side, me.order.price, q⟩
        (if me.order.flags.hidden = true then 0 else q) ::
      if Replenishes me q then
        let e := (me.fill q).replenished rank
        [e.order.event sym .replenish e.slice e.slice]
      else []
  | remove e => [e.order.event sym .cancel e.order.leaves e.displayed]
  | evict _ _ => []
  | move e p rank =>
    [{ (e.moved p rank).order.event sym .reprice e.order.leaves e.displayed with
        prevPrice := e.order.price }]
  | peg _ => []
  | cross t displayed => [t.event sym displayed]
  | trigger o => [o.event sym .trigger o.leaves 0]

/-- A mutation that only a book with a bounded window makes. -/
def Windowed : Mut → Prop
  | restDeep _ => True
  | evict _ _ => True
  | _ => False

variable {v : View} {m : Mut}

/-- Every mutation keeps the structure invariant. -/
theorem sound_apply (hv : v.Sound) (hm : m.Ok v) : (m.apply v).Sound := by
  cases m with
  | rest e => exact hv.link hm.1 hm.2
  | restDeep o => exact hv
  | fill o me q rank =>
    obtain ⟨he, hq, hle, -⟩ := hm
    have hok := hv.entry_ok _ _ he
    have hq' : q ≤ me.order.leaves := hle.trans hok.exposed_le
    simp only [apply]
    split_ifs with h1 h2
    · exact hv.remove he
    · refine View.Sound.reveal ?_ _
      refine hv.relink he rfl rfl ⟨?_, ?_, ?_, ?_⟩
      · simp only [Entry.replenished, Entry.fill]
        omega
      · intro hi
        have := hok.display_pos hi
        simp only [Entry.replenished, Entry.fill]
        omega
      · intro hi
        exact min_le_right _ _
      · exact fun hi => hok.display_pos hi
    · refine hv.reduce he ⟨?_, ?_, ?_, hok.display_pos⟩
      · simp only [Entry.fill]
        omega
      · intro hi
        have hi' : me.order.flags.iceberg = true := hi
        have hs : ¬ me.slice - q = 0 := fun hs => h2 ⟨h1, hi', hs⟩
        simp only [Book.exposed, hi', if_true] at hle
        simp only [Entry.fill, hi', if_true]
        omega
      · intro hi
        have hi' : me.order.flags.iceberg = true := hi
        have := hok.slice_le hi'
        simp only [Entry.fill, hi', if_true]
        omega
  | remove e => exact hv.remove hm
  | evict s p => exact hv.evict s p
  | move e p rank =>
    have hok := hv.entry_ok _ _ hm
    exact hv.relink hm rfl rfl ⟨hok.leaves_pos, hok.slice_pos, hok.slice_le, hok.display_pos⟩
  | peg id =>
    refine { hv with pegged_ok := fun id' hid' => ?_ }
    rcases List.mem_insert_iff.1 hid' with rfl | hid'
    · exact hm
    · exact hv.pegged_ok id' hid'
  | cross t displayed => exact hv
  | trigger o => exact hv

/-- Where an entry comes from that rests after a mutation. -/
lemma entry_cases (hm : m.Ok v) {id : OrderId} {e' : Entry} (h : (m.apply v).entry id = some e') :
    v.entry id = some e' ∨ (m = .rest e' ∧ e'.order.id = id) ∨
    (∃ o me q rank, m = .fill o me q rank ∧ me.order.id = id ∧ v.entry id = some me ∧
      (e' = me.fill q ∨ (Replenishes me q ∧ e' = (me.fill q).replenished rank))) ∨
    ∃ e p rank, m = .move e p rank ∧ e.order.id = id ∧ v.entry id = some e ∧
      e' = e.moved p rank := by
  cases m with
  | rest e =>
    simp only [apply, View.link] at h
    split_ifs at h with hid
    · obtain rfl := Option.some.inj h
      exact .inr (.inl ⟨rfl, hid.symm⟩)
    · exact .inl h
  | fill o me q rank =>
    simp only [apply] at h
    split_ifs at h with h1 h2
    · simp only [View.unpeg, View.unlink] at h
      split_ifs at h
      exact .inl h
    · simp only [View.reveal, View.link, View.unlink] at h
      split_ifs at h with hid
      · exact .inr (.inr (.inl ⟨o, me, q, rank, rfl, hid.symm, hid ▸ hm.1, .inr ⟨h2,
          (Option.some.inj h).symm⟩⟩))
      · exact .inl h
    · simp only [View.reduce] at h
      split_ifs at h with hid
      · exact .inr (.inr (.inl ⟨o, me, q, rank, rfl, hid.symm, hid ▸ hm.1, .inl
          (Option.some.inj h).symm⟩))
      · exact .inl h
  | remove e =>
    simp only [apply, View.unpeg, View.unlink] at h
    split_ifs at h
    exact .inl h
  | evict s p =>
    simp only [apply, View.evict] at h
    split_ifs at h
    exact .inl h
  | move e p rank =>
    simp only [apply, View.link, View.unlink] at h
    split_ifs at h with hid
    · exact .inr (.inr (.inr ⟨e, p, rank, rfl, hid.symm, hid ▸ hm, (Option.some.inj h).symm⟩))
    · exact .inl h
  | restDeep o => exact .inl h
  | peg i => exact .inl h
  | cross t d => exact .inl h
  | trigger o => exact .inl h

/-- The slice of a hidden iceberg that a mutation counts as displayed. -/
def revealed : Mut → ℤ
  | fill _ me q _ =>
    if Replenishes me q ∧ me.order.flags.hidden = true
    then min me.order.displayQty (me.order.leaves - q) else 0
  | _ => 0

/-- A level counts too much by what is revealed of hidden icebergs, and by nothing else. -/
lemma drift_apply (hv : v.Sound) (hm : m.Ok v) (h : ∀ s p, 0 ≤ v.drift s p) (s : Side) (p : ℤ) :
    0 ≤ (m.apply v).drift s p ∧ (m.apply v).drift s p ≤ v.drift s p + m.revealed := by
  have hsame : ∀ v' : View, v'.drift = v.drift → 0 ≤ m.revealed →
      0 ≤ v'.drift s p ∧ v'.drift s p ≤ v.drift s p + m.revealed := by
    intro v' hd hr
    rw [hd]
    have := h s p
    omega
  cases m with
  | rest e => exact hsame _ (hv.drift_link hm.1) le_rfl
  | fill o me q rank =>
    obtain ⟨he, hq, hle, -⟩ := hm
    have hok := hv.entry_ok _ _ he
    have hq' : q ≤ me.order.leaves := hle.trans hok.exposed_le
    have hrev : 0 ≤ (fill o me q rank).revealed := by
      simp only [revealed]
      split_ifs with hr
      · have := hok.display_pos hr.1.2.1
        omega
      · exact le_rfl
    simp only [apply]
    split_ifs with h1 h2
    · exact hsame _ (hv.drift_unlink he) hrev
    · -- the new slice is counted although the order is hidden
      have hlink : ((v.unlink me).link ((me.fill q).replenished rank)).drift = v.drift :=
        hv.drift_relink he rfl
      rw [View.drift_reveal, hlink]
      have hpos := h s p
      by_cases hh : me.order.flags.hidden = true
      · have heq : (fill o me q rank).revealed = ((me.fill q).replenished rank).slice :=
          if_pos ⟨h2, hh⟩
        rw [heq] at hrev ⊢
        split_ifs <;> omega
      · rw [if_neg fun hc => hh hc.2.2]
        omega
    · exact hsame _ (hv.drift_reduce he q) hrev
  | remove e => exact hsame _ (hv.drift_unlink hm) le_rfl
  | evict t r =>
    have := h s p
    simp only [apply, hv.drift_evict, revealed]
    split_ifs <;> omega
  | move e r rank => exact hsame _ (hv.drift_relink hm rfl) le_rfl
  | restDeep o => exact hsame _ rfl le_rfl
  | peg id => exact hsame _ rfl le_rfl
  | cross t d => exact hsame _ rfl le_rfl
  | trigger o => exact hsame _ rfl le_rfl

/-- What a fill leaves of the totals and of the entries, whether the maker keeps its
place, is replenished or leaves. -/
lemma fill_effect (hv : v.Sound) {o : Order} {me : Entry} {q : ℤ} {rank : ℕ}
    (hm : (fill o me q rank).Ok v) :
    (∀ s p, ((fill o me q rank).apply v).total s p =
      if s = me.order.side ∧ p = me.order.price then v.total s p - q else v.total s p) ∧
    ∀ id, (((fill o me q rank).apply v).entry id).map (fun e => e.order.key) =
      if id = me.order.id then
        if me.order.leaves - q ≤ 0 then none
        else some (me.order.side, me.order.price, me.order.leaves - q)
      else (v.entry id).map fun e => e.order.key := by
  obtain ⟨he, hq, hle, -⟩ := hm
  have hle' : q ≤ me.order.leaves := hle.trans (hv.entry_ok _ _ he).exposed_le
  by_cases h1 : me.order.leaves - q = 0
  · have h2 : me.order.leaves = q := by omega
    have happ : (fill o me q rank).apply v = (v.unlink me).unpeg me.order.id := if_pos h1
    rw [happ]
    refine ⟨fun s p => ?_, fun id => ?_⟩
    · simp only [View.unpeg, View.unlink, h2]
    · rw [if_pos h1.le]
      simp only [View.unpeg, View.unlink]
      split_ifs <;> rfl
  · have h2 : ¬ me.order.leaves - q ≤ 0 := by omega
    simp only [apply, if_neg h1, if_neg h2]
    by_cases h3 : Replenishes me q
    · simp only [if_pos h3, View.reveal, View.link, View.unlink, Entry.replenished, Entry.fill]
      refine ⟨fun s p => ?_, fun id => ?_⟩
      · split_ifs
        · omega
        · rfl
      · split_ifs <;> rfl
    · simp only [if_neg h3, View.reduce, Entry.fill]
      refine ⟨fun s p => trivial, fun id => ?_⟩
      split_ifs <;> rfl

end Mut

/-! ### Runs of mutations -/

/-- The mutations `ms`, each one allowed in its turn, lead from `v` to `v'`. -/
inductive View.Run : View → List Mut → View → Prop
  | nil (v : View) : View.Run v [] v
  | cons {v v' : View} {m : Mut} {ms : List Mut} (hm : m.Ok v)
      (h : View.Run (m.apply v) ms v') : View.Run v (m :: ms) v'

namespace View

variable {v v' v'' : View} {ms ms' : List Mut}

lemma Run.append (h : Run v ms v') (h' : Run v' ms' v'') : Run v (ms ++ ms') v'' := by
  induction h with
  | nil v => exact h'
  | cons hm _ ih => exact .cons hm (ih h')

lemma Run.single {m : Mut} (hm : m.Ok v) : Run v [m] (m.apply v) := .cons hm (.nil _)

lemma Run.of_nil (h : Run v [] v') : v' = v := by
  cases h
  rfl

lemma Run.of_single {m : Mut} (h : Run v [m] v') : m.Ok v ∧ v' = m.apply v := by
  cases h with
  | cons hm h =>
    cases h
    exact ⟨hm, rfl⟩

/-- The induction over a run: what every allowed mutation keeps in sound views, the
run keeps. -/
lemma Run.induction {P : List Mut → View → Prop} (h : Run v ms v') (hv : v.Sound)
    (h0 : P [] v)
    (step : ∀ done m w, w.Sound → m.Ok w → P done w → P (done ++ [m]) (m.apply w)) :
    P ms v' := by
  suffices ∀ done, P done v → P (done ++ ms) v' by simpa using this [] h0
  clear h0
  induction h with
  | nil v => simp
  | @cons v v' m ms hm _ ih =>
    intro done hdone
    have := ih (Mut.sound_apply hv hm) (done ++ [m]) (step done m v hv hm hdone)
    rwa [List.append_assoc, List.singleton_append] at this

/-- An identifier that does not rest and that nothing puts to rest stays out. -/
lemma Run.entry_eq_none (h : Run v ms v') {id : OrderId} (hid : v.entry id = none)
    (hno : ∀ e, Mut.rest e ∈ ms → e.order.id ≠ id) : v'.entry id = none := by
  induction h with
  | nil v => exact hid
  | @cons v v' m ms hm _ ih =>
    refine ih ?_ fun e he => hno e (by simp [he])
    by_contra hne
    obtain ⟨e, he⟩ := Option.ne_none_iff_exists'.1 hne
    have hnone : ∀ e, v.entry id ≠ some e := by simp [hid]
    rcases Mut.entry_cases hm he with h | ⟨rfl, h⟩ | ⟨_, me, _, _, -, -, h, -⟩ |
      ⟨e, _, _, -, -, h, -⟩
    · exact hnone e h
    · exact hno e List.mem_cons_self h
    · exact hnone me h
    · exact hnone e h

/-- A fill takes a positive quantity. -/
lemma Run.fill_pos (h : Run v ms v') {o : Order} {me : Entry} {q : ℤ} {rank : ℕ}
    (hm : Mut.fill o me q rank ∈ ms) : 0 < q := by
  induction h with
  | nil v => simp at hm
  | cons hok _ ih =>
    rcases List.mem_cons.1 hm with rfl | hm
    · exact hok.2.1
    · exact ih hm

/-- A run keeps the structure invariant. -/
theorem Run.sound (h : Run v ms v') (hv : v.Sound) : v'.Sound := by
  induction h with
  | nil v => exact hv
  | cons hm _ ih => exact ih (Mut.sound_apply hv hm)

end View

end Codicis
