/-
Orders that enter by submission alone.

The checks of a submission are not made for an order that fires as a stop, or whose
remainder leaves an auction.  When the orders of a kind have no trigger and are not for an
auction, they are never among the orders that wait to enter in those ways, and an order of
the kind that gets its turn has just been submitted.
-/
import Codicis.Core.History

namespace Codicis

/-- A kind of orders: the book does not change whether an order is one. -/
structure Kind (K : Order → Prop) : Prop where
  traits : ∀ x y : Order, x.traits = y.traits → (K x ↔ K y)
  clear : ∀ x : Order, K { x with flags := x.flags.clearAuction } ↔ K x

/-- An order of the kind has no trigger and is not for an auction. -/
def Order.Direct (K : Order → Prop) (o : Order) : Prop :=
  K o → o.trigger = none ∧ isOpeningAuction o.flags = false ∧ isClosingAuction o.flags = false

instance (K : Order → Prop) [DecidablePred K] (o : Order) : Decidable (o.Direct K) :=
  inferInstanceAs (Decidable (_ → _))

namespace Order

variable {K : Order → Prop} {o : Order}

lemma opening_traits (o : Order) : isOpeningAuction o.traits.flags = isOpeningAuction o.flags := by
  unfold traits
  cases o.tif <;> rfl

lemma closing_traits (o : Order) : isClosingAuction o.traits.flags = isClosingAuction o.flags := by
  unfold traits
  cases o.tif <;> rfl

lemma stable_direct (hK : Kind K) : Stable (Direct K) where
  traits x y h hx := by
    intro hy
    obtain ⟨ht, ho, hc⟩ := hx ((hK.traits x y h).2 hy)
    have htr : x.traits.trigger = y.traits.trigger := by rw [h]
    simp only [Order.traits, ht, Option.map_none] at htr
    rw [← x.opening_traits, h, y.opening_traits] at ho
    rw [← x.closing_traits, h, y.closing_traits] at hc
    exact ⟨Option.map_eq_none_iff.1 htr.symm, ho, hc⟩
  clear x hx hp := by
    obtain ⟨ht, -, -⟩ := hx ((hK.clear x).1 hp)
    exact ⟨ht, rfl, rfl⟩

lemma Direct.not_awaitsTrigger (h : o.Direct K) (hp : K o) : Book.awaitsTrigger o = false := by
  rw [Book.awaitsTrigger, (h hp).1]

lemma Direct.not_of_auction (h : o.Direct K)
    (ho : isOpeningAuction o.flags = true ∨ isClosingAuction o.flags = true) : ¬ K o := by
  intro hk
  obtain ⟨-, hop, hcl⟩ := h hk
  rw [hop, hcl] at ho
  exact absurd ho (by simp)

lemma Direct.not_of_awaitsTrigger (h : o.Direct K) (ho : Book.awaitsTrigger o = true) : ¬ K o := by
  intro hk
  rw [h.not_awaitsTrigger hk] at ho
  exact absurd ho (by simp)

end Order

open Book

/-- No order of the kind waits for a trigger or an auction, or has come from there; what rests
satisfies `R`. -/
def Roles.direct {K R : Order → Prop} (hK : Kind K)
    (hR : ∀ x y : Order, y.traits = x.traits → R x → R y)
    (hrest : ∀ x : Order, x.Normal → discards x = false ∨ x.peg.isSome = true → R x) : Roles where
  of
    | .submitted, x | .entered, x => x.Direct K
    | .triggered, x | .auctioned, x => ¬ K x
  resting := R
  traits r x y h _ hx := by
    cases r with
    | submitted | entered => exact (Order.stable_direct hK).traits x y h.symm hx
    | triggered | auctioned => exact fun hy => hx ((hK.traits y x h).1 hy)
  traits_resting h := hR _ _ h
  enter _ h := h
  queue hx h := h.not_of_auction hx
  park hx h := h.not_of_awaitsTrigger hx
  clear h hk := h ((hK.clear _).1 hk)
  rest _ _ hn hd _ := hrest _ hn (hd.imp And.left And.left)

/-! ### Books in which nothing waits -/

namespace Book

variable {b b' : Book} {o : Order}

/-- If nothing waits and nothing is in hand, nothing waits afterwards. -/
lemma Step.waiting_eq_nil {ms : List Mut} (hst : Step b [] ms b') (hw : b.frame.waiting = []) :
    b'.frame.waiting = [] := by
  refine List.eq_nil_iff_forall_not_mem.2 fun x hx => ?_
  rcases hst.waiting x.id ⟨x, hx, rfl⟩ with ⟨y, hy, -⟩ | hid
  · exact absurd (hw ▸ hy) List.not_mem_nil
  · simp at hid

/-- An order without a trigger, an auction and a parent does not come to wait. -/
lemma submit_waiting_eq_nil (hb : WF b) (hw : b.frame.waiting = []) (hnew : ¬ Live b o.id)
    (hd : 0 ≤ o.displayQty) (hdir : o.Direct fun _ => True) (hchild : isChild o = false)
    {r : Book × SubmitOutcome} (hr : (b.submit o).Returns r) : r.1.frame.waiting = [] := by
  obtain ⟨ms, hst, -, hheld⟩ := (submit_step hb hnew hd).of_returns hr
  -- the order itself is the only one that could wait
  let K : Order → Prop := fun x => x.id = o.id
  have hK : Kind K := ⟨fun x y h => by simp only [K, Order.id_eq_of_traits h], fun x => Iff.rfl⟩
  have hkeep : b.Keeps fun x => ¬ K x := keeps_ids hb (P := (· ≠ o.id)) fun id hid heq =>
    hnew (heq ▸ hid)
  let ρ : Roles := .direct (R := fun _ => True) hK (fun _ _ _ _ => trivial) fun _ _ _ => trivial
  have h₀ : Moment.Plays ρ ⟨b, none, [⟨o, .submitted⟩]⟩ :=
    ⟨fun _ _ _ => trivial, hkeep.stops, hkeep.opening, hkeep.closing,
      fun x hx hk => absurd hk (hkeep.held x hx), by simp, fun a ha => by
        obtain rfl := List.mem_singleton.1 ha
        exact fun _ => hdir trivial⟩
  have hm := (hst.beats.invariant (I := Moment.Plays ρ) (composes_forall fun _ => True) h₀
    fun _ _ _ hb hm => ⟨hb.plays hm, fun _ _ => trivial⟩).1
  have hnil : r.1.frame.held = [] := by
    have hlen := hheld hchild
    have hb0 : b.frame.held = [] := by
      simp only [Frame.waiting, List.append_eq_nil_iff] at hw
      exact hw.2.2.2
    rw [hb0, List.length_nil, Nat.le_zero, List.length_eq_zero_iff] at hlen
    exact hlen
  refine List.eq_nil_iff_forall_not_mem.2 fun x hx => ?_
  have hid : K x := by
    rcases hst.waiting x.id ⟨x, hx, rfl⟩ with ⟨y, hy, -⟩ | hid
    · exact absurd (hw ▸ hy) List.not_mem_nil
    · simpa using hid
  simp only [Frame.waiting, List.mem_append, hnil, List.not_mem_nil, or_false] at hx
  rcases hx with hx | hx | hx
  · obtain ⟨y, hy, rfl⟩ := List.mem_map.1 hx
    exact hm.stops y.1 y.2 (Map.mem_pairs.1 hy) hid
  · exact hm.opening x hx hid
  · exact hm.closing x hx hid

end Book

end Codicis
