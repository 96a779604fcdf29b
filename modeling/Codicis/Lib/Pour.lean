/-
Two queues that are served against each other.

The heads of two queues deal with each other for as much as both have and as is left of a volume;
who has nothing left leaves the queue (`Pour`).  If everybody has something to begin with, then
every deal is for something, nobody deals more than they have, and the deals add up to the least of
the volume and what either queue has.  Nobody gets a deal before everybody ahead of them has dealt
all that they have (`Pour.first_served`).
-/
import Mathlib.Algebra.BigOperators.Group.Finset.Piecewise
import Mathlib.Algebra.Order.Ring.Int
import Mathlib.Data.List.Nodup
import Mathlib.Data.Prod.Basic

namespace Codicis

/-- A deal between a member of the one queue and a member of the other. -/
@[ext]
structure Deal (ι κ : Type*) where
  left : ι
  right : κ
  qty : ℤ

namespace Deal

variable {ι κ : Type*}

/-- The deal as the other queue sees it. -/
def swap (d : Deal ι κ) : Deal κ ι := ⟨d.right, d.left, d.qty⟩

/-- What the deals add up to. -/
def volume (ds : List (Deal ι κ)) : ℤ := (ds.map (·.qty)).sum

/-- What a member of the first queue has dealt. -/
def taken [DecidableEq ι] (ds : List (Deal ι κ)) (i : ι) : ℤ := volume (ds.filter (·.left = i))

@[simp] lemma volume_nil : volume ([] : List (Deal ι κ)) = 0 := rfl

@[simp] lemma volume_cons (d : Deal ι κ) (ds : List (Deal ι κ)) :
    volume (d :: ds) = d.qty + volume ds := by
  simp [volume]

@[simp] lemma volume_swap (ds : List (Deal ι κ)) : volume (ds.map swap) = volume ds := by
  simp [volume, Function.comp_def, swap]

variable [DecidableEq ι]

@[simp] lemma taken_nil (i : ι) : taken ([] : List (Deal ι κ)) i = 0 := rfl

lemma taken_cons (d : Deal ι κ) (ds : List (Deal ι κ)) (i : ι) :
    taken (d :: ds) i = (if d.left = i then d.qty else 0) + taken ds i := by
  rw [taken, List.filter_cons]
  by_cases h : d.left = i
  · simp [h, taken]
  · simp [h, taken]

lemma taken_eq_zero {ds : List (Deal ι κ)} {i : ι} (h : ∀ d ∈ ds, d.left ≠ i) : taken ds i = 0 := by
  have hnone : ds.filter (fun d => decide (d.left = i)) = [] :=
    List.filter_eq_nil_iff.2 fun d hd => by simpa using h d hd
  rw [taken, hnone, volume_nil]

/-- What its members have dealt adds up to the deals. -/
lemma sum_taken {is : List ι} (hn : is.Nodup) {ds : List (Deal ι κ)} (h : ∀ d ∈ ds, d.left ∈ is) :
    (is.map (taken ds)).sum = volume ds := by
  induction ds with
  | nil =>
    have hzero : taken ([] : List (Deal ι κ)) = fun _ => 0 := funext taken_nil
    simp [hzero]
  | cons d ds ih =>
    have hd : d.left ∈ is := h d List.mem_cons_self
    have hone : (is.map fun i => if d.left = i then d.qty else 0).sum = d.qty := by
      rw [← List.sum_toFinset _ hn, Finset.sum_ite_eq, if_pos (List.mem_toFinset.2 hd)]
    have hrest := ih fun c hc => h c (List.mem_cons_of_mem _ hc)
    have hcons : taken (d :: ds) = fun i => (if d.left = i then d.qty else 0) + taken ds i :=
      funext (taken_cons d ds)
    rw [volume_cons, ← hrest, hcons, List.sum_map_add, hone]

end Deal

/-- The head of a queue spends a quantity. -/
def spend {ι : Type*} (q : ℤ) : List (ι × ℤ) → List (ι × ℤ)
  | [] => []
  | (i, x) :: xs => if x - q = 0 then xs else (i, x - q) :: xs

/-- The deals of two queues, up to a volume. -/
inductive Pour {ι κ : Type*} : ℤ → List (ι × ℤ) → List (κ × ℤ) → List (Deal ι κ) → Prop
  | stop {v : ℤ} {xs : List (ι × ℤ)} {ys : List (κ × ℤ)} (h : v ≤ 0 ∨ xs = [] ∨ ys = []) :
      Pour v xs ys []
  | deal {v q : ℤ} {i : ι} {x : ℤ} {xs : List (ι × ℤ)} {k : κ} {y : ℤ} {ys : List (κ × ℤ)}
      {ds : List (Deal ι κ)} (hv : 0 < v) (hq : q = min (min x y) v)
      (h : Pour (v - q) (spend q ((i, x) :: xs)) (spend q ((k, y) :: ys)) ds) :
      Pour v ((i, x) :: xs) ((k, y) :: ys) (⟨i, k, q⟩ :: ds)

/-- Everybody in the queue has something. -/
def Stocked {ι : Type*} (xs : List (ι × ℤ)) : Prop := ∀ a ∈ xs, 0 < a.2

variable {ι κ : Type*} {v q x : ℤ} {i : ι} {xs : List (ι × ℤ)} {ys : List (κ × ℤ)}
  {ds : List (Deal ι κ)}

/-! ### Spending -/

lemma spend_cons (q : ℤ) (i : ι) (x : ℤ) (xs : List (ι × ℤ)) :
    spend q ((i, x) :: xs) = if x - q = 0 then xs else (i, x - q) :: xs := rfl

lemma Stocked.sum_nonneg (h : Stocked xs) : 0 ≤ (xs.map (·.2)).sum := by
  induction xs with
  | nil => simp
  | cons a xs ih =>
    have ha : 0 < a.2 := h a List.mem_cons_self
    have hrest := ih fun c hc => h c (List.mem_cons_of_mem _ hc)
    rw [List.map_cons, List.sum_cons]
    omega

lemma Stocked.spend (h : Stocked ((i, x) :: xs)) (hq : q ≤ x) :
    Stocked (spend q ((i, x) :: xs)) := by
  have htail : Stocked xs := fun a ha => h a (List.mem_cons_of_mem _ ha)
  rw [spend_cons]
  split_ifs with h0
  · exact htail
  · intro a ha
    rcases List.mem_cons.1 ha with rfl | ha
    · show 0 < x - q
      omega
    · exact htail a ha

lemma sum_spend (q : ℤ) (i : ι) (x : ℤ) (xs : List (ι × ℤ)) :
    ((spend q ((i, x) :: xs)).map (·.2)).sum = (((i, x) :: xs).map (·.2)).sum - q := by
  rw [spend_cons]
  split_ifs with h0
  · simp only [List.map_cons, List.sum_cons]
    omega
  · simp only [List.map_cons, List.sum_cons]
    omega

lemma names_spend (q : ℤ) (i : ι) (x : ℤ) (xs : List (ι × ℤ)) :
    ((spend q ((i, x) :: xs)).map (·.1)).Sublist (((i, x) :: xs).map (·.1)) := by
  rw [spend_cons]
  split_ifs
  · exact List.sublist_cons_self _ _
  · exact .refl _

namespace Pour

/-- The two queues have the same part. -/
lemma swap (h : Pour v xs ys ds) : Pour v ys xs (ds.map Deal.swap) := by
  induction h with
  | stop h => exact .stop (h.imp_right Or.symm)
  | @deal v q i x xs k y ys ds hv hq _ ih =>
    have hq' : q = min (min y x) v := by rw [hq, min_comm x y]
    exact .deal hv hq' ih

/-- Every deal is for something. -/
lemma qty_pos (h : Pour v xs ys ds) (hxs : Stocked xs) (hys : Stocked ys) :
    ∀ d ∈ ds, 0 < d.qty := by
  induction h with
  | stop => simp
  | @deal v q i x xs k y ys ds hv hq h ih =>
    have hx : 0 < x := hxs _ List.mem_cons_self
    have hy : 0 < y := hys _ List.mem_cons_self
    intro d hd
    rcases List.mem_cons.1 hd with rfl | hd
    · show 0 < q
      omega
    · exact ih (hxs.spend (by omega)) (hys.spend (by omega)) d hd

/-- The deals add up to the least of the volume and the two stocks. -/
lemma volume_eq (h : Pour v xs ys ds) (hv : 0 ≤ v) (hxs : Stocked xs) (hys : Stocked ys) :
    Deal.volume ds = min v (min (xs.map (·.2)).sum (ys.map (·.2)).sum) := by
  induction h with
  | @stop v xs ys h =>
    have hx := hxs.sum_nonneg
    have hy := hys.sum_nonneg
    rcases h with h | rfl | rfl
    · rw [Deal.volume_nil]
      omega
    · rw [Deal.volume_nil, List.map_nil, List.sum_nil]
      omega
    · rw [Deal.volume_nil, List.map_nil, List.sum_nil]
      omega
  | @deal v q i x xs k y ys ds hpos hq h ih =>
    have hx : 0 < x := hxs _ List.mem_cons_self
    have hy : 0 < y := hys _ List.mem_cons_self
    have hrest := ih (by omega) (hxs.spend (by omega)) (hys.spend (by omega))
    rw [sum_spend, sum_spend] at hrest
    rw [Deal.volume_cons, hrest]
    show q + _ = _
    omega

/-- Only members of the queue deal. -/
lemma left_mem (h : Pour v xs ys ds) : ∀ d ∈ ds, d.left ∈ xs.map (·.1) := by
  induction h with
  | stop => simp
  | @deal v q i x xs k y ys ds hv hq h ih =>
    intro d hd
    rcases List.mem_cons.1 hd with rfl | hd
    · exact List.mem_cons_self
    · exact (names_spend q i x xs).subset (ih d hd)

variable [DecidableEq ι]

/-- Nobody deals more than they have. -/
lemma taken_le (h : Pour v xs ys ds) (hxs : Stocked xs) (hys : Stocked ys)
    (hn : (xs.map (·.1)).Nodup) : ∀ a ∈ xs, Deal.taken ds a.1 ≤ a.2 := by
  induction h with
  | stop => exact fun a ha => (hxs a ha).le
  | @deal v q i x xs k y ys ds hv hq h ih =>
    have hx : 0 < x := hxs _ List.mem_cons_self
    have hy : 0 < y := hys _ List.mem_cons_self
    obtain ⟨hi, hn'⟩ := List.nodup_cons.1 hn
    have hrest := ih (hxs.spend (by omega)) (hys.spend (by omega))
      (hn.sublist (names_spend q i x xs))
    rintro ⟨j, z⟩ ha
    rw [Deal.taken_cons]
    rcases List.mem_cons.1 ha with heq | ha
    · -- the head
      obtain ⟨rfl, rfl⟩ := Prod.mk.inj heq
      rw [if_pos rfl]
      show q + Deal.taken ds j ≤ z
      by_cases h0 : z - q = 0
      · rw [spend_cons, if_pos h0] at h
        have hzero : Deal.taken ds j = 0 :=
          Deal.taken_eq_zero fun d hd heq => hi (heq ▸ h.left_mem d hd)
        omega
      · rw [spend_cons, if_neg h0] at hrest
        have hhead : Deal.taken ds j ≤ z - q := hrest (j, z - q) List.mem_cons_self
        omega
    · have hne : i ≠ j := by
        rintro rfl
        exact hi (List.mem_map.2 ⟨_, ha, rfl⟩)
      have htail : (j, z) ∈ spend q ((i, x) :: xs) := by
        rw [spend_cons]
        split_ifs
        · exact ha
        · exact List.mem_cons_of_mem _ ha
      rw [if_neg hne, zero_add]
      exact hrest _ htail

/-- Who gets a deal has seen everybody ahead of them deal all that they have. -/
theorem first_served (h : Pour v xs ys ds) (hn : (xs.map (·.1)).Nodup) {pre post : List (Deal ι κ)}
    {d : Deal ι κ} (hds : ds = pre ++ d :: post) {ahead behind : List (ι × ℤ)} {z : ℤ}
    (hxs : xs = ahead ++ (d.left, z) :: behind) : ∀ a ∈ ahead, Deal.taken pre a.1 = a.2 := by
  induction h generalizing pre ahead z with
  | stop => simp at hds
  | @deal v q i x xs k y ys ds hv hq h ih =>
    obtain ⟨hi, hn'⟩ := List.nodup_cons.1 hn
    cases ahead with
    | nil => simp
    | cons a ahead =>
      obtain ⟨rfl, htl⟩ := List.cons.inj hxs
      have hmem : d.left ∈ xs.map (·.1) := by simp [htl]
      cases pre with
      | nil =>
        obtain ⟨hd, -⟩ := List.cons.inj hds
        rw [← hd] at hmem
        exact absurd hmem hi
      | cons d' pre =>
        obtain ⟨rfl, hrun⟩ := List.cons.inj hds
        have hnames := hn.sublist (names_spend q i x xs)
        -- whoever stands between the head and the one who gets the deal
        have htail : ∀ c ∈ ahead, i ≠ c.1 := by
          rintro c hc rfl
          exact hi (List.mem_map.2 ⟨c, by simp [htl, hc], rfl⟩)
        by_cases h0 : x - q = 0
        · -- the head has nothing left and deals no more
          rw [spend_cons, if_pos h0] at h ih
          have hzero : Deal.taken pre i = 0 := by
            refine Deal.taken_eq_zero fun c hc heq => hi (heq ▸ h.left_mem c ?_)
            exact hrun ▸ List.mem_append_left _ hc
          intro c hc
          rw [Deal.taken_cons]
          rcases List.mem_cons.1 hc with rfl | hc
          · rw [if_pos rfl, hzero]
            show q + 0 = x
            omega
          · rw [if_neg (htail c hc), zero_add]
            exact ih hn' hrun htl c hc
        · rw [spend_cons, if_neg h0] at h ih hnames
          have hline : (i, x - q) :: xs = ((i, x - q) :: ahead) ++ (d.left, z) :: behind :=
            congrArg ((i, x - q) :: ·) htl
          have hrest := ih hnames hrun hline
          intro c hc
          rw [Deal.taken_cons]
          rcases List.mem_cons.1 hc with rfl | hc
          · have hhead : Deal.taken pre i = x - q := hrest (i, x - q) List.mem_cons_self
            rw [if_pos rfl]
            show q + Deal.taken pre i = x
            omega
          · rw [if_neg (htail c hc), zero_add]
            exact hrest c (List.mem_cons_of_mem _ hc)

end Pour

end Codicis
