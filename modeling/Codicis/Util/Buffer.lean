/-
The byte buffer behind sockets and pipes (`util/buffer.h`).

The unconsumed bytes lie between two cursors of the storage.  Consuming moves the read cursor, and
the bytes are moved to the front only now and then: when the consumed part has become large, or
when there is no room behind the write cursor.  `view_foldl` says that none of this can be seen:
after any use of the buffer its view is that of a queue of bytes.
-/
import Mathlib.Algebra.Order.Ring.Int
import Mathlib.Data.List.Basic
import Mathlib.Tactic.SplitIfs

namespace Codicis

/-- A growable byte buffer with head and tail cursors. -/
structure Buffer where
  storage : List UInt8 := []
  readPos : ℕ := 0
  writePos : ℕ := 0
deriving DecidableEq, Repr

namespace Buffer

/-- Number of unconsumed bytes. -/
def size (b : Buffer) : ℕ := b.writePos - b.readPos

/-- The unconsumed bytes. -/
def view (b : Buffer) : List UInt8 := (b.storage.drop b.readPos).take b.size

/-- Bytes are copied into the storage. -/
def store (storage : List UInt8) (pos : ℕ) (bytes : List UInt8) : List UInt8 :=
  storage.take pos ++ bytes ++ storage.drop (pos + bytes.length)

/-- The storage with another size; new bytes are zero. -/
def resize (storage : List UInt8) (n : ℕ) : List UInt8 :=
  storage.take n ++ List.replicate (n - storage.length) 0

/-- Shift unconsumed bytes to offset zero. -/
def compact (b : Buffer) : Buffer where
  storage := if 0 < b.size ∧ 0 < b.readPos then store b.storage 0 b.view else b.storage
  readPos := 0
  writePos := b.size

/-- Move unconsumed bytes to the front when the head grows large. -/
def maybeCompact (b : Buffer) : Buffer :=
  if 0 < b.readPos ∧ b.storage.length / 2 ≤ b.readPos then b.compact else b

/-- Reclaim consumed head space before growing. -/
def reclaim (b : Buffer) : Buffer := if 0 < b.readPos then b.compact else b

/-- Grow the storage if there are less than `len` bytes behind the write cursor. -/
def grow (b : Buffer) (len : ℕ) : Buffer :=
  if b.storage.length - b.writePos < len then
    { b with storage := resize b.storage (b.writePos + len) }
  else b

/-- Ensure at least `len` writable bytes exist at the tail. -/
def reserveTail (b : Buffer) (len : ℕ) : Buffer :=
  if len ≤ b.storage.length - b.writePos then b else b.reclaim.grow len

/-- The caller writes behind the write cursor. -/
def write (b : Buffer) (bytes : List UInt8) : Buffer :=
  { b with storage := store b.storage b.writePos bytes }

/-- Mark bytes as written. -/
def commit (b : Buffer) (len : ℕ) : Buffer := { b with writePos := b.writePos + len }

/-- Append bytes to the tail. -/
def append (b : Buffer) (bytes : List UInt8) : Buffer :=
  if bytes.length = 0 then b else ((b.reserveTail bytes.length).write bytes).commit bytes.length

/-- Reserve writable bytes at the tail: they start at the write cursor. -/
def reserve (b : Buffer) (len : ℕ) : Buffer := b.reserveTail len

/-- Drop all unconsumed bytes and reset cursors. -/
def clear (b : Buffer) : Buffer := { b with readPos := 0, writePos := 0 }

/-- Consume bytes from the head. -/
def consume (b : Buffer) (len : ℕ) : Buffer :=
  if b.size ≤ len then b.clear else { b with readPos := b.readPos + len }.maybeCompact

/-! ### The cursors -/

/-- The cursors are in order. -/
structure Valid (b : Buffer) : Prop where
  read_le : b.readPos ≤ b.writePos
  write_le : b.writePos ≤ b.storage.length

/-- The buffer keeps its cursors in order and its view. -/
structure Keeps (b b' : Buffer) : Prop where
  valid : b'.Valid
  view : b'.view = b.view

variable {b b' b'' : Buffer} {bytes : List UInt8} {len : ℕ}

lemma Keeps.trans (h : Keeps b b') (h' : Keeps b' b'') : Keeps b b'' :=
  ⟨h'.valid, h'.view.trans h.view⟩

lemma Valid.keeps (h : b.Valid) : Keeps b b := ⟨h, rfl⟩

lemma Valid.length_view (h : b.Valid) : b.view.length = b.size := by
  have := h.read_le
  have := h.write_le
  rw [view, List.length_take, List.length_drop, size]
  omega

lemma length_store {storage : List UInt8} {pos : ℕ} (h : pos + bytes.length ≤ storage.length) :
    (store storage pos bytes).length = storage.length := by
  simp only [store, List.length_append, List.length_take, List.length_drop]
  omega

/-- What is left of the storage up to the write cursor determines the view. -/
lemma view_congr (hpos : b'.readPos = b.readPos) (hwrite : b'.writePos = b.writePos)
    (h : b'.storage.take b.writePos = b.storage.take b.writePos) : b'.view = b.view := by
  have hview : ∀ c : Buffer, c.view = (c.storage.take c.writePos).drop c.readPos := fun c => by
    rw [view, size, List.drop_take]
  rw [hview, hview, hpos, hwrite, h]

lemma Valid.compact (h : b.Valid) : Keeps b b.compact := by
  have hsize := h.length_view
  have hread := h.read_le
  have hwrite := h.write_le
  unfold Buffer.compact
  by_cases hmove : 0 < b.size ∧ 0 < b.readPos
  · rw [if_pos hmove]
    refine ⟨⟨Nat.zero_le _, ?_⟩, ?_⟩
    · change b.size ≤ (store b.storage 0 b.view).length
      rw [length_store (by rw [hsize, size]; omega), size]
      omega
    · change ((store b.storage 0 b.view).drop 0).take (b.size - 0) = b.view
      rw [List.drop_zero, Nat.sub_zero, store, List.take_zero, List.nil_append, ← hsize,
        List.take_left]
  · rw [if_neg hmove]
    refine ⟨⟨Nat.zero_le _, ?_⟩, ?_⟩
    · simp only [size]
      omega
    · -- there is nothing to move, or it is there already
      rcases Nat.eq_zero_or_pos b.size with hzero | hpos
      · simp [view, size, show b.writePos - b.readPos = 0 from hzero]
      · obtain hzero : b.readPos = 0 := by
          by_contra hne
          exact hmove ⟨hpos, Nat.pos_of_ne_zero hne⟩
        simp [view, size, hzero]

lemma Valid.reclaim (h : b.Valid) : Keeps b b.reclaim := by
  unfold Buffer.reclaim
  split_ifs
  · exact h.compact
  · exact h.keeps

lemma Valid.maybeCompact (h : b.Valid) : Keeps b b.maybeCompact := by
  unfold Buffer.maybeCompact
  split_ifs
  · exact h.compact
  · exact h.keeps

lemma Valid.grow (h : b.Valid) (len : ℕ) :
    Keeps b (b.grow len) ∧ (b.grow len).writePos + len ≤ (b.grow len).storage.length := by
  have hwrite := h.write_le
  unfold Buffer.grow
  split_ifs with hroom
  · have hlen : (resize b.storage (b.writePos + len)).length = b.writePos + len := by
      simp only [resize, List.length_append, List.length_take, List.length_replicate]
      omega
    refine ⟨⟨⟨h.read_le, by simp only [hlen]; omega⟩, view_congr rfl rfl ?_⟩, hlen.ge⟩
    dsimp only
    rw [resize, List.take_append_of_le_length (by rw [List.length_take]; omega),
      List.take_take, Nat.min_eq_left (Nat.le_add_right _ _)]
  · exact ⟨h.keeps, by omega⟩

/-- There is room behind the write cursor. -/
lemma Valid.reserve (h : b.Valid) (len : ℕ) : Keeps b (b.reserve len) ∧
    (b.reserve len).writePos + len ≤ (b.reserve len).storage.length := by
  unfold Buffer.reserve reserveTail
  split_ifs with hroom
  · have := h.write_le
    exact ⟨h.keeps, by omega⟩
  · obtain ⟨hgrow, hlen⟩ := h.reclaim.valid.grow len
    exact ⟨h.reclaim.trans hgrow, hlen⟩

/-- What is written behind the write cursor does not touch the unconsumed bytes. -/
lemma Valid.write (h : b.Valid) (hroom : b.writePos + bytes.length ≤ b.storage.length) :
    Keeps b (b.write bytes) := by
  refine ⟨⟨h.read_le, ?_⟩, view_congr rfl rfl ?_⟩
  · rw [Buffer.write, length_store hroom]
    exact h.write_le
  · rw [Buffer.write, store, List.append_assoc, List.take_left' ?_]
    exact List.length_take_of_le h.write_le

/-- What has been written becomes part of the view. -/
lemma Valid.commit (h : b.Valid) (hroom : b.writePos + bytes.length ≤ b.storage.length) {n : ℕ}
    (hn : n ≤ bytes.length) : ((b.write bytes).commit n).Valid ∧
      ((b.write bytes).commit n).view = b.view ++ bytes.take n := by
  have hread := h.read_le
  have hwrite := h.write_le
  have hlen := length_store hroom
  refine ⟨⟨by simp only [Buffer.commit, Buffer.write]; omega, ?_⟩, ?_⟩
  · simp only [Buffer.commit, Buffer.write, hlen]
    omega
  · have hsplit : store b.storage b.writePos bytes = b.storage.take b.writePos ++
        (bytes ++ b.storage.drop (b.writePos + bytes.length)) := by
      rw [store, List.append_assoc]
    have hhead : (b.storage.take b.writePos).length = b.writePos := List.length_take_of_le hwrite
    simp only [view, size, Buffer.commit, Buffer.write, hsplit]
    rw [List.drop_append_of_le_length (by omega), List.drop_take,
      show b.writePos + n - b.readPos = (b.writePos - b.readPos) + n by omega, List.take_append,
      List.length_take, List.length_drop, Nat.min_eq_left (by omega), Nat.add_sub_cancel_left,
      List.take_of_length_le (by rw [List.length_take]; omega), List.take_append_of_le_length hn]

/-! ### A queue of bytes -/

/-- What is done with a buffer. -/
inductive Act
  | append (bytes : List UInt8)
  /-- Bytes are reserved, some are written there, and some of those are committed. -/
  | fill (len : ℕ) (bytes : List UInt8) (n : ℕ)
  | consume (len : ℕ)
  | clear
deriving DecidableEq

/-- No more is written than has been reserved, and no more is committed than has been written. -/
def Act.Allowed : Act → Prop
  | .fill len bytes n => n ≤ bytes.length ∧ bytes.length ≤ len
  | _ => True

instance (a : Act) : Decidable a.Allowed := by
  cases a <;> unfold Act.Allowed <;> infer_instance

def step (b : Buffer) : Act → Buffer
  | .append bytes => b.append bytes
  | .fill len bytes n => ((b.reserve len).write bytes).commit n
  | .consume len => b.consume len
  | .clear => b.clear

/-- The same with a queue of bytes. -/
def enqueue (q : List UInt8) : Act → List UInt8
  | .append bytes => q ++ bytes
  | .fill _ bytes n => q ++ bytes.take n
  | .consume len => q.drop (min len q.length)
  | .clear => []

lemma clear_spec (b : Buffer) : b.clear.Valid ∧ b.clear.view = [] :=
  ⟨⟨le_rfl, Nat.zero_le _⟩, by simp [view, size, Buffer.clear]⟩

lemma Valid.consume (h : b.Valid) (len : ℕ) : (b.consume len).Valid ∧
    (b.consume len).view = b.view.drop (min len b.view.length) := by
  have hread := h.read_le
  have hsize := h.length_view
  unfold Buffer.consume
  split_ifs with hall
  · refine ⟨b.clear_spec.1, b.clear_spec.2.trans (Eq.symm ?_)⟩
    rw [List.drop_eq_nil_iff]
    omega
  · have hmoved : ({ b with readPos := b.readPos + len } : Buffer).Valid :=
      ⟨by simp only [size] at hall ⊢; omega, h.write_le⟩
    refine ⟨hmoved.maybeCompact.valid, hmoved.maybeCompact.view.trans ?_⟩
    rw [hsize, Nat.min_eq_left (by omega)]
    simp only [view, size]
    rw [List.drop_take, List.drop_drop, Nat.sub_sub]

/-- A buffer does what a queue does. -/
lemma Valid.step (h : b.Valid) {a : Act} (ha : a.Allowed) :
    (b.step a).Valid ∧ (b.step a).view = enqueue b.view a := by
  have hfill : ∀ {len : ℕ} {bytes : List UInt8} {n : ℕ}, n ≤ bytes.length → bytes.length ≤ len →
      (((b.reserve len).write bytes).commit n).Valid ∧
        (((b.reserve len).write bytes).commit n).view = b.view ++ bytes.take n := by
    intro len bytes n hn hlen
    obtain ⟨hkeeps, hroom⟩ := h.reserve len
    rw [← hkeeps.view]
    exact hkeeps.valid.commit (by omega) hn
  cases a with
  | append bytes =>
    change (b.append bytes).Valid ∧ (b.append bytes).view = b.view ++ bytes
    unfold Buffer.append
    split_ifs with hnil
    · rw [List.length_eq_zero_iff.1 hnil, List.append_nil]
      exact ⟨h, rfl⟩
    · have happend := @hfill _ bytes _ le_rfl le_rfl
      rwa [List.take_length] at happend
  | fill len bytes n => exact hfill ha.1 ha.2
  | consume len => exact h.consume len
  | clear => exact b.clear_spec

/-- After any use a buffer is a queue of bytes, and it has room for as many bytes as one likes,
apart from the unconsumed ones. -/
theorem view_foldl (as : List Act) (h : ∀ a ∈ as, a.Allowed) :
    let b := as.foldl step {}
    b.view = as.foldl enqueue [] ∧ b.size = b.view.length ∧
      ∀ len, (b.reserve len).view = b.view ∧
        (b.reserve len).readPos + b.size = (b.reserve len).writePos ∧
        (b.reserve len).writePos + len ≤ (b.reserve len).storage.length ∧
        ∀ bytes, bytes.length ≤ len → ((b.reserve len).write bytes).view = b.view := by
  have hrun : ∀ (as : List Act) (b : Buffer), b.Valid → (∀ a ∈ as, a.Allowed) →
      (as.foldl step b).Valid ∧ (as.foldl step b).view = as.foldl enqueue b.view := by
    intro as
    induction as with
    | nil => exact fun b hb _ => ⟨hb, rfl⟩
    | cons a as ih =>
      intro b hb has
      obtain ⟨hvalid, hview⟩ := hb.step (has a (by simp))
      rw [List.foldl_cons, List.foldl_cons, ← hview]
      exact ih _ hvalid fun a ha => has a (by simp [ha])
  obtain ⟨hvalid, hview⟩ := hrun as {} ⟨le_rfl, le_rfl⟩ h
  refine ⟨hview, hvalid.length_view.symm, fun len => ?_⟩
  obtain ⟨hkeeps, hroom⟩ := hvalid.reserve len
  refine ⟨hkeeps.view, ?_, hroom, fun bytes hbytes => ?_⟩
  · have hread := hkeeps.valid.read_le
    rw [← hvalid.length_view, ← hkeeps.view, hkeeps.valid.length_view, size]
    omega
  · exact (hkeeps.valid.write (by omega)).view.trans hkeeps.view

/-- A read of which less comes than has been reserved, while consuming has left room in front. -/
theorem view_foldl_short_read :
    ([.append [1, 2, 3, 4], .consume 3, .fill 8 [5, 6, 7] 2, .consume 1].foldl step {}).view
      = [5, 6] := by
  refine (view_foldl [.append [1, 2, 3, 4], .consume 3, .fill 8 [5, 6, 7] 2, .consume 1]
    (by decide)).1.trans ?_
  decide

end Buffer

end Codicis
