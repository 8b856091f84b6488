import Mathlib.Tactic

/-!
# Ring buffers

Items are written to the slots `0, …, capacity - 1` in turn and read from them in the same order.
The item number `i` goes to the slot `i % capacity`.

* `next`: the position after a slot;
* `Represents`: the slots hold the items that have been written and not been read;
* `Represents.put`, `Represents.take`: an item is written while there is room, and read while
  there is one.
-/

namespace Ring

variable {α : Type*} {buffer : ℕ → α} {capacity head tail i j : ℕ} {written read : List α}
  {unread : Finset ℕ}

/-- The position after the slot `i`. -/
def next (capacity i : ℕ) : ℕ := if i + 1 = capacity then 0 else i + 1

theorem next_mod (hpos : 0 < capacity) (n : ℕ) :
    next capacity (n % capacity) = (n + 1) % capacity := by
  have hlt : n % capacity < capacity := Nat.mod_lt n hpos
  unfold next
  rw [← Nat.mod_add_mod n]
  split_ifs with hwrap
  · rw [hwrap, Nat.mod_self]
  · rw [Nat.mod_eq_of_lt (show n % capacity + 1 < capacity by omega)]

/-- Items less than `capacity` apart are in different slots. -/
theorem mod_ne_mod (hij : i < j) (hji : j < i + capacity) : i % capacity ≠ j % capacity := by
  intro heq
  have hdvd : capacity ∣ j - i := (Nat.modEq_iff_dvd' hij.le).mp heq
  have := Nat.le_of_dvd (by omega) hdvd
  omega

/-- The slots hold the items that have been written and not been read, and `unread` are these
slots. -/
structure Represents (buffer : ℕ → α) (capacity head tail : ℕ) (written read : List α)
    (unread : Finset ℕ) : Prop where
  pos : 0 < capacity
  order : read <+: written
  fits : written.length ≤ read.length + capacity
  head : head = read.length % capacity
  tail : tail = written.length % capacity
  slots : ∀ i, (h : i < written.length) → read.length ≤ i → buffer (i % capacity) = written[i]
  unread : unread = (Finset.Ico read.length written.length).image (· % capacity)

namespace Represents

theorem empty (buffer : ℕ → α) (hpos : 0 < capacity) :
    Represents buffer capacity 0 0 [] [] ∅ where
  pos := hpos
  order := List.prefix_refl []
  fits := Nat.zero_le _
  head := (Nat.zero_mod capacity).symm
  tail := (Nat.zero_mod capacity).symm
  slots _ h := absurd h (Nat.not_lt_zero _)
  unread := rfl

variable (h : Represents buffer capacity head tail written read unread)
include h

theorem length_le : read.length ≤ written.length := h.order.length_le

theorem head_lt : head < capacity := h.head ▸ Nat.mod_lt _ h.pos

theorem tail_lt : tail < capacity := h.tail ▸ Nat.mod_lt _ h.pos

/-- As many slots are in use as items have been written and not been read. -/
theorem card_unread : unread.card = written.length - read.length := by
  have hfits := h.fits
  have hinj : Set.InjOn (· % capacity) (Finset.Ico read.length written.length : Set ℕ) := by
    intro i hi j hj heq
    obtain ⟨hilo, hihi⟩ := Finset.mem_Ico.mp (Finset.mem_coe.mp hi)
    obtain ⟨hjlo, hjhi⟩ := Finset.mem_Ico.mp (Finset.mem_coe.mp hj)
    rcases lt_trichotomy i j with hlt | rfl | hlt
    · exact absurd heq (mod_ne_mod hlt (by omega))
    · rfl
    · exact absurd heq.symm (mod_ne_mod hlt (by omega))
  rw [h.unread, Finset.card_image_of_injOn hinj, Nat.card_Ico]

/-- At most `capacity` slots are in use. -/
theorem card_unread_le : unread.card ≤ capacity := by
  have hfits := h.fits
  rw [h.card_unread]
  omega

/-- Going on from `head` by the number of slots in use gets to `tail`. -/
theorem head_add_card : (head + unread.card) % capacity = tail := by
  have hle := h.length_le
  rw [h.card_unread, h.head, h.tail, Nat.mod_add_mod]
  congr 1
  omega

/-- While there is room, the slot that is written next is not in use. -/
theorem tail_notMem (hroom : written.length < read.length + capacity) : tail ∉ unread := by
  rw [h.tail, h.unread, Finset.mem_image]
  rintro ⟨i, hi, heq⟩
  obtain ⟨hle, hlt⟩ := Finset.mem_Ico.mp hi
  exact mod_ne_mod hlt (by omega) heq

/-- While an item is unread, the slot that is read next is in use. -/
theorem head_mem (hsome : read.length < written.length) : head ∈ unread := by
  rw [h.head, h.unread]
  exact Finset.mem_image_of_mem (· % capacity) (Finset.mem_Ico.mpr ⟨le_rfl, hsome⟩)

/-- **Writing an item.** -/
theorem put (hroom : written.length < read.length + capacity) (a : α) :
    Represents (Function.update buffer tail a) capacity head (next capacity tail) (written ++ [a])
      read (insert tail unread) where
  pos := h.pos
  order := h.order.trans (List.prefix_append _ _)
  fits := by
    rw [List.length_append, List.length_singleton]
    omega
  head := h.head
  tail := by
    rw [h.tail, next_mod h.pos, List.length_append, List.length_singleton]
  slots i hi hread := by
    rw [List.length_append, List.length_singleton] at hi
    rw [h.tail]
    rcases Nat.lt_succ_iff_lt_or_eq.mp hi with hlt | rfl
    · rw [Function.update_of_ne (mod_ne_mod hlt (by omega)), List.getElem_append_left hlt]
      exact h.slots i hlt hread
    · rw [Function.update_self, List.getElem_concat_length rfl]
  unread := by
    have hle := h.length_le
    rw [List.length_append, List.length_singleton, ← Finset.insert_Ico_right_eq_Ico_add_one hle,
      Finset.image_insert, ← h.tail, ← h.unread]

/-- **Reading an item.**  It is the first one that has not been read. -/
theorem take (hsome : read.length < written.length) :
    Represents buffer capacity (next capacity head) tail written (read ++ [buffer head])
      (unread.erase head) where
  pos := h.pos
  order := by
    have hread : read = written.take read.length := List.prefix_iff_eq_take.mp h.order
    have htake : read ++ [written[read.length]] = written.take (read.length + 1) := by
      rw [← List.take_append_getElem hsome, ← hread]
    rw [h.head, h.slots _ hsome le_rfl, htake]
    exact List.take_prefix _ _
  fits := by
    have := h.fits
    rw [List.length_append, List.length_singleton]
    omega
  head := by
    rw [h.head, next_mod h.pos, List.length_append, List.length_singleton]
  tail := h.tail
  slots i hi hread := by
    rw [List.length_append, List.length_singleton] at hread
    exact h.slots i hi (by omega)
  unread := by
    have hfits := h.fits
    have hnotMem : head ∉ (Finset.Ico (read.length + 1) written.length).image (· % capacity) := by
      rw [h.head, Finset.mem_image]
      rintro ⟨i, hi, heq⟩
      obtain ⟨hle, hlt⟩ := Finset.mem_Ico.mp hi
      exact mod_ne_mod (by omega) (by omega) heq.symm
    rw [List.length_append, List.length_singleton, h.unread,
      ← Finset.insert_Ico_add_one_left_eq_Ico hsome, Finset.image_insert, ← h.head,
      Finset.erase_insert hnotMem]

end Represents

end Ring
