import Bethany.Library.Machine

/-!
# The address translation of an x86-64 processor

With four levels of tables a virtual address has four indices of 9 bits over an offset of 12
bits.  An entry that is not present ends the walk.  An entry of the second or third table with
bit 7 set stands for a large page, of 1 GiB or 2 MiB, and the walk ends there as well.

Levels count down: the walk at level `n + 1` reads an entry of a table that leads to a table of
level `n`, or to a large page of `2 ^ (12 + 9 * n)` bytes; at level 0 it has got to a page.

* `walk`, `translate`: the walk, and the address it starts from for a value of `CR3`;
* `tables`, `largePage`: the tables that a walk reads, and the large page it ends at;
* `frame_zero_in_frame`: a large page holds what its entry would lead to as a table;
* `Agree.same`, `agree_fill`: a walk depends only on the tables it reads;
* `Rights`, `rights`: what the entries on the way allow together.
-/

namespace Paging

open Machine

/-- Entry `i` of a table. -/
def entry (m : Mem) (table i : ℕ) : ℕ := load m (table + 8 * i) 8

/-- The index into the table of level `n + 1`. -/
def index (n virt : ℕ) : ℕ := virt / 2 ^ (12 + 9 * n) % 512

/-- The address in an entry that leads to a page of `2 ^ (12 + 9 * n)` bytes: the bits up to 51
that the offset leaves. -/
def frame (n e : ℕ) : ℕ := e / 2 ^ (12 + 9 * n) % 2 ^ (40 - 9 * n) * 2 ^ (12 + 9 * n)

/-- The entry at level `n + 1` stands for a large page. -/
def Large (n e : ℕ) : Prop := (n = 1 ∨ n = 2) ∧ e.testBit 7 = true

instance (n e : ℕ) : Decidable (Large n e) := inferInstanceAs (Decidable (_ ∧ _))

/-- The physical address of `virt`, walking from a table of level `n`. -/
def walk (m : Mem) (virt : ℕ) : ℕ → ℕ → Option ℕ
  | 0, page => some (page + virt % 2 ^ 12)
  | n + 1, table =>
      let e := entry m table (index n virt)
      if e.testBit 0 = false then none
      else if Large n e then some (frame n e + virt % 2 ^ (12 + 9 * n))
      else walk m virt n (frame 0 e)

/-- The first table: bits 12 to 51 of `CR3`. -/
def root (cr3 : ℕ) : ℕ := frame 0 cr3

/-- The physical address of `virt`, or `0` when an entry is not present. -/
protected def translate (m : Mem) (cr3 virt : ℕ) : ℕ := (walk m virt 4 (root cr3)).getD 0

/-- The tables that the walk reads. -/
def tables (m : Mem) (virt : ℕ) : ℕ → ℕ → List ℕ
  | 0, _ => []
  | n + 1, table =>
      let e := entry m table (index n virt)
      if e.testBit 0 = false ∨ Large n e then [table] else table :: tables m virt n (frame 0 e)

/-- The large page that the walk ends at: its level and its entry. -/
def largePage (m : Mem) (virt : ℕ) : ℕ → ℕ → Option (ℕ × ℕ)
  | 0, _ => none
  | n + 1, table =>
      let e := entry m table (index n virt)
      if e.testBit 0 = false then none
      else if Large n e then some (n, e)
      else largePage m virt n (frame 0 e)

variable {m m' : Mem} {virt n table e i : ℕ}

theorem index_lt (n virt : ℕ) : index n virt < 512 := Nat.mod_lt _ (by norm_num)

/-- An address of a page is a multiple of its size. -/
theorem frame_dvd (n e : ℕ) : 2 ^ (12 + 9 * n) ∣ frame n e := Dvd.intro_left _ rfl

/-- The table that the entry of a large page would lead to lies in that page. -/
theorem frame_zero_in_frame (hn : 9 * n ≤ 40) (e : ℕ) :
    frame n e ≤ frame 0 e ∧ frame 0 e + 2 ^ 12 ≤ frame n e + 2 ^ (12 + 9 * n) := by
  obtain ⟨k, hk⟩ := Nat.exists_eq_add_of_le hn
  have hq : 0 < 2 ^ (9 * n) := Nat.two_pow_pos _
  have hsplit : e / 2 ^ 12 % 2 ^ 40 =
      e / 2 ^ 12 % 2 ^ (9 * n) + 2 ^ (9 * n) * (e / 2 ^ 12 / 2 ^ (9 * n) % 2 ^ k) := by
    rw [hk, pow_add, Nat.mod_mul]
  have hlow := Nat.mod_lt (e / 2 ^ 12) hq
  have hhigh : frame n e = 2 ^ 12 * (2 ^ (9 * n) * (e / 2 ^ 12 / 2 ^ (9 * n) % 2 ^ k)) := by
    unfold frame
    rw [show 40 - 9 * n = k by omega, pow_add, ← Nat.div_div_eq_div_mul]
    ring
  have hzero : frame 0 e = 2 ^ 12 * (e / 2 ^ 12 % 2 ^ 40) := by
    unfold frame
    simp [Nat.mul_comm]
  rw [hhigh, hzero, hsplit, pow_add]
  constructor
  · exact Nat.mul_le_mul_left _ (Nat.le_add_left _ _)
  · rw [← Nat.mul_succ, ← Nat.mul_add]
    refine Nat.mul_le_mul_left _ ?_
    omega

/-! ### One level -/

theorem walk_of_absent (h : (entry m table (index n virt)).testBit 0 = false) :
    walk m virt (n + 1) table = none := if_pos h

theorem walk_of_table (h : (entry m table (index n virt)).testBit 0 = true)
    (hsmall : ¬ Large n (entry m table (index n virt))) :
    walk m virt (n + 1) table = walk m virt n (frame 0 (entry m table (index n virt))) := by
  simp only [walk, h, Bool.true_eq_false, if_false, hsmall]

theorem largePage_of_large (h : (entry m table (index n virt)).testBit 0 = true)
    (hlarge : Large n (entry m table (index n virt))) :
    largePage m virt (n + 1) table = some (n, entry m table (index n virt)) := by
  simp only [largePage, h, Bool.true_eq_false, if_false, hlarge, if_true]

theorem largePage_of_table (h : (entry m table (index n virt)).testBit 0 = true)
    (hsmall : ¬ Large n (entry m table (index n virt))) :
    largePage m virt (n + 1) table =
      largePage m virt n (frame 0 (entry m table (index n virt))) := by
  simp only [largePage, h, Bool.true_eq_false, if_false, hsmall]

theorem tables_of_table (h : (entry m table (index n virt)).testBit 0 = true)
    (hsmall : ¬ Large n (entry m table (index n virt))) :
    tables m virt (n + 1) table =
      table :: tables m virt n (frame 0 (entry m table (index n virt))) := by
  simp only [tables, h, Bool.true_eq_false, hsmall, or_self, if_false]

/-- The walk reads the table it starts from. -/
theorem mem_tables (m : Mem) (virt n table : ℕ) : table ∈ tables m virt (n + 1) table := by
  simp only [tables]
  split_ifs
  · exact List.mem_singleton_self table
  · exact List.mem_cons_self

/-- Every table that the walk reads is at the start of a page. -/
theorem dvd_of_mem_tables {t : ℕ} (htable : 2 ^ 12 ∣ table) (ht : t ∈ tables m virt n table) :
    2 ^ 12 ∣ t := by
  induction n generalizing table with
  | zero => cases ht
  | succ n ih =>
    simp only [tables] at ht
    split_ifs at ht with hend
    · rwa [List.mem_singleton.mp ht]
    · rcases List.mem_cons.mp ht with rfl | hrest
      · exact htable
      · exact ih (frame_dvd 0 _) hrest

/-! ### What a walk depends on -/

/-- The two memories agree on all tables that the walk reads. -/
def Agree (m m' : Mem) (virt n table : ℕ) : Prop :=
  ∀ t ∈ tables m virt n table, ∀ k < 2 ^ 12, m' (t + k) = m (t + k)

theorem Agree.entry (h : Agree m m' virt (n + 1) table) (hi : i < 512) :
    entry m' table i = entry m table i := by
  refine load_congr fun k hk => ?_
  have hbyte := h table (mem_tables m virt n table) (8 * i + k) (by omega)
  rwa [← Nat.add_assoc] at hbyte

theorem Agree.next (h : Agree m m' virt (n + 1) table)
    (hpres : (Paging.entry m table (index n virt)).testBit 0 = true)
    (hsmall : ¬ Large n (Paging.entry m table (index n virt))) :
    Agree m m' virt n (frame 0 (Paging.entry m table (index n virt))) := by
  intro t ht
  refine h t ?_
  rw [tables_of_table hpres hsmall]
  exact List.mem_cons_of_mem _ ht

/-- A page that the walk does not read may be filled. -/
theorem agree_fill {page : ℕ} (x : Byte) (htable : 2 ^ 12 ∣ table) (hpage : 2 ^ 12 ∣ page)
    (hnot : page ∉ tables m virt n table) : Agree m (fill m page (2 ^ 12) x) virt n table := by
  intro t ht k hk
  have hne : t ≠ page := fun h => hnot (h ▸ ht)
  obtain ⟨a, rfl⟩ := dvd_of_mem_tables htable ht
  obtain ⟨b, rfl⟩ := hpage
  refine if_neg ?_
  omega

/-- **A walk depends only on the tables it reads**, and so do these tables and where it ends. -/
theorem Agree.same (h : Agree m m' virt n table) :
    walk m' virt n table = walk m virt n table ∧
      largePage m' virt n table = largePage m virt n table ∧
      tables m' virt n table = tables m virt n table := by
  induction n generalizing table with
  | zero => exact ⟨rfl, rfl, rfl⟩
  | succ n ih =>
    simp only [walk, largePage, tables, h.entry (index_lt n virt)]
    cases hpres : (Paging.entry m table (index n virt)).testBit 0 with
    | false => simp
    | true =>
      by_cases hlarge : Large n (Paging.entry m table (index n virt))
      · simp [hlarge]
      · obtain ⟨hwalk, hpage, htables⟩ := ih (h.next hpres hlarge)
        simp [hlarge, hwalk, hpage, htables]

/-! ### Rights -/

/-- What may be done with a page. -/
@[ext] structure Rights where
  writable : Bool
  user : Bool
  noExecute : Bool
  deriving DecidableEq

/-- The rights that one entry gives: bits 1, 2 and 63. -/
def Rights.ofEntry (e : ℕ) : Rights := ⟨e.testBit 1, e.testBit 2, e.testBit 63⟩

/-- What two entries allow together. -/
def Rights.meet (a b : Rights) : Rights :=
  ⟨a.writable && b.writable, a.user && b.user, a.noExecute || b.noExecute⟩

/-- No entry takes anything away. -/
def Rights.full : Rights := ⟨true, true, false⟩

@[simp] theorem Rights.meet_full (a : Rights) : a.meet .full = a := by simp [meet, full]

@[simp] theorem Rights.meet_self_meet (a b : Rights) : a.meet (a.meet b) = a.meet b := by
  simp [meet]

/-- The rights of the page of `virt`, walking from a table of level `n`: those that all entries
on the way give.  There are none when an entry is not present. -/
def rights (m : Mem) (virt : ℕ) : ℕ → ℕ → Option Rights
  | 0, _ => some .full
  | n + 1, table =>
      let e := entry m table (index n virt)
      if e.testBit 0 = false then none
      else if Large n e then some (.ofEntry e)
      else (rights m virt n (frame 0 e)).map (Rights.ofEntry e).meet

theorem rights_of_absent (h : (entry m table (index n virt)).testBit 0 = false) :
    rights m virt (n + 1) table = none := by
  simp [rights, h]

theorem rights_of_table (h : (entry m table (index n virt)).testBit 0 = true)
    (hsmall : ¬ Large n (entry m table (index n virt))) :
    rights m virt (n + 1) table =
      (rights m virt n (frame 0 (entry m table (index n virt)))).map
        (Rights.ofEntry (entry m table (index n virt))).meet := by
  simp [rights, h, hsmall]

end Paging
