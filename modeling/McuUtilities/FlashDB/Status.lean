import Mathlib.Algebra.Ring.Nat
import McuUtilities.Lib.Store

/-!
# Statuses in flash (`fdb_utils.c`)

A record and a sector keep a status in a table that is written without being erased, and writing can only
clear bits. Each status clears bits of its own, so a status that was written stays, and what is read back
is the highest one that was written. `FDB_WRITE_GRAN` is 1 or a multiple of 8; with 1 the eight statuses
of one byte are told apart, and no more are in use.
-/

namespace McuUtilities.FlashDB

section functions
variable (fdbWriteGran statusNum : Nat)

def fdbStatusTableSize : Nat :=
  if fdbWriteGran = 1 then (statusNum * fdbWriteGran + 7) / 8
  else ((statusNum - 1) * fdbWriteGran + 7) / 8

/-- The table, and where it must be written. -/
def fdbSetStatus (statusIndex : Nat) : (Nat → UInt8) × Option Nat :=
  let statusTable := fill (fun _ => 0) 0 (fdbStatusTableSize fdbWriteGran statusNum) 0xFF
  if 0 < statusIndex then
    if fdbWriteGran = 1 then
      let byteIndex := (statusIndex - 1) / 8
      (Function.update statusTable byteIndex
        (statusTable byteIndex &&& UInt8.ofNat (0x00ff >>> (statusIndex % 8))), some byteIndex)
    else
      let byteIndex := (statusIndex - 1) * (fdbWriteGran / 8)
      (Function.update statusTable byteIndex 0x00, some byteIndex)
  else (statusTable, none)

/-- The test of `_fdb_get_status` for the status `n + 1`. -/
def marked (statusTable : Nat → UInt8) (n : Nat) : Bool :=
  if fdbWriteGran = 1 then statusTable (n / 8) &&& UInt8.ofNat (0x80 >>> (n % 8)) = 0
  else statusTable (n * fdbWriteGran / 8) = 0

/-- The loop of `_fdb_get_status`. -/
def getStatusLoop (statusTable : Nat → UInt8) : Nat → Nat
  | 0 => 0
  | n + 1 => if marked fdbWriteGran statusTable n then n + 1 else getStatusLoop statusTable n

def fdbGetStatus (statusTable : Nat → UInt8) : Nat :=
  getStatusLoop fdbWriteGran statusTable (statusNum - 1)

/-- Writing flash clears the bits that are clear in the data. -/
def flashWrite (flash : Nat → UInt8) (addr size : Nat) (data : Nat → UInt8) : Nat → UInt8 := fun a =>
  if addr ≤ a ∧ a < addr + size then flash a &&& data (a - addr) else flash a

def fdbWriteStatus (addr statusIndex : Nat) (flash : Nat → UInt8) : Nat → UInt8 :=
  match fdbSetStatus fdbWriteGran statusNum statusIndex with
  | (_, none) => flash
  | (statusTable, some byteIndex) =>
    flashWrite flash (addr + byteIndex) (if fdbWriteGran = 1 then 1 else fdbWriteGran / 8)
      fun k => statusTable (byteIndex + k)

def fdbReadStatus (addr : Nat) (flash : Nat → UInt8) : Nat :=
  fdbGetStatus fdbWriteGran statusNum fun k => flash (addr + k)

end functions

/-! ## One byte of bits -/

theorem mask_bit : ∀ i < 8, ∀ j < 7,
    UInt8.ofNat (0x00ff >>> i) &&& UInt8.ofNat (0x80 >>> j) =
      if j < i then 0 else UInt8.ofNat (0x80 >>> j) := by
  decide

variable {gran num addr i j m : Nat} {flash : Nat → UInt8}

/-- The granularities, with a table of at most one byte of bits. -/
def Supported (gran num : Nat) : Prop := gran = 1 ∧ num ≤ 8 ∨ gran % 8 = 0 ∧ 0 < gran

/-- The marks a status makes. -/
def Marks (gran i j : Nat) : Prop := if gran = 1 then j < i else j + 1 = i

theorem marked_write_bit (hnum : num ≤ 8) (hpos : 0 < i) (hi : i < num) (hj : j < num - 1) :
    marked 1 (fun k => fdbWriteStatus 1 num addr i flash (addr + k)) j = true ↔
      marked 1 (fun k => flash (addr + k)) j = true ∨ j < i := by
  have hsize : 0 < fdbStatusTableSize 1 num := by
    rw [fdbStatusTableSize, if_pos rfl]
    omega
  have hbyte : fdbWriteStatus 1 num addr i flash (addr + 0) =
      flash (addr + 0) &&& UInt8.ofNat (0x00ff >>> i) := by
    rw [fdbWriteStatus, fdbSetStatus, if_pos hpos, if_pos rfl]
    simp only [show (i - 1) / 8 = 0 by omega, show i % 8 = i by omega]
    rw [flashWrite, if_pos (by rw [if_pos trivial]; omega), show addr + 0 - (addr + 0) = 0 by omega,
      Nat.add_zero, Function.update_self, fill, if_pos (by omega)]
    congr 1
    exact UInt8.and_comm _ _ |>.trans (UInt8.and_neg_one)
  rw [marked, marked, if_pos rfl, if_pos rfl, show j / 8 = 0 by omega, show j % 8 = j by omega]
  simp only [hbyte, UInt8.and_assoc, mask_bit i (by omega) j (by omega), decide_eq_true_eq]
  by_cases hlt : j < i
  · rw [if_pos hlt, UInt8.and_zero]
    exact ⟨fun _ => .inr hlt, fun _ => rfl⟩
  · rw [if_neg hlt, or_iff_left hlt]

theorem marked_write_bytes (hgran : gran % 8 = 0) (hpos : 0 < gran) (hi : 0 < i) :
    marked gran (fun k => fdbWriteStatus gran num addr i flash (addr + k)) j = true ↔
      marked gran (fun k => flash (addr + k)) j = true ∨ j + 1 = i := by
  obtain ⟨width, rfl⟩ := Nat.dvd_of_mod_eq_zero hgran
  obtain ⟨n, rfl⟩ := Nat.exists_eq_succ_of_ne_zero (Nat.ne_of_gt hi)
  have hone : 8 * width ≠ 1 := by omega
  have hplace : j * (8 * width) / 8 = j * width := by
    rw [Nat.mul_left_comm, Nat.mul_div_cancel_left _ (by decide)]
  rw [marked, marked, if_neg hone, if_neg hone, hplace, fdbWriteStatus, fdbSetStatus, if_pos hi, if_neg hone]
  simp only [if_neg hone, Nat.succ_sub_one, Nat.mul_div_cancel_left width (show 0 < 8 by decide), flashWrite,
    decide_eq_true_eq]
  by_cases hsame : j = n
  · rw [hsame, if_pos (by omega), show addr + n * width - (addr + n * width) = 0 by omega, Nat.add_zero,
      Function.update_self, UInt8.and_zero]
    exact ⟨fun _ => .inr rfl, fun _ => rfl⟩
  · -- The marks of other statuses lie outside of what is written.
    have houtside : ¬ (addr + n * width ≤ addr + j * width ∧ addr + j * width < addr + n * width + width) := by
      rintro ⟨hle, hlt⟩
      have hle : n * width ≤ j * width := by omega
      have hlt : j * width < (n + 1) * width := by rw [Nat.succ_mul]; omega
      have hnj := Nat.le_of_mul_le_mul_right hle (by omega)
      have hjn := Nat.lt_of_mul_lt_mul_right hlt
      omega
    rw [if_neg houtside, or_iff_left (by omega)]

/-- Writing a status makes its marks and keeps the others. -/
theorem marked_write (hgran : Supported gran num) (hi : i < num) (hj : j < num - 1) :
    marked gran (fun k => fdbWriteStatus gran num addr i flash (addr + k)) j = true ↔
      marked gran (fun k => flash (addr + k)) j = true ∨ Marks gran i j := by
  rcases Nat.eq_zero_or_pos i with rfl | hpos
  · have hnone : ¬ Marks gran 0 j := by
      rw [Marks]
      split <;> omega
    rw [or_iff_left hnone, fdbWriteStatus, fdbSetStatus, if_neg (Nat.lt_irrefl 0)]
  · rw [Marks]
    rcases hgran with ⟨rfl, hnum⟩ | ⟨hgran, hgran'⟩
    · rw [if_pos rfl]
      exact marked_write_bit hnum hpos hi hj
    · rw [if_neg (by omega)]
      exact marked_write_bytes hgran hgran' hpos

/-! ## The highest status -/

/-- The marks in the table are those of statuses up to `m`, with `m` among them. -/
def UpTo (gran num addr m : Nat) (flash : Nat → UInt8) : Prop :=
  m < num ∧ (∀ j, j < num - 1 → m ≤ j → marked gran (fun k => flash (addr + k)) j = false) ∧
    (0 < m → marked gran (fun k => flash (addr + k)) (m - 1) = true)

theorem getStatusLoop_eq {statusTable : Nat → UInt8} {n : Nat} (hm : m ≤ n)
    (hnone : ∀ j, j < n → m ≤ j → marked gran statusTable j = false)
    (hsome : 0 < m → marked gran statusTable (m - 1) = true) : getStatusLoop gran statusTable n = m := by
  induction n with
  | zero => exact (Nat.le_zero.mp hm).symm
  | succ n ih =>
    rw [getStatusLoop]
    by_cases htop : m = n + 1
    · subst htop
      rw [if_pos (show marked gran statusTable n = true from hsome (Nat.succ_pos n))]
    · rw [hnone n (Nat.lt_succ_self n) (by omega), if_neg Bool.false_ne_true]
      exact ih (by omega) fun j hj => hnone j (Nat.lt_succ_of_lt hj)

theorem UpTo.read (h : UpTo gran num addr m flash) : fdbReadStatus gran num addr flash = m :=
  getStatusLoop_eq (by have := h.1; omega) h.2.1 h.2.2

theorem UpTo.write (h : UpTo gran num addr m flash) (hgran : Supported gran num) (hi : i < num) :
    UpTo gran num addr (max m i) (fdbWriteStatus gran num addr i flash) := by
  obtain ⟨hm, hnone, hsome⟩ := h
  refine ⟨by omega, fun j hj hle => ?_, fun hpos => ?_⟩
  · have hmarks : ¬ Marks gran i j := by
      rw [Marks]
      split <;> omega
    rw [← Bool.not_eq_true, marked_write hgran hi hj, or_iff_left hmarks, hnone j hj (by omega)]
    exact Bool.false_ne_true
  · rw [marked_write hgran hi (by omega)]
    rcases Nat.le_total m i with hle | hle
    · rw [Nat.max_eq_right hle] at hpos ⊢
      right
      rw [Marks]
      split <;> omega
    · rw [Nat.max_eq_left hle] at hpos ⊢
      exact .inl (hsome hpos)

theorem upTo_erased (hgran : Supported gran num) (hnum : 0 < num)
    (herased : ∀ k, k < fdbStatusTableSize gran num → flash (addr + k) = 0xFF) :
    UpTo gran num addr 0 flash := by
  refine ⟨hnum, fun j hj _ => ?_, fun h => absurd h (Nat.lt_irrefl 0)⟩
  rw [marked]
  rcases hgran with ⟨rfl, hle⟩ | ⟨hgran, hgran'⟩
  · have hbit : ∀ j < 8, (0xFF : UInt8) &&& UInt8.ofNat (0x80 >>> j) ≠ 0 := by decide
    rw [if_pos rfl, herased _ (by rw [fdbStatusTableSize, if_pos rfl]; omega)]
    exact decide_eq_false (hbit _ (Nat.mod_lt _ (by decide)))
  · obtain ⟨width, rfl⟩ := Nat.dvd_of_mod_eq_zero hgran
    have hone : 8 * width ≠ 1 := by omega
    have hplace : j * (8 * width) / 8 = j * width := by
      rw [Nat.mul_left_comm, Nat.mul_div_cancel_left _ (by decide)]
    have hin : j * width < fdbStatusTableSize (8 * width) num := by
      rw [fdbStatusTableSize, if_neg hone, Nat.mul_left_comm]
      have hlt := Nat.mul_lt_mul_of_pos_right hj (show 0 < width by omega)
      omega
    rw [if_neg hone, hplace, herased _ hin]
    exact decide_eq_false (by decide)

/-- Whatever statuses are written over erased flash, the highest of them is read. -/
theorem fdbReadStatus_written (hgran : Supported gran num) (hnum : 0 < num)
    (herased : ∀ k, k < fdbStatusTableSize gran num → flash (addr + k) = 0xFF)
    (statuses : List Nat) (hstatuses : ∀ i ∈ statuses, i < num) :
    fdbReadStatus gran num addr
      (statuses.foldl (fun flash i => fdbWriteStatus gran num addr i flash) flash) = statuses.foldl max 0 := by
  suffices hrun : ∀ m flash, UpTo gran num addr m flash → UpTo gran num addr (statuses.foldl max m)
      (statuses.foldl (fun flash i => fdbWriteStatus gran num addr i flash) flash) from
    (hrun 0 flash (upTo_erased hgran hnum herased)).read
  clear herased
  induction statuses with
  | nil => exact fun m flash h => h
  | cons i statuses ih =>
    intro m flash h
    exact ih (fun j hj => hstatuses j (List.mem_cons_of_mem i hj)) _ _
      (h.write hgran (hstatuses i List.mem_cons_self))

theorem fdbReadStatus_written_sample :
    fdbReadStatus 1 6 0 ([1, 2, 4, 3].foldl (fun flash i => fdbWriteStatus 1 6 0 i flash) fun _ => 0xFF) =
      [1, 2, 4, 3].foldl max 0 :=
  fdbReadStatus_written (.inl ⟨rfl, by decide⟩) (by decide) (fun _ _ => rfl) [1, 2, 4, 3] (by decide)

end McuUtilities.FlashDB
