import McuUtilities.Fota.Board

/-!
# Partitions (`rtt_fal_partition.c`)

Lookup, bounds check and device access of the flash abstraction layer. The bounds check adds in
`uint32_t`. `Board.region` is the range of flash behind a partition; a request inside the partition
is the same request on its region.
-/

namespace McuUtilities.Fota
open Prog

section defs
variable (b : Board) (env : Env)

/-- `fal_flash_device_find(name)`. -/
def falFlashDeviceFind (name : List UInt8) : Option Nat := b.deviceTable.findIdx? (· == name)

/-- `fal_partition_find(name)`. -/
def falPartitionFind (name : List UInt8) : Option FalPartition :=
  b.partitionTable.find? fun p => strcmpEq name p.name

/-- `fal_partition_read(part, addr, buf, size)`: the bytes read, or `none` for -1. -/
def falPartitionRead (part : FalPartition) (addr size : Nat) : Boot (Option (List UInt8)) :=
  if part.len < u32 (addr + size) then pure none
  else
    match falFlashDeviceFind env.toBoard part.flashName with
    | none => pure none
    | some dev => devRead env dev (u32 (part.offset + addr)) size

/-- `fal_partition_write(part, addr, buf, size)`: whether the result is not -1. -/
def falPartitionWrite (part : FalPartition) (addr : Nat) (buf : List UInt8) : Boot Bool := do
  logEvent (.write part addr buf.length)
  if part.len < u32 (addr + buf.length) then pure false
  else
    match falFlashDeviceFind env.toBoard part.flashName with
    | none => pure false
    | some dev => devChange env (.write dev (u32 (part.offset + addr)) buf)

/-- `fal_partition_erase(part, addr, size)`: whether the result is not -1. -/
def falPartitionErase (part : FalPartition) (addr size : Nat) : Boot Bool :=
  if part.len < u32 (addr + size) then pure false
  else
    match falFlashDeviceFind env.toBoard part.flashName with
    | none => pure false
    | some dev => devChange env (.erase ⟨dev, u32 (part.offset + addr), size⟩)

/-- `fal_partition_erase_all(part)`. -/
def falPartitionEraseAll (part : FalPartition) : Boot Bool := falPartitionErase env part 0 part.len

/-- The range of flash behind a partition, if its device exists. -/
def Board.region (part : FalPartition) : Option Region :=
  (falFlashDeviceFind b part.flashName).map fun dev => ⟨dev, part.offset, part.len⟩

end defs

/-- Every allocation and every flash read of the boot succeeds. -/
structure Env.Reliable (env : Env) : Prop where
  alloc : ∀ n, env.allocOk n = true
  read : ∀ n, env.readOk n = true

/-- Every flash operation of the boot succeeds. -/
def Env.Uncut (env : Env) : Prop := ∀ n, env.fate n = .done

variable {b : Board} {env : Env} {part : FalPartition} {r : Region} {w : World}

theorem Board.region_eq (h : b.region part = some r) :
    falFlashDeviceFind b part.flashName = some r.dev ∧ r.off = part.offset ∧ r.len = part.len := by
  obtain ⟨dev, hd, rfl⟩ := Option.map_eq_some_iff.mp h
  exact ⟨hd, rfl, rfl⟩

theorem falPartitionFind_congr {name name' : List UInt8} (h : strcmpEq name name' = true) :
    falPartitionFind b name = falPartitionFind b name' := by
  simp only [falPartitionFind, strcmpEq_congr h]

theorem mem_of_falPartitionFind {name : List UInt8} (h : falPartitionFind b name = some part) :
    part ∈ b.partitionTable := List.mem_of_find?_eq_some h

/-- Names that find the same partition are the same string. -/
theorem strcmpEq_of_falPartitionFind {name name' : List UInt8}
    (h : falPartitionFind b name = some part) (h' : falPartitionFind b name' = some part) :
    strcmpEq name name' = true := by
  have hname := List.find?_some h
  have hname' := List.find?_some h'
  rw [strcmpEq_iff] at hname hname' ⊢
  exact hname.trans hname'.symm

/-! ## Requests inside the partition -/

section inside
variable (hr : env.region part = some r) {addr size : Nat} {buf : List UInt8}
include hr

theorem falPartitionRead_eq (h : addr + size ≤ part.len) :
    falPartitionRead env part addr size w =
      .done (if env.readOk w.reads then some (slice (r.view w.flash) addr size) else none)
        { w with reads := w.reads + 1 } := by
  obtain ⟨hdev, hoff, -⟩ := Board.region_eq hr
  have hb := part.bound
  have h1 : ¬ part.len < u32 (addr + size) := by simp only [u32]; omega
  have h2 : u32 (part.offset + addr) = r.off + addr := by simp only [u32, hoff]; omega
  have h3 : slice (w.flash r.dev) (r.off + addr) size = slice (r.view w.flash) addr size :=
    slice_shift.symm
  simp only [falPartitionRead, if_neg h1, hdev, devRead, h2, h3]

theorem falPartitionRead_reliable (hrel : env.Reliable) (h : addr + size ≤ part.len) :
    falPartitionRead env part addr size w =
      .done (some (slice (r.view w.flash) addr size)) { w with reads := w.reads + 1 } := by
  rw [falPartitionRead_eq hr h, hrel.read, if_pos rfl]

theorem falPartitionWrite_eq (h : addr + buf.length ≤ part.len) :
    falPartitionWrite env part addr buf w =
      devChange env (.write r.dev (r.off + addr) buf)
        { w with log := w.log ++ [.write part addr buf.length] } := by
  obtain ⟨hdev, hoff, -⟩ := Board.region_eq hr
  have hb := part.bound
  have h1 : ¬ part.len < u32 (addr + buf.length) := by simp only [u32]; omega
  have h2 : u32 (part.offset + addr) = r.off + addr := by simp only [u32, hoff]; omega
  simp only [falPartitionWrite, logEvent, bind_apply, modify_apply, if_neg h1, hdev, h2]

theorem falPartitionErase_eq (h : addr + size ≤ part.len) :
    falPartitionErase env part addr size w =
      devChange env (.erase ⟨r.dev, r.off + addr, size⟩) w := by
  obtain ⟨hdev, hoff, -⟩ := Board.region_eq hr
  have hb := part.bound
  have h1 : ¬ part.len < u32 (addr + size) := by simp only [u32]; omega
  have h2 : u32 (part.offset + addr) = r.off + addr := by simp only [u32, hoff]; omega
  simp only [falPartitionErase, if_neg h1, hdev, h2]

theorem falPartitionEraseAll_eq :
    falPartitionEraseAll env part w = devChange env (.erase r) w := by
  obtain ⟨-, hoff, hlen⟩ := Board.region_eq hr
  rw [falPartitionEraseAll, falPartitionErase_eq hr (by omega), Nat.add_zero, ← hlen]

end inside

/-- A request that ends past the partition is refused. -/
theorem falPartitionRead_out {addr size : Nat} (h : part.len < addr + size)
    (h' : addr + size < 2 ^ 32) : falPartitionRead env part addr size w = .done none w := by
  have h1 : part.len < u32 (addr + size) := by simp only [u32]; omega
  simp only [falPartitionRead, if_pos h1, pure_apply]

theorem falPartitionWrite_out {addr : Nat} {buf : List UInt8} (h : part.len < addr + buf.length)
    (h' : addr + buf.length < 2 ^ 32) :
    falPartitionWrite env part addr buf w =
      .done false { w with log := w.log ++ [.write part addr buf.length] } := by
  have h1 : part.len < u32 (addr + buf.length) := by simp only [u32]; omega
  simp only [falPartitionWrite, logEvent, bind_apply, modify_apply, if_pos h1, pure_apply]

theorem devChange_uncut (h : env.Uncut) {op : FlashOp} :
    devChange env op w =
      .done true { w with flash := op.apply w.flash, ops := w.ops + 1 } := by
  simp only [devChange, h w.ops]

theorem malloc_reliable (h : env.Reliable) :
    malloc env w = .done true { w with allocs := w.allocs + 1 } := by
  simp only [malloc, h.alloc]

/-! ## Flash behind a partition after a change -/

namespace FlashOp
variable {f : Flash} {s : Region} {op : FlashOp}

theorem apply_of_not_covers {dev a : Nat} (h : ¬ op.region.Covers dev a) :
    op.apply f dev a = f dev a := by
  cases op with
  | erase r =>
    simp only [apply]
    split
    · next hd =>
      have hout : a < r.off ∨ r.off + r.len ≤ a := by
        by_contra hc
        exact h ⟨hd, by simp only [region]; omega, by simp only [region]; omega⟩
      exact hout.elim fill_of_lt fill_of_ge
    · rfl
  | write d addr data =>
    simp only [apply]
    split
    · next hd =>
      have hout : a < addr ∨ addr + data.length ≤ a := by
        by_contra hc
        exact h ⟨hd, by simp only [region]; omega, by simp only [region]; omega⟩
      exact hout.elim store_of_lt store_of_ge
    · rfl

theorem view_write {addr : Nat} {data : List UInt8} :
    r.view ((FlashOp.write r.dev (r.off + addr) data).apply f) = store (r.view f) addr data := by
  funext a
  have h1 : r.off + addr ≤ r.off + a ↔ addr ≤ a := by omega
  have h2 : r.off + a - (r.off + addr) = a - addr := by omega
  simp only [Region.view, apply, if_true, store, h1, h2]

theorem view_erase {addr size : Nat} :
    r.view ((FlashOp.erase ⟨r.dev, r.off + addr, size⟩).apply f) =
      fill (r.view f) addr size 0xFF := by
  funext a
  have h1 : r.off + addr ≤ r.off + a ∧ r.off + a < r.off + addr + size ↔
      addr ≤ a ∧ a < addr + size := by omega
  simp only [Region.view, apply, if_true, fill, h1]

end FlashOp

end McuUtilities.Fota
