import McuUtilities.Lib.Interrupt
import McuUtilities.Lib.Store
import McuUtilities.Fota.Crc
import McuUtilities.Fota.Cbc
import McuUtilities.Fota.Head

/-!
# The board the bootloader runs on

`Board` is what stays the same from boot to boot: the flash devices and the partition table, the
decompressors, the block cipher, the build options. `Env` adds what may differ in each boot: which
allocations and flash reads fail, what becomes of each flash operation, what a read past the end
of a buffer sees. `World` is the state of one boot; its last members only record what happened.
-/

namespace McuUtilities.Fota

/-- Contents of the flash devices: device number, address. -/
abbrev Flash : Type := Nat → Nat → UInt8

/-- `struct fal_partition`. The name is a C string in a `char [FAL_DEV_NAME_MAX]`; the offset is a
`long`, so the addresses of a partition are below `2 ^ 31`. -/
structure FalPartition where
  name : List UInt8
  flashName : List UInt8
  offset : Nat
  len : Nat
  name_lt : name.length < 24
  bound : offset + len ≤ 2 ^ 31

/-- An operation that changes flash. -/
inductive FlashOp where
  | erase (r : Region)
  | write (dev addr : Nat) (data : List UInt8)

/-- The addresses an operation may change. -/
def FlashOp.region : FlashOp → Region
  | .erase r => r
  | .write dev addr data => ⟨dev, addr, data.length⟩

/-- The flash after a completed operation: an erase leaves `0xFF`, a write leaves its data. -/
def FlashOp.apply : FlashOp → Flash → Flash
  | .erase r, f => fun dev => if dev = r.dev then fill (f dev) r.off r.len 0xFF else f dev
  | .write d addr data, f => fun dev => if dev = d then store (f dev) addr data else f dev

/-- What becomes of a flash operation: it succeeds, the driver reports a failure, or the power
fails while it runs. -/
inductive Fate where
  | done
  | failed
  | cut
deriving DecidableEq, Repr

/-- What stays the same from boot to boot. -/
structure Board where
  /-- The names in `device_table`. -/
  deviceTable : List (List UInt8)
  partitionTable : List FalPartition
  /-- `malloc_usable_size` of a block allocated with the given size. -/
  mallocUsableSize : Nat → Nat
  le_mallocUsableSize : ∀ n, n ≤ mallocUsableSize n
  /-- `fastlz_decompress(input, length, output, maxout)`: the bytes it produces, none on error. -/
  fastlzDecompress : List UInt8 → Nat → Nat → List UInt8
  length_fastlzDecompress : ∀ input length maxout,
    (fastlzDecompress input length maxout).length ≤ maxout
  /-- How many bytes from the start of `input` that call of `fastlz_decompress` reads. -/
  fastlzReads : List UInt8 → Nat → Nat → Nat
  /-- `qlz_decompress(source, destination, state)`: the bytes it produces. -/
  qlzDecompress : List UInt8 → List UInt8
  /-- How many bytes from the start of `source` that call of `qlz_decompress` reads. -/
  qlzReads : List UInt8 → Nat
  /-- AES-256 under `FOTA_ALGO_AES_KEY`. -/
  cipher : BlockCipher
  /-- The memory behind `rbl_fota_part_head`, which an unterminated string runs into. -/
  pastHead : List UInt8
  /-- The flash device mapped at `0x08000000`. -/
  onchip : Nat
  /-- `FOTA_ROLLBACK` is defined. -/
  rollback : Bool
  /-- `FOTA_INSTALL_RESTART` is defined. -/
  installRestart : Bool

/-- What may differ in each boot. -/
structure Env extends Board where
  /-- The `n`-th allocation succeeds. -/
  allocOk : Nat → Bool
  /-- The `n`-th read of a flash device succeeds. -/
  readOk : Nat → Bool
  /-- The fate of the `n`-th flash operation. -/
  fate : Nat → Fate
  /-- The flash a failed or interrupted operation leaves. -/
  tear : Nat → FlashOp → Flash → Flash
  tear_confined : ∀ n op f dev a, ¬ op.region.Covers dev a → tear n op f dev a = f dev a
  /-- What the `n`-th read past the end of a buffer sees, byte by byte. -/
  stray : Nat → Nat → UInt8
  /-- The value of `fota_rollback_check()`. -/
  fotaRollbackCheck : Int

/-- What happened in a boot, beyond what the state shows. -/
inductive Event where
  /-- `fal_partition_write` was called for `len` bytes at `addr`. -/
  | write (part : FalPartition) (addr len : Nat)
  /-- `fota_rollback_copy` is about to erase its destination. -/
  | copy (dest source : FalPartition) (flash : Flash)
  /-- `fota_start_application` was called. -/
  | start (flash : Flash)
  /-- A member of a NULL partition was read. -/
  | derefNull

/-- The state of one boot. -/
structure World where
  flash : Flash
  rblFotaPartHead : List UInt8
  crcTab : CrcTab
  /-- Allocations, device reads and flash operations so far. -/
  allocs : Nat
  reads : Nat
  ops : Nat
  /-- Accesses outside a buffer so far. -/
  oob : Nat
  /-- Every block handed to a decompressor, with its place in the image body. -/
  decompressed : List (Nat × List UInt8)
  /-- Every byte hashed by `fota_calc_hash_code`. -/
  hashed : List UInt8
  log : List Event

/-- The state after a reset: static data is zero. -/
def World.boot (f : Flash) : World where
  flash := f
  rblFotaPartHead := List.replicate sizeofHead 0
  crcTab := fun _ => 0
  allocs := 0
  reads := 0
  ops := 0
  oob := 0
  decompressed := []
  hashed := []
  log := []

/-- A program of the bootloader; its errors are the codes it leaves a function with. -/
abbrev Boot (α : Type) : Type := Prog World FotaErr α

open Prog

/-- A C function left by `goto` with an error code, or at its end with `FOTA_NO_ERR`. -/
def exitCode (m : Boot Unit) : Boot FotaErr := do
  match ← (attempt m : Boot (Except FotaErr Unit)) with
  | .ok _ => pure .noErr
  | .error e => pure e

def logEvent (e : Event) : Boot Unit := modify fun w => { w with log := w.log ++ [e] }

variable (env : Env)

/-- `malloc`: whether it returned a block. -/
def malloc : Boot Bool := fun w => .done (env.allocOk w.allocs) { w with allocs := w.allocs + 1 }

/-- The `read` of a flash device: the bytes, or `none` when it reports a failure. -/
def devRead (dev addr size : Nat) : Boot (Option (List UInt8)) := fun w =>
  .done (if env.readOk w.reads then some (slice (w.flash dev) addr size) else none)
    { w with reads := w.reads + 1 }

/-- The `write` or `erase` of a flash device: whether it succeeded. -/
def devChange (op : FlashOp) : Boot Bool := fun w =>
  match env.fate w.ops with
  | .done => .done true { w with flash := op.apply w.flash, ops := w.ops + 1 }
  | .failed => .done false { w with flash := env.tear w.ops op w.flash, ops := w.ops + 1 }
  | .cut => .halt .powerCut { w with flash := env.tear w.ops op w.flash, ops := w.ops + 1 }

/-- What a `memcpy` of `n` bytes from index `i` of a buffer sees. Past the end of the buffer that
is whatever lies there, and it counts as an access outside the buffer. -/
def peek (buf : List UInt8) (i n : Nat) : Boot (List UInt8) := fun w =>
  let seen := (buf.drop i).take n
  if i + n ≤ buf.length then .done seen w
  else .done (seen ++ (List.range (n - seen.length)).map (env.stray w.oob))
    { w with oob := w.oob + 1 }

end McuUtilities.Fota
