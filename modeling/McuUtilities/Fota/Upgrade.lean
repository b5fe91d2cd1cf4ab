import McuUtilities.Fota.Decode

/-!
# The functions of `fota.c`

Each C function is a program of the same name. A function left by `goto` is wrapped in `exitCode`.
-/

namespace McuUtilities.Fota
open Prog

variable (env : Env)

/-! ## Package check -/

/-- One round of the body loop of `fota_part_fw_verify`: `body_pos` and `body_crc`. -/
def bodyStep (part : FalPartition) (head : List UInt8) (s : Nat × UInt32) :
    Boot (Nat × UInt32 ⊕ UInt32) :=
  if s.1 < Head.comSize head then do
    match ← falPartitionRead env part (u32 (sizeofHead + s.1)) fotaAlgoBuffSize with
    | some buf =>
      -- the source reads the result only when it is positive
      if buf.length = 0 then throw .partReadErr
      else do
        let n := if Head.comSize head < s.1 + buf.length then Head.comSize head - s.1
          else buf.length
        let crcTab := (← get).crcTab
        pure (.inl (s.1 + n, fotaStepCrc crcTab s.2 (buf.take n)))
    | none => throw .partReadErr
  else pure (.inr s.2)

/-- The checks of `fota_part_fw_verify` on a partition that was found: the header that passed. -/
def fotaPartFwCheck (part : FalPartition) : Boot (List UInt8) := do
  match ← falPartitionRead env part 0 sizeofHead with
  | none => throw .partReadErr
  | some head =>
    modify fun w => { w with crcTab := crc32Init 0x04c11db7 }
    let crcTab := (← get).crcTab
    require (fotaCrc crcTab (head.take (sizeofHead - 4)) = Head.headCrc head) .fwVerifyFailed
    require (strcmpEq (Head.type head) [0x52, 0x42, 0x4c]) .checkFailed
    require (falPartitionFind env.toBoard (Head.appPartName head)).isSome .fwVerifyFailed
    require (← malloc env) .noMemErr
    let bodyCrc ← iterate (loopFuel part) (bodyStep env part head) (0, 0xffffffff)
    require (bodyCrc ^^^ 0xffffffff = Head.codeCrc head) .fwVerifyFailed
    pure head

/-- `fota_part_fw_verify(part_name)`; `none` is the NULL name. -/
def fotaPartFwVerify (partName : Option (List UInt8)) : Boot FotaErr := do
  let part := partName.bind (falPartitionFind env.toBoard)
  let res ← match part with
    | none => pure (.error .generalErr)
    | some part => attempt (fotaPartFwCheck env part)
  match res with
  | .ok head =>
    modify fun w => { w with rblFotaPartHead := head }
    pure .noErr
  | .error e =>
    modify fun w => { w with rblFotaPartHead := List.replicate sizeofHead 0 }
    -- the log line prints `part->name`
    if partName.isSome && part.isNone then logEvent .derefNull
    pure e

/-- `fota_check_upgrade()`. -/
def fotaCheckUpgrade : Boot Int := do
  let head := (← get).rblFotaPartHead
  pure <| if strcmpEq (Head.downloadVersion head ++ env.pastHead)
    (Head.currentVersion head ++ env.pastHead) then 0 else 1

/-! ## Verification and installation -/

/-- `total_copy_size` and `hash_code` of `fota_upgrade_verify`. -/
structure VerifyState where
  totalCopySize : Nat
  hashCode : UInt32

/-- `fota_calc_hash_code` on the bytes of a buffer. -/
def hashBytes (data : List UInt8) (hash : UInt32) : Boot UInt32 := do
  modify fun w => { w with hashed := w.hashed ++ data }
  pure (fotaCalcHashCode data hash)

/-- What `fota_upgrade_verify` does with a decoded piece: cut it at `raw_size`, hash it. -/
def verifySink (rawSize : Nat) : Sink VerifyState := fun t piece => do
  let size := if rawSize < u32 (t.totalCopySize + piece.length) then rawSize - t.totalCopySize
    else piece.length
  let hashCode ← hashBytes (piece.take size) t.hashCode
  pure ⟨u32 (t.totalCopySize + size), hashCode⟩

/-- The body of `fota_upgrade_verify` for a partition that was found. -/
def upgradeVerifyBody (part : FalPartition) : Boot Unit := do
  let head := (← get).rblFotaPartHead
  require (← malloc env) .noMemErr
  decoderInit env head
  let t ← decode env part head (verifySink (Head.rawSize head)) VerifyState.totalCopySize
    Decoder.init ⟨0, fnvSeed⟩
  require (Head.rawSize head ≤ t.totalCopySize ∧ t.hashCode = Head.hashVal head) .generalErr

/-- `fota_upgrade_verify(part_name)`. -/
def fotaUpgradeVerify (partName : Option (List UInt8)) : Boot FotaErr := exitCode do
  match partName.bind (falPartitionFind env.toBoard) with
  | none => throw .generalErr
  | some part => upgradeVerifyBody env part

/-- `fota_erase_app_part()`. -/
def fotaEraseAppPart : Boot FotaErr := do
  let head := (← get).rblFotaPartHead
  match falPartitionFind env.toBoard (Head.appPartName head) with
  | none => pure .fwVerifyFailed
  | some part => pure (if ← falPartitionEraseAll env part then .noErr else .partEraseErr)

/-- `fota_write_app_part(fw_pos, fw_buf, fw_len)`. -/
def fotaWriteAppPart (fwPos : Nat) (fwBuf : List UInt8) : Boot FotaErr := do
  let head := (← get).rblFotaPartHead
  match falPartitionFind env.toBoard (Head.appPartName head) with
  | none => pure .fwVerifyFailed
  | some part => pure (if ← falPartitionWrite env part fwPos fwBuf then .noErr else .partWriteErr)

/-- What `fota_upgrade` does with a decoded piece: write it after what was written before. -/
def upgradeSink : Sink Nat := fun totalCopySize piece => do
  let res ← fotaWriteAppPart env (u32 (totalCopySize + appHeaderLen)) piece
  require (res = .noErr) .copyFailed
  pure (u32 (totalCopySize + piece.length))

/-- The body of `fota_upgrade` for a partition that was found. -/
def upgradeBody (part : FalPartition) : Boot Unit := do
  let res ← fotaEraseAppPart env
  if res ≠ .noErr then throw res
  else do
    let head := (← get).rblFotaPartHead
    require (← malloc env) .noMemErr
    match ← falPartitionRead env part 0 sizeofHead with
    | none => throw .partReadErr
    | some buf =>
      let res ← fotaWriteAppPart env 0 buf
      require (res = .noErr) .partWriteErr
      decoderInit env head
      let total ← decode env part head (upgradeSink env) id Decoder.init 0
      require (Head.rawSize head ≤ total) .generalErr

/-- `fota_upgrade(part_name)`. -/
def fotaUpgrade (partName : Option (List UInt8)) : Boot FotaErr := exitCode do
  match partName.bind (falPartitionFind env.toBoard) with
  | none => throw .generalErr
  | some part => upgradeBody env part

/-- The first sector with `current_version` set to `download_version` and `head_crc` renewed. -/
def copyVersionSector (crcTab : CrcTab) (cache : List UInt8) : List UInt8 :=
  let sealed := cache.take 52 ++ Head.field cache 28 24 ++ Head.field cache 76 16
  sealed ++ leBytes 4 (fotaCrc crcTab sealed).toNat ++ cache.drop sizeofHead

/-- `fota_copy_version(part_name)`. -/
def fotaCopyVersion (partName : List UInt8) : Boot FotaErr := exitCode do
  match falPartitionFind env.toBoard partName with
  | none => throw .fwVerifyFailed
  | some part => do
    require (← malloc env) .noMemErr
    match ← falPartitionRead env part 0 fotaAlgoBuffSize with
    | none => throw .partReadErr
    | some cache => do
      let sector := copyVersionSector (← get).crcTab cache
      require (← falPartitionErase env part 0 fotaAlgoBuffSize) .partEraseErr
      require (← falPartitionWrite env part 0 sector) .partWriteErr
      -- with `FOTA_INSTALL_RESTART` the board is reset here
      if env.installRestart then fun w => .halt .powerCut w else pure ()

/-! ## Application check and start -/

/-- One round of the loop of `fota_check_application`: `read_offset` and `hash_code`. -/
def checkStep (part : FalPartition) (rawSize : Nat) (s : Nat × UInt32) :
    Boot (Nat × UInt32 ⊕ UInt32) :=
  if s.1 < rawSize then do
    let readLen := if rawSize < u32 (s.1 + fotaAlgoBuffSize) then rawSize - s.1
      else fotaAlgoBuffSize
    match ← falPartitionRead env part (u32 (s.1 + appHeaderLen)) readLen with
    | none => throw .partReadErr
    | some buf =>
      let hashCode ← hashBytes buf s.2
      pure (.inl (u32 (s.1 + fotaAlgoBuffSize), hashCode))
  else pure (.inr s.2)

/-- `fota_check_application()`. -/
def fotaCheckApplication : Boot FotaErr := exitCode do
  match falPartitionFind env.toBoard fotaAppPartName with
  | none => throw .fwVerifyFailed
  | some part => do
    require (← malloc env) .noMemErr
    match ← falPartitionRead env part 0 sizeofHead with
    | none => throw .partReadErr
    | some head => do
      require (← malloc env) .noMemErr
      let hashCode ← iterate (loopFuel part) (checkStep env part (Head.rawSize head)) (0, fnvSeed)
      require (hashCode = Head.hashVal head) .fwVerifyFailed

/-- The two vector-table tests of `fota_start_application` on the memory-mapped flash. -/
def vectorsLegal (part : FalPartition) (f : Flash) : Bool :=
  let word := fun off => leNat (slice (f env.onchip) (part.offset + appHeaderLen + off) 4)
  word 4 &&& 0xff000000 == 0x08000000 && word 0 &&& 0x2ff80000 == 0x20000000

/-- `fota_start_application()`: whether it jumped into the application. -/
def fotaStartApplication : Boot Bool := do
  let w ← get
  match falPartitionFind env.toBoard fotaAppPartName with
  | none => pure false
  | some part => do
    logEvent (.start w.flash)
    pure (vectorsLegal env part w.flash)

/-! ## Rollback -/

/-- One round of the loop of `fota_rollback_copy`: `write_offset`. -/
def rollbackStep (dest source : FalPartition) (writeSize : Nat) (writeOffset : Nat) :
    Boot (Nat ⊕ Unit) :=
  if writeOffset < writeSize then do
    let writeLen := if writeSize < u32 (writeOffset + fotaAlgoBuffSize) then writeSize - writeOffset
      else fotaAlgoBuffSize
    match ← falPartitionRead env source writeOffset writeLen with
    | none => throw .partReadErr
    | some buf =>
      require (← falPartitionWrite env dest writeOffset buf) .partWriteErr
      pure (.inl (u32 (writeOffset + fotaAlgoBuffSize)))
  else pure (.inr ())

/-- `fota_rollback_copy(dest_part_name, source_part_name)`. -/
def fotaRollbackCopy (destPartName sourcePartName : List UInt8) : Boot FotaErr := exitCode do
  match falPartitionFind env.toBoard destPartName, falPartitionFind env.toBoard sourcePartName with
  | some dest, some source => do
    require (← malloc env) .noMemErr
    let w ← get
    logEvent (.copy dest source w.flash)
    require (← falPartitionEraseAll env dest) .partEraseErr
    iterate (loopFuel dest) (rollbackStep env dest source (min source.len dest.len)) 0
  | _, _ => throw .fwVerifyFailed

/-! ## The boot sequence -/

/-- `fota_init()` from the start to the label `__exit_boot_entry`, in a build without
`FOTA_YMODEM`. -/
def fotaInitUpgrade : Boot Unit := do
  let err ← fotaPartFwVerify env (some fotaFmPartName)
  if err = .noErr then
    let isUpgrade ← fotaCheckUpgrade env
    if 0 < isUpgrade then
      let err ← fotaUpgradeVerify env (some fotaFmPartName)
      if err ≠ .noErr then
        let _ ← fotaCopyVersion env fotaFmPartName
      else
        if env.rollback then
          let _ ← fotaRollbackCopy env fotaRollbackPartName fotaAppPartName
        let err ← fotaUpgrade env (some fotaFmPartName)
        if err = .noErr then
          let _ ← fotaCopyVersion env fotaFmPartName

/-- `fota_check_application()` and, when it passes, `fota_start_application()`: whether the
application was entered. -/
def checkAndStart : Boot Bool := do
  let err ← fotaCheckApplication env
  if err = .noErr then fotaStartApplication env else pure false

/-- `fota_init()` from the label `__rollback_entry` on. -/
def fotaInitRollback : Boot Bool := do
  let _ ← fotaRollbackCopy env fotaAppPartName fotaRollbackPartName
  checkAndStart env

/-- `fota_init()`: whether the application was entered. -/
def fotaInit : Boot Bool := do
  if env.rollback && env.fotaRollbackCheck == 0 then fotaInitRollback env
  else do
    fotaInitUpgrade env
    if ← checkAndStart env then pure true
    else if env.rollback then fotaInitRollback env
    else pure false

end McuUtilities.Fota
