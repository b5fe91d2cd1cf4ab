import McuUtilities.FastLz.Compress

/-!
# Decompression (`fastlz.c`)

The compressed data are the first `length` bytes of a buffer, which the code may overrun; `maxout` is
the size of the output. When an error is found, nothing is returned.
-/

namespace McuUtilities.FastLz

/-- `ctrl = *ip++`, when the input goes on. -/
def nextCtrl (input : List UInt8) (length ip : Nat) : Run (Option (Nat × Nat)) :=
  if ip < length then do
    let b ← byteAt input ip
    .ok (some (b.toNat, ip + 1))
  else .ok none

/-- The length bytes of level 2: the length, and where they end. `len` is a `flzuint32`, which wraps only
after 16 MB of length bytes; `fastlzDecompress_safe` bounds the buffer. -/
def readLen (input : List UInt8) : Nat → Nat → Nat → Run (Nat × Nat)
  | 0, _, _ => .error .endless
  | n + 1, ip, len => do
    let code ← byteAt input ip
    if code = 255 then readLen input n (ip + 1) (len + code.toNat)
    else .ok (len + code.toNat, ip + 1)

/-- The length of a match of level 2, and where it ends. -/
def longLen (input : List UInt8) (ip len : Nat) : Run (Nat × Nat) :=
  if len = 7 - 1 then readLen input (input.length + 1) ip len else .ok (len, ip)

/-- What a match says: how far `ref` is from `op`, and `len`, and where it ends. -/
def readMatch (level : Level) (input : List UInt8) (ip ctrl : Nat) : Run (Nat × Nat × Nat) := do
  let len := ctrl >>> 5 - 1
  let ofs := (ctrl &&& 31) <<< 8
  match level with
  | .one =>
    if len = 7 - 1 then
      let more ← byteAt input ip
      let code ← byteAt input (ip + 1)
      .ok (ofs + code.toNat, len + more.toNat, ip + 2)
    else
      let code ← byteAt input ip
      .ok (ofs + code.toNat, len, ip + 1)
  | .two =>
    let r ← longLen input ip len
    let code ← byteAt input r.2
    if code = 255 ∧ ofs = 31 <<< 8 then
      -- The match is more than 16 bits away.
      let hi ← byteAt input (r.2 + 1)
      let lo ← byteAt input (r.2 + 2)
      .ok (hi.toNat <<< 8 + lo.toNat + maxDistance .two, r.1, r.2 + 3)
    else .ok (ofs + code.toNat, r.1, r.2 + 1)

/-- Copies `n` bytes of the output from `ref` on. -/
def copyRef (maxout : Nat) : Nat → Nat → List UInt8 → Run (List UInt8)
  | 0, _, op => .ok op
  | n + 1, ref, op =>
    match op[ref]? with
    | none => .error .output
    | some b => do
      let op ← put maxout [b] op
      copyRef maxout n (ref + 1) op

/-- Copies a match of `n` bytes; `ref` is `distance` before `op`, and a byte behind the match. -/
def copyMatch (maxout distance n : Nat) (op : List UInt8) : Run (List UInt8) :=
  if distance = 0 then
    -- optimize copy for a run
    match op.getLast? with
    | none => .error .output
    | some b => put maxout (List.replicate n b) op
  else copyRef maxout n (op.length - distance - 1) op

/-- The main loop, at a control byte. -/
def decompressLoop (level : Level) (input : List UInt8) (length maxout : Nat) :
    Nat → Nat → Nat → List UInt8 → Run (List UInt8)
  | 0, _, _, _ => .error .endless
  | n + 1, ip, ctrl, op =>
    if 32 ≤ ctrl then do
      let m ← readMatch level input ip ctrl
      let distance := m.1
      let len := m.2.1
      if maxout < op.length + len + 3 then .ok []
      else if op.length < distance + 1 then .ok []
      else
        let next ← nextCtrl input length m.2.2
        let op ← copyMatch maxout distance (len + 3) op
        match next with
        | none => .ok op
        | some (ctrl, ip) => decompressLoop level input length maxout n ip ctrl op
    else
      let ctrl := ctrl + 1
      if maxout < op.length + ctrl then .ok []
      else if length < ip + ctrl then .ok []
      else do
        let op ← putInput input maxout ctrl ip op
        let next ← nextCtrl input length (ip + ctrl)
        match next with
        | none => .ok op
        | some (ctrl, ip) => decompressLoop level input length maxout n ip ctrl op

/-- `FASTLZ_DECOMPRESSOR(input, length, output, maxout)` -/
def decompressor (level : Level) (input : List UInt8) (length maxout : Nat) : Run (List UInt8) := do
  let ctrl ← byteAt input 0
  decompressLoop level input length maxout (length + 1) 1 (ctrl &&& 31).toNat []

/-- `fastlz_decompress(input, length, output, maxout)` -/
def fastlzDecompress (input : List UInt8) (length maxout : Nat) : Run (List UInt8) := do
  let magic ← byteAt input 0
  let level := magic.toNat >>> 5 + 1
  if level = 1 then decompressor .one input length maxout
  else if level = 2 then decompressor .two input length maxout
  else .ok []

end McuUtilities.FastLz
