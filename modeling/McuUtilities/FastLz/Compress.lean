import Mathlib.Algebra.Ring.Nat
import Mathlib.Logic.Function.Basic

/-!
# Compression (`fastlz.c`)

Places in the buffers are offsets. The input is a buffer of which `length` bytes are compressed; the
output is what was written so far, into `cap` bytes. An access outside of the buffers is a fault, and so
is a loop that goes on longer than the input is long. The hash table is taken to be allocated, and bytes
are read one at a time (`FASTLZ_STRICT_ALIGN`).
-/

namespace McuUtilities.FastLz

/-- What must not happen. -/
inductive Fault where
  /-- A byte outside of the input is read. -/
  | input
  /-- A byte outside of the output is accessed. -/
  | output
  /-- A loop does not end. -/
  | endless
deriving DecidableEq, Repr

abbrev Run (α : Type) : Type := Except Fault α

/-- `FASTLZ_LEVEL` -/
inductive Level where
  | one
  | two
deriving DecidableEq, Repr

abbrev maxCopy : Nat := 32
abbrev maxLen : Nat := 264

def maxDistance : Level → Nat
  | .one => 8192
  | .two => 8191

def maxFardistance : Nat := 65535 + maxDistance .two - 1

abbrev hashLog : Nat := 13

/-! ## Accesses -/

def byteAt (buf : List UInt8) (p : Nat) : Run UInt8 :=
  match buf[p]? with
  | some b => .ok b
  | none => .error .input

/-- `*op++ = b` for each of the bytes. -/
def put (cap : Nat) (bytes op : List UInt8) : Run (List UInt8) :=
  if op.length + bytes.length ≤ cap then .ok (op ++ bytes) else .error .output

/-- `FASTLZ_READU16(p)` -/
def readU16 (input : List UInt8) (p : Nat) : Run Nat := do
  let lo ← byteAt input p
  let hi ← byteAt input (p + 1)
  return lo.toNat ||| hi.toNat <<< 8

/-- `HASH_FUNCTION(v, p)` -/
def hashFunction (input : List UInt8) (p : Nat) : Run Nat := do
  let v ← readU16 input p
  let w ← readU16 input (p + 1)
  return (v ^^^ (w ^^^ v >>> (16 - hashLog))) &&& (2 ^ hashLog - 1)

/-! ## Matches -/

/-- The next `n` bytes are the same from `ref` and from `ip` on. -/
def same (input : List UInt8) : Nat → Nat → Nat → Run Bool
  | 0, _, _ => .ok true
  | n + 1, ref, ip => do
    let r ← byteAt input ref
    let b ← byteAt input ip
    if r = b then same input n (ref + 1) (ip + 1) else .ok false

/-- The check for a run of level 2. -/
def isRun (level : Level) (input : List UInt8) (ip : Nat) : Run Bool :=
  match level with
  | .one => .ok false
  | .two => do
    let b ← byteAt input ip
    let b' ← byteAt input (ip - 1)
    if b = b' then
      let v ← readU16 input (ip - 1)
      let v' ← readU16 input (ip + 1)
      .ok (decide (v = v'))
    else .ok false

/-- From which distance on there is no match. -/
def beyond : Level → Nat
  | .one => maxDistance .one
  | .two => maxFardistance

/-- Looks for a match at `anchor`: its distance and how many of its bytes were compared, and the hash
table. -/
def probe (level : Level) (input : List UInt8) (anchor : Nat) (htab : Nat → Nat) :
    Run (Option (Nat × Nat) × (Nat → Nat)) := do
  let run ← isRun level input anchor
  if run then .ok (some (1, 3), htab)
  else
    let hval ← hashFunction input anchor
    let ref := htab hval
    let distance := anchor - ref
    let htab := Function.update htab hval anchor
    if distance = 0 ∨ beyond level ≤ distance then .ok (none, htab)
    else
      let found ← same input 3 ref anchor
      if ¬ found then .ok (none, htab)
      else if level = .two ∧ maxDistance level ≤ distance then
        -- A far match needs two bytes more.
        let far ← same input 2 (ref + 3) (anchor + 3)
        if far then .ok (some (distance, 5), htab) else .ok (none, htab)
      else .ok (some (distance, 3), htab)

/-- Where a run of `x` ends. -/
def runEnd (input : List UInt8) (bound : Nat) (x : UInt8) : Nat → Nat → Nat → Run Nat
  | 0, _, _ => .error .endless
  | n + 1, ref, ip =>
    if ip < bound then do
      let r ← byteAt input ref
      if r ≠ x then .ok ip else runEnd input bound x n (ref + 1) (ip + 1)
    else .ok ip

/-- Compares on, `k` bytes at least as long as they are the same; it ends behind the first byte that
differs. -/
def compareEnd (input : List UInt8) (bound : Nat) : Nat → Nat → Nat → Nat → Run Nat
  | 0, _, _, _ => .error .endless
  | n + 1, k, ref, ip =>
    if 0 < k ∨ ip < bound then do
      let r ← byteAt input ref
      let b ← byteAt input ip
      if r ≠ b then .ok (ip + 1) else compareEnd input bound n (k - 1) (ref + 1) (ip + 1)
    else .ok ip

/-- Where `ip` is after the match. -/
def matchEnd (input : List UInt8) (length distance ip : Nat) : Run Nat :=
  let ref := ip - distance
  if distance - 1 = 0 then do
    let x ← byteAt input (ip - 1)
    runEnd input (length - 2) x (length + 1) ref ip
  else compareEnd input (length - 2) (length + 1) 8 ref ip

/-! ## Encoding -/

/-- The bytes of a length. -/
def lenBytes (len : Nat) : List UInt8 :=
  if 255 ≤ len then 255 :: lenBytes (len - 255) else [UInt8.ofNat len]
termination_by len
decreasing_by omega

/-- A match of level 1. -/
def encodeNear (len distance : Nat) : List UInt8 :=
  if maxLen - 2 < len then
    UInt8.ofNat (7 <<< 5 + distance >>> 8) :: UInt8.ofNat (maxLen - 2 - 7 - 2) ::
      UInt8.ofNat (distance &&& 255) :: encodeNear (len - (maxLen - 2)) distance
  else if len < 7 then [UInt8.ofNat (len <<< 5 + distance >>> 8), UInt8.ofNat (distance &&& 255)]
  else [UInt8.ofNat (7 <<< 5 + distance >>> 8), UInt8.ofNat (len - 7), UInt8.ofNat (distance &&& 255)]
termination_by len
decreasing_by
  unfold maxLen at *
  omega

/-- A match of level 2. -/
def encodeFar (len distance : Nat) : List UInt8 :=
  if distance < maxDistance .two then
    if len < 7 then [UInt8.ofNat (len <<< 5 + distance >>> 8), UInt8.ofNat (distance &&& 255)]
    else UInt8.ofNat (7 <<< 5 + distance >>> 8) :: (lenBytes (len - 7) ++ [UInt8.ofNat (distance &&& 255)])
  else
    let distance := distance - maxDistance .two
    if len < 7 then [UInt8.ofNat (len <<< 5 + 31), 255, UInt8.ofNat (distance >>> 8),
      UInt8.ofNat (distance &&& 255)]
    else UInt8.ofNat (7 <<< 5 + 31) :: (lenBytes (len - 7) ++
      [255, UInt8.ofNat (distance >>> 8), UInt8.ofNat (distance &&& 255)])

def encodeMatch : Level → Nat → Nat → List UInt8
  | .one => encodeNear
  | .two => encodeFar

/-- Writes the copy count of the literals before a match. -/
def adjustCopy (copy : Nat) (op : List UInt8) : Run (List UInt8) :=
  if copy ≠ 0 then
    if copy < op.length then .ok (op.set (op.length - copy - 1) (UInt8.ofNat (copy - 1)))
    else .error .output
  else .ok op.dropLast

/-! ## The loops -/

structure State where
  ip : Nat
  copy : Nat
  op : List UInt8
  htab : Nat → Nat

/-- A literal. -/
def literal (input : List UInt8) (cap : Nat) (s : State) : Run State := do
  let b ← byteAt input s.ip
  let op ← put cap [b] s.op
  if s.copy + 1 = maxCopy then
    let op ← put cap [UInt8.ofNat (maxCopy - 1)] op
    .ok { s with ip := s.ip + 1, copy := 0, op }
  else .ok { s with ip := s.ip + 1, copy := s.copy + 1, op }

/-- One round of the main loop. -/
def mainStep (level : Level) (input : List UInt8) (length cap : Nat) (s : State) : Run State := do
  let anchor := s.ip
  let probed ← probe level input anchor s.htab
  match probed.1 with
  | none => literal input cap { s with htab := probed.2 }
  | some (distance, len) =>
    let ip ← matchEnd input length distance (anchor + len)
    let op ← adjustCopy s.copy s.op
    let ip := ip - 3
    let op ← put cap (encodeMatch level (ip - anchor) (distance - 1)) op
    let hval ← hashFunction input ip
    let htab := Function.update probed.2 hval ip
    let hval ← hashFunction input (ip + 1)
    let htab := Function.update htab hval (ip + 1)
    let op ← put cap [UInt8.ofNat (maxCopy - 1)] op
    .ok ⟨ip + 2, 0, op, htab⟩

def mainLoop (level : Level) (input : List UInt8) (length cap : Nat) : Nat → State → Run State
  | 0, _ => .error .endless
  | n + 1, s =>
    if s.ip + 12 < length then do
      let s ← mainStep level input length cap s
      mainLoop level input length cap n s
    else .ok s

/-- The rest as literals. -/
def leftOver (input : List UInt8) (length cap : Nat) : Nat → State → Run State
  | 0, _ => .error .endless
  | n + 1, s =>
    if s.ip < length then do
      let s ← literal input cap s
      leftOver input length cap n s
    else .ok s

/-- The marker for level 2. -/
def mark : Level → List UInt8 → List UInt8
  | .one, op => op
  | .two, op => op.modifyHead (· ||| 32)

/-- The first `n` bytes of the input, as they are. -/
def putInput (input : List UInt8) (cap : Nat) : Nat → Nat → List UInt8 → Run (List UInt8)
  | 0, _, op => .ok op
  | n + 1, ip, op => do
    let b ← byteAt input ip
    let op ← put cap [b] op
    putInput input cap n (ip + 1) op

/-- `FASTLZ_COMPRESSOR(input, length, output)`, where the output has `cap` bytes: what was written. -/
def compressor (level : Level) (input : List UInt8) (length cap : Nat) : Run (List UInt8) :=
  if length < 4 then
    if length ≠ 0 then do
      let op ← put cap [UInt8.ofNat (length - 1)] []
      putInput input cap length 0 op
    else .ok []
  else do
    let op ← put cap [UInt8.ofNat (maxCopy - 1)] []
    let op ← putInput input cap 2 0 op
    let s ← mainLoop level input length cap length ⟨2, 2, op, fun _ => 0⟩
    let s ← leftOver input length cap (length + 1) s
    let op ← adjustCopy s.copy s.op
    .ok (mark level op)

/-- `fastlz_compress(input, length, output)` -/
def fastlzCompress (input : List UInt8) (length cap : Nat) : Run (List UInt8) :=
  if length < 65536 then compressor .one input length cap else compressor .two input length cap

/-- `fastlz_compress_level(level, input, length, output)` -/
def fastlzCompressLevel (level : Int) (input : List UInt8) (length cap : Nat) : Run (List UInt8) :=
  if level = 1 then compressor .one input length cap
  else if level = 2 then compressor .two input length cap
  else .ok []

end McuUtilities.FastLz
