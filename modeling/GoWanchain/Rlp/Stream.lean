import GoWanchain.Lib.Guard
import GoWanchain.Lib.Rlp

/-!
# The stream decoder of RLP

`Stream` of `rlp/decode.go`. A stream looks ahead: `Kind` reads the header of the next value and keeps what
it found until the value is read, and every read goes through `willRead`, which drops it again. Inside a
list the stream counts the bytes up to the end of the list; `List` and `ListEnd` open and close one.

The stream reads from a byte slice, as `DecodeBytes` does: its limit is the length of the slice, so that
`remaining` is what the reader has left. An error ends the decoding and the stream with it, but for two:
`EOL` is returned before anything is read, and `decodeByteArray` drops an error of `uint` that leaves the
stream as it was.
-/

namespace GoWanchain.Rlp

/-! ### Types and errors -/

/-- The sizes of the unsigned integer types. -/
inductive Width
  | w8
  | w16
  | w32
  | w64
deriving DecidableEq

def Width.bits : Width → ℕ
  | .w8 => 8
  | .w16 => 16
  | .w32 => 32
  | .w64 => 64

mutual

/-- The types of Go that `makeDecoder` and `makeWriter` tell apart, without pointers and types with methods. -/
inductive Ty
  | uint (width : Width)
  | bool
  | bigInt
  | string
  | slice (elem : Ty)
  | array (len : ℕ) (elem : Ty)
  | struct (fields : Fields)
  | interface

/-- The exported fields of a struct type. -/
inductive Fields
  | nil
  | cons (name : String) (type : Ty) (rest : Fields)

end

/-- The context of a `decodeError`: `[i]`, `.Name` and, at the end, `(type)`. -/
inductive Context
  | index (i : ℕ)
  | field (name : String)
  | target (type : Ty)

inductive Err
  | eof
  | unexpectedEOF
  | eol
  | expectedString
  | expectedList
  | canonInt
  | canonSize
  | elemTooLarge
  | valueTooLarge
  | moreThanOneValue
  | notInList
  | notAtEOL
  | uintOverflow
  | invalidBool (num : ℕ)
  | negativeBigInt
  | decode (msg : String) (type : Ty) (ctx : List Context)
  /-- An index out of range, or the allocation of a slice with a length that is no `int`. -/
  | panic
  /-- The rounds that a loop was given are used up. -/
  | fuel

def wrapStreamError (err : Err) (type : Ty) : Err :=
  match err with
  | .canonInt => .decode "non-canonical integer (leading zero bytes)" type []
  | .canonSize => .decode "non-canonical size information" type []
  | .expectedList => .decode "expected input list" type []
  | .expectedString => .decode "expected input string or byte" type []
  | .uintOverflow => .decode "input string too long" type []
  | .notAtEOL => .decode "input list has too many elements" type []
  | err => err

def addErrorContext (err : Err) (ctx : Context) : Err :=
  match err with
  | .decode msg type ctxs => .decode msg type (ctxs ++ [ctx])
  | err => err

/-! ### The stream -/

structure ListPos where
  pos : ℕ
  size : ℕ

structure Stream where
  /-- What the reader has left. -/
  r : Bytes
  /-- `kind`, `size` and `byteval` of the value ahead, if its header was read. -/
  ahead : Option (Kind × ℕ × UInt8)
  /-- The innermost list first. -/
  stack : List ListPos

abbrev Reader (α : Type) := Stream → Except Err (α × Stream)

namespace Stream

/-- The innermost list is at its end. -/
def atEnd (s : Stream) : Bool :=
  match s.stack with
  | [] => false
  | tos :: _ => tos.pos = tos.size

/-- There are `n` more bytes up to the end of the innermost list. -/
def fitsList (s : Stream) (n : ℕ) : Bool :=
  match s.stack with
  | [] => true
  | tos :: _ => n ≤ tos.size - tos.pos

/-- The positions of the lists when `n` bytes more are read in the innermost. -/
def bump (n : ℕ) : List ListPos → List ListPos
  | [] => []
  | tos :: stack => { tos with pos := tos.pos + n } :: stack

/-- `s.kind = -1`. -/
def clear (s : Stream) : Stream := { s with ahead := none }

/-- Behind the next `n` bytes. -/
def skip (s : Stream) (n : ℕ) : Stream := ⟨s.r.drop n, none, bump n s.stack⟩

end Stream

def willRead (n : ℕ) (s : Stream) : Except Err Unit := do
  ensure (s.fitsList n) .elemTooLarge
  ensure (n ≤ s.r.length) .valueTooLarge

def readByte : Reader UInt8 := fun s => do
  willRead 1 s
  return (s.r.headD 0, s.skip 1)

def readFull (n : ℕ) : Reader Bytes := fun s => do
  willRead n s
  return (s.r.take n, s.skip n)

/-- `readUint`, of at most eight bytes. -/
def readUint (size : ℕ) : Reader ℕ := fun s =>
  match size with
  | 0 => return (0, s.clear)
  | 1 => do
    let (b, s) ← readByte s
    return (b.toNat, s)
  | size => do
    let (b, s) ← readFull size s
    ensure (b.head? ≠ some 0) .canonSize
    return (beNat b, s)

/-- The header of a long string or list, with a size of `n` bytes. -/
def readLong (k : Kind) (n : ℕ) : Reader (Kind × ℕ × UInt8) := fun s => do
  let (size, s) ← readUint n s
  ensure (56 ≤ size) .canonSize
  return ((k, size, 0), s)

def readKind : Reader (Kind × ℕ × UInt8) := fun s => do
  let (b, s) ← relabel
    -- at the top level callers tell from this that there is nothing more to decode
    (fun err => match s.stack, err with
      | [], .valueTooLarge => .eof
      | _, err => err) (readByte s)
  if b.toNat < 0x80 then return ((.byte, 0, b), s)
  else if b.toNat < 0xB8 then return ((.string, b.toNat - 0x80, 0), s)
  else if b.toNat < 0xC0 then readLong .string (b.toNat - 0xB7) s
  else if b.toNat < 0xF8 then return ((.list, b.toNat - 0xC0, 0), s)
  else readLong .list (b.toNat - 0xF7) s

/-- A value is not larger than what is left of its list, or of the input. -/
def checkSize (size : ℕ) (s : Stream) : Except Err Unit :=
  match s.stack with
  | [] => ensure (size ≤ s.r.length) .valueTooLarge
  | _ :: _ => ensure (s.fitsList size) .elemTooLarge

def kind : Reader (Kind × ℕ × UInt8) := fun s =>
  match s.ahead with
  | some h => return (h, s)
  | none => do
    ensure (s.atEnd = false) .eol
    let (h, s) ← readKind s
    checkSize h.2.1 s
    return (h, { s with ahead := some h })

def bytes : Reader Bytes := fun s => do
  let ((k, size, byteval), s) ← kind s
  match k with
  | .byte => return ([byteval], s.clear)
  | .string => do
    let (b, s) ← readFull size s
    ensure (isSmall b = false) .canonSize
    return (b, s)
  | .list => .error .expectedString

/-- The number that `uint` reads from a string of `size` bytes. -/
def readNumber (size : ℕ) : Reader ℕ := fun s => do
  let (v, s) ← relabel (fun
    | .canonSize => .canonInt
    | err => err) (readUint size s)
  ensure (¬ (0 < size ∧ v < 128)) .canonSize
  return (v, s)

/-- `uint`. The byte 0 is no number, and is left ahead. -/
def uint (maxbits : ℕ) : Reader ℕ := fun s => do
  let ((k, size, byteval), s) ← kind s
  match k with
  | .byte => do
    ensure (byteval ≠ 0) .canonInt
    return (byteval.toNat, s.clear)
  | .string => do
    ensure (size ≤ maxbits / 8) .uintOverflow
    readNumber size s
  | .list => .error .expectedString

def bool : Reader Bool := fun s => do
  let (num, s) ← uint 8 s
  match num with
  | 0 => return (false, s)
  | 1 => return (true, s)
  | num => .error (.invalidBool num)

def list : Reader ℕ := fun s => do
  let ((k, size, _), s) ← kind s
  ensure (k = .list) .expectedList
  return (size, ⟨s.r, none, ⟨0, size⟩ :: s.stack⟩)

def listEnd (s : Stream) : Except Err Stream :=
  match s.stack with
  | [] => .error .notInList
  | tos :: stack => do
    ensure (tos.pos = tos.size) .notAtEOL
    return ⟨s.r, none, Stream.bump tos.size stack⟩

end GoWanchain.Rlp
