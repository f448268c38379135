import GoWanchain.Rlp.Encode

/-!
# The typed decoders of RLP

`makeDecoder` of `rlp/decode.go` and what it makes, over the types of `Ty`. The decoders read from a stream of
`Rlp.Stream` and yield the value that they store. The loop over the elements of a slice ends at the end of the list
only, so it is given a number of rounds, and so is the descent into an `interface{}`.
-/

namespace GoWanchain.Rlp

variable {α β γ : Type}

/-! ### Errors -/

/-- An error of the stream is one of the type. -/
def wrapping (type : Ty) (x : Except Err α) : Except Err α := relabel (wrapStreamError · type) x

/-- The errors of a part of a value. The end of the list is the error `short`, any other error is given the context
`ctx`. -/
def within (short : Err) (ctx : Context) (x : Except Err α) : Except Err α :=
  relabel (fun
    | .eol => short
    | err => addErrorContext err ctx) x

/-! ### Atoms -/

def decodeUint (width : Width) : Reader (BitVec width.bits) := fun s => do
  let (num, s) ← wrapping (.uint width) (uint width.bits s)
  return (BitVec.ofNat width.bits num, s)

/-- `decodeBigInt`, with the type of `decodeBigIntNoPtr`. -/
def decodeBigInt : Reader ℤ := fun s => do
  let (b, s) ← wrapping .bigInt (bytes s)
  -- reject leading zero bytes
  ensure (b.head? ≠ some 0) (wrapStreamError .canonInt .bigInt)
  return ((beNat b : ℤ), s)

def decodeByteSlice : Reader (List (BitVec 8)) := fun s => do
  let (b, s) ← wrapping (.slice (.uint .w8)) (bytes s)
  return (b.map UInt8.toBitVec, s)

/-- `bv, _ := s.Uint()`. An error is dropped. -/
def uintOrZero (s : Stream) : ℕ × Stream :=
  match uint 64 s with
  | .ok p => p
  | .error _ => (0, s)

/-- The array of the first `n` bytes of `b`. -/
def arrayOfBytes (n : ℕ) (b : Bytes) : List.Vector (BitVec 8) n := .ofFn fun i => (b.getD i 0).toBitVec

def decodeByteArray (n : ℕ) : Reader (List.Vector (BitVec 8) n) := fun s => do
  let ((k, size, _), s) ← kind s
  let type := Ty.array n (.uint .w8)
  match k with
  | .byte => do
    ensure (n ≠ 0) (.decode "input string too long" type [])
    ensure (n ≤ 1) (.decode "input string too short" type [])
    let (bv, s) := uintOrZero s
    return (arrayOfBytes n [UInt8.ofNat bv], s)
  | .string => do
    ensure (size ≤ n) (.decode "input string too long" type [])
    ensure (n ≤ size) (.decode "input string too short" type [])
    let (b, s) ← readFull n s
    ensure (isSmall b = false) (wrapStreamError .canonSize type)
    return (arrayOfBytes n b, s)
  | .list => .error (wrapStreamError .expectedString type)

/-! ### Lists -/

/-- `decodeSliceElems`, from the element `i` on, for some rounds. -/
def decodeSliceElems (elem : Reader α) : ℕ → ℕ → Reader (List α)
  | 0, _, _ => .error .fuel
  | rounds + 1, i, s =>
    match elem s with
    | .error .eol => return ([], s)
    | .error err => .error (addErrorContext err (.index i))
    | .ok (v, s) => do
      let (vs, s) ← decodeSliceElems elem rounds (i + 1) s
      return (v :: vs, s)

/-- The elements of a list of `size` bytes. Of an empty one none is decoded. -/
def decodeElems (elem : Reader α) (rounds size : ℕ) : Reader (List α) :=
  if size = 0 then fun s => .ok ([], s) else decodeSliceElems elem rounds 0

def decodeListSlice (rounds : ℕ) (type : Ty) (elem : Reader α) : Reader (List α) := fun s => do
  let (size, s) ← wrapping type (list s)
  let (vs, s) ← decodeElems elem rounds size s
  let s ← listEnd s
  return (vs, s)

/-- A part of a list, and the rest of it. -/
def decodePart (short : Err) (ctx : Context) (f : α → β → γ) (x : Reader α) (y : Reader β) : Reader γ := fun s => do
  let (v, s) ← within short ctx (x s)
  let (vs, s) ← y s
  return (f v vs, s)

/-- A list whose parts are decoded by `body`. -/
def decodeEnclosed (type : Ty) (body : Reader α) : Reader α := fun s => do
  let (_, s) ← wrapping type (list s)
  let (v, s) ← body s
  let s ← wrapping type (listEnd s)
  return (v, s)

/-- The loop of `decodeListArray`, from the element `i` on. -/
def decodeArrayElems (type : Ty) (elem : Reader α) : (n : ℕ) → ℕ → Reader (List.Vector α n)
  | 0, _ => fun s => return (.nil, s)
  | n + 1, i => decodePart (.decode "input list has too few elements" type []) (.index i) .cons elem
      (decodeArrayElems type elem n (i + 1))

def decodeListArray (type : Ty) (elem : Reader α) (n : ℕ) : Reader (List.Vector α n) :=
  decodeEnclosed type (decodeArrayElems type elem n 0)

def makeSliceDecoder (rounds : ℕ) : (elem : Ty) → Reader elem.Val → Reader (List elem.Val)
  | .uint .w8, _ => decodeByteSlice
  | elem, dec => decodeListSlice rounds (.slice elem) dec

def makeArrayDecoder (n : ℕ) : (elem : Ty) → Reader elem.Val → Reader (List.Vector elem.Val n)
  | .uint .w8, _ => decodeByteArray n
  | elem, dec => decodeListArray (.array n elem) dec n

/-- `decodeInterface`, down to some depth. -/
def decodeInterface : ℕ → Reader Tree
  | 0, _ => .error .fuel
  | fuel + 1, s => do
    let ((k, _), s) ← kind s
    if k = .list then
      let (elems, s) ← decodeListSlice fuel (.slice .interface) (decodeInterface fuel) s
      return (.list elems, s)
    else
      let (b, s) ← bytes s
      return (.string b, s)

mutual

/-- `makeDecoder`. -/
def decoder (fuel : ℕ) : (type : Ty) → Reader type.Val
  | .uint width => decodeUint width
  | .bool => fun s => wrapping .bool (bool s)
  | .bigInt => decodeBigInt
  | .string => fun s => wrapping .string (bytes s)
  | .slice elem => makeSliceDecoder fuel elem (decoder fuel elem)
  | .array n elem => makeArrayDecoder n elem (decoder fuel elem)
  | .struct fields => decodeEnclosed (.struct fields) (decodeFields fuel (.struct fields) fields)
  | .interface => decodeInterface fuel

/-- The loop of `makeStructDecoder`. -/
def decodeFields (fuel : ℕ) (type : Ty) : (fields : Fields) → Reader fields.Val
  | .nil => fun s => return ((), s)
  | .cons name field rest => decodePart (.decode "too few elements" type []) (.field name) Prod.mk (decoder fuel field)
      (decodeFields fuel type rest)

end

/-- The context of an error is completed with the type that is decoded. -/
def addTarget (err : Err) (type : Ty) : Err :=
  match err with
  | .decode msg typ (c :: ctx) => .decode msg typ (c :: ctx ++ [.target type])
  | err => err

/-- `DecodeBytes` into a fresh variable. -/
def decodeBytes (fuel : ℕ) (type : Ty) (b : Bytes) : Except Err type.Val := do
  let (v, s) ← relabel (addTarget · type) (decoder fuel type ⟨b, none, []⟩)
  ensure (s.r = []) .moreThanOneValue
  return v

end GoWanchain.Rlp
