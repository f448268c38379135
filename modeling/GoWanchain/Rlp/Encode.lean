import GoWanchain.Rlp.Reading

/-!
# The encoder of RLP

`encbuf` of `rlp/encode.go`. The encoder writes all strings first and notes where the headers of lists
belong, since the length of a list is known at its end only; `toBytes` puts the headers in.

The values of a type are those of Go, where a nil slice is an empty one. A list or a string has a length
that is an `int`, so that `make` panics for larger ones.
-/

namespace GoWanchain.Rlp

open List

/-! ### Values -/

/-- The values that `DecodeBytes` stores in an `interface{}`: `[]byte` and `[]interface{}`. -/
inductive Tree
  | string (b : Bytes)
  | list (elems : List Tree)

mutual

/-- The values of a type. -/
def Ty.Val : Ty → Type
  | .uint width => BitVec width.bits
  | .bool => Bool
  | .bigInt => ℤ
  | .string => Bytes
  | .slice elem => List elem.Val
  | .array len elem => List.Vector elem.Val len
  | .struct fields => fields.Val
  | .interface => Tree

def Fields.Val : Fields → Type
  | .nil => Unit
  | .cons _ type rest => type.Val × rest.Val

end

/-! ### The buffer -/

structure Listhead where
  offset : ℕ
  size : ℕ

structure Encbuf where
  str : Bytes
  lheads : List Listhead
  lhsize : ℕ

def putint (i : ℕ) : Bytes :=
  if i < 2 ^ 8 then bePadded 1 i
  else if i < 2 ^ 16 then bePadded 2 i
  else if i < 2 ^ 24 then bePadded 3 i
  else if i < 2 ^ 32 then bePadded 4 i
  else if i < 2 ^ 40 then bePadded 5 i
  else if i < 2 ^ 48 then bePadded 6 i
  else if i < 2 ^ 56 then bePadded 7 i
  else bePadded 8 i

def intsize (i : ℕ) : ℕ := if i < 256 then 1 else intsize (i / 256) + 1
termination_by i

def headsize (size : ℕ) : ℕ := if size < 56 then 1 else 1 + intsize size

def puthead (smalltag largetag size : ℕ) : Bytes :=
  if size < 56 then [UInt8.ofNat (smalltag + size)]
  else UInt8.ofNat (largetag + (putint size).length) :: putint size

namespace Encbuf

def empty : Encbuf := ⟨[], [], 0⟩

def write (w : Encbuf) (b : Bytes) : Encbuf := { w with str := w.str ++ b }

def encodeStringHeader (w : Encbuf) (size : ℕ) : Encbuf := w.write (puthead 0x80 0xB7 size)

def encodeString (w : Encbuf) (b : Bytes) : Encbuf :=
  if isSmall b then w.write b else (w.encodeStringHeader b.length).write b

def size (w : Encbuf) : ℕ := w.str.length + w.lhsize

/-- `list`. The header is the last one. -/
def list (w : Encbuf) : Encbuf := { w with lheads := w.lheads ++ [⟨w.str.length, w.lhsize⟩] }

/-- `listEnd` of the header at `lh`. -/
def listEnd (lh : ℕ) (w : Encbuf) : Encbuf :=
  match w.lheads[lh]? with
  | none => w
  | some head =>
    let size := w.size - head.offset - head.size
    { w with
      lheads := w.lheads.set lh { head with size }
      lhsize := w.lhsize + headsize size }

/-- The loop of `toBytes`, behind the byte `strpos` of the strings. -/
def merge (str : Bytes) : ℕ → List Listhead → Bytes
  | strpos, [] => str.drop strpos
  | strpos, head :: heads =>
    (str.drop strpos).take (head.offset - strpos) ++ puthead 0xC0 0xF7 head.size ++ merge str head.offset heads

def toBytes (w : Encbuf) : Except Err Bytes :=
  if w.size < 2 ^ 63 then .ok (merge w.str 0 w.lheads) else .error .panic

end Encbuf

/-! ### Writers -/

abbrev Writer (α : Type) := α → Encbuf → Except Err Encbuf

def writeUint (i : ℕ) (w : Encbuf) : Encbuf :=
  if i = 0 then w.write [0x80]
  else if i < 128 then w.write [UInt8.ofNat i]
  else w.write (UInt8.ofNat (0x80 + (putint i).length) :: putint i)

def writeBool (b : Bool) (w : Encbuf) : Encbuf := w.write (if b then [0x01] else [0x80])

def writeBigInt (i : ℤ) (w : Encbuf) : Except Err Encbuf :=
  if i < 0 then .error .negativeBigInt
  else if i = 0 then .ok (w.write [0x80])
  else .ok (w.encodeString (beBytes i.toNat))

/-- The elements of a list, one after the other. -/
def writeElems {α : Type} (elem : Writer α) : List α → Encbuf → Except Err Encbuf
  | [], w => .ok w
  | v :: vs, w => elem v w >>= writeElems elem vs

/-- The writer that `makeSliceWriter` makes. -/
def writeSlice {α : Type} (elem : Writer α) (vs : List α) (w : Encbuf) : Except Err Encbuf := do
  let w' ← writeElems elem vs w.list
  return w'.listEnd w.lheads.length

/-- The writer of a slice or an array. One of bytes is written as a string. -/
def makeListWriter : (elem : Ty) → Writer elem.Val → Writer (List elem.Val)
  | .uint .w8, _ => fun (vs : List (BitVec 8)) w => .ok (w.encodeString (vs.map UInt8.ofBitVec))
  | _, writer => writeSlice writer

mutual

/-- `writeInterface`. -/
def writeTree : Tree → Encbuf → Except Err Encbuf
  | .string b, w => .ok (w.encodeString b)
  | .list elems, w => do
    let w' ← writeTrees elems w.list
    return w'.listEnd w.lheads.length

def writeTrees : List Tree → Encbuf → Except Err Encbuf
  | [], w => .ok w
  | t :: ts, w => writeTree t w >>= writeTrees ts

end

mutual

/-- `makeWriter`. -/
def writer : (type : Ty) → Writer type.Val
  | .uint _, v, w => .ok (writeUint v.toNat w)
  | .bool, v, w => .ok (writeBool v w)
  | .bigInt, v, w => writeBigInt v w
  | .string, v, w => .ok (w.encodeString v)
  | .slice elem, v, w => makeListWriter elem (writer elem) v w
  | .array _ elem, v, w => makeListWriter elem (writer elem) v.toList w
  | .struct fields, v, w => do
    let w' ← writeFields fields v w.list
    return w'.listEnd w.lheads.length
  | .interface, v, w => writeTree v w

def writeFields : (fields : Fields) → Writer fields.Val
  | .nil, _, w => .ok w
  | .cons _ type rest, v, w => writer type v.1 w >>= writeFields rest v.2

end

def encodeToBytes (type : Ty) (v : type.Val) : Except Err Bytes := writer type v .empty >>= Encbuf.toBytes

/-! ### Headers -/

theorem putint_eq {i : ℕ} (hpos : 0 < i) (h : i < 2 ^ 64) : putint i = beBytes i := by
  rw [putint]
  split_ifs
  · exact bePadded_eq_beBytes (w := 0) (by omega) (by omega)
  · exact bePadded_eq_beBytes (w := 1) (by omega) (by omega)
  · exact bePadded_eq_beBytes (w := 2) (by omega) (by omega)
  · exact bePadded_eq_beBytes (w := 3) (by omega) (by omega)
  · exact bePadded_eq_beBytes (w := 4) (by omega) (by omega)
  · exact bePadded_eq_beBytes (w := 5) (by omega) (by omega)
  · exact bePadded_eq_beBytes (w := 6) (by omega) (by omega)
  · exact bePadded_eq_beBytes (w := 7) (by omega) (by omega)

theorem intsize_eq {i : ℕ} (hpos : 0 < i) : intsize i = (beBytes i).length := by
  induction i using Nat.strong_induction_on with
  | _ i ih =>
    rw [intsize]
    split_ifs with hsmall
    · rw [length_beBytes_of_lt hpos hsmall]
    · rw [ih (i / 256) (by omega) (by omega), ← length_beBytes_div hpos]

theorem headsize_eq (tag size : ℕ) : headsize size = (head tag size).length := by
  rw [headsize, head]
  split_ifs with hsmall
  · rfl
  · rw [intsize_eq (by omega), length_cons, Nat.add_comm]

theorem puthead_eq {tag size : ℕ} (h : size < 2 ^ 64) : puthead tag (tag + 55) size = head tag size := by
  rw [puthead, head]
  split_ifs with hsmall
  · rfl
  · rw [putint_eq (by omega) h]

theorem length_encode_list (payload : Bytes) :
    (Value.list payload).encode.length = (head 0xC0 payload.length).length + payload.length := by
  rw [Value.encode, length_append]

/-! ### Fragments -/

namespace Encbuf

/-- The headers stand in their order within `len` bytes, behind the byte `pos`. -/
def Within (len : ℕ) : ℕ → List Listhead → Prop
  | pos, [] => pos ≤ len
  | pos, head :: heads => pos ≤ head.offset ∧ Within len head.offset heads

/-- What is written is put behind what was there. -/
def append (w f : Encbuf) : Encbuf where
  str := w.str ++ f.str
  lheads := w.lheads ++ f.lheads.map fun head => { head with offset := w.str.length + head.offset }
  lhsize := w.lhsize + f.lhsize

/-- The fragment `f` is the encoding `b`, or both are too large. -/
structure Fragment (f : Encbuf) (b : Bytes) : Prop where
  within : Within f.str.length 0 f.lheads
  size : b.length < 2 ^ 63 → f.size = b.length
  large : 2 ^ 63 ≤ b.length → 2 ^ 63 ≤ f.size
  merge : b.length < 2 ^ 63 → merge f.str 0 f.lheads = b

theorem append_assoc (w f g : Encbuf) : (w.append f).append g = w.append (f.append g) := by
  simp only [append, List.append_assoc, map_append, map_map, length_append, Nat.add_assoc, mk.injEq, true_and, and_true]
  rfl

theorem size_append (w f : Encbuf) : (w.append f).size = w.size + f.size := by
  simp only [size, append, length_append]
  omega

theorem Within.le {len pos : ℕ} {heads : List Listhead} (h : Within len pos heads) : pos ≤ len := by
  induction heads generalizing pos with
  | nil => exact h
  | cons _ _ ih => exact h.1.trans (ih h.2)

theorem Within.append {len len' pos : ℕ} {heads heads' : List Listhead} (h : Within len pos heads)
    (h' : Within len' 0 heads') : Within (len + len') pos
      (heads ++ heads'.map fun head => { head with offset := len + head.offset }) := by
  have hshift {pos' : ℕ} (hw : Within len' pos' heads') : Within (len + len') (len + pos')
      (heads'.map fun head => { head with offset := len + head.offset }) := by
    clear h'
    induction heads' generalizing pos' with
    | nil => exact Nat.add_le_add_left hw len
    | cons _ _ ih => exact ⟨Nat.add_le_add_left hw.1 len, ih hw.2⟩
  induction heads generalizing pos with
  | cons _ _ ih => exact ⟨h.1, ih h.2⟩
  | nil =>
    have hw := hshift h'
    cases heads' with
    | nil => exact Nat.le_trans h (Nat.le_add_right _ _)
    | cons => exact ⟨Nat.le_trans h (Nat.le_add_right _ _), hw.2⟩

theorem merge_append {a b : Bytes} {pos : ℕ} {heads heads' : List Listhead} (h : Within a.length pos heads) :
    merge (a ++ b) pos (heads ++ heads'.map fun head => { head with offset := a.length + head.offset })
      = merge a pos heads ++ merge b 0 heads' := by
  have hshift (pos' : ℕ) : merge (a ++ b) (a.length + pos')
      (heads'.map fun head => { head with offset := a.length + head.offset }) = merge b pos' heads' := by
    induction heads' generalizing pos' with
    | nil => simp [merge, drop_append]
    | cons _ _ ih =>
      simp only [map_cons, merge, ih]
      rw [drop_append, drop_eq_nil_of_le (by omega), nil_append, Nat.add_sub_cancel_left, Nat.add_sub_add_left]
  induction heads generalizing pos with
  | cons _ _ ih =>
    have hle := h.2.le
    simp only [cons_append, merge, ih h.2, List.append_assoc]
    rw [drop_append_of_le_length (h.1.trans hle), take_append_of_le_length (by simp; omega)]
  | nil =>
    have hpos : pos ≤ a.length := h
    have hzero := hshift 0
    cases heads' with
    | nil => simp [merge, drop_append_of_le_length hpos]
    | cons head =>
      simp only [nil_append, map_cons, merge] at hzero ⊢
      rw [drop_append_of_le_length hpos]
      simp only [Nat.add_zero, drop_left, Nat.sub_zero, Nat.add_sub_cancel_left] at hzero
      have htake : (a.drop pos ++ b).take (a.length + head.offset - pos) = a.drop pos ++ b.take head.offset := by
        rw [take_append, length_drop, take_of_length_le (by rw [length_drop]; omega)]
        congr 2
        omega
      rw [htake]
      simp only [List.append_assoc, append_cancel_left_eq, drop_zero] at hzero ⊢
      rw [Nat.sub_zero, hzero]

theorem fragment_str (b : Bytes) : Fragment ⟨b, [], 0⟩ b := ⟨Nat.zero_le _, fun _ => rfl, id, fun _ => rfl⟩

theorem Fragment.append {f g : Encbuf} {b c : Bytes} (hf : Fragment f b) (hg : Fragment g c) :
    Fragment (f.append g) (b ++ c) where
  within := by
    rw [Encbuf.append, length_append]
    exact hf.within.append hg.within
  size h := by
    rw [length_append] at h ⊢
    rw [size_append, hf.size (by omega), hg.size (by omega)]
  large h := by
    rw [length_append] at h
    rw [size_append]
    by_cases hb : b.length < 2 ^ 63
    · by_cases hc : c.length < 2 ^ 63
      · rwa [hf.size hb, hg.size hc]
      · exact (hg.large (not_lt.mp hc)).trans (Nat.le_add_left _ _)
    · exact (hf.large (not_lt.mp hb)).trans (Nat.le_add_right _ _)
  merge h := by
    rw [length_append] at h
    rw [← hf.merge (by omega), ← hg.merge (by omega)]
    exact merge_append hf.within

theorem Fragment.list {f : Encbuf} {b : Bytes} (hf : Fragment f b) :
    Fragment ⟨f.str, ⟨0, f.size⟩ :: f.lheads, f.lhsize + headsize f.size⟩ (Value.list b).encode where
  within := ⟨Nat.le_refl 0, hf.within⟩
  size h := by
    rw [length_encode_list] at h ⊢
    have hsize := hf.size (by omega)
    rw [← headsize_eq 0xC0 b.length, ← hsize]
    simp only [Encbuf.size]
    omega
  large h := by
    rw [length_encode_list, ← headsize_eq] at h
    have hsize : Encbuf.size ⟨f.str, ⟨0, f.size⟩ :: f.lheads, f.lhsize + headsize f.size⟩ =
        f.size + headsize f.size := by
      simp only [Encbuf.size]
      omega
    rw [hsize]
    by_cases hb : b.length < 2 ^ 63
    · rw [hf.size hb]
      omega
    · exact (hf.large (not_lt.mp hb)).trans (Nat.le_add_right _ _)
  merge h := by
    rw [length_encode_list] at h
    have hb : b.length < 2 ^ 63 := by omega
    have hb' : b.length < 2 ^ 64 := by omega
    rw [Value.encode, Encbuf.merge, hf.merge hb, hf.size hb, ← puthead_eq hb']
    simp

end Encbuf

/-- What `x` writes is the encoding `b`, whatever was written before. -/
def Writes (x : Encbuf → Except Err Encbuf) (b : Bytes) : Prop :=
  ∃ f, f.Fragment b ∧ ∀ w, x w = .ok (w.append f)

section Writes

variable {x y : Encbuf → Except Err Encbuf} {b c : Bytes}

theorem writes_ok : Writes .ok [] :=
  ⟨.empty, Encbuf.fragment_str [], fun w => by simp [Encbuf.append, Encbuf.empty]⟩

theorem writes_write (b : Bytes) : Writes (fun w => .ok (w.write b)) b :=
  ⟨⟨b, [], 0⟩, Encbuf.fragment_str b, fun w => by simp [Encbuf.append, Encbuf.write]⟩

theorem Writes.bind (hx : Writes x b) (hy : Writes y c) : Writes (fun w => x w >>= y) (b ++ c) := by
  obtain ⟨f, hf, hfx⟩ := hx
  obtain ⟨g, hg, hgy⟩ := hy
  refine ⟨f.append g, hf.append hg, fun w => ?_⟩
  show x w >>= y = _
  rw [hfx, ← Encbuf.append_assoc]
  exact hgy _

/-- Writing a list: its header is noted first, and gets the size of what is written then. -/
theorem Writes.list (hx : Writes x b) :
    Writes (fun w => x w.list >>= fun w' => .ok (w'.listEnd w.lheads.length)) (Value.list b).encode := by
  obtain ⟨f, hf, hfx⟩ := hx
  refine ⟨_, hf.list, fun w => ?_⟩
  have hsize : (w.list.append f).size - w.str.length - w.lhsize = f.size := by
    rw [Encbuf.size_append]
    simp only [Encbuf.size, Encbuf.list]
    omega
  have hhead : (w.list.append f).lheads[w.lheads.length]? = some ⟨w.str.length, w.lhsize⟩ := by
    simp [Encbuf.append, Encbuf.list]
  show x w.list >>= _ = _
  rw [hfx]
  show Except.ok (Encbuf.listEnd w.lheads.length (w.list.append f)) = _
  rw [Encbuf.listEnd, hhead]
  simp only [hsize]
  simp [Encbuf.append, Encbuf.list, Nat.add_assoc]

theorem writes_encodeString (b : Bytes) : Writes (fun w => .ok (w.encodeString b)) (Value.string b).encode := by
  by_cases hb : b.length < 2 ^ 64
  · have hhead : puthead 0x80 0xB7 b.length = head 0x80 b.length := puthead_eq hb
    have hrun : (fun w : Encbuf => (.ok (w.encodeString b) : Except Err Encbuf))
        = fun w => .ok (w.write (Value.string b).encode) := by
      funext w
      rw [Encbuf.encodeString, Encbuf.encodeStringHeader, hhead, Value.encode]
      split_ifs
      · rfl
      · simp [Encbuf.write]
    rw [hrun]
    exact writes_write _
  · -- no string of Go is that long
    have hsmall := isSmall_eq_false_of_length (b := b) (by omega)
    have hle := (Value.string b).length_content_le
    rw [Value.content] at hle
    refine ⟨⟨puthead 0x80 0xB7 b.length ++ b, [], 0⟩, ⟨Nat.zero_le _, ?_, ?_, ?_⟩, fun w => ?_⟩
    · intro h
      omega
    · intro _
      simp only [Encbuf.size, length_append]
      omega
    · intro h
      omega
    · simp [Encbuf.encodeString, hsmall, Encbuf.encodeStringHeader, Encbuf.write, Encbuf.append]

end Writes

/-! ### What is written -/

def Ty.isByte : Ty → Bool
  | .uint .w8 => true
  | _ => false

/-- The encoding of a slice or an array. -/
def encodeElems : (elem : Ty) → (elem.Val → Bytes) → List elem.Val → Bytes
  | .uint .w8, _ => fun (vs : List (BitVec 8)) => (Value.string (vs.map UInt8.ofBitVec)).encode
  | _, enc => fun vs => (Value.list (vs.flatMap enc)).encode

mutual

def Tree.enc : Tree → Bytes
  | .string b => (Value.string b).encode
  | .list elems => (Value.list (Tree.encs elems)).encode

def Tree.encs : List Tree → Bytes
  | [] => []
  | t :: ts => t.enc ++ Tree.encs ts

end

mutual

def Ty.enc : (type : Ty) → type.Val → Bytes
  | .uint _, v => (Value.string (beBytes v.toNat)).encode
  | .bool, v => (Value.string (beBytes v.toNat)).encode
  | .bigInt, v => (Value.string (beBytes v.toNat)).encode
  | .string, v => (Value.string v).encode
  | .slice elem, v => encodeElems elem elem.enc v
  | .array _ elem, v => encodeElems elem elem.enc v.toList
  | .struct fields, v => (Value.list (fields.enc v)).encode
  | .interface, v => v.enc

def Fields.enc : (fields : Fields) → fields.Val → Bytes
  | .nil, _ => []
  | .cons _ type rest, v => type.enc v.1 ++ rest.enc v.2

end

mutual

/-- No big integer of a value is negative. -/
def Ty.Nonneg : (type : Ty) → type.Val → Prop
  | .bigInt, (v : ℤ) => 0 ≤ v
  | .slice elem, (v : List elem.Val) => ∀ x ∈ v, elem.Nonneg x
  | .array _ elem, v => ∀ x ∈ v.toList, elem.Nonneg x
  | .struct fields, v => fields.Nonneg v
  | .uint _, _ => True
  | .bool, _ => True
  | .string, _ => True
  | .interface, _ => True

def Fields.Nonneg : (fields : Fields) → fields.Val → Prop
  | .nil, _ => True
  | .cons _ type rest, v => type.Nonneg v.1 ∧ rest.Nonneg v.2

end

theorem Ty.eq_of_isByte {type : Ty} (h : type.isByte = true) : type = .uint .w8 := by
  match type, h with
  | .uint .w8, _ => rfl

theorem makeListWriter_of_isByte_false {elem : Ty} (h : elem.isByte = false) (w : Writer elem.Val) :
    makeListWriter elem w = writeSlice w := by
  match elem, h with
  | .uint .w16, _ | .uint .w32, _ | .uint .w64, _ | .bool, _ | .bigInt, _ | .string, _ | .slice _, _ | .array _ _, _
  | .struct _, _ | .interface, _ => rfl

theorem encodeElems_of_isByte_false {elem : Ty} (h : elem.isByte = false) (enc : elem.Val → Bytes)
    (vs : List elem.Val) : encodeElems elem enc vs = (Value.list (vs.flatMap enc)).encode := by
  match elem, h with
  | .uint .w16, _ | .uint .w32, _ | .uint .w64, _ | .bool, _ | .bigInt, _ | .string, _ | .slice _, _ | .array _ _, _
  | .struct _, _ | .interface, _ => rfl

theorem encode_beBytes {i : ℕ} (h : i < 2 ^ 64) : (Value.string (beBytes i)).encode =
    if i = 0 then [0x80] else if i < 128 then [UInt8.ofNat i]
    else UInt8.ofNat (0x80 + (beBytes i).length) :: beBytes i := by
  have hlen : (beBytes i).length ≤ 8 := length_beBytes_le (lt_of_lt_of_eq h (by norm_num))
  have hhead : head 0x80 (beBytes i).length = [UInt8.ofNat (0x80 + (beBytes i).length)] := by
    rw [head, if_pos (by omega)]
  rw [Value.encode, hhead]
  split_ifs with hsmall hzero hlt hzero hlt
  · rw [hzero, beBytes_zero] at hsmall
    cases hsmall
  · exact (bePadded_eq_beBytes (w := 0) (by omega) (by omega)).symm.trans (by simp [bePadded])
  · exact absurd (isSmall_beBytes_iff.mp hsmall).2 hlt
  · simp [hzero]
  · exact absurd (isSmall_beBytes_iff.mpr ⟨by omega, hlt⟩) hsmall
  · rfl

theorem writes_writeUint {i : ℕ} (h : i < 2 ^ 64) :
    Writes (fun w => .ok (writeUint i w)) (Value.string (beBytes i)).encode := by
  have hrun : (fun w => (.ok (writeUint i w) : Except Err Encbuf))
      = fun w => .ok (w.write (Value.string (beBytes i)).encode) := by
    funext w
    rw [writeUint, encode_beBytes h]
    split_ifs with hzero hlt
    · rfl
    · rfl
    · rw [putint_eq (by omega) h]
  rw [hrun]
  exact writes_write _

theorem writes_writeBool (b : Bool) : Writes (writeBool b · |> .ok) (Value.string (beBytes b.toNat)).encode := by
  rw [encode_beBytes (by cases b <;> decide)]
  cases b
  · exact writes_write [0x80]
  · exact writes_write [0x01]

theorem writes_writeBigInt {i : ℤ} (h : 0 ≤ i) : Writes (writeBigInt i) (Value.string (beBytes i.toNat)).encode := by
  by_cases hzero : i = 0
  · subst hzero
    rw [Int.toNat_zero, encode_beBytes (by norm_num)]
    exact writes_write [0x80]
  · have hrun : writeBigInt i = fun w => .ok (w.encodeString (beBytes i.toNat)) := by
      funext w
      rw [writeBigInt, if_neg (by omega), if_neg hzero]
    rw [hrun]
    exact writes_encodeString _

theorem writes_writeElems {α : Type} {elem : Writer α} {enc : α → Bytes} {vs : List α}
    (h : ∀ v ∈ vs, Writes (elem v) (enc v)) : Writes (writeElems elem vs) (vs.flatMap enc) := by
  induction vs with
  | nil => exact writes_ok
  | cons v _ ih =>
    rw [flatMap_cons]
    exact (h v (by simp)).bind (ih fun u hu => h u (mem_cons_of_mem v hu))

theorem writes_makeListWriter {elem : Ty} {vs : List elem.Val} (h : ∀ v ∈ vs, Writes (writer elem v) (elem.enc v)) :
    Writes (makeListWriter elem (writer elem) vs) (encodeElems elem elem.enc vs) := by
  cases hbyte : elem.isByte with
  | true =>
    obtain rfl := Ty.eq_of_isByte hbyte
    exact writes_encodeString _
  | false =>
    rw [encodeElems_of_isByte_false hbyte, makeListWriter_of_isByte_false hbyte]
    exact (writes_writeElems h).list

mutual

theorem writes_writeTree : ∀ t : Tree, Writes (writeTree t) t.enc
  | .string b => by
    rw [Tree.enc]
    exact writes_encodeString b
  | .list elems => by
    rw [Tree.enc]
    exact (writes_writeTrees elems).list

theorem writes_writeTrees : ∀ ts : List Tree, Writes (writeTrees ts) (Tree.encs ts)
  | [] => writes_ok
  | t :: ts => by
    rw [Tree.encs]
    exact (writes_writeTree t).bind (writes_writeTrees ts)

end

mutual

theorem writes_writer : ∀ {type : Ty} {v : type.Val}, type.Nonneg v → Writes (writer type v) (type.enc v)
  | .uint width, v, _ => by
    have hv := v.isLt
    have hle : 2 ^ width.bits ≤ 2 ^ 64 := Nat.pow_le_pow_right (by norm_num) (by cases width <;> decide)
    exact writes_writeUint (by omega)
  | .bool, v, _ => writes_writeBool v
  | .bigInt, v, hv => writes_writeBigInt hv
  | .string, v, _ => writes_encodeString v
  | .slice elem, vs, hv => writes_makeListWriter fun v hmem => writes_writer (hv v hmem)
  | .array _ elem, vs, hv => writes_makeListWriter fun v hmem => writes_writer (hv v hmem)
  | .struct fields, v, hv => by
    rw [Ty.enc]
    exact (writes_writeFields hv).list
  | .interface, v, _ => writes_writeTree v

theorem writes_writeFields : ∀ {fields : Fields} {v : fields.Val}, fields.Nonneg v →
    Writes (writeFields fields v) (fields.enc v)
  | .nil, _, _ => writes_ok
  | .cons _ type rest, v, hv => by
    rw [Fields.enc]
    exact (writes_writer hv.1).bind (writes_writeFields hv.2)

end

theorem encodeToBytes_eq {type : Ty} {v : type.Val} (hv : type.Nonneg v) :
    encodeToBytes type v = if (type.enc v).length < 2 ^ 63 then .ok (type.enc v) else .error .panic := by
  obtain ⟨f, hf, hrun⟩ := writes_writer hv
  have hfrag := (Encbuf.fragment_str []).append hf
  rw [nil_append] at hfrag
  rw [encodeToBytes, hrun]
  show Encbuf.toBytes (Encbuf.empty.append f) = _
  rw [Encbuf.toBytes]
  split_ifs with hsize hlen hlen
  · rw [Encbuf.empty, hfrag.merge hlen]
  · exact absurd (hfrag.large (not_lt.mp hlen)) (not_le.mpr hsize)
  · exact absurd ((hfrag.size hlen).trans_lt hlen) hsize
  · rfl

end GoWanchain.Rlp
