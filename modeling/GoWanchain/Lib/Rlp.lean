import GoWanchain.Lib.BigEndian

/-!
# Recursive length prefix

RLP writes a value as a string of bytes or as a list, with its length in front. A reader takes only the
shortest way of writing a length, so that every byte string that it accepts is the one that would be written
for the value (`split_encode`, `encode_of_split`).

A `Codec α` reads and writes values of a type at the front of a byte string, a `Body α` as a whole byte
string; what both read is what they write.

Lengths are written in at most eight bytes, so reading back holds for words of less than `2 ^ 64` bytes.
-/

namespace GoWanchain.Rlp

open List Option

/-! ### Values -/

/-- The tag and the length in front of a content: `0x80` is the tag of strings, `0xC0` that of lists. -/
def head (tag size : ℕ) : Bytes :=
  if size < 56 then [UInt8.ofNat (tag + size)]
  else UInt8.ofNat (tag + 55 + (beBytes size).length) :: beBytes size

/-- A single byte that is its own encoding. -/
def isSmall : Bytes → Bool
  | [x] => x < 0x80
  | _ => false

variable {b c rest : Bytes} {size n : ℕ} {v : Value}

theorem isSmall_iff : isSmall b ↔ ∃ x, b = [x] ∧ x < 0x80 := by
  rcases b with _ | ⟨x, _ | ⟨y, rest⟩⟩ <;> simp [isSmall]

theorem isSmall_eq_false_of_length (h : b.length ≠ 1) : isSmall b = false := by
  match b, h with
  | [], _ => rfl
  | [_], h => exact absurd rfl h
  | _ :: _ :: _, _ => rfl

theorem head_of_short {tag : ℕ} {t : UInt8} (htag : tag ≤ t.toNat) (h : t.toNat - tag < 56) :
    head tag (t.toNat - tag) = [t] := by
  rw [head, if_pos h, Nat.add_sub_cancel' htag, UInt8.ofNat_toNat]

theorem head_of_long {tag : ℕ} {t : UInt8} {d : Bytes} (ht : t.toNat = tag + 55 + d.length) (hzero : d.head? ≠ some 0)
    (hsize : 56 ≤ beNat d) : head tag (beNat d) = t :: d := by
  rw [head, if_neg (by omega), beBytes_beNat hzero, ← ht, UInt8.ofNat_toNat]

theorem head_short {tag : ℕ} (htag : tag ≤ 0xC0) (h : size < 56) :
    ∃ t : UInt8, head tag size = [t] ∧ t.toNat = tag + size := by
  refine ⟨UInt8.ofNat (tag + size), by rw [head, if_pos h], ?_⟩
  rw [UInt8.toNat_ofNat']
  omega

theorem head_long {tag : ℕ} (htag : tag ≤ 0xC0) (h : 56 ≤ size) (hsize : size < 2 ^ 64) :
    ∃ (t : UInt8) (d : Bytes), head tag size = t :: d ∧ t.toNat = tag + 55 + d.length ∧ 0 < d.length ∧ d.length ≤ 8 ∧
      d.head? ≠ some 0 ∧ beNat d = size := by
  have hlen : (beBytes size).length ≤ 8 := length_beBytes_le (lt_of_lt_of_eq hsize (by norm_num))
  have hpos : 0 < (beBytes size).length := by
    rw [length_pos_iff, Ne, beBytes_eq_nil]
    omega
  refine ⟨UInt8.ofNat (tag + 55 + (beBytes size).length), beBytes size, by rw [head, if_neg (by omega)], ?_, hpos, hlen,
    head?_beBytes size, beNat_beBytes size⟩
  rw [UInt8.toNat_ofNat']
  omega

inductive Value
  | string (content : Bytes)
  | list (payload : Bytes)

def Value.content : Value → Bytes
  | .string b => b
  | .list payload => payload

def Value.encode : Value → Bytes
  | .string b => if isSmall b then b else head 0x80 b.length ++ b
  | .list payload => head 0xC0 payload.length ++ payload

/-- The first `size` bytes, if there are so many. -/
def takeExact (size : ℕ) (b : Bytes) : Option (Bytes × Bytes) :=
  if b.length < size then none else some (b.take size, b.drop size)

/-- A length of at least 56 in `n` bytes, without leading zeros. -/
def readSize (n : ℕ) (b : Bytes) : Option (ℕ × Bytes) :=
  (takeExact n b).bind fun p =>
    if p.1.head? = some 0 ∨ beNat p.1 < 56 then none else some (beNat p.1, p.2)

/-- The content after the tag byte `t`. -/
def readContent (tag : ℕ) (t : UInt8) (b : Bytes) : Option (Bytes × Bytes) :=
  if t.toNat - tag < 56 then takeExact (t.toNat - tag) b
  else (readSize (t.toNat - tag - 55) b).bind fun p => takeExact p.1 p.2

/-- The value at the front of a byte string. -/
def split : Bytes → Option (Value × Bytes)
  | [] => none
  | t :: b =>
    if t < 0x80 then some (.string [t], b)
    else if t < 0xC0 then
      (readContent 0x80 t b).bind fun p => if isSmall p.1 then none else some (.string p.1, p.2)
    else (readContent 0xC0 t b).map fun p => (.list p.1, p.2)

theorem takeExact_eq_some : takeExact size b = some (c, rest) ↔ c.length = size ∧ b = c ++ rest := by
  rw [takeExact]
  constructor
  · intro h
    split_ifs at h with hlen
    obtain ⟨rfl, rfl⟩ := Prod.mk.inj (some.inj h)
    refine ⟨?_, (take_append_drop size b).symm⟩
    rw [length_take]
    omega
  · rintro ⟨rfl, rfl⟩
    simp

theorem readSize_eq_some : readSize n b = some (size, rest) ↔
    ∃ d, d.length = n ∧ b = d ++ rest ∧ d.head? ≠ some 0 ∧ 56 ≤ size ∧ beNat d = size := by
  simp only [readSize, bind_eq_some_iff, Prod.exists, takeExact_eq_some]
  constructor
  · rintro ⟨d, rest', ⟨hlen, rfl⟩, h⟩
    split_ifs at h with hcanon
    rw [not_or, not_lt] at hcanon
    cases h
    exact ⟨d, hlen, rfl, hcanon.1, hcanon.2, rfl⟩
  · rintro ⟨d, hlen, rfl, hzero, hsize, rfl⟩
    exact ⟨d, rest, ⟨hlen, rfl⟩, if_neg (by simp [hzero, hsize])⟩

theorem head_ne_nil (tag size : ℕ) : head tag size ≠ [] := by
  rw [head]
  split_ifs <;> simp

theorem Value.encode_ne_nil (v : Value) : v.encode ≠ [] := by
  cases v with
  | string =>
    rw [encode]
    split_ifs with hsmall
    · rintro rfl
      cases hsmall
    · simp [head_ne_nil]
  | list => simp [encode, head_ne_nil]

theorem Value.length_content_le : ∀ v : Value, v.content.length ≤ v.encode.length := by
  rintro (b | b)
  · rw [encode, content]
    split_ifs <;> simp
  · simp [encode, content]

/-! A value with a shorter content is not longer. -/

theorem length_head_le (tag : ℕ) {m : ℕ} (h : m ≤ n) : (head tag m).length ≤ (head tag n).length := by
  have hdigits : (beBytes m).length ≤ (beBytes n).length := by
    simpa [beBytes] using Nat.le_length_digits_le 256 m n h
  rw [head, head]
  split_ifs with hm hn
  · exact le_rfl
  · simp
  · omega
  · simpa using hdigits

theorem Value.length_list_le (h : b.length ≤ c.length) :
    (Value.list b).encode.length ≤ (Value.list c).encode.length := by
  have hhead := length_head_le 0xC0 h
  simp only [encode, length_append]
  omega

theorem Value.length_string_le (hc : isSmall c = false) (h : b.length ≤ c.length) :
    (Value.string b).encode.length ≤ (Value.string c).encode.length := by
  have hhead := length_head_le 0x80 h
  have hc' : (Value.string c).encode = head 0x80 c.length ++ c := by simp [encode, hc]
  rw [hc', encode]
  split_ifs
  · simp only [length_append]
    omega
  · simp only [length_append]
    omega

/-! ### Headers -/

/-- A byte that is its own encoding, a string or a list. -/
inductive Kind
  | byte
  | string
  | list
deriving DecidableEq

/-- The tag of the kinds that have a header. -/
def Kind.tag : Kind → ℕ
  | .list => 0xC0
  | _ => 0x80

/-- The value of a kind with a content. -/
def Kind.value : Kind → Bytes → Value
  | .list, c => .list c
  | _, c => .string c

def Value.kind : Value → Kind
  | .string b => if isSmall b then .byte else .string
  | .list _ => .list

/-- The kind of the value at the front, the length of its header and that of its content. -/
def header : Bytes → Option (Kind × ℕ × ℕ)
  | [] => none
  | t :: b =>
    if t.toNat < 0x80 then some (.byte, 0, 1)
    else if t.toNat < 0xB8 then some (.string, 1, t.toNat - 0x80)
    else if t.toNat < 0xC0 then (readSize (t.toNat - 0xB7) b).map fun p => (.string, t.toNat - 0xB7 + 1, p.1)
    else if t.toNat < 0xF8 then some (.list, 1, t.toNat - 0xC0)
    else (readSize (t.toNat - 0xF7) b).map fun p => (.list, t.toNat - 0xF7 + 1, p.1)

theorem Kind.tag_le (k : Kind) : k.tag ≤ 0xC0 := by cases k <;> decide

section Header

variable {k : Kind} {n size : ℕ} {b rest : Bytes}

theorem header_byte {x : UInt8} (h : x < 0x80) (rest : Bytes) : header (x :: rest) = some (.byte, 0, 1) :=
  if_pos (UInt8.lt_iff_toNat_lt.mp h)

theorem header_head (hk : k ≠ .byte) (hsize : size < 2 ^ 64) (rest : Bytes) :
    header (head k.tag size ++ rest) = some (k, (head k.tag size).length, size) := by
  by_cases hshort : size < 56
  · obtain ⟨t, hhead, ht⟩ := head_short k.tag_le hshort
    rw [hhead, singleton_append, header]
    cases k with
    | byte => exact absurd rfl hk
    | string =>
      simp only [Kind.tag] at ht
      rw [if_neg (by omega), if_pos (by omega), ht, Nat.add_sub_cancel_left]
      rfl
    | list =>
      simp only [Kind.tag] at ht
      rw [if_neg (by omega), if_neg (by omega), if_neg (by omega), if_pos (by omega), ht, Nat.add_sub_cancel_left]
      rfl
  · obtain ⟨t, d, hhead, ht, hpos, hlen, hzero, hd⟩ := head_long k.tag_le (not_lt.mp hshort) hsize
    have hread : readSize d.length (d ++ rest) = some (size, rest) :=
      readSize_eq_some.mpr ⟨d, rfl, rfl, hzero, not_lt.mp hshort, hd⟩
    rw [hhead, cons_append, header]
    cases k with
    | byte => exact absurd rfl hk
    | string =>
      simp only [Kind.tag] at ht
      rw [if_neg (by omega), if_neg (by omega), if_pos (by omega), show t.toNat - 0xB7 = d.length by omega, hread]
      rfl
    | list =>
      simp only [Kind.tag] at ht
      rw [if_neg (by omega), if_neg (by omega), if_neg (by omega), if_neg (by omega),
        show t.toNat - 0xF7 = d.length by omega, hread]
      rfl

theorem head_of_readSize {tag : ℕ} {t : UInt8} (ht : t.toNat = tag + 55 + n) (hn : n ≤ 8)
    (h : (readSize n b).map (fun p => (k, n + 1, p.1)) = some (k, n + 1, size)) :
    size < 2 ^ 64 ∧ n + 1 = (head tag size).length ∧ ∃ rest, t :: b = head tag size ++ rest := by
  obtain ⟨⟨size', rest⟩, hread, heq⟩ := map_eq_some_iff.mp h
  cases heq
  obtain ⟨d, rfl, rfl, hzero, hsize, rfl⟩ := readSize_eq_some.mp hread
  have hlt : beNat d < 2 ^ 64 :=
    calc beNat d < 256 ^ d.length := beNat_lt _
      _ ≤ 256 ^ 8 := Nat.pow_le_pow_right (by norm_num) hn
      _ = 2 ^ 64 := by norm_num
  rw [head_of_long ht hzero hsize]
  exact ⟨hlt, rfl, rest, rfl⟩

theorem eq_of_header (h : header b = some (k, n, size)) :
    (k = .byte ∧ n = 0 ∧ size = 1 ∧ ∃ x rest, b = x :: rest ∧ x < 0x80) ∨
      k ≠ .byte ∧ size < 2 ^ 64 ∧ n = (head k.tag size).length ∧ ∃ rest, b = head k.tag size ++ rest := by
  cases b with
  | nil => cases h
  | cons t b =>
    have hlt := t.toNat_lt
    rw [header] at h
    split_ifs at h with hbyte hshort hstring hlong
    · cases h
      exact .inl ⟨rfl, rfl, rfl, t, b, rfl, UInt8.lt_iff_toNat_lt.mpr hbyte⟩
    · cases h
      have hhead : head 0x80 (t.toNat - 0x80) = [t] := head_of_short (not_lt.mp hbyte) (by omega)
      exact .inr ⟨by decide, by omega, (congrArg length hhead).symm, b, by simp [Kind.tag, hhead]⟩
    · obtain ⟨p, -, heq⟩ := map_eq_some_iff.mp h
      cases heq
      exact .inr ⟨by decide, head_of_readSize (by simp only [Kind.tag]; omega) (by omega) h⟩
    · cases h
      have hhead : head 0xC0 (t.toNat - 0xC0) = [t] := head_of_short (by omega) (by omega)
      exact .inr ⟨by decide, by omega, (congrArg length hhead).symm, b, by simp [Kind.tag, hhead]⟩
    · obtain ⟨p, -, heq⟩ := map_eq_some_iff.mp h
      cases heq
      exact .inr ⟨by decide, head_of_readSize (by simp only [Kind.tag]; omega) (by omega) h⟩

end Header

/-- What stands in front of the content. -/
def Value.front (v : Value) : Bytes := if v.kind = .byte then [] else head v.kind.tag v.content.length

theorem Value.encode_eq (v : Value) : v.encode = v.front ++ v.content := by
  cases v with
  | string =>
    rw [encode, front, kind]
    split_ifs <;> simp_all [content, Kind.tag]
  | list => simp [encode, front, kind, content, Kind.tag]

theorem Value.isSmall_content (h : v.kind = .string) : isSmall v.content = false := by
  cases v with
  | string =>
    rw [kind] at h
    split_ifs at h with hsmall
    exact Bool.eq_false_iff.mpr hsmall
  | list => cases h

theorem Value.value_kind (v : Value) : v.kind.value v.content = v := by
  cases v with
  | string =>
    rw [kind]
    split_ifs <;> rfl
  | list => rfl

open Value (kind encode_eq front)

theorem header_encode (v : Value) (h : v.content.length < 2 ^ 64) (rest : Bytes) :
    header (v.encode ++ rest) = some (v.kind, v.front.length, v.content.length) := by
  by_cases hk : v.kind = .byte
  · match v, hk with
    | .string [x], hk =>
      have hx : x < 0x80 := by simpa [kind, isSmall] using hk
      rw [encode_eq, front, if_pos hk, hk]
      exact header_byte hx rest
  · rw [encode_eq, front, if_neg hk, append_assoc]
    exact header_head hk h _

/-- A header and its content are those of a value, unless a single byte has a header that it does not need. -/
theorem value_iff {k : Kind} :
    header b = some (k, n, size) ∧ takeExact size (b.drop n) = some (c, rest) ∧ ¬ (k = .string ∧ isSmall c) ↔
      ∃ v : Value, v.content.length < 2 ^ 64 ∧ b = v.encode ++ rest ∧ v.kind = k ∧ v.front.length = n ∧
        v.content = c ∧ c.length = size := by
  constructor
  · rintro ⟨hheader, htake, hcanon⟩
    obtain ⟨rfl, hb⟩ := takeExact_eq_some.mp htake
    rcases eq_of_header hheader with ⟨rfl, rfl, hsize, x, rest', rfl, hx⟩ | ⟨hk, hsize, rfl, rest', rfl⟩
    · obtain ⟨y, rfl⟩ := length_eq_one_iff.mp hsize
      cases hb
      have hsmall : isSmall [x] = true := by simpa [isSmall] using hx
      exact ⟨.string [x], by simp [Value.content], by simp [Value.encode, hsmall], by simp [kind, hsmall],
        by simp [front, kind, hsmall], rfl, rfl⟩
    · rw [drop_left] at hb
      subst hb
      have hkind : (k.value c).kind = k := by
        cases k with
        | byte => exact absurd rfl hk
        | string => simpa [Kind.value, kind] using hcanon
        | list => rfl
      have hcontent : (k.value c).content = c := by cases k <;> rfl
      have hfront : (k.value c).front = head k.tag c.length := by rw [front, hkind, hcontent, if_neg hk]
      refine ⟨k.value c, by rwa [hcontent], ?_, hkind, by rw [hfront], hcontent, rfl⟩
      rw [encode_eq, hfront, hcontent, append_assoc]
  · rintro ⟨v, hlen, rfl, rfl, rfl, rfl, rfl⟩
    refine ⟨header_encode v hlen rest, takeExact_eq_some.mpr ⟨rfl, ?_⟩, fun h => ?_⟩
    · rw [encode_eq, append_assoc, drop_left]
    · rw [Value.isSmall_content h.1] at h
      cases h.2

theorem readContent_eq {tag : ℕ} {t : UInt8} (ht : t.toNat = tag + 55 + n) (hn : 0 < n) (k : Kind) (b : Bytes) :
    readContent tag t b = ((readSize n b).map fun p => (k, n + 1, p.1)).bind fun p =>
      takeExact p.2.2 ((t :: b).drop p.2.1) := by
  rw [readContent, if_neg (by omega), show t.toNat - tag - 55 = n by omega]
  cases hread : readSize n b with
  | none => rfl
  | some =>
    obtain ⟨d, rfl, rfl, -⟩ := readSize_eq_some.mp hread
    simp

theorem split_eq (b : Bytes) : split b = (header b).bind fun p => (takeExact p.2.2 (b.drop p.2.1)).bind fun q =>
    if p.1 = .string ∧ isSmall q.1 then none else some (p.1.value q.1, q.2) := by
  cases b with
  | nil => rfl
  | cons t b =>
    have hlt := t.toNat_lt
    simp only [split, header, UInt8.lt_iff_toNat_lt, UInt8.reduceToNat]
    split_ifs with hbyte hstring hshort hlong hlong
    · rfl
    · rw [readContent, if_pos (by omega)]
      simp [Kind.value]
    · rw [readContent_eq (n := t.toNat - 0xB7) (by omega) (by omega) .string]
      cases readSize (t.toNat - 0xB7) b <;> simp [Kind.value]
    · omega
    · rw [readContent, if_pos (by omega)]
      simp [Kind.value, map_eq_bind]
    · rw [readContent_eq (n := t.toNat - 0xF7) (by omega) (by omega) .list]
      cases readSize (t.toNat - 0xF7) b <;> simp [Kind.value, map_eq_bind]

theorem split_eq_some : split b = some (v, rest) ↔ v.content.length < 2 ^ 64 ∧ b = v.encode ++ rest := by
  simp only [split_eq, bind_eq_some_iff, Prod.exists]
  constructor
  · rintro ⟨k, n, size, hheader, c, rest', htake, h⟩
    split_ifs at h with hcanon
    cases h
    obtain ⟨w, hlen, hb, rfl, -, rfl, -⟩ := value_iff.mp ⟨hheader, htake, hcanon⟩
    rw [w.value_kind]
    exact ⟨hlen, hb⟩
  · intro h
    obtain ⟨hheader, htake, hcanon⟩ := value_iff.mpr ⟨v, h.1, h.2, rfl, rfl, rfl, rfl⟩
    refine ⟨_, _, _, hheader, _, rest, htake, ?_⟩
    rw [if_neg hcanon, v.value_kind]

theorem split_encode (v : Value) (h : v.encode.length < 2 ^ 64) (rest : Bytes) :
    split (v.encode ++ rest) = some (v, rest) :=
  split_eq_some.mpr ⟨v.length_content_le.trans_lt h, rfl⟩

theorem encode_of_split (h : split b = some (v, rest)) : b = v.encode ++ rest :=
  (split_eq_some.mp h).2

theorem Value.encode_append_inj {w : Value} (hv : v.content.length < 2 ^ 64) (hw : w.content.length < 2 ^ 64)
    (h : v.encode ++ b = w.encode ++ c) : v = w ∧ b = c := by
  have hsplit : split (v.encode ++ b) = some (v, b) := split_eq_some.mpr ⟨hv, rfl⟩
  rw [h, split_eq_some.mpr ⟨hw, rfl⟩] at hsplit
  obtain ⟨rfl, rfl⟩ := Prod.mk.inj (some.inj hsplit)
  exact ⟨rfl, rfl⟩

/-! ### Codecs -/

/-- Values written and read at the front of a byte string. -/
structure Codec (α : Type) where
  enc : α → Bytes
  dec : Bytes → Option (α × Bytes)
  enc_ne_nil : ∀ a, enc a ≠ []
  dec_enc : ∀ a rest, (enc a).length < 2 ^ 64 → dec (enc a ++ rest) = some (a, rest)
  enc_of_dec : ∀ {b a rest}, dec b = some (a, rest) → b = enc a ++ rest

/-- Values written and read as a whole byte string. -/
structure Body (α : Type) where
  enc : α → Bytes
  dec : Bytes → Option α
  dec_enc : ∀ a, (enc a).length < 2 ^ 64 → dec (enc a) = some a
  enc_of_dec : ∀ {b a}, dec b = some a → b = enc a

variable {α β : Type}

theorem Body.enc_inj (c : Body α) {a a' : α} (h : (c.enc a).length < 2 ^ 64) (heq : c.enc a = c.enc a') : a = a' := by
  have hback := c.dec_enc a' (heq ▸ h)
  rw [← heq, c.dec_enc a h] at hback
  exact some.inj hback

namespace Codec

/-- Exactly one value. -/
def whole (c : Codec α) : Body α where
  enc := c.enc
  dec b := (c.dec b).bind fun p => if p.2 = [] then some p.1 else none
  dec_enc a h := by
    have hdec := c.dec_enc a [] h
    rw [append_nil] at hdec
    rw [hdec, bind_some, if_pos rfl]
  enc_of_dec := by
    intro b a h
    obtain ⟨⟨a', rest⟩, hdec, hguard⟩ := bind_eq_some_iff.mp h
    split_ifs at hguard with hrest
    cases hguard
    simp only [] at hrest
    rw [c.enc_of_dec hdec, hrest, append_nil]

/-- One value after the other. -/
def prod (c : Codec α) (d : Codec β) : Codec (α × β) where
  enc p := c.enc p.1 ++ d.enc p.2
  dec b := (c.dec b).bind fun p => (d.dec p.2).map fun q => ((p.1, q.1), q.2)
  enc_ne_nil p := by simp [c.enc_ne_nil]
  dec_enc p rest h := by
    rw [length_append] at h
    rw [append_assoc, c.dec_enc _ _ (by omega), bind_some, d.dec_enc _ _ (by omega)]
    rfl
  enc_of_dec := by
    intro b p rest h
    obtain ⟨⟨a, b'⟩, ha, hd⟩ := bind_eq_some_iff.mp h
    obtain ⟨⟨a', b''⟩, ha', heq⟩ := map_eq_some_iff.mp hd
    cases heq
    replace ha' : d.dec b' = some (a', b'') := ha'
    rw [c.enc_of_dec ha, d.enc_of_dec ha', append_assoc]

/-- The values of `β` that are among those of `α`. -/
def refine (c : Codec α) (f : α → Option β) (g : β → α) (hfg : ∀ b, f (g b) = some b)
    (hgf : ∀ a b, f a = some b → g b = a) : Codec β where
  enc b := c.enc (g b)
  dec b := (c.dec b).bind fun p => (f p.1).map fun x => (x, p.2)
  enc_ne_nil b := c.enc_ne_nil _
  dec_enc b rest h := by
    rw [c.dec_enc _ _ h, bind_some, hfg]
    rfl
  enc_of_dec := by
    intro b x rest h
    obtain ⟨⟨a, b'⟩, ha, hf⟩ := bind_eq_some_iff.mp h
    obtain ⟨y, hy, heq⟩ := map_eq_some_iff.mp hf
    cases heq
    rw [hgf _ _ hy]
    exact c.enc_of_dec ha

/-- The values up to the end; every one of them takes a byte at least, which bounds their number. -/
def decMany (c : Codec α) : ℕ → Bytes → Option (List α)
  | _, [] => some []
  | 0, _ :: _ => none
  | fuel + 1, b => (c.dec b).bind fun p => (decMany c fuel p.2).map (p.1 :: ·)

theorem decMany_enc (c : Codec α) (l : List α) {fuel : ℕ} (h : (l.flatMap c.enc).length ≤ fuel)
    (hlen : (l.flatMap c.enc).length < 2 ^ 64) : decMany c fuel (l.flatMap c.enc) = some l := by
  induction l generalizing fuel with
  | nil => cases fuel <;> rfl
  | cons a l ih =>
    have hpos := length_pos_iff.mpr (c.enc_ne_nil a)
    rw [flatMap_cons, length_append] at h hlen
    obtain ⟨fuel, rfl⟩ : ∃ n, fuel = n + 1 := ⟨fuel - 1, by omega⟩
    obtain ⟨x, w, hw⟩ := exists_cons_of_ne_nil (c.enc_ne_nil a)
    have hdec := c.dec_enc a (l.flatMap c.enc) (by omega)
    rw [flatMap_cons]
    rw [hw, cons_append] at hdec ⊢
    rw [decMany, hdec, bind_some, ih (by omega) (by omega)]
    · rfl
    · simp

theorem enc_of_decMany (c : Codec α) {fuel : ℕ} {b : Bytes} {l : List α}
    (h : decMany c fuel b = some l) : b = l.flatMap c.enc := by
  induction fuel generalizing b l with
  | zero =>
    cases b with
    | nil =>
      cases h
      rfl
    | cons => cases h
  | succ fuel ih =>
    cases b with
    | nil =>
      cases h
      rfl
    | cons =>
      rw [decMany] at h
      · obtain ⟨⟨a, rest⟩, ha, hmany⟩ := bind_eq_some_iff.mp h
        obtain ⟨l', hl', rfl⟩ := map_eq_some_iff.mp hmany
        replace hl' : decMany c fuel rest = some l' := hl'
        rw [c.enc_of_dec ha, ih hl', flatMap_cons]
      · simp

def many (c : Codec α) : Body (List α) where
  enc l := l.flatMap c.enc
  dec b := decMany c b.length b
  dec_enc l h := decMany_enc c l le_rfl h
  enc_of_dec := enc_of_decMany c

end Codec

/-- A body as the payload of a list. -/
def Body.list (c : Body α) : Codec α where
  enc a := (Value.list (c.enc a)).encode
  dec b := (split b).bind fun
    | (.list payload, rest) => (c.dec payload).map (·, rest)
    | (.string _, _) => none
  enc_ne_nil a := Value.encode_ne_nil _
  dec_enc a rest h := by
    have hlen := lt_of_le_of_lt (Value.length_content_le (.list (c.enc a))) h
    rw [split_encode _ h, bind_some]
    simp only [c.dec_enc a hlen, map_some]
  enc_of_dec := by
    intro b a rest h
    obtain ⟨⟨v, rest'⟩, hsplit, hbody⟩ := bind_eq_some_iff.mp h
    cases v with
    | string => cases hbody
    | list =>
      obtain ⟨a', ha', heq⟩ := map_eq_some_iff.mp hbody
      cases heq
      rw [encode_of_split hsplit, c.enc_of_dec ha']

def string : Codec Bytes where
  enc b := (Value.string b).encode
  dec b := (split b).bind fun
    | (.string content, rest) => some (content, rest)
    | (.list _, _) => none
  enc_ne_nil b := Value.encode_ne_nil _
  dec_enc b rest h := by
    rw [split_encode _ h]
    rfl
  enc_of_dec := by
    intro b a rest h
    obtain ⟨⟨v, rest'⟩, hsplit, hstring⟩ := bind_eq_some_iff.mp h
    cases v with
    | string =>
      obtain ⟨rfl, rfl⟩ := Prod.mk.inj (some.inj hstring)
      exact encode_of_split hsplit
    | list => cases hstring

/-- An array of `n` bytes, as the number that they write. -/
def byteArray (n : ℕ) : Codec (BitVec (8 * n)) :=
  string.refine (fun b => if b.length = n then some (BitVec.ofNat _ (beNat b)) else none) (fun v => bePadded n v.toNat)
    (by
      intro v
      have hlt : v.toNat < 256 ^ n := by
        have := v.isLt
        rwa [pow_mul] at this
      rw [length_bePadded, if_pos rfl, beNat_bePadded hlt, BitVec.ofNat_toNat, BitVec.setWidth_eq])
    (by
      intro b v h
      split_ifs at h with hlen
      cases h
      have hlt : beNat b < 2 ^ (8 * n) := by
        have := beNat_lt b
        rwa [hlen, show (256 : ℕ) = 2 ^ 8 by norm_num, ← pow_mul] at this
      rw [BitVec.toNat_ofNat, Nat.mod_eq_of_lt hlt, ← hlen]
      exact bePadded_beNat b)

/-- A number, without leading zeros. -/
def bigInt : Codec ℕ :=
  string.refine (fun b => if b.head? = some 0 then none else some (beNat b)) beBytes (by
      intro n
      rw [if_neg (head?_beBytes n), beNat_beBytes])
    (by
      intro b n h
      split_ifs at h with hzero
      cases h
      exact beBytes_beNat hzero)

end GoWanchain.Rlp
