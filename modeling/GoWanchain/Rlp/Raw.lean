import GoWanchain.Rlp.Reading

/-!
# Splitting without decoding

`rlp/raw.go` has a second parser of RLP, which works on byte slices: `Split` yields the first value of a slice, and
`CountValues` how many there are. Both read the same format as the stream does (`toOption_split`), with one defect:
`readKind` looks at the byte behind the tag `0x81` before it has checked that there is one. An index or slice that is
out of range is the error `panic`.
-/

namespace GoWanchain.Rlp.Raw

/-! ### The source -/

def slice (b : Bytes) (i j : ℕ) : Except Err Bytes :=
  if i ≤ j ∧ j ≤ b.length then .ok ((b.drop i).take (j - i)) else .error .panic

def index (b : Bytes) (i : ℕ) : Except Err UInt8 :=
  match b[i]? with
  | some x => .ok x
  | none => .error .panic

/-- `readSize`, of a size of 1 to 8 bytes. -/
def readSize (b : Bytes) (slen : ℕ) : Except Err ℕ :=
  if b.length < slen then .error .unexpectedEOF
  else
    let s := beNat (b.take slen)
    if s < 56 then .error .canonSize
    else do
      -- sizes with leading zero bytes
      let x ← index b 0
      if x = 0 then .error .canonSize else .ok s

/-- The kind, and the sizes of the tag and the content, that the first byte tells. -/
def readTag (b : UInt8) (buf : Bytes) : Except Err (Kind × ℕ × ℕ) :=
  if b < 0x80 then .ok (.byte, 0, 1)
  else if b < 0xB8 then do
    -- reject strings that should have been single bytes
    if b = 0x81 then
      let x ← index buf 1
      if x < 128 then .error .canonSize else .ok (.string, 1, 1)
    else .ok (.string, 1, b.toNat - 0x80)
  else if b < 0xC0 then do
    let size ← readSize (buf.drop 1) (b.toNat - 0xB7)
    return (.string, b.toNat - 0xB7 + 1, size)
  else if b < 0xF8 then .ok (.list, 1, b.toNat - 0xC0)
  else do
    let size ← readSize (buf.drop 1) (b.toNat - 0xF7)
    return (.list, b.toNat - 0xF7 + 1, size)

/-- Values larger than the input slice are rejected. -/
def checkSize (buf : Bytes) (tag : Kind × ℕ × ℕ) : Except Err (Kind × ℕ × ℕ) :=
  if buf.length - tag.2.1 < tag.2.2 then .error .valueTooLarge else .ok tag

def readKind (buf : Bytes) : Except Err (Kind × ℕ × ℕ) :=
  match buf with
  | [] => .error .unexpectedEOF
  | b :: _ => readTag b buf >>= checkSize buf

/-- The content of a value, and what follows it. -/
def cut (b : Bytes) (tag : Kind × ℕ × ℕ) : Except Err (Kind × Bytes × Bytes) := do
  let content ← slice b tag.2.1 (tag.2.1 + tag.2.2)
  let rest ← slice b (tag.2.1 + tag.2.2) b.length
  return (tag.1, content, rest)

def split (b : Bytes) : Except Err (Kind × Bytes × Bytes) := readKind b >>= cut b

def splitString (b : Bytes) : Except Err (Bytes × Bytes) := do
  let (k, content, rest) ← split b
  if k = .list then .error .expectedString else .ok (content, rest)

def splitList (b : Bytes) : Except Err (Bytes × Bytes) := do
  let (k, content, rest) ← split b
  if k ≠ .list then .error .expectedList else .ok (content, rest)

/-- The loop of `CountValues`, for some rounds, when `i` values were counted. -/
def countLoop : ℕ → ℕ → Bytes → Except Err ℕ
  | _, i, [] => .ok i
  | 0, _, _ => .error .fuel
  | rounds + 1, i, b => do
    let (_, tagsize, size) ← readKind b
    let rest ← slice b (tagsize + size) b.length
    countLoop rounds (i + 1) rest

/-- `CountValues`. Every value has a byte at least. -/
def countValues (b : Bytes) : Except Err ℕ := countLoop b.length 0 b

/-! ### The values that are split off -/

/-- The errors that `readKind` returns. -/
def OfInput (e : Err) : Prop := e = .unexpectedEOF ∨ e = .canonSize ∨ e = .valueTooLarge

theorem not_ofInput_panic : ¬ OfInput .panic := by
  rintro (h | h | h) <;> cases h

theorem not_ofInput_fuel : ¬ OfInput .fuel := by
  rintro (h | h | h) <;> cases h

/-- The result of a step, which is an error of the input if there is none. -/
def Agrees {α β : Type} (x : Except Err α) (o : Option β) (f : β → α) : Prop :=
  match o with
  | some b => x = .ok (f b)
  | none => ∃ e, OfInput e ∧ x = .error e

variable {n : ℕ} {b rest : Bytes} {v : Value}

theorem agrees_readSize (b : Bytes) (hn : 0 < n) : Agrees (readSize b n) (Rlp.readSize n b) Prod.fst := by
  rw [readSize, Rlp.readSize, takeExact]
  by_cases hlen : b.length < n
  · rw [if_pos hlen, if_pos hlen]
    exact ⟨_, .inl rfl, rfl⟩
  · obtain ⟨x, b', rfl⟩ : ∃ x b', b = x :: b' := List.exists_cons_of_length_pos (by omega)
    have hindex : index (x :: b') 0 = .ok x := rfl
    have hhead : ((x :: b').take n).head? = some x := by
      rw [List.head?_take, if_neg (by omega)]
      rfl
    simp only [if_neg hlen, Option.bind_some, hhead, hindex, ok_bind, Option.some.injEq]
    split_ifs with hsmall hcanon hx hcanon hcanon
    · exact ⟨_, .inr (.inl rfl), rfl⟩
    · exact absurd (.inr hsmall) hcanon
    · exact ⟨_, .inr (.inl rfl), rfl⟩
    · exact absurd (.inl hx) hcanon
    · exact absurd hcanon (not_or.mpr ⟨hx, hsmall⟩)
    · rfl

theorem agrees_long (k : Kind) (buf : Bytes) (hn : 0 < n) : Agrees (do
    let size ← readSize buf n
    return (k, n + 1, size)) ((Rlp.readSize n buf).map fun p => (k, n + 1, p.1)) id := by
  have h := agrees_readSize buf hn
  cases hread : Rlp.readSize n buf with
  | none =>
    rw [hread] at h
    obtain ⟨e, he, heq⟩ := h
    exact ⟨e, he, by rw [heq]; rfl⟩
  | some p =>
    rw [hread] at h
    rw [show readSize buf n = .ok p.1 from h]
    rfl

theorem agrees_readTag {t : UInt8} (ht : t ≠ 0x81) (buf : Bytes) :
    Agrees (readTag t (t :: buf)) (header (t :: buf)) id := by
  have hlt := t.toNat_lt
  simp only [readTag, header, UInt8.lt_iff_toNat_lt, UInt8.reduceToNat, if_neg ht, List.drop_one, List.tail_cons]
  split_ifs
  · rfl
  · rfl
  · generalize hn : t.toNat - 0xB7 = n
    exact agrees_long .string buf (by omega)
  · rfl
  · generalize hn : t.toNat - 0xF7 = n
    exact agrees_long .list buf (by omega)

/-- What `readKind` comes to: the value at the front, or an error. It panics on the tag `0x81` alone. -/
def Delimits (b : Bytes) : Prop :=
  match Rlp.split b with
  | some (v, _) => readKind b = .ok (v.kind, v.front.length, v.content.length)
  | none => ∃ e, (OfInput e ∨ e = .panic ∧ b = [0x81]) ∧ readKind b = .error e

theorem delimits_of_readTag {t : UInt8} {buf : Bytes} {k : Kind} {size : ℕ}
    (htag : readTag t (t :: buf) = .ok (k, n, size)) (hheader : header (t :: buf) = some (k, n, size))
    (hsmall : ∀ c rest, takeExact size ((t :: buf).drop n) = some (c, rest) → ¬ (k = .string ∧ isSmall c)) :
    Delimits (t :: buf) := by
  have hrun : readKind (t :: buf) = checkSize (t :: buf) (k, n, size) := by
    rw [readKind, htag]
    rfl
  by_cases hlarge : (t :: buf).length - n < size
  · have htake : takeExact size ((t :: buf).drop n) = none := by rw [takeExact, List.length_drop, if_pos hlarge]
    rw [Delimits, split_eq, hheader, Option.bind_some, htake]
    exact ⟨_, .inl (.inr (.inr rfl)), by rw [hrun, checkSize, if_pos hlarge]⟩
  · have htake : takeExact size ((t :: buf).drop n) =
        some (((t :: buf).drop n).take size, ((t :: buf).drop n).drop size) := by
      rw [takeExact, List.length_drop, if_neg hlarge]
    obtain ⟨v, hlen, hb, rfl, rfl, hc, hsize⟩ := value_iff.mp ⟨hheader, htake, hsmall _ _ htake⟩
    rw [Delimits, split_eq_some.mpr ⟨hlen, hb⟩, hrun, checkSize, if_neg hlarge, ← hsize, ← hc]

theorem delimits (b : Bytes) : Delimits b := by
  match b with
  | [] => exact ⟨_, .inl (.inl rfl), rfl⟩
  | t :: buf =>
    by_cases ht : t = 0x81
    · subst ht
      match buf with
      | [] => exact ⟨_, .inr ⟨rfl, rfl⟩, rfl⟩
      | x :: buf =>
        -- the only string that is to be checked for a single byte
        by_cases hx : x < 128
        · have hsplit : Rlp.split (0x81 :: x :: buf) = none := by
            have hsmall : isSmall [x] = true := by simpa [isSmall] using hx
            simp [split_eq, header, takeExact, hsmall]
          have htag : readTag 0x81 (0x81 :: x :: buf) = .error .canonSize := if_pos hx
          rw [Delimits, hsplit]
          exact ⟨_, .inl (.inr (.inl rfl)), by rw [readKind, htag]; rfl⟩
        · have htag : readTag 0x81 (0x81 :: x :: buf) = .ok (.string, 1, 1) := if_neg hx
          refine delimits_of_readTag htag rfl fun c rest htake hsmall => hx ?_
          cases htake
          simpa [isSmall] using hsmall.2
    · have h := agrees_readTag ht buf
      cases hheader : header (t :: buf) with
      | none =>
        rw [hheader] at h
        obtain ⟨e, he, heq⟩ := h
        rw [Delimits, split_eq, hheader]
        exact ⟨e, .inl he, by rw [readKind, heq]; rfl⟩
      | some p =>
        rw [hheader] at h
        refine delimits_of_readTag (show readTag t (t :: buf) = .ok (p.1, p.2.1, p.2.2) from h) hheader ?_
        rintro c rest htake ⟨hk, hsmall⟩
        have hone : p.2.2 = 1 := by
          rw [← (takeExact_eq_some.mp htake).1]
          by_contra hne
          rw [isSmall_eq_false_of_length hne] at hsmall
          cases hsmall
        rcases eq_of_header hheader with ⟨hbyte, -⟩ | ⟨-, -, -, rest', hb⟩
        · cases hk.symm.trans hbyte
        · rw [hk, hone] at hb
          exact ht (List.cons.inj hb).1

/-! ### Splitting -/

theorem slice_eq {i j : ℕ} (hi : i ≤ j) (hj : j ≤ b.length) :
    slice b i j = .ok ((b.drop i).take (j - i)) := if_pos ⟨hi, hj⟩

theorem split_of_encode (h : v.content.length < 2 ^ 64) (rest : Bytes) :
    split (v.encode ++ rest) = .ok (v.kind, v.content, rest) := by
  have hread := delimits (v.encode ++ rest)
  rw [Delimits, split_eq_some.mpr ⟨h, rfl⟩] at hread
  rw [split, hread, ok_bind, cut, v.encode_eq, slice_eq (by simp) (by simp), ok_bind, slice_eq (by simp) le_rfl]
  simp [Nat.add_sub_add_left, pure, Except.pure]

theorem split_eq_error (h : Rlp.split b = none) : ∃ e, (OfInput e ∨ e = .panic ∧ b = [0x81]) ∧ split b = .error e := by
  have hread := delimits b
  rw [Delimits, h] at hread
  obtain ⟨e, he, heq⟩ := hread
  exact ⟨e, he, by rw [split, heq]; rfl⟩

theorem split_eq_ok {k : Kind} {content : Bytes} : split b = .ok (k, content, rest) ↔
    ∃ v : Value, v.content.length < 2 ^ 64 ∧ b = v.encode ++ rest ∧ v.kind = k ∧ v.content = content := by
  constructor
  · intro h
    cases hsplit : Rlp.split b with
    | none =>
      obtain ⟨e, -, he⟩ := split_eq_error hsplit
      rw [he] at h
      cases h
    | some p =>
      obtain ⟨hlen, rfl⟩ := split_eq_some.mp hsplit
      rw [split_of_encode hlen] at h
      cases h
      exact ⟨p.1, hlen, rfl, rfl, rfl⟩
  · rintro ⟨v, hlen, rfl, rfl, rfl⟩
    exact split_of_encode hlen rest

theorem split_eq_panic : split b = .error .panic ↔ b = [0x81] := by
  constructor
  · intro h
    cases hsplit : Rlp.split b with
    | none =>
      obtain ⟨e, he, heq⟩ := split_eq_error hsplit
      rw [h] at heq
      cases heq
      exact (he.resolve_left not_ofInput_panic).2
    | some =>
      obtain ⟨hlen, rfl⟩ := split_eq_some.mp hsplit
      rw [split_of_encode hlen] at h
      cases h
  · rintro rfl
    rfl

theorem splitString_eq_panic : splitString b = .error .panic ↔ b = [0x81] := by
  rw [← split_eq_panic, splitString]
  cases split b with
  | error => simp [bind, Except.bind]
  | ok =>
    show ite _ _ _ = _ ↔ _
    split_ifs <;> simp

theorem splitList_eq_panic : splitList b = .error .panic ↔ b = [0x81] := by
  rw [← split_eq_panic, splitList]
  cases split b with
  | error => simp [bind, Except.bind]
  | ok =>
    show ite _ _ _ = _ ↔ _
    split_ifs <;> simp

/-! ### Counting -/

theorem countLoop_succ (hb : b ≠ []) (rounds i : ℕ) :
    countLoop (rounds + 1) i b = split b >>= fun p => countLoop rounds (i + 1) p.2.2 := by
  have hstep : countLoop (rounds + 1) i b = (readKind b >>= fun p =>
      slice b (p.2.1 + p.2.2) b.length >>= countLoop rounds (i + 1)) := by
    cases b with
    | nil => exact absurd rfl hb
    | cons => rfl
  have hread := delimits b
  rw [hstep]
  cases hsplit : Rlp.split b with
  | none =>
    rw [Delimits, hsplit] at hread
    obtain ⟨e, -, heq⟩ := hread
    rw [split, heq]
    rfl
  | some =>
    rw [Delimits, hsplit] at hread
    obtain ⟨hlen, rfl⟩ := split_eq_some.mp hsplit
    rw [hread, split_of_encode hlen, ok_bind, ok_bind, Value.encode_eq, slice_eq (by simp) le_rfl, ok_bind]
    simp [Nat.add_sub_add_left]

/-- The tag `0x81` is left alone when the values before it are split off. -/
inductive Reaches : Bytes → Prop
  | lone : Reaches [0x81]
  | next {v : Value} (hv : v.content.length < 2 ^ 64) {rest : Bytes} (hrest : Reaches rest) : Reaches (v.encode ++ rest)

theorem split_lone_tag : Rlp.split [0x81] = none := by decide

theorem reaches_iff (hv : v.content.length < 2 ^ 64) : Reaches (v.encode ++ rest) ↔ Reaches rest := by
  refine ⟨fun h => ?_, .next hv⟩
  generalize hb : v.encode ++ rest = b at h
  cases h with
  | lone =>
    have hsplit : Rlp.split [0x81] = some (v, rest) := split_eq_some.mpr ⟨hv, hb.symm⟩
    exact absurd hsplit (by rw [split_lone_tag]; exact nofun)
  | next hw hrest =>
    obtain ⟨-, rfl⟩ := Value.encode_append_inj hv hw hb
    exact hrest

theorem Reaches.ne_nil (h : Reaches b) : b ≠ [] := by
  cases h with
  | lone => simp
  | next => simp [Value.encode_ne_nil]

theorem countLoop_eq_panic {rounds i : ℕ} (h : b.length ≤ rounds) :
    countLoop rounds i b ≠ .error .fuel ∧ (countLoop rounds i b = .error .panic ↔ Reaches b) := by
  induction rounds generalizing i b with
  | zero =>
    obtain rfl := List.length_eq_zero_iff.mp (Nat.le_zero.mp h)
    exact ⟨nofun, nofun, fun hreach => absurd rfl hreach.ne_nil⟩
  | succ rounds ih =>
    by_cases hb : b = []
    · subst hb
      exact ⟨nofun, nofun, fun hreach => absurd rfl hreach.ne_nil⟩
    rw [countLoop_succ hb]
    cases hsplit : Rlp.split b with
    | none =>
      obtain ⟨e, he, heq⟩ := split_eq_error hsplit
      rw [heq]
      refine ⟨?_, ?_, fun hreach => ?_⟩
      · intro hfuel
        cases hfuel
        exact he.elim not_ofInput_fuel fun hpanic => nomatch hpanic.1
      · intro hpanic
        cases hpanic
        rw [(he.resolve_left not_ofInput_panic).2]
        exact .lone
      · cases hreach with
        | lone =>
          rw [split_eq_panic.mpr rfl] at heq
          cases heq
          rfl
        | next hv =>
          rw [split_eq_some.mpr ⟨hv, rfl⟩] at hsplit
          cases hsplit
    | some p =>
      obtain ⟨hlen, rfl⟩ := split_eq_some.mp hsplit
      have hpos := List.length_pos_iff.mpr p.1.encode_ne_nil
      rw [List.length_append] at h
      rw [split_of_encode hlen, ok_bind, reaches_iff hlen]
      exact ih (show p.2.length ≤ rounds by omega)

/-! ### The stream reads the same -/

open GoWanchain.Rlp.Stream

/-- The stream reads a value of this kind and content. -/
def StreamReads (k : Kind) (content : Bytes) (s : Stream) : Prop :=
  (∃ size x u, Rlp.kind s = .ok ((k, size, x), u) ∧ (k ≠ .byte → size = content.length)) ∧
  (k ≠ .list → ∃ s', bytes s = .ok (content, s')) ∧ (k = .list → ∃ s', list s = .ok (content.length, s'))

theorem streamReads_of_encode {s : Stream} (harm : s.ahead = none)
    (hlen : v.content.length < 2 ^ 64) (hw : s.window = v.encode ++ rest) : StreamReads v.kind v.content s := by
  refine ⟨?_, fun hne => ?_, fun hlist => ?_⟩
  · by_cases hk : v.kind = .byte
    · match v, hk with
      | .string [x], hk =>
        have hx : x < 0x80 := by simpa [Value.kind, isSmall] using hk
        rw [encode_byte hx] at hw
        rw [hk]
        exact ⟨_, _, _, kind_byte harm hw hx, fun hne => absurd rfl hne⟩
    · rw [v.encode_eq, Value.front, if_neg hk, List.append_assoc] at hw
      exact ⟨_, _, _, kind_head harm hk hlen hw, fun _ => rfl⟩
  · cases v with
    | string => exact ⟨_, (bytes_eq_ok harm).mpr ⟨hlen, ⟨rest, hw⟩, rfl⟩⟩
    | list => exact absurd rfl hne
  · cases v with
    | string =>
      rw [Value.kind] at hlist
      split_ifs at hlist
    | list => exact ⟨_, list_of_encode harm hlen hw⟩

/-- Splitting is total and agrees with the stream, unless the tag `0x81` is left alone. -/
theorem raw_total_iff (b : Bytes) :
    ((split b ≠ .error .panic ∧ splitString b ≠ .error .panic ∧ splitList b ≠ .error .panic ∧
        countValues b ≠ .error .panic ∧ countValues b ≠ .error .fuel) ∧
      ∀ k content rest, split b = .ok (k, content, rest) → ∃ tag, tag ++ content ++ rest = b ∧
        ∀ (s : Stream) (after : Bytes), s.ahead = none → s.window = tag ++ content ++ after → StreamReads k content s) ↔
      ¬ Reaches b := by
  have hcount := countLoop_eq_panic (i := 0) (Nat.le_refl b.length)
  constructor
  · rintro ⟨⟨-, -, -, hpanic, -⟩, -⟩ hreach
    exact hpanic (hcount.2.mpr hreach)
  · intro hreach
    have hlone : b ≠ [0x81] := by
      rintro rfl
      exact hreach .lone
    refine ⟨⟨?_, ?_, ?_, ?_, ?_⟩, fun k content rest hsplit => ?_⟩
    · exact fun h => hlone (split_eq_panic.mp h)
    · exact fun h => hlone (splitString_eq_panic.mp h)
    · exact fun h => hlone (splitList_eq_panic.mp h)
    · exact fun h => hreach (hcount.2.mp h)
    · exact hcount.1
    · obtain ⟨v, hlen, rfl, rfl, rfl⟩ := split_eq_ok.mp hsplit
      refine ⟨v.front, by rw [v.encode_eq], fun s after harm hw => ?_⟩
      rw [← v.encode_eq] at hw
      exact streamReads_of_encode harm hlen hw

/-- The byte behind the tag is read before the length is checked. -/
theorem split_lone : split [0x81] = .error .panic ∧ splitString [0x81] = .error .panic ∧
    splitList [0x81] = .error .panic ∧ countValues [0x05, 0x81] = .error .panic := by
  refine ⟨split_eq_panic.mpr rfl, splitString_eq_panic.mpr rfl, splitList_eq_panic.mpr rfl, ?_⟩
  have hfive : Reaches [0x05, 0x81] := .next (v := .string [0x05]) (by decide) .lone
  exact (countLoop_eq_panic (i := 0) (Nat.le_refl _)).2.mpr hfive

end GoWanchain.Rlp.Raw
