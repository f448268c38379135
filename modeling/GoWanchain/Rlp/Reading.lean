import GoWanchain.Rlp.Stream

/-!
# What the stream reads

The operations of the stream see its window: what the reader has left, up to the end of the innermost list. Each of them
is described by the value in front of the window. A value that is too long for its list, or for the input, is not in the
window.
-/

namespace GoWanchain.Rlp

open List

namespace Stream

/-- What is left of the innermost list, or of the input. -/
def window (s : Stream) : Bytes :=
  match s.stack with
  | [] => s.r
  | tos :: _ => s.r.take (tos.size - tos.pos)

/-- The list of `size` bytes behind a header of `n` bytes. -/
def opened (s : Stream) (n size : ℕ) : Stream := ⟨s.r.drop n, none, ⟨0, size⟩ :: bump n s.stack⟩

variable {s s' : Stream}

@[simp] theorem window_skip (s : Stream) (n : ℕ) : (s.skip n).window = s.window.drop n := by
  rcases hs : s.stack with - | ⟨tos, stack⟩
  · simp [window, skip, hs, bump]
  · simp [window, skip, hs, bump, drop_take, Nat.sub_sub]

@[simp] theorem skip_skip (s : Stream) (m n : ℕ) : (s.skip m).skip n = s.skip (m + n) := by
  rcases hs : s.stack with - | ⟨tos, stack⟩
  · simp [skip, hs, bump]
  · simp [skip, hs, bump, Nat.add_assoc]

@[simp] theorem skip_zero (s : Stream) : s.skip 0 = s.clear := by
  rcases hs : s.stack with - | ⟨tos, stack⟩
  · simp [skip, clear, hs, bump]
  · simp [skip, clear, hs, bump]

theorem clear_of_ahead (h : s.ahead = none) : s.clear = s := by
  cases s
  cases h
  rfl

theorem not_atEnd (h : s.window ≠ []) : s.atEnd = false := by
  rcases hs : s.stack with - | ⟨tos, stack⟩
  · simp [atEnd, hs]
  · simp only [atEnd, hs, decide_eq_false_iff_not]
    intro hend
    simp [window, hs, hend] at h

end Stream

open GoWanchain.Rlp.Stream

variable {s s' : Stream}

/-! ### Reads -/

variable {n size : ℕ} {b rest : Bytes} {x : UInt8} {k : Kind} {h : Kind × ℕ × UInt8}

theorem willRead_eq_ok {u : Unit} : willRead n s = .ok u ↔ n ≤ s.window.length := by
  simp only [willRead, bind_eq_ok, ensure_eq_ok, exists_const]
  rcases hs : s.stack with - | ⟨tos, stack⟩
  · simp [fitsList, window, hs]
  · simp [fitsList, window, hs]

theorem take_window (h : n ≤ s.window.length) : s.window.take n = s.r.take n := by
  rcases hs : s.stack with - | ⟨tos, stack⟩
  · simp [window, hs]
  · simp only [window, hs, length_take] at h ⊢
    rw [take_take, min_eq_left (by omega)]

theorem readFull_eq_ok :
    readFull n s = .ok (b, s') ↔ b.length = n ∧ (∃ rest, s.window = b ++ rest) ∧ s.skip n = s' := by
  simp only [readFull, bind_eq_ok, willRead_eq_ok, pure_eq_ok, Prod.mk.injEq, exists_const]
  constructor
  · rintro ⟨hn, rfl, rfl⟩
    rw [← take_window hn]
    exact ⟨by simpa using hn, ⟨_, (take_append_drop n _).symm⟩, rfl⟩
  · rintro ⟨rfl, ⟨rest, hw⟩, rfl⟩
    have hn : b.length ≤ s.window.length := by simp [hw]
    exact ⟨hn, by rw [← take_window hn, hw, take_left], rfl⟩

theorem readByte_eq_ok : readByte s = .ok (x, s') ↔ (∃ rest, s.window = x :: rest) ∧ s.skip 1 = s' := by
  simp only [readByte, bind_eq_ok, willRead_eq_ok, pure_eq_ok, Prod.mk.injEq, exists_const]
  constructor
  · rintro ⟨hn, hx, rfl⟩
    obtain ⟨y, rest, hw⟩ := exists_cons_of_length_pos hn
    have htake := take_window hn
    rw [hw] at htake ⊢
    cases hr : s.r with
    | nil => simp [hr] at htake
    | cons => simp_all
  · rintro ⟨⟨rest, hw⟩, rfl⟩
    have hn : 1 ≤ s.window.length := by simp [hw]
    have htake := take_window hn
    rw [hw] at htake
    cases hr : s.r with
    | nil => simp [hr] at htake
    | cons => simp_all

theorem readUint_eq_ok {v : ℕ} : readUint n s = .ok (v, s') ↔
    ∃ d, d.length = n ∧ (∃ rest, s.window = d ++ rest) ∧ (n ≠ 1 → d.head? ≠ some 0) ∧ beNat d = v ∧ s.skip n = s' := by
  match n with
  | 0 =>
    simp only [readUint, pure_eq_ok, Prod.mk.injEq, length_eq_zero_iff, skip_zero]
    constructor
    · rintro ⟨rfl, rfl⟩
      exact ⟨[], rfl, ⟨s.window, rfl⟩, by simp, rfl, rfl⟩
    · rintro ⟨d, rfl, -, -, rfl, rfl⟩
      exact ⟨rfl, rfl⟩
  | 1 =>
    simp only [readUint, bind_eq_ok, Prod.exists, readByte_eq_ok, pure_eq_ok, Prod.mk.injEq]
    constructor
    · rintro ⟨x, u, ⟨⟨rest, hw⟩, rfl⟩, rfl, rfl⟩
      exact ⟨[x], rfl, ⟨rest, hw⟩, by simp, by simp [beNat], rfl⟩
    · rintro ⟨d, hd, ⟨rest, hw⟩, -, rfl, rfl⟩
      obtain ⟨x, rfl⟩ := length_eq_one_iff.mp hd
      exact ⟨x, _, ⟨⟨rest, hw⟩, rfl⟩, by simp [beNat], rfl⟩
  | n + 2 =>
    simp only [readUint, bind_eq_ok, Prod.exists, readFull_eq_ok, ensure_eq_ok, pure_eq_ok, Prod.mk.injEq, exists_const]
    constructor
    · rintro ⟨d, u, ⟨hd, hw, rfl⟩, hzero, rfl, rfl⟩
      exact ⟨d, hd, hw, fun _ => hzero, rfl, rfl⟩
    · rintro ⟨d, hd, hw, hzero, rfl, rfl⟩
      exact ⟨d, _, ⟨hd, hw, rfl⟩, hzero (by omega), rfl, rfl⟩

/-- A number of one byte is not checked for a leading zero, but it is not 0 if it is bounded from below. -/
theorem head?_ne_of_le {d : Bytes} (hpos : 0 < beNat d) (h : d.length ≠ 1 → d.head? ≠ some 0) : d.head? ≠ some 0 := by
  by_cases hone : d.length = 1
  · obtain ⟨x, rfl⟩ := length_eq_one_iff.mp hone
    rintro hzero
    cases hzero
    exact absurd hpos (by decide)
  · exact h hone

theorem readLong_eq_ok : readLong k n s = .ok (h, s') ↔
    ∃ size rest, readSize n s.window = some (size, rest) ∧ h = (k, size, 0) ∧ s.skip n = s' := by
  simp only [readLong, bind_eq_ok, Prod.exists, readUint_eq_ok, ensure_eq_ok, pure_eq_ok, Prod.mk.injEq, exists_const,
    readSize_eq_some]
  constructor
  · rintro ⟨size, u, ⟨d, rfl, ⟨rest, hw⟩, hzero, rfl, rfl⟩, hsize, rfl, rfl⟩
    exact ⟨_, rest, ⟨d, rfl, hw, head?_ne_of_le (by omega) hzero, hsize, rfl⟩, rfl, rfl⟩
  · rintro ⟨size, rest, ⟨d, hd, hw, hzero, hsize, rfl⟩, rfl, rfl⟩
    exact ⟨_, _, ⟨d, hd, ⟨rest, hw⟩, fun _ => hzero, rfl, rfl⟩, hsize, rfl, rfl⟩

/-! ### Headers -/

theorem readKind_eq_ok {h : (Kind × ℕ × UInt8) × Stream} : readKind s = .ok h ↔
    ∃ k n size, header s.window = some (k, n, size) ∧
      (if k = .byte then ((.byte, 0, s.window.headD 0), s.skip 1) else ((k, size, 0), s.skip n)) = h := by
  cases hw : s.window with
  | nil => simp [readKind, readByte_eq_ok, hw, header]
  | cons t b =>
    have hlong {k : Kind} {n : ℕ} (hk : k ≠ .byte) : readLong k n (s.skip 1) = .ok h ↔
        ∃ k' m size, (readSize n b).map (fun p => (k, n + 1, p.1)) = some (k', m, size) ∧
          (if k' = .byte then ((.byte, 0, (t :: b).headD 0), s.skip 1) else ((k', size, 0), s.skip m)) = h := by
      have hb : (s.skip 1).window = b := by simp [hw]
      obtain ⟨h, s'⟩ := h
      simp only [readLong_eq_ok, hb, Option.map_eq_some_iff, Prod.exists, Prod.mk.injEq]
      constructor
      · rintro ⟨size, rest, hread, rfl, rfl⟩
        exact ⟨k, n + 1, size, ⟨size, rest, hread, rfl, rfl, rfl⟩, by simp [hk, Nat.add_comm]⟩
      · rintro ⟨k', m, size, ⟨_, rest, hread, rfl, rfl, rfl⟩, heq⟩
        rw [if_neg hk, Prod.mk.injEq] at heq
        exact ⟨_, rest, hread, heq.1.symm, by rw [skip_skip, Nat.add_comm]; exact heq.2⟩
    have hbyte : readByte s = .ok (t, s.skip 1) := readByte_eq_ok.mpr ⟨⟨b, hw⟩, rfl⟩
    simp only [readKind, hbyte, relabel, ok_bind, header]
    split_ifs
    · simp
    · simp
    · exact hlong (by decide)
    · simp
    · exact hlong (by decide)

/-- The header in front of the stream `s`, and the stream behind it. -/
inductive Heads (s : Stream) : Kind × ℕ × UInt8 → Stream → Prop
  | byte {x : UInt8} {rest : Bytes} (hw : s.window = x :: rest) (hx : x < 0x80) : Heads s (.byte, 0, x) (s.skip 1)
  | header {k : Kind} {size : ℕ} {rest : Bytes} (hk : k ≠ .byte) (hsize : size < 2 ^ 64)
    (hw : s.window = head k.tag size ++ rest) : Heads s (k, size, 0) (s.skip (head k.tag size).length)

theorem readKind_iff : readKind s = .ok (h, s') ↔ Heads s h s' := by
  rw [readKind_eq_ok]
  constructor
  · rintro ⟨k, n, size, hheader, hcase⟩
    rcases eq_of_header hheader with ⟨rfl, -, -, x, rest, hw, hx⟩ | ⟨hk, hsize, rfl, rest, hw⟩
    · rw [if_pos rfl, hw] at hcase
      cases hcase
      exact .byte hw hx
    · rw [if_neg hk] at hcase
      cases hcase
      exact .header hk hsize hw
  · rintro (⟨hw, hx⟩ | ⟨hk, hsize, hw⟩)
    · exact ⟨_, _, _, by rw [hw]; exact header_byte hx _, by simp [hw]⟩
    · exact ⟨_, _, _, by rw [hw]; exact header_head hk hsize _, if_neg hk⟩

theorem checkSize_of_le (h : size ≤ s.window.length) : checkSize size s = .ok () := by
  rcases hs : s.stack with - | ⟨tos, stack⟩
  · simpa [checkSize, hs, window] using h
  · simp only [window, hs, length_take] at h
    simp only [checkSize, hs, ensure_eq_ok, fitsList, decide_eq_true_eq]
    omega

theorem Heads.not_atEnd (hs : Heads s h s') : s.atEnd = false := by
  refine Stream.not_atEnd ?_
  cases hs with
  | byte hw => simp [hw]
  | header _ _ hw => simp [hw, head_ne_nil]

theorem kind_iff (harm : s.ahead = none) : kind s = .ok (h, s') ↔
    ∃ u, Heads s h u ∧ checkSize h.2.1 u = .ok () ∧ { u with ahead := some h } = s' := by
  simp only [kind, harm, bind_eq_ok, ensure_eq_ok, Prod.exists, pure_eq_ok, Prod.mk.injEq, exists_const, readKind_iff]
  constructor
  · rintro ⟨-, k, size, x, u, hheads, _, hcheck, rfl, rfl⟩
    exact ⟨u, hheads, hcheck, rfl⟩
  · rintro ⟨u, hheads, hcheck, rfl⟩
    exact ⟨hheads.not_atEnd, h.1, h.2.1, h.2.2, u, hheads, (), hcheck, rfl, rfl⟩

theorem kind_of_ahead (hs : s.ahead = some h) : kind s = .ok (h, s) := by
  simp only [kind, hs]
  rfl

theorem kind_of_atEnd (harm : s.ahead = none) (h : s.atEnd = true) : kind s = .error .eol := by
  simp only [kind, harm, h]
  rfl

theorem kind_byte (harm : s.ahead = none) (hw : s.window = x :: rest) (hx : x < 0x80) :
    kind s = .ok ((.byte, 0, x), { s.skip 1 with ahead := some (.byte, 0, x) }) :=
  (kind_iff harm).mpr ⟨_, .byte hw hx, checkSize_of_le (Nat.zero_le _), rfl⟩

theorem kind_head (harm : s.ahead = none) (hk : k ≠ .byte) {c : Bytes} (hlen : c.length < 2 ^ 64)
    (hw : s.window = head k.tag c.length ++ (c ++ rest)) : kind s =
      .ok ((k, c.length, 0), { s.skip (head k.tag c.length).length with ahead := some (k, c.length, 0) }) :=
  (kind_iff harm).mpr ⟨_, .header hk hlen hw, checkSize_of_le (by simp [hw]), rfl⟩

/-! ### Values -/

theorem encode_byte (hx : x < 0x80) : (Value.string [x]).encode = [x] := by
  rw [Value.encode, if_pos (by simpa [isSmall] using hx)]

theorem encode_string (h : isSmall b = false) : (Value.string b).encode = head 0x80 b.length ++ b := by
  rw [Value.encode, h]
  rfl

theorem readFull_ahead {c : Bytes} (hw : s.window = head k.tag size ++ rest) :
    readFull size { s.skip (head k.tag size).length with ahead := some h } = .ok (c, s') ↔
      c.length = size ∧ (∃ rest', rest = c ++ rest') ∧ s.skip ((head k.tag size).length + size) = s' := by
  have hwindow : ({ s.skip (head k.tag size).length with ahead := some h } : Stream).window = rest :=
    (window_skip s _).trans (by rw [hw, drop_left])
  have hskip : ({ s.skip (head k.tag size).length with ahead := some h } : Stream).skip size
    = s.skip ((head k.tag size).length + size) := skip_skip s _ _
  rw [readFull_eq_ok, hwindow, hskip]

theorem bytes_eq_ok (harm : s.ahead = none) : bytes s = .ok (b, s') ↔
    b.length < 2 ^ 64 ∧ (∃ rest, s.window = (Value.string b).encode ++ rest) ∧
      s.skip (Value.string b).encode.length = s' := by
  constructor
  · intro h
    simp only [bytes, bind_eq_ok, Prod.exists, kind_iff harm] at h
    obtain ⟨k, size, x, v, ⟨u, hheads, -, rfl⟩, h⟩ := h
    cases hheads with
    | byte hw hx =>
      cases h
      rw [encode_byte hx]
      exact ⟨by simp, ⟨_, hw⟩, rfl⟩
    | header hk hsize hw =>
      cases k with
      | byte => exact absurd rfl hk
      | list => cases h
      | string =>
        simp only [bind_eq_ok, Prod.exists, readFull_ahead hw, ensure_eq_ok, pure_eq_ok, exists_const,
          Prod.mk.injEq] at h
        obtain ⟨c, v, ⟨rfl, ⟨rest, rfl⟩, rfl⟩, hsmall, rfl, rfl⟩ := h
        rw [encode_string hsmall, length_append]
        exact ⟨hsize, ⟨rest, by rw [hw, append_assoc]; rfl⟩, rfl⟩
  · rintro ⟨hlen, ⟨rest, hw⟩, rfl⟩
    cases hsmall : isSmall b with
    | true =>
      obtain ⟨x, rfl, hx⟩ := isSmall_iff.mp hsmall
      rw [encode_byte hx] at hw ⊢
      rw [bytes, kind_byte harm hw hx]
      rfl
    | false =>
      rw [encode_string hsmall, append_assoc] at hw
      rw [encode_string hsmall, length_append]
      have hread := (readFull_ahead (k := .string) (h := (.string, b.length, 0)) hw).mpr ⟨rfl, ⟨rest, rfl⟩, rfl⟩
      rw [bytes, kind_head (k := .string) harm (by decide) hlen hw]
      simp only [ok_bind, hread, hsmall]
      rfl

/-! ### Numbers -/

theorem isSmall_beBytes_iff : isSmall (beBytes n) ↔ 0 < n ∧ n < 128 := by
  have hbyte {x : UInt8} (hb : beBytes n = [x]) : n = x.toNat := by
    rw [← beNat_beBytes n, hb]
    simp [beNat]
  rw [isSmall_iff]
  constructor
  · rintro ⟨x, hb, hx⟩
    have hn := hbyte hb
    have hlt : x.toNat < 128 := UInt8.lt_iff_toNat_lt.mp hx
    refine ⟨Nat.pos_of_ne_zero fun hzero => ?_, by omega⟩
    rw [hzero, beBytes_zero] at hb
    cases hb
  · rintro ⟨hpos, hlt⟩
    have hne : beBytes n ≠ [] := fun hnil => absurd (beBytes_eq_nil.mp hnil) (by omega)
    obtain ⟨x, hb⟩ := length_eq_one_iff.mp (Nat.le_antisymm (length_beBytes_le (by omega)) (length_pos_iff.mpr hne))
    have hn := hbyte hb
    exact ⟨x, hb, UInt8.lt_iff_toNat_lt.mpr (show x.toNat < 128 by omega)⟩

/-! ### Lists -/

theorem list_eq_ok (harm : s.ahead = none) (h : list s = .ok (size, s')) :
    size < 2 ^ 64 ∧ (∃ rest, s.window = head 0xC0 size ++ rest) ∧ s.opened (head 0xC0 size).length size = s' ∧
      checkSize size (s.skip (head 0xC0 size).length) = .ok () := by
  simp only [list, bind_eq_ok, Prod.exists, kind_iff harm, ensure_eq_ok, pure_eq_ok, exists_const, Prod.mk.injEq] at h
  obtain ⟨k, n, x, v, ⟨u, hheads, hcheck, rfl⟩, rfl, rfl, rfl⟩ := h
  cases hheads with
  | header _ hsize hw => exact ⟨hsize, ⟨_, hw⟩, rfl, hcheck⟩

theorem list_of_encode (harm : s.ahead = none) {payload : Bytes} (hlen : payload.length < 2 ^ 64)
    (hw : s.window = (Value.list payload).encode ++ rest) :
    list s = .ok (payload.length, s.opened (head 0xC0 payload.length).length payload.length) := by
  rw [Value.encode, append_assoc] at hw
  rw [list, kind_head (k := .list) harm (by decide) hlen hw]
  rfl

theorem listEnd_eq_ok {m : ℕ} {v w : Stream} (hv : v.clear = (s.opened n size).skip m) :
    listEnd v = .ok w ↔ m = size ∧ s.skip (n + size) = w := by
  have hr : v.r = s.r.drop (n + m) := (congrArg Stream.r hv).trans (by simp [opened, skip])
  have hstack : v.stack = ⟨m, size⟩ :: bump n s.stack :=
    (congrArg Stream.stack hv).trans (by simp [opened, skip, bump])
  have hend : listEnd v = .ok w ↔ m = size ∧ (⟨v.r, none, bump size (bump n s.stack)⟩ : Stream) = w := by
    simp only [listEnd, hstack, bind_eq_ok, ensure_eq_ok, pure_eq_ok, exists_const]
  have hskip : s.skip (n + size) = ⟨s.r.drop (n + size), none, bump size (bump n s.stack)⟩ := by
    rw [← skip_skip, skip, skip, drop_drop]
  rw [hend, hskip, hr]
  constructor
  · rintro ⟨rfl, rfl⟩
    exact ⟨rfl, rfl⟩
  · rintro ⟨rfl, rfl⟩
    exact ⟨rfl, rfl⟩

end GoWanchain.Rlp
