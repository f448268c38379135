import GoWanchain.Rlp.Decode

/-!
# RLP is canonical

`DecodeBytes` into an `interface{}` accepts exactly the encodings of trees, and yields the tree that was encoded. One
direction says what a decoder does in front of an encoding (`Decodes`), the other what was in front of a decoder that
ended well (`Yields`). Both go through the loop of `decodeSliceElems`, once for each level of the tree.
-/

namespace GoWanchain.Rlp

open GoWanchain.Rlp.Stream List

variable {α : Type} {s s' : Stream}

@[simp] theorem wrapping_eq_ok {type : Ty} {x : Except Err α} {a : α} : wrapping type x = .ok a ↔ x = .ok a :=
  relabel_eq_ok

/-! ### In front of an encoding -/

/-- In front of the encoding `b` of `a`: the decoder yields `a`, and what it leaves is behind the encoding. -/
def Decodes (x : Reader α) (a : α) (b : Bytes) : Prop :=
  ∀ ⦃s rest⦄, s.ahead = none → s.window = b ++ rest → x s = .ok (a, s.skip b.length)

/-- The stream stands in a list, of which the bytes `b` are left. -/
structure Stream.Holds (s : Stream) (b : Bytes) : Prop where
  armed : s.ahead = none
  window : s.window = b
  size : ∃ tos stack, s.stack = tos :: stack ∧ tos.pos + b.length = tos.size

variable {b payload : Bytes} {fuel : ℕ} {t : Tree}

theorem Stream.Holds.skip {c : Bytes} (h : s.Holds (b ++ c)) : (s.skip b.length).Holds c where
  armed := rfl
  window := by simp [h.window]
  size := by
    obtain ⟨tos, stack, hs, hsize⟩ := h.size
    refine ⟨_, stack, by rw [Stream.skip, hs, bump], ?_⟩
    rw [length_append] at hsize
    simp only
    omega

theorem Stream.Holds.atEnd (h : s.Holds []) : s.atEnd = true := by
  obtain ⟨tos, stack, hs, hsize⟩ := h.size
  simpa [Stream.atEnd, hs] using hsize

theorem window_opened {n size : ℕ} (h : checkSize size (s.skip n) = .ok ()) :
    (s.opened n size).window = (s.skip n).window.take size := by
  rcases hs : s.stack with - | ⟨tos, stack⟩
  · simp [opened, window, skip, bump, hs]
  · have hle : size ≤ tos.size - (tos.pos + n) := by simpa [checkSize, skip, hs, bump, fitsList] using h
    simp [opened, window, skip, bump, hs, take_take, hle]

theorem holds_opened {rest : Bytes} (hw : s.window = (Value.list payload).encode ++ rest) :
    (s.opened (head 0xC0 payload.length).length payload.length).Holds payload where
  armed := rfl
  window := by
    have hskip : (s.skip (head 0xC0 payload.length).length).window = payload ++ rest := by
      rw [window_skip, hw, Value.encode, append_assoc, drop_left]
    rw [window_opened (checkSize_of_le (by simp [hskip])), hskip, take_left]
  size := ⟨_, _, rfl, Nat.zero_add _⟩

/-! ### Lists -/

theorem length_le_length_flatMap {enc : α → Bytes} (hne : ∀ v, enc v ≠ []) (vs : List α) :
    vs.length ≤ (vs.flatMap enc).length := by
  induction vs with
  | nil => exact Nat.le_refl 0
  | cons v =>
    have hpos := length_pos_iff.mpr (hne v)
    rw [flatMap_cons, length_append, length_cons]
    omega

theorem eq_nil_of_flatMap {enc : α → Bytes} (hne : ∀ v, enc v ≠ []) {vs : List α} (h : vs.flatMap enc = []) :
    vs = [] := by
  have hle := length_le_length_flatMap hne vs
  rw [h] at hle
  exact length_eq_zero_iff.mp (Nat.le_zero.mp hle)

section Lists

variable {elem : Reader α} (hstops : ∀ {s}, kind s = .error .eol → elem s = .error .eol) {enc : α → Bytes}
  {vs : List α} (h : ∀ v ∈ vs, Decodes elem v (enc v)) {rounds : ℕ} (hrounds : vs.length < rounds)

include hstops h hrounds

/-- The loop over the elements ends at the end of the list. -/
theorem decodeSliceElems_of_holds (i : ℕ) (hs : s.Holds (vs.flatMap enc)) :
    decodeSliceElems elem rounds i s = .ok (vs, s.skip (vs.flatMap enc).length) := by
  induction vs generalizing rounds i s with
  | nil =>
    obtain ⟨rounds, rfl⟩ := Nat.exists_eq_add_one.mpr hrounds
    simp only [decodeSliceElems, hstops (kind_of_atEnd hs.armed hs.atEnd)]
    rw [flatMap_nil, length_nil, skip_zero, clear_of_ahead hs.armed]
    rfl
  | cons v vs ih =>
    obtain ⟨rounds, rfl⟩ := Nat.exists_eq_add_one.mpr (Nat.zero_lt_of_lt hrounds)
    rw [flatMap_cons] at hs ⊢
    have helem := h v (by simp) hs.armed hs.window
    have hrest := ih (fun w hw => h w (mem_cons_of_mem v hw)) (by simpa using hrounds) (i + 1) hs.skip
    simp only [decodeSliceElems, helem, hrest, skip_skip, length_append]
    rfl

theorem decodes_decodeListSlice (hne : ∀ v, enc v ≠ []) (hlen : (vs.flatMap enc).length < 2 ^ 64) (type : Ty) :
    Decodes (decodeListSlice rounds type elem) vs (Value.list (vs.flatMap enc)).encode := by
  intro s rest harm hw
  have helems : decodeElems elem rounds (vs.flatMap enc).length
      (s.opened (head 0xC0 (vs.flatMap enc).length).length (vs.flatMap enc).length) = .ok (vs,
        (s.opened (head 0xC0 (vs.flatMap enc).length).length (vs.flatMap enc).length).skip (vs.flatMap enc).length) := by
    rw [decodeElems]
    split_ifs with hzero
    · obtain rfl := eq_nil_of_flatMap hne (length_eq_zero_iff.mp hzero)
      rw [flatMap_nil, length_nil, skip_zero]
      rfl
    · exact decodeSliceElems_of_holds hstops h hrounds 0 (holds_opened hw)
  simp only [decodeListSlice, bind_eq_ok, Prod.exists, wrapping_eq_ok, pure_eq_ok]
  refine ⟨_, _, list_of_encode harm hlen hw, _, _, helems, _, (listEnd_eq_ok rfl).mpr ⟨rfl, rfl⟩, ?_⟩
  rw [length_encode_list]

end Lists

/-! ### Trees -/

theorem Tree.encs_eq (ts : List Tree) : Tree.encs ts = ts.flatMap Tree.enc := by
  induction ts with
  | nil => rfl
  | cons _ _ ih => rw [encs, ih, flatMap_cons]

theorem Tree.enc_ne_nil (t : Tree) : t.enc ≠ [] := by
  cases t with
  | string | list =>
    rw [enc]
    exact Value.encode_ne_nil _

theorem length_le_flatMap {enc : α → Bytes} {v : α} {vs : List α} (h : v ∈ vs) :
    (enc v).length ≤ (vs.flatMap enc).length := by
  obtain ⟨us, ws, rfl⟩ := append_of_mem h
  simp only [flatMap_append, flatMap_cons, length_append]
  omega

theorem kind_kind {h : Kind × ℕ × UInt8} (hk : kind s = .ok (h, s')) : kind s' = .ok (h, s') := by
  cases hs : s.ahead with
  | none =>
    obtain ⟨u, -, -, rfl⟩ := (kind_iff hs).mp hk
    exact kind_of_ahead rfl
  | some =>
    rw [kind_of_ahead hs] at hk
    cases hk
    exact kind_of_ahead hs

theorem decodeInterface_run {h : Kind × ℕ × UInt8} (hk : kind s = .ok (h, s')) (fuel : ℕ) :
    decodeInterface (fuel + 1) s = if h.1 = .list then do
        let (elems, s) ← decodeListSlice fuel (.slice .interface) (decodeInterface fuel) s
        return (.list elems, s)
      else do
        let (b, s) ← bytes s
        return (.string b, s) := by
  obtain ⟨k, size, x⟩ := h
  simp only [decodeInterface, decodeListSlice, list, bytes, hk, kind_kind hk, ok_bind]

theorem decodes_bytes (hlen : b.length < 2 ^ 64) : Decodes bytes b (Value.string b).encode :=
  fun _ rest harm hw => (bytes_eq_ok harm).mpr ⟨hlen, ⟨rest, hw⟩, rfl⟩

theorem decodes_decodeInterface (hfuel : t.enc.length < fuel) (hlen : t.enc.length < 2 ^ 64) :
    Decodes (decodeInterface fuel) t t.enc := by
  induction fuel generalizing t with
  | zero => exact absurd hfuel (Nat.not_lt_zero _)
  | succ fuel ih =>
    intro s rest harm hw
    cases t with
    | string b =>
      rw [Tree.enc] at hlen hw ⊢
      have hrun := decodes_bytes ((Value.string b).length_content_le.trans_lt hlen) harm hw
      obtain ⟨⟨⟨k, size, x⟩, u⟩, hkind, hbody⟩ := bind_eq_ok.mp hrun
      rw [decodeInterface_run hkind, if_neg, hrun]
      · rfl
      · rintro rfl
        cases hbody
    | list elems =>
      rw [Tree.enc, Tree.encs_eq] at hfuel hlen hw ⊢
      rw [length_encode_list] at hfuel hlen
      have hpos := length_pos_iff.mpr (head_ne_nil 0xC0 (elems.flatMap Tree.enc).length)
      have hcount := length_le_length_flatMap Tree.enc_ne_nil elems
      have helems : ∀ t ∈ elems, Decodes (decodeInterface fuel) t t.enc := by
        intro t ht
        have hle : t.enc.length ≤ (elems.flatMap Tree.enc).length := length_le_flatMap ht
        exact ih (by omega) (by omega)
      have hstops {s : Stream} (h : kind s = .error .eol) : decodeInterface fuel s = .error .eol := by
        obtain ⟨n, rfl⟩ : ∃ n, fuel = n + 1 := ⟨fuel - 1, by omega⟩
        rw [decodeInterface, h]
        rfl
      have hslice : Decodes (decodeListSlice fuel (.slice .interface) (decodeInterface fuel)) elems _ :=
        decodes_decodeListSlice hstops helems (by omega) Tree.enc_ne_nil (by omega) _
      have hrun := hslice harm hw
      obtain ⟨⟨size, u⟩, hlist, -⟩ := bind_eq_ok.mp hrun
      obtain ⟨⟨⟨k, size', x⟩, v⟩, hkind, hbody⟩ := bind_eq_ok.mp (wrapping_eq_ok.mp hlist)
      simp only [bind_eq_ok, ensure_eq_ok] at hbody
      rw [decodeInterface_run hkind, if_pos hbody.choose_spec.1, hrun]
      rfl

/-! ### Behind a decoder that ended well -/

/-- The encoding of the value was in front. -/
def Yields (x : Reader α) (enc : α → Bytes) : Prop :=
  ∀ ⦃s a s'⦄, s.ahead = none → x s = .ok (a, s') → (∃ rest, s.window = enc a ++ rest) ∧ s.skip (enc a).length = s'

theorem yields_decodeSliceElems {elem : Reader α} {enc : α → Bytes} (h : Yields elem enc) :
    ∀ rounds i, Yields (decodeSliceElems elem rounds i) (flatMap enc)
  | 0, _ => by
    intro s vs s' _ hrun
    cases hrun
  | rounds + 1, i => by
    intro s vs s' harm hrun
    simp only [decodeSliceElems] at hrun
    split at hrun
    · cases hrun
      exact ⟨⟨s.window, rfl⟩, by simp [clear_of_ahead harm]⟩
    · cases hrun
    · rename_i v u hv
      simp only [bind_eq_ok, Prod.exists, pure_eq_ok, Prod.mk.injEq] at hrun
      obtain ⟨ws, w, hloop, rfl, rfl⟩ := hrun
      obtain ⟨⟨rest, hw⟩, rfl⟩ := h harm hv
      obtain ⟨⟨rest', hw'⟩, rfl⟩ := yields_decodeSliceElems h rounds (i + 1) rfl hloop
      rw [window_skip, hw, drop_left] at hw'
      rw [hw, hw', flatMap_cons, length_append, skip_skip]
      exact ⟨⟨rest', (append_assoc _ _ _).symm⟩, rfl⟩

theorem list_of_listEnd {size n : ℕ} {u v w : Stream} (harm : s.ahead = none) (hlist : list s = .ok (size, u))
    (hn : n ≤ u.window.length) (hv : v.clear = u.skip n) (hend : listEnd v = .ok w) :
    n < 2 ^ 64 ∧ (∃ rest, s.window = (Value.list (u.window.take n)).encode ++ rest) ∧
      s.skip (Value.list (u.window.take n)).encode.length = w := by
  obtain ⟨hsize, ⟨rest, hw⟩, rfl, hcheck⟩ := list_eq_ok harm hlist
  obtain ⟨rfl, rfl⟩ := (listEnd_eq_ok hv).mp hend
  rw [window_opened hcheck, window_skip, hw, drop_left] at hn ⊢
  have hlen : (rest.take n).length = n := by
    rw [length_take] at hn ⊢
    omega
  rw [take_take, min_self, length_encode_list, hlen, Value.encode, hlen]
  exact ⟨hsize, ⟨rest.drop n, by rw [append_assoc, take_append_drop]⟩, rfl⟩

theorem yields_decodeListSlice (rounds : ℕ) (type : Ty) {elem : Reader α} {enc : α → Bytes} (h : Yields elem enc) :
    Yields (decodeListSlice rounds type elem) fun vs => (Value.list (vs.flatMap enc)).encode := by
  intro s vs s' harm hrun
  simp only [decodeListSlice, bind_eq_ok, Prod.exists, wrapping_eq_ok, pure_eq_ok, Prod.mk.injEq] at hrun
  obtain ⟨size, u, hlist, vs', v, helems, w, hend, rfl, rfl⟩ := hrun
  obtain ⟨-, -, hu, -⟩ := list_eq_ok harm hlist
  obtain ⟨⟨rest, hw⟩, hv⟩ :
      (∃ rest, u.window = vs'.flatMap enc ++ rest) ∧ u.skip (vs'.flatMap enc).length = v.clear := by
    rw [decodeElems] at helems
    split_ifs at helems
    · cases helems
      exact ⟨⟨u.window, rfl⟩, skip_zero u⟩
    · obtain ⟨hw, rfl⟩ := yields_decodeSliceElems h rounds 0 (hu ▸ rfl) helems
      exact ⟨hw, rfl⟩
  have hend' := list_of_listEnd harm hlist (by simp [hw]) hv.symm hend
  rw [hw, take_left] at hend'
  exact hend'.2

theorem yields_decodeInterface : ∀ fuel, Yields (decodeInterface fuel) Tree.enc
  | 0 => by
    intro s t s' _ h
    cases h
  | fuel + 1 => by
    intro s t s' harm h
    obtain ⟨⟨⟨k, p⟩, u⟩, hkind, -⟩ := bind_eq_ok.mp h
    rw [decodeInterface_run hkind] at h
    split_ifs at h
    · simp only [bind_eq_ok, Prod.exists, pure_eq_ok, Prod.mk.injEq] at h
      obtain ⟨elems, v, hrun, rfl, rfl⟩ := h
      rw [Tree.enc, Tree.encs_eq]
      exact yields_decodeListSlice fuel _ (yields_decodeInterface fuel) harm hrun
    · simp only [bind_eq_ok, Prod.exists, pure_eq_ok, Prod.mk.injEq] at h
      obtain ⟨b, v, hrun, rfl, rfl⟩ := h
      rw [Tree.enc]
      exact ((bytes_eq_ok harm).mp hrun).2

/-! ### `DecodeBytes` -/

theorem decodeBytes_eq_ok {type : Ty} {v : type.Val} : decodeBytes fuel type b = .ok v ↔
    ∃ s, decoder fuel type ⟨b, none, []⟩ = .ok (v, s) ∧ s.r = [] := by
  simp only [decodeBytes, bind_eq_ok, relabel_eq_ok, Prod.exists, ensure_eq_ok, pure_eq_ok, exists_const]
  constructor
  · rintro ⟨w, s, hrun, hr, rfl⟩
    exact ⟨s, hrun, hr⟩
  · rintro ⟨s, hrun, hr⟩
    exact ⟨v, s, hrun, hr, rfl⟩

theorem Decodes.decodeBytes {type : Ty} {v : type.Val} (h : Decodes (decoder fuel type) v b) :
    decodeBytes fuel type b = .ok v :=
  decodeBytes_eq_ok.mpr ⟨_, h rfl (append_nil b).symm, by simp [skip]⟩

theorem enc_of_decodeBytes (h : decodeBytes fuel .interface b = .ok t) : t.enc = b := by
  obtain ⟨s, hrun, hr⟩ := decodeBytes_eq_ok.mp h
  obtain ⟨⟨rest, hw⟩, rfl⟩ := yields_decodeInterface fuel rfl hrun
  have hb : b = t.enc ++ rest := hw
  subst hb
  have hrest : rest = [] := by simpa [skip] using hr
  rw [hrest, append_nil]

theorem encodeToBytes_interface_eq_ok : encodeToBytes .interface t = .ok b ↔ t.enc = b ∧ b.length < 2 ^ 63 := by
  have heq : encodeToBytes .interface t = if t.enc.length < 2 ^ 63 then .ok t.enc else .error .panic :=
    @encodeToBytes_eq .interface t trivial
  rw [heq]
  split_ifs with hlen
  · rw [Except.ok.injEq]
    exact ⟨fun h => ⟨h, h ▸ hlen⟩, fun h => h.1⟩
  · simp only [false_iff, not_and]
    rintro rfl
    exact hlen

/-- RLP is canonical: what is encoded is decoded, and what is decoded is encoded to the same bytes, of which there are
no others for the tree. -/
theorem interface_canonical : (∀ t : Tree, t.enc.length < 2 ^ 63 → ∃ b, encodeToBytes .interface t = .ok b) ∧
    (∀ (t : Tree) (b : Bytes), encodeToBytes .interface t = .ok b →
      ∀ fuel > b.length, decodeBytes fuel .interface b = .ok t) ∧
    (∀ b : Bytes, b.length < 2 ^ 63 → ∀ (fuel : ℕ) (t : Tree), decodeBytes fuel .interface b = .ok t →
      encodeToBytes .interface t = .ok b) ∧
    ∀ (b c : Bytes) (fuel fuel' : ℕ) (t : Tree), decodeBytes fuel .interface b = .ok t →
      decodeBytes fuel' .interface c = .ok t → b = c := by
  refine ⟨?_, ?_, ?_, ?_⟩
  · intro t hlen
    exact ⟨t.enc, encodeToBytes_interface_eq_ok.mpr ⟨rfl, hlen⟩⟩
  · intro t b henc fuel hfuel
    obtain ⟨rfl, hlen⟩ := encodeToBytes_interface_eq_ok.mp henc
    have hdecodes : Decodes (decoder fuel .interface) t t.enc := decodes_decodeInterface hfuel (by omega)
    exact hdecodes.decodeBytes
  · intro b hlen fuel t hdec
    exact encodeToBytes_interface_eq_ok.mpr ⟨enc_of_decodeBytes hdec, hlen⟩
  · intro b c fuel fuel' t hb hc
    exact (enc_of_decodeBytes hb).symm.trans (enc_of_decodeBytes hc)

end GoWanchain.Rlp
