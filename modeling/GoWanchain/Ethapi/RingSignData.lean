import GoWanchain.Crypto.RingSign
import GoWanchain.Vm.Privacy

/-!
# Ring signatures on the wire

`encodeRingSignOut` of `internal/ethapi/api.go` writes a ring signature as a text, the keys, the key image and the
two lists of scalars separated by `+` and the entries of a list by `&`; `DecodeRingSignOut` of `core/vm/contracts.go`
reads it. Neither separator is a hexadecimal digit, so that the text is read as what was written.
-/

namespace GoWanchain.Ethapi

open State Vm List

/-! ### Texts without separators -/

/-- A hexadecimal text, as `ToHex` and `EncodeBig` write it. -/
def HexText (s : Bytes) : Prop := ∀ c ∈ s, c = 120 ∨ ∃ n < 16, c = UInt8.ofNat (if n < 10 then 48 + n else 87 + n)

theorem HexText.not_mem {s : Bytes} (h : HexText s) {sep : UInt8} (hsep : sep = 38 ∨ sep = 43) : sep ∉ s := by
  intro hmem
  rcases h sep hmem with rfl | ⟨n, hn, rfl⟩
  · simp at hsep
  · revert hsep
    interval_cases n <;> decide

theorem hexText_encodeHex (b : Bytes) : HexText (encodeHex b) := by
  intro c hc
  rcases mem_cons.mp hc with rfl | hc
  · exact .inr ⟨0, by omega, rfl⟩
  rcases mem_cons.mp hc with rfl | hc
  · exact .inl rfl
  · exact .inr (mem_drop_encodeHex hc)

theorem hexText_zero : HexText (ascii "0x0") := by
  intro c hc
  have hchars : c = 48 ∨ c = 120 ∨ c = 48 := by simpa [ascii] using hc
  rcases hchars with rfl | rfl | rfl
  · exact .inr ⟨0, by omega, rfl⟩
  · exact .inl rfl
  · exact .inr ⟨0, by omega, rfl⟩

theorem hexText_toHex (b : Bytes) : HexText (toHex b) := by
  rw [toHex]
  split_ifs
  · exact hexText_zero
  · exact hexText_encodeHex b

theorem hexText_encodeBig (n : ℕ) : HexText (encodeBig n) := by
  rw [encodeBig]
  split_ifs
  · exact hexText_zero
  intro c hc
  rcases mem_cons.mp hc with rfl | hc
  · exact .inr ⟨0, by omega, rfl⟩
  rcases mem_cons.mp hc with rfl | hc
  · exact .inl rfl
  · obtain ⟨d, hd, rfl⟩ := mem_map.mp hc
    exact .inr ⟨d, Nat.digits_lt_base (by norm_num) (mem_reverse.mp hd), rfl⟩

theorem mem_intercalate {sep c : UInt8} : ∀ {ls : List Bytes}, c ∈ [sep].intercalate ls → c = sep ∨ ∃ l ∈ ls, c ∈ l
  | [], h => by simp [intercalate] at h
  | [a], h => .inr ⟨a, by simp, by simpa [intercalate] using h⟩
  | a :: b :: ls, h => by
    have hsplit : c ∈ a ∨ c = sep ∨ c ∈ [sep].intercalate (b :: ls) := by
      simpa [intercalate, intersperse_cons_cons] using h
    rcases hsplit with ha | hsep | hrest
    · exact .inr ⟨a, by simp, ha⟩
    · exact .inl hsep
    · rcases mem_intercalate hrest with hsep | ⟨l, hl, hc⟩
      · exact .inl hsep
      · exact .inr ⟨l, mem_cons_of_mem a hl, hc⟩

def joinEntries (l : List Bytes) : Bytes := [38].intercalate l

theorem splitOn_joinEntries {l : List Bytes} (hne : l ≠ []) (h : ∀ s ∈ l, HexText s) : (joinEntries l).splitOn 38 = l :=
  splitOn_intercalate 38 (fun s hs => (h s hs).not_mem (.inl rfl)) hne

theorem plus_notMem_joinEntries {l : List Bytes} (h : ∀ s ∈ l, HexText s) : 43 ∉ joinEntries l := by
  intro hmem
  rcases mem_intercalate hmem with hsep | ⟨s, hs, hc⟩
  · simp at hsep
  · exact (h s hs).not_mem (.inr rfl) hc

/-! ### The round trip -/

/-- `encodeRingSignOut`, which has no errors. -/
def encodeRingSignOut (publicKeys : List PublicKey) (keyimage : PublicKey) (ws qs : List ℕ) : Bytes :=
  let pkStr := joinEntries (publicKeys.map fun pk => toHex (fromECDSAPub pk))
  let k := toHex (fromECDSAPub keyimage)
  let wStr := joinEntries (ws.map encodeBig)
  let qStr := joinEntries (qs.map encodeBig)
  [43].intercalate [pkStr, k, wStr, qStr]

section

variable [Crypto]

structure ValidKey (P : PublicKey) : Prop where
  x_lt : P.x < 2 ^ 256
  y_lt : P.y < 2 ^ 256
  onCurve : Crypto.isOnCurve P.x P.y = true

theorem toECDSAPub_fromECDSAPub {P : PublicKey} (h : ValidKey P) : toECDSAPub (fromECDSAPub P) = some P := by
  have hx : (((fromECDSAPub P).drop 1).take 32) = bePadded 32 P.x := by
    simp [fromECDSAPub]
  have hy : (fromECDSAPub P).drop 33 = bePadded 32 P.y := by
    simp [fromECDSAPub]
  have hlen : (fromECDSAPub P).length = 65 := by simp [fromECDSAPub]
  have hhead : (fromECDSAPub P).head? = some 4 := rfl
  have hbackX : beNat (bePadded 32 P.x) = P.x := beNat_bePadded (lt_of_lt_of_eq h.x_lt (by norm_num))
  have hbackY : beNat (bePadded 32 P.y) = P.y := beNat_bePadded (lt_of_lt_of_eq h.y_lt (by norm_num))
  simp only [toECDSAPub, hlen, ne_eq, not_true_eq_false, if_false, hx, hy, hbackX, hbackY, hhead, h.onCurve, and_self,
    if_true]

theorem toECDSAPub_fromHex {P : PublicKey} (h : ValidKey P) :
    toECDSAPub (fromHex (toHex (fromECDSAPub P))) = some P := by
  rw [fromHex_toHex (by simp [fromECDSAPub]), toECDSAPub_fromECDSAPub h]

theorem decode_encode {publicKeys : List PublicKey} {keyimage : PublicKey} {ws qs : List ℕ}
    (hne : publicKeys ≠ []) (hkeys : ∀ P ∈ publicKeys, ValidKey P) (himage : ValidKey keyimage) (hw : ws ≠ [])
    (hq : qs ≠ []) (hws : ∀ w ∈ ws, w < 2 ^ 256) (hqs : ∀ q ∈ qs, q < 2 ^ 256) :
    decodeRingSignOut (encodeRingSignOut publicKeys keyimage ws qs) =
      if publicKeys.length ≠ ws.length ∨ publicKeys.length ≠ qs.length then none
      else some (publicKeys, keyimage, ws, qs) := by
  have hkeyTexts : ∀ s ∈ publicKeys.map fun pk => toHex (fromECDSAPub pk), HexText s := by
    intro s hs
    obtain ⟨P, -, rfl⟩ := mem_map.mp hs
    exact hexText_toHex _
  have hbigTexts (l : List ℕ) : ∀ s ∈ l.map encodeBig, HexText s := by
    intro s hs
    obtain ⟨n, -, rfl⟩ := mem_map.mp hs
    exact hexText_encodeBig n
  have hparts : (encodeRingSignOut publicKeys keyimage ws qs).splitOn 43 =
      [joinEntries (publicKeys.map fun pk => toHex (fromECDSAPub pk)), toHex (fromECDSAPub keyimage),
        joinEntries (ws.map encodeBig), joinEntries (qs.map encodeBig)] := by
    apply splitOn_intercalate 43 _ (by simp)
    intro s hs
    simp only [mem_cons, not_mem_nil, or_false] at hs
    rcases hs with rfl | rfl | rfl | rfl
    · exact plus_notMem_joinEntries hkeyTexts
    · exact (hexText_toHex _).not_mem (.inr rfl)
    · exact plus_notMem_joinEntries (hbigTexts ws)
    · exact plus_notMem_joinEntries (hbigTexts qs)
  have hreadKeys : (publicKeys.map fun pk => toHex (fromECDSAPub pk)).mapM (fun s => toECDSAPub (fromHex s)) =
      some publicKeys := mapM_map_of_forall fun P hP => toECDSAPub_fromHex (hkeys P hP)
  have hreadBig (l : List ℕ) (hl : ∀ n ∈ l, n < 2 ^ 256) :
      (l.map encodeBig).mapM (fun s => (decodeBig s).toOption) = some l :=
    mapM_map_of_forall fun n hn => by rw [decodeBig_encodeBig (hl n hn)]; rfl
  rw [decodeRingSignOut, hparts]
  simp only [splitOn_joinEntries (by simpa using hne) hkeyTexts,
    splitOn_joinEntries (by simpa using hw) (hbigTexts ws), splitOn_joinEntries (by simpa using hq) (hbigTexts qs),
    hreadKeys, toECDSAPub_fromHex himage, hreadBig ws hws, hreadBig qs hqs, Option.bind_eq_bind, Option.bind_some]

/-- A signature that is written is read back as it was. -/
theorem decodeRingSignOut_encodeRingSignOut {publicKeys : List PublicKey} {keyimage : PublicKey} {ws qs : List ℕ}
    (hne : publicKeys ≠ []) (hkeys : ∀ P ∈ publicKeys, ValidKey P) (himage : ValidKey keyimage)
    (hw : ws.length = publicKeys.length) (hq : qs.length = publicKeys.length) (hws : ∀ w ∈ ws, w < 2 ^ 256)
    (hqs : ∀ q ∈ qs, q < 2 ^ 256) :
    decodeRingSignOut (encodeRingSignOut publicKeys keyimage ws qs) = some (publicKeys, keyimage, ws, qs) := by
  have hpos := length_pos_of_ne_nil hne
  rw [decode_encode hne hkeys himage (ne_nil_of_length_pos (by omega)) (ne_nil_of_length_pos (by omega)) hws
    hqs, if_neg (by simp [hw, hq])]

end

namespace Sample

attribute [local instance] Vm.Sample.crypto

/-- Two members, and scalars of all lengths. -/
theorem decodeRingSignOut_encodeRingSignOut_pair :
    decodeRingSignOut (encodeRingSignOut [⟨1, 2⟩, ⟨3, 4⟩] ⟨5, 6⟩ [0, 1] [10, 2 ^ 256 - 1]) =
      some ([⟨1, 2⟩, ⟨3, 4⟩], ⟨5, 6⟩, [0, 1], [10, 2 ^ 256 - 1]) := by
  have hvalid (x y : ℕ) (hx : x < 10) (hy : y < 10) : ValidKey ⟨x, y⟩ :=
    ⟨hx.trans (by norm_num), hy.trans (by norm_num), rfl⟩
  refine decodeRingSignOut_encodeRingSignOut (by simp) ?_ (hvalid 5 6 (by decide) (by decide)) rfl rfl ?_ ?_
  · simpa using ⟨hvalid 1 2 (by decide) (by decide), hvalid 3 4 (by decide) (by decide)⟩
  · simp
  · simp

end Sample

end GoWanchain.Ethapi
