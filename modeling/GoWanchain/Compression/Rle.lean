import GoWanchain.Lib.BigEndian
import Mathlib.Data.List.TakeWhile

/-!
# Run-length coding

`compression/rle/read_write.go`. A run of zeros is written as the token and the length of the run plus 2, modulo 256.
Three of the values this can have stand for something else, so that the coding loses the runs of 251, 252 and 253
zeros, the rests of longer ones included, since a run is cut after 255 (`decompress_compress_iff`).
-/

namespace GoWanchain.Rle

open List

def token : UInt8 := 0xfe

def emptyShaToken : UInt8 := 0xfd

def emptyListShaToken : UInt8 := 0xfe

def tokenToken : UInt8 := 0xff

/-- `crypto.Keccak256([]byte(""))`. -/
def empty : Bytes :=
  [0xc5, 0xd2, 0x46, 0x01, 0x86, 0xf7, 0x23, 0x3c, 0x92, 0x7e, 0x7d, 0xb2, 0xdc, 0xc7, 0x03, 0xc0,
    0xe5, 0x00, 0xb6, 0x53, 0xca, 0x82, 0x27, 0x3b, 0x7b, 0xfa, 0xd8, 0x04, 0x5d, 0x85, 0xa4, 0x70]

/-- `crypto.Keccak256([]byte{0x80})`. -/
def emptyList : Bytes :=
  [0x56, 0xe8, 0x1f, 0x17, 0x1b, 0xcc, 0x55, 0xa6, 0xff, 0x83, 0x45, 0xe6, 0x92, 0xc0, 0xf8, 0x6e,
    0x5b, 0x48, 0xe0, 0x1b, 0x99, 0x6c, 0xad, 0xc0, 0x01, 0x62, 0x2f, 0xb5, 0xe3, 0x63, 0xb4, 0x21]

/-- What the byte after a token stands for. -/
def expand (b : UInt8) : Bytes :=
  if b = emptyShaToken then empty
  else if b = emptyListShaToken then emptyList
  else if b = tokenToken then [token]
  else replicate (b - 2).toNat 0

/-- `Decompress`; its one error is a token at the end. -/
def decompress : Bytes → Option Bytes
  | [] => some []
  | [b] => if b = token then none else some [b]
  | b :: x :: dat =>
    if b = token then (decompress dat).map (expand x ++ ·) else (decompress (x :: dat)).map (b :: ·)

/-- The zeros that a chunk takes: `j` of `compressChunk`. -/
def zeros (dat : Bytes) : ℕ := ((dat.take 255).takeWhile (· = 0)).length

/-- `compressChunk` of what begins with `b`. -/
def compressChunk (b : UInt8) (rest : Bytes) : Bytes × ℕ :=
  if b = token then ([token, tokenToken], 1)
  else if b = 0 ∧ rest.head? = some 0 then ([token, UInt8.ofNat (zeros (b :: rest) + 2)], zeros (b :: rest))
  else if (b :: rest).take 32 = empty then ([token, emptyShaToken], 32)
  else if (b :: rest).take 32 = emptyList then ([token, emptyListShaToken], 32)
  else ([b], 1)

def compress : Bytes → Bytes
  | [] => []
  | b :: rest => (compressChunk b rest).1 ++ compress (rest.drop ((compressChunk b rest).2 - 1))
termination_by dat => dat.length
decreasing_by simp only [length_drop, length_cons]; omega

/-! ### The runs that survive -/

/-- No maximal run of zeros has a length that leaves 251, 252 or 253 when divided by 255. -/
def Lossless (d : Bytes) : Prop :=
  ∀ run ∈ d.splitOnP (· ≠ 0), run.length % 255 ∉ [251, 252, 253]

instance (d : Bytes) : Decidable (Lossless d) :=
  inferInstanceAs (Decidable (∀ run ∈ d.splitOnP (· ≠ 0), run.length % 255 ∉ [251, 252, 253]))

variable {b x : UInt8} {d t : Bytes} {n : ℕ}

theorem lossless_append_cons (hb : b ≠ 0) : Lossless (d ++ b :: t) ↔ Lossless d ∧ Lossless t := by
  simp only [Lossless, splitOnP_append_cons d t (p := (· ≠ 0)) (decide_eq_true hb), mem_append, or_imp, forall_and]

theorem lossless_replicate (n : ℕ) : Lossless (replicate n 0) ↔ n % 255 ∉ [251, 252, 253] := by
  rw [Lossless, splitOnP_eq_singleton (by simp)]
  simp

theorem lossless_cons (hb : b ≠ 0) : Lossless (b :: t) ↔ Lossless t := by
  rw [← nil_append (b :: t), lossless_append_cons hb]
  exact and_iff_right (by decide)

/-- A maximal run of zeros at the front. -/
theorem lossless_zeros (n : ℕ) (ht : t.head? ≠ some 0) :
    Lossless (replicate n 0 ++ t) ↔ n % 255 ∉ [251, 252, 253] ∧ Lossless t := by
  cases t with
  | nil => rw [append_nil, lossless_replicate, and_iff_left (by decide)]
  | cons b =>
    have hb : b ≠ 0 := by simpa using ht
    rw [lossless_append_cons hb, lossless_replicate, lossless_cons hb]

theorem exists_zeros (d : Bytes) : ∃ n t, d = replicate n 0 ++ t ∧ t.head? ≠ some 0 := by
  have hzero : ∀ b ∈ d.takeWhile (· = 0), b = 0 := fun b hb => by simpa using mem_takeWhile_imp hb
  refine ⟨(d.takeWhile (· = 0)).length, d.dropWhile (· = 0), ?_, ?_⟩
  · rw [← eq_replicate_of_mem hzero, takeWhile_append_dropWhile]
  · intro hhead
    have := head?_dropWhile_not (· = 0) d
    rw [hhead] at this
    simp at this

theorem lossless_cut (d : Bytes) : Lossless (replicate 255 0 ++ d) ↔ Lossless d := by
  obtain ⟨n, t, rfl, ht⟩ := exists_zeros d
  rw [← append_assoc, ← replicate_add, lossless_zeros _ ht, lossless_zeros _ ht, Nat.add_mod_left]

/-! ### One chunk -/

theorem decompress_token (s : Bytes) : decompress (token :: x :: s) = (decompress s).map (expand x ++ ·) := by
  rw [decompress, if_pos rfl]

theorem decompress_cons (hb : b ≠ token) (s : Bytes) : decompress (b :: s) = (decompress s).map (b :: ·) := by
  cases s with
  | nil => simp [decompress, hb]
  | cons => rw [decompress, if_neg hb]

theorem zeros_replicate_append (ht : t.head? ≠ some 0) : zeros (replicate n 0 ++ t) = min n 255 := by
  have hstop : (t.take (255 - n)).takeWhile (· = 0) = [] := by
    cases t with
    | nil => simp
    | cons b =>
      have hb : b ≠ 0 := by simpa using ht
      cases 255 - n <;> simp [hb]
  rw [zeros, take_append, take_replicate, length_replicate, takeWhile_append_of_pos (by simp), hstop]
  simp [Nat.min_comm]

theorem compress_chunk {w out rest : Bytes} (hchunk : compressChunk b rest = (w, out.length)) (hout : out ≠ [])
    (hd : b :: rest = out ++ t) : compress (b :: rest) = w ++ compress t := by
  obtain ⟨c, out, rfl⟩ := exists_cons_of_ne_nil hout
  obtain ⟨rfl, rfl⟩ := cons_eq_cons.mp hd
  rw [compress, hchunk]
  simp

def RoundTrips (d : Bytes) : Prop := decompress (compress d) = some d ↔ Lossless d

/-- A chunk that is read back, whatever follows, and does not matter for the runs behind it. -/
theorem roundTrips_chunk (out : Bytes) {w rest : Bytes} (hchunk : compressChunk b rest = (w, out.length))
    (hout : out ≠ []) (hd : b :: rest = out ++ t) (hread : ∀ s, decompress (w ++ s) = (decompress s).map (out ++ ·))
    (hruns : Lossless (out ++ t) ↔ Lossless t) (ht : RoundTrips t) : RoundTrips (b :: rest) := by
  rw [RoundTrips] at ht ⊢
  rw [compress_chunk hchunk hout hd, hread, hd, hruns, ← ht]
  simp

theorem expand_lost (hn : n ∈ [251, 252, 253]) : ∃ c l, expand (UInt8.ofNat (n + 2)) = c :: l ∧ c ≠ 0 := by
  simp only [mem_cons, not_mem_nil, or_false] at hn
  rcases hn with rfl | rfl | rfl
  · exact ⟨_, _, rfl, by decide⟩
  · exact ⟨_, _, rfl, by decide⟩
  · exact ⟨_, _, rfl, by decide⟩

theorem expand_zeros : ∀ n < 256, n ∉ [251, 252, 253] → expand (UInt8.ofNat (n + 2)) = replicate n 0 := by
  decide +kernel

theorem roundTrips_zeros {rest : Bytes} (hd : b :: rest = replicate n 0 ++ t) (ht : t.head? ≠ some 0) (hn : 0 < n)
    (hchunk : compressChunk b rest = ([token, UInt8.ofNat (min n 255 + 2)], min n 255))
    (ih : ∀ m, RoundTrips (replicate (n - (m + 1)) 0 ++ t)) : RoundTrips (b :: rest) := by
  have hne : ∀ m, 0 < m → replicate m (0 : UInt8) ≠ [] := fun m hm => by simpa using hm.ne'
  by_cases hlost : n ∈ [251, 252, 253]
  · have hlt : n < 255 := by
      simp only [mem_cons, not_mem_nil, or_false] at hlost
      omega
    rw [Nat.min_eq_left hlt.le] at hchunk
    refine iff_of_false ?_ ?_
    · rw [compress_chunk (by rwa [length_replicate]) (hne n hn) hd, hd, cons_append, cons_append, decompress_token]
      obtain ⟨c, l, hexpand, hc⟩ := expand_lost hlost
      obtain ⟨m, rfl⟩ := Nat.exists_eq_succ_of_ne_zero hn.ne'
      intro h
      obtain ⟨out, -, hout⟩ := Option.map_eq_some_iff.mp h
      rw [hexpand] at hout
      exact hc (cons_eq_cons.mp hout).1
    · rw [hd, lossless_zeros n ht, Nat.mod_eq_of_lt hlt]
      exact fun h => h.1 hlost
  · obtain ⟨k, hk⟩ : ∃ k, min n 255 = k + 1 := ⟨min n 255 - 1, by omega⟩
    have hsplit : b :: rest = replicate (k + 1) 0 ++ (replicate (n - (k + 1)) 0 ++ t) := by
      rw [← append_assoc, ← replicate_add, hd, Nat.add_sub_cancel' (by omega)]
    rw [hk] at hchunk
    have hkept : k + 1 ∉ [251, 252, 253] := by
      simp only [mem_cons, not_mem_nil, or_false] at hlost ⊢
      omega
    refine roundTrips_chunk _ (by rwa [length_replicate]) (hne (k + 1) k.succ_pos) hsplit ?_ ?_ (ih k)
    · intro s
      rw [← expand_zeros (k + 1) (by omega) hkept]
      exact decompress_token s
    · by_cases hcut : k + 1 = 255
      · rw [hcut, lossless_cut]
      · have hrest : n - (k + 1) = 0 := by omega
        rw [hrest, replicate_zero, nil_append, lossless_zeros _ ht, Nat.mod_eq_of_lt (by omega)]
        exact and_iff_right hkept

theorem lossless_append (hd : ∀ b ∈ d, b ≠ 0) : Lossless (d ++ t) ↔ Lossless t := by
  induction d with
  | nil => rfl
  | cons b _ ih =>
    rw [cons_append, lossless_cons (hd b (by simp))]
    exact ih fun c hc => hd c (by simp [hc])

theorem lossless_empty_append (t : Bytes) : Lossless (empty ++ t) ↔ Lossless t := by
  have hsplit : empty ++ t = empty.take 17 ++ ([0] ++ 0xb6 :: (empty.drop 19 ++ t)) := rfl
  rw [hsplit, lossless_append (by decide +kernel), lossless_append_cons (by decide), and_iff_right (by decide),
    lossless_append (by decide +kernel)]

theorem roundTrips_hash {rest : Bytes} (hlen : d.length = 32) (hd : (b :: rest).take 32 = d) (hexpand : expand x = d)
    (hchunk : compressChunk b rest = ([token, x], 32)) (hruns : ∀ t, Lossless (d ++ t) ↔ Lossless t)
    (ih : RoundTrips (rest.drop 31)) : RoundTrips (b :: rest) := by
  have hsplit : b :: rest = d ++ rest.drop 31 := by
    rw [← hd]
    exact (take_append_drop 32 _).symm
  have hne : d ≠ [] := ne_nil_of_length_pos (by omega)
  refine roundTrips_chunk d (by rwa [hlen]) hne hsplit (fun s => ?_) (hruns _) ih
  rw [← hexpand]
  exact decompress_token s

/-- **Run-length coding.** What is compressed comes back if and only if none of its runs of zeros is lost. -/
theorem decompress_compress_iff (d : Bytes) : decompress (compress d) = some d ↔ Lossless d := by
  show RoundTrips d
  induction hlen : d.length using Nat.strong_induction_on generalizing d with
  | _ _ ih =>
    subst hlen
    cases d with
    | nil => exact iff_of_true (by rw [compress]; rfl) (by decide)
    | cons b rest =>
      have hrest : RoundTrips rest := ih _ (by simp) rest rfl
      by_cases htoken : b = token
      · have hchunk : compressChunk b rest = ([token, tokenToken], 1) := if_pos htoken
        subst htoken
        exact roundTrips_chunk [token] hchunk (by simp) rfl decompress_token (lossless_cons (by decide)) hrest
      by_cases hzeros : b = 0 ∧ rest.head? = some 0
      · obtain ⟨n, t, hd, ht⟩ := exists_zeros (b :: rest)
        have hn : 0 < n := by
          by_contra hn
          rw [Nat.eq_zero_of_not_pos hn, replicate_zero, nil_append] at hd
          rw [← hd, hzeros.1] at ht
          exact ht rfl
        refine roundTrips_zeros hd ht hn ?_ fun m => ih _ ?_ _ rfl
        · rw [compressChunk, if_neg htoken, if_pos hzeros, hd, zeros_replicate_append ht]
        · simp only [hd, length_append, length_replicate]
          omega
      have hother : compressChunk b rest = if (b :: rest).take 32 = empty then ([token, emptyShaToken], 32)
          else if (b :: rest).take 32 = emptyList then ([token, emptyListShaToken], 32) else ([b], 1) := by
        rw [compressChunk, if_neg htoken, if_neg hzeros]
      have hdrop : RoundTrips (rest.drop 31) := ih _ (by simp only [length_drop, length_cons]; omega) _ rfl
      split_ifs at hother with hempty hlist
      · exact roundTrips_hash rfl hempty rfl hother lossless_empty_append hdrop
      · exact roundTrips_hash rfl hlist rfl hother (fun _ => lossless_append (by decide +kernel)) hdrop
      · refine roundTrips_chunk [b] hother (by simp) rfl (decompress_cons htoken) ?_ hrest
        by_cases hb : b = 0
        · subst hb
          have hhead : rest.head? ≠ some 0 := fun hhead => hzeros ⟨rfl, hhead⟩
          exact (lossless_zeros 1 hhead).trans (and_iff_right (by decide))
        · exact lossless_cons hb

/-- 251 zeros come back as a hash. -/
theorem decompress_compress_zeros : ¬ Lossless (replicate 251 0) ∧
    decompress (compress (replicate 251 0)) = some empty := by
  have hchunk : compressChunk 0 (replicate 250 0) = ([token, emptyShaToken], (replicate 251 (0 : UInt8)).length) := by
    decide +kernel
  refine ⟨by decide +kernel, ?_⟩
  rw [replicate_succ, compress_chunk (t := []) hchunk (cons_ne_nil _ _) (append_nil _).symm, compress]
  rfl

end GoWanchain.Rle
