import Mathlib.Algebra.Order.BigOperators.Group.Finset
import GoWanchain.Vm.Ledger

/-!
# Spending one-time addresses

A refund and the stamp of a privacy transaction record the image of their ring signature, and the image tells nothing of
the member of the ring that signed. It is assumed that it is made of that member alone (`KeyImages`); then every
one-time address is spent at most once, in whichever of the two ways, and the images that are recorded are covered by
the balances (`Spent`).
-/

namespace GoWanchain.Vm

open State

/-- Every summand on the left has a summand on the right that covers it, and no two have the same. -/
theorem sum_le_sum_of_cover {ι κ : Type} [Fintype ι] [Fintype κ] [DecidableEq ι] {f : ι → ℕ} {g : κ → ℕ} (e : κ → ι)
    (h : ∀ i, f i ≠ 0 → ∃ k, e k = i ∧ f i ≤ g k) : ∑ i, f i ≤ ∑ k, g k := by
  have hfiber (i : ι) : f i ≤ ∑ k with e k = i, g k := by
    by_cases hi : f i = 0
    · rw [hi]
      exact Nat.zero_le _
    · obtain ⟨k, hk, hle⟩ := h i hi
      exact hle.trans (Finset.single_le_sum (f := g) (fun _ _ => Nat.zero_le _) (by simp [hk]))
  calc ∑ i, f i ≤ ∑ i, ∑ k with e k = i, g k := Finset.sum_le_sum fun i _ => hfiber i
    _ = ∑ k, g k := Finset.sum_fiberwise _ _ _

namespace Accounts

/-- The value that is recorded for an image. -/
def imageValue (σ : Accounts) (key : Hash) : ℕ := beNat ((σ otaImageStorageAddr).bytes key)

/-- The compressed public key that is recorded for an OTA. -/
def otaMember (σ : Accounts) (key : Hash) : Bytes :=
  ((σ (otaBalance2ContractAddr (σ.otaBalance key))).bytes key).take 33

end Accounts

/-- The signature of a request that spends an OTA. -/
def Request.ring : Request → Option RingSignInfo
  | .buy _ _ _ => none
  | .refund _ info => some info
  | .stamp _ info => some info

/-- The OTA with this key is the member of the ring that the image is made of. -/
def RingSignInfo.signedBy (image : Bytes → PublicKey) (key : Hash) (info : RingSignInfo) : Bool :=
  info.publicKeys.any fun p => info.keyImage = image (ecdsaPKCompression p) ∧ ringKey p = key

/-- The request pays out the OTA with this key. -/
def Request.spends (image : Bytes → PublicKey) (key : Hash) (r : Request) : Bool :=
  r.ring.any (·.signedBy image key)

variable [Crypto]

/-- What is assumed of ring signatures: the image of an accepted one is a function of one of its members, in compressed
form, and different members have different images. -/
structure KeyImages (image : Bytes → PublicKey) : Prop where
  injective : ∀ m m' : Bytes, m.length = 33 → m'.length = 33 → image m = image m' → m = m'
  member : ∀ σ hashInput info, Ring σ hashInput info →
    ∃ p ∈ info.publicKeys, info.keyImage = image (ecdsaPKCompression p)

variable [Keccak] {image : Bytes → PublicKey} {σ τ : Accounts} {l : List Request} {k : Hash}

omit [Crypto] in
/-- The key under which the image of an OTA is recorded. -/
def Accounts.otaImage (image : Bytes → PublicKey) (σ : Accounts) (key : Hash) : Hash :=
  keccak256 (fromECDSAPub (image (σ.otaMember key)))

open Accounts (imageValue otaImage otaMember)

theorem Ring.otaImage_eq {hashInput : Bytes} {info : RingSignInfo} (h : Ring σ hashInput info)
    (hk : info.signedBy image k = true) : σ.otaBalance k = info.otaBalance ∧ σ.otaImage image k = imageKey info := by
  simp only [RingSignInfo.signedBy, List.any_eq_true, decide_eq_true_eq] at hk
  obtain ⟨p, hp, himage, rfl⟩ := hk
  obtain ⟨hbalance, haddress⟩ := h.recorded p hp
  refine ⟨hbalance, ?_⟩
  rw [otaImage, otaMember, hbalance, haddress, imageKey, himage]

theorem Granted.of_ring {r : Request} {info : RingSignInfo} (h : Granted σ τ r) (hr : r.ring = some info) :
    (∃ hashInput, Ring σ hashInput info) ∧ (σ otaImageStorageAddr).bytes (imageKey info) = [] ∧
      SameLedger (σ.setBytes otaImageStorageAddr (imageKey info) (beBytes info.otaBalance)) τ := by
  cases r with
  | buy => cases hr
  | refund =>
    cases hr
    exact ⟨⟨_, h.ring⟩, h.fresh, .of_bytes fun a => by simp [h.after]⟩
  | stamp =>
    cases hr
    obtain ⟨hring, hfresh, rfl⟩ := h
    exact ⟨⟨_, hring⟩, hfresh, .refl _⟩

omit [Crypto] in
theorem Grows.otaImage_eq (h : Grows σ τ) (hbooks : Books σ) (hk : σ.otaBalance k ≠ 0) :
    τ.otaImage image k = σ.otaImage image k := by
  rw [otaImage, otaMember, h.balance k hk, h.address k hk _ (hbooks.value_mem k hk)]
  rfl

omit [Crypto] [Keccak] in
theorem Grows.imageValue_eq (h : Grows σ τ) {i : Hash} (hi : σ.imageValue i ≠ 0) : τ.imageValue i = σ.imageValue i := by
  have hne : (σ otaImageStorageAddr).bytes i ≠ [] := by
    intro hnil
    rw [imageValue, hnil] at hi
    exact hi rfl
  rw [imageValue, h.image i hne, imageValue]

omit [Crypto] in
/-- The requests `l` have led to the ledger of `σ`: no OTA is spent twice, the image of a spent one is recorded, and
every image that is recorded is that of an OTA, with its balance. -/
structure Spent (image : Bytes → PublicKey) (l : List Request) (σ : Accounts) : Prop where
  books : Books σ
  once : ∀ k, l.countP (·.spends image k) ≤ 1
  recorded : ∀ k, ∀ r ∈ l, r.spends image k = true → σ.otaBalance k ≠ 0 ∧ σ.imageValue (σ.otaImage image k) ≠ 0
  covered : ∀ i, σ.imageValue i ≠ 0 → ∃ k, σ.otaImage image k = i ∧ σ.imageValue i = σ.otaBalance k

namespace Spent

omit [Crypto] in
theorem grows (h : Spent image l σ) (hbooks : Books τ) (hgrows : Grows σ τ)
    (hnew : ∀ i, σ.imageValue i = 0 → τ.imageValue i ≠ 0 →
      ∃ k, τ.otaImage image k = i ∧ τ.imageValue i = τ.otaBalance k) : Spent image l τ := by
  refine ⟨hbooks, h.once, fun k r hr hspends => ?_, fun i hi => ?_⟩
  · obtain ⟨hbalance, hvalue⟩ := h.recorded k r hr hspends
    rw [hgrows.balance k hbalance, hgrows.otaImage_eq h.books hbalance, hgrows.imageValue_eq hvalue]
    exact ⟨hbalance, hvalue⟩
  · by_cases hold : σ.imageValue i = 0
    · exact hnew i hold hi
    · obtain ⟨k, hk, hvalue⟩ := h.covered i hold
      have hbalance : σ.otaBalance k ≠ 0 := hvalue ▸ hold
      refine ⟨k, ?_, ?_⟩
      · rw [hgrows.otaImage_eq h.books hbalance, hk]
      · rw [hgrows.imageValue_eq hold, hgrows.balance k hbalance, hvalue]

omit [Crypto] in
theorem same (h : Spent image l σ) (hsame : SameLedger σ τ) : Spent image l τ := by
  refine h.grows (h.books.same hsame) hsame.grows fun i hold hi => absurd ?_ hi
  rwa [imageValue, hsame _ (.inr (.inl rfl))]

theorem granted_ring (himage : KeyImages image) (h : Spent image l σ) {r : Request} {info : RingSignInfo}
    (hr : r.ring = some info) (hgranted : Granted σ τ r) : Spent image (r :: l) τ := by
  obtain ⟨⟨hashInput, hring⟩, hfresh, hsame⟩ := hgranted.of_ring hr
  obtain ⟨p, hp, hp'⟩ := himage.member σ hashInput info hring
  have hgrows := hgranted.grows
  have hsigned (k : Hash) (hk : r.spends image k = true) : info.signedBy image k = true := by
    simpa [Request.spends, hr] using hk
  have hvalue (i : Hash) : τ.imageValue i = if i = imageKey info then info.otaBalance else σ.imageValue i := by
    rw [imageValue, hsame _ (.inr (.inl rfl)), Accounts.bytes_setBytes]
    by_cases hi : i = imageKey info <;> simp [hi, imageValue]
  -- what holds of a member that signed
  have hmember (k : Hash) (hk : info.signedBy image k = true) : τ.otaBalance k = info.otaBalance ∧
      τ.otaImage image k = imageKey info := by
    obtain ⟨hbalance, hkey⟩ := hring.otaImage_eq hk
    have hne : σ.otaBalance k ≠ 0 := hbalance ▸ hring.balance_ne
    exact ⟨(hgrows.balance k hne).trans hbalance, (hgrows.otaImage_eq h.books hne).trans hkey⟩
  have hkept : Spent image l τ := by
    refine h.grows (h.books.granted hgranted) hgrows fun i hold hi => ?_
    rw [hvalue] at hi
    split_ifs at hi with heq
    · have hsign : info.signedBy image (ringKey p) = true := by
        simp only [RingSignInfo.signedBy, List.any_eq_true, decide_eq_true_eq]
        exact ⟨p, hp, hp', rfl⟩
      obtain ⟨hbalance, hkey⟩ := hmember _ hsign
      exact ⟨ringKey p, hkey.trans heq.symm, by rw [hvalue, if_pos heq, hbalance]⟩
    · exact absurd hold hi
  refine ⟨hkept.books, fun k => ?_, fun k r' hr' hspends => ?_, hkept.covered⟩
  · by_cases hspends : r.spends image k = true
    · -- an earlier request for it would have recorded the image
      have hzero : l.countP (·.spends image k) = 0 := by
        refine List.countP_eq_zero.mpr fun r' hr' hspends' => ?_
        have hrecorded := (h.recorded k r' hr' hspends').2
        rw [(hring.otaImage_eq (hsigned k hspends)).2, imageValue, hfresh] at hrecorded
        exact hrecorded rfl
      rw [List.countP_cons, hzero, if_pos hspends]
    · rw [List.countP_cons, if_neg hspends]
      exact h.once k
  · rcases List.mem_cons.mp hr' with rfl | hr'
    · obtain ⟨hbalance, hkey⟩ := hmember k (hsigned k hspends)
      rw [hbalance, hkey, hvalue, if_pos rfl]
      exact ⟨hring.balance_ne, hring.balance_ne⟩
    · exact hkept.recorded k r' hr' hspends

theorem granted (himage : KeyImages image) (h : Spent image l σ) {r : Request} (hr : Granted σ τ r) :
    Spent image (r :: l) τ := by
  cases hring : r.ring with
  | some => exact h.granted_ring himage hring hr
  | none =>
    obtain ⟨payer, wanAddr, value, rfl⟩ : ∃ payer wanAddr value, r = .buy payer wanAddr value := by
      cases r with
      | buy payer wanAddr value => exact ⟨payer, wanAddr, value, rfl⟩
      | refund | stamp => cases hring
    have hbuy : Buy payer wanAddr value σ τ := hr
    have hmem : value ∈ stampValueSet ++ wanCoinValueSet := List.mem_append.mpr hbuy.value_mem
    have hne := (otaBalance2ContractAddr_ne value hmem).2.2
    have himages : (τ otaImageStorageAddr).bytes = (σ otaImageStorageAddr).bytes := by
      funext i
      simp [hbuy.after, Accounts.bytes_setBytes, hne.symm, show otaImageStorageAddr ≠ otaBalanceStorageAddr by decide]
    have hkept : Spent image l τ := by
      refine h.grows (h.books.buy hbuy) hr.grows fun i hold hi => absurd ?_ hi
      rwa [imageValue, himages]
    refine ⟨hkept.books, fun k => ?_, fun k r' hr' hspends => ?_, hkept.covered⟩
    · rw [List.countP_cons, if_neg (by simp [Request.spends, Request.ring])]
      exact h.once k
    · rcases List.mem_cons.mp hr' with rfl | hr'
      · simp [Request.spends, Request.ring] at hspends
      · exact hkept.recorded k r' hr' hspends

theorem replay (himage : KeyImages image) (h : Spent image [] σ) (hreplay : Replay σ l τ) : Spent image l τ := by
  induction hreplay with
  | same hsame => exact h.same hsame
  | granted _ hr hω ih => exact (ih.granted himage hr).same hω

omit [Crypto] in
theorem solvent (h : Spent image l σ) : ∑ i, σ.imageValue i ≤ ∑ k, σ.otaBalance k :=
  sum_le_sum_of_cover (σ.otaImage image) fun i hi => by
    obtain ⟨k, hk, hvalue⟩ := h.covered i hi
    exact ⟨k, hk, hvalue.le⟩

end Spent

omit [Crypto] in
theorem spent_of_blank (image : Bytes → PublicKey) (h : ∀ a, Reserved a → ∀ k, (σ a).bytes k = []) :
    Spent image [] σ := by
  refine ⟨books_of_blank h, fun k => (by simp), fun k r hr => (by cases hr), fun i hi => absurd ?_ hi⟩
  rw [imageValue, h _ (.inr (.inl rfl))]
  rfl

end GoWanchain.Vm
