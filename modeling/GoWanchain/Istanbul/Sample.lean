import GoWanchain.Istanbul.Runs
import GoWanchain.Lib.PrefixCode

/-!
# Primitives to run the model with

`Sample.primitives` is a choice of primitives that computes, so that runs of the core on concrete inputs can
be evaluated.
-/

namespace GoWanchain.Istanbul.Sample

/-! ### Bytes of an address -/

/-- The `k` low bytes of a number, least significant first. -/
def leBytes : ℕ → ℕ → Bytes
  | 0, _ => []
  | k + 1, n => UInt8.ofNat n :: leBytes k (n / 256)

def ofLeBytes : Bytes → ℕ
  | [] => 0
  | b :: rest => b.toNat + 256 * ofLeBytes rest

theorem ofLeBytes_leBytes (k n : ℕ) : ofLeBytes (leBytes k n) = n % 256 ^ k := by
  induction k generalizing n with
  | zero => simp [leBytes, ofLeBytes, Nat.mod_one]
  | succ _ ih =>
    have hbyte : (UInt8.ofNat n).toNat = n % 256 := by simp
    rw [leBytes, ofLeBytes, ih, hbyte, Nat.pow_succ', Nat.mod_mul]

theorem length_leBytes (k n : ℕ) : (leBytes k n).length = k := by
  induction k generalizing n with
  | zero => rfl
  | succ _ ih => rw [leBytes, List.length_cons, ih]

def pad (k : ℕ) (data : Bytes) : Bytes := (data ++ List.replicate k 0).take k

theorem length_pad (k : ℕ) (data : Bytes) : (pad k data).length = k := by
  simp [pad]

/-! ### Signatures -/

def sign (a : Address) (data : Bytes) : Bytes := leBytes 20 a.toNat ++ pad 45 data

def recover (data sig : Bytes) : Option Address :=
  if sig.drop 20 = pad 45 data then some (BitVec.ofNat 160 (ofLeBytes (sig.take 20))) else none

theorem recover_sign (a : Address) (data : Bytes) : recover data (sign a data) = some a := by
  have hlen : (leBytes 20 a.toNat).length = 20 := length_leBytes _ _
  have hdrop : (sign a data).drop 20 = pad 45 data := List.drop_left' hlen
  have htake : (sign a data).take 20 = leBytes 20 a.toNat := List.take_left' hlen
  have hlt : a.toNat < 256 ^ 20 := a.isLt
  rw [recover, if_pos hdrop, htake, ofLeBytes_leBytes, Nat.mod_eq_of_lt hlt, BitVec.ofNat_toNat]
  simp

/-! ### Codes of the messages -/

def bitVecCode (w : ℕ) : PrefixCode (BitVec w) :=
  PrefixCode.nat.map (BitVec.ofNat w) BitVec.toNat (by simp)

def uint64Code : PrefixCode UInt64 := PrefixCode.nat.map UInt64.ofNat UInt64.toNat (by simp)

def bytesCode : PrefixCode Bytes := PrefixCode.byte.list

def viewCode : PrefixCode View :=
  (PrefixCode.nat.prod PrefixCode.nat).map (fun p => ⟨p.1, p.2⟩) (fun v => (v.round, v.sequence)) fun _ => rfl

def blockCode : PrefixCode Block :=
  (PrefixCode.nat.prod ((bitVecCode 256).prod bytesCode)).map (fun p => ⟨p.1, p.2.1, p.2.2⟩)
    (fun b => (b.number, b.parentHash, b.body)) fun _ => rfl

def preprepareCode : PrefixCode Preprepare :=
  (viewCode.prod blockCode).map (fun p => ⟨p.1, p.2⟩) (fun p => (p.view, p.proposal)) fun _ => rfl

def subjectCode : PrefixCode Subject :=
  (viewCode.prod (bitVecCode 256)).map (fun p => ⟨p.1, p.2⟩) (fun s => (s.view, s.digest)) fun _ => rfl

def messageCode : PrefixCode Message :=
  (uint64Code.prod (bytesCode.prod ((bitVecCode 160).prod (bytesCode.prod bytesCode)))).map
    (fun p => ⟨p.1, p.2.1, p.2.2.1, p.2.2.2.1, p.2.2.2.2⟩)
    (fun m => (m.code, m.msg, m.address, m.signature, m.committedSeal)) fun _ => rfl

def hash (b : Block) : Hash := BitVec.ofNat 256 (2 * (b.number + 16 * ofLeBytes b.body) + 1)

theorem hash_ne_zero (b : Block) : hash b ≠ 0 := by
  intro h
  have hnat := congrArg BitVec.toNat h
  simp only [hash, BitVec.toNat_ofNat, BitVec.ofNat_eq_ofNat, Nat.zero_mod] at hnat
  omega

/-- The 40 hexadecimal digits of an address, most significant first. -/
def addressString (a : Address) : Bytes :=
  (List.range 40).map fun i =>
    let d := a.toNat / 16 ^ (39 - i) % 16
    UInt8.ofNat (if d < 10 then 48 + d else 87 + d)

def primitives : Primitives where
  hash := hash
  hash_ne_zero := hash_ne_zero
  addressString := addressString
  encodeMessage := messageCode.enc
  decodeMessage := messageCode.decode
  decode_encodeMessage := messageCode.decode_enc
  encodePreprepare := preprepareCode.enc
  decodePreprepare := preprepareCode.decode
  decode_encodePreprepare := preprepareCode.decode_enc
  encodeSubject := subjectCode.enc
  decodeSubject := subjectCode.decode
  decode_encodeSubject := subjectCode.decode_enc
  recover := recover
  sign := sign
  recover_sign := recover_sign
  length_sign a data := by
    rw [sign, List.length_append, length_leBytes, length_pad]
    rfl

/-! ### A backend and the messages of other validators -/

def genesis : Block := ⟨0, 0, []⟩

/-- A backend of `n` validators whose chain ends with `head`; it finds every block valid, and nothing
it is asked to do fails. -/
def backend (n : ℕ) (head : Block) : Backend where
  lastProposal _ := (head, 0)
  validators _ := validators n
  parentValidators _ := validators n
  getProposer _ := 0
  hasPropsal h number := decide (hash head = h ∧ head.number = number)
  verify _ := .ok
  hasBadProposal _ _ := false
  commitFails _ _ := false
  signFails _ := false
  popMessage _ := 0
  popRequest _ := 0

def signedAs (signer a : Address) (code : UInt64) (msg committedSeal : Bytes) : Message :=
  let m : Message := ⟨code, msg, a, [], committedSeal⟩
  { m with signature := sign signer (m.payloadNoSig primitives) }

def preprepareOf (a : Address) (pp : Preprepare) : Message :=
  signedAs a a msgPreprepare (preprepareCode.enc pp) []

def prepareOf (a : Address) (sub : Subject) : Message :=
  signedAs a a msgPrepare (subjectCode.enc sub) []

def commitOf (a : Address) (sub : Subject) (committedSeal : Bytes) : Message :=
  signedAs a a msgCommit (subjectCode.enc sub) committedSeal

def roundChangeOf (a : Address) (view : View) : Message :=
  signedAs a a msgRoundChange (subjectCode.enc ⟨view, 0⟩) []

def deliver (m : Message) : Event := .message (messageCode.enc m)

def two : Core := Core.start primitives (backend 4 genesis) 2

def afterTwo (l : List Input) : Core := Run.run (advance primitives) two l

/-- The proposer of round 0 of sequence 1 proposes `block`, and three validators send COMMITs. -/
def decideRun (block : Block) : List Input :=
  let sub : Subject := ⟨⟨0, 1⟩, hash block⟩
  [(backend 4 genesis, deliver (preprepareOf 1 ⟨⟨0, 1⟩, block⟩)),
    (backend 4 genesis, deliver (commitOf 1 sub (sign 1 (prepareCommittedSeal (hash block))))),
    (backend 4 genesis, deliver (commitOf 3 sub (sign 3 (prepareCommittedSeal (hash block))))),
    (backend 4 genesis, deliver (commitOf 4 sub (sign 4 (prepareCommittedSeal (hash block)))))]

end GoWanchain.Istanbul.Sample
